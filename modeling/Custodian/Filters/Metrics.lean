import Custodian.Lib.Dict
import Custodian.Lib.Except
import Custodian.Lib.Json

/-!
# Metrics filters

`MetricsFilter.process_resource_set` of `c7n/filters/metrics.py` on one resource: the
data of a metric are fetched, kept on the resource under a key made of some of the
parameters of the request, and compared with a value.
-/

namespace Custodian.Metrics

open Py

/-! ## Requests and data -/

/-- A data point: numbers by statistic, or under `ExtendedStatistics`. -/
structure Datapoint where
  stats : List (Text × ℚ)
  extended : Option (List (Text × ℚ)) := none
  deriving DecidableEq

/-- The parameters of `get_metric_statistics`. -/
structure Params where
  nameSpace : Text
  metricName : Text
  startTime : Int
  endTime : Int
  period : Int
  dimensions : List (Text × Json)
  statsKey : Text
  statistics : Text

/-- A service that has the same data for the same request. -/
abbrev Service := Params → List Datapoint

/-- A resource with its attributes and the `c7n.metrics` that filters have left on it. -/
structure Resource where
  attrs : List (Text × Json)
  metrics : Option (Dict Text (List Datapoint)) := none

/-! ## Operators -/

/-- `OPERATORS` -/
inductive Operator where
  | eq | ne | gt | ge | le | lt
  | glob | regex | regexCase
  | isIn | notIn | contains | difference | intersect
  | mod
  deriving DecidableEq, Repr

def operators : List (String × Operator) :=
  [("eq", .eq), ("equal", .eq), ("ne", .ne), ("not-equal", .ne), ("gt", .gt),
   ("greater-than", .gt), ("ge", .ge), ("gte", .ge), ("le", .le), ("lte", .le), ("lt", .lt),
   ("less-than", .lt), ("glob", .glob), ("regex", .regex), ("regex-case", .regexCase),
   ("in", .isIn), ("ni", .notIn), ("not-in", .notIn), ("contains", .contains),
   ("difference", .difference), ("intersect", .intersect), ("mod", .mod)]

/-- An operator on numbers: patterns match texts only, and a number has no members. -/
def Operator.apply (x y : ℚ) : Operator → Except Exn Bool
  | .eq => .ok (x = y)
  | .ne => .ok (x ≠ y)
  | .gt => .ok (y < x)
  | .ge => .ok (y ≤ x)
  | .le => .ok (x ≤ y)
  | .lt => .ok (x < y)
  | .glob | .regex | .regexCase => .ok false
  | .isIn | .notIn | .contains | .difference | .intersect => .error .typeError
  | .mod =>
    if y = 0 then .error (.raised "ZeroDivisionError".toList)
    else .ok (x - y * (x / y).floor ≠ 0)

/-! ## Filters -/

/-- The attributes of a filter when it looks at resources; `days` as `str` writes it. -/
structure MetricsFilter where
  nameSpace : Text
  metric : Text
  statistics : Text := "Average".toList
  days : Text := "14".toList
  startTime : Int
  endTime : Int
  period : Int
  dimension : Text
  dimensions : List (Text × Text) := []
  op : Operator := .lt
  value : ℚ
  missingValue : Option ℚ := none
  percentAttr : Text := []
  attrMultiplier : ℚ := 0

def standardStats : List Text :=
  ["Average".toList, "Sum".toList, "Maximum".toList, "Minimum".toList, "SampleCount".toList]

namespace MetricsFilter

variable (f : MetricsFilter)

/-- The key that data are kept under. -/
def key : Text :=
  f.nameSpace ++ '.' :: f.metric ++ '.' :: f.statistics ++ '.' :: f.days

/-- `r[k]` -/
def attr (attrs : List (Text × Json)) (k : Text) : Except Exn Json :=
  match attrs.lookup k with
  | some v => .ok v
  | none => .error .keyError

def getDimensions (attrs : List (Text × Json)) : Except Exn (List (Text × Json)) := do
  let v ← attr attrs f.dimension
  return [(f.dimension, v)]

def getUserDimensions : List (Text × Json) := f.dimensions.map fun d => (d.1, .str d.2)

def params (attrs : List (Text × Json)) : Except Exn Params := do
  let dimensions ← f.getDimensions attrs
  return {
    nameSpace := f.nameSpace
    metricName := f.metric
    startTime := f.startTime
    endTime := f.endTime
    period := f.period
    dimensions := dimensions ++ f.getUserDimensions
    statsKey :=
      if f.statistics ∈ standardStats then "Statistics".toList else "ExtendedStatistics".toList
    statistics := f.statistics }

/-- Data with the fill value where there are none. -/
def fill (pts : List Datapoint) : List Datapoint :=
  match pts, f.missingValue with
  | [], some m => [{ stats := [(f.statistics, m)] }]
  | pts, _ => pts

/-- `stats[self.statistics]` -/
def statistic (stats : List (Text × ℚ)) : Except Exn ℚ :=
  match stats.lookup f.statistics with
  | some x => .ok x
  | none => .error .keyError

/-- The points are looked at until one does not meet the condition. -/
def allMeet (meets : Datapoint → Except Exn Bool) : List Datapoint → Except Exn Bool
  | [] => .ok true
  | p :: ps => do if ← meets p then allMeet meets ps else return false

/-- A number that takes part in arithmetic. -/
def number : Json → Except Exn ℚ
  | .num q => .ok q
  | .bool b => .ok (if b then 1 else 0)
  | _ => .error .typeError

/-- `r[percent-attr]`, multiplied where a multiplier is given. -/
def percentBase (attrs : List (Text × Json)) : Except Exn ℚ := do
  let v ← attr attrs f.percentAttr
  let rvalue ← number v
  return if f.attrMultiplier = 0 then rvalue else rvalue * f.attrMultiplier

def meetsPercent (rvalue : ℚ) (p : Datapoint) : Except Exn Bool := do
  let x ← f.statistic p.stats
  if rvalue = 0 then .error (.raised "ZeroDivisionError".toList)
  else f.op.apply (x / rvalue * 100) f.value

def meetsValue (p : Datapoint) : Except Exn Bool := do
  let x ← f.statistic (p.extended.getD p.stats)
  f.op.apply x f.value

def evaluate (attrs : List (Text × Json)) (pts : List Datapoint) : Except Exn Bool :=
  if f.percentAttr = [] then allMeet f.meetsValue pts
  else do
    let rvalue ← f.percentBase attrs
    allMeet (f.meetsPercent rvalue) pts

/-- The verdict on the data of a metric: no match where there are none to compare. -/
def judge (attrs : List (Text × Json)) (pts : List Datapoint) : Except Exn Bool :=
  if f.fill pts = [] then .ok false else f.evaluate attrs (f.fill pts)

/-- `process_resource_set` on one resource: the verdict, and the resource then. -/
def process (service : Service) (r : Resource) : Except Exn Bool × Resource :=
  match f.params r.attrs with
  | .error e => (.error e, r)
  | .ok params =>
    let collected := r.metrics.getD ∅
    let pts := (collected.lookup f.key).getD (service params)
    (f.judge r.attrs pts, { r with metrics := some (collected.insert f.key (f.fill pts)) })

end MetricsFilter

/-! ## One filter after another -/

/-- The verdict of `g` is the one it has when `f` has not been run before. -/
def NotInfluenced (f g : MetricsFilter) (r : Resource) : Prop :=
  ∀ service : Service, (g.process service (f.process service r).2).1 = (g.process service r).1

/-- The fill value of `f` makes no difference to `g`. -/
def FillHarmless (f g : MetricsFilter) (r : Resource) : Prop :=
  g.judge r.attrs (f.fill []) = g.judge r.attrs []

/-- The verdict of `g` is one for all data. -/
def Blind (g : MetricsFilter) (r : Resource) : Prop :=
  ∀ pts pts', g.judge r.attrs pts = g.judge r.attrs pts'

/-- The data that a resource has under a key. -/
def Resource.cached (r : Resource) (k : Text) : Option (List Datapoint) :=
  (r.metrics.getD ∅).lookup k

theorem fill_of_ne_nil (f : MetricsFilter) {pts : List Datapoint} (h : pts ≠ []) :
    f.fill pts = pts := by
  cases pts with
  | nil => exact absurd rfl h
  | cons p pts => rfl

theorem judge_fill (f g : MetricsFilter) (r : Resource) (pts : List Datapoint)
    (h : pts ≠ [] ∨ FillHarmless f g r) : g.judge r.attrs (f.fill pts) = g.judge r.attrs pts := by
  by_cases hp : pts = []
  · rw [hp]
    exact h.resolve_left fun h => h hp
  · rw [fill_of_ne_nil f hp]

section Runs

variable {f g : MetricsFilter} {r : Resource} {p q : Params} (service : Service)

theorem process_first (hq : g.params r.attrs = .ok q) :
    (g.process service r).1 = g.judge r.attrs ((r.cached g.key).getD (service q)) := by
  simp only [MetricsFilter.process, hq, Resource.cached]

theorem cached_process (hp : f.params r.attrs = .ok p) (k : Text) :
    (f.process service r).2.cached k =
      if k = f.key then some (f.fill ((r.cached f.key).getD (service p))) else r.cached k := by
  simp only [MetricsFilter.process, hp, Resource.cached, Option.getD_some]
  split
  · rename_i hk
    rw [hk, AList.lookup_insert]
  · rename_i hk
    rw [AList.lookup_insert_ne hk]

theorem process_error {e : Exn} (hp : f.params r.attrs = .error e) :
    f.process service r = (.error e, r) := by
  simp only [MetricsFilter.process, hp]

theorem attrs_process : (f.process service r).2.attrs = r.attrs := by
  rw [MetricsFilter.process]
  split <;> rfl

theorem process_after (hp : f.params r.attrs = .ok p) (hq : g.params r.attrs = .ok q) :
    (g.process service (f.process service r).2).1 = g.judge r.attrs
      (if g.key = f.key then f.fill ((r.cached f.key).getD (service p))
        else (r.cached g.key).getD (service q)) := by
  have hq' : g.params (f.process service r).2.attrs = .ok q := by rw [attrs_process, hq]
  rw [process_first service hq', attrs_process, cached_process service hp]
  split <;> rfl

end Runs

theorem cached_iff (f g : MetricsFilter) (r : Resource) (pts : List Datapoint) :
    g.judge r.attrs (f.fill pts) = g.judge r.attrs pts ↔ pts ≠ [] ∨ FillHarmless f g r := by
  refine ⟨fun h => ?_, judge_fill f g r pts⟩
  by_cases hp : pts = []
  · subst hp
    exact Or.inr h
  · exact Or.inl hp

theorem fetched_iff (f g : MetricsFilter) (r : Resource) (p q : Params) :
    (∀ service : Service,
        g.judge r.attrs (f.fill (service p)) = g.judge r.attrs (service q)) ↔
      Blind g r ∨ p = q ∧ FillHarmless f g r := by
  classical
  constructor
  · intro h
    by_cases hpq : p = q
    · exact Or.inr ⟨hpq, h fun _ => []⟩
    · refine Or.inl fun pts pts' => ?_
      have hany : ∀ pts, g.judge r.attrs (f.fill []) = g.judge r.attrs pts := by
        intro pts
        have hs := h fun x => if x = p then [] else pts
        simpa [Ne.symm hpq] using hs
      rw [← hany pts, ← hany pts']
  · rintro (h | ⟨rfl, h⟩) service
    · exact h _ _
    · exact judge_fill f g r _ (Or.inr h)

/-- **Influence.**  A filter that ran before does not change the verdict exactly when the
keys differ, a request cannot be made, the verdict is one for all data, or the data are
the same and the fill value makes no difference where there are none. -/
theorem notInfluenced_iff (f g : MetricsFilter) (r : Resource) :
    NotInfluenced f g r ↔
      f.key ≠ g.key ∨ (∃ e, f.params r.attrs = .error e) ∨ (∃ e, g.params r.attrs = .error e) ∨
      (∃ pts, r.cached g.key = some pts ∧ (pts ≠ [] ∨ FillHarmless f g r)) ∨
      r.cached g.key = none ∧
        (Blind g r ∨ f.params r.attrs = g.params r.attrs ∧ FillHarmless f g r) := by
  cases hp : f.params r.attrs with
  | error e =>
    exact iff_of_true (fun service => by rw [process_error service hp]) (Or.inr (Or.inl ⟨e, rfl⟩))
  | ok p =>
    cases hq : g.params r.attrs with
    | error e =>
      refine iff_of_true (fun service => ?_) (Or.inr (Or.inr (Or.inl ⟨e, rfl⟩)))
      have hq' : g.params (f.process service r).2.attrs = .error e := by rw [attrs_process, hq]
      rw [process_error service hq', process_error service hq]
    | ok q =>
      by_cases hk : f.key = g.key
      · have hverdict : NotInfluenced f g r ↔ ∀ service : Service,
            g.judge r.attrs (f.fill ((r.cached g.key).getD (service p))) =
              g.judge r.attrs ((r.cached g.key).getD (service q)) := by
          refine forall_congr' fun service => ?_
          rw [process_after service hp hq, process_first service hq, if_pos hk.symm, hk]
        rw [hverdict]
        cases hc : r.cached g.key with
        | some pts => simpa [hk] using cached_iff f g r pts
        | none => simpa [hk] using fetched_iff f g r p q
      · refine iff_of_true (fun service => ?_) (Or.inl hk)
        rw [process_after service hp hq, process_first service hq, if_neg (Ne.symm hk)]

/-! ## A fill value taken for data -/

/-- The average load of an instance over two weeks is below a value. -/
def cpuBelow (value : ℚ) (missingValue : Option ℚ) : MetricsFilter where
  nameSpace := "AWS/EC2".toList
  metric := "CPUUtilization".toList
  startTime := 0
  endTime := 1209600
  period := 1209600
  dimension := "InstanceId".toList
  value := value
  missingValue := missingValue

def instance1 : Resource where
  attrs := [("InstanceId".toList, .str "i-1".toList)]

/-- An instance without data does not match a filter that has no fill value, but it does
after one that has. -/
theorem fill_leaks :
    ((cpuBelow 5 none).process (fun _ => []) instance1).1 = .ok false ∧
    ((cpuBelow 5 none).process (fun _ => [])
      ((cpuBelow 1 (some 0)).process (fun _ => []) instance1).2).1 = .ok true ∧
    ¬ NotInfluenced (cpuBelow 1 (some 0)) (cpuBelow 5 none) instance1 := by
  have hfirst : ((cpuBelow 5 none).process (fun _ => []) instance1).1 = .ok false := rfl
  have hafter : ((cpuBelow 5 none).process (fun _ => [])
      ((cpuBelow 1 (some 0)).process (fun _ => []) instance1).2).1 = .ok true := by
    decide +kernel
  refine ⟨hfirst, hafter, fun h => ?_⟩
  have hsame := h fun _ => []
  rw [hfirst, hafter] at hsame
  cases hsame

end Custodian.Metrics

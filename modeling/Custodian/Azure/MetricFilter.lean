import Custodian.Filters.MetricWindow
import Custodian.Lib.Dict
import Custodian.Lib.Escapes

/-!
# Metric filters of Azure

`MetricFilter` of `c7n_azure/filters.py` requests a metric of a resource, reduces its values by a
function of `Math`, and compares the result with a threshold.  What it measures is kept on the
resource, under a key made of some of the parameters, for the filters after it.
-/

namespace Custodian.AzureMetrics

open Py Clock Timedelta
open MetricWindow (Window PeriodStart snapToPeriodStart hour)

/-! ## Responses -/

inductive Aggregation where
  | average
  | total
  | count
  | minimum
  | maximum
  deriving DecidableEq

/-- A data point. -/
structure MetricValue where
  average : Option ℚ
  total : Option ℚ
  count : Option ℚ
  minimum : Option ℚ
  maximum : Option ℚ

/-- `getattr(item, aggregation)` -/
def MetricValue.get (item : MetricValue) : Aggregation → Option ℚ
  | .average => item.average
  | .total => item.total
  | .count => item.count
  | .minimum => item.minimum
  | .maximum => item.maximum

/-- A metric with the data of each of its time series. -/
structure Metric where
  timeseries : List (List MetricValue)

/-- The value of a response. -/
abbrev Response := List Metric

/-- The arguments of `metrics.list`. -/
structure Request where
  resourceId : Text
  timespan : Window
  interval : Int
  metricnames : Text
  aggregation : Aggregation
  metricnamespace : Option Text
  filter : Option Text

/-- A service that gives the same response to the same request, or nothing for an
`HttpResponseError`. -/
abbrev Service := Request → Option Response

/-! ## Numbers -/

namespace Math

/-- The numbers that are not `None`. -/
def clean (numbers : List (Option ℚ)) : List ℚ := numbers.filterMap id

def valueError : Exn := .raised "ValueError".toList

def mean (numbers : List (Option ℚ)) : Except Exn ℚ :=
  .ok ((clean numbers).sum / (max (clean numbers).length 1 : Nat))

def sum (numbers : List (Option ℚ)) : Except Exn ℚ := .ok (clean numbers).sum

/-- `max`, and `min`, of an empty list are errors. -/
def max (numbers : List (Option ℚ)) : Except Exn ℚ :=
  match (clean numbers).max? with
  | some x => .ok x
  | none => .error valueError

def min (numbers : List (Option ℚ)) : Except Exn ℚ :=
  match (clean numbers).min? with
  | some x => .ok x
  | none => .error valueError

end Math

/-- `aggregation_funcs` -/
def Aggregation.func : Aggregation → List (Option ℚ) → Except Exn ℚ
  | .average => Math.mean
  | .total => Math.sum
  | .count => Math.sum
  | .minimum => Math.min
  | .maximum => Math.max

/-- `scalar_ops` -/
inductive ScalarOp where
  | eq
  | ne
  | gt
  | ge
  | le
  | lt
  deriving DecidableEq

def ScalarOp.apply (x y : ℚ) : ScalarOp → Bool
  | .eq => x = y
  | .ne => x ≠ y
  | .gt => y < x
  | .ge => y ≤ x
  | .le => x ≤ y
  | .lt => x < y

/-! ## Filters -/

inductive NoDataAction where
  | «include»
  | exclude
  | toZero
  deriving DecidableEq

structure Dimension where
  name : Text
  value : Text
  deriving DecidableEq

/-- The attributes of a filter; the interval in microseconds. -/
structure MetricFilter where
  metric : Text
  op : ScalarOp
  threshold : ℚ
  timeframe : Option ℚ := some 24
  interval : Int := day
  aggregation : Aggregation := .average
  filter : Option Text := none
  noDataAction : NoDataAction := .exclude
  metricnamespace : Option Text := none
  periodStart : PeriodStart := .auto
  dimensions : List Dimension := []

/-- The attributes of a resource that filters read. -/
structure Resource where
  id : Text
  parentId : Option Text := none
  name : Option Text := none

/-- A list of values, or nothing where there are no data. -/
abbrev Measurement := Option (List (Option ℚ))

/-- The measurements under `c7n:metrics` of a resource. -/
abbrev Metrics := Dict Text Measurement

/-- How numbers, durations and lists are written by `format`. -/
structure Format where
  float : Option ℚ → Text
  duration : Int → Text
  dimensions : List Dimension → Text

def policyExecutionError : Exn := .raised "PolicyExecutionError".toList

/-- `resolve_dimension_value` -/
def resolveDimensionValue (r : Resource) (value : Text) : Option Text :=
  if value = "resource-name".toList then r.name
  else if value = "resource-id".toList then some r.id
  else some value

/-- A clause of the filter of a request. -/
def clause (r : Resource) (d : Dimension) : Except Exn Text :=
  match resolveDimensionValue r d.value with
  | none => .error policyExecutionError
  | some value => .ok (d.name ++ " eq '".toList ++
      Escapes.replace "'".toList "''".toList value ++ "'".toList)

namespace MetricFilter

variable (f : MetricFilter)

/-- The time that data are requested for. -/
def timespan (endTime : Int) : Except Exn Window := do
  let timeframe ← timedelta [(hour, .float f.timeframe)]
  let startTime ← datetime (endTime - timeframe)
  return snapToPeriodStart startTime endTime f.periodStart

/-- `get_resource_id` -/
def getResourceId (r : Resource) : Text := if f.dimensions = [] then r.id else r.parentId.getD r.id

/-- `get_filter` -/
def getFilter (r : Resource) : Except Exn (Option Text) :=
  if f.dimensions = [] then .ok f.filter
  else do
    let clauses ← f.dimensions.mapM (clause r)
    let dimFilter := List.intercalate " and ".toList clauses
    return some (match f.filter with
      | none => dimFilter
      | some filter => if filter = [] then dimFilter else filter ++ " and ".toList ++ dimFilter)

/-- `_get_metrics_cache_key` -/
def cacheKey (format : Format) : Text :=
  let aggregation := match f.aggregation with
    | .average => "average".toList
    | .total => "total".toList
    | .count => "count".toList
    | .minimum => "minimum".toList
    | .maximum => "maximum".toList
  List.intercalate ", ".toList [f.metric, aggregation, format.float f.timeframe,
    format.duration f.interval, f.filter.getD "None".toList, format.dimensions f.dimensions]

def request (timespan : Window) (r : Resource) : Except Exn Request := do
  let filter ← f.getFilter r
  return {
    resourceId := f.getResourceId r
    timespan := timespan
    interval := f.interval
    metricnames := f.metric
    aggregation := f.aggregation
    metricnamespace := f.metricnamespace
    filter := filter }

/-- The values of the first series of the first metric. -/
def values (response : Response) : Measurement :=
  match response with
  | [] => none
  | metric :: _ =>
    match metric.timeseries with
    | [] => none
    | data :: _ => some (data.map fun item => item.get f.aggregation)

/-- The values as `no_data_action` has them. -/
def measurement (response : Response) : Measurement :=
  if f.noDataAction = .toZero then
    match f.values response with
    | none => some [some 0]
    | some m => some (m.map fun v => some (v.getD 0))
  else f.values response

/-- `get_metric_data` -/
def getMetricData (format : Format) (service : Service) (timespan : Window) (r : Resource)
    (metrics : Metrics) : Except Exn (Measurement × Metrics) :=
  match metrics.lookup (f.cacheKey format) with
  | some m => .ok (m, metrics)
  | none => do
    let request ← f.request timespan r
    match service request with
    | none => return (none, metrics)
    | some response =>
      let m := f.measurement response
      return (m, metrics.insert (f.cacheKey format) m)

/-- The verdict on a measurement. -/
def judge (m : Measurement) : Except Exn Bool :=
  match m with
  | none => .ok (f.noDataAction = .«include»)
  | some m => (f.aggregation.func m).map fun value => f.op.apply value f.threshold

/-- `passes_op_filter` -/
def passesOpFilter (format : Format) (service : Service) (timespan : Window) (r : Resource)
    (metrics : Metrics) : Except Exn (Bool × Metrics) := do
  let (m, metrics) ← f.getMetricData format service timespan r metrics
  let passes ← f.judge m
  return (passes, metrics)

/-- `process`: the verdict on every resource, and its measurements then. -/
def process (format : Format) (service : Service) (now : Int)
    (resources : List (Resource × Metrics)) : Except Exn (List (Bool × Metrics)) := do
  let timespan ← f.timespan now
  resources.mapM fun r => f.passesOpFilter format service timespan r.1 r.2

end MetricFilter

/-! ## Values that are reduced -/

/-- The least or the greatest value, which there is of some numbers only. -/
def Aggregation.Extreme (a : Aggregation) : Prop := a = .minimum ∨ a = .maximum

theorem clean_eq_nil_iff {xs : List (Option ℚ)} : Math.clean xs = [] ↔ ∀ x ∈ xs, x = none := by
  simp [Math.clean, List.filterMap_eq_nil_iff]

theorem exists_func_iff (a : Aggregation) (xs : List (Option ℚ)) :
    (∃ x, a.func xs = .ok x) ↔ (a.Extreme → ∃ x ∈ xs, x ≠ none) := by
  have hsome : (∃ x ∈ xs, x ≠ none) ↔ Math.clean xs ≠ [] := by
    rw [Ne, clean_eq_nil_iff]
    push Not
    rfl
  rw [hsome]
  cases a with
  | average => exact iff_of_true ⟨_, rfl⟩ fun h => by cases h <;> contradiction
  | total => exact iff_of_true ⟨_, rfl⟩ fun h => by cases h <;> contradiction
  | count => exact iff_of_true ⟨_, rfl⟩ fun h => by cases h <;> contradiction
  | minimum =>
    rw [Aggregation.Extreme, forall_prop_of_true (Or.inl rfl), Aggregation.func, Math.min,
      Ne, ← List.min?_eq_none_iff.not]
    cases (Math.clean xs).min? <;> simp
  | maximum =>
    rw [Aggregation.Extreme, forall_prop_of_true (Or.inr rfl), Aggregation.func, Math.max,
      Ne, ← List.max?_eq_none_iff.not]
    cases (Math.clean xs).max? <;> simp

theorem func_of_nulls {a : Aggregation} (ha : ¬a.Extreme) {xs : List (Option ℚ)}
    (h : ∀ x ∈ xs, x = none) : a.func xs = .ok 0 := by
  rw [← clean_eq_nil_iff] at h
  cases a with
  | average => simp [Aggregation.func, Math.mean, h]
  | total => simp [Aggregation.func, Math.sum, h]
  | count => simp [Aggregation.func, Math.sum, h]
  | minimum => exact absurd (Or.inl rfl) ha
  | maximum => exact absurd (Or.inr rfl) ha

theorem func_of_zeros (a : Aggregation) (n : ℕ) :
    a.func (List.replicate (n + 1) (some 0)) = .ok 0 := by
  have hclean : Math.clean (List.replicate (n + 1) (some 0)) = List.replicate (n + 1) 0 := by
    simp [Math.clean]
  cases a with
  | average => simp [Aggregation.func, Math.mean, hclean]
  | total => simp [Aggregation.func, Math.sum, hclean]
  | count => simp [Aggregation.func, Math.sum, hclean]
  | minimum => simp [Aggregation.func, Math.min, hclean]
  | maximum => simp [Aggregation.func, Math.max, hclean]

/-! ## One filter -/

namespace MetricFilter

variable (f : MetricFilter)

/-- A measurement without a number: there are no data, or all values are null. -/
def NoValues (m : Measurement) : Prop := ∀ xs, m = some xs → ∀ x ∈ xs, x = none

/-- A measurement can be reduced. -/
def Reduces (m : Measurement) : Prop :=
  ∀ xs, m = some xs → f.aggregation.Extreme → ∃ x ∈ xs, x ≠ none

/-- The verdict on a measurement that can be reduced. -/
def verdictOn (m : Measurement) : Bool :=
  match m with
  | none => f.noDataAction = .«include»
  | some xs => f.op.apply ((f.aggregation.func xs).toOption.getD 0) f.threshold

/-- The verdict on missing data. -/
def onMissing : Bool :=
  match f.noDataAction with
  | .«include» => true
  | .exclude => false
  | .toZero => f.op.apply 0 f.threshold

/-- The dimensions have values. -/
def Resolves (r : Resource) : Prop :=
  ∀ d ∈ f.dimensions, (resolveDimensionValue r d.value).isSome = true

/-- What the filter measures on a resource that has no measurements. -/
def fetched (service : Service) (timespan : Window) (r : Resource) : Measurement :=
  match f.request timespan r with
  | .error _ => none
  | .ok request => (service request).bind f.measurement

end MetricFilter

variable {f g : MetricFilter}

theorem judge_eq_ok_iff {m : Measurement} {b : Bool} :
    f.judge m = .ok b ↔ f.Reduces m ∧ b = f.verdictOn m := by
  cases m with
  | none => simp [MetricFilter.judge, MetricFilter.Reduces, MetricFilter.verdictOn, eq_comm]
  | some xs =>
    have hreduces : f.Reduces (some xs) ↔ ∃ x, f.aggregation.func xs = .ok x := by
      simp [MetricFilter.Reduces, exists_func_iff]
    rw [hreduces, MetricFilter.judge, MetricFilter.verdictOn]
    cases f.aggregation.func xs with
    | error e => simp [Except.map]
    | ok x => simp [Except.map, Except.toOption, eq_comm]

theorem exists_clause_iff {r : Resource} {d : Dimension} :
    (∃ t, clause r d = .ok t) ↔ (resolveDimensionValue r d.value).isSome = true := by
  rw [clause]
  cases resolveDimensionValue r d.value <;> simp

theorem exists_request_iff {timespan : Window} {r : Resource} :
    (∃ request, f.request timespan r = .ok request) ↔ f.Resolves r := by
  have hfilter : (∃ t, f.getFilter r = .ok t) ↔ f.Resolves r := by
    rw [MetricFilter.getFilter, MetricFilter.Resolves]
    by_cases hnil : f.dimensions = []
    · simp [hnil]
    · rw [if_neg hnil, exists_bind_eq_ok]
      simp only [← exists_clause_iff, ← exists_mapM_eq_ok_iff]
      exact exists_congr fun clauses => and_iff_left ⟨_, rfl⟩
  rw [← hfilter, MetricFilter.request, exists_bind_eq_ok]
  exact exists_congr fun filter => and_iff_left ⟨_, rfl⟩

/-- A series without numbers is taken for missing data: with `to_zero`, unless the least or the
greatest value of no data points is asked for; otherwise by a sum or a mean that compares with the
threshold as `no_data_action` says. -/
def MetricFilter.TakesForMissing (f : MetricFilter) (response : Response) : Prop :=
  ∀ xs, f.values response = some xs → (∀ x ∈ xs, x = none) →
    if f.noDataAction = .toZero then xs = [] → ¬f.aggregation.Extreme
    else ¬f.aggregation.Extreme ∧ f.op.apply 0 f.threshold = f.onMissing

theorem verdictOn_of_func {xs : List (Option ℚ)} {x : ℚ} (h : f.aggregation.func xs = .ok x) :
    f.verdictOn (some xs) = f.op.apply x f.threshold := by
  rw [MetricFilter.verdictOn, h]
  rfl

theorem reduces_some_iff {xs : List (Option ℚ)} :
    f.Reduces (some xs) ↔ (f.aggregation.Extreme → ∃ x ∈ xs, x ≠ none) := by
  simp [MetricFilter.Reduces]

theorem reduces_nulls_iff {xs : List (Option ℚ)} (h : ∀ x ∈ xs, x = none) :
    f.Reduces (some xs) ↔ ¬f.aggregation.Extreme := by
  rw [reduces_some_iff]
  refine forall_congr' fun _ => iff_of_false ?_ id
  rintro ⟨x, hx, hne⟩
  exact hne (h x hx)

theorem measurement_of_values_none {response : Response} (h : f.values response = none) :
    f.Reduces (f.measurement response) ∧ f.verdictOn (f.measurement response) = f.onMissing := by
  rw [MetricFilter.measurement, h, MetricFilter.onMissing]
  cases haction : f.noDataAction with
  | «include» => simp [MetricFilter.Reduces, MetricFilter.verdictOn, haction]
  | exclude => simp [MetricFilter.Reduces, MetricFilter.verdictOn, haction]
  | toZero =>
    simp only [if_true]
    refine ⟨reduces_some_iff.mpr fun _ => ⟨some 0, by simp⟩, ?_⟩
    exact verdictOn_of_func (func_of_zeros f.aggregation 0)

theorem measurement_of_nulls {response : Response} {xs : List (Option ℚ)}
    (hvalues : f.values response = some xs) (hnull : ∀ x ∈ xs, x = none) :
    f.Reduces (f.measurement response) ∧ f.verdictOn (f.measurement response) = f.onMissing ↔
      if f.noDataAction = .toZero then xs = [] → ¬f.aggregation.Extreme
      else ¬f.aggregation.Extreme ∧ f.op.apply 0 f.threshold = f.onMissing := by
  rw [MetricFilter.measurement, hvalues]
  by_cases haction : f.noDataAction = .toZero
  · rw [if_pos haction, if_pos haction]
    have hmissing : f.onMissing = f.op.apply 0 f.threshold := by
      rw [MetricFilter.onMissing, haction]
    cases xs with
    | nil =>
      simp only [List.map_nil, forall_const]
      rw [reduces_nulls_iff hnull]
      refine and_iff_left_of_imp fun hextreme => ?_
      rw [hmissing]
      exact verdictOn_of_func (func_of_nulls hextreme hnull)
    | cons x xs =>
      have hzeros : (x :: xs).map (fun v => some (v.getD 0)) =
          List.replicate (xs.length + 1) (some (0 : ℚ)) := by
        rw [List.eq_replicate_iff]
        refine ⟨by simp, fun y hy => ?_⟩
        obtain ⟨v, hv, rfl⟩ := List.mem_map.mp hy
        rw [hnull v hv]
        rfl
      simp only [hzeros]
      refine iff_of_true ⟨reduces_some_iff.mpr fun _ => ⟨some 0, by simp⟩, ?_⟩ fun h => by cases h
      rw [hmissing]
      exact verdictOn_of_func (func_of_zeros f.aggregation xs.length)
  · rw [if_neg haction, if_neg haction, reduces_nulls_iff hnull]
    refine and_congr_right fun hextreme => ?_
    rw [verdictOn_of_func (func_of_nulls hextreme hnull)]

theorem measurement_iff {response : Response} :
    f.Reduces (f.measurement response) ∧
        (MetricFilter.NoValues (f.values response) →
          f.verdictOn (f.measurement response) = f.onMissing) ↔
      f.TakesForMissing response := by
  rw [MetricFilter.TakesForMissing, MetricFilter.NoValues]
  cases hvalues : f.values response with
  | none =>
    obtain ⟨hreduces, hverdict⟩ := measurement_of_values_none hvalues
    exact iff_of_true ⟨hreduces, fun _ => hverdict⟩ fun xs h => by cases h
  | some xs =>
    simp only [Option.some.injEq, forall_eq']
    by_cases hnull : ∀ x ∈ xs, x = none
    · rw [forall_prop_of_true hnull, forall_prop_of_true hnull]
      exact measurement_of_nulls hvalues hnull
    · refine iff_of_true ⟨?_, fun h => absurd h hnull⟩ fun h => absurd h hnull
      push Not at hnull
      obtain ⟨x, hx, hne⟩ := hnull
      rw [MetricFilter.measurement, hvalues]
      split
      · exact reduces_some_iff.mpr fun _ => ⟨some (x.getD 0), List.mem_map_of_mem hx, by simp⟩
      · exact reduces_some_iff.mpr fun _ => ⟨x, hx, hne⟩

/-! ## One filter after another -/

section Runs

variable (format : Format) (service : Service) (r : Resource)

theorem passesOpFilter_of_lookup (timespan : Window) {metrics : Metrics} {m : Measurement}
    (h : metrics.lookup (f.cacheKey format) = some m) :
    (f.passesOpFilter format service timespan r metrics).map Prod.fst = f.judge m := by
  rw [MetricFilter.passesOpFilter, MetricFilter.getMetricData, h]
  change ((f.judge m).bind fun passes => .ok (passes, metrics)).map Prod.fst = f.judge m
  cases f.judge m <;> rfl

/-- The measurements after a request. -/
def keep (f : MetricFilter) (metrics : Metrics) (response : Option Response) : Metrics :=
  match response with
  | none => metrics
  | some response => metrics.insert (f.cacheKey format) (f.measurement response)

theorem fetched_eq {timespan : Window} {request : Request}
    (hrequest : f.request timespan r = .ok request) :
    f.fetched service timespan r = (service request).bind f.measurement := by
  rw [MetricFilter.fetched, hrequest]

theorem passesOpFilter_of_request {timespan : Window} {metrics : Metrics} {request : Request}
    (h : metrics.lookup (f.cacheKey format) = none)
    (hrequest : f.request timespan r = .ok request) :
    f.passesOpFilter format service timespan r metrics =
      (f.judge (f.fetched service timespan r)).map fun b =>
        (b, keep format f metrics (service request)) := by
  have hdata : f.getMetricData format service timespan r metrics =
      .ok (f.fetched service timespan r, keep format f metrics (service request)) := by
    rw [MetricFilter.getMetricData, h, fetched_eq service r hrequest, hrequest]
    simp only [ok_bind]
    cases service request <;> rfl
  rw [MetricFilter.passesOpFilter, hdata]
  change ((f.judge _).bind fun passes => .ok (passes, _)) = _
  cases f.judge (f.fetched service timespan r) <;> rfl

theorem passesOpFilter_of_error {timespan : Window} {metrics : Metrics} {e : Exn}
    (h : metrics.lookup (f.cacheKey format) = none)
    (hrequest : f.request timespan r = .error e) :
    f.passesOpFilter format service timespan r metrics = .error e := by
  rw [MetricFilter.passesOpFilter, MetricFilter.getMetricData, h, hrequest]
  rfl

theorem passesOpFilter_first {timespan : Window} {b : Bool} {metrics : Metrics} :
    f.passesOpFilter format service timespan r ∅ = .ok (b, metrics) ↔
      ∃ request, f.request timespan r = .ok request ∧
        f.Reduces (f.fetched service timespan r) ∧ b = f.verdictOn (f.fetched service timespan r) ∧
        metrics = keep format f ∅ (service request) := by
  cases hrequest : f.request timespan r with
  | error e =>
    rw [passesOpFilter_of_error format service r (AList.lookup_empty _) hrequest]
    simp
  | ok request =>
    rw [passesOpFilter_of_request format service r (AList.lookup_empty _) hrequest]
    simp only [Except.ok.injEq, exists_eq_left']
    rw [← and_assoc, ← judge_eq_ok_iff]
    cases f.judge (f.fetched service timespan r) <;> simp [Except.map, eq_comm]

end Runs

/-- What filters are to do: return, take a series without values for missing data, and judge a
resource as without the filter before it. -/
structure Sound (format : Format) (service : Service) (r : Resource) (g f : MetricFilter)
    (v w : Window) : Prop where
  returns : ∃ b, (f.passesOpFilter format service w r ∅).map Prod.fst = .ok b
  missing : ∀ request response, f.request w r = .ok request → service request = some response →
    MetricFilter.NoValues (f.values response) →
      (f.passesOpFilter format service w r ∅).map Prod.fst = .ok f.onMissing
  independent : ∀ b metrics, g.passesOpFilter format service v r ∅ = .ok (b, metrics) →
    (f.passesOpFilter format service w r metrics).map Prod.fst =
      (f.passesOpFilter format service w r ∅).map Prod.fst

/-- What another filter keeps under the key of a filter leads it to the same verdict as what it
would fetch. -/
def KeptAlike (format : Format) (service : Service) (r : Resource) (g f : MetricFilter)
    (v w : Window) : Prop :=
  f.cacheKey format = g.cacheKey format → ∀ request response, g.request v r = .ok request →
    service request = some response → g.Reduces (g.measurement response) →
      f.Reduces (g.measurement response) ∧
        f.verdictOn (g.measurement response) = f.verdictOn (f.fetched service w r)

section Sound

variable {format : Format} {service : Service} {r : Resource} {v w : Window}

theorem alone_eq_ok_iff {b : Bool} :
    (f.passesOpFilter format service w r ∅).map Prod.fst = .ok b ↔
      f.Resolves r ∧ f.Reduces (f.fetched service w r) ∧
        b = f.verdictOn (f.fetched service w r) := by
  rw [map_fst_eq_ok, ← exists_request_iff]
  simp only [passesOpFilter_first]
  constructor
  · rintro ⟨_, request, hrequest, hreduces, hb, -⟩
    exact ⟨⟨request, hrequest⟩, hreduces, hb⟩
  · rintro ⟨⟨request, hrequest⟩, hreduces, hb⟩
    exact ⟨_, request, hrequest, hreduces, hb, rfl⟩

theorem alone_iff :
    ((∃ b, (f.passesOpFilter format service w r ∅).map Prod.fst = .ok b) ∧
      ∀ request response, f.request w r = .ok request → service request = some response →
        MetricFilter.NoValues (f.values response) →
          (f.passesOpFilter format service w r ∅).map Prod.fst = .ok f.onMissing) ↔
      f.Resolves r ∧ ∀ request response, f.request w r = .ok request →
        service request = some response → f.TakesForMissing response := by
  simp only [alone_eq_ok_iff, ← measurement_iff]
  constructor
  · rintro ⟨⟨_, hresolves, hreduces, -⟩, hmissing⟩
    refine ⟨hresolves, fun request response hrequest hresponse => ?_⟩
    have hfetched : f.fetched service w r = f.measurement response := by
      rw [fetched_eq service r hrequest, hresponse, Option.bind_some]
    rw [hfetched] at hreduces hmissing
    exact ⟨hreduces, fun h => (hmissing request response hrequest hresponse h).2.2.symm⟩
  · rintro ⟨hresolves, h⟩
    obtain ⟨request, hrequest⟩ := (@exists_request_iff f w r).mpr hresolves
    cases hresponse : service request with
    | none =>
      have hfetched : f.fetched service w r = none := by
        rw [fetched_eq service r hrequest, hresponse, Option.bind_none]
      refine ⟨⟨_, hresolves, ?_, rfl⟩, fun request' response hrequest' hresponse' => ?_⟩
      · rw [hfetched]
        exact fun xs h => by cases h
      · cases hrequest.symm.trans hrequest'
        cases hresponse.symm.trans hresponse'
    | some response =>
      have hfetched : f.fetched service w r = f.measurement response := by
        rw [fetched_eq service r hrequest, hresponse, Option.bind_some]
      obtain ⟨hreduces, hverdict⟩ := h request response hrequest hresponse
      rw [hfetched]
      refine ⟨⟨_, hresolves, hreduces, rfl⟩, fun request' response' hrequest' hresponse' hno => ?_⟩
      cases hrequest.symm.trans hrequest'
      cases hresponse.symm.trans hresponse'
      exact ⟨hresolves, hreduces, (hverdict hno).symm⟩

theorem independent_of_returns_iff (hresolves : f.Resolves r)
    (hreduces : f.Reduces (f.fetched service w r)) :
    (∀ b metrics, g.passesOpFilter format service v r ∅ = .ok (b, metrics) →
      (f.passesOpFilter format service w r metrics).map Prod.fst =
        (f.passesOpFilter format service w r ∅).map Prod.fst) ↔
      KeptAlike format service r g f v w := by
  have halone : (f.passesOpFilter format service w r ∅).map Prod.fst =
      .ok (f.verdictOn (f.fetched service w r)) := alone_eq_ok_iff.mpr ⟨hresolves, hreduces, rfl⟩
  obtain ⟨own, hown⟩ := (@exists_request_iff f w r).mpr hresolves
  have hsame {metrics : Metrics} (h : metrics.lookup (f.cacheKey format) = none) :
      (f.passesOpFilter format service w r metrics).map Prod.fst =
        .ok (f.verdictOn (f.fetched service w r)) := by
    rw [passesOpFilter_of_request format service r h hown,
      judge_eq_ok_iff.mpr ⟨hreduces, rfl⟩]
    rfl
  rw [halone, KeptAlike]
  constructor
  · intro h hkey request response hrequest hresponse hg
    have hfetched : g.fetched service v r = g.measurement response := by
      rw [fetched_eq service r hrequest, hresponse, Option.bind_some]
    have hafter := h _ _ ((passesOpFilter_first format service r).mpr
      ⟨request, hrequest, hfetched ▸ hg, rfl, rfl⟩)
    rw [hresponse, keep, passesOpFilter_of_lookup format service r w (m := g.measurement response)
      (by rw [hkey, AList.lookup_insert]), judge_eq_ok_iff] at hafter
    exact ⟨hafter.1, hafter.2.symm⟩
  · intro h b metrics hg
    obtain ⟨request, hrequest, hreducesg, -, rfl⟩ := (passesOpFilter_first format service r).mp hg
    cases hresponse : service request with
    | none => exact hsame (AList.lookup_empty _)
    | some response =>
      rw [keep]
      by_cases hkey : f.cacheKey format = g.cacheKey format
      · rw [fetched_eq service r hrequest, hresponse, Option.bind_some] at hreducesg
        obtain ⟨hf, hverdict⟩ := h hkey request response hrequest hresponse hreducesg
        rw [passesOpFilter_of_lookup format service r w (m := g.measurement response)
          (by rw [hkey, AList.lookup_insert]), judge_eq_ok_iff]
        exact ⟨hf, hverdict.symm⟩
      · refine hsame ?_
        rw [AList.lookup_insert_ne hkey]
        exact AList.lookup_empty _

end Sound

/-- The greatest load of a machine is below five percent. -/
def idle (noDataAction : NoDataAction) : MetricFilter where
  metric := "Percentage CPU".toList
  op := .lt
  threshold := 5
  aggregation := .maximum
  noDataAction := noDataAction

def machine : Resource where
  id := "/subscriptions/s/machines/m".toList

/-- A data point without values. -/
def nullValue : MetricValue := ⟨none, none, none, none, none⟩

/-- Two data points without values for every request. -/
def nulls : Service := fun _ => some [⟨[[nullValue, nullValue]]⟩]

/-- No series for every request. -/
def noSeries : Service := fun _ => some [⟨[]⟩]

def someFormat : Format where
  float _ := "24.0".toList
  duration _ := "1 day, 0:00:00".toList
  dimensions _ := "[]".toList

/-- The same with another operator. -/
def busy : MetricFilter := { idle .«include» with op := .gt }

/-- What the first filter keeps on a machine without data. -/
def zero : Metrics := (∅ : Metrics).insert ((idle .toZero).cacheKey someFormat) (some [some 0])

end Custodian.AzureMetrics

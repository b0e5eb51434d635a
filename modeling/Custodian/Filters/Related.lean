import Custodian.Lib.Runs
import Custodian.Lib.Text
import Mathlib.Algebra.GroupWithZero.Nat
import Mathlib.Algebra.BigOperators.Group.List.Basic

/-!
# Filters on related resources

`RelatedResourceFilter` and `RelatedResourceByIdFilter` of `filters/related.py`, over the part of
`ValueFilter.match` that they use: the value to compare with is read from the data of the filter
when `match` is called for the first time, and is kept from then on.
-/

namespace Custodian.Related

open Py

/-! ## Values -/

/-- What `match` asks of values. -/
structure Values (V : Type) where
  isNone : V → Bool
  truthy : V → Bool
  /-- `v == text` -/
  isText : V → Text → Bool
  /-- `r == v` -/
  eq : V → V → Bool

/-- An operator of the value filter. -/
structure Op (V : Type) where
  /-- `()` for a missing value under `in` and `not-in`; other operators leave values as they are. -/
  extract : V → V
  /-- `op(r, v)`, which is false where it raises a `TypeError`. -/
  holds : V → V → Bool

/-- The comparison of the value of a resource with that of the filter; `op` is the operator of the
filter, if it has one. -/
def Values.test {V : Type} (w : Values V) (op : Option (Op V)) (r v : V) : Bool :=
  let r := match op with
    | some op => op.extract r
    | none => r
  if w.isNone r && w.isText v "absent".toList then true
  else if !w.isNone r && w.isText v "present".toList then true
  else if w.isText v "not-null".toList && w.truthy r then true
  else if w.isText v "empty".toList && !w.truthy r then true
  else match op with
    | some op => op.holds r v
    | none => w.eq r v

/-! ## The filters -/

/-- `data.get('operator', 'or')` -/
inductive Operator where
  | or
  | and
  deriving DecidableEq

/-- A filter: its data, and how it reads ids and values from resources `R` and objects `O`. -/
structure Filter (R O Id V : Type) where
  operator : Operator
  /-- `data.get('match-resource') is True` -/
  matchResource : Bool
  op : Option (Op V)
  /-- The comparison of a number with the value, for `value_type: resource_count`. -/
  counts : Option (Nat → V → Bool)
  /-- `self.get_related_ids([resource])` -/
  relatedIds : R → List Id
  /-- `self.get_resource_value(self.data['key'], resource)` -/
  resourceValue : R → V
  /-- The same for a related object. -/
  objectValue : O → V
  values : Values V

/-- The data and the attributes of a filter that change: `data['value']`, and `self.v` once `match`
has set it. -/
structure State (V : Type) where
  value : V
  v : Option V

/-- Whether a resource is kept, and the ids of its annotation. -/
structure Verdict (Id : Type) where
  keep : Bool
  found : List Id

variable {R O Id V : Type} (f : Filter R O Id V)

/-- `self.match(robj)` -/
def valueMatch (robj : O) (s : State V) : Bool × State V :=
  let v := s.v.getD s.value
  (f.values.test f.op (f.objectValue robj) v, { s with v := some v })

/-- The last lines of `process_resource`. -/
def Operator.decides (op : Operator) (found relatedIds : List Id) : Bool :=
  if op = .or ∧ found ≠ [] then true
  else if op = .and ∧ found.length = relatedIds.length then true
  else false

/-- The start of `process_resource`. -/
def setValue (resource : R) (s : State V) : State V :=
  if f.matchResource then { s with value := f.resourceValue resource } else s

/-- `value_type: resource_count` -/
def countResource (count : Nat → V → Bool) (resource : R) (s : State V) : Verdict Id :=
  let countMatches := count (f.relatedIds resource).length s.value
  ⟨countMatches, if countMatches then f.relatedIds resource else []⟩

/-- The loop over the related ids of `RelatedResourceFilter`. -/
def findRelated (related : Id → Option O) : List Id → State V → List Id × State V
  | [], s => ([], s)
  | rid :: rids, s =>
    match related rid with
    | none =>
      let rest := findRelated related rids s
      (if f.values.isText s.value "absent".toList then rid :: rest.1 else rest.1, rest.2)
    | some robj =>
      let (m, s) := valueMatch f robj s
      let rest := findRelated related rids s
      (if m then rid :: rest.1 else rest.1, rest.2)

/-- `RelatedResourceFilter.process_resource` -/
def processResource (related : Id → Option O) (s : State V) (resource : R) :
    Verdict Id × State V :=
  let s := setValue f resource s
  match f.counts with
  | some count => (countResource f count resource s, s)
  | none =>
    let (found, s) := findRelated f related (f.relatedIds resource) s
    (⟨f.operator.decides found (f.relatedIds resource), found⟩, s)

/-- `RelatedResourceFilter.process`: the verdict on every resource. -/
def process (related : Id → Option O) (s : State V) (resources : List R) :
    List (Verdict Id) × State V := Runs.results (processResource f related) s resources

/-- The objects under one id. -/
def matchObjects : List O → State V → Nat × State V
  | [], s => (0, s)
  | robj :: robjs, s =>
    let (m, s) := valueMatch f robj s
    let rest := matchObjects robjs s
    (if m then rest.1 + 1 else rest.1, rest.2)

/-- The loop over the related ids of `RelatedResourceByIdFilter`: an id is found once for every
object under it that matches. -/
def findRelatedById (related : Id → Option (List O)) : List Id → State V → List Id × State V
  | [], s => ([], s)
  | rid :: rids, s =>
    let (n, s) := matchObjects f ((related rid).getD []) s
    let rest := findRelatedById related rids s
    (List.replicate n rid ++ rest.1, rest.2)

/-- `RelatedResourceByIdFilter.process_resource` -/
def processResourceById (related : Id → Option (List O)) (s : State V) (resource : R) :
    Verdict Id × State V :=
  let s := setValue f resource s
  match f.counts with
  | some count => (countResource f count resource s, s)
  | none =>
    let (found, s) := findRelatedById f related (f.relatedIds resource) s
    (⟨f.operator.decides found (f.relatedIds resource), found⟩, s)

variable {f}

/-! ## One resource -/

/-- The value that `match` compares with. -/
def State.current (s : State V) : V := s.v.getD s.value

theorem valueMatch_eq (robj : O) (s : State V) :
    valueMatch f robj s = (f.values.test f.op (f.objectValue robj) s.current,
      { s with v := some s.current }) := rfl

@[simp] theorem current_mk (value v : V) : (State.mk value (some v)).current = v := rfl

/-- An id is found: its object matches the value `v`, or it has none and the value of the filter is
the word for it. -/
def finds (f : Filter R O Id V) (related : Id → Option O) (value v : V) (rid : Id) : Bool :=
  match related rid with
  | none => f.values.isText value "absent".toList
  | some robj => f.values.test f.op (f.objectValue robj) v

theorem findRelated_eq (related : Id → Option O) (ids : List Id) (s : State V) :
    findRelated f related ids s =
      (ids.filter (finds f related s.value s.current),
        { s with v := if ids.any fun rid => (related rid).isSome then some s.current else s.v }) := by
  induction ids generalizing s with
  | nil => rfl
  | cons rid ids ih =>
    rw [findRelated]
    cases hrid : related rid with
    | none =>
      simp only [ih, List.filter_cons, finds, hrid, List.any_cons, Option.isSome_none,
        Bool.false_or]
    | some robj =>
      simp only [valueMatch_eq, ih, current_mk, List.filter_cons, finds, hrid, List.any_cons,
        Option.isSome_some, Bool.true_or, if_true, ite_self]

theorem decides_filter (op : Operator) (ids : List Id) (p : Id → Bool) :
    op.decides (ids.filter p) ids = true ↔
      match op with
      | .or => ∃ rid ∈ ids, p rid = true
      | .and => ∀ rid ∈ ids, p rid = true := by
  cases op with
  | or => simp [Operator.decides, List.filter_eq_nil_iff]
  | and => simp [Operator.decides, List.length_filter_eq_length_iff]

/-- The resource has a related object. -/
def hasRelated (f : Filter R O Id V) (related : Id → Option O) (r : R) : Bool :=
  (f.relatedIds r).any fun rid => (related rid).isSome

theorem processResource_eq (hmatch : f.matchResource = true) (hcounts : f.counts = none)
    (related : Id → Option O) (s : State V) (r : R) :
    processResource f related s r =
      (⟨f.operator.decides ((f.relatedIds r).filter
          (finds f related (f.resourceValue r) (s.v.getD (f.resourceValue r)))) (f.relatedIds r),
        (f.relatedIds r).filter
          (finds f related (f.resourceValue r) (s.v.getD (f.resourceValue r)))⟩,
        ⟨f.resourceValue r,
          if hasRelated f related r then some (s.v.getD (f.resourceValue r)) else s.v⟩) := by
  simp only [processResource, hcounts, setValue, hmatch, if_true, findRelated_eq]
  rfl

/-! ## All resources -/

/-- A resource is to be kept: the values of some, or all, of its related resources equal its own. -/
def Judged (f : Filter R O Id V) (related : Id → Option O) (r : R) : Prop :=
  let equals (rid : Id) : Prop := ∃ robj, related rid = some robj ∧
    f.values.eq (f.objectValue robj) (f.resourceValue r) = true
  match f.operator with
  | .or => ∃ rid ∈ f.relatedIds r, equals rid
  | .and => ∀ rid ∈ f.relatedIds r, equals rid

/-- The value of the first resource that has a related object. -/
def firstValue (f : Filter R O Id V) (related : Id → Option O) (rs : List R) : Option V :=
  (rs.find? (hasRelated f related)).map f.resourceValue

/-- Some, or all, of the related ids are found with the value of the first resource that has a
related object. -/
def FoundByFirst (f : Filter R O Id V) (related : Id → Option O) (before : List R) (r : R) : Prop :=
  let found (rid : Id) : Prop := finds f related (f.resourceValue r)
    ((firstValue f related before).getD (f.resourceValue r)) rid = true
  match f.operator with
  | .or => ∃ rid ∈ f.relatedIds r, found rid
  | .and => ∀ rid ∈ f.relatedIds r, found rid

theorem firstValue_concat (related : Id → Option O) (before : List R) (r : R) :
    firstValue f related (before ++ [r]) =
      if hasRelated f related r then
        some ((firstValue f related before).getD (f.resourceValue r))
      else firstValue f related before := by
  rw [firstValue, List.find?_append, firstValue]
  cases before.find? (hasRelated f related) with
  | some r' => simp
  | none => cases hr : hasRelated f related r <;> simp [hr]

/-- An instance with the ids of its groups and the value of a tag. -/
structure SampleInstance where
  groups : List Text
  application : Option Text

def sampleValues : Values (Option Text) where
  isNone := Option.isNone
  truthy v := v.getD [] ≠ []
  isText v t := v = some t
  eq r v := r = v

/-- `key: tag:Application` with `match-resource: true` -/
def sampleFilter (operator : Operator) : Filter SampleInstance (Option Text) Text (Option Text) where
  operator := operator
  matchResource := true
  op := none
  counts := none
  relatedIds := SampleInstance.groups
  resourceValue := SampleInstance.application
  objectValue := id
  values := sampleValues

/-- A group for each of two applications. -/
def sampleGroups (rid : Text) : Option (Option Text) :=
  if rid = "sg-1".toList then some (some "web".toList)
  else if rid = "sg-2".toList then some (some "db".toList)
  else none

def sampleInstances : List SampleInstance :=
  [⟨["sg-1".toList], some "web".toList⟩, ⟨["sg-2".toList], some "db".toList⟩]

/-- How many objects under an id match the value. -/
def matching (f : Filter R O Id V) (related : Id → Option (List O)) (v : V) (rid : Id) : Nat :=
  ((related rid).getD []).countP fun robj => f.values.test f.op (f.objectValue robj) v

theorem matchObjects_eq (robjs : List O) (s : State V) :
    (matchObjects f robjs s).1 =
        robjs.countP (fun robj => f.values.test f.op (f.objectValue robj) s.current) ∧
      (matchObjects f robjs s).2.current = s.current := by
  induction robjs generalizing s with
  | nil => exact ⟨rfl, rfl⟩
  | cons robj robjs ih =>
    obtain ⟨hn, hv⟩ := ih ⟨s.value, some s.current⟩
    rw [current_mk] at hn hv
    simp only [matchObjects, valueMatch_eq, hn, List.countP_cons]
    refine ⟨?_, hv⟩
    split <;> rfl

theorem findRelatedById_eq (related : Id → Option (List O)) (ids : List Id) (s : State V) :
    (findRelatedById f related ids s).1 =
      ids.flatMap fun rid => List.replicate (matching f related s.current rid) rid := by
  induction ids generalizing s with
  | nil => rfl
  | cons rid ids ih =>
    obtain ⟨hn, hv⟩ := matchObjects_eq (f := f) ((related rid).getD []) s
    simp only [findRelatedById, List.flatMap_cons, ih, hn, hv, matching]

theorem length_findRelatedById (related : Id → Option (List O)) (ids : List Id) (s : State V) :
    (findRelatedById f related ids s).1.length = (ids.map (matching f related s.current)).sum := by
  rw [findRelatedById_eq, List.length_flatMap]
  simp

theorem findRelatedById_ne_nil (related : Id → Option (List O)) (ids : List Id) (s : State V) :
    (findRelatedById f related ids s).1 ≠ [] ↔
      ∃ rid ∈ ids, 1 ≤ matching f related s.current rid := by
  rw [findRelatedById_eq]
  simp [List.flatMap_eq_nil_iff, Nat.one_le_iff_ne_zero]

/-- A resource is to match: each, or some, of its related ids has an object that does. -/
def MatchesIds (f : Filter R O Id V) (related : Id → Option (List O)) (v : V) (r : R) : Prop :=
  let matched (rid : Id) : Prop := ∃ robj ∈ (related rid).getD [],
    f.values.test f.op (f.objectValue robj) v = true
  match f.operator with
  | .or => ∃ rid ∈ f.relatedIds r, matched rid
  | .and => ∀ rid ∈ f.relatedIds r, matched rid

theorem one_le_matching {related : Id → Option (List O)} {v : V} {rid : Id} :
    1 ≤ matching f related v rid ↔
      ∃ robj ∈ (related rid).getD [], f.values.test f.op (f.objectValue robj) v = true :=
  List.countP_pos_iff

theorem sum_eq_length_iff (l : List Nat) :
    (l.sum = l.length ↔ ∀ n ∈ l, 1 ≤ n) ↔
      (∀ n ∈ l, n ≤ 1) ∨ ((∃ n ∈ l, n = 0) ∧ l.sum ≠ l.length) := by
  have hle (l : List Nat) (h : ∀ n ∈ l, n ≤ 1) : l.sum ≤ l.length ∧
      (l.sum = l.length → ∀ n ∈ l, 1 ≤ n) := by
    induction l with
    | nil => simp
    | cons n l ih =>
      rw [List.forall_mem_cons] at h
      obtain ⟨hsum, hall⟩ := ih h.2
      rw [List.sum_cons, List.length_cons, List.forall_mem_cons]
      exact ⟨by omega, fun heq => ⟨by omega, hall (by omega)⟩⟩
  have hge (l : List Nat) (h : ∀ n ∈ l, 1 ≤ n) : l.sum = l.length → ∀ n ∈ l, n ≤ 1 := by
    induction l with
    | nil => simp
    | cons n l ih =>
      rw [List.forall_mem_cons] at h
      have hlen := List.length_le_sum_of_one_le l h.2
      rw [List.sum_cons, List.length_cons, List.forall_mem_cons]
      exact fun heq => ⟨by omega, ih h.2 (by omega)⟩
  by_cases hall : ∀ n ∈ l, 1 ≤ n
  · have hzero : ¬ ∃ n ∈ l, n = 0 := by
      rintro ⟨n, hn, rfl⟩
      exact absurd (hall 0 hn) (by decide)
    rw [iff_true_right hall, or_iff_left fun h => hzero h.1]
    refine ⟨hge l hall, fun h => ?_⟩
    exact Nat.le_antisymm (hle l h).1 (List.length_le_sum_of_one_le l hall)
  · have hzero : ∃ n ∈ l, n = 0 := by
      push Not at hall
      obtain ⟨n, hn, hlt⟩ := hall
      exact ⟨n, hn, by omega⟩
    rw [iff_false_right hall]
    refine ⟨fun h => Or.inr ⟨hzero, h⟩, ?_⟩
    rintro (h | h) heq
    · exact hall ((hle l h).2 heq)
    · exact h.2 heq

/-- **Related ids.**  With `or` a resource matches as it is to; with `and` it does if and only if
no id has several matching objects, or some id has none and the matching objects are not as many
as the ids. -/
theorem processResourceById_meets_iff (hcounts : f.counts = none)
    (related : Id → Option (List O)) (s : State V) (r : R) :
    ((processResourceById f related s r).1.keep = true ↔
        MatchesIds f related (setValue f r s).current r) ↔
      f.operator = .or ∨
        (∀ rid ∈ f.relatedIds r, matching f related (setValue f r s).current rid ≤ 1) ∨
        ((∃ rid ∈ f.relatedIds r, matching f related (setValue f r s).current rid = 0) ∧
          ((f.relatedIds r).map (matching f related (setValue f r s).current)).sum ≠
            (f.relatedIds r).length) := by
  have hkeep : (processResourceById f related s r).1.keep =
      f.operator.decides (findRelatedById f related (f.relatedIds r) (setValue f r s)).1
        (f.relatedIds r) := by
    simp only [processResourceById, hcounts]
  rw [hkeep, MatchesIds]
  cases hop : f.operator with
  | or =>
    refine iff_of_true ?_ (Or.inl rfl)
    simp only [← one_le_matching, ← findRelatedById_ne_nil]
    simp [Operator.decides]
  | and =>
    have hsum := sum_eq_length_iff
      ((f.relatedIds r).map (matching f related (setValue f r s).current))
    simp only [List.length_map, List.forall_mem_map] at hsum
    simp only [List.mem_map, exists_exists_and_eq_and] at hsum
    simp only [← one_le_matching, reduceCtorEq, false_or]
    rw [← hsum]
    simp [Operator.decides, length_findRelatedById]

/-- An id with two objects. -/
def sampleSnapshots (rid : Text) : Option (List (Option Text)) :=
  if rid = "vpc-1".toList then some [some "web".toList, some "web".toList]
  else none

/-- An instance with two related ids. -/
def sampleResource : SampleInstance := ⟨["vpc-1".toList, "vpc-2".toList], some "web".toList⟩

/-- `operator: and`, where all objects under the first id match, and none is under the second. -/
theorem sampleResource_kept :
    (processResourceById (sampleFilter .and) sampleSnapshots ⟨none, none⟩ sampleResource).1.keep =
      true ∧
    ¬ MatchesIds (sampleFilter .and) sampleSnapshots (some "web".toList) sampleResource := by
  refine ⟨by decide, fun h => ?_⟩
  obtain ⟨robj, hrobj, -⟩ := h "vpc-2".toList (by decide)
  revert hrobj
  simp [sampleSnapshots]

/-- The condition at that resource. -/
theorem sampleResource_meets_iff :
    ((processResourceById (sampleFilter .and) sampleSnapshots ⟨none, none⟩ sampleResource).1.keep =
        true ↔
      MatchesIds (sampleFilter .and) sampleSnapshots
        (setValue (sampleFilter .and) sampleResource ⟨none, none⟩).current sampleResource) ↔
      (sampleFilter .and).operator = .or ∨
        (∀ rid ∈ sampleResource.groups, matching (sampleFilter .and) sampleSnapshots
          (setValue (sampleFilter .and) sampleResource ⟨none, none⟩).current rid ≤ 1) ∨
        ((∃ rid ∈ sampleResource.groups, matching (sampleFilter .and) sampleSnapshots
          (setValue (sampleFilter .and) sampleResource ⟨none, none⟩).current rid = 0) ∧
          (sampleResource.groups.map (matching (sampleFilter .and) sampleSnapshots
            (setValue (sampleFilter .and) sampleResource ⟨none, none⟩).current)).sum ≠
              sampleResource.groups.length) :=
  processResourceById_meets_iff rfl sampleSnapshots ⟨none, none⟩ sampleResource

end Custodian.Related

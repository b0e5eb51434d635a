import Custodian.Lib.Cuts
import Custodian.Lib.Except
import Custodian.Lib.Text

/-!
# The queries of a metrics filter

`GCPMetricsFilter` of `tools/c7n_gcp/c7n_gcp/filters/metrics.py` asks for the metrics of many
resources at once: `batch_resources` gathers an item for each resource and closes a batch when its
size reaches a limit.
-/

namespace Custodian.MetricQueries

open Py
open Cuts

variable {R : Type}

/-- A `metrics` filter, and the name that a type of resources has in a metric, as it is written. -/
structure MetricsFilter (R : Type) where
  metric : Text
  metricKey : Text
  filter : Text
  getMetricResourceName : R → Text

/-- `BATCH_SIZE` -/
def limit : Nat := 10000

def separator : Text := " OR ".toList

def indexError : Exn := .raised "IndexError".toList

/-- `xs.pop()`, for what it leaves. -/
def pop {α : Type} (xs : List α) : Except Exn (List α) :=
  if xs.isEmpty then .error indexError else .ok xs.dropLast

/-- `batched_resources`, `resource_filter` and `batch_size` -/
structure Batching where
  batchedResources : List (List Text)
  resourceFilter : List Text
  batchSize : Nat

namespace MetricsFilter

variable (f : MetricsFilter R)

/-- `'{} = "{}"'.format(self.metric_key, resource_name)` -/
def resourceFilterItem (r : R) : Text :=
  f.metricKey ++ " = \"".toList ++ f.getMetricResourceName r ++ ['"']

def addResource (b : Batching) (r : R) : Except Exn Batching :=
  let resourceFilter := b.resourceFilter ++ [f.resourceFilterItem r] ++ [separator]
  let batchSize := b.batchSize + ((f.resourceFilterItem r).length + 4)
  if limit ≤ batchSize then do
    let batch ← pop resourceFilter
    return ⟨b.batchedResources ++ [batch], [], f.filter.length⟩
  else return ⟨b.batchedResources, resourceFilter, batchSize⟩

/-- `batch_resources` -/
def batchResources (resources : List R) : Except Exn (List (List Text)) :=
  if resources.isEmpty then .ok []
  else do
    let b ← resources.foldlM f.addResource ⟨[], [], f.filter.length⟩
    let batch ← pop b.resourceFilter
    return b.batchedResources ++ [batch]

/-- The query of a batch. -/
def queryFilter (batch : List Text) : Text :=
  let metricFilterType := "metric.type = \"".toList ++ f.metric ++ "\" AND ( ".toList
  let userFilter := if f.filter.isEmpty then [] else " AND ".toList ++ f.filter
  metricFilterType ++ batch.flatten ++ " ) ".toList ++ userFilter

/-- `get_batched_query_filter` -/
def getBatchedQueryFilter (resources : List R) : Except Exn (List Text) := do
  return (← f.batchResources resources).map f.queryFilter

/-! ## Batches of resources -/

/-- What a resource adds to the size of a batch. -/
def itemSize (r : R) : Nat := (f.resourceFilterItem r).length + 4

/-- The resources fill a batch: with the last of them its size reaches the limit, and not before. -/
def Fills (part : List R) : Prop := Full f.itemSize f.filter.length limit part

/-- The batch of some resources: their items with one separator between two of them. -/
def batch (part : List R) : List Text := (part.map f.resourceFilterItem).intersperse separator

/-- The items are gathered with a separator behind each. -/
def gathered (part : List R) : List Text :=
  part.flatMap fun r => [f.resourceFilterItem r, separator]

/-- The batches cover every resource once, in order, and all but the last are closed as soon as
their size reaches the limit. -/
def Covers (resources : List R) : Prop :=
  ∃ parts : List (List R), f.batchResources resources = .ok (parts.map f.batch) ∧
    parts.flatten = resources ∧ (∀ part ∈ parts, part ≠ []) ∧ ∀ part ∈ parts.dropLast, f.Fills part

/-- The resources are those of some full batches, with nothing left for another one. -/
def FillsBatches (resources : List R) : Prop :=
  ∃ parts : List (List R), parts ≠ [] ∧ parts.flatten = resources ∧ ∀ part ∈ parts, f.Fills part

/-! ## The loop -/

variable {f}

theorem gathered_concat (part : List R) (r : R) :
    f.gathered (part ++ [r]) = f.gathered part ++ [f.resourceFilterItem r] ++ [separator] := by
  rw [gathered, List.flatMap_append, List.flatMap_singleton, List.append_assoc]
  rfl

theorem dropLast_gathered (part : List R) : (f.gathered part).dropLast = f.batch part := by
  induction part with
  | nil => rfl
  | cons r part ih =>
    cases part with
    | nil => rfl
    | cons r' part =>
      have hne : f.gathered (r' :: part) ≠ [] := by simp [gathered]
      have hcons : f.gathered (r :: r' :: part) =
          f.resourceFilterItem r :: separator :: f.gathered (r' :: part) := rfl
      rw [hcons, List.dropLast_cons_of_ne_nil (List.cons_ne_nil _ _),
        List.dropLast_cons_of_ne_nil hne, ih]
      rfl

theorem pop_gathered (part : List R) :
    pop (f.gathered part) = if part = [] then .error indexError else .ok (f.batch part) := by
  cases part with
  | nil => rfl
  | cons r part =>
    rw [pop, dropLast_gathered, if_neg (List.cons_ne_nil r part)]
    rfl

/-- The state of the loop: the closed batches, and what is gathered for the next one. -/
structure Holds (f : MetricsFilter R) (cuts : List (List R) × List R) (b : Batching) : Prop where
  batchedResources : b.batchedResources = cuts.1.map f.batch
  resourceFilter : b.resourceFilter = f.gathered cuts.2
  batchSize : b.batchSize = f.filter.length + (cuts.2.map f.itemSize).sum

theorem addResource_spec {cuts : List (List R) × List R} {b : Batching} (h : Holds f cuts b)
    (r : R) : ∃ b', f.addResource b r = .ok b' ∧
      Holds f (step f.itemSize f.filter.length limit cuts r) b' := by
  have hfilter : b.resourceFilter ++ [f.resourceFilterItem r] ++ [separator] =
      f.gathered (cuts.2 ++ [r]) := by rw [h.resourceFilter, gathered_concat]
  have hsize : b.batchSize + ((f.resourceFilterItem r).length + 4) =
      f.filter.length + ((cuts.2 ++ [r]).map f.itemSize).sum := by
    rw [h.batchSize, List.map_append, List.sum_append, List.map_singleton, List.sum_singleton,
      Nat.add_assoc]
    rfl
  have hpop : pop (f.gathered (cuts.2 ++ [r])) = .ok (f.batch (cuts.2 ++ [r])) := by
    rw [pop_gathered, if_neg (by simp)]
  rw [addResource, hfilter, hsize, hpop, step]
  by_cases hreaches : Reaches f.itemSize f.filter.length limit (cuts.2 ++ [r])
  · rw [if_pos hreaches]
    refine ⟨_, if_pos hreaches, ?_, rfl, rfl⟩
    rw [h.batchedResources, List.map_append]
    rfl
  · rw [if_neg hreaches]
    exact ⟨_, if_neg hreaches, h.batchedResources, rfl, rfl⟩

theorem foldlM_addResource (resources : List R) :
    ∃ b, resources.foldlM f.addResource ⟨[], [], f.filter.length⟩ = .ok b ∧
      Holds f (cut f.itemSize f.filter.length limit resources) b := by
  induction resources using List.reverseRecOn with
  | nil => exact ⟨_, rfl, rfl, rfl, rfl⟩
  | append_singleton resources r ih =>
    obtain ⟨b, hb, hholds⟩ := ih
    obtain ⟨b', hb', hholds'⟩ := addResource_spec hholds r
    refine ⟨b', ?_, ?_⟩
    · rw [List.foldlM_append, hb, ok_bind, List.foldlM_cons, hb', ok_bind]
      rfl
    · rwa [cut, List.foldl_append]

/-- **The batches**, and the error when all of them are full. -/
theorem batchResources_eq (resources : List R) : f.batchResources resources =
    if resources = [] then .ok []
    else if (cut f.itemSize f.filter.length limit resources).2 = [] then .error indexError
    else .ok (((cut f.itemSize f.filter.length limit resources).1 ++
      [(cut f.itemSize f.filter.length limit resources).2]).map f.batch) := by
  rw [batchResources]
  simp only [List.isEmpty_iff]
  split
  · rfl
  · obtain ⟨b, hb, hholds⟩ := foldlM_addResource (f := f) resources
    rw [hb, ok_bind, hholds.resourceFilter, pop_gathered, hholds.batchedResources]
    split
    · rfl
    · rw [List.map_append]
      rfl

theorem fillsBatches_iff {resources : List R} (hne : resources ≠ []) :
    f.FillsBatches resources ↔ (cut f.itemSize f.filter.length limit resources).2 = [] := by
  rw [rest_eq_nil_iff]
  constructor
  · rintro ⟨parts, -, hflatten, hfull⟩
    exact ⟨parts, hflatten, hfull⟩
  · rintro ⟨parts, hflatten, hfull⟩
    refine ⟨parts, ?_, hflatten, hfull⟩
    rintro rfl
    exact hne hflatten.symm

/-- **Metric queries cover every resource once** exactly when something is left for the last
batch. -/
theorem covers_iff (resources : List R) : f.Covers resources ↔ ¬ f.FillsBatches resources := by
  by_cases hne : resources = []
  · subst hne
    refine iff_of_true ⟨[], rfl, rfl, by simp, by simp⟩ ?_
    rintro ⟨parts, hparts, hflatten, hfull⟩
    obtain ⟨part, hpart⟩ := List.exists_mem_of_ne_nil parts hparts
    exact (hfull part hpart).ne_nil (List.flatten_eq_nil_iff.mp hflatten part hpart)
  · have hcut : Cut f.itemSize f.filter.length limit resources
        (cut f.itemSize f.filter.length limit resources) := cut_spec resources
    rw [fillsBatches_iff hne, Covers, batchResources_eq, if_neg hne]
    split
    · next hnil => exact iff_of_false (fun ⟨_, h, _⟩ => by cases h) (not_not.mpr hnil)
    · next hrest =>
      refine iff_of_true ⟨_, rfl, ?_, fun part hpart => ?_, fun part hpart => ?_⟩ hrest
      · rw [List.flatten_append, List.flatten_singleton, hcut.flatten]
      · rcases List.mem_append.mp hpart with hpart | hpart
        · exact (hcut.full part hpart).ne_nil
        · rwa [List.mem_singleton.mp hpart]
      · rw [List.dropLast_concat] at hpart
        exact hcut.full part hpart

/-- A filter of instances by their ids. -/
def instanceFilter : MetricsFilter Text where
  metric := "compute.googleapis.com/instance/cpu/utilization".toList
  metricKey := "resource.labels.instance_id".toList
  filter := []
  getMetricResourceName r := r

/-- A hundred resources with names of 64 characters: the last one closes the first batch. -/
def hundred : List Text :=
  (List.range 100).map fun n => List.replicate 62 'n' ++ [Nat.digitChar (n / 10), Nat.digitChar (n % 10)]

theorem hundred_not_covers : ¬ instanceFilter.Covers hundred := by
  rintro ⟨parts, hbatches, -⟩
  have hraised : instanceFilter.batchResources hundred = .error indexError := by decide +kernel
  rw [hraised] at hbatches
  cases hbatches

end MetricsFilter

end Custodian.MetricQueries

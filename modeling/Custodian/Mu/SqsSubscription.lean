import Custodian.Lib.Items
import Custodian.Lib.Text
import Mathlib.Data.List.Nodup
import Mathlib.Tactic.MkIffOfInductiveProp

/-!
# Subscribing a lambda to queues

`SQSSubscription.add` of `c7n/mu.py`, on the event source mappings of one function.
-/

namespace Custodian.SqsSubscription

open Py

/-! ## Mappings -/

inductive MappingState where
  | creating
  | enabling
  | enabled
  | disabling
  | disabled
  | updating
  | deleting
  deriving DecidableEq

/-- An event source mapping. -/
structure Mapping where
  uuid : Text
  eventSourceArn : Text
  state : MappingState
  batchSize : Nat
  deriving DecidableEq

/-- The mappings of a function; each has a uuid of its own. -/
structure Mappings where
  items : List Mapping
  nodup : (items.map Mapping.uuid).Nodup

/-- How the service names a new mapping. -/
structure Uuids where
  next : List Text → Text
  next_notMem : ∀ used, next used ∉ used

/-- A call that changes a mapping or makes a new one. -/
inductive Call where
  | update (uuid : Text) (batchSize : Nat)
  | create (queueArn : Text) (batchSize : Nat)
  deriving DecidableEq

def Mapping.enable (batchSize : Nat) (m : Mapping) : Mapping :=
  { m with state := .enabled, batchSize := batchSize }

/-- `update_event_source_mapping(UUID=uuid, Enabled=True, BatchSize=batch_size)` -/
def Mappings.update (ms : Mappings) (uuid : Text) (batchSize : Nat) : Mappings where
  items := ms.items.map fun m => if m.uuid = uuid then m.enable batchSize else m
  nodup := by
    have huuids : (ms.items.map fun m => if m.uuid = uuid then m.enable batchSize else m).map
        Mapping.uuid = ms.items.map Mapping.uuid := by
      rw [List.map_map]
      refine List.map_congr_left fun m _ => ?_
      rw [Function.comp_apply]
      split <;> rfl
    exact huuids ▸ ms.nodup

/-- `create_event_source_mapping(EventSourceArn=queue_arn, BatchSize=batch_size)` -/
def Mappings.create (ids : Uuids) (ms : Mappings) (queueArn : Text) (batchSize : Nat) :
    Mappings where
  items := ms.items ++ [⟨ids.next (ms.items.map Mapping.uuid), queueArn, .enabled, batchSize⟩]
  nodup := by
    rw [List.map_append, List.nodup_append]
    refine ⟨ms.nodup, List.nodup_singleton _, fun uuid huuid uuid' huuid' heq => ?_⟩
    rw [List.mem_singleton.mp huuid'] at heq
    exact ids.next_notMem _ (heq ▸ huuid)

def Call.apply (ids : Uuids) (ms : Mappings) : Call → Mappings
  | .update uuid batchSize => ms.update uuid batchSize
  | .create queueArn batchSize => ms.create ids queueArn batchSize

/-! ## The subscription -/

structure Subscription where
  queueArns : List Text
  batchSize : Nat

/-- What `add` returns, `none` where it ends without `return`, and the calls it makes. -/
structure Outcome where
  returned : Option Bool
  calls : List Call

/-- The mapping for each queue that has one. -/
def eventMappings (ms : Mappings) : List (Text × Mapping) :=
  Items.ofList (ms.items.map fun m => (m.eventSourceArn, m))

/-- The end of the body of the loop. -/
def subscribe (s : Subscription) (queueArn : Text) (mapping : Option Mapping) (modified : Bool) :
    Outcome :=
  if !modified then ⟨some modified, []⟩
  else match mapping with
    | some mapping => ⟨some modified, [.update mapping.uuid s.batchSize]⟩
    | none => ⟨some modified, [.create queueArn s.batchSize]⟩

/-- The loop over `self.queue_arns`. -/
def addEach (s : Subscription) (mappings : List (Text × Mapping)) : List Text → Bool → Outcome
  | [], _ => ⟨none, []⟩
  | queueArn :: queueArns, modified =>
    match Items.get queueArn mappings with
    | some mapping =>
      if mapping.state = .enabled ∨ mapping.batchSize ≠ s.batchSize then
        addEach s mappings queueArns modified
      else subscribe s queueArn (some mapping) true
    | none => subscribe s queueArn none true

/-- `SQSSubscription.add` -/
def add (s : Subscription) (ms : Mappings) : Outcome :=
  addEach s (eventMappings ms) s.queueArns false

/-- The mappings after `add`. -/
def after (ids : Uuids) (s : Subscription) (ms : Mappings) : Mappings :=
  (add s ms).calls.foldl (Call.apply ids) ms

/-! ## What is expected of it -/

/-- The queue has an enabled mapping of that size. -/
def Ready (batchSize : Nat) (ms : Mappings) (queueArn : Text) : Prop :=
  ∃ m ∈ ms.items, m.eventSourceArn = queueArn ∧ m.state = .enabled ∧ m.batchSize = batchSize

/-- Every queue gets subscribed, the mappings of other queues stay, and `True` is returned for
calls that were made. -/
@[mk_iff]
structure Subscribes (ids : Uuids) (s : Subscription) (ms : Mappings) : Prop where
  ready : ∀ queueArn ∈ s.queueArns, Ready s.batchSize (after ids s ms) queueArn
  others : (after ids s ms).items.filter (fun m => m.eventSourceArn ∉ s.queueArns) =
    ms.items.filter fun m => m.eventSourceArn ∉ s.queueArns
  reports : (add s ms).returned = some true ↔ (add s ms).calls ≠ []

/-- The loop makes a call for the queue: its last mapping has the right size and is not enabled, or
it has none. -/
def needsCall (s : Subscription) (ms : Mappings) (queueArn : Text) : Bool :=
  match Items.get queueArn (eventMappings ms) with
  | some mapping => mapping.state ≠ .enabled && mapping.batchSize = s.batchSize
  | none => true

/-- The call for a queue. -/
def callFor (s : Subscription) (ms : Mappings) (queueArn : Text) : Call :=
  match Items.get queueArn (eventMappings ms) with
  | some mapping => .update mapping.uuid s.batchSize
  | none => .create queueArn s.batchSize

variable {ids : Uuids} {s : Subscription} {ms : Mappings} {queueArn uuid : Text} {batchSize : Nat}

/-! ## The loop -/

theorem addEach_eq (queueArns : List Text) (modified : Bool) :
    addEach s (eventMappings ms) queueArns modified =
      match queueArns.find? (needsCall s ms) with
      | some queueArn => ⟨some true, [callFor s ms queueArn]⟩
      | none => ⟨none, []⟩ := by
  induction queueArns with
  | nil => rfl
  | cons queueArn queueArns ih =>
    rw [addEach]
    cases hget : Items.get queueArn (eventMappings ms) with
    | none =>
      have hneeds : needsCall s ms queueArn = true := by rw [needsCall, hget]
      rw [List.find?_cons_of_pos hneeds]
      simp only [callFor, hget]
      rfl
    | some mapping =>
      by_cases hskip : mapping.state = .enabled ∨ mapping.batchSize ≠ s.batchSize
      · have hneeds : ¬ needsCall s ms queueArn = true := by
          rw [needsCall, hget]
          simpa [imp_iff_not_or] using hskip
        rw [List.find?_cons_of_neg hneeds]
        simp only [hskip, if_true, ih]
      · have hneeds : needsCall s ms queueArn = true := by
          rw [needsCall, hget]
          simpa using hskip
        rw [List.find?_cons_of_pos hneeds]
        simp only [hskip, if_false, callFor, hget]
        rfl

theorem add_eq (s : Subscription) (ms : Mappings) :
    add s ms = match s.queueArns.find? (needsCall s ms) with
      | some queueArn => ⟨some true, [callFor s ms queueArn]⟩
      | none => ⟨none, []⟩ := addEach_eq s.queueArns false

theorem after_eq (ids : Uuids) (s : Subscription) (ms : Mappings) :
    after ids s ms = match s.queueArns.find? (needsCall s ms) with
      | some queueArn => (callFor s ms queueArn).apply ids ms
      | none => ms := by
  rw [after, add_eq]
  cases s.queueArns.find? (needsCall s ms) <;> rfl

theorem mem_of_get {m : Mapping} (h : Items.get queueArn (eventMappings ms) = some m) :
    m ∈ ms.items ∧ m.eventSourceArn = queueArn := by
  rw [Items.get, eventMappings, Items.lookup_ofList] at h
  have hmem := List.mem_reverse.mp (Items.mem_of_get (d := _) h)
  obtain ⟨m', hm', heq⟩ := List.mem_map.mp hmem
  obtain ⟨rfl, rfl⟩ := Prod.mk.inj heq
  exact ⟨hm', rfl⟩

/-! ## What a call does -/

theorem eq_of_uuid_eq {m m' : Mapping} (hm : m ∈ ms.items) (hm' : m' ∈ ms.items)
    (h : m.uuid = m'.uuid) : m = m' := List.inj_on_of_nodup_map ms.nodup hm hm' h

theorem filter_update {mapping : Mapping} (hmapping : mapping ∈ ms.items) {p : Text → Bool}
    (hp : p mapping.eventSourceArn = false) :
    (ms.update mapping.uuid batchSize).items.filter (fun m => p m.eventSourceArn) =
      ms.items.filter fun m => p m.eventSourceArn := by
  have harn (m : Mapping) :
      (if m.uuid = mapping.uuid then m.enable batchSize else m).eventSourceArn =
        m.eventSourceArn := by
    split <;> rfl
  rw [Mappings.update, List.filter_map]
  simp only [Function.comp_def, harn]
  refine (List.map_congr_left fun m hm => ?_).trans (List.map_id _)
  obtain ⟨hitem, hother⟩ := List.mem_filter.mp hm
  refine if_neg fun huuid => ?_
  rw [eq_of_uuid_eq hitem hmapping huuid, hp] at hother
  cases hother

theorem filter_apply_callFor {p : Text → Bool} (hp : p queueArn = false) :
    ((callFor s ms queueArn).apply ids ms).items.filter (fun m => p m.eventSourceArn) =
      ms.items.filter fun m => p m.eventSourceArn := by
  rw [callFor]
  cases hget : Items.get queueArn (eventMappings ms) with
  | none => simp [Call.apply, Mappings.create, List.filter_append, hp]
  | some mapping =>
    obtain ⟨hmapping, harn⟩ := mem_of_get hget
    exact filter_update hmapping (harn ▸ hp)

theorem ready_apply_callFor : Ready s.batchSize ((callFor s ms queueArn).apply ids ms) queueArn := by
  rw [callFor]
  cases hget : Items.get queueArn (eventMappings ms) with
  | none => exact ⟨_, List.mem_append_right _ (List.mem_singleton_self _), rfl, rfl, rfl⟩
  | some mapping =>
    obtain ⟨hmapping, harn⟩ := mem_of_get hget
    refine ⟨mapping.enable s.batchSize, List.mem_map.mpr ⟨mapping, hmapping, if_pos rfl⟩, ?_⟩
    exact ⟨harn, rfl, rfl⟩

theorem ready_iff : Ready batchSize ms queueArn ↔
    ∃ m ∈ ms.items.filter (fun m => m.eventSourceArn = queueArn),
      m.state = .enabled ∧ m.batchSize = batchSize := by
  simp only [Ready, List.mem_filter, decide_eq_true_eq, and_assoc]

theorem ready_apply_other {queueArn' : Text} (hne : queueArn ≠ queueArn') :
    Ready batchSize ((callFor s ms queueArn).apply ids ms) queueArn' ↔
      Ready batchSize ms queueArn' := by
  rw [ready_iff, ready_iff, filter_apply_callFor (p := (· = queueArn')) (by simpa using hne)]

/-! ## Every queue -/

theorem ready_after_iff :
    Ready s.batchSize (after ids s ms) queueArn ↔
      Ready s.batchSize ms queueArn ∨ s.queueArns.find? (needsCall s ms) = some queueArn := by
  rw [after_eq]
  cases hfind : s.queueArns.find? (needsCall s ms) with
  | none => simp
  | some first =>
    rw [Option.some.injEq]
    by_cases hfirst : first = queueArn
    · rw [← hfirst]
      exact iff_of_true ready_apply_callFor (Or.inr rfl)
    · rw [or_iff_left hfirst]
      exact ready_apply_other hfirst

theorem filter_after (ids : Uuids) (s : Subscription) (ms : Mappings) :
    (after ids s ms).items.filter (fun m => m.eventSourceArn ∉ s.queueArns) =
      ms.items.filter fun m => m.eventSourceArn ∉ s.queueArns := by
  rw [after_eq]
  cases hfind : s.queueArns.find? (needsCall s ms) with
  | none => rfl
  | some first =>
    have hfirst : first ∈ s.queueArns := List.mem_of_find?_eq_some hfind
    exact filter_apply_callFor (p := (· ∉ s.queueArns)) (by simpa using hfirst)

theorem returned_iff (s : Subscription) (ms : Mappings) :
    (add s ms).returned = some true ↔ (add s ms).calls ≠ [] := by
  rw [add_eq]
  cases s.queueArns.find? (needsCall s ms) <;> simp

/-- **Subscriptions.**  Every queue gets subscribed if and only if each is ready already or is the
first one that needs a call. -/
theorem add_subscribes_iff (ids : Uuids) (s : Subscription) (ms : Mappings) :
    Subscribes ids s ms ↔ ∀ queueArn ∈ s.queueArns, Ready s.batchSize ms queueArn ∨
      s.queueArns.find? (needsCall s ms) = some queueArn := by
  rw [subscribes_iff, and_iff_left ⟨filter_after ids s ms, returned_iff s ms⟩]
  exact forall₂_congr fun queueArn _ => ready_after_iff

/-- Uuids longer than all that are used. -/
def sampleIds : Uuids where
  next used := '0' :: used.flatten
  next_notMem used h := by
    have hlength := (List.sublist_flatten_of_mem h).length_le
    rw [List.length_cons] at hlength
    omega

/-- Two queues, and a function without mappings. -/
def sampleSubscription : Subscription := ⟨["queue-1".toList, "queue-2".toList], 10⟩

/-- The second queue gets no mapping. -/
theorem sampleSubscription_missed :
    (add sampleSubscription ⟨[], List.nodup_nil⟩).calls = [.create "queue-1".toList 10] ∧
    ¬ Subscribes sampleIds sampleSubscription ⟨[], List.nodup_nil⟩ := by
  refine ⟨by decide, fun h => ?_⟩
  rcases ready_after_iff.mp (h.ready "queue-2".toList (by decide)) with hready | hfirst
  · obtain ⟨m, hm, -⟩ := hready
    exact List.not_mem_nil hm
  · revert hfirst
    decide

end Custodian.SqsSubscription

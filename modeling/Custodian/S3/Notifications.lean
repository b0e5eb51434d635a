import Custodian.Lib.Except
import Custodian.Lib.Json
import Custodian.Lib.Text
import Mathlib.Data.List.Nodup

/-!
# Notifications of a bucket

The `bucket-notification` filters of `c7n/resources/s3.py` annotate a bucket with the ids of the
entries that they match, and `delete-bucket-notification` writes the configuration without them.
-/

namespace Custodian.Notifications

open Py

/-! ## Configurations -/

/-- The kinds of entries, with the fields `LambdaFunctionConfigurations`, `TopicConfigurations` and
`QueueConfigurations`. -/
inductive Kind where
  | lambda
  | sns
  | sqs
  deriving DecidableEq

/-- `FIELDS.values()` -/
def Kind.all : List Kind := [.lambda, .sns, .sqs]

theorem Kind.mem_all (k : Kind) : k ∈ Kind.all := by cases k <;> decide

structure Entry where
  id : Text
  content : Json

/-- The entries of the fields that are there, with their kinds. -/
def entriesOf (configurations : Kind → Option (List Entry)) : List (Kind × Entry) :=
  Kind.all.flatMap fun k => ((configurations k).getD []).map fun c => (k, c)

/-- A notification configuration, whose entries have distinct ids. -/
structure Notification where
  configurations : Kind → Option (List Entry)
  eventBridge : Option Json
  nodup : ((entriesOf configurations).map fun c => c.2.id).Nodup

namespace Notification

/-- `n.get(field, [])` -/
def get (n : Notification) (k : Kind) : List Entry := (n.configurations k).getD []

/-- `not n` -/
def isEmpty (n : Notification) : Bool :=
  (Kind.all.all fun k => (n.configurations k).isNone) && n.eventBridge.isNone

variable {n : Notification}

theorem mem_entries {k : Kind} {c : Entry} : (k, c) ∈ entriesOf n.configurations ↔ c ∈ n.get k := by
  rw [entriesOf, List.mem_flatMap]
  constructor
  · rintro ⟨k', -, hc⟩
    obtain ⟨c', hc', heq⟩ := List.mem_map.mp hc
    cases heq
    exact hc'
  · exact fun hc => ⟨k, k.mem_all, List.mem_map_of_mem hc⟩

theorem entry_unique {k k' : Kind} {c c' : Entry} (hc : c ∈ n.get k) (hc' : c' ∈ n.get k')
    (hid : c.id = c'.id) : k = k' ∧ c = c' :=
  Prod.ext_iff.mp (List.inj_on_of_nodup_map n.nodup (mem_entries.mpr hc) (mem_entries.mpr hc') hid)

theorem get_eq_nil_of_isEmpty (h : n.isEmpty = true) (k : Kind) : n.get k = [] := by
  rw [isEmpty, Bool.and_eq_true, List.all_eq_true] at h
  rw [get, Option.isNone_iff_eq_none.mp (h.1 k k.mem_all)]
  rfl

end Notification

/-- A bucket with its notification configuration and the ids that filters have matched. -/
structure Bucket where
  notification : Notification
  annotation : Option (List Text)

/-- `bucket.get('c7n:MatchedNotificationConfigurationIds', ())` -/
def Bucket.matchedIds (b : Bucket) : List Text := b.annotation.getD []

/-- `set_annotation` with an id. -/
def Bucket.annotate (b : Bucket) (i : Text) : Bucket :=
  { b with annotation := some (b.annotation.getD [] ++ [i]) }

/-! ## Filters -/

/-- A `bucket-notification` filter: a value filter for the entries of a kind, given by what it
matches, or one with the value type `resource_count`, which keeps all buckets or none. -/
inductive BucketNotificationFilter where
  | entries (kind : Kind) (vfilter : Entry → Except Exn Bool)
  | resourceCount (keeps : Bool)

namespace BucketNotificationFilter

def matchEntry (vfilter : Entry → Except Exn Bool) (state : Bool × Bucket) (config : Entry) :
    Except Exn (Bool × Bucket) := do
  if ← vfilter config then return (true, state.2.annotate config.id)
  return state

/-- `process` for one bucket: whether it is kept, and its annotation. -/
def process (b : Bucket) : BucketNotificationFilter → Except Exn (Bool × Bucket)
  | entries kind vfilter => (b.notification.get kind).foldlM (matchEntry vfilter) (false, b)
  | resourceCount keeps => .ok (keeps, b)

end BucketNotificationFilter

/-- The filters of a policy, each for the buckets that the ones before have kept. -/
def runFilters : List BucketNotificationFilter → Bucket → Except Exn (Option Bucket)
  | [], b => .ok (some b)
  | f :: fs, b => do
    let (keep, b) ← f.process b
    if keep then runFilters fs b else return none

/-! ## The action -/

/-- `statement_ids` -/
inductive StatementIds where
  | matched
  | ids (names : List Text)

/-- The entries that are left, in the fields that still have one. -/
def left (n : Notification) (ids : List Text) (k : Kind) : Option (List Entry) :=
  let cs := (n.get k).filter fun c => c.id ∉ ids
  if cs.isEmpty then none else some cs

theorem getD_left (n : Notification) (ids : List Text) (k : Kind) :
    (left n ids k).getD [] = (n.get k).filter fun c => c.id ∉ ids := by
  rw [left]
  split
  · next h => exact (List.isEmpty_iff.mp h).symm
  · rfl

/-- The configuration that is written, with the fields of entries only. -/
def cfg (n : Notification) (ids : List Text) : Notification where
  configurations := left n ids
  eventBridge := none
  nodup := by
    have hsublist : ∀ k, (((left n ids k).getD []).map fun c => (k, c)).Sublist
        (((n.configurations k).getD []).map fun c => (k, c)) := fun k => by
      rw [getD_left]
      exact List.filter_sublist.map _
    refine n.nodup.sublist (List.Sublist.map _ ?_)
    simp only [entriesOf, Kind.all, List.flatMap_cons, List.flatMap_nil, List.append_nil]
    exact (hsublist _).append ((hsublist _).append (hsublist _))

/-- `process_bucket`: the configuration that is written, if any. -/
def processBucket (statementIds : StatementIds) (b : Bucket) : Option Notification :=
  if b.notification.isEmpty then none
  else
    let ids := match statementIds with
      | .matched => b.matchedIds
      | .ids names => names
    if ids.isEmpty then none else some (cfg b.notification ids)

/-- A policy with these filters and the action, for a bucket without annotation. -/
def run (statementIds : StatementIds) (fs : List BucketNotificationFilter) (n : Notification) :
    Except Exn (Option Notification) := do
  match ← runFilters fs ⟨n, none⟩ with
  | none => return none
  | some b => return processBucket statementIds b

/-- The configuration that is written by a run, if any. -/
def written : Except Exn (Option Notification) → Option Notification
  | .ok o => o
  | .error _ => none

/-! ## What is to be achieved -/

/-- A value filter matches an entry. -/
def isMatch (r : Except Exn Bool) : Bool := r.toOption.getD false

namespace BucketNotificationFilter

/-- Whether a filter keeps a bucket with this configuration. -/
def keeps (n : Notification) : BucketNotificationFilter → Bool
  | entries kind vfilter =>
    ((n.get kind).all fun c => (vfilter c).toOption.isSome) &&
      (n.get kind).any fun c => isMatch (vfilter c)
  | resourceCount keeps => keeps

/-- Whether a filter matches an entry of a kind. -/
def selects (k : Kind) (c : Entry) : BucketNotificationFilter → Bool
  | entries kind vfilter => kind = k && isMatch (vfilter c)
  | resourceCount _ => false

end BucketNotificationFilter

/-- The bucket reaches the action. -/
def reaches (fs : List BucketNotificationFilter) (n : Notification) : Bool :=
  fs.all fun f => f.keeps n

/-- An entry is matched by at least one of the filters, or listed. -/
def selects (statementIds : StatementIds) (fs : List BucketNotificationFilter) (k : Kind)
    (c : Entry) : Bool :=
  match statementIds with
  | .matched => fs.any fun f => f.selects k c
  | .ids names => c.id ∈ names

/-- The configuration in force is the one before without the selected entries, if the bucket reaches
the action, and nothing is written when the filters select no entry. -/
structure Keeps (statementIds : StatementIds) (fs : List BucketNotificationFilter)
    (n : Notification) (o : Option Notification) : Prop where
  entries : ∀ k, (o.getD n).get k =
    (n.get k).filter fun c => !(reaches fs n && selects statementIds fs k c)
  eventBridge : (o.getD n).eventBridge = n.eventBridge
  unwritten : statementIds = .matched →
    (∀ k, ∀ c ∈ n.get k, selects .matched fs k c = false) → o = none

def KeepsTheRest (statementIds : StatementIds) (fs : List BucketNotificationFilter)
    (n : Notification) : Prop :=
  Keeps statementIds fs n (written (run statementIds fs n))

/-! ## What the filters annotate -/

namespace BucketNotificationFilter

/-- The ids that a filter adds to the annotation. -/
def matchedIds (n : Notification) : BucketNotificationFilter → List Text
  | entries kind vfilter => ((n.get kind).filter fun c => isMatch (vfilter c)).map Entry.id
  | resourceCount _ => []

/-- A filter reads the configuration and extends the annotation. -/
structure Annotates (b b' : Bucket) (ids : List Text) : Prop where
  notification : b'.notification = b.notification
  matchedIds : b'.matchedIds = b.matchedIds ++ ids

theorem Annotates.refl (b : Bucket) : Annotates b b [] := ⟨rfl, (List.append_nil _).symm⟩

theorem Annotates.trans {b b' b'' : Bucket} {ids ids' : List Text} (h : Annotates b b' ids)
    (h' : Annotates b' b'' ids') : Annotates b b'' (ids ++ ids') :=
  ⟨h'.notification.trans h.notification, by rw [h'.matchedIds, h.matchedIds, List.append_assoc]⟩

theorem Annotates.annotate (b : Bucket) (i : Text) : Annotates b (b.annotate i) [i] :=
  ⟨rfl, rfl⟩

theorem foldlM_matchEntry {vfilter : Entry → Except Exn Bool} {cs : List Entry}
    (h : ∀ c ∈ cs, (vfilter c).toOption.isSome) (found : Bool) (b : Bucket) :
    ∃ b', cs.foldlM (matchEntry vfilter) (found, b) =
        .ok (found || cs.any fun c => isMatch (vfilter c), b') ∧
      Annotates b b' ((cs.filter fun c => isMatch (vfilter c)).map Entry.id) := by
  induction cs generalizing found b with
  | nil => exact ⟨b, by rw [List.any_nil, Bool.or_false]; rfl, Annotates.refl b⟩
  | cons c cs ih =>
    obtain ⟨hc, hcs⟩ := List.forall_mem_cons.mp h
    rw [List.foldlM_cons, matchEntry]
    cases hv : vfilter c with
    | error e =>
      rw [hv] at hc
      cases hc
    | ok r =>
      cases r with
      | true =>
        obtain ⟨b', hloop, hids⟩ := ih hcs true (b.annotate c.id)
        refine ⟨b', ?_, ?_⟩
        · rw [List.any_cons, hv]
          exact hloop.trans (by simp [isMatch, Except.toOption])
        · rw [List.filter_cons_of_pos (by rw [hv]; rfl)]
          exact (Annotates.annotate b c.id).trans hids
      | false =>
        obtain ⟨b', hloop, hids⟩ := ih hcs found b
        refine ⟨b', ?_, ?_⟩
        · rw [List.any_cons, hv]
          exact hloop.trans (by simp [isMatch, Except.toOption])
        · rwa [List.filter_cons_of_neg (by rw [hv]; exact Bool.false_ne_true)]

theorem isSome_of_foldlM {vfilter : Entry → Except Exn Bool} {cs : List Entry}
    {state result : Bool × Bucket} (h : cs.foldlM (matchEntry vfilter) state = .ok result) :
    ∀ c ∈ cs, (vfilter c).toOption.isSome := by
  induction cs generalizing state with
  | nil => exact fun c hc => absurd hc List.not_mem_nil
  | cons c cs ih =>
    rw [List.foldlM_cons, matchEntry] at h
    obtain ⟨state', hstep, hrest⟩ := bind_eq_ok.mp h
    obtain ⟨r, hr, -⟩ := bind_eq_ok.mp hstep
    rw [List.forall_mem_cons, hr]
    exact ⟨rfl, ih hrest⟩

theorem process_of_keeps {f : BucketNotificationFilter} {b : Bucket}
    (h : f.keeps b.notification = true) :
    ∃ b', f.process b = .ok (true, b') ∧ Annotates b b' (f.matchedIds b.notification) := by
  cases f with
  | entries kind vfilter =>
    rw [keeps, Bool.and_eq_true, List.all_eq_true] at h
    obtain ⟨b', hloop, hids⟩ := foldlM_matchEntry h.1 false b
    rw [h.2, Bool.or_true] at hloop
    exact ⟨b', hloop, hids⟩
  | resourceCount r =>
    rw [keeps] at h
    exact ⟨b, by rw [process, h], Annotates.refl b⟩

theorem keeps_of_process {f : BucketNotificationFilter} {b b' : Bucket}
    (h : f.process b = .ok (true, b')) : f.keeps b.notification = true := by
  cases f with
  | entries kind vfilter =>
    rw [process] at h
    have hsome := isSome_of_foldlM h
    obtain ⟨b'', hloop, -⟩ := foldlM_matchEntry hsome false b
    obtain ⟨hany, -⟩ := Prod.ext_iff.mp (Except.ok.inj (h.symm.trans hloop))
    rw [keeps, Bool.and_eq_true, List.all_eq_true]
    exact ⟨hsome, hany.symm⟩
  | resourceCount r => exact (Prod.ext_iff.mp (Except.ok.inj h)).1

end BucketNotificationFilter

open BucketNotificationFilter (Annotates process_of_keeps keeps_of_process)

variable {fs : List BucketNotificationFilter} {n : Notification} {b : Bucket}

/-- **A bucket that reaches the action** is annotated with the ids of all filters. -/
theorem runFilters_of_reaches (h : reaches fs b.notification = true) :
    ∃ b', runFilters fs b = .ok (some b') ∧
      Annotates b b' (fs.flatMap fun f => f.matchedIds b.notification) := by
  induction fs generalizing b with
  | nil => exact ⟨b, rfl, Annotates.refl b⟩
  | cons f fs ih =>
    rw [reaches, List.all_cons, Bool.and_eq_true] at h
    obtain ⟨b', hf, hids⟩ := process_of_keeps h.1
    have hrest : reaches fs b'.notification = true := hids.notification ▸ h.2
    obtain ⟨b'', hfs, hids'⟩ := ih hrest
    rw [hids.notification] at hids'
    refine ⟨b'', ?_, hids.trans hids'⟩
    rw [runFilters, hf]
    exact hfs

theorem reaches_of_runFilters {b' : Bucket} (h : runFilters fs b = .ok (some b')) :
    reaches fs b.notification = true := by
  induction fs generalizing b with
  | nil => rfl
  | cons f fs ih =>
    rw [runFilters] at h
    obtain ⟨⟨keep, b₁⟩, hf, hrest⟩ := bind_eq_ok.mp h
    cases keep with
    | false => cases hrest
    | true =>
      have hkeeps := keeps_of_process hf
      obtain ⟨b₂, hf', hids⟩ := process_of_keeps hkeeps
      obtain ⟨-, rfl⟩ := Prod.ext_iff.mp (Except.ok.inj (hf.symm.trans hf'))
      rw [reaches, List.all_cons, hkeeps, Bool.true_and]
      exact hids.notification ▸ ih hrest

theorem written_of_not_reaches {statementIds : StatementIds} (h : reaches fs n = false) :
    written (run statementIds fs n) = none := by
  rw [run]
  cases hrun : runFilters fs ⟨n, none⟩ with
  | error e => rfl
  | ok o =>
    cases o with
    | none => rfl
    | some b =>
      have hreaches : reaches fs n = true := reaches_of_runFilters hrun
      rw [h] at hreaches
      cases hreaches

/-! ## What is written -/

/-- The ids of the entries that the action leaves out. -/
def idsOf (statementIds : StatementIds) (fs : List BucketNotificationFilter) (n : Notification) :
    List Text :=
  match statementIds with
  | .matched => fs.flatMap fun f => f.matchedIds n
  | .ids names => names

theorem written_of_reaches {statementIds : StatementIds} (h : reaches fs n = true) :
    written (run statementIds fs n) =
      if n.isEmpty || (idsOf statementIds fs n).isEmpty then none
      else some (cfg n (idsOf statementIds fs n)) := by
  obtain ⟨b, hb, hids⟩ := runFilters_of_reaches (b := ⟨n, none⟩) h
  have hnotification : b.notification = n := hids.notification
  have hmatched : b.matchedIds = fs.flatMap fun f => f.matchedIds n := hids.matchedIds
  have hrun : run statementIds fs n = .ok (processBucket statementIds b) := by
    rw [run, hb]
    rfl
  simp only [hrun, written, processBucket, hnotification, hmatched]
  cases n.isEmpty <;> cases statementIds <;> rfl

theorem mem_matchedIds {f : BucketNotificationFilter} {k : Kind} {c : Entry} (hc : c ∈ n.get k) :
    c.id ∈ f.matchedIds n ↔ f.selects k c = true := by
  cases f with
  | entries kind vfilter =>
    rw [BucketNotificationFilter.matchedIds, BucketNotificationFilter.selects, List.mem_map,
      Bool.and_eq_true, decide_eq_true_eq]
    constructor
    · rintro ⟨c', hc', hid⟩
      obtain ⟨hc', hmatch⟩ := List.mem_filter.mp hc'
      obtain ⟨rfl, rfl⟩ := Notification.entry_unique hc' hc hid
      exact ⟨rfl, hmatch⟩
    · rintro ⟨rfl, hmatch⟩
      exact ⟨c, List.mem_filter.mpr ⟨hc, hmatch⟩, rfl⟩
  | resourceCount _ =>
    rw [BucketNotificationFilter.matchedIds, BucketNotificationFilter.selects]
    exact iff_of_false List.not_mem_nil Bool.false_ne_true

theorem mem_idsOf {statementIds : StatementIds} {k : Kind} {c : Entry} (hc : c ∈ n.get k) :
    c.id ∈ idsOf statementIds fs n ↔ selects statementIds fs k c = true := by
  cases statementIds with
  | matched =>
    rw [idsOf, selects, List.mem_flatMap, List.any_eq_true]
    simp only [mem_matchedIds hc]
  | ids names =>
    rw [idsOf, selects, decide_eq_true_eq]

/-- The filters select no entry, or no id is listed. -/
def NothingNamed (statementIds : StatementIds) (fs : List BucketNotificationFilter)
    (n : Notification) : Prop :=
  match statementIds with
  | .matched => ∀ k, ∀ c ∈ n.get k, selects .matched fs k c = false
  | .ids names => names = []

theorem idsOf_eq_nil_iff {statementIds : StatementIds} :
    idsOf statementIds fs n = [] ↔ NothingNamed statementIds fs n := by
  cases statementIds with
  | matched =>
    rw [NothingNamed]
    constructor
    · intro hnil k c hc
      rw [Bool.eq_false_iff, Ne, ← mem_idsOf hc, hnil]
      exact List.not_mem_nil
    · intro h
      refine List.eq_nil_iff_forall_not_mem.mpr fun i hi => ?_
      obtain ⟨f, hf, hi⟩ := List.mem_flatMap.mp hi
      cases f with
      | entries kind vfilter =>
        obtain ⟨c, hc, rfl⟩ := List.mem_map.mp hi
        obtain ⟨hc, -⟩ := List.mem_filter.mp hc
        have hselects : selects .matched fs kind c = true :=
          List.any_eq_true.mpr ⟨_, hf, (mem_matchedIds hc).mp hi⟩
        rw [h kind c hc] at hselects
        cases hselects
      | resourceCount _ => cases hi
  | ids names => rfl

/-- **The entries that are left** are those that are not selected, in their order. -/
theorem get_cfg (statementIds : StatementIds) (fs : List BucketNotificationFilter)
    (n : Notification) (k : Kind) : (cfg n (idsOf statementIds fs n)).get k =
      (n.get k).filter fun c => !selects statementIds fs k c := by
  refine (getD_left ..).trans (List.filter_congr fun c hc => ?_)
  rw [decide_not, Bool.not_inj_iff, Bool.eq_iff_iff, decide_eq_true_eq, mem_idsOf hc]

theorem keeps_none {statementIds : StatementIds}
    (h : ∀ k, ∀ c ∈ n.get k, (reaches fs n && selects statementIds fs k c) = false) :
    Keeps statementIds fs n none :=
  ⟨fun k => (List.filter_eq_self.mpr fun c hc => by rw [h k c hc]; rfl).symm, rfl, fun _ _ => rfl⟩

/-- **The rest of the configuration is kept** exactly when there is no EventBridge configuration,
or the bucket does not reach the action, or no entry is named. -/
theorem keepsTheRest_iff (statementIds : StatementIds) (fs : List BucketNotificationFilter)
    (n : Notification) : KeepsTheRest statementIds fs n ↔
      n.eventBridge = none ∨ reaches fs n = false ∨ NothingNamed statementIds fs n := by
  rw [KeepsTheRest]
  cases hreaches : reaches fs n with
  | false =>
    rw [written_of_not_reaches hreaches]
    refine iff_of_true (keeps_none fun k c _ => ?_) (Or.inr (Or.inl rfl))
    rw [hreaches, Bool.false_and]
  | true =>
    rw [written_of_reaches hreaches, ← idsOf_eq_nil_iff]
    by_cases hnil : idsOf statementIds fs n = []
    · rw [hnil, List.isEmpty_nil, Bool.or_true, if_pos rfl]
      refine iff_of_true (keeps_none fun k c hc => ?_) (Or.inr (Or.inr rfl))
      rw [hreaches, Bool.true_and, Bool.eq_false_iff, Ne, ← mem_idsOf hc, hnil]
      exact List.not_mem_nil
    · rw [List.isEmpty_eq_false_iff.mpr hnil, Bool.or_false]
      cases hempty : n.isEmpty with
      | true =>
        rw [if_pos rfl]
        refine iff_of_true (keeps_none fun k c hc => ?_) (Or.inl ?_)
        · rw [Notification.get_eq_nil_of_isEmpty hempty] at hc
          cases hc
        · rw [Notification.isEmpty, Bool.and_eq_true] at hempty
          exact Option.isNone_iff_eq_none.mp hempty.2
      | false =>
        rw [if_neg Bool.false_ne_true]
        constructor
        · exact fun h => Or.inl h.eventBridge.symm
        · rintro (hnone | h | h)
          · refine ⟨fun k => ?_, hnone.symm, fun hmatched h => ?_⟩
            · rw [hreaches]
              exact get_cfg statementIds fs n k
            · subst hmatched
              have hnothing : NothingNamed .matched fs n := h
              exact absurd (idsOf_eq_nil_iff.mpr hnothing) hnil
          · cases h
          · exact absurd h hnil

/-! ## A lost configuration -/

/-- One lambda configuration and an EventBridge configuration. -/
def lambdaAndEventBridge : Notification where
  configurations
    | .lambda => some [⟨"L".toList, .null⟩]
    | _ => none
  eventBridge := some (.obj [])
  nodup := by simp [entriesOf, Kind.all]

/-- When the lambda configuration is deleted, the EventBridge configuration is lost. -/
theorem eventBridge_lost : ¬ KeepsTheRest .matched
    [.entries .lambda fun _ => .ok true] lambdaAndEventBridge := by
  intro h
  cases h.eventBridge

end Custodian.Notifications

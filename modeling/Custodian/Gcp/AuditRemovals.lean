import Custodian.Gcp.AuditConfigs
import Custodian.Gcp.IamPolicy

/-!
# Removing audit configs from an IAM policy

`SetIamPolicy._remove_audit_configs` and `validate` of `c7n_gcp/actions/iampolicy.py`.  Removals are
collected for each service and log type, those of service `'*'` are joined to those of every entry,
and the entries are pruned.
-/

namespace Custodian.AuditRemovals

open Py AuditConfigs
open IamPolicy (Members)

/-! ## Removals -/

/-- An entry of `audit-log-configs` of a removal. -/
structure LogRemoval (L M : Type) where
  logType : L
  exemptedMembers : Option (Members M)
  nonempty : exemptedMembers ≠ some (.list [])

/-- An entry of `remove-audit-configs`. -/
structure Removal (L M : Type) where
  service : Text
  auditLogConfigs : List (LogRemoval L M)

/-- What is pending, by log type. -/
abbrev Types (L M : Type) := List (L × Members M)

variable {L M : Type}

/-- `lc_spec.get('exempted-members', [])` -/
def LogRemoval.members (lc : LogRemoval L M) : Members M := lc.exemptedMembers.getD (.list [])

/-- `SetIamPolicy.validate`, of the audit configs -/
def validate (addAuditConfigs : List (Addition L M)) (removeAuditConfigs : List (Removal L M)) :
    Except Text Unit :=
  if addAuditConfigs.any fun spec => spec.service = "*".toList then
    .error "set-iam-policy: add-audit-configs does not support service '*'".toList
  else if removeAuditConfigs.any fun spec => spec.service = "*".toList ∧
      spec.auditLogConfigs.any fun lc => lc.exemptedMembers.isNone then
    .error ("set-iam-policy: remove-audit-configs with service '*' requires ".toList ++
      "exempted-members on every audit-log-config".toList)
  else .ok ()

variable [DecidableEq L] [DecidableEq M]

/-- What is pending for a log type after one more removal: the whole log type wins over `'*'`, which
wins over listed members. -/
def mergeRemoval : Option (Members M) → Members M → Members M
  | some (.list []), _ => .list []
  | _, .list [] => .list []
  | some .star, _ => .star
  | _, .star => .star
  | some (.list current), .list members => .list (current ++ members)
  | none, .list members => .list members

/-- `_merge_audit_log_removal` -/
def mergeAuditLogRemoval (types : Types L M) (logType : L) (members : Members M) : Types L M :=
  Items.set logType (mergeRemoval (Items.get logType types) members) types

/-- One spec of `to_remove`. -/
def collect (removals : List (Text × Types L M)) (spec : Removal L M) : List (Text × Types L M) :=
  Items.set spec.service
    (spec.auditLogConfigs.foldl (fun types lc => mergeAuditLogRemoval types lc.logType lc.members)
      ((Items.get spec.service removals).getD [])) removals

/-- One log config of an entry that is pruned. -/
def pruneLog (typesToRemove : Types L M) (lc : LogConfig L M) : Option (LogConfig L M) :=
  match Items.get lc.logType typesToRemove with
  | none => some lc
  | some (.list []) => none
  | some .star => some ⟨lc.logType, none⟩
  | some (.list membersToRemove) =>
    let remaining := lc.members.filter fun m => m ∉ membersToRemove
    some ⟨lc.logType, if remaining ≠ [] then some remaining else none⟩

/-- What is removed from an entry of a service. -/
def typesToRemove (removals : List (Text × Types L M)) (wildcardTypes : Types L M)
    (service : Text) : Types L M :=
  wildcardTypes.foldl (fun types e => mergeAuditLogRemoval types e.1 e.2)
    ((Items.get service removals).getD [])

/-- One entry of `existing`. -/
def pruneEntry (removals : List (Text × Types L M)) (wildcardTypes : Types L M)
    (entry : AuditConfig L M) : Option (AuditConfig L M) :=
  if (Items.get entry.service removals).isNone ∧ wildcardTypes = [] then some entry
  else
    let filtered := entry.logs.filterMap
      (pruneLog (typesToRemove removals wildcardTypes entry.service))
    if filtered ≠ [] then some ⟨entry.service, some filtered⟩ else none

/-- `_remove_audit_configs` -/
def removeAuditConfigs (existing : List (AuditConfig L M)) (toRemove : List (Removal L M)) :
    List (AuditConfig L M) :=
  let removals := toRemove.foldl collect []
  let wildcardTypes := (Items.get "*".toList removals).getD []
  existing.filterMap (pruneEntry (Items.erase "*".toList removals) wildcardTypes)

/-! ## What is asked for -/

/-- A spec that applies to the service has an entry for the log type of which it holds. -/
def Wants (toRemove : List (Removal L M)) (s : Text) (ty : L) (P : Members M → Prop) : Prop :=
  ∃ spec ∈ toRemove, (spec.service = s ∨ spec.service = "*".toList) ∧
    ∃ lc ∈ spec.auditLogConfigs, lc.logType = ty ∧ P lc.members

/-- The member is named, or all members of its log type are, or the whole log type. -/
def Takes (toRemove : List (Removal L M)) (s : Text) (ty : L) (m : M) : Prop :=
  ∃ spec ∈ toRemove, (spec.service = s ∨ spec.service = "*".toList) ∧
    ∃ lc ∈ spec.auditLogConfigs, lc.logType = ty ∧
      (lc.exemptedMembers = none ∨ lc.exemptedMembers = some .star ∨
        ∃ members, lc.exemptedMembers = some (.list members) ∧ m ∈ members)

/-- A spec for the service itself names the log type without members. -/
def Drops (toRemove : List (Removal L M)) (s : Text) (ty : L) : Prop :=
  ∃ spec ∈ toRemove, spec.service = s ∧
    ∃ lc ∈ spec.auditLogConfigs, lc.logType = ty ∧ lc.exemptedMembers = none

/-- The same specs in another order, with their entries in another order. -/
def Reordered (toRemove toRemove' : List (Removal L M)) : Prop :=
  ∃ specs, List.Forall₂ (fun spec spec' => spec.service = spec'.service ∧
    spec.auditLogConfigs.Perm spec'.auditLogConfigs) toRemove specs ∧ specs.Perm toRemove'

/-- The specs that name a service. -/
def named (toRemove : List (Removal L M)) : List (Removal L M) :=
  toRemove.filter fun spec => spec.service ≠ "*".toList

/-- What removal does. -/
structure Removes (existing : List (AuditConfig L M)) (toRemove : List (Removal L M)) : Prop where
  reordered : ∀ toRemove', Reordered toRemove toRemove' →
    removeAuditConfigs existing toRemove' = removeAuditConfigs existing toRemove
  exempts : ∀ s ty m, Exempts (removeAuditConfigs existing toRemove) s ty m ↔
    Exempts existing s ty m ∧ ¬ Takes toRemove s ty m
  logs : ∀ s ty, Logs (removeAuditConfigs existing toRemove) s ty ↔
    Logs existing s ty ∧ ¬ Drops toRemove s ty
  wildcard : ∀ s ty, Logs (removeAuditConfigs existing (named toRemove)) s ty →
    Logs (removeAuditConfigs existing toRemove) s ty

/-! ## What is pending -/

/-- What is pending for a service, with one more spec for it. -/
def collected (types : Option (Types L M)) (spec : Removal L M) : Types L M :=
  spec.auditLogConfigs.foldl (fun types lc => mergeAuditLogRemoval types lc.logType lc.members)
    (types.getD [])

omit [DecidableEq M] in
theorem foldl_collect (toRemove : List (Removal L M)) :
    toRemove.foldl collect [] = Items.updates Removal.service collected [] toRemove := rfl

/-- A merged removal has the property when one of its parts does. -/
def Joins (P : Members M → Prop) : Prop :=
  ∀ o x, P (mergeRemoval o x) ↔ (∃ v ∈ o, P v) ∨ P x

/-- The removal takes the member. -/
def TakesMember (m : M) : Members M → Prop
  | .star => True
  | .list members => members = [] ∨ m ∈ members

omit [DecidableEq M] in
theorem joins_true : Joins fun _ : Members M => True := fun _ _ => by simp

omit [DecidableEq M] in
theorem joins_whole : Joins fun v : Members M => v = .list [] := by
  intro o x
  rcases o with _ | _ | _ | ⟨m, ms⟩ <;> rcases x with _ | _ | ⟨m', ms'⟩ <;> simp [mergeRemoval]

omit [DecidableEq M] in
theorem joins_takesMember (m : M) : Joins (TakesMember m) := by
  intro o x
  rcases o with _ | _ | _ | ⟨m, ms⟩ <;> rcases x with _ | _ | ⟨m', ms'⟩ <;>
    simp [mergeRemoval, TakesMember, or_assoc]

omit [DecidableEq M] in
theorem nodup_collect (toRemove : List (Removal L M)) (s : Text) :
    (((Items.get s (toRemove.foldl collect [])).getD []).map Prod.fst).Nodup := by
  induction toRemove using List.reverseRecOn generalizing s with
  | nil => exact List.nodup_nil
  | append_singleton toRemove spec ih =>
    rw [List.foldl_append, List.foldl_cons, List.foldl_nil, collect, Items.get_set]
    split
    · change ((Items.updates LogRemoval.logType (fun o lc => mergeRemoval o lc.members)
        ((Items.get spec.service (toRemove.foldl collect [])).getD [])
        spec.auditLogConfigs).map Prod.fst).Nodup
      exact Items.keys_nodup_updates (ih spec.service) spec.auditLogConfigs
    · exact ih s

omit [DecidableEq M] in
theorem exists_mem_iff_exists_get {types : Types L M} (h : (types.map Prod.fst).Nodup) (ty : L)
    (P : Members M → Prop) :
    (∃ e ∈ types, e.1 = ty ∧ P e.2) ↔ ∃ v ∈ Items.get ty types, P v := by
  constructor
  · rintro ⟨⟨k, v⟩, he, rfl, hP⟩
    exact ⟨v, (Items.mem_iff_lookup h).mp he, hP⟩
  · rintro ⟨v, hv, hP⟩
    exact ⟨(ty, v), Items.mem_of_get hv, rfl, hP⟩

/-- What is removed from an entry of the service. -/
def pending (toRemove : List (Removal L M)) (s : Text) : Types L M :=
  typesToRemove (Items.erase "*".toList (toRemove.foldl collect []))
    ((Items.get "*".toList (toRemove.foldl collect [])).getD []) s

section Pending

variable {P : Members M → Prop} (hP : Joins P)

include hP

omit [DecidableEq M] in
theorem exists_get_foldl_iff {α : Type} (logType : α → L) (members : α → Members M)
    (types : Types L M) (l : List α) (ty : L) :
    (∃ v ∈ Items.get ty (l.foldl
        (fun types x => mergeAuditLogRemoval types (logType x) (members x)) types), P v) ↔
      (∃ v ∈ Items.get ty types, P v) ∨ ∃ x ∈ l, logType x = ty ∧ P (members x) := by
  change (∃ v ∈ Items.get ty (Items.updates logType (fun o x => mergeRemoval o (members x))
    types l), P v) ↔ _
  exact Items.exists_get_updates_iff (fun o x => hP o (members x)) types l ty

omit [DecidableEq M] in
theorem exists_get_collect_iff (toRemove : List (Removal L M)) (s : Text) (ty : L) :
    (∃ v ∈ Items.get ty ((Items.get s (toRemove.foldl collect [])).getD []), P v) ↔
      ∃ spec ∈ toRemove, spec.service = s ∧
        ∃ lc ∈ spec.auditLogConfigs, lc.logType = ty ∧ P lc.members := by
  have hgetD : ∀ o : Option (Types L M), (∃ v ∈ Items.get ty (o.getD []), P v) ↔
      ∃ types ∈ o, ∃ v ∈ Items.get ty types, P v := by
    rintro (_ | types) <;> simp [Items.get]
  have hcollected : ∀ (o : Option (Types L M)) (spec : Removal L M),
      (∃ v ∈ Items.get ty (collected o spec), P v) ↔
        (∃ types ∈ o, ∃ v ∈ Items.get ty types, P v) ∨
          ∃ lc ∈ spec.auditLogConfigs, lc.logType = ty ∧ P lc.members := by
    intro o spec
    rw [collected, exists_get_foldl_iff hP, hgetD]
  rw [hgetD, foldl_collect, Items.exists_get_updates_iff
    (P := fun types => ∃ v ∈ Items.get ty types, P v) hcollected]
  simp [Items.get]

omit [DecidableEq M] in
/-- **One log type.**  What is pending for it is what the specs for its service and for `'*'` say,
in whatever order. -/
theorem exists_get_pending_iff (toRemove : List (Removal L M)) (s : Text) (ty : L) :
    (∃ v ∈ Items.get ty (pending toRemove s), P v) ↔ Wants toRemove s ty P := by
  rw [pending, typesToRemove, exists_get_foldl_iff hP,
    exists_mem_iff_exists_get (nodup_collect _ _), exists_get_collect_iff hP, Items.get_erase, Wants]
  simp only [or_and_right, and_or_left, exists_or]
  split
  · rename_i hs
    simp [hs, Items.get]
  · rw [exists_get_collect_iff hP]

end Pending

/-! ## Pruning -/

instance (m : M) : DecidablePred (TakesMember m)
  | .star => .isTrue trivial
  | .list members => inferInstanceAs (Decidable (members = [] ∨ m ∈ members))

/-- A log config whose type is kept. -/
def keep (lc : LogConfig L M) (v : Members M) : LogConfig L M :=
  let remaining := lc.members.filter fun m => ¬ TakesMember m v
  ⟨lc.logType, if remaining ≠ [] then some remaining else none⟩

omit [DecidableEq L] in
theorem mem_members_keep {lc : LogConfig L M} {v : Members M} {m : M} :
    m ∈ (keep lc v).members ↔ m ∈ lc.members ∧ ¬ TakesMember m v := by
  rw [keep, LogConfig.members]
  split
  · simp
  · rename_i hnil
    have hmem := List.filter_eq_nil_iff.mp (not_not.mp hnil) m
    simp only [decide_not, Bool.not_eq_true', decide_eq_false_iff_not, not_not] at hmem
    simpa using hmem

theorem pruneLog_of_none {types : Types L M} {lc : LogConfig L M}
    (h : Items.get lc.logType types = none) : pruneLog types lc = some lc := by
  rw [pruneLog, h]

theorem pruneLog_of_whole {types : Types L M} {lc : LogConfig L M}
    (h : Items.get lc.logType types = some (.list [])) : pruneLog types lc = none := by
  rw [pruneLog, h]

theorem pruneLog_of_some {types : Types L M} {lc : LogConfig L M} {v : Members M}
    (h : Items.get lc.logType types = some v) (hv : v ≠ .list []) :
    pruneLog types lc = some (keep lc v) := by
  rw [pruneLog, h]
  rcases v with _ | _ | ⟨m, ms⟩
  · simp [keep, TakesMember]
  · exact absurd rfl hv
  · simp [keep, TakesMember]

theorem pruneLog_congr {types types' : Types L M} {lc : LogConfig L M}
    (h : ∀ P, Joins P → ((∃ v ∈ Items.get lc.logType types, P v) ↔
      ∃ v ∈ Items.get lc.logType types', P v)) : pruneLog types lc = pruneLog types' lc := by
  have htrue := h _ joins_true
  have hwhole := h _ joins_whole
  have htakes := fun m => h _ (joins_takesMember m)
  cases hget : Items.get lc.logType types with
  | none =>
    cases hget' : Items.get lc.logType types' with
    | none => rw [pruneLog_of_none hget, pruneLog_of_none hget']
    | some v' => simp [hget, hget'] at htrue
  | some v =>
    cases hget' : Items.get lc.logType types' with
    | none => simp [hget, hget'] at htrue
    | some v' =>
      rw [hget, hget'] at hwhole htakes
      simp only [Option.mem_some_iff, exists_eq_left'] at hwhole htakes
      by_cases hv : v = .list []
      · rw [pruneLog_of_whole (hv ▸ hget), pruneLog_of_whole (hwhole.mp hv ▸ hget')]
      · rw [pruneLog_of_some hget hv, pruneLog_of_some hget' (hwhole.not.mp hv)]
        simp only [keep, htakes]

theorem exists_logType_pruneLog_iff {types : Types L M} {lc : LogConfig L M} {ty : L} :
    (∃ lc' ∈ pruneLog types lc, lc'.logType = ty) ↔
      lc.logType = ty ∧ ¬ ∃ v ∈ Items.get ty types, v = .list [] := by
  cases hget : Items.get lc.logType types with
  | none =>
    rw [pruneLog_of_none hget]
    simp only [Option.mem_some_iff, exists_eq_left']
    exact (and_iff_left_of_imp fun hty => by simp [← hty, hget]).symm
  | some v =>
    by_cases hv : v = .list []
    · rw [pruneLog_of_whole (hv ▸ hget)]
      refine iff_of_false (by simp) ?_
      rintro ⟨rfl, hwhole⟩
      exact hwhole ⟨v, hget, hv⟩
    · rw [pruneLog_of_some hget hv]
      simp only [Option.mem_some_iff, exists_eq_left']
      refine (and_iff_left_of_imp ?_).symm
      rintro rfl
      rw [show (keep lc v).logType = lc.logType from rfl, hget]
      simpa using hv

theorem exists_mem_pruneLog_iff {types : Types L M} {lc : LogConfig L M} {ty : L} {m : M} :
    (∃ lc' ∈ pruneLog types lc, lc'.logType = ty ∧ m ∈ lc'.members) ↔
      (lc.logType = ty ∧ m ∈ lc.members) ∧ ¬ ∃ v ∈ Items.get ty types, TakesMember m v := by
  cases hget : Items.get lc.logType types with
  | none =>
    rw [pruneLog_of_none hget]
    simp only [Option.mem_some_iff, exists_eq_left']
    exact (and_iff_left_of_imp fun hty => by simp [← hty.1, hget]).symm
  | some v =>
    by_cases hv : v = .list []
    · rw [pruneLog_of_whole (hv ▸ hget)]
      refine iff_of_false (by simp) ?_
      rintro ⟨⟨rfl, -⟩, htakes⟩
      exact htakes ⟨v, hget, hv ▸ .inl rfl⟩
    · rw [pruneLog_of_some hget hv]
      simp only [Option.mem_some_iff, exists_eq_left', mem_members_keep, and_assoc]
      refine and_congr_right fun hty => and_congr_right fun _ => not_congr ?_
      rw [← show lc.logType = ty from hty, hget]
      simp

/-! ## Entries -/

theorem exists_mem_pruneEntry_iff {removals : List (Text × Types L M)} {wildcardTypes : Types L M}
    {entry : AuditConfig L M} {s : Text} {Q : LogConfig L M → Prop} :
    (∃ e ∈ pruneEntry removals wildcardTypes entry, e.service = s ∧ ∃ lc ∈ e.logs, Q lc) ↔
      entry.service = s ∧ ∃ lc ∈ entry.logs,
        ∃ lc' ∈ pruneLog (typesToRemove removals wildcardTypes entry.service) lc, Q lc' := by
  rw [pruneEntry]
  split
  · rename_i hskip
    have htypes : typesToRemove removals wildcardTypes entry.service = [] := by
      rw [typesToRemove, hskip.2, Option.isNone_iff_eq_none.mp hskip.1]
      rfl
    have hkeep : ∀ lc : LogConfig L M, pruneLog [] lc = some lc := fun lc => pruneLog_of_none rfl
    simp [htypes, hkeep]
  · generalize typesToRemove removals wildcardTypes entry.service = types
    have hfiltered : (∃ lc ∈ entry.logs, ∃ lc' ∈ pruneLog types lc, Q lc') ↔
        ∃ lc' ∈ entry.logs.filterMap (pruneLog types), Q lc' := by
      simp only [List.mem_filterMap]
      constructor
      · rintro ⟨lc, hlc, lc', hlc', hQ⟩
        exact ⟨lc', ⟨lc, hlc, hlc'⟩, hQ⟩
      · rintro ⟨lc', ⟨lc, hlc, hlc'⟩, hQ⟩
        exact ⟨lc, hlc, lc', hlc', hQ⟩
    rw [hfiltered]
    generalize entry.logs.filterMap (pruneLog types) = filtered
    cases filtered with
    | nil => simp
    | cons lc filtered => simp [AuditConfig.logs]

theorem exists_mem_removeAuditConfigs_iff (existing : List (AuditConfig L M))
    (toRemove : List (Removal L M)) (s : Text) (Q : LogConfig L M → Prop) :
    (∃ e ∈ removeAuditConfigs existing toRemove, e.service = s ∧ ∃ lc ∈ e.logs, Q lc) ↔
      ∃ e ∈ existing, e.service = s ∧ ∃ lc ∈ e.logs, ∃ lc' ∈ pruneLog (pending toRemove s) lc,
        Q lc' := by
  simp only [removeAuditConfigs, List.mem_filterMap]
  constructor
  · rintro ⟨e', ⟨e, he, hprune⟩, hQ⟩
    obtain ⟨rfl, hkept⟩ := exists_mem_pruneEntry_iff.mp ⟨e', hprune, hQ⟩
    exact ⟨e, he, rfl, hkept⟩
  · rintro ⟨e, he, rfl, hkept⟩
    obtain ⟨e', hprune, hQ⟩ := exists_mem_pruneEntry_iff.mpr ⟨rfl, hkept⟩
    exact ⟨e', ⟨e, he, hprune⟩, hQ⟩

/-! ## The order of specs -/

section Order

variable {toRemove toRemove' : List (Removal L M)} (h : Reordered toRemove toRemove')

include h

omit [DecidableEq L] [DecidableEq M] in
theorem Reordered.exists_iff {Q : Removal L M → Prop}
    (hQ : ∀ spec spec' : Removal L M, spec.service = spec'.service →
      spec.auditLogConfigs.Perm spec'.auditLogConfigs → (Q spec ↔ Q spec')) :
    (∃ spec ∈ toRemove, Q spec) ↔ ∃ spec ∈ toRemove', Q spec := by
  obtain ⟨specs, hspecs, hperm⟩ := h
  simp only [← hperm.mem_iff]
  clear hperm
  induction hspecs with
  | nil => rfl
  | cons hspec _ ih =>
    rw [List.exists_mem_cons_iff, List.exists_mem_cons_iff, hQ _ _ hspec.1 hspec.2, ih]

omit [DecidableEq L] [DecidableEq M] in
theorem Reordered.entry_iff (Q : Text → Prop) (P : LogRemoval L M → Prop) :
    (∃ spec ∈ toRemove, Q spec.service ∧ ∃ lc ∈ spec.auditLogConfigs, P lc) ↔
      ∃ spec ∈ toRemove', Q spec.service ∧ ∃ lc ∈ spec.auditLogConfigs, P lc :=
  h.exists_iff fun spec spec' hs hperm => by simp only [hs, hperm.mem_iff]

omit [DecidableEq M] in
theorem Reordered.isNone_erase (s : Text) :
    (Items.get s (Items.erase "*".toList (toRemove.foldl collect []))).isNone =
      (Items.get s (Items.erase "*".toList (toRemove'.foldl collect []))).isNone := by
  have hkeys : ∀ specs : List (Removal L M),
      (Items.get s (specs.foldl collect [])).isSome ↔ ∃ spec ∈ specs, spec.service = s := by
    intro specs
    rw [Items.isSome_get, foldl_collect, Items.mem_keys_updates]
    exact or_iff_right List.not_mem_nil
  rw [Items.get_erase, Items.get_erase]
  split
  · rfl
  · have hiff := (hkeys toRemove).trans ((h.exists_iff (Q := fun spec => spec.service = s)
      fun spec spec' hs _ => by rw [hs]).trans (hkeys toRemove').symm)
    rw [← Option.not_isSome, ← Option.not_isSome, Bool.eq_iff_iff.mpr hiff]

omit [DecidableEq M] in
theorem Reordered.wildcardTypes_eq_nil_iff :
    (Items.get "*".toList (toRemove.foldl collect [])).getD [] = [] ↔
      (Items.get "*".toList (toRemove'.foldl collect [])).getD [] = [] := by
  have hnil : ∀ types : Types L M, types = [] ↔ ∀ ty, ¬ ∃ v ∈ Items.get ty types, True := by
    intro types
    cases types with
    | nil => simp [Items.get]
    | cons e types =>
      refine iff_of_false (List.cons_ne_nil e types) fun hnone => hnone e.1 ⟨e.2, ?_, trivial⟩
      rw [Items.get, Items.lookup_cons, if_pos rfl]
      rfl
  rw [hnil, hnil]
  refine forall_congr' fun ty => not_congr ?_
  rw [exists_get_collect_iff joins_true, exists_get_collect_iff joins_true]
  exact h.entry_iff (· = "*".toList) fun lc => lc.logType = ty ∧ True

/-- **The order does not matter.** -/
theorem Reordered.removeAuditConfigs_eq (existing : List (AuditConfig L M)) :
    removeAuditConfigs existing toRemove' = removeAuditConfigs existing toRemove := by
  refine List.filterMap_congr fun entry _ => ?_
  have hlogs : entry.logs.filterMap (pruneLog (pending toRemove' entry.service)) =
      entry.logs.filterMap (pruneLog (pending toRemove entry.service)) := by
    refine List.filterMap_congr fun lc _ => pruneLog_congr fun P hP => ?_
    rw [exists_get_pending_iff hP, exists_get_pending_iff hP]
    exact (h.entry_iff (fun s => s = entry.service ∨ s = "*".toList)
      fun removal => removal.logType = lc.logType ∧ P removal.members).symm
  rw [pending, pending] at hlogs
  rw [pruneEntry, pruneEntry, hlogs]
  exact if_congr (and_congr (by rw [h.isNone_erase]) h.wildcardTypes_eq_nil_iff.symm) rfl rfl

end Order

/-! ## What is left -/

omit [DecidableEq L] [DecidableEq M] in
theorem members_eq_nil_iff (lc : LogRemoval L M) :
    lc.members = .list [] ↔ lc.exemptedMembers = none := by
  have hne := lc.nonempty
  rw [LogRemoval.members]
  cases hlc : lc.exemptedMembers with
  | none => simp
  | some v => simpa [hlc] using hne

omit [DecidableEq L] [DecidableEq M] in
theorem takesMember_iff (lc : LogRemoval L M) (m : M) : TakesMember m lc.members ↔
    lc.exemptedMembers = none ∨ lc.exemptedMembers = some .star ∨
      ∃ members, lc.exemptedMembers = some (.list members) ∧ m ∈ members := by
  have hne := lc.nonempty
  rw [LogRemoval.members]
  rcases hlc : lc.exemptedMembers with _ | _ | _ | ⟨m', ms⟩
  · simp [TakesMember]
  · simp [TakesMember]
  · exact absurd hlc hne
  · simp [TakesMember]

omit [DecidableEq L] [DecidableEq M] in
theorem members_of_validate {add : List (Addition L M)} {toRemove : List (Removal L M)}
    (h : validate add toRemove = .ok ()) : ∀ spec ∈ toRemove, spec.service = "*".toList →
      ∀ lc ∈ spec.auditLogConfigs, lc.exemptedMembers ≠ none := by
  rw [validate] at h
  split at h
  · cases h
  split at h
  · cases h
  · rename_i hany
    simpa using hany

omit [DecidableEq L] [DecidableEq M] in
theorem wants_whole_iff {add : List (Addition L M)} {toRemove : List (Removal L M)}
    (h : validate add toRemove = .ok ()) (s : Text) (ty : L) :
    Wants toRemove s ty (fun v => v = .list []) ↔ Drops toRemove s ty := by
  simp only [Wants, Drops, members_eq_nil_iff]
  constructor
  · rintro ⟨spec, hspec, hs | hs, lc, hlc, hty, hnone⟩
    · exact ⟨spec, hspec, hs, lc, hlc, hty, hnone⟩
    · exact absurd hnone (members_of_validate h spec hspec hs lc hlc)
  · rintro ⟨spec, hspec, hs, lc, hlc, hty, hnone⟩
    exact ⟨spec, hspec, .inl hs, lc, hlc, hty, hnone⟩

theorem exempts_iff (existing : List (AuditConfig L M)) (toRemove : List (Removal L M)) (s : Text)
    (ty : L) (m : M) : Exempts (removeAuditConfigs existing toRemove) s ty m ↔
      Exempts existing s ty m ∧ ¬ Takes toRemove s ty m := by
  have htakes : Takes toRemove s ty m ↔ Wants toRemove s ty (TakesMember m) := by
    simp only [Takes, Wants, takesMember_iff]
  rw [Exempts, exists_mem_removeAuditConfigs_iff, htakes]
  simp only [exists_mem_pruneLog_iff, exists_get_pending_iff (joins_takesMember m)]
  simp only [Exempts, ← and_assoc, exists_and_right]

theorem logs_iff (existing : List (AuditConfig L M)) (toRemove : List (Removal L M)) (s : Text)
    (ty : L) : Logs (removeAuditConfigs existing toRemove) s ty ↔
      Logs existing s ty ∧ ¬ Wants toRemove s ty fun v => v = .list [] := by
  rw [Logs, exists_mem_removeAuditConfigs_iff]
  simp only [exists_logType_pruneLog_iff, exists_get_pending_iff joins_whole]
  simp only [Logs, ← and_assoc, exists_and_right]

/-- **Removing audit configs.**  The order of the specs and of their entries does not matter,
members and log types are removed as asked, and no log type because of service `'*'`. -/
theorem removeAuditConfigs_spec (existing : List (AuditConfig L M)) (add : List (Addition L M))
    (toRemove : List (Removal L M)) (h : validate add toRemove = .ok ()) :
    Removes existing toRemove where
  reordered _ hreordered := hreordered.removeAuditConfigs_eq existing
  exempts := exempts_iff existing toRemove
  logs s ty := by rw [logs_iff, wants_whole_iff h]
  wildcard s ty hnamed := by
    rw [logs_iff] at hnamed ⊢
    refine ⟨hnamed.1, fun hwants => hnamed.2 ?_⟩
    obtain ⟨spec, hspec, hs, lc, hlc, hty, hnone⟩ := (wants_whole_iff h s ty).mp hwants
    have hservice : spec.service ≠ "*".toList := fun hstar =>
      members_of_validate h spec hspec hstar lc hlc hnone
    exact ⟨spec, List.mem_filter.mpr ⟨hspec, decide_eq_true hservice⟩, .inl hs, lc, hlc, hty,
      (members_eq_nil_iff lc).mpr hnone⟩

/-- A spec that takes every member everywhere is accepted. -/
theorem removeAuditConfigs_everywhere : Removes (L := String) (M := String)
    [⟨"allServices".toList, some [⟨"DATA_READ", some ["user:a"]⟩]⟩]
    [⟨"*".toList, [⟨"DATA_READ", some .star, by simp⟩]⟩] :=
  removeAuditConfigs_spec _ [] _ rfl

end Custodian.AuditRemovals

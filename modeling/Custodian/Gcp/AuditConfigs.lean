import Custodian.Lib.Text
import Custodian.Lib.Updates

/-!
# Adding audit configs to an IAM policy

`SetIamPolicy._add_audit_configs` of `c7n_gcp/actions/iampolicy.py`.  A spec for a service that the
policy does not have is written as it stands; specs for a service that it has are merged log type
by log type.
-/

namespace Custodian.AuditConfigs

open Py

/-! ## Audit configs -/

/-- An entry of `auditLogConfigs`. -/
structure LogConfig (L M : Type) where
  logType : L
  exemptedMembers : Option (List M)
  deriving DecidableEq

/-- An entry of a policy's `auditConfigs`. -/
structure AuditConfig (L M : Type) where
  service : Text
  auditLogConfigs : Option (List (LogConfig L M))
  deriving DecidableEq

/-- The `auditConfigs` of a policy, one for each service. -/
structure Policy (L M : Type) where
  auditConfigs : List (AuditConfig L M)
  distinct : (auditConfigs.map AuditConfig.service).Nodup

/-- An entry of `audit-log-configs`. -/
structure LogSpec (L M : Type) where
  logType : L
  exemptedMembers : Option (List M)
  deriving DecidableEq

/-- An entry of `add-audit-configs`. -/
structure Addition (L M : Type) where
  service : Text
  auditLogConfigs : List (LogSpec L M)
  deriving DecidableEq

variable {L M : Type}

def LogConfig.members (lc : LogConfig L M) : List M := lc.exemptedMembers.getD []

def LogSpec.members (spec : LogSpec L M) : List M := spec.exemptedMembers.getD []

def AuditConfig.logs (entry : AuditConfig L M) : List (LogConfig L M) :=
  entry.auditLogConfigs.getD []

/-! ## Adding -/

variable [DecidableEq L] [DecidableEq M]

/-- `list(dict.fromkeys(l))` -/
def unique (l : List M) : List M := (Items.ofList (l.map fun m => (m, ()))).map Prod.fst

/-- `_spec_to_log_config` -/
def specToLogConfig (spec : LogSpec L M) : LogConfig L M := ⟨spec.logType, spec.exemptedMembers⟩

/-- One entry of a spec for a service that is there. -/
def mergeLog (existingByType : List (L × LogConfig L M)) (lcSpec : LogSpec L M) :
    List (L × LogConfig L M) :=
  match Items.get lcSpec.logType existingByType with
  | none => Items.set lcSpec.logType (specToLogConfig lcSpec) existingByType
  | some lc =>
    if lcSpec.members ≠ [] then
      Items.set lcSpec.logType ⟨lcSpec.logType, some (unique (lc.members ++ lcSpec.members))⟩
        existingByType
    else existingByType

/-- The log configs of a service, by their type. -/
def byType (logs : List (LogConfig L M)) : List (L × LogConfig L M) :=
  Items.ofList (logs.map fun lc => (lc.logType, lc))

def mergeLogs (logs : List (LogConfig L M)) (newLogConfigs : List (LogSpec L M)) :
    List (LogConfig L M) := (newLogConfigs.foldl mergeLog (byType logs)).map Prod.snd

/-- One spec of `to_add`. -/
def addAuditConfig (byService : List (Text × AuditConfig L M)) (spec : Addition L M) :
    List (Text × AuditConfig L M) :=
  match Items.get spec.service byService with
  | none =>
    Items.set spec.service ⟨spec.service, some (spec.auditLogConfigs.map specToLogConfig)⟩ byService
  | some existingEntry =>
    Items.set spec.service
      { existingEntry with
        auditLogConfigs := some (mergeLogs existingEntry.logs spec.auditLogConfigs) } byService

/-- `{e['service']: e for e in existing}` -/
def byService (existing : List (AuditConfig L M)) : List (Text × AuditConfig L M) :=
  Items.ofList (existing.map fun e => (e.service, e))

/-- `_add_audit_configs` -/
def addAuditConfigs (existing : List (AuditConfig L M)) (toAdd : List (Addition L M)) :
    List (AuditConfig L M) := (toAdd.foldl addAuditConfig (byService existing)).map Prod.snd

/-! ## Unions -/

/-- The log type is enabled for the service. -/
def Logs (configs : List (AuditConfig L M)) (s : Text) (ty : L) : Prop :=
  ∃ e ∈ configs, e.service = s ∧ ∃ lc ∈ e.logs, lc.logType = ty

/-- The member is exempted from the log type of the service. -/
def Exempts (configs : List (AuditConfig L M)) (s : Text) (ty : L) (m : M) : Prop :=
  ∃ e ∈ configs, e.service = s ∧ ∃ lc ∈ e.logs, lc.logType = ty ∧ m ∈ lc.members

/-- A spec for the service has an entry for the log type of which it holds. -/
def Asks (toAdd : List (Addition L M)) (s : Text) (ty : L) (P : LogSpec L M → Prop) : Prop :=
  ∃ spec ∈ toAdd, spec.service = s ∧ ∃ l ∈ spec.auditLogConfigs, l.logType = ty ∧ P l

/-- The result is the union of both sides, each log type once, and adding again changes nothing. -/
structure IsUnion (existing : List (AuditConfig L M)) (toAdd : List (Addition L M)) : Prop where
  services : ∀ s, s ∈ (addAuditConfigs existing toAdd).map AuditConfig.service ↔
    s ∈ existing.map AuditConfig.service ∨ s ∈ toAdd.map Addition.service
  logs : ∀ s ty, Logs (addAuditConfigs existing toAdd) s ty ↔
    Logs existing s ty ∨ Asks toAdd s ty fun _ => True
  exempts : ∀ s ty m, Exempts (addAuditConfigs existing toAdd) s ty m ↔
    Exempts existing s ty m ∨ Asks toAdd s ty fun l => m ∈ l.members
  once : ∀ e ∈ addAuditConfigs existing toAdd, (e.logs.map LogConfig.logType).Nodup
  idempotent : addAuditConfigs (addAuditConfigs existing toAdd) toAdd = addAuditConfigs existing toAdd

/-! ## What is merged into what -/

/-- The entry of a service after a spec for it. -/
def addedEntry : Option (AuditConfig L M) → Addition L M → AuditConfig L M
  | none, spec => ⟨spec.service, some (spec.auditLogConfigs.map specToLogConfig)⟩
  | some e, spec => { e with auditLogConfigs := some (mergeLogs e.logs spec.auditLogConfigs) }

/-- The specs for a service. -/
def specsFor (toAdd : List (Addition L M)) (s : Text) : List (Addition L M) :=
  toAdd.filter fun spec => spec.service = s

/-- The entry of a service that specs are merged into, and these: the entry is in the policy, or the
first spec for the service writes it. -/
def start (existing : List (AuditConfig L M)) (toAdd : List (Addition L M)) (s : Text) :
    Option (AuditConfig L M × List (Addition L M)) :=
  match existing.find? fun e => e.service = s, specsFor toAdd s with
  | some e, specs => some (e, specs)
  | none, spec :: later => some (addedEntry none spec, later)
  | none, [] => none

/-- All entries of specs. -/
def entries (specs : List (Addition L M)) : List (LogSpec L M) :=
  specs.flatMap Addition.auditLogConfigs

/-- The members with which a log type is written first, and those that are merged in. -/
def writes (logs : List (LogConfig L M)) (ls : List (LogSpec L M)) (ty : L) : List (List M) :=
  (Items.get ty (byType logs)).toList.map LogConfig.members ++
    (ls.filter fun l => l.logType = ty).map LogSpec.members

/-- The condition on an entry, the specs that are merged into it, and all specs for its service. -/
structure Orderly (e : AuditConfig L M) (later specs : List (Addition L M)) : Prop where
  /-- An entry that nothing is merged into has each log type once. -/
  once : later = [] → (e.logs.map LogConfig.logType).Nodup
  /-- In others the last entry for a log type has the members of those before, or specs do. -/
  kept : later ≠ [] → ∀ lc ∈ e.logs, ∀ m ∈ lc.members,
    (∃ last ∈ Items.get lc.logType (byType e.logs), m ∈ last.members) ∨
      ∃ l ∈ entries later, l.logType = lc.logType ∧ m ∈ l.members
  /-- A log type that is asked for with members is written without repetitions, or merged into. -/
  written : ∀ ty, (∃ l ∈ entries specs, l.logType = ty ∧ l.members ≠ []) →
    ∀ first rest, writes e.logs (entries later) ty = first :: rest →
      first.Nodup ∨ ∃ members ∈ rest, members ≠ []

/-! ## Members without repetitions -/

theorem nodup_unique (l : List M) : (unique l).Nodup := Items.keys_nodup_ofList _

theorem unique_concat (l : List M) (m : M) :
    unique (l ++ [m]) = (Items.set m () (Items.ofList (l.map fun m => (m, ())))).map Prod.fst := by
  rw [unique, List.map_append, List.map_singleton, Items.ofList_concat]

theorem mem_unique {l : List M} {m : M} : m ∈ unique l ↔ m ∈ l := by
  induction l using List.reverseRecOn with
  | nil => exact iff_of_false List.not_mem_nil List.not_mem_nil
  | append_singleton l x ih =>
    rw [unique_concat, Items.mem_keys_set, List.mem_append, List.mem_singleton, or_comm, ← ih]
    rfl

theorem unique_append_of_subset {l l' : List M} (hl : l.Nodup) (h : ∀ m ∈ l', m ∈ l) :
    unique (l ++ l') = l := by
  induction l' using List.reverseRecOn with
  | nil =>
    have hkeys : (l.map fun m => (m, ())).map Prod.fst = l := by
      rw [List.map_map]
      exact List.map_id l
    rw [List.append_nil, unique, Items.ofList_eq_self (by rwa [hkeys]), hkeys]
  | append_singleton l' x ih =>
    rw [List.forall_mem_append, List.forall_mem_singleton] at h
    have hkeys : (Items.ofList ((l ++ l').map fun m => (m, ()))).map Prod.fst = l := ih h.1
    rw [← List.append_assoc, unique_concat, Items.keys_set_of_mem (by rw [hkeys]; exact h.2), hkeys]

/-! ## One log type -/

/-- The log config of a type after an entry for it. -/
def mergedLog : Option (LogConfig L M) → LogSpec L M → LogConfig L M
  | none, l => specToLogConfig l
  | some lc, l =>
    if l.members ≠ [] then ⟨l.logType, some (unique (lc.members ++ l.members))⟩ else lc

theorem foldl_mergeLog (d : List (L × LogConfig L M)) (ls : List (LogSpec L M)) :
    ls.foldl mergeLog d = Items.updates LogSpec.logType mergedLog d ls := by
  have hstep : ∀ (d : List (L × LogConfig L M)) (l : LogSpec L M),
      mergeLog d l = Items.set l.logType (mergedLog (Items.get l.logType d) l) d := by
    intro d l
    rw [mergeLog]
    cases hget : Items.get l.logType d with
    | none => rfl
    | some lc =>
      simp only [mergedLog]
      split
      · rfl
      · exact (Items.set_of_get hget).symm
  rw [Items.updates]
  exact congrArg (List.foldl · d ls) (funext fun d => funext fun l => hstep d l)

omit [DecidableEq L] [DecidableEq M] in
theorem members_specToLogConfig (l : LogSpec L M) : (specToLogConfig l).members = l.members := rfl

omit [DecidableEq L] in
theorem mem_members_mergedLog {o : Option (LogConfig L M)} {l : LogSpec L M} {m : M} :
    m ∈ (mergedLog o l).members ↔ (∃ lc ∈ o, m ∈ lc.members) ∨ m ∈ l.members := by
  cases o with
  | none => simp [mergedLog, members_specToLogConfig]
  | some lc =>
    rw [mergedLog]
    split
    · simp [LogConfig.members, mem_unique]
    · rename_i hnil
      simp [not_not.mp hnil]

omit [DecidableEq L] in
theorem logType_mergedLog (o : Option (LogConfig L M)) (l : LogSpec L M)
    (h : ∀ lc ∈ o, lc.logType = l.logType) : (mergedLog o l).logType = l.logType := by
  cases o with
  | none => rfl
  | some lc =>
    rw [mergedLog]
    split
    · rfl
    · exact h lc rfl

omit [DecidableEq L] in
theorem nodup_members_mergedLog {lc : LogConfig L M} {l : LogSpec L M} :
    (mergedLog (some lc) l).members.Nodup ↔ lc.members.Nodup ∨ l.members ≠ [] := by
  rw [mergedLog]
  split
  · rename_i hne
    exact iff_of_true (nodup_unique _) (.inr hne)
  · rename_i hnil
    rw [or_iff_left hnil]

omit [DecidableEq L] in
theorem update_mergedLog_eq_self_iff {lc : LogConfig L M} {ls : List (LogSpec L M)}
    (htype : ∀ l ∈ ls, l.logType = lc.logType)
    (hmem : ∀ l ∈ ls, ∀ m ∈ l.members, m ∈ lc.members) :
    Items.update mergedLog (some lc) ls = some lc ↔
      (∃ l ∈ ls, l.members ≠ []) → lc.members.Nodup := by
  constructor
  · intro h hne
    obtain ⟨w, hw, hnodup⟩ := (Items.update_some_iff (P := fun lc : LogConfig L M => lc.members.Nodup)
      (fun lc l => nodup_members_mergedLog) lc ls).mpr (.inr hne)
    rw [h] at hw
    exact Option.some.inj hw ▸ hnodup
  · intro h
    have hfix : ∀ l ∈ ls, mergedLog (some lc) l = lc := by
      intro l hl
      rw [mergedLog]
      split
      · rename_i hne
        have hnodup := h ⟨l, hl, hne⟩
        have hsome : lc.exemptedMembers = some lc.members := by
          cases hlc : lc.exemptedMembers with
          | none =>
            obtain ⟨m, hm⟩ := List.exists_mem_of_ne_nil _ hne
            have := hmem l hl m hm
            rw [LogConfig.members, hlc] at this
            cases this
          | some ms => rw [LogConfig.members, hlc]; rfl
        rw [unique_append_of_subset hnodup (hmem l hl), htype l hl, ← hsome]
      · rfl
    clear h htype hmem
    induction ls with
    | nil => rfl
    | cons l ls ih =>
      rw [List.forall_mem_cons] at hfix
      rw [Items.update, List.foldl_cons, hfix.1]
      exact ih hfix.2

/-! ## The log configs of a service -/

omit [DecidableEq M] in
theorem mem_byType {logs : List (LogConfig L M)} {e : L × LogConfig L M} (h : e ∈ byType logs) :
    e.2 ∈ logs ∧ e.2.logType = e.1 := by
  obtain ⟨lc, hlc, rfl⟩ := List.mem_map.mp (Items.mem_of_mem_ofList h)
  exact ⟨hlc, rfl⟩

omit [DecidableEq M] in
theorem nodup_keys_byType (logs : List (LogConfig L M)) :
    ((byType logs).map Prod.fst).Nodup := Items.keys_nodup_ofList _

theorem logType_updates (logs : List (LogConfig L M)) (ls : List (LogSpec L M)) :
    ∀ e ∈ Items.updates LogSpec.logType mergedLog (byType logs) ls, e.2.logType = e.1 :=
  Items.keyed_updates logType_mergedLog (fun _ he => (mem_byType he).2) ls

theorem nodup_keys_updates (logs : List (LogConfig L M)) (ls : List (LogSpec L M)) :
    ((Items.updates LogSpec.logType mergedLog (byType logs) ls).map Prod.fst).Nodup :=
  Items.keys_nodup_updates (nodup_keys_byType logs) ls

theorem mergeLogs_eq (logs : List (LogConfig L M)) (ls : List (LogSpec L M)) :
    mergeLogs logs ls =
      (Items.updates LogSpec.logType mergedLog (byType logs) ls).map Prod.snd := by
  rw [mergeLogs, foldl_mergeLog]

theorem byType_mergeLogs (logs : List (LogConfig L M)) (ls : List (LogSpec L M)) :
    byType (mergeLogs logs ls) = Items.updates LogSpec.logType mergedLog (byType logs) ls := by
  rw [mergeLogs_eq, byType]
  exact Items.ofList_values (nodup_keys_updates logs ls) (logType_updates logs ls)

theorem mergeLogs_mergeLogs (logs : List (LogConfig L M)) (ls ls' : List (LogSpec L M)) :
    mergeLogs (mergeLogs logs ls) ls' = mergeLogs logs (ls ++ ls') := by
  rw [mergeLogs_eq, byType_mergeLogs, mergeLogs_eq, Items.updates_append]

theorem map_logType_mergeLogs (logs : List (LogConfig L M)) (ls : List (LogSpec L M)) :
    (mergeLogs logs ls).map LogConfig.logType =
      (Items.updates LogSpec.logType mergedLog (byType logs) ls).map Prod.fst := by
  rw [mergeLogs_eq, List.map_map]
  exact List.map_congr_left fun e he => logType_updates logs ls e he

theorem nodup_logType_mergeLogs (logs : List (LogConfig L M)) (ls : List (LogSpec L M)) :
    ((mergeLogs logs ls).map LogConfig.logType).Nodup := by
  rw [map_logType_mergeLogs]
  exact nodup_keys_updates logs ls

omit [DecidableEq M] in
theorem mem_keys_byType {logs : List (LogConfig L M)} {ty : L} :
    ty ∈ (byType logs).map Prod.fst ↔ ∃ lc ∈ logs, lc.logType = ty := by
  induction logs using List.reverseRecOn with
  | nil => simp [byType, Items.ofList]
  | append_singleton logs lc ih =>
    rw [byType, List.map_append, List.map_singleton, Items.ofList_concat, Items.mem_keys_set]
    simp only [List.mem_append, List.mem_singleton, or_and_right, exists_or, exists_eq_left]
    rw [or_comm, eq_comm]
    exact or_congr_left ih

theorem mem_mergeLogs {logs : List (LogConfig L M)} {ls : List (LogSpec L M)}
    {lc : LogConfig L M} : lc ∈ mergeLogs logs ls ↔
      Items.get lc.logType (Items.updates LogSpec.logType mergedLog (byType logs) ls) = some lc := by
  rw [Items.get, ← Items.mem_iff_lookup (nodup_keys_updates logs ls), mergeLogs_eq, List.mem_map]
  constructor
  · rintro ⟨e, he, rfl⟩
    rwa [logType_updates logs ls e he]
  · exact fun h => ⟨_, h, rfl⟩

/-- **Merging.**  The members of a log type are those of its last entry and those asked for. -/
theorem exists_mem_mergeLogs_iff {logs : List (LogConfig L M)} {ls : List (LogSpec L M)} {ty : L}
    {m : M} : (∃ lc ∈ mergeLogs logs ls, lc.logType = ty ∧ m ∈ lc.members) ↔
      (∃ lc ∈ Items.get ty (byType logs), m ∈ lc.members) ∨
        ∃ l ∈ ls, l.logType = ty ∧ m ∈ l.members := by
  rw [← Items.exists_get_updates_iff (P := fun lc : LogConfig L M => m ∈ lc.members)
    (Q := fun l : LogSpec L M => m ∈ l.members) fun o l => mem_members_mergedLog]
  constructor
  · rintro ⟨lc, hlc, rfl, hm⟩
    exact ⟨lc, mem_mergeLogs.mp hlc, hm⟩
  · rintro ⟨lc, hlc, hm⟩
    obtain rfl : lc.logType = ty := logType_updates logs ls _ (Items.mem_of_get hlc)
    exact ⟨lc, mem_mergeLogs.mpr hlc, rfl, hm⟩

theorem exists_logType_mergeLogs_iff {logs : List (LogConfig L M)} {ls : List (LogSpec L M)}
    {ty : L} : (∃ lc ∈ mergeLogs logs ls, lc.logType = ty) ↔
      (∃ lc ∈ logs, lc.logType = ty) ∨ ∃ l ∈ ls, l.logType = ty := by
  rw [← List.mem_map, map_logType_mergeLogs, Items.mem_keys_updates, mem_keys_byType]

/-! ## The entry of a service -/

/-- What the specs that are merged make of an entry. -/
def mergedEntry (e : AuditConfig L M) (later : List (Addition L M)) : AuditConfig L M :=
  if later = [] then e else { e with auditLogConfigs := some (mergeLogs e.logs (entries later)) }

theorem foldl_addAuditConfig (d : List (Text × AuditConfig L M)) (toAdd : List (Addition L M)) :
    toAdd.foldl addAuditConfig d = Items.updates Addition.service addedEntry d toAdd := by
  refine congrArg (List.foldl · d toAdd) (funext fun d => funext fun spec => ?_)
  rw [addAuditConfig]
  cases Items.get spec.service d <;> rfl

theorem update_addedEntry_some (e : AuditConfig L M) (later : List (Addition L M)) :
    Items.update addedEntry (some e) later = some (mergedEntry e later) := by
  induction later generalizing e with
  | nil => rfl
  | cons spec later ih =>
    rw [Items.update, List.foldl_cons, ← Items.update, ih, mergedEntry, mergedEntry,
      if_neg (List.cons_ne_nil spec later)]
    cases later with
    | nil => simp [addedEntry, entries]
    | cons spec' later =>
      rw [if_neg (List.cons_ne_nil spec' later)]
      simp only [addedEntry, AuditConfig.logs, Option.getD_some, mergeLogs_mergeLogs, entries,
        List.flatMap_cons]

theorem service_addedEntry (o : Option (AuditConfig L M)) (spec : Addition L M)
    (h : ∀ e ∈ o, e.service = spec.service) : (addedEntry o spec).service = spec.service := by
  cases o with
  | none => rfl
  | some e => exact h e rfl

section Service

variable {existing : List (AuditConfig L M)} (hd : (existing.map AuditConfig.service).Nodup)
  {toAdd : List (Addition L M)}

include hd

omit [DecidableEq L] [DecidableEq M] in
theorem byService_eq : byService existing = existing.map fun e => (e.service, e) := by
  refine Items.ofList_eq_self ?_
  rwa [List.map_map]

omit [DecidableEq L] [DecidableEq M] in
theorem service_byService : ∀ e ∈ byService existing, e.2.service = e.1 := by
  rw [byService_eq hd]
  intro e he
  obtain ⟨entry, -, rfl⟩ := List.mem_map.mp he
  rfl

omit [DecidableEq L] [DecidableEq M] in
theorem get_byService (s : Text) :
    Items.get s (byService existing) = existing.find? fun e => e.service = s := by
  rw [byService_eq hd]
  clear hd
  induction existing with
  | nil => rfl
  | cons e existing ih =>
    rw [Items.get, List.map_cons, Items.lookup_cons, List.find?_cons]
    by_cases hs : s = e.service
    · simp [hs]
    · simp only [hs, Ne.symm hs, decide_false, if_false]
      exact ih

/-- **One service.**  Its entry in the result. -/
theorem get_addAuditConfigs (s : Text) :
    Items.get s (Items.updates Addition.service addedEntry (byService existing) toAdd) =
      (start existing toAdd s).map fun x => mergedEntry x.1 x.2 := by
  rw [Items.get_updates, get_byService hd, start, ← specsFor]
  cases existing.find? fun e => e.service = s with
  | some e => exact update_addedEntry_some e _
  | none =>
    cases specsFor toAdd s with
    | nil => rfl
    | cons spec later => exact update_addedEntry_some _ later

theorem services_updates :
    ∀ e ∈ Items.updates Addition.service addedEntry (byService existing) toAdd, e.2.service = e.1 :=
  Items.keyed_updates service_addedEntry (service_byService hd) toAdd

theorem exists_mem_addAuditConfigs_iff (s : Text) (P : AuditConfig L M → Prop) :
    (∃ e ∈ addAuditConfigs existing toAdd, e.service = s ∧ P e) ↔
      ∃ x ∈ start existing toAdd s, P (mergedEntry x.1 x.2) := by
  have hnodup : ((Items.updates Addition.service addedEntry (byService existing) toAdd).map
      Prod.fst).Nodup := Items.keys_nodup_updates (Items.keys_nodup_ofList _) toAdd
  have hget : ∀ e, (∃ x ∈ start existing toAdd s, mergedEntry x.1 x.2 = e) ↔
      Items.get s (Items.updates Addition.service addedEntry (byService existing) toAdd) =
        some e := by
    intro e
    rw [get_addAuditConfigs hd, Option.map_eq_some_iff]
    rfl
  rw [addAuditConfigs, foldl_addAuditConfig]
  constructor
  · rintro ⟨e, he, rfl, hP⟩
    obtain ⟨⟨k, e'⟩, hmem, rfl⟩ := List.mem_map.mp he
    have hk : e'.service = k := services_updates hd _ hmem
    obtain ⟨x, hx, rfl⟩ := (hget e').mpr ((Items.mem_iff_lookup hnodup).mp (hk ▸ hmem))
    exact ⟨x, hx, hP⟩
  · rintro ⟨x, hx, hP⟩
    have hmem := Items.mem_of_get ((hget _).mp ⟨x, hx, rfl⟩)
    exact ⟨_, List.mem_map_of_mem hmem, services_updates hd _ hmem, hP⟩

omit [DecidableEq L] [DecidableEq M] in
theorem exists_mem_existing_iff (s : Text) (P : AuditConfig L M → Prop) :
    (∃ e ∈ existing, e.service = s ∧ P e) ↔
      ∃ e ∈ existing.find? fun e => e.service = s, P e := by
  constructor
  · rintro ⟨e, he, rfl, hP⟩
    cases hfind : existing.find? fun e' => e'.service = e.service with
    | none => exact absurd (decide_eq_true rfl) (List.find?_eq_none.mp hfind e he)
    | some e' =>
      have hs : e'.service = e.service := by simpa using List.find?_some hfind
      rw [List.inj_on_of_nodup_map hd (List.mem_of_find?_eq_some hfind) he hs]
      exact ⟨e, rfl, hP⟩
  · rintro ⟨e, he, hP⟩
    exact ⟨e, List.mem_of_find?_eq_some he, by simpa using List.find?_some he, hP⟩

theorem sides_iff (s : Text) (P : LogConfig L M → Prop) :
    (∃ e ∈ existing, e.service = s ∧ ∃ lc ∈ e.logs, P lc) ∨
        (∃ spec ∈ toAdd, spec.service = s ∧ ∃ l ∈ spec.auditLogConfigs, P (specToLogConfig l)) ↔
      ∃ x ∈ start existing toAdd s,
        (∃ lc ∈ x.1.logs, P lc) ∨ ∃ l ∈ entries x.2, P (specToLogConfig l) := by
  have hspecs : (∃ spec ∈ toAdd, spec.service = s ∧ ∃ l ∈ spec.auditLogConfigs,
      P (specToLogConfig l)) ↔ ∃ l ∈ entries (specsFor toAdd s), P (specToLogConfig l) := by
    simp only [entries, specsFor, List.mem_flatMap, List.mem_filter, decide_eq_true_eq]
    constructor
    · rintro ⟨spec, hspec, hs, l, hl, hP⟩
      exact ⟨l, ⟨spec, ⟨hspec, hs⟩, hl⟩, hP⟩
    · rintro ⟨l, ⟨spec, ⟨hspec, hs⟩, hl⟩, hP⟩
      exact ⟨spec, hspec, hs, l, hl, hP⟩
  rw [exists_mem_existing_iff hd, hspecs, start]
  cases existing.find? fun e => e.service = s with
  | some e => simp
  | none =>
    cases specsFor toAdd s with
    | nil => simp [entries]
    | cons spec later => simp [addedEntry, AuditConfig.logs, entries, or_and_right, exists_or]

end Service

/-! ## The merged entry -/

theorem logs_mergedEntry (e : AuditConfig L M) (later : List (Addition L M)) :
    (mergedEntry e later).logs =
      if later = [] then e.logs else mergeLogs e.logs (entries later) := by
  rw [mergedEntry]
  split <;> rfl

theorem exists_logType_mergedEntry_iff {e : AuditConfig L M} {later : List (Addition L M)} {ty : L} :
    (∃ lc ∈ (mergedEntry e later).logs, lc.logType = ty) ↔
      (∃ lc ∈ e.logs, lc.logType = ty) ∨ ∃ l ∈ entries later, l.logType = ty := by
  rw [logs_mergedEntry]
  split
  · rename_i hnil
    simp [hnil, entries]
  · exact exists_logType_mergeLogs_iff

theorem exists_mem_mergedEntry_iff {e : AuditConfig L M} {later : List (Addition L M)} :
    (∀ ty m, (∃ lc ∈ (mergedEntry e later).logs, lc.logType = ty ∧ m ∈ lc.members) ↔
      (∃ lc ∈ e.logs, lc.logType = ty ∧ m ∈ lc.members) ∨
        ∃ l ∈ entries later, l.logType = ty ∧ m ∈ l.members) ↔
    (later ≠ [] → ∀ lc ∈ e.logs, ∀ m ∈ lc.members,
      (∃ last ∈ Items.get lc.logType (byType e.logs), m ∈ last.members) ∨
        ∃ l ∈ entries later, l.logType = lc.logType ∧ m ∈ l.members) := by
  rw [logs_mergedEntry]
  split
  · rename_i hnil
    simp [hnil, entries]
  · rename_i hne
    rw [forall_prop_of_true hne]
    simp only [exists_mem_mergeLogs_iff]
    constructor
    · exact fun h lc hlc m hm => (h lc.logType m).mpr (.inl ⟨lc, hlc, rfl, hm⟩)
    · refine fun h ty m => ⟨?_, ?_⟩
      · rintro (⟨lc, hlc, hm⟩ | hasked)
        · have hmem := mem_byType (Items.mem_of_get hlc)
          exact .inl ⟨lc, hmem.1, hmem.2, hm⟩
        · exact .inr hasked
      · rintro (⟨lc, hlc, rfl, hm⟩ | hasked)
        · exact h lc hlc m hm
        · exact .inr hasked

theorem get_mergedEntry (e : AuditConfig L M) (later : List (Addition L M)) (ty : L) :
    Items.get ty (byType (mergedEntry e later).logs) =
      Items.update mergedLog (Items.get ty (byType e.logs))
        ((entries later).filter fun l => l.logType = ty) := by
  rw [logs_mergedEntry]
  split
  · rename_i hnil
    simp [hnil, entries, Items.update]
  · rw [byType_mergeLogs, Items.get_updates]

theorem nodup_iff_writes {logs : List (LogConfig L M)} {ls : List (LogSpec L M)} {ty : L}
    {lc : LogConfig L M} (h : Items.update mergedLog (Items.get ty (byType logs))
      (ls.filter fun l => l.logType = ty) = some lc) :
    lc.members.Nodup ↔ ∀ first rest, writes logs ls ty = first :: rest →
      first.Nodup ∨ ∃ members ∈ rest, members ≠ [] := by
  have hsome : ∀ (start : LogConfig L M) (rest : List (LogSpec L M)),
      Items.update mergedLog (some start) rest = some lc →
        (lc.members.Nodup ↔ start.members.Nodup ∨ ∃ l ∈ rest, l.members ≠ []) := by
    intro start rest hrest
    rw [← Items.update_some_iff (P := fun lc : LogConfig L M => lc.members.Nodup)
      (fun lc l => nodup_members_mergedLog), hrest]
    simp
  rw [writes]
  generalize ls.filter (fun l => l.logType = ty) = ls at h
  cases hget : Items.get ty (byType logs) with
  | some start =>
    rw [hget] at h
    rw [hsome start ls h]
    simp
  | none =>
    rw [hget] at h
    cases ls with
    | nil => cases h
    | cons l ls =>
      rw [hsome (specToLogConfig l) ls h, members_specToLogConfig]
      simp

theorem mergeLogs_eq_self_iff_updates {logs : List (LogConfig L M)} {ls : List (LogSpec L M)}
    (hn : (logs.map LogConfig.logType).Nodup) : mergeLogs logs ls = logs ↔
      Items.updates LogSpec.logType mergedLog (byType logs) ls = byType logs := by
  have hkeys : ((logs.map fun lc => (lc.logType, lc)).map Prod.fst).Nodup := by
    rwa [List.map_map]
  have hself : byType logs = logs.map fun lc => (lc.logType, lc) := Items.ofList_eq_self hkeys
  have hvalues : (byType logs).map Prod.snd = logs := by
    rw [hself, List.map_map]
    exact List.map_id logs
  rw [mergeLogs_eq]
  constructor
  · exact fun h => Items.eq_of_values (logType_updates logs ls) (fun e he => (mem_byType he).2)
      (h.trans hvalues.symm)
  · exact fun h => by rw [h, hvalues]

theorem mergeLogs_eq_self_iff {logs : List (LogConfig L M)} {ls : List (LogSpec L M)}
    (hn : (logs.map LogConfig.logType).Nodup)
    (htypes : ∀ l ∈ ls, ∃ lc ∈ logs, lc.logType = l.logType)
    (hmem : ∀ l ∈ ls, ∀ m ∈ l.members, ∃ lc ∈ logs, lc.logType = l.logType ∧ m ∈ lc.members) :
    mergeLogs logs ls = logs ↔ ∀ ty, (∃ l ∈ ls, l.logType = ty ∧ l.members ≠ []) →
      ∀ lc ∈ Items.get ty (byType logs), lc.members.Nodup := by
  rw [mergeLogs_eq_self_iff_updates hn, Items.updates_eq_self_iff (nodup_keys_byType logs) fun l hl =>
    mem_keys_byType.mpr (htypes l hl)]
  refine forall_congr' fun ty => ?_
  cases hget : Items.get ty (byType logs) with
  | none =>
    have hnone : ls.filter (fun l => l.logType = ty) = [] := by
      refine List.filter_eq_nil_iff.mpr fun l hl hty => ?_
      have hkey := mem_keys_byType.mpr (htypes l hl)
      rw [of_decide_eq_true hty, ← Items.isSome_get, hget] at hkey
      cases hkey
    rw [hnone]
    simp [Items.update]
  | some lc =>
    have hlc := mem_byType (Items.mem_of_get hget)
    have hty : lc.logType = ty := hlc.2
    rw [update_mergedLog_eq_self_iff]
    · simp [and_assoc]
    · intro l hl
      rw [hty]
      exact of_decide_eq_true (List.mem_filter.mp hl).2
    · intro l hl m hm
      obtain ⟨hl, hlty⟩ := List.mem_filter.mp hl
      obtain ⟨lc', hlc', hty', hm⟩ := hmem l hl m hm
      rw [of_decide_eq_true hlty, ← hty] at hty'
      have heq : lc' = lc := List.inj_on_of_nodup_map hn hlc' hlc.1 hty'
      rwa [← heq]

/-! ## The union -/

theorem nodup_logType_mergedEntry {e : AuditConfig L M} {later : List (Addition L M)} :
    ((mergedEntry e later).logs.map LogConfig.logType).Nodup ↔
      (later = [] → (e.logs.map LogConfig.logType).Nodup) := by
  rw [logs_mergedEntry]
  split
  · rename_i hnil
    rw [forall_prop_of_true hnil]
  · rename_i hne
    exact iff_of_true (nodup_logType_mergeLogs _ _) fun hnil => absurd hnil hne

theorem mergedEntry_eq_self_iff {e : AuditConfig L M} {specs : List (Addition L M)}
    (h : specs ≠ [] → e.auditLogConfigs = some e.logs) :
    mergedEntry e specs = e ↔ specs = [] ∨ mergeLogs e.logs (entries specs) = e.logs := by
  obtain ⟨service, logs⟩ := e
  rw [mergedEntry]
  split
  · rename_i hnil
    exact iff_of_true rfl (.inl hnil)
  · rename_i hne
    have hsome : logs = some (AuditConfig.mk service logs).logs := h hne
    rw [or_iff_right hne, AuditConfig.mk.injEq, and_iff_right rfl]
    nth_rewrite 2 [hsome]
    rw [Option.some.injEq]

section Union

variable {existing : List (AuditConfig L M)} (hd : (existing.map AuditConfig.service).Nodup)
  (toAdd : List (Addition L M))

include hd

theorem services_iff (s : Text) : s ∈ (addAuditConfigs existing toAdd).map AuditConfig.service ↔
    s ∈ existing.map AuditConfig.service ∨ s ∈ toAdd.map Addition.service := by
  have hservices : (addAuditConfigs existing toAdd).map AuditConfig.service =
      (Items.updates Addition.service addedEntry (byService existing) toAdd).map Prod.fst := by
    rw [addAuditConfigs, foldl_addAuditConfig, List.map_map]
    exact List.map_congr_left (services_updates hd)
  rw [hservices, Items.mem_keys_updates, byService_eq hd, List.map_map, List.mem_map (f := Addition.service)]
  rfl

theorem logs_iff (s : Text) (ty : L) : Logs (addAuditConfigs existing toAdd) s ty ↔
    Logs existing s ty ∨ Asks toAdd s ty fun _ => True := by
  simp only [Logs, Asks, and_true]
  rw [exists_mem_addAuditConfigs_iff hd]
  simp only [exists_logType_mergedEntry_iff]
  exact (sides_iff hd s fun lc => lc.logType = ty).symm

theorem exempts_iff : (∀ s ty m, Exempts (addAuditConfigs existing toAdd) s ty m ↔
    Exempts existing s ty m ∨ Asks toAdd s ty fun l => m ∈ l.members) ↔
      ∀ s, ∀ x ∈ start existing toAdd s, x.2 ≠ [] → ∀ lc ∈ x.1.logs, ∀ m ∈ lc.members,
        (∃ last ∈ Items.get lc.logType (byType x.1.logs), m ∈ last.members) ∨
          ∃ l ∈ entries x.2, l.logType = lc.logType ∧ m ∈ l.members := by
  refine forall_congr' fun s => ?_
  have hsides : ∀ ty m, Exempts existing s ty m ∨ Asks toAdd s ty (fun l => m ∈ l.members) ↔ _ :=
    fun ty m => sides_iff hd s fun lc => lc.logType = ty ∧ m ∈ lc.members
  simp only [hsides]
  simp only [Exempts, exists_mem_addAuditConfigs_iff hd]
  cases start existing toAdd s with
  | none => simp
  | some x =>
    simp only [Option.mem_some_iff, exists_eq_left', forall_eq']
    exact exists_mem_mergedEntry_iff

theorem once_iff : (∀ e ∈ addAuditConfigs existing toAdd, (e.logs.map LogConfig.logType).Nodup) ↔
    ∀ s, ∀ x ∈ start existing toAdd s, x.2 = [] → (x.1.logs.map LogConfig.logType).Nodup := by
  have hall : (∀ e ∈ addAuditConfigs existing toAdd, (e.logs.map LogConfig.logType).Nodup) ↔
      ∀ s, ¬ ∃ e ∈ addAuditConfigs existing toAdd, e.service = s ∧
        ¬ (e.logs.map LogConfig.logType).Nodup := by
    push Not
    exact ⟨fun h s e he _ => h e he, fun h e he => h e.service e he rfl⟩
  rw [hall]
  refine forall_congr' fun s => ?_
  rw [exists_mem_addAuditConfigs_iff hd]
  push Not
  simp only [nodup_logType_mergedEntry]

end Union

/-! ## Adding again -/

section Again

variable {existing : List (AuditConfig L M)} {toAdd : List (Addition L M)} {s : Text}
  {x : AuditConfig L M × List (Addition L M)}

theorem start_cases (h : x ∈ start existing toAdd s) : x.2 = specsFor toAdd s ∨
    ∃ spec, specsFor toAdd s = spec :: x.2 ∧
      x.1.auditLogConfigs = some (spec.auditLogConfigs.map specToLogConfig) := by
  rw [start] at h
  cases hfind : existing.find? fun e => e.service = s with
  | some e =>
    rw [hfind, Option.mem_some_iff] at h
    exact .inl (h ▸ rfl)
  | none =>
    cases hspecs : specsFor toAdd s with
    | nil =>
      rw [hfind, hspecs] at h
      cases h
    | cons spec later =>
      rw [hfind, hspecs, Option.mem_some_iff] at h
      exact .inr ⟨spec, h ▸ rfl, h ▸ rfl⟩

theorem specsFor_eq_nil (h : start existing toAdd s = none) : specsFor toAdd s = [] := by
  rw [start] at h
  split at h
  · cases h
  · cases h
  · assumption

theorem asked_of_start (h : x ∈ start existing toAdd s) {P : LogConfig L M → Prop}
    (hP : ∃ l ∈ entries (specsFor toAdd s), P (specToLogConfig l)) :
    (∃ lc ∈ x.1.logs, P lc) ∨ ∃ l ∈ entries x.2, P (specToLogConfig l) := by
  rcases start_cases h with hspecs | ⟨spec, hspecs, hlogs⟩
  · exact .inr (hspecs ▸ hP)
  · rw [hspecs, entries, List.flatMap_cons] at hP
    obtain ⟨l, hl, hP⟩ := hP
    rcases List.mem_append.mp hl with hl | hl
    · rw [AuditConfig.logs, hlogs]
      exact .inl ⟨_, List.mem_map_of_mem hl, hP⟩
    · exact .inr ⟨l, hl, hP⟩

theorem logs_of_start (h : x ∈ start existing toAdd s) (hne : specsFor toAdd s ≠ []) :
    (mergedEntry x.1 x.2).auditLogConfigs = some (mergedEntry x.1 x.2).logs := by
  rw [mergedEntry]
  split
  · rename_i hnil
    rcases start_cases h with hspecs | ⟨spec, -, hlogs⟩
    · exact absurd (hspecs ▸ hnil) hne
    · rw [AuditConfig.logs, hlogs]
      rfl
  · rfl

/-- **Again.**  The specs for a service change nothing when they are merged once more, if no log
type that they give members is left with repetitions. -/
theorem merged_again_iff (h : x ∈ start existing toAdd s)
    (honce : x.2 = [] → (x.1.logs.map LogConfig.logType).Nodup)
    (hkept : x.2 ≠ [] → ∀ lc ∈ x.1.logs, ∀ m ∈ lc.members,
      (∃ last ∈ Items.get lc.logType (byType x.1.logs), m ∈ last.members) ∨
        ∃ l ∈ entries x.2, l.logType = lc.logType ∧ m ∈ l.members) :
    mergedEntry (mergedEntry x.1 x.2) (specsFor toAdd s) = mergedEntry x.1 x.2 ↔
      ∀ ty, (∃ l ∈ entries (specsFor toAdd s), l.logType = ty ∧ l.members ≠ []) →
        ∀ first rest, writes x.1.logs (entries x.2) ty = first :: rest →
          first.Nodup ∨ ∃ members ∈ rest, members ≠ [] := by
  have hnodup := nodup_logType_mergedEntry.mpr honce
  have htypes : ∀ l ∈ entries (specsFor toAdd s),
      ∃ lc ∈ (mergedEntry x.1 x.2).logs, lc.logType = l.logType := fun l hl =>
    exists_logType_mergedEntry_iff.mpr
      (asked_of_start h (P := fun lc => lc.logType = l.logType) ⟨l, hl, rfl⟩)
  have hmem : ∀ l ∈ entries (specsFor toAdd s), ∀ m ∈ l.members,
      ∃ lc ∈ (mergedEntry x.1 x.2).logs, lc.logType = l.logType ∧ m ∈ lc.members :=
    fun l hl m hm => (exists_mem_mergedEntry_iff.mpr hkept l.logType m).mpr
      (asked_of_start h (P := fun lc => lc.logType = l.logType ∧ m ∈ lc.members) ⟨l, hl, rfl, hm⟩)
  rw [mergedEntry_eq_self_iff (logs_of_start h), mergeLogs_eq_self_iff hnodup htypes hmem]
  have hnil : specsFor toAdd s = [] → ∀ ty, (∃ l ∈ entries (specsFor toAdd s),
      l.logType = ty ∧ l.members ≠ []) → ∀ lc ∈ Items.get ty (byType (mergedEntry x.1 x.2).logs),
        lc.members.Nodup := by
    rintro hnil ty ⟨l, hl, -⟩
    rw [hnil] at hl
    cases hl
  rw [or_iff_right_of_imp hnil]
  refine forall_congr' fun ty => forall_congr' fun hasked => ?_
  obtain ⟨l, hl, rfl, -⟩ := hasked
  obtain ⟨lc, hlc⟩ := Items.exists_lookup (mem_keys_byType.mpr (htypes l hl))
  rw [← Items.get] at hlc
  rw [hlc, ← nodup_iff_writes (get_mergedEntry x.1 x.2 l.logType ▸ hlc)]
  simp

end Again

theorem idempotent_iff {existing : List (AuditConfig L M)}
    (hd : (existing.map AuditConfig.service).Nodup) (toAdd : List (Addition L M)) :
    addAuditConfigs (addAuditConfigs existing toAdd) toAdd = addAuditConfigs existing toAdd ↔
      ∀ s, ∀ x ∈ start existing toAdd s,
        mergedEntry (mergedEntry x.1 x.2) (specsFor toAdd s) = mergedEntry x.1 x.2 := by
  have hservices : ∀ e ∈ Items.updates Addition.service addedEntry (byService existing) toAdd,
      e.2.service = e.1 := services_updates hd
  have hget : ∀ s, Items.get s (Items.updates Addition.service addedEntry (byService existing) toAdd) =
      (start existing toAdd s).map fun x => mergedEntry x.1 x.2 := get_addAuditConfigs hd
  have hnodup : ((Items.updates Addition.service addedEntry (byService existing) toAdd).map
      Prod.fst).Nodup := Items.keys_nodup_updates (Items.keys_nodup_ofList _) toAdd
  have hknown : ∀ spec ∈ toAdd, spec.service ∈
      (Items.updates Addition.service addedEntry (byService existing) toAdd).map Prod.fst :=
    fun spec hspec => Items.mem_keys_updates.mpr (.inr ⟨spec, hspec, rfl⟩)
  have hvalues : addAuditConfigs existing toAdd =
      (Items.updates Addition.service addedEntry (byService existing) toAdd).map Prod.snd := by
    rw [addAuditConfigs, foldl_addAuditConfig]
  have hagain : byService (addAuditConfigs existing toAdd) =
      Items.updates Addition.service addedEntry (byService existing) toAdd := by
    rw [hvalues]
    exact Items.ofList_values hnodup hservices
  rw [addAuditConfigs, foldl_addAuditConfig, hagain, hvalues]
  have hdict : ∀ d : List (Text × AuditConfig L M), (∀ e ∈ d, e.2.service = e.1) →
      ((Items.updates Addition.service addedEntry d toAdd).map Prod.snd = d.map Prod.snd ↔
        Items.updates Addition.service addedEntry d toAdd = d) := fun d h =>
    ⟨Items.eq_of_values (Items.keyed_updates service_addedEntry h toAdd) h, fun he => by rw [he]⟩
  rw [hdict _ hservices, Items.updates_eq_self_iff hnodup hknown]
  refine forall_congr' fun s => ?_
  rw [hget, ← specsFor]
  cases hstart : start existing toAdd s with
  | none => simp [specsFor_eq_nil hstart, Items.update]
  | some x => simp [update_addedEntry_some]

/-- **Audit configs.**  The result is the union, and adding again changes nothing, exactly when the
entry of each service is orderly. -/
theorem union_iff (p : Policy L M) (toAdd : List (Addition L M)) :
    IsUnion p.auditConfigs toAdd ↔ ∀ s e later, start p.auditConfigs toAdd s = some (e, later) →
      Orderly e later (specsFor toAdd s) := by
  have hd := p.distinct
  constructor
  · intro h s e later hstart
    have honce := (once_iff hd toAdd).mp h.once s (e, later) hstart
    have hkept := (exempts_iff hd toAdd).mp h.exempts s (e, later) hstart
    exact ⟨honce, hkept,
      (merged_again_iff hstart honce hkept).mp ((idempotent_iff hd toAdd).mp h.idempotent s _ hstart)⟩
  · intro h
    have horderly : ∀ s, ∀ x ∈ start p.auditConfigs toAdd s,
        Orderly x.1 x.2 (specsFor toAdd s) := fun s x hx => h s x.1 x.2 hx
    exact {
      services := services_iff hd toAdd
      logs := logs_iff hd toAdd
      exempts := (exempts_iff hd toAdd).mpr fun s x hx => (horderly s x hx).kept
      once := (once_iff hd toAdd).mpr fun s x hx => (horderly s x hx).once
      idempotent := (idempotent_iff hd toAdd).mpr fun s x hx =>
        (merged_again_iff hx (horderly s x hx).once (horderly s x hx).kept).mpr
          (horderly s x hx).written }

/-- A spec that repeats a log type is written as it stands, and merged when it is added again. -/
theorem repeated_not_union : ¬ IsUnion (L := String) (M := String) []
    [⟨"allServices".toList, [⟨"DATA_READ", none⟩, ⟨"DATA_READ", some ["user:a"]⟩]⟩] := by
  intro h
  exact absurd h.idempotent (by decide)

end Custodian.AuditConfigs

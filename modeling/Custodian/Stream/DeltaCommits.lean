import Custodian.Lib.Split
import Custodian.Stream.Replay

/-!
# The changes between two commits

`PolicyRepo.delta_commits` compares the policies of the files that are not the same in two commits.
A file is dropped as a whole when one of its entries has no name, while an entry without a resource
is left out alone.
-/

namespace Custodian.PolicyStream

open Py Keyed
open Function (update)

variable {B V : Type}

/-! ## The entries of a file -/

/-- The name of a file in its directory. -/
def fentName (path : Text) : Text := afterLast '/' path

/-- The order in which a set of paths is iterated. -/
structure PathOrder where
  order : List Text → List Text
  perm : ∀ fs, (order fs).Perm fs

namespace Env

variable (env : Env B V)

/-- The entries that a document lists under `policies`. -/
def documentEntries (blob : B) : Except Exn (List V) := do
  let doc ← env.safeLoad blob
  match ← env.get doc "policies".toList with
  | none => return []
  | some policies => env.iter policies

/-- The entry has a name. -/
def HasName (data : V) : Prop :=
  ∃ name, env.index data "name".toList = .ok name ∧ env.hashable name = true

/-- An entry with a name and a resource is a policy. -/
def entry (f : Text) (data : V) : Option (Policy V) :=
  match env.policy f data, env.index data "resource".toList with
  | .ok p, .ok _ => some p
  | _, _ => none

/-- The policies of a file, whatever its other entries are. -/
def fileEntries (f : Text) (t : Tree B) : PolicyCollection V :=
  match t.files.lookup f with
  | none => []
  | some blob =>
    match env.documentEntries blob with
    | .error _ => []
    | .ok items => items.filterMap (env.entry f)

/-- The policies of a commit's policy files, in whatever directory. -/
def policyEntries (t : Tree B) : PolicyCollection V :=
  (t.paths.filter fun f => env.matcher (fentName f)).flatMap fun f => env.fileEntries f t

/-- The entry has a name, and its resource is there or missing. -/
def Loads (data : V) : Prop :=
  env.HasName data ∧ ∀ e, env.index data "resource".toList = .error e → e = .keyError

/-- Every entry of the file has a name. -/
def Readable (f : Text) (t : Tree B) : Prop :=
  ∀ blob ∈ t.files.lookup f, ∀ items, env.documentEntries blob = .ok items →
    ∀ data ∈ items, env.Loads data

/-! ## The changes -/

variable [DecidableEq V] [DecidableEq B]

omit [DecidableEq V] [DecidableEq B] in
/-- `_get_policy_fents`: the files of the tree and of its subdirectories that match. -/
def getPolicyFents (t : Tree B) : List (Text × B) := t.files.filter fun e => env.matcher (fentName e.1)

omit [DecidableEq V] [DecidableEq B] in
def policyFileRevs (fs : List Text) (c : Commit B) : PolicyCollection V :=
  fs.flatMap fun f => env.policyFileRev f c.tree

omit [DecidableEq V] [DecidableEq B] in
/-- The policy files of a tree that another does not have, as a difference of sets. -/
def pathsOnlyIn (o : PathOrder) (t t' : Tree B) : List Text :=
  o.order (((env.getPolicyFents t).map Prod.fst).filter
    fun f => f ∉ (env.getPolicyFents t').map Prod.fst)

omit [DecidableEq V] in
/-- The policy files of both trees that are not the same. -/
def pathsModified (o : PathOrder) (t t' : Tree B) : List Text :=
  (o.order (((env.getPolicyFents t).map Prod.fst).filter
    fun f => f ∈ (env.getPolicyFents t').map Prod.fst)).filter
      fun f => (env.getPolicyFents t).lookup f ≠ (env.getPolicyFents t').lookup f

/-- `delta_commits` -/
def deltaCommits (o : PathOrder) (baseline target : Commit B) : List (Change V) :=
  let added := env.pathsOnlyIn o target.tree baseline.tree
  let removed := env.pathsOnlyIn o baseline.tree target.tree
  let modified := env.pathsModified o baseline.tree target.tree
  env.delta target (env.policyFileRevs removed baseline ++ env.policyFileRevs modified baseline)
    (env.policyFileRevs added target ++ env.policyFileRevs modified target)

end Env

/-- Two commits, each of whose policies have distinct names. -/
structure TwoCommits (env : Env B V) where
  baseline : Commit B
  target : Commit B
  nodup_baseline : ((env.policyEntries baseline.tree).map Policy.name).Nodup
  nodup_target : ((env.policyEntries target.tree).map Policy.name).Nodup

namespace TwoCommits

variable {env : Env B V}

/-- The changes lead from the policies of the baseline to those of the target, with at most one
change for each name and none for a policy that is the same in both. -/
structure Exact [DecidableEq V] [DecidableEq B] (cs : TwoCommits env) (o : PathOrder) : Prop where
  replay : ∃ ps, replay (env.policyEntries cs.baseline.tree)
    (env.deltaCommits o cs.baseline cs.target) = .ok ps ∧ ps.Perm (env.policyEntries cs.target.tree)
  once : ((env.deltaCommits o cs.baseline cs.target).map Change.name).Nodup
  same : ∀ p ∈ env.policyEntries cs.baseline.tree, p ∈ env.policyEntries cs.target.tree →
    ∀ change ∈ env.deltaCommits o cs.baseline cs.target, change.name ≠ p.name

/-- The file matches and is not the same in both commits. -/
def Differs (cs : TwoCommits env) (f : Text) : Prop :=
  env.matcher (fentName f) = true ∧
    cs.baseline.tree.files.lookup f ≠ cs.target.tree.files.lookup f

/-- A policy of a commit that is in a file that differs and has an entry without a name. -/
def Lost (cs : TwoCommits env) (t : Tree B) (p : Policy V) : Prop :=
  p ∈ env.policyEntries t ∧ cs.Differs p.filePath ∧ ¬ env.Readable p.filePath t

end TwoCommits

/-! ## What is loaded of a file -/

namespace Env

variable {env : Env B V} {f : Text} {t : Tree B}

theorem loadPolicies_eq (f : Text) (blob : B) :
    env.loadPolicies f blob = env.documentEntries blob >>= List.mapM (env.policy f) := by
  rw [loadPolicies, documentEntries]
  cases env.safeLoad blob with
  | error e => rfl
  | ok doc =>
    rw [ok_bind, ok_bind, fromData]
    cases env.get doc "policies".toList with
    | error e => rfl
    | ok o => cases o <;> rfl

theorem policy_of_hasName {data : V} (h : env.HasName data) (f : Text) :
    ∃ name, env.policy f data = .ok ⟨name, data, f⟩ := by
  obtain ⟨name, hname, hhash⟩ := h
  refine ⟨name, ?_⟩
  rw [policy, hname, ok_bind, if_pos hhash]

theorem hasName_of_policy {data : V} {p : Policy V} (h : env.policy f data = .ok p) :
    env.HasName data ∧ p.data = data := by
  obtain ⟨name, hname, h⟩ := bind_eq_ok.mp h
  split at h
  · next hhash =>
    cases h
    exact ⟨⟨name, hname, hhash⟩, rfl⟩
  · cases h

theorem exists_load {items : List V} (h : ∀ data ∈ items, env.Loads data) (f : Text) :
    ∃ ps, items.mapM (env.policy f) = .ok ps ∧
      env.validatePolicies ps = .ok (items.filterMap (env.entry f)) := by
  induction items with
  | nil => exact ⟨[], rfl, rfl⟩
  | cons data items ih =>
    obtain ⟨⟨hname, hresource⟩, hitems⟩ := List.forall_mem_cons.mp h
    obtain ⟨name, hp⟩ := policy_of_hasName hname f
    obtain ⟨ps, hps, hvalid⟩ := ih hitems
    refine ⟨⟨name, data, f⟩ :: ps, ?_, ?_⟩
    · rw [List.mapM_cons, hp, hps]
      rfl
    · rw [validatePolicies, List.filterMap_cons, entry, hp]
      cases hr : env.index data "resource".toList with
      | error e =>
        rw [hresource e hr]
        exact hvalid
      | ok r =>
        simp only [hvalid]
        rfl

theorem loads_of_load {items : List V} {ps qs : PolicyCollection V}
    (hps : items.mapM (env.policy f) = .ok ps) (hqs : env.validatePolicies ps = .ok qs) :
    ∀ data ∈ items, env.Loads data := by
  induction items generalizing ps qs with
  | nil => exact fun data hdata => absurd hdata List.not_mem_nil
  | cons data items ih =>
    rw [List.mapM_cons] at hps
    obtain ⟨p, hp, hps⟩ := bind_eq_ok.mp hps
    obtain ⟨rest, hrest, hps⟩ := bind_eq_ok.mp hps
    obtain rfl := pure_eq_ok.mp hps
    obtain ⟨hname, hdata⟩ := hasName_of_policy hp
    rw [validatePolicies, hdata] at hqs
    rw [List.forall_mem_cons]
    split at hqs
    · next hr => exact ⟨⟨hname, fun e he => (Except.error.inj (hr.symm.trans he)).symm⟩, ih hrest hqs⟩
    · cases hqs
    · next r hr =>
      obtain ⟨qs', hqs', -⟩ := bind_eq_ok.mp hqs
      refine ⟨⟨hname, fun e he => ?_⟩, ih hrest hqs'⟩
      rw [hr] at he
      cases he

/-- **A file is loaded** as a whole when it is readable, and dropped as a whole otherwise. -/
theorem policyFileRev_of_readable (h : env.Readable f t) :
    env.policyFileRev f t = env.fileEntries f t := by
  rw [policyFileRev, fileEntries]
  cases hblob : t.files.lookup f with
  | none => rfl
  | some blob =>
    simp only [loadPolicies_eq]
    cases hitems : env.documentEntries blob with
    | error e => rfl
    | ok items =>
      obtain ⟨ps, hps, hvalid⟩ := exists_load (h blob hblob items hitems) f
      simp only [ok_bind, hps, hvalid]

theorem policyFileRev_of_not_readable (h : ¬ env.Readable f t) : env.policyFileRev f t = [] := by
  rw [policyFileRev]
  cases hblob : t.files.lookup f with
  | none => rfl
  | some blob =>
    simp only [loadPolicies_eq]
    cases hload : env.documentEntries blob >>= List.mapM (env.policy f) >>= env.validatePolicies with
    | error e => rfl
    | ok qs =>
      refine absurd ?_ h
      obtain ⟨ps, hps, hqs⟩ := bind_eq_ok.mp hload
      obtain ⟨items, hitems, hps⟩ := bind_eq_ok.mp hps
      intro blob' hblob' items' hitems'
      rw [hblob, Option.mem_some_iff] at hblob'
      subst hblob'
      rw [hitems, Except.ok.injEq] at hitems'
      subst hitems'
      exact loads_of_load hps hqs

theorem fileEntries_filePath {p : Policy V} (h : p ∈ env.fileEntries f t) : p.filePath = f := by
  rw [fileEntries] at h
  split at h
  · cases h
  · split at h
    · cases h
    · obtain ⟨data, -, hp⟩ := List.mem_filterMap.mp h
      rw [entry] at hp
      split at hp
      · next p' _ hpolicy _ =>
        cases hp
        exact env.policy_filePath hpolicy
      · cases hp

theorem mem_policyFileRev {p : Policy V} :
    p ∈ env.policyFileRev f t ↔ p ∈ env.fileEntries f t ∧ env.Readable f t := by
  by_cases h : env.Readable f t
  · rw [policyFileRev_of_readable h, and_iff_left h]
  · rw [policyFileRev_of_not_readable h]
    exact iff_of_false List.not_mem_nil fun hp => h hp.2

theorem mem_policyEntries {p : Policy V} : p ∈ env.policyEntries t ↔
    env.matcher (fentName p.filePath) = true ∧ p ∈ env.fileEntries p.filePath t := by
  rw [policyEntries, List.mem_flatMap]
  constructor
  · rintro ⟨f, hf, hp⟩
    obtain rfl := fileEntries_filePath hp
    exact ⟨(List.mem_filter.mp hf).2, hp⟩
  · rintro ⟨hmatch, hp⟩
    refine ⟨p.filePath, List.mem_filter.mpr ⟨?_, hmatch⟩, hp⟩
    by_contra hpath
    rw [fileEntries, Tree.lookup_eq_none_iff.mpr hpath] at hp
    cases hp

/-! ## What is compared -/

theorem mem_paths_getPolicyFents : f ∈ (env.getPolicyFents t).map Prod.fst ↔
    f ∈ t.paths ∧ env.matcher (fentName f) = true := by
  rw [getPolicyFents, Tree.paths]
  constructor
  · intro hf
    obtain ⟨e, he, rfl⟩ := List.mem_map.mp hf
    obtain ⟨he, hmatch⟩ := List.mem_filter.mp he
    exact ⟨List.mem_map_of_mem he, hmatch⟩
  · rintro ⟨hf, hmatch⟩
    obtain ⟨e, he, rfl⟩ := List.mem_map.mp hf
    exact List.mem_map_of_mem (List.mem_filter.mpr ⟨he, hmatch⟩)

theorem lookup_getPolicyFents (h : env.matcher (fentName f) = true) :
    (env.getPolicyFents t).lookup f = t.files.lookup f := by
  rw [getPolicyFents]
  induction t.files with
  | nil => rfl
  | cons e es ih =>
    rw [List.filter_cons, List.lookup_cons]
    by_cases hf : f = e.1
    · rw [← hf, if_pos h, List.lookup_cons, ← hf, beq_self_eq_true]
    · rw [beq_eq_false_iff_ne.mpr hf]
      split
      · rw [List.lookup_cons, beq_eq_false_iff_ne.mpr hf, ih]
      · exact ih

theorem differs_iff {t' : Tree B} (hf : f ∈ t.paths) :
    env.matcher (fentName f) = true ∧ t.files.lookup f ≠ t'.files.lookup f ↔
      (f ∈ (env.getPolicyFents t).map Prod.fst ∧ f ∉ (env.getPolicyFents t').map Prod.fst) ∨
      (f ∈ (env.getPolicyFents t).map Prod.fst ∧ f ∈ (env.getPolicyFents t').map Prod.fst) ∧
        (env.getPolicyFents t).lookup f ≠ (env.getPolicyFents t').lookup f := by
  rw [mem_paths_getPolicyFents, mem_paths_getPolicyFents]
  by_cases hmatch : env.matcher (fentName f) = true
  · rw [lookup_getPolicyFents hmatch, lookup_getPolicyFents hmatch]
    by_cases hf' : f ∈ t'.paths
    · simp [hf, hf', hmatch]
    · have hne : t.files.lookup f ≠ t'.files.lookup f := by
        rw [Tree.lookup_eq_none_iff.mpr hf', Ne, Tree.lookup_eq_none_iff]
        exact not_not.mpr hf
      simp [hf, hf', hmatch, hne]
  · simp [hmatch]

theorem mem_policyFileRevs {fs : List Text} {c : Commit B} {p : Policy V} :
    p ∈ env.policyFileRevs fs c ↔ p.filePath ∈ fs ∧ p ∈ env.policyFileRev p.filePath c.tree := by
  rw [policyFileRevs, List.mem_flatMap]
  constructor
  · rintro ⟨f, hf, hp⟩
    obtain rfl := env.policyFileRev_filePath hp
    exact ⟨hf, hp⟩
  · exact fun ⟨hf, hp⟩ => ⟨p.filePath, hf, hp⟩

theorem mem_paths_of_mem_policyFileRev {p : Policy V} (h : p ∈ env.policyFileRev f t) :
    f ∈ t.paths := by
  by_contra hf
  rw [policyFileRev_of_notMem hf] at h
  cases h

end Env

namespace Env

variable [DecidableEq B] {env : Env B V} {t t' : Tree B} {f : Text} (o : PathOrder)

theorem mem_paths_iff (hf : f ∈ t.paths) :
    f ∈ env.pathsOnlyIn o t t' ∨ f ∈ env.pathsModified o t t' ↔
      env.matcher (fentName f) = true ∧ t.files.lookup f ≠ t'.files.lookup f := by
  rw [differs_iff hf, pathsOnlyIn, pathsModified, List.mem_filter, (o.perm _).mem_iff,
    (o.perm _).mem_iff, List.mem_filter, List.mem_filter]
  simp only [decide_eq_true_eq]

theorem mem_pathsModified_comm :
    f ∈ env.pathsModified o t t' ↔ f ∈ env.pathsModified o t' t := by
  rw [pathsModified, pathsModified, List.mem_filter, List.mem_filter, (o.perm _).mem_iff,
    (o.perm _).mem_iff, List.mem_filter, List.mem_filter]
  simp only [decide_eq_true_eq]
  rw [and_comm (a := f ∈ List.map Prod.fst (env.getPolicyFents t)), ne_comm]

omit [DecidableEq B] in
theorem mem_compared {c : Commit B} {fs gs : List Text} {t' : Tree B}
    (h : ∀ f ∈ c.tree.paths, (f ∈ fs ∨ f ∈ gs ↔
      env.matcher (fentName f) = true ∧ c.tree.files.lookup f ≠ t'.files.lookup f))
    {p : Policy V} : p ∈ env.policyFileRevs fs c ++ env.policyFileRevs gs c ↔
      p ∈ env.policyEntries c.tree ∧ (env.matcher (fentName p.filePath) = true ∧
        c.tree.files.lookup p.filePath ≠ t'.files.lookup p.filePath) ∧
        env.Readable p.filePath c.tree := by
  rw [List.mem_append, mem_policyFileRevs, mem_policyFileRevs, ← or_and_right]
  constructor
  · rintro ⟨hpath, hrev⟩
    have hdiffers := (h _ (mem_paths_of_mem_policyFileRev hrev)).mp hpath
    obtain ⟨hentry, hreadable⟩ := mem_policyFileRev.mp hrev
    exact ⟨mem_policyEntries.mpr ⟨hdiffers.1, hentry⟩, hdiffers, hreadable⟩
  · rintro ⟨hentry, hdiffers, hreadable⟩
    have hrev := mem_policyFileRev.mpr ⟨(mem_policyEntries.mp hentry).2, hreadable⟩
    exact ⟨(h _ (mem_paths_of_mem_policyFileRev hrev)).mpr hdiffers, hrev⟩

omit [DecidableEq B] in
theorem fileEntries_congr (h : t.files.lookup f = t'.files.lookup f) :
    env.fileEntries f t = env.fileEntries f t' := by
  rw [fileEntries, h, fileEntries]

end Env

/-! ## What the changes lead from and to -/

namespace TwoCommits

variable [DecidableEq V] {env : Env B V} {cs : TwoCommits env}

/-- The policies of a tree by name. -/
def entryMap (env : Env B V) (t : Tree B) (n : V) : Option (Policy V) :=
  (env.policyEntries t).find? fun p => p.name = n

open Classical in
/-- The policies of a commit that are not lost, by name. -/
noncomputable def kept (cs : TwoCommits env) (t : Tree B) (n : V) : Option (Policy V) :=
  restrict (fun p => decide (¬ cs.Lost t p)) (entryMap env t) n

open Classical in
theorem kept_eq_some_iff {t : Tree B} {n : V} {p : Policy V} :
    cs.kept t n = some p ↔ entryMap env t n = some p ∧ ¬ cs.Lost t p := by
  rw [kept, restrict_eq_some_iff, decide_eq_true_eq]

theorem lists_baseline (cs : TwoCommits env) :
    Lists Policy.name (env.policyEntries cs.baseline.tree) (entryMap env cs.baseline.tree) :=
  Lists.find cs.nodup_baseline

theorem lists_target (cs : TwoCommits env) :
    Lists Policy.name (env.policyEntries cs.target.tree) (entryMap env cs.target.tree) :=
  Lists.find cs.nodup_target

theorem part_kept {t : Tree B} (h : Lists Policy.name (env.policyEntries t) (entryMap env t))
    {ps : PolicyCollection V} (hps : ∀ p, p ∈ ps ↔ p ∈ env.policyEntries t ∧
      cs.Differs p.filePath ∧ env.Readable p.filePath t) : Part (cs.kept t) cs.Differs ps := by
  refine ⟨fun n p hp => h.key_eq (kept_eq_some_iff.mp hp).1, fun p => ?_⟩
  rw [hps, kept_eq_some_iff, ← h.mem_iff, Lost]
  tauto

theorem kept_frame {p : Policy V} (h : ¬ cs.Differs p.filePath) :
    cs.kept cs.baseline.tree p.name = some p ↔ cs.kept cs.target.tree p.name = some p := by
  have hlost : ∀ t, ¬ cs.Lost t p := fun t hp => h hp.2.1
  rw [kept_eq_some_iff, kept_eq_some_iff, and_iff_left (hlost _), and_iff_left (hlost _),
    ← cs.lists_baseline.mem_iff, ← cs.lists_target.mem_iff, Env.mem_policyEntries,
    Env.mem_policyEntries]
  refine and_congr_right fun hmatch => ?_
  rw [Env.fileEntries_congr (not_not.mp fun hne => h ⟨hmatch, hne⟩)]

theorem kept_of_lost {t : Tree B} {n : V} {p : Policy V} (hp : entryMap env t n = some p)
    (h : cs.Lost t p) : cs.kept t n = none := by
  refine Option.eq_none_iff_forall_ne_some.mpr fun q hq => ?_
  obtain ⟨hq, hkept⟩ := kept_eq_some_iff.mp hq
  obtain rfl := Option.some.inj (hp.symm.trans hq)
  exact hkept h

theorem kept_of_not_lost {t : Tree B} {n : V} (h : ∀ p, entryMap env t n = some p → ¬ cs.Lost t p) :
    cs.kept t n = entryMap env t n :=
  Option.ext fun p => kept_eq_some_iff.trans ⟨fun hp => hp.1, fun hp => ⟨hp, h p hp⟩⟩

theorem kept_or_lost (h : ∀ p, cs.Lost cs.baseline.tree p ↔ cs.Lost cs.target.tree p) (n : V) :
    (cs.kept cs.baseline.tree n = entryMap env cs.baseline.tree n ∧
      cs.kept cs.target.tree n = entryMap env cs.target.tree n) ∨
    (cs.kept cs.baseline.tree n = none ∧ cs.kept cs.target.tree n = none ∧
      entryMap env cs.baseline.tree n = entryMap env cs.target.tree n) := by
  by_cases hlost : ∃ p, p.name = n ∧ cs.Lost cs.baseline.tree p
  · obtain ⟨p, rfl, hp⟩ := hlost
    have hbaseline := cs.lists_baseline.mem_iff.mp hp.1
    have htarget := cs.lists_target.mem_iff.mp ((h p).mp hp).1
    exact Or.inr ⟨kept_of_lost hbaseline hp, kept_of_lost htarget ((h p).mp hp),
      hbaseline.trans htarget.symm⟩
  · refine Or.inl ⟨kept_of_not_lost fun p hp hl => ?_, kept_of_not_lost fun p hp hl => ?_⟩
    · exact hlost ⟨p, cs.lists_baseline.key_eq hp, hl⟩
    · exact hlost ⟨p, cs.lists_target.key_eq hp, (h p).mpr hl⟩

variable [DecidableEq B]

/-- **The changes lead from what is kept of the baseline to what is kept of the target.** -/
theorem deltaCommits_between (cs : TwoCommits env) (o : PathOrder) :
    Between Change.name Change.before Change.after (cs.kept cs.baseline.tree)
      (cs.kept cs.target.tree) (env.deltaCommits o cs.baseline cs.target) := by
  refine delta_between env cs.target (part_kept cs.lists_baseline fun p => ?_)
    (part_kept cs.lists_target fun p => ?_) fun p hp => kept_frame hp
  · exact Env.mem_compared fun f hf => Env.mem_paths_iff o hf
  · rw [Differs, ne_comm]
    refine Env.mem_compared fun f hf => ?_
    rw [Env.mem_pathsModified_comm, Env.mem_paths_iff o hf]

end TwoCommits

/-! ## Applying changes -/

section Replay

variable [DecidableEq V] {ps qs : PolicyCollection V} {m : V → Option (Policy V)}

theorem setItem_inv (hps : Lists Policy.name ps m) {p : Policy V} (h : ps.setItem p = .ok qs) :
    (m p.name).isSome = true ∧ Lists Policy.name qs (update m p.name (some p)) := by
  have hmem : p.name ∈ ps.map Policy.name := by
    by_contra hmem
    rw [PolicyCollection.setItem, if_neg hmem] at h
    cases h
  obtain ⟨q, hq⟩ := hps.mem_keys_iff.mp hmem
  obtain ⟨ps', hps', hlists⟩ := PolicyCollection.setItem_spec hps hq
  cases h.symm.trans hps'
  exact ⟨Option.isSome_iff_exists.mpr ⟨q, hq⟩, hlists⟩

theorem replay_step {change : Change V} (hps : Lists Policy.name ps m)
    (h : replay ps [change] = .ok qs) :
    (m change.name).isSome = change.before.isSome ∧
      Lists Policy.name qs (update m change.name change.after) := by
  rw [replay, List.foldlM_cons] at h
  obtain ⟨qs', hstep, hdone⟩ := bind_eq_ok.mp h
  obtain rfl := pure_eq_ok.mp hdone
  cases change with
  | add p =>
    have hnone : m p.name = none := by
      refine hps.notMem_keys_iff.mp fun hmem => ?_
      simp only [PolicyCollection.add, if_pos hmem] at hstep
      cases hstep
    obtain ⟨ps', hps', hlists⟩ := PolicyCollection.add_spec hps hnone
    cases hstep.symm.trans hps'
    exact ⟨congrArg Option.isSome hnone, hlists⟩
  | remove p =>
    have hmem : p.name ∈ ps.map Policy.name := by
      by_contra hmem
      simp only [PolicyCollection.remove, if_neg hmem] at hstep
      cases hstep
    obtain ⟨q, hq⟩ := hps.mem_keys_iff.mp hmem
    obtain ⟨ps', hps', hlists⟩ := PolicyCollection.remove_spec hps hq
    cases hstep.symm.trans hps'
    exact ⟨Option.isSome_iff_exists.mpr ⟨q, hq⟩, hlists⟩
  | modified p previous => exact setItem_inv hps hstep
  | moved p previous => exact setItem_inv hps hstep

/-- **Changes that can be applied** find the names that they take away, and no others. -/
theorem replay_inv {changes : List (Change V)} (hps : Lists Policy.name ps m)
    (hnodup : (changes.map Change.name).Nodup) (h : replay ps changes = .ok qs) :
    ∃ m', Lists Policy.name qs m' ∧
      (∀ change ∈ changes, (m change.name).isSome = change.before.isSome ∧
        m' change.name = change.after) ∧
      ∀ n, n ∉ changes.map Change.name → m' n = m n := by
  induction changes generalizing ps m with
  | nil =>
    obtain rfl := pure_eq_ok.mp h
    exact ⟨m, hps, fun change hc => absurd hc List.not_mem_nil, fun _ _ => rfl⟩
  | cons change changes ih =>
    rw [List.map_cons, List.nodup_cons] at hnodup
    rw [replay, List.foldlM_cons] at h
    obtain ⟨ps', hstep, hrest⟩ := bind_eq_ok.mp h
    have hone : replay ps [change] = .ok ps' := by
      rw [replay, List.foldlM_cons]
      exact bind_eq_ok.mpr ⟨ps', hstep, rfl⟩
    obtain ⟨hbefore, hps'⟩ := replay_step hps hone
    obtain ⟨m', hqs, hchanges, hframe⟩ := ih hps' hnodup.2 hrest
    refine ⟨m', hqs, ?_, fun n hn => ?_⟩
    · rw [List.forall_mem_cons]
      refine ⟨⟨hbefore, ?_⟩, fun c hc => ?_⟩
      · rw [hframe _ hnodup.1, Function.update_self]
      · have hne : c.name ≠ change.name := fun he =>
          hnodup.1 (he ▸ List.mem_map_of_mem hc)
        obtain ⟨hb, ha⟩ := hchanges c hc
        rw [Function.update_of_ne hne] at hb
        exact ⟨hb, ha⟩
    · rw [List.map_cons, List.mem_cons, not_or] at hn
      rw [hframe n hn.2, Function.update_of_ne hn.1]

end Replay

/-! ## When the changes are exact -/

theorem Env.before_ne_after [DecidableEq V] {env : Env B V} {c : Commit B}
    {prev curr : PolicyCollection V} {change : Change V} (h : change ∈ env.delta c prev curr) :
    change.before ≠ change.after := by
  rcases env.mem_delta_iff.mp h with ⟨p, -, -, rfl⟩ | ⟨p, -, -, rfl⟩ | ⟨p, q, -, -, hchange⟩
  · exact (Option.some_ne_none p)
  · exact (Option.some_ne_none p).symm
  · rw [(extantChange_sides hchange).1, (extantChange_sides hchange).2, Ne, Option.some.injEq]
    rintro rfl
    simp [Env.extantChange] at hchange

namespace TwoCommits

variable [DecidableEq V] [DecidableEq B] {env : Env B V} {cs : TwoCommits env} {o : PathOrder}

theorem between_of_lost (h : ∀ p, cs.Lost cs.baseline.tree p ↔ cs.Lost cs.target.tree p)
    (o : PathOrder) : Between Change.name Change.before Change.after
      (entryMap env cs.baseline.tree) (entryMap env cs.target.tree)
      (env.deltaCommits o cs.baseline cs.target) := by
  have hbetween := cs.deltaCommits_between o
  have hkept : ∀ change ∈ env.deltaCommits o cs.baseline cs.target,
      cs.kept cs.baseline.tree change.name = entryMap env cs.baseline.tree change.name ∧
        cs.kept cs.target.tree change.name = entryMap env cs.target.tree change.name := by
    intro change hchange
    refine (kept_or_lost h change.name).resolve_right fun hlost => ?_
    refine Env.before_ne_after hchange ?_
    rw [← hbetween.before_eq change hchange, ← hbetween.after_eq change hchange, hlost.1, hlost.2.1]
  refine ⟨hbetween.nodup, fun change hchange => ?_, fun change hchange => ?_, fun n hn => ?_⟩
  · rw [← (hkept change hchange).1]
    exact hbetween.before_eq change hchange
  · rw [← (hkept change hchange).2]
    exact hbetween.after_eq change hchange
  · rcases kept_or_lost h n with ⟨hb, ht⟩ | ⟨-, -, heq⟩
    · rw [← hb, ← ht]
      exact hbetween.frame n hn
    · exact heq

/-- **The changes are exact** when the policies that are lost in one commit are those that are lost
in the other. -/
theorem exactCommits_iff (cs : TwoCommits env) (o : PathOrder) :
    cs.Exact o ↔ ∀ p, cs.Lost cs.baseline.tree p ↔ cs.Lost cs.target.tree p := by
  constructor
  · intro hexact
    have hbetween := cs.deltaCommits_between o
    obtain ⟨ps, hps, hperm⟩ := hexact.replay
    obtain ⟨m, hm, hchanges, hframe⟩ := replay_inv cs.lists_baseline hexact.once hps
    obtain rfl := hm.eq_of_perm cs.lists_target hperm
    -- a name under which a policy is lost has no change
    have hbaseline : ∀ p, cs.Lost cs.baseline.tree p →
        p.name ∉ (env.deltaCommits o cs.baseline cs.target).map Change.name := by
      intro p hp hmem
      obtain ⟨change, hchange, hname⟩ := List.mem_map.mp hmem
      have hentry := cs.lists_baseline.mem_iff.mp hp.1
      have hbefore := (hchanges change hchange).1
      rw [← hbetween.before_eq change hchange, hname, hentry, kept_of_lost hentry hp] at hbefore
      cases hbefore
    have htarget : ∀ p, cs.Lost cs.target.tree p →
        p.name ∉ (env.deltaCommits o cs.baseline cs.target).map Change.name := by
      intro p hp hmem
      obtain ⟨change, hchange, hname⟩ := List.mem_map.mp hmem
      have hentry := cs.lists_target.mem_iff.mp hp.1
      have hafter := (hchanges change hchange).2
      rw [← hbetween.after_eq change hchange, hname, hentry, kept_of_lost hentry hp] at hafter
      cases hafter
    intro p
    constructor
    · intro hp
      have hn := hbaseline p hp
      have hentry := cs.lists_baseline.mem_iff.mp hp.1
      have hkept := hbetween.frame p.name hn
      rw [kept_of_lost hentry hp] at hkept
      by_contra hnot
      have hsome : cs.kept cs.target.tree p.name = some p :=
        kept_eq_some_iff.mpr ⟨(hframe p.name hn).trans hentry, hnot⟩
      rw [hsome] at hkept
      cases hkept
    · intro hp
      have hn := htarget p hp
      have hentry := cs.lists_target.mem_iff.mp hp.1
      have hkept := hbetween.frame p.name hn
      rw [kept_of_lost hentry hp] at hkept
      by_contra hnot
      have hsome : cs.kept cs.baseline.tree p.name = some p :=
        kept_eq_some_iff.mpr ⟨(hframe p.name hn).symm.trans hentry, hnot⟩
      rw [hsome] at hkept
      cases hkept
  · intro h
    have hbetween := between_of_lost h o
    obtain ⟨ps, hps, hlists⟩ := replay_spec hbetween cs.lists_baseline
    refine ⟨⟨ps, hps, hlists.perm cs.lists_target⟩, hbetween.nodup, ?_⟩
    intro p hp hp' change hchange hname
    refine Env.before_ne_after hchange ?_
    rw [← hbetween.before_eq change hchange, ← hbetween.after_eq change hchange, hname,
      cs.lists_baseline.mem_iff.mp hp, cs.lists_target.mem_iff.mp hp']

end TwoCommits

/-! ## A file that is dropped -/

/-- The repository of the samples, where an empty name stands for an entry without a name. -/
def namelessEnv : Env (Option (List (Text × Text))) Doc :=
  { sampleEnv with
    index := fun
      | .policy name resource, key =>
        if key = "resource".toList then .ok (.text resource)
        else if name = [] then .error .keyError
        else .ok (.text name)
      | _, _ => .error .typeError }

/-- A file is added with a policy and an entry that has no name. -/
def addedFile : TwoCommits namelessEnv where
  baseline := ⟨"a1".toList, 10, [], .empty⟩
  target := ⟨"b2".toList, 20, [.empty], ⟨[("ec2.yml".toList,
    some [("old-ami".toList, "ec2".toList), ([], "ec2".toList)])], by decide⟩⟩
  nodup_baseline := List.nodup_nil
  nodup_target := by decide +kernel

/-- The policy beside the entry without a name is not added. -/
theorem addedFile_not_exact : ¬ addedFile.Exact ⟨id, fun _ => .refl _⟩ := by
  rintro ⟨⟨ps, hps, hperm⟩, -, -⟩
  have hnil : replay (namelessEnv.policyEntries addedFile.baseline.tree)
      (namelessEnv.deltaCommits ⟨id, fun _ => .refl _⟩ addedFile.baseline addedFile.target) =
        .ok [] := by
    decide +kernel
  rw [hnil, Except.ok.injEq] at hps
  have hlength : (namelessEnv.policyEntries addedFile.target.tree).length = 1 := by decide +kernel
  rw [← hps] at hperm
  rw [← hperm.length_eq] at hlength
  cases hlength

end Custodian.PolicyStream

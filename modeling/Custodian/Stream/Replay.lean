import Custodian.Lib.KeyedEdits
import Custodian.Stream.PolicyFiles

/-!
# A stream replays to the head

The policies of a tree are a map by name, when no two have the same name.  `policy_files` stands
for the map of the last commit, and the changes of a commit are edits between two such maps.
-/

namespace Custodian.PolicyStream

open Py Keyed
open Function (update)

variable {B V : Type} [DecidableEq V] {env : Env B V}

/-! ## Bookkeeping -/

namespace PolicyCollection

variable {ps : PolicyCollection V} {m : V → Option (Policy V)}

theorem add_spec (h : Lists Policy.name ps m) {p : Policy V} (hp : m p.name = none) :
    ∃ ps', ps.add p = .ok ps' ∧ Lists Policy.name ps' (update m p.name (some p)) :=
  ⟨ps ++ [p], if_neg (h.notMem_keys_iff.mpr hp), h.append hp⟩

theorem remove_spec (h : Lists Policy.name ps m) {p q : Policy V} (hp : m p.name = some q) :
    ∃ ps', ps.remove p = .ok ps' ∧ Lists Policy.name ps' (update m p.name none) :=
  ⟨_, if_pos (h.mem_keys_iff.mpr ⟨q, hp⟩), h.erase p.name⟩

theorem setItem_spec (h : Lists Policy.name ps m) {p q : Policy V} (hp : m p.name = some q) :
    ∃ ps', ps.setItem p = .ok ps' ∧ Lists Policy.name ps' (update m p.name (some p)) :=
  ⟨_, if_pos (h.mem_keys_iff.mpr ⟨q, hp⟩), h.replace hp⟩

end PolicyCollection

/-- The policy that a change takes away. -/
def Change.before : Change V → Option (Policy V)
  | add _ => none
  | remove p => some p
  | modified _ previous => some previous
  | moved _ previous => some previous

/-- The policy that a change leaves. -/
def Change.after : Change V → Option (Policy V)
  | add p => some p
  | remove _ => none
  | modified p _ => some p
  | moved p _ => some p

def inFile (f : Text) (p : Policy V) : Bool := p.filePath = f

/-- The policies of every file are those of a map by name. -/
def Files.Represents (files : Files V) (m : V → Option (Policy V)) : Prop :=
  ∀ f, Lists Policy.name (files.policies f) (restrict (inFile f) m)

namespace Files

variable {files : Files V} {m : V → Option (Policy V)}

omit [DecidableEq V] in
theorem Represents.mem_policies_iff (h : files.Represents m) {f : Text} {p : Policy V} :
    p ∈ files.policies f ↔ m p.name = some p ∧ p.filePath = f := by
  rw [(h f).mem_iff, restrict_eq_some_iff, inFile, decide_eq_true_eq]

omit [DecidableEq V] in
theorem Represents.name_eq (h : files.Represents m) {n : V} {p : Policy V} (hp : m n = some p) :
    p.name = n :=
  (h p.filePath).key_eq (restrict_eq_some_iff.mpr ⟨hp, decide_eq_true rfl⟩)

omit [DecidableEq V] in
theorem Represents.lookup (h : files.Represents m) {n : V} {p : Policy V} (hp : m n = some p) :
    files.lookup p.filePath = some (files.policies p.filePath) := by
  have hname := h.name_eq hp
  exact lookup_of_mem_policies (h.mem_policies_iff.mpr ⟨hname ▸ hp, rfl⟩)

theorem Represents.insert (h : files.Represents m) {f : Text} {ps : PolicyCollection V} {n : V}
    {v : Option (Policy V)} (hold : ∀ p ∈ m n, p.filePath = f) (hnew : ∀ p ∈ v, p.filePath = f)
    (hps : Lists Policy.name ps (update (restrict (inFile f) m) n v)) :
    Represents (AList.insert f ps files) (update m n v) := by
  have hout : ∀ (o : Option (Policy V)) f', f' ≠ f → (∀ p ∈ o, p.filePath = f) →
      o.filter (inFile f') = none := by
    intro o f' hf ho
    rw [Option.filter_eq_none_iff]
    intro p hp hin
    exact hf ((of_decide_eq_true hin).symm.trans (ho p hp))
  intro f'
  rw [policies_insert, restrict_update]
  by_cases hf : f' = f
  · subst hf
    have hv : v.filter (inFile f') = v := by
      cases v with
      | none => rfl
      | some p => exact Option.filter_some_pos (decide_eq_true (hnew p rfl))
    rw [if_pos rfl, hv]
    exact hps
  · have hm : restrict (inFile f') m n = none := hout _ _ hf hold
    rw [if_neg hf, hout _ _ hf hnew, ← hm, Function.update_eq_self]
    exact h f'

theorem add_spec (h : files.Represents m) {p : Policy V} (hp : m p.name = none) :
    ∃ files', files.add p = .ok files' ∧ files'.Represents (update m p.name (some p)) := by
  have hnone : restrict (inFile p.filePath) m p.name = none := by
    rw [restrict, hp, Option.filter_none]
  obtain ⟨ps, hps, hlists⟩ := PolicyCollection.add_spec (h p.filePath) hnone
  refine ⟨AList.insert p.filePath ps files, ?_, h.insert ?_ ?_ hlists⟩
  · rw [add, hps]
    rfl
  · intro q hq
    rw [hp] at hq
    cases hq
  · intro q hq
    cases hq
    rfl

theorem remove_spec (h : files.Represents m) {p : Policy V} (hp : m p.name = some p) :
    ∃ files', files.remove p = .ok files' ∧ files'.Represents (update m p.name none) := by
  have hsome : restrict (inFile p.filePath) m p.name = some p :=
    restrict_eq_some_iff.mpr ⟨hp, decide_eq_true rfl⟩
  obtain ⟨ps, hps, hlists⟩ := PolicyCollection.remove_spec (h p.filePath) hsome
  refine ⟨AList.insert p.filePath ps files, ?_, h.insert ?_ ?_ hlists⟩
  · simp only [remove, h.lookup hp, hps]
    rfl
  · intro q hq
    rw [hp] at hq
    cases hq
    rfl
  · intro q hq
    cases hq

theorem setItem_spec (h : files.Represents m) {p q : Policy V} (hq : m p.name = some q)
    (hfile : p.filePath = q.filePath) :
    ∃ files', files.setItem p = .ok files' ∧ files'.Represents (update m p.name (some p)) := by
  have hsome : restrict (inFile p.filePath) m p.name = some q :=
    restrict_eq_some_iff.mpr ⟨hq, decide_eq_true hfile.symm⟩
  obtain ⟨ps, hps, hlists⟩ := PolicyCollection.setItem_spec (h p.filePath) hsome
  have hlookup := h.lookup hq
  rw [← hfile] at hlookup
  refine ⟨AList.insert p.filePath ps files, ?_, h.insert ?_ ?_ hlists⟩
  · simp only [setItem, hlookup, hps]
    rfl
  · intro r hr
    rw [hq] at hr
    cases hr
    exact hfile.symm
  · intro r hr
    cases hr
    rfl

theorem replace_spec (h : files.Represents m) {p q : Policy V} (hq : m p.name = some q) :
    ∃ files', files.replace p q = .ok files' ∧ files'.Represents (update m p.name (some p)) := by
  have hname := h.name_eq hq
  unfold replace
  by_cases hfile : p.filePath = q.filePath
  · rw [if_neg (not_not_intro hfile)]
    exact setItem_spec h hq hfile
  · obtain ⟨files₁, hremove, hrep⟩ := remove_spec h (hname ▸ hq)
    rw [hname] at hrep
    have hgone : p.name ∉ (files₁.policies p.filePath).map Policy.name := by
      rw [(hrep p.filePath).notMem_keys_iff, restrict, Function.update_self, Option.filter_none]
    obtain ⟨files₂, hadd, hrep'⟩ := add_spec hrep (Function.update_self p.name none m)
    rw [Function.update_idem] at hrep'
    refine ⟨files₂, ?_, hrep'⟩
    rw [if_pos hfile, hremove]
    exact (if_neg hgone).trans hadd

/-- **The bookkeeping follows a change whose policy is the one that is kept.** -/
theorem apply_spec (h : files.Represents m) {change : Change V}
    (hbefore : m change.name = change.before) : ∃ files', files.apply change = .ok files' ∧
      files'.Represents (update m change.name change.after) := by
  cases change with
  | add p => exact add_spec h hbefore
  | remove p => exact remove_spec h hbefore
  | modified p previous => exact replace_spec h hbefore
  | moved p previous => exact replace_spec h hbefore

/-! ### Files that are known stay so -/

theorem mem_add {files' : Files V} {p : Policy V} (h : files.add p = .ok files') {f : Text}
    (hf : f ∈ files) : f ∈ files' := by
  obtain ⟨ps, -, h⟩ := bind_eq_ok.mp h
  cases h
  exact (AList.mem_insert _).mpr (.inr hf)

theorem mem_remove {files' : Files V} {p : Policy V} (h : files.remove p = .ok files') {f : Text}
    (hf : f ∈ files) : f ∈ files' := by
  unfold remove at h
  split at h
  · cases h
  · obtain ⟨ps, -, h⟩ := bind_eq_ok.mp h
    cases h
    exact (AList.mem_insert _).mpr (.inr hf)

theorem mem_setItem {files' : Files V} {p : Policy V} (h : files.setItem p = .ok files')
    {f : Text} (hf : f ∈ files) : f ∈ files' := by
  unfold setItem at h
  split at h
  · cases h
  · obtain ⟨ps, -, h⟩ := bind_eq_ok.mp h
    cases h
    exact (AList.mem_insert _).mpr (.inr hf)

theorem mem_replace {files' : Files V} {p q : Policy V} (h : files.replace p q = .ok files')
    {f : Text} (hf : f ∈ files) : f ∈ files' := by
  unfold replace at h
  split at h
  · obtain ⟨files₁, hremove, h⟩ := bind_eq_ok.mp h
    have hf₁ := mem_remove hremove hf
    split at h
    · exact mem_setItem h hf₁
    · exact mem_add h hf₁
  · exact mem_setItem h hf

theorem mem_apply {files' : Files V} {change : Change V} (h : files.apply change = .ok files')
    {f : Text} (hf : f ∈ files) : f ∈ files' := by
  cases change with
  | add p => exact mem_add h hf
  | remove p => exact mem_remove h hf
  | modified p previous => exact mem_replace h hf
  | moved p previous => exact mem_replace h hf

end Files

/-! ## The changes of a commit -/

section Changes

variable {ma mb : V → Option (Policy V)} {touched : Text → Prop} {prev curr : PolicyCollection V}

/-- The policies of a map in the files that are touched. -/
structure Part (m : V → Option (Policy V)) (touched : Text → Prop) (ps : PolicyCollection V) :
    Prop where
  name_eq : ∀ n p, m n = some p → p.name = n
  mem_iff : ∀ p, p ∈ ps ↔ m p.name = some p ∧ touched p.filePath

omit [DecidableEq V] in
theorem Part.mem_of_not_mem (h : Part ma touched prev)
    (hframe : ∀ p, ¬touched p.filePath → (ma p.name = some p ↔ mb p.name = some p))
    {n : V} {p : Policy V} (hp : ma n = some p) (hn : n ∉ prev.map Policy.name) :
    mb n = some p := by
  obtain rfl := h.name_eq n p hp
  refine (hframe p fun hfile => hn ?_).mp hp
  exact List.mem_map_of_mem ((h.mem_iff p).mpr ⟨hp, hfile⟩)

omit [DecidableEq V] in
theorem Part.eq_none (h : Part ma touched prev) (h' : Part mb touched curr)
    (hframe : ∀ p, ¬touched p.filePath → (ma p.name = some p ↔ mb p.name = some p))
    {p : Policy V} (hp : p ∈ curr) (hn : p.name ∉ prev.map Policy.name) : ma p.name = none := by
  obtain ⟨hmb, hfile⟩ := (h'.mem_iff p).mp hp
  cases hq : ma p.name with
  | none => rfl
  | some q =>
    have hmb' := h.mem_of_not_mem hframe hq hn
    obtain rfl := Option.some.inj (hmb.symm.trans hmb')
    exact absurd (List.mem_map_of_mem ((h.mem_iff p).mpr ⟨hq, hfile⟩)) hn

theorem Part.eq_some_of_getItem {m : V → Option (Policy V)} {ps : PolicyCollection V} {n : V}
    {p : Policy V} (h : Part m touched ps) (hp : ps.getItem n = some p) : m n = some p := by
  obtain ⟨hmem, rfl⟩ := PolicyCollection.of_getItem hp
  exact ((h.mem_iff p).mp hmem).1

theorem extantChange_sides {p q : Policy V} {change : Change V}
    (h : Env.extantChange p q = some change) :
    change.before = some q ∧ change.after = some p := by
  unfold Env.extantChange at h
  split at h
  · cases h
    exact ⟨rfl, rfl⟩
  · split at h
    · cases h
      exact ⟨rfl, rfl⟩
    · cases h

theorem eq_of_extantChange_eq_none {p q : Policy V} (hname : p.name = q.name)
    (h : Env.extantChange p q = none) : p = q := by
  unfold Env.extantChange at h
  split at h
  · cases h
  · rename_i hdata
    split at h
    · cases h
    · rename_i hfile
      obtain ⟨pname, pdata, pfile⟩ := p
      obtain ⟨qname, qdata, qfile⟩ := q
      simp only [ne_eq, not_not] at hname hdata hfile
      rw [hname, hdata, hfile]

theorem delta_frame (hprev : Part ma touched prev) (hcurr : Part mb touched curr)
    (hframe : ∀ p, ¬touched p.filePath → (ma p.name = some p ↔ mb p.name = some p))
    {c : Commit B} {n : V} (hn : n ∉ (env.delta c prev curr).map Change.name) : ma n = mb n := by
  have hsilent : ∀ change ∈ env.delta c prev curr, change.name ≠ n := fun change hc he =>
    hn (he ▸ List.mem_map_of_mem hc)
  by_cases hp : n ∈ prev.keys
  · obtain ⟨q, hq⟩ := PolicyCollection.exists_getItem hp
    obtain ⟨-, rfl⟩ := PolicyCollection.of_getItem hq
    by_cases hc : q.name ∈ curr.keys
    · obtain ⟨p, hp'⟩ := PolicyCollection.exists_getItem hc
      have hname := (PolicyCollection.of_getItem hp').2
      have hnone : Env.extantChange p q = none := by
        cases h : Env.extantChange p q with
        | none => rfl
        | some change =>
          refine absurd ((extantChange_name h).trans hname) (hsilent change ?_)
          exact env.mem_delta_iff.mpr (.inr (.inr ⟨p, q, hname ▸ hp', hname ▸ hq, h⟩))
      rw [hprev.eq_some_of_getItem hq, hcurr.eq_some_of_getItem hp',
        eq_of_extantChange_eq_none hname hnone]
    · refine absurd rfl (hsilent (.remove q) ?_)
      exact env.mem_delta_iff.mpr (.inl ⟨q, hc, hq, rfl⟩)
  · by_cases hc : n ∈ curr.keys
    · obtain ⟨p, hp'⟩ := PolicyCollection.exists_getItem hc
      obtain ⟨-, rfl⟩ := PolicyCollection.of_getItem hp'
      refine absurd rfl (hsilent (.add p) ?_)
      exact env.mem_delta_iff.mpr (.inr (.inl ⟨p, hp, hp', rfl⟩))
    · rw [PolicyCollection.mem_keys] at hp hc
      exact Option.ext fun p => ⟨fun h => hprev.mem_of_not_mem hframe h hp,
        fun h => hcurr.mem_of_not_mem (fun p hp => (hframe p hp).symm) h hc⟩

/-- **The changes between the touched parts of two maps lead from one to the other.** -/
theorem delta_between (env : Env B V) (c : Commit B) (hprev : Part ma touched prev) (hcurr : Part mb touched curr)
    (hframe : ∀ p, ¬touched p.filePath → (ma p.name = some p ↔ mb p.name = some p)) :
    Between Change.name Change.before Change.after ma mb (env.delta c prev curr) := by
  refine ⟨env.delta_names_nodup c prev curr, fun change hchange => ?_, fun change hchange => ?_,
    fun n hn => delta_frame hprev hcurr hframe hn⟩
  · rcases env.mem_delta_iff.mp hchange with ⟨p, -, hp, rfl⟩ | ⟨p, hn, hp, rfl⟩ | ⟨p, q, hp, hq, h⟩
    · exact hprev.eq_some_of_getItem hp
    · rw [PolicyCollection.mem_keys] at hn
      exact hprev.eq_none hcurr hframe (PolicyCollection.of_getItem hp).1 hn
    · rw [extantChange_name h, hprev.eq_some_of_getItem hq, (extantChange_sides h).1]
  · rcases env.mem_delta_iff.mp hchange with ⟨p, hn, hp, rfl⟩ | ⟨p, -, hp, rfl⟩ | ⟨p, q, hp, hq, h⟩
    · rw [PolicyCollection.mem_keys] at hn
      exact hcurr.eq_none hprev (fun p hp => (hframe p hp).symm)
        (PolicyCollection.of_getItem hp).1 hn
    · exact hcurr.eq_some_of_getItem hp
    · rw [extantChange_name h, hcurr.eq_some_of_getItem hp, (extantChange_sides h).2]

end Changes

/-! ## A commit -/

/-- The valid policies of a tree by name. -/
def Env.policyMap (env : Env B V) (t : Tree B) (n : V) : Option (Policy V) :=
  (env.validPolicies t).find? fun p => p.name = n

theorem Env.UniqueNames.lists {t : Tree B} (h : env.UniqueNames t) :
    Lists Policy.name (env.validPolicies t) (env.policyMap t) := Lists.find h

theorem Env.UniqueNames.lists_file {t : Tree B} (h : env.UniqueNames t) (f : Text) :
    Lists Policy.name (env.filePolicies f t) (restrict (inFile f) (env.policyMap t)) := by
  refine ⟨h.sublist ((env.filePolicies_sublist f t).map Policy.name), fun n p => ?_⟩
  rw [restrict_eq_some_iff, h.lists.eq_some_iff, inFile, decide_eq_true_eq, and_right_comm,
    env.mem_validPolicies_iff]
  refine and_congr_left fun _ => ⟨fun ⟨hp, hfile⟩ => hfile ▸ hp, fun hp => ?_⟩
  have hfile := env.policyFileRev_filePath (env.mem_filePolicies_iff.mp hp).2
  exact ⟨hfile.symm ▸ hp, hfile⟩

/-- **A commit leads from the valid policies of its parent to its own.** -/
theorem processStreamCommit_spec {files : Files V} {c : Commit B}
    (hrep : files.Represents (env.policyMap c.base)) (hbase : env.UniqueNames c.base)
    (htree : env.UniqueNames c.tree) : ∃ changes files',
      env.processStreamCommit files c = (changes, .ok files') ∧
      Between Change.name Change.before Change.after (env.policyMap c.base) (env.policyMap c.tree)
        changes ∧
      files'.Represents (env.policyMap c.tree) := by
  obtain ⟨g, hg, hcompares⟩ := exists_compares env files c
  have hprev : Part (env.policyMap c.base) (env.Touches c) g.current := by
    refine ⟨fun n p hp => hbase.lists.key_eq hp, fun p => ?_⟩
    rw [hcompares.mem_current]
    constructor
    · rintro ⟨f, hf, hmem⟩
      obtain ⟨hp, rfl⟩ := hrep.mem_policies_iff.mp hmem
      exact ⟨hp, hf⟩
    · exact fun ⟨hp, hf⟩ => ⟨p.filePath, hf, hrep.mem_policies_iff.mpr ⟨hp, rfl⟩⟩
  have hcurr : Part (env.policyMap c.tree) (env.Touches c) g.change := by
    refine ⟨fun n p hp => htree.lists.key_eq hp, fun p => ?_⟩
    rw [hcompares.mem_change, htree.lists.mem_iff]
  have hframe : ∀ p : Policy V, ¬env.Touches c p.filePath →
      (env.policyMap c.base p.name = some p ↔ env.policyMap c.tree p.name = some p) := by
    intro p hp
    rw [← hbase.lists.mem_iff, ← htree.lists.mem_iff, env.mem_validPolicies_iff,
      env.mem_validPolicies_iff, env.filePolicies_of_not_touches hp]
  have hbetween := delta_between env c hprev hcurr hframe
  -- the files to delete are known in the beginning, and the bookkeeping forgets none
  obtain ⟨files₁, hfiles₁, hrep₁, hmem₁⟩ := hbetween.foldlM
    (fun s m => s.Represents m ∧ ∀ f ∈ files, f ∈ s)
    (fun s m change hs hm => by
      obtain ⟨s', hs', hrep'⟩ := Files.apply_spec hs.1 hm
      exact ⟨s', hs', hrep', fun f hf => Files.mem_apply hs' (hs.2 f hf)⟩)
    ⟨hrep, fun f hf => hf⟩
  obtain ⟨files₂, hfiles₂, hpolicies⟩ := Files.foldlM_delete
    (fun f hf => hmem₁ f (hcompares.mem_removed f hf).2.1) hcompares.nodup
  refine ⟨env.delta c g.current g.change, files₂, ?_, hbetween, fun f => ?_⟩
  · unfold Env.processStreamCommit
    rw [hg]
    simp only [processStreamDelta_eq hfiles₁]
    exact congrArg _ hfiles₂
  · rw [hpolicies f]
    split
    · rename_i hf
      have hempty : files₁.policies f = [] := by
        refine List.eq_nil_iff_forall_not_mem.mpr fun p hp => ?_
        rw [hrep₁.mem_policies_iff, ← htree.lists.mem_iff, env.mem_validPolicies_iff] at hp
        obtain ⟨hp, rfl⟩ := hp
        have hrev := (env.mem_filePolicies_iff.mp hp).2
        rw [env.policyFileRev_of_notMem (hcompares.mem_removed _ hf).2.2] at hrev
        cases hrev
      rw [← hempty]
      exact hrep₁ f
    · exact hrep₁ f

/-! ## A line of commits -/

theorem replay_spec {m m' : V → Option (Policy V)} {changes : List (Change V)}
    (h : Between Change.name Change.before Change.after m m' changes) {ps : PolicyCollection V}
    (hps : Lists Policy.name ps m) :
    ∃ ps', replay ps changes = .ok ps' ∧ Lists Policy.name ps' m' := by
  refine h.foldlM (Lists Policy.name) (fun ps m change hps hm => ?_) hps
  cases change with
  | add p => exact PolicyCollection.add_spec hps hm
  | remove p => exact PolicyCollection.remove_spec hps hm
  | modified p previous => exact PolicyCollection.setItem_spec hps hm
  | moved p previous => exact PolicyCollection.setItem_spec hps hm

/-- **A stream follows the valid policies along a line of commits.** -/
theorem streamCommits_spec {files : Files V} {ps : PolicyCollection V} {parents : List (Tree B)}
    {cs : List (Commit B)} (hlin : Linear parents cs)
    (hparent : env.UniqueNames (parents.headD .empty))
    (hunique : ∀ c ∈ cs, env.UniqueNames c.tree)
    (hrep : files.Represents (env.policyMap (parents.headD .empty)))
    (hps : Lists Policy.name ps (env.policyMap (parents.headD .empty))) :
    ∃ files' ps', (env.streamCommits files cs).files = .ok files' ∧
      files'.Represents (env.policyMap ((cs.map Commit.tree).getLastD (parents.headD .empty))) ∧
      (∀ e ∈ (env.streamCommits files cs).emitted, (e.2.map Change.name).Nodup) ∧
      replay ps ((env.streamCommits files cs).emitted.flatMap Prod.snd) = .ok ps' ∧
      Lists Policy.name ps'
        (env.policyMap ((cs.map Commit.tree).getLastD (parents.headD .empty))) := by
  induction cs generalizing files ps parents with
  | nil => exact ⟨files, ps, rfl, hrep, fun e he => absurd he List.not_mem_nil, rfl, hps⟩
  | cons c cs ih =>
    obtain ⟨rfl, hlin⟩ := hlin
    have htree := hunique c (List.mem_cons_self ..)
    obtain ⟨changes, files₁, hcommit, hbetween, hrep₁⟩ :=
      processStreamCommit_spec hrep hparent htree
    obtain ⟨ps₁, hps₁, hlists₁⟩ := replay_spec hbetween hps
    obtain ⟨files', ps', hfiles', hrep', honce, hreplay, hlists'⟩ := ih hlin htree
      (fun d hd => hunique d (List.mem_cons_of_mem _ hd)) hrep₁ hlists₁
    rw [Env.streamCommits, hcommit, List.map_cons, List.getLastD_cons]
    refine ⟨files', ps', hfiles', hrep', fun e he => ?_, ?_, hlists'⟩
    · rcases List.mem_cons.mp he with rfl | he
      · exact hbetween.nodup
      · exact honce e he
    · rw [List.flatMap_cons, replay, List.foldlM_append]
      exact (congrArg (· >>= _) hps₁).trans hreplay

/-! ## The stream of a history -/

theorem emitted_commits {files files' : Files V} {cs : List (Commit B)}
    (h : (env.streamCommits files cs).files = .ok files') :
    (env.streamCommits files cs).emitted.map Prod.fst = cs := by
  induction cs generalizing files with
  | nil => rfl
  | cons c cs ih =>
    rw [Env.streamCommits] at h ⊢
    generalize env.processStreamCommit files c = r at h ⊢
    obtain ⟨changes, r⟩ := r
    cases r with
    | error e => cases h
    | ok next => exact congrArg (c :: ·) (ih h)

omit [DecidableEq V] in
theorem changes_map_snd (r : Run B V) :
    r.changes.map Prod.snd = r.emitted.flatMap Prod.snd := by
  rw [Run.changes, List.map_flatMap]
  congr 1
  funext e
  rw [List.map_map]
  exact List.map_id _

/-- What the stream of a history is for: it raises nothing, a commit changes a name at most once,
the changes give the policies of the head, and after every commit the files have its policies. -/
structure Replays (env : Env B V) (history : List (Commit B)) : Prop where
  commits : (env.stream history).emitted.map Prod.fst = history
  once : ∀ e ∈ (env.stream history).emitted, (e.2.map Change.name).Nodup
  head : ∃ ps, replay [] ((env.stream history).changes.map Prod.snd) = .ok ps ∧
    ps.Perm (env.validPolicies (headTree history))
  completes : ∃ files, (env.stream history).files = .ok files
  files : ∀ first rest, first ++ rest = history → ∃ files,
    (env.stream first).files = .ok files ∧
    env.stream history =
      ⟨(env.stream first).emitted ++ (env.streamCommits files rest).emitted,
        (env.streamCommits files rest).files⟩ ∧
    ∀ f, (files.policies f).Perm (env.filePolicies f (headTree first))

theorem linear_append_left {parents : List (Tree B)} {cs ds : List (Commit B)}
    (h : Linear parents (cs ++ ds)) : Linear parents cs := by
  induction cs generalizing parents with
  | nil => trivial
  | cons c cs ih => exact ⟨h.1, ih h.2⟩

/-- **Streaming a history replays to its head.** -/
theorem stream_replays (env : Env B V) (history : List (Commit B)) (hlin : Linear [] history)
    (hunique : ∀ c ∈ history, env.UniqueNames c.tree) : Replays env history := by
  have hempty : Lists Policy.name ([] : PolicyCollection V) (env.policyMap .empty) := .nil _
  have hrep : Files.Represents ∅ (env.policyMap .empty) := fun f => .nil _
  have hrun : ∀ first rest, first ++ rest = history → ∃ files ps,
      (env.stream first).files = .ok files ∧
      files.Represents (env.policyMap (headTree first)) ∧
      (∀ e ∈ (env.stream first).emitted, (e.2.map Change.name).Nodup) ∧
      replay [] ((env.stream first).emitted.flatMap Prod.snd) = .ok ps ∧
      Lists Policy.name ps (env.policyMap (headTree first)) := by
    rintro first rest rfl
    rw [stream_eq]
    exact streamCommits_spec (linear_append_left hlin) hempty.nodup
      (fun c hc => hunique c (List.mem_append_left _ hc)) hrep hempty
  have htree : ∀ first rest, first ++ rest = history → env.UniqueNames (headTree first) := by
    rintro first rest rfl
    cases hlast : first.getLast? with
    | none =>
      rw [List.getLast?_eq_none_iff.mp hlast]
      exact hempty.nodup
    | some c =>
      have hhead : headTree first = c.tree := by
        rw [headTree, List.getLastD_eq_getLast?, List.getLast?_map, hlast]
        rfl
      rw [hhead]
      exact hunique c (List.mem_append_left _ (List.mem_of_getLast? hlast))
  obtain ⟨files, ps, hfiles, -, honce, hreplay, hps⟩ := hrun history [] (List.append_nil _)
  refine ⟨?_, honce, ⟨ps, ?_, hps.perm (htree history [] (List.append_nil _)).lists⟩,
    ⟨files, hfiles⟩, fun first rest hsplit => ?_⟩
  · rw [stream_eq] at hfiles ⊢
    exact emitted_commits hfiles
  · rw [changes_map_snd]
    exact hreplay
  · obtain ⟨files', ps', hfirst, hrep', -⟩ := hrun first rest hsplit
    refine ⟨files', hfirst, ?_, fun f => ?_⟩
    · rw [stream_eq] at hfirst ⊢
      rw [stream_eq, ← hsplit, streamCommits_append hfirst]
    · exact (hrep' f).perm ((htree first rest hsplit).lists_file f)

/-! ## A repository -/

/-- The differences of two trees of regular files. -/
def treeDiff [DecidableEq B] (old new : Tree B) : List Delta :=
  (old.paths.filter (· ∉ new.paths)).map (fun f => ⟨.deleted, f, f⟩) ++
    (new.paths.filter fun f => old.files.lookup f ≠ new.files.lookup f).map fun f =>
      ⟨if f ∈ old.paths then .modified else .added, f, f⟩

theorem treeDiff_differences [DecidableEq B] (old new : Tree B) :
    Differences old new (treeDiff old new) := by
  have hpaths : (treeDiff old new).map Delta.newFile = old.paths.filter (· ∉ new.paths) ++
      new.paths.filter fun f => old.files.lookup f ≠ new.files.lookup f := by
    rw [treeDiff, List.map_append, List.map_map, List.map_map]
    exact congrArg₂ _ (List.map_id _) (List.map_id _)
  refine ⟨?_, fun d hd => ?_, fun f hf => ?_⟩
  · rw [hpaths, List.nodup_append]
    refine ⟨old.nodup.filter _, new.nodup.filter _, fun f hf g hg he => ?_⟩
    rw [List.mem_filter, decide_eq_true_eq] at hf
    exact hf.2 (he ▸ (List.mem_filter.mp hg).1)
  · rcases List.mem_append.mp hd with hd | hd
    · obtain ⟨f, hf, rfl⟩ := List.mem_map.mp hd
      rw [List.mem_filter, decide_eq_true_eq] at hf
      exact .inr (.inl ⟨rfl, hf⟩)
    · obtain ⟨f, hf, rfl⟩ := List.mem_map.mp hd
      have hnew := (List.mem_filter.mp hf).1
      by_cases hold : f ∈ old.paths
      · exact .inr (.inr ⟨if_pos hold, hold, hnew⟩)
      · exact .inl ⟨if_neg hold, hold, hnew⟩
  · rw [hpaths, List.mem_append, not_or, List.mem_filter, List.mem_filter, decide_eq_true_eq,
      decide_eq_true_eq] at hf
    by_cases hnew : f ∈ new.paths
    · exact not_not.mp fun hne => hf.2 ⟨hnew, hne⟩
    · have hold : f ∉ old.paths := fun hold => hf.1 ⟨hold, hnew⟩
      rw [Tree.lookup_eq_none_iff.mpr hnew, Tree.lookup_eq_none_iff.mpr hold]

/-- The values of the documents of the sample, whose policies have a name and a resource. -/
inductive Doc where
  | text (s : Text)
  | policy (name resource : Text)
  | policies (items : List (Text × Text))
  | file (items : List (Text × Text))
  deriving DecidableEq

/-- A repository with some files that cannot be read. -/
def sampleEnv : Env (Option (List (Text × Text))) Doc where
  matcher f := f.reverse.take 4 = "lmy.".toList
  safeLoad
    | some items => .ok (.file items)
    | none => .error (.raised "ScannerError".toList)
  get
    | .file items, _ => .ok (some (.policies items))
    | _, _ => .error .attributeError
  iter
    | .policies items => .ok (items.map fun e => .policy e.1 e.2)
    | _ => .error .typeError
  index
    | .policy name resource, key =>
      if key = "name".toList then .ok (.text name)
      else if key = "resource".toList then .ok (.text resource)
      else .error .keyError
    | _, _ => .error .typeError
  hashable
    | .text _ => true
    | _ => false
  diff := treeDiff
  diff_spec := treeDiff_differences
  setOrder _ names := names
  setOrder_perm _ _ := .refl _

/-- Policies are added to a file in a directory and to an unreadable file. -/
def firstTree : Tree (Option (List (Text × Text))) :=
  ⟨[("aws/ec2.yml".toList, some [("old-ami".toList, "ec2".toList)]),
    ("broken.yml".toList, none),
    ("s3.yml".toList, some [("open-acl".toList, "s3".toList), ("no-tags".toList, "s3".toList)])],
    by decide⟩

/-- A file is gone, one of its policies is moved, another is removed and the first one is edited. -/
def secondTree : Tree (Option (List (Text × Text))) :=
  ⟨[("aws/ec2.yml".toList, some [("old-ami".toList, "ami".toList)]),
    ("broken.yml".toList, some [("open-acl".toList, "s3".toList)])], by decide⟩

def sampleHistory : List (Commit (Option (List (Text × Text)))) :=
  [⟨"a1".toList, 10, [], firstTree⟩, ⟨"b2".toList, 20, [firstTree], secondTree⟩]

/-- The sample replays to its head. -/
theorem sampleHistory_replays : Replays sampleEnv sampleHistory := by
  refine stream_replays sampleEnv sampleHistory ⟨rfl, rfl, trivial⟩ ?_
  have hfirst : sampleEnv.UniqueNames firstTree := by
    rw [Env.UniqueNames]
    decide +kernel
  have hsecond : sampleEnv.UniqueNames secondTree := by
    rw [Env.UniqueNames]
    decide +kernel
  exact List.forall_mem_cons.mpr ⟨hfirst, List.forall_mem_singleton.mpr hsecond⟩

end Custodian.PolicyStream

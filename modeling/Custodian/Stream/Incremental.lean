import Custodian.Stream.Replay

/-!
# Streams in increments

What a stream yields with a date bound or a limit, against what it yields without one.  The
comparisons with the dates leave the wrong commits out, and a limit keeps the oldest commits.
-/

namespace Custodian.PolicyStream

open Py

variable {B V : Type} [DecidableEq V] {env : Env B V}

/-! ## Commits without valid policies -/

omit [DecidableEq V] in
theorem Compares.change_eq_nil {files : Files V} {c : Commit B} {g : Gathered V}
    (h : Compares env files c g) (hvalid : env.validPolicies c.tree = []) : g.change = [] := by
  refine List.eq_nil_iff_forall_not_mem.mpr fun p hp => ?_
  have hp := ((h.mem_change p).mp hp).1
  rw [hvalid] at hp
  cases hp

omit [DecidableEq V] in
theorem Compares.current_eq_nil_iff {files : Files V} {c : Commit B} {g : Gathered V}
    (h : Compares env files c g) :
    g.current = [] ↔ ∀ f, env.Touches c f → files.policies f = [] := by
  simp only [List.eq_nil_iff_forall_not_mem, h.mem_current, not_exists, not_and]
  exact ⟨fun h f hf p => h p f hf, fun h p f hf => h f hf p⟩

theorem Env.delta_nil_right (env : Env B V) (c : Commit B) (prev : PolicyCollection V) :
    env.delta c prev [] = [] ↔ prev = [] := by
  constructor
  · intro h
    refine List.eq_nil_iff_forall_not_mem.mpr fun p hp => ?_
    have hkey := PolicyCollection.mem_keys.mpr (List.mem_map_of_mem (f := Policy.name) hp)
    obtain ⟨q, hq⟩ := PolicyCollection.exists_getItem hkey
    obtain ⟨-, hname⟩ := PolicyCollection.of_getItem hq
    have hmem : Change.remove q ∈ env.delta c prev [] :=
      env.mem_delta_iff.mpr (.inl ⟨q, List.not_mem_nil, hname ▸ hq, rfl⟩)
    rw [h] at hmem
    cases hmem
  · rintro rfl
    refine List.eq_nil_iff_forall_not_mem.mpr fun change h => ?_
    rcases env.mem_delta_iff.mp h with ⟨p, -, hp, -⟩ | ⟨p, -, hp, -⟩ | ⟨p, q, hp, -⟩ <;> cases hp

theorem eq_nil_of_processStreamDelta {files files' : Files V} {changes : List (Change V)}
    (h : files.processStreamDelta changes = ([], .ok files')) : changes = [] := by
  cases changes with
  | nil => rfl
  | cons change changes =>
    unfold Files.processStreamDelta at h
    split at h
    · cases h
    · cases h

theorem processStreamCommit_nil_iff {files : Files V} {c : Commit B}
    (hvalid : env.validPolicies c.tree = []) :
    (∃ files', env.processStreamCommit files c = ([], .ok files')) ↔
      ∀ f, env.Touches c f → files.policies f = [] := by
  obtain ⟨g, hg, hcompares⟩ := exists_compares env files c
  rw [← hcompares.current_eq_nil_iff, ← env.delta_nil_right c]
  unfold Env.processStreamCommit
  simp only [hg, hcompares.change_eq_nil hvalid]
  constructor
  · rintro ⟨files', h⟩
    generalize hr : files.processStreamDelta (env.delta c g.current []) = r at h
    obtain ⟨emitted, r⟩ := r
    obtain ⟨rfl, hdelete⟩ := Prod.mk.inj h
    obtain ⟨files₁, rfl, -⟩ := bind_eq_ok.mp hdelete
    exact eq_nil_of_processStreamDelta hr
  · intro h
    obtain ⟨files', hfiles', -⟩ := Files.foldlM_delete
      (fun f hf => (hcompares.mem_removed f hf).2.1) hcompares.nodup
    refine ⟨files', ?_⟩
    rw [h]
    exact congrArg (Prod.mk []) hfiles'

theorem policies_of_processStreamCommit_nil {files files' : Files V} {c : Commit B}
    (hvalid : env.validPolicies c.tree = [])
    (h : env.processStreamCommit files c = ([], .ok files')) (f : Text) :
    files'.policies f = files.policies f := by
  have htouched := (processStreamCommit_nil_iff hvalid).mp ⟨files', h⟩
  obtain ⟨g, hg, hcompares⟩ := exists_compares env files c
  have hdelta : env.delta c g.current g.change = [] := by
    rw [hcompares.change_eq_nil hvalid, hcompares.current_eq_nil_iff.mpr htouched]
    exact (env.delta_nil_right c []).mpr rfl
  obtain ⟨files₁, hfiles₁, hpolicies⟩ := Files.foldlM_delete
    (fun f hf => (hcompares.mem_removed f hf).2.1) hcompares.nodup
  have hsame : files₁ = files' := by
    unfold Env.processStreamCommit at h
    rw [hg] at h
    simp only [hdelta] at h
    exact Except.ok.inj (hfiles₁.symm.trans (Prod.mk.inj h).2)
  rw [← hsame, hpolicies f]
  split
  · rename_i hf
    exact (htouched f (hcompares.mem_removed f hf).1).symm
  · rfl

/-! ## Lines of commits without valid policies -/

/-- The run has yielded the changes and has raised nothing. -/
structure Run.Yields (r : Run B V) (changes : List (Commit B × Change V)) : Prop where
  changes_eq : r.changes = changes
  completes : ∃ files, r.files = .ok files

/-- No commit has a valid policy. -/
def Env.NoPolicies (env : Env B V) (cs : List (Commit B)) : Prop :=
  ∀ c ∈ cs, env.validPolicies c.tree = []

theorem streamCommits_yields_nil_cons {files : Files V} {c : Commit B} {cs : List (Commit B)} :
    (env.streamCommits files (c :: cs)).Yields [] ↔
      ∃ files', env.processStreamCommit files c = ([], .ok files') ∧
        (env.streamCommits files' cs).Yields [] := by
  rw [Env.streamCommits]
  generalize env.processStreamCommit files c = r
  obtain ⟨changes, r⟩ := r
  cases r with
  | error e =>
    constructor
    · intro hyields
      obtain ⟨files', hfiles⟩ := hyields.completes
      cases hfiles
    · rintro ⟨files', h, -⟩
      cases h
  | ok next =>
    simp only
    constructor
    · rintro ⟨hchanges, hfiles⟩
      obtain ⟨hmap, hrest⟩ := List.append_eq_nil_iff.mp hchanges
      have hnil : changes = [] := List.map_eq_nil_iff.mp hmap
      exact ⟨next, by rw [hnil], hrest, hfiles⟩
    · rintro ⟨files', h, hrest⟩
      obtain ⟨rfl, hfiles⟩ := Prod.mk.inj h
      obtain rfl := Except.ok.inj hfiles
      exact ⟨hrest.changes_eq, hrest.completes⟩

theorem streamCommits_of_noPolicies {files : Files V} {cs : List (Commit B)}
    (hfiles : ∀ f, files.policies f = []) (h : env.NoPolicies cs) :
    ∃ files', (env.streamCommits files cs).files = .ok files' ∧
      (∀ f, files'.policies f = []) ∧ (env.streamCommits files cs).Yields [] := by
  induction cs generalizing files with
  | nil => exact ⟨files, rfl, hfiles, rfl, files, rfl⟩
  | cons c cs ih =>
    have hvalid := h c (List.mem_cons_self ..)
    obtain ⟨files₁, hcommit⟩ := (processStreamCommit_nil_iff hvalid).mpr fun f _ => hfiles f
    have hfiles₁ : ∀ f, files₁.policies f = [] := fun f =>
      (policies_of_processStreamCommit_nil hvalid hcommit f).trans (hfiles f)
    obtain ⟨files', hrun, hfiles', hyields⟩ := ih hfiles₁ fun d hd => h d (List.mem_cons_of_mem _ hd)
    refine ⟨files', ?_, hfiles', streamCommits_yields_nil_cons.mpr ⟨files₁, hcommit, hyields⟩⟩
    rw [Env.streamCommits, hcommit]
    exact hrun

omit [DecidableEq V] in
theorem Env.Touches.mem_paths {c : Commit B} {f : Text} (h : env.Touches c f) :
    f ∈ c.base.paths ∨ f ∈ c.tree.paths := by
  obtain ⟨d, hd, rfl⟩ := List.mem_map.mp h.1
  rcases (env.diff_spec c.base c.tree).status d hd with ⟨-, -, h⟩ | ⟨-, h, -⟩ | ⟨-, h, -⟩
  · exact .inr h
  · exact .inl h
  · exact .inl h

omit [DecidableEq V] in
theorem Env.touches_of_new {c : Commit B} {f : Text} (hmatch : env.matcher f)
    (hbase : f ∉ c.base.paths) (htree : f ∈ c.tree.paths) : env.Touches c f := by
  refine ⟨?_, hmatch⟩
  by_contra hf
  have hsame := (env.diff_spec c.base c.tree).complete f hf
  rw [Tree.lookup_eq_none_iff.mpr hbase] at hsame
  exact Tree.lookup_eq_none_iff.mp hsame.symm htree

/-- **A line without valid policies yields nothing exactly when its files have no known policies.** -/
theorem yields_nil_iff (files : Files V) {parents : List (Tree B)} {cs : List (Commit B)}
    (hlin : Linear parents cs) (h : env.NoPolicies cs)
    (hbase : ∀ f ∈ (parents.headD .empty).paths, env.matcher f → files.policies f = []) :
    (env.streamCommits files cs).Yields [] ↔
      ∀ c ∈ cs, ∀ f ∈ c.tree.paths, env.matcher f → files.policies f = [] := by
  induction cs generalizing files parents with
  | nil =>
    refine ⟨fun _ c hc => absurd hc List.not_mem_nil, fun _ => ⟨rfl, files, rfl⟩⟩
  | cons c cs ih =>
    obtain ⟨rfl, hlin⟩ := hlin
    have hvalid := h c (List.mem_cons_self ..)
    have hrest : env.NoPolicies cs := fun d hd => h d (List.mem_cons_of_mem _ hd)
    rw [streamCommits_yields_nil_cons, List.forall_mem_cons]
    constructor
    · rintro ⟨files', hcommit, hyields⟩
      have hsame := policies_of_processStreamCommit_nil hvalid hcommit
      have htouched := (processStreamCommit_nil_iff hvalid).mp ⟨files', hcommit⟩
      have htree : ∀ f ∈ c.tree.paths, env.matcher f → files.policies f = [] := by
        intro f hf hmatch
        by_cases hold : f ∈ c.base.paths
        · exact hbase f hold hmatch
        · exact htouched f (env.touches_of_new hmatch hold hf)
      refine ⟨htree, ?_⟩
      simp only [← hsame] at htree ⊢
      exact (ih files' hlin hrest htree).mp hyields
    · rintro ⟨htree, hcs⟩
      obtain ⟨files', hcommit⟩ := (processStreamCommit_nil_iff hvalid).mpr fun f hf =>
        hf.mem_paths.elim (fun hold => hbase f hold hf.2) (fun hnew => htree f hnew hf.2)
      have hsame := policies_of_processStreamCommit_nil hvalid hcommit
      refine ⟨files', hcommit, ?_⟩
      simp only [← hsame] at htree hcs
      exact (ih files' hlin hrest htree).mpr hcs

/-! ## The first commit with a valid policy -/

/-- **A commit with the first valid policies yields a change.** -/
theorem processStreamCommit_ne_nil {files : Files V} {c : Commit B}
    (hfiles : ∀ f, files.policies f = []) (hbase : env.validPolicies c.base = [])
    (htree : env.validPolicies c.tree ≠ []) : (env.processStreamCommit files c).1 ≠ [] := by
  obtain ⟨g, hg, hcompares⟩ := exists_compares env files c
  have hcurrent : g.current = [] := hcompares.current_eq_nil_iff.mpr fun f _ => hfiles f
  obtain ⟨p, hp⟩ := List.exists_mem_of_ne_nil _ htree
  have htouched : env.Touches c p.filePath := by
    by_contra hf
    rw [env.mem_validPolicies_iff, ← env.filePolicies_of_not_touches hf,
      ← env.mem_validPolicies_iff, hbase] at hp
    cases hp
  have hkey := PolicyCollection.mem_keys.mpr
    (List.mem_map_of_mem (f := Policy.name) ((hcompares.mem_change p).mpr ⟨hp, htouched⟩))
  obtain ⟨q, hq⟩ := PolicyCollection.exists_getItem hkey
  obtain ⟨-, hname⟩ := PolicyCollection.of_getItem hq
  have hadd : Change.add q ∈ env.delta c g.current g.change := by
    rw [hcurrent]
    exact env.mem_delta_iff.mpr (.inr (.inl ⟨q, List.not_mem_nil, hname ▸ hq, rfl⟩))
  unfold Env.processStreamCommit
  simp only [hg]
  cases hdelta : env.delta c g.current g.change with
  | nil =>
    rw [hdelta] at hadd
    cases hadd
  | cons change changes =>
    have hchange : ∃ q, change = .add q := by
      have hmem : change ∈ env.delta c g.current g.change := hdelta ▸ List.mem_cons_self ..
      rw [hcurrent] at hmem
      rcases env.mem_delta_iff.mp hmem with ⟨_, -, h, -⟩ | ⟨q, -, -, h⟩ | ⟨_, _, -, h, -⟩
      · cases h
      · exact ⟨q, h⟩
      · cases h
    obtain ⟨q, rfl⟩ := hchange
    have happly : files.apply (.add q) = .ok (files.insert q.filePath ([] ++ [q])) := by
      rw [Files.apply, Files.add, hfiles]
      rfl
    simp only [Files.processStreamDelta, happly, ne_eq, reduceCtorEq, not_false_iff]

theorem exists_change {first : List (Commit B)} (rest : List (Commit B)) {c : Commit B}
    (hfirst : env.NoPolicies first) (hbase : env.validPolicies c.base = []) (htree : env.validPolicies c.tree ≠ []) :
    ∃ change, (c, change) ∈ (env.streamCommits ∅ (first ++ c :: rest)).changes := by
  obtain ⟨files, hfiles, hpolicies, -⟩ :=
    streamCommits_of_noPolicies (Files.policies_empty (V := V)) hfirst
  obtain ⟨change, hchange⟩ :=
    List.exists_mem_of_ne_nil _ (processStreamCommit_ne_nil hpolicies hbase htree)
  refine ⟨change, ?_⟩
  rw [streamCommits_append hfiles, Run.changes, List.flatMap_append, List.mem_append,
    Env.streamCommits]
  refine .inr ?_
  generalize env.processStreamCommit files c = r at hchange ⊢
  obtain ⟨changes, r⟩ := r
  have hmem : (c, change) ∈ changes.map fun change => (c, change) := List.mem_map_of_mem hchange
  cases r with
  | error e => exact List.mem_append_left _ hmem
  | ok next => exact List.mem_append_left _ hmem

omit [DecidableEq V] in
theorem exists_first {cs : List (Commit B)} (h : ¬env.NoPolicies cs) : ∃ first c rest,
    cs = first ++ c :: rest ∧ env.NoPolicies first ∧ env.validPolicies c.tree ≠ [] := by
  induction cs with
  | nil => exact absurd (fun c hc => absurd hc List.not_mem_nil) h
  | cons c cs ih =>
    by_cases hc : env.validPolicies c.tree = []
    · have hcs : ¬env.NoPolicies cs := fun hcs => h (List.forall_mem_cons.mpr ⟨hc, hcs⟩)
      obtain ⟨first, d, rest, rfl, hfirst, hd⟩ := ih hcs
      exact ⟨c :: first, d, rest, rfl, List.forall_mem_cons.mpr ⟨hc, hfirst⟩, hd⟩
    · exact ⟨[], c, cs, rfl, fun d hd => absurd hd List.not_mem_nil, hc⟩

omit [DecidableEq V] in
theorem base_of_linear {parents : List (Tree B)} {first rest : List (Commit B)} {c : Commit B}
    (hlin : Linear parents (first ++ c :: rest)) (hfirst : env.NoPolicies first)
    (hparent : env.validPolicies (parents.headD .empty) = []) : env.validPolicies c.base = [] := by
  induction first generalizing parents with
  | nil =>
    rw [Commit.base, hlin.1]
    exact hparent
  | cons a first ih =>
    exact ih hlin.2 (fun d hd => hfirst d (List.mem_cons_of_mem _ hd))
      (hfirst a (List.mem_cons_self ..))

theorem commit_mem_of_changes {files : Files V} {cs : List (Commit B)} {e : Commit B × Change V}
    (h : e ∈ (env.streamCommits files cs).changes) : e.1 ∈ cs := by
  induction cs generalizing files with
  | nil => cases h
  | cons c cs ih =>
    rw [Env.streamCommits] at h
    generalize env.processStreamCommit files c = r at h
    obtain ⟨changes, r⟩ := r
    have hhead : e ∈ changes.map (fun change => (c, change)) → e.1 ∈ c :: cs := by
      intro he
      obtain ⟨change, -, rfl⟩ := List.mem_map.mp he
      exact List.mem_cons_self ..
    cases r with
    | error _ =>
      rcases List.mem_append.mp h with h | h
      · exact hhead h
      · cases h
    | ok next =>
      rcases List.mem_append.mp h with h | h
      · exact hhead h
      · exact List.mem_cons_of_mem _ (ih h)

/-! ## Date bounds -/

/-- **A part of the commits that is streamed alone gives the changes of the other part only if
there are no changes at all.** -/
theorem part_yields_iff {history : List (Commit B)} (hlin : Linear [] history)
    (keep : Commit B → Bool) :
    (env.streamCommits ∅ (history.filter keep)).Yields
        ((env.stream history).changes.filter fun e => !keep e.1) ↔
      env.NoPolicies history := by
  rw [stream_eq]
  constructor
  · rintro ⟨hchanges, -⟩
    by_contra hpolicies
    obtain ⟨first, c, rest, rfl, hfirst, hc⟩ := exists_first hpolicies
    have hbase := base_of_linear hlin hfirst rfl
    cases hkeep : keep c with
    | true =>
      obtain ⟨change, hmem⟩ := exists_change (rest.filter keep)
        (fun d hd => hfirst d (List.mem_filter.mp hd).1 : env.NoPolicies (first.filter keep)) hbase hc
      rw [List.filter_append, List.filter_cons_of_pos hkeep] at hchanges
      rw [hchanges, List.mem_filter, hkeep] at hmem
      exact Bool.false_ne_true hmem.2
    | false =>
      obtain ⟨change, hmem⟩ := exists_change rest hfirst hbase hc
      have hother : (c, change) ∈
          (env.streamCommits ∅ ((first ++ c :: rest).filter keep)).changes := by
        rw [hchanges, List.mem_filter, hkeep]
        exact ⟨hmem, rfl⟩
      have hkept := (List.mem_filter.mp (commit_mem_of_changes hother)).2
      exact Bool.false_ne_true (hkeep.symm.trans hkept)
  · intro h
    obtain ⟨-, -, -, hall⟩ := streamCommits_of_noPolicies (Files.policies_empty (V := V)) h
    obtain ⟨-, -, -, hpart⟩ := streamCommits_of_noPolicies (Files.policies_empty (V := V))
      (fun c hc => h c (List.mem_filter.mp hc).1 : env.NoPolicies (history.filter keep))
    rw [hall.changes_eq]
    exact hpart

/-- **The stream after a date is right only if there is nothing to stream.** -/
theorem after_yields_iff {history : List (Commit B)} (hlin : Linear [] history) (d : Int) :
    (env.deltaStream ∅ history { limit := 0, after := some d }).Yields
        ((env.stream history).changes.filter fun e => d < e.1.date) ↔
      env.NoPolicies history := by
  have hkeep : ∀ c : Commit B, (!Bounds.skips { limit := 0, after := some d } c) =
      !decide (d < c.date) := fun c => congrArg _ (Bool.or_false _)
  rw [deltaStream_eq rfl, ← part_yields_iff hlin fun c => !decide (d < c.date)]
  simp only [hkeep, Bool.not_not]

/-- **So is the stream before a date.** -/
theorem before_yields_iff {history : List (Commit B)} (hlin : Linear [] history) (d : Int) :
    (env.deltaStream ∅ history { limit := 0, before := some d }).Yields
        ((env.stream history).changes.filter fun e => e.1.date < d) ↔
      env.NoPolicies history := by
  have hkeep : ∀ c : Commit B, (!Bounds.skips { limit := 0, before := some d } c) =
      !decide (c.date < d) := fun c => congrArg _ (Bool.false_or _)
  rw [deltaStream_eq rfl, ← part_yields_iff hlin fun c => !decide (c.date < d)]
  simp only [hkeep, Bool.not_not]

/-! ## Limits -/

theorem collect_limit {k : Nat} (hk : 0 < k) {commits : List (Commit B)} (h : commits.length ≤ k)
    (walk : List (Commit B)) :
    collect { limit := k } commits walk = (commits ++ walk).take (k + 1) := by
  induction walk generalizing commits with
  | nil => rw [collect, List.append_nil, List.take_of_length_le (by omega)]
  | cons c walk ih =>
    have hlength : (commits ++ [c]).length = commits.length + 1 := by
      rw [List.length_append, List.length_singleton]
    have happend : commits ++ c :: walk = commits ++ [c] ++ walk := by
      rw [List.append_assoc, List.singleton_append]
    have hskips : Bounds.skips { limit := k } c = false := rfl
    rw [collect, hskips, if_neg Bool.false_ne_true, happend]
    by_cases hfull : commits.length = k
    · have hmore : k ≠ 0 ∧ k < (commits ++ [c]).length := by omega
      rw [if_pos hmore, List.take_append_of_le_length (by omega), List.take_of_length_le (by omega)]
    · have hmore : ¬(k ≠ 0 ∧ k < (commits ++ [c]).length) := by omega
      rw [if_neg hmore, ih (by omega)]

theorem deltaStream_limit {k : Nat} (hk : 0 < k) {history : List (Commit B)}
    (h : k < history.length) : env.deltaStream ∅ history { limit := k } =
      match env.initializeTree ∅ history[k].tree with
      | .error e => ⟨[], .error e⟩
      | .ok files => env.streamCommits files (history.take k) := by
  have hnil : ([] : List (Commit B)).length ≤ k := Nat.zero_le k
  have hcollect : collect { limit := k } [] history = history.take (k + 1) :=
    collect_limit hk hnil history
  have hlength : (history.take (k + 1)).length = k + 1 := by
    rw [List.length_take]
    omega
  have hdrop : (history.take (k + 1)).dropLast = history.take k := by
    rw [List.dropLast_eq_take, hlength, List.take_take]
    congr 1
    omega
  have hget : (history.take (k + 1))[k]? = some history[k] := by
    rw [List.getElem?_take_of_lt k.lt_succ_self, List.getElem?_eq_getElem h]
  unfold Env.deltaStream
  simp only [hcollect, hlength, hdrop, hget]
  exact if_pos ⟨Nat.pos_iff_ne_zero.mp hk, k.lt_succ_self⟩

theorem linear_take {parents : List (Tree B)} {cs : List (Commit B)} (h : Linear parents cs)
    (k : Nat) : Linear parents (cs.take k) :=
  linear_append_left (List.take_append_drop k cs ▸ h)

theorem limit_yields_nil_iff {history : List (Commit B)} (hlin : Linear [] history)
    (hpolicies : env.NoPolicies history) {k : Nat} (hk : 0 < k) (h : k < history.length) :
    (env.deltaStream ∅ history { limit := k }).Yields [] ↔
      ∃ files, env.initializeTree ∅ history[k].tree = .ok files ∧
        ∀ c ∈ history.take k, ∀ f ∈ c.tree.paths, env.matcher f → files.policies f = [] := by
  rw [deltaStream_limit hk h]
  cases env.initializeTree ∅ history[k].tree with
  | error e =>
    constructor
    · intro hyields
      obtain ⟨files, hfiles⟩ := hyields.completes
      cases hfiles
    · rintro ⟨files, hfiles, -⟩
      cases hfiles
  | ok files =>
    have hrun := yields_nil_iff files (linear_take hlin k)
      (fun c hc => hpolicies c (List.mem_of_mem_take hc)) (fun f hf => absurd hf List.not_mem_nil)
    constructor
    · exact fun hyields => ⟨files, rfl, hrun.mp hyields⟩
    · rintro ⟨_, ⟨⟩, hfiles⟩
      exact hrun.mpr hfiles

/-! ## The whole stream in increments -/

/-- The date that a sink has seen last. -/
def lastDate (changes : List (Commit B × Change V)) : Option Int :=
  (changes.map fun e => e.1.date).max?

/-- What streams with bounds are for: a bound leaves out the changes of the commits that are not
within it, and what is yielded after the last date continues an earlier stream. -/
structure Incremental (env : Env B V) (history : List (Commit B)) : Prop where
  after : ∀ d, (env.deltaStream ∅ history { limit := 0, after := some d }).Yields
    ((env.stream history).changes.filter fun e => d < e.1.date)
  before : ∀ d, (env.deltaStream ∅ history { limit := 0, before := some d }).Yields
    ((env.stream history).changes.filter fun e => e.1.date < d)
  limit : ∀ k, 0 < k → k < history.length → (env.deltaStream ∅ history { limit := k }).Yields
    ((env.stream history).changes.filter fun e =>
      e.1.date ∈ (history.drop (history.length - k)).map Commit.date)
  resume : ∀ first rest, first ++ rest = history →
    (env.stream first).changes ++ (env.deltaStream ∅ history
      { limit := 0, after := lastDate (env.stream first).changes }).changes =
    (env.stream history).changes

/-- No commit has a valid policy, the policy files at the top of every later tree can be loaded,
and those that one of the commits before has are loaded without policies. -/
structure Idle (env : Env B V) (history : List (Commit B)) : Prop where
  noPolicies : env.NoPolicies history
  baseline : ∀ k, 0 < k → ∀ h : k < history.length, ∃ files,
    env.initializeTree ∅ history[k].tree = .ok files ∧
    ∀ c ∈ history.take k, ∀ f ∈ c.tree.paths, env.matcher f → files.policies f = []

/-- **Streams in increments give the whole stream only if there is nothing to stream.** -/
theorem incremental_iff (env : Env B V) (history : List (Commit B)) (hlin : Linear [] history) :
    Incremental env history ↔ Idle env history := by
  have hnone : ∀ {cs : List (Commit B)}, env.NoPolicies cs → (env.stream cs).changes = [] := by
    intro cs h
    obtain ⟨-, -, -, hyields⟩ := streamCommits_of_noPolicies (Files.policies_empty (V := V)) h
    rw [stream_eq, hyields.changes_eq]
  constructor
  · intro h
    have hpolicies := (after_yields_iff hlin 0).mp (h.after 0)
    refine ⟨hpolicies, fun k hk hlt => (limit_yields_nil_iff hlin hpolicies hk hlt).mp ?_⟩
    have hlimit := h.limit k hk hlt
    rw [hnone hpolicies, List.filter_nil] at hlimit
    exact hlimit
  · rintro ⟨hpolicies, hbaseline⟩
    refine ⟨fun d => (after_yields_iff hlin d).mpr hpolicies,
      fun d => (before_yields_iff hlin d).mpr hpolicies, fun k hk hlt => ?_, ?_⟩
    · rw [hnone hpolicies, List.filter_nil]
      exact (limit_yields_nil_iff hlin hpolicies hk hlt).mpr (hbaseline k hk hlt)
    · rintro first rest rfl
      have hfirst : env.NoPolicies first := fun c hc => hpolicies c (List.mem_append_left _ hc)
      rw [hnone hfirst, List.nil_append]
      rfl

/-- A history whose policy file stays empty. -/
def idleHistory : List (Commit (Option (List (Text × Text)))) :=
  let first := ⟨[("policies.yml".toList, some [])], by decide⟩
  let second := ⟨[("README".toList, none), ("policies.yml".toList, some [])], by decide⟩
  [⟨"a1".toList, 10, [], first⟩, ⟨"b2".toList, 20, [first], second⟩]

/-- With nothing to stream every increment is right. -/
theorem idleHistory_incremental : Incremental sampleEnv idleHistory := by
  refine (incremental_iff sampleEnv idleHistory ⟨rfl, rfl, trivial⟩).mpr ⟨?_, fun k hk h => ?_⟩
  · exact List.forall_mem_cons.mpr ⟨by decide +kernel, List.forall_mem_singleton.mpr
      (by decide +kernel)⟩
  · obtain rfl : k = 1 := by
      have hlength : idleHistory.length = 2 := rfl
      omega
    refine ⟨AList.insert "policies.yml".toList [] ∅, rfl, fun c _ f _ _ => ?_⟩
    rw [Files.policies_insert]
    exact ite_self _

/-- With the date of the first commit as the lower bound its own changes are streamed, and the
ones of the second commit are not. -/
theorem sampleHistory_not_incremental : ¬Incremental sampleEnv sampleHistory := by
  intro h
  have hdates := congrArg (List.map fun e => e.1.date) (h.after 10).changes_eq
  exact absurd hdates (by decide +kernel)

end Custodian.PolicyStream

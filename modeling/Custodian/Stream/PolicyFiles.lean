import Custodian.Stream.PolicyRepo
import Mathlib.Data.List.Dedup

/-!
# Policy files and what a commit compares
-/

namespace Custodian.PolicyStream

open Py

variable {B V : Type} {env : Env B V}

/-! ## The policies of a tree -/

theorem Tree.lookup_eq_none_iff {t : Tree B} {f : Text} : t.files.lookup f = none ↔ f ∉ t.paths := by
  rw [List.lookup_eq_none_iff, Tree.paths, List.mem_map]
  simp only [bne_iff_ne, ne_eq, not_exists, not_and]
  exact forall₂_congr fun e _ => not_congr eq_comm

theorem Env.policy_filePath {f : Text} {data : V} {p : Policy V}
    (h : env.policy f data = .ok p) : p.filePath = f := by
  obtain ⟨name, -, h⟩ := bind_eq_ok.mp h
  split at h
  · cases h
    rfl
  · cases h

theorem Env.fromData_filePath {doc : V} {f : Text} {ps : PolicyCollection V}
    (h : env.fromData doc f = .ok ps) : ∀ p ∈ ps, p.filePath = f := by
  obtain ⟨policies, -, h⟩ := bind_eq_ok.mp h
  cases policies with
  | none =>
    cases h
    exact fun p hp => absurd hp List.not_mem_nil
  | some policies =>
    obtain ⟨items, -, h⟩ := bind_eq_ok.mp h
    exact forall_of_mapM_eq_ok h fun _ _ _ hp => env.policy_filePath hp

theorem Env.loadPolicies_filePath {f : Text} {blob : B} {ps : PolicyCollection V}
    (h : env.loadPolicies f blob = .ok ps) : ∀ p ∈ ps, p.filePath = f := by
  obtain ⟨doc, -, h⟩ := bind_eq_ok.mp h
  exact env.fromData_filePath h

theorem Env.validatePolicies_subset {ps qs : PolicyCollection V}
    (h : env.validatePolicies ps = .ok qs) : qs ⊆ ps := by
  induction ps generalizing qs with
  | nil =>
    cases h
    exact List.Subset.refl _
  | cons p ps ih =>
    unfold Env.validatePolicies at h
    split at h
    · exact List.subset_cons_of_subset p (ih h)
    · cases h
    · obtain ⟨rest, hrest, h⟩ := bind_eq_ok.mp h
      cases h
      exact List.cons_subset_cons p (ih hrest)

theorem Env.policyFileRev_filePath {f : Text} {t : Tree B} {p : Policy V}
    (h : p ∈ env.policyFileRev f t) : p.filePath = f := by
  unfold Env.policyFileRev at h
  split at h
  · cases h
  · split at h
    · cases h
    · rename_i ps hps
      obtain ⟨loaded, hloaded, hvalid⟩ := bind_eq_ok.mp hps
      exact env.loadPolicies_filePath hloaded p (env.validatePolicies_subset hvalid h)

theorem Env.policyFileRev_congr {f : Text} {t t' : Tree B}
    (h : t.files.lookup f = t'.files.lookup f) : env.policyFileRev f t = env.policyFileRev f t' := by
  rw [Env.policyFileRev, h, Env.policyFileRev]

theorem Env.policyFileRev_of_notMem {f : Text} {t : Tree B} (h : f ∉ t.paths) :
    env.policyFileRev f t = [] := by
  rw [Env.policyFileRev, Tree.lookup_eq_none_iff.mpr h]

theorem Env.mem_filePolicies_iff {f : Text} {t : Tree B} {p : Policy V} :
    p ∈ env.filePolicies f t ↔ env.matcher f ∧ p ∈ env.policyFileRev f t := by
  rw [Env.filePolicies]
  split
  · rename_i hf
    rw [hf]
    simp only [true_and]
  · rename_i hf
    exact ⟨fun hp => absurd hp List.not_mem_nil, fun hp => absurd hp.1 hf⟩

theorem Env.mem_validPolicies_iff {t : Tree B} {p : Policy V} :
    p ∈ env.validPolicies t ↔ p ∈ env.filePolicies p.filePath t := by
  rw [Env.validPolicies, List.mem_flatMap]
  constructor
  · rintro ⟨f, -, hp⟩
    rw [env.policyFileRev_filePath (env.mem_filePolicies_iff.mp hp).2]
    exact hp
  · intro hp
    refine ⟨p.filePath, ?_, hp⟩
    by_contra hf
    have hrev := (env.mem_filePolicies_iff.mp hp).2
    rw [env.policyFileRev_of_notMem hf] at hrev
    cases hrev

theorem Env.filePolicies_sublist (f : Text) (t : Tree B) :
    (env.filePolicies f t).Sublist (env.validPolicies t) := by
  by_cases hf : f ∈ t.paths
  · exact List.sublist_flatten_of_mem (List.mem_map_of_mem hf)
  · have hnil : env.filePolicies f t = [] := by
      rw [Env.filePolicies, env.policyFileRev_of_notMem hf]
      exact ite_self _
    rw [hnil]
    exact List.nil_sublist _

/-! ## Files -/

namespace Files

theorem policies_insert (files : Files V) (f : Text) (ps : PolicyCollection V) (f' : Text) :
    Files.policies (files.insert f ps) f' = if f' = f then ps else files.policies f' := by
  rw [policies]
  split
  · rename_i hf
    rw [hf, AList.lookup_insert, Option.getD_some]
  · rename_i hf
    rw [AList.lookup_insert_ne hf, policies]

theorem policies_empty (f : Text) : Files.policies (V := V) ∅ f = [] := rfl

theorem lookup_of_mem_policies {files : Files V} {f : Text} {p : Policy V}
    (h : p ∈ files.policies f) : files.lookup f = some (files.policies f) := by
  rw [policies] at h ⊢
  cases hf : files.lookup f with
  | none =>
    rw [hf] at h
    cases h
  | some ps => rfl

theorem foldlM_delete {files : Files V} {removed : List Text} (hmem : ∀ f ∈ removed, f ∈ files)
    (hnodup : removed.Nodup) : ∃ files', removed.foldlM Files.delete files = .ok files' ∧
      ∀ f, files'.policies f = if f ∈ removed then [] else files.policies f := by
  induction removed generalizing files with
  | nil => exact ⟨files, rfl, fun f => (if_neg List.not_mem_nil).symm⟩
  | cons r removed ih =>
    obtain ⟨hr, hnodup⟩ := List.nodup_cons.mp hnodup
    have hmem' : ∀ f ∈ removed, f ∈ files.erase r := fun f hf =>
      AList.mem_erase.mpr ⟨fun he => hr (he ▸ hf), hmem f (List.mem_cons_of_mem _ hf)⟩
    obtain ⟨files', hfiles', hpolicies⟩ := ih hmem' hnodup
    refine ⟨files', ?_, fun f => ?_⟩
    · rw [List.foldlM_cons, Files.delete, if_pos (hmem r (List.mem_cons_self ..))]
      exact hfiles'
    · rw [hpolicies f]
      by_cases hf : f = r
      · subst hf
        rw [if_neg hr, if_pos (List.mem_cons_self ..), policies, AList.lookup_erase,
          Option.getD_none]
      · simp only [List.mem_cons, hf, false_or]
        rw [policies, AList.lookup_erase_ne hf, ← policies]

end Files

/-! ## What the differences bring together -/

/-- What the differences add to the policies that are compared. -/
structure Gathers (env : Env B V) (files : Files V) (t : Tree B) (deltas : List Delta)
    (g g' : Gathered V) : Prop where
  mem_change : ∀ p, p ∈ g'.change ↔
    p ∈ g.change ∨ ∃ d ∈ deltas, p ∈ env.filePolicies d.newFile t
  mem_current : ∀ p, p ∈ g'.current ↔
    p ∈ g.current ∨ ∃ d ∈ deltas, env.matcher d.newFile ∧ p ∈ files.policies d.newFile
  mem_removed : ∀ f ∈ g'.removed, f ∈ g.removed ∨
    f ∈ deltas.map Delta.newFile ∧ env.matcher f ∧ f ∈ files ∧ f ∉ t.paths
  nodup : g.removed.Nodup → g'.removed.Nodup

/-- A file that is added, modified or deleted. -/
def Delta.Plain (t : Tree B) (d : Delta) : Prop :=
  d.status = .added ∨ d.status = .modified ∨ d.status = .deleted ∧ d.newFile ∉ t.paths

theorem Gathers.of_eq {files : Files V} {t : Tree B} {d : Delta} {g g' : Gathered V}
    (hchange : ∀ p, p ∈ g'.change ↔ p ∈ g.change ∨ p ∈ env.filePolicies d.newFile t)
    (hcurrent : ∀ p, p ∈ g'.current ↔
      p ∈ g.current ∨ env.matcher d.newFile ∧ p ∈ files.policies d.newFile)
    (hremoved : g'.removed = g.removed ∨
      g'.removed = g.removed.insert d.newFile ∧ env.matcher d.newFile ∧ d.newFile ∈ files ∧
        d.newFile ∉ t.paths) :
    Gathers env files t [d] g g' := by
  refine ⟨fun p => ?_, fun p => ?_, ?_, ?_⟩
  · rw [hchange]
    simp only [List.mem_singleton, exists_eq_left]
  · rw [hcurrent]
    simp only [List.mem_singleton, exists_eq_left]
  · intro f hf
    rcases hremoved with he | ⟨he, hd⟩
    · exact .inl (he ▸ hf)
    · rw [he, List.mem_insert_iff] at hf
      rcases hf with rfl | hf
      · exact .inr ⟨List.mem_singleton_self _, hd⟩
      · exact .inl hf
  · intro hg
    rcases hremoved with he | ⟨he, -⟩
    · exact he ▸ hg
    · exact he ▸ hg.insert

theorem Gathers.trans {files : Files V} {t : Tree B} {ds ds' : List Delta}
    {g g' g'' : Gathered V} (h : Gathers env files t ds g g') (h' : Gathers env files t ds' g' g'') :
    Gathers env files t (ds ++ ds') g g'' := by
  refine ⟨fun p => ?_, fun p => ?_, fun f hf => ?_, fun hg => h'.nodup (h.nodup hg)⟩
  · rw [h'.mem_change, h.mem_change, or_assoc]
    simp only [List.mem_append, or_and_right, exists_or]
  · rw [h'.mem_current, h.mem_current, or_assoc]
    simp only [List.mem_append, or_and_right, exists_or]
  · rw [List.map_append, List.mem_append]
    rcases h'.mem_removed f hf with hf | ⟨hd, hf⟩
    · exact (h.mem_removed f hf).imp id fun ⟨hd, hf⟩ => ⟨.inl hd, hf⟩
    · exact .inr ⟨.inr hd, hf⟩

theorem gatherDelta_spec (env : Env B V) (files : Files V) {c : Commit B} {d : Delta} (hd : d.Plain c.tree)
    (g : Gathered V) :
    ∃ g', env.gatherDelta files c g d = .ok g' ∧ Gathers env files c.tree [d] g g' := by
  unfold Env.gatherDelta
  by_cases hmatch : env.matcher d.newFile
  · have hfile : env.filePolicies d.newFile c.tree = env.policyFileRev d.newFile c.tree :=
      if_pos hmatch
    simp only [hmatch, if_true]
    rcases hd with hd | hd | ⟨hd, hpaths⟩
    · rw [hd]
      refine ⟨_, rfl, .of_eq ?_ ?_ (.inl rfl)⟩
      · exact fun p => hfile ▸ List.mem_append
      · exact fun p => by simp only [List.mem_append, hmatch, true_and]
    · rw [hd]
      refine ⟨_, rfl, .of_eq ?_ ?_ (.inl rfl)⟩
      · exact fun p => hfile ▸ List.mem_append
      · exact fun p => by simp only [List.mem_append, hmatch, true_and]
    · have hnil : env.filePolicies d.newFile c.tree = [] :=
        hfile.trans (env.policyFileRev_of_notMem hpaths)
      rw [hd]
      cases hlookup : files.lookup d.newFile with
      | none =>
        have hpolicies : files.policies d.newFile = [] := by
          rw [Files.policies, hlookup, Option.getD_none]
        refine ⟨g, rfl, .of_eq ?_ ?_ (.inl rfl)⟩
        · exact fun p => by simp only [hnil, List.not_mem_nil, or_false]
        · exact fun p => by simp only [hpolicies, List.not_mem_nil, and_false, or_false]
      | some ps =>
        have hpolicies : files.policies d.newFile = ps := by
          rw [Files.policies, hlookup, Option.getD_some]
        have hmem : d.newFile ∈ files := AList.lookup_isSome.mp (by rw [hlookup, Option.isSome_some])
        refine ⟨_, rfl, .of_eq ?_ ?_ (.inr ⟨rfl, hmatch, hmem, hpaths⟩)⟩
        · exact fun p => by simp only [hnil, List.not_mem_nil, or_false]
        · exact fun p => by simp only [List.mem_append, hmatch, true_and, hpolicies]
  · have hnil : env.filePolicies d.newFile c.tree = [] := if_neg hmatch
    simp only [hmatch, Bool.false_eq_true, if_false]
    refine ⟨g, rfl, .of_eq ?_ ?_ (.inl rfl)⟩
    · exact fun p => by simp only [hnil, List.not_mem_nil, or_false]
    · exact fun p => by simp only [hmatch, Bool.false_eq_true, false_and, or_false]

theorem foldlM_gatherDelta (files : Files V) {c : Commit B} {deltas : List Delta}
    (hplain : ∀ d ∈ deltas, d.Plain c.tree) (g : Gathered V) :
    ∃ g', deltas.foldlM (env.gatherDelta files c) g = .ok g' ∧
      Gathers env files c.tree deltas g g' := by
  induction deltas generalizing g with
  | nil =>
    refine ⟨g, rfl, fun p => ?_, fun p => ?_, fun f hf => .inl hf, id⟩
    · simp only [List.not_mem_nil, false_and, exists_false, or_false]
    · simp only [List.not_mem_nil, false_and, exists_false, or_false]
  | cons d deltas ih =>
    obtain ⟨g₁, hg₁, hstep⟩ := gatherDelta_spec env files
      (hplain d (List.mem_cons_self ..)) g
    obtain ⟨g', hg', hrest⟩ := ih (fun d hd => hplain d (List.mem_cons_of_mem _ hd)) g₁
    refine ⟨g', ?_, hstep.trans hrest⟩
    rw [List.foldlM_cons, hg₁]
    exact hg'

/-- A policy file that is among the differences of a commit from its parent. -/
def Env.Touches (env : Env B V) (c : Commit B) (f : Text) : Prop :=
  f ∈ (env.diff c.base c.tree).map Delta.newFile ∧ env.matcher f

/-- The policies that are compared for a commit, and the files that are deleted after it. -/
structure Compares (env : Env B V) (files : Files V) (c : Commit B) (g : Gathered V) : Prop where
  mem_change : ∀ p, p ∈ g.change ↔ p ∈ env.validPolicies c.tree ∧ env.Touches c p.filePath
  mem_current : ∀ p, p ∈ g.current ↔ ∃ f, env.Touches c f ∧ p ∈ files.policies f
  mem_removed : ∀ f ∈ g.removed, env.Touches c f ∧ f ∈ files ∧ f ∉ c.tree.paths
  nodup : g.removed.Nodup

theorem exists_compares (env : Env B V) (files : Files V) (c : Commit B) :
    ∃ g, (env.diff c.base c.tree).foldlM (env.gatherDelta files c) ⟨[], [], []⟩ = .ok g ∧
      Compares env files c g := by
  have hplain : ∀ d ∈ env.diff c.base c.tree, d.Plain c.tree := by
    intro d hd
    rcases (env.diff_spec c.base c.tree).status d hd with ⟨h, -⟩ | ⟨h, -, hpaths⟩ | ⟨h, -⟩
    · exact .inl h
    · exact .inr (.inr ⟨h, hpaths⟩)
    · exact .inr (.inl h)
  obtain ⟨g, hg, hgathers⟩ := foldlM_gatherDelta files hplain ⟨[], [], []⟩
  refine ⟨g, hg, fun p => ?_, fun p => ?_, fun f hf => ?_, hgathers.nodup List.nodup_nil⟩
  · rw [hgathers.mem_change, or_iff_right List.not_mem_nil]
    constructor
    · rintro ⟨d, hd, hp⟩
      obtain ⟨hmatch, hrev⟩ := env.mem_filePolicies_iff.mp hp
      have hfile := env.policyFileRev_filePath hrev
      exact ⟨env.mem_validPolicies_iff.mpr (hfile ▸ hp),
        hfile ▸ List.mem_map_of_mem hd, hfile ▸ hmatch⟩
    · rintro ⟨hp, hd, -⟩
      obtain ⟨d, hd, hfile⟩ := List.mem_map.mp hd
      exact ⟨d, hd, hfile ▸ env.mem_validPolicies_iff.mp hp⟩
  · rw [hgathers.mem_current, or_iff_right List.not_mem_nil]
    constructor
    · rintro ⟨d, hd, hmatch, hp⟩
      exact ⟨d.newFile, ⟨List.mem_map_of_mem hd, hmatch⟩, hp⟩
    · rintro ⟨f, ⟨hf, hmatch⟩, hp⟩
      obtain ⟨d, hd, rfl⟩ := List.mem_map.mp hf
      exact ⟨d, hd, hmatch, hp⟩
  · obtain ⟨hd, hmatch, hf⟩ := (hgathers.mem_removed f hf).resolve_left List.not_mem_nil
    exact ⟨⟨hd, hmatch⟩, hf⟩

theorem Env.filePolicies_of_not_touches {c : Commit B} {f : Text} (h : ¬env.Touches c f) :
    env.filePolicies f c.base = env.filePolicies f c.tree := by
  rw [Env.filePolicies, Env.filePolicies]
  split
  · rename_i hmatch
    have hf : f ∉ (env.diff c.base c.tree).map Delta.newFile := fun hf => h ⟨hf, hmatch⟩
    exact env.policyFileRev_congr ((env.diff_spec c.base c.tree).complete f hf)
  · rfl

/-! ## The changes between two collections -/

section Changes

variable [DecidableEq V]

theorem PolicyCollection.mem_keys {ps : PolicyCollection V} {n : V} :
    n ∈ ps.keys ↔ n ∈ ps.map Policy.name := List.mem_dedup

theorem PolicyCollection.of_getItem {ps : PolicyCollection V} {n : V} {p : Policy V}
    (h : ps.getItem n = some p) : p ∈ ps ∧ p.name = n :=
  ⟨List.mem_reverse.mp (List.mem_of_find?_eq_some h),
    of_decide_eq_true (List.find?_some (p := fun p : Policy V => decide (p.name = n)) h)⟩

theorem PolicyCollection.exists_getItem {ps : PolicyCollection V} {n : V} (h : n ∈ ps.keys) :
    ∃ p, ps.getItem n = some p := by
  obtain ⟨p, hp, hname⟩ := List.mem_map.mp (PolicyCollection.mem_keys.mp h)
  cases hn : ps.getItem n with
  | some q => exact ⟨q, rfl⟩
  | none =>
    exact absurd (decide_eq_true hname)
      (List.find?_eq_none.mp hn p (List.mem_reverse.mpr hp))

def Change.name (change : Change V) : V := change.policy.name

omit [DecidableEq V] in
theorem names_filterMap_sublist (names : List V) (find : V → Option (Change V))
    (hfind : ∀ n change, find n = some change → change.name = n) :
    ((names.filterMap find).map Change.name).Sublist names := by
  rw [List.map_filterMap]
  induction names with
  | nil => exact .slnil
  | cons n names ih =>
    cases hn : find n with
    | none =>
      rw [List.filterMap_cons_none (by rw [hn]; rfl)]
      exact ih.cons n
    | some change =>
      rw [List.filterMap_cons_some (by rw [hn]; rfl), hfind n change hn]
      exact ih.cons_cons n

variable {c : Commit B} {prev curr : PolicyCollection V}

theorem extantChange_name {p q : Policy V} {change : Change V}
    (h : Env.extantChange p q = some change) : change.name = p.name := by
  unfold Env.extantChange at h
  split at h
  · cases h
    rfl
  · split at h
    · cases h
      rfl
    · cases h

theorem Env.mem_delta_iff {change : Change V} : change ∈ env.delta c prev curr ↔
    (∃ p, p.name ∉ curr.keys ∧ prev.getItem p.name = some p ∧ change = .remove p) ∨
    (∃ p, p.name ∉ prev.keys ∧ curr.getItem p.name = some p ∧ change = .add p) ∨
    ∃ p q, curr.getItem p.name = some p ∧ prev.getItem p.name = some q ∧
      Env.extantChange p q = some change := by
  simp only [Env.delta, List.mem_append, List.mem_filterMap, (env.setOrder_perm _ _).mem_iff,
    List.mem_filter, decide_eq_true_eq, or_assoc, Option.map_eq_some_iff, Option.bind_eq_bind,
    Option.bind_eq_some_iff]
  refine or_congr ⟨?_, ?_⟩ (or_congr ⟨?_, ?_⟩ ⟨?_, ?_⟩)
  · rintro ⟨n, ⟨-, hn⟩, p, hp, rfl⟩
    obtain rfl := (PolicyCollection.of_getItem hp).2
    exact ⟨p, hn, hp, rfl⟩
  · rintro ⟨p, hn, hp, rfl⟩
    have hkey := PolicyCollection.mem_keys.mpr
      (List.mem_map_of_mem (PolicyCollection.of_getItem hp).1)
    exact ⟨p.name, ⟨hkey, hn⟩, p, hp, rfl⟩
  · rintro ⟨n, ⟨-, hn⟩, p, hp, rfl⟩
    obtain rfl := (PolicyCollection.of_getItem hp).2
    exact ⟨p, hn, hp, rfl⟩
  · rintro ⟨p, hn, hp, rfl⟩
    have hkey := PolicyCollection.mem_keys.mpr
      (List.mem_map_of_mem (PolicyCollection.of_getItem hp).1)
    exact ⟨p.name, ⟨hkey, hn⟩, p, hp, rfl⟩
  · rintro ⟨n, -, p, hp, q, hq, hchange⟩
    obtain rfl := (PolicyCollection.of_getItem hp).2
    exact ⟨p, q, hp, hq, hchange⟩
  · rintro ⟨p, q, hp, hq, hchange⟩
    have hkey := PolicyCollection.mem_keys.mpr
      (List.mem_map_of_mem (PolicyCollection.of_getItem hp).1)
    obtain ⟨hmem, hname⟩ := PolicyCollection.of_getItem hq
    have hkey' := PolicyCollection.mem_keys.mpr (List.mem_map_of_mem hmem)
    rw [hname] at hkey'
    exact ⟨p.name, ⟨hkey, hkey'⟩, p, hp, q, hq, hchange⟩

theorem Env.delta_names_nodup (env : Env B V) (c : Commit B) (prev curr : PolicyCollection V) :
    ((env.delta c prev curr).map Change.name).Nodup := by
  have hkeys : ∀ ps : PolicyCollection V, ps.keys.Nodup := fun ps => List.nodup_dedup _
  have horder : ∀ (ps : PolicyCollection V) (q : V → Bool),
      (env.setOrder c (ps.keys.filter q)).Nodup := fun ps q =>
    (env.setOrder_perm c _).nodup_iff.mpr ((hkeys ps).filter q)
  rw [Env.delta, List.map_append, List.map_append]
  have hremoved := names_filterMap_sublist
    (env.setOrder c (prev.keys.filter (· ∉ curr.keys)))
    (fun n => (prev.getItem n).map .remove) (fun n change h => by
      obtain ⟨p, hp, rfl⟩ := Option.map_eq_some_iff.mp h
      exact (PolicyCollection.of_getItem hp).2)
  have hadded := names_filterMap_sublist
    (env.setOrder c (curr.keys.filter (· ∉ prev.keys)))
    (fun n => (curr.getItem n).map .add) (fun n change h => by
      obtain ⟨p, hp, rfl⟩ := Option.map_eq_some_iff.mp h
      exact (PolicyCollection.of_getItem hp).2)
  have hextant := names_filterMap_sublist
    (env.setOrder c (curr.keys.filter (· ∈ prev.keys)))
    (fun n => do extantChange (← curr.getItem n) (← prev.getItem n))
    (fun n change h => by
      obtain ⟨p, hp, h⟩ := Option.bind_eq_some_iff.mp h
      obtain ⟨q, -, h⟩ := Option.bind_eq_some_iff.mp h
      exact (extantChange_name h).trans (PolicyCollection.of_getItem hp).2)
  refine List.Nodup.sublist ((hremoved.append hadded).append hextant) ?_
  simp only [List.nodup_append, horder, List.mem_append, (env.setOrder_perm _ _).mem_iff,
    List.mem_filter, decide_eq_true_eq, true_and]
  constructor
  · rintro n ⟨hn, -⟩ m ⟨-, hm⟩ rfl
    exact hm hn
  · rintro n (⟨-, hn⟩ | ⟨-, hn⟩) m ⟨hm, hm'⟩ rfl
    · exact hn hm
    · exact hn hm'

end Changes

/-! ## Streams in parts -/

section Streams

variable [DecidableEq V]

theorem processStreamDelta_eq {files files' : Files V} {changes : List (Change V)}
    (h : changes.foldlM Files.apply files = .ok files') :
    files.processStreamDelta changes = (changes, .ok files') := by
  induction changes generalizing files with
  | nil =>
    cases h
    rfl
  | cons change changes ih =>
    rw [List.foldlM_cons] at h
    obtain ⟨next, hnext, h⟩ := bind_eq_ok.mp h
    simp only [Files.processStreamDelta, hnext, ih h]

theorem collect_eq {b : Bounds} (hlimit : b.limit = 0) (commits walk : List (Commit B)) :
    collect b commits walk = commits ++ walk.filter fun c => !b.skips c := by
  induction walk generalizing commits with
  | nil => rw [collect, List.filter_nil, List.append_nil]
  | cons c walk ih =>
    have hmore : ¬(b.limit ≠ 0 ∧ b.limit < (commits ++ [c]).length) := fun h => h.1 hlimit
    rw [collect]
    cases hc : b.skips c with
    | true => rw [if_pos rfl, ih, List.filter_cons_of_neg (by simp [hc])]
    | false =>
      rw [if_neg Bool.false_ne_true, if_neg hmore, ih, List.filter_cons_of_pos (by simp [hc]),
        List.append_assoc, List.singleton_append]

theorem deltaStream_eq {files : Files V} {walk : List (Commit B)} {b : Bounds}
    (hlimit : b.limit = 0) : env.deltaStream files walk b =
      env.streamCommits files (walk.filter fun c => !b.skips c) := by
  rw [Env.deltaStream, collect_eq hlimit, List.nil_append]
  exact if_neg fun h => h.1 hlimit

theorem stream_eq (history : List (Commit B)) :
    env.stream history = env.streamCommits ∅ history := by
  rw [Env.stream, deltaStream_eq rfl]
  congr 1
  exact List.filter_eq_self.mpr fun _ _ => rfl

theorem streamCommits_append {files files' : Files V} {cs ds : List (Commit B)}
    (h : (env.streamCommits files cs).files = .ok files') :
    env.streamCommits files (cs ++ ds) =
      ⟨(env.streamCommits files cs).emitted ++ (env.streamCommits files' ds).emitted,
        (env.streamCommits files' ds).files⟩ := by
  induction cs generalizing files with
  | nil =>
    cases h
    rfl
  | cons c cs ih =>
    rw [List.cons_append, Env.streamCommits, Env.streamCommits]
    rw [Env.streamCommits] at h
    generalize env.processStreamCommit files c = r at h ⊢
    obtain ⟨changes, r⟩ := r
    cases r with
    | error e => cases h
    | ok next =>
      simp only at h ⊢
      rw [ih h]
      rfl

end Streams

end Custodian.PolicyStream

import Custodian.Lib.Nested
import Mathlib.Data.List.Nodup

/-!
# Directory trees

A tree of files is a nested dictionary: a leaf is a file and a dictionary is a directory.
-/

namespace Py

variable {α : Type}

/-- A directory that a walk visits, with the directories and files in it. -/
structure Visit (α : Type) where
  root : List Text
  dirs : List Text
  files : List (Text × α)

namespace Entries

def dirs : Entries α → List Text
  | .nil => []
  | .cons k (.dict _) es => k :: es.dirs
  | .cons _ (.leaf _) es => es.dirs

def files : Entries α → List (Text × α)
  | .nil => []
  | .cons k (.leaf a) es => (k, a) :: es.files
  | .cons _ (.dict _) es => es.files

end Entries

mutual

/-- `os.walk`, where the loop body prunes the directories to the kept ones. -/
def Nested.walk (keep : Text → Bool) (path : List Text) : Nested α → List (Visit α)
  | .leaf _ => []
  | .dict es => ⟨path, es.dirs, es.files⟩ :: es.walkAll keep path

def Entries.walkAll (keep : Text → Bool) (path : List Text) : Entries α → List (Visit α)
  | .nil => []
  | .cons k v es => (if keep k then v.walk keep (path ++ [k]) else []) ++ es.walkAll keep path

end

/-! ## Listings -/

theorem Entries.mem_files {es : Entries α} (h : es.distinct = true) {k : Text} {a : α} :
    (k, a) ∈ es.files ↔ es.lookup k = some (.leaf a) := by
  induction es using Entries.induction with
  | nil => simp [files, lookup]
  | cons l v es ih =>
    rw [distinct_cons] at h
    rw [lookup_cons_eq_some h.1.1, ← ih h.2]
    cases v with
    | leaf b => simp [files, eq_comm]
    | dict fs => simp [files]

theorem Entries.files_keys_sublist (es : Entries α) :
    (es.files.map Prod.fst).Sublist es.keys := by
  induction es using Entries.induction with
  | nil => exact List.Sublist.refl _
  | cons k v es ih =>
    cases v with
    | leaf a => exact ih.cons_cons k
    | dict fs => exact ih.cons k

/-! ## Walks -/

variable {keep : Text → Bool}

/-- A directory that a walk from a path visits, below that path. -/
structure Visited (keep : Text → Bool) (t : Nested α) (path rel : List Text) (v : Visit α) :
    Prop where
  kept : ∀ k ∈ rel, keep k = true
  visit : ∃ es, t.find rel = some (.dict es) ∧ v = ⟨path ++ rel, es.dirs, es.files⟩

theorem visited_leaf {a : α} {path rel : List Text} {v : Visit α} :
    ¬ Visited keep (.leaf a) path rel v := by
  intro h
  obtain ⟨es, hfind, -⟩ := h.visit
  cases rel with
  | nil => cases hfind
  | cons k rel => cases hfind

theorem visited_nil {es : Entries α} {path : List Text} {v : Visit α} :
    Visited keep (.dict es) path [] v ↔ v = ⟨path, es.dirs, es.files⟩ := by
  constructor
  · intro h
    obtain ⟨fs, hfind, hv⟩ := h.visit
    cases hfind
    rwa [List.append_nil] at hv
  · intro hv
    exact ⟨by simp, es, rfl, by rw [List.append_nil]; exact hv⟩

theorem visited_cons {es : Entries α} {path rel : List Text} {k : Text} {v : Visit α} :
    Visited keep (.dict es) path (k :: rel) v ↔
      keep k = true ∧ ∃ t, es.lookup k = some t ∧ Visited keep t (path ++ [k]) rel v := by
  constructor
  · intro h
    obtain ⟨hk, hrel⟩ := List.forall_mem_cons.mp h.kept
    obtain ⟨fs, hfind, hv⟩ := h.visit
    obtain ⟨t, ht, hfind⟩ := Option.bind_eq_some_iff.mp hfind
    exact ⟨hk, t, ht, hrel, fs, hfind, by rw [List.append_assoc]; exact hv⟩
  · rintro ⟨hk, t, ht, hrel, fs, hfind, hv⟩
    refine ⟨List.forall_mem_cons.mpr ⟨hk, hrel⟩, fs, ?_, ?_⟩
    · exact Option.bind_eq_some_iff.mpr ⟨t, ht, hfind⟩
    · rw [List.append_assoc] at hv
      exact hv

/-- A walk visits the directories that are reached through kept ones. -/
theorem Nested.mem_walk {t : Nested α} (h : t.distinct = true) {path : List Text} {v : Visit α} :
    v ∈ t.walk keep path ↔ ∃ rel, Visited keep t path rel v := by
  refine (Nested.induction
    (P := fun t => t.distinct = true → ∀ path v,
      v ∈ t.walk keep path ↔ ∃ rel, Visited keep t path rel v)
    (Q := fun es => es.distinct = true → ∀ path v, v ∈ es.walkAll keep path ↔
      ∃ k, keep k = true ∧ ∃ t, es.lookup k = some t ∧ ∃ rel, Visited keep t (path ++ [k]) rel v)
    ?_ ?_ ?_ ?_).1 t h path v
  · intro a _ path v
    exact ⟨fun hv => absurd hv (by rw [walk]; exact List.not_mem_nil),
      fun ⟨rel, hrel⟩ => absurd hrel visited_leaf⟩
  · intro es ih h path v
    rw [walk, List.mem_cons, ih h]
    constructor
    · rintro (hv | ⟨k, hk, t, ht, rel, hrel⟩)
      · exact ⟨[], visited_nil.mpr hv⟩
      · exact ⟨k :: rel, visited_cons.mpr ⟨hk, t, ht, hrel⟩⟩
    · rintro ⟨rel, hrel⟩
      cases rel with
      | nil => exact Or.inl (visited_nil.mp hrel)
      | cons k rel =>
        obtain ⟨hk, t, ht, hrel⟩ := visited_cons.mp hrel
        exact Or.inr ⟨k, hk, t, ht, rel, hrel⟩
  · intro _ path v
    rw [Entries.walkAll]
    simp [Entries.lookup]
  · intro k t es ih ihs h path v
    rw [Entries.distinct_cons] at h
    rw [Entries.walkAll, List.mem_append, ihs h.2]
    simp only [Entries.lookup_cons_eq_some h.1.1]
    constructor
    · rintro (hv | ⟨k', hk', t', ht', hv⟩)
      · by_cases hk : keep k = true
        · rw [if_pos hk, ih h.1.2] at hv
          exact ⟨k, hk, t, Or.inl ⟨rfl, rfl⟩, hv⟩
        · rw [if_neg hk] at hv
          exact absurd hv List.not_mem_nil
      · exact ⟨k', hk', t', Or.inr ht', hv⟩
    · rintro ⟨k', hk', t', ⟨rfl, rfl⟩ | ht', hv⟩
      · rw [if_pos hk', ih h.1.2]
        exact Or.inl hv
      · exact Or.inr ⟨k', hk', t', ht', hv⟩

theorem Nested.root_of_mem_walk {t : Nested α} (h : t.distinct = true) {path : List Text}
    {v : Visit α} (hv : v ∈ t.walk keep path) : path <+: v.root := by
  obtain ⟨rel, hrel⟩ := (mem_walk h).mp hv
  obtain ⟨es, -, rfl⟩ := hrel.visit
  exact List.prefix_append path rel

theorem Entries.root_of_mem_walkAll {es : Entries α} (h : es.distinct = true) {path : List Text}
    {v : Visit α} (hv : v ∈ es.walkAll keep path) : ∃ k ∈ es.keys, path ++ [k] <+: v.root := by
  induction es using Entries.induction with
  | nil => exact absurd hv (by rw [walkAll]; exact List.not_mem_nil)
  | cons k t es ih =>
    rw [distinct_cons] at h
    rw [walkAll, List.mem_append] at hv
    rcases hv with hv | hv
    · split at hv
      · exact ⟨k, List.mem_cons_self .., Nested.root_of_mem_walk h.1.2 hv⟩
      · exact absurd hv List.not_mem_nil
    · obtain ⟨k', hk', hroot⟩ := ih h.2 hv
      exact ⟨k', List.mem_cons_of_mem _ hk', hroot⟩

theorem ne_of_prefix_append {path p q : List Text} {k l : Text} (hkl : k ≠ l)
    (hp : path ++ [k] <+: p) (hq : path ++ [l] <+: q) : p ≠ q := by
  obtain ⟨p', rfl⟩ := hp
  obtain ⟨q', rfl⟩ := hq
  intro heq
  rw [List.append_assoc, List.append_assoc] at heq
  injection List.append_cancel_left heq with hhead
  exact hkl hhead

/-- A walk visits no directory twice. -/
theorem Nested.nodup_walk (keep : Text → Bool) {t : Nested α} (h : t.distinct = true)
    (path : List Text) :
    ((t.walk keep path).map Visit.root).Nodup := by
  refine (Nested.induction
    (P := fun t => t.distinct = true → ∀ path, ((t.walk keep path).map Visit.root).Nodup)
    (Q := fun es => es.distinct = true → ∀ path, ((es.walkAll keep path).map Visit.root).Nodup)
    ?_ ?_ ?_ ?_).1 t h path
  · intro a _ path
    rw [walk]
    exact List.nodup_nil
  · intro es ih h path
    rw [walk, List.map_cons, List.nodup_cons]
    refine ⟨?_, ih h path⟩
    intro hmem
    obtain ⟨v, hv, hroot⟩ := List.mem_map.mp hmem
    obtain ⟨k, -, hk⟩ := Entries.root_of_mem_walkAll h hv
    have hroot : v.root = path := hroot
    rw [hroot] at hk
    have hlen := hk.length_le
    rw [List.length_append, List.length_singleton] at hlen
    omega
  · intro _ path
    rw [Entries.walkAll]
    exact List.nodup_nil
  · intro k t es ih ihs h path
    rw [Entries.distinct_cons] at h
    rw [Entries.walkAll, List.map_append, List.nodup_append]
    refine ⟨?_, ihs h.2 path, ?_⟩
    · split
      · exact ih h.1.2 _
      · exact List.nodup_nil
    · intro p hp q hq
      obtain ⟨v, hv, rfl⟩ := List.mem_map.mp hp
      obtain ⟨w, hw, rfl⟩ := List.mem_map.mp hq
      obtain ⟨l, hl, hlw⟩ := Entries.root_of_mem_walkAll h.2 hw
      split at hv
      · have hkl : k ≠ l := by
          rintro rfl
          exact h.1.1 hl
        exact ne_of_prefix_append hkl (root_of_mem_walk h.1.2 hv) hlw
      · exact absurd hv List.not_mem_nil

/-- The path of a listed name. -/
def Visit.paths (v : Visit α) (names : Visit α → List Text) : List (List Text) :=
  (names v).map fun name => v.root ++ [name]

theorem Nested.nodup_flatMap_walk {t : Nested α} (h : t.distinct = true) (path : List Text)
    {names : Visit α → List Text} (hnames : ∀ v ∈ t.walk keep path, (names v).Nodup) :
    ((t.walk keep path).flatMap fun v => v.paths names).Nodup := by
  rw [List.nodup_flatMap]
  refine ⟨?_, ?_⟩
  · intro v hv
    exact (hnames v hv).map fun _ _ heq => List.singleton_injective (List.append_cancel_left heq)
  · have hroots := nodup_walk keep h path
    rw [List.Nodup, List.pairwise_map] at hroots
    refine hroots.imp ?_
    intro v w hne p hv hw
    obtain ⟨name, -, rfl⟩ := List.mem_map.mp hv
    obtain ⟨name', -, heq⟩ := List.mem_map.mp hw
    exact hne (List.append_inj_left' heq rfl).symm

end Py

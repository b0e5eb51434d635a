import Mathlib.Data.List.Basic

/-!
# Bulk calls

Elements are grouped by a key, a group is cut into chunks, and a call for each chunk writes to many
cells at once.
-/

namespace Py.Bulk

variable {κ ν α β : Type}

/-! ## Groups -/

section Groups

variable [DecidableEq κ]

/-- `groups.setdefault(k, []).append(x)` -/
def add (k : κ) (x : α) : List (κ × List α) → List (κ × List α)
  | [] => [(k, [x])]
  | g :: groups => if g.1 = k then (g.1, g.2 ++ [x]) :: groups else g :: add k x groups

/-- The element is in a group of that key. -/
def Grouped (k : κ) (x : α) (groups : List (κ × List α)) : Prop := ∃ xs, (k, xs) ∈ groups ∧ x ∈ xs

omit [DecidableEq κ] in
theorem not_grouped_nil {k : κ} {x : α} : ¬ Grouped k x [] := by
  rintro ⟨xs, hxs, -⟩
  cases hxs

omit [DecidableEq κ] in
theorem grouped_cons {k : κ} {x : α} {g : κ × List α} {groups : List (κ × List α)} :
    Grouped k x (g :: groups) ↔ (k = g.1 ∧ x ∈ g.2) ∨ Grouped k x groups := by
  constructor
  · rintro ⟨xs, hxs, hx⟩
    rcases List.mem_cons.mp hxs with rfl | hxs
    · exact Or.inl ⟨rfl, hx⟩
    · exact Or.inr ⟨xs, hxs, hx⟩
  · rintro (⟨rfl, hx⟩ | ⟨xs, hxs, hx⟩)
    · exact ⟨g.2, List.mem_cons_self, hx⟩
    · exact ⟨xs, List.mem_cons_of_mem g hxs, hx⟩

theorem grouped_add {k k' : κ} {x x' : α} {groups : List (κ × List α)} :
    Grouped k' x' (add k x groups) ↔ (k' = k ∧ x' = x) ∨ Grouped k' x' groups := by
  induction groups with
  | nil => simp [add, grouped_cons, not_grouped_nil]
  | cons g groups ih =>
    rw [add]
    split
    · rename_i hk
      rw [grouped_cons, grouped_cons, List.mem_append, List.mem_singleton, hk]
      tauto
    · rw [grouped_cons, ih, grouped_cons, or_left_comm]

/-- No group is empty. -/
def Filled (groups : List (κ × List α)) : Prop := ∀ g ∈ groups, g.2 ≠ []

theorem filled_add {k : κ} {x : α} {groups : List (κ × List α)} (h : Filled groups) :
    Filled (add k x groups) := by
  induction groups with
  | nil =>
    intro g hg
    rw [List.mem_singleton.mp hg]
    exact List.cons_ne_nil x []
  | cons g groups ih =>
    obtain ⟨hg, hgroups⟩ := List.forall_mem_cons.mp h
    rw [add]
    split
    · exact List.forall_mem_cons.mpr ⟨by simp, hgroups⟩
    · exact List.forall_mem_cons.mpr ⟨hg, ih hgroups⟩

end Groups

/-! ## Chunks -/

def chunksFrom (size : Nat) : List α → List α → List (List α)
  | batch, [] => if batch = [] then [] else [batch]
  | batch, x :: xs =>
    if (batch ++ [x]).length % size = 0 then (batch ++ [x]) :: chunksFrom size [] xs
    else chunksFrom size (batch ++ [x]) xs

/-- `chunks(iterable, size)` -/
def chunks (size : Nat) (xs : List α) : List (List α) := chunksFrom size [] xs

theorem flatten_chunksFrom (size : Nat) (batch xs : List α) :
    (chunksFrom size batch xs).flatten = batch ++ xs := by
  induction xs generalizing batch with
  | nil =>
    rw [chunksFrom]
    split
    · rename_i hbatch
      rw [hbatch]
      rfl
    · rw [List.flatten_singleton, List.append_nil]
  | cons x xs ih =>
    rw [chunksFrom]
    split
    · rw [List.flatten_cons, ih, List.nil_append, List.append_assoc, List.singleton_append]
    · rw [ih, List.append_assoc, List.singleton_append]

theorem flatten_chunks (size : Nat) (xs : List α) : (chunks size xs).flatten = xs :=
  flatten_chunksFrom size [] xs

theorem length_chunksFrom_le {size : Nat} (hsize : 0 < size) {batch xs : List α}
    (hbatch : batch.length < size) : ∀ c ∈ chunksFrom size batch xs, c.length ≤ size := by
  induction xs generalizing batch with
  | nil =>
    rw [chunksFrom]
    split
    · simp
    · exact List.forall_mem_singleton.mpr (Nat.le_of_lt hbatch)
  | cons x xs ih =>
    have hlen : (batch ++ [x]).length = batch.length + 1 := by simp
    rw [chunksFrom]
    split
    · exact List.forall_mem_cons.mpr ⟨by omega, ih hsize⟩
    · rename_i hmod
      refine ih (Nat.lt_of_le_of_ne (by omega) fun he => hmod ?_)
      rw [he, Nat.mod_self]

theorem length_chunks_le {size : Nat} (hsize : 0 < size) (xs : List α) :
    ∀ c ∈ chunks size xs, c.length ≤ size := length_chunksFrom_le hsize hsize

/-! ## Writes -/

/-- A write: the new content of the cells that it changes. -/
abbrev Write (α β : Type) := α → Option β

def Write.apply (w : Write α β) (s : α → β) : α → β := fun cell => (w cell).getD (s cell)

def applyAll (ws : List (Write α β)) (s : α → β) : α → β := ws.foldl (fun s w => w.apply s) s

theorem applyAll_append (ws ws' : List (Write α β)) (s : α → β) :
    applyAll (ws ++ ws') s = applyAll ws' (applyAll ws s) := List.foldl_append

theorem foldl_applyAll {γ : Type} (ws : γ → List (Write α β)) (groups : List γ) (s : α → β) :
    groups.foldl (fun s g => applyAll (ws g) s) s = applyAll (groups.flatMap ws) s := by
  induction groups generalizing s with
  | nil => rfl
  | cons g groups ih => rw [List.foldl_cons, ih, List.flatMap_cons, applyAll_append]

theorem applyAll_of_none {ws : List (Write α β)} {cell : α} (h : ∀ w ∈ ws, w cell = none)
    (s : α → β) : applyAll ws s cell = s cell := by
  induction ws generalizing s with
  | nil => rfl
  | cons w ws ih =>
    obtain ⟨hw, hws⟩ := List.forall_mem_cons.mp h
    have hrest := ih hws (w.apply s)
    rw [Write.apply, hw, Option.getD_none] at hrest
    exact hrest

/-- A cell that some write changes, and none otherwise. -/
theorem applyAll_eq {ws : List (Write α β)} {cell : α} {b : β}
    (hagree : ∀ w ∈ ws, ∀ b', w cell = some b' → b' = b) (hsome : ∃ w ∈ ws, w cell = some b)
    (s : α → β) : applyAll ws s cell = b := by
  induction ws generalizing s with
  | nil =>
    obtain ⟨w, hw, -⟩ := hsome
    cases hw
  | cons w ws ih =>
    obtain ⟨hw, hws⟩ := List.forall_mem_cons.mp hagree
    by_cases hrest : ∃ w ∈ ws, w cell = some b
    · exact ih hws hrest (w.apply s)
    · have hnone : ∀ w ∈ ws, w cell = none := by
        intro w' hw'
        cases hcell : w' cell with
        | none => rfl
        | some b' => exact absurd ⟨w', hw', hws w' hw' b' hcell ▸ hcell⟩ hrest
      obtain ⟨w', hw', hb⟩ := hsome
      rcases List.mem_cons.mp hw' with rfl | hw'
      · have hlast := applyAll_of_none hnone (w'.apply s)
        rw [Write.apply, hb, Option.getD_some] at hlast
        exact hlast
      · exact absurd ⟨w', hw', hb⟩ hrest

/-! ## Sorted entries -/

/-- In entries that are sorted by the position of their keys, the first one is that of the first
key there is. -/
theorem find?_fst_eq [BEq κ] [LawfulBEq κ] {keys : List κ} {entries : List (κ × ν)}
    (hsorted : entries.Pairwise fun a b =>
      a.1 ∈ keys → b.1 ∈ keys → keys.idxOf a.1 ≤ keys.idxOf b.1) :
    (entries.find? fun e => e.1 ∈ keys).map Prod.fst =
      keys.find? fun k => k ∈ entries.map Prod.fst := by
  cases hfirst : keys.find? fun k => k ∈ entries.map Prod.fst with
  | none =>
    rw [List.find?_eq_none] at hfirst
    rw [Option.map_eq_none_iff, List.find?_eq_none]
    intro e he hkey
    exact hfirst e.1 (of_decide_eq_true hkey) (decide_eq_true (List.mem_map_of_mem he))
  | some k =>
    obtain ⟨hk, before, after, rfl, hbefore⟩ := List.find?_eq_some_iff_append.mp hfirst
    obtain ⟨e', he', rfl⟩ := List.mem_map.mp (of_decide_eq_true hk)
    have hmem : e'.1 ∈ before ++ e'.1 :: after := List.mem_append_right _ List.mem_cons_self
    have hnot (e : κ × ν) (he : e ∈ entries) : e.1 ∉ before := fun h => by
      have hout := hbefore e.1 h
      simp only [Bool.not_eq_true', decide_eq_false_iff_not] at hout
      exact hout (List.mem_map_of_mem he)
    cases hfound : entries.find? fun e => e.1 ∈ before ++ e'.1 :: after with
    | none => exact absurd (decide_eq_true hmem) (List.find?_eq_none.mp hfound e' he')
    | some e =>
      obtain ⟨he, earlier, later, rfl, hearlier⟩ := List.find?_eq_some_iff_append.mp hfound
      rw [Option.map_some, Option.some.injEq]
      rcases List.mem_append.mp he' with hin | hin
      · have hout := hearlier e' hin
        simp only [Bool.not_eq_true', decide_eq_false_iff_not] at hout
        exact absurd hmem hout
      rcases List.mem_cons.mp hin with rfl | hin
      · rfl
      · have hle := (List.pairwise_cons.mp (List.pairwise_append.mp hsorted).2.1).1 e' hin
          (of_decide_eq_true he) hmem
        rw [List.idxOf_append_of_notMem (hnot e (by simp)),
          List.idxOf_append_of_notMem (hnot e' he'), List.idxOf_cons_self] at hle
        by_contra hne
        rw [List.idxOf_cons_ne _ (Ne.symm hne)] at hle
        omega

end Py.Bulk

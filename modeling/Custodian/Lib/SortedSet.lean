import Custodian.Lib.Text

/-!
# Sorted sets

`sortedSetBy key l` sorts `l` by a text key and keeps one element for each key.
-/

namespace Py

/-! ## The order of texts -/

namespace Text

/-- `s < t` by code points. -/
def lt : Text → Text → Bool
  | [], [] => false
  | [], _ :: _ => true
  | _ :: _, [] => false
  | c :: s, d :: t => c.toNat < d.toNat || (c = d && lt s t)

theorem lt_irrefl (s : Text) : lt s s = false := by
  induction s with
  | nil => rfl
  | cons c s ih => simp [lt, ih]

theorem lt_trans : ∀ {s t u : Text}, lt s t = true → lt t u = true → lt s u = true
  | [], _, [], h, h' => by
    rename_i t
    cases t <;> simp [lt] at h h'
  | [], _, _ :: _, _, _ => rfl
  | _ :: _, [], _, h, _ => by simp [lt] at h
  | _ :: _, _ :: _, [], _, h' => by simp [lt] at h'
  | c :: s, d :: t, e :: u, h, h' => by
    simp only [lt, Bool.or_eq_true, Bool.and_eq_true, decide_eq_true_eq] at h h' ⊢
    rcases h with h | ⟨rfl, h⟩
    · rcases h' with h' | ⟨rfl, -⟩
      · exact Or.inl (Nat.lt_trans h h')
      · exact Or.inl h
    · exact h'.imp_right fun ⟨e, h'⟩ => ⟨e, lt_trans h h'⟩

theorem lt_total : ∀ {s t : Text}, s ≠ t → lt s t = false → lt t s = true
  | [], [], h, _ => absurd rfl h
  | [], _ :: _, _, h => by simp [lt] at h
  | _ :: _, [], _, _ => rfl
  | c :: s, d :: t, h, h' => by
    simp only [lt, Bool.or_eq_false_iff, Bool.and_eq_false_iff, decide_eq_false_iff_not] at h'
    simp only [lt, Bool.or_eq_true, Bool.and_eq_true, decide_eq_true_eq]
    by_cases hcd : c = d
    · subst hcd
      have hst : s ≠ t := fun e => h (by rw [e])
      exact Or.inr ⟨rfl, lt_total hst (h'.2.resolve_left fun hne => hne rfl)⟩
    · refine Or.inl (Nat.lt_of_le_of_ne (Nat.le_of_not_lt h'.1) fun e => hcd ?_)
      rw [← Char.ofNat_toNat c, ← e, Char.ofNat_toNat]

end Text

/-! ## Insertion -/

variable {α : Type} (key : α → Text)

/-- Insert an element before those with a greater key, unless its key is there. -/
def insertBy (x : α) : List α → List α
  | [] => [x]
  | y :: ys =>
    if key x = key y then y :: ys
    else if Text.lt (key x) (key y) then x :: y :: ys
    else y :: insertBy x ys

/-- `sorted({...}, key=key)` -/
def sortedSetBy : List α → List α
  | [] => []
  | x :: xs => insertBy key x (sortedSetBy xs)

/-- `sorted(set(...))` -/
def sortedSet (l : List Text) : List Text := sortedSetBy id l

/-- The keys increase. -/
def Increasing (l : List α) : Prop := l.Pairwise fun x y => Text.lt (key x) (key y) = true

variable {key}

theorem mem_insertBy {x y : α} {l : List α} (h : y ∈ insertBy key x l) : y = x ∨ y ∈ l := by
  induction l with
  | nil => exact Or.inl (List.mem_singleton.mp h)
  | cons z l ih =>
    rw [insertBy] at h
    split at h
    · exact Or.inr h
    · split at h
      · exact List.mem_cons.mp h
      · rcases List.mem_cons.mp h with rfl | h
        · exact Or.inr List.mem_cons_self
        · exact (ih h).imp_right (List.mem_cons_of_mem z)

theorem map_insertBy (x : α) (l : List α) :
    (insertBy key x l).map key = insertBy id (key x) (l.map key) := by
  induction l with
  | nil => rfl
  | cons y l ih =>
    simp only [insertBy, List.map_cons, id_eq]
    split
    · rfl
    · split
      · rfl
      · rw [List.map_cons, ih]

theorem map_sortedSetBy (l : List α) : (sortedSetBy key l).map key = sortedSet (l.map key) := by
  induction l with
  | nil => rfl
  | cons x l ih =>
    rw [sortedSetBy, map_insertBy, ih]
    rfl

theorem mem_of_mem_sortedSetBy {x : α} {l : List α} (h : x ∈ sortedSetBy key l) : x ∈ l := by
  induction l with
  | nil => exact h
  | cons y l ih =>
    rcases mem_insertBy h with rfl | h
    · exact List.mem_cons_self
    · exact List.mem_cons_of_mem y (ih h)

theorem mem_sortedSet {t : Text} {l : List Text} : t ∈ sortedSet l ↔ t ∈ l := by
  refine ⟨mem_of_mem_sortedSetBy, fun h => ?_⟩
  have hself : ∀ (x : Text) (l : List Text), x ∈ insertBy id x l ∧ ∀ y ∈ l, y ∈ insertBy id x l := by
    intro x l
    induction l with
    | nil => simp [insertBy]
    | cons y l ih =>
      rw [insertBy]
      split
      · rename_i e
        have e' : x = y := e
        exact ⟨by simp [e'], fun z hz => hz⟩
      · split
        · exact ⟨List.mem_cons_self, fun z hz => List.mem_cons_of_mem x hz⟩
        · refine ⟨List.mem_cons_of_mem y ih.1, fun z hz => ?_⟩
          rcases List.mem_cons.mp hz with rfl | hz
          · exact List.mem_cons_self
          · exact List.mem_cons_of_mem y (ih.2 z hz)
  induction l with
  | nil => exact h
  | cons x l ih =>
    rcases List.mem_cons.mp h with rfl | h
    · exact (hself _ _).1
    · exact (hself _ _).2 t (ih h)

/-! ## Sorted lists -/

theorem increasing_insertBy {x : α} {l : List α} (h : Increasing key l) :
    Increasing key (insertBy key x l) := by
  induction l with
  | nil => exact List.pairwise_singleton _ _
  | cons y l ih =>
    have hy := List.pairwise_cons.mp h
    rw [insertBy]
    split
    · exact h
    · rename_i hne
      split
      · rename_i hlt
        refine List.pairwise_cons.mpr ⟨fun z hz => ?_, h⟩
        rcases List.mem_cons.mp hz with rfl | hz
        · exact hlt
        · exact Text.lt_trans hlt (hy.1 z hz)
      · rename_i hlt
        refine List.pairwise_cons.mpr ⟨fun z hz => ?_, ih hy.2⟩
        rcases mem_insertBy hz with rfl | hz
        · exact Text.lt_total hne (Bool.eq_false_iff.mpr hlt)
        · exact hy.1 z hz

theorem increasing_sortedSetBy (l : List α) : Increasing key (sortedSetBy key l) := by
  induction l with
  | nil => exact List.Pairwise.nil
  | cons x l ih => exact increasing_insertBy ih

theorem sortedSetBy_eq_self {l : List α} (h : Increasing key l) : sortedSetBy key l = l := by
  induction l with
  | nil => rfl
  | cons x l ih =>
    have hx := List.pairwise_cons.mp h
    rw [sortedSetBy, ih hx.2]
    cases l with
    | nil => rfl
    | cons y l =>
      have hlt := hx.1 y List.mem_cons_self
      have hne : key x ≠ key y := by
        intro e
        rw [e, Text.lt_irrefl] at hlt
        cases hlt
      rw [insertBy, if_neg hne, if_pos hlt]

/-- Two increasing lists of texts with the same members are equal. -/
theorem Increasing.eq {l l' : List Text} (h : Increasing id l) (h' : Increasing id l')
    (hmem : ∀ t, t ∈ l ↔ t ∈ l') : l = l' := by
  induction l generalizing l' with
  | nil =>
    cases l' with
    | nil => rfl
    | cons y l' => exact absurd ((hmem y).mpr List.mem_cons_self) List.not_mem_nil
  | cons x l ih =>
    cases l' with
    | nil => exact absurd ((hmem x).mp List.mem_cons_self) List.not_mem_nil
    | cons y l' =>
      have hx := List.pairwise_cons.mp h
      have hy := List.pairwise_cons.mp h'
      have hxy : x = y := by
        rcases List.mem_cons.mp ((hmem x).mp List.mem_cons_self) with e | hx'
        · exact e
        · rcases List.mem_cons.mp ((hmem y).mpr List.mem_cons_self) with e | hy'
          · exact e.symm
          · have := Text.lt_trans (hy.1 x hx') (hx.1 y hy')
            rw [Text.lt_irrefl] at this
            cases this
      subst hxy
      have hno : ∀ {m : List Text}, (∀ z ∈ m, Text.lt (id x) (id z) = true) → x ∉ m := by
        intro m hm hmem
        have := hm x hmem
        rw [Text.lt_irrefl] at this
        cases this
      rw [ih hx.2 hy.2 fun t => ?_]
      constructor
      · intro ht
        rcases List.mem_cons.mp ((hmem t).mp (List.mem_cons_of_mem x ht)) with rfl | ht'
        · exact absurd ht (hno hx.1)
        · exact ht'
      · intro ht
        rcases List.mem_cons.mp ((hmem t).mpr (List.mem_cons_of_mem x ht)) with rfl | ht'
        · exact absurd ht (hno hy.1)
        · exact ht'

/-- **Sets.**  A sorted set depends on its members only. -/
theorem sortedSet_congr {l l' : List Text} (h : ∀ t, t ∈ l ↔ t ∈ l') :
    sortedSet l = sortedSet l' :=
  (increasing_sortedSetBy l).eq (increasing_sortedSetBy l') fun t => by
    have hmem : t ∈ sortedSet l ↔ t ∈ sortedSet l' := by rw [mem_sortedSet, mem_sortedSet, h]
    exact hmem

theorem sortedSetBy_ne_nil {l : List α} (h : l ≠ []) : sortedSetBy key l ≠ [] := by
  cases l with
  | nil => exact absurd rfl h
  | cons x l =>
    rw [sortedSetBy]
    cases sortedSetBy key l with
    | nil => simp [insertBy]
    | cons y ys =>
      rw [insertBy]
      split
      · simp
      · split <;> simp

end Py

import Mathlib.Algebra.BigOperators.Group.List.Basic
import Mathlib.Algebra.Ring.Int.Defs
import Mathlib.Data.List.Forall2

/-!
# Nested segments of a history

Things are recorded one after the other, while segments are opened and closed.  A segment that is
closed is the last one that is open; what was recorded in it was recorded in those around it too.
-/

namespace Py.Segments

variable {α δ : Type}

/-- One step. -/
inductive Op (α : Type) where
  | push
  | record (a : α)
  | pop

/-- With so many open segments, no step closes one more than there are. -/
def Balanced : Nat → List (Op α) → Prop
  | _, [] => True
  | n, .push :: ops => Balanced (n + 1) ops
  | n, .record _ :: ops => Balanced n ops
  | 0, .pop :: _ => False
  | n + 1, .pop :: ops => Balanced n ops

/-- What was recorded before each closed segment, and in it; the open ones begin at the marks. -/
def closed : List α → List Nat → List (Op α) → List (List α × List α)
  | _, _, [] => []
  | history, marks, .push :: ops => closed history (history.length :: marks) ops
  | history, marks, .record a :: ops => closed (history ++ [a]) marks ops
  | history, [], .pop :: ops => closed history [] ops
  | history, mark :: marks, .pop :: ops =>
    (history.take mark, history.drop mark) :: closed history marks ops

/-! ## Sums -/

/-- An open segment: what was recorded in no segment inside it, and what the closed segments
directly inside it gave. -/
structure Frame (α δ : Type) where
  own : List α
  inner : List δ

/-- Something is recorded in the innermost segment. -/
def recordIn (a : α) : List (Frame α δ) → List (Frame α δ)
  | [] => []
  | f :: frames => ⟨f.own ++ [a], f.inner⟩ :: frames

/-- A segment directly inside the innermost one is closed. -/
def addInner (d : δ) : List (Frame α δ) → List (Frame α δ)
  | [] => []
  | f :: frames => ⟨f.own, f.inner ++ [d]⟩ :: frames

variable [BEq α] (value : δ → α → Int)

/-- How often something was recorded, by the parts of a segment. -/
def Frame.total (f : Frame α δ) (a : α) : Int :=
  f.own.count a + (f.inner.map fun d => value d a).sum

/-- Each closed segment gives the sum of its parts. -/
def Adds : List (Frame α δ) → List (Op α) → List δ → Prop
  | frames, .push :: ops, ds => Adds (⟨[], []⟩ :: frames) ops ds
  | frames, .record a :: ops, ds => Adds (recordIn a frames) ops ds
  | f :: frames, .pop :: ops, d :: ds =>
    (∀ a, value d a = f.total value a) ∧ Adds (addInner d frames) ops ds
  | _, _, _ => True

/-- The parts of the open segments, with what was recorded in the next open one inside. -/
def Sums (history : List α) : List Nat → List (Frame α δ) → (α → Int) → Prop
  | mark :: marks, f :: frames, inside =>
    mark ≤ history.length ∧ (∀ a, (history.drop mark).count a = f.total value a + inside a) ∧
      Sums history marks frames fun a => (history.drop mark).count a
  | [], [], _ => True
  | _, _, _ => False

variable {value}

theorem Sums.record {history : List α} {a : α} {marks : List Nat} {frames : List (Frame α δ)}
    {inside inside' : α → Int} (h : Sums value history marks frames inside)
    (hinside : ∀ b, inside' b = inside b + [a].count b) :
    Sums value (history ++ [a]) marks frames inside' := by
  induction marks generalizing frames inside inside' with
  | nil => cases frames <;> exact h
  | cons mark marks ih =>
    cases frames with
    | nil => exact h
    | cons f frames =>
      obtain ⟨hmark, hcount, hrest⟩ := h
      have hdrop : ∀ b, (((history ++ [a]).drop mark).count b : Int) =
          (history.drop mark).count b + [a].count b := by
        intro b
        rw [List.drop_append_of_le_length hmark, List.count_append, Nat.cast_add]
      refine ⟨by simp only [List.length_append]; omega, fun b => ?_, ih hrest hdrop⟩
      rw [hdrop, hcount, hinside, add_assoc]

theorem Sums.recordIn {history : List α} {a : α} {marks : List Nat} {frames : List (Frame α δ)}
    (h : Sums value history marks frames fun _ => 0) :
    Sums value (history ++ [a]) marks (recordIn a frames) fun _ => 0 := by
  cases marks with
  | nil => cases frames <;> exact h
  | cons mark marks =>
    cases frames with
    | nil => exact h
    | cons f frames =>
      obtain ⟨hmark, hcount, hrest⟩ := Sums.record (a := a) h fun _ => rfl
      refine ⟨hmark, fun b => ?_, hrest⟩
      have hb := hcount b
      simp only [Frame.total, List.count_append] at hb ⊢
      omega

theorem Sums.addInner {history : List α} {d : δ} {marks : List Nat} {frames : List (Frame α δ)}
    {inside : α → Int} (h : Sums value history marks frames inside)
    (hd : ∀ a, value d a = inside a) : Sums value history marks (addInner d frames) fun _ => 0 := by
  cases marks with
  | nil => cases frames <;> exact h
  | cons mark marks =>
    cases frames with
    | nil => exact h
    | cons f frames =>
      obtain ⟨hmark, hcount, hrest⟩ := h
      refine ⟨hmark, fun b => ?_, hrest⟩
      rw [hcount, Frame.total, Frame.total, List.map_append, List.sum_append, ← hd]
      simp only [List.map_cons, List.map_nil, List.sum_cons, List.sum_nil]
      omega

/-- **Sums.**  What counts each closed segment exactly adds up. -/
theorem adds_of_exact {ops : List (Op α)} {history : List α} {marks : List Nat}
    {frames : List (Frame α δ)} {ds : List δ} (hsums : Sums value history marks frames fun _ => 0)
    (h : List.Forall₂ (fun d segment => ∀ a, value d a = segment.2.count a) ds
      (closed history marks ops)) : Adds value frames ops ds := by
  induction ops generalizing history marks frames ds with
  | nil => simp [Adds]
  | cons op ops ih =>
    cases op with
    | push =>
      rw [Adds]
      refine ih (?_ : Sums value history (history.length :: marks) _ _) h
      refine ⟨Nat.le_refl _, fun a => ?_, ?_⟩
      · simp [Frame.total]
      · simpa using hsums
    | record a =>
      rw [Adds]
      exact ih hsums.recordIn h
    | pop =>
      cases marks with
      | nil =>
        cases frames with
        | nil => simp [Adds]
        | cons f frames => exact hsums.elim
      | cons mark marks =>
        cases frames with
        | nil => exact hsums.elim
        | cons f frames =>
          rw [closed] at h
          obtain ⟨d, ds, hd, hds, rfl⟩ := List.forall₂_cons_right_iff.mp h
          obtain ⟨-, hcount, hrest⟩ := hsums
          refine ⟨fun a => ?_, ih (hrest.addInner hd) hds⟩
          rw [hd, hcount, add_zero]

end Py.Segments

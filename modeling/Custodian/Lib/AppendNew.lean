import Mathlib.Data.List.Count
import Mathlib.Data.List.Induction
import Mathlib.Data.List.Nodup

/-!
# Appending what a list lacks

The loop that appends each element of a list to another one that does not have it yet, also when
the elements are compared with what the loop itself has appended.
-/

namespace Py

variable {α : Type} [DecidableEq α]

/-- `xs.extend(y for y in ys if y not in xs)` -/
def appendNew (xs ys : List α) : List α :=
  ys.foldl (fun xs y => if y ∈ xs then xs else xs ++ [y]) xs

theorem appendNew_concat (xs ys : List α) (y : α) : appendNew xs (ys ++ [y]) =
    if y ∈ appendNew xs ys then appendNew xs ys else appendNew xs ys ++ [y] := by
  rw [appendNew, List.foldl_append]
  rfl

theorem foldl_eq_appendNew (p : α → Prop) [DecidablePred p] (xs ys : List α) :
    ys.foldl (fun xs y => if p y ∧ y ∉ xs then xs ++ [y] else xs) xs =
      appendNew xs (ys.filter fun y => p y) := by
  rw [appendNew, List.foldl_filter]
  refine congrFun (congrFun (congrArg _ (funext₂ fun xs y => ?_)) _) _
  by_cases hp : p y <;> by_cases hy : y ∈ xs <;> simp [hp, hy]

theorem mem_appendNew {xs ys : List α} {x : α} : x ∈ appendNew xs ys ↔ x ∈ xs ∨ x ∈ ys := by
  induction ys using List.reverseRecOn with
  | nil => simp [appendNew]
  | append_singleton ys y ih =>
    have hlast : x ∈ (ys ++ [y] : List α) ↔ x ∈ ys ∨ x = y := by simp
    rw [appendNew_concat, hlast, ← or_assoc, ← ih]
    split
    · next hy => exact ⟨Or.inl, fun h => h.elim id fun heq => heq ▸ hy⟩
    · rw [List.mem_append, List.mem_singleton]

theorem count_appendNew {xs ys : List α} {x : α} : (appendNew xs ys).count x =
    if x ∈ xs then xs.count x else if x ∈ ys then 1 else 0 := by
  induction ys using List.reverseRecOn with
  | nil =>
    rw [appendNew, List.foldl_nil]
    split
    · rfl
    · next hx => simpa using List.count_eq_zero_of_not_mem hx
  | append_singleton ys y ih =>
    have hlast : x ∈ (ys ++ [y] : List α) ↔ x ∈ ys ∨ x = y := by simp
    simp only [appendNew_concat, mem_appendNew, hlast]
    by_cases hxy : x = y
    · subst hxy
      by_cases hxs : x ∈ xs
      · simp [hxs, ih]
      · by_cases hys : x ∈ ys <;> simp [hxs, hys, ih]
    · have hcount : ([y] : List α).count x = 0 := List.count_eq_zero_of_not_mem (by simpa using hxy)
      simp only [hxy, or_false]
      split
      · exact ih
      · rw [List.count_append, hcount, ih, Nat.add_zero]

theorem nodup_appendNew {xs : List α} (h : xs.Nodup) (ys : List α) : (appendNew xs ys).Nodup := by
  rw [List.nodup_iff_count_le_one] at *
  intro x
  rw [count_appendNew]
  split
  · exact h x
  · split <;> simp

/-! ## Another equality -/

section By

variable {β : Type} (r : β → β → Bool)

/-- The loop when `y in xs` is `∃ x ∈ xs, r y x`. -/
def appendNewBy (xs ys : List β) : List β :=
  ys.foldl (fun xs y => if xs.any (r y) then xs else xs ++ [y]) xs

theorem appendNewBy_cons (xs : List β) (y : β) (ys : List β) : appendNewBy r xs (y :: ys) =
    appendNewBy r (if xs.any (r y) then xs else xs ++ [y]) ys := rfl

theorem prefix_appendNewBy (xs ys : List β) : xs <+: appendNewBy r xs ys := by
  induction ys generalizing xs with
  | nil => exact List.prefix_rfl
  | cons y ys ih =>
    rw [appendNewBy_cons]
    split
    · exact ih xs
    · exact (List.prefix_append xs [y]).trans (ih _)

variable {r}

theorem exists_appendNewBy (hr : ∀ y, r y y = true) {xs ys : List β} {y : β} (hy : y ∈ ys) :
    ∃ x ∈ appendNewBy r xs ys, r y x = true := by
  induction ys generalizing xs with
  | nil => cases hy
  | cons z ys ih =>
    rw [appendNewBy_cons]
    rcases List.mem_cons.mp hy with rfl | hy
    · split
      · next hin =>
        obtain ⟨x, hx, hyx⟩ := List.any_eq_true.mp hin
        exact ⟨x, (prefix_appendNewBy r xs ys).subset hx, hyx⟩
      · exact ⟨y, (prefix_appendNewBy r _ ys).subset (by simp), hr y⟩
    · exact ih hy

theorem appendNewBy_of_forall {xs ys : List β} (h : ∀ y ∈ ys, ∃ x ∈ xs, r y x = true) :
    appendNewBy r xs ys = xs := by
  induction ys with
  | nil => rfl
  | cons y ys ih =>
    obtain ⟨hy, hys⟩ := List.forall_mem_cons.mp h
    rw [appendNewBy_cons, if_pos (List.any_eq_true.mpr hy), ih hys]

end By

end Py

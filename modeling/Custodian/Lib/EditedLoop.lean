import Mathlib.Data.List.Perm.Basic

/-!
# Loops over a list that they edit

The loop reads its list by position, and its body edits the list: an element that a removal moves
to a position already passed is not read.
-/

namespace Py.EditedLoop

variable {α : Type}

/-- The elements at odd positions. -/
def everySecond : List α → List α
  | _ :: y :: l => y :: everySecond l
  | _ => []

/-- At most `fuel` rounds of the loop, from a position on. -/
def loopFrom (body : α → List α → List α) : Nat → Nat → List α → List α
  | 0, _, l => l
  | fuel + 1, i, l =>
    match l[i]? with
    | none => l
    | some x => loopFrom body fuel (i + 1) (body x l)

/-- `for x in l: body`, where the body does not make the list longer. -/
def loop (body : α → List α → List α) (l : List α) : List α := loopFrom body l.length 0 l

theorem everySecond_sublist : ∀ l : List α, (everySecond l).Sublist l
  | [] => .slnil
  | [_] => List.nil_sublist _
  | x :: y :: l => ((everySecond_sublist l).cons_cons y).cons x

variable [BEq α] [LawfulBEq α]

/-- The elements before the position stay, but for equal ones that are removed in place of others;
of those from the position on every second one stays. -/
theorem loopFrom_erase (fuel : Nat) : ∀ kept rest : List α, rest.length ≤ fuel →
    (loopFrom (fun x l => l.erase x) fuel kept.length (kept ++ rest)).Perm
      (kept ++ everySecond rest) := by
  induction fuel with
  | zero =>
    intro kept rest hfuel
    obtain rfl := List.length_eq_zero_iff.mp (Nat.le_zero.mp hfuel)
    exact .refl _
  | succ fuel ih =>
    intro kept rest hfuel
    match rest with
    | [] => simp [loopFrom, everySecond]
    | [x] =>
      have hread : (kept ++ [x])[kept.length]? = some x := by simp
      have hlen : ((kept ++ [x]).erase x).length < kept.length + 1 := by
        rw [List.length_erase_of_mem (by simp)]
        simp
      have hstop : loopFrom (fun x l => l.erase x) fuel (kept.length + 1) ((kept ++ [x]).erase x) =
          (kept ++ [x]).erase x := by
        cases fuel with
        | zero => rfl
        | succ fuel => rw [loopFrom, List.getElem?_eq_none (Nat.le_of_lt hlen)]
      rw [loopFrom, hread]
      simp only [hstop, everySecond, List.append_nil]
      exact (((List.perm_append_singleton x kept).erase x).trans (by simp))
    | x :: y :: rest =>
      have hread : (kept ++ x :: y :: rest)[kept.length]? = some x := by simp
      -- the list without `x` is one of the same length that has `y` before the next position
      obtain ⟨kept', hkept', hlen⟩ : ∃ kept', (kept ++ x :: y :: rest).erase x = kept' ++ rest ∧
          kept'.Perm (kept ++ [y]) := by
        by_cases hx : x ∈ kept
        · refine ⟨kept.erase x ++ [x, y], ?_, ?_⟩
          · rw [List.erase_append_left _ hx]
            simp
          · have := (List.perm_cons_erase hx).symm
            exact (List.perm_append_comm.trans ((List.Perm.swap y x _).trans
              ((this.cons y).trans (List.perm_append_singleton y kept).symm)))
        · refine ⟨kept ++ [y], ?_, .refl _⟩
          rw [List.erase_append_right _ hx]
          simp
      have hsize : kept'.length = kept.length + 1 := by simpa using hlen.length_eq
      rw [loopFrom, hread]
      simp only [hkept', ← hsize]
      refine (ih kept' rest (by simp at hfuel; omega)).trans ?_
      rw [everySecond]
      simpa using hlen.append_right (everySecond rest)

/-- **Removing while iterating.**  A loop that removes every element it reads leaves those at odd
positions. -/
theorem loop_erase (l : List α) : (loop (fun x l => l.erase x) l).Perm (everySecond l) :=
  loopFrom_erase l.length [] l (Nat.le_refl _)

end Py.EditedLoop

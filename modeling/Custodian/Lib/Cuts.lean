import Mathlib

/-!
# Cutting a list by size

The elements of a list are gathered until their sizes, with a size at the start, reach a limit; then
the next part begins.
-/

namespace Py.Cuts

variable {α : Type} (size : α → Nat) (start limit : Nat)

/-- The size of a part reaches the limit. -/
def Reaches (part : List α) : Prop := limit ≤ start + (part.map size).sum

instance (part : List α) : Decidable (Reaches size start limit part) :=
  inferInstanceAs (Decidable (_ ≤ _))

/-- No beginning of the part but the empty one reaches the limit before its end. -/
def Prompt (part : List α) : Prop :=
  ∀ init x, init ++ [x] <+: part → init ++ [x] ≠ part → ¬ Reaches size start limit (init ++ [x])

/-- A part that is closed with its last element. -/
structure Full (part : List α) : Prop where
  ne_nil : part ≠ []
  reaches : Reaches size start limit part
  prompt : Prompt size start limit part

/-- A part that is not closed yet. -/
def Unfilled (part : List α) : Prop :=
  ∀ init x, init ++ [x] <+: part → ¬ Reaches size start limit (init ++ [x])

/-- The parts that are closed and the rest, with one more element. -/
def step (cuts : List (List α) × List α) (x : α) : List (List α) × List α :=
  if Reaches size start limit (cuts.2 ++ [x]) then (cuts.1 ++ [cuts.2 ++ [x]], [])
  else (cuts.1, cuts.2 ++ [x])

def cut (xs : List α) : List (List α) × List α := xs.foldl (step size start limit) ([], [])

variable {size start limit}

theorem unfilled_nil : Unfilled size start limit ([] : List α) := by
  intro init x h
  simp at h

theorem Unfilled.prompt_concat {part : List α} (h : Unfilled size start limit part) (x : α) :
    Prompt size start limit (part ++ [x]) := by
  intro init y hpart hne
  rcases List.prefix_concat_iff.mp hpart with heq | hpart
  · exact absurd heq hne
  · exact h init y hpart

theorem Unfilled.concat {part : List α} (h : Unfilled size start limit part) {x : α}
    (hx : ¬ Reaches size start limit (part ++ [x])) : Unfilled size start limit (part ++ [x]) := by
  intro init y hpart
  by_cases heq : init ++ [y] = part ++ [x]
  · rwa [heq]
  · exact h.prompt_concat x init y hpart heq

theorem Full.unfilled {part : List α} {x : α} (h : Full size start limit (part ++ [x])) :
    Unfilled size start limit part := by
  intro init y hpart
  refine h.prompt init y (hpart.trans (List.prefix_append part [x])) fun heq => ?_
  have hlength := hpart.length_le
  rw [heq, List.length_append, List.length_singleton] at hlength
  omega

theorem Unfilled.of_prefix {part part' : List α} (h : Unfilled size start limit part)
    (hpart : part' <+: part) : Unfilled size start limit part' :=
  fun init x hx => h init x (hx.trans hpart)

/-! ## What is cut -/

/-- What holds of the parts and the rest of a list. -/
structure Cut (size : α → Nat) (start limit : Nat) (xs : List α)
    (cuts : List (List α) × List α) : Prop where
  flatten : cuts.1.flatten ++ cuts.2 = xs
  full : ∀ part ∈ cuts.1, Full size start limit part
  unfilled : Unfilled size start limit cuts.2

theorem step_spec {xs : List α} {cuts : List (List α) × List α} (h : Cut size start limit xs cuts)
    (x : α) : Cut size start limit (xs ++ [x]) (step size start limit cuts x) := by
  rw [step]
  split
  · next hreaches =>
    have hfull : Full size start limit (cuts.2 ++ [x]) :=
      ⟨by simp, hreaches, h.unfilled.prompt_concat x⟩
    refine ⟨?_, fun part hpart => ?_, unfilled_nil⟩
    · rw [← h.flatten]
      simp
    · rcases List.mem_append.mp hpart with hpart | hpart
      · exact h.full part hpart
      · rwa [List.mem_singleton.mp hpart]
  · next hreaches =>
    refine ⟨?_, h.full, h.unfilled.concat hreaches⟩
    rw [← h.flatten, List.append_assoc]

theorem cut_spec (xs : List α) : Cut size start limit xs (cut size start limit xs) := by
  induction xs using List.reverseRecOn with
  | nil => exact ⟨rfl, fun _ h => absurd h List.not_mem_nil, unfilled_nil⟩
  | append_singleton xs x ih =>
    rw [cut, List.foldl_append]
    exact step_spec ih x

theorem foldl_step_unfilled {part : List α} (h : Unfilled size start limit part)
    (parts : List (List α)) :
    part.foldl (step size start limit) (parts, []) = (parts, part) := by
  induction part using List.reverseRecOn with
  | nil => rfl
  | append_singleton part x ih =>
    rw [List.foldl_append, ih (h.of_prefix (List.prefix_append part [x])), List.foldl_cons,
      List.foldl_nil, step, if_neg (h part x (List.prefix_refl _))]

theorem foldl_step_full {part : List α} (h : Full size start limit part) (parts : List (List α)) :
    part.foldl (step size start limit) (parts, []) = (parts ++ [part], []) := by
  obtain ⟨part, x, rfl⟩ := (List.eq_nil_or_concat' part).resolve_left h.ne_nil
  rw [List.foldl_append, foldl_step_unfilled h.unfilled, List.foldl_cons, List.foldl_nil, step,
    if_pos h.reaches]

theorem foldl_step_parts {parts : List (List α)} (h : ∀ part ∈ parts, Full size start limit part)
    (before : List (List α)) :
    parts.flatten.foldl (step size start limit) (before, []) = (before ++ parts, []) := by
  induction parts generalizing before with
  | nil => rw [List.append_nil]; rfl
  | cons part parts ih =>
    obtain ⟨hpart, hparts⟩ := List.forall_mem_cons.mp h
    rw [List.flatten_cons, List.foldl_append, foldl_step_full hpart, ih hparts, List.append_assoc,
      List.singleton_append]

/-- **Full parts and a rest that is not full are what the loop finds.** -/
theorem cut_eq {xs : List α} {cuts : List (List α) × List α} (h : Cut size start limit xs cuts) :
    cut size start limit xs = cuts := by
  rw [cut, ← h.flatten, List.foldl_append, foldl_step_parts h.full, foldl_step_unfilled h.unfilled,
    List.nil_append]

/-- **Nothing is left at the end** of a list that is made of full parts, and of no other. -/
theorem rest_eq_nil_iff {xs : List α} : (cut size start limit xs).2 = [] ↔
    ∃ parts : List (List α), parts.flatten = xs ∧ ∀ part ∈ parts, Full size start limit part := by
  have hcut : Cut size start limit xs (cut size start limit xs) := cut_spec xs
  constructor
  · intro hnil
    have hflatten := hcut.flatten
    rw [hnil, List.append_nil] at hflatten
    exact ⟨_, hflatten, hcut.full⟩
  · rintro ⟨parts, hflatten, hfull⟩
    have hparts : Cut size start limit xs (parts, []) :=
      ⟨by rw [hflatten, List.append_nil], hfull, unfilled_nil⟩
    rw [cut_eq hparts]

end Py.Cuts

import Mathlib.Data.List.Basic

/-!
# Boolean formulas over arbitrary atoms

The truth value of a formula, and an induction principle that follows its nested
lists.
-/

namespace BoolLogic

/-! ## Formulas -/

inductive Formula (α : Type) where
  | atom (a : α)
  | all (fs : List (Formula α))
  | any (fs : List (Formula α))
  | neg (f : Formula α)

namespace Formula

variable {α : Type}

mutual
/-- The truth value of a formula: the empty conjunction is true and the empty
disjunction is false. -/
def eval (v : α → Bool) : Formula α → Bool
  | .atom a => v a
  | .all fs => evalAll v fs
  | .any fs => evalAny v fs
  | .neg f => !eval v f

def evalAll (v : α → Bool) : List (Formula α) → Bool
  | [] => true
  | f :: fs => eval v f && evalAll v fs

def evalAny (v : α → Bool) : List (Formula α) → Bool
  | [] => false
  | f :: fs => eval v f || evalAny v fs
end

theorem evalAll_eq (v : α → Bool) (fs : List (Formula α)) : evalAll v fs = fs.all (eval v) := by
  induction fs with
  | nil => rfl
  | cons f fs ih => exact congrArg (eval v f && ·) ih

theorem evalAny_eq (v : α → Bool) (fs : List (Formula α)) : evalAny v fs = fs.any (eval v) := by
  induction fs with
  | nil => rfl
  | cons f fs ih => exact congrArg (eval v f || ·) ih

@[simp] theorem eval_atom (v : α → Bool) (a : α) : eval v (.atom a) = v a := rfl

@[simp] theorem eval_all (v : α → Bool) (fs : List (Formula α)) :
    eval v (.all fs) = fs.all (eval v) := evalAll_eq v fs

@[simp] theorem eval_any (v : α → Bool) (fs : List (Formula α)) :
    eval v (.any fs) = fs.any (eval v) := evalAny_eq v fs

@[simp] theorem eval_neg (v : α → Bool) (f : Formula α) : eval v (.neg f) = !eval v f := rfl

/-- Induction over a formula with one hypothesis for every member of a list. -/
@[elab_as_elim]
theorem induct {motive : Formula α → Prop}
    (atom : ∀ a, motive (.atom a))
    (all : ∀ fs, (∀ f ∈ fs, motive f) → motive (.all fs))
    (any : ∀ fs, (∀ f ∈ fs, motive f) → motive (.any fs))
    (neg : ∀ f, motive f → motive (.neg f)) (f : Formula α) : motive f :=
  @Formula.rec α motive (fun fs => ∀ f ∈ fs, motive f) atom all any neg (by simp)
    (fun f fs hf hfs => by
      intro g hg
      rcases List.mem_cons.mp hg with rfl | hg
      · exact hf
      · exact hfs g hg) f

mutual
/-- The atoms of a formula, from left to right. -/
def atoms : Formula α → List α
  | .atom a => [a]
  | .all fs => atomsList fs
  | .any fs => atomsList fs
  | .neg f => atoms f

def atomsList : List (Formula α) → List α
  | [] => []
  | f :: fs => atoms f ++ atomsList fs
end

theorem atomsList_eq (fs : List (Formula α)) : atomsList fs = fs.flatMap atoms := by
  induction fs with
  | nil => rfl
  | cons f fs ih => exact congrArg (atoms f ++ ·) ih

@[simp] theorem atoms_atom (a : α) : atoms (.atom a) = [a] := rfl

@[simp] theorem atoms_all (fs : List (Formula α)) : atoms (.all fs) = fs.flatMap atoms :=
  atomsList_eq fs

@[simp] theorem atoms_any (fs : List (Formula α)) : atoms (.any fs) = fs.flatMap atoms :=
  atomsList_eq fs

@[simp] theorem atoms_neg (f : Formula α) : atoms (.neg f) = atoms f := rfl

theorem eval_congr (v w : α → Bool) (f : Formula α) (h : ∀ a ∈ atoms f, v a = w a) :
    eval v f = eval w f := by
  induction f using induct with
  | atom a => simpa using h a
  | all fs ih =>
    have e : ∀ f ∈ fs, eval v f = eval w f := fun f hf =>
      ih f hf fun a ha => h a (by simpa using ⟨f, hf, ha⟩)
    rw [eval_all, eval_all, Bool.eq_iff_iff, List.all_eq_true, List.all_eq_true]
    exact forall₂_congr fun f hf => by rw [e f hf]
  | any fs ih =>
    have e : ∀ f ∈ fs, eval v f = eval w f := fun f hf =>
      ih f hf fun a ha => h a (by simpa using ⟨f, hf, ha⟩)
    rw [eval_any, eval_any, Bool.eq_iff_iff, List.any_eq_true, List.any_eq_true]
    exact exists_congr fun f => and_congr_right fun hf => by rw [e f hf]
  | neg f ih => simp only [eval_neg, ih (by simpa using h)]

end Formula

end BoolLogic

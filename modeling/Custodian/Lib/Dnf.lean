import Custodian.Lib.Formula
import Mathlib.Algebra.Order.BigOperators.Ring.List
import Mathlib.Data.Multiset.Bind
import Mathlib.Tactic.Ring

/-!
# Disjunctive normal forms

A normal form is a list of conjunctions of literals.  Negation is pushed to the
atoms by a polarity, so that a formula and its negation have one definition.
-/

namespace BoolLogic

/-- An atom, negated if the flag is set. -/
abbrev Literal (α : Type) := Bool × α

abbrev Conjunction (α : Type) := List (Literal α)

abbrev Dnf (α : Type) := List (Conjunction α)

variable {α : Type}

/-! ## Meaning -/

def evalLiteral (v : α → Bool) (l : Literal α) : Bool := v l.2 != l.1

def evalConjunction (v : α → Bool) (c : Conjunction α) : Bool := c.all (evalLiteral v)

def evalDnf (v : α → Bool) (d : Dnf α) : Bool := d.any (evalConjunction v)

section Eval

variable (v : α → Bool)

@[simp] theorem evalDnf_nil : evalDnf v [] = false := rfl

@[simp] theorem evalDnf_true : evalDnf v [[]] = true := rfl

@[simp] theorem evalDnf_append (d e : Dnf α) :
    evalDnf v (d ++ e) = (evalDnf v d || evalDnf v e) := List.any_append

@[simp] theorem evalConjunction_append (c d : Conjunction α) :
    evalConjunction v (c ++ d) = (evalConjunction v c && evalConjunction v d) := List.all_append

theorem evalDnf_flatten (ds : List (Dnf α)) : evalDnf v ds.flatten = ds.any (evalDnf v) := by
  induction ds with
  | nil => rfl
  | cons d ds ih => rw [List.flatten_cons, evalDnf_append, ih, List.any_cons]

end Eval

/-! ## Products -/

/-- Every conjunction of `d` joined with every one of `e`. -/
def product (d e : Dnf α) : Dnf α := d.flatMap fun c => e.map fun c' => c ++ c'

/-- The product of a list, from left to right. -/
def products (ds : List (Dnf α)) : Dnf α := ds.foldl product [[]]

theorem evalDnf_map (v : α → Bool) (c : Conjunction α) (e : Dnf α) :
    evalDnf v (e.map fun c' => c ++ c') = (evalConjunction v c && evalDnf v e) := by
  induction e with
  | nil => simp
  | cons c' e ih =>
    rw [evalDnf] at ih ⊢
    rw [List.map_cons, List.any_cons, ih, evalConjunction_append, ← Bool.and_or_distrib_left]
    rfl

theorem evalDnf_product (v : α → Bool) (d e : Dnf α) :
    evalDnf v (product d e) = (evalDnf v d && evalDnf v e) := by
  induction d with
  | nil => rfl
  | cons c d ih =>
    rw [product] at ih ⊢
    rw [List.flatMap_cons, evalDnf_append, evalDnf_map, ih, ← Bool.and_or_distrib_right]
    rfl

theorem evalDnf_foldl (v : α → Bool) (d : Dnf α) (ds : List (Dnf α)) :
    evalDnf v (ds.foldl product d) = (evalDnf v d && ds.all (evalDnf v)) := by
  induction ds generalizing d with
  | nil => simp
  | cons e ds ih => rw [List.foldl_cons, ih, evalDnf_product, List.all_cons, Bool.and_assoc]

theorem evalDnf_products (v : α → Bool) (ds : List (Dnf α)) :
    evalDnf v (products ds) = ds.all (evalDnf v) := by
  rw [products, evalDnf_foldl, evalDnf_true, Bool.true_and]

theorem length_product (d e : Dnf α) : (product d e).length = d.length * e.length := by
  induction d with
  | nil => simp [product]
  | cons c d ih =>
    rw [product] at ih ⊢
    rw [List.flatMap_cons, List.length_append, ih, List.length_map, List.length_cons]
    ring

theorem length_foldl (d : Dnf α) (ds : List (Dnf α)) :
    (ds.foldl product d).length = d.length * (ds.map List.length).prod := by
  induction ds generalizing d with
  | nil => simp
  | cons e ds ih =>
    rw [List.foldl_cons, ih, length_product, List.map_cons, List.prod_cons, Nat.mul_assoc]

theorem length_products (ds : List (Dnf α)) : (products ds).length = (ds.map List.length).prod := by
  rw [products, length_foldl, List.length_singleton, Nat.one_mul]

theorem prod_length_pos {ds : List (Dnf α)} (h : ∀ e ∈ ds, e ≠ []) :
    0 < (ds.map List.length).prod := by
  refine List.prod_pos_iff_forall_pos_nat.mpr fun n hn => ?_
  obtain ⟨e, he, rfl⟩ := List.mem_map.mp hn
  exact List.length_pos_iff.mpr (h e he)

theorem length_le_foldl (d : Dnf α) {ds : List (Dnf α)} (h : ∀ e ∈ ds, e ≠ []) :
    d.length ≤ (ds.foldl product d).length := by
  rw [length_foldl]
  exact Nat.le_mul_of_pos_right _ (prod_length_pos h)

theorem length_le_products {ds : List (Dnf α)} (h : ∀ e ∈ ds, e ≠ []) {d : Dnf α} (hd : d ∈ ds) :
    d.length ≤ (products ds).length := by
  rw [length_products]
  obtain ⟨as, bs, rfl⟩ := List.append_of_mem hd
  have has := prod_length_pos fun e he => h e (List.mem_append_left (d :: bs) he)
  have hbs := prod_length_pos fun e he => h e (List.mem_append_right as (List.mem_cons_of_mem d he))
  rw [List.map_append, List.prod_append, List.map_cons, List.prod_cons]
  exact le_trans (Nat.le_mul_of_pos_right _ hbs) (Nat.le_mul_of_pos_left _ has)

theorem length_le_flatten {ds : List (Dnf α)} {d : Dnf α} (hd : d ∈ ds) :
    d.length ≤ ds.flatten.length := by
  obtain ⟨as, bs, rfl⟩ := List.append_of_mem hd
  rw [List.flatten_append, List.flatten_cons, List.length_append, List.length_append]
  omega

/-! ## The normal form of a formula -/

/-- What a conjunction or a disjunction makes of the normal forms of its operands;
a negated one is the other of the negated operands. -/
def combine (conjunction : Bool) (ds : List (Dnf α)) : Dnf α :=
  if conjunction then products ds else ds.flatten

theorem length_le_combine {conjunction : Bool} {ds : List (Dnf α)} (h : ∀ d ∈ ds, d ≠ [])
    {d : Dnf α} (hd : d ∈ ds) : d.length ≤ (combine conjunction ds).length := by
  cases conjunction
  · exact length_le_flatten hd
  · exact length_le_products h hd

theorem combine_ne_nil {conjunction : Bool} {ds : List (Dnf α)} (hne : ds ≠ [])
    (h : ∀ d ∈ ds, d ≠ []) : combine conjunction ds ≠ [] := by
  obtain ⟨d, hd⟩ := List.exists_mem_of_ne_nil ds hne
  have hpos := List.length_pos_iff.mpr (h d hd)
  exact List.length_pos_iff.mp (lt_of_lt_of_le hpos (length_le_combine h hd))

/-! ## Order -/

/-- A normal form up to the order of conjunctions and of their literals. -/
def unordered (d : Dnf α) : Multiset (Multiset (Literal α)) :=
  Multiset.ofList (d.map Multiset.ofList)

def unorderedProduct (x y : Multiset (Multiset (Literal α))) : Multiset (Multiset (Literal α)) :=
  x.bind fun c => y.map fun c' => c + c'

@[simp] theorem unordered_cons (c : Conjunction α) (d : Dnf α) :
    unordered (c :: d) = (c : Multiset (Literal α)) ::ₘ unordered d := rfl

@[simp] theorem unordered_append (d e : Dnf α) :
    unordered (d ++ e) = unordered d + unordered e := by
  rw [unordered, List.map_append, ← Multiset.coe_add]
  rfl

theorem card_unordered (d : Dnf α) : (unordered d).card = d.length := by
  rw [unordered, Multiset.coe_card, List.length_map]

theorem unordered_product (d e : Dnf α) :
    unordered (product d e) = unorderedProduct (unordered d) (unordered e) := by
  induction d with
  | nil => rfl
  | cons c d ih =>
    rw [product] at ih ⊢
    rw [List.flatMap_cons, unordered_append, ih, unordered_cons, unorderedProduct,
      unorderedProduct, Multiset.cons_bind]
    congr 1
    rw [unordered, unordered, Multiset.map_coe, List.map_map, List.map_map]
    rfl

theorem unorderedProduct_right_comm (x y z : Multiset (Multiset (Literal α))) :
    unorderedProduct (unorderedProduct x y) z = unorderedProduct (unorderedProduct x z) y := by
  simp only [unorderedProduct, Multiset.bind_assoc, Multiset.bind_map]
  refine Multiset.bind_congr fun c _ => ?_
  rw [Multiset.bind_map_comm]
  exact Multiset.bind_congr fun a _ => Multiset.map_congr rfl fun b _ => by
    rw [add_right_comm]

instance : RightCommutative (unorderedProduct (α := α)) := ⟨unorderedProduct_right_comm⟩

theorem unordered_foldl (d : Dnf α) (ds : List (Dnf α)) :
    unordered (ds.foldl product d) = (ds.map unordered).foldl unorderedProduct (unordered d) := by
  induction ds generalizing d with
  | nil => rfl
  | cons e ds ih => rw [List.foldl_cons, ih, unordered_product, List.map_cons, List.foldl_cons]

theorem unordered_flatten (ds : List (Dnf α)) :
    unordered ds.flatten = (ds.map unordered).sum := by
  induction ds with
  | nil => rfl
  | cons d ds ih => rw [List.flatten_cons, unordered_append, ih, List.map_cons, List.sum_cons]

/-- **Order.**  Up to order, operands can be combined in any order. -/
theorem unordered_combine {conjunction : Bool} {ds es : List (Dnf α)}
    (h : (ds.map unordered).Perm (es.map unordered)) :
    unordered (combine conjunction ds) = unordered (combine conjunction es) := by
  cases conjunction
  · exact (unordered_flatten ds).trans (h.sum_eq.trans (unordered_flatten es).symm)
  · exact (unordered_foldl [[]] ds).trans ((h.foldl_eq _).trans (unordered_foldl [[]] es).symm)

theorem exists_perm_of_mem {d e : Dnf α} (h : unordered d = unordered e) {c : Conjunction α}
    (hc : c ∈ d) : ∃ c' ∈ e, c.Perm c' := by
  have hmem : (c : Multiset (Literal α)) ∈ unordered e := by
    rw [← h]
    exact Multiset.mem_coe.mpr (List.mem_map_of_mem hc)
  obtain ⟨c', hc', heq⟩ := List.mem_map.mp (Multiset.mem_coe.mp hmem)
  exact ⟨c', hc', (Multiset.coe_eq_coe.mp heq).symm⟩

namespace Formula

mutual
/-- The normal form of a formula, or of its negation. -/
def dnf : Formula α → Bool → Dnf α
  | .atom a, negated => [[(negated, a)]]
  | .neg f, negated => dnf f (!negated)
  | .all fs, negated => combine (!negated) (dnfs fs negated)
  | .any fs, negated => combine negated (dnfs fs negated)

def dnfs : List (Formula α) → Bool → List (Dnf α)
  | [], _ => []
  | f :: fs, negated => dnf f negated :: dnfs fs negated
end

theorem dnfs_eq (fs : List (Formula α)) (negated : Bool) :
    dnfs fs negated = fs.map fun f => dnf f negated := by
  induction fs with
  | nil => rfl
  | cons f fs ih => exact congrArg (dnf f negated :: ·) ih

theorem dnf_all (fs : List (Formula α)) (negated : Bool) :
    dnf (.all fs) negated = combine (!negated) (fs.map fun f => dnf f negated) :=
  congrArg (combine (!negated)) (dnfs_eq fs negated)

theorem dnf_any (fs : List (Formula α)) (negated : Bool) :
    dnf (.any fs) negated = combine negated (fs.map fun f => dnf f negated) :=
  congrArg (combine negated) (dnfs_eq fs negated)

theorem evalDnf_combine (v : α → Bool) (conjunction : Bool) (ds : List (Dnf α)) :
    evalDnf v (combine conjunction ds) =
      if conjunction then ds.all (evalDnf v) else ds.any (evalDnf v) := by
  cases conjunction
  · exact evalDnf_flatten v ds
  · exact evalDnf_products v ds

theorem evalDnf_operands (v : α → Bool) (conjunction negated : Bool) {fs : List (Formula α)}
    (h : ∀ f ∈ fs, evalDnf v (dnf f negated) = (eval v f != negated)) :
    evalDnf v (combine conjunction (fs.map fun f => dnf f negated)) =
      if conjunction then fs.all fun f => eval v f != negated
      else fs.any fun f => eval v f != negated := by
  rw [evalDnf_combine, List.all_map, List.any_map]
  split
  · rw [Bool.eq_iff_iff, List.all_eq_true, List.all_eq_true]
    exact forall₂_congr fun f hf => by rw [Function.comp_apply, h f hf]
  · rw [Bool.eq_iff_iff, List.any_eq_true, List.any_eq_true]
    exact exists_congr fun f => and_congr_right fun hf => by rw [Function.comp_apply, h f hf]

/-- **Meaning.**  The normal form is true under exactly the valuations that make the
formula true, or false if it is negated. -/
theorem evalDnf_dnf (v : α → Bool) (f : Formula α) (negated : Bool) :
    evalDnf v (dnf f negated) = (eval v f != negated) := by
  induction f using induct generalizing negated with
  | atom a => simp [dnf, evalDnf, evalConjunction, evalLiteral]
  -- De Morgan: under negation one of the two operators has become the other
  | all fs ih =>
    rw [dnf_all, evalDnf_operands v _ _ fun f hf => ih f hf negated, eval_all]
    cases negated <;> simp [List.all_eq_not_any_not]
  | any fs ih =>
    rw [dnf_any, evalDnf_operands v _ _ fun f hf => ih f hf negated, eval_any]
    cases negated <;> simp [List.all_eq_not_any_not]
  | neg f ih =>
    rw [dnf, ih, eval_neg]
    cases eval v f <;> cases negated <;> rfl

/-- Every conjunction of a combination is made of literals of the operands. -/
theorem exists_operand_of_mem {conjunction : Bool} {ds : List (Dnf α)} {c : Conjunction α}
    (hc : c ∈ combine conjunction ds) {l : Literal α} (hl : l ∈ c) :
    ∃ d ∈ ds, ∃ c' ∈ d, l ∈ c' := by
  cases conjunction
  · obtain ⟨d, hd, hc⟩ := List.mem_flatten.mp hc
    exact ⟨d, hd, c, hc, hl⟩
  · have hfold : ∀ (ds : List (Dnf α)) (d : Dnf α), c ∈ ds.foldl product d →
        (∃ c' ∈ d, l ∈ c') ∨ ∃ e ∈ ds, ∃ c' ∈ e, l ∈ c' := by
      intro ds
      induction ds with
      | nil => exact fun d hd => Or.inl ⟨c, hd, hl⟩
      | cons e ds ih =>
        intro d hd
        rcases ih _ hd with ⟨c', hc', hl'⟩ | ⟨e', he', h⟩
        · obtain ⟨a, ha, hc'⟩ := List.mem_flatMap.mp hc'
          obtain ⟨b, hb, rfl⟩ := List.mem_map.mp hc'
          rcases List.mem_append.mp hl' with hl' | hl'
          · exact Or.inl ⟨a, ha, hl'⟩
          · exact Or.inr ⟨e, List.mem_cons_self, b, hb, hl'⟩
        · exact Or.inr ⟨e', List.mem_cons_of_mem e he', h⟩
    rcases hfold ds [[]] hc with ⟨c', hc', hl'⟩ | h
    · rw [List.mem_singleton.mp hc'] at hl'
      cases hl'
    · exact h

/-- The literals of a normal form are made of the atoms of the formula. -/
theorem mem_atoms_of_mem_dnf {f : Formula α} {negated : Bool} {c : Conjunction α}
    (hc : c ∈ dnf f negated) {l : Literal α} (hl : l ∈ c) : l.2 ∈ atoms f := by
  induction f using induct generalizing negated c with
  | atom a =>
    rw [dnf] at hc
    rw [List.mem_singleton.mp hc] at hl
    rw [List.mem_singleton.mp hl, atoms_atom]
    exact List.mem_cons_self
  | all fs ih =>
    rw [dnf_all] at hc
    obtain ⟨d, hd, c', hc', hl'⟩ := exists_operand_of_mem hc hl
    obtain ⟨f, hf, rfl⟩ := List.mem_map.mp hd
    rw [atoms_all]
    exact List.mem_flatMap.mpr ⟨f, hf, ih f hf hc' hl'⟩
  | any fs ih =>
    rw [dnf_any] at hc
    obtain ⟨d, hd, c', hc', hl'⟩ := exists_operand_of_mem hc hl
    obtain ⟨f, hf, rfl⟩ := List.mem_map.mp hd
    rw [atoms_any]
    exact List.mem_flatMap.mpr ⟨f, hf, ih f hf hc' hl'⟩
  | neg f ih =>
    rw [dnf] at hc
    rw [atoms_neg]
    exact ih hc hl

end Formula

end BoolLogic

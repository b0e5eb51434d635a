import Mathlib.Data.List.Basic

/-!
# And/or trees folded from left to right

A tree of `and` and `or` groups is a Boolean formula.  It can also be folded: its leaves are taken
in order into one value, each under the operator of the group that it stands in.  Leaves under an
operator that is not live are looked at only when they come first.
-/

namespace BoolLogic

/-! ## Operators -/

inductive Op where
  | and
  | or
  deriving DecidableEq, Repr

namespace Op

def apply : Op → Bool → Bool → Bool
  | .and, a, b => a && b
  | .or, a, b => a || b

/-- The value that changes nothing. -/
def unit : Op → Bool
  | .and => true
  | .or => false

def dual : Op → Op
  | .and => .or
  | .or => .and

@[simp] theorem apply_unit (op : Op) (b : Bool) : op.apply b op.unit = b := by
  cases op <;> cases b <;> rfl

@[simp] theorem unit_apply (op : Op) (b : Bool) : op.apply op.unit b = b := by
  cases op <;> cases b <;> rfl

@[simp] theorem unit_dual (op : Op) : op.dual.unit = !op.unit := by cases op <;> rfl

@[simp] theorem dual_dual (op : Op) : op.dual.dual = op := by cases op <;> rfl

@[simp] theorem apply_not_unit (op : Op) (b : Bool) : op.apply b (!op.unit) = !op.unit := by
  cases op <;> cases b <;> rfl

@[simp] theorem not_unit_apply (op : Op) (b : Bool) : op.apply (!op.unit) b = !op.unit := by
  cases op <;> cases b <;> rfl

theorem eq_dual_of_ne {o op : Op} (h : o ≠ op) : o = op.dual := by
  cases o <;> cases op <;> first | rfl | exact absurd rfl h

theorem ne_dual (op : Op) : op ≠ op.dual := by cases op <;> decide

end Op

/-! ## Trees -/

/-- A leaf, or a group of one or more members. -/
inductive AndOr (α : Type) where
  | leaf (a : α)
  | group (op : Op) (first : AndOr α) (rest : List (AndOr α))

namespace AndOr

variable {α β : Type}

/-- Induction over a tree with one hypothesis for every member of a group. -/
@[elab_as_elim]
theorem induct {motive : AndOr α → Prop} (leaf : ∀ a, motive (.leaf a))
    (group : ∀ op first rest, motive first → (∀ t ∈ rest, motive t) →
      motive (.group op first rest)) (t : AndOr α) : motive t :=
  @AndOr.rec α motive (fun ts => ∀ t ∈ ts, motive t) leaf group (List.forall_mem_nil _)
    (fun _ _ ht hts => List.forall_mem_cons.mpr ⟨ht, hts⟩) t

mutual
def map (f : α → β) : AndOr α → AndOr β
  | .leaf a => .leaf (f a)
  | .group op t ts => .group op (map f t) (mapAll f ts)

def mapAll (f : α → β) : List (AndOr α) → List (AndOr β)
  | [] => []
  | t :: ts => map f t :: mapAll f ts
end

theorem mapAll_eq (f : α → β) (ts : List (AndOr α)) : mapAll f ts = ts.map (map f) := by
  induction ts with
  | nil => rfl
  | cons t ts ih => rw [mapAll, ih, List.map_cons]

@[simp] theorem map_leaf (f : α → β) (a : α) : (leaf a).map f = .leaf (f a) := by rw [map]

@[simp] theorem map_group (f : α → β) (op : Op) (t : AndOr α) (ts : List (AndOr α)) :
    (group op t ts).map f = .group op (t.map f) (ts.map (map f)) := by rw [map, mapAll_eq]

theorem map_map {γ : Type} (g : β → γ) (f : α → β) (t : AndOr α) :
    (t.map f).map g = t.map (g ∘ f) := by
  induction t using induct with
  | leaf a => simp
  | group op t ts iht ihts =>
    rw [map_group, map_group, map_group, iht, List.map_map]
    exact congrArg _ (List.map_congr_left ihts)

theorem map_id (t : AndOr α) : t.map id = t := by
  induction t using induct with
  | leaf a => rw [map_leaf, id_eq]
  | group op t ts iht ihts =>
    rw [map_group, iht]
    exact congrArg _ ((List.map_congr_left ihts).trans ts.map_id)

/-- The tree without its leaves. -/
def shape (t : AndOr α) : AndOr Unit := t.map fun _ => ()

@[simp] theorem shape_map (f : α → β) (t : AndOr α) : (t.map f).shape = t.shape := map_map _ f t

/-! ## Values -/

mutual
/-- The value of the formula. -/
def eval : AndOr Bool → Bool
  | .leaf b => b
  | .group op t ts => op.apply (eval t) (evalAll op ts)

def evalAll (op : Op) : List (AndOr Bool) → Bool
  | [] => op.unit
  | t :: ts => op.apply (eval t) (evalAll op ts)
end

variable (live : Op → Bool)

mutual
/-- The leaves from left to right into one value, for a tree in a group of `op`. -/
def fold (op : Op) : AndOr Bool → Option Bool → Bool
  | .leaf b, none => b
  | .leaf b, some a => if live op then op.apply a b else a
  | .group op' t ts, o => foldAll op' ts (fold op' t o)

def foldAll (op : Op) : List (AndOr Bool) → Bool → Bool
  | [], a => a
  | t :: ts, a => foldAll op ts (fold op t (some a))
end

theorem foldAll_append (op : Op) (ts us : List (AndOr Bool)) (a : Bool) :
    foldAll live op (ts ++ us) a = foldAll live op us (foldAll live op ts a) := by
  induction ts generalizing a with
  | nil => rfl
  | cons t ts ih => rw [List.cons_append, foldAll, foldAll, ih]

theorem evalAll_append (op : Op) (ts us : List (AndOr Bool)) :
    evalAll op (ts ++ us) = op.apply (evalAll op ts) (evalAll op us) := by
  induction ts with
  | nil => rw [List.nil_append, evalAll, op.unit_apply]
  | cons t ts ih =>
    rw [List.cons_append, evalAll, evalAll, ih]
    cases op
    · exact (Bool.and_assoc _ _ _).symm
    · exact (Bool.or_assoc _ _ _).symm

/-! ## Leaves of one value -/

/-- A tree of the shape with one value at all leaves. -/
def const (b : Bool) (s : AndOr Unit) : AndOr Bool := s.map fun _ => b

@[simp] theorem shape_const (b : Bool) (s : AndOr Unit) : (const b s).shape = s := by
  rw [const, shape_map]
  exact s.map_id

mutual
/-- Some live leaf stands in a group of `o`. -/
def hits (o op : Op) : AndOr α → Bool
  | .leaf _ => op == o && live o
  | .group op' t ts => hits o op' t || hitsAny o op' ts

def hitsAny (o op : Op) : List (AndOr α) → Bool
  | [] => false
  | t :: ts => hits o op t || hitsAny o op ts
end

theorem hitsAny_eq_false {o op : Op} {ts : List (AndOr α)} :
    hitsAny live o op ts = false ↔ ∀ t ∈ ts, hits live o op t = false := by
  induction ts with
  | nil => simp [hitsAny]
  | cons t ts ih => rw [hitsAny, Bool.or_eq_false_iff, ih, List.forall_mem_cons]

theorem foldAll_const {o op : Op} {ts : List (AndOr Unit)}
    (h : ∀ t ∈ ts, ∀ a, (const o.unit t).fold live op (some a) =
      if hits live o.dual op t then o.unit else a) (a : Bool) :
    foldAll live op (ts.map (const o.unit)) a =
      if hitsAny live o.dual op ts then o.unit else a := by
  induction ts generalizing a with
  | nil => rfl
  | cons t ts ih =>
    obtain ⟨ht, hts⟩ := List.forall_mem_cons.mp h
    rw [List.map_cons, foldAll, ht, ih hts, hitsAny]
    cases hits live o.dual op t <;> cases hitsAny live o.dual op ts <;> rfl

/-- **Constant leaves.**  The unit of `o` is kept by leaves in groups of `o`, and a live leaf of the
other operator turns everything into it. -/
theorem fold_const (o op : Op) (s : AndOr Unit) (a : Bool) :
    (const o.unit s).fold live op (some a) = if hits live o.dual op s then o.unit else a := by
  induction s using induct generalizing op a with
  | leaf u =>
    rw [const, map_leaf, fold, hits]
    by_cases h : op = o.dual
    · subst h
      have hunit : o.dual.apply a o.unit = o.unit := by
        have := o.dual.apply_not_unit a
        rwa [Op.unit_dual, Bool.not_not] at this
      cases live o.dual <;> simp [hunit]
    · have hop : op = o := by simpa using Op.eq_dual_of_ne h
      subst hop
      simp [op.ne_dual]
  | group op' t ts iht ihts =>
    rw [const, map_group, fold, ← const, iht]
    refine (foldAll_const live (fun t ht a => ihts t ht op' a) _).trans ?_
    rw [hits]
    cases hits live o.dual op' t <;> cases hitsAny live o.dual op' ts <;> rfl

theorem foldAll_const_unit (o op : Op) (ts : List (AndOr Unit)) (a : Bool) :
    foldAll live op (ts.map (const o.unit)) a = if hitsAny live o.dual op ts then o.unit else a :=
  foldAll_const live (fun t _ a => fold_const live o op t a) a

theorem fold_const_none (b : Bool) (op : Op) (s : AndOr Unit) :
    (const b s).fold live op none = b := by
  obtain ⟨o, rfl⟩ : ∃ o : Op, b = o.unit := by
    cases b
    · exact ⟨.or, rfl⟩
    · exact ⟨.and, rfl⟩
  induction s using induct generalizing op with
  | leaf u => rw [const, map_leaf, fold]
  | group op' t ts iht _ =>
    rw [const, map_group, fold, ← const, iht]
    refine (foldAll_const_unit live o op' ts _).trans ?_
    rw [ite_self]

theorem evalAll_const {o : Op} {b : Bool} {ts : List (AndOr Unit)}
    (h : ∀ t ∈ ts, (const b t).eval = b) (hne : ts ≠ []) : evalAll o (ts.map (const b)) = b := by
  induction ts with
  | nil => exact absurd rfl hne
  | cons t ts ih =>
    obtain ⟨ht, hts⟩ := List.forall_mem_cons.mp h
    rw [List.map_cons, evalAll, ht]
    cases ts with
    | nil => exact o.apply_unit b
    | cons u us =>
      rw [ih hts (List.cons_ne_nil u us)]
      cases o <;> cases b <;> rfl

theorem eval_const (b : Bool) (s : AndOr Unit) : (const b s).eval = b := by
  induction s using induct with
  | leaf u => rw [const, map_leaf, eval]
  | group op t ts iht ihts =>
    rw [const, map_group, eval, ← const, iht]
    cases ts with
    | nil => exact op.apply_unit b
    | cons u us =>
      have hall : evalAll op ((u :: us).map (const b)) = b :=
        evalAll_const ihts (List.cons_ne_nil u us)
      refine (congrArg _ hall).trans ?_
      cases op <;> cases b <;> rfl

theorem evalAll_const_unit (op : Op) (ts : List (AndOr Unit)) :
    evalAll op (ts.map (const op.unit)) = op.unit := by
  cases ts with
  | nil => rfl
  | cons t ts => exact evalAll_const (fun t _ => eval_const _ t) (List.cons_ne_nil t ts)

/-! ## Trees that the fold evaluates -/

mutual
/-- Under `op` the tree, in a group of `q`, is one more operand: all its leaves stand in groups of
`op`, which is live, and so does everything in its groups of several members. -/
def joins (op q : Op) : AndOr α → Bool
  | .leaf _ => q == op && live op
  | .group q' t ts => (ts.isEmpty || q' == op) && (joins op q' t && joinsAll op q' ts)

def joinsAll (op q : Op) : List (AndOr α) → Bool
  | [] => true
  | t :: ts => joins op q t && joinsAll op q ts
end

/-- The later members of every group on the left edge join it. -/
def starts : AndOr α → Bool
  | .leaf _ => true
  | .group q t ts => starts t && joinsAll live q q ts

theorem joinsAll_eq_true {op q : Op} {ts : List (AndOr α)} :
    joinsAll live op q ts = true ↔ ∀ t ∈ ts, joins live op q t = true := by
  induction ts with
  | nil => simp [joinsAll]
  | cons t ts ih => rw [joinsAll, Bool.and_eq_true, ih, List.forall_mem_cons]

theorem joins_group {op q q' : Op} {t : AndOr α} {ts : List (AndOr α)} :
    joins live op q (.group q' t ts) = true ↔
      (ts ≠ [] → q' = op) ∧ ∀ u ∈ t :: ts, joins live op q' u = true := by
  rw [joins, Bool.and_eq_true, Bool.and_eq_true, joinsAll_eq_true, List.forall_mem_cons,
    Bool.or_eq_true, List.isEmpty_iff, beq_iff_eq]
  exact and_congr_left fun _ => or_iff_not_imp_left

theorem starts_group {q : Op} {t : AndOr α} {ts : List (AndOr α)} :
    starts live (.group q t ts) = true ↔
      starts live t = true ∧ ∀ u ∈ ts, joins live q q u = true := by
  rw [starts, Bool.and_eq_true, joinsAll_eq_true]

theorem joins_map (f : α → β) (op q : Op) (t : AndOr α) :
    joins live op q (t.map f) = joins live op q t := by
  induction t using induct generalizing q with
  | leaf a => simp [joins]
  | group q' t ts iht ihts =>
    rw [Bool.eq_iff_iff, map_group, joins_group, joins_group, ← List.map_cons,
      List.forall_mem_map, ne_eq, List.map_eq_nil_iff]
    refine and_congr_right fun _ => forall₂_congr fun u hu => ?_
    rcases List.mem_cons.mp hu with rfl | hu
    · rw [iht]
    · rw [ihts u hu]

theorem starts_map (f : α → β) (t : AndOr α) : starts live (t.map f) = starts live t := by
  induction t using induct with
  | leaf a => simp [starts]
  | group q t ts iht _ =>
    rw [Bool.eq_iff_iff, map_group, starts_group, starts_group, iht, List.forall_mem_map]
    simp only [joins_map]

variable {live}

/-- The members of a list of shapes. -/
def Shaped (ts : List (AndOr Bool)) (ss : List (AndOr Unit)) : Prop := ts.map shape = ss

theorem shaped_const (b : Bool) (ss : List (AndOr Unit)) : Shaped (ss.map (const b)) ss := by
  rw [Shaped, List.map_map]
  exact (List.map_congr_left fun s _ => shape_const b s).trans ss.map_id

theorem Shaped.append {ts us : List (AndOr Bool)} {ss rs : List (AndOr Unit)} (h : Shaped ts ss)
    (h' : Shaped us rs) : Shaped (ts ++ us) (ss ++ rs) := by
  rw [Shaped, List.map_append, h, h']

theorem Shaped.cons {t : AndOr Bool} {ts : List (AndOr Bool)} {s : AndOr Unit}
    {ss : List (AndOr Unit)} (h : t.shape = s) (h' : Shaped ts ss) :
    Shaped (t :: ts) (s :: ss) := by rw [Shaped, List.map_cons, h, h']

/-- The members of a list are one operand of `op` for all values of the leaves. -/
def Operand (live : Op → Bool) (op q : Op) (ss : List (AndOr Unit)) : Prop :=
  ∀ ts, Shaped ts ss → ∀ a, foldAll live q ts a = op.apply a (evalAll q ts)

theorem Operand.hitsAny_dual {op : Op} {ss : List (AndOr Unit)} (h : Operand live op op ss) :
    hitsAny live op.dual op ss = false := by
  have hfold := h _ (shaped_const op.unit ss) (!op.unit)
  rw [foldAll_const_unit, evalAll_const_unit, op.apply_unit] at hfold
  cases hhits : hitsAny live op.dual op ss
  · rfl
  · rw [hhits, if_pos rfl] at hfold
    exact absurd hfold (by cases op <;> decide)

theorem Operand.member {op : Op} {pre post : List (AndOr Unit)} {s : AndOr Unit}
    (h : Operand live op op (pre ++ s :: post)) {t : AndOr Bool} (ht : t.shape = s) (a : Bool) :
    t.fold live op (some a) = op.apply a t.eval := by
  have hhits := (hitsAny_eq_false live).mp h.hitsAny_dual
  have hpre : hitsAny live op.dual op pre = false :=
    (hitsAny_eq_false live).mpr fun u hu => hhits u (List.mem_append_left _ hu)
  have hpost : hitsAny live op.dual op post = false := (hitsAny_eq_false live).mpr fun u hu =>
    hhits u (List.mem_append_right _ (List.mem_cons_of_mem _ hu))
  have hfold := h _ ((shaped_const op.unit pre).append (.cons ht (shaped_const op.unit post))) a
  rw [foldAll_append, foldAll, foldAll_const_unit, foldAll_const_unit, hpre, hpost,
    evalAll_append, evalAll, evalAll_const_unit, evalAll_const_unit, op.unit_apply,
    op.apply_unit] at hfold
  exact hfold

/-- Two members or more are an operand only of the operator of their group. -/
theorem Operand.eq_op {op q : Op} {ss : List (AndOr Unit)} {s : AndOr Unit} (hne : ss ≠ [])
    (h : Operand live op q (ss ++ [s])) : q = op := by
  by_contra hq
  obtain rfl := Op.eq_dual_of_ne hq
  -- the values of the last member against those of the others
  have hvalues : ∀ b c a, foldAll live op.dual (ss.map (const b) ++ [const c s]) a =
      op.apply a (op.dual.apply b c) := by
    intro b c a
    have heval : evalAll op.dual (ss.map (const b)) = b :=
      evalAll_const (fun t _ => eval_const b t) hne
    have hshaped : Shaped [const c s] [s] := .cons (shape_const c s) rfl
    rw [h _ ((shaped_const b ss).append hshaped), evalAll_append, evalAll, evalAll, Op.apply_unit,
      heval, eval_const]
  have hlast : ∀ b c a, foldAll live op.dual (ss.map (const b) ++ [const c s]) a =
      (const c s).fold live op.dual (some (foldAll live op.dual (ss.map (const b)) a)) := by
    intro b c a
    rw [foldAll_append, foldAll, foldAll]
  have hop : hits live op op.dual s = false := by
    have hfold := (hlast op.unit op.dual.unit op.unit).symm.trans (hvalues _ _ _)
    rw [fold_const, foldAll_const_unit, ite_self, op.dual_dual, Op.apply_unit,
      Op.apply_unit] at hfold
    cases hhits : hits live op op.dual s
    · rfl
    · rw [hhits, if_pos rfl] at hfold
      exact absurd hfold (by cases op <;> decide)
  have hdual : hits live op.dual op.dual s = false := by
    have hfold := (hlast op.dual.unit op.unit op.dual.unit).symm.trans (hvalues _ _ _)
    rw [fold_const, foldAll_const_unit, ite_self, Op.unit_apply, Op.apply_unit] at hfold
    cases hhits : hits live op.dual op.dual s
    · rfl
    · rw [hhits, if_pos rfl] at hfold
      exact absurd hfold (by cases op <;> decide)
  -- so the last member has no effect, but its value decides
  have hsame := (hlast op.dual.unit op.unit op.unit).symm.trans (hvalues _ _ _)
  have hother := (hlast op.dual.unit op.dual.unit op.unit).symm.trans (hvalues _ _ _)
  rw [fold_const, hdual] at hsame
  rw [fold_const, op.dual_dual, hop] at hother
  exact absurd (hsame.symm.trans hother) (by cases op <;> decide)

/-- A tree that is an operand for all values of its leaves joins the fold. -/
theorem joins_of_fold {op q : Op} {s : AndOr Unit}
    (h : ∀ t : AndOr Bool, t.shape = s → ∀ a, t.fold live q (some a) = op.apply a t.eval) :
    joins live op q s = true := by
  induction s using induct generalizing op q with
  | leaf u =>
    have hleaf : ∀ b a, (if live q then q.apply a b else a) = op.apply a b := fun b a => by
      have hfold := h (.leaf b) (map_leaf _ b) a
      rwa [fold, eval] at hfold
    rw [joins, Bool.and_eq_true, beq_iff_eq]
    have hvalue := hleaf (!op.unit) op.unit
    rw [op.apply_not_unit] at hvalue
    cases hlive : live q
    · rw [hlive, if_neg Bool.false_ne_true] at hvalue
      exact absurd hvalue (by cases op <;> decide)
    · rw [hlive, if_pos rfl] at hvalue
      obtain rfl : q = op := by
        by_contra hq
        obtain rfl := Op.eq_dual_of_ne hq
        exact absurd hvalue (by cases op <;> decide)
      exact ⟨rfl, hlive⟩
  | group q' t ts iht ihts =>
    have hoperand : Operand live op q' (t :: ts) := by
      intro us hus a
      obtain ⟨u, us, rfl⟩ : ∃ u vs, us = u :: vs := List.exists_cons_of_ne_nil fun hnil => by
        rw [hnil] at hus
        exact List.cons_ne_nil _ _ hus.symm
      have hshape := List.cons.inj hus
      have hfold := h (.group q' u us) ?_ a
      · rwa [fold, eval] at hfold
      · rw [shape, map_group, ← shape, hshape.1]
        exact congrArg _ hshape.2
    rw [joins_group]
    have hop : ts ≠ [] → q' = op := fun hne => by
      obtain ⟨us, s, hts⟩ := List.eq_nil_or_concat' ts |>.resolve_left hne
      rw [hts, ← List.cons_append] at hoperand
      exact hoperand.eq_op (List.cons_ne_nil _ _)
    refine ⟨hop, ?_⟩
    cases ts with
    | nil =>
      intro u hu
      rw [List.mem_singleton.mp hu]
      refine iht fun t' ht' a => ?_
      have hfold := hoperand [t'] (.cons ht' rfl) a
      rwa [foldAll, foldAll, evalAll, evalAll, Op.apply_unit] at hfold
    | cons t₂ ts =>
      obtain rfl := hop (List.cons_ne_nil _ _)
      have hmember : ∀ u ∈ t :: t₂ :: ts, ∀ t' : AndOr Bool, t'.shape = u → ∀ a,
          t'.fold live q' (some a) = q'.apply a t'.eval := by
        intro u hu t' ht' a
        obtain ⟨pre, post, hsplit⟩ := List.append_of_mem hu
        rw [hsplit] at hoperand
        exact hoperand.member ht' a
      intro u hu
      rcases List.mem_cons.mp hu with rfl | hmem
      · exact iht (hmember _ hu)
      · exact ihts u hmem (hmember _ hu)

/-- **The left edge.**  Where folding the leaves from left to right gives the value of the formula
for all values of the leaves, the later members of every group on the left edge join it. -/
theorem starts_of_fold {op : Op} {s : AndOr Unit}
    (h : ∀ t : AndOr Bool, t.shape = s → t.fold live op none = t.eval) :
    starts live s = true := by
  induction s using induct generalizing op with
  | leaf u => rfl
  | group q t ts iht _ =>
    have hgroup : ∀ (t' : AndOr Bool) (us : List (AndOr Bool)), t'.shape = t → Shaped us ts →
        foldAll live q us (t'.fold live q none) = q.apply t'.eval (evalAll q us) := by
      intro t' us ht' hus
      have hfold := h (.group q t' us) ?_
      · rwa [fold, eval] at hfold
      · rw [shape, map_group, ← shape, ht']
        exact congrArg _ hus
    have hoperand : Operand live q q ts := fun us hus a => by
      have hfold := hgroup (const a t) us (shape_const a t) hus
      rwa [fold_const_none, eval_const] at hfold
    rw [starts_group]
    constructor
    · refine @iht q fun t' ht' => ?_
      have hfold := hgroup t' _ ht' (shaped_const q.unit ts)
      rwa [foldAll_const_unit, hoperand.hitsAny_dual, evalAll_const_unit, Op.apply_unit] at hfold
    · intro u hu
      obtain ⟨pre, post, hsplit⟩ := List.append_of_mem hu
      rw [hsplit] at hoperand
      exact joins_of_fold fun t' ht' a => hoperand.member ht' a

end AndOr

end BoolLogic

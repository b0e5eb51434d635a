import Custodian.CloudLogging.SinkOverlap
import Mathlib.Data.Fintype.EquivFin

/-!
# What the verdicts on two Cloud Logging filters say

The verdicts of `compare_cloud_logging_filters` of `c7n_gcp/utils.py` against log entries.  What
the analyser does not evaluate is left to an arbitrary valuation of the leaves.
-/

namespace Custodian.Verdicts

open Py Py.Items Custodian.Tokenizer Custodian.Parser Custodian.Grammar Custodian.ParserSpec
  Custodian.Canonical Custodian.Meaning Custodian.BoundedDnf Custodian.FilterOverlap
  Custodian.SinkOverlap BoolLogic

variable {ct : CaseTable}

/-! ## Log entries -/

/-- `field.lower() == 'severity'` -/
def isSeverity (ct : CaseTable) (field : Text) : Bool :=
  decide (ct.lower field = "severity".toList)

/-- `field.lower().startswith(_REPEATABLE_FIELD_PREFIXES)` -/
def isRepeatable (ct : CaseTable) (field : Text) : Bool :=
  repeatableFieldPrefixes.any (Text.startsWith (ct.lower field))

/-- What an entry has at each path: nothing, one value or the elements of an array.  Only payload
fields hold arrays, and every entry has one of the severity levels. -/
structure LogEntry (ct : CaseTable) where
  values : Text → List ValueKey
  single : ∀ f, isRepeatable ct f = false → (values f).length ≤ 1
  severity : ∀ f, isSeverity ct f = true → ∃ level ∈ severityOrder, values f = [.float level.2]

def compareNumbers (op : Text) (x v : ℚ) : Bool :=
  if op = ">".toList then v < x
  else if op = ">=".toList then v ≤ x
  else if op = "<".toList then x < v
  else op = "<=".toList && x ≤ v

/-- A comparison of one value with that of a filter; texts have no order. -/
def compareValue (ct : CaseTable) (severity : Bool) (op value : Text) (x : ValueKey) : Bool :=
  if op = "=".toList then x = valueKey ct severity value
  else if op = "!=".toList then x ≠ valueKey ct severity value
  else x.isFloat fun q => (coerceOrderedValue ct value severity).any (compareNumbers op q)

/-- An equality, or an order with a number. -/
def isEvaluated (ct : CaseTable) (severity : Bool) (op value : Text) : Bool :=
  op = "=".toList || op = "!=".toList ||
    (orderedOperators.contains op && (coerceOrderedValue ct value severity).isSome)

namespace LogEntry

variable (e : LogEntry ct) (other : Node → Bool)

/-- Whether a leaf holds of an entry, where `other` says it of what is not evaluated. -/
def leaf : Node → Bool
  | .predicate lhs op rhs =>
    let field := canonicalizeField ct lhs
    let value := normalizeRhs ct (renderTokens [rhs])
    match e.values field with
    | [x] =>
      if isEvaluated ct (isSeverity ct field) op value then
        compareValue ct (isSeverity ct field) op value x
      else other (.predicate lhs op rhs)
    | [] => !presenceOperators.contains op && other (.predicate lhs op rhs)
    | _ => other (.predicate lhs op rhs)
  | n => other n

/-- An entry matches a filter. -/
def matchesTree (n : Node) : Bool := eval (e.leaf other) n

/-- The fields that the leaves compare with numbers by order hold numbers. -/
def Typed (leaves : List Node) : Prop :=
  ∀ n ∈ leaves, ∀ f c, constraintOf ct (false, n) = some (f, c) → c.op ∈ orderedOperators →
    ∀ x ∈ e.values f, x.isFloat (fun _ => true) = true

/-- Leaves with one canonical text have one meaning. -/
def Canonically (leaves : List Node) : Prop :=
  ∀ n ∈ leaves, ∀ m ∈ leaves, canonicalizeNode ct n = canonicalizeNode ct m →
    e.leaf other n = e.leaf other m

end LogEntry

/-! ## Intervals -/

theorem number_lt {a b : ℚ} : number a < number b ↔ a < b := by
  rw [number, number, WithBot.coe_lt_coe, WithTop.coe_lt_coe]

theorem contains_raise (i : Interval) (v q : ℚ) (b : Bool) : (i.raise v b).contains q = true ↔
    i.contains q = true ∧ (if b then v ≤ q else v < q) := by
  have hv := @number_lt v q
  have hinj := @number_injective v q
  unfold Interval.raise Interval.contains
  rcases lt_trichotomy v q with h | rfl | h <;> rcases lt_trichotomy i.lower (number v) with h' | h' | h' <;>
    grind

theorem contains_reduce (i : Interval) (v q : ℚ) (b : Bool) : (i.reduce v b).contains q = true ↔
    i.contains q = true ∧ (if b then q ≤ v else q < v) := by
  have hv := @number_lt q v
  have hinj := @number_injective v q
  unfold Interval.reduce Interval.contains
  rcases lt_trichotomy v q with h | rfl | h <;>
    rcases lt_trichotomy (number v) i.upper with h' | h' | h' <;> grind

theorem contains_narrow {op : Text} (hop : op ∈ presenceOperators) (i : Interval) (v q : ℚ) :
    (i.narrow op v).contains q = true ↔
      i.contains q = true ∧ (if op = "=".toList then q = v else compareNumbers op q v = true) := by
  simp only [presenceOperators, List.mem_cons, List.not_mem_nil, or_false] at hop
  rcases hop with rfl | rfl | rfl | rfl | rfl <;>
    (simp [Interval.narrow, contains_raise, contains_reduce, compareNumbers, and_assoc]; try grind)

theorem comparedNumber_eq_some {severity : Bool} {p : Text × Text} {v : ℚ} :
    comparedNumber ct severity p = some v ↔
      p.1 ∈ presenceOperators ∧ coerceOrderedValue ct p.2 severity = some v := by
  rw [comparedNumber, presenceOperators]
  split
  · rename_i hop
    rw [and_iff_right hop]
  · rename_i hop
    exact iff_of_false (by simp) fun h => hop h.1

theorem compareValue_float {severity : Bool} {p : Text × Text} {v : ℚ}
    (h : comparedNumber ct severity p = some v) (q : ℚ) :
    compareValue ct severity p.1 p.2 (.float q) = true ↔
      (if p.1 = "=".toList then q = v else compareNumbers p.1 q v = true) := by
  obtain ⟨hop, hv⟩ := comparedNumber_eq_some.mp h
  have hne : p.1 ≠ "!=".toList := fun hne => absurd (hne ▸ hop) (by decide)
  rw [compareValue, valueKey, hv, if_neg hne]
  by_cases heq : p.1 = "=".toList
  · rw [if_pos heq, if_pos heq, decide_eq_true_eq, ValueKey.float.injEq]
  · rw [if_neg heq, if_neg heq, ValueKey.isFloat, Option.any_some]

theorem contains_foldl (severity : Bool) (ps : List (Text × Text)) (st : Bool × Interval) (q : ℚ) :
    (ps.foldl (narrow ct severity) st).2.contains q = true ↔ st.2.contains q = true ∧
      ∀ p ∈ ps, (comparedNumber ct severity p).isSome →
        compareValue ct severity p.1 p.2 (.float q) = true := by
  induction ps generalizing st with
  | nil => simp
  | cons p ps ih =>
    rw [List.foldl_cons, ih, List.forall_mem_cons, narrow]
    cases h : comparedNumber ct severity p with
    | none => simp
    | some v =>
      rw [compareValue_float h, contains_narrow (comparedNumber_eq_some.mp h).1]
      simp [and_assoc]

theorem fst_foldl (severity : Bool) (ps : List (Text × Text)) (st : Bool × Interval) :
    (ps.foldl (narrow ct severity) st).1 = true ↔
      st.1 = true ∨ ∃ p ∈ ps, (comparedNumber ct severity p).isSome := by
  induction ps generalizing st with
  | nil => simp
  | cons p ps ih =>
    rw [List.foldl_cons, ih, List.exists_mem_cons_iff, narrow]
    cases comparedNumber ct severity p <;> simp

theorem contains_default (q : ℚ) : Interval.contains {} q = true := by
  have hlower : (⊥ : Extended) < number q := WithBot.bot_lt_coe _
  have hupper : number q < ((⊤ : WithTop ℚ) : Extended) :=
    WithBot.coe_lt_coe.mpr (WithTop.coe_lt_top q)
  simp only [Interval.contains, decide_eq_true hlower, decide_eq_true hupper, Bool.true_or,
    Bool.and_self]

theorem contains_toNumericInterval {severity : Bool} {ps : List (Text × Text)} {i : Interval}
    (h : toNumericInterval ct ps severity = some i) (q : ℚ) : i.contains q = true ↔
      ∀ p ∈ ps, (comparedNumber ct severity p).isSome →
        compareValue ct severity p.1 p.2 (.float q) = true := by
  simp only [toNumericInterval] at h
  split at h
  · obtain rfl := Option.some.inj h
    rw [contains_foldl, and_iff_right (contains_default q)]
  · cases h

theorem toNumericInterval_isSome {severity : Bool} {ps : List (Text × Text)} :
    (toNumericInterval ct ps severity).isSome ↔
      ∃ p ∈ ps, (comparedNumber ct severity p).isSome := by
  have h := @fst_foldl ct severity ps (false, {})
  simp only [Bool.false_eq_true, false_or] at h
  rw [toNumericInterval, ← h]
  split <;> simp_all

theorem bounds_of_contains {i : Interval} {q : ℚ} (h : i.contains q = true) : i.empty = false ∧
    (i.lower = i.upper → number q = i.lower) := by
  unfold Interval.contains at h
  unfold Interval.empty
  rcases lt_trichotomy i.lower (number q) with h' | h' | h' <;>
    rcases lt_trichotomy (number q) i.upper with h'' | h'' | h'' <;> grind

/-! ## Constraints -/

theorem compareValue_order {severity : Bool} {op value : Text} (hop : op ∈ orderedOperators)
    {r : ℚ} (hr : coerceOrderedValue ct value severity = some r) (q : ℚ) :
    compareValue ct severity op value (.float q) = compareNumbers op q r := by
  have hne : op ≠ "=".toList ∧ op ≠ "!=".toList :=
    ⟨fun h => absurd (h ▸ hop) (by decide), fun h => absurd (h ▸ hop) (by decide)⟩
  rw [compareValue, if_neg hne.1, if_neg hne.2, ValueKey.isFloat, hr, Option.any_some]

theorem isEvaluated_order {severity : Bool} {op value : Text} (hop : op ∈ orderedOperators)
    (hr : (coerceOrderedValue ct value severity).isSome) : isEvaluated ct severity op value = true := by
  simp [isEvaluated, hr, hop]

theorem complement_cases {op op' : Text} (h : complementOperators.lookup op = some op') :
    (op = "=".toList ∧ op' = "!=".toList) ∨ (op = "!=".toList ∧ op' = "=".toList) ∨
      op ∈ orderedOperators ∧ op' ∈ orderedOperators ∧
        ∀ q r, compareNumbers op' q r = !compareNumbers op q r := by
  obtain ⟨l, r, hl, -⟩ := List.lookup_eq_some_iff.mp h
  have hmem : (op, op') ∈ complementOperators := by rw [hl]; simp
  simp only [complementOperators, List.mem_cons, Prod.mk.injEq, List.not_mem_nil, or_false] at hmem
  rcases hmem with h | h | ⟨rfl, rfl⟩ | ⟨rfl, rfl⟩ | ⟨rfl, rfl⟩ | ⟨rfl, rfl⟩
  · exact Or.inl h
  · exact Or.inr (Or.inl h)
  all_goals
    refine Or.inr (Or.inr ⟨by decide, by decide, fun q r => ?_⟩)
    simp [compareNumbers, ← decide_not]

theorem effective_cases {severity present : Bool} {c : Constraint} {p : Text × Text}
    (h : c.effective ct severity present = some p) :
    c.plainOp present = some p.1 ∧ p.2 = c.value ∧ (p.1 = "=".toList ∨ p.1 = "!=".toList ∨
      p.1 ∈ orderedOperators ∧ ∃ v, coerceOrderedValue ct p.2 severity = some v) := by
  obtain ⟨op, hop, h⟩ := Option.bind_eq_some_iff.mp h
  split at h
  · rename_i hordered
    obtain ⟨v, hv, rfl⟩ := Option.map_eq_some_iff.mp h
    exact ⟨hop, rfl, Or.inr (Or.inr ⟨hordered, v, hv⟩)⟩
  · split at h
    · rename_i hequal
      obtain rfl := Option.some.inj h
      exact ⟨hop, rfl, hequal.imp_right Or.inl⟩
    · cases h

theorem number_of_effective {severity present : Bool} {c : Constraint} {p : Text × Text}
    (h : c.effective ct severity present = some p) (hordered : p.1 ∈ orderedOperators) :
    ∃ v, coerceOrderedValue ct p.2 severity = some v := by
  obtain ⟨-, -, heq | hne | ⟨-, hv⟩⟩ := effective_cases h
  · exact absurd (heq ▸ hordered) (by decide)
  · exact absurd (hne ▸ hordered) (by decide)
  · exact hv

/-- **One constraint.**  What it adds to the comparisons says the same, of a value of its type. -/
theorem compareValue_effective {severity present : Bool} {c : Constraint} {p : Text × Text}
    (h : c.effective ct severity present = some p) {x : ValueKey}
    (hx : c.op ∈ orderedOperators → x.isFloat (fun _ => true) = true) :
    isEvaluated ct severity c.op c.value = true ∧
      compareValue ct severity p.1 p.2 x = (compareValue ct severity c.op c.value x != c.negated) := by
  obtain ⟨op, value⟩ := p
  obtain ⟨hop, hvalue, hcases⟩ := effective_cases h
  obtain rfl : value = c.value := hvalue
  have hevaluated : isEvaluated ct severity op c.value = true := by
    rcases hcases with heq | hne | ⟨hordered, v, hv⟩
    · rw [show op = "=".toList from heq]
      rfl
    · rw [show op = "!=".toList from hne]
      rfl
    · exact isEvaluated_order hordered (by rw [hv]; rfl)
  have hequals : ∀ v : Text, compareValue ct severity "!=".toList v x =
      !compareValue ct severity "=".toList v x := by
    intro v
    rw [compareValue, if_neg (by decide), if_pos rfl, compareValue, if_pos rfl, decide_not]
  rw [Constraint.plainOp] at hop
  cases hnegated : c.negated with
  | false =>
    rw [hnegated, if_neg Bool.false_ne_true, Option.some.injEq] at hop
    rw [hop, Bool.bne_false]
    exact ⟨hevaluated, rfl⟩
  | true =>
    rw [hnegated, if_pos rfl] at hop
    rw [Bool.bne_true]
    split at hop
    · rename_i heq
      obtain rfl := Option.some.inj hop
      rw [heq]
      exact ⟨rfl, hequals _⟩
    · split at hop
      · rcases complement_cases hop with ⟨heq, -⟩ | ⟨heq, rfl⟩ | ⟨hfirst, hordered, hcompare⟩
        · contradiction
        · rw [heq, hequals, Bool.not_not]
          exact ⟨rfl, rfl⟩
        · obtain ⟨r, hr⟩ : ∃ r, coerceOrderedValue ct c.value severity = some r :=
            number_of_effective h hordered
          cases x with
          | text s => exact absurd (hx hfirst) Bool.false_ne_true
          | float q =>
            rw [compareValue_order hordered hr, compareValue_order hfirst hr, hcompare]
            exact ⟨isEvaluated_order hfirst (by rw [hr]; rfl), rfl⟩
      · cases hop

/-! ## One field -/

def present (ct : CaseTable) (field : Text) (cs : List Constraint) : Bool :=
  isSeverity ct field || cs.any fun c => !c.negated && presenceOperators.contains c.op

/-- `effective` -/
def comparisons (ct : CaseTable) (field : Text) (cs : List Constraint) : List (Text × Text) :=
  cs.filterMap (Constraint.effective ct (isSeverity ct field) (present ct field cs))

/-- `eq` -/
def equal (ct : CaseTable) (field : Text) (cs : List Constraint) : Finset ValueKey :=
  valueKeys ct (isSeverity ct field) (comparisons ct field cs) "=".toList

/-- `ne` -/
def unequal (ct : CaseTable) (field : Text) (cs : List Constraint) : Finset ValueKey :=
  valueKeys ct (isSeverity ct field) (comparisons ct field cs) "!=".toList

/-- `interval` -/
def fieldInterval (ct : CaseTable) (field : Text) (cs : List Constraint) : Option Interval :=
  (toNumericInterval ct (comparisons ct field cs) (isSeverity ct field)).or
    (if isSeverity ct field then some {} else none)

def understood (ct : CaseTable) (field : Text) (cs : List Constraint) : Bool :=
  cs.all fun c => (c.effective ct (isSeverity ct field) (present ct field cs)).isSome

theorem singleValueSatisfiable_eq (field : Text) (cs : List Constraint) :
    singleValueSatisfiable ct field cs =
      if 1 < (equal ct field cs).card ∨ (equal ct field cs ∩ unequal ct field cs).Nonempty then
        .disjoint
      else match fieldInterval ct field cs with
        | none => if understood ct field cs then .overlap else .possible
        | some i =>
          match rangeSatisfiable (isSeverity ct field) i (unequal ct field cs) with
          | .disjoint => .disjoint
          | range =>
            if understood ct field cs ∧ range = .overlap ∧
                ∀ k ∈ equal ct field cs, k.isFloat fun _ => true then .overlap
            else .possible := rfl

theorem mem_valueKeys {severity : Bool} {ps : List (Text × Text)} {o : Text} {k : ValueKey} :
    k ∈ valueKeys ct severity ps o ↔ ∃ p ∈ ps, p.1 = o ∧ valueKey ct severity p.2 = k := by
  simp [valueKeys, and_assoc]

theorem isFloat_iff {x : ValueKey} : x.isFloat (fun _ => true) = true ↔ ∃ q, x = .float q := by
  cases x <;> simp [ValueKey.isFloat]

theorem float_of_compareValue {severity : Bool} {p : Text × Text} {v : ℚ}
    (h : comparedNumber ct severity p = some v) {x : ValueKey}
    (hx : compareValue ct severity p.1 p.2 x = true) : ∃ q, x = .float q := by
  cases x with
  | float q => exact ⟨q, rfl⟩
  | text s =>
    obtain ⟨hop, hv⟩ := comparedNumber_eq_some.mp h
    rw [compareValue, valueKey, hv] at hx
    split at hx
    · cases of_decide_eq_true hx
    · split at hx
      · rename_i hne
        exact absurd (hne ▸ hop) (by decide)
      · cases hx

section Value

variable {field : Text} {cs : List Constraint} {x : ValueKey}
  (hall : ∀ p ∈ comparisons ct field cs, compareValue ct (isSeverity ct field) p.1 p.2 x = true)
  (hlevel : isSeverity ct field = true → ∃ level ∈ severityOrder, x = .float level.2)

include hall

theorem eq_of_mem_equal {k : ValueKey}
    (hk : k ∈ equal ct field cs) : x = k := by
  obtain ⟨p, hp, hop, rfl⟩ := mem_valueKeys.mp hk
  have h := hall p hp
  rw [compareValue, if_pos hop] at h
  exact of_decide_eq_true h

theorem ne_of_mem_unequal {k : ValueKey}
    (hk : k ∈ unequal ct field cs) : x ≠ k := by
  obtain ⟨p, hp, hop, rfl⟩ := mem_valueKeys.mp hk
  have h := hall p hp
  rw [compareValue, if_neg (by rw [hop]; decide), if_pos hop] at h
  exact of_decide_eq_true h

include hlevel

theorem contains_of_all {i : Interval} (hi : fieldInterval ct field cs = some i) :
    ∃ q, x = .float q ∧ i.contains q = true := by
  rw [fieldInterval] at hi
  cases hnumeric : toNumericInterval ct (comparisons ct field cs) (isSeverity ct field) with
  | some j =>
    rw [hnumeric, Option.some_or, Option.some.injEq] at hi
    subst hi
    obtain ⟨p, hp, hsome⟩ := toNumericInterval_isSome.mp (by rw [hnumeric]; rfl)
    obtain ⟨v, hv⟩ := Option.isSome_iff_exists.mp hsome
    obtain ⟨q, rfl⟩ := float_of_compareValue hv (hall p hp)
    exact ⟨q, rfl, (contains_toNumericInterval hnumeric q).mpr fun p hp _ => hall p hp⟩
  | none =>
    rw [hnumeric, Option.none_or] at hi
    split at hi
    · rename_i hseverity
      obtain rfl := Option.some.inj hi
      obtain ⟨level, -, rfl⟩ := hlevel hseverity
      exact ⟨_, rfl, contains_default _⟩
    · cases hi

/-- **A field with a value that all comparisons hold of is not found to have none.** -/
theorem singleValueSatisfiable_ne_disjoint : singleValueSatisfiable ct field cs ≠ .disjoint := by
  have hcard : ¬ 1 < (equal ct field cs).card :=
    Nat.not_lt.mpr (Finset.card_le_one.mpr fun a ha b hb =>
      (eq_of_mem_equal hall ha).symm.trans (eq_of_mem_equal hall hb))
  have hinter : ¬ (equal ct field cs ∩ unequal ct field cs).Nonempty := by
    rintro ⟨k, hk⟩
    obtain ⟨heq, hne⟩ := Finset.mem_inter.mp hk
    exact ne_of_mem_unequal hall hne (eq_of_mem_equal hall heq)
  rw [singleValueSatisfiable_eq, if_neg (not_or.mpr ⟨hcard, hinter⟩)]
  split
  · split <;> simp
  · rename_i i hi
    obtain ⟨q, rfl, hq⟩ := contains_of_all hall hlevel hi
    have hrange : rangeSatisfiable (isSeverity ct field) i (unequal ct field cs) ≠ .disjoint := by
      obtain ⟨hempty, hbound⟩ := bounds_of_contains hq
      rw [rangeSatisfiable]
      split
      · rename_i hseverity
        obtain ⟨level, hmem, hx⟩ := hlevel hseverity
        rw [ValueKey.float.injEq] at hx
        subst hx
        rw [if_pos]
        · simp
        · refine List.any_eq_true.mpr ⟨level, hmem, ?_⟩
          rw [hq, Bool.true_and, decide_eq_true_eq]
          exact fun hk => ne_of_mem_unequal hall hk rfl
      · rw [hempty, if_neg Bool.false_ne_true, if_neg]
        · split <;> simp
        · rintro ⟨hlower, k, hk, hfloat⟩
          cases k with
          | text s => cases hfloat
          | float v =>
            have hv : number v = number q := (of_decide_eq_true hfloat).trans (hbound hlower).symm
            exact ne_of_mem_unequal hall hk (congrArg _ (number_injective hv).symm)
    split
    · contradiction
    · split <;> simp

end Value

/-! ### A value for a field -/

/-- The bounds are numbers or the infinity of their side. -/
def Bounded (i : Interval) : Prop := i.lower < ((⊤ : WithTop ℚ) : Extended) ∧ ⊥ < i.upper

theorem number_lt_top (q : ℚ) : number q < ((⊤ : WithTop ℚ) : Extended) :=
  WithBot.coe_lt_coe.mpr (WithTop.coe_lt_top q)

theorem Bounded.raise {i : Interval} (h : Bounded i) (v : ℚ) (b : Bool) : Bounded (i.raise v b) := by
  rw [Interval.raise]
  split
  · exact ⟨number_lt_top v, h.2⟩
  · exact h

theorem Bounded.reduce {i : Interval} (h : Bounded i) (v : ℚ) (b : Bool) :
    Bounded (i.reduce v b) := by
  rw [Interval.reduce]
  split
  · exact ⟨h.1, WithBot.bot_lt_coe _⟩
  · exact h

theorem Bounded.narrow {i : Interval} (h : Bounded i) (op : Text) (v : ℚ) :
    Bounded (i.narrow op v) := by
  have hraised : Bounded (if op ∈ ["=".toList, ">".toList, ">=".toList] then
      i.raise v (op ≠ ">".toList) else i) := by
    split
    · exact h.raise v _
    · exact h
  simp only [Interval.narrow]
  split
  · exact hraised.reduce v _
  · exact hraised

theorem Bounded.foldl (severity : Bool) (ps : List (Text × Text)) {st : Bool × Interval}
    (h : Bounded st.2) : Bounded (ps.foldl (FilterOverlap.narrow ct severity) st).2 := by
  induction ps generalizing st with
  | nil => exact h
  | cons p ps ih =>
    rw [List.foldl_cons]
    refine ih ?_
    rw [FilterOverlap.narrow]
    split
    · exact h
    · exact h.narrow _ _

theorem bounded_default : Bounded {} := ⟨WithBot.bot_lt_coe _, WithBot.bot_lt_coe _⟩

theorem bounded_fieldInterval {field : Text} {cs : List Constraint} {i : Interval}
    (h : fieldInterval ct field cs = some i) : Bounded i := by
  rw [fieldInterval, toNumericInterval] at h
  split at h
  · obtain rfl := Option.some.inj h
    exact Bounded.foldl _ _ bounded_default
  · rw [Option.none_or] at h
    split at h
    · obtain rfl := Option.some.inj h
      exact bounded_default
    · cases h

theorem contains_of_lt {i : Interval} {q : ℚ} (h : i.lower < number q) (h' : number q < i.upper) :
    i.contains q = true := by simp [Interval.contains, h, h']

theorem exists_contains {i : Interval} (h : Bounded i) (hempty : i.empty = false) :
    ∃ q, i.contains q = true := by
  obtain ⟨lower, lowerInclusive, upper, upperInclusive⟩ := i
  simp only [Interval.empty, Bool.or_eq_false_iff, decide_eq_false_iff_not, Bool.and_eq_false_iff,
    not_lt] at hempty
  obtain ⟨hle, heq⟩ := hempty
  rcases lower with _ | (_ | a)
  · rcases upper with _ | (_ | b)
    · exact absurd h.2 (lt_irrefl _)
    · exact ⟨0, contains_default 0⟩
    · exact ⟨b - 1, contains_of_lt (WithBot.bot_lt_coe _) (number_lt.mpr (by linarith))⟩
  · exact absurd h.1 (lt_irrefl _)
  · rcases upper with _ | (_ | b)
    · exact absurd h.2 (lt_irrefl _)
    · exact ⟨a + 1, contains_of_lt (number_lt.mpr (by linarith)) (number_lt_top _)⟩
    · rcases lt_or_eq_of_le (α := Extended) hle with hlt | hab
      · obtain ⟨q, haq, hqb⟩ := exists_between (number_lt.mp hlt)
        exact ⟨q, contains_of_lt (number_lt.mpr haq) (number_lt.mpr hqb)⟩
      · obtain rfl : a = b := number_injective hab
        rcases heq with heq | heq
        · exact absurd rfl heq
        · obtain ⟨rfl, rfl⟩ := Bool.and_eq_true_iff.mp ((Bool.not_eq_false' _).mp heq)
          refine ⟨a, ?_⟩
          change (decide (number a < number a) || decide (number a = number a) && true) &&
            (decide (number a < number a) || decide (number a = number a) && true)
          simp

section Overlap

variable {field : Text} {cs : List Constraint}

theorem comparisons_cases {p : Text × Text} (hp : p ∈ comparisons ct field cs) :
    p.1 = "!=".toList ∧ valueKey ct (isSeverity ct field) p.2 ∈ unequal ct field cs ∨
      p.1 = "=".toList ∧ valueKey ct (isSeverity ct field) p.2 ∈ equal ct field cs ∨
      (comparedNumber ct (isSeverity ct field) p).isSome := by
  obtain ⟨c, -, h⟩ := List.mem_filterMap.mp hp
  obtain ⟨-, -, heq | hne | ⟨hordered, v, hv⟩⟩ := effective_cases h
  · exact Or.inr (Or.inl ⟨heq, mem_valueKeys.mpr ⟨p, hp, heq, rfl⟩⟩)
  · exact Or.inl ⟨hne, mem_valueKeys.mpr ⟨p, hp, hne, rfl⟩⟩
  · have hnumber := comparedNumber_eq_some.mpr ⟨List.mem_cons_of_mem _ hordered, hv⟩
    exact Or.inr (Or.inr (Option.isSome_iff_exists.mpr ⟨v, hnumber⟩))

theorem all_of_contains {i : Interval} (hi : fieldInterval ct field cs = some i) {q : ℚ}
    (hq : i.contains q = true) {p : Text × Text} (hp : p ∈ comparisons ct field cs)
    (hnumber : (comparedNumber ct (isSeverity ct field) p).isSome) :
    compareValue ct (isSeverity ct field) p.1 p.2 (.float q) = true := by
  obtain ⟨j, hj⟩ := Option.isSome_iff_exists.mp (toNumericInterval_isSome.mpr ⟨p, hp, hnumber⟩)
  rw [fieldInterval, hj, Option.some_or, Option.some.injEq] at hi
  subst hi
  exact (contains_toNumericInterval hj q).mp hq p hp hnumber

theorem exists_of_range {i : Interval} (hi : Bounded i) {severity : Bool} {ne : Finset ValueKey}
    (h : rangeSatisfiable severity i ne = .overlap) :
    ∃ q, i.contains q = true ∧ .float q ∉ ne ∧
      (severity = true → ∃ level ∈ severityOrder, q = level.2) := by
  rw [rangeSatisfiable] at h
  split at h
  · split at h
    · rename_i hlevel
      obtain ⟨level, hmem, hlevel⟩ := List.any_eq_true.mp hlevel
      obtain ⟨hq, hne⟩ := Bool.and_eq_true_iff.mp hlevel
      exact ⟨_, hq, of_decide_eq_true hne, fun _ => ⟨level, hmem, rfl⟩⟩
    · cases h
  · rename_i hseverity
    split at h
    · cases h
    · rename_i hempty
      obtain ⟨q, hq⟩ := exists_contains hi (Bool.not_eq_true _ ▸ hempty)
      refine ⟨q, hq, fun hne => ?_, fun hs => absurd hs hseverity⟩
      split at h
      · cases h
      · rw [if_pos ⟨_, hne, hq⟩] at h
        cases h

theorem exists_fresh (s : Finset ValueKey) : ∃ x, x ∉ s := by
  have : Infinite ValueKey := Infinite.of_injective (fun n : ℕ => ValueKey.float n)
    fun _ _ h => Nat.cast_injective (ValueKey.float.inj h)
  exact Infinite.exists_notMem_finset s

/-- **A field that is found to have a value has one.** -/
theorem exists_value_of_overlap (h : singleValueSatisfiable ct field cs = .overlap) :
    understood ct field cs = true ∧ ∃ x,
      (∀ p ∈ comparisons ct field cs, compareValue ct (isSeverity ct field) p.1 p.2 x = true) ∧
      (isSeverity ct field = true → ∃ level ∈ severityOrder, x = .float level.2) := by
  rw [singleValueSatisfiable_eq] at h
  split at h
  · cases h
  · rename_i hno
    obtain ⟨hcard, hinter⟩ := not_or.mp hno
    have hone : ∀ a ∈ equal ct field cs, ∀ b ∈ equal ct field cs, a = b :=
      Finset.card_le_one.mp (Nat.not_lt.mp hcard)
    have hapart : ∀ k ∈ equal ct field cs, k ∉ unequal ct field cs := fun k hk hk' =>
      hinter ⟨k, Finset.mem_inter.mpr ⟨hk, hk'⟩⟩
    have hnotEqual : ∀ {p : Text × Text} {x}, p.1 = "!=".toList →
        valueKey ct (isSeverity ct field) p.2 ∈ unequal ct field cs → x ∉ unequal ct field cs →
        compareValue ct (isSeverity ct field) p.1 p.2 x = true := by
      intro p x hop hk hx
      rw [compareValue, hop, if_neg (by decide), if_pos rfl, decide_eq_true_eq]
      exact fun he => hx (he ▸ hk)
    split at h
    · rename_i hnone
      split at h
      · rename_i hunderstood
        have hnumber : ∀ p ∈ comparisons ct field cs,
            ¬ (comparedNumber ct (isSeverity ct field) p).isSome := by
          intro p hp hsome
          obtain ⟨j, hj⟩ :=
            Option.isSome_iff_exists.mp (toNumericInterval_isSome.mpr ⟨p, hp, hsome⟩)
          rw [fieldInterval, hj] at hnone
          cases hnone
        have hseverity : isSeverity ct field = true → False := by
          intro hs
          rw [fieldInterval, if_pos hs, Option.or_eq_none_iff] at hnone
          cases hnone.2
        obtain ⟨x, hx, hequal⟩ : ∃ x, x ∉ unequal ct field cs ∧ ∀ k ∈ equal ct field cs, x = k := by
          rcases (equal ct field cs).eq_empty_or_nonempty with hempty | ⟨k, hk⟩
          · obtain ⟨x, hx⟩ := exists_fresh (unequal ct field cs)
            exact ⟨x, hx, by simp [hempty]⟩
          · exact ⟨k, hapart k hk, hone k hk⟩
        refine ⟨hunderstood, x, fun p hp => ?_, fun hs => (hseverity hs).elim⟩
        rcases comparisons_cases hp with ⟨hop, hk⟩ | ⟨hop, hk⟩ | hsome
        · exact hnotEqual hop hk hx
        · rw [compareValue, if_pos hop, decide_eq_true_eq]
          exact hequal _ hk
        · exact absurd hsome (hnumber p hp)
      · cases h
    · rename_i i hi
      split at h
      · cases h
      · split at h
        · rename_i hrange
          obtain ⟨hunderstood, hrange, hfloat⟩ := hrange
          obtain ⟨q, hq, hne, hlevel⟩ := exists_of_range (bounded_fieldInterval hi) hrange
          refine ⟨hunderstood, .float q, fun p hp => ?_, fun hs => ?_⟩
          · rcases comparisons_cases hp with ⟨hop, hk⟩ | ⟨hop, hk⟩ | hsome
            · exact hnotEqual hop hk hne
            · refine all_of_contains hi hq hp ?_
              have hvalue := hfloat _ hk
              rw [valueKey] at hvalue
              cases hv : coerceOrderedValue ct p.2 (isSeverity ct field) with
              | some v =>
                have hpresence : p.1 ∈ presenceOperators := by
                  rw [hop]
                  exact List.mem_cons_self
                exact Option.isSome_iff_exists.mpr
                  ⟨v, comparedNumber_eq_some.mpr ⟨hpresence, hv⟩⟩
              | none =>
                rw [hv] at hvalue
                cases hvalue
            · exact all_of_contains hi hq hp hsome
          · obtain ⟨level, hmem, rfl⟩ := hlevel hs
            exact ⟨level, hmem, rfl⟩
        · cases h

end Overlap

/-! ## Conjunctions -/

theorem constraintOf_eq_some {l : Literal Node} {f : Text} {c : Constraint}
    (h : constraintOf ct l = some (f, c)) : c.negated = l.1 ∧
      constraintOf ct (false, l.2) = some (f, { c with negated := false }) ∧
      ∀ (e : LogEntry ct) (other : Node → Bool), e.leaf other l.2 = match e.values f with
        | [x] =>
          if isEvaluated ct (isSeverity ct f) c.op c.value then
            compareValue ct (isSeverity ct f) c.op c.value x
          else other l.2
        | [] => !presenceOperators.contains c.op && other l.2
        | _ => other l.2 := by
  obtain ⟨negated, n⟩ := l
  cases n with
  | predicate lhs op rhs =>
    obtain ⟨rfl, rfl⟩ := Prod.mk.inj (Option.some.inj h)
    exact ⟨rfl, rfl, fun e other => rfl⟩
  | _ => cases h

section Literals

variable {e : LogEntry ct} {other : Node → Bool} {ls : Conjunction Node}

theorem mem_field {f : Text} {cs : List Constraint} (hf : (f, cs) ∈ fieldsOf ct ls)
    {c : Constraint} : c ∈ cs ↔ ∃ l ∈ ls, constraintOf ct l = some (f, c) := by
  rw [mem_group_iff hf]
  simp only [List.mem_filterMap, Prod.exists]
  constructor
  · rintro ⟨_, _, ⟨l, hl, hc⟩, rfl, rfl⟩
    exact ⟨l, hl, hc⟩
  · rintro ⟨l, hl, hc⟩
    exact ⟨f, c, ⟨l, hl, hc⟩, rfl, rfl⟩

theorem comparisons_absent {f : Text} {cs : List Constraint} (hpresent : present ct f cs = false)
    {p : Text × Text} (hp : p ∈ comparisons ct f cs) : p.1 = "!=".toList := by
  obtain ⟨c, hc, h⟩ := List.mem_filterMap.mp hp
  obtain ⟨hseverity, hany⟩ := Bool.or_eq_false_iff.mp hpresent
  have hnone := List.any_eq_false.mp hany c hc
  rw [hpresent] at h
  obtain ⟨hop, -, hcases⟩ := effective_cases h
  have hp : p.1 ∈ presenceOperators ∨ p.1 = "!=".toList := by
    rcases hcases with heq | hne | ⟨hordered, -⟩
    · rw [heq]
      exact Or.inl List.mem_cons_self
    · exact Or.inr hne
    · exact Or.inl (List.mem_cons_of_mem _ hordered)
  refine hp.resolve_left fun hmem => ?_
  rw [Constraint.plainOp] at hop
  cases hnegated : c.negated with
  | false =>
    rw [hnegated, if_neg Bool.false_ne_true, Option.some.injEq] at hop
    rw [hnegated, hop] at hnone
    exact hnone (by simpa using hmem)
  | true =>
    rw [hnegated, if_pos rfl, if_neg Bool.false_ne_true] at hop
    split at hop
    · rw [← Option.some.inj hop] at hmem
      exact absurd hmem (by decide)
    · cases hop

theorem field_ne_disjoint (hls : evalConjunction (e.leaf other) ls = true)
    (htyped : e.Typed (ls.map Prod.snd)) {f : Text} {cs : List Constraint}
    (hf : (f, cs) ∈ fieldsOf ct ls) (hsingle : isRepeatable ct f = false) :
    singleValueSatisfiable ct f cs ≠ .disjoint := by
  have hholds : ∀ c ∈ cs, ∃ l ∈ ls, constraintOf ct l = some (f, c) ∧
      (e.leaf other l.2 != c.negated) = true := by
    intro c hc
    obtain ⟨l, hl, hc⟩ := (mem_field hf).mp hc
    refine ⟨l, hl, hc, ?_⟩
    rw [(constraintOf_eq_some hc).1]
    exact List.all_eq_true.mp hls l hl
  match hvalues : e.values f with
  | [] =>
    have hseverity : isSeverity ct f = false := by
      rw [← Bool.not_eq_true]
      intro hs
      obtain ⟨_, -, hlevel⟩ := e.severity f hs
      rw [hvalues] at hlevel
      cases hlevel
    have hpresent : present ct f cs = false := by
      rw [present, hseverity, Bool.false_or, List.any_eq_false]
      intro c hc hpresence
      obtain ⟨hnegated, hop⟩ := Bool.and_eq_true_iff.mp hpresence
      obtain ⟨l, -, hconstraint, hl⟩ := hholds c hc
      rw [(constraintOf_eq_some hconstraint).2.2, hvalues] at hl
      simp only [hop, Bool.not_true, Bool.false_and, Bool.false_bne] at hl
      rw [hl] at hnegated
      cases hnegated
    obtain ⟨x, hx⟩ := exists_fresh (unequal ct f cs)
    refine singleValueSatisfiable_ne_disjoint (x := x) (fun p hp => ?_) fun hs => by
      rw [hs] at hseverity
      cases hseverity
    have hop := comparisons_absent hpresent hp
    rw [compareValue, if_neg (by rw [hop]; decide), if_pos hop, decide_eq_true_eq]
    exact fun he => hx (he ▸ mem_valueKeys.mpr ⟨p, hp, hop, rfl⟩)
  | [x] =>
    refine singleValueSatisfiable_ne_disjoint (x := x) (fun p hp => ?_) fun hs => ?_
    · obtain ⟨c, hc, h⟩ := List.mem_filterMap.mp hp
      obtain ⟨l, hl, hconstraint, hleaf⟩ := hholds c hc
      obtain ⟨-, hplain, hleaf'⟩ := constraintOf_eq_some hconstraint
      obtain ⟨hevaluated, hcompare⟩ := @compareValue_effective ct _ _ c p h x fun hop =>
        htyped l.2 (List.mem_map_of_mem hl) f _ hplain hop x (by rw [hvalues]; exact List.mem_cons_self)
      rw [hleaf', hvalues] at hleaf
      simp only [hevaluated, if_true] at hleaf
      rw [hcompare, hleaf]
    · obtain ⟨level, hmem, hlevel⟩ := e.severity f hs
      rw [hvalues] at hlevel
      exact ⟨level, hmem, (List.cons.inj hlevel).1⟩
  | x :: y :: rest =>
    have hlength := e.single f hsingle
    rw [hvalues] at hlength
    simp at hlength

/-- **DISJOINT for conjunctions.**  Nor are the literals. -/
theorem conjunction_ne_disjoint (hls : evalConjunction (e.leaf other) ls = true)
    (htyped : e.Typed (ls.map Prod.snd)) (hcanonical : e.Canonically other (ls.map Prod.snd)) :
    conjunctionSatisfiable ct ls ≠ .disjoint := by
  have hliteral : ∀ l ∈ ls, (e.leaf other l.2 != l.1) = true := List.all_eq_true.mp hls
  rcases @conjunctionSatisfiable_eq ct ls with ⟨hno, -⟩ | ⟨-, heq⟩
  · refine absurd (fun l hl l' hl' hkey => ?_) hno
    have hleaf := hcanonical _ (List.mem_map_of_mem hl) _ (List.mem_map_of_mem hl') hkey
    have h := hliteral l hl
    have h' := hliteral l' hl'
    rw [hleaf] at h
    revert h h'
    cases e.leaf other l'.2 <;> cases l.1 <;> cases l'.1 <;> simp
  · rw [heq, scanResults_eq]
    split
    · rename_i hmem
      obtain ⟨⟨f, cs⟩, hf, hfield⟩ := List.mem_map.mp hmem
      rw [fieldSatisfiable] at hfield
      split at hfield
      · cases hfield
      · rename_i hrepeatable
        rw [not_and, Bool.not_eq_true] at hrepeatable
        exact absurd hfield (field_ne_disjoint hls htyped hf (hrepeatable hfield))
    · split
      · simp
      · split <;> simp

/-! ### An entry for a conjunction -/

theorem float_of_effective {severity present : Bool} {c : Constraint} {p : Text × Text}
    (h : c.effective ct severity present = some p) (hop : c.op ∈ orderedOperators) {x : ValueKey}
    (hx : compareValue ct severity p.1 p.2 x = true) : x.isFloat (fun _ => true) = true := by
  obtain ⟨hplain, -⟩ := effective_cases h
  have hordered : p.1 ∈ orderedOperators := by
    rw [Constraint.plainOp] at hplain
    have hne : c.op ≠ "=".toList := fun he => absurd (he ▸ hop) (by decide)
    rw [if_neg hne] at hplain
    split at hplain
    · split at hplain
      · rcases complement_cases hplain with ⟨he, -⟩ | ⟨he, -⟩ | ⟨-, hordered, -⟩
        · exact absurd he hne
        · exact absurd (he ▸ hop) (by decide)
        · exact hordered
      · cases hplain
    · exact Option.some.inj hplain ▸ hop
  obtain ⟨v, hv⟩ := number_of_effective h hordered
  have hnumber := comparedNumber_eq_some.mpr ⟨List.mem_cons_of_mem _ hordered, hv⟩
  exact isFloat_iff.mpr (float_of_compareValue hnumber hx)

/-- One value for each field, by its path in lower case. -/
def valuesAt (ct : CaseTable) (fields : List (Text × List Constraint))
    (x : Text × List Constraint → ValueKey) (lowered : Text) : List ValueKey :=
  match fields.find? fun g => ct.lower g.1 = lowered with
  | some g => [x g]
  | none => if lowered = "severity".toList then [.float 0] else []

def entryOf (ct : CaseTable) (fields : List (Text × List Constraint))
    (x : Text × List Constraint → ValueKey) (hlevel : ∀ g ∈ fields, isSeverity ct g.1 = true →
      ∃ level ∈ severityOrder, x g = .float level.2) : LogEntry ct where
  values f := valuesAt ct fields x (ct.lower f)
  single f _ := by
    rw [valuesAt]
    split
    · exact le_refl 1
    · split
      · exact le_refl 1
      · exact Nat.zero_le 1
  severity f hf := by
    rw [valuesAt]
    split
    · rename_i g hg
      have hlower := List.find?_some hg
      simp only [decide_eq_true_eq] at hlower
      obtain ⟨level, hmem, hx⟩ := hlevel g (List.mem_of_find?_eq_some hg) (by
        rw [isSeverity, hlower]
        exact hf)
      exact ⟨level, hmem, by rw [hx]⟩
    · rw [if_pos (of_decide_eq_true hf)]
      exact ⟨_, List.mem_cons_self, rfl⟩

theorem entryOf_values {fields : List (Text × List Constraint)}
    {x : Text × List Constraint → ValueKey} {hlevel : ∀ g ∈ fields, isSeverity ct g.1 = true →
      ∃ level ∈ severityOrder, x g = .float level.2}
    (hnodup : (fields.map fun f => ct.lower f.1).Nodup) {g : Text × List Constraint}
    (hg : g ∈ fields) : (entryOf ct fields x hlevel).values g.1 = [x g] := by
  cases hfind : fields.find? fun g' => ct.lower g'.1 = ct.lower g.1 with
  | none => exact absurd (decide_eq_true rfl) (List.find?_eq_none.mp hfind g hg)
  | some g' =>
    have hlower := List.find?_some hfind
    simp only [decide_eq_true_eq] at hlower
    rw [List.inj_on_of_nodup_map hnodup (List.mem_of_find?_eq_some hfind) hg hlower] at hfind
    simp only [entryOf, valuesAt, hfind]

theorem fields_of_overlap (h : conjunctionSatisfiable ct ls = .overlap) :
    (∀ g ∈ fieldsOf ct ls, singleValueSatisfiable ct g.1 g.2 = .overlap) ∧
      ((fieldsOf ct ls).map fun f => ct.lower f.1).Nodup ∧
      ∀ l ∈ ls, ∃ fc, constraintOf ct l = some fc := by
  rcases @conjunctionSatisfiable_eq ct ls with ⟨-, heq⟩ | ⟨-, heq⟩
  · rw [heq] at h
    cases h
  · rw [heq, scanResults_eq] at h
    split at h
    · cases h
    · rename_i hdisjoint
      split at h
      · cases h
      · rename_i hpossible
        split at h
        · cases h
        · rename_i hrest
          obtain ⟨hcard, hevaluated⟩ := not_or.mp hrest
          refine ⟨fun g hg => ?_, ?_, fun l hl => ?_⟩
          · have hresult := List.mem_map_of_mem
              (f := fun f : Text × List Constraint => fieldSatisfiable ct f.1 f.2) hg
            cases hsingle : singleValueSatisfiable ct g.1 g.2 with
            | overlap => rfl
            | possible =>
              simp only [fieldSatisfiable, hsingle, reduceCtorEq, false_and, if_false] at hresult
              exact absurd hresult hpossible
            | disjoint =>
              simp only [fieldSatisfiable, hsingle, true_and] at hresult
              split at hresult
              · exact absurd hresult hpossible
              · exact absurd hresult hdisjoint
          · rw [← List.dedup_eq_self]
            refine List.Sublist.eq_of_length_le (List.dedup_sublist _) ?_
            rw [← List.card_toFinset, List.length_map]
            exact Nat.not_lt.mp hcard
          · cases hc : constraintOf ct l with
            | none => exact absurd ⟨l, hl, hc⟩ hevaluated
            | some fc => exact ⟨fc, rfl⟩

/-- **OVERLAP for conjunctions.**  An entry that they hold of, in any letter case of the paths. -/
theorem exists_entry_of_overlap (h : conjunctionSatisfiable ct ls = .overlap) :
    ∃ e : LogEntry ct, (∀ f g, ct.lower f = ct.lower g → e.values f = e.values g) ∧
      ∀ other, evalConjunction (e.leaf other) ls = true := by
  obtain ⟨hfields, hnodup, hconstraints⟩ := fields_of_overlap h
  have : Inhabited ValueKey := ⟨.float 0⟩
  choose! hunderstood x hx hlevel using fun g hg => exists_value_of_overlap (hfields g hg)
  refine ⟨entryOf ct (fieldsOf ct ls) x hlevel, fun f g hfg => congrArg (valuesAt ct _ x) hfg,
    fun other => List.all_eq_true.mpr fun l hl => ?_⟩
  obtain ⟨⟨f, c⟩, hc⟩ := hconstraints l hl
  obtain ⟨hnegated, -, hleaf⟩ := constraintOf_eq_some hc
  obtain ⟨⟨f', cs⟩, hg, rfl⟩ : ∃ g ∈ fieldsOf ct ls, g.1 = f :=
    List.mem_map.mp (mem_keys_groupOn.mpr ⟨(f, c), List.mem_filterMap.mpr ⟨l, hl, hc⟩, rfl⟩)
  have hmem : c ∈ cs := (mem_field hg).mpr ⟨l, hl, hc⟩
  obtain ⟨p, hp⟩ := Option.isSome_iff_exists.mp
    (List.all_eq_true.mp (hunderstood _ hg) c hmem)
  have hholds := hx _ hg p (List.mem_filterMap.mpr ⟨c, hmem, hp⟩)
  obtain ⟨hyes, hcompare⟩ := compareValue_effective hp fun hop => float_of_effective hp hop hholds
  rw [evalLiteral, hleaf, entryOf_values hnodup hg, ← hnegated]
  simp only [hyes, if_true]
  rw [← hcompare, hholds]

end Literals

/-! ## Filters -/

theorem verdict_cases {a b : Text} {n m : Node} (ha : parse a = .ok n) (hb : parse b = .ok m)
    {r : Overlap} (h : compareFilters ct a b = .ok r) : r = .possible ∨
      compareDnfs ct (normalForm n false) (normalForm m false) = r := by
  simp only [compareFilters, filterDnf, ha, hb, bind, Except.bind, pure, Except.pure] at h
  cases hd : toCloudLoggingDnf n false with
  | none =>
    rw [hd] at h
    exact Or.inl (Except.ok.inj h).symm
  | some d =>
    cases hd' : toCloudLoggingDnf m false with
    | none =>
      rw [hd, hd'] at h
      exact Or.inl (Except.ok.inj h).symm
    | some d' =>
      rw [hd, hd'] at h
      rw [← (toCloudLoggingDnf_eq hd).1, ← (toCloudLoggingDnf_eq hd').1]
      exact Or.inr (Except.ok.inj h)

theorem eval_product (v : Node → Bool) (n m : Node) :
    evalDnf v (product (normalForm n false) (normalForm m false)) = (eval v n && eval v m) := by
  rw [evalDnf_product, evalDnf_normalForm, evalDnf_normalForm, Bool.bne_false, Bool.bne_false]

/-- The leaves of two filters. -/
def leaves (n m : Node) : List Node := (formula n).atoms ++ (formula m).atoms

theorem leaves_of_product {n m : Node} {c : Conjunction Node}
    (hc : c ∈ product (normalForm n false) (normalForm m false)) :
    ∀ leaf ∈ c.map Prod.snd, leaf ∈ leaves n m := by
  obtain ⟨a, ha, hc⟩ := List.mem_flatMap.mp hc
  obtain ⟨b, hb, rfl⟩ := List.mem_map.mp hc
  intro leaf hleaf
  obtain ⟨l, hl, rfl⟩ := List.mem_map.mp hleaf
  exact List.mem_append.mpr ((List.mem_append.mp hl).imp
    (fun h => Formula.mem_atoms_of_mem_dnf ha h) fun h => Formula.mem_atoms_of_mem_dnf hb h)

theorem no_entry_of_dnfs {n m : Node}
    (hverdict : compareDnfs ct (normalForm n false) (normalForm m false) = .disjoint)
    (e : LogEntry ct) (other : Node → Bool) (htyped : e.Typed (leaves n m))
    (hcanonical : e.Canonically other (leaves n m)) :
    ¬ (e.matchesTree other n = true ∧ e.matchesTree other m = true) := by
  rintro ⟨hn, hm⟩
  rw [compareDnfs, scanResults_eq] at hverdict
  have hall : ∀ c ∈ product (normalForm n false) (normalForm m false),
      conjunctionSatisfiable ct c = .disjoint := by
    intro c hc
    have hmem := List.mem_map_of_mem (f := conjunctionSatisfiable ct) hc
    split at hverdict
    · cases hverdict
    · rename_i hoverlap
      split at hverdict
      · cases hverdict
      · rename_i hpossible
        cases hr : conjunctionSatisfiable ct c with
        | disjoint => rfl
        | possible => exact absurd (hr ▸ hmem) hpossible
        | overlap => exact absurd (hr ▸ hmem) hoverlap
  have hdnf : evalDnf (e.leaf other) (product (normalForm n false) (normalForm m false)) = true := by
    rw [eval_product]
    exact Bool.and_eq_true_iff.mpr ⟨hn, hm⟩
  obtain ⟨c, hc, hholds⟩ := List.any_eq_true.mp hdnf
  have hleaves := leaves_of_product hc
  exact conjunction_ne_disjoint hholds (fun l hl => htyped l (hleaves l hl))
    (fun l hl l' hl' => hcanonical l (hleaves l hl) l' (hleaves l' hl')) (hall c hc)

/-- A comparison of one word with one value. -/
def comparison (name op : Text) (value : Token) : Node := .predicate [⟨.word, name⟩] op value

theorem parse_comparison {s name op : Text} {value : Token}
    (hvalue : value.kind = .word ∨ value.kind = .string)
    (h : tokenize s = [⟨.word, name⟩] ++ [⟨.op, op⟩, value]) :
    parse s = .ok (comparison name op value) := by
  have hleaf : Reads ReadsPredicate .unary (tokenize s) [comparison name op value] := by
    rw [h]
    exact .leaf (.value (o := ⟨.op, op⟩) (.single (Or.inl rfl)) rfl hvalue)
  exact parse_of_reads ⟨_, .andOne (.orOne hleaf), rfl⟩

/-- An entry with one number at all paths. -/
def notice : LogEntry asciiTable where
  values _ := [.float 300]
  single _ _ := le_refl 1
  severity _ _ := ⟨("notice".toList, 300), by decide, rfl⟩

theorem notice_typed (leaves : List Node) : notice.Typed leaves := by
  intro _ _ _ _ _ _ x hx
  rw [List.mem_singleton.mp hx]
  rfl

theorem notice_canonically {other : Node → Bool} {n m : Node}
    (h : canonicalizeNode asciiTable n ≠ canonicalizeNode asciiTable m) :
    notice.Canonically other [n, m] := by
  intro k hk l hl hkl
  rcases List.mem_pair.mp hk with rfl | rfl <;> rcases List.mem_pair.mp hl with rfl | rfl
  · rfl
  · exact absurd hkl h
  · exact absurd hkl.symm h
  · rfl

theorem compareDnfs_of_verdict {a b : Text} {n m : Node} (ha : parse a = .ok n)
    (hb : parse b = .ok m) (h : verdict ct false a b = .disjoint) :
    compareDnfs ct (normalForm n false) (normalForm m false) = .disjoint := by
  obtain ⟨r, hr⟩ := @exists_comparePair ct _ _ ⟨n, ha⟩ ⟨m, hb⟩
  rw [verdict, if_neg Bool.false_ne_true, hr] at h
  obtain rfl : r = .disjoint := h
  obtain ⟨result, hresult, hr⟩ := bind_eq_ok.mp hr
  obtain rfl : result = .disjoint := by
    have hkept := pure_eq_ok.mp hr
    split at hkept
    · cases hkept
    · exact hkept
  rw [orderedPair] at hresult
  split at hresult
  · rw [compareDnfs_comm]
    exact (verdict_cases hb ha hresult).resolve_left (by simp)
  · exact (verdict_cases ha hb hresult).resolve_left (by simp)

/-- A sink for large sizes, and others for small ones. -/
def sizeSinks (r : Ref) : LogSink :=
  if r = 0 then { filter := some "size>5".toList } else { filter := some "size<3".toList }

end Custodian.Verdicts

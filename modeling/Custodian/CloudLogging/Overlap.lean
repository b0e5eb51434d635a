import Custodian.CloudLogging.BoundedDnf
import Custodian.Lib.Double
import Custodian.Lib.Grouping
import Custodian.Lib.Split
import Mathlib.Data.Finset.Image
import Mathlib.Order.WithBot

/-!
# Overlap of Cloud Logging filters

`compare_cloud_logging_filters` of `c7n_gcp/utils.py` combines every conjunction of
one filter with every conjunction of the other, and reads the literals of each
combination field by field.
-/

namespace Custodian.FilterOverlap

open Py Py.Items Custodian.Tokenizer Custodian.Retokenize Custodian.Parser
  Custodian.Canonical Custodian.BoundedDnf BoolLogic

/-! ## Numbers -/

/-- Digits of any script, with single underscores between them. -/
def digitPart : Text → List Nat × Text
  | [] => ([], [])
  | [c] => (digitValue c).elim ([], [c]) fun d => ([d], [])
  | c :: c' :: s =>
    match digitValue c with
    | none => ([], c :: c' :: s)
    | some d =>
      if c' = '_' then
        let p := digitPart s
        if p.1 = [] then ([d], c' :: s) else (d :: p.1, p.2)
      else
        let p := digitPart (c' :: s)
        (d :: p.1, p.2)

/-- A sign, and what follows it. -/
def signPart : Text → Bool × Text
  | '-' :: s => (true, s)
  | '+' :: s => (false, s)
  | s => (false, s)

def natOf (digits : List Nat) : Nat := Nat.ofDigits 10 digits.reverse

/-- The exponent at the end of a number. -/
def exponentPart : Text → Option Int
  | [] => some 0
  | c :: s =>
    let p := signPart s
    let q := digitPart p.2
    if (c = 'e' ∨ c = 'E') ∧ q.1 ≠ [] ∧ q.2 = [] then
      some (if p.1 then -natOf q.1 else natOf q.1)
    else none

/-- `float(s)`, if it is a finite number. -/
def finiteFloat (s : Text) : Option ℚ :=
  let signed := signPart (strip s)
  let whole := digitPart signed.2
  let frac := match whole.2 with
    | '.' :: rest => digitPart rest
    | rest => ([], rest)
  if whole.1 ++ frac.1 = [] then none
  else (exponentPart frac.2).bind fun e =>
    let q : ℚ := natOf (whole.1 ++ frac.1) * 10 ^ (e - frac.1.length)
    Double.ofRat (if signed.1 then -q else q)

/-- `_SEVERITY_ORDER` -/
def severityOrder : List (Text × ℚ) :=
  [("default".toList, 0), ("debug".toList, 100), ("info".toList, 200), ("notice".toList, 300),
    ("warning".toList, 400), ("error".toList, 500), ("critical".toList, 600),
    ("alert".toList, 700), ("emergency".toList, 800)]

/-- `_coerce_cloud_logging_ordered_value` -/
def coerceOrderedValue (ct : CaseTable) (value : Text) (severity : Bool) : Option ℚ :=
  match finiteFloat value with
  | some number => some number
  -- severity names only order the top-level severity field
  | none => if severity then severityOrder.lookup (ct.lower (strip value)) else none

/-! ## Values -/

/-- `_ESCAPED_QUOTE_RE.sub(r'\1', s)` -/
def unescape : Text → Text
  | [] => []
  | [c] => [c]
  | c :: d :: s =>
    if c = '\\' ∧ (d = '"' ∨ d = '\'' ∨ d = '\\') then d :: unescape s
    else c :: unescape (d :: s)

/-- `_normalize_cloud_logging_rhs` -/
def normalizeRhs (ct : CaseTable) (rhs : Text) : Text :=
  let value := strip rhs
  let quoted := fun q : Char => value.head? = some q ∧ value.getLast? = some q
  ct.lower (if quoted '"' ∨ quoted '\'' then unescape (unquoted value) else value)

example : finiteFloat "-1_0.5e1 ".toList = some (-105) ∧ finiteFloat "1__0".toList = none ∧
    normalizeRhs asciiTable " \"A\\\"b\" ".toList = "a\"b".toList := by
  decide +kernel

/-! ## Intervals -/

/-- A number, or an infinity. -/
abbrev Extended := WithBot (WithTop ℚ)

/-- `_Interval` -/
structure Interval where
  lower : Extended := ⊥
  lowerInclusive : Bool := true
  upper : Extended := (⊤ : WithTop ℚ)
  upperInclusive : Bool := true

def number (q : ℚ) : Extended := ((q : WithTop ℚ) : Extended)

/-- `_Interval.empty` -/
def Interval.empty (i : Interval) : Bool :=
  i.upper < i.lower || (i.lower = i.upper && !(i.lowerInclusive && i.upperInclusive))

/-- `_Interval.contains` -/
def Interval.contains (i : Interval) (value : ℚ) : Bool :=
  (i.lower < number value || (number value = i.lower && i.lowerInclusive)) &&
    (number value < i.upper || (number value = i.upper && i.upperInclusive))

/-- A comparison narrows the lower bound. -/
def Interval.raise (i : Interval) (value : ℚ) (inclusive : Bool) : Interval :=
  if i.lower < number value ∨ (number value = i.lower ∧ !inclusive) then
    { i with lower := number value, lowerInclusive := inclusive }
  else i

/-- A comparison narrows the upper bound. -/
def Interval.reduce (i : Interval) (value : ℚ) (inclusive : Bool) : Interval :=
  if number value < i.upper ∨ (number value = i.upper ∧ !inclusive) then
    { i with upper := number value, upperInclusive := inclusive }
  else i

/-- A comparison with a number narrows the interval. -/
def Interval.narrow (i : Interval) (op : Text) (value : ℚ) : Interval :=
  let raised := if op ∈ ["=".toList, ">".toList, ">=".toList] then i.raise value (op ≠ ">".toList)
    else i
  if op ∈ ["=".toList, "<".toList, "<=".toList] then raised.reduce value (op ≠ "<".toList)
  else raised

/-- The number that a predicate compares with, if it narrows the interval. -/
def comparedNumber (ct : CaseTable) (severity : Bool) (p : Text × Text) : Option ℚ :=
  if p.1 ∈ ["=".toList, ">".toList, ">=".toList, "<".toList, "<=".toList] then
    coerceOrderedValue ct p.2 severity
  else none

/-- The loop of `_to_cloud_logging_numeric_interval`, on whether a number was met and
on the interval so far. -/
def narrow (ct : CaseTable) (severity : Bool) (st : Bool × Interval) (p : Text × Text) :
    Bool × Interval :=
  match comparedNumber ct severity p with
  | none => st
  | some v => (true, st.2.narrow p.1 v)

/-- `_to_cloud_logging_numeric_interval` -/
def toNumericInterval (ct : CaseTable) (predicates : List (Text × Text)) (severity : Bool) :
    Option Interval :=
  let st := predicates.foldl (narrow ct severity) (false, {})
  if st.1 then some st.2 else none

/-! ## Fields -/

/-- `CloudLoggingOverlap` -/
inductive Overlap where
  | disjoint
  | possible
  | overlap
  deriving DecidableEq

/-- A literal on a field. -/
structure Constraint where
  negated : Bool
  op : Text
  value : Text
  deriving DecidableEq

/-- `_PRESENCE_OPERATORS` -/
def presenceOperators : List Text :=
  ["=".toList, ">".toList, ">=".toList, "<".toList, "<=".toList]

/-- `_ORDERED_OPERATORS` -/
def orderedOperators : List Text := [">".toList, ">=".toList, "<".toList, "<=".toList]

/-- `_COMPLEMENT_OPERATORS` -/
def complementOperators : List (Text × Text) :=
  [("=".toList, "!=".toList), ("!=".toList, "=".toList), (">".toList, "<=".toList),
    (">=".toList, "<".toList), ("<".toList, ">=".toList), ("<=".toList, ">".toList)]

/-- The operator of a constraint without its negation, if it has one. -/
def Constraint.plainOp (present : Bool) (c : Constraint) : Option Text :=
  if c.negated then
    -- NOT field="x" holds when the field is absent or has another value
    if c.op = "=".toList then some "!=".toList
    else if present then complementOperators.lookup c.op else none
  else some c.op

/-- What a constraint adds to `effective`; otherwise it is not understood. -/
def Constraint.effective (ct : CaseTable) (severity present : Bool) (c : Constraint) :
    Option (Text × Text) :=
  (c.plainOp present).bind fun op =>
    if op ∈ orderedOperators then
      (coerceOrderedValue ct c.value severity).map fun _ => (op, c.value)
    else if op = "=".toList ∨ op = "!=".toList then some (op, c.value)
    else none

/-- What `value_key` returns. -/
inductive ValueKey where
  | float (q : ℚ)
  | text (s : Text)
  deriving DecidableEq

/-- `value_key` -/
def valueKey (ct : CaseTable) (severity : Bool) (value : Text) : ValueKey :=
  match coerceOrderedValue ct value severity with
  | some number => .float number
  | none => .text value

/-- `{value_key(value) for op, value in effective if op == o}` -/
def valueKeys (ct : CaseTable) (severity : Bool) (effective : List (Text × Text)) (o : Text) :
    Finset ValueKey :=
  ((effective.filter fun p => p.1 = o).map fun p => valueKey ct severity p.2).toFinset

/-- The value is a number of which `p` holds. -/
def ValueKey.isFloat (p : ℚ → Bool) : ValueKey → Bool
  | .float q => p q
  | .text _ => false

/-- What the interval of a field leaves possible, but for the values `ne`. -/
def rangeSatisfiable (severity : Bool) (i : Interval) (ne : Finset ValueKey) : Overlap :=
  if severity then
    -- every entry has exactly one of the fixed severity levels
    if severityOrder.any fun level => i.contains level.2 && decide (ValueKey.float level.2 ∉ ne) then
      .overlap
    else .disjoint
  else if i.empty then .disjoint
  else if i.lower = i.upper ∧ ∃ k ∈ ne, k.isFloat fun v => number v = i.lower then .disjoint
  -- excluding values inside a range only leaves a match if the field is not
  -- restricted to those values
  else if ∃ k ∈ ne, k.isFloat i.contains then .possible
  else .overlap

/-- `_cloud_logging_single_value_satisfiable` -/
def singleValueSatisfiable (ct : CaseTable) (field : Text) (constraints : List Constraint) :
    Overlap :=
  let severity := decide (ct.lower field = "severity".toList)
  let present := severity || constraints.any fun c => !c.negated && presenceOperators.contains c.op
  let effective := constraints.filterMap (Constraint.effective ct severity present)
  let understood := constraints.all fun c => (c.effective ct severity present).isSome
  let eq := valueKeys ct severity effective "=".toList
  let ne := valueKeys ct severity effective "!=".toList
  if 1 < eq.card ∨ (eq ∩ ne).Nonempty then .disjoint
  else
    let interval := (toNumericInterval ct effective severity).or
      (if severity then some {} else none)
    match interval with
    | none => if understood then .overlap else .possible
    | some i =>
      match rangeSatisfiable severity i ne with
      | .disjoint => .disjoint
      | range =>
        -- a non-numeric equality alongside a numeric range is not understood
        if understood ∧ range = .overlap ∧ ∀ k ∈ eq, k.isFloat fun _ => true then .overlap
        else .possible

/-- `_REPEATABLE_FIELD_PREFIXES` -/
def repeatableFieldPrefixes : List Text := ["jsonpayload.".toList, "protopayload.".toList]

/-- `_cloud_logging_field_satisfiable` -/
def fieldSatisfiable (ct : CaseTable) (field : Text) (constraints : List Constraint) : Overlap :=
  let result := singleValueSatisfiable ct field constraints
  -- a payload field may be an array, of which any element can match
  if result = .disjoint ∧ repeatableFieldPrefixes.any (Text.startsWith (ct.lower field)) then
    .possible
  else result

/-! ## Conjunctions -/

/-- A loop over results that returns at the first `stop`, and otherwise remembers
whether one was `possible`. -/
def scanResults (stop : Overlap) : List Overlap → Overlap → Overlap
  | [], result => result
  | r :: rs, result =>
    if r = stop then stop else scanResults stop rs (if r = .possible then .possible else result)

/-- The state of the loop over the literals. -/
structure Scan where
  polarity : List (Text × Bool) := []
  fields : List (Text × List Constraint) := []
  result : Overlap := .overlap

/-- One literal; `none` when its negation was met. -/
def Scan.step (ct : CaseTable) (st : Scan) (l : Literal Node) : Option Scan :=
  let key := canonicalizeNode ct l.2
  if (get key st.polarity).getD l.1 ≠ l.1 then none
  else
    let polarity := if (get key st.polarity).isSome then st.polarity else set key l.1 st.polarity
    match l.2 with
    | .predicate lhs op rhs =>
      let field := canonicalizeField ct lhs
      let value := normalizeRhs ct (renderTokens [rhs])
      some ⟨polarity, set field ((get field st.fields).getD [] ++ [⟨l.1, op, value⟩]) st.fields,
        st.result⟩
    -- the literals of a normal form are comparisons and terms
    | _ => some ⟨polarity, st.fields, .possible⟩

/-- `_cloud_logging_conjunction_satisfiable` -/
def conjunctionSatisfiable (ct : CaseTable) (literals : Conjunction Node) : Overlap :=
  match literals.foldlM (Scan.step ct) {} with
  | none => .disjoint
  | some st =>
    -- paths that differ in case differ in a map or struct key
    let lowered := (st.fields.map fun f => ct.lower f.1).toFinset
    scanResults .disjoint (st.fields.map fun f => fieldSatisfiable ct f.1 f.2)
      (if lowered.card < st.fields.length then .possible else st.result)

/-! ## Comparing filters -/

/-- The two loops over the conjunctions of both filters. -/
def compareDnfs (ct : CaseTable) (left right : Dnf Node) : Overlap :=
  scanResults .overlap ((product left right).map (conjunctionSatisfiable ct)) .disjoint

/-- `_cloud_logging_filter_dnf` -/
def filterDnf (expression : Text) : Except Failure (Option (Dnf Node)) := do
  let ast ← parse expression
  return toCloudLoggingDnf ast false

/-- `compare_cloud_logging_filters` -/
def compareFilters (ct : CaseTable) (leftExpression rightExpression : Text) :
    Except Failure Overlap := do
  let left ← filterDnf leftExpression
  let right ← filterDnf rightExpression
  match left, right with
  | some left, some right => return compareDnfs ct left right
  | _, _ => return .possible

/-! ## Intervals and order -/

theorem number_injective : Function.Injective number :=
  WithBot.coe_injective.comp WithTop.coe_injective

namespace Interval

theorem raise_comm (i : Interval) (v w : ℚ) (b c : Bool) :
    (i.raise v b).raise w c = (i.raise w c).raise v b := by
  unfold raise
  rcases lt_trichotomy (number v) (number w) with hvw | hvw | hvw
  · grind
  · obtain rfl := number_injective hvw
    grind
  · grind

theorem reduce_comm (i : Interval) (v w : ℚ) (b c : Bool) :
    (i.reduce v b).reduce w c = (i.reduce w c).reduce v b := by
  unfold reduce
  rcases lt_trichotomy (number v) (number w) with hvw | hvw | hvw
  · grind
  · obtain rfl := number_injective hvw
    grind
  · grind

theorem raise_reduce (i : Interval) (v w : ℚ) (b c : Bool) :
    (i.raise v b).reduce w c = (i.reduce w c).raise v b := by
  unfold raise reduce
  grind

end Interval


variable {ct : CaseTable}

theorem Interval.narrow_comm (i : Interval) (op op' : Text) (v w : ℚ) :
    (i.narrow op v).narrow op' w = (i.narrow op' w).narrow op v := by
  unfold Interval.narrow
  split_ifs <;> grind [Interval.raise_comm, Interval.reduce_comm, Interval.raise_reduce]

instance narrow_rightCommutative (severity : Bool) : RightCommutative (narrow ct severity) where
  right_comm st p q := by
    unfold narrow
    cases comparedNumber ct severity p with
    | none => rfl
    | some v =>
      cases comparedNumber ct severity q with
      | none => rfl
      | some w => exact Prod.ext rfl (st.2.narrow_comm p.1 q.1 v w)

theorem toNumericInterval_perm {predicates predicates' : List (Text × Text)}
    (h : predicates.Perm predicates') (severity : Bool) :
    toNumericInterval ct predicates severity = toNumericInterval ct predicates' severity := by
  rw [toNumericInterval, toNumericInterval, h.foldl_eq]

theorem valueKeys_perm {effective effective' : List (Text × Text)}
    (h : effective.Perm effective') (severity : Bool) (o : Text) :
    valueKeys ct severity effective o = valueKeys ct severity effective' o :=
  List.toFinset_eq_of_perm _ _ ((h.filter _).map _)

theorem singleValueSatisfiable_perm (field : Text) {cs cs' : List Constraint} (h : cs.Perm cs') :
    singleValueSatisfiable ct field cs = singleValueSatisfiable ct field cs' := by
  unfold singleValueSatisfiable
  extract_lets severity present effective understood eq ne interval present' effective' understood'
    eq' ne' interval'
  have hpresent : present = present' := congrArg (severity || ·) h.any_eq
  have heffective : effective.Perm effective' := by
    rw [show effective' = cs'.filterMap (Constraint.effective ct severity present) by
      rw [hpresent]]
    exact h.filterMap _
  have hunderstood : understood = understood' := by
    rw [show understood' = cs'.all fun c => (c.effective ct severity present).isSome by
      rw [hpresent]]
    exact h.all_eq
  have heq : eq = eq' := valueKeys_perm heffective severity _
  have hne : ne = ne' := valueKeys_perm heffective severity _
  have hinterval : interval = interval' :=
    congrArg (fun o => Option.or o _) (toNumericInterval_perm heffective severity)
  rw [hunderstood, heq, hne, hinterval]

theorem fieldSatisfiable_perm (field : Text) {cs cs' : List Constraint} (h : cs.Perm cs') :
    fieldSatisfiable ct field cs = fieldSatisfiable ct field cs' := by
  rw [fieldSatisfiable, fieldSatisfiable, singleValueSatisfiable_perm field h]

/-! ## Literals and order -/

theorem scanResults_eq (stop : Overlap) (rs : List Overlap) (result : Overlap) :
    scanResults stop rs result =
      if stop ∈ rs then stop else if .possible ∈ rs then .possible else result := by
  induction rs generalizing result with
  | nil => simp [scanResults]
  | cons r rs ih =>
    rw [scanResults, ih]
    grind

theorem scanResults_congr (stop : Overlap) {rs rs' : List Overlap} (h : ∀ r, r ∈ rs ↔ r ∈ rs')
    (result : Overlap) : scanResults stop rs result = scanResults stop rs' result := by
  rw [scanResults_eq, scanResults_eq]
  simp only [h]

/-- The constraint of a comparison, with its field. -/
def constraintOf (ct : CaseTable) (l : Literal Node) : Option (Text × Constraint) :=
  match l.2 with
  | .predicate lhs op rhs =>
    some (canonicalizeField ct lhs, ⟨l.1, op, normalizeRhs ct (renderTokens [rhs])⟩)
  | _ => none

/-- No literal stands beside its negation. -/
def Consistent (ct : CaseTable) (ls : Conjunction Node) : Prop :=
  ∀ l ∈ ls, ∀ l' ∈ ls, canonicalizeNode ct l.2 = canonicalizeNode ct l'.2 → l.1 = l'.1

theorem step_eq_some {st st' : Scan} {l : Literal Node} (h : st.step ct l = some st') :
    (∀ b ∈ get (canonicalizeNode ct l.2) st.polarity, b = l.1) ∧
      (∀ k, get k st'.polarity =
        if k = canonicalizeNode ct l.2 then some l.1 else get k st.polarity) ∧
      st'.fields = updates Prod.fst (fun group c => group.getD [] ++ [c.2]) st.fields
        (constraintOf ct l).toList ∧
      st'.result = if constraintOf ct l = none then .possible else st.result := by
  unfold Scan.step at h
  extract_lets key polarity at h
  split at h
  · cases h
  · rename_i hagree
    have hmet : ∀ b ∈ get key st.polarity, b = l.1 := by
      intro b hb
      rw [Option.mem_def.mp hb, Option.getD_some, not_not] at hagree
      exact hagree
    have hpolarity : ∀ k, get k polarity = if k = key then some l.1 else get k st.polarity := by
      intro k
      by_cases hseen : (get key st.polarity).isSome
      · obtain ⟨b, hb⟩ := Option.isSome_iff_exists.mp hseen
        rw [show polarity = st.polarity from if_pos hseen]
        split
        · rename_i hk
          rw [hk, hb, hmet b hb]
        · rfl
      · rw [show polarity = set key l.1 st.polarity from if_neg hseen, get_set]
    refine ⟨hmet, ?_⟩
    split at h
    · obtain rfl := Option.some.inj h
      rename_i lhs op rhs hnode
      have hc : constraintOf ct l = some (canonicalizeField ct lhs,
          ⟨l.1, op, normalizeRhs ct (renderTokens [rhs])⟩) := by
        rw [constraintOf, hnode]
      rw [hc]
      exact ⟨hpolarity, rfl, rfl⟩
    · obtain rfl := Option.some.inj h
      rename_i hnode
      have hc : constraintOf ct l = none := by
        unfold constraintOf
        split
        · rename_i heq
          exact absurd heq (hnode _ _ _)
        · rfl
      rw [hc]
      exact ⟨hpolarity, rfl, rfl⟩

theorem step_eq_none {st : Scan} {l : Literal Node} (h : st.step ct l = none) :
    ∃ b ∈ get (canonicalizeNode ct l.2) st.polarity, b ≠ l.1 := by
  unfold Scan.step at h
  extract_lets key polarity at h
  split at h
  · rename_i hne
    cases hb : get key st.polarity with
    | none =>
      rw [hb] at hne
      exact absurd rfl hne
    | some b =>
      rw [hb] at hne
      exact ⟨b, rfl, hne⟩
  · split at h <;> cases h

theorem scan_eq_none_iff {ls : Conjunction Node} {st : Scan} :
    ls.foldlM (Scan.step ct) st = none ↔
      ¬ (Consistent ct ls ∧ ∀ l ∈ ls, ∀ b ∈ get (canonicalizeNode ct l.2) st.polarity, b = l.1) := by
  induction ls generalizing st with
  | nil => simp [Consistent]
  | cons l ls ih =>
    rw [List.foldlM_cons, Option.bind_eq_bind]
    cases hst : st.step ct l with
    | none =>
      obtain ⟨b, hb, hne⟩ := step_eq_none hst
      refine iff_of_true rfl fun h => hne (h.2 l List.mem_cons_self b hb)
    | some st' =>
      obtain ⟨hmet, hpolarity, -⟩ := step_eq_some hst
      rw [Option.bind_some, ih, not_iff_not]
      simp only [Consistent, List.forall_mem_cons, hpolarity]
      constructor
      · rintro ⟨hls, hrest⟩
        have hhead : ∀ l' ∈ ls, canonicalizeNode ct l.2 = canonicalizeNode ct l'.2 → l.1 = l'.1 :=
          fun l' hl' he => hrest l' hl' l.1 (by rw [if_pos he.symm]; rfl)
        refine ⟨⟨⟨fun _ => trivial, hhead⟩, fun l' hl' => ⟨fun he => (hhead l' hl' he.symm).symm,
          hls l' hl'⟩⟩, hmet, fun l' hl' b hb => ?_⟩
        by_cases he : canonicalizeNode ct l'.2 = canonicalizeNode ct l.2
        · rw [← hhead l' hl' he.symm]
          rw [he] at hb
          exact hmet b hb
        · exact hrest l' hl' b (by rwa [if_neg he])
      · rintro ⟨⟨⟨-, hhead⟩, hls⟩, -, hrest⟩
        refine ⟨fun l' hl' => (hls l' hl').2, fun l' hl' b hb => ?_⟩
        split at hb
        · rename_i he
          rw [← Option.some.inj hb]
          exact hhead l' hl' he.symm
        · exact hrest l' hl' b hb

theorem scan_eq_some {ls : Conjunction Node} {st st' : Scan}
    (h : ls.foldlM (Scan.step ct) st = some st') :
    st'.fields = updates Prod.fst (fun group c => group.getD [] ++ [c.2]) st.fields
        (ls.filterMap (constraintOf ct)) ∧
      st'.result = if ∃ l ∈ ls, constraintOf ct l = none then .possible else st.result := by
  induction ls generalizing st with
  | nil =>
    obtain rfl := Option.some.inj h
    exact ⟨rfl, by simp⟩
  | cons l ls ih =>
    rw [List.foldlM_cons, Option.bind_eq_bind] at h
    obtain ⟨st'', hst, h⟩ := Option.bind_eq_some_iff.mp h
    obtain ⟨hfields, hresult⟩ := ih h
    obtain ⟨-, -, hfields', hresult'⟩ := step_eq_some hst
    rw [hfields, hfields', hresult, hresult', ← updates_append]
    constructor
    · cases hc : constraintOf ct l <;> simp [hc]
    · simp only [List.exists_mem_cons_iff]
      rw [← ite_or]
      simp only [or_comm]

/-- The fields of a conjunction, with their constraints. -/
def fieldsOf (ct : CaseTable) (ls : Conjunction Node) : List (Text × List Constraint) :=
  groupOn Prod.fst Prod.snd (ls.filterMap (constraintOf ct))

theorem conjunctionSatisfiable_eq (ls : Conjunction Node) :
    (¬ Consistent ct ls ∧ conjunctionSatisfiable ct ls = .disjoint) ∨
      Consistent ct ls ∧ conjunctionSatisfiable ct ls =
        scanResults .disjoint ((fieldsOf ct ls).map fun f => fieldSatisfiable ct f.1 f.2)
          (if ((fieldsOf ct ls).map fun f => ct.lower f.1).toFinset.card < (fieldsOf ct ls).length ∨
            ∃ l ∈ ls, constraintOf ct l = none then .possible else .overlap) := by
  unfold conjunctionSatisfiable
  cases hscan : ls.foldlM (Scan.step ct) {} with
  | none =>
    refine Or.inl ⟨fun hcons => scan_eq_none_iff.mp hscan ⟨hcons, fun l _ b hb => ?_⟩, rfl⟩
    cases hb
  | some st =>
    have hcons : Consistent ct ls := by
      by_contra hno
      rw [scan_eq_none_iff.mpr fun h => hno h.1] at hscan
      cases hscan
    obtain ⟨hfields, hresult⟩ := scan_eq_some hscan
    refine Or.inr ⟨hcons, ?_⟩
    have hgroups : st.fields = fieldsOf ct ls := hfields
    simp only [hgroups, hresult, ite_or]

/-- **Order.**  The literals of a conjunction can be read in any order. -/
theorem conjunctionSatisfiable_perm {ls ls' : Conjunction Node} (h : ls.Perm ls') :
    conjunctionSatisfiable ct ls = conjunctionSatisfiable ct ls' := by
  have hcons : Consistent ct ls ↔ Consistent ct ls' := by
    simp only [Consistent, h.mem_iff]
  have hconstraints := h.filterMap (constraintOf ct)
  have hresults : ((fieldsOf ct ls).map fun f => fieldSatisfiable ct f.1 f.2).Perm
      ((fieldsOf ct ls').map fun f => fieldSatisfiable ct f.1 f.2) :=
    perm_map_groupOn (fun k _ _ hp => fieldSatisfiable_perm k hp) hconstraints
  have hlowered : ((fieldsOf ct ls).map fun f => ct.lower f.1).Perm
      ((fieldsOf ct ls').map fun f => ct.lower f.1) :=
    perm_map_groupOn (fun _ _ _ _ => rfl) hconstraints
  have hlength : (fieldsOf ct ls).length = (fieldsOf ct ls').length := by
    simpa using hlowered.length_eq
  rcases @conjunctionSatisfiable_eq ct ls with ⟨hno, heq⟩ | ⟨hyes, heq⟩
  · rcases @conjunctionSatisfiable_eq ct ls' with ⟨-, heq'⟩ | ⟨hyes', -⟩
    · rw [heq, heq']
    · exact absurd (hcons.mpr hyes') hno
  · rcases @conjunctionSatisfiable_eq ct ls' with ⟨hno', -⟩ | ⟨-, heq'⟩
    · exact absurd (hcons.mp hyes) hno'
    · rw [heq, heq', scanResults_congr _ (fun r => hresults.mem_iff),
        List.toFinset_eq_of_perm _ _ hlowered, hlength]
      simp only [h.mem_iff]

/-! ## Filters and order -/

theorem compareDnfs_congr {d d' e e' : Dnf Node} (h : unordered d = unordered d')
    (h' : unordered e = unordered e') : compareDnfs ct d e = compareDnfs ct d' e' := by
  have hmem : ∀ {d d' e e' : Dnf Node}, unordered d = unordered d' → unordered e = unordered e' →
      ∀ r ∈ (product d e).map (conjunctionSatisfiable ct),
        r ∈ (product d' e').map (conjunctionSatisfiable ct) := by
    intro d d' e e' h h' r hr
    obtain ⟨c, hc, rfl⟩ := List.mem_map.mp hr
    obtain ⟨a, ha, hc⟩ := List.mem_flatMap.mp hc
    obtain ⟨b, hb, rfl⟩ := List.mem_map.mp hc
    obtain ⟨a', ha', hpa⟩ := exists_perm_of_mem h ha
    obtain ⟨b', hb', hpb⟩ := exists_perm_of_mem h' hb
    rw [conjunctionSatisfiable_perm (hpa.append hpb)]
    exact List.mem_map_of_mem (List.mem_flatMap.mpr ⟨a', ha', List.mem_map_of_mem hb'⟩)
  exact scanResults_congr _ (fun r => ⟨hmem h h' r, hmem h.symm h'.symm r⟩) _

theorem compareDnfs_comm (d e : Dnf Node) : compareDnfs ct d e = compareDnfs ct e d := by
  have hmem : ∀ {d e : Dnf Node}, ∀ r ∈ (product d e).map (conjunctionSatisfiable ct),
      r ∈ (product e d).map (conjunctionSatisfiable ct) := by
    intro d e r hr
    obtain ⟨c, hc, rfl⟩ := List.mem_map.mp hr
    obtain ⟨a, ha, hc⟩ := List.mem_flatMap.mp hc
    obtain ⟨b, hb, rfl⟩ := List.mem_map.mp hc
    rw [conjunctionSatisfiable_perm List.perm_append_comm]
    exact List.mem_map_of_mem (List.mem_flatMap.mpr ⟨b, hb, List.mem_map_of_mem ha⟩)
  exact scanResults_congr _ (fun r => ⟨hmem r, hmem r⟩) _

/-- **Symmetry.**  Which filter comes first does not matter. -/
theorem compare_symm (a b : Text) (r : Overlap) :
    compareFilters ct a b = .ok r ↔ compareFilters ct b a = .ok r := by
  unfold compareFilters
  cases filterDnf a with
  | error e => cases filterDnf b <;> simp [bind, Except.bind]
  | ok d =>
    cases filterDnf b with
    | error e => simp [bind, Except.bind]
    | ok e => cases d <;> cases e <;> simp [bind, Except.bind, compareDnfs_comm]

/-- **Reordering.**  Nor does the order of the operands of a filter. -/
theorem compare_reordered {a a' : Text} {n n' : Node} (ha : parse a = .ok n)
    (ha' : parse a' = .ok n') (h : Reordered n n') (b : Text) :
    compareFilters ct a b = compareFilters ct a' b := by
  have hnone := toCloudLoggingDnf_reordered h (parse_syntaxTree ha) false
  unfold compareFilters filterDnf
  cases hb : parse b with
  | error e => simp only [ha, ha', bind, Except.bind, pure, Except.pure]
  | ok m =>
    simp only [ha, ha', bind, Except.bind, pure, Except.pure]
    cases hd : toCloudLoggingDnf n false with
    | none => rw [hnone.mp hd]
    | some d =>
      cases hd' : toCloudLoggingDnf n' false with
      | none =>
        rw [hnone.mpr hd'] at hd
        cases hd
      | some d' =>
        obtain ⟨rfl, -⟩ := toCloudLoggingDnf_eq hd
        obtain ⟨rfl, -⟩ := toCloudLoggingDnf_eq hd'
        cases toCloudLoggingDnf m false with
        | none => rfl
        | some e => exact congrArg _ (compareDnfs_congr (normalForm_reordered h false) rfl)

end Custodian.FilterOverlap

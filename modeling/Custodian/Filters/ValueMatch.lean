import Custodian.Filters.ValueTypes

/-!
# Value filters

`ValueFilter.match` of `c7n/filters/core.py` converts the value of a resource and the value of the
filter, tries the words that stand for a test, and applies the operator.  Only a `TypeError` of the
operator is caught.
-/

namespace Custodian.ValueMatch

open Py
open ParseDate
open ValueOps
open ValueTypes

/-- A value filter with a literal value.  One with a single member is the key and the value. -/
structure Data where
  key : Option Text
  value : Value
  op : Option Text
  valueType : Option ValueType
  valueRegex : Option Text
  tagKeyTransforms : List Text

/-! ## Validation -/

def policyValidationError : Exn := .raised "PolicyValidationError".toList

def invalid : Except Exn Unit := .error policyValidationError

def regexOperators : List Text := ["regex".toList, "regex-case".toList]

/-- `DURATION_OPERATORS` -/
def durationOperators : List Text :=
  ["eq", "equal", "ne", "not-equal", "gt", "greater-than", "ge", "gte", "le", "lte", "lt",
   "less-than"].map String.toList

def isIntOrList : Value → Bool
  | .bool _ => true
  | .int _ => true
  | .list _ => true
  | _ => false

/-- `_validate_resource_count` -/
def Data.validateResourceCount (d : Data) : Except Exn Unit :=
  match d.op with
  | none => invalid
  | some op =>
    if isIntOrList d.value = false then invalid
    else if operators.lookup op = none ∨ op ∈ regexOperators ∨ d.valueRegex.isSome then invalid
    else .ok ()

def Data.validateType (env : Env) (d : Data) : Except Exn Unit :=
  match d.valueType with
  | some .date => do
    match ← parseDate env (some d.value) with
    | some _ => return ()
    | none => invalid
  | some .duration =>
    if d.op.any (· ∉ durationOperators) then invalid
    else if parseDuration env (some d.value) = none then invalid
    else .ok ()
  | _ => .ok ()

/-- An expression has to be one that can be compiled. -/
def Data.validateOp (env : Env) (d : Data) : Except Exn Unit :=
  match d.op with
  | none => .ok ()
  | some op =>
    if operators.lookup op = none then invalid
    else if op ∈ regexOperators then
      match d.value with
      | .str expr => (env.compile expr).map fun _ => ()
      | _ => .error .typeError
    else .ok ()

/-- `_validate_tag_key_transforms` -/
def Data.validateTagKeyTransforms (d : Data) : Except Exn Unit :=
  if d.tagKeyTransforms.any fun n => (transforms.lookup n).isNone then invalid else .ok ()

/-- `_validate_value_regex` -/
def Data.validateValueRegex (env : Env) (d : Data) : Except Exn Unit :=
  match d.valueRegex with
  | none => .ok ()
  | some expr => do
    let p ← env.compile expr
    if p.groups ≠ 1 then invalid else return ()

/-- `validate` -/
def Data.validate (env : Env) (d : Data) : Except Exn Unit :=
  if d.valueType = some .resourceCount then d.validateResourceCount
  else do
    d.validateType env
    if d.key = none then invalid
    else do
      d.validateOp env
      d.validateTagKeyTransforms
      d.validateValueRegex env

/-- The type of the value fits the value type. -/
def Data.Suits (d : Data) : Prop :=
  match d.valueType with
  | some .age => d.value.number?.isSome = true
  | some .expiration => d.value.number?.isSome = true
  | some .cidr => cidrable d.value = true
  | some .version => ∃ s, s ≠ [] ∧ d.value = .str s
  | some .expr => ∃ s, d.value = .str s
  | _ => True

/-! ## Matching -/

def absent : Text := "absent".toList

def present : Text := "present".toList

def notNull : Text := "not-null".toList

def empty : Text := "empty".toList

/-- `v == word`; a version is compared with the version that the word is. -/
def isWord (word : Text) : Operand → Except Exn Bool
  | .value v => .ok (v.eq (.str word))
  | .version (some ps) => .ok (ps = components word)
  | .version none => .error .attributeError
  | _ => .ok false

/-- `x or y` -/
def orElseTest (x y : Except Exn Bool) : Except Exn Bool := do
  if ← x then return true else y

/-- The words that stand for a test of the resource. -/
def shorthand (v r : Operand) : Except Exn Bool :=
  orElseTest (if r.isNone then isWord absent v else .ok false) <|
    orElseTest (if r.isNone then .ok false else isWord present v) <|
      orElseTest ((isWord notNull v).map fun b => b && r.truthy)
        ((isWord empty v).map fun b => b && !r.truthy)

/-- A `TypeError` is no match. -/
def caught : Except Exn Bool → Except Exn Bool
  | .error .typeError => .ok false
  | x => x

def applyOp (env : Env) (op : Option Text) (v r : Operand) : Except Exn Bool :=
  match op with
  | none => r.eq v
  | some op =>
    match operators.lookup op with
    | none => .error .keyError
    | some o => caught (o.apply env.toLanguage r v)

/-- The operands when there is no value type, or by it. -/
def Data.operands (env : Env) (d : Data) (r : Found) (i : Resource) :
    Except Exn (Operand × Operand) :=
  match d.valueType with
  | none => .ok (.value d.value, r.operand)
  | some t => processValueType env d.tagKeyTransforms d.valueRegex d.value r i t

/-- A missing value is an empty tuple for `in` and `not-in`, not for `ni`. -/
def Data.found (d : Data) (r : Value) : Found :=
  if d.op ∈ [some "in".toList, some "not-in".toList] ∧ r.isNone then none else some r

def Data.finish (env : Env) (d : Data) (v r : Operand) : Except Exn Bool :=
  if d.valueType = some .duration ∧ r.isNone then .ok false
  else orElseTest (shorthand v r) (applyOp env d.op v r)

/-- `match` -/
def Data.matches (env : Env) (d : Data) : Option Resource → Except Exn Bool
  | none => .ok false
  | some i =>
    match d.key with
    | none => .error .attributeError
    | some k => do
      let r ← getResourceValue env d.tagKeyTransforms d.valueRegex k i
      let operands ← d.operands env (d.found r) i
      d.finish env operands.1 operands.2

/-! ## What is raised -/

def Data.operator (d : Data) : Option Operator := d.op.bind fun op => operators.lookup op

/-- Values are divided by zero or formatted, or a pattern is no expression, and no word is tried. -/
def ValuesRaise (env : Env) (d : Data) (v r : Operand) : Prop :=
  shorthand v r = .ok false ∧
    (d.operator = some .mod ∧ ModRaises env.toLanguage r v ∨
      (∃ ignoreCase, d.operator = some (.regex ignoreCase)) ∧ RegexRaises env.toLanguage r v)

def HasNetwork : Option Cidr → Prop
  | some (.network _) => True
  | some (.list items) => networks items ≠ []
  | _ => False

def IsCidrList : Option Cidr → Prop
  | some (.list _) => True
  | _ => False

/-- A list of addresses is looked for in a network. -/
def CidrsRaise (d : Data) (s v : Option Cidr) : Prop :=
  (d.operator = some .isIn ∨ d.operator = some .notIn) ∧ HasNetwork s ∧ IsCidrList v ∨
    d.operator = some .contains ∧ HasNetwork v ∧ IsCidrList s

/-- An address, or a list of them, has no mask. -/
def NoMask : Option Cidr → Prop
  | some (.address _) => True
  | some (.list _) => True
  | _ => False

/-- The operators that compare, and none, which tests for equality. -/
def compares : Option Operator → Bool
  | none => true
  | some .eq => true
  | some .ne => true
  | some (.order _) => true
  | _ => false

/-- Nothing that could be a version is compared, and the value of the filter is no word. -/
def VersionsRaise (d : Data) (r : Found) : Prop :=
  versionOf r = .ok none ∧ compares d.operator = true ∧
    ∀ ps, parseVersion d.value = .ok ps → ps ≠ components present ∧ ps ≠ components notNull

/-- What is raised when the value of the key is `r`. -/
def Data.ValueRaises (env : Env) (d : Data) (i : Resource) (r : Found) : Prop :=
  match d.valueType with
  | none => ValuesRaise env d (.value d.value) r.operand
  | some .resourceCount => ValuesRaise env d (.value d.value) r.operand
  | some .normalize => ValuesRaise env d (.value d.value) (normalize env r).operand
  | some .integer =>
    ∃ n, integer env r = .ok n ∧ ValuesRaise env d (.value d.value) (.value (.int n))
  | some .float =>
    ∃ x, float env r = .ok x ∧ ValuesRaise env d (.value d.value) (.value (.float x))
  | some .size =>
    ∃ n, orElse .typeError 0 (size r) = .ok n ∧
      ValuesRaise env d (.value d.value) (.value (.int n))
  | some .uniqueSize =>
    ∃ n, orElse .typeError 0 (uniqueSize r) = .ok n ∧
      ValuesRaise env d (.value d.value) (.value (.int n))
  | some .swap => ValuesRaise env d r.operand (.value d.value)
  | some .expr =>
    ∀ expr, d.value = .str expr → KeyRaises env d.tagKeyTransforms expr i ∨
      ∃ v, getResourceValue env d.tagKeyTransforms d.valueRegex expr i = .ok v ∧
        ValuesRaise env d (.value v) r.operand
  | some .date => ∀ date, parseDate env r ≠ .ok date
  | some .age => (∀ t, daysAgo env d.value ≠ .ok t) ∨ ∀ date, parseDate env r ≠ .ok date
  | some .expiration => (∀ t, daysAhead env d.value ≠ .ok t) ∨ ∀ date, parseDate env r ≠ .ok date
  | some .duration => False
  | some .cidr =>
    NoAddress r ∨ ∃ s v, parseCidr env d.value = .ok s ∧ foundCidr env r = .ok v ∧ CidrsRaise d s v
  | some .cidrSize =>
    NoAddress r ∨ ∃ c, foundCidr env r = .ok c ∧ (NoMask c ∨
      ∃ n, prefixlen c = .ok n ∧ ValuesRaise env d (.value d.value) (.value (.int n)))
  | some .version => NoVersion r ∨ VersionsRaise d r

def Data.Raises (env : Env) (d : Data) (i : Resource) : Prop :=
  match d.key with
  | none => True
  | some k => KeyRaises env d.tagKeyTransforms k i ∨
    ∃ r, getResourceValue env d.tagKeyTransforms d.valueRegex k i = .ok r ∧
      d.ValueRaises env i (d.found r)

/-! ## Words and operators -/

theorem exists_orElseTest_iff {x y : Except Exn Bool} (hx : ∃ b, x = .ok b) :
    (∃ b, orElseTest x y = .ok b) ↔ (x = .ok false → ∃ b, y = .ok b) := by
  obtain ⟨b, rfl⟩ := hx
  cases b with
  | true => exact iff_of_true ⟨true, rfl⟩ fun h => by cases h
  | false =>
    refine Iff.trans ?_ (forall_prop_of_true rfl).symm
    exact Iff.rfl

theorem exists_caught_iff {x : Except Exn Bool} : (∃ b, caught x = .ok b) ↔ ¬ Uncaught x := by
  cases x with
  | ok b => simp [caught]
  | error e => cases e <;> simp [caught]

theorem exists_applyOp_iff {env : Env} {d : Data} (hop : ∀ op, d.op = some op →
    operators.lookup op ≠ none) {v r : Operand} :
    (∃ b, applyOp env d.op v r = .ok b) ↔
      match d.operator with
      | none => ∃ b, r.eq v = .ok b
      | some o => ¬ OpRaises env.toLanguage o r v := by
  rw [applyOp.eq_def, Data.operator]
  cases hd : d.op with
  | none => exact Iff.rfl
  | some op =>
    obtain ⟨o, ho⟩ := Option.ne_none_iff_exists'.mp (hop op hd)
    simp only [ho, Option.bind_some]
    rw [exists_caught_iff, uncaught_apply_iff]

theorem exists_isWord {v : Operand} (hv : v ≠ .version none) (word : Text) :
    ∃ b, isWord word v = .ok b := by
  cases v with
  | version p =>
    cases p with
    | none => exact absurd rfl hv
    | some ps => exact ⟨_, rfl⟩
  | _ => exact ⟨_, rfl⟩

theorem exists_shorthand {v : Operand} (hv : v ≠ .version none) (r : Operand) :
    ∃ b, shorthand v r = .ok b := by
  have hword : ∀ word (f : Bool → Bool), ∃ b, (isWord word v).map f = .ok b := by
    intro word f
    obtain ⟨b, hb⟩ := exists_isWord hv word
    exact ⟨f b, by rw [hb]; rfl⟩
  rw [shorthand, exists_orElseTest_iff]
  · intro _
    rw [exists_orElseTest_iff]
    · intro _
      rw [exists_orElseTest_iff (hword _ _)]
      exact fun _ => hword _ _
    · split
      · exact ⟨_, rfl⟩
      · exact exists_isWord hv _
  · split
    · exact exists_isWord hv _
    · exact ⟨_, rfl⟩

theorem exists_finish_iff {env : Env} {d : Data}
    (hop : ∀ op, d.op = some op → operators.lookup op ≠ none) {v r : Operand}
    (hv : v ≠ .version none) (hd : ¬ (d.valueType = some .duration ∧ r.isNone = true)) :
    (∃ b, d.finish env v r = .ok b) ↔ (shorthand v r = .ok false →
      match d.operator with
      | none => ∃ b, r.eq v = .ok b
      | some o => ¬ OpRaises env.toLanguage o r v) := by
  rw [Data.finish, if_neg hd, exists_orElseTest_iff (exists_shorthand hv r),
    exists_applyOp_iff hop]

/-- A value of a document, or an empty tuple. -/
def IsValue : Operand → Prop
  | .value _ => True
  | .unit => True
  | _ => False

theorem isValue_operand (r : Found) : IsValue r.operand := by
  cases r <;> trivial

theorem isValue_value (v : Value) : IsValue (.value v) := trivial

theorem opRaises_values_iff {env : Language} {o : Operator} {v r : Operand} (hv : IsValue v)
    (hr : IsValue r) : OpRaises env o r v ↔
      o = .mod ∧ ModRaises env r v ∨
        (∃ ignoreCase, o = .regex ignoreCase) ∧ RegexRaises env r v := by
  cases v <;> cases r <;> cases hv <;> cases hr <;> cases o <;>
    simp [OpRaises, VersionRaises, ContainsRaises]

theorem exists_eq_values {v r : Operand} (hv : IsValue v) (hr : IsValue r) :
    ∃ b, r.eq v = .ok b := by
  cases v <;> cases hv <;> cases r <;> cases hr <;> exact ⟨_, rfl⟩

theorem exists_finish_values_iff {env : Env} {d : Data}
    (hop : ∀ op, d.op = some op → operators.lookup op ≠ none) {v r : Operand} (hv : IsValue v)
    (hr : IsValue r) (hd : d.valueType ≠ some .duration) :
    (∃ b, d.finish env v r = .ok b) ↔ ¬ ValuesRaise env d v r := by
  have hne : v ≠ .version none := by
    rintro rfl
    cases hv
  rw [exists_finish_iff hop hne fun h => hd h.1, ValuesRaise, not_and]
  refine forall_congr' fun _ => ?_
  cases d.operator with
  | none => simpa using exists_eq_values hv hr
  | some o => simp [opRaises_values_iff hv hr]

/-! ## Dates, durations and versions -/

theorem not_opRaises_date {env : Language} (o : Operator) (s : Instant) {default : Value}
    (hdefault : ∀ t, default ≠ .str t) (d : Option Instant) :
    ¬ OpRaises env o (dateOr default d) (.instant s) ∧
      ¬ OpRaises env o (.instant s) (dateOr default d) := by
  cases d with
  | some t => cases o <;>
      simp [OpRaises, VersionRaises, ContainsRaises, ModRaises, RegexRaises, dateOr]
  | none =>
    cases default with
    | str t => exact absurd rfl (hdefault t)
    | _ => cases o <;>
        simp [OpRaises, VersionRaises, ContainsRaises, ModRaises, RegexRaises, dateOr]

theorem exists_eq_date (s : Instant) (default : Value) (d : Option Instant) :
    (∃ b, (dateOr default d).eq (.instant s) = .ok b) ∧
      ∃ b, (Operand.instant s).eq (dateOr default d) = .ok b := by
  cases d <;> exact ⟨⟨_, rfl⟩, _, rfl⟩

theorem exists_finish_date {env : Env} {d : Data}
    (hop : ∀ op, d.op = some op → operators.lookup op ≠ none) (hd : d.valueType ≠ some .duration)
    (s : Instant) (default : Value) (hdefault : ∀ t, default ≠ .str t) (v : Option Instant) :
    (∃ b, d.finish env (.instant s) (dateOr default v) = .ok b) ∧
      ∃ b, d.finish env (dateOr default v) (.instant s) = .ok b := by
  have hne : dateOr default v ≠ .version none := by cases v <;> simp [dateOr]
  constructor
  · rw [exists_finish_iff hop (by simp) fun h => hd h.1]
    intro _
    cases d.operator with
    | none => exact (exists_eq_date s default v).1
    | some o => exact (not_opRaises_date o s hdefault v).1
  · rw [exists_finish_iff hop hne fun h => hd h.1]
    intro _
    cases d.operator with
    | none => exact (exists_eq_date s default v).2
    | some o => exact (not_opRaises_date o s hdefault v).2

theorem compares_durationOperators : ∀ op ∈ durationOperators, operators.lookup op ≠ none ∧
    compares (operators.lookup op) = true := by decide

theorem exists_finish_duration {env : Env} {d : Data}
    (hop : ∀ op, d.op = some op → op ∈ durationOperators) (hd : d.valueType = some .duration)
    (s : Int) (v : Option Int) : ∃ b, d.finish env (deltaOf (some s)) (deltaOf v) = .ok b := by
  cases v with
  | none => exact ⟨false, if_pos ⟨hd, rfl⟩⟩
  | some t =>
    rw [exists_finish_iff (fun op h => (compares_durationOperators op (hop op h)).1)
      (by simp [deltaOf]) (by simp [deltaOf, Operand.isNone])]
    intro _
    have hcompares : compares d.operator = true := by
      rw [Data.operator]
      cases hd : d.op with
      | none => rfl
      | some op => exact (compares_durationOperators op (hop op hd)).2
    cases ho : d.operator with
    | none => exact ⟨_, rfl⟩
    | some o =>
      rw [ho] at hcompares
      cases o <;> simp_all [compares, OpRaises, VersionRaises, deltaOf]

theorem orElseTest_ok (x y : Bool) : orElseTest (.ok x) (.ok y) = .ok (x || y) := by
  cases x <;> rfl

theorem shorthand_version (ps : List Part) (p : Option (List Part)) :
    shorthand (.version (some ps)) (.version p) =
      .ok (decide (ps = components present) || decide (ps = components notNull)) := by
  simp only [shorthand, Operand.isNone, Bool.false_eq_true, if_false, isWord, Except.map,
    Operand.truthy, Bool.not_true, Bool.and_false, Bool.and_true, orElseTest_ok, Bool.false_or,
    Bool.or_false]

theorem exists_finish_version_iff {env : Env} {d : Data}
    (hop : ∀ op, d.op = some op → operators.lookup op ≠ none) (hd : d.valueType ≠ some .duration)
    (ps : List Part) (p : Option (List Part)) :
    (∃ b, d.finish env (.version (some ps)) (.version p) = .ok b) ↔
      ¬ (p = none ∧ compares d.operator = true ∧
        ps ≠ components present ∧ ps ≠ components notNull) := by
  rw [exists_finish_iff hop (by simp) fun h => hd h.1, shorthand_version]
  have hword : (Except.ok (decide (ps = components present) || decide (ps = components notNull)) :
      Except Exn Bool) = .ok false ↔ ps ≠ components present ∧ ps ≠ components notNull := by simp
  rw [hword, ← and_assoc, not_and']
  refine forall_congr' fun _ => ?_
  cases d.operator with
  | none => cases p <;> simp [Operand.eq, compares]
  | some o =>
    cases o <;> simp [OpRaises, VersionRaises, ContainsRaises, RegexRaises, ModRaises, compares]

/-! ## Addresses -/

theorem containsRaises_cidrOf_iff (a b : Option Cidr) :
    ContainsRaises (cidrOf a) (cidrOf b) ↔ HasNetwork a ∧ IsCidrList b := by
  have hno : NoCidr (cidrOf b) ↔ IsCidrList b := by
    cases b with
    | none => simp [cidrOf, NoCidr, IsCidrList]
    | some b => cases b <;> simp [cidrOf, NoCidr, IsCidrList]
  cases a with
  | none => exact iff_of_false id fun h => h.1
  | some a =>
    cases a with
    | address a => exact iff_of_false id fun h => h.1
    | network n => exact hno.trans (and_iff_right trivial).symm
    | list items => exact and_congr_right fun _ => hno

theorem shorthand_cidr (a b : Option Cidr) : shorthand (cidrOf a) (cidrOf b) = .ok false := by
  have hword : ∀ word, isWord word (cidrOf a) = .ok false := by
    intro word
    cases a <;> rfl
  simp only [shorthand, hword, ite_self, Except.map, Bool.false_and, orElseTest_ok, Bool.or_false]

theorem exists_finish_cidr_iff {env : Env} {d : Data}
    (hop : ∀ op, d.op = some op → operators.lookup op ≠ none) (hd : d.valueType ≠ some .duration)
    (s v : Option Cidr) :
    (∃ b, d.finish env (cidrOf s) (cidrOf v) = .ok b) ↔ ¬ CidrsRaise d s v := by
  have hne : cidrOf s ≠ .version none := by cases s <;> simp [cidrOf]
  rw [exists_finish_iff hop hne fun h => hd h.1, shorthand_cidr, CidrsRaise]
  refine (forall_prop_of_true rfl).trans ?_
  cases d.operator with
  | none => cases s <;> cases v <;> simp [cidrOf, Operand.eq]
  | some o =>
    cases o with
    | isIn => simp [OpRaises, containsRaises_cidrOf_iff]
    | notIn => simp [OpRaises, containsRaises_cidrOf_iff]
    | contains => simp [OpRaises, containsRaises_cidrOf_iff]
    | mod =>
      cases s <;> cases v <;> simp [OpRaises, cidrOf, ModRaises, DivisionRaises, Value.number?]
    | _ => cases s <;> cases v <;> simp [OpRaises, cidrOf, VersionRaises, RegexRaises]

theorem exists_finish_cidrOperands_iff {env : Env} {d : Data}
    (hop : ∀ op, d.op = some op → operators.lookup op ≠ none) (hd : d.valueType ≠ some .duration)
    (s v : Option Cidr) :
    (∃ b, d.finish env (cidrOperands s v).1 (cidrOperands s v).2 = .ok b) ↔ ¬ CidrsRaise d s v := by
  rw [cidrOperands.eq_def]
  split
  · rename_i a n
    refine (exists_finish_cidr_iff hop hd (some (.network n)) (some (.address a))).trans ?_
    simp [CidrsRaise, HasNetwork, IsCidrList]
  · exact exists_finish_cidr_iff hop hd s v

/-! ## Value types -/

/-- What a filter that is accepted has. -/
structure Accepted (env : Env) (d : Data) : Prop where
  op : ∀ op, d.op = some op → operators.lookup op ≠ none
  regex : ValidRegex env d.valueRegex
  date : d.valueType = some .date → ∃ t, parseDate env (some d.value) = .ok (some t)
  duration : d.valueType = some .duration →
    (∀ op, d.op = some op → op ∈ durationOperators) ∧ parseDuration env (some d.value) ≠ none

section Validate

variable {env : Env} {d : Data}

theorem validateResourceCount_eq_ok (h : d.validateResourceCount = .ok ()) :
    d.valueRegex = none ∧ ∃ op, d.op = some op ∧ operators.lookup op ≠ none := by
  rw [Data.validateResourceCount] at h
  split at h
  · cases h
  · rename_i op hop
    split at h
    · cases h
    · split at h
      · cases h
      · rename_i hno
        push Not at hno
        exact ⟨by simpa using hno.2.2, op, hop, hno.1⟩

theorem validateOp_eq_ok (h : d.validateOp env = .ok ()) (op : Text) (hop : d.op = some op) :
    operators.lookup op ≠ none := by
  rw [Data.validateOp.eq_def, hop] at h
  dsimp only at h
  split at h
  · cases h
  · assumption

theorem validateValueRegex_eq_ok (h : d.validateValueRegex env = .ok ()) :
    ValidRegex env d.valueRegex := by
  intro expr hexpr
  rw [Data.validateValueRegex.eq_def, hexpr] at h
  obtain ⟨p, hp, h⟩ := bind_eq_ok.mp h
  split at h
  · cases h
  · exact ⟨p, hp, not_not.mp ‹_›⟩

theorem validateType_date (h : d.validateType env = .ok ()) (hd : d.valueType = some .date) :
    ∃ t, parseDate env (some d.value) = .ok (some t) := by
  rw [Data.validateType.eq_def, hd] at h
  obtain ⟨t, ht, h⟩ := bind_eq_ok.mp h
  cases t with
  | none => cases h
  | some t => exact ⟨t, ht⟩

theorem validateType_duration (h : d.validateType env = .ok ())
    (hd : d.valueType = some .duration) :
    (∀ op, d.op = some op → op ∈ durationOperators) ∧
      parseDuration env (some d.value) ≠ none := by
  rw [Data.validateType.eq_def, hd] at h
  dsimp only at h
  split at h
  · cases h
  · split at h
    · cases h
    · rename_i hops hparse
      refine ⟨fun op hop => ?_, hparse⟩
      rw [hop] at hops
      simpa using hops

theorem accepted_of_validate (h : d.validate env = .ok ()) : Accepted env d := by
  rw [Data.validate] at h
  split at h
  case isTrue hcount =>
    obtain ⟨hregex, op, hop, hlookup⟩ := validateResourceCount_eq_ok h
    refine ⟨fun op' h' => ?_, fun expr h' => ?_, fun hd => ?_, fun hd => ?_⟩
    · cases hop.symm.trans h'
      exact hlookup
    · cases hregex.symm.trans h'
    · cases hcount.symm.trans hd
    · cases hcount.symm.trans hd
  case isFalse hcount =>
    obtain ⟨_, htype, h⟩ := bind_eq_ok.mp h
    split at h
    case isTrue => cases h
    case isFalse =>
      obtain ⟨_, hop, h⟩ := bind_eq_ok.mp h
      obtain ⟨_, _, hregex⟩ := bind_eq_ok.mp h
      exact ⟨validateOp_eq_ok hop, validateValueRegex_eq_ok hregex, validateType_date htype,
        validateType_duration htype⟩

end Validate

section Types

variable {env : Env} {d : Data} (ha : Accepted env d) (hs : d.Suits) (i : Resource) (r : Found)

include ha

/-- What the filter comes to for a value. -/
def Data.answer (env : Env) (d : Data) (i : Resource) (r : Found) : Except Exn Bool := do
  let operands ← d.operands env r i
  d.finish env operands.1 operands.2

theorem exists_answer_iff_of_total {α : Type} {x : Except Exn α} {f : α → Operand}
    (hd : d.valueType ≠ some .duration) (hx : ∃ a, x = .ok a) (hf : ∀ a, IsValue (f a)) :
    (∃ b, ((x.map fun a => (Operand.value d.value, f a)) >>= fun p => d.finish env p.1 p.2) =
      .ok b) ↔ ¬ ∃ a, x = .ok a ∧ ValuesRaise env d (.value d.value) (f a) := by
  obtain ⟨a, rfl⟩ := hx
  simp only [Except.map, ok_bind, Except.ok.injEq, exists_eq_left']
  exact exists_finish_values_iff ha.op (isValue_value _) (hf a) hd

theorem exists_answer_iff_of_values {v w : Operand} (hd : d.valueType ≠ some .duration)
    (hop : d.operands env r i = .ok (v, w)) (hv : IsValue v) (hw : IsValue w) :
    (∃ b, d.answer env i r = .ok b) ↔ ¬ ValuesRaise env d v w := by
  rw [Data.answer, hop, ok_bind]
  exact exists_finish_values_iff ha.op hv hw hd

omit ha in
theorem exists_answer_dates_iff {x : Except Exn Instant}
    {f : Instant → Option Instant → Operand × Operand}
    (hf : ∀ s v, ∃ b, d.finish env (f s v).1 (f s v).2 = .ok b)
    (hoperands : d.operands env r i = do
      let s ← x
      let v ← parseDate env r
      return f s v) :
    (∃ b, d.answer env i r = .ok b) ↔
      ¬ ((∀ t, x ≠ .ok t) ∨ ∀ date, parseDate env r ≠ .ok date) := by
  rw [Data.answer, hoperands]
  simp only [bind_assoc, pure_bind, exists_bind_eq_ok]
  constructor
  · rintro ⟨s, hs, v, hv, -⟩ (hraises | hraises)
    · exact hraises s hs
    · exact hraises v hv
  · intro h
    push Not at h
    obtain ⟨⟨s, hs⟩, v, hv⟩ := h
    exact ⟨s, hs, v, hv, hf s v⟩

theorem exists_answer_date_iff (hd : d.valueType = some .date) :
    (∃ b, d.answer env i r = .ok b) ↔ ¬ d.ValueRaises env i r := by
  obtain ⟨s, hsentinel⟩ := ha.date hd
  have hoperands : d.operands env r i = do
      let s ← (.ok s : Except Exn Instant)
      let v ← parseDate env r
      return (.instant s, dateOr .none v) := by
    rw [Data.operands, hd]
    simp only [processValueType, hsentinel, ok_bind]
    rfl
  have hraises : d.ValueRaises env i r ↔ ∀ date, parseDate env r ≠ .ok date := by
    rw [Data.ValueRaises, hd]
  rw [exists_answer_dates_iff i r (fun s v => (exists_finish_date ha.op (by simp [hd]) s .none
    (by simp) v).1) hoperands, hraises, or_iff_right fun h => h s rfl]

theorem exists_answer_age_iff (hd : d.valueType = some .age) :
    (∃ b, d.answer env i r = .ok b) ↔ ¬ d.ValueRaises env i r := by
  rw [Data.ValueRaises, hd]
  exact exists_answer_dates_iff i r
    (fun s v => (exists_finish_date ha.op (by simp [hd]) s (.int 0) (by simp) v).2)
    (by rw [Data.operands, hd]; rfl)

theorem exists_answer_expiration_iff (hd : d.valueType = some .expiration) :
    (∃ b, d.answer env i r = .ok b) ↔ ¬ d.ValueRaises env i r := by
  rw [Data.ValueRaises, hd]
  exact exists_answer_dates_iff i r
    (fun s v => (exists_finish_date ha.op (by simp [hd]) s (.int 0) (by simp) v).1)
    (by rw [Data.operands, hd]; rfl)

theorem exists_answer_duration (hd : d.valueType = some .duration) :
    ∃ b, d.answer env i r = .ok b := by
  obtain ⟨hop, hparse⟩ := ha.duration hd
  obtain ⟨s, hsentinel⟩ := Option.ne_none_iff_exists'.mp hparse
  rw [Data.answer, Data.operands, hd]
  simp only [processValueType, hsentinel, ok_bind]
  exact exists_finish_duration hop hd s _

theorem exists_answer_cidrSize_iff (hd : d.valueType = some .cidrSize) :
    (∃ b, d.answer env i r = .ok b) ↔ ¬ d.ValueRaises env i r := by
  have hne : d.valueType ≠ some .duration := by simp [hd]
  have hmask : ∀ c, (∃ n, prefixlen c = .ok n) ↔ ¬ NoMask c := by
    intro c
    cases c with
    | none => simp [prefixlen, NoMask]
    | some c => cases c <;> simp [prefixlen, NoMask]
  rw [Data.answer, Data.operands, Data.ValueRaises, hd]
  simp only [processValueType, bind_assoc, pure_bind, exists_bind_eq_ok]
  constructor
  · rintro ⟨c, hc, n, hn, hb⟩ (hraises | ⟨c', hc', hraises⟩)
    · exact exists_foundCidr_iff.mp ⟨c, hc⟩ hraises
    · rw [hc] at hc'
      cases hc'
      rcases hraises with hraises | ⟨n', hn', hraises⟩
      · exact (hmask c).mp ⟨n, hn⟩ hraises
      · rw [hn] at hn'
        cases hn'
        exact (exists_finish_values_iff ha.op (isValue_value _) (isValue_value _) hne).mp hb hraises
  · intro h
    push Not at h
    obtain ⟨c, hc⟩ := exists_foundCidr_iff.mpr h.1
    obtain ⟨n, hn⟩ := (hmask c).mpr (h.2 c hc).1
    exact ⟨c, hc, n, hn,
      (exists_finish_values_iff ha.op (isValue_value _) (isValue_value _) hne).mpr
        ((h.2 c hc).2 n hn)⟩

include hs

theorem exists_answer_expr_iff (hd : d.valueType = some .expr) :
    (∃ b, d.answer env i r = .ok b) ↔ ¬ d.ValueRaises env i r := by
  rw [Data.Suits, hd] at hs
  obtain ⟨expr, hexpr⟩ := hs
  have hoperands : d.operands env r i =
      (getResourceValue env d.tagKeyTransforms d.valueRegex expr i).map
        fun s => (.value s, r.operand) := by
    rw [Data.operands, hd, hexpr]
    rfl
  have hraises : d.ValueRaises env i r ↔ KeyRaises env d.tagKeyTransforms expr i ∨
      ∃ v, getResourceValue env d.tagKeyTransforms d.valueRegex expr i = .ok v ∧
        ValuesRaise env d (.value v) r.operand := by
    rw [Data.ValueRaises, hd]
    simp [hexpr]
  have hlookup : (∃ v, getResourceValue env d.tagKeyTransforms d.valueRegex expr i = .ok v) ↔
      ¬ KeyRaises env d.tagKeyTransforms expr i := exists_getResourceValue_iff ha.regex
  by_cases hk : KeyRaises env d.tagKeyTransforms expr i
  · refine iff_of_false ?_ (not_not.mpr (hraises.mpr (Or.inl hk)))
    rintro ⟨b, hb⟩
    rw [Data.answer, hoperands] at hb
    obtain ⟨p, hp, -⟩ := bind_eq_ok.mp hb
    cases hv : getResourceValue env d.tagKeyTransforms d.valueRegex expr i with
    | ok v => exact hlookup.mp ⟨v, hv⟩ hk
    | error e =>
      rw [hv] at hp
      cases hp
  · obtain ⟨v, hv⟩ := hlookup.mpr hk
    rw [hv] at hoperands
    rw [exists_answer_iff_of_values ha i r (by simp [hd]) hoperands (isValue_value v)
      (isValue_operand r), hraises]
    simp [hk, hv]

theorem exists_answer_cidr_iff (hd : d.valueType = some .cidr) :
    (∃ b, d.answer env i r = .ok b) ↔ ¬ d.ValueRaises env i r := by
  have hne : d.valueType ≠ some .duration := by simp [hd]
  rw [Data.Suits, hd] at hs
  obtain ⟨s, hsentinel⟩ := (exists_parseCidr_iff env d.value).mpr hs
  rw [Data.answer, Data.operands, Data.ValueRaises, hd]
  simp only [processValueType, hsentinel, ok_bind, bind_assoc, pure_bind, exists_bind_eq_ok,
    Except.ok.injEq]
  constructor
  · rintro ⟨v, hv, hb⟩ (hraises | ⟨s', v', hs', hv', hraises⟩)
    · exact exists_foundCidr_iff.mp ⟨v, hv⟩ hraises
    · rw [hv] at hv'
      cases hs'
      cases hv'
      exact (exists_finish_cidrOperands_iff ha.op hne s v).mp hb hraises
  · intro h
    push Not at h
    obtain ⟨v, hv⟩ := exists_foundCidr_iff.mpr h.1
    exact ⟨v, hv, (exists_finish_cidrOperands_iff ha.op hne s v).mpr (h.2 s v rfl hv)⟩

theorem exists_answer_version_iff (hd : d.valueType = some .version) :
    (∃ b, d.answer env i r = .ok b) ↔ ¬ d.ValueRaises env i r := by
  have hne : d.valueType ≠ some .duration := by simp [hd]
  rw [Data.Suits, hd] at hs
  obtain ⟨text, htext, hvalue⟩ := hs
  have hsentinel : versionOf (some d.value) = .ok (some (components text)) := by
    rw [hvalue, versionOf, if_pos (by simpa [Value.truthy] using htext)]
    rfl
  have hparse : parseVersion d.value = .ok (components text) := by
    rw [hvalue]
    rfl
  rw [Data.answer, Data.operands, Data.ValueRaises, hd]
  simp only [processValueType, hsentinel, ok_bind, bind_assoc, pure_bind, exists_bind_eq_ok,
    VersionsRaise, hparse, Except.ok.injEq, forall_eq']
  constructor
  · rintro ⟨p, hp, hb⟩ (hraises | ⟨hnone, hraises⟩)
    · exact exists_versionOf_iff.mp ⟨p, hp⟩ hraises
    · rw [hp] at hnone
      cases hnone
      exact (exists_finish_version_iff ha.op hne _ none).mp hb ⟨rfl, hraises⟩
  · intro h
    rw [not_or] at h
    obtain ⟨p, hp⟩ := exists_versionOf_iff.mpr h.1
    refine ⟨p, hp, (exists_finish_version_iff ha.op hne _ p).mpr ?_⟩
    rintro ⟨rfl, hraises⟩
    exact h.2 ⟨hp, hraises⟩

theorem exists_answer_iff : (∃ b, d.answer env i r = .ok b) ↔ ¬ d.ValueRaises env i r := by
  have hvalues : ∀ {v w : Operand}, d.valueType ≠ some .duration →
      d.operands env r i = .ok (v, w) → IsValue v → IsValue w →
      ((∃ b, d.answer env i r = .ok b) ↔ ¬ ValuesRaise env d v w) :=
    fun hne hop hv hw => exists_answer_iff_of_values ha i r hne hop hv hw
  cases hd : d.valueType with
  | none =>
    rw [Data.ValueRaises, hd]
    exact hvalues (by simp [hd]) (by rw [Data.operands, hd]) trivial (isValue_operand r)
  | some t =>
    cases t with
    | age => exact exists_answer_age_iff ha i r hd
    | expiration => exact exists_answer_expiration_iff ha i r hd
    | date => exact exists_answer_date_iff ha i r hd
    | expr => exact exists_answer_expr_iff ha hs i r hd
    | cidr => exact exists_answer_cidr_iff ha hs i r hd
    | cidrSize => exact exists_answer_cidrSize_iff ha i r hd
    | version => exact exists_answer_version_iff ha hs i r hd
    | duration =>
      rw [Data.ValueRaises, hd]
      exact iff_of_true (exists_answer_duration ha i r hd) id
    | normalize =>
      rw [Data.ValueRaises, hd]
      exact hvalues (by simp [hd]) (by rw [Data.operands, hd]; rfl) trivial (isValue_operand _)
    | swap =>
      rw [Data.ValueRaises, hd]
      exact hvalues (by simp [hd]) (by rw [Data.operands, hd]; rfl) (isValue_operand r) trivial
    | resourceCount =>
      rw [Data.ValueRaises, hd]
      exact hvalues (by simp [hd]) (by rw [Data.operands, hd]; rfl) trivial (isValue_operand r)
    | integer =>
      rw [Data.answer, Data.operands, Data.ValueRaises, hd]
      exact exists_answer_iff_of_total ha (by simp [hd]) (exists_integer env r)
        fun _ => isValue_value _
    | float =>
      rw [Data.answer, Data.operands, Data.ValueRaises, hd]
      exact exists_answer_iff_of_total ha (by simp [hd]) (exists_float env r)
        fun _ => isValue_value _
    | size =>
      rw [Data.answer, Data.operands, Data.ValueRaises, hd]
      exact exists_answer_iff_of_total ha (f := fun n : Nat => .value (.int n)) (by simp [hd])
        (exists_size r) fun _ => isValue_value _
    | uniqueSize =>
      rw [Data.answer, Data.operands, Data.ValueRaises, hd]
      exact exists_answer_iff_of_total ha (f := fun n : Nat => .value (.int n)) (by simp [hd])
        (exists_uniqueSize r) fun _ => isValue_value _

end Types

/-! ## Resources -/

/-- **Value filters.**  A valid filter returns, unless the resource makes it raise. -/
theorem valueFilter_returns_iff (env : Env) (d : Data) (hvalid : d.validate env = .ok ())
    (hsuits : d.Suits) (i : Option Resource) :
    (∃ b, d.matches env i = .ok b) ↔ ∀ resource, i = some resource → ¬ d.Raises env resource := by
  have ha := accepted_of_validate hvalid
  cases i with
  | none => exact iff_of_true ⟨false, rfl⟩ fun _ h => by cases h
  | some i =>
    simp only [Option.some.injEq, forall_eq', Data.matches.eq_def, Data.Raises]
    cases d.key with
    | none => exact iff_of_false (by simp) fun h => h trivial
    | some k =>
      dsimp only
      rw [exists_bind_eq_ok, not_or, ← exists_getResourceValue_iff ha.regex]
      have hanswer := exists_answer_iff ha hsuits i
      constructor
      · rintro ⟨r, hr, hb⟩
        refine ⟨⟨r, hr⟩, ?_⟩
        rintro ⟨r', hr', hraises⟩
        rw [hr] at hr'
        cases hr'
        exact (hanswer (d.found r)).mp hb hraises
      · rintro ⟨⟨r, hr⟩, hno⟩
        exact ⟨r, hr, (hanswer (d.found r)).mpr fun h => hno ⟨r, hr, h⟩⟩

/-- Versions before 5.7. -/
def engineVersion : Data where
  key := some "EngineVersion".toList
  value := .str "5.7".toList
  op := some "lt".toList
  valueType := some .version
  valueRegex := none
  tagKeyTransforms := []

/-- Texts that are no dates, expressions, formats or addresses. -/
def words : Env where
  clock :=
    { floatOfText := fun _ => .error valueError
      floatOfNum := fun q => .ok (.fin q)
      parse := fun _ => .error valueError
      fromtimestamp := fun _ => .error overflowError
      fromMillis := fun _ => .error overflowError
      dateFloor := 1142726400
      windows := false }
  compile := fun _ => .error (.raised "error".toList)
  format := fun _ _ => .error .typeError
  now := ⟨0, by decide, by decide⟩
  table := asciiTable
  capitalize := id
  title := id
  upper := id
  search := fun _ _ => .ok .none
  intOf := fun _ => .error valueError
  floatOf := fun _ => .error valueError
  timedelta := fun _ => .error overflowError
  duration := fun _ => none
  ipAddress := fun _ => none
  ipv4Network := fun _ => none
  intOf_error := fun _ _ h => by cases h; rfl
  floatOf_error := fun _ _ h => by cases h; rfl

/-- A resource whose version is `v`. -/
def versioned (v : Value) : Resource := [("EngineVersion".toList, v)]

theorem suits_engineVersion : engineVersion.Suits := ⟨_, by decide, rfl⟩

theorem engineVersion_matches_iff : engineVersion.validate words = .ok () ∧ engineVersion.Suits ∧
    ((∃ b, engineVersion.matches words (some (versioned (.str "5.6".toList))) = .ok b) ↔
      ∀ resource, some (versioned (.str "5.6".toList)) = some resource →
        ¬ engineVersion.Raises words resource) :=
  ⟨rfl, suits_engineVersion, valueFilter_returns_iff words engineVersion rfl suits_engineVersion _⟩

/-- A version that is null is an attribute error. -/
theorem engineVersion_not_matches : engineVersion.validate words = .ok () ∧ engineVersion.Suits ∧
    ¬ ∃ b, engineVersion.matches words (some (versioned .none)) = .ok b := by
  refine ⟨rfl, suits_engineVersion, ?_⟩
  rintro ⟨b, h⟩
  have hraise : engineVersion.matches words (some (versioned .none)) = .error .attributeError := rfl
  rw [hraise] at h
  cases h

end Custodian.ValueMatch

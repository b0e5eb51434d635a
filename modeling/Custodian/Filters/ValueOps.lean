import Custodian.Lib.Except
import Custodian.Lib.Glob
import Custodian.Utils.ParseDate
import Mathlib.Data.Char
import Mathlib.Data.List.Lex

/-!
# Operators of a value filter

`OPERATORS` of `c7n/filters/core.py` on what a value filter compares: values of a document, dates,
durations, addresses and versions.  Operands that do not fit raise a `TypeError`, which the filter
takes for no match; the others are not caught.
-/

namespace Custodian.ValueOps

open Py
open ParseDate

/-! ## Values -/

/-- A value of a document; whole numbers are told from floats. -/
inductive Value where
  | none
  | bool (b : Bool)
  | int (n : Int)
  | float (x : Number)
  | str (s : Text)
  | list (items : List Value)
  | dict (members : List (Text × Value))

/-- An order comparison. -/
inductive Cmp where
  | lt
  | le
  | gt
  | ge
  deriving DecidableEq, Repr

/-- The comparison by a test for less and one for equal. -/
def Cmp.apply {α : Type} (c : Cmp) (lt eq : α → α → Bool) (x y : α) : Bool :=
  match c with
  | .lt => lt x y
  | .le => lt x y || eq x y
  | .gt => lt y x
  | .ge => lt y x || eq x y

/-- The comparison where `functools.total_ordering` makes it of a test for less. -/
def Cmp.total {α : Type} (c : Cmp) (lt eq : α → α → Bool) (x y : α) : Bool :=
  match c with
  | .lt => lt x y
  | .le => lt x y || eq x y
  | .gt => !lt x y && !eq x y
  | .ge => !lt x y

/-- `x == y`; `nan` is equal to nothing. -/
def numberEq (x y : Number) : Bool :=
  match x.place, y.place with
  | some p, some q => p = q
  | _, _ => false

def Cmp.numbers (c : Cmp) (x y : Number) : Bool := c.apply Number.lt numberEq x y

def Cmp.texts (c : Cmp) (s t : Text) : Bool := c.apply (fun s t => s < t) (fun s t => s = t) s t

def Cmp.ints (c : Cmp) (m n : Int) : Bool := c.apply (fun m n => m < n) (fun m n => m = n) m n

namespace Value

/-- The number that a truth value or a number is compared as. -/
def number? : Value → Option Number
  | .bool b => some (.fin (if b then 1 else 0))
  | .int n => some (.fin n)
  | .float x => some x
  | _ => Option.none

def truthy : Value → Bool
  | .none => false
  | .bool b => b
  | .int n => n ≠ 0
  | .float x => x ≠ .fin 0 && x ≠ .negZero
  | .str s => s ≠ []
  | .list items => !items.isEmpty
  | .dict members => !members.isEmpty

def isNone : Value → Bool
  | .none => true
  | _ => false

def hashable : Value → Bool
  | .list _ => false
  | .dict _ => false
  | _ => true

/-- What a loop over a value goes through. -/
def elements : Value → Except Exn (List Value)
  | .str s => .ok (s.map fun c => .str [c])
  | .list items => .ok items
  | .dict members => .ok (members.map fun m => .str m.1)
  | _ => .error .typeError

mutual

/-- `x == y` -/
def eq : Value → Value → Bool
  | .none, .none => true
  | .str s, .str t => s = t
  | .list xs, .list ys => eqItems xs ys
  | .dict ms, .dict ns => ms.length = ns.length && eqMembers ms ns
  | x, y =>
    match x.number?, y.number? with
    | some a, some b => numberEq a b
    | _, _ => false

def eqItems : List Value → List Value → Bool
  | [], [] => true
  | x :: xs, y :: ys => x.eq y && eqItems xs ys
  | _, _ => false

/-- Every member is found on the other side, whatever its place. -/
def eqMembers : List (Text × Value) → List (Text × Value) → Bool
  | [], _ => true
  | (key, x) :: ms, ns =>
    (match ns.lookup key with
      | some y => x.eq y
      | Option.none => false) && eqMembers ms ns

end

mutual

/-- `x < y` and the like; lists are compared by their first items that differ. -/
def order (c : Cmp) : Value → Value → Except Exn Bool
  | .str s, .str t => .ok (c.texts s t)
  | .list xs, .list ys => orderItems c xs ys
  | x, y =>
    match x.number?, y.number? with
    | some a, some b => .ok (c.numbers a b)
    | _, _ => .error .typeError

def orderItems (c : Cmp) : List Value → List Value → Except Exn Bool
  | x :: xs, y :: ys => if x.eq y then orderItems c xs ys else x.order c y
  | xs, ys => .ok (c.ints xs.length ys.length)

end

end Value

/-! ## Addresses and versions -/

structure Address where
  v6 : Bool
  ip : Nat
  /-- What follows `%` in an address of version 6. -/
  scope : Option Text
  deriving DecidableEq, Repr

/-- A network of version 4. -/
structure Network where
  address : Nat
  prefixlen : Nat
  deriving DecidableEq, Repr

/-- The number of addresses of a network -/
def Network.size (n : Network) : Nat := 2 ^ (32 - n.prefixlen)

/-- What `parse_cidr` gives, but for `None`. -/
inductive Cidr where
  | address (a : Address)
  | network (n : Network)
  | list (items : List (Option Cidr))

/-- Lists of addresses are objects, which are equal to themselves only. -/
def Cidr.eq : Cidr → Cidr → Bool
  | .address a, .address b => a = b
  | .network m, .network n => m = n
  | _, _ => false

/-- Networks are compared by their address first, then by their mask. -/
def Network.lt (m n : Network) : Bool :=
  if m.address = n.address then m.prefixlen < n.prefixlen else m.address < n.address

def Cidr.order (c : Cmp) : Cidr → Cidr → Except Exn Bool
  | .address a, .address b =>
    if a.v6 = b.v6 then .ok (c.total (fun a b => a.ip < b.ip) (fun a b => a = b) a b)
    else .error .typeError
  | .network m, .network n => .ok (c.total Network.lt (fun m n => m = n) m n)
  | _, _ => .error .typeError

/-- A component of a version. -/
inductive Part where
  | number (n : Nat)
  | text (s : Text)
  deriving DecidableEq, Repr

def Part.order (c : Cmp) : Part → Part → Except Exn Bool
  | .number m, .number n => .ok (c.ints m n)
  | .text s, .text t => .ok (c.texts s t)
  | _, _ => .error .typeError

def orderParts (c : Cmp) : List Part → List Part → Except Exn Bool
  | p :: ps, q :: qs => if p = q then orderParts c ps qs else p.order c q
  | ps, qs => .ok (c.ints ps.length qs.length)

/-! ## Operands -/

/-- What is compared.  A `ComparableVersion` of nothing has no components. -/
inductive Operand where
  | value (v : Value)
  | unit
  | instant (t : Instant)
  | delta (micros : Int)
  | cidr (c : Cidr)
  | version (parts : Option (List Part))

namespace Operand

def isNone : Operand → Bool
  | .value v => v.isNone
  | _ => false

def truthy : Operand → Bool
  | .value v => v.truthy
  | .unit => false
  | .delta d => d ≠ 0
  | _ => true

def hashable : Operand → Bool
  | .value v => v.hashable
  | .version _ => false
  | _ => true

/-- `x == y` -/
def eq : Operand → Operand → Except Exn Bool
  | .value x, .value y => .ok (x.eq y)
  | .unit, .unit => .ok true
  | .instant s, .instant t => .ok (s = t)
  | .delta d, .delta e => .ok (d = e)
  | .cidr c, .cidr d => .ok (c.eq d)
  | .version (some ps), .version (some qs) => .ok (ps = qs)
  | .version _, .version _ => .error .attributeError
  | _, _ => .ok false

/-- `x < y` and the like -/
def order (c : Cmp) : Operand → Operand → Except Exn Bool
  | .value x, .value y => x.order c y
  | .unit, .unit => .ok (c.ints 0 0)
  | .instant s, .instant t => .ok (c.ints s.micros t.micros)
  | .delta d, .delta e => .ok (c.ints d e)
  | .cidr x, .cidr y => x.order c y
  | .version (some ps), .version (some qs) => orderParts c ps qs
  | .version _, .version _ => .error .attributeError
  | _, _ => .error .typeError

/-- The elements that a loop over an operand goes through. -/
def elements : Operand → Except Exn (List Operand)
  | .value v => v.elements.map fun items => items.map .value
  | .unit => .ok []
  | .cidr (.network n) =>
    .ok ((List.range n.size).map fun i => .cidr (.address ⟨false, n.address + i, none⟩))
  | _ => .error .typeError

/-- `set(x)` -/
def toSet (x : Operand) : Except Exn (List Operand) := do
  let es ← x.elements
  if es.all hashable then return es else .error .typeError

/-- Equal without an exception -/
def same (x y : Operand) : Bool :=
  match x.eq y with
  | .ok b => b
  | .error _ => false

end Operand

/-- `other in network`; what has no `version` raises. -/
def Network.contains (n : Network) : Operand → Except Exn Bool
  | .value .none => .ok false
  | .cidr (.address a) => .ok (!a.v6 && a.ip / n.size = n.address / n.size)
  | .cidr (.network m) => .ok (n.address ≤ m.address && m.address + m.size ≤ n.address + n.size)
  | _ => .error .attributeError

/-- The networks of an `IPv4List` -/
def networks (items : List (Option Cidr)) : List Network :=
  items.filterMap fun
    | some (.network n) => some n
    | _ => none

/-- `other in items`, where every network is asked before the addresses. -/
def listContains (items : List (Option Cidr)) : Operand → Except Exn Bool
  | .value .none => .ok false
  | x => do
    let inNetworks ← (networks items).mapM fun n => n.contains x
    let inAddresses := items.any fun
      | some (.address a) => !a.v6 && x.same (.cidr (.address a))
      | _ => false
    return inNetworks.any id || inAddresses

/-- `x in y` -/
def Operand.contains : Operand → Operand → Except Exn Bool
  | .value (.str s), .value (.str t) => .ok (decide (t <:+: s))
  | .value (.list items), x => .ok (items.any fun i => x.same (.value i))
  | .value (.dict members), x =>
    if x.hashable then .ok (members.any fun m => x.same (.value (.str m.1)))
    else .error .typeError
  | .unit, _ => .ok false
  | .cidr (.network n), x => n.contains x
  | .cidr (.list items), x => listContains items x
  | _, _ => .error .typeError

/-! ## Operators -/

/-- A compiled expression. -/
structure Pattern where
  groups : Nat
  /-- `bool(re.match(p, s))` -/
  isMatch : (ignoreCase : Bool) → Text → Bool
  /-- The first group of a match. -/
  group : Text → Option Text

/-- What is taken of the language: dates and floats, `re.compile` and `%` on a text. -/
structure Language where
  clock : Clock
  compile : Text → Except Exn Pattern
  format : Text → Operand → Except Exn Text

def zeroDivisionError : Exn := .raised "ZeroDivisionError".toList

/-- A whole number or a truth value. -/
def Value.int? : Value → Option Int
  | .bool b => some (if b then 1 else 0)
  | .int n => some n
  | _ => Option.none

/-- A number as a float, which not every whole number is. -/
def Language.asFloat (env : Language) : Value → Except Exn Number
  | .bool b => .ok (.fin (if b then 1 else 0))
  | .int n => match env.clock.floatOfNum n with
    | .ok x => .ok x
    | .error _ => .error overflowError
  | .float x => .ok x
  | _ => .error .typeError

def isZero (x : Number) : Bool := x = .fin 0 || x = .negZero

/-- `bool(x % y)` for a float `y` that is not zero. -/
def floatMod : Number → Number → Bool
  | .fin p, .fin q => (p / q).den ≠ 1
  | .fin p, .posInf => p ≠ 0
  | .fin p, .negInf => p ≠ 0
  | .negZero, .nan => true
  | .negZero, _ => false
  | _, _ => true

def Language.modNumbers (env : Language) (x y : Value) : Except Exn Bool :=
  match x.int?, y.int? with
  | some m, some n => if n = 0 then .error zeroDivisionError else .ok (m % n ≠ 0)
  | _, _ => do
    let a ← env.asFloat x
    let b ← env.asFloat y
    if isZero b then .error zeroDivisionError else .ok (floatMod a b)

/-- `bool(x % y)` -/
def Language.mod (env : Language) : Operand → Operand → Except Exn Bool
  | .value (.str s), y => (env.format s y).map fun t => t ≠ []
  | .value x, .value y =>
    if x.number?.isSome ∧ y.number?.isSome then env.modNumbers x y else .error .typeError
  | .delta d, .delta e => if e = 0 then .error zeroDivisionError else .ok (d % e ≠ 0)
  | _, _ => .error .typeError

inductive Operator where
  | eq
  | ne
  | order (c : Cmp)
  | glob
  | regex (ignoreCase : Bool)
  | isIn
  | notIn
  | contains
  | difference
  | intersect
  | mod
  deriving DecidableEq, Repr

/-- `OPERATORS` -/
def operators : List (Text × Operator) :=
  [("eq", .eq), ("equal", .eq), ("ne", .ne), ("not-equal", .ne), ("gt", .order .gt),
   ("greater-than", .order .gt), ("ge", .order .ge), ("gte", .order .ge), ("le", .order .le),
   ("lte", .order .le), ("lt", .order .lt), ("less-than", .order .lt), ("glob", .glob),
   ("regex", .regex true), ("regex-case", .regex false), ("in", .isIn), ("ni", .notIn),
   ("not-in", .notIn), ("contains", .contains), ("difference", .difference),
   ("intersect", .intersect), ("mod", .mod)].map fun e => (e.1.toList, e.2)

/-- `op(x, y)` -/
def Operator.apply (env : Language) : Operator → Operand → Operand → Except Exn Bool
  | .eq, x, y => x.eq y
  | .ne, x, y => (x.eq y).map not
  | .order c, x, y => x.order c y
  | .glob, .value (.str s), .value (.str p) => .ok (Glob.fnmatch s p)
  | .glob, .value (.str _), _ => .error .typeError
  | .glob, _, _ => .ok false
  | .regex ignoreCase, .value (.str s), .value (.str p) =>
    (env.compile p).map fun pattern => pattern.isMatch ignoreCase s
  | .regex _, .value (.str _), _ => .error .typeError
  | .regex _, _, _ => .ok false
  | .isIn, x, y => y.contains x
  | .notIn, x, y => (y.contains x).map not
  | .contains, x, y => x.contains y
  | .difference, x, y => do
    let xs ← x.toSet
    let ys ← y.toSet
    return xs.any fun e => !ys.any e.same
  | .intersect, x, y => do
    let xs ← x.toSet
    let ys ← y.toSet
    return xs.any fun e => ys.any e.same
  | .mod, x, y => env.mod x y

/-! ## What they raise -/

/-- An exception that the filter does not catch. -/
def Uncaught {α : Type} (x : Except Exn α) : Prop := ∃ e, x = .error e ∧ e ≠ .typeError

/-- A number that no float is near. -/
def TooLarge (env : Language) (x : Value) : Prop := ∀ a, env.asFloat x ≠ .ok a

/-- `%` by zero, or with a float and a number that is too large for one. -/
def DivisionRaises (env : Language) (x y : Value) : Prop :=
  x.number?.isSome = true ∧ y.number?.isSome = true ∧
    match x.int?, y.int? with
    | some _, some n => n = 0
    | _, _ => TooLarge env x ∨ TooLarge env y ∨ ∃ b, env.asFloat y = .ok b ∧ isZero b = true

/-- A division, or a text that is no format. -/
def ModRaises (env : Language) : Operand → Operand → Prop
  | .value (.str s), y => Uncaught (env.format s y)
  | .value x, .value y => DivisionRaises env x y
  | .delta _, .delta e => e = 0
  | _, _ => False

/-- The pattern is no expression. -/
def RegexRaises (env : Language) : Operand → Operand → Prop
  | .value (.str _), .value (.str p) => Uncaught (env.compile p)
  | _, _ => False

/-- A version of nothing is compared with another one. -/
def VersionRaises : Operand → Operand → Prop
  | .version p, .version q => p = none ∨ q = none
  | _, _ => False

/-- Neither `None` nor an address nor a network. -/
def NoCidr : Operand → Prop
  | .value .none => False
  | .cidr (.address _) => False
  | .cidr (.network _) => False
  | _ => True

/-- Something that is no address is looked for in a network. -/
def ContainsRaises : Operand → Operand → Prop
  | .cidr (.network _), x => NoCidr x
  | .cidr (.list items), x => networks items ≠ [] ∧ NoCidr x
  | _, _ => False

def OpRaises (env : Language) : Operator → Operand → Operand → Prop
  | .eq, x, y => VersionRaises x y
  | .ne, x, y => VersionRaises x y
  | .order _, x, y => VersionRaises x y
  | .regex _, x, y => RegexRaises env x y
  | .isIn, x, y => ContainsRaises y x
  | .notIn, x, y => ContainsRaises y x
  | .contains, x, y => ContainsRaises x y
  | .mod, x, y => ModRaises env x y
  | _, _, _ => False

/-! ## Operands that do not fit -/

@[simp] theorem not_uncaught_ok {α : Type} (a : α) : ¬ Uncaught (.ok a : Except Exn α) := by
  rintro ⟨e, he, -⟩
  cases he

@[simp] theorem not_uncaught_typeError {α : Type} :
    ¬ Uncaught (.error .typeError : Except Exn α) := by
  rintro ⟨e, he, hne⟩
  cases he
  exact hne rfl

@[simp] theorem uncaught_error {α : Type} {e : Exn} :
    Uncaught (.error e : Except Exn α) ↔ e ≠ .typeError := by
  constructor
  · rintro ⟨e', he, hne⟩
    cases he
    exact hne
  · exact fun h => ⟨e, rfl, h⟩

@[simp] theorem uncaught_map {α β : Type} {f : α → β} {x : Except Exn α} :
    Uncaught (x.map f) ↔ Uncaught x := by
  cases x <;> simp [Except.map]

mutual

theorem not_uncaught_order (c : Cmp) : ∀ x y : Value, ¬ Uncaught (x.order c y)
  | .str s, y => by
    cases y <;> simp [Value.order, Value.number?]
  | .list xs, y => by
    cases y with
    | list ys => rw [Value.order]; exact not_uncaught_orderItems c xs ys
    | _ => simp [Value.order, Value.number?]
  | .none, y => by cases y <;> simp [Value.order, Value.number?]
  | .bool b, y => by cases y <;> simp [Value.order, Value.number?]
  | .int n, y => by cases y <;> simp [Value.order, Value.number?]
  | .float x, y => by cases y <;> simp [Value.order, Value.number?]
  | .dict ms, y => by cases y <;> simp [Value.order, Value.number?]

theorem not_uncaught_orderItems (c : Cmp) : ∀ xs ys : List Value,
    ¬ Uncaught (Value.orderItems c xs ys)
  | [], ys => by simp [Value.orderItems]
  | x :: xs, [] => by simp [Value.orderItems]
  | x :: xs, y :: ys => by
    rw [Value.orderItems]
    split
    · exact not_uncaught_orderItems c xs ys
    · exact not_uncaught_order c x y

end

theorem not_uncaught_orderParts (c : Cmp) (ps qs : List Part) :
    ¬ Uncaught (orderParts c ps qs) := by
  induction ps generalizing qs with
  | nil => simp [orderParts]
  | cons p ps ih =>
    cases qs with
    | nil => simp [orderParts]
    | cons q qs =>
      rw [orderParts]
      split
      · exact ih qs
      · cases p <;> cases q <;> simp [Part.order]

theorem not_uncaught_orderCidr (c : Cmp) (x y : Cidr) : ¬ Uncaught (x.order c y) := by
  cases x <;> cases y <;> simp only [Cidr.order, not_uncaught_ok, not_uncaught_typeError,
    not_false_eq_true]
  split <;> simp

theorem uncaught_eq_iff {x y : Operand} : Uncaught (x.eq y) ↔ VersionRaises x y := by
  cases x with
  | version p =>
    cases y with
    | version q => cases p <;> cases q <;> simp [Operand.eq, VersionRaises]
    | _ => simp [Operand.eq, VersionRaises]
  | _ => cases y <;> simp [Operand.eq, VersionRaises]

theorem uncaught_order_iff {c : Cmp} {x y : Operand} :
    Uncaught (x.order c y) ↔ VersionRaises x y := by
  cases x with
  | version p =>
    cases y with
    | version q =>
      cases p <;> cases q <;> simp [Operand.order, VersionRaises, not_uncaught_orderParts]
    | _ => simp [Operand.order, VersionRaises]
  | value v =>
    cases y <;> simp [Operand.order, VersionRaises, not_uncaught_order]
  | cidr x => cases y <;> simp [Operand.order, VersionRaises, not_uncaught_orderCidr]
  | _ => cases y <;> simp [Operand.order, VersionRaises]

/-! ## Sets and containers -/

theorem uncaught_bind {α β : Type} {x : Except Exn α} {f : α → Except Exn β} :
    Uncaught (x >>= f) ↔ Uncaught x ∨ ∃ a, x = .ok a ∧ Uncaught (f a) := by
  cases x with
  | ok a => simp [ok_bind]
  | error e => simp [bind, Except.bind]

theorem not_uncaught_elements (x : Operand) : ¬ Uncaught x.elements := by
  cases x with
  | value v => cases v <;> simp [Operand.elements, Value.elements]
  | cidr c => cases c <;> simp [Operand.elements]
  | _ => simp [Operand.elements]

theorem not_uncaught_toSet (x : Operand) : ¬ Uncaught x.toSet := by
  rw [Operand.toSet, uncaught_bind]
  rintro (h | ⟨es, -, h⟩)
  · exact not_uncaught_elements x h
  · split at h
    · exact not_uncaught_ok _ h
    · exact not_uncaught_typeError h

theorem not_uncaught_sets (x y : Operand) (f : List Operand → List Operand → Bool) :
    ¬ Uncaught (x.toSet >>= fun xs => y.toSet >>= fun ys =>
      (pure (f xs ys) : Except Exn Bool)) := by
  rw [uncaught_bind]
  rintro (h | ⟨xs, -, h⟩)
  · exact not_uncaught_toSet x h
  · rw [uncaught_bind] at h
    rcases h with h | ⟨ys, -, h⟩
    · exact not_uncaught_toSet y h
    · exact not_uncaught_ok _ h

theorem uncaught_networkContains_iff {n : Network} {x : Operand} :
    Uncaught (n.contains x) ↔ NoCidr x := by
  cases x with
  | value v => cases v <;> simp [Network.contains, NoCidr]
  | cidr c => cases c <;> simp [Network.contains, NoCidr]
  | _ => simp [Network.contains, NoCidr]

theorem uncaught_mapM_iff {α β : Type} {f : α → Except Exn β} {xs : List α} {P : Prop}
    (h : ∀ a, Uncaught (f a) ↔ P) (hok : ¬ P → ∀ a, ∃ b, f a = .ok b) :
    Uncaught (xs.mapM f) ↔ xs ≠ [] ∧ P := by
  cases xs with
  | nil => simp [pure, Except.pure]
  | cons x xs =>
    by_cases hP : P
    · rw [List.mapM_cons, uncaught_bind]
      simp [h, hP]
    · obtain ⟨ys, hys⟩ : ∃ ys, (x :: xs).mapM f = .ok ys :=
        exists_mapM_eq_ok fun a _ => hok hP a
      simp [hys, hP]

theorem uncaught_listContains_iff {items : List (Option Cidr)} {x : Operand} :
    Uncaught (listContains items x) ↔ networks items ≠ [] ∧ NoCidr x := by
  have hmap : Uncaught ((networks items).mapM fun n => n.contains x) ↔
      networks items ≠ [] ∧ NoCidr x := by
    refine uncaught_mapM_iff (fun n => uncaught_networkContains_iff) fun hx n => ?_
    cases x with
    | value v => cases v <;> simp_all [Network.contains, NoCidr]
    | cidr c => cases c <;> simp_all [Network.contains, NoCidr]
    | _ => simp_all [NoCidr]
  by_cases hx : x = .value .none
  · subst hx
    simp [listContains, NoCidr]
  · rw [listContains, uncaught_bind, hmap]
    · simp [pure, Except.pure]
    · exact hx

theorem uncaught_contains_iff {x y : Operand} : Uncaught (x.contains y) ↔ ContainsRaises x y := by
  cases x with
  | value v =>
    cases v with
    | str s => cases y with
      | value w => cases w <;> simp [Operand.contains, ContainsRaises]
      | _ => simp [Operand.contains, ContainsRaises]
    | dict ms =>
      rw [Operand.contains]
      split <;> simp [ContainsRaises]
    | _ => simp [Operand.contains, ContainsRaises]
  | cidr c =>
    cases c with
    | address a => simp [Operand.contains, ContainsRaises]
    | network n =>
      rw [Operand.contains, uncaught_networkContains_iff]
      rfl
    | list items =>
      rw [Operand.contains, uncaught_listContains_iff]
      rfl
  | _ => simp [Operand.contains, ContainsRaises]

/-! ## Remainders -/

theorem asFloat_error {env : Language} {x : Value} {e : Exn} (hx : x.number?.isSome = true)
    (h : env.asFloat x = .error e) : e ≠ .typeError := by
  cases x with
  | int n =>
    rw [Language.asFloat] at h
    split at h
    · cases h
    · cases h
      decide
  | bool b => cases h
  | float x => cases h
  | _ => cases hx

theorem uncaught_asFloat_iff {env : Language} {x : Value} (hx : x.number?.isSome = true) :
    Uncaught (env.asFloat x) ↔ TooLarge env x := by
  rw [TooLarge]
  cases h : env.asFloat x with
  | ok a => simp
  | error e => simp [asFloat_error hx h]

theorem uncaught_zeroDivision {α : Type} : Uncaught (.error zeroDivisionError : Except Exn α) :=
  ⟨_, rfl, by decide⟩

theorem uncaught_ite_zero {p : Prop} [Decidable p] {b : Bool} :
    Uncaught (if p then .error zeroDivisionError else .ok b) ↔ p := by
  split
  · next h => exact iff_of_true uncaught_zeroDivision h
  · next h => exact iff_of_false (not_uncaught_ok b) h

theorem uncaught_floats_iff {env : Language} {x y : Value} (hx : x.number?.isSome = true)
    (hy : y.number?.isSome = true) :
    Uncaught (do
      let a ← env.asFloat x
      let b ← env.asFloat y
      if isZero b then .error zeroDivisionError else .ok (floatMod a b)) ↔
      TooLarge env x ∨ TooLarge env y ∨ ∃ b, env.asFloat y = .ok b ∧ isZero b = true := by
  rw [uncaught_bind, uncaught_asFloat_iff hx]
  simp only [uncaught_bind, uncaught_asFloat_iff hy, uncaught_ite_zero]
  constructor
  · rintro (h | ⟨a, -, h⟩)
    · exact Or.inl h
    · exact Or.inr h
  · intro h
    by_cases hlarge : TooLarge env x
    · exact Or.inl hlarge
    · rw [TooLarge] at hlarge
      push Not at hlarge
      obtain ⟨a, ha⟩ := hlarge
      exact Or.inr ⟨a, ha, h.resolve_left fun hl => hl a ha⟩

theorem uncaught_modNumbers_iff {env : Language} {x y : Value} (hx : x.number?.isSome = true)
    (hy : y.number?.isSome = true) : Uncaught (env.modNumbers x y) ↔
      match x.int?, y.int? with
      | some _, some n => n = 0
      | _, _ => TooLarge env x ∨ TooLarge env y ∨ ∃ b, env.asFloat y = .ok b ∧ isZero b = true := by
  rw [Language.modNumbers]
  cases x.int? with
  | none => exact uncaught_floats_iff hx hy
  | some m =>
    cases y.int? with
    | none => exact uncaught_floats_iff hx hy
    | some n => exact uncaught_ite_zero

theorem uncaught_division_iff (env : Language) (x y : Value) :
    Uncaught (if x.number?.isSome = true ∧ y.number?.isSome = true then env.modNumbers x y
      else .error .typeError) ↔ DivisionRaises env x y := by
  rw [DivisionRaises]
  by_cases h : x.number?.isSome = true ∧ y.number?.isSome = true
  · rw [if_pos h, uncaught_modNumbers_iff h.1 h.2]
    exact (and_iff_right h.2).symm.trans (and_iff_right h.1).symm
  · rw [if_neg h]
    exact iff_of_false not_uncaught_typeError fun hall => h ⟨hall.1, hall.2.1⟩

theorem uncaught_mod_iff {env : Language} {x y : Operand} :
    Uncaught (env.mod x y) ↔ ModRaises env x y := by
  cases x with
  | value v =>
    cases v with
    | str s => rw [Language.mod, ModRaises, uncaught_map]
    | _ =>
      cases y with
      | value w =>
        refine Iff.trans ?_ (uncaught_division_iff env _ w)
        exact Iff.rfl
      | _ => exact iff_of_false not_uncaught_typeError id
  | delta d =>
    cases y with
    | delta e => exact uncaught_ite_zero
    | _ => exact iff_of_false not_uncaught_typeError id
  | _ => exact iff_of_false not_uncaught_typeError id

/-! ## Operators -/

/-- **Operators.**  What an operator raises but a `TypeError`. -/
theorem uncaught_apply_iff (env : Language) (op : Operator) (x y : Operand) :
    Uncaught (op.apply env x y) ↔ OpRaises env op x y := by
  cases op with
  | eq => exact uncaught_eq_iff
  | ne => exact uncaught_map.trans uncaught_eq_iff
  | order c => exact uncaught_order_iff
  | glob =>
    rw [Operator.apply.eq_def]
    split <;> simp_all [OpRaises]
  | regex ignoreCase =>
    rw [Operator.apply.eq_def]
    split <;> simp_all [OpRaises, RegexRaises]
  | isIn => exact uncaught_contains_iff
  | notIn => exact uncaught_map.trans uncaught_contains_iff
  | contains => exact uncaught_contains_iff
  | difference => exact iff_of_false (not_uncaught_sets x y _) id
  | intersect => exact iff_of_false (not_uncaught_sets x y _) id
  | mod => exact uncaught_mod_iff

end Custodian.ValueOps

import Custodian.Lib.Json
import Custodian.Lib.Numeral
import Mathlib.Algebra.Order.Field.Rat
import Mathlib.Order.WithBot

/-!
# Numbers and dates of values

`float` and `parse_date` of `c7n/utils.py` for the values of a resource.  A date is an instant within
the years 1 to 9999; numbers are the floats, of which one is less than no other.
-/

namespace Custodian.ParseDate

open Py

/-! ## Numbers -/

/-- A float.  The zero with a sign is equal to the other one, but has another text. -/
inductive Number where
  | nan
  | negInf
  | negZero
  | fin (q : ℚ)
  | posInf
  deriving DecidableEq, Repr

/-- The place of a number on the line; `nan` has none. -/
def Number.place : Number → Option (WithBot (WithTop ℚ))
  | .nan => none
  | .negInf => some ⊥
  | .negZero => some (((0 : ℚ) : WithTop ℚ) : WithBot (WithTop ℚ))
  | .fin q => some ((q : WithTop ℚ) : WithBot (WithTop ℚ))
  | .posInf => some ((⊤ : WithTop ℚ) : WithBot (WithTop ℚ))

/-- `x < y` -/
def Number.lt (x y : Number) : Bool :=
  match x.place, y.place with
  | some p, some q => p < q
  | _, _ => false

theorem Number.place_eq_none {x : Number} : x.place = none ↔ x = .nan := by
  cases x <;> simp [Number.place]

theorem Number.lt_eq_true {x y : Number} :
    x.lt y = true ↔ ∃ p q, x.place = some p ∧ y.place = some q ∧ p < q := by
  rw [Number.lt]
  cases x.place <;> cases y.place <;> simp

theorem Number.lt_asymm {x y : Number} (h : x.lt y = true) : y.lt x = false := by
  obtain ⟨p, q, hp, hq, hlt⟩ := Number.lt_eq_true.mp h
  rw [Number.lt, hp, hq]
  simpa using hlt.le

theorem Number.lt_cotrans {x z : Number} (h : x.lt z = true) {y : Number} (hy : y ≠ .nan) :
    x.lt y = true ∨ y.lt z = true := by
  obtain ⟨p, q, hp, hq, hlt⟩ := Number.lt_eq_true.mp h
  obtain ⟨r, hr⟩ := Option.ne_none_iff_exists'.mp (mt Number.place_eq_none.mp hy)
  rw [Number.lt_eq_true, Number.lt_eq_true]
  rcases lt_or_ge p r with hpr | hrp
  · exact Or.inl ⟨p, r, hp, hr, hpr⟩
  · exact Or.inr ⟨r, q, hr, hq, lt_of_le_of_lt hrp hlt⟩

theorem Number.lt_posInf (x : Number) : Number.lt .posInf x = false := by
  rw [← Bool.not_eq_true, Number.lt_eq_true]
  rintro ⟨p, q, hp, hq, hlt⟩
  cases hp
  have hle : q ≤ ((⊤ : WithTop ℚ) : WithBot (WithTop ℚ)) := le_top
  exact absurd hlt (not_lt_of_ge hle)

theorem Number.lt_negInf (x : Number) : Number.lt x .negInf = false := by
  rw [← Bool.not_eq_true, Number.lt_eq_true]
  rintro ⟨p, q, hp, hq, hlt⟩
  cases hq
  exact not_lt_bot hlt

/-! ## Instants -/

def minMicros : Int := -62135596800000000

def maxMicros : Int := 253402300799999999

/-- A `datetime` in UTC, in microseconds since 1970. -/
structure Instant where
  micros : Int
  min_le : minMicros ≤ micros
  le_max : micros ≤ maxMicros
  deriving DecidableEq

/-- `datetime.min` and `datetime.max` -/
def Instant.min : Instant := ⟨minMicros, le_refl _, by decide⟩

def Instant.max : Instant := ⟨maxMicros, by decide, le_refl _⟩

/-! ## Parsing -/

def overflowError : Exn := .raised "OverflowError".toList

def osError : Exn := .raised "OSError".toList

def valueError : Exn := .raised "ValueError".toList

/-- What is taken of the language and of `dateutil`; the errors are the classes that are caught. -/
structure Clock where
  /-- `float(s)` of a text -/
  floatOfText : Text → Except Exn Number
  /-- `float(n)` of a number -/
  floatOfNum : ℚ → Except Exn Number
  /-- `parse(s).astimezone(tz)` -/
  parse : Text → Except Exn Instant
  /-- `datetime.fromtimestamp(x).astimezone(tz)` -/
  fromtimestamp : Number → Except Exn Instant
  /-- The same for `x / 1000`. -/
  fromMillis : Number → Except Exn Instant
  /-- `DATE_FLOOR` -/
  dateFloor : ℚ
  /-- `os.name == "nt"` -/
  windows : Bool

/-- `float(v)` -/
def Clock.float (clock : Clock) : Json → Except Exn Number
  | .null => .error .typeError
  | .bool b => .ok (.fin (if b then 1 else 0))
  | .num q => clock.floatOfNum q
  | .str s => clock.floatOfText s
  | .arr _ => .error .typeError
  | .obj _ => .error .typeError

/-- A result that an exception is passed over for. -/
def orNone {α : Type} (caught : List Exn) : Except Exn α → Except Exn (Option α)
  | .ok a => .ok (some a)
  | .error e => if e ∈ caught then .ok none else .error e

/-- What `parse_date` looks at: a text, or a number by what `float` gives for it. -/
inductive Raw where
  | text (s : Text)
  | number (x : Except Exn Number)
  | other

def Clock.raw (clock : Clock) : Json → Raw
  | .str s => .text s
  | .bool b => .number (.ok (.fin (if b then 1 else 0)))
  | .num q => .number (clock.floatOfNum q)
  | _ => .other

/-- The date of a text that is not all digits. -/
def Clock.textDate (clock : Clock) : Raw → Except Exn (Option Instant)
  | .text s =>
    if isdigit s then .ok none
    else orNone [.attributeError, .typeError, valueError, overflowError] (clock.parse s)
  | _ => .ok none

def Clock.caught (clock : Clock) : List Exn :=
  if clock.windows then [valueError, osError] else [valueError]

/-- A number of seconds or milliseconds since 1970. -/
def Clock.epoch (clock : Clock) (convert : Number → Except Exn Instant) (x : Except Exn Number) :
    Except Exn (Option Instant) :=
  let date : Except Exn (Option Instant) := do
    let x ← x
    if Number.lt (.fin clock.dateFloor) x then
      let d ← convert x
      return some d
    else return none
  do return (← orNone clock.caught date).join

def Clock.epochDate (clock : Clock) (convert : Number → Except Exn Instant) :
    Raw → Except Exn (Option Instant)
  | .text s => clock.epoch convert (clock.floatOfText s)
  | .number x => clock.epoch convert x
  | .other => .ok none

/-- `parse_date(v)`; `None` is `None` again. -/
def Clock.parseDate (clock : Clock) (v : Raw) : Except Exn (Option Instant) := do
  match ← clock.textDate v with
  | some d => return some d
  | none =>
    match ← clock.epochDate clock.fromtimestamp v with
    | some d => return some d
    | none => clock.epochDate clock.fromMillis v

end Custodian.ParseDate

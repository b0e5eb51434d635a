import Custodian.Lib.Split
import Mathlib.Algebra.Order.Ring.Abs
import Mathlib.Data.Rat.Floor

/-!
# Clocks, time zones and written dates

Instants and wall clock readings are integers, in microseconds: instants since
the epoch, readings since the first midnight of its year.
-/

namespace Py.Clock

open Py

/-! ## Durations -/

def minute : Int := 60 * 1000000

def day : Int := 24 * 60 * minute

/-- The start of the minute or the day that a reading lies in. -/
def floorTo (unit w : Int) : Int := w - w % unit

theorem floorTo_le {unit : Int} (hu : 0 < unit) (w : Int) : floorTo unit w ≤ w := by
  have := Int.emod_nonneg w hu.ne'
  rw [floorTo]
  omega

theorem floorTo_eq_mul (unit w : Int) : floorTo unit w = unit * (w / unit) := by
  rw [floorTo, Int.emod_def, sub_sub_cancel]

theorem floorTo_lt_floorTo {unit : Int} (hu : 0 < unit) {v w : Int} :
    floorTo unit v < floorTo unit w ↔ v < floorTo unit w := by
  rw [floorTo_eq_mul unit v, floorTo_eq_mul unit w, Int.mul_lt_mul_left hu, mul_comm unit]
  exact Int.ediv_lt_iff_lt_mul hu

theorem add_floorTo_le {unit : Int} (hu : 0 < unit) {v w : Int}
    (h : floorTo unit v < floorTo unit w) : floorTo unit v + unit ≤ floorTo unit w := by
  rw [floorTo_eq_mul unit v, floorTo_eq_mul unit w] at *
  have hlt : v / unit + 1 ≤ w / unit := (Int.mul_lt_mul_left hu).mp h
  calc unit * (v / unit) + unit = unit * (v / unit + 1) := by rw [mul_add, mul_one]
    _ ≤ unit * (w / unit) := Int.mul_le_mul_of_nonneg_left hlt hu.le

/-- To the nearest integer, halves to the even one. -/
def roundHalfEven (q : ℚ) : Int :=
  let f := q.floor
  if q - f < 1 / 2 then f else if 1 / 2 < q - f then f + 1 else if f % 2 = 0 then f else f + 1

/-- `timedelta(days=days, hours=hours)` -/
def timedelta (days hours : ℚ) : Int := roundHalfEven ((days * 24 + hours) * 60 * minute)

/-! ## Dates -/

/-- A `datetime` lies between the years 1 and 9999. -/
def datetime (w : Int) : Except Exn Int :=
  if -719162 * day ≤ w ∧ w < 2932897 * day then .ok w else .error (.raised "OverflowError".toList)

/-- Year, month and day of a number of days since the epoch, counted in eras of
400 years that begin in March. -/
def civil (n : Int) : Nat × Nat × Nat :=
  let z := n + 719468
  let era := z / 146097
  let doe := (z % 146097).toNat
  let yoe := (doe - doe / 1460 + doe / 36524 - doe / 146096) / 365
  let doy := doe - (365 * yoe + yoe / 4 - yoe / 100)
  let mp := (5 * doy + 2) / 153
  let month := if mp < 10 then mp + 3 else mp - 9
  let year := (yoe + era * 400).toNat + if month ≤ 2 then 1 else 0
  (year, month, doy - (153 * mp + 2) / 5 + 1)

example : [civil 0, civil 19782, civil 19783, civil 20088] =
    [(1970, 1, 1), (2024, 2, 29), (2024, 3, 1), (2024, 12, 31)] := by decide +kernel

def twoDigits (n : Nat) : Text := [Nat.digitChar (n / 10 % 10), Nat.digitChar (n % 10)]

/-- `w.strftime('%Y/%m/%d')` -/
def dateText (w : Int) : Text :=
  let d := civil (w / day)
  Nat.toDigits 10 d.1 ++ '/' :: twoDigits d.2.1 ++ '/' :: twoDigits d.2.2

/-- `w.strftime('%Y/%m/%d %H%M %Z')` -/
def minuteText (w : Int) (name : Text) : Text :=
  let m := (w % day / minute).toNat
  dateText w ++ ' ' :: twoDigits (m / 60) ++ twoDigits (m % 60) ++ ' ' :: name

/-! ## Time zones -/

/-- The characters of the abbreviated name of a time zone. -/
def isNameChar (c : Char) : Bool := c.isAlphanum || c = '+' || c = '-'

/-- A time zone: the offset of its clock from UTC at an instant, and the offset
and the name it gives to a reading. -/
structure Zone where
  offset : Int → Int
  utcoffset : Int → Int
  tzname : Int → Text
  offset_lt : ∀ t, |offset t| < day
  tzname_ne : ∀ w, tzname w ≠ []
  tzname_plain : ∀ w, ∀ c ∈ tzname w, isNameChar c = true

namespace Zone

/-- `datetime.now(tz)` -/
def wall (z : Zone) (t : Int) : Int := t + z.offset t

theorem exists_wall_ge (z : Zone) (x now : Int) : ∃ t ≥ now, x ≤ z.wall t := by
  refine ⟨max now (x + day), le_max_left .., ?_⟩
  have hlt := abs_lt.mp (z.offset_lt (max now (x + day)))
  have hmax := le_max_right now (x + day)
  rw [wall]
  omega

/-- A zone whose clock is never changed. -/
def fixed (offset : Int) (name : Text) (ho : |offset| < day) (hne : name ≠ [])
    (hname : ∀ c ∈ name, isNameChar c = true) : Zone where
  offset _ := offset
  utcoffset _ := offset
  tzname _ := name
  offset_lt _ := ho
  tzname_ne _ := hne
  tzname_plain _ := hname

end Zone

/-! ## The characters of a written date -/

theorem digitChar_isDigit {n : Nat} (h : n < 10) : (Nat.digitChar n).isDigit = true := by
  have hall : ∀ n < 10, (Nat.digitChar n).isDigit = true := by decide
  exact hall n h

theorem twoDigits_isDigit (n : Nat) : ∀ c ∈ twoDigits n, c.isDigit = true := by
  simp only [twoDigits, List.mem_cons, List.not_mem_nil, or_false, forall_eq_or_imp, forall_eq]
  exact ⟨digitChar_isDigit (Nat.mod_lt _ (by decide)), digitChar_isDigit (Nat.mod_lt _ (by decide))⟩

theorem colon_not_isDigit : (':').isDigit = false := by decide

theorem colon_not_mem_dateText (w : Int) : ':' ∉ dateText w := by
  have hdig : ∀ {s : Text}, (∀ c ∈ s, c.isDigit = true) → ':' ∉ s := by
    intro s hs h
    have := hs _ h
    rw [colon_not_isDigit] at this
    cases this
  have hyear : ':' ∉ Nat.toDigits 10 (civil (w / day)).1 :=
    hdig fun c hc => Nat.isDigit_of_mem_toDigits (by decide) (by decide) hc
  simp [dateText, hyear, hdig (twoDigits_isDigit _)]

theorem dateText_getLast (w : Int) : ∀ c ∈ (dateText w).getLast?, isSpace c = false := by
  have hlast : (dateText w).getLast? = some (Nat.digitChar ((civil (w / day)).2.2 % 10)) := by
    simp [dateText, twoDigits]
  rw [hlast]
  rintro c ⟨⟩
  have := visible_of_isDigit (@digitChar_isDigit ((civil (w / day)).2.2 % 10) (by omega))
  exact isSpace_of_visible (by omega)

theorem visible_of_isNameChar {c : Char} (h : isNameChar c = true) :
    33 ≤ c.toNat ∧ c.toNat ≤ 126 ∧ c ≠ ':' := by
  simp only [isNameChar, Bool.or_eq_true, decide_eq_true_eq] at h
  rcases h with (h | rfl) | rfl
  · have hne : c ≠ ':' := by
      rintro rfl
      revert h
      decide
    delta Char.isAlphanum Char.isAlpha Char.isUpper Char.isLower at h
    simp [Char.isDigit, UInt32.le_iff_toNat_le] at h
    exact ⟨by omega, by omega, hne⟩
  · decide
  · decide

theorem colon_not_mem_minuteText (w : Int) {name : Text} (hname : ∀ c ∈ name, isNameChar c = true) :
    ':' ∉ minuteText w name := by
  have hdig : ∀ n, ':' ∉ twoDigits n := by
    intro n h
    have := twoDigits_isDigit n _ h
    rw [colon_not_isDigit] at this
    cases this
  have hn : ':' ∉ name := fun h => (visible_of_isNameChar (hname _ h)).2.2 rfl
  simp [minuteText, colon_not_mem_dateText, hdig, hn]

theorem minuteText_getLast (w : Int) {name : Text} (hne : name ≠ [])
    (hname : ∀ c ∈ name, isNameChar c = true) :
    ∀ c ∈ (minuteText w name).getLast?, isSpace c = false := by
  intro c hc
  rw [minuteText, List.getLast?_append_of_ne_nil _ (by simp), List.getLast?_cons_of_ne_nil hne] at hc
  have := visible_of_isNameChar (hname c (List.mem_of_getLast? hc))
  exact isSpace_of_visible ⟨this.1, this.2.1⟩

end Py.Clock

import Custodian.Lib.Clock
import Custodian.Lib.Numeral
import Mathlib.Tactic.IntervalCases

/-!
# Reading dates

The directives of `strptime` take the digits of a number in its range; the date that they give has
to be one of the calendar.
-/

namespace Py.Clock

open Py

/-! ## Days by their dates -/

/-- The number of days since the epoch of a day with this date. -/
def dayNumber (year month d : Nat) : Int :=
  let y := if month ≤ 2 then year - 1 else year
  let yoe := y % 400
  let mp := if 2 < month then month - 3 else month + 9
  let doe := yoe * 365 + yoe / 4 - yoe / 100 + ((153 * mp + 2) / 5 + d - 1)
  y / 400 * 146097 + doe - 719468

theorem yearOfEra_spec {doe yoe : Nat} (hdoe : doe < 146097)
    (hyoe : yoe = (doe - doe / 1460 + doe / 36524 - doe / 146096) / 365) :
    yoe ≤ 399 ∧ 365 * yoe + yoe / 4 - yoe / 100 ≤ doe ∧
      doe ≤ 365 * yoe + yoe / 4 - yoe / 100 + 365 := by
  have hcenturies : doe / 36524 ≤ 4 := by omega
  have hlast : doe / 146096 ≤ 1 := by omega
  have hle : yoe ≤ 399 := by
    interval_cases hc : doe / 36524 <;> interval_cases hl : doe / 146096 <;> omega
  refine ⟨hle, ?_⟩
  have hyears : yoe / 100 ≤ 3 := by omega
  interval_cases hc : doe / 36524 <;> interval_cases hl : doe / 146096 <;>
    interval_cases hy : yoe / 100 <;> omega

/-- The date of a day, by its year of the era and its day of that year. -/
theorem exists_civil {n : Int} (hn : -719468 ≤ n) :
    ∃ era yoe doy : Nat, yoe ≤ 399 ∧ doy ≤ 365 ∧
      n = era * 146097 + (365 * yoe + yoe / 4 - yoe / 100 + doy : Nat) - 719468 ∧
      let mp := (5 * doy + 2) / 153
      let month := if mp < 10 then mp + 3 else mp - 9
      civil n = (yoe + era * 400 + (if month ≤ 2 then 1 else 0), month,
        doy - (153 * mp + 2) / 5 + 1) := by
  obtain ⟨z, hz⟩ := Int.eq_ofNat_of_zero_le (show 0 ≤ n + 719468 by omega)
  have hdoe : z % 146097 < 146097 := Nat.mod_lt _ (by decide)
  obtain ⟨yoe, hyoe⟩ : ∃ yoe, yoe = (z % 146097 - z % 146097 / 1460 + z % 146097 / 36524 -
    z % 146097 / 146096) / 365 := ⟨_, rfl⟩
  obtain ⟨hle, hstart, hend⟩ := yearOfEra_spec hdoe hyoe
  refine ⟨z / 146097, yoe, z % 146097 - (365 * yoe + yoe / 4 - yoe / 100), hle, by omega, ?_, ?_⟩
  · omega
  · have hrest : ((z : Int) % 146097).toNat = z % 146097 := rfl
    have hyear : ((yoe : Int) + (z : Int) / 146097 * 400).toNat = yoe + z / 146097 * 400 := rfl
    simp only [civil, hz, hrest, ← hyoe, hyear]

/-- **A day is found by its date.** -/
theorem dayNumber_civil {n : Int} (hn : -719468 ≤ n) :
    dayNumber (civil n).1 (civil n).2.1 (civil n).2.2 = n := by
  obtain ⟨era, yoe, doy, hyoe, hdoy, hday, hcivil⟩ := exists_civil hn
  have hmp : (5 * doy + 2) / 153 ≤ 11 := by omega
  have hrest : (yoe + era * 400) % 400 = yoe := by omega
  have hdoy : (153 * ((5 * doy + 2) / 153) + 2) / 5 + (doy - (153 * ((5 * doy + 2) / 153) + 2) / 5 + 1) -
      1 = doy := by omega
  rw [hcivil]
  simp only [dayNumber]
  by_cases hmarch : (5 * doy + 2) / 153 < 10
  · have hmonth : ¬ (5 * doy + 2) / 153 + 3 ≤ 2 := by omega
    have hback : 2 < (5 * doy + 2) / 153 + 3 := by omega
    simp only [if_pos hmarch, if_neg hmonth, if_pos hback, Nat.add_zero, Nat.add_sub_cancel,
      hrest, hdoy]
    omega
  · have hmonth : (5 * doy + 2) / 153 - 9 ≤ 2 := by omega
    have hback : ¬ 2 < (5 * doy + 2) / 153 - 9 := by omega
    have hmp' : (5 * doy + 2) / 153 - 9 + 9 = (5 * doy + 2) / 153 := by omega
    simp only [if_neg hmarch, if_pos hmonth, if_neg hback, Nat.add_sub_cancel, hrest, hmp',
      hdoy]
    omega

theorem civil_bounds {n : Int} (hn : -353000 ≤ n ∧ n < 2932897) :
    (1000 ≤ (civil n).1 ∧ (civil n).1 ≤ 9999) ∧ (1 ≤ (civil n).2.1 ∧ (civil n).2.1 ≤ 12) ∧
      1 ≤ (civil n).2.2 ∧ (civil n).2.2 ≤ 31 := by
  obtain ⟨era, yoe, doy, hyoe, hdoy, hday, hcivil⟩ := exists_civil (n := n) (by omega)
  have hmp : (5 * doy + 2) / 153 ≤ 11 := by omega
  rw [hcivil]
  simp only
  by_cases hmarch : (5 * doy + 2) / 153 < 10
  · have hmonth : ¬ (5 * doy + 2) / 153 + 3 ≤ 2 := by omega
    simp only [if_pos hmarch, if_neg hmonth]
    omega
  · have hmonth : (5 * doy + 2) / 153 - 9 ≤ 2 := by omega
    simp only [if_neg hmarch, if_pos hmonth]
    omega

/-! ## Directives -/

/-- The characters that a directive takes: one of several sequences. -/
structure Directive where
  sequences : List (List (Char → Bool))

namespace Directive

def takes (d : Directive) (s : Text) : Bool :=
  d.sequences.any fun cs => cs.length = s.length && (cs.zip s).all fun e => e.1 e.2

/-- The number of a directive; a blank may stand in the place of its first digit. -/
def read (d : Directive) (s : Text) : Option Nat :=
  if d.takes s then (int (s.dropWhile (· = ' '))).toOption else none

/-- `[a-b]` -/
def range (a b : Char) (c : Char) : Bool := a ≤ c && c ≤ b

/-- `%Y` -/
def year : Directive := ⟨[[isDigit, isDigit, isDigit, isDigit]]⟩

/-- `%m` -/
def month : Directive :=
  ⟨[[range '1' '1', range '0' '2'], [range '0' '0', range '1' '9'], [range '1' '9']]⟩

/-- `%d` -/
def dayOfMonth : Directive :=
  ⟨[[range '3' '3', range '0' '1'], [range '1' '2', isDigit], [range '0' '0', range '1' '9'],
    [range '1' '9'], [range ' ' ' ', range '1' '9']]⟩

/-- `%H` -/
def hour : Directive :=
  ⟨[[range '2' '2', range '0' '3'], [range '0' '1', isDigit], [isDigit]]⟩

/-- `%M` -/
def minute : Directive := ⟨[[range '0' '5', isDigit], [isDigit]]⟩

end Directive

/-- `datetime(year, month, d, hour, minute)`: the day has to be one of the calendar. -/
def reading (year month d hour minutes : Nat) : Option Int :=
  let n := dayNumber year month d
  if 1 ≤ year ∧ civil n = (year, month, d) then
    some (n * day + (hour * 60 + minutes : Nat) * minute)
  else none

/-! ### Numbers that are written -/

open Directive

theorem read_month : ∀ n < 13, 1 ≤ n → month.read (twoDigits n) = some n := by decide +kernel

theorem read_day : ∀ n < 32, 1 ≤ n → dayOfMonth.read (twoDigits n) = some n := by decide +kernel

theorem read_hour : ∀ n < 24, hour.read (twoDigits n) = some n := by decide +kernel

theorem read_minute : ∀ n < 60, Directive.minute.read (twoDigits n) = some n := by decide +kernel

theorem toDigits_four {n : Nat} (hn : 1000 ≤ n ∧ n ≤ 9999) :
    Nat.toDigits 10 n = [Nat.digitChar (n / 1000), Nat.digitChar (n / 100 % 10),
      Nat.digitChar (n / 10 % 10), Nat.digitChar (n % 10)] := by
  have hstep : ∀ m, 0 < m / 10 →
      Nat.toDigits 10 m = Nat.toDigits 10 (m / 10) ++ [Nat.digitChar (m % 10)] := by
    intro m hm
    have hlast : m % 10 < 10 := Nat.mod_lt _ (by decide)
    rw [← Nat.toDigits_of_lt_base hlast, Nat.toDigits_append_toDigits (by decide) hm hlast,
      Nat.div_add_mod]
  rw [hstep n (by omega), hstep (n / 10) (by omega), hstep (n / 10 / 10) (by omega),
    Nat.toDigits_of_lt_base (show n / 10 / 10 / 10 < 10 by omega)]
  simp only [Nat.div_div_eq_div_mul]
  rfl

theorem read_year {n : Nat} (hn : 1000 ≤ n ∧ n ≤ 9999) :
    year.read (Nat.toDigits 10 n) = some n := by
  have hdigit : ∀ d < 10, isDigit (Nat.digitChar d) = true ∧ Nat.digitChar d ≠ ' ' := by
    decide +kernel
  have h₁ : n / 1000 < 10 := by omega
  have h₂ : n / 100 % 10 < 10 := Nat.mod_lt _ (by decide)
  have h₃ : n / 10 % 10 < 10 := Nat.mod_lt _ (by decide)
  have h₄ : n % 10 < 10 := Nat.mod_lt _ (by decide)
  have htakes : year.takes (Nat.toDigits 10 n) = true := by
    rw [toDigits_four hn]
    simp [takes, year, (hdigit _ h₁).1, (hdigit _ h₂).1, (hdigit _ h₃).1, (hdigit _ h₄).1]
  have hint : int (Nat.toDigits 10 n) = .ok n :=
    int_toDigits (by rw [toDigits_four hn]; simp [maxStrDigits])
  have hblank : (Nat.toDigits 10 n).dropWhile (· = ' ') = Nat.toDigits 10 n := by
    rw [toDigits_four hn, List.dropWhile_cons_of_neg]
    simp [(hdigit _ h₁).2]
  rw [Directive.read, if_pos htakes, hblank, hint]
  rfl

end Py.Clock

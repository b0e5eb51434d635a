import Custodian.Lib.Clock
import Mathlib.Data.Int.Log
import Mathlib.Tactic.FieldSimp
import Mathlib.Tactic.Linarith
import Mathlib.Tactic.Positivity

/-!
# Double precision

Floating point numbers of 53 binary digits, whose last digit is `2 ^ -1074` or more, as rational
numbers.  A rational number is rounded to a nearest one, to the even one of two.
-/

namespace Py

/-! ## Rounding to an integer -/

namespace Clock

theorem roundHalfEven_intCast (n : Int) : roundHalfEven n = n := by
  simp [roundHalfEven, Rat.floor_intCast]

theorem floor_le_roundHalfEven (q : ℚ) : ⌊q⌋ ≤ roundHalfEven q ∧ roundHalfEven q ≤ ⌊q⌋ + 1 := by
  have hfloor : q.floor = ⌊q⌋ := rfl
  rw [roundHalfEven, hfloor]
  split_ifs <;> omega

theorem le_roundHalfEven {n : Int} {q : ℚ} (h : n ≤ q) : n ≤ roundHalfEven q :=
  (Int.le_floor.mpr h).trans (floor_le_roundHalfEven q).1

theorem roundHalfEven_le {n : Int} {q : ℚ} (h : q ≤ n) : roundHalfEven q ≤ n := by
  rcases h.lt_or_eq with hlt | rfl
  · have := Int.floor_lt.mpr hlt
    have := (floor_le_roundHalfEven q).2
    omega
  · rw [roundHalfEven_intCast]

theorem roundHalfEven_eq {n : Int} {q : ℚ} (h : |q - n| < 1 / 2) : roundHalfEven q = n := by
  rw [abs_lt] at h
  have hfloor : q.floor = ⌊q⌋ := rfl
  rw [roundHalfEven, hfloor]
  rcases le_or_gt (n : ℚ) q with hle | hlt
  · have hn : ⌊q⌋ = n := Int.floor_eq_iff.mpr ⟨hle, by linarith⟩
    rw [hn, if_pos h.2]
  · have hn : ⌊q⌋ = n - 1 := Int.floor_eq_iff.mpr ⟨by push_cast; linarith, by push_cast; linarith⟩
    rw [hn, if_neg (by push_cast; linarith), if_pos (by push_cast; linarith)]
    omega

/-- Up to a half, a number is rounded to zero. -/
theorem roundHalfEven_eq_zero_iff {q : ℚ} (h : 0 ≤ q) : roundHalfEven q = 0 ↔ q ≤ 1 / 2 := by
  have hfloor : q.floor = ⌊q⌋ := rfl
  constructor
  · intro hzero
    by_contra! hgt
    have hone : 1 ≤ roundHalfEven q := by
      rcases le_or_gt 1 q with hq | hq
      · exact le_roundHalfEven (by exact_mod_cast hq)
      · refine (roundHalfEven_eq ?_).ge
        rw [abs_lt]
        constructor <;> push_cast <;> linarith
    omega
  · intro hle
    have hzero : ⌊q⌋ = 0 := Int.floor_eq_iff.mpr ⟨by simpa using h, by push_cast; linarith⟩
    rw [roundHalfEven, hfloor, hzero, Int.cast_zero, sub_zero]
    split_ifs with hlt hgt
    · rfl
    · linarith
    · rfl
    · contradiction

theorem abs_roundHalfEven_le {n : Int} {q : ℚ} (h : |q| ≤ n) : |roundHalfEven q| ≤ n := by
  rw [abs_le] at h ⊢
  exact ⟨le_roundHalfEven (by push_cast; exact h.1), roundHalfEven_le h.2⟩

end Clock

namespace Double

open Clock

/-! ## Rounding to a double -/

/-- The exponent of the last digit of the doubles around a number. -/
def exponent (q : ℚ) : ℤ := max (Int.log 2 |q| - 52) (-1074)

/-- A nearest double, if the exponent has no upper bound. -/
def nearest (q : ℚ) : ℚ := roundHalfEven (q / 2 ^ exponent q) * 2 ^ exponent q

/-- A nearest double: `none` is an infinity. -/
def ofRat (q : ℚ) : Option ℚ := if |nearest q| < 2 ^ 1024 then some (nearest q) else none

theorem zpow_pos' (e : ℤ) : (0 : ℚ) < 2 ^ e := zpow_pos (by norm_num) e

theorem log_lt {q : ℚ} {k : ℤ} (hq : 0 < q) (h : q < 2 ^ k) : Int.log 2 q < k := by
  exact_mod_cast (Int.lt_zpow_iff_log_lt (b := 2) (by norm_num) hq).mp (by exact_mod_cast h)

theorem le_log {q : ℚ} {k : ℤ} (hq : 0 < q) (h : 2 ^ k ≤ q) : k ≤ Int.log 2 q := by
  exact_mod_cast (Int.zpow_le_iff_le_log (b := 2) (by norm_num) hq).mp (by exact_mod_cast h)

theorem lt_zpow_log (q : ℚ) : q < 2 ^ (Int.log 2 q + 1) := by
  exact_mod_cast Int.lt_zpow_succ_log_self (b := 2) (by norm_num) q

theorem nearest_of_exponent_le {m e : ℤ} (h : exponent (m * 2 ^ e) ≤ e) :
    nearest (m * 2 ^ e) = m * 2 ^ e := by
  have hint : (m * 2 ^ e : ℚ) / 2 ^ exponent (m * 2 ^ e) =
      ((m * 2 ^ (e - exponent (m * 2 ^ e)).toNat : ℤ) : ℚ) := by
    rw [mul_div_assoc, ← zpow_sub₀ (by norm_num)]
    push_cast
    rw [← zpow_natCast, Int.toNat_of_nonneg (by omega)]
  rw [nearest, hint, roundHalfEven_intCast, ← hint, div_mul_cancel₀ _ (zpow_pos' _).ne']

theorem nearest_eq_self_of_lt {m e : ℤ} (hm : |m| < 2 ^ 53) (he : -1074 ≤ e) :
    nearest (m * 2 ^ e) = m * 2 ^ e := by
  by_cases hzero : m = 0
  · have hround : roundHalfEven 0 = 0 := by simpa using roundHalfEven_intCast 0
    simp [hzero, nearest, hround]
  · refine nearest_of_exponent_le (max_le ?_ he)
    have hpos : (0 : ℚ) < |(m * 2 ^ e : ℚ)| :=
      abs_pos.mpr (mul_ne_zero (by exact_mod_cast hzero) (zpow_pos' e).ne')
    have hlt : |(m * 2 ^ e : ℚ)| < 2 ^ (53 + e) := by
      rw [abs_mul, abs_of_pos (zpow_pos' e), zpow_add₀ (by norm_num)]
      exact mul_lt_mul_of_pos_right (by exact_mod_cast hm) (zpow_pos' e)
    have := log_lt hpos hlt
    omega

/-- **Doubles.**  They are not rounded. -/
theorem nearest_eq_self {m e : ℤ} (hm : |m| ≤ 2 ^ 53) (he : -1074 ≤ e) :
    nearest (m * 2 ^ e) = m * 2 ^ e := by
  rcases hm.lt_or_eq with hlt | heq
  · exact nearest_eq_self_of_lt hlt he
  · -- the same number, with half of the digits
    have hhalf : (m * 2 ^ e : ℚ) = ((m / 2 : ℤ) : ℚ) * 2 ^ (e + 1) := by
      have htwo : m = 2 * (m / 2) := by
        rcases abs_eq (by norm_num) |>.mp heq with rfl | rfl <;> norm_num
      rw [zpow_add₀ (by norm_num)]
      nth_rewrite 1 [htwo]
      push_cast
      ring
    have hlt : |m / 2| < 2 ^ 53 := by
      rcases abs_eq (by norm_num) |>.mp heq with rfl | rfl <;> norm_num
    rw [hhalf]
    exact nearest_eq_self_of_lt hlt (by omega)

theorem nearest_intCast {n : ℤ} (h : |n| ≤ 2 ^ 53) : nearest n = n := by
  simpa using nearest_eq_self (e := 0) h (by norm_num)

theorem nearest_zero : nearest 0 = 0 := by
  simpa using nearest_intCast (n := 0) (by norm_num)

theorem exists_nearest_natCast (n : ℕ) : ∃ k : ℤ, nearest n = k := by
  rcases le_or_gt n (2 ^ 53) with hn | hn
  · exact ⟨n, by exact_mod_cast nearest_intCast (n := n) (by rw [Nat.abs_cast]; exact_mod_cast hn)⟩
  · have hpow : (2 : ℚ) ^ (53 : ℤ) ≤ n := by exact_mod_cast hn.le
    have hlog := le_log ((zpow_pos' 53).trans_le hpow) hpow
    have hexp : 0 ≤ exponent (n : ℚ) := by
      rw [exponent, Nat.abs_cast]
      omega
    refine ⟨roundHalfEven (n / 2 ^ exponent (n : ℚ)) * 2 ^ (exponent (n : ℚ)).toNat, ?_⟩
    push_cast
    rw [← zpow_natCast, Int.toNat_of_nonneg hexp]
    rfl

theorem exists_nearest_eq (q : ℚ) :
    ∃ m e : ℤ, nearest q = m * 2 ^ e ∧ |m| ≤ 2 ^ 53 ∧ -1074 ≤ e := by
  refine ⟨_, exponent q, rfl, abs_roundHalfEven_le ?_, le_max_right _ _⟩
  have hpow : ((2 ^ 53 : ℤ) : ℚ) = 2 ^ (53 : ℤ) := by norm_num
  rw [abs_div, abs_of_pos (zpow_pos' _), div_le_iff₀ (zpow_pos' _), hpow, ← zpow_add₀ (by norm_num)]
  refine (lt_zpow_log |q|).le.trans (zpow_le_zpow_right₀ (by norm_num) ?_)
  have := le_max_left (Int.log 2 |q| - 52) (-1074)
  rw [← exponent] at this
  omega

theorem nearest_nonneg {q : ℚ} (h : 0 ≤ q) : 0 ≤ nearest q := by
  have hround : 0 ≤ roundHalfEven (q / 2 ^ exponent q) :=
    le_roundHalfEven (by push_cast; exact div_nonneg h (zpow_pos' _).le)
  exact mul_nonneg (by exact_mod_cast hround) (zpow_pos' _).le

theorem nearest_nonpos {q : ℚ} (h : q ≤ 0) : nearest q ≤ 0 := by
  have hround : roundHalfEven (q / 2 ^ exponent q) ≤ 0 :=
    roundHalfEven_le (by
      push_cast
      exact div_nonpos_of_nonpos_of_nonneg h (zpow_pos' _).le)
  exact mul_nonpos_of_nonpos_of_nonneg (by exact_mod_cast hround) (zpow_pos' _).le

theorem zpow_le_nearest {q : ℚ} {k : ℤ} (hk : -1022 ≤ k) (h : 2 ^ k ≤ q) : 2 ^ k ≤ nearest q := by
  have hq : 0 < q := (zpow_pos' k).trans_le h
  have hlog := le_log hq h
  have hexp : exponent q = Int.log 2 q - 52 := by
    rw [exponent, abs_of_pos hq]
    omega
  have hround : 2 ^ 52 ≤ roundHalfEven (q / 2 ^ exponent q) := by
    have hpow : ((2 ^ 52 : ℤ) : ℚ) = 2 ^ (52 : ℤ) := by norm_num
    refine le_roundHalfEven ?_
    rw [le_div_iff₀ (zpow_pos' _), hexp, hpow, ← zpow_add₀ (by norm_num), add_sub_cancel]
    exact_mod_cast Int.zpow_log_le_self (b := 2) (by norm_num) hq
  calc (2 : ℚ) ^ k ≤ 2 ^ (52 + exponent q) := zpow_le_zpow_right₀ (by norm_num) (by omega)
    _ = 2 ^ 52 * 2 ^ exponent q := by rw [zpow_add₀ (by norm_num)]; norm_num
    _ ≤ nearest q := mul_le_mul_of_nonneg_right (by exact_mod_cast hround) (zpow_pos' _).le

/-- **Underflow.**  Half of the least double is rounded to zero, and what is more is not. -/
theorem nearest_eq_zero_iff {q : ℚ} (h : 0 ≤ q) : nearest q = 0 ↔ q ≤ 2 ^ (-1075 : ℤ) := by
  rcases h.eq_or_lt with rfl | hpos
  · exact iff_of_true nearest_zero (zpow_pos' _).le
  rw [nearest, mul_eq_zero, or_iff_left (zpow_pos' _).ne', Int.cast_eq_zero,
    roundHalfEven_eq_zero_iff (div_nonneg h (zpow_pos' _).le), div_le_iff₀ (zpow_pos' _)]
  rcases le_or_gt (Int.log 2 q - 52) (-1074) with hlog | hlog
  · have hhalf : 1 / 2 * 2 ^ exponent q = (2 : ℚ) ^ (-1075 : ℤ) := by
      rw [exponent, abs_of_pos hpos, max_eq_right hlog, show (-1075 : ℤ) = -1 + -1074 by norm_num,
        zpow_add₀ (by norm_num)]
      norm_num
    rw [hhalf]
  · -- a number with all of its digits is far from zero
    have hle : (2 : ℚ) ^ Int.log 2 q ≤ q := by
      exact_mod_cast Int.zpow_log_le_self (b := 2) (by norm_num) hpos
    have hdigits : 1 / 2 * 2 ^ exponent q < q := by
      rw [exponent, abs_of_pos hpos, max_eq_left hlog.le]
      have hlt : (2 : ℚ) ^ (Int.log 2 q - 52) ≤ 2 ^ Int.log 2 q :=
        zpow_le_zpow_right₀ (by norm_num) (by omega)
      have := zpow_pos' (Int.log 2 q)
      linarith
    have hlarge : (2 : ℚ) ^ (-1075 : ℤ) < q :=
      (zpow_lt_zpow_right₀ (by norm_num) (by omega)).trans_le hle
    exact iff_of_false hdigits.not_ge hlarge.not_ge

theorem zpow_le_of_nearest_pos {q : ℚ} (h : 0 < nearest q) : 2 ^ (-1074 : ℤ) ≤ nearest q := by
  obtain ⟨m, e, heq, -, he⟩ := exists_nearest_eq q
  rw [heq] at h ⊢
  have hm : (1 : ℚ) ≤ m := by
    have : 0 < m := by exact_mod_cast pos_of_mul_pos_left h (zpow_pos' e).le
    exact_mod_cast this
  calc (2 : ℚ) ^ (-1074 : ℤ) ≤ 2 ^ e := zpow_le_zpow_right₀ (by norm_num) he
    _ ≤ m * 2 ^ e := le_mul_of_one_le_left (zpow_pos' e).le hm

theorem exponent_le_exponent {q r : ℚ} (hq : 0 < q) (h : q ≤ r) : exponent q ≤ exponent r := by
  rw [exponent, exponent, abs_of_pos hq, abs_of_pos (hq.trans_le h)]
  exact max_le_max_right _ (sub_le_sub_right (Int.log_mono_right hq h) _)

/-- Rounding does not go past a double. -/
theorem nearest_le {q r : ℚ} (hq : 0 < q) (h : q ≤ r) (hr : nearest r = r) : nearest q ≤ r := by
  have hexp := exponent_le_exponent hq h
  -- the double is a multiple of the last digit of the number
  have hint : r / 2 ^ exponent q =
      ((roundHalfEven (r / 2 ^ exponent r) * 2 ^ (exponent r - exponent q).toNat : ℤ) : ℚ) := by
    push_cast
    rw [← zpow_natCast, Int.toNat_of_nonneg (by omega), zpow_sub₀ (by norm_num), ← mul_div_assoc]
    exact congrArg (· / _) hr.symm
  have hround : (roundHalfEven (q / 2 ^ exponent q) : ℚ) ≤ r / 2 ^ exponent q := by
    have hle : q / 2 ^ exponent q ≤ r / 2 ^ exponent q :=
      div_le_div_of_nonneg_right h (zpow_pos' _).le
    rw [hint] at hle ⊢
    exact_mod_cast roundHalfEven_le hle
  calc nearest q ≤ r / 2 ^ exponent q * 2 ^ exponent q :=
        mul_le_mul_of_nonneg_right hround (zpow_pos' _).le
    _ = r := div_mul_cancel₀ _ (zpow_pos' _).ne'

theorem nearest_le_add (q : ℚ) : nearest q ≤ q + 2 ^ exponent q := by
  have hround : (roundHalfEven (q / 2 ^ exponent q) : ℚ) ≤ q / 2 ^ exponent q + 1 := by
    have hle : (roundHalfEven (q / 2 ^ exponent q) : ℚ) ≤ ⌊q / 2 ^ exponent q⌋ + 1 := by
      exact_mod_cast (floor_le_roundHalfEven _).2
    have hfloor : (⌊q / 2 ^ exponent q⌋ : ℚ) ≤ q / 2 ^ exponent q := Int.floor_le _
    linarith
  calc nearest q ≤ (q / 2 ^ exponent q + 1) * 2 ^ exponent q :=
        mul_le_mul_of_nonneg_right hround (zpow_pos' _).le
    _ = q + 2 ^ exponent q := by
        rw [add_mul, div_mul_cancel₀ _ (zpow_pos' _).ne', one_mul]

end Double

end Py

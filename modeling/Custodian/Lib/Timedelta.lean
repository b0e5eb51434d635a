import Custodian.Lib.Double
import Custodian.Lib.Except
import Mathlib.Algebra.BigOperators.Group.List.Basic

/-!
# Durations of the language

A `timedelta` is a number of microseconds.  Its arguments are integers and doubles with a factor for
each unit: integer parts are multiplied exactly, and fractions of doubles as doubles.
-/

namespace Py.Timedelta

open Clock Double

/-! ## The arguments -/

/-- A number: an integer, or a double that may be infinite. -/
inductive Number where
  | int (n : Int)
  | float (x : Option ℚ)

def overflowError : Exn := .raised "OverflowError".toList

/-- The integer part of `modf`. -/
def trunc (q : ℚ) : Int := if 0 ≤ q then ⌊q⌋ else ⌈q⌉

/-- One argument: the microseconds so far, and the fraction of one that is left over. -/
def accum (factor : Int) (sofar : Int × ℚ) : Number → Except Exn (Int × ℚ)
  | .int n => .ok (sofar.1 + n * factor, sofar.2)
  | .float none => .error overflowError
  | .float (some x) =>
    let sum := sofar.1 + trunc x * factor
    let frac := x - trunc x
    if frac = 0 then .ok (sum, sofar.2)
    else
      let d := nearest (factor * frac)
      .ok (sum + trunc d, nearest (sofar.2 + (d - trunc d)))

/-- `round` of the C library: halves away from zero. -/
def roundAway (q : ℚ) : Int := if 0 ≤ q then ⌊q + 1 / 2⌋ else ⌈q - 1 / 2⌉

/-- What is left over is rounded, halves so that the sum is even. -/
def settle (x : Int) (leftover : ℚ) : Int :=
  if leftover = 0 then x
  else
    let whole := roundAway leftover
    if |(whole : ℚ) - leftover| = 1 / 2 then
      let odd := x % 2
      x + (2 * roundAway ((leftover + odd) * (1 / 2)) - odd)
    else x + whole

/-- A `timedelta` of so many microseconds has at most 999999999 days. -/
def ofMicroseconds (x : Int) : Except Exn Int :=
  if |x / day| ≤ 999999999 then .ok x else .error overflowError

/-- `timedelta(..)`: the factors of the units with their arguments, in the order of the units. -/
def timedelta (args : List (Int × Number)) : Except Exn Int := do
  let (x, leftover) ← args.foldlM (fun sofar a => accum a.1 sofar a.2) (0, 0)
  ofMicroseconds (settle x leftover)

/-! ## What they add up to -/

/-- The microseconds of a finite argument. -/
def product (factor : Int) (x : ℚ) : ℚ := trunc x * factor + nearest (factor * (x - trunc x))

/-- A finite argument as a number. -/
def Number.finite : Number → Option ℚ
  | .int n => some n
  | .float x => x

def Whole (x : ℚ) : Prop := x = ⌊x⌋

theorem trunc_of_nonneg {q : ℚ} (h : 0 ≤ q) : trunc q = ⌊q⌋ := if_pos h

theorem trunc_intCast (n : Int) : trunc n = n := by
  rw [trunc]
  split <;> simp

/-- A fraction of a double is a double. -/
theorem nearest_fract {q : ℚ} (h : 0 ≤ q) :
    nearest (nearest q - ⌊nearest q⌋) = nearest q - ⌊nearest q⌋ := by
  obtain ⟨m, e, heq, hm, he⟩ := exists_nearest_eq q
  have hpos : 0 ≤ (m : ℚ) * 2 ^ e := heq ▸ nearest_nonneg h
  have hm0 : 0 ≤ m := by
    exact_mod_cast nonneg_of_mul_nonneg_left hpos (zpow_pos' e)
  rw [heq]
  rcases le_or_gt 0 e with hexp | hexp
  · have hint : (m * 2 ^ e : ℚ) = ((m * 2 ^ e.toNat : ℤ) : ℚ) := by
      push_cast
      rw [← zpow_natCast, Int.toNat_of_nonneg hexp]
    rw [hint, Int.floor_intCast, sub_self, nearest_zero]
  · -- the fraction has the digits of the double after the point
    have hfract : (m * 2 ^ e : ℚ) - ⌊(m * 2 ^ e : ℚ)⌋ =
        ((m - ⌊(m * 2 ^ e : ℚ)⌋ * 2 ^ (-e).toNat : ℤ) : ℚ) * 2 ^ e := by
      push_cast
      rw [← zpow_natCast, Int.toNat_of_nonneg (by omega), sub_mul, mul_assoc,
        ← zpow_add₀ (by norm_num), neg_add_cancel, zpow_zero, mul_one]
    have hfloor := Int.fract_nonneg (m * 2 ^ e : ℚ)
    rw [Int.fract, hfract] at hfloor
    have hdigits : 0 ≤ m - ⌊(m * 2 ^ e : ℚ)⌋ * 2 ^ (-e).toNat := by
      exact_mod_cast nonneg_of_mul_nonneg_left hfloor (zpow_pos' e)
    have hle : m - ⌊(m * 2 ^ e : ℚ)⌋ * 2 ^ (-e).toNat ≤ m := by
      have : 0 ≤ ⌊(m * 2 ^ e : ℚ)⌋ * 2 ^ (-e).toNat :=
        mul_nonneg (Int.floor_nonneg.mpr hpos) (by positivity)
      omega
    rw [hfract]
    refine nearest_eq_self ?_ he
    rw [abs_of_nonneg hdigits]
    rw [abs_of_nonneg hm0] at hm
    exact hle.trans hm

theorem product_intCast (factor n : Int) : product factor n = n * factor := by
  rw [product, trunc_intCast, sub_self, mul_zero, nearest_zero, add_zero]

theorem product_nonneg {factor : Int} (hf : 0 ≤ factor) {x : ℚ} (hx : 0 ≤ x) :
    0 ≤ product factor x := by
  rw [product, trunc_of_nonneg hx]
  have hfloor : (0 : ℚ) ≤ ⌊x⌋ := by exact_mod_cast Int.floor_nonneg.mpr hx
  have hfactor : (0 : ℚ) ≤ factor := by exact_mod_cast hf
  have hfract : 0 ≤ x - ⌊x⌋ := Int.fract_nonneg x
  exact add_nonneg (mul_nonneg hfloor hfactor) (nearest_nonneg (mul_nonneg hfactor hfract))

theorem floor_mul_le_product {factor : Int} (hf : 0 ≤ factor) {x : ℚ} (hx : 0 ≤ x) :
    (⌊x⌋ : ℚ) * factor ≤ product factor x := by
  rw [product, trunc_of_nonneg hx]
  have hfract : 0 ≤ x - ⌊x⌋ := Int.fract_nonneg x
  have hfactor : (0 : ℚ) ≤ factor := by exact_mod_cast hf
  exact le_add_of_nonneg_right (nearest_nonneg (mul_nonneg hfactor hfract))

/-- And no more than those of the next integer. -/
theorem product_le {factor : Int} (hf : 0 < factor) (hdouble : |factor| ≤ 2 ^ 53) {x : ℚ}
    (hx : 0 ≤ x) {n : Int} (h : x ≤ n) : product factor x ≤ n * factor := by
  have hfactor : (0 : ℚ) < factor := by exact_mod_cast hf
  have hsplit : (⌊x⌋ : ℚ) + Int.fract x = x := Int.floor_add_fract x
  rcases (Int.fract_nonneg x).eq_or_lt with hzero | hpos
  · have hint : x = ⌊x⌋ := by linarith
    rw [hint, product_intCast]
    exact mul_le_mul_of_nonneg_right (hint ▸ h) hfactor.le
  · have hfloor : (⌊x⌋ : ℚ) + 1 ≤ n := by
      have hlt : (⌊x⌋ : ℚ) < n := by linarith
      exact_mod_cast Int.add_one_le_of_lt (by exact_mod_cast hlt)
    have hle : (factor : ℚ) * Int.fract x ≤ factor :=
      mul_le_of_le_one_right hfactor.le (Int.fract_lt_one x).le
    have hnear := nearest_le (mul_pos hfactor hpos) hle (nearest_intCast hdouble)
    rw [product, trunc_of_nonneg hx]
    calc (⌊x⌋ : ℚ) * factor + nearest (factor * Int.fract x) ≤ (⌊x⌋ + 1) * factor := by linarith
      _ ≤ n * factor := mul_le_mul_of_nonneg_right hfloor hfactor.le

/-- One argument adds its microseconds; a fraction is left over if there is none yet. -/
theorem accum_eq {factor : Int} (hf : 0 ≤ factor) {a : Number} {x : ℚ} (ha : a.finite = some x)
    (hx : 0 ≤ x) {n : Int} {leftover : ℚ} (hleft : 0 ≤ leftover ∧ leftover < 1)
    (hone : leftover = 0 ∨ Whole x) :
    ∃ n' leftover', accum factor (n, leftover) a = .ok (n', leftover') ∧
      n' + leftover' = n + leftover + product factor x ∧ 0 ≤ leftover' ∧ leftover' < 1 ∧
      (Whole x → leftover' = leftover) := by
  cases a with
  | int k =>
    obtain rfl : (k : ℚ) = x := Option.some.inj ha
    refine ⟨n + k * factor, leftover, rfl, ?_, hleft.1, hleft.2, fun _ => rfl⟩
    rw [product_intCast]
    push_cast
    ring
  | float y =>
    obtain rfl : y = some x := ha
    simp only [accum, trunc_of_nonneg hx]
    by_cases hint : Whole x
    · rw [if_pos (sub_eq_zero.mpr hint)]
      refine ⟨_, _, rfl, ?_, hleft.1, hleft.2, fun _ => rfl⟩
      rw [show x = ⌊x⌋ from hint, Int.floor_intCast, product_intCast]
      push_cast
      ring
    · have hzero : leftover = 0 := hone.resolve_right hint
      have hfract : 0 ≤ (factor : ℚ) * (x - ⌊x⌋) :=
        mul_nonneg (by exact_mod_cast hf) (Int.fract_nonneg x)
      rw [if_neg (sub_ne_zero.mpr hint), trunc_of_nonneg (nearest_nonneg hfract), hzero, zero_add,
        nearest_fract hfract]
      refine ⟨_, _, rfl, ?_, Int.fract_nonneg _, Int.fract_lt_one _, fun h => absurd h hint⟩
      rw [product, trunc_of_nonneg hx]
      push_cast
      ring

/-- At most one of the arguments is not a whole number. -/
def OneFraction (xs : List (Int × ℚ)) : Prop := xs.Pairwise fun a b => Whole a.2 ∨ Whole b.2

/-- The arguments are finite, and these numbers. -/
def HasValues (args : List (Int × Number)) (xs : List (Int × ℚ)) : Prop :=
  List.Forall₂ (fun a x => a.1 = x.1 ∧ a.2.finite = some x.2) args xs

/-- **Sums.**  The arguments are added up exactly, but for a fraction of a microsecond. -/
theorem foldlM_accum {args : List (Int × Number)} {xs : List (Int × ℚ)} (h : HasValues args xs)
    (hpos : ∀ x ∈ xs, 0 ≤ x.1 ∧ 0 ≤ x.2) (hone : OneFraction xs) {n : Int} {leftover : ℚ}
    (hleft : 0 ≤ leftover ∧ leftover < 1) (hrest : leftover = 0 ∨ ∀ x ∈ xs, Whole x.2) :
    ∃ n' leftover', args.foldlM (fun sofar a => accum a.1 sofar a.2) (n, leftover) =
        .ok (n', leftover') ∧ 0 ≤ leftover' ∧ leftover' < 1 ∧
      n' + leftover' = n + leftover + (xs.map fun x => product x.1 x.2).sum := by
  induction h generalizing n leftover with
  | nil => exact ⟨n, leftover, rfl, hleft.1, hleft.2, by simp⟩
  | @cons a x args xs hax _ ih =>
    rw [List.forall_mem_cons] at hpos hrest
    rw [OneFraction, List.pairwise_cons] at hone
    obtain ⟨n₁, l₁, hstep, hsum, hl₁, hl₁', hsame⟩ := accum_eq hpos.1.1 hax.2 hpos.1.2 (n := n) hleft
      (hrest.imp_right And.left)
    have hrest₁ : l₁ = 0 ∨ ∀ x ∈ xs, Whole x.2 := by
      by_cases hint : Whole x.2
      · rw [hsame hint]
        exact hrest.imp_right And.right
      · exact .inr fun y hy => (hone.1 y hy).resolve_left hint
    obtain ⟨n₂, l₂, hfold, hl₂, hl₂', hsum₂⟩ := ih hpos.2 hone.2 ⟨hl₁, hl₁'⟩ hrest₁
    refine ⟨n₂, l₂, ?_, hl₂, hl₂', ?_⟩
    · rw [List.foldlM_cons, hax.1, hstep]
      exact hfold
    · rw [hsum₂, hsum, List.map_cons, List.sum_cons]
      ring

/-! ## Rounding -/

theorem roundAway_eq {q : ℚ} {n : Int} (h : 0 ≤ q) (hlow : n - 1 / 2 ≤ q) (hhigh : q < n + 1 / 2) :
    roundAway q = n := by
  rw [roundAway, if_pos h, Int.floor_eq_iff]
  constructor <;> linarith

/-- What is left over is rounded with the rest, so that halves come to the even sum. -/
theorem settle_eq {x : Int} {leftover : ℚ} (h : 0 ≤ leftover) (h' : leftover < 1) :
    settle x leftover = roundHalfEven (x + leftover) := by
  have hfloor : (x + leftover : ℚ).floor = x := by
    have : ⌊(x + leftover : ℚ)⌋ = x := by
      rw [Int.floor_eq_iff]
      constructor <;> linarith
    exact this
  rw [roundHalfEven, hfloor, settle, add_sub_cancel_left]
  rcases lt_trichotomy leftover (1 / 2) with hlt | rfl | hgt
  · have hwhole : roundAway leftover = 0 :=
      roundAway_eq h (by push_cast; linarith) (by push_cast; linarith)
    have hne : |((0 : Int) : ℚ) - leftover| ≠ 1 / 2 := by
      rw [Int.cast_zero, zero_sub, abs_neg, abs_of_nonneg h]
      exact hlt.ne
    rw [hwhole, if_neg hne, if_pos hlt, add_zero, ite_self]
  · have hwhole : roundAway (1 / 2) = 1 := roundAway_eq h (by norm_num) (by norm_num)
    rw [hwhole, if_neg (by norm_num), if_pos (by norm_num), if_neg (by norm_num),
      if_neg (by norm_num)]
    rcases Int.emod_two_eq_zero_or_one x with hx | hx
    · have hround : roundAway ((1 / 2 + ((0 : Int) : ℚ)) * (1 / 2)) = 0 :=
        roundAway_eq (by norm_num) (by norm_num) (by norm_num)
      simp only [hx, hround]
      norm_num
    · have hround : roundAway ((1 / 2 + ((1 : Int) : ℚ)) * (1 / 2)) = 1 :=
        roundAway_eq (by norm_num) (by norm_num) (by norm_num)
      simp only [hx, hround]
      norm_num
  · have hwhole : roundAway leftover = 1 :=
      roundAway_eq h (by push_cast; linarith) (by push_cast; linarith)
    have hne : |((1 : Int) : ℚ) - leftover| ≠ 1 / 2 := by
      rw [Int.cast_one, abs_of_pos (by linarith)]
      linarith
    rw [hwhole, if_neg (by linarith), if_neg hne, if_neg hgt.not_gt, if_pos hgt]

/-- **Durations.**  Arguments of which at most one is not a whole number are rounded once. -/
theorem timedelta_eq {args : List (Int × Number)} {xs : List (Int × ℚ)} (h : HasValues args xs)
    (hpos : ∀ x ∈ xs, 0 ≤ x.1 ∧ 0 ≤ x.2) (hone : OneFraction xs) :
    timedelta args =
      ofMicroseconds (roundHalfEven (xs.map fun x => product x.1 x.2).sum) := by
  obtain ⟨n, leftover, hfold, hleft, hleft', hsum⟩ := foldlM_accum h hpos hone (n := 0)
    ⟨le_refl 0, one_pos⟩ (.inl rfl)
  rw [Int.cast_zero, zero_add, zero_add] at hsum
  rw [timedelta, hfold, ok_bind, ← hsum]
  exact congrArg ofMicroseconds (settle_eq hleft hleft')

theorem accum_eq_error {factor : Int} {sofar : Int × ℚ} {a : Number} {e : Exn} :
    accum factor sofar a = .error e ↔ a.finite = none ∧ e = overflowError := by
  cases a with
  | int n => simp [accum, Number.finite]
  | float x =>
    cases x with
    | none => simp [accum, Number.finite, eq_comm]
    | some x =>
      simp only [accum, Number.finite, reduceCtorEq, false_and, iff_false]
      split <;> simp

/-- An infinite argument is too large. -/
theorem timedelta_of_infinite {args : List (Int × Number)} (h : ∃ a ∈ args, a.2.finite = none) :
    timedelta args = .error overflowError := by
  have hfold : ∀ sofar : Int × ℚ,
      args.foldlM (fun sofar a => accum a.1 sofar a.2) sofar = .error overflowError := by
    induction args with
    | nil => obtain ⟨a, ha, -⟩ := h; cases ha
    | cons a args ih =>
      intro sofar
      rw [List.foldlM_cons, bind_eq_error]
      cases hstep : accum a.1 sofar a.2 with
      | error e => exact .inl (by rw [(accum_eq_error.mp hstep).2])
      | ok next =>
        refine .inr ⟨next, rfl, ih ?_ next⟩
        obtain ⟨b, hb, hnone⟩ := h
        rcases List.mem_cons.mp hb with rfl | hb
        · rw [accum_eq_error.mpr ⟨hnone, rfl⟩] at hstep
          cases hstep
        · exact ⟨b, hb, hnone⟩
  rw [timedelta, hfold]
  rfl

/-! ## Seconds -/

/-- `int(..)` -/
def Number.toInt : Number → Except Exn Int
  | .int n => .ok n
  | .float (some x) => .ok (trunc x)
  | .float none => .error overflowError

/-- `total_seconds()` -/
def totalSeconds (us : Int) : Number := .float (some (nearest (us / 1000000)))

theorem trunc_pos {q : ℚ} : 0 < trunc q ↔ 1 ≤ q := by
  rw [trunc]
  split
  · rw [Int.floor_pos]
  · rename_i hneg
    have hceil : ⌈q⌉ ≤ 0 := Int.ceil_le.mpr (by push_cast; linarith)
    exact iff_of_false (by omega) (by linarith)

/-- **Whole seconds.**  There is one as soon as there are the microseconds of one. -/
theorem exists_toInt_totalSeconds (us : Int) :
    ∃ n, (totalSeconds us).toInt = .ok n ∧ (0 < n ↔ 1000000 ≤ us) := by
  refine ⟨_, rfl, trunc_pos.trans ⟨fun h => ?_, fun h => ?_⟩⟩
  · by_contra! hlt
    have hq : (us / 1000000 : ℚ) ≤ 999999 / 1000000 :=
      div_le_div_of_nonneg_right (by exact_mod_cast (by omega : us ≤ 999999)) (by norm_num)
    rcases le_or_gt us 0 with hneg | hpos
    · have hzero : (us / 1000000 : ℚ) ≤ 0 :=
        div_nonpos_of_nonpos_of_nonneg (by exact_mod_cast hneg) (by norm_num)
      have := nearest_nonpos hzero
      linarith
    · -- the last digit of a number below one is far below a microsecond
      have hq0 : (0 : ℚ) < us / 1000000 := div_pos (by exact_mod_cast hpos) (by norm_num)
      have hexp : exponent (us / 1000000) ≤ -53 := by
        have hlog : Int.log 2 (us / 1000000 : ℚ) < 0 :=
          log_lt hq0 (hq.trans_lt (by norm_num))
        rw [exponent, abs_of_pos hq0]
        omega
      have hulp : (2 : ℚ) ^ exponent (us / 1000000) ≤ 2 ^ (-53 : ℤ) :=
        zpow_le_zpow_right₀ (by norm_num) hexp
      have hsmall : (2 : ℚ) ^ (-53 : ℤ) < 1 / 1000000 := by norm_num
      have := nearest_le_add (us / 1000000)
      linarith
  · have hq : (2 : ℚ) ^ (0 : ℤ) ≤ us / 1000000 := by
      rw [zpow_zero, one_le_div (by norm_num)]
      exact_mod_cast h
    simpa using zpow_le_nearest (by norm_num) hq

end Py.Timedelta

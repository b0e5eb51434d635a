import Custodian.Lib.Except
import Custodian.Lib.Split
import Mathlib.Data.Nat.Digits.Defs

/-!
# Texts of digits and the numbers they stand for

`str.isdigit` takes more than decimal digits, and `int` takes no more than
4300 of them.
-/

namespace Py

/-- `s.isdigit()` -/
def isdigit (s : Text) : Bool := s ≠ [] && s.all isDigitLike

/-- The most digits that `int` reads. -/
def maxStrDigits : Nat := 4300

/-- `int(s)` for a text of digits -/
def int (s : Text) : Except Exn Nat :=
  let invalid := Exn.raised "ValueError".toList
  if s = [] ∨ maxStrDigits < s.length then .error invalid
  else (s.mapM digitValue).elim (.error invalid) fun ds => .ok (Nat.ofDigits 10 ds.reverse)

/-- A decimal numeral, in the digits of any script, stands for `n`. -/
def IsNumeral (s : Text) (n : Nat) : Prop :=
  s ≠ [] ∧ ∃ ds, List.Forall₂ (fun c d => digitValue c = some d) s ds ∧
    n = Nat.ofDigits 10 ds.reverse

theorem mapM_eq_some {α β : Type} {f : α → Option β} {xs : List α} {ys : List β} :
    xs.mapM f = some ys ↔ List.Forall₂ (fun x y => f x = some y) xs ys := by
  induction xs generalizing ys with
  | nil => cases ys <;> simp
  | cons x xs ih =>
    rw [List.mapM_cons, Option.bind_eq_bind, Option.bind_eq_some_iff]
    constructor
    · rintro ⟨y, hy, h⟩
      obtain ⟨ys', hys, h⟩ := Option.bind_eq_some_iff.mp h
      cases h
      exact .cons hy (ih.mp hys)
    · rintro (_ | ⟨hy, hys⟩)
      exact ⟨_, hy, Option.bind_eq_some_iff.mpr ⟨_, ih.mpr hys, rfl⟩⟩

theorem mapM_eq_none {α β : Type} {f : α → Option β} {xs : List α} :
    xs.mapM f = none ↔ ∃ x ∈ xs, f x = none := by
  induction xs with
  | nil => simp
  | cons x xs ih =>
    rw [List.mapM_cons, Option.bind_eq_bind, List.exists_mem_cons_iff, ← ih]
    cases f x with
    | none => simp
    | some y => cases hxs : xs.mapM f <;> simp [hxs]

/-- `int` reads the decimal numerals that are not too long. -/
theorem int_eq_ok {s : Text} {n : Nat} :
    int s = .ok n ↔ IsNumeral s n ∧ s.length ≤ maxStrDigits := by
  rw [int]
  constructor
  · intro h
    split at h
    · cases h
    · rename_i hs
      rw [not_or, Nat.not_lt] at hs
      cases hds : s.mapM digitValue with
      | none =>
        rw [hds] at h
        cases h
      | some ds =>
        rw [hds] at h
        cases h
        exact ⟨⟨hs.1, ds, mapM_eq_some.mp hds, rfl⟩, hs.2⟩
  · rintro ⟨⟨hne, ds, hds, rfl⟩, hlen⟩
    rw [if_neg (by rw [not_or, Nat.not_lt]; exact ⟨hne, hlen⟩), mapM_eq_some.mpr hds]
    rfl

theorem IsNumeral.unique {s : Text} {m n : Nat} (hm : IsNumeral s m) (hn : IsNumeral s n) :
    m = n := by
  obtain ⟨-, ds, hds, rfl⟩ := hm
  obtain ⟨-, es, hes, rfl⟩ := hn
  rw [← mapM_eq_some] at hds hes
  rw [hds, Option.some.injEq] at hes
  rw [hes]

theorem IsNumeral.isdigit {s : Text} {n : Nat} (h : IsNumeral s n) : isdigit s = true := by
  obtain ⟨hne, ds, hds, -⟩ := h
  simp only [Py.isdigit, Bool.and_eq_true, decide_eq_true_eq, List.all_eq_true]
  refine ⟨hne, fun c hc => ?_⟩
  obtain ⟨d, -, hd⟩ := exists_of_forall₂ hds hc
  simp [isDigitLike, isDigit, hd]

/-! ## Numbers that are written -/

theorem digitValue_digitChar : ∀ d < 10, digitValue (Nat.digitChar d) = some d := by decide +kernel

theorem IsNumeral.concat {s : Text} {n d : Nat} {c : Char} (h : IsNumeral s n)
    (hc : digitValue c = some d) : IsNumeral (s ++ [c]) (10 * n + d) := by
  obtain ⟨-, ds, hds, rfl⟩ := h
  refine ⟨by simp, ds ++ [d], List.rel_append hds (.cons hc .nil), ?_⟩
  rw [List.reverse_concat, Nat.ofDigits_cons, Nat.add_comm]

theorem isNumeral_toDigits (n : Nat) : IsNumeral (Nat.toDigits 10 n) n := by
  induction n using Nat.strongRecOn with
  | ind n ih =>
    by_cases hn : n < 10
    · rw [Nat.toDigits_of_lt_base hn]
      exact ⟨by simp, [n], .cons (digitValue_digitChar n hn) .nil, by simp⟩
    · have hlast : n % 10 < 10 := Nat.mod_lt _ (by decide)
      have hinit : n / 10 < n := by omega
      rw [Nat.toDigits_of_base_le (by decide) (by omega)]
      have hnumeral := (ih _ hinit).concat (digitValue_digitChar _ hlast)
      rwa [Nat.div_add_mod] at hnumeral

theorem int_toDigits {n : Nat} (h : (Nat.toDigits 10 n).length ≤ maxStrDigits) :
    int (Nat.toDigits 10 n) = .ok n := int_eq_ok.mpr ⟨isNumeral_toDigits n, h⟩

/-- A number without a sign, with single underscores between its digits. -/
def unsigned (s : Text) : Except Exn Nat :=
  if (s.splitOn '_').any List.isEmpty then .error (.raised "ValueError".toList)
  else int (s.splitOn '_').flatten

/-- `int(s)`, with white space around the number and a sign. -/
def intText (s : Text) : Except Exn Int :=
  match strip s with
  | [] => .error (.raised "ValueError".toList)
  | c :: s =>
    if c = '-' then (unsigned s).map fun n => -(n : Int)
    else if c = '+' then (unsigned s).map Int.ofNat
    else (unsigned (c :: s)).map Int.ofNat

theorem unsigned_toDigits {n : Nat} (h : (Nat.toDigits 10 n).length ≤ maxStrDigits) :
    unsigned (Nat.toDigits 10 n) = .ok n := by
  have hne : (Nat.toDigits 10 n).isEmpty = false := by
    rw [List.isEmpty_eq_false_iff]
    exact Nat.toDigits_ne_nil
  rw [unsigned, splitOn_of_not_mem Nat.underscore_not_in_toDigits, List.any_cons, hne,
    List.flatten_singleton]
  exact int_toDigits h

theorem intText_toDigits {n : Nat} (h : (Nat.toDigits 10 n).length ≤ maxStrDigits) :
    intText (Nat.toDigits 10 n) = .ok n := by
  have hdigit : ∀ c ∈ Nat.toDigits 10 n, 48 ≤ c.toNat ∧ c.toNat ≤ 57 :=
    fun c hc => visible_of_isDigit (Nat.isDigit_of_mem_toDigits (by decide) (by decide) hc)
  have hspace : ∀ c ∈ Nat.toDigits 10 n, isSpace c = false := by
    intro c hc
    have hvisible := hdigit c hc
    exact isSpace_of_visible (by omega)
  have hstrip : strip (Nat.toDigits 10 n) = Nat.toDigits 10 n :=
    strip_of_edges ⟨fun c hc => hspace c (List.mem_of_mem_head? hc),
      fun c hc => hspace c (List.mem_of_getLast? hc)⟩
  have hunsigned := unsigned_toDigits h
  rw [intText, hstrip]
  obtain ⟨c, s, hs⟩ := List.exists_cons_of_ne_nil (Nat.toDigits_ne_nil (n := n) (b := 10))
  rw [hs] at hunsigned hdigit ⊢
  have hc := hdigit c List.mem_cons_self
  have hminus : c ≠ '-' := by
    rintro rfl
    exact absurd hc (by decide)
  have hplus : c ≠ '+' := by
    rintro rfl
    exact absurd hc (by decide)
  simp only [if_neg hminus, if_neg hplus, hunsigned]
  rfl

end Py

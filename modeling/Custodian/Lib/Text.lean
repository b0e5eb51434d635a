import Mathlib.Data.List.Basic

/-!
# Text and exceptions

A text is a list of characters, so that functions on it recurse over the list.
Lowercasing follows the language: every character has its own lowercase text,
except that a capital sigma becomes a final sigma where the table says so.
-/

namespace Py

abbrev Text := List Char

instance : Coe String Text := ⟨String.toList⟩

instance (priority := high) lawfulBEqText : LawfulBEq Text := inferInstance

/-- The exceptions a function can raise. -/
inductive Exn where
  | keyError
  | typeError
  | attributeError
  | recursionError
  | raised (name : Text)
  deriving DecidableEq, Repr

namespace Text

/-- `s.startswith(p)` -/
def startsWith (s p : Text) : Bool := p.isPrefixOf s

/-- `c in s` for a single character. -/
def hasChar (s : Text) (c : Char) : Bool := s.contains c

/-- `s.replace(a, b)` for single characters. -/
def replaceChar (s : Text) (a b : Char) : Text := s.map fun c => if c = a then b else c

end Text

/-! ## Characters of a text

What holds of the characters of a text is decided on them, not on all there are. -/

section Decidable

variable {p : Char → Prop} [DecidablePred p]

instance (priority := high) decidableForallMem (s : Text) : Decidable (∀ c ∈ s, p c) :=
  List.decidableBAll p s

instance (priority := high) decidableExistsMem (s : Text) : Decidable (∃ c ∈ s, p c) :=
  List.decidableBEx p s

instance (priority := high) decidableForallMemOption (o : Option Char) : Decidable (∀ c ∈ o, p c) :=
  Option.decidableForallMem o

instance (priority := high) decidableExistsMemOption (o : Option Char) : Decidable (∃ c ∈ o, p c) :=
  Option.decidableExistsMem o

end Decidable

/-! ## Lowercasing -/

/-- White space, as `str.isspace` and `\s` see it. -/
def isSpace (c : Char) : Bool :=
  (0x09 ≤ c.toNat && c.toNat ≤ 0x0d) || (0x1c ≤ c.toNat && c.toNat ≤ 0x20) || c.toNat == 0x85 ||
  c.toNat == 0xa0 || c.toNat == 0x1680 || (0x2000 ≤ c.toNat && c.toNat ≤ 0x200a) ||
  c.toNat == 0x2028 || c.toNat == 0x2029 || c.toNat == 0x202f || c.toNat == 0x205f ||
  c.toNat == 0x3000

/-- The digits zero of the decimal number systems; the nine others follow each. -/
def digitZeros : List Nat :=
  [0x30, 0x660, 0x6f0, 0x7c0, 0x966, 0x9e6, 0xa66, 0xae6, 0xb66, 0xbe6, 0xc66, 0xce6, 0xd66,
   0xde6, 0xe50, 0xed0, 0xf20, 0x1040, 0x1090, 0x17e0, 0x1810, 0x1946, 0x19d0, 0x1a80, 0x1a90,
   0x1b50, 0x1bb0, 0x1c40, 0x1c50, 0xa620, 0xa8d0, 0xa900, 0xa9d0, 0xa9f0, 0xaa50, 0xabf0,
   0xff10, 0x104a0, 0x10d30, 0x11066, 0x110f0, 0x11136, 0x111d0, 0x112f0, 0x11450, 0x114d0,
   0x11650, 0x116c0, 0x11730, 0x118e0, 0x11950, 0x11c50, 0x11d50, 0x11da0, 0x16a60, 0x16ac0,
   0x16b50, 0x1d7ce, 0x1d7d8, 0x1d7e2, 0x1d7ec, 0x1d7f6, 0x1e140, 0x1e2f0, 0x1e950, 0x1fbf0]

/-- The value of a decimal digit. -/
def digitValue (c : Char) : Option Nat :=
  (digitZeros.find? fun z => z ≤ c.toNat && c.toNat ≤ z + 9).map fun z => c.toNat - z

/-- `\d` -/
def isDigit (c : Char) : Bool := (digitValue c).isSome

/-- The digits without a place value (superscripts, circled digits), as ranges. -/
def digitRanges : List (Nat × Nat) :=
  [(0xb2, 0xb3), (0xb9, 0xb9), (0x1369, 0x1371), (0x19da, 0x19da), (0x2070, 0x2070),
   (0x2074, 0x2079), (0x2080, 0x2089), (0x2460, 0x2468), (0x2474, 0x247c), (0x2488, 0x2490),
   (0x24ea, 0x24ea), (0x24f5, 0x24fd), (0x24ff, 0x24ff), (0x2776, 0x277e), (0x2780, 0x2788),
   (0x278a, 0x2792), (0x10a40, 0x10a43), (0x10e60, 0x10e68), (0x11052, 0x1105a),
   (0x1f100, 0x1f10a)]

/-- `c.isdigit()`, which also takes digits that have no place value. -/
def isDigitLike (c : Char) : Bool :=
  isDigit c || digitRanges.any fun r => r.1 ≤ c.toNat && c.toNat ≤ r.2

def isAsciiUpper (c : Char) : Bool := 65 ≤ c.toNat && c.toNat ≤ 90

def isAsciiLetter (c : Char) : Bool := isAsciiUpper c || (97 ≤ c.toNat && c.toNat ≤ 122)

/-- The lowercase of an ASCII letter; every other character is kept. -/
def asciiLower (c : Char) : Char := if isAsciiUpper c then Char.ofNat (c.toNat + 32) else c

/-- Characters that lowercasing keeps and never produces from another one:
white space, digits and ASCII characters other than letters. -/
def isInert (c : Char) : Bool := isSpace c || isDigit c || (c.toNat < 128 && !isAsciiLetter c)

/-- The lowercase text of every character and the contexts of a final sigma. -/
structure CaseTable where
  lowerChar : Char → Text
  finalSigma : Text → Text → Bool
  ne_nil : ∀ c, lowerChar c ≠ []
  inert : ∀ c, isInert c = true → lowerChar c = [c]
  not_inert : ∀ c, isInert c = false → ∀ d ∈ lowerChar c, isInert d = false
  ascii : ∀ c, c.toNat < 128 → lowerChar c = [asciiLower c]
  sigma : lowerChar 'σ' = ['σ'] ∧ lowerChar 'ς' = ['ς']
  fixed : ∀ c, ∀ d ∈ lowerChar c, d ≠ 'Σ' → lowerChar d = [d]
  no_sigma : ∀ c, c ≠ 'Σ' → 'Σ' ∉ lowerChar c

namespace CaseTable

/-- Lowercase a text that is preceded by `before`. -/
def lowerFrom (t : CaseTable) (before : Text) : Text → Text
  | [] => []
  | c :: s =>
    (if c = 'Σ' then (if t.finalSigma before s then ['ς'] else ['σ']) else t.lowerChar c) ++
      t.lowerFrom (before ++ [c]) s

/-- `s.lower()` -/
def lower (t : CaseTable) (s : Text) : Text := t.lowerFrom [] s

theorem sigma_not_inert : isInert 'Σ' = false := by decide

/-- Lowercasing keeps the inert characters. -/
theorem mem_lower (t : CaseTable) {c : Char} (hc : isInert c = true) {s : Text} (h : c ∈ s) :
    c ∈ t.lower s := by
  have hfrom : ∀ before, c ∈ t.lowerFrom before s := by
    induction s with
    | nil => cases h
    | cons d s ih =>
      intro before
      rw [lowerFrom, List.mem_append]
      rcases List.mem_cons.mp h with rfl | h
      · have hs : c ≠ 'Σ' := by
          rintro rfl
          rw [sigma_not_inert] at hc
          cases hc
        exact Or.inl (by rw [if_neg hs, t.inert c hc, List.mem_singleton])
      · exact Or.inr (ih h _)
  exact hfrom []

end CaseTable

/-! ## Lowercasing of ASCII letters only -/

theorem forall_asciiUpper {p : Char → Prop} (h : ∀ n ∈ List.range 26, p (Char.ofNat (65 + n)))
    (c : Char) (hc : isAsciiUpper c = true) : p c := by
  simp only [isAsciiUpper, Bool.and_eq_true, decide_eq_true_eq] at hc
  have := h (c.toNat - 65) (by rw [List.mem_range]; omega)
  rwa [show 65 + (c.toNat - 65) = c.toNat by omega, Char.ofNat_toNat] at this

theorem asciiLower_upper (c : Char) (hc : isAsciiUpper c = true) :
    isInert c = false ∧ isInert (asciiLower c) = false ∧
      isAsciiUpper (asciiLower c) = false ∧ asciiLower c ≠ 'Σ' :=
  forall_asciiUpper (p := fun c => isInert c = false ∧ isInert (asciiLower c) = false ∧
    isAsciiUpper (asciiLower c) = false ∧ asciiLower c ≠ 'Σ') (by decide) c hc

theorem asciiLower_other {c : Char} (hc : isAsciiUpper c = false) : asciiLower c = c := by
  simp [asciiLower, hc]

theorem isAsciiUpper_asciiLower (c : Char) : isAsciiUpper (asciiLower c) = false := by
  cases hc : isAsciiUpper c
  · rw [asciiLower_other hc, hc]
  · exact (asciiLower_upper c hc).2.2.1

def asciiTable : CaseTable where
  lowerChar c := [asciiLower c]
  finalSigma _ _ := false
  ne_nil _ := by simp
  inert c h := by
    cases hc : isAsciiUpper c
    · rw [asciiLower_other hc]
    · rw [(asciiLower_upper c hc).1] at h
      cases h
  not_inert c h d hd := by
    rw [List.mem_singleton.mp hd]
    cases hc : isAsciiUpper c
    · rwa [asciiLower_other hc]
    · exact (asciiLower_upper c hc).2.1
  ascii _ _ := rfl
  sigma := by decide
  fixed c d hd _ := by
    rw [List.mem_singleton.mp hd, asciiLower_other (isAsciiUpper_asciiLower c)]
  no_sigma c h hd := by
    cases hc : isAsciiUpper c
    · rw [asciiLower_other hc] at hd
      exact h (List.mem_singleton.mp hd).symm
    · exact (asciiLower_upper c hc).2.2.2 (List.mem_singleton.mp hd).symm

end Py

import Custodian.Lib.Text
import Mathlib.Data.List.TakeWhile

/-!
# Splitting a text at a character, and stripping white space
-/

namespace Py

/-- `s.split(c, n)` -/
def splitMax (c : Char) : Nat → Text → List Text
  | 0, s => [s]
  | n + 1, s =>
    if c ∈ s then s.takeWhile (· ≠ c) :: splitMax c n (s.dropWhile (· ≠ c)).tail else [s]

variable {c : Char}

theorem splitMax_of_not_mem {s : Text} (h : c ∉ s) (n : Nat) : splitMax c n s = [s] := by
  cases n with
  | zero => rfl
  | succ n => rw [splitMax, if_neg h]

theorem forall_ne_of_not_mem {a : Text} (h : c ∉ a) : ∀ x ∈ a, (decide (x ≠ c)) = true := by
  intro x hx
  rw [decide_eq_true_eq]
  rintro rfl
  exact h hx

theorem splitMax_append {a : Text} (h : c ∉ a) (b : Text) (n : Nat) :
    splitMax c (n + 1) (a ++ c :: b) = a :: splitMax c n b := by
  rw [splitMax, if_pos (by simp), List.takeWhile_append_of_pos (forall_ne_of_not_mem h),
    List.dropWhile_append_of_pos (forall_ne_of_not_mem h)]
  simp

theorem splitMax_ne_nil (s : Text) (n : Nat) : splitMax c n s ≠ [] := by
  cases n with
  | zero => simp [splitMax]
  | succ n =>
    rw [splitMax]
    split <;> simp

/-! ## All separators

`s.split(c)` is `s.splitOn c`. -/

theorem not_mem_of_mem_splitOn {s p : Text} (h : p ∈ s.splitOn c) : c ∉ p := by
  induction s generalizing p with
  | nil =>
    rw [List.splitOn_nil, List.mem_singleton] at h
    simp [h]
  | cons x s ih =>
    rw [List.splitOn_cons_eq_if_modifyHead] at h
    obtain ⟨first, rest, hs⟩ := List.exists_cons_of_ne_nil (List.splitOn_ne_nil c s)
    rw [hs] at h ih
    split at h
    · rcases List.mem_cons.mp h with rfl | h
      · simp
      · exact ih h
    · rename_i hx
      rcases List.mem_cons.mp h with rfl | h
      · rw [List.mem_cons, not_or]
        exact ⟨fun hc => hx (by rw [hc, beq_self_eq_true]), ih (List.mem_cons_self ..)⟩
      · exact ih (List.mem_cons_of_mem _ h)

theorem forall_not_mem_splitOn {d : Char} {s : Text} (h : d ∉ s) : ∀ p ∈ s.splitOn c, d ∉ p := by
  induction s with
  | nil =>
    intro p hp
    rw [List.splitOn_nil, List.mem_singleton] at hp
    simp [hp]
  | cons x s ih =>
    rw [List.mem_cons, not_or] at h
    have ih := ih h.2
    obtain ⟨first, rest, hs⟩ := List.exists_cons_of_ne_nil (List.splitOn_ne_nil c s)
    rw [List.splitOn_cons_eq_if_modifyHead]
    rw [hs] at ih ⊢
    split
    · rw [List.forall_mem_cons]
      exact ⟨by simp, ih⟩
    · rw [List.forall_mem_cons] at ih
      rw [List.modifyHead_cons, List.forall_mem_cons, List.mem_cons, not_or]
      exact ⟨⟨h.1, ih.1⟩, ih.2⟩

theorem splitOn_append_of_not_mem {a : Text} (h : c ∉ a) (s : Text) :
    (a ++ s).splitOn c = (s.splitOn c).modifyHead (a ++ ·) := by
  obtain ⟨first, rest, hs⟩ := List.exists_cons_of_ne_nil (List.splitOn_ne_nil c s)
  induction a with
  | nil => simp [hs]
  | cons x a ih =>
    rw [List.mem_cons, not_or] at h
    have hx : (x == c) = false := beq_eq_false_iff_ne.mpr (Ne.symm h.1)
    rw [List.cons_append, List.splitOn_cons_eq_if_modifyHead, ih h.2, hx, hs]
    rfl

theorem splitOn_of_not_mem {s : Text} (h : c ∉ s) : s.splitOn c = [s] := by
  have hs := splitOn_append_of_not_mem h []
  rwa [List.append_nil, List.splitOn_nil, List.modifyHead_cons, List.append_nil] at hs

theorem splitOn_append_cons {a : Text} (h : c ∉ a) (s : Text) :
    (a ++ c :: s).splitOn c = a :: s.splitOn c := by
  rw [splitOn_append_of_not_mem h, List.splitOn_cons_eq_if_modifyHead, beq_self_eq_true, if_pos rfl,
    List.modifyHead_cons, List.append_nil]

/-- A character that is no separator stays in the last part. -/
theorem splitOn_concat {x : Char} (hx : x ≠ c) (s : Text) :
    ∃ parts last, s.splitOn c = parts ++ [last] ∧
      (s ++ [x]).splitOn c = parts ++ [last ++ [x]] := by
  induction s with
  | nil =>
    have hne : (x == c) = false := beq_eq_false_iff_ne.mpr hx
    refine ⟨[], [], rfl, ?_⟩
    rw [List.nil_append, List.splitOn_cons_eq_if_modifyHead, hne]
    rfl
  | cons y s ih =>
    obtain ⟨parts, last, hs, hsx⟩ := ih
    rw [List.cons_append, List.splitOn_cons_eq_if_modifyHead, List.splitOn_cons_eq_if_modifyHead,
      hs, hsx]
    cases y == c with
    | true => exact ⟨[] :: parts, last, rfl, rfl⟩
    | false =>
      cases parts with
      | nil => exact ⟨[], y :: last, rfl, rfl⟩
      | cons p parts => exact ⟨(y :: p) :: parts, last, rfl, rfl⟩

theorem not_mem_intercalate {sep : Text} {ps : List Text} (hsep : c ∉ sep) (h : ∀ p ∈ ps, c ∉ p) :
    c ∉ sep.intercalate ps := by
  induction ps with
  | nil => simp
  | cons p ps ih =>
    rw [List.forall_mem_cons] at h
    cases ps with
    | nil => rw [List.intercalate_singleton]; exact h.1
    | cons q ps =>
      rw [List.intercalate_cons_cons, List.mem_append, List.mem_append, not_or, not_or]
      exact ⟨⟨h.1, hsep⟩, ih h.2⟩

/-- `a, b = s.split(c)` -/
def splitTwo (c : Char) (s : Text) : Option (Text × Text) :=
  match s.splitOn c with
  | [a, b] => some (a, b)
  | _ => none

/-- A text is split into two parts when it has one separator. -/
theorem splitTwo_eq_some {s a b : Text} :
    splitTwo c s = some (a, b) ↔ s = a ++ c :: b ∧ c ∉ a ∧ c ∉ b := by
  rw [splitTwo]
  constructor
  · intro h
    have hs : [c].intercalate (s.splitOn c) = s := List.intercalate_splitOn c
    have hmem : ∀ p ∈ s.splitOn c, c ∉ p := fun p => not_mem_of_mem_splitOn
    split at h
    · rename_i a' b' hab
      cases h
      rw [hab] at hs hmem
      refine ⟨by simpa [List.intercalate_cons_cons] using hs.symm, hmem a ?_, hmem b ?_⟩
      · exact List.mem_cons_self ..
      · exact List.mem_cons_of_mem _ (List.mem_cons_self ..)
    · cases h
  · rintro ⟨rfl, ha, hb⟩
    rw [List.splitOn_append_cons_self_of_not_mem ha, List.splitOn_eq_singleton hb]

theorem flatMap_splitOnP (p q : Char → Bool) (s : Text) :
    (s.splitOnP p).flatMap (List.splitOnP q) = s.splitOnP fun x => p x || q x := by
  induction s with
  | nil => simp
  | cons x s ih =>
    obtain ⟨head, tail, hs⟩ := List.exists_cons_of_ne_nil (List.splitOnP_ne_nil p s)
    rw [hs, List.flatMap_cons] at ih
    rw [List.splitOnP_cons_eq_if_modifyHead, List.splitOnP_cons_eq_if_modifyHead, hs, ← ih]
    obtain ⟨first, rest, hq⟩ := List.exists_cons_of_ne_nil (List.splitOnP_ne_nil q head)
    cases hp : p x
    · cases hx : q x <;> simp [List.splitOnP_cons_eq_if_modifyHead, hx, hq]
    · simp

theorem flatMap_splitOn_comm (c d : Char) (s : Text) :
    (s.splitOn c).flatMap (List.splitOn d) = (s.splitOn d).flatMap (List.splitOn c) := by
  show (s.splitOnP (· == c)).flatMap (List.splitOnP (· == d)) =
    (s.splitOnP (· == d)).flatMap (List.splitOnP (· == c))
  rw [flatMap_splitOnP, flatMap_splitOnP]
  exact congrArg (List.splitOnP · s) (funext fun x => Bool.or_comm ..)

/-! ## A separator of two characters -/

/-- `s.split(ab)` for the separator that consists of `a` and `b` -/
def splitPair (a b : Char) : Text → List Text
  | [] => [[]]
  | [x] => [[x]]
  | x :: y :: s =>
    if x = a ∧ y = b then [] :: splitPair a b s
    else (splitPair a b (y :: s)).modifyHead (x :: ·)

/-- The part up to a separator comes first. -/
theorem splitPair_append {a b : Char} (hab : a ≠ b) (rest : Text) {p : Text}
    (hp : ¬[a, b] <:+: p) : splitPair a b (p ++ a :: b :: rest) = p :: splitPair a b rest := by
  induction p with
  | nil => simp [splitPair]
  | cons x p ih =>
    have ih := ih fun h => hp (h.trans (List.suffix_cons x p).isInfix)
    cases p with
    | nil =>
      have hx : ¬(x = a ∧ a = b) := fun h => hab h.2
      simp [splitPair, hx]
    | cons y p =>
      have hx : ¬(x = a ∧ y = b) := by
        rintro ⟨rfl, rfl⟩
        exact hp (List.prefix_append [x, y] p).isInfix
      rw [List.cons_append] at ih
      simp [splitPair, hx, ih]

theorem splitPair_of_not_infix {a b : Char} {p : Text} (hp : ¬[a, b] <:+: p) :
    splitPair a b p = [p] := by
  induction p with
  | nil => rfl
  | cons x p ih =>
    have ih := ih fun h => hp (h.trans (List.suffix_cons x p).isInfix)
    cases p with
    | nil => rfl
    | cons y p =>
      have hx : ¬(x = a ∧ y = b) := by
        rintro ⟨rfl, rfl⟩
        exact hp (List.prefix_append [x, y] p).isInfix
      rw [splitPair, if_neg hx, ih]
      rfl

theorem splitPair_intercalate {a b : Char} (hab : a ≠ b) {ps : List Text} (hne : ps ≠ [])
    (h : ∀ p ∈ ps, ¬[a, b] <:+: p) : splitPair a b ([a, b].intercalate ps) = ps := by
  induction ps with
  | nil => exact absurd rfl hne
  | cons p ps ih =>
    rw [List.forall_mem_cons] at h
    cases ps with
    | nil => rw [List.intercalate_singleton, splitPair_of_not_infix h.1]
    | cons q ps =>
      rw [List.intercalate_cons_cons, List.append_assoc]
      show splitPair a b (p ++ a :: b :: [a, b].intercalate (q :: ps)) = _
      rw [splitPair_append hab _ h.1, ih (List.cons_ne_nil q ps) h.2]

/-! ## The last separator -/

/-- The part of `s.rsplit(c, 1)` after the last separator. -/
def afterLast (c : Char) (s : Text) : Text := (s.reverse.takeWhile (· ≠ c)).reverse

theorem afterLast_append (a : Text) {b : Text} (h : c ∉ b) : afterLast c (a ++ c :: b) = b := by
  have hrev : ∀ x ∈ b.reverse, (decide (x ≠ c)) = true :=
    forall_ne_of_not_mem fun hb => h (List.mem_reverse.mp hb)
  have hsplit : (a ++ c :: b).reverse = b.reverse ++ c :: a.reverse := by simp
  rw [afterLast, hsplit, List.takeWhile_append_of_pos hrev]
  simp

/-- The part before it. -/
def beforeLast (c : Char) (s : Text) : Text := (s.reverse.dropWhile (· ≠ c)).tail.reverse

theorem beforeLast_append (a : Text) {b : Text} (h : c ∉ b) : beforeLast c (a ++ c :: b) = a := by
  have hrev : ∀ x ∈ b.reverse, (decide (x ≠ c)) = true :=
    forall_ne_of_not_mem fun hb => h (List.mem_reverse.mp hb)
  have hsplit : (a ++ c :: b).reverse = b.reverse ++ c :: a.reverse := by simp
  rw [beforeLast, hsplit, List.dropWhile_append_of_pos hrev]
  simp

theorem afterLast_of_not_mem {s : Text} (h : c ∉ s) : afterLast c s = s := by
  rw [afterLast, List.takeWhile_eq_self_iff.mpr, List.reverse_reverse]
  exact forall_ne_of_not_mem fun hs => h (List.mem_reverse.mp hs)

theorem exists_last {s : Text} (h : c ∈ s) : ∃ a b, s = a ++ c :: b ∧ c ∉ b := by
  obtain ⟨a, b, hs, ha⟩ := List.eq_append_cons_of_mem (List.mem_reverse.mpr h)
  refine ⟨b.reverse, a.reverse, ?_, fun h => ha (List.mem_reverse.mp h)⟩
  rw [← List.reverse_reverse s, hs]
  simp

/-! ## White space at the edges -/

/-- `s.strip()` -/
def strip (s : Text) : Text := ((s.dropWhile isSpace).reverse.dropWhile isSpace).reverse

/-- The first character is not white space, nor is the last one. -/
def HasEdges (s : Text) : Prop :=
  (∀ x ∈ s.head?, isSpace x = false) ∧ ∀ x ∈ s.getLast?, isSpace x = false

theorem dropWhile_of_head {p : Char → Bool} {s : Text} (h : ∀ x ∈ s.head?, p x = false) :
    s.dropWhile p = s := by
  cases s with
  | nil => rfl
  | cons c s => rw [List.dropWhile_cons, h c rfl, if_neg (by simp)]

theorem strip_of_edges {s : Text} (h : HasEdges s) : strip s = s := by
  rw [strip, dropWhile_of_head h.1, dropWhile_of_head, List.reverse_reverse]
  rw [List.head?_reverse]
  exact h.2

theorem isSpace_of_visible {c : Char} (h : 33 ≤ c.toNat ∧ c.toNat ≤ 126) : isSpace c = false := by
  simp only [isSpace, Bool.or_eq_false_iff, Bool.and_eq_false_iff, decide_eq_false_iff_not,
    beq_eq_false_iff_ne]
  omega

theorem visible_of_isDigit {c : Char} (h : c.isDigit = true) : 48 ≤ c.toNat ∧ c.toNat ≤ 57 := by
  simpa [Char.isDigit, UInt32.le_iff_toNat_le] using h

theorem mem_strip_or_isSpace {s : Text} {x : Char} (h : x ∈ s) : x ∈ strip s ∨ isSpace x = true := by
  have hdrop : ∀ l : Text, x ∈ l → x ∈ l.dropWhile isSpace ∨ isSpace x = true := by
    intro l hl
    rw [← List.takeWhile_append_dropWhile (p := isSpace) (l := l), List.mem_append] at hl
    exact hl.symm.imp_right List.mem_takeWhile_imp
  rcases hdrop s h with h | h
  · rw [strip, List.mem_reverse]
    exact hdrop _ (List.mem_reverse.mpr h)
  · exact .inr h

theorem mem_of_mem_strip {s : Text} {x : Char} (h : x ∈ strip s) : x ∈ s := by
  rw [strip, List.mem_reverse] at h
  exact (List.dropWhile_sublist _).mem (List.mem_reverse.mp ((List.dropWhile_sublist _).mem h))

theorem isSpace_of_head?_dropWhile {s : Text} {x : Char} (h : x ∈ (s.dropWhile isSpace).head?) :
    isSpace x = false := by
  have hnot := List.head?_dropWhile_not isSpace s
  rw [Option.mem_def.mp h] at hnot
  exact hnot

theorem hasEdges_strip (s : Text) : HasEdges (strip s) := by
  constructor
  · intro x hx
    refine isSpace_of_head?_dropWhile (s := s) ?_
    obtain ⟨rest, hrest⟩ : strip s <+: s.dropWhile isSpace := by
      rw [strip, ← List.reverse_suffix, List.reverse_reverse]
      exact List.dropWhile_suffix _
    rw [← hrest, List.head?_append, Option.mem_def.mp hx]
    rfl
  · intro x hx
    rw [strip, List.getLast?_reverse] at hx
    exact isSpace_of_head?_dropWhile hx

theorem strip_space {a : Text} (ha : ∀ x ∈ a, isSpace x = true) (b : Text) :
    strip (a ++ b) = strip b := by
  rw [strip, strip, List.dropWhile_append_of_pos ha]

end Py

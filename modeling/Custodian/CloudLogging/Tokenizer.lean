import Custodian.Lib.Text

/-!
# Tokens of Cloud Logging filters

`_TOKEN_RE`, `_tokenize_cloud_logging_filter` and `_render_tokens` of
`c7n_gcp/utils.py`.  Every alternative of the pattern is a function that returns
the matched text and the rest; the alternatives are tried in the order of the
pattern.  The loops run on fuel that the length of the text bounds.
-/

namespace Custodian.Tokenizer

open Py

inductive Kind where
  | string
  | lparen
  | rparen
  | op
  | func
  | word
  | logic
  deriving DecidableEq, Repr

structure Token where
  kind : Kind
  text : Text
  deriving DecidableEq, Repr

/-! ## Patterns -/

def isQuote (c : Char) : Bool := c = '"' || c = '\''

/-- What follows an opening quote `q` in `_STRING_PATTERN`, up to the closing one. -/
def stringBody (q : Char) : Text → Option (Text × Text)
  | [] => none
  | c :: s =>
    if c = '\\' then
      match s with
      | [] => none
      | d :: s => if d = '\n' then none else (stringBody q s).map fun p => (c :: d :: p.1, p.2)
    else if c = q then some ([c], s)
    else (stringBody q s).map fun p => (c :: p.1, p.2)

/-- `_STRING_PATTERN` -/
def stringAt : Text → Option (Text × Text)
  | [] => none
  | q :: s => if isQuote q then (stringBody q s).map fun p => (q :: p.1, p.2) else none

/-- `[^\s()=><:!~"']` -/
def isWordChar (c : Char) : Bool := !isSpace c && !("()=><:!~\"'".toList.contains c)

/-- `(?:c|_STRING_PATTERN)*` for the characters `c` of a class. -/
def unitsFuel (isChar : Char → Bool) : Nat → Text → Text × Text
  | 0, s => ([], s)
  | _ + 1, [] => ([], [])
  | n + 1, c :: s =>
    if isChar c then
      let p := unitsFuel isChar n s
      (c :: p.1, p.2)
    else match stringAt (c :: s) with
      | some (u, r) =>
        let p := unitsFuel isChar n r
        (u ++ p.1, p.2)
      | none => ([], c :: s)

def units (isChar : Char → Bool) (s : Text) : Text × Text := unitsFuel isChar s.length s

/-- `_WORD_PATTERN` -/
def wordAt : Text → Option (Text × Text)
  | [] => none
  | c :: s =>
    if isWordChar c then
      let p := units isWordChar s
      some (c :: p.1, p.2)
    else none

/-- `--[^\n]*` -/
def commentAt (s : Text) : Option (Text × Text) :=
  if s.startsWith "--" then some (s.takeWhile (· ≠ '\n'), s.dropWhile (· ≠ '\n')) else none

def twoCharOps : List Text :=
  [">=".toList, "<=".toList, "!=".toList, "=~".toList, "!~".toList]

def oneCharOps : List Text := ["=".toList, ">".toList, "<".toList, ":".toList]

/-- `>=|<=|!=|=~|!~|[=><:]` -/
def opAt (s : Text) : Option (Text × Text) :=
  if twoCharOps.contains (s.take 2) then some (s.take 2, s.drop 2)
  else if oneCharOps.contains (s.take 1) then some (s.take 1, s.drop 1)
  else none

/-! ## The tokenizer -/

/-- The groups of `_TOKEN_RE`. -/
inductive Group where
  | string
  | comment
  | lparen
  | rparen
  | op
  | func
  | word
  | unknown
  deriving DecidableEq, Repr

/-- The match of `_TOKEN_RE` at a character that is not white space. -/
def scan (c : Char) (s : Text) : Group × Text × Text :=
  match stringAt (c :: s) with
  | some (v, r) => (.string, v, r)
  | none => match commentAt (c :: s) with
    | some (v, r) => (.comment, v, r)
    | none =>
      if c = '(' then (.lparen, [c], s)
      else if c = ')' then (.rparen, [c], s)
      else match opAt (c :: s) with
        | some (v, r) => (.op, v, r)
        | none => match wordAt (c :: s) with
          -- a function name is directly followed by a parenthesis
          | some (v, r) => (if r.head? = some '(' then .func else .word, v, r)
          | none => (.unknown, [c], s)

/-- `_LOGICAL_WORDS` -/
def logicalWords : List Text := ["AND".toList, "OR".toList, "NOT".toList]

/-- `_NEGATIVE_NUMBER_RE` -/
def isNegativeNumber : Text → Bool
  | c :: d :: _ => c = '-' && isDigit d
  | _ => false

/-- A leading minus that is shorthand for NOT. -/
def isNegation (afterOp : Bool) (v : Text) : Bool :=
  Text.startsWith v "-" && !afterOp && !isNegativeNumber v

/-- The tokens of one match.  `afterOp` says whether the last token so far is an
operator. -/
def emit (tokenize : Text → List Token) (afterOp : Bool) (g : Group) (v : Text) : List Token :=
  match g with
  | .comment => []
  | .word =>
    if logicalWords.contains v then [⟨.logic, v⟩]
    else if isNegation afterOp v then ⟨.logic, "NOT".toList⟩ :: tokenize v.tail
    else [⟨.word, v⟩]
  | .func =>
    if logicalWords.contains v then [⟨.logic, v⟩]
    else if isNegation afterOp v then
      ⟨.logic, "NOT".toList⟩ :: if v.tail.isEmpty then [] else [⟨.func, v.tail⟩]
    else [⟨.func, v⟩]
  | .unknown => [⟨.word, v⟩]
  | .string => [⟨.string, v⟩]
  | .lparen => [⟨.lparen, v⟩]
  | .rparen => [⟨.rparen, v⟩]
  | .op => [⟨.op, v⟩]

/-- Whether the last token is an operator after some more tokens. -/
def lastIsOp (afterOp : Bool) (ts : List Token) : Bool :=
  match ts.getLast? with
  | some t => t.kind = .op
  | none => afterOp

def tokensFrom : Nat → Bool → Text → List Token
  | 0, _, _ => []
  | _ + 1, _, [] => []
  | n + 1, afterOp, c :: s =>
    if isSpace c then tokensFrom n afterOp s
    else
      let m := scan c s
      let new := emit (tokensFrom n false) afterOp m.1 m.2.1
      new ++ tokensFrom n (lastIsOp afterOp new) m.2.2

/-- `_tokenize_cloud_logging_filter` -/
def tokenize (s : Text) : List Token := tokensFrom (s.length + 1) false s

example : tokenize "-a=(-5 OR 'b c')--x".toList =
    [⟨.logic, "NOT".toList⟩, ⟨.word, "a".toList⟩, ⟨.op, "=".toList⟩, ⟨.lparen, "(".toList⟩,
      ⟨.word, "-5".toList⟩, ⟨.logic, "OR".toList⟩, ⟨.string, "'b c'".toList⟩,
      ⟨.rparen, ")".toList⟩] := by decide +kernel

/-! ## Rendering tokens -/

def lowerToken (ct : CaseTable) (t : Token) : Token :=
  if t.kind = .word ∨ t.kind = .string ∨ t.kind = .func then ⟨t.kind, ct.lower t.text⟩ else t

/-- What separates a token from the ones before it. -/
def separator (previous : Option Kind) (kind : Kind) : Text :=
  if previous = none ∨ previous = some .func ∨ previous = some .lparen ∨ kind = .rparen then []
  else [' ']

/-- `_render_tokens`; the texts of tokens are not empty, so the rendered text is
empty before the first one only. -/
def renderFrom : Option Kind → List Token → Text
  | _, [] => []
  | previous, t :: ts => separator previous t.kind ++ t.text ++ renderFrom (some t.kind) ts

def renderTokens (ts : List Token) : Text := renderFrom none ts

/-! ## Matches are prefixes -/

theorem stringBody_append {q : Char} : ∀ {s v r : Text}, stringBody q s = some (v, r) → v ++ r = s
  | [], _, _, h => by simp [stringBody] at h
  | c :: s, v, r, h => by
    rw [stringBody.eq_def] at h
    simp only at h
    split at h
    · split at h
      · cases h
      · rename_i d s
        split at h
        · cases h
        · rw [Option.map_eq_some_iff] at h
          obtain ⟨⟨b, r'⟩, hb, e⟩ := h
          rw [Prod.mk.injEq] at e
          obtain ⟨rfl, rfl⟩ := e
          rw [List.cons_append, List.cons_append, stringBody_append hb]
    · split at h
      · simp only [Option.some.injEq, Prod.mk.injEq] at h
        obtain ⟨rfl, rfl⟩ := h
        rfl
      · rw [Option.map_eq_some_iff] at h
        obtain ⟨⟨b, r'⟩, hb, e⟩ := h
        rw [Prod.mk.injEq] at e
        obtain ⟨rfl, rfl⟩ := e
        rw [List.cons_append, stringBody_append hb]

theorem stringAt_append {s v r : Text} (h : stringAt s = some (v, r)) :
    v ++ r = s ∧ ∃ q b, isQuote q = true ∧ v = q :: b := by
  cases s with
  | nil => simp [stringAt] at h
  | cons q s =>
    rw [stringAt] at h
    split at h
    · rename_i hq
      rw [Option.map_eq_some_iff] at h
      obtain ⟨⟨b, r'⟩, hb, e⟩ := h
      rw [Prod.mk.injEq] at e
      obtain ⟨rfl, rfl⟩ := e
      exact ⟨by rw [List.cons_append, stringBody_append hb], q, b, hq, rfl⟩
    · cases h

theorem stringAt_length {s v r : Text} (h : stringAt s = some (v, r)) : r.length < s.length := by
  obtain ⟨happ, q, b, -, rfl⟩ := stringAt_append h
  rw [← happ, List.length_append, List.length_cons]
  omega

theorem unitsFuel_append (isChar : Char → Bool) (n : Nat) (s : Text) :
    (unitsFuel isChar n s).1 ++ (unitsFuel isChar n s).2 = s := by
  induction n generalizing s with
  | zero => rfl
  | succ n ih =>
    cases s with
    | nil => rfl
    | cons c s =>
      rw [unitsFuel]
      split
      · simp only [List.cons_append, ih]
      · split
        · rename_i u r hu
          simp only [List.append_assoc, ih]
          exact (stringAt_append hu).1
        · rfl

theorem unitsFuel_fuel {isChar : Char → Bool} {n m : Nat} {s : Text} (hn : s.length ≤ n) (hm : s.length ≤ m) :
    unitsFuel isChar n s = unitsFuel isChar m s := by
  induction n generalizing m s with
  | zero =>
    have : s = [] := List.length_eq_zero_iff.mp (by omega)
    subst this
    cases m <;> rfl
  | succ n ih =>
    cases s with
    | nil => cases m <;> rfl
    | cons c s =>
      rw [List.length_cons] at hn hm
      cases m with
      | zero => omega
      | succ m =>
        rw [unitsFuel, unitsFuel, ih (m := m) (s := s) (by omega) (by omega)]
        split
        · rfl
        · split
          · rename_i u r hu
            have := stringAt_length hu
            rw [List.length_cons] at this
            rw [ih (m := m) (by omega) (by omega)]
          · rfl

@[simp] theorem units_nil (isChar : Char → Bool) : units isChar [] = ([], []) := rfl

theorem units_cons (isChar : Char → Bool) (c : Char) (s : Text) :
    units isChar (c :: s) =
      if isChar c then (c :: (units isChar s).1, (units isChar s).2)
      else match stringAt (c :: s) with
        | some (u, r) => (u ++ (units isChar r).1, (units isChar r).2)
        | none => ([], c :: s) := by
  rw [units, List.length_cons, unitsFuel]
  split
  · rfl
  · split
    · rename_i u r hu
      have := stringAt_length hu
      rw [List.length_cons] at this
      simp only [units, unitsFuel_fuel (n := s.length) (s := r) (by omega) (Nat.le_refl _)]
    · rfl

theorem units_append (isChar : Char → Bool) (s : Text) :
    (units isChar s).1 ++ (units isChar s).2 = s := unitsFuel_append _ _ _

theorem wordAt_append {s v r : Text} (h : wordAt s = some (v, r)) : v ++ r = s ∧ v ≠ [] := by
  cases s with
  | nil => simp [wordAt] at h
  | cons c s =>
    rw [wordAt] at h
    split at h
    · simp only [Option.some.injEq, Prod.mk.injEq] at h
      obtain ⟨rfl, rfl⟩ := h
      exact ⟨by rw [List.cons_append, units_append], by simp⟩
    · cases h

theorem commentAt_append {s v r : Text} (h : commentAt s = some (v, r)) : v ++ r = s ∧ v ≠ [] := by
  unfold commentAt at h
  split at h
  · rename_i hs
    rw [Option.some.injEq, Prod.mk.injEq] at h
    obtain ⟨rfl, rfl⟩ := h
    refine ⟨List.takeWhile_append_dropWhile, ?_⟩
    obtain ⟨t, rfl⟩ := List.isPrefixOf_iff_prefix.mp hs
    simp
  · cases h

theorem opAt_append {s v r : Text} (h : opAt s = some (v, r)) : v ++ r = s ∧ v ≠ [] := by
  unfold opAt at h
  have hne : ∀ n, ([] : Text) = s.take n → twoCharOps.contains (s.take n) = false ∧
      oneCharOps.contains (s.take n) = false := by
    intro n e
    rw [← e]
    decide
  split at h
  · rename_i hs
    simp only [Option.some.injEq, Prod.mk.injEq] at h
    obtain ⟨rfl, rfl⟩ := h
    refine ⟨List.take_append_drop 2 s, fun e => ?_⟩
    rw [(hne 2 e.symm).1] at hs
    cases hs
  · split at h
    · rename_i hs
      simp only [Option.some.injEq, Prod.mk.injEq] at h
      obtain ⟨rfl, rfl⟩ := h
      refine ⟨List.take_append_drop 1 s, fun e => ?_⟩
      rw [(hne 1 e.symm).2] at hs
      cases hs
    · cases h

/-- **Matches.**  A match takes a non-empty prefix of the text. -/
theorem scan_append (c : Char) (s : Text) :
    (scan c s).2.1 ++ (scan c s).2.2 = c :: s ∧ (scan c s).2.1 ≠ [] := by
  unfold scan
  split
  · rename_i v r hv
    obtain ⟨happ, q, b, -, rfl⟩ := stringAt_append hv
    exact ⟨happ, by simp⟩
  · split
    · rename_i hv
      exact commentAt_append hv
    · split
      · simp
      · split
        · simp
        · split
          · rename_i hv
            exact opAt_append hv
          · split
            · rename_i hv
              exact wordAt_append hv
            · simp

theorem scan_length (c : Char) (s : Text) :
    (scan c s).2.1.tail.length ≤ s.length ∧ (scan c s).2.2.length ≤ s.length := by
  obtain ⟨happ, hne⟩ := scan_append c s
  have hlen := congrArg List.length happ
  have hpos := List.length_pos_iff.mpr hne
  rw [List.length_append, List.length_cons] at hlen
  rw [List.length_tail]
  omega

/-! ## The tokenizer without fuel -/

theorem emit_congr {f g : Text → List Token} {afterOp : Bool} {k : Group} {v : Text}
    (h : f v.tail = g v.tail) : emit f afterOp k v = emit g afterOp k v := by
  cases k <;> simp only [emit, h]

theorem tokensFrom_fuel {n m : Nat} {afterOp : Bool} {s : Text} (hn : s.length < n)
    (hm : s.length < m) : tokensFrom n afterOp s = tokensFrom m afterOp s := by
  induction n generalizing m afterOp s with
  | zero => omega
  | succ n ih =>
    cases m with
    | zero => omega
    | succ m =>
      cases s with
      | nil => rfl
      | cons c s =>
        rw [List.length_cons] at hn hm
        obtain ⟨htail, hrest⟩ := scan_length c s
        have hemit : emit (tokensFrom n false) afterOp (scan c s).1 (scan c s).2.1 =
            emit (tokensFrom m false) afterOp (scan c s).1 (scan c s).2.1 :=
          emit_congr (ih (by omega) (by omega))
        rw [tokensFrom, tokensFrom, ih (m := m) (s := s) (by omega) (by omega)]
        simp only [hemit, ih (m := m) (s := (scan c s).2.2) (by omega) (by omega)]

/-- The tokens of a text after some tokens. -/
def tokensAfter (afterOp : Bool) (s : Text) : List Token := tokensFrom (s.length + 1) afterOp s

@[simp] theorem tokensAfter_nil (afterOp : Bool) : tokensAfter afterOp [] = [] := rfl

theorem tokensAfter_space {c : Char} (hc : isSpace c = true) (afterOp : Bool) (s : Text) :
    tokensAfter afterOp (c :: s) = tokensAfter afterOp s := by
  rw [tokensAfter, List.length_cons, tokensFrom, if_pos hc]
  rfl

theorem tokensAfter_scan {c : Char} (hc : isSpace c = false) (afterOp : Bool) (s : Text) :
    tokensAfter afterOp (c :: s) =
      emit tokenize afterOp (scan c s).1 (scan c s).2.1 ++
        tokensAfter (lastIsOp afterOp (emit tokenize afterOp (scan c s).1 (scan c s).2.1))
          (scan c s).2.2 := by
  obtain ⟨htail, hrest⟩ := scan_length c s
  have hemit : emit (tokensFrom (s.length + 1) false) afterOp (scan c s).1 (scan c s).2.1 =
      emit tokenize afterOp (scan c s).1 (scan c s).2.1 :=
    emit_congr (tokensFrom_fuel (by omega) (Nat.lt_succ_self _))
  rw [tokensAfter, List.length_cons, tokensFrom]
  simp only [hc, Bool.false_eq_true, ↓reduceIte, hemit]
  rw [tokensAfter, tokensFrom_fuel (s := (scan c s).2.2) (by omega) (Nat.lt_succ_self _)]

end Custodian.Tokenizer

import Custodian.CloudLogging.Tokenizer
import Custodian.Lib.Lower

/-!
# Rendered tokens are read back
-/

namespace Custodian.Retokenize

open Py Custodian.Tokenizer

/-! ## Characters -/

theorem inert_of_isQuote {c : Char} (h : isQuote c = true) : isInert c = true := by
  simp only [isQuote, Bool.or_eq_true, decide_eq_true_eq] at h
  rcases h with rfl | rfl <;> decide

theorem isWordChar_of_not_inert {c : Char} (h : isInert c = false) : isWordChar c = true := by
  have hs : isSpace c = false := by
    simp only [isInert, Bool.or_eq_false_iff] at h
    exact h.1.1
  have hp : "()=><:!~\"'".toList.contains c = false := by
    rw [Bool.eq_false_iff]
    intro hc
    have hin : ∀ d ∈ "()=><:!~\"'".toList, isInert d = true := by decide
    rw [hin c (List.contains_iff_mem.mp hc)] at h
    cases h
  rw [isWordChar, hs, hp]
  rfl

theorem ne_of_not_inert {c d : Char} (h : isInert c = false) (hd : isInert d = true) : c ≠ d := by
  rintro rfl
  rw [hd] at h
  cases h

theorem not_isQuote_of_isWordChar {c : Char} (h : isWordChar c = true) : isQuote c = false := by
  rw [Bool.eq_false_iff]
  intro hq
  simp only [isQuote, Bool.or_eq_true, decide_eq_true_eq] at hq
  rcases hq with rfl | rfl <;> exact absurd h (by decide)

theorem not_isSpace_of_isWordChar {c : Char} (h : isWordChar c = true) : isSpace c = false := by
  simp only [isWordChar, Bool.and_eq_true, Bool.not_eq_true'] at h
  exact h.1

/-! ## Matches in a longer text -/

theorem stringBody_extend {q : Char} (u : Text) : ∀ {s v r : Text},
    stringBody q s = some (v, r) → stringBody q (s ++ u) = some (v, r ++ u)
  | [], _, _, h => by simp [stringBody] at h
  | [c], v, r, h => by
    simp only [stringBody] at h
    split at h
    · cases h
    · rename_i hc
      split at h
      · rename_i hq
        simp only [Option.some.injEq, Prod.mk.injEq] at h
        obtain ⟨rfl, rfl⟩ := h
        rw [List.singleton_append, stringBody.eq_def]
        simp only
        rw [if_neg hc, if_pos hq]
        rfl
      · cases h
  | c :: d :: s, v, r, h => by
    rw [stringBody.eq_def] at h ⊢
    simp only [List.cons_append] at h ⊢
    split at h
    · rename_i hc
      rw [if_pos hc]
      split at h
      · cases h
      · rename_i hd
        rw [if_neg hd]
        rw [Option.map_eq_some_iff] at h ⊢
        obtain ⟨⟨b, r'⟩, hb, e⟩ := h
        rw [Prod.mk.injEq] at e
        obtain ⟨rfl, rfl⟩ := e
        exact ⟨_, stringBody_extend u hb, rfl⟩
    · rename_i hc
      rw [if_neg hc]
      split at h
      · rename_i hq
        rw [if_pos hq]
        simp only [Option.some.injEq, Prod.mk.injEq] at h
        obtain ⟨rfl, rfl⟩ := h
        rfl
      · rename_i hq
        rw [if_neg hq]
        rw [Option.map_eq_some_iff] at h ⊢
        obtain ⟨⟨b, r'⟩, hb, e⟩ := h
        rw [Prod.mk.injEq] at e
        obtain ⟨rfl, rfl⟩ := e
        exact ⟨_, stringBody_extend (s := d :: s) u hb, rfl⟩

theorem stringAt_extend {s v r : Text} (h : stringAt s = some (v, r)) (u : Text) :
    stringAt (s ++ u) = some (v, r ++ u) := by
  cases s with
  | nil => simp [stringAt] at h
  | cons q s =>
    rw [List.cons_append]
    rw [stringAt] at h ⊢
    split at h
    · rename_i hq
      rw [if_pos hq]
      rw [Option.map_eq_some_iff] at h ⊢
      obtain ⟨⟨b, r'⟩, hb, e⟩ := h
      rw [Prod.mk.injEq] at e
      obtain ⟨rfl, rfl⟩ := e
      exact ⟨_, stringBody_extend u hb, rfl⟩
    · cases h

theorem units_extend {isChar : Char → Bool} (u : Text) {s : Text} (h : (units isChar s).2 = []) :
    units isChar (s ++ u) = (s ++ (units isChar u).1, (units isChar u).2) := by
  induction hn : s.length using Nat.strongRecOn generalizing s with
  | _ n ih =>
    cases s with
    | nil => rfl
    | cons c s =>
      rw [List.length_cons] at hn
      rw [units_cons] at h
      rw [List.cons_append, units_cons]
      split at h
      · rename_i hc
        rw [if_pos hc, ih s.length (by omega) h rfl]
        rfl
      · rename_i hc
        rw [if_neg hc]
        split at h
        · rename_i v r hv
          have hlen := stringAt_length hv
          rw [List.length_cons] at hlen
          have hext := stringAt_extend hv u
          rw [List.cons_append] at hext
          rw [hext]
          simp only [ih r.length (by omega) h rfl, ← List.append_assoc, (stringAt_append hv).1]
        · cases h

/-! ## Whole texts -/

def IsString (v : Text) : Prop := stringAt v = some (v, [])

def IsWord (v : Text) : Prop := wordAt v = some (v, [])

theorem isWord_iff {v : Text} :
    IsWord v ↔ ∃ c s, v = c :: s ∧ isWordChar c = true ∧ (units isWordChar s).2 = [] := by
  cases v with
  | nil => simp [IsWord, wordAt]
  | cons c s =>
    have happ := units_append isWordChar s
    rw [IsWord, wordAt]
    constructor
    · intro h
      split at h
      · rename_i hc
        simp only [Option.some.injEq, Prod.mk.injEq] at h
        exact ⟨c, s, rfl, hc, h.2⟩
      · cases h
    · rintro ⟨c', s', e, hc, hs⟩
      rw [List.cons.injEq] at e
      obtain ⟨rfl, rfl⟩ := e
      rw [if_pos hc]
      rw [hs, List.append_nil] at happ
      simp only [hs, happ]

theorem IsString.exists_quote {v : Text} (h : IsString v) :
    ∃ q s, v = q :: s ∧ isQuote q = true := by
  obtain ⟨-, q, b, hq, rfl⟩ := stringAt_append h
  exact ⟨q, b, rfl, hq⟩

theorem IsWord.ne_nil {v : Text} (h : IsWord v) : v ≠ [] := by
  obtain ⟨c, s, rfl, -⟩ := isWord_iff.mp h
  simp

/-- The text is empty or starts with white space or a closing parenthesis. -/
def Stops (u : Text) : Prop := ∀ c ∈ u.head?, isSpace c = true ∨ c = ')'

theorem Stops.units_eq {u : Text} (h : Stops u) : units isWordChar u = ([], u) := by
  cases u with
  | nil => rfl
  | cons c u =>
    have hstop : isSpace c = true ∨ c = ')' := h c rfl
    have hc : isWordChar c = false := by
      rcases hstop with h | rfl
      · simp [isWordChar, h]
      · decide
    have hq : isQuote c = false := by
      rw [Bool.eq_false_iff]
      intro hq
      simp only [isQuote, Bool.or_eq_true, decide_eq_true_eq] at hq
      rcases hstop with h | rfl
      · rcases hq with rfl | rfl <;> exact absurd h (by decide)
      · rcases hq with hq | hq <;> exact absurd hq (by decide)
    rw [units_cons]
    simp [hc, stringAt, hq]

theorem units_lparen (u : Text) : units isWordChar ('(' :: u) = ([], '(' :: u) := by
  rw [units_cons]
  rfl

theorem IsWord.wordAt_append {v u : Text} (h : IsWord v) (hu : units isWordChar u = ([], u)) :
    wordAt (v ++ u) = some (v, u) := by
  obtain ⟨c, s, rfl, hc, hs⟩ := isWord_iff.mp h
  rw [List.cons_append, wordAt, if_pos hc, units_extend u hs, hu, List.append_nil]

/-! ## Regular tokens -/

/-- A leading minus of a word is part of it, and does not start a comment. -/
def MinusOk (afterOp : Bool) (v : Text) : Prop :=
  Text.startsWith v "--" = false ∧ isNegation afterOp v = false

/-- A token that is scanned back from its text. -/
def Lexical (afterOp : Bool) (t : Token) : Prop :=
  match t.kind with
  | .string => IsString t.text
  | .lparen => t.text = ['(']
  | .rparen => t.text = [')']
  | .op => t.text ∈ twoCharOps ∨ t.text ∈ oneCharOps
  | .func => IsWord t.text ∧ t.text ∉ logicalWords ∧ MinusOk afterOp t.text
  | .word => (IsWord t.text ∧ t.text ∉ logicalWords ∧ MinusOk afterOp t.text) ∨
      t.text = ['!'] ∨ t.text = ['~']
  | .logic => t.text ∈ logicalWords

/-- Every token is scanned back in its place, and function names are followed
by a parenthesis. -/
def Regular : Bool → List Token → Prop
  | _, [] => True
  | afterOp, t :: ts => Lexical afterOp t ∧
      (t.kind = .func → (ts.head?.map Token.kind) = some .lparen) ∧ Regular (t.kind = .op) ts

/-- The tokens do not end with an operator or a function name. -/
def Closed (ts : List Token) : Prop := ∀ t ∈ ts.getLast?, t.kind ≠ .op ∧ t.kind ≠ .func

theorem Closed.append {us : List Token} (h : Closed us) (hne : us ≠ []) (ts : List Token) :
    Closed (ts ++ us) := by
  intro t ht
  rw [List.getLast?_append_of_ne_nil _ hne] at ht
  exact h t ht

theorem Regular.append {b : Bool} {ts us : List Token} (h : Regular b ts) (hne : ts ≠ [])
    (hc : Closed ts) (h' : Regular false us) : Regular b (ts ++ us) := by
  induction ts generalizing b with
  | nil => exact absurd rfl hne
  | cons t ts ih =>
    obtain ⟨hl, hf, hts⟩ := h
    cases ts with
    | nil =>
      obtain ⟨ho, hfunc⟩ := hc t rfl
      exact ⟨hl, fun e => absurd e hfunc, by rw [decide_eq_false ho]; exact h'⟩
    | cons u ts =>
      refine ⟨hl, fun e => by simpa using hf e, ih hts (by simp) fun v hv => hc v ?_⟩
      simpa using hv

theorem Lexical.after_op {b : Bool} {t : Token} (h : Lexical b t) : Lexical true t := by
  have hm : ∀ {v : Text}, MinusOk b v → MinusOk true v := fun h => ⟨h.1, by simp [isNegation]⟩
  obtain ⟨k, v⟩ := t
  cases k with
  | word => exact h.imp_left fun h => ⟨h.1, h.2.1, hm h.2.2⟩
  | func => exact ⟨h.1, h.2.1, hm h.2.2⟩
  | _ => exact h

/-! ## Scanning a token back -/

theorem stringAt_of_not_isQuote {c : Char} (hc : isQuote c = false) (s : Text) :
    stringAt (c :: s) = none := by
  rw [stringAt, hc]
  rfl

theorem startsWith_dashes {c : Char} (hc : c ≠ '-') (s : Text) :
    Text.startsWith (c :: s) "--" = false := by
  simp [Text.startsWith, List.isPrefixOf, hc.symm]

theorem commentAt_eq_none {s : Text} (h : Text.startsWith s "--" = false) : commentAt s = none := by
  rw [commentAt, h]
  rfl

theorem opAt_of_isWordChar {c : Char} (hc : isWordChar c = true) (s : Text) :
    opAt (c :: s) = none := by
  have htwo : twoCharOps.contains ((c :: s).take 2) = false := by
    rw [Bool.eq_false_iff]
    intro h
    have hhead : ∀ o ∈ twoCharOps, ∀ d ∈ o.head?, isWordChar d = false := by decide
    have := hhead _ (List.contains_iff_mem.mp h) c rfl
    rw [hc] at this
    cases this
  have hone : oneCharOps.contains ((c :: s).take 1) = false := by
    rw [Bool.eq_false_iff]
    intro h
    have hhead : ∀ o ∈ oneCharOps, ∀ d ∈ o.head?, isWordChar d = false := by decide
    have := hhead _ (List.contains_iff_mem.mp h) c rfl
    rw [hc] at this
    cases this
  rw [opAt, htwo, hone]
  rfl

theorem startsWith_append_of_head {v u p : Text} (h : Text.startsWith v p = false)
    (hp : ∀ c ∈ u.head?, c ∉ p) : Text.startsWith (v ++ u) p = false := by
  unfold Text.startsWith at h ⊢
  induction v generalizing p with
  | nil =>
    cases p with
    | nil => simp at h
    | cons d p =>
      cases u with
      | nil => rfl
      | cons c u =>
        have hne : c ≠ d := fun e => hp c rfl (by simp [e])
        simp [List.isPrefixOf, hne.symm]
  | cons c v ih =>
    cases p with
    | nil => simp at h
    | cons d p =>
      rw [List.cons_append]
      simp only [List.isPrefixOf, Bool.and_eq_false_iff] at h ⊢
      refine h.imp_right fun h => ih h fun e he hmem => hp e he (List.mem_cons_of_mem d hmem)

theorem scan_word {v u : Text} {c : Char} {s : Text} (hv : IsWord v) (hcomment : Text.startsWith v "--" = false)
    (hu : units isWordChar u = ([], u)) (hdash : ∀ d ∈ u.head?, d ≠ '-') (e : v ++ u = c :: s) :
    scan c s = (if u.head? = some '(' then .func else .word, v, u) := by
  obtain ⟨c', s', rfl, hc, -⟩ := isWord_iff.mp hv
  rw [List.cons_append, List.cons.injEq] at e
  obtain ⟨rfl, rfl⟩ := e
  have hword := hv.wordAt_append hu
  have hstart : Text.startsWith (c' :: s' ++ u) "--" = false :=
    startsWith_append_of_head hcomment fun d hd => by
      have := hdash d hd
      simpa using this
  have hl : c' ≠ '(' := by
    rintro rfl
    exact absurd hc (by decide)
  have hr : c' ≠ ')' := by
    rintro rfl
    exact absurd hc (by decide)
  rw [List.cons_append] at hword hstart
  rw [scan, stringAt_of_not_isQuote (not_isQuote_of_isWordChar hc), commentAt_eq_none hstart,
    if_neg hl, if_neg hr, opAt_of_isWordChar hc, hword]

theorem Stops.head_ne {u : Text} (h : Stops u) {d : Char} (hs : isSpace d = false) (hd : d ≠ ')') :
    ∀ c ∈ u.head?, c ≠ d := by
  rintro c hc rfl
  rcases h c hc with h | h
  · rw [hs] at h
    cases h
  · exact hd h

theorem scan_op {v u : Text} {c : Char} {s : Text} (hv : v ∈ twoCharOps ∨ v ∈ oneCharOps)
    (hu : Stops u) (e : v ++ u = c :: s) : scan c s = (.op, v, u) := by
  have hop : opAt (c :: s) = some (v, u) := by
    rw [← e, opAt]
    rcases hv with hv | hv
    · have hlen : ∀ o ∈ twoCharOps, o.length = 2 := by decide
      have htake : (v ++ u).take 2 = v := by rw [← hlen v hv]; exact List.take_left
      have hdrop : (v ++ u).drop 2 = u := by rw [← hlen v hv]; exact List.drop_left
      rw [htake, hdrop, if_pos (List.contains_iff_mem.mpr hv)]
    · have hlen : ∀ o ∈ oneCharOps, o.length = 1 := by decide
      have htake : (v ++ u).take 1 = v := by rw [← hlen v hv]; exact List.take_left
      have hdrop : (v ++ u).drop 1 = u := by rw [← hlen v hv]; exact List.drop_left
      have htwo : twoCharOps.contains ((v ++ u).take 2) = false := by
        rw [Bool.eq_false_iff]
        intro h
        have hmem := List.contains_iff_mem.mp h
        -- the second character would be `=` or `~`
        have hsnd : ∀ o ∈ twoCharOps, ∃ d ∈ (o.drop 1).head?, d = '=' ∨ d = '~' := by decide
        obtain ⟨d, hd, hdc⟩ := hsnd _ hmem
        rw [List.drop_take, hdrop] at hd
        have hd' : d ∈ u.head? := by
          cases u with
          | nil => simp at hd
          | cons a u => simpa using hd
        rcases hdc with rfl | rfl
        · exact hu.head_ne (by decide) (by decide) _ hd' rfl
        · exact hu.head_ne (by decide) (by decide) _ hd' rfl
      rw [htwo, htake, hdrop, if_pos (List.contains_iff_mem.mpr hv)]
      rfl
  have hfirst : isQuote c = false ∧ c ≠ '-' ∧ c ≠ '(' ∧ c ≠ ')' := by
    have hall : ∀ o ∈ twoCharOps ++ oneCharOps, ∀ d ∈ o.head?,
        isQuote d = false ∧ d ≠ '-' ∧ d ≠ '(' ∧ d ≠ ')' := by decide
    refine hall v (List.mem_append.mpr hv) c ?_
    obtain ⟨happ, hne⟩ := opAt_append hop
    obtain ⟨a, v, rfl⟩ := List.exists_cons_of_ne_nil hne
    rw [List.cons_append, List.cons.injEq] at happ
    simp [happ.1]
  rw [scan, stringAt_of_not_isQuote hfirst.1,
    commentAt_eq_none (startsWith_dashes hfirst.2.1 s), if_neg hfirst.2.2.1,
    if_neg hfirst.2.2.2, hop]

theorem scan_punctuation {c : Char} (hc : c = '!' ∨ c = '~') {u : Text} (hu : Stops u) :
    scan c u = (.unknown, [c], u) := by
  have hop : opAt (c :: u) = none := by
    cases u with
    | nil => rcases hc with rfl | rfl <;> decide
    | cons d u =>
      have heq : d ≠ '=' := hu.head_ne (by decide) (by decide) d rfl
      have htilde : d ≠ '~' := hu.head_ne (by decide) (by decide) d rfl
      rcases hc with rfl | rfl <;> simp [opAt, twoCharOps, oneCharOps, heq, htilde]
  rcases hc with rfl | rfl
  · rw [scan, stringAt_of_not_isQuote (by decide), commentAt_eq_none (startsWith_dashes (by decide) u),
      if_neg (by decide), if_neg (by decide), hop]
    rfl
  · rw [scan, stringAt_of_not_isQuote (by decide), commentAt_eq_none (startsWith_dashes (by decide) u),
      if_neg (by decide), if_neg (by decide), hop]
    rfl

theorem scan_lparen (u : Text) : scan '(' u = (.lparen, ['('], u) := by
  rw [scan, stringAt_of_not_isQuote (by decide), commentAt_eq_none
    (startsWith_dashes (by decide) u), if_pos rfl]

theorem scan_rparen (u : Text) : scan ')' u = (.rparen, [')'], u) := by
  rw [scan, stringAt_of_not_isQuote (by decide), commentAt_eq_none
    (startsWith_dashes (by decide) u), if_neg (by decide), if_pos rfl]

theorem isWord_logicalWords : ∀ v ∈ logicalWords, IsWord v := by
  have h : ∀ v ∈ logicalWords, wordAt v = some (v, []) := by decide +kernel
  exact h

theorem minusOk_logicalWords : ∀ v ∈ logicalWords, ∀ b, MinusOk b v := by
  unfold MinusOk
  decide

/-! ## Reading a rendered list -/

/-- What may follow the text of a token: its name ends before a parenthesis, and
every other token but an opening parenthesis before white space or a closing
one. -/
def Follows (k : Kind) (u : Text) : Prop :=
  match k with
  | .func => u.head? = some '('
  | .lparen => True
  | _ => Stops u

theorem tokensAfter_of_scan {b : Bool} {v u : Text} {c : Char} {s : Text} {g : Group}
    (e : v ++ u = c :: s) (hc : isSpace c = false) (hscan : scan c s = (g, v, u)) :
    tokensAfter b (v ++ u) =
      emit tokenize b g v ++ tokensAfter (lastIsOp b (emit tokenize b g v)) u := by
  rw [e, tokensAfter_scan hc, hscan]

theorem emit_word {b : Bool} {v : Text} (hl : v ∉ logicalWords) (hm : MinusOk b v) :
    emit tokenize b .word v = [⟨.word, v⟩] ∧ emit tokenize b .func v = [⟨.func, v⟩] := by
  have hc : logicalWords.contains v = false := by
    rw [Bool.eq_false_iff]
    exact fun h => hl (List.contains_iff_mem.mp h)
  simp [emit, hl, hm.2]

theorem tokensAfter_string {b : Bool} {v u : Text} (hv : IsString v) :
    tokensAfter b (v ++ u) = ⟨.string, v⟩ :: tokensAfter false u := by
  obtain ⟨c, r, e, hquote⟩ := hv.exists_quote
  have hc : isSpace c = false := by
    simp only [isQuote, Bool.or_eq_true, decide_eq_true_eq] at hquote
    rcases hquote with rfl | rfl <;> decide
  have hcons : v ++ u = c :: (r ++ u) := by rw [e, List.cons_append]
  have hscan : scan c (r ++ u) = (.string, v, u) := by
    rw [scan, ← hcons, stringAt_extend hv u, List.nil_append]
  rw [tokensAfter_of_scan hcons hc hscan]
  rfl

theorem tokensAfter_op {b : Bool} {v u : Text} (hv : v ∈ twoCharOps ∨ v ∈ oneCharOps)
    (hu : Stops u) : tokensAfter b (v ++ u) = ⟨.op, v⟩ :: tokensAfter true u := by
  have hspace : ∀ o ∈ twoCharOps ++ oneCharOps, o ≠ [] ∧ ∀ d ∈ o.head?, isSpace d = false := by
    decide
  obtain ⟨hne, hhead⟩ := hspace v (List.mem_append.mpr hv)
  obtain ⟨c, r, rfl⟩ := List.exists_cons_of_ne_nil hne
  have hcons : c :: r ++ u = c :: (r ++ u) := List.cons_append
  rw [tokensAfter_of_scan hcons (hhead c rfl) (scan_op hv hu hcons)]
  rfl

theorem tokensAfter_run {b : Bool} {v u : Text} (hv : IsWord v)
    (hcomment : Text.startsWith v "--" = false) (hu : units isWordChar u = ([], u))
    (hdash : ∀ d ∈ u.head?, d ≠ '-') {g : Group}
    (hg : (if u.head? = some '(' then .func else .word) = g) :
    tokensAfter b (v ++ u) =
      emit tokenize b g v ++ tokensAfter (lastIsOp b (emit tokenize b g v)) u := by
  obtain ⟨c, r, e, hc, -⟩ := isWord_iff.mp hv
  have hcons : v ++ u = c :: (r ++ u) := by rw [e, List.cons_append]
  have hscan := scan_word hv hcomment hu hdash hcons
  rw [hg] at hscan
  exact tokensAfter_of_scan hcons (not_isSpace_of_isWordChar hc) hscan

theorem tokensAfter_stopped {b : Bool} {v u : Text} (hv : IsWord v)
    (hcomment : Text.startsWith v "--" = false) (hu : Stops u) :
    tokensAfter b (v ++ u) =
      emit tokenize b .word v ++ tokensAfter (lastIsOp b (emit tokenize b .word v)) u := by
  have hdash : ∀ d ∈ u.head?, d ≠ '-' := hu.head_ne (by decide) (by decide)
  have hparen : u.head? ≠ some '(' := fun h => hu.head_ne (by decide) (by decide) _ h rfl
  exact tokensAfter_run hv hcomment hu.units_eq hdash (if_neg hparen)

theorem tokensAfter_word {b : Bool} {v u : Text} (hv : IsWord v) (hl : v ∉ logicalWords)
    (hm : MinusOk b v) (hu : Stops u) :
    tokensAfter b (v ++ u) = ⟨.word, v⟩ :: tokensAfter false u := by
  rw [tokensAfter_stopped hv hm.1 hu, (emit_word hl hm).1]
  rfl

theorem tokensAfter_logic {b : Bool} {v u : Text} (hv : v ∈ logicalWords) (hu : Stops u) :
    tokensAfter b (v ++ u) = ⟨.logic, v⟩ :: tokensAfter false u := by
  have hemit : emit tokenize b .word v = [⟨.logic, v⟩] := by
    rw [emit, if_pos (List.contains_iff_mem.mpr hv)]
  rw [tokensAfter_stopped (isWord_logicalWords v hv) (minusOk_logicalWords v hv b).1 hu, hemit]
  rfl

theorem tokensAfter_func {b : Bool} {v u : Text} (hv : IsWord v) (hl : v ∉ logicalWords)
    (hm : MinusOk b v) (hu : u.head? = some '(') :
    tokensAfter b (v ++ u) = ⟨.func, v⟩ :: tokensAfter false u := by
  obtain ⟨r, rfl⟩ : ∃ r, u = '(' :: r := by
    cases u with
    | nil => cases hu
    | cons d r =>
      obtain rfl : d = '(' := Option.some.inj hu
      exact ⟨r, rfl⟩
  rw [tokensAfter_run hv hm.1 (units_lparen r) (by simp) (if_pos hu), (emit_word hl hm).2]
  rfl

theorem tokensAfter_punctuation {b : Bool} {c : Char} (hc : c = '!' ∨ c = '~') {u : Text}
    (hu : Stops u) : tokensAfter b (c :: u) = ⟨.word, [c]⟩ :: tokensAfter false u := by
  have hspace : isSpace c = false := by rcases hc with rfl | rfl <;> decide
  have hcons : [c] ++ u = c :: u := List.singleton_append
  rw [← hcons, tokensAfter_of_scan hcons hspace (scan_punctuation hc hu)]
  rfl

theorem tokensAfter_token {b : Bool} {t : Token} {u : Text} (ht : Lexical b t)
    (hu : Follows t.kind u) : tokensAfter b (t.text ++ u) = t :: tokensAfter (t.kind = .op) u := by
  obtain ⟨k, v⟩ := t
  cases k with
  | string => exact tokensAfter_string ht
  | lparen =>
    obtain rfl : v = ['('] := ht
    rw [tokensAfter_of_scan (v := ['(']) (s := u) rfl (by decide) (scan_lparen u)]
    rfl
  | rparen =>
    obtain rfl : v = [')'] := ht
    rw [tokensAfter_of_scan (v := [')']) (s := u) rfl (by decide) (scan_rparen u)]
    rfl
  | op => exact tokensAfter_op ht hu
  | func =>
    obtain ⟨hv, hl, hm⟩ := ht
    exact tokensAfter_func hv hl hm hu
  | logic => exact tokensAfter_logic ht hu
  | word =>
    rcases ht with ⟨hv, hl, hm⟩ | ht | ht
    · exact tokensAfter_word hv hl hm hu
    · obtain rfl : v = ['!'] := ht
      exact tokensAfter_punctuation (Or.inl rfl) hu
    · obtain rfl : v = ['~'] := ht
      exact tokensAfter_punctuation (Or.inr rfl) hu

/-- The parentheses of a token list are written as such. -/
def Parens (t : Token) : Prop :=
  (t.kind = .lparen → t.text = ['(']) ∧ (t.kind = .rparen → t.text = [')'])

theorem Lexical.parens {b : Bool} {t : Token} (h : Lexical b t) : Parens t := by
  obtain ⟨k, v⟩ := t
  exact ⟨fun e => by obtain rfl : k = .lparen := e; exact h,
    fun e => by obtain rfl : k = .rparen := e; exact h⟩

theorem renderFrom_follows {k : Kind} {ts : List Token} (h : ∀ t ∈ ts.head?, Parens t)
    (hk : k = .func → (ts.head?.map Token.kind) = some .lparen) :
    Follows k (renderFrom (some k) ts) := by
  cases ts with
  | nil =>
    cases k with
    | func => cases hk rfl
    | lparen => trivial
    | _ => exact fun c hc => by simp [renderFrom] at hc
  | cons t ts =>
    obtain ⟨hleft, hright⟩ := h t rfl
    have hstop : k ≠ .func → k ≠ .lparen → Stops (renderFrom (some k) (t :: ts)) := by
      intro hf hl c hc
      by_cases hr : t.kind = .rparen
      · simp [renderFrom, separator, hr, hright hr] at hc
        exact Or.inr hc.symm
      · simp [renderFrom, separator, hf, hl, hr] at hc
        exact Or.inl (hc ▸ by decide)
    cases k with
    | func =>
      have hl : t.text = ['('] := hleft (Option.some.inj (hk rfl))
      simp [Follows, renderFrom, separator, hl]
    | lparen => trivial
    | _ => exact hstop (by simp) (by simp)

theorem Regular.head_parens {b : Bool} {ts : List Token} (h : Regular b ts) :
    ∀ t ∈ ts.head?, Parens t := by
  cases ts with
  | nil => exact fun t ht => by cases ht
  | cons u ts => exact fun t ht => (Option.some.inj ht) ▸ h.1.parens

theorem tokensAfter_separator (b : Bool) (previous : Option Kind) (k : Kind) (u : Text) :
    tokensAfter b (separator previous k ++ u) = tokensAfter b u := by
  unfold separator
  split
  · rfl
  · exact tokensAfter_space (by decide) b u

theorem tokensAfter_renderFrom {b : Bool} {ts : List Token} (h : Regular b ts)
    (previous : Option Kind) : tokensAfter b (renderFrom previous ts) = ts := by
  induction ts generalizing b previous with
  | nil => rfl
  | cons t ts ih =>
    obtain ⟨hlex, hfunc, hts⟩ := h
    rw [renderFrom, List.append_assoc, tokensAfter_separator,
      tokensAfter_token hlex (renderFrom_follows hts.head_parens hfunc), ih hts]

/-- **Reading back.**  The tokens of a rendered regular list are that list. -/
theorem tokenize_renderTokens {ts : List Token} (h : Regular false ts) :
    tokenize (renderTokens ts) = ts := tokensAfter_renderFrom h none

end Custodian.Retokenize

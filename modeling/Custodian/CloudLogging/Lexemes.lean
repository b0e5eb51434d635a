import Custodian.CloudLogging.Recasing

/-!
# The tokens of a text

Every token of a text is scanned back from its own text, except for stray quotes
and for function names that start with a quote.
-/

namespace Custodian.Lexemes

open Py Custodian.Tokenizer Custodian.Retokenize Custodian.Recasing

/-! ## Loose lists -/

/-- A word or name that starts with a quote: one that no string closes, or the name
of a call that a minus precedes. -/
def Stray (t : Token) : Prop :=
  (t.kind = .word ∨ t.kind = .func) ∧ ∃ c ∈ t.text.head?, isQuote c = true

instance (t : Token) : Decidable (Stray t) := inferInstanceAs (Decidable (_ ∧ _))

/-- A token that is scanned back, or the name of a call that a minus precedes. -/
def Scanned (afterOp : Bool) (t : Token) : Prop :=
  Lexical afterOp t ∨ (t.kind = .func ∧ t.text ∈ logicalWords)

/-- A regular list in which functions may be called like logical operators. -/
def Loose : Bool → List Token → Prop
  | _, [] => True
  | afterOp, t :: ts => Scanned afterOp t ∧
      (t.kind = .func → (ts.head?.map Token.kind) = some .lparen) ∧ Loose (t.kind = .op) ts

/-- A quote that no string of the text closes, as a word of its own. -/
def LeftOver (t : Token) : Prop := t.kind = .word ∧ ∃ q, isQuote q = true ∧ t.text = [q]

/-- The name of a call that a minus precedes: the tokenizer reads it elsewhere as
a logical operator or as a string. -/
def Misnamed (t : Token) : Prop :=
  t.kind = .func ∧ (units isWordChar t.text).2 = [] ∧
    (t.text ∈ logicalWords ∨ (stringAt t.text).isSome = true)

/-- What a token of any text can be. -/
def Lexeme (afterOp : Bool) (t : Token) : Prop :=
  Lexical afterOp t ∨ Misnamed t ∨ LeftOver t

/-- Every token is a lexeme in its place, and function names are followed by a
parenthesis. -/
def Lexed : Bool → List Token → Prop
  | _, [] => True
  | afterOp, t :: ts => Lexeme afterOp t ∧
      (t.kind = .func → (ts.head?.map Token.kind) = some .lparen) ∧ Lexed (t.kind = .op) ts

theorem Lexeme.parens {b : Bool} {t : Token} (h : Lexeme b t) : Parens t := by
  rcases h with h | ⟨hk, -⟩ | ⟨hk, -⟩
  · exact Lexical.parens h
  · exact ⟨fun e => by simp [hk] at e, fun e => by simp [hk] at e⟩
  · exact ⟨fun e => by simp [hk] at e, fun e => by simp [hk] at e⟩

theorem lastIsOp_cons (b : Bool) (t : Token) (ts : List Token) :
    lastIsOp b (t :: ts) = lastIsOp (t.kind = .op) ts := by
  cases ts with
  | nil => rfl
  | cons u ts => rfl

theorem Lexed.append {b : Bool} {ts us : List Token} (h : Lexed b ts)
    (h' : Lexed (lastIsOp b ts) us) : Lexed b (ts ++ us) := by
  induction ts generalizing b with
  | nil => exact h'
  | cons t ts ih =>
    obtain ⟨hl, hf, hts⟩ := h
    rw [lastIsOp_cons] at h'
    refine ⟨hl, fun e => ?_, ih hts h'⟩
    have hne := hf e
    cases ts with
    | nil => cases hne
    | cons u ts => exact hne

theorem Lexed.head_parens {b : Bool} {ts : List Token} (h : Lexed b ts) :
    ∀ t ∈ ts.head?, Parens t := by
  cases ts with
  | nil => exact fun t ht => by cases ht
  | cons u ts => exact fun t ht => (Option.some.inj ht) ▸ h.1.parens

theorem Lexed.loose {b : Bool} {ts : List Token} (h : Lexed b ts) (hs : ∀ t ∈ ts, ¬ Stray t) :
    Loose b ts := by
  induction ts generalizing b with
  | nil => trivial
  | cons t ts ih =>
    obtain ⟨hl, hf, hts⟩ := h
    refine ⟨?_, hf, ih hts fun u hu => hs u (List.mem_cons_of_mem t hu)⟩
    have hstray := hs t List.mem_cons_self
    rcases hl with hl | ⟨hk, -, hw | hq⟩ | ⟨hk, q, hq, e⟩
    · exact Or.inl hl
    · exact Or.inr ⟨hk, hw⟩
    · obtain ⟨m, hm⟩ := Option.isSome_iff_exists.mp hq
      obtain ⟨happ, q, v, hquote, e⟩ := stringAt_append hm
      refine absurd ⟨Or.inr hk, q, ?_, hquote⟩ hstray
      rw [← happ, e]
      rfl
    · exact absurd ⟨Or.inl hk, q, by rw [e]; rfl, hq⟩ hstray

theorem Loose.right {b : Bool} {ts us : List Token} (h : Loose b (ts ++ us)) :
    Loose (lastIsOp b ts) us := by
  induction ts generalizing b with
  | nil => exact h
  | cons t ts ih =>
    rw [lastIsOp_cons]
    exact ih h.2.2

theorem Loose.left {b : Bool} {ts us : List Token} (h : Loose b (ts ++ us))
    (hf : ∀ t ∈ ts.getLast?, t.kind ≠ .func) : Loose b ts := by
  induction ts generalizing b with
  | nil => trivial
  | cons t ts ih =>
    obtain ⟨hl, hn, hts⟩ := h
    cases ts with
    | nil => exact ⟨hl, fun e => absurd e (hf t rfl), trivial⟩
    | cons u ts => exact ⟨hl, hn, ih hts fun v hv => hf v (by simpa using hv)⟩

theorem Loose.regular {b : Bool} {ts : List Token} (h : Loose b ts)
    (hf : ∀ t ∈ ts, t.kind = .func → t.text ∉ logicalWords) : Regular b ts := by
  induction ts generalizing b with
  | nil => trivial
  | cons t ts ih =>
    obtain ⟨hl, hn, hts⟩ := h
    refine ⟨?_, hn, ih hts fun u hu => hf u (List.mem_cons_of_mem t hu)⟩
    rcases hl with hl | ⟨hk, hw⟩
    · exact hl
    · exact absurd hw (hf t List.mem_cons_self hk)

theorem loose_of_regular {b : Bool} {ts : List Token} (h : Regular b ts) : Loose b ts := by
  induction ts generalizing b with
  | nil => trivial
  | cons t ts ih => exact ⟨Or.inl h.1, h.2.1, ih h.2.2⟩

theorem scanned_lowerToken {b : Bool} {t : Token} (h : Scanned b t) (ct : CaseTable) :
    Lexical b (lowerToken ct t) := by
  rcases h with h | ⟨hk, hw⟩
  · exact lexical_lowerToken h ct
  · obtain ⟨k, v⟩ := t
    obtain rfl : k = .func := hk
    have hr := Recased.lower ct v
    exact ⟨isWord_recased (isWord_logicalWords v hw) hr, lower_not_logical ct v,
      minusOk_recased (minusOk_logicalWords v hw b) hr⟩

theorem Loose.lowerTokens {b : Bool} {ts : List Token} (h : Loose b ts) (ct : CaseTable) :
    Regular b (ts.map (lowerToken ct)) := by
  induction ts generalizing b with
  | nil => trivial
  | cons t ts ih =>
    obtain ⟨hl, hf, hts⟩ := h
    refine ⟨scanned_lowerToken hl ct, fun e => ?_, ?_⟩
    · rw [lowerToken_kind] at e
      have hnext := hf e
      cases ts with
      | nil => cases hnext
      | cons u ts => simpa [lowerToken_kind] using hnext
    · rw [lowerToken_kind]
      exact ih hts

/-! ## Matches -/

theorem units_match (s : Text) : units isWordChar (units isWordChar s).1 =
    ((units isWordChar s).1, []) := by
  have h := units_replace (u := []) (fun _ => isWordChar_of_not_inert)
    (Recased.refl (units isWordChar s).1) rfl
  rwa [List.append_nil] at h

theorem isWord_of_wordAt {s v r : Text} (h : wordAt s = some (v, r)) : IsWord v := by
  cases s with
  | nil => simp [wordAt] at h
  | cons c s =>
    rw [wordAt] at h
    split at h
    · rename_i hc
      simp only [Option.some.injEq, Prod.mk.injEq] at h
      obtain ⟨rfl, -⟩ := h
      exact isWord_iff.mpr ⟨c, _, rfl, hc, by rw [units_match]⟩
    · cases h

theorem startsWith_of_append {v r p : Text} (h : Text.startsWith (v ++ r) p = false) :
    Text.startsWith v p = false := by
  rw [Bool.eq_false_iff] at h ⊢
  intro hv
  refine h ?_
  rw [Text.startsWith, List.isPrefixOf_iff_prefix] at hv ⊢
  exact hv.trans (List.prefix_append v r)

theorem startsWith_of_commentAt {s : Text} (h : commentAt s = none) :
    Text.startsWith s "--" = false := by
  rw [Bool.eq_false_iff]
  intro hs
  rw [commentAt, if_pos hs] at h
  cases h

/-- What a match of the tokenizer can be. -/
def Matched (m : Group × Text × Text) : Prop :=
  match m.1 with
  | .string => IsString m.2.1
  | .comment => True
  | .lparen => m.2.1 = ['(']
  | .rparen => m.2.1 = [')']
  | .op => m.2.1 ∈ twoCharOps ∨ m.2.1 ∈ oneCharOps
  | .func => IsWord m.2.1 ∧ Text.startsWith m.2.1 "--" = false ∧ m.2.2.head? = some '('
  | .word => IsWord m.2.1 ∧ Text.startsWith m.2.1 "--" = false
  | .unknown => ∃ c, m.2.1 = [c] ∧ (isQuote c = true ∨ c = '!' ∨ c = '~')

theorem scan_spec {c : Char} (hc : isSpace c = false) (s : Text) : Matched (scan c s) := by
  unfold scan
  split
  · rename_i hv
    exact isString_of_stringAt hv
  · split
    · trivial
    · rename_i hcomment
      have hdash := startsWith_of_commentAt hcomment
      split
      · rename_i h
        exact congrArg (fun d => [d]) h
      · rename_i hl
        split
        · rename_i h
          exact congrArg (fun d => [d]) h
        · rename_i hr
          split
          · rename_i v r hop
            rw [opAt] at hop
            split at hop
            · rename_i htwo
              simp only [Option.some.injEq, Prod.mk.injEq] at hop
              exact Or.inl (hop.1 ▸ List.contains_iff_mem.mp htwo)
            · split at hop
              · rename_i hone
                simp only [Option.some.injEq, Prod.mk.injEq] at hop
                exact Or.inr (hop.1 ▸ List.contains_iff_mem.mp hone)
              · cases hop
          · rename_i hop
            split
            · rename_i v r hw
              have hv := isWord_of_wordAt hw
              have hd : Text.startsWith v "--" = false := by
                rw [← (wordAt_append hw).1] at hdash
                exact startsWith_of_append hdash
              by_cases hp : r.head? = some '('
              · rw [if_pos hp]
                exact ⟨hv, hd, hp⟩
              · rw [if_neg hp]
                exact ⟨hv, hd⟩
            · rename_i hw
              refine ⟨c, rfl, ?_⟩
              have hword : isWordChar c = false := by
                rw [Bool.eq_false_iff]
                intro h
                rw [wordAt, if_pos h] at hw
                cases hw
              have hone : [c] ∉ oneCharOps := by
                intro h
                rw [opAt] at hop
                split at hop
                · cases hop
                · rw [List.take_succ_cons, List.take_zero,
                    if_pos (List.contains_iff_mem.mpr h)] at hop
                  cases hop
              rw [isWordChar, hc, Bool.not_false, Bool.true_and, Bool.not_eq_false',
                List.contains_iff_mem] at hword
              have hall : ∀ d ∈ "()=><:!~\"'".toList, d ≠ '(' → d ≠ ')' → [d] ∉ oneCharOps →
                  isQuote d = true ∨ d = '!' ∨ d = '~' := by decide
              exact hall c hword hl hr hone

/-! ## The tokens of a text -/

theorem tokensAfter_lparen {u : Text} (h : u.head? = some '(') (b : Bool) :
    (tokensAfter b u).head?.map Token.kind = some .lparen := by
  cases u with
  | nil => cases h
  | cons c u =>
    obtain rfl : c = '(' := Option.some.inj h
    rw [tokensAfter_scan (by decide), scan_lparen]
    rfl

theorem word_cases {b : Bool} {v : Text} (hv : IsWord v) (hd : Text.startsWith v "--" = false) :
    (emit tokenize b .word v = [⟨.logic, v⟩] ∧ emit tokenize b .func v = [⟨.logic, v⟩] ∧
        v ∈ logicalWords) ∨
      (∃ w, v = '-' :: w ∧ (w ≠ [] → emit tokenize b .func v =
          [⟨.logic, "NOT".toList⟩, ⟨.func, w⟩]) ∧ (w = [] → emit tokenize b .func v =
          [⟨.logic, "NOT".toList⟩]) ∧ emit tokenize b .word v =
          ⟨.logic, "NOT".toList⟩ :: tokenize w) ∨
        (emit tokenize b .word v = [⟨.word, v⟩] ∧ emit tokenize b .func v = [⟨.func, v⟩] ∧
          v ∉ logicalWords ∧ MinusOk b v) := by
  by_cases hl : v ∈ logicalWords
  · exact Or.inl (by simp [emit, hl])
  · refine Or.inr ?_
    by_cases hn : isNegation b v = true
    · left
      cases v with
      | nil => exact absurd rfl hv.ne_nil
      | cons c w =>
        have hc : c = '-' := by
          simp only [isNegation, Bool.and_eq_true, Text.startsWith] at hn
          have hminus := hn.1.1
          exact (by simpa using hminus : '-' = c).symm
        subst hc
        refine ⟨w, rfl, ?_, ?_, ?_⟩
        · intro hw
          simp [emit, hl, hn, hw]
        · rintro rfl
          simp [emit, hl, hn]
        · simp [emit, hl, hn]
    · exact Or.inr ⟨by simp [emit, hl, hn], by simp [emit, hl, hn], hl, hd,
        Bool.eq_false_iff.mpr hn⟩

theorem IsWord.units_nil {v : Text} (h : IsWord v) : (units isWordChar v).2 = [] := by
  obtain ⟨c, s, rfl, hc, hs⟩ := isWord_iff.mp h
  rw [units_cons, if_pos hc]
  exact hs

theorem lexeme_negated {w : Text} (hv : IsWord ('-' :: w)) (hd : Text.startsWith ('-' :: w) "--" = false)
    (hw : w ≠ []) : Lexeme false ⟨.func, w⟩ := by
  obtain ⟨c, s, e, -, hu⟩ := isWord_iff.mp hv
  rw [List.cons.injEq] at e
  obtain ⟨rfl, rfl⟩ := e
  obtain ⟨d, w, rfl⟩ := List.exists_cons_of_ne_nil hw
  have hd' : d ≠ '-' := by
    rintro rfl
    simp [Text.startsWith] at hd
  by_cases hword : isWordChar d = true
  · by_cases hl : d :: w ∈ logicalWords
    · exact Or.inr (Or.inl ⟨rfl, hu, Or.inl hl⟩)
    · rw [units_cons, if_pos hword] at hu
      have hminus : Text.startsWith (d :: w) "-" = false := by
        simp [Text.startsWith, List.isPrefixOf, hd'.symm]
      exact Or.inl ⟨isWord_iff.mpr ⟨d, w, rfl, hword, hu⟩, hl, startsWith_dashes hd' w,
        by rw [isNegation, hminus]; rfl⟩
  · have hsome := hu
    rw [units_cons, if_neg hword] at hsome
    split at hsome
    · rename_i hs
      exact Or.inr (Or.inl ⟨rfl, hu, Or.inr (by rw [hs]; rfl)⟩)
    · cases hsome

theorem lexed_tokensAfter (s : Text) (b : Bool) : Lexed b (tokensAfter b s) := by
  induction hn : s.length using Nat.strongRecOn generalizing s b with
  | _ n ih =>
  cases s with
  | nil => trivial
  | cons c s =>
    rw [List.length_cons] at hn
    cases hc : isSpace c with
    | true =>
      rw [tokensAfter_space hc]
      exact ih s.length (by omega) s b rfl
    | false =>
      have hspec := scan_spec hc s
      obtain ⟨htail, hrest⟩ := scan_length c s
      rw [tokensAfter_scan hc]
      generalize scan c s = m at hspec htail hrest ⊢
      obtain ⟨g, v, r⟩ := m
      simp only at htail hrest ⊢
      have hafter := ih r.length (by omega) r (lastIsOp b (emit tokenize b g v)) rfl
      have hlogic : ∀ {us : List Token} {b : Bool} {w : Text}, w ∈ logicalWords →
          Lexed false us → Lexed b (⟨.logic, w⟩ :: us) :=
        fun hw hus => ⟨Or.inl hw, fun e => (by cases e), hus⟩
      have hnot : "NOT".toList ∈ logicalWords := by decide
      cases g with
      | string => exact ⟨Or.inl hspec, fun e => (by cases e), hafter⟩
      | comment => exact hafter
      | lparen => exact ⟨Or.inl hspec, fun e => (by cases e), hafter⟩
      | rparen => exact ⟨Or.inl hspec, fun e => (by cases e), hafter⟩
      | op => exact ⟨Or.inl hspec, fun e => (by cases e), hafter⟩
      | unknown =>
        obtain ⟨d, rfl, hd⟩ := hspec
        refine ⟨?_, fun e => (by cases e), hafter⟩
        rcases hd with hq | rfl | rfl
        · exact Or.inr (Or.inr ⟨rfl, d, hq, rfl⟩)
        · exact Or.inl (Or.inr (Or.inl rfl))
        · exact Or.inl (Or.inr (Or.inr rfl))
      | word =>
        obtain ⟨hv, hd⟩ := hspec
        rcases word_cases (b := b) hv hd with ⟨e, -, hl⟩ | ⟨w, rfl, -, -, e⟩ | ⟨e, -, hl, hm⟩
        · rw [e] at hafter ⊢
          exact hlogic hl hafter
        · rw [e] at hafter ⊢
          have hw := ih w.length (by simp only [List.tail_cons] at htail; omega) w false rfl
          rw [lastIsOp_cons] at hafter ⊢
          exact hlogic hnot (hw.append hafter)
        · rw [e] at hafter ⊢
          exact ⟨Or.inl (Or.inl ⟨hv, hl, hm⟩), fun e => (by cases e), hafter⟩
      | func =>
        obtain ⟨hv, hd, hp⟩ := hspec
        rcases word_cases (b := b) hv hd with ⟨-, e, hl⟩ | ⟨w, rfl, he, he', -⟩ | ⟨-, e, hl, hm⟩
        · rw [e] at hafter ⊢
          exact hlogic hl hafter
        · by_cases hw : w = []
          · rw [he' hw] at hafter ⊢
            exact hlogic hnot hafter
          · rw [he hw] at hafter ⊢
            exact hlogic hnot ⟨lexeme_negated hv hd hw,
              fun _ => tokensAfter_lparen hp _, hafter⟩
        · rw [e] at hafter ⊢
          exact ⟨Or.inl ⟨hv, hl, hm⟩, fun _ => tokensAfter_lparen hp _, hafter⟩

/-- **Lexemes.**  The tokens of a text without stray quotes are scanned back. -/
theorem loose_tokenize {s : Text} (h : ∀ t ∈ tokenize s, ¬ Stray t) : Loose false (tokenize s) :=
  (lexed_tokensAfter s false).loose h

end Custodian.Lexemes

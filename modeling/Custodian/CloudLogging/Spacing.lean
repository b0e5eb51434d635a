import Custodian.CloudLogging.Lexemes

/-!
# Filters with normalized spacing

`normalize_cloud_logging_filter_spacing` of `c7n_gcp/utils.py` renders the tokens of a text.
-/

namespace Custodian.Spacing

open Py Custodian.Tokenizer Custodian.Retokenize Custodian.Recasing Custodian.Lexemes

/-- `normalize_cloud_logging_filter_spacing` -/
def normalizeCloudLoggingFilterSpacing (expression : Text) : Text :=
  renderTokens (tokenize expression)

/-! ## Looking for a closing quote -/

/-- Where the search for the end of a string is. -/
inductive Search where
  | body
  | escaped
  | closed
  | dead
  deriving DecidableEq

/-- One character of the search for the closing quote `q`. -/
def Search.step (q : Char) : Search → Char → Search
  | .body, c => if c = '\\' then .escaped else if c = q then .closed else .body
  | .escaped, c => if c = '\n' then .dead else .body
  | .closed, _ => .closed
  | .dead, _ => .dead

def Search.run (q : Char) (st : Search) (s : Text) : Search := s.foldl (step q) st

namespace Search

variable {q : Char}

@[simp] theorem run_nil (st : Search) : run q st [] = st := rfl

@[simp] theorem run_cons (st : Search) (c : Char) (s : Text) :
    run q st (c :: s) = run q (st.step q c) s := rfl

theorem run_append (st : Search) (s u : Text) : run q st (s ++ u) = run q (run q st s) u :=
  List.foldl_append

@[simp] theorem run_closed (s : Text) : run q .closed s = .closed := by
  induction s with
  | nil => rfl
  | cons c s ih => exact ih

@[simp] theorem run_dead (s : Text) : run q .dead s = .dead := by
  induction s with
  | nil => rfl
  | cons c s ih => exact ih

end Search

theorem stringBody_isSome (q : Char) : ∀ s : Text,
    (stringBody q s).isSome = true ↔ Search.run q .body s = .closed
  | [] => by simp [stringBody]
  | [c] => by
    by_cases hc : c = '\\'
    · simp [stringBody, Search.step, hc]
    · by_cases hq : c = q <;> simp [stringBody, Search.step, hc, hq]
  | c :: d :: s => by
    have ih := stringBody_isSome q s
    have ih' := stringBody_isSome q (d :: s)
    rw [stringBody.eq_def]
    by_cases hc : c = '\\'
    · by_cases hd : d = '\n'
      · simp [Search.step, hc, hd]
      · simpa [Search.step, hc, hd] using ih
    · by_cases hq : c = q
      · obtain rfl : c = q := hq
        simp [Search.step, hc]
      · simpa [Search.step, hc, hq] using ih'

theorem stringAt_cons_eq_none {q : Char} (hq : isQuote q = true) (s : Text) :
    stringAt (q :: s) = none ↔ Search.run q .body s ≠ .closed := by
  rw [stringAt, if_pos hq, Option.map_eq_none_iff, ← Option.not_isSome_iff_eq_none,
    stringBody_isSome]

/-! ## The texts of tokens -/

section Texts

variable {q : Char} {st : Search}

theorem step_ne_dead (h : st ≠ .dead) {c : Char} (hc : c ≠ '\n') : st.step q c ≠ .dead := by
  cases st with
  | body =>
    rw [Search.step]
    split
    · simp
    · split <;> simp
  | escaped => simp [Search.step, hc]
  | closed => simp [Search.step]
  | dead => exact absurd rfl h

theorem run_plain {s : Text} (h : st ≠ .dead) (hs : ∀ c ∈ s, c ≠ '\n') :
    Search.run q st s ≠ .dead := by
  induction s generalizing st with
  | nil => exact h
  | cons c s ih =>
    exact ih (step_ne_dead h (hs c List.mem_cons_self)) fun d hd => hs d (List.mem_cons_of_mem c hd)

theorem run_body_cons {c : Char} (hc : c ≠ '\\') {s : Text} (h : Search.run q .body s ≠ .dead) :
    Search.run q .body (c :: s) ≠ .dead := by
  rw [Search.run_cons, Search.step, if_neg hc]
  split
  · simp
  · exact h

theorem run_stringBody {p : Char} : ∀ {s v r : Text}, stringBody p s = some (v, r) →
    Search.run q .body v ≠ .dead
  | [], _, _, h => by simp [stringBody] at h
  | c :: s, v, r, h => by
    rw [stringBody.eq_def] at h
    simp only at h
    split at h
    · rename_i hc
      split at h
      · cases h
      · rename_i d s
        split at h
        · cases h
        · rename_i hd
          rw [Option.map_eq_some_iff] at h
          obtain ⟨⟨b, r'⟩, hb, e⟩ := h
          rw [Prod.mk.injEq] at e
          obtain ⟨rfl, rfl⟩ := e
          simpa [Search.step, hc, hd] using run_stringBody hb
    · rename_i hc
      split at h
      · simp only [Option.some.injEq, Prod.mk.injEq] at h
        obtain ⟨rfl, rfl⟩ := h
        exact run_body_cons hc (by simp)
      · rw [Option.map_eq_some_iff] at h
        obtain ⟨⟨b, r'⟩, hb, e⟩ := h
        rw [Prod.mk.injEq] at e
        obtain ⟨rfl, rfl⟩ := e
        exact run_body_cons hc (run_stringBody hb)

theorem run_stringAt {s v r : Text} (hv : stringAt s = some (v, r)) (h : st ≠ .dead) :
    Search.run q st v ≠ .dead := by
  cases s with
  | nil => simp [stringAt] at hv
  | cons p s =>
    rw [stringAt] at hv
    split at hv
    · rename_i hp
      rw [Option.map_eq_some_iff] at hv
      obtain ⟨⟨b, r'⟩, hb, e⟩ := hv
      rw [Prod.mk.injEq] at e
      obtain ⟨rfl, rfl⟩ := e
      have hslash : p ≠ '\\' := by
        rintro rfl
        exact absurd hp (by decide)
      have hline : p ≠ '\n' := by
        rintro rfl
        exact absurd hp (by decide)
      have hbody : Search.run q .body b ≠ .dead := run_stringBody hb
      cases st with
      | body => exact run_body_cons hslash hbody
      | escaped => simpa [Search.step, hline] using hbody
      | closed => simp [Search.step]
      | dead => exact absurd rfl h
    · cases hv

theorem run_units {s : Text} (hs : (units isWordChar s).2 = []) (h : st ≠ .dead) :
    Search.run q st s ≠ .dead := by
  induction hn : s.length using Nat.strongRecOn generalizing s st with
  | _ n ih =>
    cases s with
    | nil => exact h
    | cons c s =>
      rw [List.length_cons] at hn
      rw [units_cons] at hs
      split at hs
      · rename_i hc
        have hline : c ≠ '\n' := by
          rintro rfl
          exact absurd hc (by decide)
        exact ih s.length (by omega) (s := s) hs (step_ne_dead h hline) rfl
      · split at hs
        · rename_i v r hv
          have hlen := stringAt_length hv
          rw [List.length_cons] at hlen
          rw [← (stringAt_append hv).1, Search.run_append]
          exact ih r.length (by omega) (s := r) hs (run_stringAt hv h) rfl
        · cases hs

theorem run_lexeme {b : Bool} {t : Token} (ht : Lexeme b t) (h : st ≠ .dead) :
    Search.run q st t.text ≠ .dead := by
  rcases ht with ht | ⟨-, hu, -⟩ | ⟨-, p, hp, e⟩
  · obtain ⟨k, v⟩ := t
    cases k with
    | string => exact run_stringAt ht h
    | lparen =>
      obtain rfl : v = ['('] := ht
      exact run_plain h (by decide)
    | rparen =>
      obtain rfl : v = [')'] := ht
      exact run_plain h (by decide)
    | op =>
      have hall : ∀ o ∈ twoCharOps ++ oneCharOps, ∀ c ∈ o, c ≠ '\n' := by decide
      exact run_plain h (hall v (List.mem_append.mpr ht))
    | func => exact run_units (IsWord.units_nil ht.1) h
    | logic => exact run_units (IsWord.units_nil (isWord_logicalWords v ht)) h
    | word =>
      rcases ht with ht | ht | ht
      · exact run_units (IsWord.units_nil ht.1) h
      · obtain rfl : v = ['!'] := ht
        exact run_plain h (by decide)
      · obtain rfl : v = ['~'] := ht
        exact run_plain h (by decide)
  · exact run_units hu h
  · rw [e]
    refine run_plain h ?_
    rintro c hc rfl
    obtain rfl : '\n' = p := List.mem_singleton.mp hc
    exact absurd hp (by decide)

end Texts

/-! ## Quotes before a rendered list -/

theorem run_separator {q : Char} (hq : isQuote q = true) {st : Search} {previous : Option Kind}
    {k : Kind} {v : Text}
    (hst : st = .body ∨ (st = .escaped ∧ previous ≠ none ∧ previous ≠ some .lparen))
    (hl : k = .lparen → v = ['(']) (hr : k = .rparen → v = [')'])
    (hf : previous = some .func → k = .lparen) :
    Search.run q st (separator previous k ++ v) = Search.run q .body v := by
  have hne : q ≠ ' ' ∧ q ≠ '(' ∧ q ≠ ')' := by
    simp only [isQuote, Bool.or_eq_true, decide_eq_true_eq] at hq
    rcases hq with rfl | rfl <;> decide
  unfold separator
  split
  · rename_i hnone
    rcases hst with rfl | ⟨rfl, hn, hp⟩
    · rfl
    · -- a backslash takes the parenthesis with it
      rcases hnone with h | h | h | h
      · exact absurd h hn
      · rw [hl (hf h)]
        simp [Search.step, hne.2.1.symm]
      · exact absurd h hp
      · rw [hr h]
        simp [Search.step, hne.2.2.symm]
  · rcases hst with rfl | ⟨rfl, -⟩
    · simp [Search.step, hne.1.symm]
    · simp [Search.step]

theorem renderFrom_closes {q : Char} (hq : isQuote q = true) {b : Bool} {ts : List Token}
    (h : Lexed b ts) {previous : Option Kind} {st : Search}
    (hst : st = .body ∨ (st = .escaped ∧ previous ≠ none ∧ previous ≠ some .lparen))
    (hf : previous = some .func → (ts.head?.map Token.kind) = some .lparen) :
    Search.run q st (renderFrom previous ts) = .closed ↔
      ∃ u ∈ ts, Search.run q .body u.text = .closed := by
  induction ts generalizing b previous st with
  | nil => rcases hst with rfl | ⟨rfl, -⟩ <;> simp [renderFrom]
  | cons t ts ih =>
    obtain ⟨hlex, hfunc, hts⟩ := h
    obtain ⟨hl, hr⟩ := hlex.parens
    have hstart := run_separator (v := t.text) hq hst hl hr fun e => Option.some.inj (hf e)
    rw [renderFrom, Search.run_append, hstart]
    by_cases hc : Search.run q .body t.text = .closed
    · rw [hc, Search.run_closed]
      exact ⟨fun _ => ⟨t, List.mem_cons_self, hc⟩, fun _ => rfl⟩
    · have hnext : Search.run q .body t.text = .body ∨
          (Search.run q .body t.text = .escaped ∧ some t.kind ≠ none ∧ some t.kind ≠ some .lparen) := by
        have hdead := @run_lexeme q .body _ _ hlex (by simp)
        cases hrun : Search.run q .body t.text with
        | body => exact Or.inl rfl
        | escaped =>
          refine Or.inr ⟨rfl, by simp, fun e => ?_⟩
          rw [hl (Option.some.inj e), Search.run_cons, Search.run_nil, Search.step,
            if_neg (by decide)] at hrun
          split at hrun <;> cases hrun
        | closed => exact absurd hrun hc
        | dead => exact absurd hrun hdead
      rw [ih hts hnext fun e => hfunc (Option.some.inj e)]
      simp [hc]

/-! ## Reading a normalized filter -/

/-- The tokens that rendering leaves as they are: no function name reads as a logical
operator or as a string, and no left-over quote makes a string with what follows it. -/
def Steady : List Token → Prop
  | [] => True
  | t :: ts => (t.kind = .func → t.text ∉ logicalWords ∧ stringAt t.text = none) ∧
      (t.kind = .word → ∀ u ∈ ts, stringAt (t.text ++ u.text) = none) ∧ Steady ts

theorem stringAt_of_isWord {v : Text} (hv : IsWord v) (u : Text) : stringAt (v ++ u) = none := by
  obtain ⟨c, s, rfl, hc, -⟩ := isWord_iff.mp hv
  exact stringAt_of_not_isQuote (not_isQuote_of_isWordChar hc) (s ++ u)

theorem steady_cons_of_lexical {b : Bool} {t : Token} (h : Lexical b t) (ts : List Token) :
    Steady (t :: ts) ↔ Steady ts := by
  obtain ⟨k, v⟩ := t
  refine ⟨fun h => h.2.2, fun hts => ⟨?_, ?_, hts⟩⟩
  · rintro (rfl : k = .func)
    obtain ⟨hv, hl, -⟩ := h
    refine ⟨hl, ?_⟩
    rw [← List.append_nil v]
    exact stringAt_of_isWord hv []
  · rintro (rfl : k = .word) u -
    rcases h with ⟨hv, -⟩ | h | h
    · exact stringAt_of_isWord hv u.text
    · obtain rfl : v = ['!'] := h
      exact stringAt_of_not_isQuote (by decide) u.text
    · obtain rfl : v = ['~'] := h
      exact stringAt_of_not_isQuote (by decide) u.text

theorem scan_quote {q : Char} (hq : isQuote q = true) {u : Text} (h : stringAt (q :: u) = none) :
    scan q u = (.unknown, [q], u) := by
  have hsigns : q ≠ '-' ∧ q ≠ '(' ∧ q ≠ ')' ∧ isWordChar q = false ∧
      (∀ o ∈ twoCharOps ++ oneCharOps, ∀ d ∈ o.head?, q ≠ d) := by
    simp only [isQuote, Bool.or_eq_true, decide_eq_true_eq] at hq
    rcases hq with rfl | rfl <;> decide
  obtain ⟨hdash, hl, hr, hword, hops⟩ := hsigns
  have hop : opAt (q :: u) = none := by
    rw [opAt, if_neg, if_neg]
    · intro h
      exact hops _ (List.mem_append_right _ (List.contains_iff_mem.mp h)) q rfl rfl
    · intro h
      exact hops _ (List.mem_append_left _ (List.contains_iff_mem.mp h)) q rfl rfl
  have hnone : wordAt (q :: u) = none := by rw [wordAt, hword]; rfl
  rw [scan, h, commentAt_eq_none (startsWith_dashes hdash u), if_neg hl, if_neg hr, hop, hnone]

theorem isSpace_of_isQuote {q : Char} (hq : isQuote q = true) : isSpace q = false := by
  simp only [isQuote, Bool.or_eq_true, decide_eq_true_eq] at hq
  rcases hq with rfl | rfl <;> decide

theorem tokensAfter_stringAt {b : Bool} {s v r : Text} (h : stringAt s = some (v, r)) :
    tokensAfter b s = ⟨.string, v⟩ :: tokensAfter false r := by
  have hv : IsString v := isString_of_stringAt h
  rw [← (stringAt_append h).1]
  exact tokensAfter_string hv

theorem tokensAfter_quote {b : Bool} {q : Char} (hq : isQuote q = true) {u : Text}
    (h : stringAt (q :: u) = none) : tokensAfter b (q :: u) = ⟨.word, [q]⟩ :: tokensAfter false u := by
  rw [tokensAfter_scan (isSpace_of_isQuote hq), scan_quote hq h]
  rfl

theorem tokensAfter_misnamed {b : Bool} {t : Token} (h : Misnamed t) {u : Text}
    (hu : u.head? = some '(') (ts : List Token) : tokensAfter b (t.text ++ u) ≠ t :: ts := by
  obtain ⟨hk, -, hl | hs⟩ := h
  · obtain ⟨r, rfl⟩ : ∃ r, u = '(' :: r := List.head?_eq_some_iff.mp hu
    have hemit : emit tokenize b .func t.text = [⟨.logic, t.text⟩] := by
      rw [emit, if_pos (List.contains_iff_mem.mpr hl)]
    rw [tokensAfter_run (isWord_logicalWords _ hl) (minusOk_logicalWords _ hl b).1
      (units_lparen r) (by simp) (if_pos hu), hemit]
    intro e
    rw [← (List.cons.inj e).1] at hk
    cases hk
  · obtain ⟨⟨v, r⟩, hv⟩ := Option.isSome_iff_exists.mp hs
    rw [tokensAfter_stringAt (stringAt_extend hv u)]
    intro e
    rw [← (List.cons.inj e).1] at hk
    cases hk

theorem stringAt_renderFrom {q : Char} (hq : isQuote q = true) {ts : List Token}
    (h : Lexed false ts) :
    stringAt (q :: renderFrom (some .word) ts) = none ↔ ∀ u ∈ ts, stringAt (q :: u.text) = none := by
  rw [stringAt_cons_eq_none hq, Ne,
    renderFrom_closes hq h (Or.inl rfl) (fun e => by cases Option.some.inj e)]
  simp only [stringAt_cons_eq_none hq, not_exists, not_and, Ne]

theorem tokensAfter_renderFrom_iff {b : Bool} {ts : List Token} (h : Lexed b ts)
    (previous : Option Kind) : tokensAfter b (renderFrom previous ts) = ts ↔ Steady ts := by
  induction ts generalizing b previous with
  | nil => exact ⟨fun _ => trivial, fun _ => rfl⟩
  | cons t ts ih =>
    obtain ⟨hlex, hfunc, hts⟩ := h
    have hfollows := renderFrom_follows hts.head_parens hfunc
    rw [renderFrom, List.append_assoc, tokensAfter_separator]
    rcases hlex with hlex | hmis | ⟨hk, q, hq, e⟩
    · rw [tokensAfter_token hlex hfollows, List.cons_inj_right, ih hts, steady_cons_of_lexical hlex]
    · refine iff_of_false (tokensAfter_misnamed hmis ?_ ts) fun hs => ?_
      · rw [hmis.1] at hfollows ⊢
        exact hfollows
      · obtain ⟨hl, hnone⟩ := hs.1 hmis.1
        rcases hmis.2.2 with hw | hw
        · exact hl hw
        · rw [hnone] at hw
          cases hw
    · obtain ⟨k, v⟩ := t
      obtain rfl : k = .word := hk
      obtain rfl : v = [q] := e
      have hclose := stringAt_renderFrom hq hts
      by_cases hs : stringAt (q :: renderFrom (some .word) ts) = none
      · have hrest : tokensAfter false (renderFrom (some .word) ts) = ts ↔ Steady ts := ih hts _
        rw [List.singleton_append, tokensAfter_quote hq hs, List.cons_inj_right, hrest]
        exact ⟨fun h => ⟨fun e => (by cases e), fun _ => hclose.mp hs, h⟩, fun h => h.2.2⟩
      · refine iff_of_false ?_ fun h => hs (hclose.mpr (h.2.1 rfl))
        obtain ⟨⟨v, r⟩, hv⟩ := Option.ne_none_iff_exists'.mp hs
        rw [List.singleton_append, tokensAfter_stringAt hv]
        simp

/-- **Spacing.**  Normalizing keeps the tokens of a text, and is done after one time, when
they are steady, and only then. -/
theorem normalize_iff (expression : Text) :
    (tokenize (normalizeCloudLoggingFilterSpacing expression) = tokenize expression ∧
      normalizeCloudLoggingFilterSpacing (normalizeCloudLoggingFilterSpacing expression) =
        normalizeCloudLoggingFilterSpacing expression) ↔ Steady (tokenize expression) := by
  have hiff : tokenize (normalizeCloudLoggingFilterSpacing expression) = tokenize expression ↔
      Steady (tokenize expression) :=
    tokensAfter_renderFrom_iff (lexed_tokensAfter expression false) none
  rw [← hiff]
  refine ⟨fun h => h.1, fun h => ⟨h, ?_⟩⟩
  rw [normalizeCloudLoggingFilterSpacing, h, normalizeCloudLoggingFilterSpacing]

/-- The name of a call after a minus may be quoted. -/
theorem quoted_call_changes :
    ¬ (tokenize (normalizeCloudLoggingFilterSpacing "-\"foo\"(x)".toList) =
        tokenize "-\"foo\"(x)".toList ∧
      normalizeCloudLoggingFilterSpacing
          (normalizeCloudLoggingFilterSpacing "-\"foo\"(x)".toList) =
        normalizeCloudLoggingFilterSpacing "-\"foo\"(x)".toList) := by
  decide +kernel

end Custodian.Spacing

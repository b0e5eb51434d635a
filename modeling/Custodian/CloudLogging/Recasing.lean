import Custodian.CloudLogging.Retokenize

/-!
# Rewriting the letters of tokens

Quotes, escapes, signs, digits and the characters between words are inert, so a
text whose letters are rewritten is matched like the original.
-/

namespace Custodian.Recasing

open Py Custodian.Tokenizer Custodian.Retokenize

/-! ## Rewriting the letters of a token -/

/-- Both parts of a match are rewritten. -/
def RecasedPair (p p' : Text × Text) : Prop := Recased p.1 p'.1 ∧ Recased p.2 p'.2

theorem stringBody_letters {q : Char} (hq : isInert q = true) {u : Text}
    (hu : ∀ d ∈ u, isInert d = false) (s : Text) :
    stringBody q (u ++ s) = (stringBody q s).map fun p => (u ++ p.1, p.2) := by
  induction u with
  | nil => simp
  | cons d u ih =>
    have hd := hu d List.mem_cons_self
    have hb : d ≠ '\\' := ne_of_not_inert hd (by decide)
    have hdq : d ≠ q := ne_of_not_inert hd hq
    rw [List.cons_append, stringBody.eq_def]
    simp only
    rw [if_neg hb, if_neg hdq, ih fun e he => hu e (List.mem_cons_of_mem d he), Option.map_map]
    rfl

theorem stringBody_recased {q : Char} (hq : isInert q = true) {s s' : Text} (h : Recased s s') :
    Option.Rel RecasedPair (stringBody q s) (stringBody q s') := by
  have hmap : ∀ {x x' : Option (Text × Text)} {f f' : Text × Text → Text × Text},
      Option.Rel RecasedPair x x' → (∀ p p', RecasedPair p p' → RecasedPair (f p) (f' p')) →
        Option.Rel RecasedPair (x.map f) (x'.map f') := by
    rintro _ _ f f' (⟨h⟩ | _) hf
    · exact .some (hf _ _ h)
    · exact .none
  induction hn : s.length using Nat.strongRecOn generalizing s s' with
  | _ n ih =>
  cases h with
  | nil => exact .none
  | @letter c u s s' hc hne hu h =>
    rw [stringBody_letters hq hu, stringBody.eq_def]
    simp only
    rw [if_neg (ne_of_not_inert hc (by decide)), if_neg (ne_of_not_inert hc hq)]
    exact hmap (ih s.length (by simp [← hn]) h rfl) fun p p' hp => ⟨.letter hc hne hu hp.1, hp.2⟩
  | @inert c s s' hc h =>
    rw [List.length_cons] at hn
    rw [stringBody.eq_def, stringBody.eq_def q (c :: s')]
    simp only
    by_cases hb : c = '\\'
    · subst hb
      simp only [↓reduceIte]
      cases h with
      | nil => exact .none
      | @inert d s s' hd h =>
        simp only
        split
        · exact .none
        · refine hmap (ih s.length ?_ h rfl) fun p p' hp => ⟨.inert hc (.inert hd hp.1), hp.2⟩
          rw [List.length_cons] at hn
          omega
      | @letter d u s s' hd hne hu h =>
        obtain ⟨e, u, rfl⟩ := List.exists_cons_of_ne_nil hne
        have he := hu e List.mem_cons_self
        rw [List.length_cons] at hn
        simp only [List.cons_append]
        rw [if_neg (ne_of_not_inert hd (by decide)), if_neg (ne_of_not_inert he (by decide)),
          stringBody_letters hq fun d hd => hu d (List.mem_cons_of_mem e hd), Option.map_map]
        refine hmap (ih s.length (by omega) h rfl) fun p p' hp => ⟨.inert hc ?_, hp.2⟩
        exact .letter (u := e :: u) hd hne hu hp.1
    · rw [if_neg hb, if_neg hb]
      split
      · exact .some ⟨.refl _, h⟩
      · exact hmap (ih s.length (by omega) h rfl) fun p p' hp => ⟨.inert hc hp.1, hp.2⟩

theorem stringAt_recased {s s' : Text} (h : Recased s s') :
    Option.Rel RecasedPair (stringAt s) (stringAt s') := by
  cases h with
  | nil => exact .none
  | @letter c u s s' hc hne hu h =>
    obtain ⟨e, u, rfl⟩ := List.exists_cons_of_ne_nil hne
    have hno : ∀ {d : Char}, isInert d = false → isQuote d = false :=
      fun hd => not_isQuote_of_isWordChar (isWordChar_of_not_inert hd)
    rw [stringAt_of_not_isQuote (hno hc), List.cons_append,
      stringAt_of_not_isQuote (hno (hu e List.mem_cons_self))]
    exact .none
  | @inert c s s' hc h =>
    rw [stringAt, stringAt]
    split
    · have hb := stringBody_recased hc h
      cases hx : stringBody c s <;> cases hx' : stringBody c s' <;> rw [hx, hx'] at hb <;> cases hb
      · exact .none
      · rename_i hp
        exact .some ⟨.inert hc hp.1, hp.2⟩
    · exact .none

theorem units_letters {isChar : Char → Bool} (hclass : ∀ c, isInert c = false → isChar c = true)
    {u : Text} (hu : ∀ d ∈ u, isInert d = false) (s : Text) :
    units isChar (u ++ s) = (u ++ (units isChar s).1, (units isChar s).2) := by
  induction u with
  | nil => rfl
  | cons d u ih =>
    rw [List.cons_append, units_cons, if_pos (hclass d (hu d List.mem_cons_self)),
      ih fun e he => hu e (List.mem_cons_of_mem d he)]
    rfl

theorem units_recased {isChar : Char → Bool} (hclass : ∀ c, isInert c = false → isChar c = true)
    {s s' : Text} (h : Recased s s') : RecasedPair (units isChar s) (units isChar s') := by
  induction hn : s.length using Nat.strongRecOn generalizing s s' with
  | _ n ih =>
  cases h with
  | nil => exact ⟨.nil, .nil⟩
  | @letter c u s s' hc hne hu h =>
    have hr := ih s.length (by simp [← hn]) h rfl
    rw [units_letters hclass hu, units_cons, if_pos (hclass c hc)]
    exact ⟨.letter hc hne hu hr.1, hr.2⟩
  | @inert c s s' hc h =>
    rw [List.length_cons] at hn
    rw [units_cons, units_cons]
    split
    · have hr := ih s.length (by omega) h rfl
      exact ⟨.inert hc hr.1, hr.2⟩
    · have hs := stringAt_recased (.inert hc h)
      cases hx : stringAt (c :: s) with
      | none =>
        cases hx' : stringAt (c :: s') with
        | none => exact ⟨.nil, .inert hc h⟩
        | some p' =>
          rw [hx, hx'] at hs
          cases hs
      | some p =>
        cases hx' : stringAt (c :: s') with
        | none =>
          rw [hx, hx'] at hs
          cases hs
        | some p' =>
          rw [hx, hx'] at hs
          have hlen := stringAt_length hx
          rw [List.length_cons] at hlen
          cases hs with
          | some hp =>
            have hr := ih p.2.length (by omega) hp.2 rfl
            exact ⟨hp.1.append hr.1, hr.2⟩

theorem stringBody_shrink {q : Char} (u : Text) : ∀ {v : Text},
    stringBody q (v ++ u) = some (v, u) → stringBody q v = some (v, [])
  | [], h => by
    have hlen := congrArg List.length (stringBody_append h)
    cases u with
    | nil => simp [stringBody] at h
    | cons c u =>
      rw [List.nil_append, stringBody.eq_def] at h
      simp only at h
      split at h
      · split at h
        · cases h
        · split at h
          · cases h
          · rw [Option.map_eq_some_iff] at h
            obtain ⟨p, -, e⟩ := h
            cases e
      · split at h
        · cases h
        · rw [Option.map_eq_some_iff] at h
          obtain ⟨p, -, e⟩ := h
          cases e
  | [c], h => by
    rw [List.singleton_append, stringBody.eq_def] at h
    simp only at h
    rw [stringBody.eq_def]
    simp only
    split at h
    · split at h
      · cases h
      · split at h
        · cases h
        · rw [Option.map_eq_some_iff] at h
          obtain ⟨p, -, e⟩ := h
          cases e
    · rename_i hb
      rw [if_neg hb]
      split at h
      · rename_i hq
        rw [if_pos hq]
      · rename_i hq
        rw [Option.map_eq_some_iff] at h
        obtain ⟨p, hp, e⟩ := h
        simp only [Prod.mk.injEq, List.cons.injEq, true_and] at e
        have hlen := congrArg List.length (stringBody_append hp)
        rw [e.1, e.2, List.nil_append] at hlen
        have hno := stringBody_shrink u (v := []) (by rw [List.nil_append, hp, ← e.1, ← e.2])
        cases hno
  | c :: d :: v, h => by
    rw [List.cons_append, List.cons_append, stringBody.eq_def] at h
    simp only at h
    rw [stringBody.eq_def]
    simp only
    split at h
    · rename_i hb
      rw [if_pos hb]
      split at h
      · cases h
      · rename_i hd
        rw [if_neg hd]
        rw [Option.map_eq_some_iff] at h ⊢
        obtain ⟨p, hp, e⟩ := h
        simp only [Prod.mk.injEq, List.cons.injEq, true_and] at e
        exact ⟨(v, []), stringBody_shrink u (by rw [hp, ← e.1, ← e.2]), rfl⟩
    · rename_i hb
      rw [if_neg hb]
      split at h
      · simp at h
      · rename_i hq
        rw [if_neg hq]
        rw [Option.map_eq_some_iff] at h ⊢
        obtain ⟨p, hp, e⟩ := h
        simp only [Prod.mk.injEq, List.cons.injEq, true_and] at e
        refine ⟨(d :: v, []), stringBody_shrink u ?_, rfl⟩
        rw [List.cons_append, hp, ← e.1, ← e.2]

theorem isString_of_stringAt {s v r : Text} (h : stringAt s = some (v, r)) : IsString v := by
  obtain ⟨happ, q, b, hq, rfl⟩ := stringAt_append h
  rw [← happ, List.cons_append, stringAt, if_pos hq, Option.map_eq_some_iff] at h
  obtain ⟨p, hp, e⟩ := h
  simp only [Prod.mk.injEq, List.cons.injEq, true_and] at e
  have hb := stringBody_shrink r (v := b) (by rw [hp, ← e.1, ← e.2])
  rw [IsString, stringAt, if_pos hq, hb]
  rfl

theorem isString_recased {v v' : Text} (hv : IsString v) (h : Recased v v') : IsString v' := by
  have hs := stringAt_recased h
  have hv' : stringAt v = some (v, []) := hv
  rw [hv'] at hs
  cases hx : stringAt v' with
  | none =>
    rw [hx] at hs
    cases hs
  | some p =>
    rw [hx] at hs
    cases hs with
    | some hp =>
      have hnil : p.2 = [] := (Recased.eq_nil_iff hp.2).mp rfl
      have happ := (stringAt_append hx).1
      rw [hnil, List.append_nil] at happ
      rw [IsString, hx, ← hnil]
      exact congrArg some (Prod.ext happ rfl)

theorem isWord_recased {v v' : Text} (hv : IsWord v) (h : Recased v v') : IsWord v' := by
  obtain ⟨c, s, rfl, hc, hs⟩ := isWord_iff.mp hv
  have hrest : ∀ {s s' : Text}, Recased s s' → (units isWordChar s).2 = [] →
      (units isWordChar s').2 = [] := by
    intro s s' h hs
    have hr := (units_recased (fun c => isWordChar_of_not_inert) h).2
    rw [hs] at hr
    exact (Recased.eq_nil_iff hr).mp rfl
  cases h with
  | inert _ h => exact isWord_iff.mpr ⟨c, _, rfl, hc, hrest h hs⟩
  | @letter _ u _ s' _ hne hu h =>
    obtain ⟨e, u, rfl⟩ := List.exists_cons_of_ne_nil hne
    refine isWord_iff.mpr ⟨e, u ++ s', rfl,
      isWordChar_of_not_inert (hu e List.mem_cons_self), ?_⟩
    rw [units_letters (fun c => isWordChar_of_not_inert)
      fun d hd => hu d (List.mem_cons_of_mem e hd)]
    exact hrest h hs

theorem units_replace {isChar : Char → Bool} (hclass : ∀ c, isInert c = false → isChar c = true)
    {s h' u : Text} (hr : Recased (units isChar s).1 h') (hu : units isChar u = ([], u)) :
    units isChar (h' ++ u) = (h', u) := by
  induction hn : s.length using Nat.strongRecOn generalizing s h' with
  | _ n ih =>
  cases s with
  | nil =>
    cases hr
    exact hu
  | cons c s =>
    rw [List.length_cons] at hn
    rw [units_cons] at hr
    split at hr
    · rename_i hc
      cases hr with
      | inert _ hr =>
        rw [List.cons_append, units_cons, if_pos hc, ih s.length (by omega) hr rfl]
      | letter _ _ hd hr =>
        rw [List.append_assoc, units_letters hclass hd, ih s.length (by omega) hr rfl]
    · rename_i hc
      split at hr
      · rename_i v r hv
        have hlen := stringAt_length hv
        rw [List.length_cons] at hlen
        obtain ⟨y, z, rfl, hy, hz⟩ := hr.split
        have hin := ih r.length (by omega) hz rfl
        have hy' : IsString y := isString_recased (isString_of_stringAt hv) hy
        obtain ⟨q, y, rfl, hq⟩ := hy'.exists_quote
        -- the opening quote is the one of the original, so it is no character
        have hqc : q = c := by
          obtain ⟨happ, q', b, -, rfl⟩ := stringAt_append hv
          rw [List.cons_append, List.cons.injEq] at happ
          have hqi := inert_of_isQuote hq
          have := (hy.head_eq hqi).mpr rfl
          rw [List.head?_cons, Option.some.injEq] at this
          rw [← this, happ.1]
        have hext := stringAt_extend hy' (z ++ u)
        rw [List.append_assoc, List.cons_append] at *
        rw [units_cons, hqc, if_neg hc, ← hqc, hext]
        simp only [List.nil_append, hin, List.cons_append]
      · cases hr
        exact hu

theorem startsWith_recased {p : Text} (hp : ∀ c ∈ p, isInert c = true) {v v' : Text}
    (h : Recased v v') : Text.startsWith v' p = Text.startsWith v p := by
  induction h generalizing p with
  | nil => rfl
  | @inert c s s' hc _ ih =>
    cases p with
    | nil => rfl
    | cons d p =>
      have hrec := ih fun e he => hp e (List.mem_cons_of_mem d he)
      simp only [Text.startsWith, List.isPrefixOf] at hrec ⊢
      rw [hrec]
  | @letter c u s s' hc hne hu _ _ =>
    cases p with
    | nil => simp [Text.startsWith]
    | cons d p =>
      obtain ⟨e, u, rfl⟩ := List.exists_cons_of_ne_nil hne
      have hd := hp d List.mem_cons_self
      have hdc : d ≠ c := (ne_of_not_inert hc hd).symm
      have hde : d ≠ e := (ne_of_not_inert (hu e List.mem_cons_self) hd).symm
      simp only [Text.startsWith, List.cons_append, List.isPrefixOf]
      rw [beq_eq_false_iff_ne.mpr hdc, beq_eq_false_iff_ne.mpr hde]
      rfl

theorem isNegativeNumber_recased {v v' : Text} (h : Recased v v') :
    isNegativeNumber v' = isNegativeNumber v := by
  have hdigit : ∀ {d : Char}, isInert d = false → isDigit d = false := by
    intro d hd
    simp only [isInert, Bool.or_eq_false_iff] at hd
    exact hd.1.2
  have hdash : ∀ {d : Char}, isInert d = false → d ≠ '-' := fun hd =>
    ne_of_not_inert hd (by decide)
  cases h with
  | nil => rfl
  | @letter c u s s' hc hne hu _ =>
    obtain ⟨e, u, rfl⟩ := List.exists_cons_of_ne_nil hne
    have he := hdash (hu e List.mem_cons_self)
    have hl : ∀ {c : Char} (t : Text), c ≠ '-' → isNegativeNumber (c :: t) = false := by
      intro c t hc
      cases t <;> simp [isNegativeNumber, hc]
    rw [List.cons_append, hl _ he, hl _ (hdash hc)]
  | @inert c s s' hc h =>
    cases h with
    | nil => rfl
    | inert => rfl
    | @letter d u s s' hd hne hu _ =>
      obtain ⟨e, u, rfl⟩ := List.exists_cons_of_ne_nil hne
      simp [isNegativeNumber, hdigit hd, hdigit (hu e List.mem_cons_self)]

theorem minusOk_recased {b : Bool} {v v' : Text} (hv : MinusOk b v) (h : Recased v v') :
    MinusOk b v' := by
  have hdash : ∀ c ∈ "--".toList, isInert c = true := by decide
  refine ⟨by rw [startsWith_recased hdash h]; exact hv.1, ?_⟩
  have hn := hv.2
  unfold isNegation at hn ⊢
  have hminus : ∀ c ∈ "-".toList, isInert c = true := by decide
  rw [startsWith_recased hminus h, isNegativeNumber_recased h]
  exact hn

theorem lexical_recased {b : Bool} {k : Kind} {v v' : Text} (ht : Lexical b ⟨k, v⟩)
    (hk : k = .word ∨ k = .string ∨ k = .func) (h : Recased v v') (hl : v' ∉ logicalWords) :
    Lexical b ⟨k, v'⟩ := by
  rcases hk with rfl | rfl | rfl
  · rcases ht with ⟨hw, -, hm⟩ | ht
    · exact Or.inl ⟨isWord_recased hw h, hl, minusOk_recased hm h⟩
    · refine Or.inr (ht.imp (fun e => ?_) fun e => ?_)
      · obtain rfl : v = ['!'] := e
        exact Recased.singleton h (by decide)
      · obtain rfl : v = ['~'] := e
        exact Recased.singleton h (by decide)
  · exact isString_recased ht h
  · exact ⟨isWord_recased ht.1 h, hl, minusOk_recased ht.2.2 h⟩

/-! ## Lowercasing tokens -/

theorem lower_not_logical (ct : CaseTable) (v : Text) : ct.lower v ∉ logicalWords := by
  intro h
  have hupper : ∀ w ∈ logicalWords, ∃ c ∈ w, isAsciiUpper c = true := by decide
  obtain ⟨c, hc, hu⟩ := hupper _ h
  exact ct.not_mem_lower hu v hc

theorem lowerToken_kind (ct : CaseTable) (t : Token) : (lowerToken ct t).kind = t.kind := by
  unfold lowerToken
  split <;> rfl

theorem lexical_lowerToken {b : Bool} {t : Token} (h : Lexical b t) (ct : CaseTable) :
    Lexical b (lowerToken ct t) := by
  unfold Tokenizer.lowerToken
  split
  · rename_i hk
    exact lexical_recased (v := t.text) h hk (.lower ct _) (lower_not_logical ct _)
  · exact h

theorem regular_lowerTokens {b : Bool} {ts : List Token} (h : Regular b ts) (ct : CaseTable) :
    Regular b (ts.map (lowerToken ct)) := by
  induction ts generalizing b with
  | nil => trivial
  | cons t ts ih =>
    obtain ⟨hl, hf, hts⟩ := h
    refine ⟨lexical_lowerToken hl ct, fun e => ?_, ?_⟩
    · rw [lowerToken_kind] at e
      have := hf e
      cases ts with
      | nil => cases this
      | cons u ts => simpa [lowerToken_kind] using this
    · rw [lowerToken_kind]
      exact ih hts

theorem lowerToken_lowerToken (ct : CaseTable) (t : Token) :
    lowerToken ct (lowerToken ct t) = lowerToken ct t := by
  by_cases hk : t.kind = .word ∨ t.kind = .string ∨ t.kind = .func
  · simp only [Tokenizer.lowerToken, if_pos hk, CaseTable.lower_lower]
  · simp only [Tokenizer.lowerToken, if_neg hk]

end Custodian.Recasing

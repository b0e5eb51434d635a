import Custodian.CloudLogging.Canonical
import Custodian.CloudLogging.Grammar
import Custodian.CloudLogging.Recasing

/-!
# The tokens of a canonical text

A canonical text is the rendering of a list of tokens.
-/

namespace Custodian.CanonicalTokens

open Py Custodian.Tokenizer Custodian.Retokenize Custodian.Recasing Custodian.Parser
  Custodian.Grammar Custodian.Canonical

variable {ct : CaseTable}

/-! ## Field paths -/

theorem segmentAt_append (s : Text) : (segmentAt s).1 ++ (segmentAt s).2 = s :=
  units_append isSegmentChar s

theorem segmentAt_length {s : Text} (h : (segmentAt s).1 ≠ []) :
    (segmentAt s).2.length < s.length := by
  have hlen := congrArg List.length (segmentAt_append s)
  rw [List.length_append] at hlen
  have := List.length_pos_iff.mpr h
  omega

theorem splitFieldFuel_fuel {n m : Nat} {s : Text} (hn : s.length ≤ n) (hm : s.length ≤ m) :
    splitFieldFuel ct n s = splitFieldFuel ct m s := by
  induction n generalizing m s with
  | zero =>
    have : s = [] := List.length_eq_zero_iff.mp (by omega)
    subst this
    cases m <;> rfl
  | succ n ih =>
    cases s with
    | nil => cases m <;> rfl
    | cons c s =>
      rw [List.length_cons] at hn hm
      cases m with
      | zero => omega
      | succ m =>
        rw [splitFieldFuel, splitFieldFuel]
        by_cases he : (segmentAt (c :: s)).1 = []
        · simp only [he, List.isEmpty_nil, ↓reduceIte, ih (m := m) (s := s) (by omega) (by omega)]
        · have hlen := segmentAt_length he
          rw [List.length_cons] at hlen
          simp only [ih (m := m) (s := (segmentAt (c :: s)).2) (by omega) (by omega),
            ih (m := m) (s := s) (by omega) (by omega)]

@[simp] theorem splitField_nil : splitField ct [] = ([], []) := rfl

theorem splitField_skip {c : Char} {s : Text} (h : (segmentAt (c :: s)).1 = []) :
    splitField ct (c :: s) =
      if (splitField ct s).1 = [] then ([], c :: s)
      else (c :: (splitField ct s).1, (splitField ct s).2) := by
  rw [splitField, List.length_cons, splitFieldFuel]
  simp only [h, List.isEmpty_nil, ↓reduceIte, List.isEmpty_iff]
  rfl

theorem splitField_segment {s : Text} (h : (segmentAt s).1 ≠ []) :
    splitField ct s =
      if isKeyed ct (segmentAt s).1 then segmentAt s
      else ((segmentAt s).1 ++ (splitField ct (segmentAt s).2).1,
        (splitField ct (segmentAt s).2).2) := by
  cases s with
  | nil => exact absurd rfl h
  | cons c s =>
    have hlen := segmentAt_length h
    rw [List.length_cons] at hlen
    have he : (segmentAt (c :: s)).1.isEmpty = false := by simpa using h
    rw [splitField, List.length_cons, splitFieldFuel]
    simp only [he, Bool.false_eq_true, ↓reduceIte, splitField,
      @splitFieldFuel_fuel ct s.length _ (segmentAt (c :: s)).2 (by omega) (Nat.le_refl _)]

theorem splitField_append (s : Text) : (splitField ct s).1 ++ (splitField ct s).2 = s := by
  induction hn : s.length using Nat.strongRecOn generalizing s with
  | _ n ih =>
  cases s with
  | nil => rfl
  | cons c s =>
    by_cases he : (segmentAt (c :: s)).1 = []
    · rw [splitField_skip he]
      split
      · rfl
      · rw [List.cons_append, ih s.length (by simp [← hn]) s rfl]
    · have hlen := segmentAt_length he
      rw [splitField_segment he]
      split
      · exact segmentAt_append _
      · rw [List.append_assoc, ih _ (hn ▸ hlen) _ rfl, segmentAt_append]

theorem isKeyed_lowersTo {s x : Text} (h : LowersTo ct s x) : isKeyed ct x = isKeyed ct s := by
  have hsigma : ∀ k ∈ keyedFields, ∀ c ∈ k, c ≠ 'σ' ∧ c ≠ 'ς' := by decide
  have hx : ct.lower x = x := ct.lower_eq_self h.lowered
  unfold isKeyed
  rw [hx, Bool.eq_iff_iff, List.contains_iff_mem, List.contains_iff_mem]
  constructor
  · intro hk
    rwa [h.unique (.lower s) (hsigma x hk)] at hk
  · intro hk
    rwa [LowersTo.unique (.lower s) h (hsigma _ hk)] at hk

theorem segmentChar_of_not_inert (c : Char) (hc : isInert c = false) : isSegmentChar c = true := by
  have hq : isQuote c = false := not_isQuote_of_isWordChar (isWordChar_of_not_inert hc)
  have hd : c ≠ '.' := ne_of_not_inert hc (by decide)
  simp [isSegmentChar, hq, hd]

theorem segmentAt_nil_recased {s s' : Text} (h : (segmentAt s).1 = []) (hr : Recased s s') :
    (segmentAt s').1 = [] := by
  have hp := (units_recased segmentChar_of_not_inert hr).1
  unfold segmentAt at h ⊢
  rw [h] at hp
  exact (Recased.eq_nil_iff hp).mp rfl

theorem segmentAt_rest (s : Text) : (segmentAt (segmentAt s).2).1 = [] := by
  induction hn : s.length using Nat.strongRecOn generalizing s with
  | _ n ih =>
  cases s with
  | nil => rfl
  | cons c s =>
    rw [List.length_cons] at hn
    unfold segmentAt at ih ⊢
    rw [units_cons]
    split
    · exact ih s.length (by omega) s rfl
    · rename_i hc
      split
      · rename_i v r hv
        have hlen := stringAt_length hv
        rw [List.length_cons] at hlen
        exact ih r.length (by omega) r rfl
      · rename_i hv
        rw [units_cons, if_neg hc, hv]

theorem inert_of_no_segment {c : Char} {s : Text} (h : (segmentAt (c :: s)).1 = []) :
    isInert c = true := by
  cases hc : isInert c with
  | true => rfl
  | false =>
    unfold segmentAt at h
    rw [units_cons, if_pos (segmentChar_of_not_inert c hc)] at h
    cases h

theorem splitField_lowersTo (s : Text) {h' : Text} (hl : LowersTo ct (splitField ct s).1 h') :
    splitField ct (h' ++ (splitField ct s).2) = (h', (splitField ct s).2) := by
  induction hn : s.length using Nat.strongRecOn generalizing s h' with
  | _ n ih =>
  cases s with
  | nil =>
    cases hl
    rfl
  | cons c s =>
    rw [List.length_cons] at hn
    by_cases he : (segmentAt (c :: s)).1 = []
    · have hi := inert_of_no_segment he
      rw [splitField_skip he] at hl ⊢
      split at hl
      · rename_i hno
        rw [if_pos hno]
        cases hl
        rw [List.nil_append, splitField_skip he, if_pos hno]
      · rename_i hno
        rw [if_neg hno]
        obtain ⟨y, rfl, hy⟩ := hl.cons_inert hi
        have hrest := ih s.length (by omega) s hy rfl
        have hne : y ≠ [] := fun e => hno ((Recased.eq_nil_iff hy.recased).mpr e)
        have happ : Recased (c :: s) (c :: (y ++ (splitField ct s).2)) := by
          refine .inert hi ?_
          have := hy.recased.append (Recased.refl (splitField ct s).2)
          rwa [splitField_append] at this
        rw [List.cons_append, splitField_skip (segmentAt_nil_recased he happ), hrest, if_neg hne]
    · have hlen := segmentAt_length he
      rw [List.length_cons] at hlen
      rw [splitField_segment he] at hl ⊢
      have hreplace : ∀ {y u : Text}, LowersTo ct (segmentAt (c :: s)).1 y →
          (segmentAt u).1 = [] → segmentAt (y ++ u) = (y, u) := by
        intro y u hy hu
        refine units_replace segmentChar_of_not_inert hy.recased ?_
        have hsplit := segmentAt_append u
        rw [hu, List.nil_append] at hsplit
        exact Prod.ext hu hsplit
      have hne : ∀ {y : Text}, LowersTo ct (segmentAt (c :: s)).1 y → y ≠ [] :=
        fun hy e => he ((Recased.eq_nil_iff hy.recased).mpr e)
      split at hl
      · rename_i hk
        rw [if_pos hk]
        have hseg := hreplace (u := (segmentAt (c :: s)).2) hl (segmentAt_rest (c :: s))
        rw [splitField_segment (by rw [hseg]; exact hne hl), hseg, isKeyed_lowersTo hl, if_pos hk]
      · rename_i hk
        rw [if_neg hk]
        obtain ⟨y, z, rfl, hy, hz⟩ := hl.split
        have hrest := ih _ (by omega) (segmentAt (c :: s)).2 hz rfl
        have hu : (segmentAt (z ++ (splitField ct (segmentAt (c :: s)).2).2)).1 = [] := by
          refine segmentAt_nil_recased (segmentAt_rest (c :: s)) ?_
          have := hz.recased.append (Recased.refl (splitField ct (segmentAt (c :: s)).2).2)
          rwa [splitField_append] at this
        have hseg := hreplace hy hu
        rw [List.append_assoc, splitField_segment (by rw [hseg]; exact hne hy), hseg,
          isKeyed_lowersTo hy, if_neg hk, hrest]

/-- **Field paths.**  A canonical path is canonical. -/
theorem lowerPath_lowerPath (path : Text) : lowerPath ct (lowerPath ct path) = lowerPath ct path := by
  have hsplit := splitField_lowersTo path (.lower (t := ct) (splitField ct path).1)
  unfold lowerPath
  rw [hsplit]
  simp

theorem lowerPath_recased (path : Text) : Recased path (lowerPath ct path) := by
  have h := (Recased.lower ct (splitField ct path).1).append (Recased.refl (splitField ct path).2)
  rwa [splitField_append] at h

theorem lowerPath_not_logical {path : Text} (h : path ∉ logicalWords) :
    lowerPath ct path ∉ logicalWords := by
  intro hl
  have hupper : ∀ w ∈ logicalWords, ∃ c ∈ w.head?, isAsciiUpper c = true := by decide
  obtain ⟨c, hc, hu⟩ := hupper _ hl
  have happ : (splitField ct path).1 ++ (splitField ct path).2 = path := splitField_append path
  unfold lowerPath at hl hc
  cases e : ct.lower (splitField ct path).1 with
  | nil =>
    have hnil := (Recased.eq_nil_iff (Recased.lower ct (splitField ct path).1)).mpr e
    rw [hnil, List.nil_append] at happ
    rw [e, List.nil_append, happ] at hl
    exact h hl
  | cons d s =>
    rw [e, List.cons_append, List.head?_cons, Option.mem_some_iff] at hc
    exact ct.not_mem_lower hu (splitField ct path).1 (by rw [e, hc]; exact List.mem_cons_self)

/-! ## Fields -/

/-- The tokens of a canonical field. -/
def canonicalField (ct : CaseTable) (tokens : List Token) : List Token :=
  match tokens with
  | [t] => if t.kind = .word then [⟨.word, lowerPath ct t.text⟩] else [t]
  | ts => ts

theorem canonicalizeField_eq (ts : List Token) :
    canonicalizeField ct ts = renderTokens (canonicalField ct ts) := by
  match ts with
  | [] => rfl
  | [t] =>
    simp only [canonicalizeField, canonicalField]
    split
    · simp [renderTokens, renderFrom, separator]
    · rfl
  | _ :: _ :: _ => rfl

theorem canonicalField_canonicalField (ts : List Token) :
    canonicalField ct (canonicalField ct ts) = canonicalField ct ts := by
  match ts with
  | [] => rfl
  | [t] =>
    by_cases hk : t.kind = .word
    · simp only [canonicalField, if_pos hk, ↓reduceIte, lowerPath_lowerPath]
    · simp only [canonicalField, if_neg hk]
  | _ :: _ :: _ => rfl

theorem canonicalField_regular {b : Bool} {ts : List Token} (h : Regular b ts) :
    Regular b (canonicalField ct ts) := by
  match ts, h with
  | [], _ => trivial
  | [t], h =>
    simp only [canonicalField]
    split
    · rename_i hk
      obtain ⟨k, v⟩ := t
      obtain ⟨hl, -, -⟩ := h
      obtain rfl : k = .word := hk
      refine ⟨?_, fun e => (by cases e), trivial⟩
      have hnl : v ∉ logicalWords := by
        rcases hl with hl | hl | hl
        · exact hl.2.1
        · obtain rfl : v = ['!'] := hl
          decide
        · obtain rfl : v = ['~'] := hl
          decide
      exact lexical_recased hl (Or.inl rfl) (lowerPath_recased v) (lowerPath_not_logical hnl)
    · exact h
  | _ :: _ :: _, h => exact h

theorem canonicalField_operand {ts : List Token} (h : Operand ts) :
    Operand (canonicalField ct ts) := by
  match ts, h with
  | [t], h =>
    simp only [canonicalField]
    split
    · exact .single (Or.inl rfl)
    · exact h
  | _ :: _ :: _, h => exact h

/-! ## Values -/

/-- A value without quotes and escapes becomes a string. -/
def quotedKind (t : Token) : Kind :=
  if t.kind = .word ∧ ∀ c ∈ t.text, c ≠ '"' ∧ c ≠ '\'' ∧ c ≠ '\\' then .string else t.kind

/-- The token of a canonical value. -/
def canonicalValue (ct : CaseTable) (t : Token) (lower : Bool) : Token :=
  ⟨quotedKind t, canonicalizeValue ct t lower⟩

theorem stringBody_quoted {s : Text} (h : ∀ c ∈ s, c ≠ '"' ∧ c ≠ '\\') :
    stringBody '"' (s ++ ['"']) = some (s ++ ['"'], []) := by
  induction s with
  | nil => rfl
  | cons c s ih =>
    obtain ⟨hc, hs⟩ := List.forall_mem_cons.mp h
    rw [List.cons_append, stringBody.eq_def]
    simp only
    rw [if_neg hc.2, if_neg hc.1, ih hs]
    rfl

theorem stringBody_requote : ∀ {s : Text}, stringBody '\'' s = some (s, []) → '"' ∉ s →
    stringBody '"' (s.dropLast ++ ['"']) = some (s.dropLast ++ ['"'], [])
  | [], h, _ => by cases h
  | [c], h, hno => by
    rw [stringBody.eq_def] at h
    simp only at h
    rfl
  | c :: d :: s, h, hno => by
    rw [stringBody.eq_def] at h
    simp only at h
    have hc : c ≠ '"' := fun e => hno (by simp [e])
    rw [List.dropLast_cons_cons, List.cons_append, stringBody.eq_def]
    simp only
    split at h
    · rename_i hb
      rw [if_pos hb]
      split at h
      · cases h
      · rename_i hd
        rw [Option.map_eq_some_iff] at h
        obtain ⟨p, hp, e⟩ := h
        simp only [Prod.mk.injEq, List.cons.injEq, true_and] at e
        have hrun : stringBody '\'' s = some (s, []) := by
          rw [hp]
          exact congrArg some (Prod.ext e.1 e.2)
        cases s with
        | nil => cases hrun
        | cons e s =>
          have hin := stringBody_requote hrun fun h => hno (by simp [h])
          rw [List.dropLast_cons_cons, List.cons_append]
          simp only
          rw [if_neg hd, hin]
          rfl
    · rename_i hb
      rw [if_neg hb, if_neg hc]
      split at h
      · simp at h
      · rw [Option.map_eq_some_iff] at h
        obtain ⟨p, hp, e⟩ := h
        simp only [Prod.mk.injEq, List.cons.injEq, true_and] at e
        have hrun : stringBody '\'' (d :: s) = some (d :: s, []) := by
          rw [hp]
          exact congrArg some (Prod.ext e.1 e.2)
        rw [stringBody_requote hrun fun h => hno (List.mem_cons_of_mem c h)]
        rfl

theorem isString_double {s : Text} (h : stringBody '"' (s ++ ['"']) = some (s ++ ['"'], [])) :
    IsString ('"' :: (s ++ ['"'])) := by
  rw [IsString, stringAt, if_pos (by decide), h]
  rfl

theorem isString_quoted {v : Text} (hv : IsString v) (hq : v.head? = some '\'')
    (hno : '"' ∉ v) : IsString ('"' :: (unquoted v ++ ['"'])) := by
  cases v with
  | nil => cases hq
  | cons q s =>
    obtain rfl : q = '\'' := Option.some.inj hq
    have hs : stringBody '\'' s = some (s, []) := by
      have hv' : stringAt ('\'' :: s) = some ('\'' :: s, []) := hv
      rw [stringAt, if_pos (by decide), Option.map_eq_some_iff] at hv'
      obtain ⟨p, hp, e⟩ := hv'
      simp only [Prod.mk.injEq, List.cons.injEq, true_and] at e
      rw [hp]
      exact congrArg some (Prod.ext e.1 e.2)
    exact isString_double (stringBody_requote hs fun h => hno (List.mem_cons_of_mem _ h))

theorem quoteValue_lexical {t : Token} (h : Lexical true t) (hk : t.kind = .word ∨ t.kind = .string) :
    Lexical true ⟨quotedKind t, quoteValue t⟩ := by
  obtain ⟨k, v⟩ := t
  unfold quotedKind quoteValue
  simp only
  by_cases hs : k = .string ∧ v.head? = some '\'' ∧ '"' ∉ v
  · obtain ⟨rfl, hq, hno⟩ := hs
    rw [if_neg (by simp), if_pos ⟨rfl, hq, hno⟩]
    exact isString_quoted h hq hno
  · rw [if_neg hs]
    by_cases hw : k = .word ∧ ∀ c ∈ v, c ≠ '"' ∧ c ≠ '\'' ∧ c ≠ '\\'
    · rw [if_pos hw, if_pos hw]
      exact isString_double (stringBody_quoted fun c hc => ⟨(hw.2 c hc).1, (hw.2 c hc).2.2⟩)
    · rw [if_neg hw, if_neg hw]
      exact h

theorem quotedKind_value {t : Token} (hk : t.kind = .word ∨ t.kind = .string) :
    quotedKind t = .word ∨ quotedKind t = .string := by
  unfold quotedKind
  split
  · exact Or.inr rfl
  · exact hk

theorem canonicalValue_kind {t : Token} (lower : Bool) (hk : t.kind = .word ∨ t.kind = .string) :
    (canonicalValue ct t lower).kind = .word ∨ (canonicalValue ct t lower).kind = .string :=
  quotedKind_value hk

theorem canonicalValue_lexical {t : Token} (h : Lexical true t)
    (hk : t.kind = .word ∨ t.kind = .string) (lower : Bool) :
    Lexical true (canonicalValue ct t lower) := by
  have hq := quoteValue_lexical h hk
  unfold canonicalValue canonicalizeValue
  cases lower
  · exact hq
  · have hkind : quotedKind t = .word ∨ quotedKind t = .string ∨ quotedKind t = .func :=
      (quotedKind_value hk).imp_right Or.inl
    exact lexical_recased hq hkind (.lower ct _) (lower_not_logical ct _)

theorem mem_lower_iff {c : Char} (hc : isInert c = true) {v : Text} : c ∈ ct.lower v ↔ c ∈ v := by
  refine ⟨fun h => ?_, ct.mem_lower hc⟩
  have hr := Recased.lower ct v
  generalize ct.lower v = w at h hr
  induction hr with
  | nil => exact h
  | inert _ _ ih =>
    rcases List.mem_cons.mp h with rfl | h
    · exact List.mem_cons_self
    · exact List.mem_cons_of_mem _ (ih h)
  | letter _ _ hu _ ih =>
    rcases List.mem_append.mp h with h | h
    · rw [hu c h] at hc
      cases hc
    · exact List.mem_cons_of_mem _ (ih h)

/-- A text is quoted already, or has quotes or escapes that keep it as it is. -/
def Quoted (t : Token) : Prop := quotedKind t = t.kind ∧ quoteValue t = t.text

theorem quoted_quoteValue {t : Token} (hk : t.kind = .word ∨ t.kind = .string) :
    Quoted ⟨quotedKind t, quoteValue t⟩ := by
  obtain ⟨k, v⟩ := t
  unfold Quoted quotedKind quoteValue
  simp only
  by_cases hs : k = .string ∧ v.head? = some '\'' ∧ '"' ∉ v
  · obtain ⟨rfl, hq, hno⟩ := hs
    simp [hq, hno]
  · rw [if_neg hs]
    by_cases hw : k = .word ∧ ∀ c ∈ v, c ≠ '"' ∧ c ≠ '\'' ∧ c ≠ '\\'
    · rw [if_pos hw, if_pos hw]
      simp
    · rw [if_neg hw, if_neg hw, if_neg hs, if_neg hw]
      exact ⟨rfl, if_neg hw⟩

theorem Quoted.lower {k : Kind} {v : Text} (h : Quoted ⟨k, v⟩) : Quoted ⟨k, ct.lower v⟩ := by
  have hmem : ∀ c, isInert c = true → (c ∈ ct.lower v ↔ c ∈ v) := fun c hc => mem_lower_iff hc
  have hhead : (ct.lower v).head? = some '\'' ↔ v.head? = some '\'' :=
    ((Recased.lower ct v).head_eq (by decide)).symm
  have hword : (∀ c ∈ ct.lower v, c ≠ '"' ∧ c ≠ '\'' ∧ c ≠ '\\') ↔
      ∀ c ∈ v, c ≠ '"' ∧ c ≠ '\'' ∧ c ≠ '\\' := by
    have hall : ∀ {w : Text}, (∀ c ∈ w, c ≠ '"' ∧ c ≠ '\'' ∧ c ≠ '\\') ↔
        '"' ∉ w ∧ '\'' ∉ w ∧ '\\' ∉ w := by
      intro w
      constructor
      · intro h
        exact ⟨fun e => (h _ e).1 rfl, fun e => (h _ e).2.1 rfl, fun e => (h _ e).2.2 rfl⟩
      · rintro ⟨h1, h2, h3⟩ c hc
        exact ⟨fun e => h1 (e ▸ hc), fun e => h2 (e ▸ hc), fun e => h3 (e ▸ hc)⟩
    rw [hall, hall, hmem _ (by decide), hmem _ (by decide), hmem _ (by decide)]
  unfold Quoted quotedKind quoteValue at h ⊢
  simp only [hhead, hmem '"' (by decide), hword] at h ⊢
  refine ⟨h.1, ?_⟩
  by_cases hs : k = .string ∧ v.head? = some '\'' ∧ '"' ∉ v
  · -- then the text would start with both quotes
    rw [if_pos hs] at h
    have := congrArg List.head? h.2
    rw [hs.2.1] at this
    cases this
  · rw [if_neg hs] at h ⊢
    by_cases hw : k = .word ∧ ∀ c ∈ v, c ≠ '"' ∧ c ≠ '\'' ∧ c ≠ '\\'
    · rw [if_pos hw] at h
      obtain ⟨rfl, -⟩ := hw
      cases h.1
    · rw [if_neg hw]

/-- **Values.**  A canonical value is canonical. -/
theorem canonicalValue_canonicalValue {t : Token} (hk : t.kind = .word ∨ t.kind = .string)
    (lower : Bool) :
    canonicalValue ct (canonicalValue ct t lower) lower = canonicalValue ct t lower := by
  have hq := quoted_quoteValue hk
  unfold canonicalValue canonicalizeValue
  cases lower
  · simp only [Bool.false_eq_true, ↓reduceIte]
    rw [hq.1, hq.2]
  · have hl : Quoted ⟨quotedKind t, ct.lower (quoteValue t)⟩ := hq.lower
    simp only [↓reduceIte]
    rw [hl.1, hl.2, CaseTable.lower_lower]

/-! ## Function calls -/

theorem arguments_map {f : Token → Token} (hf : ∀ t, (f t).kind = t.kind) (depth : Int)
    (ts : List Token) :
    arguments depth (ts.map f) = (arguments depth ts).map fun p => (p.1.map f, p.2.map f) := by
  induction ts generalizing depth with
  | nil => rfl
  | cons t ts ih =>
    have hrec : ∀ d, (arguments d (ts.map f) >>= fun p => pure (f t :: p.1, p.2)) =
        (arguments d ts >>= fun p => pure (t :: p.1, p.2)).map
          fun p : List Token × List Token => (p.1.map f, p.2.map f) := by
      intro d
      rw [ih]
      cases arguments d ts <;> rfl
    rw [List.map_cons, arguments, arguments, hf]
    split
    · exact hrec _
    · split
      · split
        · rfl
        · exact hrec _
      · exact hrec _

theorem operand_map {f : Token → Token} (hf : ∀ t, (f t).kind = t.kind) {ts : List Token}
    (h : Operand ts) : Operand (ts.map f) := by
  cases h with
  | single hk => exact .single (by rwa [hf])
  | call hk ha =>
    refine .call (by rwa [hf]) ?_
    rw [arguments_map hf, ha]
    rfl

end Custodian.CanonicalTokens

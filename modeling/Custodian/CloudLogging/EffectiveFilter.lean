import Custodian.CloudLogging.Meaning

/-!
# The effective filter of a sink

The filter and the exclusions of a sink are canonicalized one by one, put in
parentheses and joined by AND.
-/

namespace Custodian.EffectiveFilter

open Py Custodian.Tokenizer Custodian.Retokenize Custodian.Parser Custodian.Grammar
  Custodian.ParserSpec Custodian.Printing Custodian.Canonical Custodian.Lexemes
  Custodian.FormedTrees Custodian.CanonicalTree Custodian.NormalForm Custodian.Meaning

variable {ct : CaseTable}

/-! ## Parts of a conjunction -/

/-- A text that stands for a tree as an operand of AND. -/
structure Part where
  text : Text
  node : Node
  tokens : List Token
  text_eq : renderTokens tokens = text
  block : Block tokens
  piece : Piece tokens
  reads : Reads ReadsPredicate .unary tokens [node]
  readable : Readable node

theorem reads_parens {n : Node} (h : Readable n) :
    Reads ReadsPredicate .unary (parens (nodeTokens n)) [n] :=
  .paren rfl rfl (.andOne (.orOne (reads_nodeTokens h)))

/-- What is routed, in parentheses. -/
def routedPart {n : Node} (h : Readable n) : Part where
  text := "(".toList ++ nodeText n ++ ")".toList
  node := n
  tokens := parens (nodeTokens n)
  text_eq := renderTokens_parens _
  block := block_parens _
  piece := h.piece.parens
  reads := reads_parens h
  readable := h

/-- What is excluded, in parentheses after NOT. -/
def excludedPart {n : Node} (h : Readable n) : Part where
  text := "NOT (".toList ++ nodeText n ++ ")".toList
  node := .not n
  tokens := notToken :: parens (nodeTokens n)
  text_eq := by
    have hblock := block_parens (nodeTokens n)
    rw [← List.singleton_append, renderTokens_append (.single (by decide)) hblock.head,
      renderTokens_parens]
    rfl
  block := (block_parens _).cons (by decide)
  piece := h.piece.parens.logic (Or.inr (Or.inr rfl))
  reads := .not (reads_parens h)
  readable := .not h

theorem parse_parts {l : List Part} (hne : l ≠ []) :
    parse (" AND ".toList.intercalate (l.map Part.text)) =
      .ok (flatten (gather .and (l.map Part.node))) := by
  have hblock : ∀ ts ∈ l.map Part.tokens, Block ts := by
    intro ts hts
    obtain ⟨p, -, rfl⟩ := List.mem_map.mp hts
    exact p.block
  have hpiece : ∀ ts ∈ l.map Part.tokens, Piece ts := by
    intro ts hts
    obtain ⟨p, -, rfl⟩ := List.mem_map.mp hts
    exact p.piece
  have htext : " AND ".toList.intercalate (l.map Part.text) =
      renderTokens (joinTokens .and (l.map Part.tokens)) := by
    rw [renderTokens_join hblock, List.map_map]
    exact congrArg _ (List.map_congr_left fun p _ => p.text_eq.symm)
  refine parse_of_reads ⟨_, ?_, rfl⟩
  rw [htext, tokenize_renderTokens (piece_join (by simpa using hne) hpiece).regular]
  exact (reads_join hne fun p _ => p.reads).1

theorem canonicalize_parts (l : List Part) :
    ∃ key n, canonicalize ct (" AND ".toList.intercalate (l.map Part.text)) = .ok key ∧
      parse key = .ok n ∧
        ∀ v, Respects ct v → eval v n = l.all fun p => eval v p.node := by
  by_cases hne : l = []
  · subst hne
    exact ⟨[], .all, rfl, rfl, fun v _ => eval_all v⟩
  · have hreadable : Readable (flatten (gather .and (l.map Part.node))) := by
      refine (Formed.gather (by simpa using hne) fun n hn => ?_).flatten
      obtain ⟨p, -, rfl⟩ := List.mem_map.mp hn
      exact p.readable
    have hsource : Source (flatten (gather .and (l.map Part.node))) :=
      hreadable.mono fun n hn => hn.mono (fun _ h => loose_of_regular h) (fun _ h => h) n
    refine ⟨canonicalizeNode ct (flatten (gather .and (l.map Part.node))),
      flatten (canonicalNode ct (flatten (gather .and (l.map Part.node)))), ?_, ?_,
      fun v hv => ?_⟩
    · rw [canonicalize, parse_parts hne]
      rfl
    · rw [← nodeText_canonicalNode hsource, parse_nodeText hsource.canonical]
    · rw [eval_flatten, eval_canonicalNode hv hsource, eval_flatten, eval_gather, evalJoin,
        List.all_map]
      rfl

/-! ## Sinks -/

theorem canonical_cases {e : Text} (h : Plain e) :
    (tokenize e = [] ∧ canonicalizeNode ct (tree e) = [] ∧ ∀ v, evalText v e = true) ∨
      ∃ m, Readable m ∧ tokenize e ≠ [] ∧ nodeText m ≠ [] ∧
        canonicalizeNode ct (tree e) = nodeText m ∧
          ∀ v, Respects ct v → eval v m = evalText v e := by
  rcases h.tree.2 with ⟨ht, htree⟩ | ⟨ht, hs⟩
  · refine Or.inl ⟨ht, by rw [htree]; rfl, fun v => ?_⟩
    rw [h.evalText, htree, eval_all]
  · refine Or.inr ⟨canonicalNode ct (tree e), hs.canonical, ht, nodeText_ne_nil hs.canonical,
      (nodeText_canonicalNode hs).symm, fun v hv => ?_⟩
    rw [h.evalText, eval_canonicalNode hv hs]

/-- Whether an expression has tokens. -/
def hasTokens (e : Text) : Bool := !(tokenize e).isEmpty

theorem hasTokens_iff {e : Text} : hasTokens e = true ↔ tokenize e ≠ [] := by
  simp [hasTokens]

theorem exists_excludedParts {es : List Text} (h : ∀ e ∈ es, Plain e) :
    ∃ l : List Part, (((es.map fun e => canonicalizeNode ct (tree e)).filter fun e => !e.isEmpty).map
        fun e => "NOT (".toList ++ e ++ ")".toList) = l.map Part.text ∧
      ∀ v, Respects ct v →
        (l.all fun p => eval v p.node) = (es.filter hasTokens).all fun e => !evalText v e := by
  induction es with
  | nil => exact ⟨[], rfl, fun _ _ => rfl⟩
  | cons e es ih =>
    obtain ⟨he, hes⟩ := List.forall_mem_cons.mp h
    obtain ⟨l, hl, hv⟩ := ih hes
    rcases @canonical_cases ct e he with ⟨ht, hc, -⟩ | ⟨m, hm, ht, hne, hc, hmean⟩
    · refine ⟨l, ?_, fun v hr => ?_⟩
      · rw [List.map_cons, hc, ← hl]
        rfl
      · have hno : ¬ hasTokens e = true := fun h => hasTokens_iff.mp h ht
        rw [hv v hr, List.filter_cons_of_neg hno]
    · refine ⟨excludedPart hm :: l, ?_, fun v hr => ?_⟩
      · have hkeep : (!(nodeText m).isEmpty) = true := by simpa using hne
        rw [List.map_cons, hc, List.filter_cons_of_pos (p := fun e : Text => !e.isEmpty) hkeep, List.map_cons, List.map_cons, hl]
        rfl
      · rw [List.all_cons, hv v hr, List.filter_cons_of_pos (hasTokens_iff.mpr ht), List.all_cons]
        have hnode : (excludedPart hm).node = .not m := rfl
        rw [hnode, eval_not, hmean v hr]

theorem exists_routedParts {e : Text} (h : Plain e) :
    ∃ l : List Part, (if (canonicalizeNode ct (tree e)).isEmpty then [] else
        ["(".toList ++ canonicalizeNode ct (tree e) ++ ")".toList]) = l.map Part.text ∧
      ∀ v, Respects ct v → (l.all fun p => eval v p.node) = evalText v e := by
  rcases @canonical_cases ct e h with ⟨-, hc, hv⟩ | ⟨m, hm, -, hne, hc, hmean⟩
  · exact ⟨[], by rw [hc]; rfl, fun v _ => (hv v).symm⟩
  · refine ⟨[routedPart hm], ?_, fun v hr => ?_⟩
    · have hno : ¬ (nodeText m).isEmpty = true := by simpa using hne
      rw [hc, if_neg hno]
      rfl
    · have hnode : (routedPart hm).node = m := rfl
      rw [List.all_cons, List.all_nil, Bool.and_true, hnode, hmean v hr]

theorem mapM_canonicalize {es : List Text} (h : ∀ e ∈ es, Plain e) :
    es.mapM (canonicalize ct) = .ok (es.map fun e => canonicalizeNode ct (tree e)) := by
  rw [mapM_eq_ok]
  induction es with
  | nil => exact .nil
  | cons e es ih =>
    obtain ⟨he, hes⟩ := List.forall_mem_cons.mp h
    exact .cons he.canonicalize (ih hes)

/-- **Effective filters.**  The effective filter of a sink matches what its filter
matches and none of its exclusions does, except those without tokens. -/
theorem effectiveFilter_meaning {sink : Sink} (exact : Bool) (hf : Plain (sink.filter.getD []))
    (he : ∀ e ∈ sink.enabled, Plain e) :
    ∃ key n, effectiveFilter ct sink exact = some key ∧ parse key = .ok n ∧
      ∀ v, Respects ct v → evalText v key = (evalText v (sink.filter.getD []) &&
        (sink.enabled.filter hasTokens).all fun e => !evalText v e) := by
  obtain ⟨l, hl, hv⟩ := @exists_routedParts ct _ hf
  obtain ⟨l', hl', hv'⟩ := @exists_excludedParts ct _ he
  obtain ⟨key, n, hkey, hn, hmean⟩ := @canonicalize_parts ct (l ++ l')
  have heffective : effectiveKey ct sink = .ok key := by
    rw [List.map_append] at hkey
    simp only [effectiveKey, hf.canonicalize, mapM_canonicalize he, hl, hl', hkey, hn, bind,
      Except.bind]
    rfl
  refine ⟨key, n, by rw [effectiveFilter, heffective], hn, fun v hr => ?_⟩
  rw [evalText, hn]
  simp only
  rw [hmean v hr, List.all_append, hv v hr, hv' v hr]

/-- **Canonicalization preserves meaning**, that of a filter and that of the
effective filter of a sink. -/
theorem canonicalization_preserves_meaning (ct : CaseTable) :
    (∀ e, Plain e → ∃ c n, canonicalize ct e = .ok c ∧ parse c = .ok n ∧
      ∀ v, Respects ct v → eval v n = evalText v e) ∧
    ∀ (sink : Sink) (exact : Bool), Plain (sink.filter.getD []) →
      (∀ e ∈ sink.enabled, Plain e) →
      ∃ key n, effectiveFilter ct sink exact = some key ∧ parse key = .ok n ∧
        ∀ v, Respects ct v → evalText v key = (evalText v (sink.filter.getD []) &&
          (sink.enabled.filter hasTokens).all fun e => !evalText v e) :=
  ⟨fun _ => parse_canonical, fun _ exact => effectiveFilter_meaning exact⟩

theorem plain_word {e : Text} (ht : tokenize e = [⟨.word, e⟩]) (hq : ∀ c ∈ e.head?, isQuote c = false) :
    Plain e := by
  have hread : ReadsTokens (tokenize e) (.term [⟨.word, e⟩]) := by
    rw [ht]
    exact ⟨[_], .andOne (.orOne (.leaf (.term (.single (Or.inl rfl))))), rfl⟩
  refine ⟨?_, .term [⟨.word, e⟩], parse_of_reads hread, fun lhs hlhs => ?_⟩
  · rw [ht]
    rintro t hmem ⟨-, c, hc, hquote⟩
    rw [List.mem_singleton.mp hmem] at hc
    rw [hq c hc] at hquote
    cases hquote
  · rw [leftSides] at hlhs
    cases hlhs

theorem canonicalization_preserves_meaning_words :
    (∃ c n, canonicalize asciiTable "B".toList = .ok c ∧ parse c = .ok n ∧
      ∀ v, Respects asciiTable v → eval v n = evalText v "B".toList) ∧
    ∃ key n, effectiveFilter asciiTable ⟨some "a".toList, [⟨some "B".toList, false⟩]⟩ true =
      some key ∧ parse key = .ok n ∧ ∀ v, Respects asciiTable v →
        evalText v key = (evalText v "a".toList &&
          (["B".toList].filter hasTokens).all fun e => !evalText v e) := by
  have ha : Plain "a".toList := plain_word (by decide +kernel) (by decide)
  have hb : Plain "B".toList := plain_word (by decide +kernel) (by decide)
  exact ⟨(canonicalization_preserves_meaning asciiTable).1 _ hb,
    (canonicalization_preserves_meaning asciiTable).2
      ⟨some "a".toList, [⟨some "B".toList, false⟩]⟩ true ha (List.forall_mem_singleton.mpr hb)⟩

/-- An exclusion of only a comment excludes nothing, though it matches everything. -/
theorem comment_excludes_nothing :
    effectiveFilter asciiTable ⟨some "a".toList, [⟨some "-- b".toList, false⟩]⟩ false =
        some "a".toList ∧
      ¬ ∀ v, Respects asciiTable v → evalText v "a".toList = (evalText v "a".toList &&
        (Sink.enabled ⟨some "a".toList, [⟨some "-- b".toList, false⟩]⟩).all
          fun e => !evalText v e) := by
  refine ⟨by decide +kernel, fun h => ?_⟩
  have hv := h (fun _ => true) fun _ _ _ => rfl
  exact absurd hv (by decide +kernel)

end Custodian.EffectiveFilter

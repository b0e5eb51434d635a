import Custodian.CloudLogging.CanonicalTokens
import Custodian.CloudLogging.FormedTrees

/-!
# Canonical trees

The canonical text of a tree is the text of its canonical tree, in which the
operands of a group are sorted by their texts and repeated ones are dropped.
-/

namespace Custodian.CanonicalTree

open Py Custodian.Tokenizer Custodian.Retokenize Custodian.Recasing Custodian.Parser
  Custodian.Grammar Custodian.ParserSpec Custodian.Printing Custodian.Canonical
  Custodian.CanonicalTokens Custodian.Lexemes Custodian.FormedTrees

variable {ct : CaseTable} {P : Node → Prop}

/-! ## The tokens of a tree -/

def connectiveToken : Connective → Token
  | .and => andToken
  | .or => orToken

/-- Operands with a connective between them. -/
def joinTokens (k : Connective) : List (List Token) → List Token
  | [] => []
  | [ts] => ts
  | ts :: us :: rest => ts ++ connectiveToken k :: joinTokens k (us :: rest)

mutual
/-- The tokens of a tree with parentheses around every group. -/
def nodeTokens : Node → List Token
  | .all => []
  | .term ts => ts
  | .predicate lhs op rhs => lhs ++ [⟨.op, op⟩, rhs]
  | .not e => notToken :: nodeTokens e
  | .group k cs => parens (joinTokens k (nodesTokens cs))

def nodesTokens : List Node → List (List Token)
  | [] => []
  | n :: ns => nodeTokens n :: nodesTokens ns
end

theorem nodesTokens_eq (ns : List Node) : nodesTokens ns = ns.map nodeTokens := by
  induction ns with
  | nil => rfl
  | cons n ns ih => exact congrArg (nodeTokens n :: ·) ih

@[simp] theorem nodeTokens_all : nodeTokens .all = [] := rfl

@[simp] theorem nodeTokens_term (ts : List Token) : nodeTokens (.term ts) = ts := rfl

@[simp] theorem nodeTokens_predicate (lhs : List Token) (op : Text) (rhs : Token) :
    nodeTokens (.predicate lhs op rhs) = lhs ++ [⟨.op, op⟩, rhs] := rfl

@[simp] theorem nodeTokens_not (e : Node) : nodeTokens (.not e) = notToken :: nodeTokens e := rfl

@[simp] theorem nodeTokens_group (k : Connective) (cs : List Node) :
    nodeTokens (.group k cs) = parens (joinTokens k (cs.map nodeTokens)) :=
  congrArg (fun tss => parens (joinTokens k tss)) (nodesTokens_eq cs)

def nodeText (n : Node) : Text := renderTokens (nodeTokens n)

mutual
/-- The tree of a canonical text. -/
def canonicalNode (ct : CaseTable) : Node → Node
  | .all => .all
  | .term ts => .term (ts.map (lowerToken ct))
  | .predicate lhs op rhs =>
    .predicate (canonicalField ct lhs) op (canonicalValue ct rhs (ignoresCase op))
  | .not e => .not (canonicalNode ct e)
  | .group k cs => gather k (sortedSetBy nodeText (canonicalNodes ct cs))

def canonicalNodes (ct : CaseTable) : List Node → List Node
  | [] => []
  | n :: ns => canonicalNode ct n :: canonicalNodes ct ns
end

theorem canonicalNodes_eq (ns : List Node) : canonicalNodes ct ns = ns.map (canonicalNode ct) := by
  induction ns with
  | nil => rfl
  | cons n ns ih => exact congrArg (canonicalNode ct n :: ·) ih

/-- The operands that a canonical group keeps. -/
def keptNodes (ct : CaseTable) (cs : List Node) : List Node :=
  sortedSetBy nodeText (cs.map (canonicalNode ct))

@[simp] theorem canonicalNode_all : canonicalNode ct .all = .all := rfl

@[simp] theorem canonicalNode_term (ts : List Token) :
    canonicalNode ct (.term ts) = .term (ts.map (lowerToken ct)) := rfl

@[simp] theorem canonicalNode_predicate (lhs : List Token) (op : Text) (rhs : Token) :
    canonicalNode ct (.predicate lhs op rhs) =
      .predicate (canonicalField ct lhs) op (canonicalValue ct rhs (ignoresCase op)) := rfl

@[simp] theorem canonicalNode_not (e : Node) :
    canonicalNode ct (.not e) = .not (canonicalNode ct e) := rfl

@[simp] theorem canonicalNode_group (k : Connective) (cs : List Node) :
    canonicalNode ct (.group k cs) = gather k (keptNodes ct cs) :=
  congrArg (fun ns => gather k (sortedSetBy nodeText ns)) (canonicalNodes_eq cs)

theorem mem_keptNodes {cs : List Node} {m : Node} (h : m ∈ keptNodes ct cs) :
    ∃ c ∈ cs, canonicalNode ct c = m :=
  List.mem_map.mp (mem_of_mem_sortedSetBy h)

theorem keptNodes_ne_nil {cs : List Node} (h : cs ≠ []) : keptNodes ct cs ≠ [] :=
  sortedSetBy_ne_nil (by simpa using h)

/-! ## Canonical trees are formed -/

theorem canonicalNode_formed {T T' L L' : List Token → Prop}
    (hT : ∀ ts, T ts → T' (ts.map (lowerToken ct))) (hL : ∀ ts, L ts → L' (canonicalField ct ts))
    {n : Node} (h : Formed (LeafOf T L) n) : Formed (LeafOf T' L') (canonicalNode ct n) := by
  induction h with
  | @term ts hp =>
    rw [canonicalNode_term]
    exact .term ⟨operand_map (lowerToken_kind ct) hp.1, hT ts hp.2⟩
  | @predicate lhs op v hp =>
    obtain ⟨⟨ho, hl⟩, hop, hk, hv⟩ := hp
    rw [canonicalNode_predicate]
    exact .predicate ⟨⟨canonicalField_operand ho, hL lhs hl⟩, hop, canonicalValue_kind _ hk,
      canonicalValue_lexical hv hk _⟩
  | not _ ih =>
    rw [canonicalNode_not]
    exact .not ih
  | @group k cs hlen _ ih =>
    have hne : cs ≠ [] := by
      rintro rfl
      cases hlen
    rw [canonicalNode_group]
    refine .gather (keptNodes_ne_nil hne) fun m hm => ?_
    obtain ⟨c, hc, rfl⟩ := mem_keptNodes hm
    exact ih c hc

/-- Trees whose tokens are scanned back. -/
abbrev Readable : Node → Prop := Formed (LeafOf (Regular false) (Regular false))

/-- Trees whose tokens are scanned back once terms are lowercased. -/
abbrev Source : Node → Prop := Formed (LeafOf (Loose false) (Regular false))

theorem Source.canonical {n : Node} (h : Source n) : Readable (canonicalNode ct n) :=
  canonicalNode_formed (fun _ hts => hts.lowerTokens ct) (fun _ hts => canonicalField_regular hts) h

theorem piece_join {k : Connective} {l : List (List Token)} (hne : l ≠ []) (h : ∀ ts ∈ l, Piece ts) :
    Piece (joinTokens k l) := by
  match l with
  | [] => exact absurd rfl hne
  | [ts] => exact h ts List.mem_cons_self
  | ts :: us :: rest =>
    have hrest := piece_join (l := us :: rest) (k := k) (by simp)
      fun vs hvs => h vs (List.mem_cons_of_mem ts hvs)
    refine (h ts List.mem_cons_self).append (hrest.logic ?_)
    cases k
    · exact Or.inl rfl
    · exact Or.inr (Or.inl rfl)

theorem Readable.piece {n : Node} (h : Readable n) : Piece (nodeTokens n) := by
  induction h with
  | @term ts hp =>
    rw [nodeTokens_term]
    exact FilterOperand.piece ⟨ts, hp.1, hp.2⟩
  | @predicate lhs op v hp =>
    obtain ⟨⟨ho, hl⟩, hop, hk, hv⟩ := hp
    rw [nodeTokens_predicate]
    exact piece_value ⟨lhs, ho, hl⟩ ⟨op, hop⟩ (⟨v, hk, hv⟩ : Value true)
  | not _ ih =>
    rw [nodeTokens_not]
    exact ih.logic (Or.inr (Or.inr rfl))
  | @group k cs hlen _ ih =>
    rw [nodeTokens_group]
    refine (piece_join ?_ fun ts hts => ?_).parens
    · rintro e
      rw [List.map_eq_nil_iff] at e
      subst e
      cases hlen
    · obtain ⟨c, hc, rfl⟩ := List.mem_map.mp hts
      exact ih c hc

/-! ## Rendering -/

/-- Tokens that are set off by spaces. -/
structure Block (ts : List Token) : Prop where
  head : ∃ t ∈ ts.head?, t.kind ≠ .rparen
  last : ∃ t ∈ ts.getLast?, t.kind ≠ .func ∧ t.kind ≠ .lparen

theorem renderFrom_append (p : Option Kind) (ts us : List Token) :
    renderFrom p (ts ++ us) =
      renderFrom p ts ++ renderFrom ((ts.getLast?.map Token.kind).or p) us := by
  induction ts generalizing p with
  | nil => rfl
  | cons t ts ih =>
    have hlast : ((t :: ts).getLast?.map Token.kind).or p =
        (ts.getLast?.map Token.kind).or (some t.kind) := by
      cases ts with
      | nil => rfl
      | cons u ts =>
        rw [List.getLast?_cons_cons, List.getLast?_eq_some_getLast (List.cons_ne_nil u ts)]
        rfl
    rw [List.cons_append, renderFrom, renderFrom, ih, hlast]
    simp only [List.append_assoc]

theorem renderTokens_append {ts us : List Token} (h : Block ts) (h' : ∃ t ∈ us.head?, t.kind ≠ .rparen) :
    renderTokens (ts ++ us) = renderTokens ts ++ ' ' :: renderTokens us := by
  obtain ⟨t, ht, hf, hl⟩ := h.last
  obtain ⟨u, hu, hr⟩ := h'
  cases us with
  | nil => cases hu
  | cons u' us =>
    obtain rfl : u' = u := Option.some.inj hu
    rw [renderTokens, renderFrom_append, Option.mem_def.mp ht]
    simp only [Option.map_some, Option.some_or, renderFrom, separator, Option.some.injEq, hf, hl,
      hr, reduceCtorEq, or_self, or_false, ↓reduceIte, renderTokens, List.nil_append,
      List.cons_append]

theorem renderTokens_parens (ts : List Token) :
    renderTokens (parens ts) = "(".toList ++ renderTokens ts ++ ")".toList := by
  have hfirst : renderFrom (some .lparen) ts = renderFrom none ts := by
    cases ts with
    | nil => rfl
    | cons t ts => rfl
  rw [parens, renderTokens, renderFrom, renderFrom_append]
  simp only [lparen, rparen, separator, renderFrom, true_or, or_true, ↓reduceIte, hfirst,
    List.nil_append, renderTokens, List.append_nil, List.append_assoc]
  rfl

theorem Block.append {ts us : List Token} (h : Block ts) (h' : Block us) : Block (ts ++ us) where
  head := by
    obtain ⟨t, ht, hr⟩ := h.head
    cases ts with
    | nil => cases ht
    | cons t' ts => exact ⟨t, ht, hr⟩
  last := by
    obtain ⟨t, ht, hr⟩ := h'.last
    have hne : us ≠ [] := by
      rintro rfl
      cases ht
    exact ⟨t, by rwa [List.getLast?_append_of_ne_nil _ hne], hr⟩

theorem Block.cons {t : Token} {ts : List Token} (hk : t.kind ≠ .rparen) (h : Block ts) :
    Block (t :: ts) where
  head := ⟨t, rfl, hk⟩
  last := by
    obtain ⟨u, hu, hr⟩ := h.last
    cases ts with
    | nil => cases hu
    | cons v ts => exact ⟨u, hu, hr⟩

theorem Block.single {t : Token} (h : t.kind ≠ .rparen ∧ t.kind ≠ .func ∧ t.kind ≠ .lparen) :
    Block [t] := ⟨⟨t, rfl, h.1⟩, t, rfl, h.2⟩

theorem block_operand {ts : List Token} (h : Operand ts) : Block ts := by
  cases h with
  | @single t hk =>
    refine .single ?_
    rcases hk with hk | hk <;> rw [hk] <;> decide
  | @call t args hk ha =>
    obtain ⟨as, r, rfl, hr⟩ := arguments_closed ha
    refine ⟨⟨t, rfl, by rw [hk]; decide⟩, r, ?_, by rw [hr]; decide⟩
    rw [← List.cons_append, List.getLast?_concat]
    rfl

theorem block_value {op : Text} {v : Token} (hk : v.kind = .word ∨ v.kind = .string) :
    Block [⟨.op, op⟩, v] := by
  refine .cons (by simp) (.single ?_)
  rcases hk with hk | hk <;> rw [hk] <;> decide

theorem block_parens (ts : List Token) : Block (parens ts) where
  head := ⟨lparen, rfl, by decide⟩
  last := ⟨rparen, by rw [parens, ← List.cons_append, List.getLast?_concat]; rfl, by decide⟩

theorem connectiveToken_kind (k : Connective) : (connectiveToken k).kind = .logic := by
  cases k <;> rfl

theorem block_join {k : Connective} {l : List (List Token)} (hne : l ≠ []) (h : ∀ ts ∈ l, Block ts) :
    Block (joinTokens k l) := by
  match l with
  | [] => exact absurd rfl hne
  | [ts] => exact h ts List.mem_cons_self
  | ts :: us :: rest =>
    have hrest := block_join (l := us :: rest) (k := k) (by simp)
      fun vs hvs => h vs (List.mem_cons_of_mem ts hvs)
    exact (h ts List.mem_cons_self).append
      (hrest.cons (by rw [connectiveToken_kind]; decide))

theorem renderTokens_join {k : Connective} {l : List (List Token)} (h : ∀ ts ∈ l, Block ts) :
    renderTokens (joinTokens k l) = (joiner k).intercalate (l.map renderTokens) := by
  match l with
  | [] => rfl
  | [ts] => simp [joinTokens, List.intercalate]
  | ts :: us :: rest =>
    have hus : ∀ vs ∈ us :: rest, Block vs := fun vs hvs => h vs (List.mem_cons_of_mem ts hvs)
    have hblock := block_join (k := k) (l := us :: rest) (by simp) hus
    have hk : (connectiveToken k).kind ≠ .rparen ∧ (connectiveToken k).kind ≠ .func ∧
        (connectiveToken k).kind ≠ .lparen := by
      rw [connectiveToken_kind]
      decide
    have hjoiner : ∀ s : Text, ' ' :: (renderTokens [connectiveToken k] ++ ' ' :: s) =
        joiner k ++ s := by
      intro s
      cases k <;> rfl
    have hrest : renderTokens (connectiveToken k :: joinTokens k (us :: rest)) =
        renderTokens [connectiveToken k] ++ ' ' :: renderTokens (joinTokens k (us :: rest)) :=
      renderTokens_append (.single hk) hblock.head
    rw [joinTokens, renderTokens_append (h ts List.mem_cons_self) ⟨_, rfl, hk.1⟩, hrest, hjoiner,
      renderTokens_join hus]
    simp [List.intercalate]

theorem canonicalizeNode_group (k : Connective) (cs : List Node) :
    canonicalizeNode ct (.group k cs) =
      match sortedSet (cs.map (canonicalizeNode ct)) with
      | [c] => c
      | cs => "(".toList ++ (joiner k).intercalate cs ++ ")".toList := by
  rw [← canonicalizeNodes_eq]
  exact canonicalizeNode.eq_1 ct k cs

theorem block_nodeTokens {T L : List Token → Prop} {n : Node} (h : Formed (LeafOf T L) n) :
    Block (nodeTokens n) := by
  induction h with
  | term hp =>
    rw [nodeTokens_term]
    exact block_operand hp.1
  | predicate hp =>
    rw [nodeTokens_predicate]
    exact (block_operand hp.1.1).append (block_value hp.2.2.1)
  | not _ ih =>
    rw [nodeTokens_not]
    exact ih.cons (by decide)
  | group =>
    rw [nodeTokens_group]
    exact block_parens _

theorem block_canonicalNode {T L : List Token → Prop} {n : Node} (h : Formed (LeafOf T L) n) :
    Block (nodeTokens (canonicalNode ct n)) := by
  have hformed : Formed (LeafOf (fun _ => True) (fun _ => True)) (canonicalNode ct n) :=
    canonicalNode_formed (fun _ _ => trivial) (fun _ _ => trivial) h
  exact block_nodeTokens hformed

/-- **Canonical texts.**  The canonical text of a tree is the text of its
canonical tree. -/
theorem nodeText_canonicalNode {T L : List Token → Prop} {n : Node} (h : Formed (LeafOf T L) n) :
    nodeText (canonicalNode ct n) = canonicalizeNode ct n := by
  unfold nodeText
  induction h with
  | @term ts hp => rw [canonicalNode_term, nodeTokens_term, canonicalizeNode]
  | @predicate lhs op v hp =>
    have hv := @canonicalValue_kind ct v (ignoresCase op) hp.2.2.1
    have hrest : renderTokens [⟨.op, op⟩, canonicalValue ct v (ignoresCase op)] =
        op ++ ' ' :: canonicalizeValue ct v (ignoresCase op) := by
      have hne : (canonicalValue ct v (ignoresCase op)).kind ≠ .rparen := by
        rcases hv with hv | hv <;> rw [hv] <;> decide
      simp only [renderTokens, renderFrom, separator, hne, true_or, reduceCtorEq, Option.some.injEq,
        or_self, ↓reduceIte, List.nil_append, List.append_nil, List.singleton_append]
      rfl
    rw [canonicalNode_predicate, nodeTokens_predicate, canonicalizeNode, canonicalizeField_eq,
      renderTokens_append (block_operand (canonicalField_operand hp.1.1)) (block_value hv).head,
      hrest]
    simp
  | @not e he ih =>
    have hblock : Block (nodeTokens (canonicalNode ct e)) := block_canonicalNode he
    rw [canonicalNode_not, nodeTokens_not, canonicalizeNode, ← ih, ← List.singleton_append,
      renderTokens_append (.single (by decide)) hblock.head]
    rfl
  | @group k cs hlen hcs ih =>
    have hkeys : (keptNodes ct cs).map nodeText = sortedSet (cs.map (canonicalizeNode ct)) := by
      rw [keptNodes, map_sortedSetBy, List.map_map]
      exact congrArg sortedSet (List.map_congr_left fun c hc => ih c hc)
    have hblocks : ∀ m ∈ keptNodes ct cs, Block (nodeTokens m) := by
      intro m hm
      obtain ⟨c, hc, rfl⟩ := mem_keptNodes hm
      exact block_canonicalNode (hcs c hc)
    rw [canonicalNode_group, canonicalizeNode_group, ← hkeys]
    generalize keptNodes ct cs = l at hblocks
    rcases l with _ | ⟨m, _ | ⟨m', ms⟩⟩
    · rfl
    · rfl
    · have hjoin := renderTokens_join (k := k) (l := (m :: m' :: ms).map nodeTokens) <| by
        intro ts hts
        obtain ⟨n, hn, rfl⟩ := List.mem_map.mp hts
        exact hblocks n hn
      rw [gather_group (by simp), nodeTokens_group, renderTokens_parens, hjoin, List.map_map]
      rfl

/-! ## Canonical trees are canonical -/

theorem canonicalNode_gather {k : Connective} {ns : List Node}
    (hinc : Increasing nodeText ns) (h : ∀ n ∈ ns, canonicalNode ct n = n) :
    canonicalNode ct (gather k ns) = gather k ns := by
  have hmap : ns.map (canonicalNode ct) = ns := (List.map_congr_left h).trans (List.map_id ns)
  match ns with
  | [] => rfl
  | [n] => exact h n List.mem_cons_self
  | n :: m :: ns =>
    rw [gather, canonicalNode_group, keptNodes, hmap, sortedSetBy_eq_self hinc]
    rfl
    · simp

/-- **Canonical trees.**  A canonical tree is its own canonical tree. -/
theorem canonicalNode_canonicalNode {T L : List Token → Prop} {n : Node}
    (h : Formed (LeafOf T L) n) :
    canonicalNode ct (canonicalNode ct n) = canonicalNode ct n := by
  induction h with
  | @term ts hp =>
    rw [canonicalNode_term, canonicalNode_term, List.map_map]
    exact congrArg _ (List.map_congr_left fun t _ => lowerToken_lowerToken ct t)
  | @predicate lhs op v hp =>
    rw [canonicalNode_predicate, canonicalNode_predicate, canonicalField_canonicalField,
      canonicalValue_canonicalValue hp.2.2.1]
  | not _ ih => rw [canonicalNode_not, canonicalNode_not, ih]
  | @group k cs hlen hcs ih =>
    rw [canonicalNode_group]
    refine canonicalNode_gather (increasing_sortedSetBy _) fun m hm => ?_
    obtain ⟨c, hc, rfl⟩ := mem_keptNodes hm
    exact ih c hc

theorem canonicalizeNode_canonicalNode {n : Node} (h : Source n) :
    canonicalizeNode ct (canonicalNode ct n) = canonicalizeNode ct n := by
  rw [← nodeText_canonicalNode h.canonical, canonicalNode_canonicalNode h, nodeText_canonicalNode h]

/-! ## Texts are read back -/

theorem reads_join {α : Type} {leaf : List Token → Node → Prop} {pr : α → List Token}
    {f : α → Node} {l : List α} (hne : l ≠ []) (h : ∀ a ∈ l, Reads leaf .unary (pr a) [f a]) :
    Reads leaf .conjunction (joinTokens .and (l.map pr)) (l.map f) ∧
      Reads leaf .disjunction (joinTokens .or (l.map pr)) (l.map f) := by
  match l with
  | [] => exact absurd rfl hne
  | [a] =>
    have ha := h a List.mem_cons_self
    exact ⟨.andOne (.orOne ha), .orOne ha⟩
  | a :: b :: l =>
    have ha := h a List.mem_cons_self
    obtain ⟨hand, hor⟩ := @reads_join α leaf pr f (b :: l) (by simp)
      fun c hc => h c (List.mem_cons_of_mem a hc)
    exact ⟨.andCons (.orOne ha) hand, .orCons ha hor⟩

theorem reads_nodeTokens {T L : List Token → Prop} {n : Node} (h : Formed (LeafOf T L) n) :
    Reads ReadsPredicate .unary (nodeTokens n) [n] := by
  induction h with
  | term hp =>
    rw [nodeTokens_term]
    exact .leaf (.term hp.1)
  | @predicate lhs op v hp =>
    rw [nodeTokens_predicate]
    exact .leaf (.value (o := ⟨.op, op⟩) hp.1.1 rfl hp.2.2.1)
  | not _ ih =>
    rw [nodeTokens_not]
    exact .not ih
  | @group k cs hlen hcs ih =>
    have hne : cs ≠ [] := by
      rintro rfl
      cases hlen
    obtain ⟨hand, hor⟩ := reads_join (f := id) hne ih
    rw [List.map_id] at hand hor
    have hgather := gather_group (k := k) hlen
    rw [nodeTokens_group, ← hgather]
    cases k with
    | and => exact .paren rfl rfl hand
    | or => exact .paren rfl rfl (.andOne hor)

/-- **Reading back.**  The text of a readable tree is parsed to it, flattened. -/
theorem parse_nodeText {n : Node} (h : Readable n) : parse (nodeText n) = .ok (flatten n) := by
  refine parse_of_reads ⟨[n], ?_, rfl⟩
  rw [nodeText, tokenize_renderTokens h.piece.regular]
  exact .andOne (.orOne (reads_nodeTokens h))

theorem nodeText_ne_nil {n : Node} (h : Readable n) : nodeText n ≠ [] := by
  intro he
  have ht := tokenize_renderTokens h.piece.regular
  rw [← nodeText, he] at ht
  exact h.piece.ne_nil ht.symm

theorem tokens_of_text {n m : Node} (hn : Readable n) (hm : Readable m)
    (h : nodeText n = nodeText m) : nodeTokens n = nodeTokens m := by
  rw [← tokenize_renderTokens hn.piece.regular, ← tokenize_renderTokens hm.piece.regular]
  exact congrArg tokenize h

theorem flatten_of_text {n m : Node} (hn : Readable n) (hm : Readable m)
    (h : nodeText n = nodeText m) : flatten n = flatten m := by
  have hp := parse_nodeText hn
  rw [h, parse_nodeText hm, Except.ok.injEq] at hp
  exact hp.symm

end Custodian.CanonicalTree

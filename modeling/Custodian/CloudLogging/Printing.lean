import Custodian.CloudLogging.ParserSpec
import Custodian.CloudLogging.Retokenize

/-!
# Printed filters are parsed back

`Tree` is the surface syntax of filters and of value lists.  It is printed with
the parentheses that precedence requires and no others.
-/

namespace Custodian.Printing

open Py Custodian.Tokenizer Custodian.Retokenize Custodian.Parser Custodian.Grammar
  Custodian.ParserSpec

/-! ## Flat nodes -/

/-- The node is a group of the given type. -/
def IsGroup (k : Connective) : Node → Prop
  | .group k' _ => k' = k
  | _ => False

/-- No child of the node is a group of its type. -/
def NoNested : Node → Prop
  | .group k cs => ∀ c ∈ cs, ¬ IsGroup k c
  | _ => True

theorem spliced_of_not {k : Connective} {n : Node} (h : ¬ IsGroup k n) : spliced k n = [n] := by
  cases n with
  | group k' cs => exact if_neg h
  | _ => rfl

theorem not_isGroup_of_mem_spliced {k : Connective} {n m : Node} (h : NoNested n)
    (hm : m ∈ spliced k n) : ¬ IsGroup k m := by
  by_cases hk : IsGroup k n
  · cases n with
    | group k' cs =>
      obtain rfl : k' = k := hk
      rw [spliced, if_pos rfl] at hm
      exact h m hm
    | _ => cases hk
  · rw [spliced_of_not hk] at hm
    rwa [List.mem_singleton.mp hm]

/-- Everywhere in the node no child of a group is a group of its type. -/
inductive Flat : Node → Prop where
  | all : Flat .all
  | term {ts} : Flat (.term ts)
  | predicate {lhs op rhs} : Flat (.predicate lhs op rhs)
  | not {e} : Flat e → Flat (.not e)
  | group {k cs} : (∀ c ∈ cs, ¬ IsGroup k c) → (∀ c ∈ cs, Flat c) → Flat (.group k cs)

theorem Flat.noNested {n : Node} (h : Flat n) : NoNested n := by
  cases h with
  | group hno => exact hno
  | _ => trivial

theorem Flat.of_mem_spliced {k : Connective} {n m : Node} (h : Flat n) (hm : m ∈ spliced k n) :
    Flat m := by
  by_cases hk : IsGroup k n
  · cases h with
    | @group k' cs hno hcs =>
      obtain rfl : k' = k := hk
      rw [spliced, if_pos rfl] at hm
      exact hcs m hm
    | _ => cases hk
  · rw [spliced_of_not hk] at hm
    rwa [List.mem_singleton.mp hm]

theorem joinNodes_flat {k : Connective} {ns : List Node} (h : ∀ n ∈ ns, Flat n) :
    Flat (joinNodes k ns) := by
  unfold joinNodes
  split
  · rename_i n hn
    obtain ⟨m, hm, hmem⟩ := List.mem_flatMap.mp (show n ∈ ns.flatMap (spliced k) by simp [hn])
    exact (h m hm).of_mem_spliced hmem
  · refine .group (fun c hc => ?_) fun c hc => ?_
    · obtain ⟨m, hm, hmem⟩ := List.mem_flatMap.mp hc
      exact not_isGroup_of_mem_spliced (h m hm).noNested hmem
    · obtain ⟨m, hm, hmem⟩ := List.mem_flatMap.mp hc
      exact (h m hm).of_mem_spliced hmem

/-- **Flattening.**  A flattened tree has no nested groups of one type. -/
theorem flatten_flat (n : Node) : Flat (flatten n) := by
  induction n using node_induct with
  | all => exact flatten_all ▸ .all
  | term ts => exact flatten_term ts ▸ .term
  | predicate lhs op rhs => exact flatten_predicate lhs op rhs ▸ .predicate
  | not e ih => exact flatten_not e ▸ .not ih
  | group k ns ih =>
    rw [flatten_group]
    refine joinNodes_flat fun m hm => ?_
    obtain ⟨n, hn, rfl⟩ := List.mem_map.mp hm
    exact ih n hn

theorem spliced_joinNodes {k : Connective} {ns : List Node} (h : ∀ n ∈ ns, NoNested n) :
    spliced k (joinNodes k ns) = ns.flatMap (spliced k) := by
  unfold joinNodes
  split
  · rename_i n hn
    obtain ⟨m, hm, hmem⟩ := List.mem_flatMap.mp (show n ∈ ns.flatMap (spliced k) by simp [hn])
    rw [hn, spliced_of_not (not_isGroup_of_mem_spliced (h m hm) hmem)]
  · rw [spliced, if_pos rfl]

theorem joinNodes_congr {k : Connective} {ns ms : List Node}
    (h : ns.flatMap (spliced k) = ms.flatMap (spliced k)) : joinNodes k ns = joinNodes k ms := by
  unfold joinNodes
  rw [h]

theorem joinNodes_append {k : Connective} {ns ms : List Node} (hn : ∀ n ∈ ns, NoNested n)
    (hm : ∀ m ∈ ms, NoNested m) :
    joinNodes k (ns ++ ms) = joinNodes k [joinNodes k ns, joinNodes k ms] := by
  have hflat : (ns ++ ms).flatMap (spliced k) =
      [joinNodes k ns, joinNodes k ms].flatMap (spliced k) := by
    rw [List.flatMap_append, List.flatMap_cons, List.flatMap_singleton, spliced_joinNodes hn,
      spliced_joinNodes hm]
  exact joinNodes_congr hflat

theorem map_flatten_noNested (ns : List Node) : ∀ n ∈ ns.map flatten, NoNested n := by
  intro m hm
  obtain ⟨n, -, rfl⟩ := List.mem_map.mp hm
  exact (flatten_flat n).noNested

theorem flatten_gather_append (k : Connective) (ns ms : List Node) :
    flatten (gather k (ns ++ ms)) = joinNodes k [flatten (gather k ns), flatten (gather k ms)] := by
  rw [← joinNodes_map_flatten, ← joinNodes_map_flatten, ← joinNodes_map_flatten, List.map_append,
    joinNodes_append (map_flatten_noNested ns) (map_flatten_noNested ms)]

/-! ## Surface syntax -/

/-- An expression over some leaves; `explicit` says whether AND is written. -/
inductive Tree (α : Type) where
  | leaf (a : α)
  | not (e : Tree α)
  | or (l r : Tree α)
  | and (explicit : Bool) (l r : Tree α)

variable {α : Type}

/-- The syntax tree, with the leaves read by `f`. -/
def Tree.toNode (f : α → Node) : Tree α → Node
  | .leaf a => f a
  | .not e => .not (e.toNode f)
  | .or l r => .group .or [l.toNode f, r.toNode f]
  | .and _ l r => .group .and [l.toNode f, r.toNode f]

def lparen : Token := ⟨.lparen, ['(']⟩

def rparen : Token := ⟨.rparen, [')']⟩

def parens (ts : List Token) : List Token := lparen :: (ts ++ [rparen])

/-- The tokens of a tree in a place of the given level: NOT binds tightest, then
OR, then AND. -/
def Tree.print (pr : α → List Token) : Level → Tree α → List Token
  | _, .leaf a => pr a
  | _, .not e => notToken :: e.print pr .unary
  | lvl, .or l r =>
    let ts := l.print pr .disjunction ++ orToken :: r.print pr .disjunction
    match lvl with
    | .unary => parens ts
    | _ => ts
  | lvl, .and explicit l r =>
    let ts := l.print pr .conjunction ++
      (if explicit then [andToken] else []) ++ r.print pr .conjunction
    match lvl with
    | .conjunction => ts
    | _ => parens ts

/-- The connective whose operands a level collects. -/
def levelType : Level → Connective
  | .conjunction => .and
  | _ => .or

section Reads

variable {leaf : List Token → Node → Prop} {pr : α → List Token} {f : α → Node}

theorem Reads.or_append {ts us : List Token} {ns ms : List Node}
    (h : Reads leaf .disjunction ts ns) (h' : Reads leaf .disjunction us ms) :
    Reads leaf .disjunction (ts ++ orToken :: us) (ns ++ ms) := by
  generalize hl : Level.disjunction = lvl at h
  induction h with
  | orOne h => exact .orCons h h'
  | orCons h _ _ ih =>
    rw [List.append_assoc]
    exact .orCons h (ih hl)
  | _ => cases hl

theorem Reads.and_append {ts us : List Token} {ns ms : List Node} (explicit : Bool)
    (h : Reads leaf .conjunction ts ns) (h' : Reads leaf .conjunction us ms) :
    Reads leaf .conjunction (ts ++ (if explicit then [andToken] else []) ++ us) (ns ++ ms) := by
  generalize hl : Level.conjunction = lvl at h
  induction h with
  | andOne h =>
    cases explicit
    · simpa using Reads.adjacent h h'
    · simpa using Reads.andCons h h'
  | andCons h _ _ ih =>
    have hread := Reads.andCons h (ih hl)
    simpa only [List.append_assoc, List.cons_append] using hread
  | adjacent h _ _ ih =>
    have hread := Reads.adjacent h (ih hl)
    simpa only [List.append_assoc, List.cons_append] using hread
  | _ => cases hl

theorem reads_print (hleaf : ∀ a, leaf (pr a) (f a)) (t : Tree α) (lvl : Level) :
    ∃ ns, Reads leaf lvl (t.print pr lvl) ns ∧
      flatten (gather (levelType lvl) ns) = flatten (t.toNode f) ∧
        (lvl = .unary → ∃ n, ns = [n]) := by
  have hunary : ∀ {t : Tree α}, (∃ n, Reads leaf .unary (t.print pr .unary) [n] ∧
      flatten n = flatten (t.toNode f)) → ∀ lvl, t.print pr lvl = t.print pr .unary →
      ∃ ns, Reads leaf lvl (t.print pr lvl) ns ∧
        flatten (gather (levelType lvl) ns) = flatten (t.toNode f) ∧
          (lvl = .unary → ∃ n, ns = [n]) := by
    rintro t ⟨n, hn, e⟩ lvl hp
    rw [hp]
    cases lvl with
    | unary => exact ⟨[n], hn, e, fun _ => ⟨n, rfl⟩⟩
    | disjunction => exact ⟨[n], .orOne hn, e, by simp⟩
    | conjunction => exact ⟨[n], .andOne (.orOne hn), e, by simp⟩
  induction t generalizing lvl with
  | leaf a =>
    refine hunary (t := .leaf a) ⟨f a, ?_, rfl⟩ lvl (by simp [Tree.print])
    rw [Tree.print]
    exact .leaf (hleaf a)
  | not e ih =>
    obtain ⟨ns, hns, he, hone⟩ := ih .unary
    obtain ⟨n, rfl⟩ := hone rfl
    refine hunary (t := .not e) ⟨.not n, ?_, ?_⟩ lvl (by simp [Tree.print])
    · rw [Tree.print]
      exact .not hns
    · simpa [Tree.toNode, gather, levelType] using he
  | or l r ihl ihr =>
    obtain ⟨ns, hns, hl, -⟩ := ihl .disjunction
    obtain ⟨ms, hms, hr, -⟩ := ihr .disjunction
    have happ := Reads.or_append hns hms
    have hflat : flatten (gather .or (ns ++ ms)) = flatten ((Tree.or l r).toNode f) := by
      rw [flatten_gather_append]
      simp only [levelType] at hl hr
      rw [hl, hr, Tree.toNode, flatten_group]
      rfl
    cases lvl with
    | unary =>
      refine ⟨_, .paren rfl rfl (.andOne happ), ?_, fun _ => ⟨_, rfl⟩⟩
      simpa [gather] using hflat
    | disjunction => exact ⟨_, happ, hflat, by simp⟩
    | conjunction => exact ⟨_, .andOne happ, hflat, by simp⟩
  | and explicit l r ihl ihr =>
    obtain ⟨ns, hns, hl, -⟩ := ihl .conjunction
    obtain ⟨ms, hms, hr, -⟩ := ihr .conjunction
    have happ := Reads.and_append explicit hns hms
    have hflat : flatten (gather .and (ns ++ ms)) = flatten ((Tree.and explicit l r).toNode f) := by
      rw [flatten_gather_append]
      simp only [levelType] at hl hr
      rw [hl, hr, Tree.toNode, flatten_group]
      rfl
    have hparen : Reads leaf .unary (parens (l.print pr .conjunction ++
        (if explicit then [andToken] else []) ++ r.print pr .conjunction))
        [gather .and (ns ++ ms)] := .paren rfl rfl happ
    cases lvl with
    | unary => exact ⟨_, hparen, hflat, fun _ => ⟨_, rfl⟩⟩
    | disjunction => exact ⟨_, .orOne hparen, hflat, by simp⟩
    | conjunction => exact ⟨_, happ, hflat, by simp⟩

end Reads

/-! ## Printed tokens are regular -/

/-- Regular tokens that other tokens can follow. -/
structure Piece (ts : List Token) : Prop where
  ne_nil : ts ≠ []
  regular : Regular false ts
  closed : Closed ts

theorem Piece.append {ts us : List Token} (h : Piece ts) (h' : Piece us) : Piece (ts ++ us) where
  ne_nil := by simp [h.ne_nil]
  regular := h.regular.append h.ne_nil h.closed h'.regular
  closed := h'.closed.append h'.ne_nil ts

theorem Piece.cons {t : Token} {ts : List Token} (hl : Lexical false t) (ho : t.kind ≠ .op)
    (hf : t.kind ≠ .func) (h : Piece ts) : Piece (t :: ts) where
  ne_nil := by simp
  regular := ⟨hl, fun e => absurd e hf, by rw [decide_eq_false ho]; exact h.regular⟩
  closed := h.closed.append h.ne_nil [t]

theorem Piece.single {t : Token} (hl : Lexical false t) (ho : t.kind ≠ .op)
    (hf : t.kind ≠ .func) : Piece [t] where
  ne_nil := by simp
  regular := ⟨hl, fun e => absurd e hf, trivial⟩
  closed u hu := by
    obtain rfl : t = u := by simpa using hu
    exact ⟨ho, hf⟩

theorem Piece.logic {t : Token} (ht : t = andToken ∨ t = orToken ∨ t = notToken)
    {ts : List Token} (h : Piece ts) : Piece (t :: ts) := by
  rcases ht with rfl | rfl | rfl
  · exact h.cons (show "AND".toList ∈ logicalWords by decide) (by decide) (by decide)
  · exact h.cons (show "OR".toList ∈ logicalWords by decide) (by decide) (by decide)
  · exact h.cons (show "NOT".toList ∈ logicalWords by decide) (by decide) (by decide)

theorem Piece.parens {ts : List Token} (h : Piece ts) : Piece (parens ts) := by
  have hr : Piece [rparen] := .single rfl (by decide) (by decide)
  exact (h.append hr).cons (t := lparen) rfl (by decide) (by decide)

theorem piece_print {pr : α → List Token} (hleaf : ∀ a, Piece (pr a)) (t : Tree α) (lvl : Level) :
    Piece (t.print pr lvl) := by
  induction t generalizing lvl with
  | leaf a => simpa only [Tree.print] using hleaf a
  | not e ih =>
    simp only [Tree.print]
    exact (ih .unary).logic (Or.inr (Or.inr rfl))
  | or l r ihl ihr =>
    have h := (ihl .disjunction).append ((ihr .disjunction).logic (Or.inr (Or.inl rfl)))
    cases lvl with
    | unary => exact h.parens
    | _ => exact h
  | and explicit l r ihl ihr =>
    have h : Piece (l.print pr .conjunction ++ (if explicit then [andToken] else []) ++
        r.print pr .conjunction) := by
      rw [List.append_assoc]
      refine (ihl .conjunction).append ?_
      cases explicit
      · exact ihr .conjunction
      · exact (ihr .conjunction).logic (Or.inl rfl)
    cases lvl with
    | conjunction => exact h
    | _ => exact h.parens

/-! ## Filters -/

/-- A field path, value, search term or function call, as tokens that are read
back. -/
structure FilterOperand where
  tokens : List Token
  operand : Operand tokens
  regular : Regular false tokens

/-- An operator of the grammar. -/
structure Operator where
  text : Text
  mem : text ∈ twoCharOps ∨ text ∈ oneCharOps

/-- A value; only directly after an operator it may start with any minus. -/
structure Value (afterOp : Bool) where
  token : Token
  kind : token.kind = .word ∨ token.kind = .string
  lexical : Lexical afterOp token

/-- A search term or function call, a comparison with a value, or one with a list
of values. -/
inductive Leaf where
  | term (t : FilterOperand)
  | compare (lhs : FilterOperand) (op : Operator) (v : Value true)
  | compareList (lhs : FilterOperand) (op : Operator) (vs : Tree (Value false))

def Operator.token (op : Operator) : Token := ⟨.op, op.text⟩

/-- A list of one value needs no parentheses. -/
def Leaf.print : Leaf → List Token
  | .term t => t.tokens
  | .compare lhs op v => lhs.tokens ++ [op.token, v.token]
  | .compareList lhs op (.leaf v) => lhs.tokens ++ [op.token, v.token]
  | .compareList lhs op vs =>
    lhs.tokens ++ op.token :: parens (vs.print (fun v => [v.token]) .conjunction)

/-- A list of values is distributed over its comparison. -/
def Leaf.toNode : Leaf → Node
  | .term t => .term t.tokens
  | .compare lhs op v => .predicate lhs.tokens op.text v.token
  | .compareList lhs op vs => vs.toNode fun v => .predicate lhs.tokens op.text v.token

/-- A filter. -/
abbrev Filter := Tree Leaf

def Filter.tokens (t : Filter) : List Token := Tree.print Leaf.print .conjunction t

/-- The text of a filter. -/
def Filter.text (t : Filter) : Text := renderTokens t.tokens

/-- The syntax tree of a filter, as it is grouped. -/
def Filter.node (t : Filter) : Node := Tree.toNode Leaf.toNode t

theorem arguments_closed {depth : Int} {ts args us : List Token}
    (h : arguments depth ts = .ok (args, us)) : ∃ as r, args = as ++ [r] ∧ r.kind = .rparen := by
  induction ts generalizing depth args us with
  | nil => simp [arguments] at h
  | cons t ts ih =>
    have hrec : ∀ d, ∀ p : List Token × List Token, arguments d ts = .ok p →
        (pure (t :: p.1, p.2) : Except Failure _) = .ok (args, us) →
        ∃ as r, args = as ++ [r] ∧ r.kind = .rparen := by
      intro d p hrun hp
      simp only [pure_eq_ok, Prod.mk.injEq] at hp
      obtain ⟨as, r, hargs, hr⟩ := ih hrun
      exact ⟨t :: as, r, by rw [← hp.1, hargs]; rfl, hr⟩
    rw [arguments] at h
    split at h
    · obtain ⟨p, hrun, hp⟩ := bind_eq_ok.mp h
      exact hrec _ p hrun hp
    · split at h
      · rename_i hr
        split at h
        · simp only [Except.ok.injEq, Prod.mk.injEq] at h
          obtain ⟨rfl, rfl⟩ := h
          exact ⟨[], t, rfl, hr⟩
        · obtain ⟨p, hrun, hp⟩ := bind_eq_ok.mp h
          exact hrec _ p hrun hp
      · obtain ⟨p, hrun, hp⟩ := bind_eq_ok.mp h
        exact hrec _ p hrun hp

theorem operand_closed {ts : List Token} (h : Operand ts) : Closed ts := by
  cases h with
  | @single t hk =>
    intro u hu
    obtain rfl : t = u := by simpa using hu
    rcases hk with hk | hk <;> rw [hk] <;> decide
  | call hf ha =>
    obtain ⟨as, r, rfl, hr⟩ := arguments_closed ha
    intro u hu
    rw [← List.cons_append, List.getLast?_concat, Option.mem_some_iff] at hu
    rw [← hu, hr]
    decide

theorem FilterOperand.piece (t : FilterOperand) : Piece t.tokens where
  ne_nil := by
    obtain ⟨u, us, e, -⟩ := operand_starts t.operand
    simp [e]
  regular := t.regular
  closed := operand_closed t.operand

theorem Value.ne {b : Bool} (v : Value b) : v.token.kind ≠ .op ∧ v.token.kind ≠ .func := by
  rcases v.kind with hk | hk <;> rw [hk] <;> decide

theorem piece_comparison (lhs : FilterOperand) (op : Operator) {us : List Token}
    (hr : Regular true us) (hc : Closed us) (hne : us ≠ []) :
    Piece (lhs.tokens ++ op.token :: us) where
  ne_nil := by simp
  regular := lhs.piece.regular.append lhs.piece.ne_nil lhs.piece.closed
    ⟨op.mem, fun e => (by cases e), hr⟩
  closed := (hc.append hne [op.token]).append (by simp) lhs.tokens

theorem piece_value (lhs : FilterOperand) (op : Operator) {b : Bool} (v : Value b) :
    Piece (lhs.tokens ++ [op.token, v.token]) :=
  piece_comparison lhs op
    ⟨v.lexical.after_op, fun e => absurd e v.ne.2, trivial⟩
    (fun u hu => by
      obtain rfl : v.token = u := by simpa using hu
      exact v.ne) (by simp)

theorem leaf_piece (a : Leaf) : Piece a.print := by
  have hlist : ∀ (lhs : FilterOperand) (op : Operator) (vs : Tree (Value false)),
      Piece (lhs.tokens ++ op.token :: parens (vs.print (fun v => [v.token]) .conjunction)) := by
    intro lhs op vs
    have h := (@piece_print (Value false) (fun v => [v.token])
      (fun v => .single v.lexical v.ne.1 v.ne.2) vs .conjunction).parens
    refine piece_comparison lhs op ?_ h.closed h.ne_nil
    -- an opening parenthesis is the same after an operator
    exact ⟨rfl, fun e => (by cases e), h.regular.2.2⟩
  match a with
  | .term t => exact t.piece
  | .compare lhs op v => exact piece_value lhs op v
  | .compareList lhs op (.leaf v) => exact piece_value lhs op v
  | .compareList lhs op (.not e) => exact hlist lhs op _
  | .compareList lhs op (.or l r) => exact hlist lhs op _
  | .compareList lhs op (.and ex l r) => exact hlist lhs op _

theorem leaf_reads (a : Leaf) : ∃ n, ReadsPredicate a.print n ∧ flatten n = flatten a.toNode := by
  have hlist : ∀ (lhs : FilterOperand) (op : Operator) (vs : Tree (Value false)),
      ∃ n, ReadsPredicate
          (lhs.tokens ++ op.token :: parens (vs.print (fun v => [v.token]) .conjunction)) n ∧
        flatten n = flatten (vs.toNode fun v => .predicate lhs.tokens op.text v.token) := by
    intro lhs op vs
    obtain ⟨ns, hns, e, -⟩ := @reads_print (Value false) (ReadsValue lhs.tokens op.text)
      (fun v => [v.token]) (fun v => .predicate lhs.tokens op.text v.token)
      (fun v => .value v.kind) vs .conjunction
    exact ⟨_, .list (o := op.token) lhs.operand rfl rfl rfl hns, e⟩
  match a with
  | .term t => exact ⟨_, .term t.operand, rfl⟩
  | .compare lhs op v => exact ⟨_, .value (o := op.token) lhs.operand rfl v.kind, rfl⟩
  | .compareList lhs op (.leaf v) => exact ⟨_, .value (o := op.token) lhs.operand rfl v.kind, rfl⟩
  | .compareList lhs op (.not e) => exact hlist lhs op _
  | .compareList lhs op (.or l r) => exact hlist lhs op _
  | .compareList lhs op (.and ex l r) => exact hlist lhs op _

theorem flatten_toNode_congr {f g : α → Node} (h : ∀ a, flatten (f a) = flatten (g a))
    (t : Tree α) : flatten (t.toNode f) = flatten (t.toNode g) := by
  induction t with
  | leaf a => exact h a
  | not e ih => simp only [Tree.toNode, flatten_not, ih]
  | or l r ihl ihr => simp only [Tree.toNode, flatten_group, List.map_cons, ihl, ihr]
  | and ex l r ihl ihr => simp only [Tree.toNode, flatten_group, List.map_cons, ihl, ihr]

/-- **Round trip.**  The text of a filter is parsed to its flattened tree. -/
theorem parse_text (t : Filter) : parse t.text = .ok (flatten t.node) := by
  choose f hread hflat using leaf_reads
  obtain ⟨ns, hns, e, -⟩ := reads_print (f := f) hread t .conjunction
  have htokens : tokenize t.text = t.tokens :=
    tokenize_renderTokens (piece_print leaf_piece t .conjunction).regular
  rw [parse_of_reads ⟨ns, htokens ▸ hns, rfl⟩]
  exact congrArg _ (e.trans (flatten_toNode_congr hflat t))

end Custodian.Printing

import Custodian.CloudLogging.Grammar

/-!
# The parser implements the grammar
-/

namespace Custodian.ParserSpec

open Py Custodian.Tokenizer Custodian.Parser Custodian.Grammar

variable {leaf : List Token → Node → Prop} {leafP : Parse Node} {len : Nat}

/-! ## What is parsed is in the grammar -/

/-- A result that reads a prefix of the tokens, or one of the messages. -/
def Good {α : Type} (read : List Token → α → Prop) (ts : List Token) :
    Except Failure (α × List Token) → Prop
  | .ok (a, us) => ∃ pre, ts = pre ++ us ∧ read pre a
  | .error (.valueError message) => message ∈ messages
  | .error .outOfFuel => False

/-- The flattened operands of a level. -/
def ReadsFlat (leaf : List Token → Node → Prop) (lvl : Level) (ts : List Token)
    (ms : List Node) : Prop :=
  ∃ ns, Reads leaf lvl ts ns ∧ ms = ns.map flatten

def LeafFlat (leaf : List Token → Node → Prop) (ts : List Token) (m : Node) : Prop :=
  ∃ n, leaf ts n ∧ m = flatten n

/-- The leaf parser returns only what the leaf relation reads. -/
structure Sound (leaf : List Token → Node → Prop) (leafP : Parse Node) (len : Nat) : Prop where
  starts : ∀ ts n, leaf ts n → Starts ts
  good : ∀ ts, ts.length ≤ len → Good (LeafFlat leaf) ts (leafP ts)

theorem Good.mono {α : Type} {read read' : List Token → α → Prop} {ts : List Token}
    {x : Except Failure (α × List Token)} (h : Good read ts x)
    (hr : ∀ pre a, read pre a → read' pre a) : Good read' ts x := by
  match x with
  | .ok (a, us) =>
    obtain ⟨pre, e, h⟩ := h
    exact ⟨pre, e, hr pre a h⟩
  | .error (.valueError message) => exact h
  | .error .outOfFuel => exact h

theorem Good.bind {α β : Type} {read : List Token → α → Prop} {read' : List Token → β → Prop}
    {ts us : List Token} {x : Except Failure (α × List Token)}
    {f : α × List Token → Except Failure (β × List Token)} (h : Good read us x)
    (hf : ∀ pre a vs, us = pre ++ vs → read pre a → Good read' ts (f (a, vs))) :
    Good read' ts (x >>= f) := by
  match x with
  | .ok (a, vs) =>
    obtain ⟨pre, e, hr⟩ := h
    exact hf pre a vs e hr
  | .error (.valueError message) => exact h
  | .error .outOfFuel => exact h

theorem Good.ok {α : Type} {read : List Token → α → Prop} {ts us : List Token} {a : α}
    (pre : List Token) (e : ts = pre ++ us) (h : read pre a) :
    Good read ts (.ok (a, us)) := ⟨pre, e, h⟩

theorem Good.error {α : Type} {read : List Token → α → Prop} {ts : List Token} (message : Text)
    (h : message ∈ messages) :
    Good read ts (.error (.valueError message) : Except Failure (α × List Token)) := h

theorem expectClosingParen_good {α : Type} {read : List Token → α → Prop} {ts us : List Token}
    {a : α} (h : ∀ r vs, us = r :: vs → r.kind = .rparen → ∃ pre, ts = pre ++ vs ∧ read pre a) :
    Good read ts (do
      let vs ← expectClosingParen us
      return (a, vs)) := by
  cases us with
  | nil => exact Good.error missingParen (by simp [messages])
  | cons r vs =>
    by_cases hr : r.kind = .rparen
    · simp only [expectClosingParen, hr, ↓reduceIte]
      exact h r vs rfl hr
    · simp only [expectClosingParen, hr, ↓reduceIte]
      exact Good.error missingParen (by simp [messages])

/-- A flattened operand of the innermost level. -/
def ReadsOne (leaf : List Token → Node → Prop) (ts : List Token) (m : Node) : Prop :=
  ∃ n, Reads leaf .unary ts [n] ∧ m = flatten n

/-- With this fuel, the operands that the parser finds at each level are read by the grammar. -/
structure ItemsGood (leaf : List Token → Node → Prop) (leafP : Parse Node) (len n : Nat) : Prop where
  unary : ∀ ts, ts.length ≤ len → fuelFor .unary ts ≤ n →
    Good (ReadsOne leaf) ts (parseNot leafP n ts)
  disjunction : ∀ ts, ts.length ≤ len → fuelFor .disjunction ts ≤ n →
    Good (ReadsFlat leaf .disjunction) ts (orItems leafP n ts)
  conjunction : ∀ ts, ts.length ≤ len → fuelFor .conjunction ts ≤ n →
    Good (ReadsFlat leaf .conjunction) ts (andItems leafP n ts)

theorem Sound.reads_pos (hs : Sound leaf leafP len) {lvl : Level} {pre : List Token}
    {ns : List Node} (hr : Reads leaf lvl pre ns) : 0 < pre.length :=
  (hr.starts hs.starts).length_pos

section Step

variable (hs : Sound leaf leafP len) {n : Nat} (ih : ∀ m < n, ItemsGood leaf leafP len m)

include hs ih

theorem parseNot_good {ts : List Token} (hlen : ts.length ≤ len) (hn : fuelFor .unary ts ≤ n) :
    Good (ReadsOne leaf) ts (parseNot leafP n ts) := by
  simp only [fuelFor] at hn
  cases ts with
  | nil =>
    obtain ⟨n, rfl⟩ : ∃ k, n = k + 2 := ⟨n - 2, by omega⟩
    exact Good.error unexpectedEnd (by simp [messages])
  | cons t ts =>
    rw [List.length_cons] at hn hlen
    obtain ⟨n, rfl⟩ : ∃ k, n = k + 3 := ⟨n - 3, by omega⟩
    by_cases ht : t = notToken
    · subst ht
      have hin := (ih (n + 2) (by omega)).unary ts (by omega) (by simp only [fuelFor]; omega)
      simp only [parseNot, ↓reduceIte]
      refine hin.bind fun pre m us e hread => ?_
      obtain ⟨k, hk, hm⟩ := hread
      exact Good.ok (notToken :: pre) (by rw [e]; rfl) ⟨.not k, .not hk, by rw [hm, flatten_not]⟩
    · by_cases hl : t.kind = .lparen
      · have hin := (ih n (by omega)).conjunction ts (by omega) (by simp only [fuelFor]; omega)
        rw [parseNot_lparen hl]
        refine hin.bind fun pre ms us e hread => expectClosingParen_good fun r vs e' hrk => ?_
        obtain ⟨ns, hr, hm⟩ := hread
        refine ⟨t :: (pre ++ [r]), by simp [e, e'], gather .and ns, .paren hl hrk hr, ?_⟩
        rw [hm, joinNodes_map_flatten]
      · rw [parseNot_leaf (n := n + 1) ht hl]
        exact (hs.good (t :: ts) hlen).mono fun pre m hread =>
          hread.imp fun k hk => ⟨.leaf hk.1, hk.2⟩

theorem orItems_good {ts : List Token} (hlen : ts.length ≤ len)
    (hn : fuelFor .disjunction ts ≤ n) :
    Good (ReadsFlat leaf .disjunction) ts (orItems leafP n ts) := by
  have hunary := parseNot_good hs ih hlen hn
  simp only [fuelFor] at hn
  obtain ⟨n, rfl⟩ : ∃ k, n = k + 1 := ⟨n - 1, by omega⟩
  refine hunary.bind fun pre m us e hread => ?_
  obtain ⟨k, hk, hm⟩ := hread
  have hlt := hs.reads_pos hk
  have hlen' := congrArg List.length e
  rw [List.length_append] at hlen'
  by_cases hor : ∃ vs, us = orToken :: vs
  · obtain ⟨vs, rfl⟩ := hor
    rw [List.length_cons] at hlen'
    simp only [orLoop_or]
    refine ((ih n (by omega)).disjunction vs (by omega) (by simp only [fuelFor]; omega)).bind
      fun pre' ms ws e' hreads => ?_
    obtain ⟨ns, hns, hms⟩ := hreads
    exact Good.ok (pre ++ orToken :: pre') (by rw [e, e']; simp)
      ⟨k :: ns, .orCons hk hns, by rw [hm, hms, List.map_cons]⟩
  · have hstop : ∀ t ∈ us.head?, t ≠ orToken := by
      rintro t ht rfl
      cases us with
      | nil => cases ht
      | cons u us => exact hor ⟨us, by rw [Option.some.inj ht]⟩
    simp only [orLoop_stop hstop]
    exact Good.ok pre e ⟨[k], .orOne hk, by rw [hm]; rfl⟩

theorem andItems_good {ts : List Token} (hlen : ts.length ≤ len)
    (hn : fuelFor .conjunction ts ≤ n) :
    Good (ReadsFlat leaf .conjunction) ts (andItems leafP n ts) := by
  simp only [fuelFor] at hn
  obtain ⟨n, rfl⟩ : ∃ k, n = k + 1 := ⟨n - 1, by omega⟩
  have hfirst : Good (fun pre m => ∃ ns, Reads leaf .disjunction pre ns ∧
      m = flatten (gather .or ns)) ts (parseOr leafP (n + 1) ts) := by
    rw [parseOr_succ]
    refine ((ih n (by omega)).disjunction ts hlen (by simp only [fuelFor]; omega)).bind
      fun pre ms us e hreads => ?_
    obtain ⟨ns, hns, hms⟩ := hreads
    exact Good.ok pre e ⟨ns, hns, by rw [hms, joinNodes_map_flatten]⟩
  refine hfirst.bind fun pre m us e hread => ?_
  obtain ⟨ns, hns, hm⟩ := hread
  have hlt := hs.reads_pos hns
  have hlen' := congrArg List.length e
  rw [List.length_append] at hlen'
  by_cases hstop : ∀ t ∈ us.head?, t.kind = .rparen
  · simp only [andLoop_stop hstop]
    exact Good.ok pre e ⟨[gather .or ns], .andOne hns, by rw [hm]; rfl⟩
  · cases us with
    | nil => exact absurd (by simp) hstop
    | cons t us =>
      rw [List.length_cons] at hlen'
      have hr : t.kind ≠ .rparen := fun h => hstop fun u hu => by rw [← Option.some.inj hu, h]
      by_cases hand : t = andToken
      · subst hand
        simp only [andLoop_and]
        refine ((ih n (by omega)).conjunction us (by omega) (by simp only [fuelFor]; omega)).bind
          fun pre' ms ws e' hreads => ?_
        obtain ⟨ns', hns', hms⟩ := hreads
        exact Good.ok (pre ++ andToken :: pre') (by rw [e, e']; simp)
          ⟨gather .or ns :: ns', .andCons hns hns', by rw [hm, hms, List.map_cons]⟩
      · simp only [andLoop_adjacent hand hr]
        refine ((ih n (by omega)).conjunction (t :: us) (by simp only [List.length_cons]; omega)
          (by simp only [fuelFor, List.length_cons]; omega)).bind
          fun pre' ms ws e' hreads => ?_
        obtain ⟨ns', hns', hms⟩ := hreads
        exact Good.ok (pre ++ pre') (by rw [e, e']; simp)
          ⟨gather .or ns :: ns', .adjacent hns hns', by rw [hm, hms, List.map_cons]⟩

end Step

/-- **Soundness.**  At every level the operands that the parser finds are read by
the grammar. -/
theorem items_good (hs : Sound leaf leafP len) (n : Nat) : ItemsGood leaf leafP len n := by
  induction n using Nat.strongRecOn with
  | _ n ih =>
    exact ⟨fun _ hlen hn => parseNot_good hs ih hlen hn,
      fun _ hlen hn => orItems_good hs ih hlen hn, fun _ hlen hn => andItems_good hs ih hlen hn⟩

/-- A flattened conjunction. -/
def ReadsAnd (leaf : List Token → Node → Prop) (ts : List Token) (m : Node) : Prop :=
  ∃ ns, Reads leaf .conjunction ts ns ∧ m = flatten (gather .and ns)

theorem parseAnd_good (hs : Sound leaf leafP len) {n : Nat} {ts : List Token}
    (hlen : ts.length ≤ len) (hn : enough ts ≤ n) :
    Good (ReadsAnd leaf) ts (parseAnd leafP n ts) := by
  obtain ⟨n, rfl⟩ : ∃ k, n = k + 1 := ⟨n - 1, by simp only [enough] at hn; omega⟩
  rw [parseAnd_succ]
  refine ((items_good hs n).conjunction ts hlen
    (by simp only [enough] at hn; simp only [fuelFor]; omega)).bind
      fun pre ms us e ⟨ns, hns, hms⟩ => ?_
  exact Good.ok pre e ⟨ns, hns, by rw [hms, joinNodes_map_flatten]⟩

theorem parseAnd_of_reads (hc : Complete leaf leafP len) {n : Nat} {ts us : List Token}
    {ns : List Node} (h : Reads leaf .conjunction ts ns) (hf : Follow .conjunction us)
    (hlen : (ts ++ us).length ≤ len) (hn : enough (ts ++ us) ≤ n) :
    parseAnd leafP n (ts ++ us) = .ok (flatten (gather .and ns), us) := by
  obtain ⟨n, rfl⟩ : ∃ k, n = k + 1 := ⟨n - 1, by simp only [enough] at hn; omega⟩
  have hitems := items_of_reads hc h us hf hlen n
    (by simp only [enough] at hn; simp only [fuelFor]; omega)
  simp only [items] at hitems
  rw [parseAnd_succ, hitems, ← joinNodes_map_flatten]
  rfl

/-! ## Predicates -/

theorem arguments_good (depth : Int) (ts : List Token) :
    Good (fun pre args => args = pre ∧ ∀ us, arguments depth (pre ++ us) = .ok (pre, us)) ts
      (arguments depth ts) := by
  induction ts generalizing depth with
  | nil => exact Good.error missingParen (by simp [messages])
  | cons t ts ih =>
    rw [arguments]
    split
    · rename_i hl
      refine (ih (depth + 1)).bind fun pre args us e ⟨ha, hrun⟩ => ?_
      refine Good.ok (t :: pre) (by rw [e]; rfl) ⟨by rw [ha], fun vs => ?_⟩
      rw [List.cons_append, arguments, if_pos hl, hrun]
      rfl
    · rename_i hl
      split
      · rename_i hr
        split
        · rename_i hd
          refine Good.ok [t] rfl ⟨rfl, fun vs => ?_⟩
          rw [List.cons_append, arguments, if_neg hl, if_pos hr, if_pos hd]
          rfl
        · rename_i hd
          refine (ih (depth - 1)).bind fun pre args us e ⟨ha, hrun⟩ => ?_
          refine Good.ok (t :: pre) (by rw [e]; rfl) ⟨by rw [ha], fun vs => ?_⟩
          rw [List.cons_append, arguments, if_neg hl, if_pos hr, if_neg hd, hrun]
          rfl
      · rename_i hr
        refine (ih depth).bind fun pre args us e ⟨ha, hrun⟩ => ?_
        refine Good.ok (t :: pre) (by rw [e]; rfl) ⟨by rw [ha], fun vs => ?_⟩
        rw [List.cons_append, arguments, if_neg hl, if_neg hr, hrun]
        rfl

theorem arguments_append {depth : Int} {args : List Token}
    (h : arguments depth args = .ok (args, [])) (us : List Token) :
    arguments depth (args ++ us) = .ok (args, us) := by
  have hgood := arguments_good depth args
  rw [h] at hgood
  obtain ⟨pre, e, -, hrun⟩ := hgood
  rw [List.append_nil] at e
  subst e
  exact hrun us

theorem operand_starts {ts : List Token} (h : Operand ts) :
    ∃ t us, ts = t :: us ∧ LeafStarter t := by
  cases h with
  | single hk => exact ⟨_, _, rfl, hk.imp_right Or.inl⟩
  | call hk => exact ⟨_, _, rfl, Or.inr (Or.inr hk)⟩

theorem parseOperand_good (ts : List Token) :
    Good (fun pre lhs => lhs = pre ∧ Operand pre) ts (parseOperand ts) := by
  cases ts with
  | nil => exact Good.error emptyPredicate (by simp [messages])
  | cons t ts =>
    rw [parseOperand]
    split
    · rename_i hf
      refine (arguments_good 0 ts).bind fun pre args us e ⟨ha, hrun⟩ => ?_
      refine Good.ok (t :: pre) (by rw [e]; rfl) ⟨by rw [ha], .call hf ?_⟩
      simpa using hrun []
    · split
      · rename_i hk
        exact Good.ok [t] rfl ⟨rfl, .single hk⟩
      · exact Good.error emptyPredicate (by simp [messages])

theorem parseOperand_of_operand {lhs : List Token} (h : Operand lhs) (us : List Token) :
    parseOperand (lhs ++ us) = .ok (lhs, us) := by
  cases h with
  | @single t hk =>
    have hf : t.kind ≠ .func := by rcases hk with hk | hk <;> rw [hk] <;> decide
    rw [List.singleton_append, parseOperand, if_neg hf, if_pos hk]
  | @call t args hk ha =>
    rw [List.cons_append, parseOperand, if_pos hk, arguments_append ha]
    rfl

theorem value_starts {lhs : List Token} {op : Text} (ts : List Token) (n : Node)
    (h : ReadsValue lhs op ts n) : ∃ t us, ts = t :: us ∧ LeafStarter t := by
  cases h with
  | value hk => exact ⟨_, _, rfl, hk.imp_right Or.inl⟩

theorem starts_of_leaf {ts : List Token} (h : ∃ t us, ts = t :: us ∧ LeafStarter t) : Starts ts := by
  obtain ⟨t, us, rfl, ht⟩ := h
  exact ⟨t, us, rfl, ht.starter⟩

theorem value_complete (lhs : List Token) (op : Text) (len : Nat) :
    Complete (ReadsValue lhs op) (parseValue lhs op) len where
  starts := value_starts
  run := by
    rintro _ _ us ⟨hk⟩ - -
    rw [List.singleton_append, parseValue, if_pos hk, flatten_predicate]

theorem value_sound (lhs : List Token) (op : Text) (len : Nat) :
    Sound (ReadsValue lhs op) (parseValue lhs op) len where
  starts ts n h := starts_of_leaf (value_starts ts n h)
  good ts _ := by
    cases ts with
    | nil => exact Good.error malformedComparison (by simp [messages])
    | cons t ts =>
      rw [parseValue]
      split
      · rename_i hk
        exact Good.ok [t] rfl ⟨_, .value hk, (flatten_predicate ..).symm⟩
      · exact Good.error malformedComparison (by simp [messages])

theorem predicate_starts (ts : List Token) (n : Node) (h : ReadsPredicate ts n) :
    ∃ t us, ts = t :: us ∧ LeafStarter t := by
  have happ : ∀ {lhs : List Token} (us : List Token), Operand lhs →
      ∃ t vs, lhs ++ us = t :: vs ∧ LeafStarter t := by
    intro lhs us ho
    obtain ⟨t, vs, rfl, ht⟩ := operand_starts ho
    exact ⟨t, vs ++ us, rfl, ht⟩
  cases h with
  | term ho => exact operand_starts ho
  | value ho => exact happ _ ho
  | list ho => exact happ _ ho

theorem predicate_complete {fuel : Nat} (hfuel : 4 * len + 4 ≤ fuel) :
    Complete ReadsPredicate (parsePredicate fuel) len where
  starts := predicate_starts
  run := by
    intro ts n us h hf hlen
    cases h with
    | term ho =>
      simp only [parsePredicate, parseOperand_of_operand ho, bind, Except.bind, flatten_term]
      cases us with
      | nil => rfl
      | cons u us =>
        have hu : u.kind ≠ .op := hf u rfl
        simp only [hu, ↓reduceIte]
        rfl
    | @value lhs o v ho hop hk =>
      have hl : v.kind ≠ .lparen := by rcases hk with hk | hk <;> rw [hk] <;> decide
      rw [List.append_assoc]
      simp only [parsePredicate, parseOperand_of_operand ho, bind, Except.bind, flatten_predicate,
        List.cons_append, List.nil_append, hop, ↓reduceIte, parseComparison, hl, parseValue, hk]
    | @list lhs o l r ts ns ho hop hl hr hns =>
      simp only [List.length_append, List.length_cons] at hlen
      have hin := @parseAnd_of_reads _ _ _ (value_complete lhs o.text len) fuel _ (r :: us) _ hns
        (fun t ht => by rw [← Option.some.inj ht, hr])
        (by simp only [List.length_append, List.length_cons]; omega)
        (by simp only [enough, List.length_append, List.length_cons]; omega)
      rw [List.append_assoc]
      simp only [parsePredicate, parseOperand_of_operand ho, bind, Except.bind, List.cons_append,
        List.append_assoc, List.nil_append, hop, ↓reduceIte, parseComparison, hl, hin,
        expectClosingParen, hr]
      rfl

theorem predicate_sound {fuel : Nat} (hfuel : 4 * len + 4 ≤ fuel) :
    Sound ReadsPredicate (parsePredicate fuel) len where
  starts ts n h := starts_of_leaf (predicate_starts ts n h)
  good ts hlen := by
    refine (parseOperand_good ts).bind fun lhs lhs' us e ⟨hlhs, ho⟩ => ?_
    subst hlhs
    have hlen' := congrArg List.length e
    rw [List.length_append] at hlen'
    cases us with
    | nil => exact Good.ok lhs' e ⟨_, .term ho, (flatten_term _).symm⟩
    | cons o us =>
      simp only
      split
      · rename_i hop
        cases us with
        | nil => exact Good.error malformedComparison (by simp [messages])
        | cons v us =>
          simp only [List.length_cons] at hlen'
          rw [parseComparison]
          split
          · rename_i hl
            refine (parseAnd_good (value_sound lhs' o.text len) (by omega)
              (by simp only [enough]; omega)).bind fun pre m vs e' ⟨ns, hns, hm⟩ => ?_
            refine expectClosingParen_good fun r ws e'' hr => ?_
            exact ⟨lhs' ++ o :: v :: (pre ++ [r]), by simp [e, e', e''], _,
              .list ho hop hl hr hns, hm⟩
          · rw [parseValue]
            split
            · rename_i hk
              exact Good.ok (lhs' ++ [o, v]) (by rw [e]; simp)
                ⟨_, .value ho hop hk, (flatten_predicate ..).symm⟩
            · exact Good.error malformedComparison (by simp [messages])
      · exact Good.ok lhs' e ⟨_, .term ho, (flatten_term _).symm⟩

/-! ## Whole expressions -/

/-- The trees of an expression: its tokens as a conjunction. -/
def ReadsTokens (ts : List Token) (n : Node) : Prop :=
  ∃ ns, Reads ReadsPredicate .conjunction ts ns ∧ n = gather .and ns

theorem parse_of_reads {s : Text} {n : Node} (h : ReadsTokens (tokenize s) n) :
    parse s = .ok (flatten n) := by
  obtain ⟨ns, hns, rfl⟩ := h
  have hpos := (hns.starts fun ts n h => starts_of_leaf (predicate_starts ts n h)).length_pos
  unfold parse
  cases ht : tokenize s with
  | nil =>
    rw [ht] at hpos
    cases hpos
  | cons t ts =>
    rw [ht] at hns
    have hin := @parseAnd_of_reads _ _ _
      (@predicate_complete (t :: ts).length _ (Nat.le_refl _)) (enough (t :: ts)) _ [] _ hns
      (fun t ht => by cases ht) (Nat.le_of_eq (by rw [List.append_nil]))
      (Nat.le_of_eq (by rw [List.append_nil]))
    rw [List.append_nil] at hin
    have henough : 4 * (t :: ts).length + 4 = enough (t :: ts) := rfl
    rw [henough] at hin
    simp only [hin, bind, Except.bind, ↓reduceIte]
    rfl

/-- **Totality.**  Every text is empty of tokens, or read to its last token, or
refused with one of the messages. -/
theorem parse_spec (s : Text) :
    (tokenize s = [] ∧ parse s = .ok .all) ∨
      (∃ n, ReadsTokens (tokenize s) n ∧ parse s = .ok (flatten n)) ∨
        ∃ message ∈ messages, parse s = .error (.valueError message) := by
  cases ht : tokenize s with
  | nil => exact Or.inl ⟨rfl, by simp only [parse, ht]⟩
  | cons t ts =>
    refine Or.inr ?_
    have hgood := @parseAnd_good _ _ _ (@predicate_sound (t :: ts).length _ (Nat.le_refl _))
      (enough (t :: ts)) (t :: ts) (Nat.le_refl _) (Nat.le_refl _)
    have henough : 4 * (t :: ts).length + 4 = enough (t :: ts) := rfl
    rw [henough] at hgood
    match hp : parseAnd (parsePredicate (enough (t :: ts))) (enough (t :: ts)) (t :: ts) with
    | .ok (m, us) =>
      rw [hp] at hgood
      obtain ⟨pre, e, ns, hns, hm⟩ := hgood
      cases us with
      | nil =>
        rw [List.append_nil] at e
        refine Or.inl ⟨gather .and ns, ⟨ns, e ▸ hns, rfl⟩, ?_⟩
        simp only [parse, ht, hp, bind, Except.bind, ↓reduceIte, ← hm]
        rfl
      | cons u us =>
        refine Or.inr ⟨unableToParse, by simp [messages], ?_⟩
        simp [parse, ht, hp, bind, Except.bind]
    | .error (.valueError message) =>
      rw [hp] at hgood
      refine Or.inr ⟨message, hgood, ?_⟩
      simp only [parse, ht, hp, bind, Except.bind]
    | .error .outOfFuel =>
      rw [hp] at hgood
      cases hgood

end Custodian.ParserSpec

import Custodian.CloudLogging.Parser

/-!
# The grammar of Cloud Logging filters

NOT binds tightest, then OR, then AND, and adjacent terms are joined by AND.
`Reads` is that grammar over any leaf; its trees keep the grouping of the text,
and `flatten` merges nested groups of one type.
-/

namespace Custodian.Grammar

open Py Custodian.Tokenizer Custodian.Parser

/-! ## Trees -/

mutual
/-- Merge nested groups of the same type. -/
def flatten : Node → Node
  | .all => .all
  | .term ts => .term ts
  | .predicate lhs op rhs => .predicate lhs op rhs
  | .not e => .not (flatten e)
  | .group k children => joinNodes k (flattenAll children)

def flattenAll : List Node → List Node
  | [] => []
  | n :: ns => flatten n :: flattenAll ns
end

theorem flattenAll_eq (ns : List Node) : flattenAll ns = ns.map flatten := by
  induction ns with
  | nil => rfl
  | cons n ns ih => exact congrArg (flatten n :: ·) ih

@[simp] theorem flatten_all : flatten .all = .all := rfl

@[simp] theorem flatten_term (ts : List Token) : flatten (.term ts) = .term ts := rfl

@[simp] theorem flatten_predicate (lhs : List Token) (op : Text) (rhs : Token) :
    flatten (.predicate lhs op rhs) = .predicate lhs op rhs := rfl

@[simp] theorem flatten_not (e : Node) : flatten (.not e) = .not (flatten e) := rfl

@[simp] theorem flatten_group (k : Connective) (ns : List Node) :
    flatten (.group k ns) = joinNodes k (ns.map flatten) :=
  congrArg (joinNodes k) (flattenAll_eq ns)

/-- Induction over a node with one hypothesis for every child of a group. -/
@[elab_as_elim]
theorem node_induct {motive : Node → Prop} (all : motive .all) (term : ∀ ts, motive (.term ts))
    (predicate : ∀ lhs op rhs, motive (.predicate lhs op rhs))
    (not : ∀ e, motive e → motive (.not e))
    (group : ∀ k ns, (∀ n ∈ ns, motive n) → motive (.group k ns)) (n : Node) : motive n :=
  @Node.rec motive (fun ns => ∀ n ∈ ns, motive n) all term predicate not group (by simp)
    (fun n ns hn hns => by
      intro m hm
      rcases List.mem_cons.mp hm with rfl | hm
      · exact hn
      · exact hns m hm) n

/-- The tree of some operands: a group unless there is a single one. -/
def gather (k : Connective) : List Node → Node
  | [n] => n
  | ns => .group k ns

/-- A node is not a group of one child. -/
def NotSingle : Node → Prop
  | .group _ [_] => False
  | _ => True

theorem joinNodes_notSingle {k : Connective} {ns : List Node} (h : ∀ n ∈ ns, NotSingle n) :
    NotSingle (joinNodes k ns) := by
  unfold joinNodes
  split
  · rename_i n hn
    obtain ⟨m, hm, hmem⟩ := List.mem_flatMap.mp (show n ∈ ns.flatMap (spliced k) by simp [hn])
    cases m with
    | group k' cs =>
      rw [spliced] at hmem
      split at hmem
      · rename_i hk
        -- the only child comes from a group of the same type, which has several
        subst hk
        have hsub : (spliced k' (.group k' cs)).length ≤ (ns.flatMap (spliced k')).length := by
          rw [List.flatMap_def]
          exact (List.sublist_flatten_of_mem (List.mem_map_of_mem hm)).length_le
        rw [hn, spliced, if_pos rfl] at hsub
        have hlen : cs.length = 1 := by
          have hpos := List.length_pos_of_mem hmem
          simp only [List.length_cons, List.length_nil] at hsub
          omega
        obtain ⟨c, rfl⟩ := List.length_eq_one_iff.mp hlen
        exact absurd (h _ hm) (by simp [NotSingle])
      · rw [List.mem_singleton.mp hmem]
        exact h _ hm
    | _ =>
      rw [spliced, List.mem_singleton] at hmem
      · rw [hmem]
        trivial
      · simp
  · rename_i hno
    cases e : ns.flatMap (spliced k) with
    | nil => trivial
    | cons a l =>
      cases l with
      | nil => exact absurd e (hno a)
      | cons b l => trivial

theorem flatten_notSingle (n : Node) : NotSingle (flatten n) := by
  induction n using node_induct with
  | group k ns ih =>
    rw [flatten_group]
    refine joinNodes_notSingle fun m hm => ?_
    obtain ⟨n, hn, rfl⟩ := List.mem_map.mp hm
    exact ih n hn
  | _ => simp [NotSingle]

theorem joinNodes_singleton {k : Connective} {n : Node} (h : NotSingle n) :
    joinNodes k [n] = n := by
  unfold joinNodes
  rw [List.flatMap_singleton]
  cases n with
  | group k' cs =>
    by_cases hk : k' = k
    · subst hk
      simp only [spliced, ↓reduceIte]
      split
      · exact absurd h (by simp [NotSingle])
      · rfl
    · simp only [spliced, hk, ↓reduceIte]
  | _ => simp [spliced]

theorem joinNodes_map_flatten (k : Connective) (ns : List Node) :
    joinNodes k (ns.map flatten) = flatten (gather k ns) := by
  unfold gather
  split
  · exact joinNodes_singleton (flatten_notSingle _)
  · rw [flatten_group]

/-! ## The grammar -/

inductive Level where
  | unary
  | disjunction
  | conjunction

/-- The operands that a list of tokens is read as, at each level. -/
inductive Reads (leaf : List Token → Node → Prop) : Level → List Token → List Node → Prop where
  | leaf {ts n} : leaf ts n → Reads leaf .unary ts [n]
  | paren {l r ts ns} : l.kind = .lparen → r.kind = .rparen → Reads leaf .conjunction ts ns →
      Reads leaf .unary (l :: (ts ++ [r])) [gather .and ns]
  | not {ts n} : Reads leaf .unary ts [n] → Reads leaf .unary (notToken :: ts) [.not n]
  | orOne {ts n} : Reads leaf .unary ts [n] → Reads leaf .disjunction ts [n]
  | orCons {ts n us ns} : Reads leaf .unary ts [n] → Reads leaf .disjunction us ns →
      Reads leaf .disjunction (ts ++ orToken :: us) (n :: ns)
  | andOne {ts ns} : Reads leaf .disjunction ts ns → Reads leaf .conjunction ts [gather .or ns]
  | andCons {ts ns us ms} : Reads leaf .disjunction ts ns → Reads leaf .conjunction us ms →
      Reads leaf .conjunction (ts ++ andToken :: us) (gather .or ns :: ms)
  | adjacent {ts ns us ms} : Reads leaf .disjunction ts ns → Reads leaf .conjunction us ms →
      Reads leaf .conjunction (ts ++ us) (gather .or ns :: ms)

/-- A value of a comparison. -/
inductive ReadsValue (lhs : List Token) (op : Text) : List Token → Node → Prop where
  | value {v} : v.kind = .word ∨ v.kind = .string → ReadsValue lhs op [v] (.predicate lhs op v)

/-- A field path, value, search term or function call. -/
inductive Operand : List Token → Prop where
  | single {t} : t.kind = .word ∨ t.kind = .string → Operand [t]
  | call {t args} : t.kind = .func → arguments 0 args = .ok (args, []) → Operand (t :: args)

/-- A term or a comparison; a list of values stands for its comparisons. -/
inductive ReadsPredicate : List Token → Node → Prop where
  | term {ts} : Operand ts → ReadsPredicate ts (.term ts)
  | value {lhs o v} : Operand lhs → o.kind = .op → v.kind = .word ∨ v.kind = .string →
      ReadsPredicate (lhs ++ [o, v]) (.predicate lhs o.text v)
  | list {lhs o l r ts ns} : Operand lhs → o.kind = .op → l.kind = .lparen → r.kind = .rparen →
      Reads (ReadsValue lhs o.text) .conjunction ts ns →
      ReadsPredicate (lhs ++ o :: l :: (ts ++ [r])) (gather .and ns)

/-! ## Where a level starts and stops -/

/-- A token that an operand can start with. -/
def Starter (t : Token) : Prop :=
  t.kind = .word ∨ t.kind = .string ∨ t.kind = .func ∨ t.kind = .lparen ∨ t = notToken

def Starts (ts : List Token) : Prop := ∃ t us, ts = t :: us ∧ Starter t

theorem Starts.append {ts : List Token} (h : Starts ts) (us : List Token) : Starts (ts ++ us) := by
  obtain ⟨t, vs, rfl, ht⟩ := h
  exact ⟨t, vs ++ us, rfl, ht⟩

theorem Starts.length_pos {ts : List Token} (h : Starts ts) : 0 < ts.length := by
  obtain ⟨t, vs, rfl, -⟩ := h
  simp

theorem Reads.starts {leaf : List Token → Node → Prop} (hleaf : ∀ ts n, leaf ts n → Starts ts)
    {lvl : Level} {ts : List Token} {ns : List Node} (h : Reads leaf lvl ts ns) : Starts ts := by
  induction h with
  | leaf h => exact hleaf _ _ h
  | paren hl => exact ⟨_, _, rfl, Or.inr (Or.inr (Or.inr (Or.inl hl)))⟩
  | not => exact ⟨_, _, rfl, Or.inr (Or.inr (Or.inr (Or.inr rfl)))⟩
  | orOne _ ih => exact ih
  | orCons _ _ ih => exact ih.append _
  | andOne _ ih => exact ih
  | andCons _ _ ih => exact ih.append _
  | adjacent _ _ ih => exact ih.append _

/-- What may follow the tokens of a level. -/
def Follow : Level → List Token → Prop
  | .unary, us => ∀ t ∈ us.head?, t.kind ≠ .op
  | .disjunction, us => ∀ t ∈ us.head?, t.kind ≠ .op ∧ t ≠ orToken
  | .conjunction, us => ∀ t ∈ us.head?, t.kind = .rparen

theorem Follow.disjunction {us : List Token} (h : Follow .conjunction us) :
    Follow .disjunction us := by
  intro t ht
  have hk : t.kind = .rparen := h t ht
  refine ⟨by rw [hk]; decide, ?_⟩
  rintro rfl
  cases hk

theorem Follow.unary {us : List Token} (h : Follow .disjunction us) : Follow .unary us :=
  fun t ht => (h t ht).1

theorem Starter.follow {t : Token} (h : Starter t) :
    t.kind ≠ .op ∧ t ≠ orToken ∧ t ≠ andToken ∧ t.kind ≠ .rparen := by
  rcases h with h | h | h | h | h
  all_goals first
    | (subst h; decide)
    | (refine ⟨by rw [h]; decide, ?_, ?_, by rw [h]; decide⟩ <;> (rintro rfl; cases h))

/-! ## The parser by operands -/

section Items

variable {leafP : Parse Node} {n : Nat}

/-- The operands of an OR. -/
def orItems (leafP : Parse Node) (n : Nat) : Parse (List Node) := fun ts => do
  let (child, ts) ← parseNot leafP n ts
  let (children, ts) ← orLoop leafP n ts
  return (child :: children, ts)

/-- The operands of an AND. -/
def andItems (leafP : Parse Node) (n : Nat) : Parse (List Node) := fun ts => do
  let (child, ts) ← parseOr leafP n ts
  let (children, ts) ← andLoop leafP n ts
  return (child :: children, ts)

theorem orLoop_cons (t : Token) (ts : List Token) : orLoop leafP (n + 1) (t :: ts) =
    if t = orToken then orItems leafP n ts else .ok ([], t :: ts) := rfl

theorem andLoop_cons (t : Token) (ts : List Token) : andLoop leafP (n + 1) (t :: ts) =
    if t.kind = .rparen then .ok ([], t :: ts)
    else andItems leafP n (if t = andToken then ts else t :: ts) := rfl

theorem parseNot_cons (t : Token) (ts : List Token) : parseNot leafP (n + 1) (t :: ts) =
    if t = notToken then do
      let (expr, ts) ← parseNot leafP n ts
      return (.not expr, ts)
    else parsePrimary leafP n (t :: ts) := rfl

theorem parsePrimary_cons (t : Token) (ts : List Token) : parsePrimary leafP (n + 1) (t :: ts) =
    if t.kind = .lparen then do
      let (node, ts) ← parseAnd leafP n ts
      let ts ← expectClosingParen ts
      return (node, ts)
    else leafP (t :: ts) := rfl

theorem parseOr_succ (ts : List Token) :
    parseOr leafP (n + 1) ts =
      (orItems leafP n ts).map fun p => (joinNodes .or p.1, p.2) := by
  change (parseNot leafP n ts >>= fun p => orLoop leafP n p.2 >>= fun q =>
    pure (joinNodes .or (p.1 :: q.1), q.2)) = _
  simp only [orItems, bind, Except.bind]
  cases parseNot leafP n ts with
  | error e => rfl
  | ok p =>
    simp only
    cases orLoop leafP n p.2 <;> rfl

theorem parseAnd_succ (ts : List Token) :
    parseAnd leafP (n + 1) ts =
      (andItems leafP n ts).map fun p => (joinNodes .and p.1, p.2) := by
  change (parseOr leafP n ts >>= fun p => andLoop leafP n p.2 >>= fun q =>
    pure (joinNodes .and (p.1 :: q.1), q.2)) = _
  simp only [andItems, bind, Except.bind]
  cases parseOr leafP n ts with
  | error e => rfl
  | ok p =>
    simp only
    cases andLoop leafP n p.2 <;> rfl

theorem orLoop_or (ts : List Token) :
    orLoop leafP (n + 1) (orToken :: ts) = orItems leafP n ts := by
  rw [orLoop_cons, if_pos rfl]

theorem orLoop_stop {ts : List Token} (h : ∀ t ∈ ts.head?, t ≠ orToken) :
    orLoop leafP (n + 1) ts = .ok ([], ts) := by
  cases ts with
  | nil => rfl
  | cons t ts =>
    have ht : t ≠ orToken := h t rfl
    rw [orLoop_cons, if_neg ht]

theorem andLoop_and (ts : List Token) :
    andLoop leafP (n + 1) (andToken :: ts) = andItems leafP n ts := by
  rw [andLoop_cons, if_neg (by decide), if_pos rfl]

theorem andLoop_adjacent {t : Token} (ha : t ≠ andToken) (hr : t.kind ≠ .rparen)
    (ts : List Token) : andLoop leafP (n + 1) (t :: ts) = andItems leafP n (t :: ts) := by
  rw [andLoop_cons, if_neg hr, if_neg ha]

theorem andLoop_stop {ts : List Token} (h : ∀ t ∈ ts.head?, t.kind = .rparen) :
    andLoop leafP (n + 1) ts = .ok ([], ts) := by
  cases ts with
  | nil => rfl
  | cons t ts =>
    have ht : t.kind = .rparen := h t rfl
    rw [andLoop_cons, if_pos ht]

theorem parseNot_not (ts : List Token) :
    parseNot leafP (n + 1) (notToken :: ts) =
      (parseNot leafP n ts).map fun p => (.not p.1, p.2) := by
  rw [parseNot_cons, if_pos rfl]
  cases parseNot leafP n ts <;> rfl

theorem parseNot_leaf {t : Token} (hn : t ≠ notToken) (hl : t.kind ≠ .lparen) (ts : List Token) :
    parseNot leafP (n + 2) (t :: ts) = leafP (t :: ts) := by
  rw [parseNot_cons, if_neg hn, parsePrimary_cons, if_neg hl]

theorem parseNot_lparen {t : Token} (hl : t.kind = .lparen) (ts : List Token) :
    parseNot leafP (n + 3) (t :: ts) = do
      let (ns, us) ← andItems leafP n ts
      let vs ← expectClosingParen us
      return (joinNodes .and ns, vs) := by
  have hn : t ≠ notToken := by
    rintro rfl
    cases hl
  rw [parseNot_cons, if_neg hn, parsePrimary_cons, if_pos hl, parseAnd_succ]
  cases andItems leafP n ts <;> rfl

end Items

/-! ## What the grammar reads is parsed -/

/-- The operands that the parser finds at a level. -/
def items (leafP : Parse Node) (lvl : Level) (n : Nat) : Parse (List Node) := fun ts =>
  match lvl with
  | .unary => (parseNot leafP n ts).map fun p => ([p.1], p.2)
  | .disjunction => orItems leafP n ts
  | .conjunction => andItems leafP n ts

theorem parseNot_of_items {leafP : Parse Node} {n : Nat} {ts us : List Token} {m : Node}
    (h : items leafP .unary n ts = .ok ([m], us)) : parseNot leafP n ts = .ok (m, us) := by
  simp only [items] at h
  cases hp : parseNot leafP n ts with
  | error e =>
    rw [hp] at h
    cases h
  | ok p =>
    rw [hp] at h
    simp only [Except.map, Except.ok.injEq, Prod.mk.injEq, List.cons.injEq, and_true] at h
    rw [← h.1, ← h.2]

/-- The fuel for the operands of a level. -/
def fuelFor : Level → List Token → Nat
  | .unary, ts => 4 * ts.length + 2
  | .disjunction, ts => 4 * ts.length + 2
  | .conjunction, ts => 4 * ts.length + 3

/-- A token that a leaf can start with. -/
def LeafStarter (t : Token) : Prop := t.kind = .word ∨ t.kind = .string ∨ t.kind = .func

theorem LeafStarter.starter {t : Token} (h : LeafStarter t) : Starter t := by
  rcases h with h | h | h
  · exact Or.inl h
  · exact Or.inr (Or.inl h)
  · exact Or.inr (Or.inr (Or.inl h))

theorem LeafStarter.ne {t : Token} (h : LeafStarter t) : t ≠ notToken ∧ t.kind ≠ .lparen := by
  constructor
  · rintro rfl
    rcases h with h | h | h <;> cases h
  · rcases h with h | h | h <;> rw [h] <;> decide

/-- The leaf parser returns what the leaf relation reads from at most `len` tokens. -/
structure Complete (leaf : List Token → Node → Prop) (leafP : Parse Node) (len : Nat) : Prop where
  starts : ∀ ts n, leaf ts n → ∃ t us, ts = t :: us ∧ LeafStarter t
  run : ∀ ts n us, leaf ts n → Follow .unary us → (ts ++ us).length ≤ len →
    leafP (ts ++ us) = .ok (flatten n, us)

variable {leaf : List Token → Node → Prop} {leafP : Parse Node} {len : Nat}

theorem Complete.reads_starts (hc : Complete leaf leafP len) {lvl : Level} {ts : List Token}
    {ns : List Node} (h : Reads leaf lvl ts ns) : Starts ts :=
  h.starts fun ts n hl => by
    obtain ⟨t, us, rfl, ht⟩ := hc.starts ts n hl
    exact ⟨t, us, rfl, ht.starter⟩

/-- The parser finds operands in tokens, if what follows ends them and there is fuel. -/
def Finds (leafP : Parse Node) (len : Nat) (lvl : Level) (ts : List Token) (ns : List Node) : Prop :=
  ∀ us, Follow lvl us → (ts ++ us).length ≤ len → ∀ n, fuelFor lvl (ts ++ us) ≤ n →
    items leafP lvl n (ts ++ us) = .ok (ns.map flatten, us)

section Rules

variable {ts us : List Token} {m : Node} {ns ms : List Node}

theorem finds_leaf (hc : Complete leaf leafP len) (h : leaf ts m) :
    Finds leafP len .unary ts [m] := by
  intro us hf hlen n hn
  obtain ⟨t, vs, rfl, ht⟩ := hc.starts ts m h
  obtain ⟨n, rfl⟩ : ∃ k, n = k + 2 := ⟨n - 2, by simp only [fuelFor] at hn; omega⟩
  have hrun := hc.run _ _ us h hf hlen
  rw [List.cons_append] at hrun ⊢
  simp only [items, parseNot_leaf ht.ne.1 ht.ne.2, hrun]
  rfl

theorem finds_paren {l r : Token} (hl : l.kind = .lparen) (hr : r.kind = .rparen)
    (h : Finds leafP len .conjunction ts ns) :
    Finds leafP len .unary (l :: (ts ++ [r])) [gather .and ns] := by
  intro us hf hlen n hn
  simp only [fuelFor, List.length_append, List.length_cons, List.length_nil] at hn hlen
  obtain ⟨n, rfl⟩ : ∃ k, n = k + 3 := ⟨n - 3, by omega⟩
  have hin := h (r :: us) (fun t ht => by rw [← Option.some.inj ht, hr])
    (by simp only [List.length_append, List.length_cons]; omega) n
    (by simp only [fuelFor, List.length_append, List.length_cons]; omega)
  rw [List.cons_append, List.append_assoc, List.singleton_append]
  simp only [items] at hin ⊢
  simp only [parseNot_lparen hl, hin, bind, Except.bind, expectClosingParen, hr, ↓reduceIte,
    joinNodes_map_flatten]
  rfl

theorem finds_not (h : Finds leafP len .unary ts [m]) :
    Finds leafP len .unary (notToken :: ts) [.not m] := by
  intro us hf hlen n hn
  simp only [fuelFor, List.length_append, List.length_cons] at hn hlen
  obtain ⟨n, rfl⟩ : ∃ k, n = k + 1 := ⟨n - 1, by omega⟩
  have hin := parseNot_of_items (h us hf (by simp only [List.length_append]; omega) n
    (by simp only [fuelFor, List.length_append]; omega))
  simp only [items, List.cons_append, parseNot_not, hin, List.map_cons, List.map_nil, flatten_not]
  rfl

theorem finds_orOne (h : Finds leafP len .unary ts [m]) : Finds leafP len .disjunction ts [m] := by
  intro us hf hlen n hn
  obtain ⟨n, rfl⟩ : ∃ k, n = k + 1 := ⟨n - 1, by simp only [fuelFor] at hn; omega⟩
  have hin := parseNot_of_items (h us hf.unary hlen (n + 1) hn)
  simp only [items, orItems, hin, bind, Except.bind, orLoop_stop fun t ht => (hf t ht).2]
  rfl

theorem finds_orCons (h : Finds leafP len .unary ts [m]) (h' : Finds leafP len .disjunction us ns) :
    Finds leafP len .disjunction (ts ++ orToken :: us) (m :: ns) := by
  intro vs hf hlen n hn
  simp only [fuelFor, List.length_append, List.length_cons] at hn hlen
  obtain ⟨n, rfl⟩ : ∃ k, n = k + 1 := ⟨n - 1, by omega⟩
  have hin := parseNot_of_items (h (orToken :: (us ++ vs))
    (fun t ht => by rw [← Option.some.inj ht]; decide)
    (by simp only [List.length_append, List.length_cons]; omega) (n + 1)
    (by simp only [fuelFor, List.length_append, List.length_cons]; omega))
  have hin' := h' vs hf (by simp only [List.length_append]; omega) n
    (by simp only [fuelFor, List.length_append]; omega)
  rw [List.append_assoc, List.cons_append]
  simp only [items] at hin' ⊢
  rw [orItems]
  simp only [hin, bind, Except.bind, orLoop_or, hin']
  rfl

theorem finds_andOne (h : Finds leafP len .disjunction ts ns) :
    Finds leafP len .conjunction ts [gather .or ns] := by
  intro us hf hlen n hn
  obtain ⟨n, rfl⟩ : ∃ k, n = k + 1 := ⟨n - 1, by simp only [fuelFor] at hn; omega⟩
  have hin := h us hf.disjunction hlen n (by simp only [fuelFor] at hn ⊢; omega)
  simp only [items] at hin ⊢
  simp only [andItems, parseOr_succ, hin, Except.map, bind, Except.bind, andLoop_stop hf,
    joinNodes_map_flatten]
  rfl

theorem finds_andCons (h : Finds leafP len .disjunction ts ns)
    (h' : Finds leafP len .conjunction us ms) :
    Finds leafP len .conjunction (ts ++ andToken :: us) (gather .or ns :: ms) := by
  intro vs hf hlen n hn
  simp only [fuelFor, List.length_append, List.length_cons] at hn hlen
  obtain ⟨n, rfl⟩ : ∃ k, n = k + 1 := ⟨n - 1, by omega⟩
  have hin := h (andToken :: (us ++ vs)) (fun t ht => by rw [← Option.some.inj ht]; decide)
    (by simp only [List.length_append, List.length_cons]; omega) n
    (by simp only [fuelFor, List.length_append, List.length_cons]; omega)
  have hin' := h' vs hf (by simp only [List.length_append]; omega) n
    (by simp only [fuelFor, List.length_append]; omega)
  rw [List.append_assoc, List.cons_append]
  simp only [items] at hin hin' ⊢
  rw [andItems]
  simp only [parseOr_succ, hin, Except.map, bind, Except.bind, andLoop_and, hin',
    joinNodes_map_flatten]
  rfl

theorem finds_adjacent (hts : Starts ts) (hus : Starts us) (h : Finds leafP len .disjunction ts ns)
    (h' : Finds leafP len .conjunction us ms) :
    Finds leafP len .conjunction (ts ++ us) (gather .or ns :: ms) := by
  intro vs hf hlen n hn
  simp only [fuelFor, List.length_append] at hn hlen
  have hpos := hts.length_pos
  obtain ⟨n, rfl⟩ : ∃ k, n = k + 1 := ⟨n - 1, by omega⟩
  obtain ⟨t, ws, hws, ht⟩ := hus.append vs
  have hfollow : Follow .disjunction (us ++ vs) := by
    rw [hws]
    intro u hu
    rw [← Option.some.inj hu]
    exact ⟨ht.follow.1, ht.follow.2.1⟩
  have hin := h (us ++ vs) hfollow (by simp only [List.length_append]; omega) n
    (by simp only [fuelFor, List.length_append]; omega)
  have hin' := h' vs hf (by simp only [List.length_append]; omega) n
    (by simp only [fuelFor, List.length_append]; omega)
  rw [List.append_assoc]
  simp only [items] at hin hin' ⊢
  rw [andItems, parseOr_succ, hin]
  rw [hws] at hin' ⊢
  simp only [Except.map, bind, Except.bind, andLoop_adjacent ht.follow.2.2.1 ht.follow.2.2.2,
    hin', joinNodes_map_flatten]
  rfl

end Rules

/-- **Completeness.**  The parser finds the operands that the grammar reads. -/
theorem items_of_reads (hc : Complete leaf leafP len) {lvl : Level} {ts : List Token}
    {ns : List Node} (h : Reads leaf lvl ts ns) : Finds leafP len lvl ts ns := by
  induction h with
  | leaf h => exact finds_leaf hc h
  | paren hl hr _ ih => exact finds_paren hl hr ih
  | not _ ih => exact finds_not ih
  | orOne _ ih => exact finds_orOne ih
  | orCons _ _ ih ih' => exact finds_orCons ih ih'
  | andOne _ ih => exact finds_andOne ih
  | andCons _ _ ih ih' => exact finds_andCons ih ih'
  | adjacent h h' ih ih' =>
    exact finds_adjacent (hc.reads_starts h) (hc.reads_starts h') ih ih'

end Custodian.Grammar

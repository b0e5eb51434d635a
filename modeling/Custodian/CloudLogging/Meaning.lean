import Custodian.CloudLogging.NormalForm
import Custodian.Lib.Formula

/-!
# Canonicalization preserves meaning

A tree is a boolean formula over its leaves, whose truth values are arbitrary.
-/

namespace Custodian.Meaning

open Py Custodian.Tokenizer Custodian.Retokenize Custodian.Recasing Custodian.Parser
  Custodian.Grammar Custodian.ParserSpec Custodian.Printing Custodian.Canonical
  Custodian.CanonicalTokens Custodian.Lexemes Custodian.FormedTrees Custodian.CanonicalTree
  Custodian.NormalForm BoolLogic

variable {ct : CaseTable} {P : Node → Prop}

/-! ## Formulas over leaves -/

mutual
/-- The boolean formula of a tree over its leaves. -/
def formula : Node → Formula Node
  | .all => .all []
  | .term ts => .atom (.term ts)
  | .predicate lhs op rhs => .atom (.predicate lhs op rhs)
  | .not e => .neg (formula e)
  | .group .and cs => .all (formulas cs)
  | .group .or cs => .any (formulas cs)

def formulas : List Node → List (Formula Node)
  | [] => []
  | n :: ns => formula n :: formulas ns
end

theorem formulas_eq (ns : List Node) : formulas ns = ns.map formula := by
  induction ns with
  | nil => rfl
  | cons n ns ih => exact congrArg (formula n :: ·) ih

/-- The truth value of a tree. -/
def eval (v : Node → Bool) (n : Node) : Bool := (formula n).eval v

section Eval

variable (v : Node → Bool)

@[simp] theorem eval_all : eval v .all = true := rfl

@[simp] theorem eval_term (ts : List Token) : eval v (.term ts) = v (.term ts) := rfl

@[simp] theorem eval_predicate (lhs : List Token) (op : Text) (rhs : Token) :
    eval v (.predicate lhs op rhs) = v (.predicate lhs op rhs) := rfl

@[simp] theorem eval_not (e : Node) : eval v (.not e) = !eval v e := rfl

@[simp] theorem eval_and (cs : List Node) : eval v (.group .and cs) = cs.all (eval v) := by
  have h : eval v (.group .and cs) = (formulas cs).all (Formula.eval v) :=
    Formula.eval_all v (formulas cs)
  rw [h, formulas_eq, List.all_map]
  rfl

@[simp] theorem eval_or (cs : List Node) : eval v (.group .or cs) = cs.any (eval v) := by
  have h : eval v (.group .or cs) = (formulas cs).any (Formula.eval v) :=
    Formula.eval_any v (formulas cs)
  rw [h, formulas_eq, List.any_map]
  rfl

/-- The truth value of operands that a connective joins. -/
def evalJoin (k : Connective) (ns : List Node) : Bool :=
  match k with
  | .and => ns.all (eval v)
  | .or => ns.any (eval v)

theorem eval_group (k : Connective) (cs : List Node) : eval v (.group k cs) = evalJoin v k cs := by
  cases k
  · exact eval_and v cs
  · exact eval_or v cs

theorem evalJoin_append (k : Connective) (ns ms : List Node) :
    evalJoin v k (ns ++ ms) =
      match k with
      | .and => evalJoin v k ns && evalJoin v k ms
      | .or => evalJoin v k ns || evalJoin v k ms := by
  cases k <;> simp [evalJoin]

@[simp] theorem evalJoin_single (k : Connective) (n : Node) : evalJoin v k [n] = eval v n := by
  cases k <;> simp [evalJoin]

theorem eval_gather (k : Connective) (ns : List Node) : eval v (gather k ns) = evalJoin v k ns := by
  unfold gather
  split
  · rw [evalJoin_single]
  · exact eval_group v k ns

theorem evalJoin_spliced (k : Connective) (n : Node) : evalJoin v k (spliced k n) = eval v n := by
  by_cases hk : IsGroup k n
  · cases n with
    | group k' cs =>
      obtain rfl : k' = k := hk
      rw [spliced, if_pos rfl, eval_group]
    | _ => cases hk
  · rw [spliced_of_not hk, evalJoin_single]

theorem evalJoin_flatMap (k : Connective) (ns : List Node) :
    evalJoin v k (ns.flatMap (spliced k)) = evalJoin v k ns := by
  induction ns with
  | nil => rfl
  | cons n ns ih =>
    rw [List.flatMap_cons, evalJoin_append, ih, evalJoin_spliced, ← List.singleton_append,
      evalJoin_append, evalJoin_single]

theorem eval_joinNodes (k : Connective) (ns : List Node) :
    eval v (joinNodes k ns) = evalJoin v k ns := by
  rw [← evalJoin_flatMap]
  unfold joinNodes
  split
  · rename_i n hn
    rw [hn, evalJoin_single]
  · exact eval_group v k _

theorem evalJoin_congr (k : Connective) {f : Node → Node} {ns : List Node}
    (h : ∀ n ∈ ns, eval v (f n) = eval v n) : evalJoin v k (ns.map f) = evalJoin v k ns := by
  induction ns with
  | nil => rfl
  | cons n ns ih =>
    obtain ⟨hn, hns⟩ := List.forall_mem_cons.mp h
    rw [List.map_cons, ← List.singleton_append, evalJoin_append, ih hns, evalJoin_single, hn,
      ← List.singleton_append (x := n), evalJoin_append, evalJoin_single]

/-- **Grouping.**  A flattened tree means what the tree means. -/
theorem eval_flatten (n : Node) : eval v (flatten n) = eval v n := by
  induction n using node_induct with
  | all => rw [flatten_all]
  | term ts => rw [flatten_term]
  | predicate lhs op rhs => rw [flatten_predicate]
  | not e ih => rw [flatten_not, eval_not, eval_not, ih]
  | group k ns ih => rw [flatten_group, eval_joinNodes, evalJoin_congr v k ih, eval_group]

end Eval

/-! ## Valuations that ignore spelling -/

/-- Paths that differ in the case of the names before the keys of a map only. -/
def SamePath (ct : CaseTable) (p p' : Text) : Prop :=
  ∃ a b a', splitField ct p = (a, b) ∧ p' = a' ++ b ∧ ct.lower a' = ct.lower a

/-- A value without its quotes. -/
def rawText (t : Token) : Text := if t.kind = .string then unquoted t.text else t.text

/-- Leaves that differ in the case of a term, in that of a path before the keys of
a map, in the quoting of a value, or in its case outside regular expressions. -/
inductive SameLeaf (ct : CaseTable) : Node → Node → Prop where
  | term {ts us} : ts.map (lowerToken ct) = us.map (lowerToken ct) →
      SameLeaf ct (.term ts) (.term us)
  | path {p p' op v} : SamePath ct p p' →
      SameLeaf ct (.predicate [⟨.word, p⟩] op v) (.predicate [⟨.word, p'⟩] op v)
  | quotes {lhs op v v'} : rawText v = rawText v' →
      SameLeaf ct (.predicate lhs op v) (.predicate lhs op v')
  | value {lhs op v v'} : ignoresCase op = true → v.kind = v'.kind →
      ct.lower v.text = ct.lower v'.text →
      SameLeaf ct (.predicate lhs op v) (.predicate lhs op v')

/-- The valuation gives such leaves one truth value. -/
def Respects (ct : CaseTable) (v : Node → Bool) : Prop :=
  ∀ l l', SameLeaf ct l l' → v l = v l'

variable {v : Node → Bool}

theorem rawText_quoteValue {t : Token} (hk : t.kind = .word ∨ t.kind = .string) :
    rawText ⟨quotedKind t, quoteValue t⟩ = rawText t := by
  obtain ⟨k, s⟩ := t
  unfold rawText quotedKind quoteValue
  simp only
  by_cases hs : k = .string ∧ s.head? = some '\'' ∧ '"' ∉ s
  · obtain ⟨rfl, hq, hno⟩ := hs
    have hstring : ¬ (Kind.string = .word ∧ ∀ c ∈ s, c ≠ '"' ∧ c ≠ '\'' ∧ c ≠ '\\') := by simp
    rw [if_neg hstring, if_pos rfl, if_pos ⟨rfl, hq, hno⟩, if_pos rfl]
    simp [unquoted]
  · rw [if_neg hs]
    by_cases hw : k = .word ∧ ∀ c ∈ s, c ≠ '"' ∧ c ≠ '\'' ∧ c ≠ '\\'
    · rw [if_pos hw, if_pos hw, if_pos rfl, if_neg (by rw [hw.1]; decide)]
      simp [unquoted]
    · rw [if_neg hw, if_neg hw]

theorem samePath_lowerPath (p : Text) : SamePath ct p (lowerPath ct p) :=
  ⟨_, _, ct.lower (splitField ct p).1, rfl, rfl, CaseTable.lower_lower ..⟩

theorem eval_canonicalLeaf (hv : Respects ct v) {T L : List Token → Prop} {n : Node}
    (h : LeafOf T L n) : v (canonicalNode ct n) = v n := by
  cases n with
  | term ts =>
    rw [canonicalNode_term]
    refine hv _ _ (.term ?_)
    rw [List.map_map]
    exact List.map_congr_left fun t _ => lowerToken_lowerToken ct t
  | predicate lhs op rhs =>
    have hk := h.2.2.1
    have hfield : v (.predicate (canonicalField ct lhs) op rhs) = v (.predicate lhs op rhs) := by
      match lhs with
      | [] => rfl
      | [⟨k, p⟩] =>
        rw [canonicalField]
        split
        · rename_i hw
          obtain rfl : k = .word := hw
          exact (hv _ _ (.path (samePath_lowerPath p))).symm
        · rfl
      | _ :: _ :: _ => rfl
    have hquotes : v (.predicate (canonicalField ct lhs) op ⟨quotedKind rhs, quoteValue rhs⟩) =
        v (.predicate (canonicalField ct lhs) op rhs) := hv _ _ (.quotes (rawText_quoteValue hk))
    rw [canonicalNode_predicate, ← hfield, ← hquotes]
    unfold canonicalValue canonicalizeValue
    cases hi : ignoresCase op
    · rfl
    · exact hv _ _ (.value hi rfl (by simp))
  | _ => cases h

theorem eval_of_text {n m : Node} (hn : Readable n) (hm : Readable m)
    (h : nodeText n = nodeText m) : eval v n = eval v m := by
  rw [← eval_flatten v n, flatten_of_text hn hm h, eval_flatten]

theorem evalJoin_keptNodes {k : Connective} {cs : List Node} (hcs : ∀ c ∈ cs, Source c) :
    evalJoin v k (keptNodes ct cs) = evalJoin v k (cs.map (canonicalNode ct)) := by
  have hall : ∀ b : Bool, (∀ m ∈ keptNodes ct cs, eval v m = b) ↔
      ∀ c ∈ cs, eval v (canonicalNode ct c) = b :=
    fun b => forall_keptNodes (Q := fun m => eval v m = b)
      (fun hn hm h => by rw [eval_of_text hn hm h]) hcs
  cases k
  · rw [Bool.eq_iff_iff]
    simpa [evalJoin] using hall true
  · have hfalse := hall false
    rw [← Bool.not_inj_iff, Bool.eq_iff_iff]
    simpa [evalJoin] using hfalse

/-- **Meaning.**  A canonical tree means what the tree means. -/
theorem eval_canonicalNode (hv : Respects ct v) {n : Node} (h : Source n) :
    eval v (canonicalNode ct n) = eval v n := by
  induction h with
  | @term ts hp =>
    have hleaf := eval_canonicalLeaf hv hp
    rw [canonicalNode_term] at hleaf ⊢
    rw [eval_term, eval_term, hleaf]
  | @predicate lhs op rhs hp =>
    have hleaf := eval_canonicalLeaf hv hp
    rw [canonicalNode_predicate] at hleaf ⊢
    rw [eval_predicate, eval_predicate, hleaf]
  | not _ ih => rw [canonicalNode_not, eval_not, eval_not, ih]
  | @group k cs hlen hcs ih =>
    rw [canonicalNode_group, eval_gather, evalJoin_keptNodes hcs, evalJoin_congr v k ih, eval_group]

/-! ## Expressions -/

/-- The truth value of an expression; one that does not parse matches nothing. -/
def evalText (v : Node → Bool) (e : Text) : Bool :=
  match parse e with
  | .ok n => eval v n
  | .error _ => false

/-- An expression that parses, without stray quotes, in which no comparison calls a
function by the name of a logical operator. -/
def Plain (e : Text) : Prop :=
  (∀ t ∈ tokenize e, ¬ Stray t) ∧ ∃ n, parse e = .ok n ∧ CallsOk n

/-- The tree of an expression. -/
def tree (e : Text) : Node :=
  match parse e with
  | .ok n => n
  | .error _ => .all

theorem Plain.tree {e : Text} (h : Plain e) : parse e = .ok (tree e) ∧
    ((tokenize e = [] ∧ tree e = .all) ∨ (tokenize e ≠ [] ∧ Source (tree e))) := by
  obtain ⟨hq, n, hn, hc⟩ := h
  have htree : Meaning.tree e = n := by rw [Meaning.tree, hn]
  rw [htree]
  exact ⟨hn, (parse_formed hq hn).imp_right fun h => ⟨h.1, source_of_callsOk h.2.1 hc⟩⟩

theorem Plain.evalText {e : Text} (h : Plain e) : evalText v e = eval v (Meaning.tree e) := by
  rw [Meaning.evalText, h.tree.1]

theorem Plain.canonicalize {e : Text} (h : Plain e) :
    canonicalize ct e = .ok (canonicalizeNode ct (Meaning.tree e)) := by
  rw [Canonical.canonicalize, h.tree.1]
  rfl

/-- **Canonical texts.**  The canonical text of an expression is parsed, and means
what the expression means. -/
theorem parse_canonical {e : Text} (h : Plain e) : ∃ c n, canonicalize ct e = .ok c ∧
    parse c = .ok n ∧ ∀ v, Respects ct v → eval v n = evalText v e := by
  refine ⟨canonicalizeNode ct (tree e), ?_⟩
  rcases h.tree.2 with ⟨-, ht⟩ | ⟨-, ht⟩
  · refine ⟨.all, h.canonicalize, ?_, fun v _ => ?_⟩
    · rw [ht]
      rfl
    · rw [h.evalText, ht]
  · refine ⟨flatten (canonicalNode ct (tree e)), h.canonicalize, ?_, fun v hv => ?_⟩
    · rw [← nodeText_canonicalNode ht, parse_nodeText ht.canonical]
    · rw [eval_flatten, eval_canonicalNode hv ht, h.evalText]

end Custodian.Meaning

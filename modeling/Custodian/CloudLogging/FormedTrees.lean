import Custodian.CloudLogging.Lexemes
import Custodian.CloudLogging.Printing

/-!
# The shape of parsed trees

A formed tree has groups of several operands only, and leaves that satisfy a
given property.
-/

namespace Custodian.FormedTrees

open Py Custodian.Tokenizer Custodian.Retokenize Custodian.Parser Custodian.Grammar
  Custodian.ParserSpec Custodian.Printing Custodian.Lexemes

/-! ## Formed trees -/

/-- Every group has several operands, and every leaf satisfies `P`. -/
inductive Formed (P : Node → Prop) : Node → Prop where
  | term {ts} : P (.term ts) → Formed P (.term ts)
  | predicate {lhs op v} : P (.predicate lhs op v) → Formed P (.predicate lhs op v)
  | not {e} : Formed P e → Formed P (.not e)
  | group {k cs} : 2 ≤ cs.length → (∀ c ∈ cs, Formed P c) → Formed P (.group k cs)

variable {P Q : Node → Prop}

theorem Formed.mono (h : ∀ n, P n → Q n) {n : Node} (hn : Formed P n) : Formed Q n := by
  induction hn with
  | term hp => exact .term (h _ hp)
  | predicate hp => exact .predicate (h _ hp)
  | not _ ih => exact .not ih
  | group hlen _ ih => exact .group hlen ih

theorem Formed.gather {k : Connective} {ns : List Node} (hne : ns ≠ [])
    (h : ∀ n ∈ ns, Formed P n) : Formed P (gather k ns) := by
  match ns with
  | [] => exact absurd rfl hne
  | [n] => exact h n List.mem_cons_self
  | n :: m :: ns => exact .group (by simp) h

theorem Formed.of_mem_spliced {k : Connective} {n m : Node} (h : Formed P n)
    (hm : m ∈ spliced k n) : Formed P m := by
  cases h with
  | @group k' cs hlen hcs =>
    rw [spliced] at hm
    split at hm
    · exact hcs m hm
    · rw [List.mem_singleton.mp hm]
      exact .group hlen hcs
  | term hp => exact List.mem_singleton.mp hm ▸ .term hp
  | predicate hp => exact List.mem_singleton.mp hm ▸ .predicate hp
  | not he => exact List.mem_singleton.mp hm ▸ .not he

theorem Formed.spliced_ne_nil {n : Node} (h : Formed P n) (k : Connective) : spliced k n ≠ [] := by
  cases h with
  | group hlen =>
    rw [spliced]
    split
    · rintro rfl
      cases hlen
    · simp
  | _ => simp [spliced]

theorem length_flatMap_spliced {k : Connective} {ns : List Node} (h : ∀ n ∈ ns, Formed P n) :
    ns.length ≤ (ns.flatMap (spliced k)).length := by
  induction ns with
  | nil => exact Nat.zero_le _
  | cons n ns ih =>
    have hpos := List.length_pos_iff.mpr ((h n List.mem_cons_self).spliced_ne_nil k)
    have hrest := ih fun m hm => h m (List.mem_cons_of_mem n hm)
    rw [List.flatMap_cons, List.length_append, List.length_cons]
    omega

theorem joinNodes_group {k : Connective} {ns : List Node} (h : ∀ n ∈ ns, Formed P n)
    (hlen : 2 ≤ ns.length) : joinNodes k ns = .group k (ns.flatMap (spliced k)) := by
  have hflat := length_flatMap_spliced (k := k) h
  unfold joinNodes
  split
  · rename_i m hm
    rw [hm, List.length_singleton] at hflat
    omega
  · rfl

theorem gather_group {k : Connective} {ns : List Node} (hlen : 2 ≤ ns.length) :
    gather k ns = .group k ns := by
  match ns with
  | [] => cases hlen
  | [n] => simp at hlen
  | n :: m :: ns => rfl

theorem Formed.flatten {n : Node} (h : Formed P n) : Formed P (flatten n) := by
  induction h with
  | term hp => exact flatten_term _ ▸ .term hp
  | predicate hp => exact flatten_predicate .. ▸ .predicate hp
  | not _ ih => exact flatten_not _ ▸ .not ih
  | @group k cs hlen _ ih =>
    have hmap : ∀ m ∈ cs.map Grammar.flatten, Formed P m := by
      intro m hm
      obtain ⟨c, hc, rfl⟩ := List.mem_map.mp hm
      exact ih c hc
    rw [flatten_group, joinNodes_group hmap (by rwa [List.length_map])]
    refine .group ?_ fun m hm => ?_
    · have hflat := length_flatMap_spliced (k := k) hmap
      rw [List.length_map] at hflat
      omega
    · obtain ⟨c, hc, hm⟩ := List.mem_flatMap.mp hm
      exact (hmap c hc).of_mem_spliced hm

theorem flatten_eq_self {n : Node} (h : Formed P n) (hf : Flat n) : flatten n = n := by
  induction h with
  | term => exact flatten_term _
  | predicate => exact flatten_predicate ..
  | not _ ih =>
    cases hf with
    | not hf => rw [flatten_not, ih hf]
  | @group k cs hlen hcs ih =>
    cases hf with
    | group hno hflat =>
      have hmap : cs.map Grammar.flatten = cs :=
        (List.map_congr_left fun c hc => ih c hc (hflat c hc)).trans (List.map_id cs)
      have hsplice : cs.flatMap (spliced k) = cs := by
        rw [List.flatMap_congr fun c hc => spliced_of_not (hno c hc), List.flatMap_singleton']
      rw [flatten_group, hmap, joinNodes_group hcs hlen, hsplice]

/-! ## What is read is formed -/

theorem reads_closed {leaf : List Token → Node → Prop} (hleaf : ∀ ts n, leaf ts n → Closed ts ∧ ts ≠ [])
    {lvl : Level} {ts : List Token} {ns : List Node} (h : Reads leaf lvl ts ns) :
    Closed ts ∧ ts ≠ [] := by
  have hcons : ∀ {us : List Token} (t : Token) (ts : List Token), Closed us ∧ us ≠ [] →
      Closed (ts ++ t :: us) ∧ ts ++ t :: us ≠ [] := by
    intro us t ts ⟨hc, hne⟩
    exact ⟨(hc.append hne [t]).append (by simp) ts, by simp⟩
  induction h with
  | leaf h => exact hleaf _ _ h
  | @paren l r ts ns hl hr h ih =>
    have hr' : Closed [r] ∧ [r] ≠ [] := by
      refine ⟨fun u hu => ?_, by simp⟩
      obtain rfl : r = u := by simpa using hu
      rw [hr]
      decide
    exact ⟨hr'.1.append hr'.2 (l :: ts), by simp⟩
  | not h ih => exact hcons notToken [] ih
  | orOne h ih => exact ih
  | orCons _ _ _ ih => exact hcons orToken _ ih
  | andOne h ih => exact ih
  | andCons _ _ _ ih => exact hcons andToken _ ih
  | adjacent _ _ _ ih => exact ⟨ih.1.append ih.2 _, by simp [ih.2]⟩

theorem lastIsOp_closed {ts : List Token} (h : Closed ts) : lastIsOp false ts = false := by
  unfold lastIsOp
  cases e : ts.getLast? with
  | none => rfl
  | some t => exact decide_eq_false (h t e).1

theorem loose_split {ts us : List Token} (h : Loose false (ts ++ us)) (hc : Closed ts) :
    Loose false ts ∧ Loose false us := by
  refine ⟨h.left fun t ht => (hc t ht).2, ?_⟩
  have hr := h.right
  rwa [lastIsOp_closed hc] at hr

theorem reads_ne_nil {leaf : List Token → Node → Prop} {lvl : Level} {ts : List Token}
    {ns : List Node} (h : Reads leaf lvl ts ns) : ns ≠ [] := by
  cases h <;> simp

theorem reads_formed {leaf : List Token → Node → Prop} (good : List Token → Prop)
    (hclosed : ∀ ts n, leaf ts n → Closed ts ∧ ts ≠ [])
    (hsplit : ∀ {ts us}, Closed ts → good (ts ++ us) → good ts ∧ good us)
    (htail : ∀ {t ts}, t.kind = .lparen ∨ t.kind = .logic → good (t :: ts) → good ts)
    (hleaf : ∀ ts n, leaf ts n → good ts → Formed P n)
    {lvl : Level} {ts : List Token} {ns : List Node} (h : Reads leaf lvl ts ns) (hg : good ts) :
    ∀ n ∈ ns, Formed P n := by
  have hc := fun {lvl ts ns} (h : Reads leaf lvl ts ns) => (reads_closed hclosed h).1
  induction h with
  | leaf h => exact List.forall_mem_singleton.mpr (hleaf _ _ h hg)
  | paren hl _ h ih =>
    have hin := (hsplit (hc h) (htail (Or.inl hl) hg)).1
    exact List.forall_mem_singleton.mpr (.gather (reads_ne_nil h) (ih hin))
  | not h ih =>
    have hin := ih (htail (Or.inr rfl) hg)
    exact List.forall_mem_singleton.mpr (.not (hin _ List.mem_cons_self))
  | orOne h ih => exact ih hg
  | orCons h h' ih ih' =>
    obtain ⟨hts, hus⟩ := hsplit (hc h) hg
    exact List.forall_mem_cons.mpr
      ⟨ih hts _ List.mem_cons_self, ih' (htail (Or.inr rfl) hus)⟩
  | andOne h ih => exact List.forall_mem_singleton.mpr (.gather (reads_ne_nil h) (ih hg))
  | andCons h h' ih ih' =>
    obtain ⟨hts, hus⟩ := hsplit (hc h) hg
    exact List.forall_mem_cons.mpr
      ⟨.gather (reads_ne_nil h) (ih hts), ih' (htail (Or.inr rfl) hus)⟩
  | adjacent h h' ih ih' =>
    obtain ⟨hts, hus⟩ := hsplit (hc h) hg
    exact List.forall_mem_cons.mpr ⟨.gather (reads_ne_nil h) (ih hts), ih' hus⟩

theorem value_closed {lhs : List Token} {op : Text} (ts : List Token) (n : Node)
    (h : ReadsValue lhs op ts n) : Closed ts ∧ ts ≠ [] := by
  cases h with
  | @value v hk =>
    refine ⟨fun u hu => ?_, by simp⟩
    obtain rfl : v = u := by simpa using hu
    rcases hk with hk | hk <;> rw [hk] <;> decide

theorem operand_ne_nil {ts : List Token} (h : Operand ts) : ts ≠ [] := by
  cases h <;> simp

theorem predicate_closed (ts : List Token) (n : Node) (h : ReadsPredicate ts n) :
    Closed ts ∧ ts ≠ [] := by
  cases h with
  | term ho => exact ⟨operand_closed ho, operand_ne_nil ho⟩
  | @value lhs o v ho hop hk =>
    have hv := @value_closed lhs o.text [v] _ (.value hk)
    exact ⟨(hv.1.append hv.2 [o]).append (by simp) lhs, by simp⟩
  | @list lhs o l r ts ns ho hop hl hr h =>
    have hr' : Closed [r] := by
      intro u hu
      obtain rfl : r = u := by simpa using hu
      rw [hr]
      decide
    refine ⟨?_, by simp⟩
    rw [← List.cons_append, ← List.cons_append, ← List.append_assoc]
    exact hr'.append (by simp) _

theorem reads_proper {ts : List Token} {ns : List Node} {lvl : Level}
    (h : Reads ReadsPredicate lvl ts ns) : ∀ n ∈ ns, Formed (fun _ => True) n := by
  refine reads_formed (fun _ => True) predicate_closed (fun _ _ => ⟨trivial, trivial⟩)
    (fun _ _ => trivial) (fun ts n hn _ => ?_) h trivial
  cases hn with
  | term => exact .term trivial
  | value => exact .predicate trivial
  | list _ _ _ _ hvs =>
    refine .gather (reads_ne_nil hvs) (reads_formed (fun _ => True) value_closed
      (fun _ _ => ⟨trivial, trivial⟩) (fun _ _ => trivial) (fun us m hm _ => ?_) hvs trivial)
    cases hm
    exact .predicate trivial

/-- Leaves of the given tokens: those of terms satisfy `T`, those on the left of
comparisons `L`. -/
def LeafOf (T L : List Token → Prop) : Node → Prop
  | .term ts => Operand ts ∧ T ts
  | .predicate lhs op v => (Operand lhs ∧ L lhs) ∧ (op ∈ twoCharOps ∨ op ∈ oneCharOps) ∧
      (v.kind = .word ∨ v.kind = .string) ∧ Lexical true v
  | _ => False

theorem LeafOf.mono {T T' L L' : List Token → Prop} (hT : ∀ ts, T ts → T' ts)
    (hL : ∀ ts, L ts → L' ts) (n : Node) (h : LeafOf T L n) : LeafOf T' L' n := by
  cases n with
  | term ts => exact ⟨h.1, hT _ h.2⟩
  | predicate lhs op v => exact ⟨⟨h.1.1, hL _ h.1.2⟩, h.2⟩
  | _ => exact h

theorem lexical_of_loose {b : Bool} {t : Token} {ts : List Token} (h : Loose b (t :: ts))
    (hk : t.kind ≠ .func) : Lexical b t := by
  rcases h.1 with h | ⟨e, -⟩
  · exact h
  · exact absurd e hk

theorem loose_tail {t : Token} {ts : List Token} (hk : t.kind = .lparen ∨ t.kind = .logic)
    (h : Loose false (t :: ts)) : Loose false ts := by
  have hop : t.kind ≠ .op := by rcases hk with hk | hk <;> rw [hk] <;> decide
  have htail := h.2.2
  rwa [decide_eq_false hop] at htail

theorem value_lexical {b : Bool} {v : Token} {ts : List Token}
    (hk : v.kind = .word ∨ v.kind = .string) (h : Loose b (v :: ts)) : Lexical true v := by
  refine (lexical_of_loose h ?_).after_op
  rcases hk with hk | hk <;> rw [hk] <;> decide

theorem predicate_formed (ts : List Token) (n : Node) (h : ReadsPredicate ts n)
    (hl : Loose false ts) : Formed (LeafOf (Loose false) (Loose false)) n := by
  cases h with
  | term ho => exact .term ⟨ho, hl⟩
  | @value lhs o v ho hop hk =>
    obtain ⟨hlhs, hrest⟩ := loose_split hl (operand_closed ho)
    obtain ⟨ko, vo⟩ := o
    obtain rfl : ko = .op := hop
    exact .predicate ⟨⟨ho, hlhs⟩, lexical_of_loose hrest (by simp), hk, value_lexical hk hrest.2.2⟩
  | @list lhs o l r ts ns ho hop hlp hrp h =>
    obtain ⟨hlhs, hrest⟩ := loose_split hl (operand_closed ho)
    obtain ⟨ko, vo⟩ := o
    obtain rfl : ko = .op := hop
    obtain ⟨kl, vl⟩ := l
    obtain rfl : kl = .lparen := hlp
    have hin : Loose false ts := (loose_split hrest.2.2.2.2 (reads_closed value_closed h).1).1
    refine .gather (reads_ne_nil h) (reads_formed (Loose false) value_closed (fun hc h => loose_split h hc)
      loose_tail (fun us m hm hus => ?_) h hin)
    cases hm with
    | value hk =>
      exact .predicate ⟨⟨ho, hlhs⟩, lexical_of_loose hrest (by simp), hk, value_lexical hk hus⟩

/-- **Parsed trees.**  A text without stray quotes is empty of tokens, or parsed to
a tree with loose leaves. -/
theorem parse_formed {s : Text} {n : Node} (hq : ∀ t ∈ tokenize s, ¬ Stray t)
    (h : parse s = .ok n) :
    (tokenize s = [] ∧ n = .all) ∨
      (tokenize s ≠ [] ∧ Formed (LeafOf (Loose false) (Loose false)) n ∧ Flat n) := by
  rcases parse_spec s with ⟨ht, e⟩ | ⟨m, ⟨ns, hns, rfl⟩, e⟩ | ⟨message, -, e⟩
  · rw [e, Except.ok.injEq] at h
    exact Or.inl ⟨ht, h.symm⟩
  · rw [e, Except.ok.injEq] at h
    subst h
    have hformed := reads_formed (Loose false) predicate_closed (fun hc h => loose_split h hc) loose_tail
      predicate_formed hns (loose_tokenize hq)
    exact Or.inr ⟨(reads_closed predicate_closed hns).2,
      (Formed.gather (reads_ne_nil hns) hformed).flatten, flatten_flat _⟩
  · rw [e] at h
    cases h

end Custodian.FormedTrees

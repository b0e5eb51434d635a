import Custodian.CloudLogging.CanonicalTree
import Mathlib.Algebra.Order.BigOperators.Group.List
import Mathlib.Algebra.Order.Ring.Nat

/-!
# Canonical texts as a normal form

A canonical text is canonical again unless a group collapses into its parent: an
OR of one repeated AND is printed as that AND, which is flattened only when the
text is parsed again.
-/

namespace Custodian.NormalForm

open Py Custodian.Tokenizer Custodian.Retokenize Custodian.Recasing Custodian.Parser
  Custodian.Grammar Custodian.ParserSpec Custodian.Printing Custodian.Canonical
  Custodian.CanonicalTokens Custodian.Lexemes Custodian.FormedTrees Custodian.CanonicalTree

variable {ct : CaseTable} {P : Node → Prop}

/-! ## Counting parentheses -/

/-- The number of opening parentheses of a list of tokens. -/
def openings (ts : List Token) : Nat := ts.countP fun t => t.kind = .lparen

/-- The number of opening parentheses in the text of a tree. -/
def nodeOpenings (n : Node) : Nat := openings (nodeTokens n)

theorem openings_append (ts us : List Token) :
    openings (ts ++ us) = openings ts + openings us := List.countP_append

theorem openings_cons {t : Token} (ht : t.kind ≠ .lparen) (ts : List Token) :
    openings (t :: ts) = openings ts := by
  simp [openings, ht]

theorem openings_map {f : Token → Token} (hf : ∀ t, (f t).kind = t.kind) (ts : List Token) :
    openings (ts.map f) = openings ts := by
  simp only [openings, List.countP_map, Function.comp_def, hf]

theorem openings_parens (ts : List Token) : openings (parens ts) = 1 + openings ts := by
  simp [openings, parens, lparen, rparen, Nat.add_comm]

theorem openings_join (k : Connective) (ns : List Node) :
    openings (joinTokens k (ns.map nodeTokens)) = (ns.map nodeOpenings).sum := by
  match ns with
  | [] => rfl
  | [n] => simp [joinTokens, nodeOpenings]
  | n :: m :: ns =>
    have hk : (connectiveToken k).kind ≠ .lparen := by
      rw [connectiveToken_kind]
      decide
    have hrest := openings_join k (m :: ns)
    rw [List.map_cons] at hrest
    rw [List.map_cons, List.map_cons, joinTokens, openings_append, openings_cons hk, hrest,
      List.map_cons, List.map_cons, List.sum_cons, List.map_cons]
    rfl

theorem nodeOpenings_group (k : Connective) (cs : List Node) :
    nodeOpenings (.group k cs) = 1 + (cs.map nodeOpenings).sum := by
  rw [nodeOpenings, nodeTokens_group, openings_parens, openings_join]

theorem nodeOpenings_not (e : Node) : nodeOpenings (.not e) = nodeOpenings e := by
  rw [nodeOpenings, nodeTokens_not, openings_cons (by decide)]
  rfl

theorem openings_spliced (k : Connective) (n : Node) :
    ((spliced k n).map nodeOpenings).sum ≤ nodeOpenings n ∧
      (IsGroup k n → ((spliced k n).map nodeOpenings).sum < nodeOpenings n) := by
  by_cases hk : IsGroup k n
  · cases n with
    | group k' cs =>
      obtain rfl : k' = k := hk
      rw [spliced, if_pos rfl, nodeOpenings_group]
      omega
    | _ => cases hk
  · rw [spliced_of_not hk]
    simp [hk]

theorem isGroup_flatten {n : Node} (h : Formed P n) (k : Connective) :
    IsGroup k (flatten n) ↔ IsGroup k n := by
  cases h with
  | @group k' cs hlen hcs =>
    have hmap : ∀ m ∈ cs.map flatten, Formed P m := by
      intro m hm
      obtain ⟨c, hc, rfl⟩ := List.mem_map.mp hm
      exact (hcs c hc).flatten
    rw [flatten_group, joinNodes_group hmap (by rwa [List.length_map])]
    exact Iff.rfl
  | _ => simp [IsGroup]

theorem sum_flatMap_spliced (k : Connective) (ns : List Node) :
    ((ns.flatMap (spliced k)).map nodeOpenings).sum =
      (ns.map fun n => ((spliced k n).map nodeOpenings).sum).sum := by
  induction ns with
  | nil => rfl
  | cons n ns ih => rw [List.flatMap_cons, List.map_append, List.sum_append, ih, List.map_cons,
      List.sum_cons]

theorem openings_flatten {n : Node} (h : Formed P n) :
    nodeOpenings (flatten n) ≤ nodeOpenings n ∧
      (¬ Flat n → nodeOpenings (flatten n) < nodeOpenings n) := by
  induction h with
  | term => exact ⟨by rw [flatten_term], fun hf => absurd .term hf⟩
  | predicate =>
    exact ⟨by rw [flatten_predicate], fun hf => absurd .predicate hf⟩
  | not _ ih =>
    rw [flatten_not, nodeOpenings_not, nodeOpenings_not]
    exact ⟨ih.1, fun hf => ih.2 fun he => hf (.not he)⟩
  | @group k cs hlen hcs ih =>
    have hmap : ∀ m ∈ cs.map flatten, Formed P m := by
      intro m hm
      obtain ⟨c, hc, rfl⟩ := List.mem_map.mp hm
      exact (hcs c hc).flatten
    rw [flatten_group, joinNodes_group hmap (by rwa [List.length_map]), nodeOpenings_group,
      nodeOpenings_group, sum_flatMap_spliced, List.map_map]
    have hle : ∀ c ∈ cs, ((fun m => ((spliced k m).map nodeOpenings).sum) ∘ flatten) c ≤
        nodeOpenings c :=
      fun c hc => le_trans (openings_spliced k (flatten c)).1 (ih c hc).1
    refine ⟨Nat.add_le_add_left (List.sum_le_sum hle) 1, fun hf => ?_⟩
    have hex : ∃ c ∈ cs, IsGroup k c ∨ ¬ Flat c := by
      by_contra hno
      push Not at hno
      exact hf (.group (fun c hc => (hno c hc).1) fun c hc => (hno c hc).2)
    obtain ⟨c, hc, hcase⟩ := hex
    refine Nat.add_lt_add_left (List.sum_lt_sum _ _ hle ⟨c, hc, ?_⟩) 1
    rcases hcase with hg | hn
    · exact lt_of_lt_of_le ((openings_spliced k (flatten c)).2
        ((isGroup_flatten (hcs c hc) k).mpr hg)) (ih c hc).1
    · exact lt_of_le_of_lt (openings_spliced k (flatten c)).1 ((ih c hc).2 hn)

/-- **Nesting.**  Flattening keeps the parentheses exactly of flat trees. -/
theorem flat_iff_openings {n : Node} (h : Formed P n) :
    Flat n ↔ nodeOpenings (flatten n) = nodeOpenings n := by
  constructor
  · intro hf
    rw [flatten_eq_self h hf]
  · intro he
    by_contra hf
    have hlt := (openings_flatten h).2 hf
    omega

theorem openings_canonicalField (ts : List Token) :
    openings (canonicalField ct ts) = openings ts := by
  match ts with
  | [] => rfl
  | [t] =>
    rw [canonicalField]
    split
    · rename_i hk
      simp [openings, hk]
    · rfl
  | _ :: _ :: _ => rfl

theorem openings_insertBy (m : Node) (ns : List Node) :
    ((insertBy nodeText m ns).map nodeOpenings).sum ≤ nodeOpenings m + (ns.map nodeOpenings).sum := by
  induction ns with
  | nil => exact Nat.le_refl _
  | cons n ns ih =>
    rw [insertBy]
    split
    · exact Nat.le_add_left _ _
    · split
      · exact Nat.le_refl _
      · simp only [List.map_cons, List.sum_cons]
        omega

theorem openings_sortedSetBy (ns : List Node) :
    ((sortedSetBy nodeText ns).map nodeOpenings).sum ≤ (ns.map nodeOpenings).sum := by
  induction ns with
  | nil => exact Nat.le_refl _
  | cons n ns ih =>
    have hins := openings_insertBy n (sortedSetBy nodeText ns)
    rw [sortedSetBy, List.map_cons, List.sum_cons]
    omega

theorem openings_canonicalNode {T L : List Token → Prop} {n : Node} (h : Formed (LeafOf T L) n) :
    nodeOpenings (canonicalNode ct n) ≤ nodeOpenings n := by
  have hvalue : ∀ {v : Token}, (v.kind = .word ∨ v.kind = .string) → v.kind ≠ .lparen := by
    intro v hv
    rcases hv with hv | hv <;> rw [hv] <;> decide
  induction h with
  | @term ts =>
    rw [canonicalNode_term, nodeOpenings, nodeOpenings, nodeTokens_term, nodeTokens_term,
      openings_map (lowerToken_kind ct)]
  | @predicate lhs op v hp =>
    have hv := hvalue hp.2.2.1
    have hv' := hvalue (@canonicalValue_kind ct v (ignoresCase op) hp.2.2.1)
    rw [canonicalNode_predicate, nodeOpenings, nodeOpenings, nodeTokens_predicate,
      nodeTokens_predicate, openings_append, openings_append, openings_canonicalField]
    simp [openings, hv, hv']
  | not _ ih => rwa [canonicalNode_not, nodeOpenings_not, nodeOpenings_not]
  | @group k cs hlen hcs ih =>
    have hsum : ((keptNodes ct cs).map nodeOpenings).sum ≤ (cs.map nodeOpenings).sum := by
      refine le_trans (openings_sortedSetBy _) ?_
      rw [List.map_map]
      exact List.sum_le_sum ih
    rw [canonicalNode_group, nodeOpenings_group]
    match hk : keptNodes ct cs with
    | [] =>
      rw [hk] at hsum
      rw [gather, nodeOpenings_group]
      · omega
      · simp
    | [m] =>
      rw [hk] at hsum
      simp only [List.map_cons, List.map_nil, List.sum_cons, List.sum_nil] at hsum
      rw [gather]
      omega
    | m :: m' :: ms =>
      rw [hk] at hsum
      rw [gather_group (by simp), nodeOpenings_group]
      omega

/-- **Idempotence.**  A canonical text is canonical exactly if its tree is flat. -/
theorem canonical_iff_flat {n : Node} (h : Source n) :
    canonicalizeNode ct (flatten (canonicalNode ct n)) = canonicalizeNode ct n ↔
      Flat (canonicalNode ct n) := by
  have hm : Readable (canonicalNode ct n) := h.canonical
  have hflat := hm.flatten
  constructor
  · intro he
    rw [← nodeText_canonicalNode hflat, ← nodeText_canonicalNode h] at he
    have hr : Readable (canonicalNode ct (flatten (canonicalNode ct n))) :=
      canonicalNode_formed (fun _ hts => regular_lowerTokens hts ct)
        (fun _ hts => canonicalField_regular hts) hflat
    have htokens := tokens_of_text hr hm he
    have hle := @openings_canonicalNode ct _ _ _ hflat
    rw [nodeOpenings, htokens] at hle
    exact (flat_iff_openings hm).mpr (Nat.le_antisymm (openings_flatten hm).1 hle)
  · intro hf
    rw [flatten_eq_self hm hf, canonicalizeNode_canonicalNode h]

/-! ## Collapsing groups -/

/-- All operands have one canonical text. -/
def Same (ct : CaseTable) (cs : List Node) : Prop :=
  ∀ c ∈ cs, ∀ d ∈ cs, canonicalizeNode ct c = canonicalizeNode ct d

instance (cs : List Node) : Decidable (Same ct cs) :=
  inferInstanceAs (Decidable (∀ c ∈ cs, ∀ d ∈ cs, _))

mutual
/-- The connective that a node is printed with; a group of one repeated operand
collapses to that operand. -/
def outermost (ct : CaseTable) : Node → Option Connective
  | .group k cs => if Same ct cs then outermostFirst ct cs else some k
  | _ => none

def outermostFirst (ct : CaseTable) : List Node → Option Connective
  | [] => none
  | n :: _ => outermost ct n
end

/-- No operand of a group of several different operands collapses to a group of
its own type. -/
inductive Stable (ct : CaseTable) : Node → Prop where
  | all : Stable ct .all
  | term {ts} : Stable ct (.term ts)
  | predicate {lhs op v} : Stable ct (.predicate lhs op v)
  | not {e} : Stable ct e → Stable ct (.not e)
  | group {k cs} : (∀ c ∈ cs, Stable ct c) →
      (Same ct cs ∨ ∀ c ∈ cs, outermost ct c ≠ some k) → Stable ct (.group k cs)

theorem isGroup_of_text {n m : Node} (hn : Readable n) (hm : Readable m)
    (h : nodeText n = nodeText m) (k : Connective) : IsGroup k n ↔ IsGroup k m := by
  rw [← isGroup_flatten hn, flatten_of_text hn hm h, isGroup_flatten hm]

theorem flat_of_text {n m : Node} (hn : Readable n) (hm : Readable m)
    (h : nodeText n = nodeText m) : Flat n ↔ Flat m := by
  rw [flat_iff_openings hn, flat_iff_openings hm, flatten_of_text hn hm h, nodeOpenings,
    nodeOpenings, nodeOpenings, tokens_of_text hn hm h]

theorem forall_keptNodes {Q : Node → Prop}
    (hQ : ∀ {n m}, Readable n → Readable m → nodeText n = nodeText m → (Q n ↔ Q m))
    {cs : List Node} (hcs : ∀ c ∈ cs, Source c) :
    (∀ m ∈ keptNodes ct cs, Q m) ↔ ∀ c ∈ cs, Q (canonicalNode ct c) := by
  constructor
  · intro h c hc
    have hmem : nodeText (canonicalNode ct c) ∈ (keptNodes ct cs).map nodeText := by
      rw [keptNodes, map_sortedSetBy, mem_sortedSet, List.map_map]
      exact List.mem_map.mpr ⟨c, hc, rfl⟩
    obtain ⟨m, hm, he⟩ := List.mem_map.mp hmem
    obtain ⟨d, hd, rfl⟩ := mem_keptNodes hm
    exact (hQ (hcs d hd).canonical (hcs c hc).canonical he).mp (h _ hm)
  · intro h m hm
    obtain ⟨c, hc, rfl⟩ := mem_keptNodes hm
    exact h c hc

theorem map_keptNodes {cs : List Node} (hcs : ∀ c ∈ cs, Source c) :
    (keptNodes ct cs).map nodeText = sortedSet (cs.map (canonicalizeNode ct)) := by
  rw [keptNodes, map_sortedSetBy, List.map_map]
  exact congrArg sortedSet (List.map_congr_left fun c hc => nodeText_canonicalNode (hcs c hc))

theorem keptNodes_same {cs : List Node} (hcs : ∀ c ∈ cs, Source c) (h : Same ct cs) {c : Node}
    (hc : c ∈ cs) : ∃ m, keptNodes ct cs = [m] ∧ Readable m ∧
      nodeText m = nodeText (canonicalNode ct c) := by
  have hmember : ∀ m ∈ keptNodes ct cs, Readable m ∧ nodeText m = nodeText (canonicalNode ct c) := by
    intro m hm
    obtain ⟨d, hd, rfl⟩ := mem_keptNodes hm
    exact ⟨(hcs d hd).canonical, by
      rw [nodeText_canonicalNode (hcs d hd), nodeText_canonicalNode (hcs c hc), h d hd c hc]⟩
  match hk : keptNodes ct cs with
  | [] => exact absurd hk (keptNodes_ne_nil (List.ne_nil_of_mem hc))
  | [m] => exact ⟨m, rfl, hmember m (by simp [hk])⟩
  | m :: m' :: ms =>
    have hinc : Increasing nodeText (m :: m' :: ms) := hk ▸ increasing_sortedSetBy _
    have hlt := (List.pairwise_cons.mp hinc).1 m' List.mem_cons_self
    rw [(hmember m (by simp [hk])).2, (hmember m' (by simp [hk])).2, Text.lt_irrefl] at hlt
    cases hlt

theorem gather_keptNodes {k : Connective} {cs : List Node} (hne : cs ≠ [])
    (hcs : ∀ c ∈ cs, Source c) (h : ¬ Same ct cs) :
    gather k (keptNodes ct cs) = .group k (keptNodes ct cs) := by
  refine gather_group ?_
  match hk : keptNodes ct cs with
  | [] => exact absurd hk (keptNodes_ne_nil hne)
  | [m] =>
    have hkeys := @map_keptNodes ct cs hcs
    rw [hk] at hkeys
    have hall : ∀ c ∈ cs, canonicalizeNode ct c = nodeText m := by
      intro c hc
      have hmem : canonicalizeNode ct c ∈ sortedSet (cs.map (canonicalizeNode ct)) :=
        mem_sortedSet.mpr (List.mem_map_of_mem hc)
      rw [← hkeys] at hmem
      exact List.mem_singleton.mp hmem
    exact absurd (fun c hc d hd => by rw [hall c hc, hall d hd]) h
  | m :: m' :: ms => simp

theorem outermost_eq {n : Node} (h : Source n) (k : Connective) :
    IsGroup k (canonicalNode ct n) ↔ outermost ct n = some k := by
  induction h with
  | @group k' cs hlen hcs ih =>
    rw [canonicalNode_group, outermost]
    match cs with
    | [] => cases hlen
    | c :: cs =>
      split
      · rename_i hsame
        obtain ⟨m, hm, hr, htext⟩ := keptNodes_same hcs hsame (List.mem_cons_self (a := c))
        rw [hm, gather, outermostFirst, ← ih c List.mem_cons_self]
        exact isGroup_of_text hr (Source.canonical (hcs c List.mem_cons_self)) htext k
      · rename_i hsame
        rw [gather_keptNodes (by simp) hcs hsame]
        simp [IsGroup]
  | _ => simp [IsGroup, outermost]

/-- **Collapsing.**  The canonical tree is flat exactly if no group collapses to
the type of its parent. -/
theorem stable_iff {n : Node} (h : Source n) : Stable ct n ↔ Flat (canonicalNode ct n) := by
  induction h with
  | term =>
    rw [canonicalNode_term]
    exact ⟨fun _ => .term, fun _ => .term⟩
  | predicate =>
    rw [canonicalNode_predicate]
    exact ⟨fun _ => .predicate, fun _ => .predicate⟩
  | not _ ih =>
    rw [canonicalNode_not]
    constructor
    · rintro (_ | _ | _ | he | _)
      exact .not (ih.mp he)
    · rintro (_ | _ | _ | he | _)
      exact .not (ih.mpr he)
  | @group k cs hlen hcs ih =>
    have hne : cs ≠ [] := by
      rintro rfl
      cases hlen
    have hflat : (∀ m ∈ keptNodes ct cs, Flat m) ↔ ∀ c ∈ cs, Stable ct c :=
      (forall_keptNodes flat_of_text hcs).trans
        (forall₂_congr fun c hc => (ih c hc).symm)
    have hgroup : (∀ m ∈ keptNodes ct cs, ¬ IsGroup k m) ↔ ∀ c ∈ cs, outermost ct c ≠ some k :=
      (forall_keptNodes (fun hn hm h => not_congr (isGroup_of_text hn hm h k)) hcs).trans
        (forall₂_congr fun c hc => not_congr (outermost_eq (hcs c hc) k))
    rw [canonicalNode_group]
    by_cases hsame : Same ct cs
    · obtain ⟨c, hc⟩ := List.exists_mem_of_ne_nil cs hne
      obtain ⟨m, hm, -, -⟩ := keptNodes_same hcs hsame hc
      rw [hm, List.forall_mem_singleton] at hflat
      rw [hm, gather, hflat]
      constructor
      · rintro (_ | _ | _ | _ | ⟨hall, -⟩)
        exact hall
      · exact fun hall => .group hall (Or.inl hsame)
    · rw [gather_keptNodes hne hcs hsame]
      constructor
      · rintro (_ | _ | _ | _ | ⟨hall, hor⟩)
        exact .group (hgroup.mpr (hor.resolve_left hsame)) (hflat.mpr hall)
      · rintro (_ | _ | _ | _ | ⟨hno, hall⟩)
        exact .group (hflat.mp hall) (Or.inr (hgroup.mp hno))

/-! ## Rearranged expressions -/

/-- Trees that differ in the order, the repetition and the grouping of operands. -/
inductive Rearranged : Node → Node → Prop where
  | refl {n} : Rearranged n n
  | symm {n m} : Rearranged n m → Rearranged m n
  | trans {n m l} : Rearranged n m → Rearranged m l → Rearranged n l
  | not {e e'} : Rearranged e e' → Rearranged (.not e) (.not e')
  | operand {k as bs c c'} : Rearranged c c' →
      Rearranged (.group k (as ++ c :: bs)) (.group k (as ++ c' :: bs))
  | permute {k cs ds} : cs.Perm ds → Rearranged (.group k cs) (.group k ds)
  | repeat {k cs c} : c ∈ cs → 2 ≤ cs.length → Rearranged (.group k cs) (.group k (c :: cs))
  | parens {k as bs ds} : 2 ≤ ds.length → as ++ bs ≠ [] →
      Rearranged (.group k (as ++ .group k ds :: bs)) (.group k (as ++ ds ++ bs))

/-- Trees of which every group has several operands. -/
abbrev Proper : Node → Prop := Formed fun _ => True

theorem proper_not {e : Node} : Proper (.not e) ↔ Proper e :=
  ⟨fun h => by cases h; assumption, .not⟩

theorem proper_group {k : Connective} {cs : List Node} :
    Proper (.group k cs) ↔ 2 ≤ cs.length ∧ ∀ c ∈ cs, Proper c :=
  ⟨fun h => by cases h with | group hlen hcs => exact ⟨hlen, hcs⟩, fun h => .group h.1 h.2⟩

theorem Rearranged.proper {n m : Node} (h : Rearranged n m) : Proper n ↔ Proper m := by
  induction h with
  | refl => exact Iff.rfl
  | symm _ ih => exact ih.symm
  | trans _ _ ih ih' => exact ih.trans ih'
  | not _ ih => rw [proper_not, proper_not, ih]
  | operand _ ih =>
    simp only [proper_group, List.length_append, List.length_cons, List.forall_mem_append,
      List.forall_mem_cons, ih]
  | permute hp => simp only [proper_group, hp.length_eq, hp.mem_iff]
  | @«repeat» k cs c hc hlen =>
    simp only [proper_group, List.length_cons, List.forall_mem_cons, hlen, true_and]
    exact ⟨fun h => ⟨by omega, h c hc, h⟩, fun h => h.2.2⟩
  | @parens k as bs ds hlen hne =>
    have hpos : 0 < as.length + bs.length := by
      rw [← List.length_append]
      exact List.length_pos_iff.mpr hne
    simp only [proper_group, List.length_append, List.length_cons, List.forall_mem_append,
      List.forall_mem_cons, hlen, true_and]
    constructor
    · rintro ⟨-, has, hds, hbs⟩
      exact ⟨by omega, ⟨has, hds⟩, hbs⟩
    · rintro ⟨-, ⟨has, hds⟩, hbs⟩
      exact ⟨by omega, has, hds, hbs⟩

/-- The canonical texts that a node contributes to a group. -/
def parts (ct : CaseTable) (k : Connective) (n : Node) : List Text :=
  (spliced k n).map (canonicalizeNode ct)

/-- Nodes that no canonical text tells apart. -/
structure Alike (ct : CaseTable) (n m : Node) : Prop where
  text : canonicalizeNode ct n = canonicalizeNode ct m
  parts : ∀ k x, x ∈ parts ct k n ↔ x ∈ parts ct k m

theorem mem_parts {k : Connective} {ns : List Node} {x : Text} :
    x ∈ (ns.flatMap (spliced k)).map (canonicalizeNode ct) ↔ ∃ n ∈ ns, x ∈ parts ct k n := by
  simp only [parts, List.mem_map, List.mem_flatMap]
  constructor
  · rintro ⟨m, ⟨n, hn, hm⟩, rfl⟩
    exact ⟨n, hn, m, hm, rfl⟩
  · rintro ⟨n, hn, m, hm, rfl⟩
    exact ⟨m, ⟨n, hn, hm⟩, rfl⟩

theorem alike_joinNodes {k : Connective} {ns ms : List Node} (hn : ∀ n ∈ ns, Proper n)
    (hm : ∀ m ∈ ms, Proper m) (hlen : 2 ≤ ns.length) (hlen' : 2 ≤ ms.length)
    (h : ∀ x, (∃ n ∈ ns, x ∈ parts ct k n) ↔ ∃ m ∈ ms, x ∈ parts ct k m) :
    Alike ct (joinNodes k ns) (joinNodes k ms) := by
  rw [joinNodes_group hn hlen, joinNodes_group hm hlen']
  have hmem : ∀ x, x ∈ (ns.flatMap (spliced k)).map (canonicalizeNode ct) ↔
      x ∈ (ms.flatMap (spliced k)).map (canonicalizeNode ct) := by
    intro x
    rw [mem_parts, mem_parts, h]
  have htext : canonicalizeNode ct (.group k (ns.flatMap (spliced k))) =
      canonicalizeNode ct (.group k (ms.flatMap (spliced k))) := by
    rw [canonicalizeNode_group, canonicalizeNode_group, sortedSet_congr hmem]
  refine ⟨htext, fun k' x => ?_⟩
  by_cases hk : k = k'
  · subst hk
    simpa only [parts, spliced, if_pos] using hmem x
  · simp only [parts, spliced, if_neg hk, List.map_cons, List.map_nil, htext]

theorem proper_map_flatten {cs : List Node} (h : ∀ c ∈ cs, Proper c) :
    ∀ m ∈ cs.map flatten, Proper m := by
  intro m hm
  obtain ⟨c, hc, rfl⟩ := List.mem_map.mp hm
  exact (h c hc).flatten

theorem parts_flatten_group {k : Connective} {ds : List Node} {x : Text} :
    x ∈ parts ct k (flatten (.group k ds)) ↔ ∃ d ∈ ds, x ∈ parts ct k (flatten d) := by
  have hsplice : spliced k (flatten (.group k ds)) = (ds.map flatten).flatMap (spliced k) := by
    rw [flatten_group, spliced_joinNodes (map_flatten_noNested ds)]
  rw [parts, hsplice, mem_parts]
  simp only [List.mem_map, exists_exists_and_eq_and]

/-- **Rearranging.**  Order, repetition and grouping leave no trace. -/
theorem alike_flatten {n m : Node} (h : Rearranged n m) (hn : Proper n) :
    Alike ct (flatten n) (flatten m) := by
  have hgroup : ∀ {k : Connective} {cs ds : List Node}, Proper (.group k cs) →
      Proper (.group k ds) → (∀ x, (∃ c ∈ cs, x ∈ parts ct k (flatten c)) ↔
        ∃ d ∈ ds, x ∈ parts ct k (flatten d)) →
      Alike ct (flatten (.group k cs)) (flatten (.group k ds)) := by
    intro k cs ds hcs hds hx
    rw [proper_group] at hcs hds
    rw [flatten_group, flatten_group]
    refine alike_joinNodes (proper_map_flatten hcs.2) (proper_map_flatten hds.2)
      (by rw [List.length_map]; exact hcs.1) (by rw [List.length_map]; exact hds.1) fun x => ?_
    simpa only [List.mem_map, exists_exists_and_eq_and] using hx x
  induction h with
  | refl => exact ⟨rfl, fun _ _ => Iff.rfl⟩
  | symm h ih =>
    obtain ⟨htext, hparts⟩ := ih (h.proper.mpr hn)
    exact ⟨htext.symm, fun k x => (hparts k x).symm⟩
  | trans h _ ih ih' =>
    obtain ⟨htext, hparts⟩ := ih hn
    obtain ⟨htext', hparts'⟩ := ih' (h.proper.mp hn)
    exact ⟨htext.trans htext', fun k x => (hparts k x).trans (hparts' k x)⟩
  | @not e e' _ ih =>
    obtain ⟨htext, -⟩ := ih (proper_not.mp hn)
    rw [flatten_not, flatten_not]
    have hnot : canonicalizeNode ct (.not (flatten e)) = canonicalizeNode ct (.not (flatten e')) := by
      rw [canonicalizeNode, canonicalizeNode, htext]
    exact ⟨hnot, fun k x => by simp only [parts, spliced, List.map_cons, List.map_nil, hnot]⟩
  | @operand k as bs c c' h ih =>
    have hc : Proper c := (proper_group.mp hn).2 c (by simp)
    obtain ⟨-, hparts⟩ := ih hc
    refine hgroup hn ((Rearranged.operand h).proper.mp hn) fun x => ?_
    simp only [List.mem_append, List.mem_cons, or_and_right, exists_or, exists_eq_left, hparts]
  | permute hp =>
    refine hgroup hn ((Rearranged.permute hp).proper.mp hn) fun x => ?_
    simp only [hp.mem_iff]
  | @«repeat» k cs c hc hlen =>
    refine hgroup hn ((Rearranged.repeat hc hlen).proper.mp hn) fun x => ?_
    simp only [List.mem_cons, or_and_right, exists_or, exists_eq_left]
    exact ⟨Or.inr, fun h => h.elim (fun hx => ⟨c, hc, hx⟩) id⟩
  | @parens k as bs ds hlen hne =>
    refine hgroup hn ((Rearranged.parens hlen hne).proper.mp hn) fun x => ?_
    simp only [List.mem_append, List.mem_cons, or_and_right, exists_or, exists_eq_left,
      parts_flatten_group, or_assoc]

/-- Expressions that differ in the order and repetition of operands, in redundant
parentheses, and in whether AND is written. -/
def RearrangedText (e e' : Text) : Prop :=
  ∃ t t', ReadsTokens (tokenize e) t ∧ ReadsTokens (tokenize e') t' ∧ Rearranged t t'

theorem canonicalize_rearranged {e e' : Text} (h : RearrangedText e e') :
    canonicalize ct e' = canonicalize ct e := by
  obtain ⟨t, t', ht, ht', hr⟩ := h
  have hproper : Proper t := by
    obtain ⟨ns, hns, rfl⟩ := ht
    exact .gather (reads_ne_nil hns) (reads_proper hns)
  have htext := (@alike_flatten ct t t' hr hproper).text
  simp only [canonicalize, parse_of_reads ht, parse_of_reads ht', bind, Except.bind, htext]

/-! ## Normal forms -/

/-- The canonical text of an expression is a normal form: it is canonical itself,
and that of every rearranged expression. -/
structure HasNormalForm (ct : CaseTable) (e : Text) : Prop where
  idempotent : ∀ c, canonicalize ct e = .ok c → canonicalize ct c = .ok c
  rearranged : ∀ e', RearrangedText e e' → canonicalize ct e' = canonicalize ct e

mutual
/-- The left-hand sides of the comparisons of a tree. -/
def leftSides : Node → List (List Token)
  | .all => []
  | .term _ => []
  | .predicate lhs _ _ => [lhs]
  | .not e => leftSides e
  | .group _ cs => leftSidesAll cs

def leftSidesAll : List Node → List (List Token)
  | [] => []
  | n :: ns => leftSides n ++ leftSidesAll ns
end

theorem leftSidesAll_eq (ns : List Node) : leftSidesAll ns = ns.flatMap leftSides := by
  induction ns with
  | nil => rfl
  | cons n ns ih => rw [leftSidesAll, ih, List.flatMap_cons]

/-- No comparison calls a function by the name of a logical operator. -/
def CallsOk (n : Node) : Prop :=
  ∀ lhs ∈ leftSides n, ∀ t ∈ lhs, t.kind = .func → t.text ∉ logicalWords

theorem source_of_callsOk {n : Node} (h : Formed (LeafOf (Loose false) (Loose false)) n)
    (hc : CallsOk n) : Source n := by
  induction h with
  | term hp => exact .term hp
  | @predicate lhs op v hp =>
    refine .predicate ⟨⟨hp.1.1, hp.1.2.regular ?_⟩, hp.2⟩
    exact hc lhs (by rw [leftSides]; exact List.mem_cons_self)
  | not _ ih => exact .not (ih (by rwa [CallsOk, leftSides] at hc))
  | @group k cs hlen _ ih =>
    refine .group hlen fun c hmem => ih c hmem fun lhs hlhs => hc lhs ?_
    rw [leftSides, leftSidesAll_eq]
    exact List.mem_flatMap.mpr ⟨c, hmem, hlhs⟩

theorem canonicalize_nodeText {n : Node} (h : Readable n) :
    canonicalize ct (nodeText n) = .ok (canonicalizeNode ct (flatten n)) := by
  rw [canonicalize, parse_nodeText h]
  rfl

/-- **Normal form.**  Canonicalizing an expression gives a normal form exactly if
none of its groups collapses to the type of its parent. -/
theorem canonicalize_normalForm {e : Text} {n : Node} (h : parse e = .ok n)
    (hq : ∀ t ∈ tokenize e, ¬ Stray t) (hc : CallsOk n) : HasNormalForm ct e ↔ Stable ct n := by
  have hcanon : canonicalize ct e = .ok (canonicalizeNode ct n) := by
    rw [canonicalize, h]
    rfl
  have hiff : HasNormalForm ct e ↔
      canonicalize ct (canonicalizeNode ct n) = .ok (canonicalizeNode ct n) := by
    refine ⟨fun hn => hn.idempotent _ hcanon, fun hi => ⟨fun c he => ?_, fun e' he => ?_⟩⟩
    · rw [hcanon, Except.ok.injEq] at he
      rwa [← he]
    · exact canonicalize_rearranged he
  rw [hiff]
  rcases parse_formed hq h with ⟨-, rfl⟩ | ⟨-, hformed, -⟩
  · exact ⟨fun _ => .all, fun _ => rfl⟩
  · have hsource := source_of_callsOk hformed hc
    rw [stable_iff hsource, ← canonical_iff_flat hsource]
    conv_lhs => lhs; rw [← nodeText_canonicalNode hsource, canonicalize_nodeText hsource.canonical]
    rw [Except.ok.injEq]

theorem canonicalize_normalForm_group : HasNormalForm asciiTable "c (b OR a)".toList := by
  have hterm : ∀ v, Reads ReadsPredicate .unary [⟨.word, v⟩] [.term [⟨.word, v⟩]] :=
    fun v => .leaf (.term (.single (Or.inl rfl)))
  have ht : tokenize "c (b OR a)".toList =
      [⟨.word, ['c']⟩, lparen, ⟨.word, ['b']⟩, orToken, ⟨.word, ['a']⟩, rparen] := by
    decide +kernel
  have hread : Reads ReadsPredicate .conjunction (tokenize "c (b OR a)".toList)
      [.term [⟨.word, ['c']⟩], .group .or [.term [⟨.word, ['b']⟩], .term [⟨.word, ['a']⟩]]] := by
    rw [ht]
    exact .adjacent (.orOne (hterm _)) (.andOne (.orOne (.paren rfl rfl
      (.andOne (.orCons (hterm _) (.orOne (hterm _)))))))
  refine (canonicalize_normalForm (parse_of_reads ⟨_, hread, rfl⟩) (by decide +kernel) ?_).mpr ?_
  · rintro lhs ⟨⟩
  · refine .group (fun c hc => ?_) (Or.inr (by decide +kernel))
    rcases List.mem_pair.mp hc with rfl | rfl
    · exact .term
    · refine .group (fun c hc => ?_) (Or.inr (by decide +kernel))
      rcases List.mem_pair.mp hc with rfl | rfl <;> exact .term

/-- An OR of one AND, written in two orders, collapses into the AND around it. -/
theorem collapsed_not_normalForm :
    ¬ HasNormalForm asciiTable "((a AND b) OR (b AND a)) AND c".toList := by
  intro h
  have hc := h.idempotent "((a AND b) AND c)".toList (by decide +kernel)
  exact absurd hc (by decide +kernel)

end Custodian.NormalForm

import Custodian.CloudLogging.Meaning
import Custodian.Lib.Dnf
import Custodian.Lib.Numeral

/-!
# The disjunctive normal form of a Cloud Logging filter

`_to_cloud_logging_dnf` of `c7n_gcp/utils.py` gives up when it meets more than
`_MAX_DNF_CONJUNCTIONS` conjunctions, also within a product.
-/

namespace Custodian.BoundedDnf

open Py Custodian.Tokenizer Custodian.Parser Custodian.Grammar Custodian.ParserSpec
  Custodian.FormedTrees Custodian.NormalForm Custodian.Meaning BoolLogic

/-! ## The bounded normal form -/

/-- `_MAX_DNF_CONJUNCTIONS` -/
def maxDnfConjunctions : Nat := 256

/-- The loop over the parts of a product, which stops at the first result that is
too long. -/
def distribute (result : Dnf Node) : List (Dnf Node) → Option (Dnf Node)
  | [] => some result
  | part :: parts =>
    if maxDnfConjunctions < (product result part).length then none
    else distribute (product result part) parts

mutual
/-- `_to_cloud_logging_dnf` -/
def toCloudLoggingDnf : Node → Bool → Option (Dnf Node)
  | .not expr, negated => toCloudLoggingDnf expr (!negated)
  -- one empty conjunction is always true; no conjunctions is never true
  | .all, negated => some (if negated then [] else [[]])
  | .term tokens, negated => some [[(negated, .term tokens)]]
  | .predicate lhs op rhs, negated => some [[(negated, .predicate lhs op rhs)]]
  | .group type children, negated => do
    let parts ← toCloudLoggingDnfs children negated
    let result ←
      if decide (type = .and) = negated then some parts.flatten else distribute [[]] parts
    if maxDnfConjunctions < result.length then none else some result

def toCloudLoggingDnfs : List Node → Bool → Option (List (Dnf Node))
  | [], _ => some []
  | child :: children, negated => do
    let part ← toCloudLoggingDnf child negated
    let parts ← toCloudLoggingDnfs children negated
    return part :: parts
end

/-- What the parser returns: the empty filter, or groups of several operands. -/
def SyntaxTree (n : Node) : Prop := n = .all ∨ Proper n

theorem parse_syntaxTree {e : Text} {n : Node} (h : parse e = .ok n) : SyntaxTree n := by
  rcases parse_spec e with ⟨-, hall⟩ | ⟨m, ⟨ns, hns, rfl⟩, hm⟩ | ⟨message, -, herr⟩
  · rw [hall] at h
    exact Or.inl (Except.ok.inj h).symm
  · rw [hm] at h
    obtain rfl := Except.ok.inj h
    exact Or.inr (Formed.gather (reads_ne_nil hns) (reads_proper hns)).flatten
  · rw [herr] at h
    cases h

/-! ## The whole normal form -/

/-- The normal form of a tree, or of its negation, however long. -/
def normalForm (n : Node) (negated : Bool) : Dnf Node := (formula n).dnf negated

theorem normalForm_not (e : Node) (negated : Bool) :
    normalForm (.not e) negated = normalForm e (!negated) := by
  rw [normalForm, formula, Formula.dnf]
  rfl

theorem normalForm_group (k : Connective) (cs : List Node) (negated : Bool) :
    normalForm (.group k cs) negated =
      combine (decide (k = .and) != negated) (cs.map fun c => normalForm c negated) := by
  cases k
  · rw [normalForm, formula, Formula.dnf_all, formulas_eq, List.map_map]
    cases negated <;> rfl
  · rw [normalForm, formula, Formula.dnf_any, formulas_eq, List.map_map]
    cases negated <;> rfl

theorem evalDnf_normalForm (v : Node → Bool) (n : Node) (negated : Bool) :
    evalDnf v (normalForm n negated) = (eval v n != negated) :=
  Formula.evalDnf_dnf v (formula n) negated

theorem normalForm_ne_nil {n : Node} (h : Proper n) (negated : Bool) : normalForm n negated ≠ [] := by
  induction h generalizing negated with
  | term => simp [normalForm, formula, Formula.dnf]
  | predicate => simp [normalForm, formula, Formula.dnf]
  | not _ ih =>
    rw [normalForm_not]
    exact ih _
  | @group k cs hlen _ ih =>
    rw [normalForm_group]
    refine combine_ne_nil ?_ fun d hd => ?_
    · rw [← List.length_pos_iff, List.length_map]
      omega
    · obtain ⟨c, hc, rfl⟩ := List.mem_map.mp hd
      exact ih c hc negated

/-! ## Giving up -/

theorem distribute_eq_some {parts : List (Dnf Node)} {result d : Dnf Node}
    (h : distribute result parts = some d) : d = parts.foldl product result := by
  induction parts generalizing result with
  | nil => exact (Option.some.inj h).symm
  | cons part parts ih =>
    rw [distribute] at h
    split at h
    · cases h
    · exact ih h

theorem lt_of_distribute_eq_none {parts : List (Dnf Node)} {result : Dnf Node}
    (hne : ∀ part ∈ parts, part ≠ []) (h : distribute result parts = none) :
    maxDnfConjunctions < (parts.foldl product result).length := by
  induction parts generalizing result with
  | nil => cases h
  | cons part parts ih =>
    rw [distribute] at h
    have hrest := fun p hp => hne p (List.mem_cons_of_mem part hp)
    split at h
    · rename_i hlong
      exact lt_of_lt_of_le hlong (length_le_foldl _ hrest)
    · exact ih hrest h

theorem toCloudLoggingDnfs_eq (ns : List Node) (negated : Bool) :
    toCloudLoggingDnfs ns negated = ns.mapM fun n => toCloudLoggingDnf n negated := by
  induction ns with
  | nil => rfl
  | cons n ns ih => rw [toCloudLoggingDnfs, ih, List.mapM_cons]

/-- What is left of the work on a group once its parts are known. -/
def combineParts (conjunction : Bool) (parts : List (Dnf Node)) : Option (Dnf Node) :=
  (if conjunction then distribute [[]] parts else some parts.flatten).bind fun result =>
    if maxDnfConjunctions < result.length then none else some result

theorem toCloudLoggingDnf_group (k : Connective) (cs : List Node) (negated : Bool) :
    toCloudLoggingDnf (.group k cs) negated =
      (cs.mapM fun c => toCloudLoggingDnf c negated).bind
        (combineParts (decide (k = .and) != negated)) := by
  rw [toCloudLoggingDnf, toCloudLoggingDnfs_eq]
  refine congrArg _ (funext fun parts => ?_)
  unfold combineParts
  cases k <;> cases negated <;> rfl

theorem parts_eq {cs : List Node} {negated : Bool} {parts : List (Dnf Node)}
    (h : ∀ c ∈ cs, ∀ {negated d}, toCloudLoggingDnf c negated = some d →
      d = normalForm c negated ∧ d.length ≤ maxDnfConjunctions)
    (hparts : (cs.mapM fun c => toCloudLoggingDnf c negated) = some parts) :
    parts = cs.map fun c => normalForm c negated := by
  rw [mapM_eq_some] at hparts
  induction hparts with
  | nil => rfl
  | cons hc _ ih =>
    obtain ⟨hhead, htail⟩ := List.forall_mem_cons.mp h
    rw [List.map_cons, ih htail, (hhead hc).1]

theorem combineParts_eq_some {conjunction : Bool} {parts : List (Dnf Node)} {d : Dnf Node}
    (h : combineParts conjunction parts = some d) :
    d = combine conjunction parts ∧ d.length ≤ maxDnfConjunctions := by
  obtain ⟨result, hresult, h⟩ := Option.bind_eq_some_iff.mp h
  split at h
  · cases h
  · rename_i hlen
    obtain rfl := Option.some.inj h
    refine ⟨?_, Nat.le_of_not_lt hlen⟩
    cases conjunction
    · exact (Option.some.inj hresult).symm
    · exact distribute_eq_some hresult

theorem lt_of_combineParts_eq_none {conjunction : Bool} {parts : List (Dnf Node)}
    (hne : ∀ part ∈ parts, part ≠ []) (h : combineParts conjunction parts = none) :
    maxDnfConjunctions < (combine conjunction parts).length := by
  cases conjunction
  · by_contra hlen
    have hsome : combineParts false parts = some parts.flatten := if_neg hlen
    rw [hsome] at h
    cases h
  · cases hd : distribute [[]] parts with
    | none => exact lt_of_distribute_eq_none hne hd
    | some d =>
      by_contra hlen
      rw [combine, if_pos rfl, products, ← distribute_eq_some hd] at hlen
      have hsome : combineParts true parts = some d := by
        rw [combineParts, if_pos rfl, hd]
        exact if_neg hlen
      rw [hsome] at h
      cases h

/-- **Exactness.**  What is returned is the whole normal form, which is not too long. -/
theorem toCloudLoggingDnf_eq {n : Node} {negated : Bool} {d : Dnf Node}
    (h : toCloudLoggingDnf n negated = some d) :
    d = normalForm n negated ∧ d.length ≤ maxDnfConjunctions := by
  induction n using node_induct generalizing negated d with
  | all =>
    obtain rfl := Option.some.inj h
    cases negated <;> exact ⟨rfl, by decide⟩
  | term ts =>
    obtain rfl := Option.some.inj h
    exact ⟨rfl, Nat.one_le_iff_ne_zero.mpr (by decide)⟩
  | predicate lhs op rhs =>
    obtain rfl := Option.some.inj h
    exact ⟨rfl, Nat.one_le_iff_ne_zero.mpr (by decide)⟩
  | not e ih =>
    rw [toCloudLoggingDnf] at h
    rw [normalForm_not]
    exact ih h
  | group k cs ih =>
    rw [toCloudLoggingDnf_group] at h
    obtain ⟨parts, hparts, h⟩ := Option.bind_eq_some_iff.mp h
    obtain ⟨rfl, hlen⟩ := combineParts_eq_some h
    have heq := parts_eq ih hparts
    rw [normalForm_group, heq]
    exact ⟨rfl, heq ▸ hlen⟩

/-- **Giving up.**  A tree of the parser is given up exactly if its normal form is
too long. -/
theorem toCloudLoggingDnf_eq_none_iff {n : Node} (h : SyntaxTree n) (negated : Bool) :
    toCloudLoggingDnf n negated = none ↔ maxDnfConjunctions < (normalForm n negated).length := by
  constructor
  · intro hnone
    rcases h with rfl | h
    · cases hnone
    · induction h generalizing negated with
      | term => cases hnone
      | predicate => cases hnone
      | not _ ih =>
        rw [toCloudLoggingDnf] at hnone
        rw [normalForm_not]
        exact ih _ hnone
      | @group k cs hlen hcs ih =>
        have hne : ∀ d ∈ cs.map fun c => normalForm c negated, d ≠ [] := by
          intro d hd
          obtain ⟨c, hc, rfl⟩ := List.mem_map.mp hd
          exact normalForm_ne_nil (hcs c hc) negated
        rw [toCloudLoggingDnf_group] at hnone
        rw [normalForm_group]
        cases hparts : cs.mapM fun c => toCloudLoggingDnf c negated with
        -- an operand was given up already, and the group is at least as long
        | none =>
          obtain ⟨c, hc, hnone⟩ := mapM_eq_none.mp hparts
          exact lt_of_lt_of_le (ih c hc negated hnone)
            (length_le_combine hne (List.mem_map_of_mem hc))
        | some parts =>
          rw [hparts] at hnone
          obtain rfl := parts_eq (fun c _ _ _ => toCloudLoggingDnf_eq) hparts
          exact lt_of_combineParts_eq_none hne hnone
  · intro hlong
    cases hd : toCloudLoggingDnf n negated with
    | none => rfl
    | some d =>
      obtain ⟨rfl, hlen⟩ := toCloudLoggingDnf_eq hd
      omega

/-! ## Reordered trees -/

/-- Trees that differ in the order of operands, at any depth. -/
inductive Reordered : Node → Node → Prop where
  | refl {n} : Reordered n n
  | symm {n m} : Reordered n m → Reordered m n
  | trans {n m l} : Reordered n m → Reordered m l → Reordered n l
  | not {e e'} : Reordered e e' → Reordered (.not e) (.not e')
  | operand {k as bs c c'} : Reordered c c' →
      Reordered (.group k (as ++ c :: bs)) (.group k (as ++ c' :: bs))
  | permute {k cs ds} : cs.Perm ds → Reordered (.group k cs) (.group k ds)

/-- **Order.**  Up to order, the normal form does not depend on that of operands. -/
theorem normalForm_reordered {n m : Node} (h : Reordered n m) (negated : Bool) :
    unordered (normalForm n negated) = unordered (normalForm m negated) := by
  induction h generalizing negated with
  | refl => rfl
  | symm _ ih => exact (ih negated).symm
  | trans _ _ ih ih' => exact (ih negated).trans (ih' negated)
  | not _ ih =>
    rw [normalForm_not, normalForm_not]
    exact ih _
  | operand _ ih =>
    rw [normalForm_group, normalForm_group]
    refine unordered_combine (List.Perm.of_eq ?_)
    simp only [List.map_append, List.map_cons, ih negated]
  | permute hp =>
    rw [normalForm_group, normalForm_group]
    exact unordered_combine ((hp.map _).map _)

theorem Reordered.proper {n m : Node} (h : Reordered n m) : Proper n ↔ Proper m := by
  induction h with
  | refl => exact Iff.rfl
  | symm _ ih => exact ih.symm
  | trans _ _ ih ih' => exact ih.trans ih'
  | not _ ih => rw [proper_not, proper_not, ih]
  | operand _ ih =>
    simp only [proper_group, List.length_append, List.length_cons, List.forall_mem_append,
      List.forall_mem_cons, ih]
  | permute hp => simp only [proper_group, hp.length_eq, hp.mem_iff]

theorem Reordered.all_iff {n m : Node} (h : Reordered n m) : n = .all ↔ m = .all := by
  induction h with
  | refl => exact Iff.rfl
  | symm _ ih => exact ih.symm
  | trans _ _ ih ih' => exact ih.trans ih'
  | _ => simp

theorem Reordered.syntaxTree {n m : Node} (h : Reordered n m) (hn : SyntaxTree n) :
    SyntaxTree m := hn.imp h.all_iff.mp h.proper.mp

theorem toCloudLoggingDnf_reordered {n m : Node} (h : Reordered n m) (hn : SyntaxTree n)
    (negated : Bool) : toCloudLoggingDnf n negated = none ↔ toCloudLoggingDnf m negated = none := by
  rw [toCloudLoggingDnf_eq_none_iff hn, toCloudLoggingDnf_eq_none_iff (h.syntaxTree hn),
    ← card_unordered, ← card_unordered, normalForm_reordered h]

/-- **The normal form is exact**: what is returned is true under exactly the
valuations of the leaves that make the tree true, or false if negated, and has at
most 256 conjunctions of literals on leaves of the tree; a tree of the parser is
given up only if that many are exceeded, in whatever order its operands stand. -/
theorem normal_form_exact (n : Node) (negated : Bool) :
    (∀ d, toCloudLoggingDnf n negated = some d →
      (∀ v, evalDnf v d = (eval v n != negated)) ∧ d.length ≤ 256 ∧
        ∀ c ∈ d, ∀ l ∈ c, l.2 ∈ (formula n).atoms) ∧
    (SyntaxTree n →
      (toCloudLoggingDnf n negated = none ↔ 256 < (normalForm n negated).length) ∧
        ∀ m, Reordered n m →
          (toCloudLoggingDnf n negated = none ↔ toCloudLoggingDnf m negated = none)) := by
  refine ⟨fun d hd => ?_, fun hn => ⟨toCloudLoggingDnf_eq_none_iff hn negated, fun m hm =>
    toCloudLoggingDnf_reordered hm hn negated⟩⟩
  obtain ⟨rfl, hlen⟩ := toCloudLoggingDnf_eq hd
  exact ⟨fun v => evalDnf_normalForm v n negated, hlen, fun c hc l hl =>
    Formula.mem_atoms_of_mem_dnf hc hl⟩

/-- `NOT (a AND b)` -/
def negatedPair : Node := .not (.group .and [.term [⟨.word, ['a']⟩], .term [⟨.word, ['b']⟩]])

theorem normal_form_exact_pair :
    SyntaxTree negatedPair ∧
      (∀ v, evalDnf v [[(true, .term [⟨.word, ['a']⟩])], [(true, .term [⟨.word, ['b']⟩])]] =
        (eval v negatedPair != false)) ∧
      (toCloudLoggingDnf negatedPair false = none ↔ 256 < (normalForm negatedPair false).length) := by
  have htree : SyntaxTree negatedPair := by
    refine Or.inr (.not (.group (by decide) fun c hc => ?_))
    rcases List.mem_pair.mp hc with rfl | rfl <;> exact .term trivial
  exact ⟨htree, ((normal_form_exact negatedPair false).1 _ rfl).1,
    ((normal_form_exact negatedPair false).2 htree).1⟩

end Custodian.BoundedDnf

import Custodian.Iam.Checker

/-!
# Negated condition operators

A condition that negates its match admits every caller but the one it names, so
it should excuse no grant.  `normalize_conditions` leaves the plain negated
operators out but keeps those qualified by `ForAnyValue` or `ForAllValues`, and
the handlers do not look at the operator.
-/

namespace Custodian.NegatedOperators

open Py Custodian.Checker

variable {ct : CaseTable} {cfg : CheckerConfig}

/-! ## Allow statements -/

/-- The value of a condition key. -/
inductive ConditionValue where
  | one (v : Text)
  | many (vs : List Text)

def ConditionValue.texts : ConditionValue → List Text
  | .one v => [v]
  | .many vs => vs

def ConditionValue.toJson : ConditionValue → Json
  | .one v => .str v
  | .many vs => .arr (vs.map .str)

/-- The condition keys and values under each operator. -/
abbrev ConditionBlock := List (Text × List (Text × ConditionValue))

def ConditionBlock.toJson (b : ConditionBlock) : Json :=
  .obj (b.map fun e => (e.1, .obj (e.2.map fun k => (k.1, k.2.toJson))))

/-- An Allow statement; every condition key has a service prefix. -/
structure AllowStatement where
  members : List (Text × Json)
  block : Option ConditionBlock
  effect : members.lookup "Effect".toList = some (.str "Allow".toList)
  condition : members.lookup "Condition".toList = block.map ConditionBlock.toJson
  keys : ∀ b ∈ block, ∀ e ∈ b, ∀ k ∈ e.2, ':' ∈ k.1

def AllowStatement.toJson (s : AllowStatement) : Json := .obj s.members

def negatedOperators : List Text :=
  ["StringNotEquals".toList, "StringNotEqualsIgnoreCase".toList, "StringNotLike".toList,
   "ArnNotEquals".toList, "ArnNotLike".toList]

def qualifiedOperators : List Text :=
  ["ForAnyValue:".toList, "ForAllValues:".toList].flatMap fun q => negatedOperators.map (q ++ ·)

/-- Every operator of the statement negates its match. -/
def AllowStatement.Negated (s : AllowStatement) : Prop :=
  ∀ b ∈ s.block, ∀ e ∈ b, e.1 ∈ negatedOperators ∨ e.1 ∈ qualifiedOperators

/-- The conditions under the operators that satisfy a test. -/
def conditionsOf (ct : CaseTable) (p : Text → Bool) (s : AllowStatement) : List Condition :=
  ((s.block.getD []).filter fun e => p e.1).flatMap fun e =>
    e.2.map fun k => ⟨e.1, ct.lower k.1, .arr (k.2.texts.map .str)⟩

/-- The conditions under a qualified operator. -/
def qualifiedConditions (ct : CaseTable) (s : AllowStatement) : List Condition :=
  conditionsOf ct qualifiedOperators.contains s

theorem normalizeOperator_eq (op : Text) (ks : List (Text × ConditionValue)) :
    normalizeOperator ct op (.obj (ks.map fun k => (k.1, k.2.toJson))) = .ok
      (if keepsOperator op then ks.map fun k => ⟨op, ct.lower k.1, .arr (k.2.texts.map .str)⟩
        else []) := by
  unfold normalizeOperator
  cases keepsOperator op
  · rfl
  · simp only [↓reduceIte, Json.members, bind, Except.bind, pure, Except.pure, List.map_map]
    refine congrArg _ (List.map_congr_left fun k _ => ?_)
    obtain ⟨key, v | vs⟩ := k <;> rfl

theorem normalizeConditions_block {members : List (Text × Json)} {block : Option ConditionBlock}
    (h : members.lookup "Condition".toList = block.map ConditionBlock.toJson) :
    normalizeConditions ct (.obj members) =
      .ok (((block.getD []).filter fun e => keepsOperator e.1).flatMap fun e =>
        e.2.map fun k => ⟨e.1, ct.lower k.1, .arr (k.2.texts.map .str)⟩) := by
  have hkey : (Json.obj members).hasKey "Condition".toList = .ok block.isSome := by
    simp only [Json.hasKey, h, Option.isSome_map]
  cases hb : block with
  | none =>
    simp only [normalizeConditions, hkey, hb, bind, Except.bind]
    rfl
  | some b =>
    have hindex : (Json.obj members).index "Condition".toList = .ok b.toJson := by
      simp only [Json.index, h, hb, Option.map_some]
    have hops : ∀ b : ConditionBlock, ∃ css,
        (b.map fun e => (e.1, Json.obj (e.2.map fun k => (k.1, k.2.toJson)))).mapM
            (fun e => normalizeOperator ct e.1 e.2) = .ok css ∧
          css.flatten = (b.filter fun e => keepsOperator e.1).flatMap fun e =>
            e.2.map fun k => ⟨e.1, ct.lower k.1, .arr (k.2.texts.map .str)⟩ := by
      intro b
      induction b with
      | nil => exact ⟨[], rfl, rfl⟩
      | cons e b ih =>
        obtain ⟨css, hcss, hflat⟩ := ih
        rw [List.map_cons, List.mapM_cons, normalizeOperator_eq, hcss]
        refine ⟨_, rfl, ?_⟩
        rw [List.flatten_cons, hflat]
        cases hk : keepsOperator e.1 <;> simp [hk]
    obtain ⟨css, hcss, hflat⟩ := hops b
    simp only [normalizeConditions, hkey, hb, hindex, ConditionBlock.toJson, Json.members, hcss,
      bind, Except.bind, Option.isSome_some, ↓reduceIte, pure, Except.pure, hflat,
      Option.getD_some]

theorem normalizeConditions_eq (s : AllowStatement) :
    normalizeConditions ct s.toJson = .ok (conditionsOf ct keepsOperator s) :=
  normalizeConditions_block s.condition

theorem conditionsOf_negated {s : AllowStatement} (hs : s.Negated) :
    conditionsOf ct keepsOperator s = qualifiedConditions ct s := by
  have hplain : ∀ op ∈ negatedOperators, keepsOperator op = qualifiedOperators.contains op := by
    decide
  have hqual : ∀ op ∈ qualifiedOperators, keepsOperator op = qualifiedOperators.contains op := by
    decide
  unfold qualifiedConditions conditionsOf
  congr 1
  refine List.filter_congr fun e he => ?_
  cases hb : s.block with
  | none => simp [hb] at he
  | some b =>
    rw [hb, Option.getD_some] at he
    rcases hs b hb e he with h | h
    · exact hplain _ h
    · exact hqual _ h

/-! ## What the checker makes of a condition -/

def whitelisted (ct : CaseTable) (cfg : CheckerConfig) (c : Condition) : Bool :=
  (cfg.whitelistConditions.map ct.lower).contains c.key

/-- The key is whitelisted or has a handler. -/
def known (ct : CaseTable) (cfg : CheckerConfig) (c : Condition) : Bool :=
  whitelisted ct cfg c || (handlerFor c.key).isSome

/-- The handler of a condition that is not whitelisted takes it for a violation. -/
def flagged (ct : CaseTable) (cfg : CheckerConfig) (c : Condition) : Bool :=
  !whitelisted ct cfg c && match handlerFor c.key with
    | some f => match f cfg c with
      | .ok b => b
      | .error _ => false
    | none => false

def valueTexts : Json → List Text
  | .arr xs => xs.filterMap fun x => match x with
    | .str t => some t
    | _ => none
  | _ => []

/-- Every value names a wildcard or an allowed account. -/
def wildcard (cfg : CheckerConfig) (c : Condition) : Bool :=
  principalConditions.contains c.key && (valueTexts c.values).all fun t =>
    t.hasChar '*' || cfg.allowedAccounts.contains (account t)

/-- Some organization condition is not flagged. -/
def orgAllowed (ct : CaseTable) (cfg : CheckerConfig) (cs : List Condition) : Bool :=
  cs.any fun o => orgKeys.contains o.key && !flagged ct cfg o

/-- A condition as a statement has it: the values are texts and the key has a
service prefix. -/
structure Plain (c : Condition) : Prop where
  op : c.op ≠ []
  key : ':' ∈ c.key
  values : ∃ ts : List Text, c.values = .arr (ts.map .str)

theorem mem_conditionsOf {p : Text → Bool} {s : AllowStatement} {c : Condition} :
    c ∈ conditionsOf ct p s ↔ ∃ b ∈ s.block, ∃ e ∈ b, p e.1 = true ∧ ∃ k ∈ e.2,
      c = ⟨e.1, ct.lower k.1, .arr (k.2.texts.map .str)⟩ := by
  cases hb : s.block with
  | none => simp [conditionsOf, hb]
  | some b =>
    simp only [conditionsOf, hb, Option.getD_some, List.mem_flatMap, List.mem_filter, List.mem_map,
      Option.mem_some_iff, exists_eq_left', and_assoc, eq_comm]

theorem qualifiedConditions_plain {s : AllowStatement} :
    ∀ c ∈ qualifiedConditions ct s, Plain c := by
  intro c hc
  obtain ⟨b, hb, e, he, hop, k, hk, rfl⟩ := mem_conditionsOf.mp hc
  refine ⟨?_, ?_, k.2.texts, rfl⟩
  · have hne : ∀ op ∈ qualifiedOperators, op ≠ [] := by decide
    exact hne _ (List.contains_iff_mem.mp hop)
  · exact ct.mem_lower (by decide) (s.keys b hb e he k hk)

theorem valueTexts_map (ts : List Text) : valueTexts (.arr (ts.map .str)) = ts := by
  simp only [valueTexts, List.filterMap_map]
  exact List.filterMap_some

theorem anyOutside_texts (ts allowed : List Text) :
    ∃ b, anyOutside (.arr (ts.map .str)) allowed = .ok b := by
  have h : ∃ as, (ts.map Json.str).mapM accountOf = .ok as := exists_mapM_eq_ok fun v hv => by
    obtain ⟨t, -, rfl⟩ := List.mem_map.mp hv
    exact ⟨_, rfl⟩
  obtain ⟨as, has⟩ := h
  exact ⟨_, by simp only [anyOutside, accounts, Json.iter, has, bind, Except.bind]; rfl⟩

theorem anyPathRefused_texts (ts : List Text) :
    ∃ b, anyPathRefused cfg (ts.map .str) = .ok b := by
  induction ts with
  | nil => exact ⟨false, rfl⟩
  | cons t ts ih =>
    simp only [List.map_cons, anyPathRefused, Json.text, bind, Except.bind]
    split
    · exact ih
    · exact ⟨true, rfl⟩

theorem handlers_texts {c : Condition} {ts : List Text} (hts : c.values = .arr (ts.map .str)) :
    ∀ e ∈ handlers, ∃ b, e.2 cfg c = .ok b := by
  have hout : ∀ allowed, ∃ b, anyOutside c.values allowed = .ok b := fun allowed => by
    rw [hts]
    exact anyOutside_texts ts allowed
  have hunless : ∀ allowed flagged, ∃ b, unlessEmpty allowed c flagged = .ok b := by
    intro allowed flagged
    unfold unlessEmpty
    split
    · exact ⟨flagged, rfl⟩
    · exact hout allowed
  simp only [handlers, List.forall_mem_cons, List.not_mem_nil, false_implies, implies_true,
    and_true]
  refine ⟨hout _, hout _, hout _, ⟨false, rfl⟩, hunless _ _, hunless _ _, hunless _ _, ?_,
    hout _, hout _, hout _, hout _⟩
  unfold handleAwsPrincipalorgpaths
  split
  · exact ⟨true, rfl⟩
  · simp only [hts, Json.iter, bind, Except.bind]
    exact anyPathRefused_texts ts

theorem handler_texts {c : Condition} (hc : Plain c) {f : Handler}
    (hf : handlerFor c.key = some f) : ∃ b, f cfg c = .ok b := by
  obtain ⟨ts, hts⟩ := hc.values
  simp only [handlerFor] at hf
  split at hf
  · rename_i g hg
    obtain rfl := Option.some.inj hf
    obtain ⟨l₁, l₂, e, -⟩ := List.lookup_eq_some_iff.mp hg
    exact handlers_texts hts _ (e ▸ List.mem_append_right _ (List.mem_cons_self ..))
  · -- the other methods have names without an underscore
    rw [Option.map_eq_some_iff] at hf
    obtain ⟨exn, he, -⟩ := hf
    obtain ⟨l₁, l₂, e, -⟩ := List.lookup_eq_some_iff.mp he
    have hno : ∀ e ∈ otherMethods, '_' ∉ e.1 := by decide
    refine absurd ?_ (hno _ (e ▸ List.mem_append_right _ (List.mem_cons_self ..)))
    simp only [Text.replaceChar, List.mem_map]
    exact ⟨':', ⟨':', hc.key, by decide⟩, by decide⟩

theorem handleCondition_eq {c : Condition} (hc : Plain c) :
    handleCondition ct cfg c =
      .ok (if known ct cfg c then some (!flagged ct cfg c) else none) := by
  have hop : c.op.isEmpty = false := by simpa using hc.op
  unfold handleCondition known flagged
  simp only [hop, Bool.false_eq_true, ↓reduceIte]
  change (if whitelisted ct cfg c = true then _ else _) = _
  cases hw : whitelisted ct cfg c
  · cases hf : handlerFor c.key with
    | none => simp
    | some f =>
      obtain ⟨b, hb⟩ : ∃ b, f cfg c = .ok b := handler_texts hc hf
      simp [hb, bind, Except.bind, pure, Except.pure]
  · simp

theorem conditionResults_eq {cs : List Condition} (hcs : ∀ c ∈ cs, Plain c) :
    conditionResults ct cfg cs =
      .ok (if cs.all (known ct cfg) then some (cs.map fun c => (c, !flagged ct cfg c))
        else none) := by
  induction cs with
  | nil => rfl
  | cons c cs ih =>
    have ih := ih fun d hd => hcs d (List.mem_cons_of_mem c hd)
    simp only [conditionResults, handleCondition_eq (hcs c List.mem_cons_self), ih, bind,
      Except.bind, List.all_cons]
    by_cases hk : known ct cfg c = true
    · by_cases ha : cs.all (known ct cfg) = true
      · simp [hk, ha, pure, Except.pure]
      · simp [hk, ha, pure, Except.pure]
    · simp [hk, pure, Except.pure]

theorem valuesForgiven_texts (ts : List Text) :
    valuesForgiven cfg (ts.map .str) =
      .ok (ts.all fun t => t.hasChar '*' || cfg.allowedAccounts.contains (account t)) := by
  induction ts with
  | nil => rfl
  | cons t ts ih =>
    simp only [List.map_cons, valuesForgiven, Json.text, bind, Except.bind, ih, List.all_cons]
    cases hv : (t.hasChar '*' || cfg.allowedAccounts.contains (account t)) <;> simp [pure, Except.pure]

theorem failuresForgiven_eq {cs : List Condition} (hcs : ∀ c ∈ cs, Plain c) :
    failuresForgiven cfg (cs.map fun c => (c, !flagged ct cfg c)) =
      .ok (cs.all fun c => !flagged ct cfg c || wildcard cfg c) := by
  induction cs with
  | nil => rfl
  | cons c cs ih =>
    have ih := ih fun d hd => hcs d (List.mem_cons_of_mem c hd)
    obtain ⟨ts, hts⟩ := (hcs c List.mem_cons_self).values
    cases hfl : flagged ct cfg c
    · simp [failuresForgiven, hfl, ih]
    · simp only [List.map_cons, hfl, Bool.not_true, failuresForgiven, List.all_cons, Bool.false_or,
        wildcard, hts, valueTexts_map, Json.iter, valuesForgiven_texts, ih, bind, Except.bind]
      cases hp : principalConditions.contains c.key
      · rfl
      · cases ha : ts.all fun t => t.hasChar '*' || cfg.allowedAccounts.contains (account t) <;>
          simp [pure, Except.pure]

theorem combineResults_eq {cs : List Condition} (hcs : ∀ c ∈ cs, Plain c) :
    combineResults cfg (cs.map fun c => (c, !flagged ct cfg c)) =
      .ok (cs.all fun c => !flagged ct cfg c || (orgAllowed ct cfg cs && wildcard cfg c)) := by
  have horg : (cs.map fun c => (c, !flagged ct cfg c)).any
      (fun r => r.2 && orgKeys.contains r.1.key) = orgAllowed ct cfg cs := by
    simp only [List.any_map, orgAllowed, Function.comp_def, Bool.and_comm]
  unfold combineResults
  rw [horg, failuresForgiven_eq hcs]
  cases hall : cs.all fun c => !flagged ct cfg c
  · simp only [List.all_map, Function.comp_def, hall, Bool.false_eq_true, ↓reduceIte]
    cases orgAllowed ct cfg cs
    · simp [hall]
    · simp
  · simp only [List.all_map, Function.comp_def, hall, ↓reduceIte, Except.ok.injEq]
    rw [List.all_eq_true] at hall
    rw [eq_comm, List.all_eq_true]
    intro c hc
    rw [hall c hc, Bool.true_or]

/-! ## Statements -/

/-- The conditions excuse nothing: there is none, or one has an unknown key, or
one is flagged and is no wildcard next to an allowed organization. -/
def Refuses (ct : CaseTable) (cfg : CheckerConfig) (cs : List Condition) : Prop :=
  cs = [] ∨ (∃ c ∈ cs, known ct cfg c = false) ∨
    ∃ c ∈ cs, flagged ct cfg c = true ∧ (orgAllowed ct cfg cs && wildcard cfg c) = false

/-- A grant to everyone outside one account. -/
def notFromAccount : AllowStatement where
  members := [("Effect".toList, .str "Allow".toList), ("Principal".toList, .str "*".toList),
    ("Condition".toList, .obj [("ForAnyValue:StringNotEquals".toList,
      .obj [("aws:SourceAccount".toList, .str "123456789012".toList)])])]
  block := some [("ForAnyValue:StringNotEquals".toList,
    [("aws:SourceAccount".toList, .one "123456789012".toList)])]
  effect := rfl
  condition := rfl
  keys := by decide

theorem notFromAccount_negated : notFromAccount.Negated := by
  unfold AllowStatement.Negated
  decide

end Custodian.NegatedOperators

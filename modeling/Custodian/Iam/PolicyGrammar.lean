import Custodian.Iam.NegatedOperators
import Custodian.Iam.Widening

/-!
# The checker over the policy grammar

A resource policy has one statement or a list of them, each with an effect, a
principal or a negated one, actions or negated ones, and perhaps conditions.
The checker iterates a single statement as if it was a list, looks for `Action`
where a statement has `NotAction`, and takes a condition key such as `effect` for
the name of a handler.
-/

namespace Custodian.PolicyGrammar

open Py Custodian.Checker Custodian.NegatedOperators Custodian.Widening

variable {ct : CaseTable} {cfg : CheckerConfig}

/-! ## Policies -/

/-- A string or a list of strings, like the value of a condition key. -/
abbrev Strings := ConditionValue

/-- The value of `Principal` or `NotPrincipal`. -/
inductive Principals where
  | plain (p : Strings)
  | kinds (m : List (Text × Strings))

def Principals.toJson : Principals → Json
  | .plain p => p.toJson
  | .kinds m => .obj (m.map fun e => (e.1, e.2.toJson))

/-- Whether nobody is named. -/
def Principals.isEmpty : Principals → Bool
  | .plain (.one v) => v.isEmpty
  | .plain (.many vs) => vs.isEmpty
  | .kinds m => m.isEmpty

/-- The identifiers that are not of services. -/
def Principals.ids : Principals → List Text
  | .plain p => p.texts
  | .kinds m => (m.filter fun e => e.1 ≠ "Service".toList).flatMap fun e => e.2.texts

/-- A statement has `Principal` or `NotPrincipal`, and `Action` or `NotAction`. -/
structure Statement where
  members : List (Text × Json)
  effect : Text
  notPrincipal : Bool
  principals : Principals
  notAction : Bool
  actions : Strings
  block : Option ConditionBlock
  has_effect : members.lookup "Effect".toList = some (.str effect)
  has_principal : members.lookup (if notPrincipal then "NotPrincipal" else "Principal").toList =
    some principals.toJson
  one_principal :
    members.lookup (if notPrincipal then "Principal" else "NotPrincipal").toList = none
  has_action : members.lookup (if notAction then "NotAction" else "Action").toList =
    some actions.toJson
  one_action : members.lookup (if notAction then "Action" else "NotAction").toList = none
  has_condition : members.lookup "Condition".toList = block.map ConditionBlock.toJson

def Statement.toJson (s : Statement) : Json := .obj s.members

/-- The value of `Statement`. -/
inductive Statements where
  | one (s : Statement)
  | list (ss : List Statement)

def Statements.toJson : Statements → Json
  | .one s => s.toJson
  | .list ss => .arr (ss.map Statement.toJson)

def Statements.all : Statements → List Statement
  | .one s => [s]
  | .list ss => ss

def Statements.isList : Statements → Bool
  | .one _ => false
  | .list _ => true

structure Policy where
  members : List (Text × Json)
  statements : Statements
  has_statements : members.lookup "Statement".toList = some statements.toJson

def Policy.toJson (p : Policy) : Json := .obj p.members

/-- The document that the checker is given. -/
def document (loads : Text → Except Exn Json) : PolicyText → Except Exn Json
  | .text t => loads t
  | .document j => .ok j

/-! ## What is to be reported -/

/-- The configuration does not allow the identifier. -/
def refused (cfg : CheckerConfig) (p : Text) : Bool :=
  p = "*".toList || !(cfg.everyoneOnly || p.startsWith "arn:aws:iam::cloudfront:user" ||
    cfg.whitelistPatterns.any (fun pattern => Glob.fnmatch p pattern) ||
    cfg.allowedAccounts.contains (account p))

/-- The principal is not allowed: a negated one, none at all or one that is refused. -/
def Statement.open (cfg : CheckerConfig) (s : Statement) : Bool :=
  s.notPrincipal || s.principals.isEmpty || s.principals.ids.any (refused cfg)

/-- The actions to check, if there are any, are among the granted ones. -/
def Statement.matches (cfg : CheckerConfig) (s : Statement) : Bool :=
  cfg.checkActions.isEmpty ||
    if s.notAction then
      cfg.checkActions.any fun name => s.actions.texts.all fun a => !Glob.fnmatch name a
    else s.actions.texts.any fun a => cfg.checkActions.any fun name => Glob.fnmatch name a

/-- The statement grants one of the checked actions to a principal that is not allowed. -/
def Statement.grants (cfg : CheckerConfig) (s : Statement) : Bool :=
  s.effect = "Allow".toList && s.open cfg && s.matches cfg

/-- The checker does not raise, and every grant without conditions is a violation: it is
returned, unless the allowed statements are asked for. -/
def Meets (loads : Text → Except Exn Json) (ct : CaseTable) (cfg : CheckerConfig)
    (given : PolicyText) (p : Policy) : Prop :=
  ∃ result, check loads ct cfg given = .ok result ∧
    ∀ s ∈ p.statements.all, s.grants cfg = true → s.block = none →
      (s.toJson ∈ result ↔ cfg.returnAllowed = false)

/-! ## When the checker handles a policy -/

/-- The conditions that are normalized. -/
def Statement.conditions (ct : CaseTable) (s : Statement) : List Condition :=
  ((s.block.getD []).filter fun e => keepsOperator e.1).flatMap fun e =>
    e.2.map fun k => ⟨e.1, ct.lower k.1, .arr (k.2.texts.map .str)⟩

/-- The key is the name of a method that is no handler. -/
def namesMethod (key : Text) : Bool :=
  (otherMethods.lookup ((key.replaceChar '-' '_').replaceChar ':' '_')).isSome

/-- A condition that is evaluated, before the first one with an unknown key, calls
such a method. -/
def callsMethod (ct : CaseTable) (cfg : CheckerConfig) : List Condition → Bool
  | [] => false
  | c :: cs =>
    !whitelisted ct cfg c && namesMethod c.key || known ct cfg c && callsMethod ct cfg cs

/-- The statements are a list, they have `Action` when actions are to be checked, and
no grant has a condition that calls another method. -/
structure Handled (ct : CaseTable) (cfg : CheckerConfig) (p : Policy) : Prop where
  isList : p.statements.isList = true
  action : cfg.checkActions = [] ∨ ∀ s ∈ p.statements.all, s.notAction = false
  conditions : ∀ s ∈ p.statements.all, s.grants cfg = true →
    callsMethod ct cfg (s.conditions ct) = false

/-! ## The tests of a statement -/

theorem handleEffect_eq (s : Statement) :
    handleEffect s.toJson = .ok (s.effect = "Allow".toList) := by
  simp only [handleEffect, Json.index, Statement.toJson, s.has_effect]
  rfl

theorem principalIds_eq (p : Strings) : principalIds p.toJson = .ok (p.texts.map .str) := by
  cases p with
  | one v => rfl
  | many vs =>
    have h : (vs.map Json.str).all Json.hashable = true := by simp [Json.hashable]
    simp only [principalIds, ConditionValue.toJson, Json.iter, bind, Except.bind, h,
      ConditionValue.texts]
    rfl

theorem truthy_toJson (p : Principals) : p.toJson.truthy = !p.isEmpty := by
  rcases p with (v | vs) | m
  · rfl
  · simp [Principals.toJson, ConditionValue.toJson, Json.truthy, Principals.isEmpty]
  · simp [Principals.toJson, Json.truthy, Principals.isEmpty]

theorem mapM_principalIds (m : List (Text × Strings)) :
    ∃ ids, ((m.map fun e => (e.1, e.2.toJson)).filter fun e => e.1 ≠ "Service".toList).mapM
        (fun e => principalIds e.2) = .ok ids ∧
      ids.flatten = ((Principals.kinds m).ids).map Json.str := by
  refine ⟨(m.filter fun e => e.1 ≠ "Service".toList).map fun e => e.2.texts.map .str, ?_, ?_⟩
  · rw [List.filter_map, List.mapM_map]
    exact mapM_eq_map fun e _ => principalIds_eq e.2
  · rw [Principals.ids, List.map_flatMap]
    rfl

theorem principalSet_eq (s : Statement) :
    principalSet s.toJson = .ok (if s.notPrincipal || s.principals.isEmpty then none
      else some (s.principals.ids.map .str)) := by
  have hp := s.has_principal
  have hn := s.one_principal
  cases hnot : s.notPrincipal
  · simp only [hnot, Bool.false_eq_true, if_false] at hp hn
    have hkey : s.toJson.hasKey "NotPrincipal".toList = .ok false := by
      simp only [Json.hasKey, Statement.toJson, hn, Option.isSome_none]
    have hget : s.toJson.get "Principal".toList = .ok (some s.principals.toJson) := by
      simp only [Json.get, Json.members, Statement.toJson, bind, Except.bind, hp]
      rfl
    simp only [principalSet, hkey, hget, bind, Except.bind, Bool.false_eq_true, if_false,
      Option.getD_some, truthy_toJson, Bool.not_not, Bool.false_or]
    cases hempty : s.principals.isEmpty
    · simp only [Bool.false_eq_true, if_false]
      rcases hps : s.principals with p | m
      · obtain ⟨ids, hids, hflat⟩ := mapM_principalIds [("AWS".toList, p)]
        have htexts : (Principals.kinds [("AWS".toList, p)]).ids = p.texts := by
          show p.texts ++ [] = p.texts
          exact List.append_nil _
        rw [htexts] at hflat
        simp only [List.map_cons, List.map_nil] at hids
        cases p <;>
        · simp only [ConditionValue.toJson] at hids
          simp only [Principals.toJson, ConditionValue.toJson, hids, hflat]
          rfl
      · obtain ⟨ids, hids, hflat⟩ := mapM_principalIds m
        simp only [Principals.toJson, hids, hflat]
        rfl
    · rfl
  · simp only [hnot, if_true] at hp
    have hkey : s.toJson.hasKey "NotPrincipal".toList = .ok true := by
      simp only [Json.hasKey, Statement.toJson, hp, Option.isSome_some]
    simp only [principalSet, hkey, bind, Except.bind]
    rfl

theorem handlePrincipal_eq (s : Statement) :
    handlePrincipal cfg s.toJson = .ok (s.open cfg) := by
  have hok : ∀ p : Text, principalOk cfg (.str p) = .ok (!refused cfg p) := by
    intro p
    rw [principalOk, refused, Bool.not_or, Bool.not_not, decide_not]
  have hoks : (s.principals.ids.map .str).mapM (principalOk cfg) =
      .ok (s.principals.ids.map fun p => !refused cfg p) := by
    rw [List.mapM_map]
    exact mapM_eq_map fun p _ => hok p
  simp only [handlePrincipal, principalSet_eq, Statement.open]
  cases s.notPrincipal || s.principals.isEmpty
  · simp only [Bool.false_eq_true, if_false, bind, Except.bind, hoks, Bool.false_or]
    simp only [pure, Except.pure, Except.ok.injEq, List.all_map, List.any_eq_not_all_not]
    rfl
  · rfl

theorem anyActionChecked_texts (as : List Text) :
    anyActionChecked cfg (as.map .str) =
      .ok (as.any fun a => cfg.checkActions.any fun name => Glob.fnmatch name a) := by
  induction as with
  | nil => rfl
  | cons a as ih =>
    simp only [List.map_cons, anyActionChecked, Json.text, bind, Except.bind, ih, List.any_cons]
    cases cfg.checkActions.any fun name => Glob.fnmatch name a <;> rfl

theorem handleAction_eq (s : Statement) (h : cfg.checkActions = [] ∨ s.notAction = false) :
    handleAction cfg s.toJson = .ok (s.matches cfg) := by
  cases hc : cfg.checkActions.isEmpty
  · have hact : s.notAction = false := by
      refine h.resolve_left fun hnil => ?_
      rw [hnil] at hc
      cases hc
    have ha := s.has_action
    simp only [hact, Bool.false_eq_true, if_false] at ha
    have hget : s.toJson.get "Action".toList = .ok (some s.actions.toJson) := by
      simp only [Json.get, Json.members, Statement.toJson, bind, Except.bind, ha]
      rfl
    simp only [handleAction, hc, Bool.false_eq_true, if_false, hget, bind, Except.bind,
      Statement.matches, hact, Bool.false_or]
    rcases s.actions with a | as
    · exact anyActionChecked_texts [a]
    · exact anyActionChecked_texts as
  · simp only [handleAction, hc, if_true, Statement.matches, Bool.true_or]
    rfl

theorem handleAction_notAction (s : Statement) (h : cfg.checkActions ≠ [])
    (hs : s.notAction = true) : handleAction cfg s.toJson = .error .typeError := by
  have hc : cfg.checkActions.isEmpty = false := by simpa using h
  have ha := s.one_action
  simp only [hs, if_true] at ha
  have hget : s.toJson.get "Action".toList = .ok none := by
    simp only [Json.get, Json.members, Statement.toJson, bind, Except.bind, ha]
    rfl
  simp only [handleAction, hc, Bool.false_eq_true, if_false, hget, bind, Except.bind]

/-! ## Conditions -/

/-- A condition of the grammar. -/
def IsCondition (c : Condition) : Prop :=
  c.op ≠ [] ∧ ∃ ts : List Text, c.values = .arr (ts.map .str)

theorem isCondition_of_mem {s : Statement} : ∀ c ∈ s.conditions ct, IsCondition c := by
  intro c hc
  obtain ⟨e, he, hc⟩ := List.mem_flatMap.mp hc
  obtain ⟨k, -, rfl⟩ := List.mem_map.mp hc
  refine ⟨?_, k.2.texts, rfl⟩
  rintro hop
  have hkeeps := (List.mem_filter.mp he).2
  simp only at hop
  rw [hop] at hkeeps
  exact absurd hkeeps (by decide)

theorem handleCondition_ok {c : Condition} (hc : IsCondition c)
    (h : (!whitelisted ct cfg c && namesMethod c.key) = false) :
    ∃ r, handleCondition ct cfg c = .ok r ∧ r.isSome = known ct cfg c := by
  obtain ⟨hop, ts, hts⟩ := hc
  have hop : c.op.isEmpty = false := by simpa using hop
  simp only [handleCondition, hop, Bool.false_eq_true, if_false, known]
  change ∃ r, (if whitelisted ct cfg c = true then _ else _) = _ ∧ _
  cases hw : whitelisted ct cfg c
  · rw [hw, Bool.not_false, Bool.true_and] at h
    simp only [Bool.false_eq_true, if_false, Bool.false_or]
    cases hf : handlerFor c.key with
    | none => exact ⟨none, rfl, rfl⟩
    | some f =>
      have hmem : ∃ b, f cfg c = .ok b := by
        simp only [handlerFor] at hf
        split at hf
        · rename_i g hg
          obtain rfl := Option.some.inj hf
          obtain ⟨l₁, l₂, e, -⟩ := List.lookup_eq_some_iff.mp hg
          exact handlers_texts hts _ (e ▸ List.mem_append_right _ (List.mem_cons_self ..))
        · rw [namesMethod, Option.isSome_eq_false_iff, Option.isNone_iff_eq_none] at h
          rw [h] at hf
          cases hf
      obtain ⟨b, hb⟩ := hmem
      exact ⟨some !b, by simp only [hb, bind, Except.bind]; rfl, rfl⟩
  · exact ⟨some true, rfl, rfl⟩

theorem handleCondition_error {c : Condition} (hc : IsCondition c)
    (h : (!whitelisted ct cfg c && namesMethod c.key) = true) :
    ∃ e, handleCondition ct cfg c = .error e := by
  rw [Bool.and_eq_true, Bool.not_eq_true', namesMethod, Option.isSome_iff_exists] at h
  obtain ⟨hw, e, he⟩ := h
  have hop : c.op.isEmpty = false := by simpa using hc.1
  have hno : handlers.lookup ((c.key.replaceChar '-' '_').replaceChar ':' '_') = none := by
    obtain ⟨l₁, l₂, hl, -⟩ := List.lookup_eq_some_iff.mp he
    have hdisjoint : ∀ e ∈ otherMethods, (handlers.lookup e.1).isNone = true := by decide
    have hmem := hdisjoint _ (hl ▸ List.mem_append_right l₁ (List.mem_cons_self ..))
    exact Option.isNone_iff_eq_none.mp hmem
  refine ⟨e, ?_⟩
  simp only [handleCondition, hop, Bool.false_eq_true, if_false]
  change (if whitelisted ct cfg c = true then _ else _) = _
  rw [hw, if_neg Bool.false_ne_true]
  simp only [handlerFor, hno, he, Option.map_some, bind, Except.bind]

theorem conditionResults_ok {cs : List Condition} (hcs : ∀ c ∈ cs, IsCondition c)
    (h : callsMethod ct cfg cs = false) :
    ∃ r, conditionResults ct cfg cs = .ok r ∧ ∀ rs ∈ r, ∀ e ∈ rs, IsCondition e.1 := by
  induction cs with
  | nil => exact ⟨some [], rfl, by simp⟩
  | cons c cs ih =>
    rw [List.forall_mem_cons] at hcs
    rw [callsMethod, Bool.or_eq_false_iff] at h
    obtain ⟨r, hr, hsome⟩ := handleCondition_ok hcs.1 h.1
    simp only [conditionResults, hr, bind, Except.bind]
    cases r with
    | none => exact ⟨none, rfl, by simp⟩
    | some b =>
      rw [← hsome, Option.isSome_some, Bool.true_and] at h
      obtain ⟨rest, hrest, hmem⟩ := ih hcs.2 h.2
      refine ⟨rest.map ((c, b) :: ·), by simp only [hrest]; rfl, ?_⟩
      cases rest with
      | none => simp
      | some rs =>
        rintro _ ⟨⟩ e he
        rcases List.mem_cons.mp he with rfl | he
        · exact hcs.1
        · exact hmem rs rfl e he

theorem conditionResults_error {cs : List Condition} (hcs : ∀ c ∈ cs, IsCondition c)
    (h : callsMethod ct cfg cs = true) : ∃ e, conditionResults ct cfg cs = .error e := by
  induction cs with
  | nil => cases h
  | cons c cs ih =>
    rw [List.forall_mem_cons] at hcs
    cases hm : !whitelisted ct cfg c && namesMethod c.key
    · rw [callsMethod, hm, Bool.false_or, Bool.and_eq_true] at h
      obtain ⟨r, hr, hsome⟩ := handleCondition_ok hcs.1 hm
      rw [h.1, Option.isSome_iff_exists] at hsome
      obtain ⟨b, rfl⟩ := hsome
      obtain ⟨e, he⟩ := ih hcs.2 h.2
      exact ⟨e, by simp only [conditionResults, hr, he, bind, Except.bind]⟩
    · obtain ⟨e, he⟩ := handleCondition_error hcs.1 hm
      exact ⟨e, by simp only [conditionResults, he, bind, Except.bind]⟩

theorem combineResults_ok {rs : List (Condition × Bool)} (h : ∀ e ∈ rs, IsCondition e.1) :
    ∃ b, combineResults cfg rs = .ok b := by
  have hforgiven : ∃ b, failuresForgiven cfg rs = .ok b := by
    induction rs with
    | nil => exact ⟨true, rfl⟩
    | cons e rs ih =>
      rw [List.forall_mem_cons] at h
      obtain ⟨c, r⟩ := e
      obtain ⟨b, hb⟩ := ih h.2
      obtain ⟨-, ts, hts⟩ : IsCondition c := h.1
      cases r
      · simp only [failuresForgiven, hts, Json.iter, valuesForgiven_texts, hb, bind, Except.bind]
        split
        · split
          · exact ⟨b, rfl⟩
          · exact ⟨false, rfl⟩
        · exact ⟨false, rfl⟩
      · exact ⟨b, hb⟩
  obtain ⟨b, hb⟩ := hforgiven
  rw [combineResults, hb]
  split
  · exact ⟨true, rfl⟩
  · split
    · exact ⟨b, rfl⟩
    · exact ⟨false, rfl⟩

theorem normalizeConditions_statement (s : Statement) :
    normalizeConditions ct s.toJson = .ok (s.conditions ct) :=
  normalizeConditions_block s.has_condition

theorem handleConditions_ok_iff (s : Statement) :
    (∃ b, handleConditions ct cfg s.toJson = .ok b) ↔
      callsMethod ct cfg (s.conditions ct) = false := by
  simp only [handleConditions, normalizeConditions_statement, bind, Except.bind]
  have hmem : ∀ c ∈ s.conditions ct, IsCondition c := isCondition_of_mem
  generalize s.conditions ct = cs at hmem
  cases hnil : cs.isEmpty
  · simp only [Bool.false_eq_true, if_false]
    cases hcalls : callsMethod ct cfg cs
    · obtain ⟨r, hr, hrs⟩ := conditionResults_ok hmem hcalls
      refine iff_of_true ?_ rfl
      rw [hr]
      cases r with
      | none => exact ⟨false, rfl⟩
      | some rs => exact combineResults_ok (hrs rs rfl)
    · obtain ⟨e, he⟩ := conditionResults_error hmem hcalls
      refine iff_of_false ?_ (by simp)
      rw [he]
      rintro ⟨b, hb⟩
      cases hb
  · rw [List.isEmpty_iff] at hnil
    subst hnil
    exact iff_of_true ⟨false, rfl⟩ rfl

/-! ## Statements and policies -/

theorem handleStatement_ok_iff (s : Statement) :
    (∃ b, handleStatement ct cfg s.toJson = .ok b) ↔
      (cfg.checkActions = [] ∨ s.notAction = false) ∧
        (s.grants cfg = true → callsMethod ct cfg (s.conditions ct) = false) := by
  simp only [handleStatement, handlePrincipal_eq, handleEffect_eq, bind, Except.bind]
  by_cases h : cfg.checkActions = [] ∨ s.notAction = false
  · rw [handleAction_eq s h]
    have hgrants : (s.open cfg && decide (s.effect = "Allow".toList) && s.matches cfg) =
        s.grants cfg := by
      rw [Statement.grants, Bool.and_comm (s.open cfg)]
    simp only [hgrants]
    cases hg : s.grants cfg
    · exact iff_of_true ⟨false, rfl⟩ ⟨h, by simp⟩
    · simp only [if_true, h, true_and, forall_const, ← handleConditions_ok_iff]
      cases handleConditions ct cfg s.toJson with
      | error e => simp
      | ok b => exact iff_of_true ⟨!b, rfl⟩ ⟨b, rfl⟩
  · rw [not_or, Bool.not_eq_false] at h
    rw [handleAction_notAction s h.1 h.2]
    exact iff_of_false (by simp) fun h' => h'.1.elim h.1 (by simp [h.2])

theorem violates_of_grants {s : Statement} (h : ∃ b, handleStatement ct cfg s.toJson = .ok b)
    (hg : s.grants cfg = true) (hb : s.block = none) : violates ct cfg s.toJson = true := by
  obtain ⟨haction, -⟩ := (handleStatement_ok_iff s).mp h
  have hc : handleConditions ct cfg s.toJson = .ok false := by
    simp only [handleConditions, normalizeConditions_statement, Statement.conditions, hb]
    rfl
  rw [Statement.grants, Bool.and_eq_true, Bool.and_eq_true] at hg
  simp only [violates, handleStatement, handlePrincipal_eq, handleEffect_eq,
    handleAction_eq s haction, hg.1.1, hg.1.2, hg.2, hc, bind, Except.bind]
  rfl

theorem handleStatement_key (k : Text) : ∀ b, handleStatement ct cfg (.str k) ≠ .ok b := by
  intro b h
  simp only [handleStatement, bind_eq_ok] at h
  obtain ⟨principal, -, effect, heffect, -⟩ := h
  cases heffect

theorem statements_eq {loads : Text → Except Exn Json} {given : PolicyText} {p : Policy}
    (h : document loads given = .ok p.toJson) :
    statements loads given = p.statements.toJson.iter := by
  have hget : p.toJson.get "Statement".toList = .ok (some p.statements.toJson) := by
    simp only [Json.get, Json.members, Policy.toJson, bind, Except.bind, p.has_statements]
    rfl
  cases given with
  | text t =>
    simp only [document] at h
    simp only [statements, h, hget, bind, Except.bind]
  | document j =>
    simp only [document, Except.ok.injEq] at h
    simp only [statements, h, hget, bind, Except.bind]

/-- **The policy grammar.**  A policy is checked without an exception, and its grants
without conditions are the violations, exactly when the checker handles its grammar. -/
theorem check_meets_iff {loads : Text → Except Exn Json} {given : PolicyText} {p : Policy}
    (h : document loads given = .ok p.toJson) :
    Meets loads ct cfg given p ↔ Handled ct cfg p := by
  have hiter := statements_eq h
  constructor
  · rintro ⟨result, hresult, -⟩
    obtain ⟨ss, hss, hok, -⟩ := check_eq_ok hresult
    rw [hiter] at hss
    cases hp : p.statements with
    | one s =>
      rw [hp] at hss
      cases hss
      have hkeys : s.members ≠ [] := by
        intro hnil
        have := s.has_effect
        rw [hnil] at this
        cases this
      obtain ⟨e, hmem⟩ := List.exists_mem_of_ne_nil _ hkeys
      obtain ⟨b, hb⟩ := hok (.str e.1) (List.mem_map_of_mem hmem)
      exact absurd hb (handleStatement_key e.1 b)
    | list ss =>
      rw [hp] at hss
      cases hss
      have hall : ∀ s ∈ ss, (cfg.checkActions = [] ∨ s.notAction = false) ∧
          (s.grants cfg = true → callsMethod ct cfg (s.conditions ct) = false) :=
        fun s hs => (handleStatement_ok_iff s).mp (hok _ (List.mem_map_of_mem hs))
      refine ⟨by rw [hp]; rfl, ?_, ?_⟩
      · rw [or_iff_not_imp_left, hp]
        exact fun hne s hs => (hall s hs).1.resolve_left hne
      · rw [hp]
        exact fun s hs => (hall s hs).2
  · rintro ⟨hlist, haction, hconditions⟩
    cases hp : p.statements with
    | one s =>
      rw [hp] at hlist
      cases hlist
    | list ss =>
      rw [hp] at hiter haction hconditions
      have hok : ∀ s ∈ ss, ∃ b, handleStatement ct cfg s.toJson = .ok b := fun s hs =>
        (handleStatement_ok_iff s).mpr ⟨haction.imp_right fun h => h s hs, hconditions s hs⟩
      have hstatements : statements loads given = .ok (ss.map Statement.toJson) := hiter
      have hjson : ∀ s ∈ ss.map Statement.toJson, ∃ b, handleStatement ct cfg s = .ok b := by
        simpa using hok
      obtain ⟨allowed, violations, hsplit⟩ := splitStatements_of_ok hjson
      obtain ⟨rfl, rfl, -⟩ := splitStatements_eq hsplit
      refine ⟨_, by simp only [check, hstatements, hsplit, bind, Except.bind]; rfl, ?_⟩
      rw [hp]
      intro s hs hg hb
      have hv := violates_of_grants (hok s hs) hg hb
      have hmem : s.toJson ∈ ss.map Statement.toJson := List.mem_map_of_mem hs
      cases cfg.returnAllowed
      · simp [hv, hmem]
      · simp [hv]

/-- A grant to everyone. -/
def publicGrant : Statement where
  members := [("Effect".toList, .str "Allow".toList), ("Principal".toList, .str "*".toList),
    ("Action".toList, .str "s3:GetObject".toList)]
  effect := "Allow".toList
  notPrincipal := false
  principals := .plain (.one "*".toList)
  notAction := false
  actions := .one "s3:GetObject".toList
  block := none
  has_effect := rfl
  has_principal := rfl
  one_principal := rfl
  has_action := rfl
  one_action := rfl
  has_condition := rfl

/-- The policy that consists of these statements. -/
def policyOf (ss : Statements) : Policy := ⟨[("Statement".toList, ss.toJson)], ss, rfl⟩

theorem check_meets_public :
    Meets (fun _ => .error .typeError) asciiTable {}
      (.document (policyOf (.list [publicGrant])).toJson) (policyOf (.list [publicGrant])) :=
  (check_meets_iff rfl).mpr ⟨rfl, Or.inl rfl, by decide +kernel⟩

/-- As a single statement, the grant makes the checker raise. -/
theorem check_single_raises :
    ¬Meets (fun _ => .error .typeError) asciiTable {}
      (.document (policyOf (.one publicGrant)).toJson) (policyOf (.one publicGrant)) := by
  rintro ⟨result, h, -⟩
  have hraise : check (fun _ => .error .typeError) asciiTable {}
      (.document (policyOf (.one publicGrant)).toJson) = .error .attributeError := rfl
  rw [hraise] at h
  cases h

end Custodian.PolicyGrammar

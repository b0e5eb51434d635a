import Custodian.Filters.ValueMatch
import Custodian.Lib.Grouping

/-!
# Users and their roles

`IamPolicyFilter` of `tools/c7n_gcp/c7n_gcp/filters/iampolicy.py` asks whether a user has a role in
the IAM policy of a resource.  With two texts it turns the policy into a map of users to roles and
looks the user up with a value filter, whose key may also be an expression or the name of a tag; with
a value filter in the place of a text it goes through the bindings.
-/

namespace Custodian.UserRoles

open Py
open ValueOps ValueTypes ValueMatch

/-! ## Policies -/

structure Binding where
  role : Text
  members : Option (List Text)
  deriving DecidableEq

/-- A policy as `getIamPolicy` returns it. -/
structure Policy where
  bindings : Option (List Binding)
  deriving DecidableEq

structure Pair where
  role : Text
  member : Text
  deriving DecidableEq

/-- A resource with its policy, and the two annotations. -/
structure Resource where
  name : Text
  policy : Policy
  matchedBindings : List Pair
  userRolePair : Option (List (Text × List Text))

/-! ## The map of users -/

/-- `d[k]` -/
def item {α : Type} (o : Option α) : Except Exn α := o.elim (.error .keyError) .ok

/-- The members of the bindings with their roles. -/
def Policy.pairs (p : Policy) : Except Exn (List Pair) := do
  let bindings ← item p.bindings
  let pairs ← bindings.mapM fun b => do
    return (← item b.members).map fun user => (⟨b.role, user⟩ : Pair)
  return pairs.flatten

/-- `userToRolesMap` -/
def Policy.userToRolesMap (p : Policy) : Except Exn (List (Text × List Text)) := do
  return Items.groupOn Pair.member Pair.role (← p.pairs)

/-- The map as a value filter sees it. -/
def asResource (m : List (Text × List Text)) : ValueTypes.Resource :=
  m.map fun e => (e.1, .list (e.2.map .str))

def opName (has : Bool) : Text := if has then "in".toList else "not-in".toList

/-- `{'key': user, 'value': role, 'op': op, 'value_type': 'swap'}` -/
def pairData (user role : Text) (has : Bool) : Data :=
  ⟨some user, .str role, some (opName has), some .swap, none, []⟩

def annotate (r : Resource) : Except Exn Resource := do
  return { r with userRolePair := some (← r.policy.userToRolesMap) }

/-- `IamPolicyUserRolePairFilter.__call__` -/
def callPair (env : Env) (user role : Text) (has : Bool) (r : Resource) : Except Exn Bool := do
  (pairData user role has).matches env (some (asResource (← item r.userRolePair)))

/-- `IamPolicyUserRolePairFilter.process` -/
def pairFilter (env : Env) (user role : Text) (has : Bool) (rs : List Resource) :
    Except Exn (List Resource) := do
  filterE (callPair env user role has) (← rs.mapM annotate)

/-! ## Value filters on users and roles -/

/-- What stands for a user or a role. -/
inductive Spec where
  | text (s : Text)
  | block (d : Data)

/-- `ValueFilter.__call__`; a count is that of the one member. -/
def callBlock (env : Env) (d : Data) (key s : Text) : Except Exn Bool :=
  if d.valueType = some .resourceCount then do
    let op ← item (d.op.bind fun op => operators.lookup op)
    op.apply env.toLanguage (.value (.int 1)) (.value d.value)
  else { d with key := some key }.matches env (some [(key, .str s)])

def Spec.accepts (env : Env) (key : Text) (spec : Spec) (s : Text) : Except Exn Bool :=
  match spec with
  | text t => .ok (s = t)
  | block d => callBlock env d key s

/-- `matched_pairs` -/
def matchedPairs (env : Env) (userSpec roleSpec : Spec) (p : Policy) : Except Exn (List Pair) := do
  let pairs ← (p.bindings.getD []).mapM fun b => do
    if ← roleSpec.accepts env "role".toList b.role then
      let members ← filterE (userSpec.accepts env "member".toList) (b.members.getD [])
      return members.map fun member => (⟨b.role, member⟩ : Pair)
    else return []
  return pairs.flatten

/-- `_filter_by_user_role_vf` -/
def filterByUserRoleVf (env : Env) (userSpec roleSpec : Spec) (has : Bool) (rs : List Resource) :
    Except Exn (List Resource) := do
  let kept ← rs.mapM fun r => do
    let pairs ← matchedPairs env userSpec roleSpec r.policy
    if has && !pairs.isEmpty then
      return some { r with matchedBindings := r.matchedBindings ++ pairs }
    else if !has && pairs.isEmpty then return some r
    else return none
  return kept.reduceOption

/-- `IamPolicyFilter.process` for `user-role` -/
def process (env : Env) (userSpec roleSpec : Spec) (has : Bool) (rs : List Resource) :
    Except Exn (List Resource) :=
  match userSpec, roleSpec with
  | .text user, .text role => pairFilter env user role has rs
  | _, _ => filterByUserRoleVf env userSpec roleSpec has rs

/-! ## What is to be decided -/

/-- Some binding of the role lists the user. -/
def Policy.Grants (p : Policy) (user role : Text) : Prop :=
  ∃ b ∈ p.bindings.getD [], b.role = role ∧ user ∈ b.members.getD []

instance (p : Policy) (user role : Text) : Decidable (p.Grants user role) :=
  inferInstanceAs (Decidable (∃ b ∈ p.bindings.getD [], _ ∧ _))

/-- The resource is to be kept. -/
def Policy.Wanted (p : Policy) (user role : Text) (has : Bool) : Bool :=
  decide (p.Grants user role) == has

/-- A resource without annotations -/
def Resource.source (r : Resource) : Text × Policy := (r.name, r.policy)

/-- The resources that a filter keeps, or what it raises. -/
def sources (kept : Except Exn (List Resource)) : Except Exn (List (Text × Policy)) :=
  kept.map fun rs => rs.map Resource.source

/-- A value filter that accepts a text and no other. -/
def AcceptsOnly (env : Env) (key t : Text) (spec : Spec) : Prop :=
  ∀ s, spec.accepts env key s = .ok (s = t)

/-- The filter keeps the wanted resources, and so it does with a value filter that accepts only the
user, or only the role. -/
structure Decides (env : Env) (user role : Text) (has : Bool) (rs : List Resource) : Prop where
  plain : sources (process env (.text user) (.text role) has rs) =
    .ok ((rs.filter fun r => r.policy.Wanted user role has).map Resource.source)
  userBlock : ∀ d, AcceptsOnly env "member".toList user (.block d) →
    sources (process env (.block d) (.text role) has rs) =
      sources (process env (.text user) (.text role) has rs)
  roleBlock : ∀ d, AcceptsOnly env "role".toList role (.block d) →
    sources (process env (.text user) (.block d) has rs) =
      sources (process env (.text user) (.text role) has rs)

/-- Some binding lists the user. -/
def Policy.Lists (p : Policy) (user : Text) : Prop :=
  ∃ b ∈ p.bindings.getD [], user ∈ b.members.getD []

instance (p : Policy) (user : Text) : Decidable (p.Lists user) :=
  inferInstanceAs (Decidable (∃ b ∈ p.bindings.getD [], _))

/-- The bindings, and the members of each, are there. -/
def Policy.Whole (p : Policy) : Prop :=
  ∃ bindings, p.bindings = some bindings ∧ ∀ b ∈ bindings, b.members.isSome

/-- The members of the bindings that are there, with their roles. -/
def Policy.listed (p : Policy) : List Pair :=
  (p.bindings.getD []).flatMap fun b => (b.members.getD []).map fun user => ⟨b.role, user⟩

/-- The users of a policy with their roles. -/
def Policy.userRoles (p : Policy) : List (Text × List Text) :=
  Items.groupOn Pair.member Pair.role p.listed

/-- A value that stands for a test of the role. -/
def Word (role : Text) (v : Value) : Prop :=
  v.eq (.str present) = true ∨ v.eq (.str notNull) = true ∧ role ≠ [] ∨
    v.eq (.str ValueMatch.empty) = true ∧ role = []

instance (role : Text) (v : Value) : Decidable (Word role v) :=
  inferInstanceAs (Decidable (_ ∨ _ ∧ _ ∨ _ ∧ _))

/-- What an expression finds is not taken for the roles of the user: with `in` it is no word and
does not contain the role, with `not-in` it is nothing, a word or a container without the role. -/
def Misses (has : Bool) (role : Text) (v : Value) : Prop :=
  let contained := (Operand.value v).contains (.value (.str role))
  if has then ¬ Word role v ∧ contained ≠ .ok true
  else v.isNone = true ∨ Word role v ∨ contained = .ok false

/-- The policies for which the map and the value filter decide. -/
def Meets (env : Env) (user role : Text) (has : Bool) (p : Policy) : Prop :=
  p.Whole ∧
    if user.startsWith tagPrefix then
      ¬ p.Grants user role ∧ ∀ name ∈ [tagsName, labelsName, lowerTagsName], ¬ p.Lists name
    else p.Lists user ∨ ∃ v, env.search user (asResource p.userRoles) = .ok v ∧ Misses has role v

/-! ## The value filter -/

section Compare

variable (env : Env) (has : Bool) (role : Text)

/-- What is made of the value that is found for a user. -/
def compare (v : Value) : Except Exn Bool :=
  let found := if v.isNone then Operand.unit else .value v
  orElseTest (shorthand found (.value (.str role)))
    (applyOp env (some (opName has)) found (.value (.str role)))

theorem matches_pairData (user : Text) (i : ValueTypes.Resource) :
    (pairData user role has).matches env (some i) =
      (rawValue env [] user i >>= compare env has role) := by
  have hop : (pairData user role has).op ∈ [some "in".toList, some "not-in".toList] := by
    cases has
    · exact List.mem_cons_of_mem _ List.mem_cons_self
    · exact List.mem_cons_self
  have hfound : ∀ v : Value, ((pairData user role has).found v).operand =
      if v.isNone then Operand.unit else .value v := by
    intro v
    rw [Data.found]
    cases v.isNone with
    | true => rw [if_pos ⟨hop, rfl⟩]; rfl
    | false => rw [if_neg fun h => Bool.false_ne_true h.2]; rfl
  have hvalue : getResourceValue env [] none user i = rawValue env [] user i := by
    rw [getResourceValue]
    cases rawValue env [] user i <;> rfl
  rw [Data.matches]
  simp only [pairData] at hfound ⊢
  rw [hvalue]
  refine congrArg (rawValue env [] user i >>= ·) (funext fun v => ?_)
  simp only [Data.operands, processValueType, ok_bind, hfound]
  rw [Data.finish, if_neg fun h => by cases h.1]
  rfl

theorem apply_opName (x : Operand) (e : Operand) :
    applyOp env (some (opName has)) x e =
      caught (if has then x.contains e else (x.contains e).map not) := by
  cases has with
  | true =>
    have hlookup : operators.lookup (opName true) = some .isIn := by decide
    rw [applyOp]
    simp only [hlookup]
    rfl
  | false =>
    have hlookup : operators.lookup (opName false) = some .notIn := by decide
    rw [applyOp]
    simp only [hlookup]
    rfl

theorem shorthand_text (v : Value) :
    shorthand (.value v) (.value (.str role)) = .ok (decide (Word role v)) := by
  have hor : ∀ a b : Bool, orElseTest (.ok a) (.ok b) = .ok (a || b) := by decide
  have htruthy : (Operand.value (.str role)).truthy = decide (role ≠ []) := rfl
  have hnone : (Operand.value (.str role)).isNone = false := rfl
  have hempty : (!decide (role ≠ [])) = decide (role = []) := by
    by_cases hrole : role = [] <;> simp [hrole]
  rw [shorthand, hnone, htruthy, hempty]
  simp only [Bool.false_eq_true, if_false, isWord, Except.map, hor, Bool.false_or]
  refine congrArg Except.ok ?_
  rw [Bool.eq_iff_iff, decide_eq_true_eq, Word]
  simp only [Bool.or_eq_true, Bool.and_eq_true, decide_eq_true_eq]

theorem not_word {v : Value} (hv : ∀ s, v ≠ .str s) : ¬ Word role v := by
  have heq : ∀ t, v.eq (.str t) = false := by
    intro t
    cases v with
    | str s => exact absurd rfl (hv s)
    | _ => simp [Value.eq, Value.number?]
  simp [Word, heq]

theorem compare_none {v : Value} (hv : v.isNone = true) : compare env has role v = .ok (!has) := by
  rw [compare, hv]
  simp only [if_true, apply_opName]
  cases has <;> rfl

theorem contains_value (v : Value) :
    (∃ b, (Operand.value v).contains (.value (.str role)) = .ok b) ∨
      (Operand.value v).contains (.value (.str role)) = .error .typeError := by
  cases v with
  | str s => exact Or.inl ⟨_, rfl⟩
  | list items => exact Or.inl ⟨_, rfl⟩
  | dict members => exact Or.inl ⟨_, rfl⟩
  | _ => exact Or.inr rfl

/-- **What is found for a user that is not listed** gives the right answer when it misses the role. -/
theorem compare_iff (v : Value) : compare env has role v = .ok (!has) ↔ Misses has role v := by
  cases hv : v.isNone with
  | true =>
    rw [compare_none env has role hv]
    refine iff_of_true rfl ?_
    rw [Misses]
    cases has with
    | false => exact Or.inl hv
    | true =>
      cases v with
      | none => exact ⟨not_word role fun s => by simp, fun h => by cases h⟩
      | _ => cases hv
  | false =>
    have hfound : compare env has role v = orElseTest (.ok (decide (Word role v)))
        (applyOp env (some (opName has)) (.value v) (.value (.str role))) := by
      rw [compare, hv]
      simp only [Bool.false_eq_true, if_false, shorthand_text]
    rw [hfound, apply_opName, Misses]
    by_cases hword : Word role v
    · rw [decide_eq_true hword]
      have htest : ∀ y, orElseTest (.ok true) y = .ok true := fun _ => rfl
      rw [htest]
      cases has with
      | true => exact iff_of_false (by decide) fun h => h.1 hword
      | false => exact iff_of_true rfl (Or.inr (Or.inl hword))
    · rw [decide_eq_false hword]
      have htest : ∀ y, orElseTest (.ok false) y = y := fun y => rfl
      rw [htest]
      rcases contains_value role v with ⟨b, hb⟩ | herror
      · rw [hb]
        cases has <;> cases b <;> simp [caught, hword, hv, Except.map]
      · rw [herror]
        cases has <;> simp [caught, hword, hv, Except.map]

theorem compare_roles (roles : List Text) :
    compare env has role (.list (roles.map .str)) = .ok (decide (role ∈ roles) == has) := by
  have hword : ¬ Word role (.list (roles.map .str)) := not_word role fun s => by simp
  have hcontains : (Operand.value (.list (roles.map .str))).contains (.value (.str role)) =
      .ok (decide (role ∈ roles)) := by
    rw [Operand.contains, List.any_map]
    refine congrArg Except.ok ?_
    have hsame : ∀ s, (Operand.value (.str role)).same (.value (.str s)) = decide (role = s) := by
      intro s
      simp [Operand.same, Operand.eq, Value.eq]
    rw [Bool.eq_iff_iff, List.any_eq_true, decide_eq_true_eq]
    simp only [Function.comp_apply, hsame, decide_eq_true_eq, exists_eq_right']
  rw [compare]
  simp only [Value.isNone, Bool.false_eq_true, if_false, shorthand_text, decide_eq_false hword,
    apply_opName, hcontains]
  cases has <;> cases decide (role ∈ roles) <;> rfl

end Compare

/-! ## The map of a policy -/

section Lookup

variable {p : Policy} {user role : Text}

theorem mem_listed_iff : ⟨role, user⟩ ∈ p.listed ↔ p.Grants user role := by
  rw [Policy.listed, List.mem_flatMap]
  refine exists_congr fun b => and_congr_right fun _ => ?_
  rw [List.mem_map]
  constructor
  · rintro ⟨u, hu, heq⟩
    cases heq
    exact ⟨rfl, hu⟩
  · rintro ⟨rfl, hu⟩
    exact ⟨user, hu, rfl⟩

theorem userToRolesMap_eq_ok_iff {m : List (Text × List Text)} :
    p.userToRolesMap = .ok m ↔ p.Whole ∧ m = p.userRoles := by
  have hstep : ∀ (b : Binding) (pairs : List Pair),
      (do return (← item b.members).map fun user => (⟨b.role, user⟩ : Pair)) = Except.ok pairs ↔
        b.members.isSome = true ∧ pairs = (b.members.getD []).map fun user => ⟨b.role, user⟩ := by
    intro b pairs
    cases hb : b.members with
    | none => exact iff_of_false (fun h => by cases h) fun h => by cases h.1
    | some members =>
      constructor
      · intro h
        exact ⟨rfl, (pure_eq_ok.mp h).symm⟩
      · rintro ⟨-, rfl⟩
        rfl
  rw [Policy.userToRolesMap, Policy.pairs, Policy.Whole, Policy.userRoles, Policy.listed]
  cases p.bindings with
  | none =>
    refine iff_of_false (fun h => by cases h) ?_
    rintro ⟨⟨bindings, hnone, -⟩, -⟩
    cases hnone
  | some bindings =>
    have hflatten : ((bindings.map fun b => (b.members.getD []).map fun user =>
        (⟨b.role, user⟩ : Pair))).flatten = bindings.flatMap fun b =>
          (b.members.getD []).map fun user => ⟨b.role, user⟩ := List.flatMap_def.symm
    simp only [item, Option.elim_some, ok_bind, bind_eq_ok, pure_eq_ok, Option.getD_some,
      Option.some.injEq, exists_eq_left']
    constructor
    · rintro ⟨pairs, ⟨lists, hlists, rfl⟩, rfl⟩
      obtain ⟨hwhole, rfl⟩ := (mapM_eq_ok_iff hstep).mp hlists
      exact ⟨hwhole, by rw [hflatten]⟩
    · rintro ⟨hwhole, rfl⟩
      exact ⟨_, ⟨_, (mapM_eq_ok_iff hstep).mpr ⟨hwhole, rfl⟩, rfl⟩, by rw [hflatten]⟩

theorem lookup_asResource (m : List (Text × List Text)) (k : Text) :
    (asResource m).lookup k = (Items.get k m).map fun roles => .list (roles.map .str) := by
  induction m with
  | nil => rfl
  | cons e m ih =>
    rw [Items.get_cons, asResource, List.map_cons, List.lookup_cons]
    by_cases hk : k = e.1
    · rw [if_pos hk, hk, beq_self_eq_true]
      rfl
    · rw [if_neg hk, ← ih, beq_false_of_ne hk]
      rfl

theorem lookup_listed (h : p.Lists user) :
    ∃ roles, (asResource p.userRoles).lookup user = some (.list (roles.map .str)) ∧ roles ≠ [] ∧
      ∀ role, role ∈ roles ↔ p.Grants user role := by
  obtain ⟨b, hb, hu⟩ := h
  have hmem : ⟨b.role, user⟩ ∈ p.listed := mem_listed_iff.mpr ⟨b, hb, rfl, hu⟩
  have hne : p.listed.filter (fun e => e.member = user) ≠ [] :=
    List.ne_nil_of_mem (List.mem_filter.mpr ⟨hmem, decide_eq_true rfl⟩)
  refine ⟨(p.listed.filter fun e => e.member = user).map Pair.role, ?_,
    fun hnil => hne (List.map_eq_nil_iff.mp hnil), fun role => ?_⟩
  · rw [lookup_asResource, Policy.userRoles, Items.get_groupOn, if_neg hne]
    rfl
  · rw [← mem_listed_iff, List.mem_map]
    constructor
    · rintro ⟨e, he, rfl⟩
      obtain ⟨he, hmember⟩ := List.mem_filter.mp he
      rw [← of_decide_eq_true hmember]
      exact he
    · intro he
      exact ⟨_, List.mem_filter.mpr ⟨he, decide_eq_true rfl⟩, rfl⟩

theorem lookup_unlisted (h : ¬ p.Lists user) : (asResource p.userRoles).lookup user = none := by
  rw [lookup_asResource, Policy.userRoles, Items.get_groupOn, if_pos]
  · rfl
  · rw [List.filter_eq_nil_iff]
    intro e he hmember
    obtain ⟨b, hb, hu⟩ := mem_listed_iff.mp (show ⟨e.role, e.member⟩ ∈ p.listed from he)
    exact h ⟨b, hb, of_decide_eq_true hmember ▸ hu.2⟩

theorem lists_of_grants (h : p.Grants user role) : p.Lists user := by
  obtain ⟨b, hb, -, hu⟩ := h
  exact ⟨b, hb, hu⟩

theorem tagValue_userRoles {env : Env} {tk : Text} {v : Value} :
    tagValue env [] tk (asResource p.userRoles) = .ok v ↔
      (∀ name ∈ [tagsName, labelsName, lowerTagsName], ¬ p.Lists name) ∧ v = .none := by
  have hlist : ∀ name, p.Lists name → ∃ role roles,
      (asResource p.userRoles).lookup name = some (.list (.str role :: roles)) := by
    intro name hname
    obtain ⟨roles, hlookup, hne, -⟩ := lookup_listed hname
    cases roles with
    | nil => exact absurd rfl hne
    | cons role roles => exact ⟨role, _, hlookup⟩
  have hfunc : transformFuncIfNeeded [] = .ok none := rfl
  rw [tagValue, hfunc, ok_bind]
  by_cases htags : p.Lists tagsName
  · obtain ⟨role, roles, hlookup⟩ := hlist _ htags
    rw [hlookup]
    exact iff_of_false (fun h => by cases h) fun h => h.1 _ List.mem_cons_self htags
  · rw [lookup_unlisted htags]
    by_cases hlabels : p.Lists labelsName
    · obtain ⟨role, roles, hlookup⟩ := hlist _ hlabels
      rw [hlookup]
      exact iff_of_false (fun h => by cases h) fun h =>
        h.1 _ (List.mem_cons_of_mem _ List.mem_cons_self) hlabels
    · rw [lookup_unlisted hlabels]
      by_cases hlower : p.Lists lowerTagsName
      · obtain ⟨role, roles, hlookup⟩ := hlist _ hlower
        rw [hlookup]
        exact iff_of_false (fun h => by cases h) fun h => h.1 _ (by simp) hlower
      · rw [lookup_unlisted hlower]
        have hnames : ∀ name ∈ [tagsName, labelsName, lowerTagsName], ¬ p.Lists name := by
          simp [htags, hlabels, hlower]
        rw [and_iff_right hnames]
        exact ⟨fun h => (pure_eq_ok.mp h).symm, fun h => pure_eq_ok.mpr h.symm⟩

end Lookup

/-! ## One policy -/

section Decision

variable (env : Env) (user role : Text) (has : Bool) (p : Policy)

/-- What the map and the value filter make of a policy. -/
def decision : Except Exn Bool := do
  (pairData user role has).matches env (some (asResource (← p.userToRolesMap)))

theorem lookUp_iff {b : Bool} :
    (rawValue env [] user (asResource p.userRoles) >>= compare env has role) = .ok b ↔
      if user.startsWith tagPrefix then
        (∀ name ∈ [tagsName, labelsName, lowerTagsName], ¬ p.Lists name) ∧ b = !has
      else if p.Lists user then b = p.Wanted user role has
      else ∃ v, env.search user (asResource p.userRoles) = .ok v ∧
        compare env has role v = .ok b := by
  rw [rawValue]
  split
  · rw [bind_eq_ok]
    simp only [tagValue_userRoles, and_assoc, exists_and_left, exists_eq_left]
    rw [compare_none env has role rfl, Except.ok.injEq, eq_comm]
  · by_cases hlists : p.Lists user
    · obtain ⟨roles, hlookup, -, hroles⟩ := lookup_listed hlists
      rw [hlookup, if_pos hlists]
      simp only [ok_bind]
      rw [compare_roles, Except.ok.injEq, eq_comm, Policy.Wanted, decide_eq_decide.mpr (hroles role)]
    · rw [lookup_unlisted hlists, if_neg hlists, bind_eq_ok]

theorem wanted_eq_not_iff : p.Wanted user role has = !has ↔ ¬ p.Grants user role := by
  rw [Policy.Wanted, ← decide_eq_false_iff_not]
  cases decide (p.Grants user role) <;> cases has <;> decide

/-- **The policies for which the answer is right.** -/
theorem decision_eq_ok_iff :
    decision env user role has p = .ok (p.Wanted user role has) ↔ Meets env user role has p := by
  rw [decision, Meets, bind_eq_ok]
  simp only [userToRolesMap_eq_ok_iff, and_assoc, exists_and_left, exists_eq_left,
    matches_pairData, lookUp_iff]
  refine and_congr_right fun _ => ?_
  split
  · rw [wanted_eq_not_iff, and_comm]
  · by_cases hlists : p.Lists user
    · rw [if_pos hlists]
      exact iff_of_true trivial (Or.inl hlists)
    · have hnot : p.Wanted user role has = !has :=
        (wanted_eq_not_iff user role has p).mpr fun hgrants => hlists (lists_of_grants hgrants)
      rw [if_neg hlists, hnot, or_iff_right hlists]
      simp only [compare_iff]

end Decision

/-! ## All resources -/

section Plain

variable {env : Env} {user role : Text} {has : Bool} {rs kept : List Resource}

/-- A resource with the users and roles of its policy. -/
def Resource.withRoles (r : Resource) : Resource :=
  { r with userRolePair := some r.policy.userRoles }

theorem annotate_eq_ok_iff (r r' : Resource) :
    annotate r = .ok r' ↔ r.policy.Whole ∧ r' = r.withRoles := by
  rw [annotate]
  simp only [bind_eq_ok, pure_eq_ok, userToRolesMap_eq_ok_iff]
  constructor
  · rintro ⟨m, ⟨hwhole, rfl⟩, rfl⟩
    exact ⟨hwhole, rfl⟩
  · rintro ⟨hwhole, rfl⟩
    exact ⟨_, ⟨hwhole, rfl⟩, rfl⟩

theorem decision_eq (r : Resource) (h : r.policy.Whole) :
    callPair env user role has r.withRoles = decision env user role has r.policy := by
  rw [decision, userToRolesMap_eq_ok_iff.mpr ⟨h, rfl⟩]
  rfl

theorem whole_of_decision {p : Policy} {b : Bool} (h : decision env user role has p = .ok b) :
    p.Whole := by
  obtain ⟨m, hm, -⟩ := bind_eq_ok.mp h
  exact (userToRolesMap_eq_ok_iff.mp hm).1

theorem pairFilter_eq_ok_iff :
    pairFilter env user role has rs = .ok kept ↔
      (∀ r ∈ rs, ∃ b, decision env user role has r.policy = .ok b) ∧
        kept = (rs.filter fun r => holds (decision env user role has r.policy)).map
          Resource.withRoles := by
  rw [pairFilter, bind_eq_ok]
  simp only [mapM_eq_ok_iff annotate_eq_ok_iff, and_assoc, exists_and_left, exists_eq_left,
    filterE_eq_ok_iff, List.forall_mem_map, List.filter_map]
  constructor
  · rintro ⟨hwhole, hcalls, rfl⟩
    refine ⟨fun r hr => ?_, congrArg _ (List.filter_congr fun r hr => ?_)⟩
    · rw [← decision_eq r (hwhole r hr)]
      exact hcalls r hr
    · rw [Function.comp_apply, decision_eq r (hwhole r hr)]
  · rintro ⟨hdecided, rfl⟩
    have hwhole : ∀ r ∈ rs, r.policy.Whole := fun r hr =>
      whole_of_decision (hdecided r hr).choose_spec
    refine ⟨hwhole, fun r hr => ?_, congrArg _ (List.filter_congr fun r hr => ?_)⟩
    · rw [decision_eq r (hwhole r hr)]
      exact hdecided r hr
    · rw [Function.comp_apply, decision_eq r (hwhole r hr)]

theorem sources_pairFilter_iff :
    sources (pairFilter env user role has rs) =
        .ok ((rs.filter fun r => r.policy.Wanted user role has).map Resource.source) ↔
      ∀ r ∈ rs, Meets env user role has r.policy := by
  simp only [← decision_eq_ok_iff]
  constructor
  · intro h r hr
    obtain ⟨kept, hkept, hsources⟩ : ∃ kept, pairFilter env user role has rs = .ok kept ∧
        kept.map Resource.source =
          (rs.filter fun r => r.policy.Wanted user role has).map Resource.source := by
      cases hfilter : pairFilter env user role has rs with
      | error e =>
        rw [hfilter] at h
        cases h
      | ok kept =>
        rw [hfilter] at h
        exact ⟨kept, rfl, Except.ok.inj h⟩
    obtain ⟨hdecided, rfl⟩ := pairFilter_eq_ok_iff.mp hkept
    obtain ⟨b, hb⟩ := hdecided r hr
    -- the same policies are kept
    have hpolicy : ∀ q : Resource → Bool, (∀ r r', r.policy = r'.policy → q r = q r') →
        (q r = true ↔ r.source ∈ (rs.filter q).map Resource.source) := by
      intro q hq
      constructor
      · exact fun hqr => List.mem_map_of_mem (List.mem_filter.mpr ⟨hr, hqr⟩)
      · intro hmem
        obtain ⟨r', hr', hsame⟩ := List.mem_map.mp hmem
        rw [hq r r' (congrArg Prod.snd hsame).symm]
        exact (List.mem_filter.mp hr').2
    have hmap : ((rs.filter fun r => holds (decision env user role has r.policy)).map
        Resource.withRoles).map Resource.source =
          (rs.filter fun r => holds (decision env user role has r.policy)).map Resource.source := by
      rw [List.map_map]
      rfl
    have hsame := (hpolicy (fun r => holds (decision env user role has r.policy))
      fun r r' h => by rw [h]).trans (by rw [← hmap, hsources])
    have hwanted := hsame.trans (hpolicy (fun r => r.policy.Wanted user role has)
      fun r r' h => by rw [h]).symm
    rw [hb] at hwanted ⊢
    exact congrArg Except.ok (Bool.eq_iff_iff.mpr hwanted)
  · intro h
    have hkept : pairFilter env user role has rs = .ok ((rs.filter fun r =>
        holds (decision env user role has r.policy)).map Resource.withRoles) :=
      pairFilter_eq_ok_iff.mpr ⟨fun r hr => ⟨_, h r hr⟩, rfl⟩
    have hfilter : (rs.filter fun r => holds (decision env user role has r.policy)) =
        rs.filter fun r => r.policy.Wanted user role has :=
      List.filter_congr fun r hr => by rw [h r hr]; rfl
    rw [hkept, sources, hfilter]
    exact congrArg Except.ok List.map_map

end Plain

section Blocks

variable {env : Env} {user role : Text} {userSpec roleSpec : Spec}

/-- The pairs of the user and the role that the bindings have. -/
def Policy.granted (p : Policy) (user role : Text) : List Pair :=
  (p.bindings.getD []).flatMap fun b =>
    if b.role = role then
      ((b.members.getD []).filter fun member => member = user).map fun member => ⟨b.role, member⟩
    else []

theorem isEmpty_granted (p : Policy) :
    (p.granted user role).isEmpty = !decide (p.Grants user role) := by
  rw [Bool.eq_iff_iff, Bool.not_eq_true', decide_eq_false_iff_not, List.isEmpty_iff, Policy.granted,
    List.flatMap_eq_nil_iff, Policy.Grants]
  constructor
  · rintro h ⟨b, hb, hrole, huser⟩
    have hnil := h b hb
    rw [if_pos hrole, List.map_eq_nil_iff, List.filter_eq_nil_iff] at hnil
    exact hnil user huser (decide_eq_true rfl)
  · intro h b hb
    by_cases hrole : b.role = role
    · rw [if_pos hrole, List.map_eq_nil_iff, List.filter_eq_nil_iff]
      intro member hmember heq
      exact h ⟨b, hb, hrole, of_decide_eq_true heq ▸ hmember⟩
    · rw [if_neg hrole]

theorem matchedPairs_eq (huser : AcceptsOnly env "member".toList user userSpec)
    (hrole : AcceptsOnly env "role".toList role roleSpec) (p : Policy) :
    matchedPairs env userSpec roleSpec p = .ok (p.granted user role) := by
  rw [matchedPairs, mapM_eq_map (g := fun b : Binding => if b.role = role then
    ((b.members.getD []).filter fun member => member = user).map fun member =>
      (⟨b.role, member⟩ : Pair) else [])]
  · rw [ok_bind, Policy.granted, List.flatMap_def]
    rfl
  · intro b _
    rw [hrole, ok_bind]
    by_cases hb : b.role = role
    · rw [if_pos hb, if_pos (decide_eq_true hb),
        filterE_eq_filter (p := fun member => member = user) fun member _ => huser member]
      rfl
    · rw [if_neg hb, if_neg (by rw [decide_eq_true_eq]; exact hb)]
      rfl

/-- **Going through the bindings** decides whether the user has the role. -/
theorem filterByUserRoleVf_spec (huser : AcceptsOnly env "member".toList user userSpec)
    (hrole : AcceptsOnly env "role".toList role roleSpec) (has : Bool) (rs : List Resource) :
    sources (filterByUserRoleVf env userSpec roleSpec has rs) =
      .ok ((rs.filter fun r => r.policy.Wanted user role has).map Resource.source) := by
  have hstep : ∀ r ∈ rs, (do
      let pairs ← matchedPairs env userSpec roleSpec r.policy
      if has && !pairs.isEmpty then
        return some { r with matchedBindings := r.matchedBindings ++ pairs }
      else if !has && pairs.isEmpty then return some r
      else return none) = Except.ok (if r.policy.Wanted user role has then
        some { r with matchedBindings := r.matchedBindings ++ r.policy.granted user role }
        else none) := by
    intro r _
    rw [matchedPairs_eq huser hrole, ok_bind, isEmpty_granted, Policy.Wanted]
    cases hgrants : decide (r.policy.Grants user role) with
    | true => cases has <;> rfl
    | false =>
      have hnil : r.policy.granted user role = [] := by
        rw [← List.isEmpty_iff, isEmpty_granted, hgrants]
        rfl
      rw [hnil, List.append_nil]
      cases has <;> rfl
  rw [filterByUserRoleVf, mapM_eq_map hstep, ok_bind, sources]
  refine congrArg Except.ok ?_
  show List.map Resource.source (List.filterMap id _) = _
  rw [List.filterMap_map, List.map_filterMap, ← List.filterMap_eq_filter, List.map_filterMap]
  refine List.filterMap_congr fun r _ => ?_
  by_cases hwanted : r.policy.Wanted user role has = true
  · simp [hwanted, Option.guard, Resource.source]
  · simp [hwanted, Option.guard]

end Blocks

theorem acceptsOnly_text (env : Env) (key t : Text) : AcceptsOnly env key t (.text t) := fun _ => rfl

/-- **The user-role filter decides** for the policies that its map has all users of, when the user is
listed, or else is an expression that finds nothing like the role. -/
theorem decides_iff (env : Env) (user role : Text) (has : Bool) (rs : List Resource) :
    Decides env user role has rs ↔ ∀ r ∈ rs, Meets env user role has r.policy := by
  rw [← sources_pairFilter_iff]
  constructor
  · exact fun h => h.plain
  · intro h
    refine ⟨h, fun d hd => ?_, fun d hd => ?_⟩
    · exact (filterByUserRoleVf_spec hd (acceptsOnly_text _ _ _) has rs).trans h.symm
    · exact (filterByUserRoleVf_spec (acceptsOnly_text _ _ _) hd has rs).trans h.symm

/-! ## Examples -/

/-- A text with a colon is no expression; other texts find nothing. -/
def expressions : Env :=
  { words with
    search := fun expr _ =>
      if ':' ∈ expr then .error (.raised "ParserError".toList) else .ok .none }

def someUser : Text := "user:name@example.com".toList

def owner : Text := "roles/owner".toList

/-- A project with another owner. -/
def project : Resource where
  name := "project-a".toList
  policy := ⟨some [⟨owner, some ["user:other@example.com".toList]⟩]⟩
  matchedBindings := []
  userRolePair := none

/-- A user that no binding lists is compiled as an expression, which it is not. -/
theorem unlistedUser_raises :
    process expressions (.text someUser) (.text owner) false [project] =
        .error (.raised "ParserError".toList) ∧
      ¬ Decides expressions someUser owner false [project] := by
  have hraises : process expressions (.text someUser) (.text owner) false [project] =
      .error (.raised "ParserError".toList) := rfl
  refine ⟨hraises, fun h => ?_⟩
  have hplain := h.plain
  rw [hraises] at hplain
  cases hplain

end Custodian.UserRoles

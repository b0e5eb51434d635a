import Custodian.Lib.Except
import Custodian.Lib.Text
import Mathlib.Data.Finset.Card
import Mathlib.Data.Rat.Defs

/-!
# Network locations

`NetworkLocation` of `c7n/filters/vpc.py` compares what a key gives for a resource, its security
groups and its subnets.
-/

namespace Custodian.NetworkLocation

open Py

/-! ## The source -/

/-- What a key gives; a truth value is a number.  Lists and dictionaries are not hashable. -/
inductive Value (J : Type) where
  | text (s : Text)
  | num (q : ℚ)
  | other (j : J) (empty : Bool)
  deriving DecidableEq

variable {J : Type} [DecidableEq J]

namespace Value

omit [DecidableEq J]

def truthy : Value J → Bool
  | text s => !s.isEmpty
  | num q => q ≠ 0
  | other _ empty => !empty

def hashable : Value J → Bool
  | other _ _ => false
  | _ => true

end Value

/-- Elements with distinct ids and what the key gives for each. -/
abbrev Locations (J : Type) := List (Text × Option (Value J))

inductive Element where
  | resource
  | subnet
  | securityGroup
  deriving DecidableEq

inductive Match where
  | equal
  | notEqual
  | «in»
  deriving DecidableEq

/-- The options of the filter. -/
structure Config where
  compare : List Element
  maxCardinality : Int
  missingOk : Bool
  value : List Text

/-- The entries of the evaluation, under their `reason`. -/
inductive Evaluation (J : Type) where
  | subnetLocationAbsent (subnets : Locations J)
  | subnetLocationCardinality (subnets : Locations J)
  | securityGroupLocationAbsent (securityGroups : Locations J)
  | securityGroupLocationCardinality (securityGroups : Locations J)
  | locationMismatch (subnets securityGroups : Locations J)
  | resourceLocationAbsent
  | resourceLocationMismatchGroups (resource : Option (Value J)) (securityGroups : Locations J)
  | resourceLocationMismatchSubnets (resource : Option (Value J)) (subnet : Locations J)
  | securityGroupMismatch (resource : Option (Value J)) (securityGroups : Locations J)

/-- A resource that is kept, with the annotation `c7n:NetworkLocation` that it gets. -/
structure Found (J : Type) where
  networkLocation : Option (List (Evaluation J))

/-- `filter(None, values.values())` -/
def found (values : Locations J) : List (Value J) := (values.filterMap Prod.snd).filter Value.truthy

/-- `set(filter(None, values.values()))` -/
def space (values : Locations J) : Except Exn (Finset (Value J)) :=
  if (found values).all Value.hashable then .ok (found values).toFinset else .error .typeError

/-- `None in values.values()` -/
def hasNone (values : Locations J) : Bool := values.any fun e => e.2.isNone

/-- `r_value in space` -/
def inSpace (rValue : Option (Value J)) (space : Finset (Value J)) : Except Exn Bool :=
  match rValue with
  | none => .ok false
  | some v => if v.hashable then .ok (v ∈ space) else .error .typeError

namespace Config

variable (c : Config)

/-- The checks of the elements of one kind. -/
def evaluateElements (absent cardinality : Locations J → Evaluation J) (values : Locations J)
    (space : Finset (Value J)) : List (Evaluation J) :=
  (if !c.missingOk && hasNone values then [absent values] else []) ++
    if space.card > c.maxCardinality then [cardinality values] else []

/-- The elements of a kind are compared and there are some. -/
def comparesTo (e : Element) (values : Locations J) : Bool := e ∈ c.compare && !values.isEmpty

/-- The resource is where the elements of a kind are, if it is compared with any. -/
def isWhere (rValue : Option (Value J)) (e : Element) (values : Locations J)
    (space : Finset (Value J)) : Except Exn Bool :=
  if c.comparesTo e values then inSpace rValue space else .ok true

/-- The first branches for the resource. -/
def evaluateResource (rValue : Option (Value J)) (sgs subnets : Locations J)
    (sgSpace subnetSpace : Finset (Value J)) : Except Exn (List (Evaluation J)) :=
  if !c.missingOk && rValue.isNone then .ok [.resourceLocationAbsent]
  else do
    let inGroups ← c.isWhere rValue .securityGroup sgs sgSpace
    if !inGroups then return [.resourceLocationMismatchGroups rValue sgs]
    let inSubnets ← c.isWhere rValue .subnet subnets subnetSpace
    return if inSubnets then [] else [.resourceLocationMismatchSubnets rValue subnets]

/-- `SecurityGroupMismatch` -/
def evaluateGroups (rValue : Option (Value J)) (sgs : Locations J) : List (Evaluation J) :=
  if c.comparesTo .securityGroup sgs then
    match sgs.filter fun e => e.2 ≠ rValue with
    | [] => []
    | mismatchedSgs => [.securityGroupMismatch rValue mismatchedSgs]
  else []

/-- The space of the elements of a kind that is compared. -/
def spaceOf (e : Element) (values : Locations J) : Except Exn (Finset (Value J)) :=
  if e ∈ c.compare then space values else .ok ∅

/-- What the subnets and the security groups add to the evaluation. -/
def evaluateLocations (sgs subnets : Locations J) (sgSpace subnetSpace : Finset (Value J)) :
    List (Evaluation J) :=
  (if .subnet ∈ c.compare then
      c.evaluateElements .subnetLocationAbsent .subnetLocationCardinality subnets subnetSpace
    else []) ++
  (if .securityGroup ∈ c.compare then
      c.evaluateElements .securityGroupLocationAbsent .securityGroupLocationCardinality sgs sgSpace
    else []) ++
  if .subnet ∈ c.compare ∧ .securityGroup ∈ c.compare ∧ sgSpace ≠ subnetSpace then
    [.locationMismatch subnets sgs]
  else []

/-- What the resource adds. -/
def evaluateCompared (rValue : Option (Value J)) (sgs subnets : Locations J)
    (sgSpace subnetSpace : Finset (Value J)) : Except Exn (List (Evaluation J)) :=
  if .resource ∈ c.compare then do
    let first ← c.evaluateResource rValue sgs subnets sgSpace subnetSpace
    return first ++ c.evaluateGroups rValue sgs
  else .ok []

/-- The evaluation of `process_resource`. -/
def evaluate (rValue : Option (Value J)) (sgs subnets : Locations J) :
    Except Exn (List (Evaluation J)) := do
  let subnetSpace ← c.spaceOf .subnet subnets
  let sgSpace ← c.spaceOf .securityGroup sgs
  let ofResource ← c.evaluateCompared rValue sgs subnets sgSpace subnetSpace
  return c.evaluateLocations sgs subnets sgSpace subnetSpace ++ ofResource

/-- The elements of a kind have locations among the values, where they are compared. -/
def elementsIn (e : Element) (values : Locations J) : Except Exn Bool :=
  if e ∈ c.compare then
    if !c.missingOk && hasNone values then .ok false
    else do
      let space ← space values
      return decide (space ⊆ (c.value.map Value.text).toFinset)
  else .ok true

/-- `process_match_in` -/
def processMatchIn (rValue : Option (Value J)) (sgs subnets : Locations J) :
    Except Exn (Option (Found J)) := do
  if !(← c.elementsIn .subnet subnets) then return none
  if !(← c.elementsIn .securityGroup sgs) then return none
  if .resource ∈ c.compare then
    if !c.missingOk && rValue.isNone then return none
    if !(← inSpace rValue (c.value.map Value.text).toFinset) then return none
  return some ⟨none⟩

/-- `process_resource`, with what the key gives for the resource. -/
def processResource (m : Match) (rValue : Option (Value J)) (sgs subnets : Locations J) :
    Except Exn (Option (Found J)) :=
  match m with
  | .in => c.processMatchIn rValue sgs subnets
  | .notEqual => do
    match ← c.evaluate rValue sgs subnets with
    | [] => return none
    | evaluation => return some ⟨some evaluation⟩
  | .equal => do
    match ← c.evaluate rValue sgs subnets with
    | [] => return some ⟨none⟩
    | _ => return none

end Config

/-! ## What is compared -/

/-- The locations of some elements. -/
def locations (values : Locations J) : Finset (Value J) := (found values).toFinset

def Hashable (values : Locations J) : Prop := ∀ v ∈ found values, v.hashable = true

/-- The elements that have the key. -/
def present (values : Locations J) : Locations J := values.filter fun e => e.2.isSome

namespace Config

variable (c : Config)

/-- No list or dictionary is compared. -/
structure Comparable (rValue : Option (Value J)) (sgs subnets : Locations J) : Prop where
  ofSubnets : .subnet ∈ c.compare → Hashable subnets
  ofGroups : .securityGroup ∈ c.compare → Hashable sgs
  ofResource : .resource ∈ c.compare →
    (c.comparesTo .securityGroup sgs = true ∨ c.comparesTo .subnet subnets = true) →
    ∀ v, rValue = some v → v.hashable = true

/-- The elements of a kind have the key, unless they need not, and not too many locations. -/
def ElementsAgree (values : Locations J) : Prop :=
  (c.missingOk = true ∨ hasNone values = false) ∧ (locations values).card ≤ c.maxCardinality

/-- The subnets and the security groups agree. -/
structure Base (sgs subnets : Locations J) : Prop where
  ofSubnets : .subnet ∈ c.compare → c.ElementsAgree subnets
  ofGroups : .securityGroup ∈ c.compare → c.ElementsAgree sgs
  ofBoth : .subnet ∈ c.compare → .securityGroup ∈ c.compare → locations sgs = locations subnets

/-- The value of a resource is one of some locations. -/
def IsIn (rValue : Option (Value J)) (locations : Finset (Value J)) : Prop :=
  ∃ v ∈ locations, rValue = some v

/-- The resource agrees with the security groups and the subnets. -/
structure ResourceAgrees (rValue : Option (Value J)) (sgs subnets : Locations J) : Prop where
  isPresent : c.missingOk = true ∨ rValue ≠ none
  inGroups : c.comparesTo .securityGroup sgs = true →
    IsIn rValue (locations sgs) ∧ ∀ e ∈ sgs, e.2 = rValue
  inSubnets : c.comparesTo .subnet subnets = true → IsIn rValue (locations subnets)

/-- Everything that is compared agrees. -/
def Agrees (rValue : Option (Value J)) (sgs subnets : Locations J) : Prop :=
  c.Base sgs subnets ∧ (.resource ∈ c.compare → c.ResourceAgrees rValue sgs subnets)

end Config

/-! ## Evaluation -/

/-- A computation that gives a result with a property under a condition, and else a `TypeError`. -/
def Gives {α : Type} (condition : Prop) (property : α → Prop) (x : Except Exn α) : Prop :=
  condition ∧ (∃ a, x = .ok a ∧ property a) ∨ ¬ condition ∧ x = .error .typeError

theorem gives_ok {α : Type} {P : α → Prop} {a : α} (h : P a) : Gives True P (.ok a) := Or.inl ⟨trivial, a, rfl, h⟩

theorem gives_bind {α β : Type} {p q : Prop} {P : α → Prop} {Q : β → Prop} {x : Except Exn α}
    {f : α → Except Exn β} (hx : Gives p P x) (hf : ∀ a, p → P a → Gives q Q (f a)) :
    Gives (p ∧ q) Q (x >>= f) := by
  rcases hx with ⟨hp, a, rfl, ha⟩ | ⟨hp, rfl⟩
  · rcases hf a hp ha with ⟨hq, b, hb, hQ⟩ | ⟨hq, he⟩
    · exact Or.inl ⟨⟨hp, hq⟩, b, hb, hQ⟩
    · exact Or.inr ⟨fun h => hq h.2, he⟩
  · exact Or.inr ⟨fun h => hp h.1, rfl⟩

theorem gives_congr {α : Type} {p q : Prop} {P Q : α → Prop} {x : Except Exn α} (h : Gives p P x)
    (hpq : p ↔ q) (hPQ : ∀ a, p → P a → Q a) : Gives q Q x := by
  rcases h with ⟨hp, a, ha, hPa⟩ | ⟨hp, he⟩
  · exact Or.inl ⟨hpq.mp hp, a, ha, hPQ a hp hPa⟩
  · exact Or.inr ⟨fun hq => hp (hpq.mpr hq), he⟩

theorem space_gives (values : Locations J) :
    Gives (Hashable values) (· = locations values) (space values) := by
  rw [space]
  split
  · next h => exact Or.inl ⟨List.all_eq_true.mp h, _, rfl, rfl⟩
  · next h => exact Or.inr ⟨fun hall => h (List.all_eq_true.mpr hall), rfl⟩

theorem inSpace_gives (rValue : Option (Value J)) (s : Finset (Value J)) :
    Gives (∀ v, rValue = some v → v.hashable = true) (fun b => b = true ↔ Config.IsIn rValue s)
      (inSpace rValue s) := by
  cases rValue with
  | none => exact Or.inl ⟨by simp, false, rfl, by simp [Config.IsIn]⟩
  | some v =>
    rw [inSpace]
    split
    · next hv => exact Or.inl ⟨by simpa using hv, _, rfl, by simp [Config.IsIn]⟩
    · next hv => exact Or.inr ⟨by simpa using hv, rfl⟩

namespace Config

variable {c : Config} {rValue : Option (Value J)} {sgs subnets : Locations J}

theorem spaceOf_gives (e : Element) (values : Locations J) :
    Gives (e ∈ c.compare → Hashable values) (fun s => e ∈ c.compare → s = locations values)
      (c.spaceOf e values) := by
  rw [spaceOf]
  split
  · next he =>
    exact gives_congr (space_gives values) ⟨fun h _ => h, fun h => h he⟩ fun s _ hs _ => hs
  · next he => exact Or.inl ⟨fun h => absurd h he, ∅, rfl, fun h => absurd h he⟩

omit [DecidableEq J] in
theorem evaluateElements_eq_nil_iff {absent cardinality : Locations J → Evaluation J}
    {values : Locations J} {s : Finset (Value J)} :
    c.evaluateElements absent cardinality values s = [] ↔
      (c.missingOk = true ∨ hasNone values = false) ∧ s.card ≤ c.maxCardinality := by
  rw [evaluateElements, List.append_eq_nil_iff]
  refine and_congr ?_ ?_
  · cases c.missingOk <;> cases hasNone values <;> simp
  · split
    · next h => simp [h]
    · next h => simp [not_lt.mp h]

theorem evaluateGroups_eq_nil_iff : c.evaluateGroups rValue sgs = [] ↔
    (c.comparesTo .securityGroup sgs = true → ∀ e ∈ sgs, e.2 = rValue) := by
  rw [evaluateGroups]
  split
  · next hc =>
    split
    · next h =>
      rw [List.filter_eq_nil_iff] at h
      simpa [hc] using h
    · next h =>
      simp only [reduceCtorEq, hc, true_imp_iff, false_iff]
      refine fun hall => h (List.filter_eq_nil_iff.mpr fun e he => ?_)
      simpa using hall e he
  · next hc => simp [hc]

theorem isWhere_gives (rValue : Option (Value J)) (e : Element) (values : Locations J)
    (s : Finset (Value J)) :
    Gives (c.comparesTo e values = true → ∀ v, rValue = some v → v.hashable = true)
      (fun b => b = true ↔ (c.comparesTo e values = true → IsIn rValue s))
      (c.isWhere rValue e values s) := by
  rw [isWhere]
  split
  · next h => exact gives_congr (inSpace_gives rValue s) (by simp [h]) fun b _ hb => by simpa [h]
  · next h => exact Or.inl ⟨fun hc => absurd hc h, true, rfl, by simp [h]⟩

theorem evaluateResource_gives {sgSpace subnetSpace : Finset (Value J)} :
    Gives (c.comparesTo .securityGroup sgs = true ∨ c.comparesTo .subnet subnets = true →
        ∀ v, rValue = some v → v.hashable = true)
      (fun ev => ev = [] ↔ (c.missingOk = true ∨ rValue ≠ none) ∧
        (c.comparesTo .securityGroup sgs = true → IsIn rValue sgSpace) ∧
        (c.comparesTo .subnet subnets = true → IsIn rValue subnetSpace))
      (c.evaluateResource rValue sgs subnets sgSpace subnetSpace) := by
  rw [evaluateResource]
  split
  · next h =>
    rw [Bool.and_eq_true, Bool.not_eq_true', Option.isNone_iff_eq_none] at h
    exact Or.inl ⟨by simp [h.2], _, rfl, by simp [h]⟩
  · next h =>
    have hpresent : c.missingOk = true ∨ rValue ≠ none := by
      cases hm : c.missingOk <;> cases rValue <;> simp_all
    refine gives_congr (gives_bind
      (isWhere_gives rValue .securityGroup sgs sgSpace) fun inGroups hp hb => show Gives
        (c.comparesTo .subnet subnets = true → ∀ v, rValue = some v → v.hashable = true)
        (fun ev => ev = [] ↔ (c.comparesTo .securityGroup sgs = true → IsIn rValue sgSpace) ∧
          (c.comparesTo .subnet subnets = true → IsIn rValue subnetSpace)) _ from ?_) ?_ ?_
    · cases inGroups with
      | false =>
        -- the resource is not where the groups are, so it was compared with them
        have hno : ¬ (c.comparesTo .securityGroup sgs = true → IsIn rValue sgSpace) := by
          simpa using hb
        have hgroups : c.comparesTo .securityGroup sgs = true := by
          by_contra hg
          exact hno fun h => absurd h hg
        exact Or.inl ⟨fun _ => hp hgroups, _, rfl, by simp [hno]⟩
      | true =>
        refine gives_congr (gives_bind (isWhere_gives rValue .subnet subnets subnetSpace)
          fun inSubnets _ hs => gives_ok (P := fun ev => ev = [] ↔
              (c.comparesTo .subnet subnets = true → IsIn rValue subnetSpace)) ?_)
          (and_iff_left trivial) fun ev _ hev => ?_
        · rw [← hs]
          cases inSubnets <;> simp
        · exact hev.trans (and_iff_right (hb.mp rfl)).symm
    · rw [or_imp]
    · intro ev _ hev
      rw [hev]
      simp [hpresent]

theorem evaluateLocations_eq_nil_iff {sgSpace subnetSpace : Finset (Value J)}
    (hs : .subnet ∈ c.compare → subnetSpace = locations subnets)
    (hg : .securityGroup ∈ c.compare → sgSpace = locations sgs) :
    c.evaluateLocations sgs subnets sgSpace subnetSpace = [] ↔ c.Base sgs subnets := by
  rw [evaluateLocations, List.append_eq_nil_iff, List.append_eq_nil_iff]
  by_cases hcs : Element.subnet ∈ c.compare
  · obtain rfl := hs hcs
    by_cases hcg : Element.securityGroup ∈ c.compare
    · obtain rfl := hg hcg
      simp only [hcs, hcg, if_true, evaluateElements_eq_nil_iff, true_and, ite_eq_right_iff,
        reduceCtorEq, imp_false, not_not]
      exact ⟨fun h => ⟨fun _ => h.1.1, fun _ => h.1.2, fun _ _ => h.2⟩, fun h =>
        ⟨⟨h.ofSubnets hcs, h.ofGroups hcg⟩, h.ofBoth hcs hcg⟩⟩
    · simp only [hcs, hcg, if_true, if_false, evaluateElements_eq_nil_iff, false_and, and_false,
        and_true]
      exact ⟨fun h => ⟨fun _ => h, fun h => absurd h hcg, fun _ h => absurd h hcg⟩, fun h =>
        h.ofSubnets hcs⟩
  · by_cases hcg : Element.securityGroup ∈ c.compare
    · obtain rfl := hg hcg
      simp only [hcs, hcg, if_true, if_false, evaluateElements_eq_nil_iff, false_and, and_true,
        true_and]
      exact ⟨fun h => ⟨fun h => absurd h hcs, fun _ => h, fun h => absurd h hcs⟩, fun h =>
        h.ofGroups hcg⟩
    · simp only [hcs, hcg, if_false, false_and, and_true, true_iff]
      exact ⟨fun h => absurd h hcs, fun h => absurd h hcg, fun h => absurd h hcs⟩

theorem evaluateCompared_gives {sgSpace subnetSpace : Finset (Value J)}
    (hs : .subnet ∈ c.compare → subnetSpace = locations subnets)
    (hg : .securityGroup ∈ c.compare → sgSpace = locations sgs) :
    Gives (.resource ∈ c.compare →
        (c.comparesTo .securityGroup sgs = true ∨ c.comparesTo .subnet subnets = true) →
        ∀ v, rValue = some v → v.hashable = true)
      (fun ev => ev = [] ↔ (.resource ∈ c.compare → c.ResourceAgrees rValue sgs subnets))
      (c.evaluateCompared rValue sgs subnets sgSpace subnetSpace) := by
  rw [evaluateCompared]
  split
  · next hr =>
    refine gives_congr (gives_bind evaluateResource_gives fun ev _ hev => gives_ok
      (P := fun ev => ev = [] ↔ c.ResourceAgrees rValue sgs subnets) ?_) (by simp [hr]) ?_
    · rw [List.append_eq_nil_iff, hev, evaluateGroups_eq_nil_iff]
      have hsub : c.comparesTo .subnet subnets = true → subnetSpace = locations subnets := fun h =>
        hs (by simpa using (Bool.and_eq_true_iff.mp h).1)
      have hgroup : c.comparesTo .securityGroup sgs = true → sgSpace = locations sgs := fun h =>
        hg (by simpa using (Bool.and_eq_true_iff.mp h).1)
      constructor
      · rintro ⟨⟨hp, h₁, h₂⟩, h₃⟩
        exact ⟨hp, fun h => ⟨hgroup h ▸ h₁ h, h₃ h⟩, fun h => hsub h ▸ h₂ h⟩
      · rintro ⟨hp, h₁, h₂⟩
        exact ⟨⟨hp, fun h => (hgroup h).symm ▸ (h₁ h).1, fun h => (hsub h).symm ▸ h₂ h⟩,
          fun h => (h₁ h).2⟩
    · exact fun ev _ hev => by simpa [hr] using hev
  · next hr => exact Or.inl ⟨fun h => absurd h hr, [], rfl, by simp [hr]⟩

theorem evaluate_gives (c : Config) (rValue : Option (Value J)) (sgs subnets : Locations J) :
    Gives (c.Comparable rValue sgs subnets) (fun ev => ev = [] ↔ c.Agrees rValue sgs subnets)
      (c.evaluate rValue sgs subnets) := by
  refine gives_congr (gives_bind (spaceOf_gives .subnet subnets) fun subnetSpace _ hs =>
    gives_bind (spaceOf_gives .securityGroup sgs) fun sgSpace _ hg =>
      gives_bind (evaluateCompared_gives hs hg) fun ev _ hev => gives_ok
        (P := fun ev => ev = [] ↔ c.Agrees rValue sgs subnets) ?_) ?_ fun _ _ => id
  · rw [List.append_eq_nil_iff, hev, evaluateLocations_eq_nil_iff hs hg, Agrees]
  · exact ⟨fun h => ⟨h.1, h.2.1, h.2.2.1⟩, fun h => ⟨h.ofSubnets, h.ofGroups, h.ofResource, trivial⟩⟩

/-! ## Verdicts -/

/-- Whether `process_resource` keeps the resource. -/
def verdict (c : Config) (m : Match) (rValue : Option (Value J)) (sgs subnets : Locations J) :
    Except Exn Bool := (c.processResource m rValue sgs subnets).map Option.isSome

theorem verdict_equal_gives (c : Config) (rValue : Option (Value J)) (sgs subnets : Locations J) :
    Gives (c.Comparable rValue sgs subnets) (fun b => b = true ↔ c.Agrees rValue sgs subnets)
      (c.verdict .equal rValue sgs subnets) := by
  rcases evaluate_gives c rValue sgs subnets with ⟨hc, ev, hev, hnil⟩ | ⟨hc, he⟩
  · refine Or.inl ⟨hc, ev.isEmpty, ?_, ?_⟩
    · rw [verdict, processResource, hev]
      cases ev <;> rfl
    · exact List.isEmpty_iff.trans hnil
  · refine Or.inr ⟨hc, ?_⟩
    rw [verdict, processResource, he]
    rfl

theorem verdict_notEqual (c : Config) (rValue : Option (Value J)) (sgs subnets : Locations J) :
    c.verdict .notEqual rValue sgs subnets = (c.verdict .equal rValue sgs subnets).map (!·) := by
  rw [verdict, verdict, processResource, processResource]
  cases c.evaluate rValue sgs subnets with
  | error e => rfl
  | ok ev => cases ev <;> rfl

theorem verdict_equal_eq_iff {c' : Config} {sgs' subnets' : Locations J}
    (h : c.Comparable rValue sgs subnets) (h' : c'.Comparable rValue sgs' subnets') :
    c.verdict .equal rValue sgs subnets = c'.verdict .equal rValue sgs' subnets' ↔
      (c.Agrees rValue sgs subnets ↔ c'.Agrees rValue sgs' subnets') := by
  rcases verdict_equal_gives c rValue sgs subnets with ⟨-, b, hb, hiff⟩ | ⟨hn, -⟩
  · rcases verdict_equal_gives c' rValue sgs' subnets' with ⟨-, b', hb', hiff'⟩ | ⟨hn, -⟩
    · rw [hb, hb', Except.ok.injEq, Bool.eq_iff_iff, hiff, hiff']
    · exact absurd h' hn
  · exact absurd h hn

/-! ## Elements without the key -/

/-- `resource` is left out of the comparison where the key is missing on the resource. -/
def reduced (c : Config) (rValue : Option (Value J)) : Config :=
  if rValue.isNone then { c with compare := c.compare.filter (· ≠ .resource) } else c

/-- The locations are all in the list of values. -/
def Listed (c : Config) (e : Element) (values : Locations J) : Prop :=
  e ∈ c.compare → locations values ⊆ (c.value.map Value.text).toFinset

/-- Everything agrees but for an element without the key that the resource is compared with: the
resource itself or a security group, or subnets none of which has the key. -/
def BreaksEqual (c : Config) (rValue : Option (Value J)) (sgs subnets : Locations J) : Prop :=
  .resource ∈ c.compare ∧ c.Base sgs subnets ∧
    match rValue with
    | none => c.comparesTo .securityGroup sgs = true ∨ c.comparesTo .subnet subnets = true
    | some v => c.ResourceAgrees (some v) (present sgs) (present subnets) ∧
        (.securityGroup ∈ c.compare ∧ hasNone sgs = true ∨
          c.comparesTo .subnet subnets = true ∧ present subnets = [])

/-- All is in the list of values but the resource, which does not have the key. -/
def BreaksIn (c : Config) (rValue : Option (Value J)) (sgs subnets : Locations J) : Prop :=
  .resource ∈ c.compare ∧ rValue = none ∧ c.Listed .subnet subnets ∧ c.Listed .securityGroup sgs

/-- With `missing-ok` an element without the key does not change a verdict, and one of `equal`
and `not-equal` keeps the resource. -/
def Honours (c : Config) (rValue : Option (Value J)) (sgs subnets : Locations J) : Prop :=
  (c.missingOk = true → ∀ m, c.verdict m rValue sgs subnets =
    (c.reduced rValue).verdict m rValue (present sgs) (present subnets)) ∧
  ∃ kept, c.verdict .equal rValue sgs subnets = .ok kept ∧
    c.verdict .notEqual rValue sgs subnets = .ok (!kept)

omit [DecidableEq J] in
theorem found_present (values : Locations J) : found (present values) = found values := by
  rw [found, found, present, List.filterMap_filter]
  congr 1
  refine List.filterMap_congr fun e _ => ?_
  cases e.2 <;> rfl

theorem locations_present (values : Locations J) :
    locations (present values) = locations values := by rw [locations, locations, found_present]

theorem space_present (values : Locations J) : space (present values) = space values := by
  rw [space, space, found_present]

omit [DecidableEq J] in
theorem hashable_present {values : Locations J} : Hashable (present values) ↔ Hashable values := by
  rw [Hashable, Hashable, found_present]

omit [DecidableEq J] in
theorem comparesTo_iff {e : Element} {values : Locations J} :
    c.comparesTo e values = true ↔ e ∈ c.compare ∧ values ≠ [] := by
  rw [comparesTo, Bool.and_eq_true, decide_eq_true_iff]
  cases values <;> simp

omit [DecidableEq J] in
theorem comparesTo_of_present {e : Element} {values : Locations J}
    (h : c.comparesTo e (present values) = true) : c.comparesTo e values = true := by
  rw [comparesTo_iff] at *
  refine ⟨h.1, ?_⟩
  rintro rfl
  exact h.2 rfl

omit [DecidableEq J] in
theorem mem_reduced {e : Element} (he : e ≠ .resource) :
    e ∈ (c.reduced rValue).compare ↔ e ∈ c.compare := by
  rw [reduced]
  split
  · simp [he]
  · rfl

omit [DecidableEq J] in
theorem resource_mem_reduced :
    .resource ∈ (c.reduced rValue).compare ↔ .resource ∈ c.compare ∧ rValue ≠ none := by
  cases rValue <;> simp [reduced]

omit [DecidableEq J] in
theorem reduced_missingOk : (c.reduced rValue).missingOk = c.missingOk := by
  rw [reduced]
  split <;> rfl

omit [DecidableEq J] in
theorem reduced_maxCardinality : (c.reduced rValue).maxCardinality = c.maxCardinality := by
  rw [reduced]
  split <;> rfl

omit [DecidableEq J] in
theorem reduced_some (v : Value J) : c.reduced (some v) = c := rfl

omit [DecidableEq J] in
theorem comparesTo_reduced {e : Element} (he : e ≠ .resource) {values : Locations J} :
    (c.reduced rValue).comparesTo e values = true ↔ c.comparesTo e values = true := by
  rw [comparesTo_iff, comparesTo_iff, mem_reduced he]

omit [DecidableEq J] in
theorem comparable_reduced (h : c.Comparable rValue sgs subnets) :
    (c.reduced rValue).Comparable rValue (present sgs) (present subnets) where
  ofSubnets hs := hashable_present.mpr (h.ofSubnets ((mem_reduced (by decide)).mp hs))
  ofGroups hg := hashable_present.mpr (h.ofGroups ((mem_reduced (by decide)).mp hg))
  ofResource hr hcompared := by
    refine h.ofResource (resource_mem_reduced.mp hr).1 (hcompared.imp (fun hg => ?_) fun hs => ?_)
    · exact comparesTo_of_present ((comparesTo_reduced (by decide)).mp hg)
    · exact comparesTo_of_present ((comparesTo_reduced (by decide)).mp hs)

theorem elementsAgree_present (hm : c.missingOk = true) (values : Locations J) :
    (c.reduced rValue).ElementsAgree (present values) ↔ c.ElementsAgree values := by
  rw [ElementsAgree, ElementsAgree, reduced_missingOk, reduced_maxCardinality, locations_present]
  simp [hm]

theorem base_reduced (hm : c.missingOk = true) :
    (c.reduced rValue).Base (present sgs) (present subnets) ↔ c.Base sgs subnets := by
  have hs : .subnet ∈ (c.reduced rValue).compare ↔ .subnet ∈ c.compare := mem_reduced (by decide)
  have hg : .securityGroup ∈ (c.reduced rValue).compare ↔ .securityGroup ∈ c.compare :=
    mem_reduced (by decide)
  constructor
  · rintro ⟨h₁, h₂, h₃⟩
    rw [locations_present, locations_present] at h₃
    exact ⟨fun h => (elementsAgree_present hm _).mp (h₁ (hs.mpr h)),
      fun h => (elementsAgree_present hm _).mp (h₂ (hg.mpr h)),
      fun h h' => h₃ (hs.mpr h) (hg.mpr h')⟩
  · rintro ⟨h₁, h₂, h₃⟩
    refine ⟨fun h => (elementsAgree_present hm _).mpr (h₁ (hs.mp h)),
      fun h => (elementsAgree_present hm _).mpr (h₂ (hg.mp h)), fun h h' => ?_⟩
    rw [locations_present, locations_present]
    exact h₃ (hs.mp h) (hg.mp h')

theorem resourceAgrees_present (h : c.ResourceAgrees rValue sgs subnets) :
    c.ResourceAgrees rValue (present sgs) (present subnets) where
  isPresent := h.isPresent
  inGroups hg := by
    obtain ⟨hin, hall⟩ := h.inGroups (comparesTo_of_present hg)
    rw [locations_present]
    exact ⟨hin, fun e he => hall e (List.mem_of_mem_filter he)⟩
  inSubnets hs := by
    rw [locations_present]
    exact h.inSubnets (comparesTo_of_present hs)

omit [DecidableEq J] in
theorem present_eq_self (h : hasNone sgs = false) : present sgs = sgs := by
  refine List.filter_eq_self.mpr fun e he => ?_
  have hnone := List.any_eq_false.mp h e he
  cases hv : e.2 with
  | none => simp [hv] at hnone
  | some v => rfl

theorem not_resourceAgrees_iff {v : Value J}
    (h : c.ResourceAgrees (some v) (present sgs) (present subnets)) :
    ¬ c.ResourceAgrees (some v) sgs subnets ↔
      (.securityGroup ∈ c.compare ∧ hasNone sgs = true ∨
        c.comparesTo .subnet subnets = true ∧ present subnets = []) := by
  constructor
  · intro hno
    by_contra hneither
    rw [not_or] at hneither
    refine hno ⟨h.isPresent, fun hg => ?_, fun hs => ?_⟩
    · have hnone : hasNone sgs = false := by
        rw [← Bool.not_eq_true]
        exact fun hnone => hneither.1 ⟨(comparesTo_iff.mp hg).1, hnone⟩
      have hall := h.inGroups
      rw [present_eq_self hnone] at hall
      exact hall hg
    · have hsome : c.comparesTo .subnet (present subnets) = true :=
        comparesTo_iff.mpr ⟨(comparesTo_iff.mp hs).1, fun hnil => hneither.2 ⟨hs, hnil⟩⟩
      have hin := h.inSubnets hsome
      rwa [locations_present] at hin
  · rintro (⟨hg, hnone⟩ | ⟨hs, hnil⟩) hagrees
    · obtain ⟨e, he, hv⟩ := List.any_eq_true.mp hnone
      have hne : sgs ≠ [] := by
        rintro rfl
        cases he
      have hall := (hagrees.inGroups (comparesTo_iff.mpr ⟨hg, hne⟩)).2 e he
      rw [hall] at hv
      cases hv
    · obtain ⟨v', hv', -⟩ := hagrees.inSubnets hs
      rw [← locations_present, hnil] at hv'
      exact absurd hv' (by simp [locations, found])

theorem agree_alike_iff {base compared own reduced : Prop} (h : own → reduced) :
    (base ∧ (compared → own) ↔ base ∧ (compared → reduced)) ↔
      ¬ (compared ∧ base ∧ reduced ∧ ¬ own) := by
  constructor
  · rintro heq ⟨hcompared, hbase, hreduced, hown⟩
    exact hown ((heq.mpr ⟨hbase, fun _ => hreduced⟩).2 hcompared)
  · intro hno
    refine and_congr_right fun hbase => forall_congr' fun hcompared => ⟨h, fun hreduced => ?_⟩
    by_contra hown
    exact hno ⟨hcompared, hbase, hreduced, hown⟩

theorem agrees_reduced_iff (hm : c.missingOk = true) :
    (c.Agrees rValue sgs subnets ↔
      (c.reduced rValue).Agrees rValue (present sgs) (present subnets)) ↔
      ¬ c.BreaksEqual rValue sgs subnets := by
  rw [Agrees, Agrees, base_reduced hm, resource_mem_reduced]
  unfold BreaksEqual
  cases rValue with
  | none =>
    have hagrees : c.ResourceAgrees none sgs subnets ↔
        ¬ (c.comparesTo .securityGroup sgs = true ∨ c.comparesTo .subnet subnets = true) := by
      constructor
      · rintro ⟨-, h₁, h₂⟩ (hg | hs)
        · obtain ⟨⟨_, _, hv⟩, -⟩ := h₁ hg
          cases hv
        · obtain ⟨_, _, hv⟩ := h₂ hs
          cases hv
      · rw [not_or]
        exact fun h => ⟨Or.inl hm, fun hg => absurd hg h.1, fun hs => absurd hs h.2⟩
    have halike := @agree_alike_iff (c.Base sgs subnets) (.resource ∈ c.compare) _ True
      fun _ : c.ResourceAgrees none sgs subnets => trivial
    simp only [hagrees, implies_true, true_and, not_not] at halike
    simp only [hagrees, ne_eq, not_true_eq_false, and_false, false_imp_iff]
    exact halike
  | some v =>
    have halike := @agree_alike_iff (c.Base sgs subnets) (.resource ∈ c.compare) _ _
      fun h : c.ResourceAgrees (some v) sgs subnets => resourceAgrees_present h
    simp only [reduced_some, ne_eq, reduceCtorEq, not_false_eq_true, and_true, halike]
    refine not_congr (and_congr_right fun _ => and_congr_right fun _ => ?_)
    exact and_congr_right not_resourceAgrees_iff

/-! ## The match `in` -/

theorem elementsIn_gives (hm : c.missingOk = true) (e : Element) (values : Locations J) :
    Gives (e ∈ c.compare → Hashable values) (fun b => b = true ↔ c.Listed e values)
      (c.elementsIn e values) := by
  rw [elementsIn]
  split
  · next he =>
    rw [if_neg (by simp [hm])]
    refine gives_congr (gives_bind (space_gives values) fun s _ hs => gives_ok
      (P := fun b => b = true ↔ c.Listed e values) ?_) (by simp [he]) fun _ _ => id
    rw [hs, Listed]
    simp [he]
  · next he => exact Or.inl ⟨fun h => absurd h he, true, rfl, by simp [Listed, he]⟩

theorem elementsIn_reduced (hm : c.missingOk = true) {e : Element} (he : e ≠ .resource)
    (values : Locations J) :
    (c.reduced rValue).elementsIn e (present values) = c.elementsIn e values := by
  have hvalue : (c.reduced rValue).value = c.value := by
    rw [reduced]
    split <;> rfl
  simp only [elementsIn, mem_reduced he, reduced_missingOk, hm, space_present, hvalue,
    Bool.not_true, Bool.false_and, Bool.false_eq_true, if_false]

theorem verdict_in_eq_iff (hm : c.missingOk = true) (h : c.Comparable rValue sgs subnets) :
    c.verdict .in rValue sgs subnets =
      (c.reduced rValue).verdict .in rValue (present sgs) (present subnets) ↔
      ¬ c.BreaksIn rValue sgs subnets := by
  rw [verdict, verdict, processResource, processResource, processMatchIn, processMatchIn,
    elementsIn_reduced hm (by decide), elementsIn_reduced hm (by decide), BreaksIn]
  cases rValue with
  | some v => simp [reduced_some]
  | none =>
    rcases elementsIn_gives hm .subnet subnets with ⟨-, b, hb, hiff⟩ | ⟨hn, -⟩
    · rcases elementsIn_gives hm .securityGroup sgs with ⟨-, b', hb', hiff'⟩ | ⟨hn, -⟩
      · rw [hb, hb', ← hiff, ← hiff']
        by_cases hr : Element.resource ∈ c.compare <;> cases b <;> cases b' <;>
          simp [hr, resource_mem_reduced, inSpace, Except.map, pure, Except.pure, bind, Except.bind]
      · exact absurd h.ofGroups hn
    · exact absurd h.ofSubnets hn

/-! ## When missing keys do not matter -/

/-- **Missing keys.**  Elements without the key do not change a verdict, and one of `equal` and
`not-equal` keeps the resource, exactly where no lists or dictionaries are compared and nothing
but an element without the key disagrees with the resource. -/
theorem honours_missingOk_iff (c : Config) (rValue : Option (Value J)) (sgs subnets : Locations J) :
    c.Honours rValue sgs subnets ↔ c.Comparable rValue sgs subnets ∧
      (c.missingOk = true →
        ¬ c.BreaksEqual rValue sgs subnets ∧ ¬ c.BreaksIn rValue sgs subnets) := by
  rw [Honours]
  constructor
  · rintro ⟨hsame, kept, hkept, -⟩
    have hc : c.Comparable rValue sgs subnets := by
      rcases verdict_equal_gives c rValue sgs subnets with ⟨hc, -⟩ | ⟨-, he⟩
      · exact hc
      · rw [he] at hkept
        cases hkept
    refine ⟨hc, fun hm => ⟨?_, (verdict_in_eq_iff hm hc).mp (hsame hm .in)⟩⟩
    rw [← agrees_reduced_iff hm, ← verdict_equal_eq_iff hc (comparable_reduced hc)]
    exact hsame hm .equal
  · rintro ⟨hc, hbreaks⟩
    have hequal : c.missingOk = true → c.verdict .equal rValue sgs subnets =
        (c.reduced rValue).verdict .equal rValue (present sgs) (present subnets) := fun hm =>
      (verdict_equal_eq_iff hc (comparable_reduced hc)).mpr
        ((agrees_reduced_iff hm).mpr (hbreaks hm).1)
    refine ⟨fun hm m => ?_, ?_⟩
    · cases m with
      | equal => exact hequal hm
      | notEqual => rw [verdict_notEqual, verdict_notEqual, hequal hm]
      | «in» => exact (verdict_in_eq_iff hm hc).mpr (hbreaks hm).2
    · rcases verdict_equal_gives c rValue sgs subnets with ⟨-, b, hb, -⟩ | ⟨hn, -⟩
      · exact ⟨b, hb, by rw [verdict_notEqual, hb]; rfl⟩
      · exact absurd hc hn

end Config

/-- The resource lacks the key, and its subnet has it. -/
def untaggedResource : Config where
  compare := [.resource, .subnet]
  maxCardinality := 1
  missingOk := true
  value := []

def taggedSubnet : Locations Unit := [("subnet-1".toList, some (.text "prod".toList))]

/-- With `missing-ok` the resource is kept as not equal, though all that has the key agrees. -/
theorem untaggedResource_not_honours : ¬ untaggedResource.Honours none [] taggedSubnet := by
  rintro ⟨hsame, -⟩
  have h := hsame rfl .equal
  revert h
  decide

end Custodian.NetworkLocation

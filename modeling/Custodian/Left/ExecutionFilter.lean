import Custodian.Lib.Except
import Custodian.Lib.Glob
import Custodian.Lib.Selection
import Custodian.Lib.Split

/-!
# Execution filters

`ExecutionFilter` and `PolicyMetadata` of `c7n_left/core.py`.
-/

namespace Custodian.ExecutionFilter

open Py

/-! ## Policies -/

/-- An element of a list under `metadata`. -/
inductive Element where
  | text (s : Text)
  | other
  deriving DecidableEq

/-- A value under `metadata`. -/
inductive MetaValue where
  | text (s : Text)
  | list (elements : List Element)
  | other
  deriving DecidableEq

/-- A policy: its name, which is not empty, and two values of its `metadata`. -/
structure Policy where
  name : Text
  name_ne : name ≠ []
  severity : Option MetaValue
  category : Option MetaValue
  deriving DecidableEq

/-- The name of a resource type. -/
structure ResourceType where
  name : Text
  name_ne : name ≠ []

/-- `SEVERITY_LEVELS` -/
def severityLevels : List (Text × Nat) :=
  [("critical".toList, 0), ("high".toList, 10), ("medium".toList, 20), ("low".toList, 30),
    ("unknown".toList, 40)]

/-- `SEVERITY_LEVELS["unknown"]` -/
def unknownLevel : Nat := 40

/-- `PolicyMetadata.categories` -/
def categories (p : Policy) : List Element :=
  match p.category.getD (.list []) with
  | .text s => [.text s]
  | .list (.other :: _) => []
  | .list elements => elements
  | .other => []

/-- `PolicyMetadata.severity` -/
def severity (t : CaseTable) (p : Policy) : Text :=
  match p.severity.getD (.text "unknown".toList) with
  | .text s => t.lower s
  | _ => []

/-! ## Filters -/

/-- `supported_filters` -/
inductive FilterName where
  | policy
  | type
  | severity
  | category
  | id
  deriving DecidableEq

def FilterName.ofText (k : Text) : Option FilterName :=
  [("policy", .policy), ("type", .type), ("severity", .severity), ("category", .category),
    ("id", .id)].findSome? fun e : String × FilterName => if e.1.toList = k then some e.2 else none

/-- `severity_op_map` -/
inductive SeverityOp where
  | lte
  | gte
  deriving DecidableEq

def SeverityOp.test : SeverityOp → Nat → Nat → Bool
  | .lte, a, b => a ≤ b
  | .gte, a, b => a ≥ b

/-- An `ExecutionFilter`; its severities have passed `_validate_severities`. -/
structure Filters where
  filters : FilterName → List Text
  severityOp : SeverityOp
  severities_valid : ∀ s ∈ filters .severity, (severityLevels.lookup s).isSome

/-- A value that patterns are matched with. -/
inductive Attribute where
  | text (s : Text)
  | list (elements : List Element)

/-- `for el in v: if fnmatch.fnmatch(el, f)` -/
def matchElements (f : Text) : List Element → Except Exn Bool
  | [] => .ok false
  | .text s :: elements => if Glob.fnmatch s f then .ok true else matchElements f elements
  | .other :: _ => .error .typeError

/-- One item and one pattern of `filter_attribute`. -/
def matchAttribute (f : Text) : Attribute → Except Exn Bool
  | .text s => .ok (s ≠ [] && Glob.fnmatch s f)
  | .list elements => matchElements f elements

/-- The items that satisfy a test that may raise. -/
def matching {α : Type} (p : α → Except Exn Bool) : List α → Except Exn (List α)
  | [] => .ok []
  | x :: xs => do
    let b ← p x
    let rest ← matching p xs
    pure (if b then x :: rest else rest)

/-- `filter_attribute` -/
def filterAttribute {α : Type} (patterns : List Text) (op : α → Attribute)
    (items : List α) : Except Exn (List α) :=
  if patterns = [] ∨ items = [] then .ok items
  else do
    let results ← patterns.mapM fun f => matching (fun i => matchAttribute f (op i)) items
    pure results.flatten

/-- `filter_severity`; `or` also replaces the level 0. -/
def filterSeverity (t : CaseTable) (op : SeverityOp) (f : Text) (p : Policy) : Bool :=
  let level := (severityLevels.lookup (severity t p)).getD 0
  let pLevel := if level = 0 then unknownLevel else level
  op.test pLevel ((severityLevels.lookup f).getD 0)

/-- `_filter_policy_severity` -/
def filterPolicySeverity (t : CaseTable) (F : Filters) (policies : List Policy) : List Policy :=
  match F.filters .severity with
  | [] => policies
  | [f] => policies.filter (filterSeverity t F.severityOp f)
  | fs => policies.filter fun p =>
      (if severity t p = [] then "unknown".toList else severity t p) ∈ fs

/-- `filter_policies` -/
def filterPolicies (t : CaseTable) (F : Filters) (policies : List Policy) :
    Except Exn (List Policy) := do
  let policies ← filterAttribute (F.filters .policy) (fun p => .text p.name) policies
  let policies ← filterAttribute (F.filters .category) (fun p => .list (categories p)) policies
  pure (filterPolicySeverity t F policies)

variable {R : Type}

/-- `r["__tfmeta"]["path"].split(".", 1)[-1]` -/
def resourceId (path : Text) : Text := (splitMax '.' 1 path).getLast?.getD []

/-- `_filter_resource_id` -/
def filterResourceId (F : Filters) (path : R → Text) (resources : List R) : List R :=
  if F.filters .id = [] then resources
  else resources.flatMap fun r =>
    ((F.filters .id).filter fun idf => Glob.fnmatch (resourceId (path r)) idf).map fun _ => r

/-- `filter_resources` -/
def filterResources (F : Filters) (path : R → Text) (rtype : ResourceType) (resources : List R) :
    Except Exn (List R) := do
  let types ← filterAttribute (F.filters .type) Attribute.text [rtype.name]
  pure (if types = [] then [] else filterResourceId F path resources)

/-! ## Parsing -/

/-- The default of a filter that is not given. -/
def noFilters : FilterName → List Text := fun _ => []

/-- One `key=value` of `parse`; a later one replaces an earlier one. -/
def addFilter (filters : FilterName → List Text) (kv : Text) :
    Except Exn (FilterName → List Text) :=
  match kv.splitOn '=' with
  | [k, v] =>
    match FilterName.ofText k with
    | some name => .ok fun n => if n = name then v.splitOn ',' else filters n
    | none => .error (.raised "ValueError".toList)
  | _ => .error (.raised "ValueError".toList)

/-- `parse`; without an expression the direction is the default one. -/
def parse (filtersConfig : Option Text) (severityDirection : SeverityOp) : Except Exn Filters :=
  match filtersConfig.getD [] with
  | [] => .ok ⟨noFilters, .lte, by simp [noFilters]⟩
  | config => do
    let filters ← (config.splitOn ' ').foldlM addFilter noFilters
    if h : ∀ s ∈ filters .severity, (severityLevels.lookup s).isSome then
      pure ⟨filters, severityDirection, h⟩
    else .error (.raised "ValueError".toList)

/-! ## What is to be selected -/

/-- No pattern is given, or one of them holds. -/
def anyOf (patterns : List Text) (holds : Text → Bool) : Bool :=
  patterns = [] || patterns.any holds

def nameMatches (p : Policy) (f : Text) : Bool := Glob.fnmatch p.name f

def Element.Matches (f : Text) : Element → Bool
  | .text s => Glob.fnmatch s f
  | .other => false

/-- One of the categories matches. -/
def categoryMatches (p : Policy) (f : Text) : Bool := (categories p).any (Element.Matches f)

/-- The severity of a policy, where one that is not known counts as unknown. -/
def effectiveSeverity (t : CaseTable) (p : Policy) : Text :=
  if (severityLevels.lookup (severity t p)).isSome then severity t p else "unknown".toList

/-- The level of a known severity; critical has the least one. -/
def levelOf (s : Text) : Nat := (severityLevels.lookup s).getD unknownLevel

/-- The severity is wanted: as severe as a single given one, or among several. -/
def severityWanted (t : CaseTable) (F : Filters) (p : Policy) : Bool :=
  match F.filters .severity with
  | [] => true
  | [f] => F.severityOp.test (levelOf (effectiveSeverity t p)) (levelOf f)
  | fs => effectiveSeverity t p ∈ fs

/-- The policy is to be selected. -/
def policyWanted (t : CaseTable) (F : Filters) (p : Policy) : Bool :=
  anyOf (F.filters .policy) (nameMatches p) && anyOf (F.filters .category) (categoryMatches p) &&
    severityWanted t F p

/-- The resource is to be selected. -/
def resourceWanted (F : Filters) (path : R → Text) (rtype : ResourceType) (r : R) : Bool :=
  anyOf (F.filters .type) (Glob.fnmatch rtype.name) &&
    anyOf (F.filters .id) (Glob.fnmatch (resourceId (path r)))

/-- Policies and resources are selected in their order and once each. -/
def Meets (t : CaseTable) (F : Filters) (policies : List Policy) (path : R → Text)
    (rtype : ResourceType) (resources : List R) : Prop :=
  filterPolicies t F policies = .ok (policies.filter (policyWanted t F)) ∧
    filterResources F path rtype resources =
      .ok (resources.filter (resourceWanted F path rtype))

/-! ## One pass for each pattern -/

/-- The patterns of a filter, and one that always holds where there is none. -/
def keys (patterns : List Text) : List (Option Text) :=
  if patterns = [] then [none] else patterns.map some

theorem any_keys (patterns : List Text) (holds : Text → Bool) :
    (keys patterns).any (fun f => f.all holds) = anyOf patterns holds := by
  rw [keys, anyOf]
  split
  · rename_i h
    simp [h]
  · rename_i h
    simp [h, Function.comp_def]

theorem matching_eq_ok {α : Type} {p : α → Except Exn Bool} {q : α → Bool} {items : List α}
    (h : ∀ x ∈ items, p x = .ok (q x)) : matching p items = .ok (items.filter q) := by
  induction items with
  | nil => rfl
  | cons x items ih =>
    rw [List.forall_mem_cons] at h
    rw [matching, h.1, ih h.2, List.filter_cons]
    rfl

theorem forall_of_matching_eq_ok {α : Type} {p : α → Except Exn Bool} {items r : List α}
    (h : matching p items = .ok r) : ∀ x ∈ items, ∃ b, p x = .ok b := by
  induction items generalizing r with
  | nil => simp
  | cons x items ih =>
    rw [matching] at h
    obtain ⟨b, hb, h⟩ := bind_eq_ok.mp h
    obtain ⟨rest, hrest, -⟩ := bind_eq_ok.mp h
    rw [List.forall_mem_cons]
    exact ⟨⟨b, hb⟩, ih hrest⟩

theorem filterAttribute_eq {α : Type} {patterns : List Text} {op : α → Attribute}
    {items : List α} {holds : α → Text → Bool}
    (h : ∀ f ∈ patterns, ∀ x ∈ items, matchAttribute f (op x) = .ok (holds x f)) :
    filterAttribute patterns op items =
      .ok ((keys patterns).flatMap fun f => items.filter fun x => f.all (holds x)) := by
  rw [filterAttribute, keys]
  by_cases hp : patterns = []
  · simp [hp]
  · by_cases hi : items = []
    · simp [hi]
    · rw [if_neg (by simp [hp, hi]), if_neg hp, mapM_eq_map fun f hf => matching_eq_ok (h f hf),
        List.flatMap_map]
      exact congrArg Except.ok List.flatMap_def.symm

theorem forall_of_filterAttribute_eq_ok {α : Type} {patterns : List Text} {op : α → Attribute}
    {items r : List α} (h : filterAttribute patterns op items = .ok r) :
    ∀ f ∈ patterns, ∀ x ∈ items, ∃ b, matchAttribute f (op x) = .ok b := by
  intro f hf x hx
  rw [filterAttribute, if_neg (by simp [List.ne_nil_of_mem hf, List.ne_nil_of_mem hx])] at h
  obtain ⟨results, hresults, -⟩ := bind_eq_ok.mp h
  obtain ⟨r', -, hr'⟩ := exists_of_forall₂ ((mapM_eq_ok _ _ _).mp hresults) hf
  exact forall_of_matching_eq_ok hr' x hx

/-! ## Categories that are no texts -/

/-- An element that is no text stands after one that matches the pattern. -/
def Readable (f : Text) (elements : List Element) : Prop :=
  ∀ before after, elements = before ++ .other :: after → before.any (Element.Matches f)

theorem matchElements_eq {f : Text} {els : List Element} (h : Readable f els) :
    matchElements f els = .ok (els.any (Element.Matches f)) := by
  induction els with
  | nil => rfl
  | cons el els ih =>
    cases el with
    | other => exact absurd (h [] els rfl) (by simp)
    | text s =>
      rw [matchElements, List.any_cons, Element.Matches]
      cases hs : Glob.fnmatch s f with
      | true => rfl
      | false =>
        refine (if_neg (by simp)).trans (ih fun before after he => ?_)
        have hb := h (.text s :: before) after (by rw [he]; rfl)
        rwa [List.any_cons, Element.Matches, hs, Bool.false_or] at hb

theorem readable_of_ok {f : Text} {els : List Element} {b : Bool}
    (h : matchElements f els = .ok b) : Readable f els := by
  induction els with
  | nil => exact fun before after he => by simp at he
  | cons el els ih =>
    cases el with
    | other => cases h
    | text s =>
      rintro (- | ⟨el, before⟩) after he
      · cases he
      · rw [List.cons_append] at he
        obtain ⟨rfl, hels⟩ := List.cons.inj he
        rw [List.any_cons, Element.Matches]
        cases hs : Glob.fnmatch s f with
        | true => rfl
        | false =>
          rw [matchElements, hs, if_neg (by simp)] at h
          exact ih h before after hels

/-! ## Severities -/

/-- The test of `_filter_policy_severity`. -/
def severityTest (t : CaseTable) (F : Filters) (p : Policy) : Bool :=
  match F.filters .severity with
  | [] => true
  | [f] => filterSeverity t F.severityOp f p
  | fs => (if severity t p = [] then "unknown".toList else severity t p) ∈ fs

theorem filterPolicySeverity_eq (t : CaseTable) (F : Filters) (policies : List Policy) :
    filterPolicySeverity t F policies = policies.filter (severityTest t F) := by
  unfold filterPolicySeverity severityTest
  split
  · exact (List.filter_true policies).symm
  · rfl
  · rfl

/-- A critical policy meets a filter for unknown or, the other way, for critical ones only; with
several severities, unknown among them, one that is not known is not given. -/
def SeverityAgrees (t : CaseTable) (F : Filters) (p : Policy) : Prop :=
  match F.filters .severity with
  | [] => True
  | [f] => severity t p = "critical".toList →
      (F.severityOp = .lte ∧ f = "unknown".toList) ∨ (F.severityOp = .gte ∧ f = "critical".toList)
  | fs => "unknown".toList ∈ fs →
      severity t p = [] ∨ (severityLevels.lookup (severity t p)).isSome

theorem severity_cases {s : Text} (h : (severityLevels.lookup s).isSome) :
    s = "critical".toList ∨ s = "high".toList ∨ s = "medium".toList ∨ s = "low".toList ∨
      s = "unknown".toList := by
  by_contra hs
  simp only [not_or] at hs
  have hnone : severityLevels.lookup s = none := by
    rw [List.lookup_eq_none_iff]
    simpa [severityLevels] using hs
  rw [hnone] at h
  cases h

/-- A level as `filter_severity` reads it. -/
def levelRead (s : Text) : Nat :=
  if (severityLevels.lookup s).getD 0 = 0 then unknownLevel else (severityLevels.lookup s).getD 0

theorem level_test_iff (op : SeverityOp) {s f : Text} (hf : (severityLevels.lookup f).isSome) :
    op.test (levelRead s) ((severityLevels.lookup f).getD 0) =
        op.test (levelOf (if (severityLevels.lookup s).isSome then s else "unknown".toList))
          (levelOf f) ↔
      (s = "critical".toList →
        (op = .lte ∧ f = "unknown".toList) ∨ (op = .gte ∧ f = "critical".toList)) := by
  by_cases hs : (severityLevels.lookup s).isSome
  · obtain rfl | rfl | rfl | rfl | rfl := severity_cases hs <;>
    obtain rfl | rfl | rfl | rfl | rfl := severity_cases hf <;> cases op <;> decide
  · have hcritical : s ≠ "critical".toList := by
      rintro rfl
      exact hs rfl
    have hnone : severityLevels.lookup s = none := Option.not_isSome_iff_eq_none.mp hs
    have hlevel : levelOf f = (severityLevels.lookup f).getD 0 := by
      obtain ⟨l, hl⟩ := Option.isSome_iff_exists.mp hf
      rw [levelOf, hl]
      rfl
    rw [levelRead, hnone, hlevel]
    exact ⟨fun _ h => absurd h hcritical, fun _ => rfl⟩

/-- **The severity test is the one that is meant.** -/
theorem severity_agrees_iff (t : CaseTable) (F : Filters) (p : Policy) :
    severityTest t F p = severityWanted t F p ↔ SeverityAgrees t F p := by
  have hvalid := F.severities_valid
  unfold severityTest severityWanted SeverityAgrees
  split
  · simp
  · rename_i f hf
    rw [hf, List.forall_mem_singleton] at hvalid
    exact level_test_iff F.severityOp hvalid
  · rename_i fs _ _
    rw [effectiveSeverity, Bool.eq_iff_iff, decide_eq_true_eq, decide_eq_true_eq]
    by_cases hnil : severity t p = []
    · have hnone : severityLevels.lookup ([] : Text) = none := by decide
      simp [hnil, hnone]
    · by_cases hs : (severityLevels.lookup (severity t p)).isSome
      · simp [hnil, hs]
      · have hno : severity t p ∉ F.filters .severity := fun h => hs (hvalid _ h)
        simp [hnil, hs, hno]

/-! ## Policies -/

/-- The pairs of a category pattern and a name pattern, in the order in which they are tried. -/
def patternPairs (F : Filters) : List (Option Text × Option Text) :=
  (keys (F.filters .category)).flatMap fun c => (keys (F.filters .policy)).map fun f => (c, f)

def selects (pair : Option Text × Option Text) (p : Policy) : Bool :=
  pair.1.all (categoryMatches p) && pair.2.all (nameMatches p)

theorem any_selects (F : Filters) (p : Policy) : (patternPairs F).any (selects · p) =
    (anyOf (F.filters .policy) (nameMatches p) &&
      anyOf (F.filters .category) (categoryMatches p)) := by
  rw [← any_keys, ← any_keys, Bool.eq_iff_iff]
  simp only [patternPairs, selects, List.any_eq_true, List.mem_flatMap, List.mem_map,
    Bool.and_eq_true, Prod.exists, Prod.mk.injEq]
  constructor
  · rintro ⟨c, f, ⟨c', hc, f', hf, rfl, rfl⟩, hcp, hfp⟩
    exact ⟨⟨_, hf, hfp⟩, _, hc, hcp⟩
  · rintro ⟨⟨f, hf, hfp⟩, c, hc, hcp⟩
    exact ⟨c, f, ⟨c, hc, f, hf, rfl, rfl⟩, hcp, hfp⟩

/-- The policies that the name patterns leave. -/
def named (F : Filters) (policies : List Policy) : List Policy :=
  (keys (F.filters .policy)).flatMap fun f => policies.filter fun p => f.all (nameMatches p)

theorem filterName_eq (F : Filters) (policies : List Policy) :
    filterAttribute (F.filters .policy) (fun p => .text p.name) policies =
      .ok (named F policies) := by
  refine filterAttribute_eq fun f _ p _ => ?_
  rw [matchAttribute, decide_eq_true p.name_ne, Bool.true_and, nameMatches]

theorem mem_named {F : Filters} {policies : List Policy} {p : Policy} :
    p ∈ named F policies ↔ p ∈ policies ∧ anyOf (F.filters .policy) (nameMatches p) := by
  simp only [named, List.mem_flatMap, List.mem_filter, ← any_keys, List.any_eq_true]
  constructor
  · rintro ⟨f, hf, hp, hm⟩
    exact ⟨hp, f, hf, hm⟩
  · rintro ⟨hp, f, hf, hm⟩
    exact ⟨f, hf, hp, hm⟩

/-- The categories of the policies that the name patterns leave can be read. -/
def CategoriesReadable (F : Filters) (policies : List Policy) : Prop :=
  ∀ p ∈ policies, anyOf (F.filters .policy) (nameMatches p) →
    ∀ f ∈ F.filters .category, Readable f (categories p)

theorem filterPolicies_eq {t : CaseTable} {F : Filters} {policies : List Policy}
    (h : CategoriesReadable F policies) : filterPolicies t F policies =
      .ok ((patternPairs F).flatMap fun pair => policies.filter fun p =>
        severityTest t F p && selects pair p) := by
  have hcategory : filterAttribute (F.filters .category) (fun p => .list (categories p))
      (named F policies) = .ok ((keys (F.filters .category)).flatMap fun c =>
        (named F policies).filter fun p => c.all (categoryMatches p)) :=
    filterAttribute_eq fun f hf p hp =>
      matchElements_eq (h p (mem_named.mp hp).1 (mem_named.mp hp).2 f hf)
  refine bind_eq_ok.mpr ⟨_, filterName_eq F policies, bind_eq_ok.mpr ⟨_, hcategory, ?_⟩⟩
  refine congrArg Except.ok ?_
  simp only [filterPolicySeverity_eq, patternPairs, selects, named, List.filter_flatMap,
    List.flatMap_assoc, List.flatMap_map, List.filter_filter]

theorem readable_of_filterPolicies {t : CaseTable} {F : Filters} {policies r : List Policy}
    (h : filterPolicies t F policies = .ok r) : CategoriesReadable F policies := by
  intro p hp hname f hf
  rw [filterPolicies, filterName_eq] at h
  obtain ⟨-, ⟨⟩, h⟩ := bind_eq_ok.mp h
  obtain ⟨l, hl, -⟩ := bind_eq_ok.mp h
  obtain ⟨b, hb⟩ := forall_of_filterAttribute_eq_ok hl f hf p (mem_named.mpr ⟨hp, hname⟩)
  exact readable_of_ok hb

/-- Each wanted policy is selected by one pair of patterns, and the pairs follow the list. -/
def PairsOnce (t : CaseTable) (F : Filters) (policies : List Policy) : Prop :=
  (∀ p ∈ policies, policyWanted t F p → (patternPairs F).countP (selects · p) = 1) ∧
    (policies.filter (policyWanted t F)).Pairwise fun p q =>
      (patternPairs F).findIdx (selects · p) ≤ (patternPairs F).findIdx (selects · q)

/-- The severities of the policies that the patterns leave are read as they are meant. -/
def SeveritiesAgree (t : CaseTable) (F : Filters) (policies : List Policy) : Prop :=
  ∀ p ∈ policies, anyOf (F.filters .policy) (nameMatches p) →
    anyOf (F.filters .category) (categoryMatches p) → SeverityAgrees t F p

theorem countP_and_left {κ : Type} (b : Bool) (ks : List κ) (m : κ → Bool) :
    (ks.countP fun k => b && m k) = if b then ks.countP m else 0 := by
  cases b <;> simp

theorem policyWanted_eq (t : CaseTable) (F : Filters) (p : Policy) : policyWanted t F p =
    ((patternPairs F).any (selects · p) && severityWanted t F p) := by
  rw [any_selects, policyWanted]

theorem count_eq_iff (t : CaseTable) (F : Filters) (p : Policy) :
    (if severityTest t F p then (patternPairs F).countP (selects · p) else 0) =
        (if policyWanted t F p then 1 else 0) ↔
      ((patternPairs F).any (selects · p) → severityTest t F p = severityWanted t F p) ∧
        (policyWanted t F p → (patternPairs F).countP (selects · p) = 1) := by
  have hpos : (patternPairs F).any (selects · p) = true ↔
      (patternPairs F).countP (selects · p) ≠ 0 := by
    rw [List.any_eq_true, ← Nat.pos_iff_ne_zero, List.countP_pos_iff]
  rw [policyWanted_eq]
  cases hany : (patternPairs F).any (selects · p) with
  | false =>
    have hzero : (patternPairs F).countP (selects · p) = 0 := by
      by_contra hne
      rw [hpos.mpr hne] at hany
      cases hany
    simp [hzero]
  | true =>
    have hne := hpos.mp hany
    cases severityTest t F p <;> cases severityWanted t F p <;> simp [hne]

theorem policies_eq_iff {t : CaseTable} {F : Filters} {policies : List Policy} :
    ((patternPairs F).flatMap fun pair => policies.filter fun p =>
        severityTest t F p && selects pair p) = policies.filter (policyWanted t F) ↔
      SeveritiesAgree t F policies ∧ PairsOnce t F policies := by
  rw [Selection.flatMap_filter_eq_filter_iff]
  simp only [countP_and_left, count_eq_iff]
  have hagree : (∀ p ∈ policies, (patternPairs F).any (selects · p) →
      severityTest t F p = severityWanted t F p) ↔ SeveritiesAgree t F policies := by
    refine forall₂_congr fun p _ => ?_
    rw [any_selects, Bool.and_eq_true, and_imp, severity_agrees_iff]
  rw [← hagree, PairsOnce, ← and_assoc, ← forall₂_and]
  refine and_congr_right fun hcount => ?_
  -- the severity of a policy that is wanted does not depend on the patterns
  have htest : ∀ p ∈ policies.filter (policyWanted t F), severityTest t F p = true := by
    intro p hp
    obtain ⟨hp, hw⟩ := List.mem_filter.mp hp
    rw [policyWanted_eq, Bool.and_eq_true] at hw
    rw [(hcount p hp).1 hw.1, hw.2]
  refine List.Pairwise.iff_of_mem fun {p q} hp hq => ?_
  simp only [htest p hp, htest q hq, Bool.true_and]

/-! ## Resources -/

/-- No wanted resource matches two patterns. -/
def ResourcesOnce (F : Filters) (path : R → Text) (rtype : ResourceType) (resources : List R) :
    Prop :=
  anyOf (F.filters .type) (Glob.fnmatch rtype.name) → ∀ r ∈ resources,
    (F.filters .id).countP (Glob.fnmatch (resourceId (path r))) ≤ 1

theorem filterResources_iff {F : Filters} {path : R → Text} {rtype : ResourceType}
    {resources : List R} :
    filterResources F path rtype resources =
        .ok (resources.filter (resourceWanted F path rtype)) ↔
      ResourcesOnce F path rtype resources := by
  have htypes : filterAttribute (F.filters .type) Attribute.text [rtype.name] =
      .ok ((keys (F.filters .type)).flatMap fun f =>
        [rtype.name].filter fun s => f.all (Glob.fnmatch s)) := by
    refine filterAttribute_eq fun f _ s hs => ?_
    obtain rfl := List.mem_singleton.mp hs
    rw [matchAttribute, decide_eq_true rtype.name_ne, Bool.true_and]
  have hnil : ((keys (F.filters .type)).flatMap fun f =>
      [rtype.name].filter fun s => f.all (Glob.fnmatch s)) = [] ↔
        anyOf (F.filters .type) (Glob.fnmatch rtype.name) = false := by
    rw [← any_keys]
    simp [List.flatMap_eq_nil_iff]
  have hwanted : resourceWanted F path rtype = fun r =>
      anyOf (F.filters .type) (Glob.fnmatch rtype.name) &&
        anyOf (F.filters .id) (Glob.fnmatch (resourceId (path r))) := rfl
  have hresult : filterResources F path rtype resources = .ok
      (if anyOf (F.filters .type) (Glob.fnmatch rtype.name) = false then []
        else filterResourceId F path resources) := by
    rw [filterResources, htypes]
    exact congrArg Except.ok (ite_congr (propext hnil) (fun _ => rfl) fun _ => rfl)
  rw [hresult, Except.ok.injEq, ResourcesOnce, hwanted]
  cases anyOf (F.filters .type) (Glob.fnmatch rtype.name) with
  | false => simp
  | true =>
    simp only [Bool.true_eq_false, if_false, Bool.true_and, forall_const]
    rw [filterResourceId]
    by_cases hid : F.filters .id = []
    · simp [hid, anyOf]
    · rw [if_neg hid, ← Selection.flatMap_map_eq_filter_iff]
      simp [anyOf, hid]

/-! ## Selection -/

/-- **Policies and resources are selected once and in order exactly when the categories can be
read, the severities are read as they are meant and no two patterns meet.** -/
theorem selects_iff (t : CaseTable) (F : Filters) (policies : List Policy) (path : R → Text)
    (rtype : ResourceType) (resources : List R) :
    Meets t F policies path rtype resources ↔
      CategoriesReadable F policies ∧ SeveritiesAgree t F policies ∧ PairsOnce t F policies ∧
        ResourcesOnce F path rtype resources := by
  rw [Meets, filterResources_iff, ← and_assoc (a := SeveritiesAgree t F policies),
    ← policies_eq_iff, ← and_assoc]
  refine and_congr_left fun _ => ?_
  constructor
  · intro h
    have hread := readable_of_filterPolicies h
    rw [filterPolicies_eq hread, Except.ok.injEq] at h
    exact ⟨hread, h⟩
  · rintro ⟨hread, h⟩
    rw [filterPolicies_eq hread, h]

/-! ## A critical policy -/

/-- A policy of critical severity. -/
def criticalPolicy : Policy :=
  ⟨"encrypt".toList, by decide, some (.text "critical".toList), none⟩

/-- A filter for high severity drops the critical policy. -/
theorem critical_dropped :
    ∃ F, parse (some "severity=high".toList) .lte = .ok F ∧
      filterPolicies asciiTable F [criticalPolicy] = .ok [] ∧
      policyWanted asciiTable F criticalPolicy = true ∧
      ¬Meets asciiTable F [criticalPolicy] (fun r : Text => r) ⟨"aws_s3_bucket".toList, by decide⟩
        [] := by
  have hparse : ∃ F, parse (some "severity=high".toList) .lte = .ok F ∧
      filterPolicies asciiTable F [criticalPolicy] = .ok [] ∧
      policyWanted asciiTable F criticalPolicy = true := ⟨_, rfl, rfl, rfl⟩
  obtain ⟨F, hF, hnone, hwanted⟩ := hparse
  refine ⟨F, hF, hnone, hwanted, fun h => ?_⟩
  have hsome := h.1
  rw [hnone, List.filter_cons, if_pos hwanted] at hsome
  cases hsome

end Custodian.ExecutionFilter

import Custodian.Lib.Bulk
import Custodian.Lib.Items
import Custodian.Tags.MarkForOp
import Custodian.Tags.UniversalRetry
import Mathlib.Data.List.Sort

/-!
# Renaming tags

`UniversalTagRename` of `c7n/tags.py` collects the resources by the value of their first old key
and by the old keys that they have, writes the new key with `UniversalTag`, which replaces the
fields of a value, and removes the old keys with `UniversalUntag`.
-/

namespace Custodian.TagRename

open Py Py.Format Py.Bulk UniversalRetry

/-! ## Resources and the service -/

/-- A resource with tags; a key is not empty and has one value. -/
structure Resource where
  arn : Text
  tags : List (Text × Text)
  nodup : (tags.map Prod.fst).Nodup
  key_ne : [] ∉ tags.map Prod.fst

/-- The value of a key for each arn. -/
abbrev Tagged := Text × Text → Option Text

/-- A service that changes tags, and fails for no resource. -/
def writer (w : List Text → Write (Text × Text) (Option Text)) : Service Tagged where
  call s arns := (⟨∅⟩, (w arns).apply s)
  mem_request _ _ _ h := absurd h (AList.notMem_empty _)

/-- `tag_resources(ResourceARNList=arns, Tags=tags)` -/
def setTags (tags : List (Text × Text)) (arns : List Text) : Write (Text × Text) (Option Text) :=
  fun cell => if cell.1 ∈ arns then (Items.get cell.2 tags).map some else none

/-- `untag_resources(ResourceARNList=arns, TagKeys=tag_keys)` -/
def removeTags (tagKeys arns : List Text) : Write (Text × Text) (Option Text) :=
  fun cell => if cell.1 ∈ arns ∧ cell.2 ∈ tagKeys then some none else none

/-- What the actions find around them: the objects of the formatter and the values of the
placeholders, with the time at which a value is written. -/
structure Runtime (V : Type) where
  objects : Objects V
  accountId : V
  region : V
  now : Text → V
  order : SetOrder
  random : Nat → ℚ

variable {V : Type} (rt : Runtime V)

/-! ## Tagging and untagging -/

/-- `process_resource_set` of both actions. -/
def processResourceSet (w : List Text → Write (Text × Text) (Option Text))
    (resourceSet : List Resource) (s : Tagged) : Run Tagged :=
  let arns := resourceSet.map Resource.arn
  if arns = [] then ⟨[], .ok none, s⟩ else universalRetry (writer w) rt.order rt.random arns s

/-- `_common_tag_processer`: all chunks are sent, and an error is raised after that. -/
def commonTagProcesser (batchSize : Nat) (send : List Resource → Tagged → Run Tagged)
    (resources : List Resource) (s : Tagged) : Except Exn Tagged :=
  let sent := (chunks batchSize resources).foldl (fun (st : Option Failure × Tagged) resourceSet =>
    let run := send resourceSet st.2
    (match run.result with
      | .error e => some e
      | .ok _ => st.1, run.state)) (none, s)
  match sent.1 with
  | some _ => .error (.raised "Exception".toList)
  | none => .ok sent.2

/-- The data of a `tag` action whose values are texts. -/
structure TagData where
  msg : Option Text
  value : Option Text
  tag : Option Text
  key : Option Text
  tags : List (Text × Text)

def truthy (t : Option Text) : Bool := t.getD [] ≠ []

/-- The tags that the action is to set. -/
def TagData.specMap (d : TagData) : List (Text × Text) :=
  let msg := if truthy d.value then d.value else d.msg
  let tag := d.tag.getD Tags.defaultTag
  let tag := if truthy d.key then d.key.getD [] else tag
  if truthy msg then Items.set tag (msg.getD []) d.tags else d.tags

/-- `get_interpolation_params` -/
def interpolationParams (now : V) : Dict Text V :=
  Dict.ofPairs [("account_id".toList, rt.accountId), ("now".toList, now),
    ("region".toList, rt.region)]

/-- `str(value).format(**params)` -/
def interpolateSingleValue (now : V) (value : Text) : Except Exn Text :=
  Format.format rt.objects [] (interpolationParams rt now) value

/-- `UniversalTag.interpolate_values` -/
def interpolateValues (now : V) (tags : List (Text × Text)) : Except Exn (List (Text × Text)) :=
  tags.mapM fun e => do
    let value ← interpolateSingleValue rt now e.2
    return (e.1, value)

/-- `UniversalTag.process` -/
def tagProcess (now : V) (d : TagData) (resources : List Resource) (s : Tagged) :
    Except Exn Tagged := do
  let tags ← interpolateValues rt now d.specMap
  commonTagProcesser 20 (processResourceSet rt (setTags tags)) resources s

/-- `UniversalUntag.process` -/
def untagProcess (tags : List Text) (resources : List Resource) (s : Tagged) : Except Exn Tagged :=
  commonTagProcesser 20 (processResourceSet rt (removeTags tags)) resources s

/-! ## Renaming -/

/-- The data of a `rename-tag` action. -/
structure Rename where
  oldKeys : Option (List Text)
  oldKey : Option Text
  newKey : Option Text

/-- `UniversalTagRename.validate` -/
def Rename.validate (cfg : Rename) : Except Exn Unit :=
  if cfg.oldKeys = none ∧ cfg.oldKey = none then
    .error (.raised "PolicyValidationError".toList)
  else .ok ()

/-- The set `old_keys`. -/
def Rename.keys (cfg : Rename) : List Text := cfg.oldKeys.getD [] ++ cfg.oldKey.toList

/-- `key_func(a)`: `self.data['old_keys'].index(a['Key'])` for an old key. -/
def keyFunc (cfg : Rename) (key : Text) : Except Exn Nat :=
  if key ∈ cfg.keys then
    match cfg.oldKeys with
    | none => .error .keyError
    | some oldKeys => if key ∈ oldKeys then .ok (oldKeys.idxOf key) else .error valueError
  else .ok 50

/-- `sorted(r.get('Tags', ()), key=key_func)` -/
def sortTags (cfg : Rename) (tags : List (Text × Text)) : Except Exn (List (Text × Text)) := do
  let keyed ← tags.mapM fun t => do
    let position ← keyFunc cfg t.1
    return (position, t)
  return (keyed.insertionSort fun a b => a.1 ≤ b.1).map Prod.snd

/-- The resources by the old keys that they have, and by the value of the first of them. -/
structure Collected where
  oldKeyResources : List (Text × List Resource)
  valuesResources : List (Text × List Resource)

/-- The loop over the sorted tags of a resource. -/
def collectTags (cfg : Rename) (r : Resource) :
    Bool → List (Text × Text) → Collected → Collected
  | _, [], c => c
  | found, t :: tags, c =>
    if t.1 ∈ cfg.keys then
      let c := { c with oldKeyResources := add t.1 r c.oldKeyResources }
      if !found then
        collectTags cfg r true tags { c with valuesResources := add t.2 r c.valuesResources }
      else collectTags cfg r found tags c
    else collectTags cfg r found tags c

/-- The loop over the resources. -/
def collect (cfg : Rename) (resources : List Resource) : Except Exn Collected :=
  resources.foldlM (fun c r => do
    let tags ← sortTags cfg r.tags
    return collectTags cfg r false tags c) ⟨[], []⟩

/-- `UniversalTagRename.process`: the tags after it. -/
def process (cfg : Rename) (resources : List Resource) (s : Tagged) : Except Exn Tagged := do
  let c ← collect cfg resources
  let newKey ← cfg.newKey.elim (.error .keyError) .ok
  let s ← c.valuesResources.foldlM (fun s g =>
    tagProcess rt (rt.now g.1) ⟨none, some g.1, none, some newKey, []⟩ g.2 s) s
  c.oldKeyResources.foldlM (fun s g => untagProcess rt [g.1] g.2 s) s

/-! ## What is expected of it -/

/-- The resources of a call, with the tags that the service has for them. -/
structure Inventory where
  resources : List Resource
  service : Tagged
  tags_eq : ∀ r ∈ resources, ∀ key, service (r.arn, key) = Items.get key r.tags

/-- The first old key, in their order, among tags. -/
def firstKey (cfg : Rename) (tags : Text → Option Text) : Option Text :=
  cfg.keys.find? fun key => (tags key).isSome

def firstValue (cfg : Rename) (tags : Text → Option Text) : Option Text :=
  (firstKey cfg tags).bind tags

/-- The tags of a resource after the old keys are renamed. -/
def renamed (cfg : Rename) (newKey : Text) (tags : Text → Option Text) (key : Text) : Option Text :=
  match firstValue cfg tags with
  | none => tags key
  | some value =>
    if key = newKey then some value
    else if key ∈ cfg.keys then none
    else tags key

/-- The action does not raise, renames the old keys of every resource, and changes no others. -/
def Renames (cfg : Rename) (newKey : Text) (inv : Inventory) : Prop :=
  ∃ s, process rt cfg inv.resources inv.service = .ok s ∧
    (∀ r ∈ inv.resources, ∀ key,
      s (r.arn, key) = renamed cfg newKey (fun key => inv.service (r.arn, key)) key) ∧
    ∀ arn ∉ inv.resources.map Resource.arn, ∀ key, s (arn, key) = inv.service (arn, key)

/-- The old keys of a resource are in the list, and the value of the first one is written as it is:
it is a text that has no field to replace, under a new key that is not empty, or an empty text that
the new key has already. -/
structure Keeps (cfg : Rename) (newKey : Text) (tags : Text → Option Text) : Prop where
  listed : ∀ key ∈ cfg.keys, (tags key).isSome → key ∈ cfg.oldKeys.getD []
  unchanged : ∀ value, firstValue cfg tags = some value →
    (newKey ≠ [] ∧ value ≠ [] ∧ interpolateSingleValue rt (rt.now value) value = .ok value) ∨
      (value = [] ∧ tags newKey = some [])

variable {rt} {cfg : Rename} {newKey : Text}

/-! ## Calls of the service -/

theorem universalRetry_writer (w : List Text → Write (Text × Text) (Option Text))
    (order : SetOrder) (random : Nat → ℚ) (arns : List Text) (s : Tagged) :
    (∃ r, (universalRetry (writer w) order random arns s).result = .ok (some r)) ∧
      (universalRetry (writer w) order random arns s).state = (w arns).apply s := by
  rw [universalRetry, backoffDelays, if_pos (by norm_num), retryLoop]
  exact ⟨⟨_, rfl⟩, rfl⟩

/-- The calls for the chunks of a list of resources. -/
def writes (w : List Text → Write (Text × Text) (Option Text)) (resources : List Resource) :
    List (Write (Text × Text) (Option Text)) :=
  (chunks 20 resources).map fun resourceSet => w (resourceSet.map Resource.arn)

theorem commonTagProcesser_eq {w : List Text → Write (Text × Text) (Option Text)}
    (hw : ∀ s, (w []).apply s = s) (resources : List Resource) (s : Tagged) :
    commonTagProcesser 20 (processResourceSet rt w) resources s =
      .ok (applyAll (writes w resources) s) := by
  have hsend (resourceSet : List Resource) (s : Tagged) :
      (∃ r, (processResourceSet rt w resourceSet s).result = .ok r) ∧
        (processResourceSet rt w resourceSet s).state =
          (w (resourceSet.map Resource.arn)).apply s := by
    rw [processResourceSet]
    split
    · rename_i hnil
      rw [hnil, hw]
      exact ⟨⟨none, rfl⟩, rfl⟩
    · obtain ⟨⟨r, hr⟩, hs⟩ := universalRetry_writer w rt.order rt.random
        (resourceSet.map Resource.arn) s
      exact ⟨⟨some r, hr⟩, hs⟩
  have hfold (sets : List (List Resource)) (s : Tagged) :
      sets.foldl (fun (st : Option Failure × Tagged) resourceSet =>
        let run := processResourceSet rt w resourceSet st.2
        (match run.result with
          | .error e => some e
          | .ok _ => st.1, run.state)) (none, s) =
        (none, applyAll (sets.map fun resourceSet => w (resourceSet.map Resource.arn)) s) := by
    induction sets generalizing s with
    | nil => rfl
    | cons resourceSet sets ih =>
      obtain ⟨⟨r, hr⟩, hs⟩ := hsend resourceSet s
      rw [List.foldl_cons]
      simp only [hr, hs]
      exact ih _
  rw [commonTagProcesser, hfold]
  rfl

theorem exists_mem_writes {w : List Text → Write (Text × Text) (Option Text)}
    {resources : List Resource} {r : Resource} (hr : r ∈ resources) :
    ∃ arns, r.arn ∈ arns ∧ w arns ∈ writes w resources := by
  rw [← flatten_chunks 20 resources] at hr
  obtain ⟨resourceSet, hset, hr⟩ := List.mem_flatten.mp hr
  exact ⟨resourceSet.map Resource.arn, List.mem_map_of_mem hr, List.mem_map.mpr ⟨_, hset, rfl⟩⟩

theorem mem_writes {w : List Text → Write (Text × Text) (Option Text)} {resources : List Resource}
    {write : Write (Text × Text) (Option Text)} (h : write ∈ writes w resources) :
    ∃ arns, write = w arns ∧ ∀ arn ∈ arns, ∃ r ∈ resources, r.arn = arn := by
  obtain ⟨resourceSet, hset, rfl⟩ := List.mem_map.mp h
  refine ⟨resourceSet.map Resource.arn, rfl, fun arn harn => ?_⟩
  obtain ⟨r, hr, rfl⟩ := List.mem_map.mp harn
  refine ⟨r, ?_, rfl⟩
  rw [← flatten_chunks 20 resources]
  exact List.mem_flatten.mpr ⟨resourceSet, hset, hr⟩

/-! ## What is collected -/

/-- The old keys among some tags are all in the list `old_keys`. -/
def Listed (cfg : Rename) (tags : List (Text × Text)) : Prop :=
  ∀ t ∈ tags, t.1 ∈ cfg.keys → t.1 ∈ cfg.oldKeys.getD []

/-- The position by which a tag is sorted. -/
def position (cfg : Rename) (key : Text) : Nat := if key ∈ cfg.keys then cfg.keys.idxOf key else 50

theorem keyFunc_eq_ok_iff {key : Text} {n : Nat} :
    keyFunc cfg key = .ok n ↔ n = position cfg key ∧ (key ∈ cfg.keys → key ∈ cfg.oldKeys.getD []) := by
  rw [keyFunc, position]
  by_cases hkey : key ∈ cfg.keys
  · simp only [hkey, if_true, true_imp_iff]
    rw [Rename.keys]
    cases hold : cfg.oldKeys with
    | none => simp
    | some oldKeys =>
      by_cases hmem : key ∈ oldKeys
      · simp [hmem, List.idxOf_append_of_mem hmem, eq_comm]
      · simp [hmem]
  · simp [hkey, eq_comm]

theorem sortTags_eq_ok_iff {tags sorted : List (Text × Text)} :
    sortTags cfg tags = .ok sorted ↔ Listed cfg tags ∧
      sorted = tags.insertionSort fun a b => position cfg a.1 ≤ position cfg b.1 := by
  have hkeyed (t : Text × Text) (keyed : Nat × Text × Text) :
      (do
        let position ← keyFunc cfg t.1
        return (position, t)) = .ok keyed ↔
      (t.1 ∈ cfg.keys → t.1 ∈ cfg.oldKeys.getD []) ∧ keyed = (position cfg t.1, t) := by
    simp only [bind_eq_ok, pure_eq_ok, keyFunc_eq_ok_iff]
    constructor
    · rintro ⟨n, ⟨rfl, hlisted⟩, rfl⟩
      exact ⟨hlisted, rfl⟩
    · rintro ⟨hlisted, rfl⟩
      exact ⟨_, ⟨rfl, hlisted⟩, rfl⟩
  have hsort : ((tags.map fun t => (position cfg t.1, t)).insertionSort fun a b => a.1 ≤ b.1).map
      Prod.snd = tags.insertionSort fun a b => position cfg a.1 ≤ position cfg b.1 := by
    rw [← List.map_insertionSort (fun a b : Text × Text => position cfg a.1 ≤ position cfg b.1)
      (fun a b : Nat × Text × Text => a.1 ≤ b.1) (fun t => (position cfg t.1, t)) tags
      (fun _ _ _ _ => Iff.rfl), List.map_map]
    exact List.map_id _
  rw [sortTags, bind_eq_ok]
  simp only [mapM_eq_ok_iff hkeyed, pure_eq_ok]
  constructor
  · rintro ⟨keyed, ⟨hlisted, rfl⟩, rfl⟩
    exact ⟨hlisted, hsort⟩
  · rintro ⟨hlisted, rfl⟩
    exact ⟨_, ⟨hlisted, rfl⟩, hsort⟩

theorem grouped_oldKeyResources {key : Text} {r r' : Resource} {found : Bool}
    {tags : List (Text × Text)} {c : Collected} :
    Grouped key r' (collectTags cfg r found tags c).oldKeyResources ↔
      (r' = r ∧ key ∈ cfg.keys ∧ key ∈ tags.map Prod.fst) ∨ Grouped key r' c.oldKeyResources := by
  induction tags generalizing found c with
  | nil => simp [collectTags]
  | cons t tags ih =>
    rw [collectTags, List.map_cons, List.mem_cons]
    by_cases ht : t.1 ∈ cfg.keys
    · have hrest (found' : Bool) (c' : Collected)
          (hc' : c'.oldKeyResources = add t.1 r c.oldKeyResources) :
          Grouped key r' (collectTags cfg r found' tags c').oldKeyResources ↔
            (r' = r ∧ key ∈ cfg.keys ∧ (key = t.1 ∨ key ∈ tags.map Prod.fst)) ∨
              Grouped key r' c.oldKeyResources := by
        have hkey : key ∈ cfg.keys ∧ (key = t.1 ∨ key ∈ tags.map Prod.fst) ↔
            (key = t.1 ∨ key ∈ cfg.keys ∧ key ∈ tags.map Prod.fst) := by
          rw [and_or_left, and_iff_right_of_imp fun h : key = t.1 => h ▸ ht]
        rw [ih, hc', grouped_add, hkey, and_or_left, ← or_assoc, or_comm (a := r' = r ∧ key = t.1),
          and_comm (a := key = t.1)]
      rw [if_pos ht]
      cases found <;> exact hrest _ _ rfl
    · rw [if_neg ht, ih]
      refine or_congr_left (and_congr_right fun _ => and_congr_right fun hkey => ?_)
      rw [or_iff_right]
      rintro rfl
      exact ht hkey

theorem grouped_valuesResources {value : Text} {r r' : Resource} {found : Bool}
    {tags : List (Text × Text)} {c : Collected} :
    Grouped value r' (collectTags cfg r found tags c).valuesResources ↔
      (found = false ∧ r' = r ∧
        (tags.find? fun t => t.1 ∈ cfg.keys).map Prod.snd = some value) ∨
        Grouped value r' c.valuesResources := by
  induction tags generalizing found c with
  | nil => simp [collectTags]
  | cons t tags ih =>
    rw [collectTags]
    by_cases ht : t.1 ∈ cfg.keys
    · rw [if_pos ht, List.find?_cons_of_pos (by simpa using ht)]
      cases found with
      | false =>
        simp only [Bool.not_false, if_true]
        rw [ih, grouped_add]
        simp [eq_comm, and_comm]
      | true =>
        simp only [Bool.not_true, Bool.false_eq_true, if_false]
        rw [ih]
        simp
    · rw [if_neg ht, ih, List.find?_cons_of_neg (by simpa using ht)]

theorem find?_sorted (cfg : Rename) (r : Resource) :
    ((r.tags.insertionSort fun a b => position cfg a.1 ≤ position cfg b.1).find?
        fun t => t.1 ∈ cfg.keys).map Prod.snd =
      firstValue cfg fun key => Items.get key r.tags := by
  have hmem (t : Text × Text) :
      t ∈ r.tags.insertionSort (fun a b => position cfg a.1 ≤ position cfg b.1) ↔ t ∈ r.tags :=
    List.mem_insertionSort _
  have hsorted : (r.tags.insertionSort fun a b => position cfg a.1 ≤ position cfg b.1).Pairwise
      fun a b => a.1 ∈ cfg.keys → b.1 ∈ cfg.keys →
        cfg.keys.idxOf a.1 ≤ cfg.keys.idxOf b.1 := by
    refine (List.pairwise_insertionSort _ _).imp fun {a b} hle ha hb => ?_
    rwa [position, position, if_pos ha, if_pos hb] at hle
  have hfirst := find?_fst_eq hsorted
  have hkeys : firstKey cfg (fun key => Items.get key r.tags) = cfg.keys.find? fun key =>
      key ∈ (r.tags.insertionSort fun a b => position cfg a.1 ≤ position cfg b.1).map Prod.fst := by
    refine congrArg (cfg.keys.find? ·) (funext fun key => ?_)
    rw [Bool.eq_iff_iff, decide_eq_true_eq, Items.isSome_get,
      ((List.perm_insertionSort _ r.tags).map Prod.fst).mem_iff]
  rw [firstValue, hkeys, ← hfirst]
  cases hfound : (r.tags.insertionSort fun a b => position cfg a.1 ≤ position cfg b.1).find?
      fun t => t.1 ∈ cfg.keys with
  | none => rfl
  | some t =>
    have ht := (hmem t).mp (List.mem_of_find?_eq_some hfound)
    exact ((Items.mem_iff_lookup r.nodup).mp ht).symm

/-- What is collected where nothing raises. -/
def collected (cfg : Rename) (resources : List Resource) : Collected :=
  resources.foldl (fun c r => collectTags cfg r false
    (r.tags.insertionSort fun a b => position cfg a.1 ≤ position cfg b.1) c) ⟨[], []⟩

theorem collect_eq_ok_iff {resources : List Resource} {c : Collected} :
    collect cfg resources = .ok c ↔
      (∀ r ∈ resources, Listed cfg r.tags) ∧ c = collected cfg resources := by
  refine foldlM_eq_ok_iff fun c r c' => ?_
  simp only [bind_eq_ok, pure_eq_ok, sortTags_eq_ok_iff]
  constructor
  · rintro ⟨_, ⟨hlisted, rfl⟩, rfl⟩
    exact ⟨hlisted, rfl⟩
  · rintro ⟨hlisted, rfl⟩
    exact ⟨_, ⟨hlisted, rfl⟩, rfl⟩

theorem collected_concat (cfg : Rename) (resources : List Resource) (r : Resource) :
    collected cfg (resources ++ [r]) = collectTags cfg r false
      (r.tags.insertionSort fun a b => position cfg a.1 ≤ position cfg b.1)
      (collected cfg resources) := by
  rw [collected, List.foldl_append]
  rfl

theorem grouped_oldKeys {key : Text} {r : Resource} {resources : List Resource} :
    Grouped key r (collected cfg resources).oldKeyResources ↔
      r ∈ resources ∧ key ∈ cfg.keys ∧ key ∈ r.tags.map Prod.fst := by
  induction resources using List.reverseRecOn with
  | nil => exact iff_of_false not_grouped_nil fun h => List.not_mem_nil h.1
  | append_singleton resources r' ih =>
    rw [collected_concat, grouped_oldKeyResources, ih,
      ((List.perm_insertionSort _ r'.tags).map Prod.fst).mem_iff, List.mem_append,
      List.mem_singleton]
    constructor
    · rintro (⟨rfl, hkeys⟩ | ⟨hr, hkeys⟩)
      · exact ⟨Or.inr rfl, hkeys⟩
      · exact ⟨Or.inl hr, hkeys⟩
    · rintro ⟨hr | rfl, hkeys⟩
      · exact Or.inr ⟨hr, hkeys⟩
      · exact Or.inl ⟨rfl, hkeys⟩

theorem grouped_values {value : Text} {r : Resource} {resources : List Resource} :
    Grouped value r (collected cfg resources).valuesResources ↔
      r ∈ resources ∧ firstValue cfg (fun key => Items.get key r.tags) = some value := by
  induction resources using List.reverseRecOn with
  | nil => exact iff_of_false not_grouped_nil fun h => List.not_mem_nil h.1
  | append_singleton resources r' ih =>
    rw [collected_concat, grouped_valuesResources, ih, find?_sorted, List.mem_append,
      List.mem_singleton]
    constructor
    · rintro (⟨-, rfl, hvalue⟩ | ⟨hr, hvalue⟩)
      · exact ⟨Or.inr rfl, hvalue⟩
      · exact ⟨Or.inl hr, hvalue⟩
    · rintro ⟨hr | rfl, hvalue⟩
      · exact Or.inr ⟨hr, hvalue⟩
      · exact Or.inl ⟨rfl, rfl, hvalue⟩

theorem filled_collectTags {r : Resource} {found : Bool} {tags : List (Text × Text)}
    {c : Collected} (h : Filled c.valuesResources) :
    Filled (collectTags cfg r found tags c).valuesResources := by
  induction tags generalizing found c with
  | nil => exact h
  | cons t tags ih =>
    rw [collectTags]
    split
    · dsimp only
      split
      · exact ih (filled_add h)
      · exact ih h
    · exact ih h

theorem exists_grouped_values {resources : List Resource} {g : Text × List Resource}
    (h : g ∈ (collected cfg resources).valuesResources) :
    ∃ r ∈ resources, firstValue cfg (fun key => Items.get key r.tags) = some g.1 := by
  have hfilled : Filled (collected cfg resources).valuesResources := by
    refine List.foldlRecOn (motive := fun c : Collected => Filled c.valuesResources) resources _
      (fun g hg => absurd hg List.not_mem_nil) fun c hc r _ => filled_collectTags hc
  obtain ⟨r, hr⟩ := List.exists_mem_of_ne_nil _ (hfilled g h)
  exact ⟨r, grouped_values.mp ⟨g.2, h, hr⟩⟩

/-! ## The calls of a run -/

/-- The tags that are set for a value. -/
def written (rt : Runtime V) (newKey value : Text) : Except Exn (List (Text × Text)) :=
  interpolateValues rt (rt.now value) (TagData.specMap ⟨none, some value, none, some newKey, []⟩)

def tagWrites (rt : Runtime V) (newKey : Text) (c : Collected) :
    List (Write (Text × Text) (Option Text)) :=
  c.valuesResources.flatMap fun g =>
    writes (setTags ((written rt newKey g.1).toOption.getD [])) g.2

def untagWrites (c : Collected) : List (Write (Text × Text) (Option Text)) :=
  c.oldKeyResources.flatMap fun g => writes (removeTags [g.1]) g.2

theorem setTags_nil (tags : List (Text × Text)) (s : Tagged) : (setTags tags []).apply s = s := by
  funext cell
  simp [setTags, Write.apply]

theorem removeTags_nil (tagKeys : List Text) (s : Tagged) :
    (removeTags tagKeys []).apply s = s := by
  funext cell
  simp [removeTags, Write.apply]

theorem tagProcess_eq_ok_iff (g : Text × List Resource) (s s' : Tagged) :
    tagProcess rt (rt.now g.1) ⟨none, some g.1, none, some newKey, []⟩ g.2 s = .ok s' ↔
      (∃ tags, written rt newKey g.1 = .ok tags) ∧
      s' = applyAll (writes (setTags ((written rt newKey g.1).toOption.getD [])) g.2) s := by
  rw [tagProcess, ← written, bind_eq_ok]
  cases hwritten : written rt newKey g.1 with
  | error e => simp
  | ok tags =>
    simp only [Except.ok.injEq, exists_eq_left', exists_eq', true_and, Except.toOption,
      Option.getD_some]
    rw [commonTagProcesser_eq (setTags_nil tags), Except.ok.injEq, eq_comm]

theorem untagProcess_eq (tags : List Text) (resources : List Resource) (s : Tagged) :
    untagProcess rt tags resources s = .ok (applyAll (writes (removeTags tags) resources) s) :=
  commonTagProcesser_eq (removeTags_nil tags) resources s

theorem process_eq_ok_iff (hnew : cfg.newKey = some newKey) {resources : List Resource}
    {s s' : Tagged} :
    process rt cfg resources s = .ok s' ↔
      (∀ r ∈ resources, Listed cfg r.tags) ∧
      (∀ g ∈ (collected cfg resources).valuesResources,
        ∃ tags, written rt newKey g.1 = .ok tags) ∧
      s' = applyAll (untagWrites (collected cfg resources))
        (applyAll (tagWrites rt newKey (collected cfg resources)) s) := by
  have huntag (g : Text × List Resource) (s s' : Tagged) :
      untagProcess rt [g.1] g.2 s = .ok s' ↔
        True ∧ s' = applyAll (writes (removeTags [g.1]) g.2) s := by
    rw [untagProcess_eq, Except.ok.injEq, true_and, eq_comm]
  have htags (c : Collected) (s s' : Tagged) :
      c.valuesResources.foldlM (fun s g => tagProcess rt (rt.now g.1)
        ⟨none, some g.1, none, some newKey, []⟩ g.2 s) s = .ok s' ↔
        (∀ g ∈ c.valuesResources, ∃ tags, written rt newKey g.1 = .ok tags) ∧
        s' = applyAll (tagWrites rt newKey c) s := by
    rw [foldlM_eq_ok_iff fun s g s' => tagProcess_eq_ok_iff g s s', foldl_applyAll, tagWrites]
  have huntags (c : Collected) (s s' : Tagged) :
      c.oldKeyResources.foldlM (fun s g => untagProcess rt [g.1] g.2 s) s = .ok s' ↔
        s' = applyAll (untagWrites c) s := by
    rw [foldlM_eq_ok_iff fun s g s' => huntag g s s', foldl_applyAll, untagWrites]
    simp
  simp only [process, hnew, Option.elim_some, bind_eq_ok, collect_eq_ok_iff, Except.ok.injEq,
    exists_eq_left', htags, huntags]
  constructor
  · rintro ⟨c, ⟨hlisted, rfl⟩, _, ⟨hwritten, rfl⟩, rfl⟩
    exact ⟨hlisted, hwritten, rfl⟩
  · rintro ⟨hlisted, hwritten, rfl⟩
    exact ⟨_, ⟨hlisted, rfl⟩, _, ⟨hwritten, rfl⟩, rfl⟩

/-! ## The tags after a run -/

theorem firstValue_eq_none {tags : Text → Option Text} :
    firstValue cfg tags = none ↔ ∀ key ∈ cfg.keys, tags key = none := by
  rw [firstValue]
  cases hfirst : firstKey cfg tags with
  | none =>
    rw [firstKey, List.find?_eq_none] at hfirst
    simpa using hfirst
  | some key =>
    obtain ⟨htag, before, after, hkeys, -⟩ := List.find?_eq_some_iff_append.mp hfirst
    obtain ⟨value, hvalue⟩ := Option.isSome_iff_exists.mp htag
    refine iff_of_false (by simp [hvalue]) fun h => ?_
    rw [h key (by rw [hkeys]; simp)] at hvalue
    cases hvalue

theorem Inventory.get_eq (inv : Inventory) {r : Resource} (hr : r ∈ inv.resources) :
    (fun key => Items.get key r.tags) = fun key => inv.service (r.arn, key) :=
  funext fun key => (inv.tags_eq r hr key).symm

theorem tagged_eq (inv : Inventory) {r : Resource} (hr : r ∈ inv.resources) {value : Text}
    (hvalue : firstValue cfg (fun key => inv.service (r.arn, key)) = some value) (key : Text) :
    applyAll (tagWrites rt newKey (collected cfg inv.resources)) inv.service (r.arn, key) =
      (Items.get key ((written rt newKey value).toOption.getD [])).or
        (inv.service (r.arn, key)) := by
  have hwrites : ∀ w ∈ tagWrites rt newKey (collected cfg inv.resources), ∀ b,
      w (r.arn, key) = some b →
        (Items.get key ((written rt newKey value).toOption.getD [])).map some = some b := by
    intro w hw b hb
    obtain ⟨g, hg, hw⟩ := List.mem_flatMap.mp hw
    obtain ⟨arns, rfl, harns⟩ := mem_writes hw
    rw [setTags] at hb
    split at hb
    · rename_i harn
      obtain ⟨r', hr', harn⟩ := harns _ harn
      obtain ⟨hr', hvalue'⟩ := grouped_values.mp ⟨g.2, hg, hr'⟩
      rw [inv.get_eq hr', harn, hvalue] at hvalue'
      cases hvalue'
      exact hb
    · cases hb
  cases hget : Items.get key ((written rt newKey value).toOption.getD []) with
  | none =>
    rw [hget] at hwrites
    rw [Option.none_or]
    refine applyAll_of_none (fun w hw => Option.eq_none_iff_forall_ne_some.mpr fun b hb => ?_) _
    cases hwrites w hw b hb
  | some tag =>
    rw [hget] at hwrites
    rw [Option.some_or]
    refine applyAll_eq (fun w hw b hb => (Option.some.inj (hwrites w hw b hb)).symm) ?_ _
    obtain ⟨rs, hrs, hr'⟩ := grouped_values.mpr ⟨hr, inv.get_eq hr ▸ hvalue⟩
    obtain ⟨arns, harn, hw⟩ := exists_mem_writes
      (w := setTags ((written rt newKey value).toOption.getD [])) hr'
    refine ⟨_, List.mem_flatMap.mpr ⟨(value, rs), hrs, hw⟩, ?_⟩
    rw [setTags, if_pos harn, hget]
    rfl

theorem tagged_of_none {resources : List Resource} {arn : Text} (h : ∀ r ∈ resources, r.arn = arn →
    firstValue cfg (fun key => Items.get key r.tags) = none) (s : Tagged) (key : Text) :
    applyAll (tagWrites rt newKey (collected cfg resources)) s (arn, key) = s (arn, key) := by
  refine applyAll_of_none (fun w hw => ?_) s
  obtain ⟨g, hg, hw⟩ := List.mem_flatMap.mp hw
  obtain ⟨arns, rfl, harns⟩ := mem_writes hw
  refine if_neg fun harn => ?_
  obtain ⟨r, hr, harn⟩ := harns _ harn
  obtain ⟨hr, hvalue⟩ := grouped_values.mp ⟨g.2, hg, hr⟩
  rw [h r hr harn] at hvalue
  cases hvalue

theorem untagged_of_mem {resources : List Resource} {r : Resource} (hr : r ∈ resources) {key : Text}
    (hkey : key ∈ cfg.keys) (htag : key ∈ r.tags.map Prod.fst) (s : Tagged) :
    applyAll (untagWrites (collected cfg resources)) s (r.arn, key) = none := by
  refine applyAll_eq (fun w hw b hb => ?_) ?_ s
  · obtain ⟨g, hg, hw⟩ := List.mem_flatMap.mp hw
    obtain ⟨arns, rfl, -⟩ := mem_writes hw
    rw [removeTags] at hb
    split at hb
    · exact (Option.some.inj hb).symm
    · cases hb
  · obtain ⟨rs, hrs, hr'⟩ := grouped_oldKeys.mpr ⟨hr, hkey, htag⟩
    obtain ⟨arns, harn, hw⟩ := exists_mem_writes (w := removeTags [key]) hr'
    exact ⟨_, List.mem_flatMap.mpr ⟨(key, rs), hrs, hw⟩,
      if_pos ⟨harn, List.mem_singleton_self key⟩⟩

theorem untagged_of_notMem {resources : List Resource} {arn key : Text}
    (h : ∀ r ∈ resources, r.arn = arn → key ∈ cfg.keys → key ∉ r.tags.map Prod.fst) (s : Tagged) :
    applyAll (untagWrites (collected cfg resources)) s (arn, key) = s (arn, key) := by
  refine applyAll_of_none (fun w hw => ?_) s
  obtain ⟨g, hg, hw⟩ := List.mem_flatMap.mp hw
  obtain ⟨arns, rfl, harns⟩ := mem_writes hw
  refine if_neg fun hcell => ?_
  obtain ⟨r, hr, harn⟩ := harns _ hcell.1
  obtain ⟨hr, hkey, htag⟩ := grouped_oldKeys.mp ⟨g.2, hg, hr⟩
  rw [← List.mem_singleton.mp hcell.2] at hkey htag
  exact h r hr harn hkey htag

/-! ## When values are kept -/

/-- The key that is written: an empty one stands for the default. -/
def tagKey (newKey : Text) : Text := if newKey = [] then Tags.defaultTag else newKey

theorem written_eq (rt : Runtime V) (newKey value : Text) :
    written rt newKey value = if value = [] then .ok [] else do
      let value ← interpolateSingleValue rt (rt.now value) value
      return [(tagKey newKey, value)] := by
  rw [written]
  by_cases hvalue : value = []
  · rw [if_pos hvalue, hvalue]
    rfl
  · have hmap : TagData.specMap ⟨none, some value, none, some newKey, []⟩ =
        [(tagKey newKey, value)] := by
      by_cases hnewKey : newKey = [] <;>
        simp [TagData.specMap, truthy, hvalue, hnewKey, tagKey, Items.set]
    rw [if_neg hvalue, hmap, interpolateValues, List.mapM_cons, List.mapM_nil]
    cases interpolateSingleValue rt (rt.now value) value <;> rfl

theorem get_singleton (key key' value : Text) :
    Items.get key [(key', value)] = if key = key' then some value else none := by
  rw [Items.get, Items.lookup_cons]
  rfl

theorem Keeps.get_written {tags : Text → Option Text} (h : Keeps rt cfg newKey tags) {value : Text}
    (hvalue : firstValue cfg tags = some value) :
    (∃ tags, written rt newKey value = .ok tags) ∧ ∀ key,
      (Items.get key ((written rt newKey value).toOption.getD [])).or (tags key) =
        if key = newKey then some value else tags key := by
  rw [written_eq]
  rcases h.unchanged value hvalue with ⟨hnewKey, hne, hformat⟩ | ⟨rfl, htag⟩
  · rw [if_neg hne, hformat, tagKey, if_neg hnewKey]
    refine ⟨⟨_, rfl⟩, fun key => ?_⟩
    change (Items.get key [(newKey, value)]).or (tags key) = _
    rw [get_singleton]
    split <;> rfl
  · rw [if_pos rfl]
    refine ⟨⟨_, rfl⟩, fun key => ?_⟩
    change tags key = _
    split
    · rename_i hkey
      rw [hkey, htag]
    · rfl

theorem kept_of_get (tags : Text → Option Text) {value : Text} (hempty : tags [] = none)
    (hwritten : ∃ tags, written rt newKey value = .ok tags)
    (hget : (Items.get newKey ((written rt newKey value).toOption.getD [])).or (tags newKey) =
      some value) :
    (newKey ≠ [] ∧ value ≠ [] ∧ interpolateSingleValue rt (rt.now value) value = .ok value) ∨
      (value = [] ∧ tags newKey = some []) := by
  rw [written_eq] at hwritten hget
  by_cases hvalue : value = []
  · rw [if_pos hvalue] at hget
    exact Or.inr ⟨hvalue, hvalue ▸ hget⟩
  · rw [if_neg hvalue] at hwritten hget
    cases hformat : interpolateSingleValue rt (rt.now value) value with
    | error e =>
      rw [hformat] at hwritten
      obtain ⟨_, hwritten⟩ := hwritten
      cases hwritten
    | ok formatted =>
      rw [hformat] at hget
      change (Items.get newKey [(tagKey newKey, formatted)]).or (tags newKey) = some value at hget
      rw [get_singleton] at hget
      by_cases hnewKey : newKey = []
      · -- the default key is written instead of the empty one
        rw [hnewKey, hempty, if_neg (by decide)] at hget
        cases hget
      · rw [if_pos (by rw [tagKey, if_neg hnewKey]), Option.some_or, Option.some.injEq] at hget
        exact Or.inl ⟨hnewKey, hvalue, hget ▸ rfl⟩

theorem tags_after (inv : Inventory) {r : Resource} (hr : r ∈ inv.resources) (key : Text) :
    applyAll (untagWrites (collected cfg inv.resources))
        (applyAll (tagWrites rt newKey (collected cfg inv.resources)) inv.service) (r.arn, key) =
      match firstValue cfg fun key => inv.service (r.arn, key) with
      | none => inv.service (r.arn, key)
      | some value =>
        if key ∈ cfg.keys ∧ (inv.service (r.arn, key)).isSome then none
        else (Items.get key ((written rt newKey value).toOption.getD [])).or
          (inv.service (r.arn, key)) := by
  have hmem {r' : Resource} (hr' : r' ∈ inv.resources) (harn : r'.arn = r.arn) :
      key ∈ r'.tags.map Prod.fst ↔ (inv.service (r.arn, key)).isSome = true := by
    rw [← harn, inv.tags_eq r' hr' key, Items.isSome_get]
  cases hvalue : firstValue cfg fun key => inv.service (r.arn, key) with
  | none =>
    have hnone := firstValue_eq_none.mp hvalue
    rw [untagged_of_notMem, tagged_of_none]
    · intro r' hr' harn
      rw [inv.get_eq hr', harn, hvalue]
    · intro r' hr' harn hkey htag
      rw [hmem hr' harn, hnone key hkey] at htag
      cases htag
  | some value =>
    dsimp only
    split
    · rename_i h
      exact untagged_of_mem hr h.1 ((hmem hr rfl).mpr h.2) _
    · rename_i h
      rw [untagged_of_notMem, tagged_eq inv hr hvalue]
      exact fun r' hr' harn hkey htag => h ⟨hkey, (hmem hr' harn).mp htag⟩

/-- **Renaming.**  The action renames the old keys of all resources if and only if it keeps the
value of every one. -/
theorem process_renames_iff (hnew : cfg.newKey = some newKey) (hnewKey : newKey ∉ cfg.keys)
    (inv : Inventory) :
    Renames rt cfg newKey inv ↔
      ∀ r ∈ inv.resources, Keeps rt cfg newKey fun key => inv.service (r.arn, key) := by
  have hlisted {r : Resource} (hr : r ∈ inv.resources) : Listed cfg r.tags ↔
      ∀ key ∈ cfg.keys, (inv.service (r.arn, key)).isSome → key ∈ cfg.oldKeys.getD [] := by
    simp only [inv.tags_eq r hr, Items.isSome_get]
    constructor
    · intro h key hkey htag
      obtain ⟨t, ht, rfl⟩ := List.mem_map.mp htag
      exact h t ht hkey
    · exact fun h t ht hkey => h t.1 hkey (List.mem_map_of_mem ht)
  simp only [Renames, process_eq_ok_iff hnew]
  constructor
  · rintro ⟨_, ⟨hall, hwritten, rfl⟩, htags, -⟩ r hr
    refine ⟨(hlisted hr).mp (hall r hr), fun value hvalue => ?_⟩
    obtain ⟨rs, hrs, -⟩ := grouped_values.mpr ⟨hr, inv.get_eq hr ▸ hvalue⟩
    have hget := htags r hr newKey
    rw [tags_after inv hr, renamed, hvalue] at hget
    simp only [hnewKey, false_and, if_false, if_true] at hget
    refine kept_of_get (fun key => inv.service (r.arn, key)) ?_ (hwritten (value, rs) hrs) hget
    rw [inv.tags_eq r hr]
    exact Items.lookup_eq_none.mpr r.key_ne
  · intro hkeeps
    refine ⟨_, ⟨fun r hr => (hlisted hr).mpr (hkeeps r hr).listed, ?_, rfl⟩, ?_, ?_⟩
    · intro g hg
      obtain ⟨r, hr, hvalue⟩ := exists_grouped_values hg
      exact ((hkeeps r hr).get_written (inv.get_eq hr ▸ hvalue)).1
    · intro r hr key
      rw [tags_after inv hr, renamed]
      cases hvalue : firstValue cfg fun key => inv.service (r.arn, key) with
      | none => rfl
      | some value =>
        dsimp only
        rw [((hkeeps r hr).get_written hvalue).2 key]
        by_cases hkey : key = newKey
        · rw [if_pos hkey, if_pos hkey, if_neg fun h => hnewKey (hkey ▸ h.1)]
        · rw [if_neg hkey, if_neg hkey]
          by_cases hold : key ∈ cfg.keys
          · cases htag : inv.service (r.arn, key) <;> simp [hold]
          · simp [hold]
    · intro arn harn key
      have hother (r : Resource) (hr : r ∈ inv.resources) : r.arn ≠ arn := fun h =>
        harn (List.mem_map.mpr ⟨r, hr, h⟩)
      rw [untagged_of_notMem fun r hr h => absurd h (hother r hr),
        tagged_of_none fun r hr h => absurd h (hother r hr)]

/-! ### An old key outside of the list -/

/-- A runtime without placeholders. -/
def sampleRuntime : Runtime Unit where
  objects :=
    { ofText := fun _ => ()
      attr := fun _ _ => .error .attributeError
      item := fun _ _ => .error .typeError
      format := fun _ _ => .ok []
      str := fun _ => []
      repr := fun _ => .ok []
      ascii := fun _ => .ok [] }
  accountId := ()
  region := ()
  now := fun _ => ()
  order := ⟨id, fun _ => .refl _⟩
  random := fun _ => 0

/-- `old_key: Application` and `new_key: App` -/
def sampleRename : Rename := ⟨none, some "Application".toList, some "App".toList⟩

def sampleResource : Resource where
  arn := "arn-1".toList
  tags := [("Application".toList, "web".toList)]
  nodup := List.nodup_singleton _
  key_ne := by decide

def sampleInventory : Inventory where
  resources := [sampleResource]
  service := fun cell => if cell.1 = "arn-1".toList then Items.get cell.2 sampleResource.tags else none
  tags_eq r hr key := by
    rw [List.mem_singleton.mp hr]
    exact if_pos rfl

/-- The configuration is valid, and the action raises a `KeyError`. -/
theorem sampleRename_raises :
    sampleRename.validate = .ok () ∧
    process sampleRuntime sampleRename sampleInventory.resources sampleInventory.service =
      .error .keyError ∧
    ¬ Renames sampleRuntime sampleRename "App".toList sampleInventory := by
  have hprocess : process sampleRuntime sampleRename sampleInventory.resources
      sampleInventory.service = .error .keyError := rfl
  refine ⟨rfl, hprocess, fun h => ?_⟩
  obtain ⟨s, hs, -⟩ := h
  rw [hprocess] at hs
  cases hs

/-- The condition at that resource. -/
theorem sampleRename_renames_iff :
    Renames sampleRuntime sampleRename "App".toList sampleInventory ↔
      ∀ r ∈ sampleInventory.resources, Keeps sampleRuntime sampleRename "App".toList
        fun key => sampleInventory.service (r.arn, key) :=
  process_renames_iff rfl (by decide) sampleInventory

end Custodian.TagRename

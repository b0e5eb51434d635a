import Custodian.Lib.FormatString
import Custodian.Lib.Json
import Custodian.Lib.SortedSet
import Custodian.Lib.StableSort
import Custodian.Lib.Updates

/-!
# Groups of resources with the same tags

`TagValueResolver.resolve_and_group` of `c7n/tags.py` resolves the tags of each resource and groups
the resources by what is resolved, and `Lookup` of `c7n/lookup.py` resolves one value.
-/

namespace Custodian.ResolveAndGroup

open Py Py.Format

/-! ## Lookups -/

/-- `{type: resource, key: .., default-value: ..}` -/
structure Lookup where
  key : Option Text
  defaultValue : Option Json
  key_or_default : key.isSome ∨ defaultValue.isSome

/-- The value of a tag as it is given. -/
inductive Spec where
  | scalar (value : Json)
  | lookup (source : Lookup)

/-- The specs of an action by the names of the tags. -/
structure SpecMap where
  items : List (Text × Spec)
  distinct : (items.map Prod.fst).Nodup

/-- The members of a resource. -/
abbrev Resource := List (Text × Json)

/-- What resolving a value raises. -/
inductive Failure where
  | raised (e : Exn)
  | lookup (message : Text)
  deriving DecidableEq

/-- The formatter, the values of the placeholders of a run, and the search of an expression. -/
structure Runtime (V : Type) where
  objects : Objects V
  accountId : V
  now : V
  region : V
  str : Json → Text
  jmespathSearch : Text → Json → Except Exn Json

def raises {α : Type} : Except Exn α → Except Failure α
  | .ok a => .ok a
  | .error e => .error (.raised e)

variable {V : Type} (rt : Runtime V)

/-- `Lookup.get_value_from_resource` -/
def getValueFromResource (source : Lookup) (resource : Resource) : Except Failure Json := do
  let value ← match source.key with
    | some key => raises (rt.jmespathSearch key (.obj resource))
    | none => .ok .null
  match value, source.defaultValue with
  | .null, none => .error (.lookup ("Lookup for key, ".toList ++ source.key.getD [] ++
      ", returned None".toList))
  | .null, some value => .ok value
  | value, _ => .ok value

/-- `Lookup.resolve_value`: `none` is `Lookup.SKIP`. -/
def resolveValue (spec : Spec) (resource : Resource) (name : Text) (currentNames : List Json) :
    Except Failure (Option Json) :=
  match spec with
  | .scalar value => .ok (some value)
  | .lookup source =>
    let present := currentNames.any fun
      | .str s => s = name
      | _ => false
    if source.key.isNone ∧ present then .ok none
    else some <$> getValueFromResource rt source resource

/-! ## Tags of a resource -/

/-- One element of a list of tags. -/
def addTagKey (keys : List Json) : Json → Except Exn (List Json)
  | .obj ms =>
    match ms.lookup "Key".toList with
    | some key => if key.hashable then .ok (keys ++ [key]) else .error .typeError
    | none => .ok keys
  | _ => .ok keys

/-- `resource_tag_keys` -/
def resourceTagKeys (resource : Resource) : Except Exn (List Json) :=
  match (resource.lookup "Tags".toList).getD (.arr []) with
  | .obj ms => .ok (ms.map fun e => .str e.1)
  | current => if current.truthy then do (← current.iter).foldlM addTagKey [] else .ok []

/-- `interpolate_single_value` -/
def interpolateSingleValue (value : Json) : Except Exn Text :=
  Format.format rt.objects []
    (Dict.ofPairs [("account_id".toList, rt.accountId), ("now".toList, rt.now),
      ("region".toList, rt.region)]) (rt.str value)

/-- A tag that is resolved, if it is not left out. -/
def resolveTag (resource : Resource) (current : List Json) (resolved : List (Text × Text))
    (e : Text × Spec) : Except Failure (List (Text × Text)) := do
  match ← resolveValue rt e.2 resource e.1 current with
  | none => return resolved
  | some value => return Items.set e.1 (← raises (interpolateSingleValue rt value)) resolved

/-- `resolve_resource_tags` -/
def resolveResourceTags (specMap : SpecMap) (resource : Resource) :
    Except Failure (List (Text × Text)) := do
  let current ← raises (resourceTagKeys resource)
  specMap.items.foldlM (resolveTag rt resource current) []

/-! ## Groups -/

/-- The order of pairs of texts. -/
def ltItem (a b : Text × Text) : Bool := Text.lt a.1 b.1 || (a.1 = b.1 && Text.lt a.2 b.2)

/-- `tuple(sorted(resolved.items()))` -/
def signature (resolved : List (Text × Text)) : List (Text × Text) :=
  StableSort.sort ltItem resolved

/-- A group: its resources, and the tags that they are given. -/
abbrev Group := List Resource × List (Text × Text)

/-- `groups.setdefault(sig, ([], resolved))[0].append(r)`, of what is under the signature. -/
def append (group : Option Group) (x : Resource × List (Text × Text)) : Group :=
  let (members, resolved) := group.getD ([], x.2)
  (members ++ [x.1], resolved)

/-- One resource of `resolve_and_group`. -/
def addResource (specMap : SpecMap) (groups : List (List (Text × Text) × Group)) (r : Resource) :
    Except Failure (List (List (Text × Text) × Group)) := do
  let resolved ← resolveResourceTags rt specMap r
  if resolved = [] then return groups
  else
    let sig := signature resolved
    return Items.set sig (append (Items.get sig groups) (r, resolved)) groups

/-- `resolve_and_group` -/
def resolveAndGroup (resources : List Resource) (specMap : SpecMap) :
    Except Failure (List Group) := do
  let groups ← resources.foldlM (addResource rt specMap) []
  return groups.map Prod.snd

/-- What is written when each group's tags are applied to its resources. -/
def writes (groups : List Group) : List (Resource × List (Text × Text)) :=
  groups.flatMap fun g => g.1.map fun r => (r, g.2)

/-! ## The classes of resources -/

/-- The resources whose payload is not empty, with their own payloads. -/
def own (specMap : SpecMap) (resources : List Resource) : List (Resource × List (Text × Text)) :=
  resources.filterMap fun r =>
    match resolveResourceTags rt specMap r with
    | .ok (e :: tags) => some (r, e :: tags)
    | _ => none

/-- The groups are the classes of resources with the same payload that is not empty. -/
structure Partition (specMap : SpecMap) (resources : List Resource) (groups : List Group) :
    Prop where
  /-- The resources of a group are those with its payload, in their order. -/
  members : ∀ g ∈ groups, g.1 = resources.filter fun r => resolveResourceTags rt specMap r = .ok g.2
  nonempty : ∀ g ∈ groups, g.1 ≠ [] ∧ g.2 ≠ []
  distinct : (groups.map Prod.snd).Nodup
  covers : ∀ r ∈ resources, ∀ tags, resolveResourceTags rt specMap r = .ok tags → tags ≠ [] →
    ∃ g ∈ groups, g.2 = tags
  /-- Resources share a group when their payloads have the same items. -/
  shared : ∀ r ∈ resources, ∀ r' ∈ resources, ∀ tags tags',
    resolveResourceTags rt specMap r = .ok tags → resolveResourceTags rt specMap r' = .ok tags' →
    tags ≠ [] → ((∃ g ∈ groups, r ∈ g.1 ∧ r' ∈ g.1) ↔ tags.Perm tags')
  writes : (writes groups).Perm (own rt specMap resources)

/-- A call gives the classes when every payload resolves, and else raises what the first that does
not resolve raises. -/
def Groups (specMap : SpecMap) (resources : List Resource) : Except Failure (List Group) → Prop
  | .ok groups => (∀ r ∈ resources, ∃ tags, resolveResourceTags rt specMap r = .ok tags) ∧
      Partition rt specMap resources groups
  | .error e => ∃ before r after, resources = before ++ r :: after ∧
      (∀ r' ∈ before, ∃ tags, resolveResourceTags rt specMap r' = .ok tags) ∧
      resolveResourceTags rt specMap r = .error e

/-! ## One payload -/

theorem exists_added {resource : Resource} {current : List Json} {es : List (Text × Spec)}
    {resolved tags : List (Text × Text)} (hn : (es.map Prod.fst).Nodup)
    (hnew : ∀ e ∈ es, e.1 ∉ resolved.map Prod.fst)
    (h : es.foldlM (resolveTag rt resource current) resolved = .ok tags) :
    ∃ added, tags = resolved ++ added ∧ (added.map Prod.fst).Sublist (es.map Prod.fst) := by
  induction es generalizing resolved with
  | nil => exact ⟨[], by rw [← pure_eq_ok.mp h, List.append_nil], List.Sublist.refl _⟩
  | cons e es ih =>
    rw [List.map_cons, List.nodup_cons] at hn
    rw [List.forall_mem_cons] at hnew
    rw [List.foldlM_cons, bind_eq_ok] at h
    obtain ⟨next, hstep, h⟩ := h
    rw [resolveTag, bind_eq_ok] at hstep
    obtain ⟨value, -, hstep⟩ := hstep
    cases value with
    | none =>
      obtain rfl : resolved = next := pure_eq_ok.mp hstep
      obtain ⟨added, rfl, hadded⟩ := ih hn.2 hnew.2 h
      exact ⟨added, rfl, hadded.trans (List.sublist_cons_self _ _)⟩
    | some value =>
      obtain ⟨text, -, hstep⟩ := bind_eq_ok.mp hstep
      have hnext : next = resolved ++ [(e.1, text)] := by
        rw [← pure_eq_ok.mp hstep, Items.set_of_not_mem hnew.1]
      have hother : ∀ e' ∈ es, e'.1 ∉ next.map Prod.fst := by
        intro e' he' hmem
        rw [hnext, List.map_append, List.mem_append] at hmem
        rcases hmem with hmem | hmem
        · exact hnew.2 e' he' hmem
        · exact hn.1 (List.mem_singleton.mp hmem ▸ List.mem_map_of_mem he')
      obtain ⟨added, rfl, hadded⟩ := ih hn.2 hother h
      refine ⟨(e.1, text) :: added, ?_, ?_⟩
      · rw [hnext, List.append_assoc, List.singleton_append]
      · rw [List.map_cons, List.map_cons]
        exact hadded.cons_cons _

/-- **One payload.**  Resolved tags come in the order of their specs. -/
theorem keys_sublist {specMap : SpecMap} {resource : Resource} {tags : List (Text × Text)}
    (h : resolveResourceTags rt specMap resource = .ok tags) :
    (tags.map Prod.fst).Sublist (specMap.items.map Prod.fst) := by
  rw [resolveResourceTags, bind_eq_ok] at h
  obtain ⟨current, -, h⟩ := h
  obtain ⟨added, rfl, hadded⟩ :=
    exists_added rt specMap.distinct (fun _ _ => List.not_mem_nil) h
  exact hadded

theorem signature_perm (tags : List (Text × Text)) : (signature tags).Perm tags :=
  StableSort.sort_perm ltItem tags

variable {rt} {specMap : SpecMap}

theorem eq_of_perm {r r' : Resource} {tags tags' : List (Text × Text)}
    (h : resolveResourceTags rt specMap r = .ok tags)
    (h' : resolveResourceTags rt specMap r' = .ok tags') (hperm : tags.Perm tags') : tags = tags' :=
  Items.eq_of_perm specMap.distinct (keys_sublist rt h) (keys_sublist rt h') hperm

theorem signature_inj {r r' : Resource} {tags tags' : List (Text × Text)}
    (h : resolveResourceTags rt specMap r = .ok tags)
    (h' : resolveResourceTags rt specMap r' = .ok tags') :
    signature tags = signature tags' ↔ tags = tags' :=
  ⟨fun hsig => eq_of_perm h h' ((signature_perm tags).symm.trans (hsig ▸ signature_perm tags')),
    congrArg signature⟩

/-! ## The resources with payloads -/

theorem mem_own {resources : List Resource} {x : Resource × List (Text × Text)} :
    x ∈ own rt specMap resources ↔
      x.1 ∈ resources ∧ resolveResourceTags rt specMap x.1 = .ok x.2 ∧ x.2 ≠ [] := by
  rw [own, List.mem_filterMap]
  constructor
  · rintro ⟨r, hr, hx⟩
    split at hx
    · rename_i htags
      cases hx
      exact ⟨hr, htags, List.cons_ne_nil _ _⟩
    · cases hx
  · rintro ⟨hr, htags, hne⟩
    obtain ⟨r, _ | ⟨e, tags⟩⟩ := x
    · exact absurd rfl hne
    · exact ⟨r, hr, by rw [htags]⟩

theorem own_filter (resources : List Resource) {tags : List (Text × Text)} (hne : tags ≠ []) :
    ((own rt specMap resources).filter fun x => x.2 = tags) =
      (resources.filter fun r => resolveResourceTags rt specMap r = .ok tags).map
        fun r => (r, tags) := by
  induction resources with
  | nil => rfl
  | cons r resources ih =>
    rw [own, List.filterMap_cons, List.filter_cons]
    split
    · rename_i hnone
      rw [← own, ih, if_neg]
      intro hr
      rw [of_decide_eq_true hr] at hnone
      cases tags with
      | nil => exact hne rfl
      | cons e tags => cases hnone
    · rename_i x hx
      split at hx
      · rename_i e tags' hr
        cases hx
        rw [List.filter_cons, ← own, ih, hr]
        by_cases htags : e :: tags' = tags <;> simp [htags]
      · cases hx

/-! ## The loop -/

theorem foldlM_addResource {resources : List Resource}
    {groups : List (List (Text × Text) × Group)} :
    resources.foldlM (addResource rt specMap) [] = .ok groups ↔
      (∀ r ∈ resources, ∃ tags, resolveResourceTags rt specMap r = .ok tags) ∧
        groups = Items.updates (fun x => signature x.2) append [] (own rt specMap resources) := by
  have hstep : ∀ d r d', addResource rt specMap d r = .ok d' ↔
      (∃ tags, resolveResourceTags rt specMap r = .ok tags) ∧
        d' = Items.updates (fun x => signature x.2) append d (own rt specMap [r]) := by
    intro d r d'
    rw [addResource, bind_eq_ok, own, List.filterMap_cons, List.filterMap_nil]
    cases hr : resolveResourceTags rt specMap r with
    | error e => simp
    | ok tags =>
      cases tags <;> simp only [Except.ok.injEq, exists_eq_left', exists_eq', true_and]
      · exact pure_eq_ok.trans eq_comm
      · exact pure_eq_ok.trans eq_comm
  have hfold : ∀ d, resources.foldl (fun d r => Items.updates (fun x => signature x.2) append d
      (own rt specMap [r])) d = Items.updates (fun x => signature x.2) append d
        (own rt specMap resources) := by
    induction resources with
    | nil => exact fun _ => rfl
    | cons r resources ih =>
      intro d
      have hcons : own rt specMap (r :: resources) =
          own rt specMap [r] ++ own rt specMap resources := List.filterMap_append (l := [r])
      rw [List.foldl_cons, ih, hcons, Items.updates_append]
  rw [foldlM_eq_ok_iff hstep, hfold]

section Collected

variable (resources : List Resource)

/-- The groups by their signatures. -/
def collected (rt : Runtime V) (specMap : SpecMap) (resources : List Resource) :
    List (List (Text × Text) × Group) :=
  Items.updates (fun x => signature x.2) append [] (own rt specMap resources)

theorem nodup_collected : ((collected rt specMap resources).map Prod.fst).Nodup :=
  Items.keys_nodup_updates (d := []) List.nodup_nil _

/-- **One group.**  What is under the signature of a payload: the resources with the payload. -/
theorem get_collected {r : Resource} {tags : List (Text × Text)}
    (hr : (r, tags) ∈ own rt specMap resources) :
    Items.get (signature tags) (collected rt specMap resources) =
      some (resources.filter fun r => resolveResourceTags rt specMap r = .ok tags, tags) := by
  have happend : ∀ (g : Group) l, Items.update append (some g) l =
      some (g.1 ++ l.map Prod.fst, g.2) := by
    intro g l
    induction l generalizing g with
    | nil => simp [Items.update]
    | cons x l ih =>
      rw [Items.update, List.foldl_cons, ← Items.update, ih]
      simp [append]
  have hclass : (own rt specMap resources).filter (fun x => signature x.2 = signature tags) =
      (resources.filter fun r => resolveResourceTags rt specMap r = .ok tags).map
        fun r => (r, tags) := by
    rw [← own_filter resources (mem_own.mp hr).2.2]
    refine List.filter_congr fun x hx => ?_
    rw [decide_eq_decide]
    exact signature_inj (mem_own.mp hx).2.1 (mem_own.mp hr).2.1
  have hmem : r ∈ resources.filter fun r => resolveResourceTags rt specMap r = .ok tags :=
    List.mem_filter.mpr ⟨(mem_own.mp hr).1, decide_eq_true (mem_own.mp hr).2.1⟩
  rw [collected, Items.get_updates, hclass]
  generalize resources.filter (fun r => resolveResourceTags rt specMap r = .ok tags) = members at hmem
  cases members with
  | nil => cases hmem
  | cons r members =>
    rw [List.map_cons, Items.update, List.foldl_cons, ← Items.update]
    simp only [append, Option.getD_none, Items.get, List.lookup_nil]
    rw [happend, List.map_map]
    exact congrArg (fun l => some (r :: l, tags)) (List.map_id members)

theorem mem_collected {x : List (Text × Text) × Group} (h : x ∈ collected rt specMap resources) :
    x.2.1 ≠ [] ∧ (∃ r, (r, x.2.2) ∈ own rt specMap resources) ∧ x.1 = signature x.2.2 ∧
      x.2.1 = resources.filter fun r => resolveResourceTags rt specMap r = .ok x.2.2 := by
  have hkey : x.1 ∈ (collected rt specMap resources).map Prod.fst := List.mem_map_of_mem h
  rw [collected, Items.mem_keys_updates] at hkey
  obtain ⟨⟨r, tags⟩, hr, hsig⟩ := hkey.resolve_left List.not_mem_nil
  have hget : Items.get x.1 (collected rt specMap resources) = some x.2 :=
    (Items.mem_iff_lookup (nodup_collected resources)).mp h
  rw [← hsig, get_collected resources hr, Option.some.injEq] at hget
  rw [← hget]
  refine ⟨List.ne_nil_of_mem (a := r) (List.mem_filter.mpr ?_), ⟨r, hr⟩, hsig.symm, rfl⟩
  exact ⟨(mem_own.mp hr).1, decide_eq_true (mem_own.mp hr).2.1⟩

end Collected

/-! ## The partition -/

section Partition

variable {resources : List Resource}

theorem mem_map_collected {g : Group}
    (h : g ∈ (collected rt specMap resources).map Prod.snd) :
    g.1 ≠ [] ∧ (∃ r, (r, g.2) ∈ own rt specMap resources) ∧
      g.1 = resources.filter fun r => resolveResourceTags rt specMap r = .ok g.2 := by
  obtain ⟨x, hx, rfl⟩ := List.mem_map.mp h
  have := mem_collected resources hx
  exact ⟨this.1, this.2.1, this.2.2.2⟩

theorem distinct_collected (rt : Runtime V) (specMap : SpecMap) (resources : List Resource) :
    (((collected rt specMap resources).map Prod.snd).map Prod.snd).Nodup := by
  refine List.Nodup.of_map signature ?_
  have hkeys : (((collected rt specMap resources).map Prod.snd).map Prod.snd).map signature =
      (collected rt specMap resources).map Prod.fst := by
    rw [List.map_map, List.map_map]
    exact List.map_congr_left fun x hx => (mem_collected resources hx).2.2.1.symm
  rw [hkeys]
  exact nodup_collected resources

theorem exists_collected {r : Resource} {tags : List (Text × Text)}
    (h : (r, tags) ∈ own rt specMap resources) :
    ∃ g ∈ (collected rt specMap resources).map Prod.snd, g.2 = tags :=
  ⟨_, List.mem_map_of_mem (Items.mem_of_get (get_collected resources h)), rfl⟩

/-- **Writes.**  Every resource is given its own tags. -/
theorem writes_collected :
    (writes ((collected rt specMap resources).map Prod.snd)).Perm (own rt specMap resources) := by
  have hgroups : writes ((collected rt specMap resources).map Prod.snd) =
      ((collected rt specMap resources).map Prod.snd).flatMap fun g =>
        (own rt specMap resources).filter fun x => x.2 = g.2 := by
    refine List.flatMap_congr fun g hg => ?_
    obtain ⟨-, ⟨r, hr⟩, hmembers⟩ := mem_map_collected hg
    rw [own_filter resources (mem_own.mp hr).2.2, ← hmembers]
  have hall : ∀ x ∈ own rt specMap resources,
      x.2 ∈ ((collected rt specMap resources).map Prod.snd).map Prod.snd := by
    intro x hx
    obtain ⟨g, hg, htags⟩ := exists_collected hx
    exact htags ▸ List.mem_map_of_mem hg
  have hperm := Items.perm_flatMap_filter (fun x : Resource × List (Text × Text) => x.2)
    (distinct_collected rt specMap resources) hall
  rwa [List.flatMap_map, ← hgroups] at hperm

theorem partition_collected :
    Partition rt specMap resources ((collected rt specMap resources).map Prod.snd) where
  members g hg := (mem_map_collected hg).2.2
  nonempty g hg := by
    obtain ⟨hne, ⟨r, hr⟩, -⟩ := mem_map_collected hg
    exact ⟨hne, (mem_own.mp hr).2.2⟩
  distinct := distinct_collected rt specMap resources
  covers r hr tags htags hne := exists_collected (mem_own.mpr ⟨hr, htags, hne⟩)
  shared r hr r' hr' tags tags' htags htags' hne := by
    constructor
    · rintro ⟨g, hg, hmem, hmem'⟩
      rw [(mem_map_collected hg).2.2, List.mem_filter, decide_eq_true_eq] at hmem hmem'
      rw [htags, Except.ok.injEq] at hmem
      rw [htags', Except.ok.injEq] at hmem'
      rw [hmem.2, hmem'.2]
    · intro hperm
      obtain rfl := eq_of_perm htags htags' hperm
      obtain ⟨g, hg, rfl⟩ := exists_collected (mem_own.mpr ⟨hr, htags, hne⟩)
      refine ⟨g, hg, ?_⟩
      rw [(mem_map_collected hg).2.2]
      exact ⟨List.mem_filter.mpr ⟨hr, decide_eq_true htags⟩,
        List.mem_filter.mpr ⟨hr', decide_eq_true htags'⟩⟩
  writes := writes_collected

end Partition

/-- **Dynamic tags.**  The groups are the classes of resources with the same payload. -/
theorem resolveAndGroup_spec (rt : Runtime V) (specMap : SpecMap) (resources : List Resource) :
    Groups rt specMap resources (resolveAndGroup rt resources specMap) := by
  cases hgroups : resolveAndGroup rt resources specMap with
  | ok groups =>
    obtain ⟨d, hd, hvalues⟩ := bind_eq_ok.mp hgroups
    obtain ⟨hresolve, rfl⟩ := foldlM_addResource.mp hd
    exact ⟨hresolve, pure_eq_ok.mp hvalues ▸ partition_collected⟩
  | error e =>
    rw [resolveAndGroup, bind_eq_error] at hgroups
    rcases hgroups with hloop | ⟨_, -, hvalues⟩
    · obtain ⟨before, r, after, d, rfl, hbefore, hr⟩ := exists_of_foldlM_eq_error hloop
      refine ⟨before, r, after, rfl, (foldlM_addResource.mp hbefore).1, ?_⟩
      rw [addResource, bind_eq_error] at hr
      rcases hr with hr | ⟨tags, -, hr⟩
      · exact hr
      · cases tags <;> cases hr
    · cases hvalues

end Custodian.ResolveAndGroup

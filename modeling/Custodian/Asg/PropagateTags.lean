import Custodian.Lib.Except
import Custodian.Lib.Items
import Custodian.Lib.Text

/-!
# Tags that a group propagates to its instances

`PropagateTags` of `c7n/resources/asg.py`.  A group's tags are set on its instances, and with `trim`
tags of the instances are deleted first.  A delete request that names no tag deletes all of them.
-/

namespace Custodian.PropagateTags

open Py

abbrev Tags := List (Text × Text)

def isAws (key : Text) : Bool := key.startsWith "aws:".toList

/-! ## Groups and instances -/

/-- A tag of a group. -/
structure GroupTag where
  key : Text
  value : Text
  propagateAtLaunch : Bool

/-- A group with the ids of its instances; no two of its tags have one key. -/
structure Asg where
  instances : List Text
  tags : List GroupTag
  distinct : (tags.map GroupTag.key).Nodup

/-- What the service says of an instance by its id: its tags, which have distinct keys, or no list
of tags at all. -/
structure Ec2 where
  tags : Text → Option Tags
  distinct : ∀ i ts, tags i = some ts → (ts.map Prod.fst).Nodup

/-- The tags that an instance has. -/
def Ec2.held (ec2 : Ec2) (i : Text) : Tags := (ec2.tags i).getD []

inductive Request where
  | createTags (resources : List Text) (tags : Tags)
  | deleteTags (resources : List Text) (keys : List Text)

/-- The service's tags after a request. -/
def Request.apply (held : Text → Tags) : Request → Text → Tags
  | .createTags resources tags, i =>
    if i ∈ resources then Items.overwrite (held i) tags else held i
  | .deleteTags resources keys, i =>
    if i ∈ resources then (held i).filter fun e => if keys = [] then isAws e.1 else e.1 ∉ keys
    else held i

/-! ## The action -/

/-- `data`, without `tags` for an empty list, and `dryrun` of the configuration. -/
structure Data where
  tags : List Text
  trim : Bool
  dryrun : Bool

/-- `tag_map` -/
def tagMap (d : Data) (asg : Asg) : Tags :=
  let tagMap := Items.ofList ((asg.tags.filter fun t => t.propagateAtLaunch && !isAws t.key).map
    fun t => (t.key, t.value))
  if d.tags.isEmpty then tagMap else tagMap.filter fun e => e.1 ∈ d.tags

/-- `Counter(keys)` -/
def counter (keys : List Text) : List (Text × Nat) :=
  keys.foldl (fun c k => Items.set k ((Items.get k c).getD 0 + 1) c) []

/-- `remove_tags` of `prune_instance_tags`, with the extra tags at its end. -/
def removeTags (tagSet : List Text) (instances : List Tags) : List Text :=
  let instanceTags := counter (instances.flatMap fun ts => (ts.map Prod.fst).filter (!isAws ·))
  let removeTags := instanceTags.filter fun e => instances.length ≤ e.2 && !tagSet.contains e.1
  let extraTags := instanceTags.filter fun e => !(instances.length ≤ e.2)
  removeTags.map Prod.fst ++ extraTags.map Prod.fst

/-- A member of an instance, or else a `KeyError`. -/
def required {α : Type} : Option α → Except Exn α
  | some a => .ok a
  | none => .error .keyError

/-- `prune_instance_tags` -/
def pruneInstanceTags (d : Data) (tagSet : List Text) (instances : List (Text × Option Tags)) :
    Except Exn (List Request) := do
  let tags ← instances.mapM fun i => required i.2
  return if d.dryrun then [] else [.deleteTags (instances.map Prod.fst) (removeTags tagSet tags)]

/-- `get_instance_map` -/
def getInstanceMap (ec2 : Ec2) (asgs : List Asg) : List (Text × Option Tags) :=
  Items.ofList ((asgs.flatMap Asg.instances).map fun i => (i, ec2.tags i))

/-- `process_asg`: the requests and the number of instances. -/
def processAsg (d : Data) (instanceMap : List (Text × Option Tags)) (asg : Asg) :
    Except Exn (List Request × Nat) := do
  let tagMap := tagMap d asg
  let pruned ←
    if d.trim then do
      let instances ← asg.instances.mapM fun i => (required (Items.get i instanceMap)).map (i, ·)
      pruneInstanceTags d (tagMap.map Prod.fst) instances
    else .ok []
  let created :=
    if !d.dryrun && !asg.instances.isEmpty && !tagMap.isEmpty then
      [.createTags asg.instances tagMap]
    else []
  return (pruned ++ created, asg.instances.length)

/-! ## What is expected of the action -/

/-- A tag of the group that is to be propagated. -/
def Data.selects (d : Data) (t : GroupTag) : Bool :=
  t.propagateAtLaunch && !isAws t.key && (d.tags.isEmpty || d.tags.contains t.key)

def selectedKeys (d : Data) (asg : Asg) : List Text := (asg.tags.filter d.selects).map GroupTag.key

/-- The tags of the instances after some requests. -/
def after (held : Text → Tags) (requests : List Request) : Text → Tags :=
  requests.foldl Request.apply held

/-- The selected tags are set, and no others of the group or of the service are touched. -/
structure Propagates (d : Data) (asg : Asg) (held : Text → Tags) (requests : List Request) :
    Prop where
  carries : ∀ i ∈ asg.instances, ∀ t ∈ asg.tags, d.selects t = true →
    Items.get t.key (after held requests i) = some t.value
  keeps : ∀ i ∈ asg.instances, ∀ k, isAws k = true ∨ k ∈ asg.tags.map GroupTag.key →
    k ∉ selectedKeys d asg → Items.get k (after held requests i) = Items.get k (held i)
  loses : ∀ i ∈ asg.instances, ∀ k, k ∈ (held i).map Prod.fst →
    Items.get k (after held requests i) = none → d.trim = true ∧ k ∉ asg.tags.map GroupTag.key
  names : ∀ resources keys, .deleteTags resources keys ∈ requests → keys ≠ []

/-- Some tag is to be deleted, and no tag is that the group carries without propagating it. -/
structure Trimmable (d : Data) (asg : Asg) (ec2 : Ec2) : Prop where
  listed : ∀ i ∈ asg.instances, (ec2.tags i).isSome = true
  something : ∃ i ∈ asg.instances, ∃ k ∈ (ec2.held i).map Prod.fst, isAws k = false ∧
    (k ∉ selectedKeys d asg ∨ ∃ j ∈ asg.instances, k ∉ (ec2.held j).map Prod.fst)
  propagated : ∀ i ∈ asg.instances, ∀ k ∈ (ec2.held i).map Prod.fst, isAws k = false →
    k ∈ asg.tags.map GroupTag.key → k ∈ selectedKeys d asg

/-! ## The tags to propagate -/

theorem tagMap_eq (d : Data) (asg : Asg) :
    tagMap d asg = Items.ofList ((asg.tags.filter d.selects).map fun t => (t.key, t.value)) := by
  rw [tagMap]
  split
  · rename_i hall
    have hselects : d.selects = fun t => t.propagateAtLaunch && !isAws t.key := by
      funext t
      rw [Data.selects, hall, Bool.true_or, Bool.and_true]
    rw [hselects]
  · rename_i hsome
    rw [Items.filter_ofList (fun k => decide (k ∈ d.tags)), List.filter_map, List.filter_filter]
    have hselects : d.selects = fun t =>
        ((fun e : Text × Text => decide (e.1 ∈ d.tags)) ∘ fun t => (t.key, t.value)) t &&
          (t.propagateAtLaunch && !isAws t.key) := by
      funext t
      rw [Data.selects, (Bool.not_eq_true _).mp hsome, Bool.false_or, Bool.and_comm]
      simp
    rw [hselects]

theorem get_tagMap {d : Data} {asg : Asg} {t : GroupTag} (ht : t ∈ asg.tags)
    (hs : d.selects t = true) : Items.get t.key (tagMap d asg) = some t.value := by
  have hnodup : (((asg.tags.filter d.selects).map fun t => (t.key, t.value)).map Prod.fst).Nodup := by
    rw [List.map_map]
    exact asg.distinct.sublist (List.filter_sublist.map GroupTag.key)
  rw [tagMap_eq, Items.get_ofList_of_nodup hnodup, ← Items.mem_iff_get hnodup]
  exact List.mem_map.mpr ⟨t, List.mem_filter.mpr ⟨ht, hs⟩, rfl⟩

theorem mem_keys_tagMap {d : Data} {asg : Asg} {k : Text} :
    k ∈ (tagMap d asg).map Prod.fst ↔ k ∈ selectedKeys d asg := by
  rw [tagMap_eq, Items.mem_keys_ofList, List.map_map]
  rfl

theorem keys_nodup_tagMap (d : Data) (asg : Asg) : ((tagMap d asg).map Prod.fst).Nodup := by
  rw [tagMap_eq]
  exact Items.keys_nodup_ofList _

theorem get_tagMap_eq_none {d : Data} {asg : Asg} {k : Text} (h : k ∉ selectedKeys d asg) :
    Items.get k (tagMap d asg) = none :=
  Items.lookup_eq_none.mpr fun hk => h (mem_keys_tagMap.mp hk)

/-! ## The tags to delete -/

theorem get_counter (keys : List Text) (k : Text) :
    Items.get k (counter keys) = if k ∈ keys then some (keys.count k) else none := by
  induction keys using List.reverseRecOn with
  | nil => rfl
  | append_singleton keys a ih =>
    have hstep : counter (keys ++ [a]) =
        Items.set a ((Items.get a (counter keys)).getD 0 + 1) (counter keys) := by
      rw [counter, List.foldl_append]
      rfl
    rw [hstep, Items.get_set]
    by_cases hk : k = a
    · subst hk
      rw [if_pos rfl, ih, List.count_append, List.count_singleton_self]
      by_cases hmem : k ∈ keys
      · simp [hmem]
      · simp [hmem, List.count_eq_zero_of_not_mem hmem]
    · rw [if_neg hk, ih, List.count_append]
      simp [hk, Ne.symm hk]

theorem keys_nodup_counter (keys : List Text) : ((counter keys).map Prod.fst).Nodup := by
  induction keys using List.reverseRecOn with
  | nil => exact List.nodup_nil
  | append_singleton keys a ih =>
    rw [counter, List.foldl_append]
    exact Items.keys_nodup_set ih

theorem mem_counter {keys : List Text} {k : Text} {n : Nat} :
    (k, n) ∈ counter keys ↔ k ∈ keys ∧ keys.count k = n := by
  rw [Items.mem_iff_get (keys_nodup_counter keys), get_counter]
  split
  · rename_i h
    simp [h]
  · rename_i h
    simp [h]

theorem length_le_count_iff {instances : List (List Text)} (h : ∀ ks ∈ instances, ks.Nodup)
    (k : Text) : instances.length ≤ (instances.flatMap id).count k ↔ ∀ ks ∈ instances, k ∈ ks := by
  have hle : ∀ {instances : List (List Text)}, (∀ ks ∈ instances, ks.Nodup) →
      (instances.flatMap id).count k ≤ instances.length := by
    intro instances h
    induction instances with
    | nil => exact Nat.le_refl _
    | cons ks instances ih =>
      rw [List.forall_mem_cons] at h
      rw [List.flatMap_cons, List.count_append, List.length_cons]
      have hone := List.nodup_iff_count_le_one.mp h.1 k
      have hrest := ih h.2
      simp only [id]
      omega
  induction instances with
  | nil => simp
  | cons ks instances ih =>
    rw [List.forall_mem_cons] at h
    rw [List.forall_mem_cons, List.flatMap_cons, List.count_append, List.length_cons]
    refine Iff.trans ?_ (and_congr Iff.rfl (ih h.2))
    have hone := List.nodup_iff_count_le_one.mp h.1 k
    have hrest := hle h.2
    rw [← List.count_pos_iff]
    simp only [id]
    omega

/-- The keys of the instances that are counted. -/
def countedKeys (instances : List Tags) : List Text :=
  instances.flatMap fun ts => (ts.map Prod.fst).filter (!isAws ·)

theorem mem_countedKeys {instances : List Tags} {k : Text} :
    k ∈ countedKeys instances ↔ (∃ ts ∈ instances, k ∈ ts.map Prod.fst) ∧ isAws k = false := by
  simp only [countedKeys, List.mem_flatMap, List.mem_filter, Bool.not_eq_true']
  exact ⟨fun ⟨ts, hts, hk, ha⟩ => ⟨⟨ts, hts, hk⟩, ha⟩, fun ⟨⟨ts, hts, hk⟩, ha⟩ => ⟨ts, hts, hk, ha⟩⟩

theorem length_le_countedKeys_iff {instances : List Tags}
    (h : ∀ ts ∈ instances, (ts.map Prod.fst).Nodup) {k : Text} (ha : isAws k = false) :
    instances.length ≤ (countedKeys instances).count k ↔
      ∀ ts ∈ instances, k ∈ ts.map Prod.fst := by
  have hflat : countedKeys instances =
      (instances.map fun ts => (ts.map Prod.fst).filter (!isAws ·)).flatMap id := by
    rw [List.flatMap_map]
    rfl
  have hnodup : ∀ ks ∈ instances.map fun ts => (ts.map Prod.fst).filter (!isAws ·), ks.Nodup := by
    intro ks hks
    obtain ⟨ts, hts, rfl⟩ := List.mem_map.mp hks
    exact (h ts hts).sublist List.filter_sublist
  have hlength := length_le_count_iff hnodup k
  rw [List.length_map] at hlength
  rw [hflat, hlength, List.forall_mem_map]
  simp only [List.mem_filter, ha, Bool.not_false, and_true]

theorem mem_removeTags {tagSet : List Text} {instances : List Tags}
    (h : ∀ ts ∈ instances, (ts.map Prod.fst).Nodup) {k : Text} :
    k ∈ removeTags tagSet instances ↔ (∃ ts ∈ instances, k ∈ ts.map Prod.fst) ∧ isAws k = false ∧
      (k ∉ tagSet ∨ ∃ ts ∈ instances, k ∉ ts.map Prod.fst) := by
  have hfound : ∀ p : Nat → Bool, (∃ e, (e ∈ counter (countedKeys instances) ∧ p e.2 = true) ∧
      e.1 = k) ↔ k ∈ countedKeys instances ∧ p ((countedKeys instances).count k) = true := by
    intro p
    constructor
    · rintro ⟨⟨k, n⟩, ⟨he, hp⟩, rfl⟩
      obtain ⟨hk, rfl⟩ := mem_counter.mp he
      exact ⟨hk, hp⟩
    · rintro ⟨hk, hp⟩
      exact ⟨(k, _), ⟨mem_counter.mpr ⟨hk, rfl⟩, hp⟩, rfl⟩
  have hremove : k ∈ removeTags tagSet instances ↔ k ∈ countedKeys instances ∧
      (k ∉ tagSet ∨ ¬ instances.length ≤ (countedKeys instances).count k) := by
    have hin : (∃ e, (e ∈ counter (countedKeys instances) ∧
        (instances.length ≤ e.2 && !tagSet.contains e.1) = true) ∧ e.1 = k) ↔
        k ∈ countedKeys instances ∧
          (instances.length ≤ (countedKeys instances).count k && !tagSet.contains k) = true := by
      rw [← hfound fun n => instances.length ≤ n && !tagSet.contains k]
      refine exists_congr fun e => ?_
      constructor
      · rintro ⟨he, rfl⟩
        exact ⟨he, rfl⟩
      · rintro ⟨he, rfl⟩
        exact ⟨he, rfl⟩
    rw [removeTags, List.mem_append, List.mem_map, List.mem_map]
    simp only [List.mem_filter]
    rw [← countedKeys, hin, hfound fun n => !(instances.length ≤ n), ← and_or_left]
    refine and_congr_right fun _ => ?_
    by_cases hle : instances.length ≤ (countedKeys instances).count k <;> simp [hle]
  rw [hremove, mem_countedKeys, and_assoc]
  refine and_congr_right fun _ => and_congr_right fun ha => or_congr_right ?_
  rw [length_le_countedKeys_iff h ha]
  push Not
  exact Iff.rfl

/-! ## The requests -/

/-- The request that sets the tags, if there are any and an instance. -/
def created (d : Data) (asg : Asg) : List Request :=
  if !asg.instances.isEmpty && !(tagMap d asg).isEmpty then
    [.createTags asg.instances (tagMap d asg)]
  else []

/-- The keys that are deleted of the instances of a group. -/
def removed (d : Data) (asg : Asg) (ec2 : Ec2) : List Text :=
  removeTags ((tagMap d asg).map Prod.fst) (asg.instances.map ec2.held)

theorem listed_instances {ec2 : Ec2} {asgs : List Asg} {asg : Asg} (hasg : asg ∈ asgs) :
    (asg.instances.mapM fun i => (required (Items.get i (getInstanceMap ec2 asgs))).map (i, ·)) =
      .ok (asg.instances.map fun i => (i, ec2.tags i)) := by
  refine mapM_eq_map fun i hi => ?_
  rw [getInstanceMap, Items.get_ofList_map ec2.tags (List.mem_flatMap.mpr ⟨asg, hasg, hi⟩)]
  rfl

theorem pruneInstanceTags_eq_ok_iff {d : Data} (hdry : d.dryrun = false) {ec2 : Ec2} {asg : Asg}
    {requests : List Request} :
    pruneInstanceTags d ((tagMap d asg).map Prod.fst)
        (asg.instances.map fun i => (i, ec2.tags i)) = .ok requests ↔
      (∀ i ∈ asg.instances, (ec2.tags i).isSome = true) ∧
        requests = [.deleteTags asg.instances (removed d asg ec2)] := by
  have hrequired : ∀ (i : Text × Option Tags) ts, required i.2 = .ok ts ↔
      i.2.isSome = true ∧ ts = i.2.getD [] := by
    rintro ⟨i, tags⟩ ts
    cases tags with
    | none => exact iff_of_false (fun h => by cases h) fun h => by cases h.1
    | some tags => simp [required, eq_comm]
  simp only [pruneInstanceTags, hdry, Bool.false_eq_true, if_false, bind_eq_ok, pure_eq_ok,
    mapM_eq_ok_iff hrequired, List.forall_mem_map, List.map_map]
  have hids : asg.instances.map (Prod.fst ∘ fun i => (i, ec2.tags i)) = asg.instances :=
    List.map_id _
  rw [hids]
  constructor
  · rintro ⟨tags, ⟨hall, rfl⟩, rfl⟩
    exact ⟨hall, rfl⟩
  · rintro ⟨hall, rfl⟩
    exact ⟨_, ⟨hall, rfl⟩, rfl⟩

theorem processAsg_eq_ok_iff {d : Data} (hdry : d.dryrun = false) {ec2 : Ec2} {asgs : List Asg}
    {asg : Asg} (hasg : asg ∈ asgs) {requests : List Request} {n : Nat} :
    processAsg d (getInstanceMap ec2 asgs) asg = .ok (requests, n) ↔
      (d.trim = true → ∀ i ∈ asg.instances, (ec2.tags i).isSome = true) ∧
        requests = (if d.trim then [.deleteTags asg.instances (removed d asg ec2)] else []) ++
          created d asg ∧ n = asg.instances.length := by
  rw [processAsg, listed_instances hasg]
  simp only [ok_bind, hdry, Bool.not_false, Bool.true_and]
  rw [← created]
  cases ht : d.trim with
  | false =>
    simp only [Bool.false_eq_true, if_false, pure_eq_ok, Prod.mk.injEq, false_imp_iff, true_and]
    exact ⟨fun h => ⟨h.1.symm, h.2.symm⟩, fun h => ⟨h.1.symm, h.2.symm⟩⟩
  | true =>
    simp only [if_true, bind_eq_ok, pruneInstanceTags_eq_ok_iff hdry, pure_eq_ok, Prod.mk.injEq,
      forall_const]
    constructor
    · rintro ⟨pruned, ⟨hall, rfl⟩, rfl, rfl⟩
      exact ⟨hall, rfl, rfl⟩
    · rintro ⟨hall, rfl, rfl⟩
      exact ⟨_, ⟨hall, rfl⟩, rfl, rfl⟩

/-! ## The tags after the requests -/

theorem get_after_created (held : Text → Tags) (d : Data) {asg : Asg} {i : Text}
    (hi : i ∈ asg.instances) (k : Text) : Items.get k (after held (created d asg) i) =
      (Items.get k (tagMap d asg)).or (Items.get k (held i)) := by
  have hne : asg.instances.isEmpty = false := by
    rw [List.isEmpty_eq_false_iff]
    exact List.ne_nil_of_mem hi
  rw [created, hne]
  cases ht : (tagMap d asg).isEmpty with
  | true =>
    rw [List.isEmpty_iff] at ht
    rw [ht]
    rfl
  | false =>
    simp only [Bool.not_false, Bool.and_self, if_true, after, List.foldl_cons, List.foldl_nil,
      Request.apply, if_pos hi]
    exact Items.get_overwrite (keys_nodup_tagMap d asg) (held i) k

/-- The tag is deleted: it is named, or no tag is. -/
def Deleted (keys : List Text) (k : Text) : Prop := if keys = [] then isAws k = false else k ∈ keys

instance (keys : List Text) (k : Text) : Decidable (Deleted keys k) :=
  inferInstanceAs (Decidable (if keys = [] then isAws k = false else k ∈ keys))

theorem get_after_trim (held : Text → Tags) (d : Data) {asg : Asg} {i : Text}
    (hi : i ∈ asg.instances) (keys : List Text) (k : Text) :
    Items.get k (after held (.deleteTags asg.instances keys :: created d asg) i) =
      (Items.get k (tagMap d asg)).or (if Deleted keys k then none else Items.get k (held i)) := by
  have hdelete : Items.get k (Request.apply held (.deleteTags asg.instances keys) i) =
      if Deleted keys k then none else Items.get k (held i) := by
    rw [Request.apply, if_pos hi]
    by_cases hnone : keys = []
    · simp only [Deleted, if_pos hnone, Items.get_filter isAws]
      cases isAws k <;> rfl
    · simp only [Deleted, if_neg hnone, Items.get_filter fun k => decide (k ∉ keys)]
      by_cases hk : k ∈ keys <;> simp [hk]
  rw [← hdelete]
  exact get_after_created _ d hi k

/-! ## The action on a group -/

theorem mem_removed {d : Data} {asg : Asg} {ec2 : Ec2} {k : Text} :
    k ∈ removed d asg ec2 ↔ (∃ i ∈ asg.instances, k ∈ (ec2.held i).map Prod.fst) ∧
      isAws k = false ∧ (k ∉ selectedKeys d asg ∨
        ∃ j ∈ asg.instances, k ∉ (ec2.held j).map Prod.fst) := by
  have hnodup : ∀ ts ∈ asg.instances.map ec2.held, (ts.map Prod.fst).Nodup := by
    intro ts hts
    obtain ⟨i, hi, rfl⟩ := List.mem_map.mp hts
    rw [Ec2.held]
    cases h : ec2.tags i with
    | none => exact List.nodup_nil
    | some ts => exact ec2.distinct i ts h
  rw [removed, mem_removeTags hnodup, mem_keys_tagMap]
  simp only [List.mem_map (f := ec2.held), exists_exists_and_eq_and]

theorem propagates_created {d : Data} {asg : Asg} (held : Text → Tags) :
    Propagates d asg held (created d asg) := by
  refine ⟨fun i hi t ht hs => ?_, fun i hi k _ hk => ?_, fun i hi k hk hnone => ?_, ?_⟩
  · rw [get_after_created held d hi, get_tagMap ht hs]
    rfl
  · rw [get_after_created held d hi, get_tagMap_eq_none hk]
    rfl
  · rw [get_after_created held d hi, Option.or_eq_none_iff] at hnone
    obtain ⟨v, hv⟩ := Option.isSome_iff_exists.mp (Items.isSome_get.mpr hk)
    rw [hv] at hnone
    cases hnone.2
  · intro resources keys h
    rw [created] at h
    split at h
    · cases List.mem_singleton.mp h
    · cases h

theorem propagates_trim_iff {d : Data} (ht : d.trim = true) {asg : Asg} {ec2 : Ec2}
    (hlisted : ∀ i ∈ asg.instances, (ec2.tags i).isSome = true) :
    Propagates d asg ec2.held (.deleteTags asg.instances (removed d asg ec2) :: created d asg) ↔
      Trimmable d asg ec2 := by
  have hget := fun i hi k => @get_after_trim ec2.held d asg i hi (removed d asg ec2) k
  constructor
  · intro h
    have hne : removed d asg ec2 ≠ [] := h.names _ _ List.mem_cons_self
    refine ⟨hlisted, ?_, fun i hi k hk ha hgroup => ?_⟩
    · obtain ⟨k, hk⟩ := List.exists_mem_of_ne_nil _ hne
      obtain ⟨⟨i, hi, hki⟩, ha, hor⟩ := mem_removed.mp hk
      exact ⟨i, hi, k, hki, ha, hor⟩
    · by_contra hsel
      have hdel : Deleted (removed d asg ec2) k := by
        rw [Deleted, if_neg hne]
        exact mem_removed.mpr ⟨⟨i, hi, hk⟩, ha, Or.inl hsel⟩
      have hnone : Items.get k (after ec2.held
          (.deleteTags asg.instances (removed d asg ec2) :: created d asg) i) = none := by
        rw [hget i hi, get_tagMap_eq_none hsel, if_pos hdel]
        rfl
      exact (h.loses i hi k hk hnone).2 hgroup
  · intro h
    obtain ⟨i, hi, k, hk, ha, hor⟩ := h.something
    have hmem : k ∈ removed d asg ec2 := mem_removed.mpr ⟨⟨i, hi, hk⟩, ha, hor⟩
    have hne : removed d asg ec2 ≠ [] := List.ne_nil_of_mem hmem
    have hdel : ∀ k, Deleted (removed d asg ec2) k ↔ k ∈ removed d asg ec2 := by
      intro k
      rw [Deleted, if_neg hne]
    -- no tag of the group that is not propagated is deleted
    have hstays : ∀ k, isAws k = true ∨ k ∈ asg.tags.map GroupTag.key → k ∉ selectedKeys d asg →
        ¬ Deleted (removed d asg ec2) k := by
      intro k hk hsel hd
      obtain ⟨⟨j, hj, hkj⟩, ha, -⟩ := mem_removed.mp ((hdel k).mp hd)
      rcases hk with hk | hk
      · rw [ha] at hk
        cases hk
      · exact hsel (h.propagated j hj k hkj ha hk)
    refine ⟨fun j hj t ht hs => ?_, fun j hj l hl hsel => ?_, fun j hj l hl hnone => ⟨ht, ?_⟩, ?_⟩
    · rw [hget j hj, get_tagMap ht hs]
      rfl
    · rw [hget j hj, get_tagMap_eq_none hsel, if_neg (hstays l hl hsel)]
      rfl
    · intro hgroup
      rw [hget j hj, Option.or_eq_none_iff] at hnone
      have hsel : l ∉ selectedKeys d asg := by
        intro hsel
        obtain ⟨t, ht, rfl⟩ := List.mem_map.mp hsel
        obtain ⟨ht, hs⟩ := List.mem_filter.mp ht
        rw [get_tagMap ht hs] at hnone
        cases hnone.1
      rw [if_neg (hstays l (Or.inr hgroup) hsel)] at hnone
      obtain ⟨v, hv⟩ := Option.isSome_iff_exists.mp (Items.isSome_get.mpr hl)
      rw [hv] at hnone
      cases hnone.2
    · intro resources keys hin
      rcases List.mem_cons.mp hin with hin | hin
      · cases hin
        exact hne
      · exact (propagates_created ec2.held).names resources keys hin

/-- **Propagation.**  The selected tags are set and nothing else is touched that should not be, when
nothing is trimmed or the group can be trimmed, and only then. -/
theorem processAsg_propagates_iff {d : Data} (hdry : d.dryrun = false) (ec2 : Ec2)
    {asgs : List Asg} {asg : Asg} (hasg : asg ∈ asgs) :
    (∃ requests n, processAsg d (getInstanceMap ec2 asgs) asg = .ok (requests, n) ∧
        Propagates d asg ec2.held requests) ↔
      (d.trim = true → Trimmable d asg ec2) := by
  simp only [processAsg_eq_ok_iff hdry hasg]
  cases ht : d.trim with
  | false =>
    refine iff_of_true ⟨created d asg, _, ⟨fun h => (by cases h), rfl, rfl⟩, propagates_created _⟩ ?_
    intro h
    cases h
  | true =>
    simp only [if_true, forall_const, List.singleton_append]
    constructor
    · rintro ⟨_, _, ⟨hlisted, rfl, rfl⟩, h⟩
      exact (propagates_trim_iff ht hlisted).mp h
    · intro h
      exact ⟨_, _, ⟨h.listed, rfl, rfl⟩, (propagates_trim_iff ht h.listed).mpr h⟩

/-! ## A group with an owner -/

/-- A group with one instance that propagates its owner. -/
def owned : Asg where
  instances := ["web-1".toList]
  tags := [⟨"Owner".toList, "ops".toList, true⟩]
  distinct := by decide

def trimAll : Data where
  tags := []
  trim := true
  dryrun := false

/-- A service whose instances have these tags. -/
def everywhere (ts : Tags) (h : (ts.map Prod.fst).Nodup) : Ec2 where
  tags := fun _ => some ts
  distinct := fun _ _ hts => Option.some.inj hts ▸ h

/-- The instance has the owner and an old tag. -/
def withOld : Ec2 :=
  everywhere [("Owner".toList, "dev".toList), ("Old".toList, "1".toList)] (by decide)

theorem propagated_withOld : ∀ k ∈ ["Owner".toList, "Old".toList], isAws k = false →
    k ∈ owned.tags.map GroupTag.key → k ∈ selectedKeys trimAll owned := by decide

theorem owned_propagates : trimAll.dryrun = false ∧ owned ∈ [owned] ∧
    ∃ requests n, processAsg trimAll (getInstanceMap withOld [owned]) owned = .ok (requests, n) ∧
      Propagates trimAll owned withOld.held requests :=
  ⟨rfl, List.mem_singleton_self _,
    (processAsg_propagates_iff rfl withOld (List.mem_singleton_self _)).mpr fun _ =>
      ⟨fun _ _ => rfl, ⟨_, List.mem_singleton_self _, "Old".toList, by decide, by decide,
        Or.inl (by decide)⟩, fun _ _ => propagated_withOld⟩⟩

/-- The instance has the owner only. -/
def withOwner : Ec2 := everywhere [("Owner".toList, "ops".toList)] (by decide)

/-- There is no tag to delete, and all are. -/
theorem owned_not_propagates : ¬ ∃ requests n,
    processAsg trimAll (getInstanceMap withOwner [owned]) owned = .ok (requests, n) ∧
      Propagates trimAll owned withOwner.held requests := by
  rintro ⟨requests, n, hprocess, h⟩
  have hrun : processAsg trimAll (getInstanceMap withOwner [owned]) owned =
      .ok ([.deleteTags ["web-1".toList] [],
        .createTags ["web-1".toList] [("Owner".toList, "ops".toList)]], 1) := by rfl
  rw [hrun] at hprocess
  obtain ⟨rfl, rfl⟩ := Prod.mk.inj (Except.ok.inj hprocess)
  exact h.names _ _ List.mem_cons_self rfl

end Custodian.PropagateTags

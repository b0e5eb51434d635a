import Custodian.Lib.Items
import Mathlib.Data.Set.Basic

/-!
# Setting an IAM policy

`SetIamPolicy` of `c7n_gcp/actions/iampolicy.py`: the bindings that are written back
after `add-bindings` and `remove-bindings`.
-/

namespace Custodian.IamPolicy

open Py

/-! ## Bindings -/

/-- An entry of a policy's `bindings`. -/
structure Binding (R C M : Type) where
  role : R
  condition : Option C
  members : List M
  deriving DecidableEq

/-- A policy as `getIamPolicy` returns it. -/
structure Policy (R C M : Type) where
  bindings : List (Binding R C M)
  members_ne : ∀ b ∈ bindings, b.members ≠ []
  members_nodup : ∀ b ∈ bindings, b.members.Nodup

/-- An entry of `add-bindings`. -/
structure Addition (R M : Type) where
  role : R
  members : List M

/-- `members` of an entry of `remove-bindings`. -/
inductive Members (M : Type) where
  | star
  | list (members : List M)

/-- An entry of `remove-bindings`. -/
structure Removal (R M : Type) where
  role : R
  members : Members M

variable {R C M β : Type} [DecidableEq R] [DecidableEq M]

/-- `_get_roles_to_bindings_dict` -/
def rolesToBindings (role : β → R) (bindingsList : List β) : List (R × β) :=
  Items.ofList (bindingsList.map fun binding => (role binding, binding))

/-- The binding of a role that is added to. -/
def merge (a : Addition R M) : Option (Binding R C M) → Binding R C M
  | some e => ⟨a.role, none, e.members ++ a.members.filter fun m => m ∉ e.members⟩
  | none => ⟨a.role, none, a.members⟩

/-- `_add_bindings` -/
def addBindings (existingBindings : List (Binding R C M)) (bindingsToAdd : List (Addition R M)) :
    List (Binding R C M) :=
  let rolesToExisting := rolesToBindings Binding.role existingBindings
  let rolesToAdd := rolesToBindings Addition.role bindingsToAdd
  (rolesToAdd.map fun a => merge a.2 (rolesToExisting.lookup a.1)) ++
    (rolesToExisting.filter fun e => (rolesToAdd.lookup e.1).isNone).map Prod.snd

/-- The binding of a role that is named for removal, if one is written back. -/
def prune (e : Binding R C M) : Members M → Option (Binding R C M)
  | .star => none
  | .list toRemove =>
    let updated := e.members.filter fun m => m ∉ toRemove
    if updated.length > 0 then some { e with members := updated } else none

/-- `_remove_bindings` -/
def removeBindings (existingBindings : List (Binding R C M))
    (bindingsToRemove : List (Removal R M)) : List (Binding R C M) :=
  let rolesToExisting := rolesToBindings Binding.role existingBindings
  let rolesToRemove := rolesToBindings Removal.role bindingsToRemove
  (rolesToRemove.filterMap fun x =>
      (rolesToExisting.lookup x.1).bind fun e => prune e x.2.members) ++
    (rolesToExisting.filter fun e => (rolesToRemove.lookup e.1).isNone).map Prod.snd

/-- `_remove_matched_bindings` -/
def removeMatchedBindings (existingBindings : List (Binding R C M)) (matchedPairs : List (R × M)) :
    List (Binding R C M) :=
  existingBindings.filterMap fun binding =>
    let updated := binding.members.filter fun m => (binding.role, m) ∉ matchedPairs
    if updated.length > 0 then some { binding with members := updated } else none

/-- The `remove-bindings` key: `matched` with the pairs the filter has annotated, or a list. -/
inductive RemoveBindings (R M : Type) where
  | matched (pairs : List (R × M))
  | entries (bindings : List (Removal R M))

/-- The bindings of `get_resource_params`. -/
def bindingsToSet (existing : List (Binding R C M)) (add : List (Addition R M)) :
    RemoveBindings R M → List (Binding R C M)
  | .matched pairs => removeMatchedBindings (addBindings existing add) pairs
  | .entries remove => removeBindings (addBindings existing add) remove

/-! ## Grants -/

/-- The grants of a list of bindings. -/
def granted (bindings : List (Binding R C M)) : Set (R × Option C × M) :=
  {g | ∃ b ∈ bindings, b.role = g.1 ∧ b.condition = g.2.1 ∧ g.2.2 ∈ b.members}

/-- The grants of the entries that are added, all without a condition. -/
def added (add : List (Addition R M)) : Set (R × Option C × M) :=
  {g | ∃ a ∈ add, a.role = g.1 ∧ g.2.1 = none ∧ g.2.2 ∈ a.members}

def Members.names : Members M → M → Bool
  | .star, _ => true
  | .list members, m => m ∈ members

/-- The role and member are named for removal. -/
def RemoveBindings.Names : RemoveBindings R M → R → M → Prop
  | .matched pairs, r, m => (r, m) ∈ pairs
  | .entries remove, r, m => ∃ x ∈ remove, x.role = r ∧ x.members.names m

/-- The grants that are named for removal. -/
def named (remove : RemoveBindings R M) : Set (R × Option C × M) :=
  {g | remove.Names g.1 g.2.2}

/-- The written bindings are the existing and added grants without those named for removal. -/
def Meets (policy : Policy R C M) (add : List (Addition R M)) (remove : RemoveBindings R M) :
    Prop :=
  granted (bindingsToSet policy.bindings add remove)
      = (granted policy.bindings ∪ added add) \ named remove ∧
    ∀ b ∈ bindingsToSet policy.bindings add remove, b.members.Nodup ∧ b.members ≠ []

/-! ## The last entry of a role -/

/-- The last entry of a list with a role. -/
def lastFor (role : β → R) (l : List β) (r : R) : Option β :=
  l.reverse.find? fun b => role b = r

theorem lookup_rolesToBindings (role : β → R) (l : List β) (r : R) :
    (rolesToBindings role l).lookup r = lastFor role l r := by
  rw [rolesToBindings, Items.lookup_ofList, lastFor, ← List.map_reverse]
  induction l.reverse with
  | nil => rfl
  | cons b l ih =>
    rw [List.map_cons, Items.lookup_cons, ih, List.find?_cons]
    by_cases hr : r = role b <;> simp [hr, eq_comm]

theorem mem_rolesToBindings {role : β → R} {l : List β} {r : R} {b : β} :
    (r, b) ∈ rolesToBindings role l ↔ lastFor role l r = some b := by
  rw [← lookup_rolesToBindings]
  exact Items.mem_iff_lookup (Items.keys_nodup_ofList _)

theorem mem_of_lastFor {role : β → R} {l : List β} {r : R} {b : β}
    (h : lastFor role l r = some b) : b ∈ l ∧ role b = r :=
  ⟨List.mem_reverse.mp (List.mem_of_find?_eq_some h), by simpa using List.find?_some h⟩

theorem exists_lastFor (role : β → R) {l : List β} {b : β} (h : b ∈ l) :
    ∃ b', lastFor role l (role b) = some b' := by
  rw [← Option.isSome_iff_exists, lastFor, List.find?_isSome]
  exact ⟨b, List.mem_reverse.mpr h, decide_eq_true rfl⟩

theorem lastFor_eq_some_iff {role : β → R} {l : List β} (h : (l.map role).Nodup) {r : R} {b : β} :
    lastFor role l r = some b ↔ b ∈ l ∧ role b = r := by
  constructor
  · exact mem_of_lastFor
  · rintro ⟨hb, rfl⟩
    obtain ⟨b', hb'⟩ := exists_lastFor role hb
    obtain ⟨hm, hr⟩ := mem_of_lastFor hb'
    rw [hb', List.inj_on_of_nodup_map h hm hb hr]

/-! ## Adding -/

/-- The binding of a role after `_add_bindings`. -/
def merged (existing : List (Binding R C M)) (add : List (Addition R M)) (r : R) :
    Option (Binding R C M) :=
  match lastFor Addition.role add r with
  | some a => some (merge a (lastFor Binding.role existing r))
  | none => lastFor Binding.role existing r

omit [DecidableEq R] in
theorem merge_role (a : Addition R M) (e : Option (Binding R C M)) : (merge a e).role = a.role := by
  cases e <;> rfl

theorem mem_addBindings {existing : List (Binding R C M)} {add : List (Addition R M)}
    {b : Binding R C M} : b ∈ addBindings existing add ↔ merged existing add b.role = some b := by
  simp only [addBindings, List.mem_append, List.mem_map, List.mem_filter, Prod.exists,
    mem_rolesToBindings, lookup_rolesToBindings, merged]
  constructor
  · rintro (⟨r, a, ha, rfl⟩ | ⟨r, e, ⟨he, hr⟩, rfl⟩)
    · obtain ⟨-, rfl⟩ := mem_of_lastFor ha
      rw [merge_role, ha]
    · obtain ⟨-, rfl⟩ := mem_of_lastFor he
      rw [Option.isNone_iff_eq_none.mp hr]
      exact he
  · cases ha : lastFor Addition.role add b.role with
    | none => exact fun he => .inr ⟨b.role, b, ⟨he, by rw [ha]; rfl⟩, rfl⟩
    | some a => exact fun he => .inl ⟨b.role, a, ha, Option.some.inj he⟩

theorem roles_nodup_addBindings (existing : List (Binding R C M)) (add : List (Addition R M)) :
    ((addBindings existing add).map Binding.role).Nodup := by
  have hadd : ((rolesToBindings Addition.role add).map fun a =>
      (merge a.2 ((rolesToBindings Binding.role existing).lookup a.1)).role)
      = (rolesToBindings Addition.role add).map Prod.fst := by
    refine List.map_congr_left fun a ha => ?_
    rw [merge_role]
    exact (mem_of_lastFor (mem_rolesToBindings.mp ha)).2
  have hexisting : ∀ l ⊆ rolesToBindings Binding.role existing,
      (l.map fun e => e.2.role) = l.map Prod.fst := fun l hl =>
    List.map_congr_left fun e he => (mem_of_lastFor (mem_rolesToBindings.mp (hl he))).2
  simp only [addBindings, List.map_append, List.map_map, Function.comp_def]
  rw [hadd, hexisting _ fun e he => List.mem_of_mem_filter he]
  refine List.Nodup.append (Items.keys_nodup_ofList _)
    ((Items.keys_nodup_ofList _).sublist (List.filter_sublist.map _)) ?_
  intro r hr hr'
  obtain ⟨e, he, rfl⟩ := List.mem_map.mp hr'
  have hnone := Option.isNone_iff_eq_none.mp (List.mem_filter.mp he).2
  exact Items.lookup_eq_none.mp hnone hr

theorem merged_role {existing : List (Binding R C M)} {add : List (Addition R M)} {r : R}
    {b : Binding R C M} (h : merged existing add r = some b) : b.role = r := by
  unfold merged at h
  split at h
  · rename_i a ha
    rw [← Option.some.inj h, merge_role]
    exact (mem_of_lastFor ha).2
  · exact (mem_of_lastFor h).2

theorem lastFor_addBindings (existing : List (Binding R C M)) (add : List (Addition R M)) (r : R) :
    lastFor Binding.role (addBindings existing add) r = merged existing add r := by
  ext b
  rw [lastFor_eq_some_iff (roles_nodup_addBindings existing add), mem_addBindings]
  constructor
  · rintro ⟨h, rfl⟩
    exact h
  · intro h
    have hr := merged_role h
    exact ⟨hr ▸ h, hr⟩

/-! ## Removing -/

/-- The member is dropped from the binding of the role: only a role's last entry is read. -/
def RemoveBindings.drops : RemoveBindings R M → R → M → Bool
  | .matched pairs, r, m => (r, m) ∈ pairs
  | .entries remove, r, m => (lastFor Removal.role remove r).any fun x => x.members.names m

/-- The binding of the role is passed on as it is. -/
def RemoveBindings.passes : RemoveBindings R M → R → Bool
  | .matched _, _ => false
  | .entries remove, r => (lastFor Removal.role remove r).isNone

/-- A binding without the members that are dropped. -/
def reduce (remove : RemoveBindings R M) (b : Binding R C M) : Binding R C M :=
  { b with members := b.members.filter fun m => !remove.drops b.role m }

omit [DecidableEq R] [DecidableEq M] in
theorem ite_members_eq_some {e b : Binding R C M} {l : List M} :
    (if l.length > 0 then some { e with members := l } else none) = some b ↔
      { e with members := l } = b ∧ b.members ≠ [] := by
  split
  · rename_i hl
    rw [Option.some.injEq]
    exact ⟨fun h => ⟨h, h ▸ List.length_pos_iff.mp hl⟩, And.left⟩
  · rename_i hl
    simp only [reduceCtorEq, false_iff]
    rintro ⟨rfl, h⟩
    exact hl (List.length_pos_iff.mpr h)

omit [DecidableEq R] in
theorem prune_eq_some {e b : Binding R C M} {members : Members M} :
    prune e members = some b ↔
      { e with members := e.members.filter fun m => !members.names m } = b ∧ b.members ≠ [] := by
  cases members with
  | star =>
    simp only [prune, Members.names, Bool.not_true, List.filter_false, reduceCtorEq, false_iff]
    rintro ⟨rfl, h⟩
    exact h rfl
  | list l => simp only [prune, Members.names, ← decide_not, ite_members_eq_some]

theorem mem_removeBindings {existing : List (Binding R C M)} {remove : List (Removal R M)}
    {b : Binding R C M} : b ∈ removeBindings existing remove ↔
      ∃ r e, lastFor Binding.role existing r = some e ∧ reduce (.entries remove) e = b ∧
        ((RemoveBindings.entries remove).passes r ∨ b.members ≠ []) := by
  simp only [removeBindings, List.mem_append, List.mem_map, List.mem_filterMap, List.mem_filter,
    Prod.exists, mem_rolesToBindings, lookup_rolesToBindings, Option.bind_eq_some_iff,
    prune_eq_some, reduce, RemoveBindings.passes, RemoveBindings.drops]
  constructor
  · rintro (⟨r, x, hx, e, he, rfl, hne⟩ | ⟨r, e, ⟨he, hx⟩, rfl⟩)
    · obtain ⟨-, rfl⟩ := mem_of_lastFor he
      exact ⟨_, e, he, by simp [hx], .inr hne⟩
    · obtain ⟨-, rfl⟩ := mem_of_lastFor he
      have hnone := Option.isNone_iff_eq_none.mp hx
      exact ⟨_, e, he, by simp [hnone], .inl hx⟩
  · rintro ⟨r, e, he, rfl, h⟩
    obtain ⟨-, rfl⟩ := mem_of_lastFor he
    cases hx : lastFor Removal.role remove e.role with
    | none => exact .inr ⟨e.role, e, ⟨he, by rw [hx]; rfl⟩, by simp⟩
    | some x =>
      refine .inl ⟨e.role, x, hx, e, he, by simp, ?_⟩
      simpa [hx] using h

theorem mem_removeMatchedBindings {existing : List (Binding R C M)} {pairs : List (R × M)}
    {b : Binding R C M} : b ∈ removeMatchedBindings existing pairs ↔
      ∃ e ∈ existing, reduce (.matched pairs) e = b ∧ b.members ≠ [] := by
  simp only [removeMatchedBindings, List.mem_filterMap, reduce, RemoveBindings.drops,
    ← decide_not, ite_members_eq_some]

theorem mem_bindingsToSet {existing : List (Binding R C M)} {add : List (Addition R M)}
    {remove : RemoveBindings R M} {b : Binding R C M} :
    b ∈ bindingsToSet existing add remove ↔
      ∃ r e, merged existing add r = some e ∧ reduce remove e = b ∧
        (remove.passes r ∨ b.members ≠ []) := by
  cases remove with
  | matched pairs =>
    simp only [bindingsToSet, mem_removeMatchedBindings, mem_addBindings, RemoveBindings.passes,
      Bool.false_eq_true, false_or]
    constructor
    · rintro ⟨e, he, h⟩
      exact ⟨_, e, he, h⟩
    · rintro ⟨r, e, he, h⟩
      exact ⟨e, merged_role he ▸ he, h⟩
  | entries l => simp only [bindingsToSet, mem_removeBindings, lastFor_addBindings]

/-! ## What is granted -/

/-- The last entries of the role have the grant; a role that is added to loses its condition. -/
def InLast (existing : List (Binding R C M)) (add : List (Addition R M)) (r : R) (c : Option C)
    (m : M) : Prop :=
  (lastFor Addition.role add r = none ∧
    ∃ e, lastFor Binding.role existing r = some e ∧ e.condition = c ∧ m ∈ e.members) ∨
  (∃ a, lastFor Addition.role add r = some a ∧ c = none ∧
    (m ∈ a.members ∨ ∃ e, lastFor Binding.role existing r = some e ∧ m ∈ e.members))

theorem merged_grants_iff {existing : List (Binding R C M)} {add : List (Addition R M)} {r : R}
    {c : Option C} {m : M} :
    (∃ e, merged existing add r = some e ∧ e.condition = c ∧ m ∈ e.members) ↔
      InLast existing add r c m := by
  unfold merged InLast
  cases ha : lastFor Addition.role add r with
  | none => simp
  | some a =>
    cases he : lastFor Binding.role existing r with
    | none => simp [merge, eq_comm]
    | some e =>
      simp only [merge, Option.some.injEq, exists_eq_left', List.mem_append, List.mem_filter,
        decide_eq_true_eq, reduceCtorEq, false_and, false_or, eq_comm (a := c)]
      refine and_congr_right fun _ => ?_
      by_cases hm : m ∈ e.members <;> simp [hm]

/-- **The grants that are written back.** -/
theorem mem_granted_bindingsToSet {existing : List (Binding R C M)} {add : List (Addition R M)}
    {remove : RemoveBindings R M} {r : R} {c : Option C} {m : M} :
    (r, c, m) ∈ granted (bindingsToSet existing add remove) ↔
      InLast existing add r c m ∧ remove.drops r m = false := by
  rw [← merged_grants_iff]
  constructor
  · rintro ⟨b, hb, hr, hc, hm⟩
    obtain ⟨r', e, he, rfl, -⟩ := mem_bindingsToSet.mp hb
    obtain rfl := merged_role he
    obtain rfl : e.role = r := hr
    obtain ⟨hm, hd⟩ := List.mem_filter.mp hm
    exact ⟨⟨e, he, hc, hm⟩, by simpa using hd⟩
  · rintro ⟨⟨e, he, hc, hm⟩, hd⟩
    obtain rfl := merged_role he
    have hr : m ∈ (reduce remove e).members := List.mem_filter.mpr ⟨hm, by simpa using hd⟩
    exact ⟨reduce remove e, mem_bindingsToSet.mpr ⟨_, e, he, rfl, .inr (List.ne_nil_of_mem hr)⟩,
      rfl, hc, hr⟩

theorem names_of_drops {remove : RemoveBindings R M} {r : R} {m : M} (h : remove.drops r m) :
    remove.Names r m := by
  cases remove with
  | matched pairs => simpa [RemoveBindings.drops, RemoveBindings.Names] using h
  | entries l =>
    obtain ⟨x, hx, hm⟩ := (Option.any_eq_true ..).mp h
    obtain ⟨hl, hr⟩ := mem_of_lastFor hx
    exact ⟨x, hl, hr, hm⟩

/-! ## When the lists are followed -/

/-- The last entries of each role say all that the lists say of it. -/
structure LastEntriesSuffice (existing : List (Binding R C M)) (add : List (Addition R M))
    (remove : RemoveBindings R M) : Prop where
  /-- A grant that is not named for removal is in the last entries of its role. -/
  kept : ∀ r c m, (r, c, m) ∈ granted existing ∪ added add → ¬remove.Names r m →
    InLast existing add r c m
  /-- If a role is added to, the members of its last binding are granted it without a condition. -/
  unconditional : ∀ r a e m, lastFor Addition.role add r = some a →
    lastFor Binding.role existing r = some e → m ∈ e.members → ¬remove.Names r m →
    (r, none, m) ∈ granted existing ∪ added add
  /-- A member of the last entries that is named for removal is dropped. -/
  removed : ∀ r c m, InLast existing add r c m → remove.Names r m → remove.drops r m
  /-- The members that the last added entry brings are written once. -/
  once : ∀ r a, lastFor Addition.role add r = some a → (a.members.filter fun m =>
    !remove.drops r m && !(lastFor Binding.role existing r).any (m ∈ ·.members)).Nodup
  /-- A role that is new and not named for removal is added with a member. -/
  some_member : ∀ r a, lastFor Addition.role add r = some a →
    lastFor Binding.role existing r = none → remove.passes r → a.members ≠ []

theorem granted_eq_iff {existing : List (Binding R C M)} {add : List (Addition R M)}
    {remove : RemoveBindings R M} :
    granted (bindingsToSet existing add remove) = (granted existing ∪ added add) \ named remove ↔
      (∀ r c m, (r, c, m) ∈ granted existing ∪ added add → ¬remove.Names r m →
        InLast existing add r c m) ∧
      (∀ r a e m, lastFor Addition.role add r = some a →
        lastFor Binding.role existing r = some e → m ∈ e.members → ¬remove.Names r m →
        (r, none, m) ∈ granted existing ∪ added add) ∧
      (∀ r c m, InLast existing add r c m → remove.Names r m → remove.drops r m) := by
  simp only [Set.ext_iff, Prod.forall, mem_granted_bindingsToSet, Set.mem_sdiff]
  constructor
  · intro h
    refine ⟨fun r c m hg hn => ((h r c m).mpr ⟨hg, hn⟩).1, fun r a e m ha he hm hn => ?_,
      fun r c m hi hn => ?_⟩
    · have hd := mt names_of_drops hn
      exact ((h r none m).mp ⟨.inr ⟨a, ha, rfl, .inr ⟨e, he, hm⟩⟩, by simpa using hd⟩).1
    · by_contra hd
      exact ((h r c m).mp ⟨hi, by simpa using hd⟩).2 hn
  · rintro ⟨hkept, huncond, hremoved⟩ r c m
    constructor
    · rintro ⟨hi, hd⟩
      have hn : ¬remove.Names r m := fun hn => by simp [hremoved r c m hi hn] at hd
      refine ⟨?_, hn⟩
      obtain ⟨-, e, he, hc, hm⟩ | ⟨a, ha, rfl, hm | ⟨e, he, hm⟩⟩ := hi
      · obtain ⟨he, hr⟩ := mem_of_lastFor he
        exact .inl ⟨e, he, hr, hc, hm⟩
      · obtain ⟨ha, hr⟩ := mem_of_lastFor ha
        exact .inr ⟨a, ha, hr, rfl, hm⟩
      · exact huncond r a e m ha he hm hn
    · rintro ⟨hg, hn⟩
      have hd := mt names_of_drops hn
      exact ⟨hkept r c m hg hn, by simpa using hd⟩

theorem reduce_of_passes {remove : RemoveBindings R M} {b : Binding R C M}
    (h : remove.passes b.role) : reduce remove b = b := by
  cases remove with
  | matched pairs => cases h
  | entries l =>
    have hnone := Option.isNone_iff_eq_none.mp h
    simp [reduce, RemoveBindings.drops, hnone]

theorem reduce_merge_members (remove : RemoveBindings R M) (a : Addition R M)
    (e : Option (Binding R C M)) :
    (reduce remove (merge a e)).members =
      ((e.elim [] Binding.members).filter fun m => !remove.drops a.role m) ++
        a.members.filter fun m => !remove.drops a.role m && !e.any (m ∈ ·.members) := by
  rw [reduce, merge_role]
  cases e with
  | none => simp [merge]
  | some e => simp [merge, List.filter_filter]

theorem members_ok_iff {policy : Policy R C M} {add : List (Addition R M)}
    {remove : RemoveBindings R M} :
    (∀ b ∈ bindingsToSet policy.bindings add remove, b.members.Nodup ∧ b.members ≠ []) ↔
      (∀ r a, lastFor Addition.role add r = some a → (a.members.filter fun m =>
        !remove.drops r m &&
          !(lastFor Binding.role policy.bindings r).any (m ∈ ·.members)).Nodup) ∧
      (∀ r a, lastFor Addition.role add r = some a →
        lastFor Binding.role policy.bindings r = none → remove.passes r → a.members ≠ []) := by
  constructor
  · intro h
    have hadd : ∀ r a, lastFor Addition.role add r = some a →
        merged policy.bindings add r = some (merge a (lastFor Binding.role policy.bindings r)) :=
      fun r a ha => by rw [merged, ha]
    constructor
    · intro r a ha
      obtain ⟨-, rfl⟩ := mem_of_lastFor ha
      have hmem := reduce_merge_members remove a (lastFor Binding.role policy.bindings a.role)
      by_cases hne : (reduce remove (merge a
          (lastFor Binding.role policy.bindings a.role))).members = []
      · rw [hne] at hmem
        rw [(List.append_eq_nil_iff.mp hmem.symm).2]
        exact List.nodup_nil
      · have hb := h _ (mem_bindingsToSet.mpr ⟨_, _, hadd _ a ha, rfl, .inr hne⟩)
        rw [hmem] at hb
        exact hb.1.of_append_right
    · intro r a ha he hp
      have hb := h _ (mem_bindingsToSet.mpr ⟨_, _, hadd r a ha, rfl, .inl hp⟩)
      obtain ⟨-, rfl⟩ := mem_of_lastFor ha
      rw [he, reduce_merge_members] at hb
      intro hnil
      simp [hnil] at hb
  · rintro ⟨honce, hsome⟩ b hb
    obtain ⟨r, e, he, rfl, hpass⟩ := mem_bindingsToSet.mp hb
    have hr := merged_role he
    unfold merged at he
    split at he
    · rename_i a ha
      obtain rfl := Option.some.inj he
      obtain ⟨-, rfl⟩ := mem_of_lastFor ha
      constructor
      · rw [reduce_merge_members]
        refine List.Nodup.append (List.Nodup.filter _ ?_) (honce _ a ha) fun m hm hm' => ?_
        · cases he : lastFor Binding.role policy.bindings a.role with
          | none => exact List.nodup_nil
          | some e => exact policy.members_nodup e (mem_of_lastFor he).1
        · have hold := (List.mem_filter.mp hm).1
          cases he : lastFor Binding.role policy.bindings a.role with
          | none => simp [he] at hold
          | some e =>
            simp only [he, Option.any_some, Bool.and_eq_true, Bool.not_eq_true',
              decide_eq_false_iff_not, List.mem_filter] at hm'
            exact hm'.2.2 (by simpa [he] using hold)
      · refine hpass.elim (fun hp => ?_) id
        have hp' : remove.passes
            (merge a (lastFor Binding.role policy.bindings a.role)).role := by
          rw [merge_role]
          exact hp
        rw [reduce_of_passes hp']
        cases he : lastFor Binding.role policy.bindings a.role with
        | none => exact hsome _ a ha he hp
        | some e =>
          have hne := policy.members_ne e (mem_of_lastFor he).1
          simp [merge, hne]
    · obtain ⟨hm, -⟩ := mem_of_lastFor he
      refine ⟨(policy.members_nodup e hm).filter _, hpass.elim (fun hp => ?_) id⟩
      rw [reduce_of_passes (hr ▸ hp)]
      exact policy.members_ne e hm

/-- **The written bindings are set algebra on grants exactly when last entries suffice.** -/
theorem reduce_meets_iff (policy : Policy R C M) (add : List (Addition R M))
    (remove : RemoveBindings R M) :
    Meets policy add remove ↔ LastEntriesSuffice policy.bindings add remove := by
  rw [Meets, granted_eq_iff, members_ok_iff]
  constructor
  · rintro ⟨⟨h1, h2, h3⟩, h4, h5⟩
    exact ⟨h1, h2, h3, h4, h5⟩
  · rintro ⟨h1, h2, h3, h4, h5⟩
    exact ⟨⟨h1, h2, h3⟩, h4, h5⟩

/-! ## A lost grant -/

/-- A role that is held without and with a condition. -/
def twoOwners : Policy String String String :=
  ⟨[⟨"roles/owner", none, ["user:admin"]⟩, ⟨"roles/owner", some "expires", ["user:guest"]⟩],
    by decide, by decide⟩

/-- Adding a viewer takes the owner role from its unconditional member. -/
theorem viewer_costs_owner :
    ("roles/owner", none, "user:admin") ∈ granted twoOwners.bindings ∧
      ("roles/owner", none, "user:admin") ∉ granted (bindingsToSet twoOwners.bindings
        [⟨"roles/viewer", ["user:new"]⟩] (.entries [])) ∧
      ¬Meets twoOwners [⟨"roles/viewer", ["user:new"]⟩] (.entries []) := by
  have hset : bindingsToSet twoOwners.bindings [⟨"roles/viewer", ["user:new"]⟩] (.entries []) =
      [⟨"roles/viewer", none, ["user:new"]⟩, ⟨"roles/owner", some "expires", ["user:guest"]⟩] := by
    decide
  have hold : ("roles/owner", none, "user:admin") ∈ granted twoOwners.bindings :=
    ⟨_, List.mem_cons_self, rfl, rfl, List.mem_cons_self⟩
  have hlost : ("roles/owner", none, "user:admin") ∉ granted (bindingsToSet twoOwners.bindings
      [⟨"roles/viewer", ["user:new"]⟩] (.entries [])) := by
    rw [hset]
    rintro ⟨b, hb, hr, hc, -⟩
    simp only [List.mem_cons, List.not_mem_nil, or_false] at hb
    obtain rfl | rfl := hb
    · exact absurd hr (by decide)
    · cases hc
  refine ⟨hold, hlost, fun h => hlost (h.1 ▸ ⟨.inl hold, ?_⟩)⟩
  rintro ⟨x, hx, -⟩
  cases hx

end Custodian.IamPolicy

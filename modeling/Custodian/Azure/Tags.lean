import Custodian.Lib.SortedSet
import Mathlib.Data.Finmap

/-!
# Tag actions on Azure resources

`TagHelper` of `tags.py` and the actions `tag`, `untag`, `tag-trim` and `mark-for-op` of
`actions/tagging.py`.  The service replaces the whole set of tags; an action computes the new set
from the resource it was given, which some actions update in place and some do not.
-/

namespace Custodian.AzureTags

open Py

/-! ## Tags -/

/-- The tags of a resource. -/
abbrev Tags (V : Type) := Finmap fun _ : Text => V

variable {V : Type}

namespace Tags

/-- The tags after writing those of a dictionary. -/
def written (new : List (Text × V)) (tags : Tags V) : Tags V :=
  new.foldl (fun tags e => tags.insert e.1 e.2) tags

/-- `{key: tags[key] for key in tags if key not in names}` -/
def without (names : List Text) (tags : Tags V) : Tags V :=
  names.foldl (fun tags name => tags.erase name) tags

theorem lookup_written_of_notMem {new : List (Text × V)} {k : Text}
    (hk : k ∉ new.map Prod.fst) (tags : Tags V) :
    (written new tags).lookup k = tags.lookup k := by
  induction new generalizing tags with
  | nil => rfl
  | cons e new ih =>
    rw [List.map_cons, List.mem_cons, not_or] at hk
    rw [written, List.foldl_cons]
    exact (ih hk.2 _).trans (Finmap.lookup_insert_of_ne tags hk.1)

theorem lookup_written_of_mem {new : List (Text × V)} {k : Text}
    (hk : k ∈ new.map Prod.fst) (tags tags' : Tags V) :
    (written new tags).lookup k = (written new tags').lookup k := by
  induction new generalizing tags tags' with
  | nil => exact absurd hk List.not_mem_nil
  | cons e new ih =>
    rw [written, List.foldl_cons, written, List.foldl_cons]
    by_cases htail : k ∈ new.map Prod.fst
    · exact ih htail _ _
    · obtain rfl : k = e.1 := (List.mem_cons.mp hk).resolve_right htail
      rw [← written, ← written, lookup_written_of_notMem htail, lookup_written_of_notMem htail,
        Finmap.lookup_insert, Finmap.lookup_insert]

theorem insert_of_lookup {tags : Tags V} {k : Text} {v : V} (h : tags.lookup k = some v) :
    tags.insert k v = tags := by
  refine Finmap.ext_lookup fun k' => ?_
  by_cases hk : k' = k
  · rw [hk, Finmap.lookup_insert, h]
  · rw [Finmap.lookup_insert_of_ne tags hk]

theorem written_of_lookup {new : List (Text × V)} {tags : Tags V}
    (h : ∀ e ∈ new, tags.lookup e.1 = some e.2) : written new tags = tags := by
  induction new with
  | nil => rfl
  | cons e new ih =>
    obtain ⟨he, hnew⟩ := List.forall_mem_cons.mp h
    rw [written, List.foldl_cons, insert_of_lookup he]
    exact ih hnew

theorem lookup_without (names : List Text) (tags : Tags V) (k : Text) :
    (without names tags).lookup k = if k ∈ names then none else tags.lookup k := by
  induction names generalizing tags with
  | nil => rfl
  | cons name names ih =>
    rw [without, List.foldl_cons]
    refine (ih _).trans ?_
    by_cases hk : k = name
    · rw [hk, Finmap.lookup_erase, if_pos List.mem_cons_self, ite_self]
    · rw [Finmap.lookup_erase_ne hk]
      simp [hk]

theorem without_of_notMem {names : List Text} {tags : Tags V}
    (h : ∀ name ∈ names, name ∉ tags) : without names tags = tags := by
  refine Finmap.ext_lookup fun k => ?_
  rw [lookup_without]
  split
  · rename_i hk
    exact (Finmap.lookup_eq_none.mpr (h k hk)).symm
  · rfl

end Tags

/-- `sorted(keys)` of a set. -/
def sortedKeys (keys : Finset Text) : List Text :=
  Quot.liftOn keys.val sortedSet fun _ _ h => sortedSet_congr fun _ => h.mem_iff

/-! ## Resources -/

/-- The `tags` entry of a resource. -/
inductive Entry (V : Type) where
  | absent
  | null
  | map (tags : Tags V)

namespace Entry

/-- `resource.get('tags', {})`, where `none` is a null value. -/
def get : Entry V → Option (Tags V)
  | absent => some ∅
  | null => none
  | map tags => some tags

/-- The entry after the tags that `get` returned were changed in place. -/
def store (tags : Tags V) : Entry V → Entry V
  | map _ => map tags
  | entry => entry

/-- The tags that an entry stands for. -/
def view (entry : Entry V) : Tags V := entry.get.getD ∅

end Entry

/-- A resource as the policy holds it, with its tags in the service. -/
structure Resource (V : Type) where
  entry : Entry V
  service : Tags V
  /-- `manager.tag_operation_enabled(az_resource.type)` -/
  tagOperationEnabled : Bool

/-- A resource as it is fetched. -/
def Resource.fetched (entry : Entry V) (tagOperationEnabled : Bool) : Resource V :=
  ⟨entry, entry.view, tagOperationEnabled⟩

/-! ## Actions -/

/-- A value, or a lookup of it on the resource; a lookup has a key or a default. -/
inductive Source (V α : Type) where
  | value (v : α)
  | lookup (search : Option (Entry V → Except Exn (Option α))) (default : Option α)

/-- `Lookup.extract(source, resource)` -/
def Source.extract {α : Type} (entry : Entry V) : Source V α → Except Exn α
  | value v => .ok v
  | lookup search default => do
    match ← (match search with
      | some search => search entry
      | none => .ok none) with
    | some v => .ok v
    | none =>
      match default with
      | some v => .ok v
      | none => .error (.raised "Lookup for key returned None".toList)

/-- `Lookup.resolve_value(spec, resource, name, current)`, where `none` is `SKIP`. -/
def Source.resolveValue (entry : Entry V) (name : Text) (current : Finset Text) :
    Source V V → Except Exn (Option V)
  | value v => .ok (some v)
  | lookup none default =>
    if name ∈ current then .ok none else some <$> (lookup none default).extract entry
  | lookup (some search) default => some <$> (lookup (some search) default).extract entry

/-- The data of a `tag` action. -/
inductive TagData (V : Type) where
  | tags (tags : List (Text × Source V V))
  | single (tag : Source V Text) (value : Source V V)

/-- The loop of `Tag._get_tags`. -/
def resolveTags (entry : Entry V) (current : Finset Text) :
    List (Text × Source V V) → Except Exn (List (Text × V))
  | [] => .ok []
  | (name, spec) :: tags => do
    match ← spec.resolveValue entry name current with
    | none => resolveTags entry current tags
    | some value => do
      let resolved ← resolveTags entry current tags
      pure ((name, value) :: resolved)

/-- `Tag._get_tags(resource)` -/
def TagData.getTags (entry : Entry V) : TagData V → Except Exn (List (Text × V))
  | .single tag value => do
    let tag ← tag.extract entry
    let value ← value.extract entry
    pure [(tag, value)]
  | .tags items => resolveTags entry entry.view.keys items

/-- `TagTrim.max_tag_count` -/
def maxTagCount : Nat := 50

/-- The data of a `tag-trim` action, which its validation has accepted. -/
structure TagTrim where
  preserve : Finset Text
  space : Nat
  space_le : space ≤ maxTagCount

/-- The candidates of `TagTrim._process_resource`; a set is given as its sorted elements. -/
def TagTrim.candidates (trim : TagTrim) (tags : Tags V) : List Text :=
  if trim.space ≠ 0 ∧ tags.keys.card + trim.space ≤ maxTagCount then []
  else
    let tagsToPreserve := trim.preserve ∩ tags.keys
    let candidates := tags.keys \ tagsToPreserve
    if trim.space ≠ 0 then
      let remove : Int :=
        candidates.card - (maxTagCount - (trim.space + tagsToPreserve.card))
      -- positive, as more than `max_tag_count` tags and slots are asked for
      (sortedKeys candidates).take remove.toNat
    else sortedKeys candidates

/-- The actions of a policy that write tags. -/
inductive Action (V : Type) where
  | tag (data : TagData V)
  | untag (tags : List Text)
  | tagTrim (trim : TagTrim)
  | markForOp (tag : Text) (msg : V)

/-! ## What an action is for -/

/-- The change that an action makes to a set of tags. -/
inductive Edit (V : Type) where
  | write (new : List (Text × V))
  | remove (names : List Text)

namespace Edit

/-- The tags after the change. -/
def apply (tags : Tags V) : Edit V → Tags V
  | write new => tags.written new
  | remove names => tags.without names

/-- The tags that the change names. -/
def names : Edit V → List Text
  | write new => new.map Prod.fst
  | remove names => names

/-- The change makes a difference to these tags. -/
def changes (tags : Tags V) : Edit V → Prop
  | write new => ∃ e ∈ new, tags.lookup e.1 ≠ some e.2
  | remove names => ∃ name ∈ names, name ∈ tags

theorem lookup_apply_of_notMem {e : Edit V} {k : Text} (hk : k ∉ e.names) (tags : Tags V) :
    (e.apply tags).lookup k = tags.lookup k := by
  cases e with
  | write new => exact Tags.lookup_written_of_notMem hk tags
  | remove names => exact (Tags.lookup_without names tags k).trans (if_neg hk)

theorem lookup_apply_of_mem {e : Edit V} {k : Text} (hk : k ∈ e.names) (tags tags' : Tags V) :
    (e.apply tags).lookup k = (e.apply tags').lookup k := by
  cases e with
  | write new => exact Tags.lookup_written_of_mem hk tags tags'
  | remove names =>
    exact ((Tags.lookup_without names tags k).trans (if_pos hk)).trans
      ((Tags.lookup_without names tags' k).trans (if_pos hk)).symm

theorem apply_congr {e : Edit V} {tags tags' : Tags V}
    (h : ∀ k ∉ e.names, tags.lookup k = tags'.lookup k) : e.apply tags = e.apply tags' := by
  refine Finmap.ext_lookup fun k => ?_
  by_cases hk : k ∈ e.names
  · exact lookup_apply_of_mem hk tags tags'
  · rw [lookup_apply_of_notMem hk, lookup_apply_of_notMem hk, h k hk]

theorem apply_of_not_changes {e : Edit V} {tags : Tags V} (h : ¬ e.changes tags) :
    e.apply tags = tags := by
  cases e with
  | write new =>
    exact Tags.written_of_lookup fun e he => Classical.not_not.mp fun hne => h ⟨e, he, hne⟩
  | remove names => exact Tags.without_of_notMem fun name hname hmem => h ⟨name, hname, hmem⟩

end Edit

/-- The change that an action makes to a resource with a tags entry; a lookup may fail. -/
def Action.edit (entry : Entry V) : Action V → Except Exn (Edit V)
  | .tag data => Edit.write <$> data.getTags entry
  | .untag tags => .ok (.remove tags)
  | .tagTrim trim => .ok (.remove (trim.candidates entry.view))
  | .markForOp name msg => .ok (.write [(name, msg)])

/-- An action applied to a set of tags; one whose lookup fails does nothing. -/
def Action.applied (tags : Tags V) (a : Action V) : Tags V :=
  match a.edit (.map tags) with
  | .ok e => e.apply tags
  | .error _ => tags

/-! ## `TagHelper` -/

variable [DecidableEq V]

/-- What an action does with a resource. -/
abbrev TagM (V : Type) := EStateM Exn (Resource V)

/-- `TagHelper.update_resource_tags(tag_action, resource, tags)` -/
def updateResourceTags (tags : Tags V) : TagM V Unit := do
  if (← get).tagOperationEnabled then
    modify fun r => { r with service := tags }
  else
    throw (.raised "NotImplementedError".toList)

/-- `TagHelper.remove_tags(tag_action, resource, tags_to_delete)` -/
def removeTags (tagsToDelete : List Text) : TagM V Unit := do
  match (← get).entry.get with
  | none => if tagsToDelete = [] then pure () else throw .typeError
  | some tags =>
    if ∃ tag ∈ tagsToDelete, tag ∈ tags then
      updateResourceTags (tags.without tagsToDelete)

/-- The loop of `add_tags`: the tags and `new_or_updated_tags`. -/
def addLoop (tagsToAdd : List (Text × V)) (tags : Tags V) : Tags V × Bool :=
  tagsToAdd.foldl
    (fun p e => (p.1.insert e.1 e.2, p.2 || decide (p.1.lookup e.1 ≠ some e.2))) (tags, false)

/-- `TagHelper.add_tags(tag_action, resource, tags_to_add)` -/
def addTags (tagsToAdd : List (Text × V)) : TagM V Unit := do
  match (← get).entry.get with
  | none => if tagsToAdd = [] then pure () else throw .typeError
  | some tags =>
    let (tags, newOrUpdatedTags) := addLoop tagsToAdd tags
    modify fun r => { r with entry := r.entry.store tags }
    if newOrUpdatedTags then
      updateResourceTags tags

/-! ## Processing a resource -/

/-- `TagDelayedAction._process_resource(resource)` -/
def markForOp (tag : Text) (msg : V) : TagM V Unit := do
  match (← get).entry.get with
  | none => throw .typeError
  | some tags =>
    let tags := tags.insert tag msg
    modify fun r => { r with entry := r.entry.store tags }
    updateResourceTags tags

/-- `_process_resource(resource)` -/
def Action.processResource : Action V → TagM V Unit
  | .tag data => do
    match data.getTags (← get).entry with
    | .ok newTags => addTags newTags
    | .error e => throw e
  | .untag tags => removeTags tags
  | .tagTrim trim => do
    match (← get).entry.get with
    | none => throw .typeError
    | some tags =>
      match trim.candidates tags with
      | [] => pure ()
      | candidates => removeTags candidates
  | .markForOp name msg => AzureTags.markForOp name msg

/-- The resource after an action, whether it raised or not. -/
def after (m : TagM V Unit) (r : Resource V) : Resource V :=
  match m r with
  | .ok _ r => r
  | .error _ r => r

/-- `_process_resources` logs an exception, and the policy goes on. -/
def step (r : Resource V) (a : Action V) : Resource V := after a.processResource r

/-- The actions of a policy on one resource. -/
def run (r : Resource V) (actions : List (Action V)) : Resource V := actions.foldl step r

/-- The actions compose: the service has the tags that they make of the original ones. -/
def Composes (entry : Entry V) (tagOperationEnabled : Bool) (actions : List (Action V)) : Prop :=
  ∀ n, (run (.fetched entry tagOperationEnabled) (actions.take n)).service =
    (actions.take n).foldl Action.applied entry.view

/-! ## What an action does -/

/-- The action replaces the tags of the service. -/
def Action.Sends (r : Resource V) (e : Edit V) : Action V → Prop
  | .markForOp _ _ => r.entry ≠ .null ∧ r.tagOperationEnabled = true
  | _ => r.entry ≠ .null ∧ r.tagOperationEnabled = true ∧ e.changes r.entry.view

omit [DecidableEq V] in
theorem view_of_get {entry : Entry V} {tags : Tags V} (h : entry.get = some tags) :
    entry.view = tags ∧ entry ≠ .null := by
  refine ⟨by rw [Entry.view, h]; rfl, fun hnull => ?_⟩
  rw [hnull] at h
  cases h

omit [DecidableEq V] in
theorem null_of_get {entry : Entry V} (h : entry.get = none) : entry = .null := by
  cases entry with
  | null => rfl
  | absent | map => cases h

section After

variable {V : Type}

theorem after_get_bind (f : Resource V → TagM V Unit) (r : Resource V) :
    after (get >>= f) r = after (f r) r := rfl

theorem after_modify_bind (f : Resource V → Resource V) (g : Unit → TagM V Unit) (r : Resource V) :
    after (modify f >>= g) r = after (g ()) (f r) := rfl

theorem after_throw (e : Exn) (r : Resource V) : after (throw e) r = r := rfl

theorem after_pure (r : Resource V) : after (pure ()) r = r := rfl

/-- A resource before and after: the tags of the service are replaced on a condition only. -/
structure Effect (sends : Prop) (tags : Tags V) (r r' : Resource V) : Prop where
  sent : sends → r'.service = tags
  kept : ¬ sends → r'.service = r.service

theorem effect_updateResourceTags (tags : Tags V) (r : Resource V) :
    Effect (r.tagOperationEnabled = true) tags r (after (updateResourceTags tags) r) := by
  rw [updateResourceTags, after_get_bind]
  split
  · rename_i henabled
    exact ⟨fun _ => rfl, fun h => absurd henabled h⟩
  · rename_i henabled
    exact ⟨fun h => absurd h henabled, fun _ => rfl⟩

end After

omit [DecidableEq V] in
theorem effect_removeTags (names : List Text) (r : Resource V) :
    Effect (r.entry ≠ .null ∧ r.tagOperationEnabled = true ∧
      (Edit.remove names).changes r.entry.view)
      ((Edit.remove names).apply r.entry.view) r (after (removeTags names) r) := by
  rw [removeTags, after_get_bind]
  split
  · rename_i hget
    refine ⟨fun h => absurd (null_of_get hget) h.1, fun _ => ?_⟩
    split
    · rw [after_pure]
    · rw [after_throw]
  · rename_i tags hget
    obtain ⟨rfl, hnull⟩ := view_of_get hget
    split
    · rename_i hexists
      have heffect := effect_updateResourceTags (r.entry.view.without names) r
      exact ⟨fun h => heffect.sent h.2.1, fun h => heffect.kept fun he => h ⟨hnull, he, hexists⟩⟩
    · rename_i hexists
      exact ⟨fun h => absurd h.2.2 hexists, fun _ => rfl⟩

theorem foldl_addLoop (new : List (Text × V)) (tags : Tags V) (flag : Bool) :
    (new.foldl (fun p e => (p.1.insert e.1 e.2, p.2 || decide (p.1.lookup e.1 ≠ some e.2)))
      (tags, flag)).1 = tags.written new ∧
    ((new.foldl (fun p e => (p.1.insert e.1 e.2, p.2 || decide (p.1.lookup e.1 ≠ some e.2)))
      (tags, flag)).2 = true ↔ flag = true ∨ (Edit.write new).changes tags) := by
  induction new generalizing tags flag with
  | nil => simp [Tags.written, Edit.changes]
  | cons e new ih =>
    obtain ⟨htags, hflag⟩ := ih (tags.insert e.1 e.2) (flag || decide (tags.lookup e.1 ≠ some e.2))
    refine ⟨htags, hflag.trans ?_⟩
    by_cases he : tags.lookup e.1 = some e.2
    · rw [Tags.insert_of_lookup he]
      simp [he, Edit.changes]
    · simp [he, Edit.changes]

theorem addLoop_eq (new : List (Text × V)) (tags : Tags V) :
    (addLoop new tags).1 = tags.written new ∧
      ((addLoop new tags).2 = true ↔ (Edit.write new).changes tags) := by
  obtain ⟨htags, hflag⟩ := foldl_addLoop new tags false
  exact ⟨htags, hflag.trans (by simp)⟩

theorem effect_addTags (new : List (Text × V)) (r : Resource V) :
    Effect (r.entry ≠ .null ∧ r.tagOperationEnabled = true ∧ (Edit.write new).changes r.entry.view)
      ((Edit.write new).apply r.entry.view) r (after (addTags new) r) := by
  rw [addTags, after_get_bind]
  split
  · rename_i hget
    refine ⟨fun h => absurd (null_of_get hget) h.1, fun _ => ?_⟩
    split
    · rw [after_pure]
    · rw [after_throw]
  · rename_i tags hget
    obtain ⟨rfl, hnull⟩ := view_of_get hget
    obtain ⟨htags, hchanged⟩ := addLoop_eq new r.entry.view
    simp only [after_modify_bind]
    split
    · rename_i hnew
      have heffect := effect_updateResourceTags (addLoop new r.entry.view).1
        { r with entry := r.entry.store (addLoop new r.entry.view).1 }
      refine ⟨fun h => (heffect.sent h.2.1).trans htags, fun h => heffect.kept fun he => ?_⟩
      exact h ⟨hnull, he, hchanged.mp hnew⟩
    · rename_i hnew
      exact ⟨fun h => absurd (hchanged.mpr h.2.2) hnew, fun _ => rfl⟩

omit [DecidableEq V] in
theorem effect_markForOp (name : Text) (msg : V) (r : Resource V) :
    Effect (r.entry ≠ .null ∧ r.tagOperationEnabled = true)
      ((Edit.write [(name, msg)]).apply r.entry.view) r (after (markForOp name msg) r) := by
  rw [markForOp, after_get_bind]
  split
  · rename_i hget
    exact ⟨fun h => absurd (null_of_get hget) h.1, fun _ => rfl⟩
  · rename_i tags hget
    obtain ⟨rfl, hnull⟩ := view_of_get hget
    have heffect := effect_updateResourceTags (r.entry.view.insert name msg)
      { r with entry := r.entry.store (r.entry.view.insert name msg) }
    exact ⟨fun h => heffect.sent h.2, fun h => heffect.kept fun he => h ⟨hnull, he⟩⟩

/-- **One action.**  When it sends an update, the service gets the change of the tags that the
policy sees; otherwise its tags stay. -/
theorem effect_step {r : Resource V} {a : Action V} {e : Edit V} (h : a.edit r.entry = .ok e) :
    Effect (a.Sends r e) (e.apply r.entry.view) r (step r a) := by
  cases a with
  | tag data =>
    obtain ⟨new, hnew, rfl⟩ : ∃ new, data.getTags r.entry = .ok new ∧ Edit.write new = e := by
      cases hdata : data.getTags r.entry with
      | error err =>
        rw [Action.edit, hdata] at h
        cases h
      | ok new =>
        rw [Action.edit, hdata] at h
        exact ⟨new, rfl, Except.ok.inj h⟩
    have hstep : step r (.tag data) = after (addTags new) r := by
      rw [step, Action.processResource, after_get_bind, hnew]
    rw [hstep]
    exact effect_addTags new r
  | untag names =>
    cases h
    exact effect_removeTags names r
  | tagTrim trim =>
    cases h
    rw [step, Action.processResource, after_get_bind]
    split
    · rename_i hget
      exact ⟨fun h => absurd (null_of_get hget) h.1, fun _ => rfl⟩
    · rename_i tags hget
      obtain ⟨rfl, -⟩ := view_of_get hget
      split
      · rename_i hnone
        refine ⟨fun h => ?_, fun _ => rfl⟩
        obtain ⟨name, hname, -⟩ := h.2.2
        rw [hnone] at hname
        cases hname
      · exact effect_removeTags _ r
  | markForOp name msg =>
    cases h
    exact effect_markForOp name msg r

theorem service_step_of_error {r : Resource V} {a : Action V} {err : Exn}
    (h : a.edit r.entry = .error err) : (step r a).service = r.service := by
  cases a with
  | tag data =>
    cases hdata : data.getTags r.entry with
    | ok new =>
      rw [Action.edit, hdata] at h
      cases h
    | error err =>
      rw [step, Action.processResource, after_get_bind, hdata]
      rfl
  | untag | tagTrim | markForOp => cases h

/-! ## Sequences of actions -/

/-- The action computes the same change from the tags that the policy sees and from those of the
service; if it sends an update they agree on all other tags, and if not the service has nothing
to change. -/
structure Meets (r : Resource V) (a : Action V) : Prop where
  sameEdit : (a.edit r.entry).toOption = (a.edit (.map r.service)).toOption
  sent : ∀ e, a.edit r.entry = .ok e → a.Sends r e →
    ∀ k ∉ e.names, r.entry.view.lookup k = r.service.lookup k
  kept : ∀ e, a.edit r.entry = .ok e → ¬ a.Sends r e → ¬ e.changes r.service

/-- Every action of the policy meets the tags it finds. -/
def Meeting (entry : Entry V) (tagOperationEnabled : Bool) (actions : List (Action V)) : Prop :=
  ∀ n a, actions[n]? = some a → Meets (run (.fetched entry tagOperationEnabled) (actions.take n)) a

/-- **One action on tags that it meets.** -/
theorem step_of_meets {r : Resource V} {a : Action V} (h : Meets r a) :
    (step r a).service = a.applied r.service := by
  cases hedit : a.edit r.entry with
  | error err =>
    have hsame := h.sameEdit
    rw [hedit] at hsame
    rw [service_step_of_error hedit, Action.applied]
    cases hservice : a.edit (.map r.service) with
    | error err => rfl
    | ok e =>
      rw [hservice] at hsame
      cases hsame
  | ok e =>
    have hservice : a.edit (.map r.service) = .ok e := by
      have hsame := h.sameEdit
      rw [hedit] at hsame
      cases hservice : a.edit (.map r.service) with
      | error err =>
        rw [hservice] at hsame
        cases hsame
      | ok e' =>
        rw [hservice] at hsame
        rw [Option.some.inj hsame]
    rw [Action.applied, hservice]
    have heffect := effect_step hedit
    by_cases hsends : a.Sends r e
    · rw [heffect.sent hsends]
      exact Edit.apply_congr (h.sent e hedit hsends)
    · rw [heffect.kept hsends]
      exact (Edit.apply_of_not_changes (h.kept e hedit hsends)).symm

/-- **When tag actions compose.**  If every action meets the tags it finds, the service has at any
time the tags that the actions so far make of the original ones. -/
theorem composes_of_meets (entry : Entry V) (tagOperationEnabled : Bool)
    (actions : List (Action V)) (h : Meeting entry tagOperationEnabled actions) :
    Composes entry tagOperationEnabled actions := by
  intro n
  induction n with
  | zero => rfl
  | succ n ih =>
    rw [List.take_add_one]
    cases ha : actions[n]? with
    | none =>
      rw [Option.toList_none, List.append_nil]
      exact ih
    | some a =>
      have hstep := step_of_meets (h n a ha)
      rw [ih] at hstep
      rw [Option.toList_some, List.foldl_concat, run, List.foldl_concat]
      exact hstep

/-! ## Resources in step with the service -/

/-- The entry is a map with the tags of the service. -/
structure InStep (r : Resource V) : Prop where
  entry : r.entry = .map r.service
  enabled : r.tagOperationEnabled = true

omit [DecidableEq V] in
theorem meets_of_inStep {r : Resource V} (h : InStep r) (a : Action V) : Meets r a where
  sameEdit := by rw [h.entry]
  sent e _ _ k _ := by
    rw [h.entry]
    rfl
  kept e hedit hsends hchanges := by
    have hnull : r.entry ≠ .null := by
      rw [h.entry]
      intro hnull
      cases hnull
    have hview : e.changes r.entry.view := by
      rw [h.entry]
      exact hchanges
    cases a with
    | markForOp => exact hsends ⟨hnull, h.enabled⟩
    | tag | untag | tagTrim => exact hsends ⟨hnull, h.enabled, hview⟩

/-- The action writes tags and removes none. -/
def Action.Writes : Action V → Prop
  | .tag _ | .markForOp _ _ => True
  | .untag _ | .tagTrim _ => False

theorem inStep_addTags {r : Resource V} (h : InStep r) (new : List (Text × V)) :
    InStep (after (addTags new) r) := by
  obtain ⟨entry, service, enabled⟩ := r
  obtain ⟨rfl, rfl⟩ : entry = .map service ∧ enabled = true := ⟨h.entry, h.enabled⟩
  obtain ⟨htags, hchanged⟩ := addLoop_eq new service
  rw [addTags, after_get_bind]
  simp only [Entry.get, after_modify_bind, Entry.store]
  split
  · exact ⟨rfl, rfl⟩
  · rename_i hnew
    rw [after_pure, htags, ← Edit.apply, Edit.apply_of_not_changes fun h => hnew (hchanged.mpr h)]
    exact ⟨rfl, rfl⟩

theorem inStep_step {r : Resource V} (h : InStep r) {a : Action V} (ha : a.Writes) :
    InStep (step r a) := by
  cases a with
  | tag data =>
    rw [step, Action.processResource, after_get_bind]
    split
    · exact inStep_addTags h _
    · exact h
  | markForOp name msg =>
    obtain ⟨entry, service, enabled⟩ := r
    obtain ⟨rfl, rfl⟩ : entry = .map service ∧ enabled = true := ⟨h.entry, h.enabled⟩
    exact ⟨rfl, rfl⟩
  | untag | tagTrim => exact ha.elim

theorem inStep_run {r : Resource V} (h : InStep r) {actions : List (Action V)}
    (hactions : ∀ a ∈ actions, a.Writes) : InStep (run r actions) := by
  induction actions generalizing r with
  | nil => exact h
  | cons a actions ih =>
    obtain ⟨ha, hrest⟩ := List.forall_mem_cons.mp hactions
    exact ih (inStep_step h ha) hrest

theorem meeting_of_writes (tags : Tags V) {actions : List (Action V)}
    (h : ∀ a ∈ actions.dropLast, a.Writes) : Meeting (.map tags) true actions := by
  intro n a ha
  have hn : n < actions.length := (List.getElem?_eq_some_iff.mp ha).1
  refine meets_of_inStep (inStep_run ⟨rfl, rfl⟩ fun b hb => h b ?_) a
  rw [List.dropLast_eq_take]
  exact List.take_subset_take_left actions (Nat.le_sub_one_of_lt hn) hb

/-! ## A policy with two actions -/

/-- The tags of a resource with an owner. -/
def sampleTags : Tags Text := Finmap.singleton "Owner".toList "platform".toList

def tagEnv : Action Text := .tag (.tags [("Env".toList, .value "test".toList)])

def untagOwner : Action Text := .untag ["Owner".toList]

theorem composes_of_meets_sample : Composes (.map sampleTags) true [tagEnv, untagOwner] :=
  composes_of_meets (.map sampleTags) true [tagEnv, untagOwner] <|
    meeting_of_writes sampleTags fun a ha => by
      rw [List.mem_singleton.mp ha]
      exact trivial

/-- A tag that was removed is written again; of two tags on a resource without tags the first is
lost; and a resource whose tags are null gets none. -/
theorem actions_interfere :
    ¬ Composes (.map sampleTags) true [untagOwner, tagEnv] ∧
      ((run (.fetched (.map sampleTags) true) [untagOwner, tagEnv]).service.lookup
        "Owner".toList = some "platform".toList) ∧
    ¬ Composes .absent true [tagEnv, .markForOp "custodian_status".toList "stop".toList] ∧
      ((run (.fetched .absent true)
        [tagEnv, .markForOp "custodian_status".toList "stop".toList]).service.lookup
          "Env".toList = none) ∧
    ¬ Composes .null true [tagEnv] := by
  refine ⟨fun h => ?_, rfl, fun h => ?_, rfl, fun h => ?_⟩
  · exact absurd (congrArg (Finmap.lookup "Owner".toList) (h 2)) (by decide)
  · exact absurd (congrArg (Finmap.lookup "Env".toList) (h 2)) (by decide)
  · exact absurd (congrArg (Finmap.lookup "Env".toList) (h 1)) (by decide)

end Custodian.AzureTags

import Custodian.Lib.EditedLoop
import Custodian.Lib.Except
import Custodian.Lib.SharedLists
import Custodian.Lib.Text

/-!
# The action `modify-security-groups`

`ModifyVpcSecurityGroupsAction` of `actions/network.py`.  The lists of the policy are read at
addresses, because `_get_array` hands out the lists themselves and `get_groups` extends one.
-/

namespace Custodian.ModifyGroups

open Py

/-! ## The policy -/

/-- The keys of the action that take groups. -/
inductive GroupKey where
  | add
  | remove
  | isolationGroup
  deriving DecidableEq

def GroupKey.address : GroupKey → Nat
  | .add => 0
  | .remove => 1
  | .isolationGroup => 2

/-- What stands under a key: nothing, one group or a list of groups. -/
inductive Value where
  | missing
  | text (s : Text)
  | array (xs : List Text)
  deriving DecidableEq

structure AddByTag where
  key : Text
  values : List Text
  deriving DecidableEq

/-- `self.data` -/
structure Data where
  add : Value
  remove : Value
  isolationGroup : Value
  addByTag : Option AddByTag
  deriving DecidableEq

def Data.value (d : Data) : GroupKey → Value
  | .add => d.add
  | .remove => d.remove
  | .isolationGroup => d.isolationGroup

/-- The lists in the policy, at their addresses. -/
def Data.lists (d : Data) : Store Text := fun l =>
  match l with
  | 0 => match d.add with
    | .array xs => xs
    | _ => []
  | 1 => match d.remove with
    | .array xs => xs
    | _ => []
  | 2 => match d.isolationGroup with
    | .array xs => xs
    | _ => []
  | _ => []

def Value.withList (xs : List Text) : Value → Value
  | .array _ => .array xs
  | v => v

/-- The policy when its lists have other contents. -/
def Data.withLists (d : Data) (s : Store Text) : Data :=
  { d with
    add := d.add.withList (s GroupKey.add.address)
    remove := d.remove.withList (s GroupKey.remove.address)
    isolationGroup := d.isolationGroup.withList (s GroupKey.isolationGroup.address) }

/-- `self._get_array(k)` -/
def Data.getArray (d : Data) (k : GroupKey) : Ref Text :=
  match d.value k with
  | .missing => .fresh []
  | .text s => .fresh [s]
  | .array _ => .own k.address

/-! ## Resources and the service -/

/-- An entry of the `c7n:NetworkLocation` annotation. -/
structure Reason where
  reason : Text
  securityGroups : List Text

/-- What the action reads of a resource. -/
structure Resource where
  resourceId : Text
  /-- What the expression of the `security-group` filter finds. -/
  securityGroups : Option (List Text)
  /-- What the expression of the `vpc` filter finds. -/
  vpcId : Option Text
  /-- `r.get('c7n:matched-security-groups')` -/
  matched : Option (List Text)
  /-- `r.get('c7n:NetworkLocation')` -/
  networkLocation : Option (List Reason)

/-- A security group as the service describes it. -/
structure Group where
  groupId : Text
  groupName : Text
  vpcId : Text

/-- The answers of `describe_security_groups`. -/
structure Service where
  byNames : List Text → List Group
  byTag : Text → List Text → List Group

/-- The resource type: the expressions of its `security-group` and `vpc` filters, if it has them. -/
structure Manager where
  sgExpression : Option Text
  vpcExpression : Option Text

inductive Failure where
  /-- Names of the action that no group has. -/
  | notFound (names : List Text)
  | notAttached (resourceId : Text)
  | notResolved (name resourceId vpc : Text)
  /-- The resource type has no `vpc` filter. -/
  | attributeError
  /-- The expression of the `vpc` filter is empty. -/
  | emptyExpression
  deriving DecidableEq

def Failure.isPolicyExecutionError : Failure → Bool
  | .notFound _ | .notAttached _ | .notResolved .. => true
  | .attributeError | .emptyExpression => false

/-- A computation that may write into the lists of the policy. -/
abbrev ActionM := EStateM Failure (Store Text)

def ofExcept {α : Type} (x : Except Failure α) : ActionM α := fun s =>
  match x with
  | .ok a => .ok a s
  | .error e => .error e s

/-- The search for the vpc of a resource. -/
def vpcSearch (m : Manager) (r : Resource) : Except Failure (Option Text) :=
  match m.vpcExpression with
  | none => .error .attributeError
  | some [] => .error .emptyExpression
  | some _ => .ok r.vpcId

/-! ## Names -/

/-- `SYMBOLIC_SGS` -/
def symbolicSgs : List Text := ["all".toList, "matched".toList, "network-location".toList]

/-- The entry is neither an id nor a symbol. -/
def isName (g : Text) : Bool := !Text.startsWith g "sg-".toList && !symbolicSgs.contains g

def getGroupNames (groups : List Text) : List Text := groups.filter isName

def getActionGroupNames (d : Data) (s : Store Text) : List Text :=
  getGroupNames ((d.getArray .add).read s ++ (d.getArray .remove).read s ++
    (d.getArray .isolationGroup).read s)

/-- `self.get_groups_by_names(names)` -/
def getGroupsByNames (svc : Service) (names : List Text) : Except Failure (List Group) :=
  if names = [] then .ok []
  else
    let sgs := svc.byNames names
    let unresolved := names.filter fun n => sgs.all fun g => g.groupName != n
    if unresolved = [] then .ok sgs else .error (.notFound unresolved)

/-- The inner loop: the last group with the name in the vpc, else what was found before. -/
def findGroup (groups : List Group) (vpcId n : Text) (found : Option Text) : Option Text :=
  groups.foldl (fun found g =>
    if g.groupName = n ∧ g.vpcId = vpcId then some g.groupId else found) found

/-- The loop over the names; `found` keeps its value from one name to the next. -/
def resolveNames (groups : List Group) (resourceId vpcId : Text) :
    Option Text → List Text → List Text → Except Failure (List Text)
  | _, targets, [] => .ok targets
  | found, targets, n :: names =>
    match findGroup groups vpcId n found with
    | none | some [] => .error (.notResolved n resourceId vpcId)
    | some groupId =>
      resolveNames groups resourceId vpcId (some groupId) (targets.erase n ++ [groupId]) names

/-- The names of a list replaced by ids, for a resource that must be attached to a vpc. -/
def replaceNames (m : Manager) (groups : List Group) (r : Resource) (targets : List Text) :
    Except Failure (List Text) := do
  match ← vpcSearch m r with
  | none | some [] => throw (.notAttached r.resourceId)
  | some vpcId =>
    resolveNames groups r.resourceId vpcId none targets (getGroupNames targets)

/-- `self.resolve_group_names(r, target_group_ids, groups)`: the list itself if it has no names. -/
def resolveGroupNames (m : Manager) (groups : List Group) (r : Resource) (targets : Ref Text) :
    ActionM (Ref Text) := do
  let s ← get
  if getGroupNames (targets.read s) = [] then pure targets
  else return .fresh (← ofExcept (replaceNames m groups r (targets.read s)))

/-! ## Groups -/

/-- What is removed: given groups, or the groups of the resource, in which case the loop that
removes them iterates over the list that it edits. -/
inductive Removal where
  | groups (xs : List Text)
  | current

/-- `self.resolve_remove_symbols(r, target_group_ids, rgroups)` -/
def resolveRemoveSymbols (r : Resource) (targets : List Text) : Removal :=
  if "matched".toList ∈ targets then .groups (r.matched.getD [])
  else if "network-location".toList ∈ targets then
    match (r.networkLocation.getD []).find? fun reason =>
        reason.reason = "SecurityGroupMismatch".toList with
    | some reason => .groups reason.securityGroups
    | none => .groups targets
  else if "all".toList ∈ targets then .current
  else .groups targets

/-- `for g in remove_groups: if g in rgroups: rgroups.remove(g)` -/
def removeGroups (rgroups : List Text) : Removal → List Text
  | .groups xs => xs.foldl List.erase rgroups
  | .current => EditedLoop.loop (fun g rgroups => rgroups.erase g) rgroups

/-- `for g in add_groups: if g not in rgroups: rgroups.append(g)` -/
def addGroups (rgroups xs : List Text) : List Text :=
  xs.foldl (fun rgroups g => if g ∈ rgroups then rgroups else rgroups ++ [g]) rgroups

/-- The loop that extends the groups to add by those with the tag in the vpc of the resource. -/
def addTagged (m : Manager) (r : Resource) : List Group → Ref Text → ActionM (Ref Text)
  | [], addGroups => pure addGroups
  | sg :: tagged, addGroups => do
    if some sg.vpcId = (← ofExcept (vpcSearch m r)) then
      let s ← get
      let (addGroups, s) := addGroups.extend [sg.groupId] s
      set s
      addTagged m r tagged addGroups
    else addTagged m r tagged addGroups

/-- The loop body of `get_groups`. -/
def getGroup (m : Manager) (d : Data) (resolved tagged : List Group) (r : Resource) :
    ActionM (List Text) := do
  let rgroups := r.securityGroups.getD []
  let toAdd ← resolveGroupNames m resolved r (d.getArray .add)
  let toRemove ← resolveGroupNames m resolved r (d.getArray .remove)
  let toRemove := resolveRemoveSymbols r (toRemove.read (← get))
  let isolation ← resolveGroupNames m resolved r (d.getArray .isolationGroup)
  let toAdd ← addTagged m r tagged toAdd
  let rgroups := removeGroups rgroups toRemove
  let rgroups := addGroups rgroups (toAdd.read (← get))
  if rgroups = [] then return isolation.read (← get)
  else return rgroups

/-- The groups that `add-by-tag` finds. -/
def taggedGroups (svc : Service) (d : Data) : List Group :=
  match d.addByTag with
  | none => []
  | some tag => svc.byTag tag.key tag.values

/-- `self.get_groups(resources)` -/
def getGroups (m : Manager) (svc : Service) (d : Data) (resources : List Resource) :
    ActionM (List (List Text)) := do
  let resolved ← ofExcept (getGroupsByNames svc (getActionGroupNames d (← get)))
  resources.mapM (getGroup m d resolved (taggedGroups svc d))

/-- A call of `get_groups` on a fresh action: what it returns or raises, and `self.data` after. -/
def callGetGroups (m : Manager) (svc : Service) (d : Data) (resources : List Resource) :
    Except Failure (List (List Text)) × Data :=
  match (getGroups m svc d resources).run d.lists with
  | .ok groups s => (.ok groups, d.withLists s)
  | .error e s => (.error e, d.withLists s)

/-! ## Validation -/

/-- The configuration has the keys and the values that the schema asks for. -/
def Data.meetsSchema (d : Data) : Bool :=
  (match d.remove with
    | .text s => symbolicSgs.contains s
    | _ => true) &&
  (d.add != .missing || d.addByTag.isSome ||
    (d.isolationGroup != .missing && d.remove != .missing))

/-- The schema and `self.validate()` accept the configuration. -/
def accepts (m : Manager) (d : Data) : Bool :=
  d.meetsSchema && m.sgExpression.getD [] != [] &&
    (getActionGroupNames d d.lists == [] || m.vpcExpression.getD [] != []) &&
    (!((d.getArray .remove).read d.lists).contains "all".toList ||
      (d.getArray .isolationGroup).read d.lists != [])

/-- The resource type `eni`. -/
def sampleManager : Manager := ⟨some "Groups[].GroupId".toList, some "VpcId".toList⟩

/-- An interface without groups. -/
def sampleInterface (resourceId vpcId : Text) : Resource where
  resourceId := resourceId
  securityGroups := none
  vpcId := some vpcId
  matched := none
  networkLocation := none

/-! ## Runs of the loop body -/

theorem run_bind_ok {α β : Type} {x : ActionM α} {f : α → ActionM β} {s s' : Store Text} {a : α}
    (h : x.run s = .ok a s') : (x >>= f).run s = (f a).run s' := by
  rw [EStateM.run_bind, h]

theorem run_bind_error {α β : Type} {x : ActionM α} {f : α → ActionM β} {s s' : Store Text}
    {e : Failure} (h : x.run s = .error e s') : (x >>= f).run s = .error e s' := by
  rw [EStateM.run_bind, h]

theorem run_ofExcept_ok {α : Type} {x : Except Failure α} {a : α} (h : x = .ok a)
    (s : Store Text) : (ofExcept x).run s = .ok a s := by
  rw [h]
  rfl

theorem run_ofExcept_error {α : Type} {x : Except Failure α} {e : Failure} (h : x = .error e)
    (s : Store Text) : (ofExcept x).run s = .error e s := by
  rw [h]
  rfl

/-- The entries of a list with the names resolved. -/
def resolveEntries (m : Manager) (groups : List Group) (r : Resource) (targets : List Text) :
    Except Failure (List Text) :=
  if getGroupNames targets = [] then .ok targets else replaceNames m groups r targets

/-- A list with its names resolved, which is a new one if there are any. -/
def resolvedRef (targets : Ref Text) (s : Store Text) (xs : List Text) : Ref Text :=
  if getGroupNames (targets.read s) = [] then targets else .fresh xs

theorem run_resolveGroupNames (m : Manager) (groups : List Group) (r : Resource)
    (targets : Ref Text) (s : Store Text) :
    (resolveGroupNames m groups r targets).run s =
      match resolveEntries m groups r (targets.read s) with
      | .ok xs => .ok (resolvedRef targets s xs) s
      | .error e => .error e s := by
  rw [resolveGroupNames, run_bind_ok (EStateM.run_get s), resolveEntries]
  by_cases hnames : getGroupNames (targets.read s) = []
  · simp only [hnames, if_true, resolvedRef, EStateM.run_pure]
  · simp only [hnames, if_false, resolvedRef]
    cases h : replaceNames m groups r (targets.read s) with
    | ok xs => rw [run_bind_ok (run_ofExcept_ok rfl s), EStateM.run_pure]
    | error e => rw [run_bind_error (run_ofExcept_error rfl s)]

theorem read_resolvedRef {m : Manager} {groups : List Group} {r : Resource} {targets : Ref Text}
    {s : Store Text} {xs : List Text} (h : resolveEntries m groups r (targets.read s) = .ok xs) :
    (resolvedRef targets s xs).read s = xs := by
  rw [resolveEntries] at h
  rw [resolvedRef]
  split at h
  · rename_i hnames
    rw [if_pos hnames]
    injection h
  · rename_i hnames
    rw [if_neg hnames]
    rfl

/-- The ids of the tagged groups in the vpc of the resource. -/
def taggedIn (m : Manager) (r : Resource) (tagged : List Group) : Except Failure (List Text) :=
  if tagged = [] then .ok []
  else (vpcSearch m r).map fun vpc =>
    (tagged.filter fun sg => some sg.vpcId = vpc).map Group.groupId

theorem run_addTagged_ok {m : Manager} {r : Resource} {vpc : Option Text}
    (h : vpcSearch m r = .ok vpc) (tagged : List Group) (xs : Ref Text) (s : Store Text) :
    let ids := (tagged.filter fun sg => some sg.vpcId = vpc).map Group.groupId
    (addTagged m r tagged xs).run s = .ok (xs.extend ids s).1 (xs.extend ids s).2 := by
  induction tagged generalizing xs s with
  | nil => simp only [addTagged, EStateM.run_pure, List.filter_nil, List.map_nil, extend_nil]
  | cons sg tagged ih =>
    rw [addTagged, run_bind_ok (run_ofExcept_ok h s)]
    by_cases hvpc : some sg.vpcId = vpc
    · rw [if_pos hvpc, run_bind_ok (EStateM.run_get s)]
      simp only [EStateM.run_bind, EStateM.run_set]
      rw [ih, extend_extend]
      simp [hvpc]
    · rw [if_neg hvpc, ih]
      simp [hvpc]

theorem run_addTagged (m : Manager) (r : Resource) (tagged : List Group) (xs : Ref Text)
    (s : Store Text) :
    (addTagged m r tagged xs).run s =
      match taggedIn m r tagged with
      | .ok ids => .ok (xs.extend ids s).1 (xs.extend ids s).2
      | .error e => .error e s := by
  cases tagged with
  | nil => simp only [addTagged, taggedIn, if_true, EStateM.run_pure, extend_nil]
  | cons sg tagged =>
    rw [taggedIn, if_neg (List.cons_ne_nil sg tagged)]
    cases h : vpcSearch m r with
    | ok vpc => exact run_addTagged_ok h (sg :: tagged) xs s
    | error e => rw [addTagged, run_bind_error (run_ofExcept_error h s)]; rfl

/-- What the loop body finds for a resource before it edits groups. -/
structure Resolution where
  toAdd : List Text
  toRemove : List Text
  isolation : List Text
  tagged : List Text

def resolve (m : Manager) (d : Data) (groups tagged : List Group) (r : Resource)
    (s : Store Text) : Except Failure Resolution := do
  let toAdd ← resolveEntries m groups r ((d.getArray .add).read s)
  let toRemove ← resolveEntries m groups r ((d.getArray .remove).read s)
  let isolation ← resolveEntries m groups r ((d.getArray .isolationGroup).read s)
  let tagged ← taggedIn m r tagged
  pure ⟨toAdd, toRemove, isolation, tagged⟩

/-- The groups that the resource gets. -/
def Resolution.groups (p : Resolution) (r : Resource) : List Text :=
  let rgroups := removeGroups (r.securityGroups.getD []) (resolveRemoveSymbols r p.toRemove)
  let rgroups := addGroups rgroups (p.toAdd ++ p.tagged)
  if rgroups = [] then p.isolation else rgroups

/-- The lists of the policy after the tagged groups of a resource were added. -/
def listsAfter (d : Data) (s : Store Text) (tagged : List Text) : Store Text :=
  if getGroupNames ((d.getArray .add).read s) = [] then ((d.getArray .add).extend tagged s).2
  else s

theorem resolvedRef_extend_snd (d : Data) (s : Store Text) (xs tagged : List Text) :
    ((resolvedRef (d.getArray .add) s xs).extend tagged s).2 = listsAfter d s tagged := by
  rw [resolvedRef, listsAfter]
  split <;> rfl

theorem getArray_eq_own {d : Data} {k : GroupKey} {l : Nat} (h : d.getArray k = .own l) :
    l = k.address := by
  unfold Data.getArray at h
  split at h <;> cases h
  rfl

theorem resolvedRef_eq_own {d : Data} {k : GroupKey} {s : Store Text} {xs : List Text} {l : Nat}
    (h : resolvedRef (d.getArray k) s xs = .own l) : l = k.address := by
  rw [resolvedRef] at h
  split at h
  · exact getArray_eq_own h
  · cases h

theorem read_isolation_listsAfter (d : Data) (s : Store Text) (xs tagged : List Text) :
    (resolvedRef (d.getArray .isolationGroup) s xs).read (listsAfter d s tagged) =
      (resolvedRef (d.getArray .isolationGroup) s xs).read s := by
  rw [← resolvedRef_extend_snd d s []]
  refine read_extend_other (fun l hl hl' => ?_) tagged s
  have hadd := resolvedRef_eq_own hl
  rw [resolvedRef_eq_own hl'] at hadd
  cases hadd

/-- **The loop body.**  It returns what the lists of the policy give for the resource, and may
extend the groups to add by the tagged ones. -/
theorem run_getGroup (m : Manager) (d : Data) (groups tagged : List Group) (r : Resource)
    (s : Store Text) :
    (getGroup m d groups tagged r).run s =
      match resolve m d groups tagged r s with
      | .ok p => .ok (p.groups r) (listsAfter d s p.tagged)
      | .error e => .error e s := by
  rw [getGroup, resolve]
  have hadd := run_resolveGroupNames m groups r (d.getArray .add) s
  have hremove := run_resolveGroupNames m groups r (d.getArray .remove) s
  have hisolation := run_resolveGroupNames m groups r (d.getArray .isolationGroup) s
  cases ha : resolveEntries m groups r ((d.getArray .add).read s) with
  | error e =>
    rw [ha] at hadd
    exact run_bind_error hadd
  | ok toAdd =>
    rw [ha] at hadd
    rw [run_bind_ok hadd]
    cases hr : resolveEntries m groups r ((d.getArray .remove).read s) with
    | error e =>
      rw [hr] at hremove
      exact run_bind_error hremove
    | ok toRemove =>
      rw [hr] at hremove
      rw [run_bind_ok hremove, run_bind_ok (EStateM.run_get s), read_resolvedRef hr]
      cases hi : resolveEntries m groups r ((d.getArray .isolationGroup).read s) with
      | error e =>
        rw [hi] at hisolation
        exact run_bind_error hisolation
      | ok isolation =>
        rw [hi] at hisolation
        rw [run_bind_ok hisolation]
        have htagged := run_addTagged m r tagged (resolvedRef (d.getArray .add) s toAdd) s
        cases ht : taggedIn m r tagged with
        | error e =>
          rw [ht] at htagged
          exact run_bind_error htagged
        | ok ids =>
          rw [ht] at htagged
          rw [run_bind_ok htagged, run_bind_ok (EStateM.run_get _), read_extend,
            read_resolvedRef ha, resolvedRef_extend_snd]
          change _ = EStateM.Result.ok
            ((Resolution.mk toAdd toRemove isolation ids).groups r) (listsAfter d s ids)
          rw [Resolution.groups]
          by_cases hempty : addGroups (removeGroups (r.securityGroups.getD [])
              (resolveRemoveSymbols r toRemove)) (toAdd ++ ids) = []
          · rw [if_pos hempty, if_pos hempty, run_bind_ok (EStateM.run_get _), EStateM.run_pure,
              read_isolation_listsAfter, read_resolvedRef hi]
          · rw [if_neg hempty, if_neg hempty, EStateM.run_pure]

/-! ## Runs of the loop -/

/-- The groups of the resources one after another, from given lists of the policy. -/
def getEach (m : Manager) (d : Data) (groups tagged : List Group) :
    List Resource → Store Text → Except Failure (List (List Text)) × Store Text
  | [], s => (.ok [], s)
  | r :: rs, s =>
    match resolve m d groups tagged r s with
    | .error e => (.error e, s)
    | .ok p =>
      let rest := getEach m d groups tagged rs (listsAfter d s p.tagged)
      (rest.1.map (p.groups r :: ·), rest.2)

theorem run_mapM_getGroup (m : Manager) (d : Data) (groups tagged : List Group)
    (rs : List Resource) (s : Store Text) :
    (rs.mapM (getGroup m d groups tagged)).run s =
      match getEach m d groups tagged rs s with
      | (.ok gs, s') => .ok gs s'
      | (.error e, s') => .error e s' := by
  induction rs generalizing s with
  | nil => rw [List.mapM_nil, EStateM.run_pure, getEach]
  | cons r rs ih =>
    rw [List.mapM_cons, getEach]
    have hr := run_getGroup m d groups tagged r s
    cases h : resolve m d groups tagged r s with
    | error e =>
      rw [h] at hr
      exact run_bind_error hr
    | ok p =>
      rw [h] at hr
      rw [run_bind_ok hr]
      have hrest := ih (listsAfter d s p.tagged)
      cases hx : getEach m d groups tagged rs (listsAfter d s p.tagged) with
      | mk x s' =>
        rw [hx] at hrest
        simp only [hx]
        cases x with
        | error e => exact run_bind_error hrest
        | ok gs => rw [run_bind_ok hrest, EStateM.run_pure]; rfl

theorem withLists_lists (d : Data) : d.withLists d.lists = d := by
  have h (xs : List Text) (v : Value) (hv : ∀ ys, v = .array ys → xs = ys) :
      v.withList xs = v := by
    cases v with
    | array ys => rw [Value.withList, hv ys rfl]
    | missing => rfl
    | text s => rfl
  obtain ⟨add, remove, isolation, tag⟩ := d
  rw [Data.withLists, h _ add, h _ remove, h _ isolation] <;>
    (rintro ys rfl; rfl)

/-- **`get_groups`.**  The groups that the action names are looked up, then the resources are
taken one after another. -/
theorem callGetGroups_eq (m : Manager) (svc : Service) (d : Data) (rs : List Resource) :
    callGetGroups m svc d rs =
      match getGroupsByNames svc (getActionGroupNames d d.lists) with
      | .error e => (.error e, d)
      | .ok groups =>
        let x := getEach m d groups (taggedGroups svc d) rs d.lists
        (x.1, d.withLists x.2) := by
  rw [callGetGroups, getGroups, run_bind_ok (EStateM.run_get _)]
  cases h : getGroupsByNames svc (getActionGroupNames d d.lists) with
  | error e =>
    rw [run_bind_error (run_ofExcept_error rfl _)]
    simp only [withLists_lists]
  | ok groups =>
    rw [run_bind_ok (run_ofExcept_ok rfl _), run_mapM_getGroup]
    cases hx : getEach m d groups (taggedGroups svc d) rs d.lists with
    | mk x s =>
      simp only [hx]
      cases x <;> rfl

end Custodian.ModifyGroups

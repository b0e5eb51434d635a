import Custodian.Lib.AppendNew
import Custodian.Lib.Runs
import Custodian.Network.SecurityGroups
import Mathlib.Data.List.Count

/-!
# The groups that a resource gets

With group ids only, a resource is to get its groups but for those to remove, and those to add;
if these are none, the isolation groups.
-/

namespace Custodian.ModifyGroups

open Py

variable {m : Manager} {svc : Service} {d : Data} {tagged : List Group} {r : Resource}

/-! ## What is to be computed -/

def Resource.current (r : Resource) : List Text := r.securityGroups.getD []

/-- The entries of the policy under a key. -/
def Data.entries (d : Data) (k : GroupKey) : List Text := (d.getArray k).read d.lists

/-- The groups to remove: those that a symbol stands for, or the entries. -/
def toRemove (d : Data) (r : Resource) : List Text :=
  if "matched".toList ∈ d.entries .remove then r.matched.getD []
  else if "network-location".toList ∈ d.entries .remove then
    match (r.networkLocation.getD []).find? fun reason =>
        reason.reason = "SecurityGroupMismatch".toList with
    | some reason => reason.securityGroups
    | none => d.entries .remove
  else if "all".toList ∈ d.entries .remove then r.current
  else d.entries .remove

/-- The groups with the tag in the vpc of the resource. -/
def ownTagged (tagged : List Group) (r : Resource) : List Text :=
  (tagged.filter fun sg => some sg.vpcId = r.vpcId).map Group.groupId

/-- The current groups that are not to be removed. -/
def kept (d : Data) (r : Resource) : List Text := r.current.filter (· ∉ toRemove d r)

/-- The groups to add. -/
def added (d : Data) (tagged : List Group) (r : Resource) : List Text :=
  d.entries .add ++ ownTagged tagged r

/-- The groups that the resource is to get. -/
def expected (d : Data) (tagged : List Group) (r : Resource) : List Text :=
  if kept d r ++ added d tagged r = [] then d.entries .isolationGroup
  else kept d r ++ added d tagged r

/-- A list has the groups that the resource is to get, and none that is added is in it twice. -/
structure Computed (d : Data) (tagged : List Group) (r : Resource) (gs : List Text) : Prop where
  mem_iff : ∀ g, g ∈ gs ↔ g ∈ expected d tagged r
  once : ∀ g ∈ added d tagged r, gs.count g ≤ 1

/-- The call returns, and for every resource the groups that it is to get. -/
def Computes (m : Manager) (svc : Service) (d : Data) (rs : List Resource) : Prop :=
  ∃ gss, (callGetGroups m svc d rs).1 = .ok gss ∧
    List.Forall₂ (Computed d (taggedGroups svc d)) rs gss

/-! ## The condition -/

/-- The action is to remove all groups of the resource, so that it iterates over the list it edits. -/
def RemovesAll (d : Data) : Prop :=
  "matched".toList ∉ d.entries .remove ∧ "network-location".toList ∉ d.entries .remove ∧
    "all".toList ∈ d.entries .remove

instance (d : Data) : Decidable (RemovesAll d) := inferInstanceAs (Decidable (_ ∧ _ ∧ _))

/-- How often the removal leaves a group: as often as it is at an odd position when all groups are
removed, else as often as the resource has it more than the list of groups to remove. -/
def timesLeft (d : Data) (r : Resource) (g : Text) : Nat :=
  if RemovesAll d then (EditedLoop.everySecond r.current).count g
  else r.current.count g - (toRemove d r).count g

/-- The group is to be removed and is left. -/
def Survives (d : Data) (r : Resource) (g : Text) : Prop := g ∈ toRemove d r ∧ 0 < timesLeft d r g

/-- The tagged groups that earlier resources leave in the list of the policy. -/
def leftBehind (d : Data) (tagged : List Group) (before : List Resource) : List Text :=
  match d.add with
  | .array _ => before.flatMap (ownTagged tagged)
  | _ => []

/-- The group is one that the resource may get without being meant to. -/
def Stray (d : Data) (tagged : List Group) (before : List Resource) (r : Resource) (g : Text) :
    Prop := Survives d r g ∨ g ∈ leftBehind d tagged before

/-- What is left by mistake is among the groups that the resource is to get, and no added group is
left twice; or the resource is to get none and these are the isolation groups. -/
def Tidy (d : Data) (tagged : List Group) (before : List Resource) (r : Resource) : Prop :=
  ((∀ g, Stray d tagged before r g → g ∈ kept d r ++ added d tagged r) ∧
    ∀ g ∈ added d tagged r, timesLeft d r g ≤ 1) ∨
  (kept d r ++ added d tagged r = [] ∧
    ∀ g, Stray d tagged before r g ↔ g ∈ d.entries .isolationGroup)

/-- The vpc of the resource can be searched if groups have the tag. -/
def Searchable (m : Manager) (tagged : List Group) : Prop :=
  tagged = [] ∨ m.vpcExpression.getD [] ≠ []

/-- The groups left by earlier resources are ids, and nothing that is left does harm. -/
def Meets (m : Manager) (d : Data) (tagged : List Group) (before : List Resource) (r : Resource) :
    Prop :=
  Searchable m tagged ∧ getGroupNames (leftBehind d tagged before) = [] ∧ Tidy d tagged before r

/-! ## Removing and adding -/

theorem resolveRemoveSymbols_eq (d : Data) (r : Resource) :
    resolveRemoveSymbols r (d.entries .remove) =
      if RemovesAll d then .current else .groups (toRemove d r) := by
  unfold resolveRemoveSymbols toRemove RemovesAll
  by_cases hmatched : "matched".toList ∈ d.entries .remove
  · simp only [hmatched, if_true, not_true, false_and, if_false]
  · by_cases hlocation : "network-location".toList ∈ d.entries .remove
    · simp only [hmatched, hlocation, if_true, not_true, false_and, and_false, if_false]
      generalize List.find? _ (r.networkLocation.getD []) = reason
      cases reason <;> rfl
    · by_cases hall : "all".toList ∈ d.entries .remove
      · simp only [hmatched, hlocation, hall, if_true, if_false, not_false_eq_true, and_self]
      · simp only [hmatched, hlocation, hall, if_false, and_false]

theorem toRemove_of_removesAll (h : RemovesAll d) (r : Resource) : toRemove d r = r.current := by
  rw [toRemove, if_neg h.1, if_neg h.2.1, if_pos h.2.2]

theorem count_removeGroups (d : Data) (r : Resource) (g : Text) :
    (removeGroups r.current (resolveRemoveSymbols r (d.entries .remove))).count g =
      timesLeft d r g := by
  rw [resolveRemoveSymbols_eq, timesLeft]
  split
  · exact (EditedLoop.loop_erase r.current).count_eq g
  · rw [removeGroups, ← List.diff_eq_foldl, List.count_diff]

theorem mem_removeGroups (d : Data) (r : Resource) (g : Text) :
    g ∈ removeGroups r.current (resolveRemoveSymbols r (d.entries .remove)) ↔
      0 < timesLeft d r g := by
  rw [← count_removeGroups, List.count_pos_iff]

theorem timesLeft_pos_iff (d : Data) (r : Resource) (g : Text) :
    0 < timesLeft d r g ↔ g ∈ kept d r ∨ Survives d r g := by
  rw [kept, List.mem_filter, decide_eq_true_eq, Survives]
  by_cases hg : g ∈ toRemove d r
  · simp [hg]
  · rw [timesLeft]
    split
    · rename_i hall
      rw [toRemove_of_removesAll hall] at hg ⊢
      have hnot : g ∉ EditedLoop.everySecond r.current :=
        fun h => hg ((EditedLoop.everySecond_sublist _).subset h)
      simp [hg, hnot]
    · rw [List.count_eq_zero_of_not_mem hg, Nat.sub_zero, List.count_pos_iff]
      simp [hg]

theorem addGroups_eq (rgroups xs : List Text) : addGroups rgroups xs = appendNew rgroups xs := by
  rw [addGroups, appendNew]
  refine congrArg (fun step => xs.foldl step rgroups) (funext₂ fun rgroups g => ?_)
  congr

theorem count_addGroups (rgroups xs : List Text) (g : Text) :
    (addGroups rgroups xs).count g =
      if g ∈ rgroups then rgroups.count g else if g ∈ xs then 1 else 0 := by
  rw [addGroups_eq]
  convert count_appendNew

theorem mem_addGroups (rgroups xs : List Text) (g : Text) :
    g ∈ addGroups rgroups xs ↔ g ∈ rgroups ∨ g ∈ xs := by
  rw [addGroups_eq, mem_appendNew]

/-! ## One resource -/

/-- The groups that the loop body assembles: those that the resource is to get and stray ones. -/
def assembled (d : Data) (tagged : List Group) (before : List Resource) (r : Resource) :
    List Text :=
  addGroups (removeGroups r.current (resolveRemoveSymbols r (d.entries .remove)))
    (d.entries .add ++ leftBehind d tagged before ++ ownTagged tagged r)

theorem mem_assembled (d : Data) (tagged : List Group) (before : List Resource) (r : Resource)
    (g : Text) :
    g ∈ assembled d tagged before r ↔
      g ∈ kept d r ++ added d tagged r ∨ Stray d tagged before r g := by
  rw [assembled, mem_addGroups, mem_removeGroups, timesLeft_pos_iff, Stray, added]
  simp only [List.mem_append]
  tauto

theorem count_assembled_le_one {before : List Resource} {g : Text} (hg : g ∈ added d tagged r) :
    (assembled d tagged before r).count g ≤ 1 ↔ timesLeft d r g ≤ 1 := by
  have hmem : g ∈ d.entries .add ++ leftBehind d tagged before ++ ownTagged tagged r := by
    rw [added, List.mem_append] at hg
    simp only [List.mem_append]
    tauto
  rw [assembled, count_addGroups, count_removeGroups, if_pos hmem]
  split
  · rfl
  · rename_i hleft
    rw [mem_removeGroups] at hleft
    omega

theorem assembled_eq_nil {before : List Resource} :
    assembled d tagged before r = [] ↔
      kept d r ++ added d tagged r = [] ∧ ∀ g, ¬ Stray d tagged before r g := by
  simp only [List.eq_nil_iff_forall_not_mem, mem_assembled, not_or, forall_and]

theorem computed_iff (d : Data) (tagged : List Group) (before : List Resource) (r : Resource) :
    Computed d tagged r
        (if assembled d tagged before r = [] then d.entries .isolationGroup
          else assembled d tagged before r) ↔
      Tidy d tagged before r := by
  by_cases htarget : kept d r ++ added d tagged r = []
  · have hadded : added d tagged r = [] := (List.append_eq_nil_iff.mp htarget).2
    have hexpected : expected d tagged r = d.entries .isolationGroup := if_pos htarget
    by_cases hstray : ∀ g, ¬ Stray d tagged before r g
    · -- nothing is left and nothing is to be added
      rw [if_pos (assembled_eq_nil.mpr ⟨htarget, hstray⟩)]
      refine iff_of_true ⟨fun g => by rw [hexpected], fun g hg => ?_⟩
        (Or.inl ⟨fun g hg => absurd hg (hstray g), fun g hg => ?_⟩)
      · rw [hadded] at hg
        cases hg
      · rw [hadded] at hg
        cases hg
    · have hne : assembled d tagged before r ≠ [] := fun h => hstray (assembled_eq_nil.mp h).2
      rw [if_neg hne]
      have hmem (g : Text) : g ∈ assembled d tagged before r ↔ Stray d tagged before r g := by
        rw [mem_assembled, htarget, List.mem_nil_iff, false_or]
      constructor
      · intro h
        exact Or.inr ⟨htarget, fun g => by rw [← hmem, h.mem_iff, hexpected]⟩
      · rintro (⟨hleft, -⟩ | ⟨-, hleft⟩)
        · refine absurd (fun g hg => ?_) hstray
          have hnil := hleft g hg
          rw [htarget] at hnil
          cases hnil
        · refine ⟨fun g => by rw [hmem, hleft, hexpected], fun g hg => ?_⟩
          rw [hadded] at hg
          cases hg
  · have hne : assembled d tagged before r ≠ [] := fun h => htarget (assembled_eq_nil.mp h).1
    have hexpected : expected d tagged r = kept d r ++ added d tagged r := if_neg htarget
    have hmem : (∀ g, g ∈ assembled d tagged before r ↔ g ∈ expected d tagged r) ↔
        ∀ g, Stray d tagged before r g → g ∈ kept d r ++ added d tagged r := by
      refine forall_congr' fun g => ?_
      rw [mem_assembled, hexpected]
      tauto
    have hcount : (∀ g ∈ added d tagged r, (assembled d tagged before r).count g ≤ 1) ↔
        ∀ g ∈ added d tagged r, timesLeft d r g ≤ 1 :=
      forall₂_congr fun g hg => count_assembled_le_one hg
    rw [if_neg hne, Tidy, or_iff_left fun h => htarget h.1, ← hmem, ← hcount]
    exact ⟨fun h => ⟨h.mem_iff, h.once⟩, fun h => ⟨h.1, h.2⟩⟩

/-! ## All resources -/

/-- The lists of the policy while `get_groups` runs. -/
structure Carries (d : Data) (left : List Text) (s : Store Text) : Prop where
  add : (d.getArray .add).read s = d.entries .add ++ left
  remove : (d.getArray .remove).read s = d.entries .remove
  isolation : (d.getArray .isolationGroup).read s = d.entries .isolationGroup

theorem getGroupNames_append (xs ys : List Text) :
    getGroupNames (xs ++ ys) = getGroupNames xs ++ getGroupNames ys := List.filter_append ..

theorem names_eq_nil_of_resolveEntries {targets xs : List Text}
    (h : resolveEntries m [] r targets = .ok xs) : getGroupNames targets = [] := by
  by_contra hnames
  rw [resolveEntries, if_neg hnames, replaceNames] at h
  obtain ⟨vpc, -, h⟩ := bind_eq_ok.mp h
  cases hlist : getGroupNames targets with
  | nil => exact hnames hlist
  | cons n names =>
    rw [hlist] at h
    cases vpc with
    | none => cases h
    | some vpc => cases vpc <;> cases h

theorem taggedIn_eq_ok {ids : List Text} :
    taggedIn m r tagged = .ok ids ↔ Searchable m tagged ∧ ids = ownTagged tagged r := by
  rw [taggedIn, Searchable, ownTagged]
  by_cases htagged : tagged = []
  · subst htagged
    simp
  · rw [if_neg htagged, vpcSearch]
    cases hvpc : m.vpcExpression with
    | none => simp [htagged, Except.map]
    | some vpc =>
      cases vpc with
      | nil => simp [htagged, Except.map]
      | cons c cs => simpa [Except.map] using eq_comm

section IdsOnly

variable (hids : ∀ k, getGroupNames (d.entries k) = [])

include hids

theorem resolve_eq_ok {left : List Text} {s : Store Text} (hs : Carries d left s)
    {p : Resolution} :
    resolve m d [] tagged r s = .ok p ↔
      Searchable m tagged ∧ getGroupNames left = [] ∧
        p = ⟨d.entries .add ++ left, d.entries .remove, d.entries .isolationGroup,
          ownTagged tagged r⟩ := by
  have hentries {xs : List Text} (hxs : getGroupNames xs = []) :
      resolveEntries m [] r xs = .ok xs := if_pos hxs
  rw [resolve, hs.add, hs.remove, hs.isolation, hentries (hids .remove),
    hentries (hids .isolationGroup)]
  constructor
  · intro h
    obtain ⟨toAdd, hadd, h⟩ := bind_eq_ok.mp h
    have hnames := names_eq_nil_of_resolveEntries hadd
    rw [hentries hnames] at hadd
    obtain ⟨-, ⟨⟩, h⟩ := bind_eq_ok.mp h
    obtain ⟨-, ⟨⟩, h⟩ := bind_eq_ok.mp h
    obtain ⟨ids, htagged, h⟩ := bind_eq_ok.mp h
    obtain ⟨hsearch, rfl⟩ := taggedIn_eq_ok.mp htagged
    rw [getGroupNames_append, hids, List.nil_append] at hnames
    cases hadd
    exact ⟨hsearch, hnames, (pure_eq_ok.mp h).symm⟩
  · rintro ⟨hsearch, hnames, rfl⟩
    have hadd : getGroupNames (d.entries .add ++ left) = [] := by
      rw [getGroupNames_append, hids, hnames, List.append_nil]
    rw [hentries hadd, taggedIn_eq_ok.mpr ⟨hsearch, rfl⟩]
    rfl

theorem Carries.next {before : List Resource} {s : Store Text}
    (hs : Carries d (leftBehind d tagged before) s)
    (hnames : getGroupNames (leftBehind d tagged before) = []) (r : Resource) :
    Carries d (leftBehind d tagged (before ++ [r])) (listsAfter d s (ownTagged tagged r)) := by
  have hadd : getGroupNames ((d.getArray .add).read s) = [] := by
    rw [hs.add, getGroupNames_append, hids, hnames, List.append_nil]
  have hother {k : GroupKey} (hk : k ≠ .add) :
      (d.getArray k).read (listsAfter d s (ownTagged tagged r)) = (d.getArray k).read s := by
    rw [listsAfter, if_pos hadd]
    refine read_extend_other (fun l hl hl' => hk ?_) _ s
    have heq := (getArray_eq_own hl).symm.trans (getArray_eq_own hl')
    cases k <;> first | rfl | cases heq
  refine ⟨?_, (hother (by decide)).trans hs.remove, (hother (by decide)).trans hs.isolation⟩
  rw [listsAfter, if_pos hadd]
  have hread := hs.add
  unfold leftBehind at hread ⊢
  cases hvalue : d.add with
  | missing =>
    simp only [hvalue] at hread ⊢
    rw [← hread]
    simp only [Data.getArray, Data.value, hvalue, Ref.read]
  | text x =>
    simp only [hvalue] at hread ⊢
    rw [← hread]
    simp only [Data.getArray, Data.value, hvalue, Ref.read]
  | array xs =>
    have hown : d.getArray .add = .own 0 := by
      simp only [Data.getArray, Data.value, hvalue]
      rfl
    simp only [hvalue] at hread ⊢
    have hextend := read_extend (d.getArray .add) (ownTagged tagged r) s
    rw [hread] at hextend
    rw [List.flatMap_append, ← List.append_assoc, List.flatMap_singleton, ← hextend, hown]
    rfl

theorem getEach_computes_iff (rs before : List Resource) {s : Store Text}
    (hs : Carries d (leftBehind d tagged before) s) :
    (∃ gss, (getEach m d [] tagged rs s).1 = .ok gss ∧
        List.Forall₂ (Computed d tagged) rs gss) ↔
      Runs.AtEach (fun passed => Meets m d tagged (before ++ passed)) rs := by
  induction rs generalizing before s with
  | nil => exact iff_of_true ⟨[], rfl, .nil⟩ (Runs.atEach_nil _)
  | cons r rs ih =>
    have hrest := fun s hs => ih (before ++ [r]) (s := s) hs
    simp only [List.append_assoc, List.singleton_append] at hrest
    rw [Runs.atEach_cons, List.append_nil, getEach]
    cases hresolve : resolve m d [] tagged r s with
    | error e =>
      refine iff_of_false (fun h => ?_) fun h => ?_
      · obtain ⟨gss, hgss, -⟩ := h
        cases hgss
      · obtain ⟨hsearch, hnames, -⟩ := h.1
        rw [(resolve_eq_ok hids hs).mpr ⟨hsearch, hnames, rfl⟩] at hresolve
        cases hresolve
    | ok p =>
      obtain ⟨hsearch, hnames, rfl⟩ := (resolve_eq_ok hids hs).mp hresolve
      have hmeets : Meets m d tagged before r ↔ Tidy d tagged before r :=
        ⟨fun h => h.2.2, fun h => ⟨hsearch, hnames, h⟩⟩
      rw [hmeets, ← computed_iff, ← hrest _ (by simpa using hs.next hids hnames r)]
      constructor
      · rintro ⟨gss, hgss, hall⟩
        simp only [Except.map] at hgss
        split at hgss
        · cases hgss
        · rename_i gss' hrest
          cases hgss
          cases hall with
          | cons hfirst hrest' => exact ⟨hfirst, gss', hrest, hrest'⟩
      · rintro ⟨hfirst, gss, hgss, hall⟩
        refine ⟨_ :: gss, ?_, .cons hfirst hall⟩
        simp only [hgss, Except.map]
        rfl

/-- **The groups.**  With group ids only, every resource of a call gets its groups but for those to
remove, and those to add, if and only if nothing that the loops leave by mistake does harm. -/
theorem computes_iff (m : Manager) (svc : Service) (rs : List Resource) :
    Computes m svc d rs ↔ Runs.AtEach (Meets m d (taggedGroups svc d)) rs := by
  have hnames : getActionGroupNames d d.lists = [] := by
    have hadd := hids .add
    have hremove := hids .remove
    have hisolation := hids .isolationGroup
    rw [Data.entries] at hadd hremove hisolation
    rw [getActionGroupNames, getGroupNames_append, getGroupNames_append, hadd, hremove, hisolation]
    rfl
  have hcarries : Carries d (leftBehind d (taggedGroups svc d) []) d.lists := by
    refine ⟨?_, rfl, rfl⟩
    have hnil : leftBehind d (taggedGroups svc d) [] = [] := by
      unfold leftBehind
      split <;> rfl
    rw [hnil, List.append_nil]
    rfl
  have hrun := getEach_computes_iff (m := m) hids rs [] hcarries
  rw [Computes, callGetGroups_eq, hnames]
  exact hrun

end IdsOnly

/-! ## All groups to remove -/

/-- All groups are replaced by one for isolation. -/
def sampleIsolate : Data where
  add := .missing
  remove := .text "all".toList
  isolationGroup := .text "sg-9".toList
  addByTag := none

/-- An interface with two groups. -/
def sampleTwoGroups : Resource :=
  { sampleInterface "eni-1".toList "vpc-1".toList with
    securityGroups := some ["sg-1".toList, "sg-2".toList] }

/-- Every second group stays, and the isolation group is not attached. -/
theorem sampleIsolate_left :
    accepts sampleManager sampleIsolate = true ∧
    (callGetGroups sampleManager ⟨fun _ => [], fun _ _ => []⟩ sampleIsolate
      [sampleTwoGroups]).1 = .ok [["sg-2".toList]] ∧
    ¬ Computes sampleManager ⟨fun _ => [], fun _ _ => []⟩ sampleIsolate [sampleTwoGroups] := by
  refine ⟨by decide, by decide, ?_⟩
  rintro ⟨gss, hgss, hall⟩
  have hrun : (callGetGroups sampleManager ⟨fun _ => [], fun _ _ => []⟩ sampleIsolate
      [sampleTwoGroups]).1 = .ok [["sg-2".toList]] := by decide
  rw [hrun] at hgss
  cases hgss
  cases hall with
  | cons hfirst _ =>
    have hmem := (hfirst.mem_iff "sg-2".toList).mp (by decide)
    revert hmem
    decide

/-- The condition at that call. -/
theorem sampleIsolate_computes_iff :
    Computes sampleManager ⟨fun _ => [], fun _ _ => []⟩ sampleIsolate [sampleTwoGroups] ↔
      Runs.AtEach (Meets sampleManager sampleIsolate
        (taggedGroups ⟨fun _ => [], fun _ _ => []⟩ sampleIsolate)) [sampleTwoGroups] :=
  computes_iff (fun k => by cases k <;> decide) sampleManager ⟨fun _ => [], fun _ _ => []⟩
    [sampleTwoGroups]

end Custodian.ModifyGroups

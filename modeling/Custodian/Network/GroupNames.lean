import Custodian.Network.SecurityGroups
import Mathlib.Data.List.Count

/-!
# Names of security groups

`resolve_group_names` searches a group for every name with a variable that keeps its value from
one name to the next: a name without a group in the vpc gets the group of the name before it.
-/

namespace Custodian.ModifyGroups

open Py

variable {m : Manager} {groups : List Group} {r : Resource} {vpcId : Text}

/-- A group has the name in the vpc. -/
def HasGroup (groups : List Group) (vpcId n : Text) : Prop :=
  ∃ g ∈ groups, g.groupName = n ∧ g.vpcId = vpcId

/-- The list with every name replaced by the id of a group that has it in the vpc. -/
def Replaced (groups : List Group) (vpcId : Text) (targets xs : List Text) : Prop :=
  ∃ pick : Text → Text,
    (∀ n ∈ getGroupNames targets, ∃ g ∈ groups,
      g.groupName = n ∧ g.vpcId = vpcId ∧ g.groupId = pick n) ∧
    xs.Perm (targets.map fun t => if isName t then pick t else t)

/-- The names are replaced, or a `PolicyExecutionError` is raised. -/
def Resolves (groups : List Group) (vpcId : Text) (targets : List Text) :
    EStateM.Result Failure (Store Text) (Ref Text) → Prop
  | .ok xs s => Replaced groups vpcId targets (xs.read s)
  | .error e _ => e.isPolicyExecutionError = true

/-- The last group that has the name in the vpc. -/
def lastGroup (groups : List Group) (vpcId n : Text) : Option Group :=
  (groups.filter fun g => g.groupName = n ∧ g.vpcId = vpcId).getLast?

theorem lastGroup_of_hasGroup {n : Text} (h : HasGroup groups vpcId n) :
    ∃ g, lastGroup groups vpcId n = some g := by
  obtain ⟨g, hg, hname, hvpc⟩ := h
  have hmem : g ∈ groups.filter fun g => g.groupName = n ∧ g.vpcId = vpcId := by
    simp [hg, hname, hvpc]
  exact ⟨_, List.getLast?_eq_some_getLast (List.ne_nil_of_mem hmem)⟩

theorem mem_of_lastGroup {n : Text} {g : Group} (h : lastGroup groups vpcId n = some g) :
    g ∈ groups ∧ g.groupName = n ∧ g.vpcId = vpcId := by
  simpa using List.mem_of_getLast? h

theorem hasGroup_iff {n : Text} :
    HasGroup groups vpcId n ↔ ∃ g, lastGroup groups vpcId n = some g := by
  refine ⟨lastGroup_of_hasGroup, ?_⟩
  rintro ⟨g, hg⟩
  obtain ⟨hmem, hname, hvpc⟩ := mem_of_lastGroup hg
  exact ⟨g, hmem, hname, hvpc⟩

/-! ## The search -/

theorem findGroup_eq (groups : List Group) (vpcId n : Text) (found : Option Text) :
    findGroup groups vpcId n found =
      match lastGroup groups vpcId n with
      | some g => some g.groupId
      | none => found := by
  rw [findGroup, lastGroup]
  induction groups using List.reverseRecOn with
  | nil => rfl
  | append_singleton groups g ih =>
    rw [List.foldl_append, List.foldl_cons, List.foldl_nil, List.filter_append, ih]
    by_cases hg : g.groupName = n ∧ g.vpcId = vpcId
    · simp [hg]
    · simp [hg]

/-- The id that a name gets when a group has it. -/
def groupIdOf (groups : List Group) (vpcId n : Text) : Text :=
  ((lastGroup groups vpcId n).map Group.groupId).getD []

theorem resolveNames_cons_eq_ok {resourceId n : Text} {found : Option Text}
    {targets names xs : List Text} :
    resolveNames groups resourceId vpcId found targets (n :: names) = .ok xs ↔
      ∃ groupId, findGroup groups vpcId n found = some groupId ∧ groupId ≠ [] ∧
        resolveNames groups resourceId vpcId (some groupId) (targets.erase n ++ [groupId]) names =
          .ok xs := by
  rw [resolveNames]
  cases hfound : findGroup groups vpcId n found with
  | none => simp
  | some groupId =>
    cases groupId with
    | nil => simp
    | cons c cs => simp

theorem resolveNames_error {resourceId : Text} {found : Option Text} {targets names : List Text}
    {e : Failure}
    (h : resolveNames groups resourceId vpcId found targets names = .error e) :
    e.isPolicyExecutionError = true := by
  induction names generalizing found targets with
  | nil => cases h
  | cons n names ih =>
    rw [resolveNames] at h
    split at h
    · cases h
      rfl
    · cases h
      rfl
    · exact ih h

theorem resolveNames_found (resourceId : Text) {groupId : Text} (hid : groupId ≠ []) (targets : List Text)
    {names : List Text}
    (h : ∀ n ∈ names, ∀ g, lastGroup groups vpcId n = some g → g.groupId ≠ []) :
    ∃ xs, resolveNames groups resourceId vpcId (some groupId) targets names = .ok xs := by
  induction names generalizing groupId targets with
  | nil => exact ⟨targets, rfl⟩
  | cons n names ih =>
    have hrest : ∀ n ∈ names, ∀ g, lastGroup groups vpcId n = some g → g.groupId ≠ [] :=
      fun n' hn' => h n' (List.mem_cons_of_mem n hn')
    have hfind := findGroup_eq groups vpcId n (some groupId)
    cases hlast : lastGroup groups vpcId n with
    | none =>
      rw [hlast] at hfind
      obtain ⟨xs, hxs⟩ := ih hid (targets.erase n ++ [groupId]) hrest
      exact ⟨xs, resolveNames_cons_eq_ok.mpr ⟨groupId, hfind, hid, hxs⟩⟩
    | some g =>
      rw [hlast] at hfind
      have hg := h n (List.mem_cons_self ..) g hlast
      obtain ⟨xs, hxs⟩ := ih hg (targets.erase n ++ [g.groupId]) hrest
      exact ⟨xs, resolveNames_cons_eq_ok.mpr ⟨g.groupId, hfind, hg, hxs⟩⟩

theorem resolveNames_eq_ok {resourceId : Text} {found : Option Text} {targets names xs : List Text}
    (hgroups : ∀ n ∈ names, HasGroup groups vpcId n)
    (h : resolveNames groups resourceId vpcId found targets names = .ok xs) :
    xs = names.foldl (fun ts n => ts.erase n ++ [groupIdOf groups vpcId n]) targets := by
  induction names generalizing found targets with
  | nil =>
    cases h
    rfl
  | cons n names ih =>
    rw [List.forall_mem_cons] at hgroups
    obtain ⟨groupId, hfind, -, h⟩ := resolveNames_cons_eq_ok.mp h
    obtain ⟨g, hg⟩ := lastGroup_of_hasGroup hgroups.1
    rw [findGroup_eq, hg] at hfind
    have hid : groupIdOf groups vpcId n = groupId := by
      rw [groupIdOf, hg]
      exact Option.some.inj hfind
    rw [List.foldl_cons, hid]
    exact ih hgroups.2 h

theorem groupId_ne_nil {resourceId : Text} {found : Option Text} {targets names xs : List Text}
    (h : resolveNames groups resourceId vpcId found targets names = .ok xs) :
    ∀ n ∈ names, ∀ g, lastGroup groups vpcId n = some g → g.groupId ≠ [] := by
  induction names generalizing found targets with
  | nil => simp
  | cons n names ih =>
    obtain ⟨groupId, hfind, hid, h⟩ := resolveNames_cons_eq_ok.mp h
    rw [List.forall_mem_cons]
    refine ⟨fun g hg => ?_, ih h⟩
    rw [findGroup_eq, hg] at hfind
    cases hfind
    exact hid

/-! ## Replacing -/

theorem foldl_replace_perm (pick : Text → Text) {names targets : List Text}
    (h : names.Subperm targets) :
    (names.foldl (fun ts n => ts.erase n ++ [pick n]) targets).Perm
      (targets.diff names ++ names.map pick) := by
  induction names generalizing targets with
  | nil => simp
  | cons n names ih =>
    have hrest : names.Subperm (targets.erase n) := by
      have herase := h.erase n
      rwa [List.erase_cons_head] at herase
    have hdiff : ((targets.erase n ++ [pick n]).diff names).Perm
        ((targets.erase n).diff names ++ [pick n]) := by
      rw [List.perm_iff_count]
      intro a
      have hle := hrest.count_le a
      rw [List.count_diff, List.count_append, List.count_append, List.count_diff]
      omega
    refine (ih (hrest.trans (List.sublist_append_left ..).subperm)).trans ?_
    rw [List.diff_cons, List.map_cons]
    simpa using hdiff.append_right (names.map pick)

theorem foldl_getGroupNames_perm (pick : Text → Text) (targets : List Text) :
    ((getGroupNames targets).foldl (fun ts n => ts.erase n ++ [pick n]) targets).Perm
      (targets.map fun t => if isName t then pick t else t) := by
  have hparts := List.filter_append_perm isName targets
  have hdiff : (targets.diff (getGroupNames targets)).Perm (targets.filter fun t => !isName t) := by
    rw [List.perm_iff_count]
    intro a
    have hcount := hparts.count_eq a
    rw [List.count_append] at hcount
    rw [List.count_diff, getGroupNames]
    omega
  have hnames : (getGroupNames targets).map (fun t => if isName t then pick t else t) =
      (getGroupNames targets).map pick :=
    List.map_congr_left fun t ht => if_pos (List.mem_filter.mp ht).2
  have hrest : (targets.filter fun t => !isName t).map (fun t => if isName t then pick t else t) =
      targets.filter fun t => !isName t := by
    have hid : (targets.filter fun t => !isName t).map (fun t => if isName t then pick t else t) =
        (targets.filter fun t => !isName t).map id :=
      List.map_congr_left fun t ht => if_neg (by simpa using (List.mem_filter.mp ht).2)
    rw [hid, List.map_id]
  refine (foldl_replace_perm pick (List.filter_sublist ..).subperm).trans ?_
  refine (hdiff.append_right _).trans (List.perm_append_comm.trans ?_)
  have hmap := hparts.map fun t => if isName t then pick t else t
  rw [List.map_append, hrest] at hmap
  exact hnames ▸ hmap

/-! ## The result -/

theorem replaceNames_eq (hvpc : vpcSearch m r = .ok (some vpcId)) (hne : vpcId ≠ [])
    (targets : List Text) :
    replaceNames m groups r targets =
      resolveNames groups r.resourceId vpcId none targets (getGroupNames targets) := by
  rw [replaceNames, hvpc]
  cases vpcId with
  | nil => exact absurd rfl hne
  | cons c cs => rfl

theorem replaced_of_noNames {targets : List Text} (h : getGroupNames targets = []) :
    Replaced groups vpcId targets targets := by
  refine ⟨id, by simp [h], ?_⟩
  have hmap : targets.map (fun t => if isName t then id t else t) = targets := by simp
  rw [hmap]

/-- The first name has no group in the vpc, or the group that some name gets has an empty id: the
search fails then. -/
def SearchFails (groups : List Group) (vpcId : Text) (names : List Text) : Prop :=
  (∃ n, names.head? = some n ∧ ¬ HasGroup groups vpcId n) ∨
    ∃ n ∈ names, ∃ g, lastGroup groups vpcId n = some g ∧ g.groupId = []

theorem searchFails_iff (resourceId : Text) (targets names : List Text) :
    (∃ e, resolveNames groups resourceId vpcId none targets names = .error e) ↔
      SearchFails groups vpcId names := by
  constructor
  · rintro ⟨e, he⟩
    by_contra hfails
    rw [SearchFails, not_or] at hfails
    obtain ⟨hhead, hids⟩ := hfails
    have hids' : ∀ n ∈ names, ∀ g, lastGroup groups vpcId n = some g → g.groupId ≠ [] :=
      fun n hn g hg hnil => hids ⟨n, hn, g, hg, hnil⟩
    cases names with
    | nil => cases he
    | cons n names =>
      have hn : HasGroup groups vpcId n := by
        by_contra hn
        exact hhead ⟨n, rfl, hn⟩
      obtain ⟨g, hg⟩ := lastGroup_of_hasGroup hn
      have hid := hids' n (List.mem_cons_self ..) g hg
      obtain ⟨xs, hxs⟩ := resolveNames_found resourceId hid
        (targets.erase n ++ [g.groupId]) fun n' hn' => hids' n' (List.mem_cons_of_mem n hn')
      have hfind := findGroup_eq groups vpcId n none
      rw [hg] at hfind
      rw [resolveNames_cons_eq_ok.mpr ⟨g.groupId, hfind, hid, hxs⟩] at he
      cases he
  · intro hfails
    cases hresult : resolveNames groups resourceId vpcId none targets names with
    | error e => exact ⟨e, rfl⟩
    | ok xs =>
      rcases hfails with ⟨n, hhead, hn⟩ | ⟨n, hn, g, hg, hnil⟩
      · cases names with
        | nil => cases hhead
        | cons n' names =>
          cases hhead
          obtain ⟨groupId, hfind, -, -⟩ := resolveNames_cons_eq_ok.mp hresult
          rw [findGroup_eq] at hfind
          cases hlast : lastGroup groups vpcId n with
          | some g => exact absurd (hasGroup_iff.mpr ⟨g, hlast⟩) hn
          | none =>
            rw [hlast] at hfind
            cases hfind
      · exact absurd hnil (groupId_ne_nil hresult n hn g hg)

/-- **Names.**  A list is resolved in the vpc of the resource, or the action fails, if and only if
every name has a group there or the search fails: at the first name, or at a group without an id. -/
theorem resolveGroupNames_resolves_iff (hvpc : vpcSearch m r = .ok (some vpcId))
    (hne : vpcId ≠ []) (targets : Ref Text) (s : Store Text) :
    Resolves groups vpcId (targets.read s) ((resolveGroupNames m groups r targets).run s) ↔
      (∀ n ∈ getGroupNames (targets.read s), HasGroup groups vpcId n) ∨
        SearchFails groups vpcId (getGroupNames (targets.read s)) := by
  have hrun := run_resolveGroupNames m groups r targets s
  cases hentries : resolveEntries m groups r (targets.read s) with
  | error e =>
    rw [hentries] at hrun
    rw [hrun]
    rw [resolveEntries] at hentries
    split at hentries
    · cases hentries
    · rw [replaceNames_eq hvpc hne] at hentries
      exact iff_of_true (resolveNames_error hentries)
        (Or.inr ((searchFails_iff ..).mp ⟨e, hentries⟩))
  | ok xs =>
    have hread := read_resolvedRef hentries
    rw [hentries] at hrun
    rw [hrun]
    simp only [Resolves, hread]
    rw [resolveEntries] at hentries
    split at hentries
    · rename_i hnames
      cases hentries
      exact iff_of_true (replaced_of_noNames hnames) (Or.inl (by simp [hnames]))
    · rw [replaceNames_eq hvpc hne] at hentries
      have hruns : ¬ SearchFails groups vpcId (getGroupNames (targets.read s)) := by
        rw [← searchFails_iff r.resourceId (targets.read s), hentries]
        rintro ⟨e, he⟩
        cases he
      rw [or_iff_left hruns]
      constructor
      · rintro ⟨pick, hpick, -⟩ n hn
        obtain ⟨g, hg, hname, hgvpc, -⟩ := hpick n hn
        exact ⟨g, hg, hname, hgvpc⟩
      · intro hgroups
        refine ⟨groupIdOf groups vpcId, fun n hn => ?_, ?_⟩
        · obtain ⟨g, hg⟩ := lastGroup_of_hasGroup (hgroups n hn)
          obtain ⟨hmem, hname, hgvpc⟩ := mem_of_lastGroup hg
          exact ⟨g, hmem, hname, hgvpc, by rw [groupIdOf, hg]; rfl⟩
        · rw [resolveNames_eq_ok hgroups hentries]
          exact foldl_getGroupNames_perm _ _

/-- Two groups in different vpcs. -/
def sampleGroups : List Group :=
  [⟨"sg-1".toList, "web".toList, "vpc-1".toList⟩, ⟨"sg-2".toList, "db".toList, "vpc-2".toList⟩]

def sampleNames : Data where
  add := .array ["web".toList, "db".toList]
  remove := .missing
  isolationGroup := .missing
  addByTag := none

/-- The second name has no group in the vpc of the resource and gets the group of the first one. -/
theorem sampleNames_inherited :
    accepts sampleManager sampleNames = true ∧
    (callGetGroups sampleManager ⟨fun _ => sampleGroups, fun _ _ => []⟩ sampleNames
      [sampleInterface "eni-1".toList "vpc-1".toList]).1 = .ok [["sg-1".toList]] ∧
    ¬ Resolves sampleGroups "vpc-1".toList ["web".toList, "db".toList]
      ((resolveGroupNames sampleManager sampleGroups
        (sampleInterface "eni-1".toList "vpc-1".toList) (.own 0)).run sampleNames.lists) := by
  refine ⟨by decide, by decide, ?_⟩
  rintro ⟨pick, hpick, -⟩
  obtain ⟨g, hg, hname, hvpc, -⟩ := hpick "db".toList (by decide)
  revert g
  decide

/-- The condition at that resource. -/
theorem sampleNames_resolves_iff :
    Resolves sampleGroups "vpc-1".toList ((Ref.own 0).read sampleNames.lists)
      ((resolveGroupNames sampleManager sampleGroups
        (sampleInterface "eni-1".toList "vpc-1".toList) (.own 0)).run sampleNames.lists) ↔
      (∀ n ∈ getGroupNames ((Ref.own 0).read sampleNames.lists),
        HasGroup sampleGroups "vpc-1".toList n) ∨
        SearchFails sampleGroups "vpc-1".toList
          (getGroupNames ((Ref.own 0).read sampleNames.lists)) :=
  resolveGroupNames_resolves_iff rfl (by decide) (.own 0) sampleNames.lists

end Custodian.ModifyGroups

import Custodian.Network.SecurityGroups

/-!
# Resources that are treated one by one

`get_groups` extends the list that the policy has under `add` when it has no names to resolve: the
groups with the tag in the vpc of a resource then stay in it for the resources that follow.
-/

namespace Custodian.ModifyGroups

open Py

variable {m : Manager} {svc : Service} {d : Data} {groups tagged : List Group}

/-- Every resource gets what it gets in a call of its own on a fresh action, and the policy is the
same after the call as before. -/
structure Independent (m : Manager) (svc : Service) (d : Data) (rs : List Resource) : Prop where
  alone : ∀ gs, (callGetGroups m svc d rs).1 = .ok gs →
    List.Forall₂ (fun r g => (callGetGroups m svc d [r]).1 = .ok [g]) rs gs
  data : (callGetGroups m svc d rs).2 = d

/-- `get_groups` adds to a list of the policy: there is one under `add`, and it has no names. -/
def Data.SharesAdd (d : Data) : Prop := ∃ xs, d.add = .array xs ∧ getGroupNames xs = []

/-- The call comes to the tagged groups of the resource: no name that it needs before fails to
resolve. -/
def Reached (m : Manager) (svc : Service) (d : Data) (rs : List Resource) (r : Resource) : Prop :=
  ∃ groups before after, getGroupsByNames svc (getActionGroupNames d d.lists) = .ok groups ∧
    rs = before ++ r :: after ∧
    ∀ b ∈ before ++ [r], ∃ p, resolve m d groups (taggedGroups svc d) b d.lists = .ok p

/-! ## The lists of the policy -/

theorem grows_listsAfter (d : Data) (s : Store Text) (ids : List Text) :
    Grows s (listsAfter d s ids) := by
  rw [listsAfter]
  split
  · exact grows_extend _ ids s
  · exact .refl s

theorem grows_getEach (m : Manager) (d : Data) (groups tagged : List Group) (rs : List Resource)
    (s : Store Text) : Grows s (getEach m d groups tagged rs s).2 := by
  induction rs generalizing s with
  | nil => exact .refl s
  | cons r rs ih =>
    rw [getEach]
    cases resolve m d groups tagged r s with
    | error e => exact .refl s
    | ok p => exact (grows_listsAfter d s p.tagged).trans (ih _)

theorem lists_add {xs : List Text} (h : d.add = .array xs) : d.lists 0 = xs := by
  simp only [Data.lists, h]

theorem getArray_add {xs : List Text} (h : d.add = .array xs) : d.getArray .add = .own 0 := by
  simp only [Data.getArray, Data.value, h]
  rfl

theorem listsAfter_eq_iff (ids : List Text) :
    listsAfter d d.lists ids = d.lists ↔ (d.SharesAdd → ids = []) := by
  rw [listsAfter]
  cases hadd : d.add with
  | missing =>
    have hfresh : d.getArray .add = .fresh [] := by simp only [Data.getArray, Data.value, hadd]
    simp [hfresh, Ref.extend, Data.SharesAdd, hadd]
  | text x =>
    have hfresh : d.getArray .add = .fresh [x] := by simp only [Data.getArray, Data.value, hadd]
    simp [hfresh, Ref.extend, Data.SharesAdd, hadd]
  | array xs =>
    have hread : (d.getArray .add).read d.lists = xs := by
      rw [getArray_add hadd, Ref.read, lists_add hadd]
    rw [hread]
    split
    · rename_i hnames
      rw [extend_store_eq_iff]
      constructor
      · exact fun h _ => h 0 (getArray_add hadd)
      · exact fun h _ _ => h ⟨xs, hadd, hnames⟩
    · rename_i hnames
      simp [Data.SharesAdd, hadd, hnames]

theorem lists_eq_of_withLists_eq {s : Store Text} {xs : List Text} (hadd : d.add = .array xs)
    (h : d.withLists s = d) : s 0 = d.lists 0 := by
  have hvalue : (d.withLists s).add = d.add := congrArg Data.add h
  rw [Data.withLists, hadd] at hvalue
  rw [lists_add hadd]
  injection hvalue

theorem tagged_eq_nil_of_unchanged {xs : List Text} (hadd : d.add = .array xs)
    (hnames : getGroupNames xs = []) {before after : List Resource} {r : Resource}
    (hfinal : (getEach m d groups tagged (before ++ r :: after) d.lists).2 0 = d.lists 0)
    (hresolve : ∀ b ∈ before ++ [r], ∃ p, resolve m d groups tagged b d.lists = .ok p)
    {p : Resolution} (hp : resolve m d groups tagged r d.lists = .ok p) : p.tagged = [] := by
  -- what the first resource adds stays in the list, which is the same at the end
  have hfirst {b : Resource} {rs : List Resource} {q : Resolution}
      (hq : resolve m d groups tagged b d.lists = .ok q)
      (hend : (getEach m d groups tagged (b :: rs) d.lists).2 0 = d.lists 0) : q.tagged = [] := by
    rw [getEach, hq] at hend
    have hgrows := grows_getEach m d groups tagged rs (listsAfter d d.lists q.tagged) 0
    have hafter : listsAfter d d.lists q.tagged 0 = d.lists 0 ++ q.tagged := by
      rw [listsAfter, getArray_add hadd, Ref.read, lists_add hadd, if_pos hnames]
      simp [Ref.extend, lists_add hadd]
    rw [hend, hafter] at hgrows
    have hlen := hgrows.length_le
    rw [List.length_append] at hlen
    exact List.length_eq_zero_iff.mp (by omega)
  induction before with
  | nil => exact hfirst hp hfinal
  | cons b before ih =>
    obtain ⟨q, hq⟩ := hresolve b (List.mem_cons_self ..)
    have hnil := hfirst hq hfinal
    rw [List.cons_append, getEach, hq] at hfinal
    simp only [(listsAfter_eq_iff q.tagged).mpr fun _ => hnil] at hfinal
    exact ih hfinal fun b' hb' => hresolve b' (List.mem_cons_of_mem b hb')

/-- **Quiet runs.**  While no resource adds groups to a list of the policy, every resource gets
what it gets alone. -/
theorem getEach_unchanged {rs : List Resource}
    (h : ∀ before r after p, rs = before ++ r :: after →
      (∀ b ∈ before ++ [r], ∃ p, resolve m d groups tagged b d.lists = .ok p) →
      resolve m d groups tagged r d.lists = .ok p → d.SharesAdd → p.tagged = []) :
    getEach m d groups tagged rs d.lists =
      (rs.mapM fun r => (resolve m d groups tagged r d.lists).map fun p => p.groups r,
        d.lists) := by
  induction rs with
  | nil => rfl
  | cons r rs ih =>
    rw [getEach, List.mapM_cons]
    cases hr : resolve m d groups tagged r d.lists with
    | error e => rfl
    | ok p =>
      have hnil : d.SharesAdd → p.tagged = [] :=
        h [] r rs p rfl (by simp [hr]) hr
      simp only [(listsAfter_eq_iff p.tagged).mpr hnil]
      rw [ih fun before r' after p' hrs hresolve hp' => ?_]
      · rfl
      · refine h (r :: before) r' after p' (by rw [hrs]; rfl) (fun b hb => ?_) hp'
        rcases List.mem_cons.mp hb with rfl | hb
        · exact ⟨p, hr⟩
        · exact hresolve b hb

theorem taggedIn_of_resolve {r : Resource} {s : Store Text} {p : Resolution}
    (h : resolve m d groups tagged r s = .ok p) : taggedIn m r tagged = .ok p.tagged := by
  obtain ⟨toAdd, -, h⟩ := bind_eq_ok.mp h
  obtain ⟨toRemove, -, h⟩ := bind_eq_ok.mp h
  obtain ⟨isolation, -, h⟩ := bind_eq_ok.mp h
  obtain ⟨ids, hids, h⟩ := bind_eq_ok.mp h
  rw [← pure_eq_ok.mp h, hids]

theorem callGetGroups_singleton (m : Manager) (svc : Service) (d : Data) (r : Resource) :
    (callGetGroups m svc d [r]).1 =
      (getGroupsByNames svc (getActionGroupNames d d.lists)).bind fun groups =>
        (resolve m d groups (taggedGroups svc d) r d.lists).map fun p => [p.groups r] := by
  rw [callGetGroups_eq]
  cases getGroupsByNames svc (getActionGroupNames d d.lists) with
  | error e => rfl
  | ok groups =>
    simp only [getEach, Except.bind]
    cases resolve m d groups (taggedGroups svc d) r d.lists <;> rfl

/-- **Independence.**  The resources are treated one by one and the policy is left as it is if and
only if the groups to add are not a list of ids, or no resource that the call comes to is in a vpc
with a tagged group. -/
theorem independent_iff (m : Manager) (svc : Service) (d : Data) (rs : List Resource) :
    Independent m svc d rs ↔ (d.SharesAdd → ∀ r, Reached m svc d rs r →
      taggedIn m r (taggedGroups svc d) = .ok []) := by
  constructor
  · rintro h ⟨xs, hadd, hnames⟩ r ⟨groups, before, after, hgroups, rfl, hresolve⟩
    have hdata := h.data
    rw [callGetGroups_eq, hgroups] at hdata
    obtain ⟨p, hp⟩ := hresolve r (by simp)
    rw [taggedIn_of_resolve hp, tagged_eq_nil_of_unchanged hadd hnames
      (lists_eq_of_withLists_eq hadd hdata) hresolve hp]
  · intro h
    cases hgroups : getGroupsByNames svc (getActionGroupNames d d.lists) with
    | error e =>
      refine ⟨fun gs hgs => ?_, ?_⟩
      · rw [callGetGroups_eq, hgroups] at hgs
        cases hgs
      · rw [callGetGroups_eq, hgroups]
    | ok groups =>
      have hquiet : getEach m d groups (taggedGroups svc d) rs d.lists = _ :=
        getEach_unchanged fun before r after p hrs hresolve hp hshares => by
          have htagged := h hshares r ⟨groups, before, after, hgroups, hrs, hresolve⟩
          rw [taggedIn_of_resolve hp] at htagged
          injection htagged
      refine ⟨fun gs hgs => ?_, ?_⟩
      · rw [callGetGroups_eq, hgroups] at hgs
        simp only [hquiet] at hgs
        refine ((mapM_eq_ok _ rs gs).mp hgs).imp fun r g hg => ?_
        rw [callGetGroups_singleton, hgroups]
        simp only [Except.bind]
        cases hr : resolve m d groups (taggedGroups svc d) r d.lists with
        | error e =>
          rw [hr] at hg
          cases hg
        | ok p =>
          rw [hr] at hg
          cases hg
          rfl
      · rw [callGetGroups_eq, hgroups]
        simp only [hquiet, withLists_lists]

/-! ## A list that is shared -/

/-- A group is added by its id, and others by their tag. -/
def sampleAdd : Data where
  add := .array ["sg-1".toList]
  remove := .missing
  isolationGroup := .missing
  addByTag := some ⟨"environment".toList, ["production".toList]⟩

/-- One group has the tag. -/
def sampleService : Service where
  byNames := fun _ => []
  byTag := fun _ _ => [⟨"sg-2".toList, "production".toList, "vpc-1".toList⟩]

/-- The second resource gets the tagged group of the vpc of the first one, which stays in the
policy. -/
theorem sampleAdd_shared :
    accepts sampleManager sampleAdd = true ∧
    callGetGroups sampleManager sampleService sampleAdd
      [sampleInterface "eni-1".toList "vpc-1".toList, sampleInterface "eni-2".toList "vpc-2".toList] =
        (.ok [["sg-1".toList, "sg-2".toList], ["sg-1".toList, "sg-2".toList]],
          { sampleAdd with add := .array ["sg-1".toList, "sg-2".toList] }) ∧
    (callGetGroups sampleManager sampleService sampleAdd
      [sampleInterface "eni-2".toList "vpc-2".toList]).1 = .ok [["sg-1".toList]] ∧
    ¬ Independent sampleManager sampleService sampleAdd
      [sampleInterface "eni-1".toList "vpc-1".toList, sampleInterface "eni-2".toList "vpc-2".toList] := by
  refine ⟨by decide, by decide, by decide, fun h => ?_⟩
  have hdata := h.data
  revert hdata
  decide

end Custodian.ModifyGroups

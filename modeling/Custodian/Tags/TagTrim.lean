import Custodian.Lib.Items
import Custodian.Lib.SortedSet
import Custodian.Lib.StableSort

/-!
# Trimming tags

`TagTrim.process_resource` of `c7n/tags.py` chooses tags to delete so that a resource has space for
others, and calls `process_tag_removal` with the resource and these tags.
-/

namespace Custodian.TagTrim

open Py

/-! ## The action -/

/-- A resource, and its tags if it has any. -/
structure Resource where
  id : Text
  tags : Option (List (Text × Text))

/-- The action: `max_tag_count` is 50, and 10 for scaling groups and clusters. -/
structure Trim where
  preserve : List Text
  space : Int
  maxTagCount : Nat
  dryrun : Bool

/-- A call `delete_tags`. -/
structure Deletion where
  tags : List Text
  resource : Text
  dryRun : Bool

/-- An argument that a method of the action is called with. -/
inductive Arg where
  | client
  | resource (r : Resource)
  | tags (tags : List Text)

/-- The tags that are not the service's own. -/
def tagMap (i : Resource) : List (Text × Text) :=
  Items.ofList ((i.tags.getD []).filter fun t => !t.1.startsWith "aws:".toList)

/-- `l[:n]` -/
def upTo {α : Type} (n : Int) (l : List α) : List α :=
  if 0 ≤ n then l.take n.toNat else l.take (l.length - (-n).toNat)

variable (trim : Trim)

/-- The keys that are to be deleted. -/
def candidates (keys : List Text) : List Text :=
  let preserve := keys.filter fun k => k ∈ trim.preserve
  let candidates := keys.filter fun k => k ∉ trim.preserve
  if trim.space ≠ 0 then
    -- Free up slots to fit
    let remove := (candidates.length : Int) - (trim.maxTagCount - (trim.space + preserve.length))
    upTo remove (StableSort.sort Text.lt candidates)
  else candidates

/-- `process_tag_removal(client, resource, tags)`, of the arguments after `self`. -/
def processTagRemoval : List Arg → Except Exn (List Deletion)
  | [.client, .resource r, .tags tags] => .ok [⟨tags, r.id, trim.dryrun⟩]
  | [_, _, _] => .error .attributeError
  | _ => .error .typeError

/-- `process_resource`: the calls that are made. -/
def processResource (i : Resource) : Except Exn (List Deletion) :=
  let tags := tagMap i
  -- Space == 0 means remove all but specified
  if trim.space ≠ 0 ∧ tags.length + trim.space ≤ trim.maxTagCount then .ok []
  else
    let candidates := candidates trim (tags.map Prod.fst)
    if candidates = [] then .ok []
    else processTagRemoval trim [.resource i, .tags candidates]

/-! ## What the action is asked -/

/-- The space is made without these tags, or only preserved ones are left. -/
def Suffices (keys deleted : List Text) : Prop :=
  let remaining := keys.filter fun k => k ∉ deleted
  remaining.length + trim.space ≤ trim.maxTagCount ∨ ∀ k ∈ remaining, k ∈ trim.preserve

/-- Tags that may be deleted. -/
structure Deletable (keys deleted : List Text) : Prop where
  nodup : deleted.Nodup
  subset : ∀ k ∈ deleted, k ∈ keys
  not_preserved : ∀ k ∈ deleted, k ∉ trim.preserve

/-- Deleting these tags frees exactly the space that is asked for. -/
structure Frees (keys deleted : List Text) : Prop where
  deletable : Deletable trim keys deleted
  /-- There is room already. -/
  room : trim.space ≠ 0 → keys.length + trim.space ≤ trim.maxTagCount → deleted = []
  /-- Space is made, and no fewer tags would do. -/
  made : trim.space ≠ 0 → trim.maxTagCount < keys.length + trim.space →
    Suffices trim keys deleted ∧ ∀ other, Deletable trim keys other → Suffices trim keys other →
      deleted.length ≤ other.length
  /-- All but the preserved tags. -/
  zero : trim.space = 0 → ∀ k ∈ keys, k ∈ deleted ↔ k ∉ trim.preserve

/-- The action completes, with deletions of the resource's own tags that free the space. -/
def Trims (i : Resource) : Prop :=
  ∃ deletions, processResource trim i = .ok deletions ∧ (∀ d ∈ deletions, d.resource = i.id) ∧
    (∀ d ∈ deletions, ∀ k ∈ d.tags, ¬ k.startsWith "aws:".toList) ∧
    Frees trim ((tagMap i).map Prod.fst) (deletions.flatMap Deletion.tags)

/-! ## The tags that are chosen -/

variable {trim}

theorem nodup_keys_tagMap (i : Resource) : ((tagMap i).map Prod.fst).Nodup :=
  Items.keys_nodup_ofList _

theorem length_filter_not_mem {keys deleted : List Text} (hn : keys.Nodup)
    (h : Deletable trim keys deleted) :
    (keys.filter fun k => k ∉ deleted).length + deleted.length = keys.length := by
  have hperm : (keys.filter fun k => k ∈ deleted).Perm deleted := by
    refine (List.perm_ext_iff_of_nodup (hn.filter _) h.nodup).mpr fun k => ?_
    rw [List.mem_filter, decide_eq_true_eq]
    exact ⟨And.right, fun hk => ⟨h.subset k hk, hk⟩⟩
  have hsplit := List.length_eq_length_filter_add (l := keys) fun k => decide (k ∈ deleted)
  simp only [← decide_not] at hsplit
  rw [hperm.length_eq] at hsplit
  omega

theorem length_of_suffices {keys deleted : List Text} (hn : keys.Nodup)
    (h : Deletable trim keys deleted) (hsuff : Suffices trim keys deleted) :
    keys.length + trim.space - trim.maxTagCount ≤ deleted.length ∨
      (keys.filter fun k => k ∉ trim.preserve).length ≤ deleted.length := by
  have hlen := length_filter_not_mem hn h
  rcases hsuff with hspace | hpreserved
  · left
    omega
  · right
    refine (List.subperm_of_subset (hn.filter _) fun k hk => ?_).length_le
    rw [List.mem_filter, decide_eq_true_eq] at hk
    by_contra hdeleted
    exact hk.2 (hpreserved k (List.mem_filter.mpr ⟨hk.1, decide_eq_true hdeleted⟩))

section Candidates

variable {keys : List Text}

theorem candidates_of_space (hspace : trim.space ≠ 0)
    (h : trim.maxTagCount < keys.length + trim.space) :
    candidates trim keys = (StableSort.sort Text.lt (keys.filter fun k => k ∉ trim.preserve)).take
      (keys.length + trim.space - trim.maxTagCount).toNat := by
  have hsplit := List.length_eq_length_filter_add (l := keys) fun k => decide (k ∈ trim.preserve)
  simp only [← decide_not] at hsplit
  have hremove : ((keys.filter fun k => k ∉ trim.preserve).length : Int) -
      (trim.maxTagCount - (trim.space + (keys.filter fun k => k ∈ trim.preserve).length)) =
        keys.length + trim.space - trim.maxTagCount := by
    omega
  simp only [candidates]
  rw [if_pos hspace, hremove, upTo, if_pos (by omega)]

theorem candidates_of_zero (hspace : trim.space = 0) :
    candidates trim keys = keys.filter fun k => k ∉ trim.preserve := by
  simp only [candidates]
  rw [if_neg (not_not.mpr hspace)]

theorem candidates_subperm
    (h : trim.space = 0 ∨ trim.maxTagCount < keys.length + trim.space) :
    (candidates trim keys).Subperm (keys.filter fun k => k ∉ trim.preserve) := by
  by_cases hspace : trim.space = 0
  · rw [candidates_of_zero hspace]
  · rw [candidates_of_space hspace (h.resolve_left hspace)]
    exact (List.take_sublist _ _).subperm.trans (StableSort.sort_perm _ _).subperm

theorem candidates_eq_nil_iff
    (h : trim.space = 0 ∨ trim.maxTagCount < keys.length + trim.space) :
    candidates trim keys = [] ↔ ∀ k ∈ keys, k ∈ trim.preserve := by
  have hnil : (keys.filter fun k => k ∉ trim.preserve) = [] ↔ ∀ k ∈ keys, k ∈ trim.preserve := by
    simp [List.filter_eq_nil_iff]
  by_cases hspace : trim.space = 0
  · rw [candidates_of_zero hspace, hnil]
  · rw [candidates_of_space hspace (h.resolve_left hspace), List.take_eq_nil_iff, ← hnil]
    have hpos : (keys.length + trim.space - trim.maxTagCount).toNat ≠ 0 := by
      have := h.resolve_left hspace
      omega
    rw [or_iff_right hpos]
    exact ⟨fun h => (h ▸ StableSort.sort_perm _ _).symm.eq_nil, fun h => by rw [h]; rfl⟩

theorem deletable_candidates (hn : keys.Nodup)
    (h : trim.space = 0 ∨ trim.maxTagCount < keys.length + trim.space) :
    Deletable trim keys (candidates trim keys) := by
  have hmem : ∀ k ∈ candidates trim keys, k ∈ keys ∧ k ∉ trim.preserve := fun k hk => by
    simpa using (candidates_subperm h).subset hk
  refine ⟨?_, fun k hk => (hmem k hk).1, fun k hk => (hmem k hk).2⟩
  obtain ⟨l, hperm, hsub⟩ := candidates_subperm h
  exact hperm.nodup_iff.mp ((hn.filter _).sublist hsub)

theorem suffices_candidates (hn : keys.Nodup) (hspace : trim.space ≠ 0)
    (h : trim.maxTagCount < keys.length + trim.space) :
    Suffices trim keys (candidates trim keys) := by
  have hlen := length_filter_not_mem hn (deletable_candidates hn (.inr h))
  have hsort := StableSort.sort_perm Text.lt (keys.filter fun k => k ∉ trim.preserve)
  rcases Nat.le_total (keys.length + trim.space - trim.maxTagCount).toNat
    (keys.filter fun k => k ∉ trim.preserve).length with hle | hle
  · left
    have htake : (candidates trim keys).length =
        (keys.length + trim.space - trim.maxTagCount).toNat := by
      rw [candidates_of_space hspace h, List.length_take, hsort.length_eq, min_eq_left hle]
    omega
  · right
    intro k hk
    rw [List.mem_filter, decide_eq_true_eq, candidates_of_space hspace h,
      List.take_of_length_le (hsort.length_eq ▸ hle), hsort.mem_iff, List.mem_filter,
      decide_eq_true_eq, not_and, not_not] at hk
    exact hk.2 hk.1

theorem length_candidates_le (hn : keys.Nodup) (hspace : trim.space ≠ 0)
    (h : trim.maxTagCount < keys.length + trim.space) {other : List Text}
    (hother : Deletable trim keys other) (hsuff : Suffices trim keys other) :
    (candidates trim keys).length ≤ other.length := by
  have hsort := StableSort.sort_perm Text.lt (keys.filter fun k => k ∉ trim.preserve)
  rw [candidates_of_space hspace h, List.length_take, hsort.length_eq]
  rcases length_of_suffices hn hother hsuff with hle | hle
  · omega
  · omega

/-- **What is chosen.**  The keys free exactly the space that is asked for. -/
theorem candidates_frees (hn : keys.Nodup)
    (h : trim.space = 0 ∨ trim.maxTagCount < keys.length + trim.space) :
    Frees trim keys (candidates trim keys) where
  deletable := deletable_candidates hn h
  room hspace hroom := absurd (h.resolve_left hspace) (by omega)
  made hspace hover := ⟨suffices_candidates hn hspace hover,
    fun _ hother hsuff => length_candidates_le hn hspace hover hother hsuff⟩
  zero hspace k hk := by
    rw [candidates_of_zero hspace, List.mem_filter, decide_eq_true_eq, and_iff_right hk]

theorem room_frees (hspace : trim.space ≠ 0) (h : keys.length + trim.space ≤ trim.maxTagCount) :
    Frees trim keys [] where
  deletable := ⟨List.nodup_nil, by simp, by simp⟩
  room _ _ := rfl
  made _ hover := absurd h (by omega)
  zero hzero := absurd hzero hspace

end Candidates

/-! ## The action completes -/

/-- **Trimming.**  The action does what it is asked exactly when it has nothing to delete: the tags
are passed in the place of the resource, and the resource in that of the client. -/
theorem trims_iff (trim : Trim) (i : Resource) : Trims trim i ↔
    (trim.space ≠ 0 ∧ (tagMap i).length + trim.space ≤ trim.maxTagCount) ∨
      ∀ k ∈ (tagMap i).map Prod.fst, k ∈ trim.preserve := by
  have hlen : (tagMap i).length = ((tagMap i).map Prod.fst).length := (List.length_map _).symm
  rw [Trims, processResource, hlen]
  by_cases hroom : trim.space ≠ 0 ∧
      ((tagMap i).map Prod.fst).length + trim.space ≤ trim.maxTagCount
  · rw [if_pos (hlen ▸ hroom)]
    exact iff_of_true ⟨[], rfl, by simp, by simp, room_frees hroom.1 hroom.2⟩ (.inl hroom)
  · rw [if_neg (hlen ▸ hroom), or_iff_right hroom]
    have hdue : trim.space = 0 ∨
        trim.maxTagCount < ((tagMap i).map Prod.fst).length + trim.space := by
      omega
    rw [← candidates_eq_nil_iff hdue]
    constructor
    · rintro ⟨deletions, hrun, -⟩
      by_contra hne
      simp only [hne, if_false] at hrun
      cases hrun
    · intro hnil
      have hfrees := candidates_frees (nodup_keys_tagMap i) hdue
      rw [hnil] at hfrees
      rw [if_pos hnil]
      exact ⟨[], rfl, by simp, by simp, hfrees⟩

/-- A resource with a tag that is to be deleted. -/
theorem untagged_not_trims :
    ¬ Trims ⟨["Name".toList], 0, 50, false⟩
      ⟨"i-fdb01920".toList, some [("Name".toList, "web".toList), ("Env".toList, "dev".toList)]⟩ := by
  rintro ⟨deletions, hrun, -⟩
  have hraises : processResource ⟨["Name".toList], 0, 50, false⟩
      ⟨"i-fdb01920".toList, some [("Name".toList, "web".toList), ("Env".toList, "dev".toList)]⟩ =
        .error .typeError := by rfl
  rw [hraises] at hrun
  cases hrun

end Custodian.TagTrim

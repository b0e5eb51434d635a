import Custodian.Lib.Runs
import Custodian.Lib.SharedLists
import Custodian.Lib.Text

/-!
# Tags of the user and of a resource

`coalesce_copy_user_tags` of `c7n/tags.py` adds tags of a resource to those of the user.  A list of
the user's tags is one of the caller's, which the function extends and returns.
-/

namespace Custodian.CopyUserTags

open Py

/-- A tag: its key and its value. -/
abbrev Tag (V : Type) := Text × V

/-- `copy_tags` -/
inductive CopyTags where
  | bool (b : Bool)
  | list (keys : List Text)
  deriving DecidableEq

/-- `user_tags`: the items of a dictionary, or one of the caller's lists. -/
inductive UserTags (V : Type) where
  | dict (items : List (Tag V))
  | list (address : Nat)

variable {V : Type}

/-- The keys of the tags that are not the service's own. -/
def allKeys (rTags : List (Tag V)) : List Text :=
  (rTags.map Prod.fst).filter fun key => !key.startsWith "aws:".toList

/-- The set `copy_keys`. -/
def copyKeys (rTags : List (Tag V)) : CopyTags → List Text
  | .list keys => if "*".toList ∈ keys then allKeys rTags else keys
  | .bool true => allKeys rTags
  | .bool false => []

/-- The list that is extended: a new one for a dictionary. -/
def UserTags.ref : UserTags V → Ref (Tag V)
  | .dict items => .fresh items
  | .list address => .own address

/-- `resource_tags_to_copy` -/
def toCopy (rTags : List (Tag V)) (copyTags : CopyTags) (userTags : List (Tag V)) : List (Tag V) :=
  let userKeys := userTags.map Prod.fst
  let tagsDiff := (copyKeys rTags copyTags).filter (· ∉ userKeys)
  rTags.filter fun t => t.1 ∈ tagsDiff

/-- `coalesce_copy_user_tags`, for a resource with these tags: the list that is returned. -/
def coalesceCopyUserTags (rTags : List (Tag V)) (copyTags : CopyTags) (userTags : UserTags V)
    (s : Store (Tag V)) : Ref (Tag V) × Store (Tag V) :=
  userTags.ref.extend (toCopy rTags copyTags (userTags.ref.read s)) s

/-- What a call returns, and the caller's lists after it. -/
structure Outcome (V : Type) where
  tags : List (Tag V)
  lists : Store (Tag V)

def call (copyTags : CopyTags) (userTags : UserTags V) (s : Store (Tag V)) (rTags : List (Tag V)) :
    Outcome V × Store (Tag V) :=
  let (tags, s) := coalesceCopyUserTags rTags copyTags userTags s
  (⟨tags.read s, s⟩, s)

/-- Calls with the same arguments on one resource after the other. -/
def coalesceEach (copyTags : CopyTags) (userTags : UserTags V) (s : Store (Tag V))
    (resources : List (List (Tag V))) : List (Outcome V) × Store (Tag V) :=
  Runs.results (call copyTags userTags) s resources

/-! ## What is expected of a call -/

/-- A key is selected by its name, or with all that are not the service's own. -/
def CopyTags.selects (key : Text) : CopyTags → Bool
  | .list keys =>
    if "*".toList ∈ keys then !key.startsWith "aws:".toList else keys.contains key
  | .bool b => b && !key.startsWith "aws:".toList

/-- The tags of a resource that are selected and not the user's. -/
def selected (rTags : List (Tag V)) (copyTags : CopyTags) (userTags : List (Tag V)) :
    List (Tag V) :=
  rTags.filter fun t => copyTags.selects t.1 && !(userTags.map Prod.fst).contains t.1

/-- A call returns the tags of the user and those selected, and changes no list of the caller. -/
def Coalesces (copyTags : CopyTags) (userTags : UserTags V) (s : Store (Tag V))
    (rTags : List (Tag V)) (out : Outcome V) : Prop :=
  out.tags = userTags.ref.read s ++ selected rTags copyTags (userTags.ref.read s) ∧ out.lists = s

variable {copyTags : CopyTags} {userTags : UserTags V} {s : Store (Tag V)}

theorem mem_copyKeys {rTags : List (Tag V)} {t : Tag V} (ht : t ∈ rTags) :
    t.1 ∈ copyKeys rTags copyTags ↔ copyTags.selects t.1 = true := by
  have hall : t.1 ∈ allKeys rTags ↔ (!t.1.startsWith "aws:".toList) = true := by
    rw [allKeys, List.mem_filter]
    exact and_iff_right (List.mem_map_of_mem ht)
  cases copyTags with
  | list keys =>
    rw [copyKeys, CopyTags.selects]
    split
    · exact hall
    · exact List.contains_iff_mem.symm
  | bool b => cases b <;> simp [copyKeys, CopyTags.selects, hall]

theorem toCopy_eq (rTags : List (Tag V)) (copyTags : CopyTags) (userTags : List (Tag V)) :
    toCopy rTags copyTags userTags = selected rTags copyTags userTags := by
  refine List.filter_congr fun t ht => ?_
  rw [Bool.eq_iff_iff, decide_eq_true_eq, List.mem_filter, mem_copyKeys ht]
  simp

theorem call_eq (copyTags : CopyTags) (userTags : UserTags V) (s : Store (Tag V))
    (rTags : List (Tag V)) :
    call copyTags userTags s rTags =
      (⟨userTags.ref.read s ++ selected rTags copyTags (userTags.ref.read s),
        (userTags.ref.extend (selected rTags copyTags (userTags.ref.read s)) s).2⟩,
        (userTags.ref.extend (selected rTags copyTags (userTags.ref.read s)) s).2) := by
  rw [call, coalesceCopyUserTags, toCopy_eq]
  simp only [read_extend]

theorem call_coalesces_iff (rTags : List (Tag V)) :
    Coalesces copyTags userTags s rTags (call copyTags userTags s rTags).1 ↔
      ∀ address, userTags = .list address →
        selected rTags copyTags (userTags.ref.read s) = [] := by
  rw [call_eq, Coalesces, and_iff_right rfl, extend_store_eq_iff]
  cases userTags <;> simp [UserTags.ref]

/-- **Tags.**  Calls with the same arguments are all as expected if and only if the tags of the user
are a dictionary, or no tag is copied. -/
theorem coalesceEach_iff (copyTags : CopyTags) (userTags : UserTags V) (s : Store (Tag V))
    (resources : List (List (Tag V))) :
    List.Forall₂ (Coalesces copyTags userTags s) resources
        (coalesceEach copyTags userTags s resources).1 ↔
      ∀ address, userTags = .list address → ∀ rTags ∈ resources,
        selected rTags copyTags (userTags.ref.read s) = [] := by
  rw [coalesceEach, Runs.forall₂_results_iff_of_stays]
  · simp only [call_coalesces_iff]
    exact ⟨fun h address hlist rTags hr => h rTags hr address hlist,
      fun h rTags hr address hlist => h address hlist rTags hr⟩
  · intro rTags h
    exact h.2

/-- Two resources with a tag of one key. -/
def sampleResources : List (List (Tag Text)) :=
  [[("owner".toList, "alice".toList)], [("owner".toList, "bob".toList)]]

/-- A list without tags at an address. -/
def sampleLists : Store (Tag Text) := fun _ => []

/-- The second call returns the tag of the first resource. -/
theorem sampleResources_leaked :
    (coalesceEach (.bool true) (.list 0) sampleLists sampleResources).1.map Outcome.tags =
      [[("owner".toList, "alice".toList)], [("owner".toList, "alice".toList)]] ∧
    ¬ List.Forall₂ (Coalesces (.bool true) (.list 0) sampleLists) sampleResources
      (coalesceEach (.bool true) (.list 0) sampleLists sampleResources).1 := by
  refine ⟨by decide, fun h => ?_⟩
  cases h with
  | cons hfirst _ =>
    have hnil := (call_coalesces_iff _).mp hfirst 0 rfl
    revert hnil
    decide

end Custodian.CopyUserTags

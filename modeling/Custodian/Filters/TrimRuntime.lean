import Mathlib.Data.List.Nodup
import Mathlib.Data.List.Forall2

/-!
# Removing the event filters of a policy

`trim_runtime` of `c7n/filters/core.py` walks over the filters of a manager with `iter_filters` of
`c7n/manager.py`, and removes each event filter from the block it stands in, and with it every block
that becomes empty.  The lists are edited while they are walked over, and the block of a filter is
found by another walk.
-/

namespace Custodian.TrimRuntime

/-! ## Filters -/

/-- `isinstance(f, EventFilter)`, a block (`f.type` is `or`, `and` or `not`) or another filter. -/
inductive Kind where
  | event
  | block
  | other
  deriving DecidableEq, Repr

/-- The filters, told apart by numbers, and the lists of the manager (`none`) and of the blocks. -/
structure Heap where
  kind : Nat → Kind
  filters : Option Nat → List Nat

/-- `block.filters.remove(f)` -/
def Heap.remove (h : Heap) (block : Option Nat) (f : Nat) : Heap :=
  { h with filters := fun b => if b = block then (h.filters b).erase f else h.filters b }

/-- The queue of `iter_filters` after `f` has been taken from it. -/
def expand (h : Heap) (blockEnd : Bool) (queue : List (Option Nat)) : Option Nat → List (Option Nat)
  | none => queue
  | some f =>
    if h.kind f = .block then
      ((h.filters (some f)).map some).reverse ++ (if blockEnd then none :: queue else queue)
    else queue

/-- `iter_filters(filters, block_end)`, in at most so many rounds. -/
def iterFilters (h : Heap) (blockEnd : Bool) : Nat → List (Option Nat) → Option (List (Option Nat))
  | _, [] => some []
  | 0, _ :: _ => none
  | n + 1, f :: queue => do
    let rest ← iterFilters h blockEnd n (expand h blockEnd queue f)
    return f :: rest

/-- The loop of `get_block_parent` over the filters, with its stack of blocks. -/
def blockParent (h : Heap) (self : Nat) : List (Option Nat) → List (Option Nat) → Option (Option Nat)
  | [], _ => none
  | none :: fs, stack => blockParent h self fs stack.tail
  | some f :: fs, stack =>
    if f = self then stack.head?
    else if h.kind f = .block then blockParent h self fs (some f :: stack)
    else blockParent h self fs stack

/-- `self.get_block_parent()` -/
def getBlockParent (n : Nat) (h : Heap) (self : Nat) : Option (Option Nat) := do
  let fs ← iterFilters h true n ((h.filters none).map some)
  blockParent h self fs [none]

/-- `remove_filter(f)`, with calls nested to a depth at most. -/
def removeFilter : Nat → Heap → Nat → Option Heap
  | 0, _, _ => none
  | n + 1, h, f => do
    let block ← getBlockParent n h f
    let h := h.remove block f
    match block with
    | none => return h
    | some b => if h.filters (some b) = [] then removeFilter n h b else return h

/-- The loop of `trim_runtime`: the queue is that of the walk it is in. -/
def trimLoop : Nat → Heap → List (Option Nat) → Option Heap
  | _, h, [] => some h
  | 0, _, _ :: _ => none
  | n + 1, h, f :: queue =>
    let queue := expand h false queue f
    match f with
    | none => trimLoop n h queue
    | some f => do
      let h ← if h.kind f = .event then removeFilter n h f else some h
      trimLoop n h queue

/-- `trim_runtime(manager.filters)` -/
def trimRuntime (n : Nat) (h : Heap) : Option Heap := trimLoop n h ((h.filters none).map some)

/-! ## Trees of filters -/

inductive Tree where
  | leaf (id : Nat) (event : Bool)
  | block (id : Nat) (filters : List Tree)

/-- Induction over a tree with one hypothesis for every filter of a block. -/
@[elab_as_elim]
theorem Tree.induct {motive : Tree → Prop} (leaf : ∀ id event, motive (.leaf id event))
    (block : ∀ id fs, (∀ f ∈ fs, motive f) → motive (.block id fs)) (t : Tree) : motive t :=
  @Tree.rec motive (fun fs => ∀ f ∈ fs, motive f) leaf block (List.forall_mem_nil _)
    (fun _ _ hf hfs => List.forall_mem_cons.mpr ⟨hf, hfs⟩) t

namespace Tree

def id : Tree → Nat
  | leaf id _ => id
  | block id _ => id

def kind : Tree → Kind
  | leaf _ event => if event then .event else .other
  | block _ _ => .block

mutual
/-- The filters of a tree, each with the block that directly contains it. -/
def members (block : Option Nat) : Tree → List (Option Nat × Tree)
  | .leaf id event => [(block, .leaf id event)]
  | .block id fs => (block, .block id fs) :: membersAll (some id) fs

def membersAll (block : Option Nat) : List Tree → List (Option Nat × Tree)
  | [] => []
  | f :: fs => f.members block ++ membersAll block fs
end

/-- The filters as numbers. -/
def ids (t : Tree) : List Nat := (t.members none).map fun m => m.2.id

def idsAll (fs : List Tree) : List Nat := (membersAll none fs).map fun m => m.2.id

mutual
/-- An event filter, or a block that is left empty without its event filters. -/
def dead : Tree → Bool
  | .leaf _ event => event
  | .block _ fs => !fs.isEmpty && deadAll fs

def deadAll : List Tree → Bool
  | [] => true
  | f :: fs => f.dead && deadAll fs
end

mutual
/-- The tree without what is dead in it. -/
def trim : Tree → Tree
  | .leaf id event => .leaf id event
  | .block id fs => .block id (trimAll fs)

def trimAll : List Tree → List Tree
  | [] => []
  | f :: fs => if f.dead then trimAll fs else f.trim :: trimAll fs
end

mutual
/-- The filters that are no blocks, each with the chain of blocks around it. -/
def leaves (chain : List Nat) : Tree → List (List Nat × Nat × Bool)
  | .leaf id event => [(chain, id, event)]
  | .block id fs => leavesAll (id :: chain) fs

def leavesAll (chain : List Nat) : List Tree → List (List Nat × Nat × Bool)
  | [] => []
  | f :: fs => f.leaves chain ++ leavesAll chain fs
end

/-- The list of a block of the trees, or of the manager. -/
def IsBlock (forest : List Tree) (block : Option Nat) (fs : List Tree) : Prop :=
  (block = none ∧ fs = forest) ∨
    ∃ parent id, block = some id ∧ (parent, Tree.block id fs) ∈ membersAll none forest

/-- The manager has these filters. -/
structure Holds (h : Heap) (forest : List Tree) : Prop where
  filters : ∀ block fs, IsBlock forest block fs → h.filters block = fs.map id
  kinds : ∀ m ∈ membersAll none forest, h.kind m.2.id = m.2.kind

end Tree

open Tree

/-- The event filters are gone, and the blocks that they leave empty; every other filter is there
once, in the same chain of blocks and in the same order. -/
structure Trimmed (forest forest' : List Tree) : Prop where
  events : ∀ m ∈ membersAll none forest', m.2.kind ≠ .event
  empty : ∀ block id, (block, Tree.block id []) ∈ membersAll none forest' →
    (block, Tree.block id []) ∈ membersAll none forest
  leaves : leavesAll [] forest' = (leavesAll [] forest).filter fun l => !l.2.2

/-! ## Members of a tree -/

namespace Tree

theorem kind_leaf_ne (id : Nat) (event : Bool) : (leaf id event).kind ≠ .block := by
  cases event <;> simp [kind]

theorem mem_members_block {b block : Option Nat} {id : Nat} {fs : List Tree} {t : Tree} :
    (b, t) ∈ (Tree.block id fs).members block ↔
      (b, t) = (block, Tree.block id fs) ∨ (b, t) ∈ membersAll (some id) fs := List.mem_cons

theorem members_block_subset (block : Option Nat) (id : Nat) (fs : List Tree) :
    membersAll (some id) fs ⊆ (Tree.block id fs).members block := List.subset_cons_self _ _

theorem membersAll_eq (block : Option Nat) (fs : List Tree) :
    membersAll block fs = fs.flatMap (members block) := by
  induction fs with
  | nil => rfl
  | cons f fs ih => exact congrArg (f.members block ++ ·) ih

theorem map_id_members (block : Option Nat) (t : Tree) :
    ((t.members block).map fun m => m.2.id) = t.ids := by
  cases t <;> rfl

theorem idsAll_eq (fs : List Tree) : idsAll fs = fs.flatMap ids := by
  rw [idsAll, membersAll_eq, List.map_flatMap]
  rfl

theorem map_id_membersAll (block : Option Nat) (fs : List Tree) :
    ((membersAll block fs).map fun m => m.2.id) = idsAll fs := by
  rw [membersAll_eq, List.map_flatMap, idsAll_eq]
  exact List.flatMap_congr fun f _ => map_id_members block f

theorem idsAll_cons (f : Tree) (fs : List Tree) : idsAll (f :: fs) = f.ids ++ idsAll fs := by
  rw [idsAll_eq, idsAll_eq, List.flatMap_cons]

theorem ids_block (id : Nat) (fs : List Tree) : (block id fs).ids = id :: idsAll fs := by
  exact congrArg (id :: ·) (map_id_membersAll (some id) fs)

theorem mem_members_self (block : Option Nat) (t : Tree) : (block, t) ∈ t.members block := by
  cases t <;> exact List.mem_cons_self

theorem mem_membersAll {block b : Option Nat} {fs : List Tree} {t : Tree} :
    (b, t) ∈ membersAll block fs ↔ ∃ f ∈ fs, (b, t) ∈ f.members block := by
  rw [membersAll_eq, List.mem_flatMap]

theorem mem_membersAll_of_mem {b : Option Nat} {fs : List Tree} {f : Tree} (h : f ∈ fs) :
    (b, f) ∈ membersAll b fs := mem_membersAll.mpr ⟨f, h, f.mem_members_self b⟩

theorem id_mem_ids (t : Tree) : t.id ∈ t.ids := by
  rw [← map_id_members none t]
  exact List.mem_map.mpr ⟨_, t.mem_members_self none, rfl⟩

theorem mem_idsAll_of_mem {block b : Option Nat} {fs : List Tree} {t : Tree}
    (h : (b, t) ∈ membersAll block fs) : t.id ∈ idsAll fs := by
  rw [← map_id_membersAll block]
  exact List.mem_map.mpr ⟨_, h, rfl⟩

theorem members_subset {b block : Option Nat} {t u : Tree} (ht : (b, t) ∈ u.members block) :
    t.members b ⊆ u.members block := by
  induction u using Tree.induct generalizing block with
  | leaf id event =>
    obtain ⟨rfl, rfl⟩ := Prod.mk.inj (List.mem_singleton.mp ht)
    exact List.Subset.refl _
  | block id fs ih =>
    rw [mem_members_block] at ht
    rcases ht with ht | ht
    · obtain ⟨rfl, rfl⟩ := Prod.mk.inj ht
      exact List.Subset.refl _
    · obtain ⟨f, hf, ht⟩ := mem_membersAll.mp ht
      intro m hm
      exact members_block_subset _ _ _ (mem_membersAll.mpr ⟨f, hf, ih f hf ht hm⟩)

theorem membersAll_subset {b block : Option Nat} {t : Tree} {fs : List Tree}
    (ht : (b, t) ∈ membersAll block fs) : t.members b ⊆ membersAll block fs := by
  obtain ⟨f, hf, ht⟩ := mem_membersAll.mp ht
  exact fun m hm => mem_membersAll.mpr ⟨f, hf, members_subset ht hm⟩

theorem mem_of_block {c block : Option Nat} {id : Nat} {fs forest : List Tree} {f : Tree}
    (hb : (c, Tree.block id fs) ∈ membersAll block forest) (hf : f ∈ fs) :
    (some id, f) ∈ membersAll block forest := by
  refine membersAll_subset hb ?_
  exact members_block_subset _ _ _ (mem_membersAll_of_mem hf)

theorem parent_cases {b block : Option Nat} {t u : Tree} (h : (b, t) ∈ u.members block) :
    (b, t) = (block, u) ∨
      ∃ c id fs, b = some id ∧ (c, Tree.block id fs) ∈ u.members block ∧ t ∈ fs := by
  induction u using Tree.induct generalizing block with
  | leaf id event => exact Or.inl (List.mem_singleton.mp h)
  | block id fs ih =>
    rw [mem_members_block] at h
    rcases h with h | h
    · exact Or.inl h
    · right
      obtain ⟨f, hf, h⟩ := mem_membersAll.mp h
      rcases ih f hf h with heq | ⟨c, id', fs', hb, hblock, ht⟩
      · obtain ⟨rfl, rfl⟩ := Prod.mk.inj heq
        exact ⟨block, id, fs, rfl, mem_members_self _ _, hf⟩
      · refine ⟨c, id', fs', hb, ?_, ht⟩
        exact members_block_subset _ _ _ (mem_membersAll.mpr ⟨f, hf, hblock⟩)

theorem IsBlock.mem {forest fs : List Tree} {b : Option Nat} {f : Tree} (h : IsBlock forest b fs)
    (hf : f ∈ fs) : (b, f) ∈ membersAll none forest := by
  rcases h with ⟨rfl, rfl⟩ | ⟨c, id, rfl, hb⟩
  · exact mem_membersAll_of_mem hf
  · exact mem_of_block hb hf

theorem exists_isBlock {forest : List Tree} {b : Option Nat} {t : Tree}
    (h : (b, t) ∈ membersAll none forest) : ∃ fs, IsBlock forest b fs ∧ t ∈ fs := by
  obtain ⟨f, hf, ht⟩ := mem_membersAll.mp h
  rcases parent_cases ht with heq | ⟨c, id, fs, rfl, hblock, hmem⟩
  · obtain ⟨rfl, rfl⟩ := Prod.mk.inj heq
    exact ⟨forest, Or.inl ⟨rfl, rfl⟩, hf⟩
  · exact ⟨fs, Or.inr ⟨c, id, rfl, mem_membersAll.mpr ⟨f, hf, hblock⟩⟩, hmem⟩

theorem sublist_idsAll (fs : List Tree) : (fs.map id).Sublist (idsAll fs) := by
  induction fs with
  | nil => exact .slnil
  | cons f fs ih =>
    rw [idsAll_cons, List.map_cons, ← List.singleton_append]
    exact (List.singleton_sublist.mpr f.id_mem_ids).append ih

theorem ids_sublist {f : Tree} {fs : List Tree} (hf : f ∈ fs) : f.ids.Sublist (idsAll fs) := by
  induction fs with
  | nil => cases hf
  | cons g fs ih =>
    rw [idsAll_cons]
    rcases List.mem_cons.mp hf with rfl | hf
    · exact List.sublist_append_left _ _
    · exact (ih hf).trans (List.sublist_append_right _ _)

/-! ### Distinct filters -/

section Distinct

variable {forest : List Tree} (hnodup : (idsAll forest).Nodup)

include hnodup

theorem unique {m m' : Option Nat × Tree} (hm : m ∈ membersAll none forest)
    (hm' : m' ∈ membersAll none forest) (h : m.2.id = m'.2.id) : m = m' :=
  List.inj_on_of_nodup_map hnodup hm hm' h

theorem nodup_ids {b : Option Nat} {t : Tree} (h : (b, t) ∈ membersAll none forest) :
    t.ids.Nodup := by
  have hgen : ∀ (u : Tree) (block : Option Nat), (b, t) ∈ u.members block → t.ids.Sublist u.ids := by
    intro u
    induction u using Tree.induct with
    | leaf id event =>
      intro block ht
      obtain ⟨rfl, rfl⟩ := Prod.mk.inj (List.mem_singleton.mp ht)
      exact List.Sublist.refl _
    | block id fs ih =>
      intro block ht
      rw [mem_members_block] at ht
      rcases ht with ht | ht
      · obtain ⟨rfl, rfl⟩ := Prod.mk.inj ht
        exact List.Sublist.refl _
      · obtain ⟨f, hf, ht⟩ := mem_membersAll.mp ht
        rw [ids_block]
        exact ((ih f hf _ ht).trans (ids_sublist hf)).cons id
  obtain ⟨f, hf, ht⟩ := mem_membersAll.mp h
  exact hnodup.sublist ((hgen f _ ht).trans (ids_sublist hf))

theorem IsBlock.nodup {b : Option Nat} {fs : List Tree} (h : IsBlock forest b fs) :
    (fs.map id).Nodup := by
  rcases h with ⟨rfl, rfl⟩ | ⟨c, id, rfl, hb⟩
  · exact hnodup.sublist (sublist_idsAll _)
  · have hids := nodup_ids hnodup hb
    rw [ids_block] at hids
    exact (List.nodup_cons.mp hids).2.sublist (sublist_idsAll fs)

theorem id_ne_of_block {c : Option Nat} {id : Nat} {fs : List Tree}
    (hb : (c, Tree.block id fs) ∈ membersAll none forest) {f : Tree} (hf : f ∈ fs) : f.id ≠ id := by
  have hids := nodup_ids hnodup hb
  rw [ids_block] at hids
  rintro rfl
  exact (List.nodup_cons.mp hids).1 ((sublist_idsAll fs).subset (List.mem_map.mpr ⟨f, hf, rfl⟩))

end Distinct

end Tree

/-! ## The walk over edited lists

Some filters have been removed from the lists of their blocks. -/

namespace Tree

mutual
/-- The walk with the ends of the blocks over a tree from which filters have been removed. -/
def walk (removed : List Nat) : Tree → List (Option Nat)
  | .leaf id _ => [some id]
  | .block id fs => some id :: (walkLast removed fs ++ [none])

def walkLast (removed : List Nat) : List Tree → List (Option Nat)
  | [] => []
  | f :: fs => walkLast removed fs ++ if f.id ∈ removed then [] else f.walk removed
end

theorem walk_leaf (removed : List Nat) (id : Nat) (event : Bool) :
    (leaf id event).walk removed = [some id] := rfl

theorem walk_block (removed : List Nat) (id : Nat) (fs : List Tree) :
    (block id fs).walk removed = some id :: (walkLast removed fs ++ [none]) := rfl

theorem walkLast_cons (removed : List Nat) (f : Tree) (fs : List Tree) :
    walkLast removed (f :: fs) =
      walkLast removed fs ++ if f.id ∈ removed then [] else f.walk removed := rfl

/-- The lists of these members are those of the trees without what has been removed. -/
structure Reads (h : Heap) (removed : List Nat) (ms : List (Option Nat × Tree)) : Prop where
  kinds : ∀ m ∈ ms, h.kind m.2.id = m.2.kind
  filters : ∀ b id fs, (b, Tree.block id fs) ∈ ms →
    h.filters (some id) = (fs.map Tree.id).filter (· ∉ removed)

theorem Reads.subset {h : Heap} {removed : List Nat} {ms ms' : List (Option Nat × Tree)}
    (hr : Reads h removed ms) (hsub : ms' ⊆ ms) : Reads h removed ms' :=
  ⟨fun m hm => hr.kinds m (hsub hm), fun b id fs hb => hr.filters b id fs (hsub hb)⟩

/-- With a filter that has been removed, all filters in it have been. -/
def Closed (removed : List Nat) (ms : List (Option Nat × Tree)) : Prop :=
  ∀ b id fs, (b, Tree.block id fs) ∈ ms → id ∈ removed → ∀ f ∈ fs, f.id ∈ removed

theorem members_block (block : Option Nat) (id : Nat) (fs : List Tree) {f : Tree} (hf : f ∈ fs) :
    f.members (some id) ⊆ (Tree.block id fs).members block := by
  intro m hm
  exact members_block_subset _ _ _ (mem_membersAll.mpr ⟨f, hf, hm⟩)

theorem ids_removed {removed : List Nat} {t : Tree} {block : Option Nat}
    (hc : Closed removed (t.members block)) (ht : t.id ∈ removed) : ∀ i ∈ t.ids, i ∈ removed := by
  induction t using Tree.induct generalizing block with
  | leaf id event =>
    intro i hi
    rw [List.mem_singleton.mp hi]
    exact ht
  | block id fs ih =>
    intro i hi
    rw [ids_block, List.mem_cons, idsAll_eq, List.mem_flatMap] at hi
    rcases hi with rfl | ⟨f, hf, hi⟩
    · exact ht
    · exact ih f hf (fun b id' fs' hb => hc b id' fs' (members_block block id fs hf hb))
        (hc block id fs (mem_members_self _ _) ht f hf) i hi

theorem iterFilters_mono {h : Heap} {blockEnd : Bool} {n m : Nat} (hle : n ≤ m)
    {queue r : List (Option Nat)} (hr : iterFilters h blockEnd n queue = some r) :
    iterFilters h blockEnd m queue = some r := by
  induction n generalizing m queue r with
  | zero =>
    cases queue with
    | nil => cases m <;> exact hr
    | cons f queue => cases hr
  | succ n ih =>
    cases queue with
    | nil => cases m <;> exact hr
    | cons f queue =>
      obtain ⟨m, rfl⟩ := Nat.exists_eq_add_of_lt (Nat.lt_of_succ_le hle)
      simp only [iterFilters, Option.bind_eq_bind, Option.bind_eq_some_iff] at hr ⊢
      obtain ⟨rest, hrest, hr⟩ := hr
      exact ⟨rest, ih (Nat.le_add_right n m) hrest, hr⟩

theorem iterFilters_walkLast {h : Heap} {removed : List Nat} {fs : List Tree}
    (hwalk : ∀ f ∈ fs, ∀ n queue r, iterFilters h true n queue = some r →
      iterFilters h true ((f.walk removed).length + n) (some f.id :: queue) =
        some (f.walk removed ++ r)) {n : Nat} {queue r : List (Option Nat)}
    (hr : iterFilters h true n queue = some r) :
    iterFilters h true ((walkLast removed fs).length + n)
      ((((fs.map Tree.id).filter (· ∉ removed)).map some).reverse ++ queue) =
        some (walkLast removed fs ++ r) := by
  induction fs generalizing n queue r with
  | nil =>
    exact (Nat.zero_add n).symm ▸ hr
  | cons f fs ih =>
    obtain ⟨hf, hfs⟩ := List.forall_mem_cons.mp hwalk
    rw [walkLast_cons, List.map_cons]
    by_cases hrem : f.id ∈ removed
    · rw [if_pos hrem, List.append_nil, List.filter_cons_of_neg (by simpa using hrem)]
      exact ih hfs hr
    · rw [if_neg hrem, List.filter_cons_of_pos (by simpa using hrem), List.map_cons,
        List.reverse_cons, List.append_assoc, List.singleton_append, List.length_append,
        Nat.add_assoc, List.append_assoc]
      exact ih hfs (hf n queue r hr)

theorem iterFilters_walk {h : Heap} {removed : List Nat} {t : Tree} {b : Option Nat}
    (hreads : Reads h removed (t.members b)) (n : Nat) (queue r : List (Option Nat))
    (hr : iterFilters h true n queue = some r) :
    iterFilters h true ((t.walk removed).length + n) (some t.id :: queue) =
      some (t.walk removed ++ r) := by
  induction t using Tree.induct generalizing b n queue r with
  | leaf id event =>
    have hkind : h.kind id ≠ .block := fun hb =>
      kind_leaf_ne id event ((hreads.kinds _ (mem_members_self _ _)).symm.trans hb)
    have hexpand : expand h true queue (some id) = queue := if_neg hkind
    rw [walk_leaf, List.length_singleton, Nat.add_comm, Tree.id, iterFilters, hexpand, hr]
    rfl
  | block id fs ih =>
    have hkind : h.kind id = .block := hreads.kinds _ (mem_members_self _ _)
    have hexpand : expand h true queue (some id) =
        (((fs.map Tree.id).filter (· ∉ removed)).map some).reverse ++ none :: queue := by
      rw [expand, if_pos hkind, hreads.filters _ _ _ (mem_members_self _ _), if_pos rfl]
    have hend : iterFilters h true (n + 1) (none :: queue) = some (none :: r) := by
      rw [iterFilters, expand, hr]
      rfl
    have hfs := iterFilters_walkLast (fun f (hf : f ∈ fs) n queue r =>
      ih f hf (hreads.subset (members_block b id fs hf)) n queue r) hend
    rw [walk_block, List.length_cons, List.length_append, List.length_singleton, Tree.id,
      show (walkLast removed fs).length + 1 + 1 + n = (walkLast removed fs).length + (n + 1) + 1 by
        omega, iterFilters, hexpand, hfs]
    simp

/-! ### The block of a filter -/

theorem blockParent_walkLast_of_notMem {h : Heap} {self : Nat} {removed : List Nat} {fs : List Tree}
    (hpass : ∀ f ∈ fs, self ∉ f.ids → ∀ es stack,
      blockParent h self (f.walk removed ++ es) stack = blockParent h self es stack)
    (hself : self ∉ idsAll fs) (es stack : List (Option Nat)) :
    blockParent h self (walkLast removed fs ++ es) stack = blockParent h self es stack := by
  induction fs generalizing es with
  | nil => rfl
  | cons f fs ih =>
    obtain ⟨hf, hfs⟩ := List.forall_mem_cons.mp hpass
    rw [idsAll_cons, List.mem_append, not_or] at hself
    rw [walkLast_cons, List.append_assoc, ih hfs hself.2]
    split
    · rfl
    · exact hf hself.1 es stack

theorem blockParent_of_notMem {h : Heap} {self : Nat} {removed : List Nat} {t : Tree}
    {block : Option Nat} (hkinds : ∀ m ∈ t.members block, h.kind m.2.id = m.2.kind)
    (hself : self ∉ t.ids) (es stack : List (Option Nat)) :
    blockParent h self (t.walk removed ++ es) stack = blockParent h self es stack := by
  induction t using Tree.induct generalizing block es stack with
  | leaf id event =>
    have hkind : h.kind id ≠ .block := fun hb =>
      kind_leaf_ne id event ((hkinds _ (mem_members_self _ _)).symm.trans hb)
    have hne : id ≠ self := fun he => hself (he ▸ (Tree.leaf id event).id_mem_ids)
    rw [walk_leaf, List.singleton_append, blockParent, if_neg hne, if_neg hkind]
  | block id fs ih =>
    have hkind : h.kind id = .block := hkinds _ (mem_members_self _ _)
    rw [ids_block, List.mem_cons, not_or] at hself
    rw [walk_block, List.cons_append, blockParent, if_neg (Ne.symm hself.1), if_pos hkind,
      List.append_assoc, blockParent_walkLast_of_notMem (fun f hf hs es stack =>
        ih f hf (fun m hm => hkinds m (members_block block id fs hf hm)) hs es stack) hself.2]
    rfl

theorem blockParent_walkLast {h : Heap} {removed : List Nat} {b c : Option Nat} {u : Tree}
    {fs : List Tree} {stack : List (Option Nat)}
    (hfind : ∀ f ∈ fs, (b, u) ∈ f.members c → f.ids.Nodup → ∀ es,
      blockParent h u.id (f.walk removed ++ es) stack = some b)
    (hkinds : ∀ m ∈ membersAll c fs, h.kind m.2.id = m.2.kind)
    (hclosed : Closed removed (membersAll c fs)) (hu : (b, u) ∈ membersAll c fs)
    (hlive : u.id ∉ removed) (hnodup : (idsAll fs).Nodup) (es : List (Option Nat)) :
    blockParent h u.id (walkLast removed fs ++ es) stack = some b := by
  induction fs generalizing es with
  | nil => cases hu
  | cons f fs ih =>
    obtain ⟨hf, hfs⟩ := List.forall_mem_cons.mp hfind
    rw [idsAll_cons, List.nodup_append] at hnodup
    obtain ⟨hnf, hnfs, hdisjoint⟩ := hnodup
    rw [membersAll] at hu hkinds hclosed
    rw [walkLast_cons, List.append_assoc]
    rcases List.mem_append.mp hu with hu | hu
    · have hmem : u.id ∈ f.ids := by
        rw [← map_id_members c]
        exact List.mem_map.mpr ⟨_, hu, rfl⟩
      have hkeep : f.id ∉ removed := fun hr => hlive (ids_removed
        (fun b id fs hb => hclosed b id fs (List.mem_append_left _ hb)) hr u.id hmem)
      have hnot : u.id ∉ idsAll fs := fun hin => hdisjoint _ hmem _ hin rfl
      rw [blockParent_walkLast_of_notMem (fun g hg hs es stack => blockParent_of_notMem
        (fun m hm => hkinds m (List.mem_append_right _ (mem_membersAll.mpr ⟨g, hg, hm⟩))) hs es stack)
        hnot, if_neg hkeep]
      exact hf hu hnf es
    · exact ih hfs (fun m hm => hkinds m (List.mem_append_right _ hm))
        (fun b id fs hb => hclosed b id fs (List.mem_append_right _ hb)) hu hnfs _

theorem blockParent_walk {h : Heap} {removed : List Nat} {b c : Option Nat} {t u : Tree}
    {stack : List (Option Nat)} (hstack : stack.head? = some c)
    (hkinds : ∀ m ∈ t.members c, h.kind m.2.id = m.2.kind)
    (hclosed : Closed removed (t.members c)) (hu : (b, u) ∈ t.members c) (hlive : u.id ∉ removed)
    (hnodup : t.ids.Nodup) (es : List (Option Nat)) :
    blockParent h u.id (t.walk removed ++ es) stack = some b := by
  induction t using Tree.induct generalizing c stack es with
  | leaf id event =>
    obtain ⟨rfl, rfl⟩ := Prod.mk.inj (List.mem_singleton.mp hu)
    rw [walk_leaf, List.singleton_append, blockParent, Tree.id, if_pos rfl, hstack]
  | block id fs ih =>
    have hkind : h.kind id = .block := hkinds _ (mem_members_self _ _)
    rw [ids_block, List.nodup_cons] at hnodup
    rw [walk_block, List.cons_append, blockParent]
    rcases mem_members_block.mp hu with hu | hu
    · obtain ⟨rfl, rfl⟩ := Prod.mk.inj hu
      rw [Tree.id, if_pos rfl, hstack]
    · have hne : id ≠ u.id := fun he => hnodup.1 (he ▸ mem_idsAll_of_mem hu)
      rw [if_neg hne, if_pos hkind, List.append_assoc]
      refine blockParent_walkLast (c := some id) (fun f hf hmem hnf es => ?_)
        (fun m hm => hkinds m (List.mem_cons_of_mem _ hm))
        (fun b id fs hb => hclosed b id fs (List.mem_cons_of_mem _ hb)) hu hlive hnodup.2 _
      exact ih f hf rfl (fun m hm => hkinds m (List.mem_cons_of_mem _ (mem_membersAll.mpr ⟨f, hf, hm⟩)))
        (fun b id fs hb => hclosed b id fs (List.mem_cons_of_mem _ (mem_membersAll.mpr ⟨f, hf, hb⟩)))
        hmem hnf es

theorem length_walk_le (removed : List Nat) (t : Tree) :
    (t.walk removed).length ≤ 2 * t.ids.length := by
  induction t using Tree.induct with
  | leaf id event => exact Nat.le_succ 1
  | block id fs ih =>
    have hlast : (walkLast removed fs).length ≤ 2 * (idsAll fs).length := by
      induction fs with
      | nil => exact Nat.le_refl 0
      | cons f fs ihfs =>
        obtain ⟨hf, hfs⟩ := List.forall_mem_cons.mp ih
        have hrest := ihfs hfs
        rw [walkLast_cons, idsAll_cons, List.length_append, List.length_append]
        split
        · simp only [List.length_nil]
          omega
        · omega
    rw [walk_block, ids_block, List.length_cons, List.length_append, List.length_singleton,
      List.length_cons]
    omega

end Tree

/-! ## Edited filters -/

/-- The manager has the filters of the forest without those that have been removed. -/
structure Edited (forest : List Tree) (h : Heap) (removed : List Nat) : Prop where
  kinds : ∀ m ∈ membersAll none forest, h.kind m.2.id = m.2.kind
  filters : ∀ b fs, IsBlock forest b fs → h.filters b = (fs.map Tree.id).filter (· ∉ removed)
  closed : Closed removed (membersAll none forest)
  dead : ∀ m ∈ membersAll none forest, m.2.id ∈ removed → m.2.dead = true

section Manager

variable {forest : List Tree} {h : Heap} {removed : List Nat}

theorem Edited.reads (he : Edited forest h removed) :
    Reads h removed (membersAll none forest) :=
  ⟨he.kinds, fun b id fs hb => he.filters (some id) fs (Or.inr ⟨b, id, rfl, hb⟩)⟩

theorem Tree.Holds.edited (hh : Holds h forest) : Edited forest h [] := by
  refine ⟨hh.kinds, fun b fs hb => ?_, fun b id fs _ hid => ?_, fun m _ hm => ?_⟩
  · rw [hh.filters b fs hb, List.filter_eq_self.mpr fun i _ => by simp]
  · cases hid
  · cases hm

theorem Edited.iterFilters (he : Edited forest h removed) {n : Nat}
    (hn : 2 * (idsAll forest).length ≤ n) :
    iterFilters h true n ((h.filters none).map some) =
      some (forest.flatMap fun f => if f.id ∈ removed then [] else f.walk removed) := by
  have hgen : ∀ fs : List Tree, fs ⊆ forest →
      TrimRuntime.iterFilters h true (2 * (idsAll fs).length)
        (((fs.map Tree.id).filter (· ∉ removed)).map some) =
          some (fs.flatMap fun f => if f.id ∈ removed then [] else f.walk removed) := by
    intro fs
    induction fs with
    | nil => exact fun _ => rfl
    | cons f fs ih =>
      intro hsub
      have hrest := ih fun g hg => hsub (List.mem_cons_of_mem f hg)
      have hlen : (f.walk removed).length + 2 * (idsAll fs).length ≤ 2 * (idsAll (f :: fs)).length := by
        have := length_walk_le removed f
        rw [idsAll_cons, List.length_append]
        omega
      rw [List.map_cons, List.flatMap_cons]
      by_cases hrem : f.id ∈ removed
      · rw [if_pos hrem, List.filter_cons_of_neg (by simpa using hrem), List.nil_append]
        exact iterFilters_mono (by omega) hrest
      · rw [if_neg hrem, List.filter_cons_of_pos (by simpa using hrem), List.map_cons]
        refine iterFilters_mono hlen (iterFilters_walk (b := none)
          (he.reads.subset (membersAll_subset ?_)) _ _ _ hrest)
        exact mem_membersAll_of_mem (hsub List.mem_cons_self)
  rw [he.filters none forest (Or.inl ⟨rfl, rfl⟩)]
  exact iterFilters_mono hn (hgen forest (List.Subset.refl _))

/-- **The block of a filter** is the one that directly contains it, also after other filters have
been removed. -/
theorem getBlockParent_spec (hnodup : (idsAll forest).Nodup) (he : Edited forest h removed)
    {b : Option Nat} {t : Tree} (ht : (b, t) ∈ membersAll none forest) (hlive : t.id ∉ removed)
    {n : Nat} (hn : 2 * (idsAll forest).length ≤ n) : getBlockParent n h t.id = some b := by
  rw [getBlockParent, he.iterFilters hn]
  show blockParent h t.id (forest.flatMap _) [none] = some b
  have hgen : ∀ fs : List Tree, (∀ f ∈ fs, f.members none ⊆ membersAll none forest) →
      (idsAll fs).Nodup → (b, t) ∈ membersAll none fs →
      blockParent h t.id (fs.flatMap fun f => if f.id ∈ removed then [] else f.walk removed) [none] =
        some b := by
    intro fs
    induction fs with
    | nil =>
      intro _ _ hmem
      cases hmem
    | cons f fs ih =>
      intro hsub hn hmem
      obtain ⟨hf, hfs⟩ := List.forall_mem_cons.mp hsub
      have hreads := he.reads.subset hf
      have hclosed : Closed removed (f.members none) := fun b id fs hb => he.closed b id fs (hf hb)
      rw [idsAll_cons, List.nodup_append] at hn
      obtain ⟨hnf, hnfs, hdisjoint⟩ := hn
      rw [List.flatMap_cons]
      rcases List.mem_append.mp hmem with hmem | hmem
      · have hids : t.id ∈ f.ids := by
          rw [← map_id_members none]
          exact List.mem_map.mpr ⟨_, hmem, rfl⟩
        rw [if_neg fun hr => hlive (ids_removed hclosed hr _ hids)]
        exact blockParent_walk (c := none) rfl hreads.kinds hclosed hmem hlive hnf _
      · have hids : t.id ∉ f.ids := fun hin => hdisjoint _ hin _ (mem_idsAll_of_mem hmem) rfl
        split
        · exact ih hfs hnfs hmem
        · rw [blockParent_of_notMem hreads.kinds hids]
          exact ih hfs hnfs hmem
  exact hgen forest (fun f hf => membersAll_subset (mem_membersAll_of_mem hf)) hnodup ht

/-! ### One removal -/

/-- A block all of whose filters have been removed has been removed, `x` apart. -/
def Saturated (forest : List Tree) (removed : List Nat) (x : Option Nat) : Prop :=
  ∀ b id fs, (b, Tree.block id fs) ∈ membersAll none forest → fs ≠ [] →
    (∀ f ∈ fs, f.id ∈ removed) → some id ≠ x → id ∈ removed

/-- It holds of a block if it holds of one of its filters. -/
def Upward (forest : List Tree) (P : Nat → Prop) : Prop :=
  ∀ b id fs, (b, Tree.block id fs) ∈ membersAll none forest → ∀ f ∈ fs, P f.id → P id

theorem deadAll_iff {fs : List Tree} : deadAll fs = true ↔ ∀ f ∈ fs, f.dead = true := by
  induction fs with
  | nil => simp [deadAll]
  | cons f fs ih => simp [deadAll, ih]

theorem dead_block {id : Nat} {fs : List Tree} :
    (Tree.block id fs).dead = true ↔ fs ≠ [] ∧ ∀ f ∈ fs, f.dead = true := by
  simp [Tree.dead, deadAll_iff]

theorem Edited.remove (hnodup : (idsAll forest).Nodup) (he : Edited forest h removed)
    {b : Option Nat} {t : Tree} (ht : (b, t) ∈ membersAll none forest) (hdead : t.dead = true)
    (hempty : ∀ id fs, t = .block id fs → ∀ f ∈ fs, f.id ∈ removed) :
    Edited forest (h.remove b t.id) (t.id :: removed) := by
  refine ⟨he.kinds, fun b' fs hb' => ?_, fun b' id fs hb' hid f hf => ?_, fun m hm hid => ?_⟩
  · have hfilters : (h.remove b t.id).filters b' =
        if b' = b then (h.filters b').erase t.id else h.filters b' := rfl
    rw [hfilters, he.filters b' fs hb']
    split
    · rw [((hb'.nodup hnodup).filter _).erase_eq_filter, List.filter_filter]
      refine List.filter_congr fun i _ => ?_
      rw [Bool.eq_iff_iff]
      simp [not_or]
    · rename_i hne
      refine List.filter_congr fun i hi => ?_
      obtain ⟨f, hf, rfl⟩ := List.mem_map.mp hi
      have hid : f.id ≠ t.id := fun heq =>
        hne (congrArg Prod.fst (unique hnodup (hb'.mem hf) ht heq))
      simp [hid]
  · rcases List.mem_cons.mp hid with hid | hid
    · obtain ⟨-, rfl⟩ := Prod.mk.inj (unique hnodup hb' ht hid)
      exact List.mem_cons_of_mem _ (hempty id fs rfl f hf)
    · exact List.mem_cons_of_mem _ (he.closed b' id fs hb' hid f hf)
  · rcases List.mem_cons.mp hid with hid | hid
    · rw [unique hnodup hm ht hid]
      exact hdead
    · exact he.dead m hm hid

theorem Saturated.remove (hnodup : (idsAll forest).Nodup) {b : Option Nat} {t : Tree}
    (ht : (b, t) ∈ membersAll none forest) (hs : Saturated forest removed (some t.id)) :
    Saturated forest (t.id :: removed) b := by
  intro b' id fs hb' hne hall hid
  have hold : ∀ f ∈ fs, f.id ∈ removed := by
    intro f hf
    refine (List.mem_cons.mp (hall f hf)).resolve_left fun heq => hid ?_
    exact congrArg Prod.fst (unique hnodup (mem_of_block hb' hf) ht heq)
  by_cases heq : id = t.id
  · exact heq ▸ List.mem_cons_self
  · exact List.mem_cons_of_mem _ (hs b' id fs hb' hne hold fun he => heq (Option.some.inj he))

/-- What one removal takes out: the filter, and the blocks around it that it leaves empty. -/
structure Removal (forest : List Tree) (removed : List Nat) (x : Nat) (h' : Heap)
    (removed' : List Nat) : Prop where
  edited : Edited forest h' removed'
  saturated : Saturated forest removed' none
  subset : removed ⊆ removed'
  mem : x ∈ removed'
  least : ∀ P : Nat → Prop, Upward forest P → (∀ i ∈ removed, P i) → P x → ∀ i ∈ removed', P i

theorem length_live_lt {t : Tree} (ht : t.id ∈ idsAll forest) (hlive : t.id ∉ removed) :
    ((idsAll forest).filter (· ∉ t.id :: removed)).length <
      ((idsAll forest).filter (· ∉ removed)).length := by
  have hfilter : (idsAll forest).filter (· ∉ t.id :: removed) =
      ((idsAll forest).filter (· ∉ removed)).filter (· ≠ t.id) := by
    rw [List.filter_filter]
    refine List.filter_congr fun i _ => ?_
    simp [not_or]
  rw [hfilter, List.length_filter_lt_length_iff_exists]
  exact ⟨t.id, List.mem_filter.mpr ⟨ht, by simpa using hlive⟩, by simp⟩

theorem Edited.block_eq_nil_iff (he : Edited forest h removed) {c : Option Nat} {g : Nat}
    {fs : List Tree} (hblock : (c, Tree.block g fs) ∈ membersAll none forest) :
    h.filters (some g) = [] ↔ ∀ f ∈ fs, f.id ∈ removed := by
  rw [he.filters (some g) fs (Or.inr ⟨c, g, rfl, hblock⟩), List.filter_eq_nil_iff,
    List.forall_mem_map]
  simp only [decide_not, Bool.not_eq_true', decide_eq_false_iff_not, not_not]

theorem exists_block {g : Nat} {t : Tree} (ht : (some g, t) ∈ membersAll none forest) :
    ∃ c fs, (c, Tree.block g fs) ∈ membersAll none forest ∧ t ∈ fs := by
  obtain ⟨fs, hfs, hmem⟩ := exists_isBlock ht
  rcases hfs with ⟨hg, -⟩ | ⟨c, id, hid, hblock⟩
  · cases hg
  · cases hid
    exact ⟨c, fs, hblock, hmem⟩

theorem Saturated.kept (hnodup : (idsAll forest).Nodup) {c : Option Nat} {g : Nat} {fs : List Tree}
    (hs : Saturated forest removed (some g))
    (hblock : (c, Tree.block g fs) ∈ membersAll none forest)
    (hkept : ¬ ∀ f ∈ fs, f.id ∈ removed) : Saturated forest removed none := by
  intro b id fs' hb hne hall _
  refine hs b id fs' hb hne hall fun heq => hkept ?_
  cases heq
  obtain ⟨-, hfs⟩ := Prod.mk.inj (unique hnodup hb hblock rfl)
  cases hfs
  exact hall

/-- **Removing a filter** also removes the blocks that it leaves empty, and no other filter. -/
theorem removeFilter_spec (hnodup : (idsAll forest).Nodup) {k : Nat}
    (hk : ((idsAll forest).filter (· ∉ removed)).length ≤ k) (he : Edited forest h removed)
    {b : Option Nat} {t : Tree} (ht : (b, t) ∈ membersAll none forest) (hlive : t.id ∉ removed)
    (hdead : t.dead = true) (hempty : ∀ id fs, t = .block id fs → ∀ f ∈ fs, f.id ∈ removed)
    (hs : Saturated forest removed (some t.id)) {n : Nat}
    (hn : 2 * (idsAll forest).length + k ≤ n) :
    ∃ h' removed', removeFilter n h t.id = some h' ∧ Removal forest removed t.id h' removed' := by
  induction k generalizing h removed b t n with
  | zero =>
    have hlt := length_live_lt (mem_idsAll_of_mem ht) hlive
    omega
  | succ k ih =>
    obtain ⟨n, rfl⟩ := Nat.exists_eq_add_of_lt (show 0 < n by omega)
    rw [Nat.zero_add] at hn ⊢
    have hparent := getBlockParent_spec hnodup he ht hlive (n := n) (by omega)
    have he' := he.remove hnodup ht hdead hempty
    have hs' := hs.remove hnodup ht
    have hcons : ∀ P : Nat → Prop, (∀ i ∈ removed, P i) → P t.id → ∀ i ∈ t.id :: removed, P i :=
      fun P hold hx => List.forall_mem_cons.mpr ⟨hx, hold⟩
    cases b with
    | none =>
      refine ⟨h.remove none t.id, t.id :: removed, ?_, he', hs', List.subset_cons_self _ _,
        List.mem_cons_self, fun P _ => hcons P⟩
      rw [removeFilter, hparent]
      rfl
    | some g =>
      obtain ⟨c, fs, hblock, hmem⟩ := exists_block ht
      have hrun : removeFilter (n + 1) h t.id =
          if (h.remove (some g) t.id).filters (some g) = [] then
            removeFilter n (h.remove (some g) t.id) g
          else some (h.remove (some g) t.id) := by
        rw [removeFilter, hparent]
        rfl
      rw [hrun]
      split
      · rename_i hnil
        -- the block is left empty, and is removed from its own block
        have hempty' := (he'.block_eq_nil_iff hblock).mp hnil
        have hg : g ∉ t.id :: removed := by
          rw [List.mem_cons, not_or]
          exact ⟨(id_ne_of_block hnodup hblock hmem).symm,
            fun hg => hlive (he.closed c g fs hblock hg t hmem)⟩
        have hdead' : (Tree.block g fs).dead = true :=
          dead_block.mpr ⟨List.ne_nil_of_mem hmem, fun f hf =>
            he'.dead _ (mem_of_block hblock hf) (hempty' f hf)⟩
        have hlt := length_live_lt (mem_idsAll_of_mem ht) hlive
        obtain ⟨h', removed', hrem, hr⟩ := ih (t := .block g fs) (n := n) (by omega) he' hblock hg
          hdead' (fun id' fs' heq => by cases heq; exact hempty') hs' (by omega)
        refine ⟨h', removed', hrem, hr.edited, hr.saturated,
          List.Subset.trans (List.subset_cons_self _ _) hr.subset, hr.subset List.mem_cons_self,
          fun P hup hold hx => hr.least P hup (hcons P hold hx) (hup c g fs hblock t hmem hx)⟩
      · rename_i hnil
        exact ⟨_, t.id :: removed, rfl, he',
          hs'.kept hnodup hblock (mt (he'.block_eq_nil_iff hblock).mpr hnil),
          List.subset_cons_self _ _, List.mem_cons_self, fun P _ => hcons P⟩

/-! ### The loop -/

theorem exists_member {c b : Option Nat} {t u : Tree} (h : (c, u) ∈ t.members b) (b' : Option Nat) :
    ∃ c', (c', u) ∈ t.members b' := by
  cases t with
  | leaf id event =>
    obtain ⟨-, rfl⟩ := Prod.mk.inj (List.mem_singleton.mp h)
    exact ⟨b', mem_members_self _ _⟩
  | block id fs =>
    rw [mem_members_block] at h
    rcases h with h | h
    · obtain ⟨-, rfl⟩ := Prod.mk.inj h
      exact ⟨b', mem_members_self _ _⟩
    · refine ⟨c, ?_⟩
      exact members_block_subset _ _ _ h

/-- The trees that are still to be walked over: none of their filters has been removed, and no
other event filter is left. -/
structure Pending (forest : List Tree) (removed : List Nat) (ts : List Tree) : Prop where
  members : ∀ t ∈ ts, ∃ b, (b, t) ∈ membersAll none forest
  fresh : ∀ i ∈ idsAll ts, i ∉ removed
  nodup : (idsAll ts).Nodup
  events : ∀ b id, (b, Tree.leaf id true) ∈ membersAll none forest → id ∈ removed ∨ id ∈ idsAll ts

theorem upward_not_mem (hnodup : (idsAll forest).Nodup) {ts : List Tree}
    (hts : ∀ t ∈ ts, ∃ b, (b, t) ∈ membersAll none forest) : Upward forest (· ∉ idsAll ts) := by
  intro b id fs hblock f hf hout hin
  rw [idsAll, List.mem_map] at hin
  obtain ⟨m, hm, hid⟩ := hin
  obtain ⟨t, ht, hmt⟩ := mem_membersAll.mp (show (m.1, m.2) ∈ membersAll none ts from hm)
  obtain ⟨b', ht'⟩ := hts t ht
  obtain ⟨c, hc⟩ := exists_member hmt b'
  obtain ⟨-, hu⟩ := Prod.mk.inj (unique hnodup (membersAll_subset ht' hc) hblock hid)
  have hblock' : (m.1, Tree.block id fs) ∈ membersAll none ts := hu ▸ hm
  exact hout (mem_idsAll_of_mem (mem_of_block hblock' hf))

theorem idsAll_append (fs gs : List Tree) : idsAll (fs ++ gs) = idsAll fs ++ idsAll gs := by
  rw [idsAll_eq, idsAll_eq, idsAll_eq, List.flatMap_append]

theorem perm_idsAll_block (id : Nat) (fs ts : List Tree) :
    (idsAll (Tree.block id fs :: ts)).Perm (id :: idsAll (fs.reverse ++ ts)) := by
  have hreverse : (idsAll fs).Perm (idsAll fs.reverse) := by
    rw [idsAll_eq, idsAll_eq]
    exact (List.reverse_perm fs).symm.flatMap_right _
  rw [idsAll_cons, ids_block, idsAll_append, List.cons_append]
  exact (hreverse.append_right _).cons id

section Steps

variable {ts : List Tree}

theorem Pending.head_fresh {t : Tree} (hp : Pending forest removed (t :: ts)) : t.id ∉ removed :=
  hp.fresh t.id (mem_idsAll_of_mem (mem_membersAll_of_mem (b := none) List.mem_cons_self))

theorem idsAll_leaf (id : Nat) (event : Bool) :
    idsAll (Tree.leaf id event :: ts) = id :: idsAll ts := by
  rw [idsAll_cons]
  rfl

theorem Pending.events_tail {id : Nat} {event : Bool}
    (hp : Pending forest removed (Tree.leaf id event :: ts)) {b : Option Nat} {i : Nat}
    (hi : (b, Tree.leaf i true) ∈ membersAll none forest) : i ∈ removed ∨ i = id ∨ i ∈ idsAll ts := by
  have h := hp.events b i hi
  rwa [idsAll_leaf, List.mem_cons] at h

theorem Pending.other (hnodup : (idsAll forest).Nodup) {id : Nat} {b : Option Nat}
    (ht : (b, Tree.leaf id false) ∈ membersAll none forest)
    (hp : Pending forest removed (Tree.leaf id false :: ts)) : Pending forest removed ts := by
  have hnd := hp.nodup
  rw [idsAll_leaf, List.nodup_cons] at hnd
  refine ⟨(List.forall_mem_cons.mp hp.members).2, fun i hi => hp.fresh i ?_, hnd.2,
    fun b' i hi => ?_⟩
  · rw [idsAll_leaf]
    exact List.mem_cons_of_mem _ hi
  · rcases hp.events_tail hi with h | rfl | h
    · exact Or.inl h
    · cases unique hnodup hi ht rfl
    · exact Or.inr h

theorem Pending.event (hnodup : (idsAll forest).Nodup) {id : Nat} {h' : Heap} {removed' : List Nat}
    (hp : Pending forest removed (Tree.leaf id true :: ts))
    (hr : Removal forest removed id h' removed') : Pending forest removed' ts := by
  have hnd := hp.nodup
  rw [idsAll_leaf, List.nodup_cons] at hnd
  have hts := (List.forall_mem_cons.mp hp.members).2
  have hfresh : ∀ i ∈ removed', i ∉ idsAll ts := by
    refine hr.least _ (upward_not_mem hnodup hts) (fun i hi hin => hp.fresh i ?_ hi) hnd.1
    rw [idsAll_leaf]
    exact List.mem_cons_of_mem _ hin
  refine ⟨hts, fun i hi hrem => hfresh i hrem hi, hnd.2, fun b i hi => ?_⟩
  rcases hp.events_tail hi with h | rfl | h
  · exact Or.inl (hr.subset h)
  · exact Or.inl hr.mem
  · exact Or.inr h

theorem Pending.block (hnodup : (idsAll forest).Nodup) {id : Nat} {fs : List Tree} {b : Option Nat}
    (ht : (b, Tree.block id fs) ∈ membersAll none forest)
    (hp : Pending forest removed (Tree.block id fs :: ts)) :
    Pending forest removed (fs.reverse ++ ts) := by
  have hperm := perm_idsAll_block id fs ts
  have hnd := hperm.nodup_iff.mp hp.nodup
  rw [List.nodup_cons] at hnd
  refine ⟨fun t ht' => ?_, fun i hi => hp.fresh i
    (hperm.mem_iff.mpr (List.mem_cons_of_mem _ hi)), hnd.2, fun b' i hi => ?_⟩
  · rcases List.mem_append.mp ht' with ht' | ht'
    · exact ⟨some id, mem_of_block ht (List.mem_reverse.mp ht')⟩
    · exact hp.members t (List.mem_cons_of_mem _ ht')
  · refine (hp.events b' i hi).imp_right fun hmem => ?_
    refine (List.mem_cons.mp (hperm.mem_iff.mp hmem)).resolve_left ?_
    rintro rfl
    cases unique hnodup hi ht rfl

theorem Pending.filters_block (he : Edited forest h removed) {id : Nat} {fs : List Tree}
    {b : Option Nat} (ht : (b, Tree.block id fs) ∈ membersAll none forest)
    (hp : Pending forest removed (Tree.block id fs :: ts)) :
    h.filters (some id) = fs.map Tree.id := by
  rw [he.filters (some id) fs (Or.inr ⟨b, id, rfl, ht⟩), List.filter_eq_self]
  intro i hi
  obtain ⟨f, hf, rfl⟩ := List.mem_map.mp hi
  refine decide_eq_true (hp.fresh _ ((perm_idsAll_block id fs ts).mem_iff.mpr
    (List.mem_cons_of_mem _ ?_)))
  rw [idsAll_append]
  exact List.mem_append_left _ (mem_idsAll_of_mem
    (mem_membersAll_of_mem (b := none) (List.mem_reverse.mpr hf)))

theorem trimLoop_other (n : Nat) {id : Nat} (hkind : h.kind id = .other) :
    trimLoop (n + 1) h ((Tree.leaf id false :: ts).map fun t => some t.id) =
      trimLoop n h (ts.map fun t => some t.id) := by
  have hqueue : ∀ queue, expand h false queue (some id) = queue :=
    fun queue => if_neg (by rw [hkind]; decide)
  rw [List.map_cons, trimLoop, Tree.id, hqueue, if_neg (by rw [hkind]; decide)]
  rfl

theorem trimLoop_event {n : Nat} {id : Nat} {h' : Heap} (hkind : h.kind id = .event)
    (hrem : removeFilter n h id = some h') :
    trimLoop (n + 1) h ((Tree.leaf id true :: ts).map fun t => some t.id) =
      trimLoop n h' (ts.map fun t => some t.id) := by
  have hqueue : ∀ queue, expand h false queue (some id) = queue :=
    fun queue => if_neg (by rw [hkind]; decide)
  rw [List.map_cons, trimLoop, Tree.id, hqueue, if_pos hkind, hrem]
  rfl

theorem trimLoop_block (n : Nat) {id : Nat} {fs : List Tree} (hkind : h.kind id = .block)
    (hfilters : h.filters (some id) = fs.map Tree.id) :
    trimLoop (n + 1) h ((Tree.block id fs :: ts).map fun t => some t.id) =
      trimLoop n h ((fs.reverse ++ ts).map fun t => some t.id) := by
  have hqueue : expand h false (ts.map fun t => some t.id) (some id) =
      (fs.reverse ++ ts).map fun t => some t.id := by
    rw [expand, if_pos hkind, hfilters]
    simp [List.map_reverse]
  rw [List.map_cons, trimLoop, Tree.id, hqueue, if_neg (by rw [hkind]; decide)]
  rfl

end Steps

/-- **The walk** removes all event filters and the blocks that are left empty, though it goes over
lists that it edits: what is still to be walked over has not been edited. -/
theorem trimLoop_spec (hnodup : (idsAll forest).Nodup) {k : Nat} {ts : List Tree}
    (hk : (idsAll ts).length ≤ k) (he : Edited forest h removed)
    (hs : Saturated forest removed none) (hp : Pending forest removed ts) {n : Nat}
    (hn : 3 * (idsAll forest).length + k ≤ n) :
    ∃ h' removed', trimLoop n h (ts.map fun t => some t.id) = some h' ∧
      Edited forest h' removed' ∧ Saturated forest removed' none ∧
      ∀ b id, (b, Tree.leaf id true) ∈ membersAll none forest → id ∈ removed' := by
  have hdone : ∀ {n removed h}, Edited forest h removed → Saturated forest removed none →
      Pending forest removed [] → ∃ h' removed', trimLoop n h [] = some h' ∧
        Edited forest h' removed' ∧ Saturated forest removed' none ∧
        ∀ b id, (b, Tree.leaf id true) ∈ membersAll none forest → id ∈ removed' :=
    fun {n} {removed} {h} he hs hp => ⟨h, removed, by cases n <;> rfl, he, hs,
      fun b id hid => (hp.events b id hid).resolve_right List.not_mem_nil⟩
  induction k generalizing h removed ts n with
  | zero =>
    cases ts with
    | nil => exact hdone he hs hp
    | cons t ts =>
      have hpos := List.length_pos_of_mem (mem_idsAll_of_mem
        (mem_membersAll_of_mem (b := none) (List.mem_cons_self (a := t) (l := ts))))
      omega
  | succ k ih =>
    cases ts with
    | nil => exact hdone he hs hp
    | cons t ts =>
      obtain ⟨n, rfl⟩ := Nat.exists_eq_add_of_lt (show 0 < n by omega)
      rw [Nat.zero_add] at hn ⊢
      obtain ⟨b, ht⟩ := hp.members t List.mem_cons_self
      have hkind := he.kinds _ ht
      cases t with
      | leaf id event =>
        rw [idsAll_leaf, List.length_cons] at hk
        cases event with
        | false =>
          rw [trimLoop_other n (show h.kind id = .other from hkind)]
          exact ih (by omega) he hs (hp.other hnodup ht) (by omega)
        | true =>
          obtain ⟨h', removed', hrem, hr⟩ := removeFilter_spec hnodup (List.length_filter_le _ _) he
            ht hp.head_fresh rfl (fun id fs heq => by cases heq) (fun b id fs hb hne hall _ =>
              hs b id fs hb hne hall (by simp)) (n := n) (by omega)
          rw [trimLoop_event (show h.kind id = .event from hkind) hrem]
          exact ih (by omega) hr.edited hr.saturated (hp.event hnodup hr) (by omega)
      | block id fs =>
        have hlen := (perm_idsAll_block id fs ts).length_eq
        rw [List.length_cons] at hlen
        rw [trimLoop_block n (show h.kind id = .block from hkind) (hp.filters_block he ht)]
        exact ih (by omega) he hs (hp.block hnodup ht) (by omega)

end Manager

/-! ## The filters that remain -/

theorem trim_id (t : Tree) : t.trim.id = t.id := by
  cases t <;> rfl

theorem mem_trimAll {fs : List Tree} {u : Tree} :
    u ∈ trimAll fs ↔ ∃ t ∈ fs, t.dead = false ∧ u = t.trim := by
  induction fs with
  | nil => simp [trimAll]
  | cons f fs ih =>
    rw [trimAll]
    cases hf : f.dead with
    | true => simp [ih, hf]
    | false => simp [ih, hf]

theorem trimAll_eq_nil {fs : List Tree} : trimAll fs = [] ↔ ∀ f ∈ fs, f.dead = true := by
  rw [List.eq_nil_iff_forall_not_mem]
  constructor
  · intro h f hf
    cases hdead : f.dead with
    | true => rfl
    | false => exact absurd (mem_trimAll.mpr ⟨f, hf, hdead, rfl⟩) (h f.trim)
  · intro h u hu
    obtain ⟨t, ht, hdead, -⟩ := mem_trimAll.mp hu
    rw [h t ht] at hdead
    cases hdead

theorem mem_members_trim {c b : Option Nat} {t u : Tree} (ht : t.dead = false)
    (h : (c, u) ∈ t.trim.members b) : ∃ v, (c, v) ∈ t.members b ∧ v.dead = false ∧ u = v.trim := by
  induction t using Tree.induct generalizing b with
  | leaf id event =>
    obtain ⟨rfl, rfl⟩ := Prod.mk.inj (List.mem_singleton.mp h)
    exact ⟨_, mem_members_self _ _, ht, rfl⟩
  | block id fs ih =>
    rw [trim, members, List.mem_cons] at h
    rcases h with h | h
    · obtain ⟨rfl, rfl⟩ := Prod.mk.inj h
      exact ⟨_, mem_members_self _ _, ht, rfl⟩
    · obtain ⟨f', hf', h⟩ := mem_membersAll.mp h
      obtain ⟨f, hf, hdead, rfl⟩ := mem_trimAll.mp hf'
      obtain ⟨v, hv, hvdead, hu⟩ := ih f hf hdead h
      exact ⟨v, members_block b id fs hf hv, hvdead, hu⟩

theorem mem_membersAll_trimAll {c b : Option Nat} {forest : List Tree} {u : Tree}
    (h : (c, u) ∈ membersAll b (trimAll forest)) :
    ∃ v, (c, v) ∈ membersAll b forest ∧ v.dead = false ∧ u = v.trim := by
  obtain ⟨f', hf', h⟩ := mem_membersAll.mp h
  obtain ⟨f, hf, hdead, rfl⟩ := mem_trimAll.mp hf'
  obtain ⟨v, hv, hvdead, hu⟩ := mem_members_trim hdead h
  exact ⟨v, mem_membersAll.mpr ⟨f, hf, hv⟩, hvdead, hu⟩

theorem leaves_of_dead {t : Tree} (ht : t.dead = true) (chain : List Nat) :
    (t.leaves chain).filter (fun l => !l.2.2) = [] := by
  induction t using Tree.induct generalizing chain with
  | leaf id event =>
    have hevent : event = true := ht
    simp [leaves, hevent]
  | block id fs ih =>
    have hall := (dead_block.mp ht).2
    rw [leaves]
    clear ht
    induction fs with
    | nil => rfl
    | cons f fs ihfs =>
      rw [List.forall_mem_cons] at ih hall
      rw [leavesAll, List.filter_append, ih.1 hall.1, ihfs ih.2 hall.2, List.nil_append]

theorem leavesAll_trimAll_of {fs : List Tree} {chain : List Nat}
    (h : ∀ f ∈ fs, f.dead = false →
      f.trim.leaves chain = (f.leaves chain).filter fun l => !l.2.2) :
    leavesAll chain (trimAll fs) = (leavesAll chain fs).filter fun l => !l.2.2 := by
  induction fs with
  | nil => rfl
  | cons f fs ih =>
    rw [List.forall_mem_cons] at h
    rw [trimAll, leavesAll, List.filter_append, ← ih h.2]
    cases hdead : f.dead with
    | true =>
      rw [leaves_of_dead hdead]
      rfl
    | false =>
      rw [← h.1 hdead]
      rfl

theorem leaves_trim {t : Tree} (ht : t.dead = false) (chain : List Nat) :
    t.trim.leaves chain = (t.leaves chain).filter fun l => !l.2.2 := by
  induction t using Tree.induct generalizing chain with
  | leaf id event =>
    have hevent : event = false := ht
    simp [trim, leaves, hevent]
  | block id fs ih =>
    rw [trim, leaves, leaves]
    exact leavesAll_trimAll_of fun f hf hdead => ih f hf hdead (id :: chain)

theorem trimmed_trimAll (forest : List Tree) : Trimmed forest (trimAll forest) := by
  refine ⟨fun m hm => ?_, fun b id hb => ?_,
    leavesAll_trimAll_of fun f _ hdead => leaves_trim hdead []⟩
  · obtain ⟨v, -, hdead, hu⟩ := mem_membersAll_trimAll (show (m.1, m.2) ∈ _ from hm)
    rw [hu]
    cases v with
    | leaf id event =>
      have hevent : event = false := hdead
      simp [trim, kind, hevent]
    | block id fs => simp [trim, kind]
  · obtain ⟨v, hv, hdead, hu⟩ := mem_membersAll_trimAll hb
    cases v with
    | leaf id' event => cases hu
    | block id' fs =>
      simp only [trim, Tree.block.injEq] at hu
      obtain ⟨rfl, hnil⟩ := hu
      have hall := trimAll_eq_nil.mp hnil.symm
      cases fs with
      | nil => exact hv
      | cons f fs =>
        rw [dead_block.mpr ⟨List.cons_ne_nil f fs, hall⟩] at hdead
        cases hdead

theorem mem_removed_iff {forest : List Tree} {h : Heap} {removed : List Nat}
    (he : Edited forest h removed) (hs : Saturated forest removed none)
    (hevents : ∀ b id, (b, Tree.leaf id true) ∈ membersAll none forest → id ∈ removed)
    {b : Option Nat} {t : Tree} (ht : (b, t) ∈ membersAll none forest) :
    t.id ∈ removed ↔ t.dead = true := by
  refine ⟨he.dead _ ht, fun hdead => ?_⟩
  induction t using Tree.induct generalizing b with
  | leaf id event =>
    have hevent : event = true := hdead
    exact hevents b id (hevent ▸ ht)
  | block id fs ih =>
    obtain ⟨hne, hall⟩ := dead_block.mp hdead
    exact hs b id fs ht hne (fun f hf => ih f hf (mem_of_block ht hf) (hall f hf)) (by simp)

theorem holds_trimAll {forest : List Tree} {h : Heap} {removed : List Nat}
    (he : Edited forest h removed) (hs : Saturated forest removed none)
    (hevents : ∀ b id, (b, Tree.leaf id true) ∈ membersAll none forest → id ∈ removed) :
    Holds h (trimAll forest) := by
  have hfilter : ∀ b fs, IsBlock forest b fs →
      (fs.map Tree.id).filter (· ∉ removed) = (trimAll fs).map Tree.id := by
    intro b fs hfs
    have hdead : ∀ f ∈ fs, (f.id ∈ removed ↔ f.dead = true) :=
      fun f hf => mem_removed_iff he hs hevents (hfs.mem hf)
    clear hfs
    induction fs with
    | nil => rfl
    | cons f fs ih =>
      rw [List.forall_mem_cons] at hdead
      rw [trimAll, List.map_cons]
      by_cases hf : f.dead = true
      · rw [if_pos hf, List.filter_cons_of_neg (by simpa using hdead.1.mpr hf), ih hdead.2]
      · rw [if_neg hf, List.filter_cons_of_pos (by simpa using mt hdead.1.mp hf), ih hdead.2,
          List.map_cons, trim_id]
  refine ⟨fun b gs hgs => ?_, fun m hm => ?_⟩
  · have hblock : ∃ fs, IsBlock forest b fs ∧ gs = trimAll fs := by
      rcases hgs with ⟨rfl, rfl⟩ | ⟨c, id, rfl, hb⟩
      · exact ⟨forest, Or.inl ⟨rfl, rfl⟩, rfl⟩
      · obtain ⟨v, hv, -, hu⟩ := mem_membersAll_trimAll hb
        cases v with
        | leaf id' event => cases hu
        | block id' fs =>
          simp only [trim, Tree.block.injEq] at hu
          obtain ⟨rfl, rfl⟩ := hu
          exact ⟨fs, Or.inr ⟨c, id, rfl, hv⟩, rfl⟩
    obtain ⟨fs, hfs, rfl⟩ := hblock
    rw [he.filters b fs hfs, hfilter b fs hfs]
  · obtain ⟨v, hv, -, hu⟩ := mem_membersAll_trimAll (show (m.1, m.2) ∈ _ from hm)
    rw [hu, trim_id, show h.kind v.id = v.kind from he.kinds _ hv]
    cases v <;> rfl

/-- **Event filters.**  A filter finds the block that directly contains it, and after `trim_runtime`
the manager has the filters without the event filters and the blocks that these leave empty. -/
theorem trimRuntime_spec (forest : List Tree) (h : Heap) (hh : Holds h forest)
    (hnodup : (idsAll forest).Nodup) :
    (∀ b t, (b, t) ∈ membersAll none forest →
      ∀ n ≥ 2 * (idsAll forest).length, getBlockParent n h t.id = some b) ∧
    ∀ n ≥ 4 * (idsAll forest).length, ∃ h' forest', trimRuntime n h = some h' ∧
      Holds h' forest' ∧ Trimmed forest forest' := by
  refine ⟨fun b t ht n hn => getBlockParent_spec hnodup hh.edited ht List.not_mem_nil hn,
    fun n hn => ?_⟩
  have hsat : Saturated forest [] none := by
    intro b id fs _ hne hall _
    obtain ⟨f, hf⟩ := List.exists_mem_of_ne_nil fs hne
    exact absurd (hall f hf) List.not_mem_nil
  have hpending : Pending forest [] forest :=
    ⟨fun t ht => ⟨none, mem_membersAll_of_mem ht⟩, fun i _ => List.not_mem_nil, hnodup,
      fun b id hid => Or.inr (mem_idsAll_of_mem hid)⟩
  obtain ⟨h', removed, hrun, he, hs, hevents⟩ := trimLoop_spec hnodup (Nat.le_refl _) hh.edited hsat
    hpending (n := n) (by omega)
  refine ⟨h', trimAll forest, ?_, holds_trimAll he hs hevents, trimmed_trimAll forest⟩
  rw [trimRuntime, hh.filters none forest (Or.inl ⟨rfl, rfl⟩), List.map_map]
  exact hrun

/-! ## An example -/

/-- Two event filters in a block that is left empty, in a block that is not. -/
def nested : List Tree :=
  [.block 1 [.block 2 [.leaf 3 true, .leaf 4 true], .leaf 5 false, .leaf 6 true], .leaf 7 true]

/-- The filters and lists of these trees. -/
def nestedHeap : Heap where
  kind i := if i = 1 ∨ i = 2 then .block else if i = 5 then .other else .event
  filters
    | none => [1, 7]
    | some 1 => [2, 5, 6]
    | some 2 => [3, 4]
    | some _ => []

theorem nested_holds : Holds nestedHeap nested := by
  have hblocks : ∀ m ∈ membersAll none nested, nestedHeap.kind m.2.id = m.2.kind ∧
      ∀ id fs, m.2 = .block id fs → nestedHeap.filters (some id) = fs.map Tree.id := by
    simp [nested, membersAll, members, nestedHeap, Tree.id, kind]
  refine ⟨?_, fun m hm => (hblocks m hm).1⟩
  rintro b fs (⟨rfl, rfl⟩ | ⟨c, id, rfl, hb⟩)
  · rfl
  · exact (hblocks _ hb).2 id fs rfl

theorem nested_trimmed : (idsAll nested).Nodup ∧ Holds nestedHeap nested ∧
    ∃ h' forest', trimRuntime 28 nestedHeap = some h' ∧ Holds h' forest' ∧ Trimmed nested forest' :=
  ⟨by decide, nested_holds, (trimRuntime_spec nested nestedHeap nested_holds (by decide)).2 28
    (by decide)⟩

end Custodian.TrimRuntime

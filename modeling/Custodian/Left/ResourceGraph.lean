import Custodian.Lib.Text
import Mathlib.Data.List.Dedup

/-!
# The references of a resource graph

`Resolver` of `c7n_left/providers/terraform/graph.py`: the references that `visit` records and the
blocks that `resolve_refs` finds.
-/

namespace Custodian.ResourceGraph

open Py

/-! ## Blocks -/

/-- `__tfmeta` of a block; `references` are the ids under that key. -/
structure Meta where
  label : Option Text
  isData : Bool
  references : List Text

/-- A value of the parsed files.  The keys `id` and `__tfmeta` of a block are kept apart. -/
inductive Value where
  | text (s : Text)
  | scalar
  | dict (id : Option Text) (tfmeta : Option Meta) (items : List (Text × Value))
  | list (entries : List Value)

/-- `is_id_ref` -/
def isIdRef (v : Text) : Bool := v.length = 36 && v.count '-' = 4

def Value.tfmeta : Value → Option Meta
  | .dict _ m _ => m
  | _ => none

/-- `block.get("__tfmeta", {}).get("label")` is there and not empty. -/
def labelled (m : Option Meta) : Bool := (m.bind Meta.label).any (· ≠ [])

/-! ## The visitor -/

/-- What `visit` returns and adds to `_id_map` and `_ref_map`. -/
structure Visit where
  refs : List Text
  ids : List (Text × Value)
  pairs : List (Text × Text)

def Visit.empty : Visit := ⟨[], [], []⟩

def Visit.append (v w : Visit) : Visit := ⟨v.refs ++ w.refs, v.ids ++ w.ids, v.pairs ++ w.pairs⟩

mutual

/-- `visit`.  A block without an id is filed under no id that is asked for. -/
def visit : Value → Visit
  | .dict id m items =>
    let v := visitItems items
    let refs := ((m.elim [] Meta.references) ++ v.refs).dedup
    ⟨refs, (id.map fun bid => (bid, .dict id m items)).toList ++ v.ids,
      v.pairs ++ if labelled m then id.elim [] (fun bid => refs.map (fun r => (bid, r)) ++
        refs.map fun r => (r, bid)) else []⟩
  | .text _ => .empty
  | .scalar => .empty
  | .list _ => .empty

/-- The loop over the items of a block. -/
def visitItems : List (Text × Value) → Visit
  | [] => .empty
  | (_, .text s) :: items =>
    .append ⟨if isIdRef s then [s] else [], [], []⟩ (visitItems items)
  | (_, .scalar) :: items => visitItems items
  | (_, .dict id m inner) :: items => .append (visit (.dict id m inner)) (visitItems items)
  | (_, .list entries) :: items => .append (visitEntries entries) (visitItems items)

/-- The loop over the entries of a list, whose references are not kept. -/
def visitEntries : List Value → Visit
  | [] => .empty
  | v :: entries => .append { visit v with refs := [] } (visitEntries entries)

end

/-! ## Looking up references -/

/-- A block of the graph under its id. -/
structure Node where
  id : Text
  block : Value

/-- `_id_map.get(rid)`; a block that is visited later replaces an earlier one. -/
def idMap (graph : Value) (rid : Text) : Option Value := (visit graph).ids.reverse.lookup rid

/-- `_ref_map.get(id, ())` -/
def refMap (graph : Value) (id : Text) : List Text :=
  ((visit graph).pairs.filter fun e => e.1 = id).map Prod.snd

/-- The type of a block, `data.` before it for a data source. -/
def blockType (m : Meta) (label : Text) : Text :=
  if m.isData then "data.".toList ++ label else label

/-- The loop of `resolve_refs`. -/
def pick (graph : Value) (type : Text) : List Text → Except Exn (List Node)
  | [] => .ok []
  | rid :: refs =>
    match idMap graph rid with
    | none => pick graph type refs
    | some r =>
      match r.tfmeta with
      | none => pick graph type refs
      | some m =>
        match m.label with
        | none => .error .keyError
        | some label =>
          if blockType m label = type then do
            let rest ← pick graph type refs
            pure (⟨rid, r⟩ :: rest)
          else pick graph type refs

/-- `resolve_refs` for one type -/
def resolveRefs (graph : Value) (block : Node) (type : Text) : Except Exn (List Node) :=
  pick graph type (refMap graph block.id)

/-! ## References in the blocks -/

mutual

/-- The ids that a value refers to, at any depth. -/
def mentions : Value → List Text
  | .text s => if isIdRef s then [s] else []
  | .scalar => []
  | .dict _ m items => (m.elim [] Meta.references) ++ mentionsItems items
  | .list entries => mentionsEntries entries

def mentionsItems : List (Text × Value) → List Text
  | [] => []
  | (_, v) :: items => mentions v ++ mentionsItems items

def mentionsEntries : List Value → List Text
  | [] => []
  | v :: entries => mentions v ++ mentionsEntries entries

end

mutual

/-- The ids that a block refers to outside of lists, each once. -/
def outside : Value → List Text
  | .dict _ m items => ((m.elim [] Meta.references) ++ outsideItems items).dedup
  | .text _ => []
  | .scalar => []
  | .list _ => []

def outsideItems : List (Text × Value) → List Text
  | [] => []
  | (_, .text s) :: items => (if isIdRef s then [s] else []) ++ outsideItems items
  | (_, .dict id m inner) :: items => outside (.dict id m inner) ++ outsideItems items
  | (_, .scalar) :: items => outsideItems items
  | (_, .list _) :: items => outsideItems items

end

mutual

/-- The labelled blocks with an id: a block, its nested blocks and the blocks in their lists. -/
def blocks : Value → List (Text × Value)
  | .dict id m items => blocksItems items ++
      if labelled m then id.elim [] fun bid => [(bid, .dict id m items)] else []
  | .text _ => []
  | .scalar => []
  | .list _ => []

def blocksItems : List (Text × Value) → List (Text × Value)
  | [] => []
  | (_, .dict id m inner) :: items => blocks (.dict id m inner) ++ blocksItems items
  | (_, .list entries) :: items => blocksEntries entries ++ blocksItems items
  | (_, .text _) :: items => blocksItems items
  | (_, .scalar) :: items => blocksItems items

def blocksEntries : List Value → List (Text × Value)
  | [] => []
  | v :: entries => blocks v ++ blocksEntries entries

end

/-- A recorded reference can be followed both ways. -/
def bothWays (b : Text × Value) : List (Text × Text) :=
  (outside b.2).map (fun r => (b.1, r)) ++ (outside b.2).map fun r => (r, b.1)

theorem visitEntries_refs (entries : List Value) : (visitEntries entries).refs = [] := by
  induction entries with
  | nil => rfl
  | cons v entries ih =>
    rw [visitEntries, Visit.append, ih]
    rfl

mutual

theorem visit_refs : ∀ v : Value, (visit v).refs = outside v
  | .text _ => by rw [visit, outside, Visit.empty]
  | .scalar => by rw [visit, outside, Visit.empty]
  | .list _ => by rw [visit, outside, Visit.empty]
  | .dict id m items => by rw [visit, outside, visitItems_refs items]

theorem visitItems_refs : ∀ items : List (Text × Value),
    (visitItems items).refs = outsideItems items
  | [] => by rw [visitItems, outsideItems]; rfl
  | (_, .text s) :: items => by rw [visitItems, outsideItems, Visit.append, visitItems_refs items]
  | (_, .scalar) :: items => by rw [visitItems, outsideItems, visitItems_refs items]
  | (_, .dict id m inner) :: items => by
    rw [visitItems, outsideItems, Visit.append, visitItems_refs items, visit_refs (.dict id m inner)]
  | (_, .list entries) :: items => by
    rw [visitItems, outsideItems, Visit.append, visitItems_refs items, visitEntries_refs]
    rfl

end

mutual

theorem visit_pairs : ∀ v : Value, (visit v).pairs = (blocks v).flatMap bothWays
  | .text _ => by rw [visit, blocks, Visit.empty, List.flatMap_nil]
  | .scalar => by rw [visit, blocks, Visit.empty, List.flatMap_nil]
  | .list _ => by rw [visit, blocks, Visit.empty, List.flatMap_nil]
  | .dict id m items => by
    rw [visit, blocks, List.flatMap_append, ← visitItems_pairs items, visitItems_refs]
    refine congrArg ((visitItems items).pairs ++ ·) ?_
    cases labelled m with
    | false => rfl
    | true =>
      cases id with
      | none => rfl
      | some bid => simp [bothWays, outside]

theorem visitItems_pairs : ∀ items : List (Text × Value),
    (visitItems items).pairs = (blocksItems items).flatMap bothWays
  | [] => by rw [visitItems, blocksItems]; rfl
  | (_, .text s) :: items => by
    rw [visitItems, blocksItems, ← visitItems_pairs items]
    rfl
  | (_, .scalar) :: items => by rw [visitItems, blocksItems, visitItems_pairs items]
  | (_, .dict id m inner) :: items => by
    rw [visitItems, blocksItems, Visit.append, visitItems_pairs items,
      visit_pairs (.dict id m inner), List.flatMap_append]
  | (_, .list entries) :: items => by
    rw [visitItems, blocksItems, Visit.append, visitItems_pairs items, visitEntries_pairs entries,
      List.flatMap_append]

theorem visitEntries_pairs : ∀ entries : List Value,
    (visitEntries entries).pairs = (blocksEntries entries).flatMap bothWays
  | [] => by rw [visitEntries, blocksEntries]; rfl
  | v :: entries => by
    rw [visitEntries, blocksEntries, Visit.append, visitEntries_pairs entries, visit_pairs v,
      List.flatMap_append]

end

mutual

theorem outside_subset : ∀ v : Value, outside v ⊆ mentions v
  | .text _ => by rw [outside]; exact List.nil_subset _
  | .scalar => by rw [outside]; exact List.nil_subset _
  | .list _ => by rw [outside]; exact List.nil_subset _
  | .dict id m items => by
    rw [outside, mentions]
    intro r hr
    rw [List.mem_dedup, List.mem_append] at hr
    exact List.mem_append.mpr (hr.imp_right fun h => outsideItems_subset items h)

theorem outsideItems_subset : ∀ items : List (Text × Value), outsideItems items ⊆ mentionsItems items
  | [] => by rw [outsideItems]; exact List.nil_subset _
  | (_, .text s) :: items => by
    rw [outsideItems, mentionsItems, mentions]
    exact List.append_subset.mpr ⟨List.subset_append_left _ _,
      List.Subset.trans (outsideItems_subset items) (List.subset_append_right _ _)⟩
  | (_, .scalar) :: items => by
    rw [outsideItems, mentionsItems, mentions, List.nil_append]
    exact outsideItems_subset items
  | (_, .dict id m inner) :: items => by
    rw [outsideItems, mentionsItems]
    exact List.append_subset.mpr
      ⟨List.Subset.trans (outside_subset (.dict id m inner)) (List.subset_append_left _ _),
        List.Subset.trans (outsideItems_subset items) (List.subset_append_right _ _)⟩
  | (_, .list entries) :: items => by
    rw [outsideItems, mentionsItems]
    exact List.Subset.trans (outsideItems_subset items) (List.subset_append_right _ _)

end

end Custodian.ResourceGraph

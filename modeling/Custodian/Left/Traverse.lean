import Custodian.Left.ResourceGraph
import Custodian.Lib.Except
import Mathlib.Data.Set.Card

/-!
# Traversing the resource graph

`Traverse` of `c7n_left/filters.py`: from a resource over a chain of types to the blocks whose
attributes and number are tested.
-/

namespace Custodian.Traverse

open Py ResourceGraph

/-- The filter: the chain of types, the attribute filters together, and the count. -/
structure Filter where
  typeChain : List Text
  attrs : Value → Bool
  count : Option Int
  countOp : Int → Int → Bool

/-- `match_cardinality` -/
def matchCardinality (f : Filter) (matched : Nat) : Bool :=
  match f.count with
  | none => matched ≠ 0
  | some count => f.countOp matched count

/-- `resolve_refs` of the filter, for a working set -/
def resolveAll (graph : Value) (workingSet : List Node) (targetType : Text) :
    Except Exn (List Node) := do
  let refs ← workingSet.mapM fun w => resolveRefs graph w targetType
  pure refs.flatten

/-- The blocks that are matched for one resource. -/
def matchOne (f : Filter) (graph : Value) (r : Node) : Except Exn (List Node) := do
  let workingSet ← f.typeChain.foldlM (resolveAll graph) [r]
  pure (workingSet.filter fun w => f.attrs w.block)

/-- `process`: the resources that are kept, with their annotation. -/
def process (f : Filter) (graph : Value) : List Node → Except Exn (List (Node × List Node))
  | [] => .ok []
  | r :: resources => do
    let matched ← matchOne f graph r
    let results ← process f graph resources
    pure (if matchCardinality f matched.length then (r, matched) :: results else results)

/-! ## Paths of references -/

/-- One of two labelled blocks refers to the other. -/
def Refers (graph : Value) (x y : Text) : Prop :=
  ∃ b ∈ blocks graph, (b.1 = x ∧ y ∈ mentions b.2) ∨ (b.1 = y ∧ x ∈ mentions b.2)

/-- The type of the block with the id. -/
def typeOf (graph : Value) (y : Text) : Option Text :=
  (idMap graph y).bind fun b => b.tfmeta.bind fun m => m.label.map (blockType m)

/-- A path of references over blocks of the types. -/
def Reach (graph : Value) : List Text → Text → Text → Prop
  | [], x, y => x = y
  | T :: types, x, y => ∃ z, Refers graph x z ∧ typeOf graph z = some T ∧ Reach graph types z y

/-- The attributes of the block with the id pass. -/
def passes (f : Filter) (graph : Value) (y : Text) : Bool := (idMap graph y).any f.attrs

/-- The blocks at the ends of the paths whose attributes pass. -/
def targets (f : Filter) (graph : Value) (r : Node) : Set Text :=
  {y | Reach graph f.typeChain r.id y ∧ passes f graph y}

/-- A block of the graph, as the filter gets it. -/
structure Resource (graph : Value) where
  node : Node
  known : idMap graph node.id = some node.block

/-- The resources whose targets have the count are kept, with each target once. -/
def Meets (f : Filter) (graph : Value) (resources : List (Resource graph)) : Prop :=
  ∃ results, process f graph (resources.map Resource.node) = .ok results ∧
    results.map Prod.fst = (resources.map Resource.node).filter (fun r =>
      matchCardinality f (targets f graph r).ncard) ∧
    ∀ e ∈ results, (e.2.map Node.id).Nodup ∧
      ∀ y, y ∈ e.2.map Node.id ↔ y ∈ targets f graph e.1

/-! ## Walks along recorded references -/

/-- The ids that recorded references lead to from an id, one for each reference and direction. -/
def steps (graph : Value) (x : Text) : List Text :=
  (((blocks graph).flatMap bothWays).filter fun e => e.1 = x).map Prod.snd

/-- The ends of the walks over blocks of the types, one for each walk. -/
def walks (graph : Value) : List Text → Text → List Text
  | [], x => [x]
  | T :: types, x =>
    ((steps graph x).filter fun y => typeOf graph y = some T).flatMap (walks graph types)

/-- The block has metadata without a label. -/
def Unlabelled (graph : Value) (y : Text) : Prop :=
  ∃ b m, idMap graph y = some b ∧ b.tfmeta = some m ∧ m.label = none

/-- No recorded reference that is looked at leads to a block that has metadata without a label. -/
def Readable (graph : Value) : List Text → Text → Prop
  | [], _ => True
  | T :: types, x => ∀ y ∈ steps graph x,
      ¬Unlabelled graph y ∧ (typeOf graph y = some T → Readable graph types y)

theorem refMap_eq (graph : Value) (x : Text) : refMap graph x = steps graph x := by
  rw [refMap, visit_pairs, steps]

theorem refers_of_mem_steps {graph : Value} {x y : Text} (h : y ∈ steps graph x) :
    Refers graph x y := by
  obtain ⟨e, he, rfl⟩ := List.mem_map.mp h
  obtain ⟨hmem, hx⟩ := List.mem_filter.mp he
  obtain rfl := of_decide_eq_true hx
  obtain ⟨b, hb, he⟩ := List.mem_flatMap.mp hmem
  rcases List.mem_append.mp he with he | he
  · obtain ⟨r, hr, rfl⟩ := List.mem_map.mp he
    exact ⟨b, hb, .inl ⟨rfl, outside_subset b.2 hr⟩⟩
  · obtain ⟨r, hr, rfl⟩ := List.mem_map.mp he
    exact ⟨b, hb, .inr ⟨rfl, outside_subset b.2 hr⟩⟩

theorem reach_of_mem_walks {graph : Value} {types : List Text} {x y : Text}
    (h : y ∈ walks graph types x) : Reach graph types x y := by
  induction types generalizing x with
  | nil => exact (List.mem_singleton.mp h).symm
  | cons T types ih =>
    obtain ⟨z, hz, hy⟩ := List.mem_flatMap.mp h
    obtain ⟨hz, hT⟩ := List.mem_filter.mp hz
    exact ⟨z, refers_of_mem_steps hz, of_decide_eq_true hT, ih hy⟩

/-! ## The working sets -/

/-- The block with the id. -/
def nodeOf (graph : Value) (y : Text) : Option Node := (idMap graph y).map (Node.mk y)

/-- The blocks of a type that recorded references of a block lead to. -/
def next (graph : Value) (T : Text) (x : Text) : List Node :=
  ((steps graph x).filter fun y => typeOf graph y = some T).filterMap (nodeOf graph)

theorem pick_eq {graph : Value} {T : Text} {refs : List Text}
    (h : ∀ y ∈ refs, ¬Unlabelled graph y) : pick graph T refs =
      .ok ((refs.filter fun y => typeOf graph y = some T).filterMap (nodeOf graph)) := by
  induction refs with
  | nil => rfl
  | cons y refs ih =>
    rw [List.forall_mem_cons] at h
    rw [pick, ih h.2, List.filter_cons, typeOf]
    cases hb : idMap graph y with
    | none => rfl
    | some b =>
      cases hm : b.tfmeta with
      | none => simp [hm]
      | some m =>
        cases hl : m.label with
        | none => exact absurd ⟨b, m, hb, hm, hl⟩ h.1
        | some label =>
          by_cases hT : blockType m label = T
          · simp [hm, hl, hT, nodeOf, hb, bind, Except.bind, pure, Except.pure]
          · simp [hm, hl, hT]

theorem pick_cons_unlabelled {graph : Value} {T y : Text} (h : Unlabelled graph y)
    (refs : List Text) : pick graph T (y :: refs) = .error .keyError := by
  obtain ⟨b, m, hb, hm, hl⟩ := h
  simp [pick, hb, hm, hl]

theorem pick_tail {graph : Value} {T y : Text} {refs : List Text} {l : List Node}
    (h : pick graph T (y :: refs) = .ok l) : ∃ l', pick graph T refs = .ok l' := by
  rw [pick] at h
  repeat' split at h
  · exact ⟨l, h⟩
  · exact ⟨l, h⟩
  · cases h
  · obtain ⟨rest, hrest, -⟩ := bind_eq_ok.mp h
    exact ⟨rest, hrest⟩
  · exact ⟨l, h⟩

theorem labelled_of_pick {graph : Value} {T : Text} {refs : List Text} {l : List Node}
    (h : pick graph T refs = .ok l) : ∀ y ∈ refs, ¬Unlabelled graph y := by
  induction refs generalizing l with
  | nil => simp
  | cons y refs ih =>
    obtain ⟨l', hl'⟩ := pick_tail h
    rw [List.forall_mem_cons]
    refine ⟨fun hu => ?_, ih hl'⟩
    rw [pick_cons_unlabelled hu] at h
    cases h

theorem resolveRefs_eq {graph : Value} {w : Node} {T : Text}
    (h : ∀ y ∈ steps graph w.id, ¬Unlabelled graph y) :
    resolveRefs graph w T = .ok (next graph T w.id) := by
  rw [resolveRefs, refMap_eq, pick_eq h, next]

/-- The blocks at the ends of the walks from a block. -/
def walkNodes (graph : Value) : List Text → Node → List Node
  | [], w => [w]
  | T :: types, w => (next graph T w.id).flatMap (walkNodes graph types)

theorem mem_next {graph : Value} {T x : Text} {n : Node} : n ∈ next graph T x ↔
    n.id ∈ steps graph x ∧ typeOf graph n.id = some T ∧ idMap graph n.id = some n.block := by
  rw [next, List.mem_filterMap]
  constructor
  · rintro ⟨y, hy, hn⟩
    obtain ⟨hy, hT⟩ := List.mem_filter.mp hy
    obtain ⟨b, hb, rfl⟩ := Option.map_eq_some_iff.mp hn
    exact ⟨hy, of_decide_eq_true hT, hb⟩
  · rintro ⟨hy, hT, hb⟩
    exact ⟨n.id, List.mem_filter.mpr ⟨hy, decide_eq_true hT⟩, by rw [nodeOf, hb]; rfl⟩

theorem next_ids (graph : Value) (T x : Text) :
    (next graph T x).map Node.id = (steps graph x).filter fun y => typeOf graph y = some T := by
  have hids : ∀ l : List Text, (∀ y ∈ l, (idMap graph y).isSome) →
      (l.filterMap (nodeOf graph)).map Node.id = l := by
    intro l hl
    induction l with
    | nil => rfl
    | cons y l ih =>
      rw [List.forall_mem_cons] at hl
      obtain ⟨b, hb⟩ := Option.isSome_iff_exists.mp hl.1
      have hy : nodeOf graph y = some ⟨y, b⟩ := by rw [nodeOf, hb]; rfl
      rw [List.filterMap_cons_some hy, List.map_cons, ih hl.2]
  refine hids _ fun y hy => ?_
  obtain ⟨-, hT⟩ := List.mem_filter.mp hy
  obtain ⟨b, hb, -⟩ := Option.bind_eq_some_iff.mp (of_decide_eq_true hT)
  rw [hb]
  rfl

theorem walkNodes_ids (graph : Value) (types : List Text) (w : Node) :
    (walkNodes graph types w).map Node.id = walks graph types w.id := by
  induction types generalizing w with
  | nil => rfl
  | cons T types ih =>
    rw [walkNodes, walks, ← next_ids, List.map_flatMap, List.flatMap_map]
    exact List.flatMap_congr fun n _ => ih n

theorem known_of_mem_walkNodes {graph : Value} {types : List Text} {w n : Node}
    (hw : idMap graph w.id = some w.block) (h : n ∈ walkNodes graph types w) :
    idMap graph n.id = some n.block := by
  induction types generalizing w with
  | nil =>
    obtain rfl := List.mem_singleton.mp h
    exact hw
  | cons T types ih =>
    obtain ⟨n', hn', h⟩ := List.mem_flatMap.mp h
    exact ih (mem_next.mp hn').2.2 h

theorem resolveAll_eq {graph : Value} {ws : List Node} {T : Text}
    (h : ∀ w ∈ ws, ∀ y ∈ steps graph w.id, ¬Unlabelled graph y) :
    resolveAll graph ws T = .ok (ws.flatMap fun w => next graph T w.id) := by
  rw [resolveAll, mapM_eq_map fun w hw => resolveRefs_eq (h w hw), List.flatMap_def]
  rfl

theorem labelled_of_resolveAll {graph : Value} {ws l : List Node} {T : Text}
    (h : resolveAll graph ws T = .ok l) :
    ∀ w ∈ ws, ∀ y ∈ steps graph w.id, ¬Unlabelled graph y := by
  intro w hw
  obtain ⟨refs, hrefs, -⟩ := bind_eq_ok.mp h
  obtain ⟨l', -, hl'⟩ := exists_of_forall₂ ((mapM_eq_ok _ _ _).mp hrefs) hw
  rw [resolveRefs, refMap_eq] at hl'
  exact labelled_of_pick hl'

theorem foldlM_resolveAll {graph : Value} {types : List Text} {ws : List Node}
    (h : ∀ w ∈ ws, Readable graph types w.id) :
    types.foldlM (resolveAll graph) ws = .ok (ws.flatMap (walkNodes graph types)) := by
  induction types generalizing ws with
  | nil => simp [walkNodes, pure, Except.pure]
  | cons T types ih =>
    rw [List.foldlM_cons, resolveAll_eq fun w hw y hy => (h w hw y hy).1]
    refine (ih fun n hn => ?_).trans ?_
    · obtain ⟨w, hw, hn⟩ := List.mem_flatMap.mp hn
      obtain ⟨hy, hT, -⟩ := mem_next.mp hn
      exact (h w hw n.id hy).2 hT
    · rw [List.flatMap_assoc]
      rfl

theorem readable_of_foldlM {graph : Value} {types : List Text} {ws l : List Node}
    (h : types.foldlM (resolveAll graph) ws = .ok l) : ∀ w ∈ ws, Readable graph types w.id := by
  induction types generalizing ws with
  | nil => exact fun _ _ => trivial
  | cons T types ih =>
    rw [List.foldlM_cons] at h
    obtain ⟨ws', hws', h⟩ := bind_eq_ok.mp h
    have hlabelled := labelled_of_resolveAll hws'
    rw [resolveAll_eq hlabelled, Except.ok.injEq] at hws'
    intro w hw y hy
    refine ⟨hlabelled w hw y hy, fun hT => ?_⟩
    obtain ⟨b, hb, -⟩ := Option.bind_eq_some_iff.mp hT
    have hn : (⟨y, b⟩ : Node) ∈ ws' := by
      rw [← hws']
      exact List.mem_flatMap.mpr ⟨w, hw, mem_next.mpr ⟨hy, hT, hb⟩⟩
    exact ih h _ hn

/-- The blocks that are matched for a resource: the ends of the walks whose attributes pass. -/
def matchedBlocks (f : Filter) (graph : Value) (r : Node) : List Node :=
  (walkNodes graph f.typeChain r).filter fun w => f.attrs w.block

theorem matchOne_eq {f : Filter} {graph : Value} {r : Node}
    (h : Readable graph f.typeChain r.id) : matchOne f graph r = .ok (matchedBlocks f graph r) := by
  rw [matchOne, foldlM_resolveAll (by simpa using h), List.flatMap_singleton]
  rfl

theorem readable_of_matchOne {f : Filter} {graph : Value} {r : Node} {l : List Node}
    (h : matchOne f graph r = .ok l) : Readable graph f.typeChain r.id := by
  obtain ⟨ws, hws, -⟩ := bind_eq_ok.mp h
  exact readable_of_foldlM hws r List.mem_cons_self

theorem matched_ids {f : Filter} {graph : Value} (r : Resource graph) :
    (matchedBlocks f graph r.node).map Node.id =
      (walks graph f.typeChain r.node.id).filter (passes f graph) := by
  rw [← walkNodes_ids, List.filter_map, matchedBlocks]
  refine congrArg (List.map Node.id) (List.filter_congr fun n hn => ?_)
  rw [Function.comp_apply, passes, known_of_mem_walkNodes r.known hn]
  rfl

/-! ## Counting blocks -/

/-- For the resource, the walks along recorded references count its targets. -/
structure CountsBlocks (f : Filter) (graph : Value) (r : Node) : Prop where
  readable : Readable graph f.typeChain r.id
  /-- If the targets have the count, one walk leads to each. -/
  once : matchCardinality f (targets f graph r).ncard →
    ∀ y ∈ targets f graph r, (walks graph f.typeChain r.id).count y = 1
  /-- If they do not, neither have the walks to blocks whose attributes pass. -/
  miss : ¬matchCardinality f (targets f graph r).ncard →
    ¬matchCardinality f ((walks graph f.typeChain r.id).countP (passes f graph))

theorem mem_targets_of_matched {f : Filter} {graph : Value} {r : Resource graph} {y : Text}
    (h : y ∈ (matchedBlocks f graph r.node).map Node.id) : y ∈ targets f graph r.node := by
  rw [matched_ids, List.mem_filter] at h
  exact ⟨reach_of_mem_walks h.1, h.2⟩

theorem length_matched {f : Filter} {graph : Value} (r : Resource graph) :
    (matchedBlocks f graph r.node).length =
      (walks graph f.typeChain r.node.id).countP (passes f graph) := by
  rw [← List.length_map (f := Node.id), matched_ids, List.countP_eq_length_filter]

theorem lists_targets_iff {f : Filter} {graph : Value} {r : Resource graph} :
    (((matchedBlocks f graph r.node).map Node.id).Nodup ∧
      ∀ y, y ∈ (matchedBlocks f graph r.node).map Node.id ↔ y ∈ targets f graph r.node) ↔
    ∀ y ∈ targets f graph r.node, (walks graph f.typeChain r.node.id).count y = 1 := by
  have hcount : ∀ y, passes f graph y = true →
      ((matchedBlocks f graph r.node).map Node.id).count y =
        (walks graph f.typeChain r.node.id).count y := fun y hy => by
    rw [matched_ids, List.count_filter hy]
  constructor
  · rintro ⟨hnodup, hmem⟩ y hy
    rw [← hcount y hy.2]
    exact List.count_eq_one_of_mem hnodup ((hmem y).mpr hy)
  · intro h
    refine ⟨List.nodup_iff_count_le_one.mpr fun y => ?_, fun y => ⟨mem_targets_of_matched, ?_⟩⟩
    · by_cases hy : y ∈ (matchedBlocks f graph r.node).map Node.id
      · have ht := mem_targets_of_matched hy
        rw [hcount y ht.2, h y ht]
      · rw [List.count_eq_zero_of_not_mem hy]
        exact Nat.zero_le 1
    · intro hy
      rw [← List.count_pos_iff, hcount y hy.2, h y hy]
      exact Nat.one_pos

theorem ncard_targets {f : Filter} {graph : Value} {r : Resource graph}
    (h : ∀ y ∈ targets f graph r.node, (walks graph f.typeChain r.node.id).count y = 1) :
    (targets f graph r.node).ncard = (matchedBlocks f graph r.node).length := by
  obtain ⟨hnodup, hmem⟩ := lists_targets_iff.mpr h
  have hset : targets f graph r.node =
      (((matchedBlocks f graph r.node).map Node.id).toFinset : Set Text) := by
    ext y
    rw [List.coe_toFinset, Set.mem_ofPred_eq, hmem]
  rw [hset, Set.ncard_coe_finset, List.toFinset_card_of_nodup hnodup, List.length_map]

theorem process_eq {f : Filter} {graph : Value} {resources : List Node}
    (h : ∀ r ∈ resources, Readable graph f.typeChain r.id) :
    process f graph resources = .ok ((resources.filter fun r =>
      matchCardinality f (matchedBlocks f graph r).length).map fun r => (r, matchedBlocks f graph r)) := by
  induction resources with
  | nil => rfl
  | cons r resources ih =>
    rw [List.forall_mem_cons] at h
    have hstep : process f graph (r :: resources) = .ok
        (if matchCardinality f (matchedBlocks f graph r).length then
          (r, matchedBlocks f graph r) :: (resources.filter fun r =>
            matchCardinality f (matchedBlocks f graph r).length).map fun r =>
              (r, matchedBlocks f graph r)
        else (resources.filter fun r =>
          matchCardinality f (matchedBlocks f graph r).length).map fun r =>
            (r, matchedBlocks f graph r)) := by
      rw [process, matchOne_eq h.1, ih h.2]
      rfl
    rw [hstep, List.filter_cons]
    split <;> rfl

theorem readable_of_process {f : Filter} {graph : Value} {resources : List Node}
    {results : List (Node × List Node)} (h : process f graph resources = .ok results) :
    ∀ r ∈ resources, Readable graph f.typeChain r.id := by
  induction resources generalizing results with
  | nil => simp
  | cons r resources ih =>
    obtain ⟨l, hl, h⟩ := bind_eq_ok.mp h
    obtain ⟨rest, hrest, -⟩ := bind_eq_ok.mp h
    rw [List.forall_mem_cons]
    exact ⟨readable_of_matchOne hl, ih hrest⟩

theorem filter_eq_filter_iff {α : Type} {p q : α → Bool} {l : List α} :
    l.filter p = l.filter q ↔ ∀ x ∈ l, p x = q x := by
  constructor
  · intro h x hx
    have hp : x ∈ l.filter p ↔ x ∈ l.filter q := by rw [h]
    rw [List.mem_filter, List.mem_filter, and_iff_right hx, and_iff_right hx] at hp
    exact Bool.eq_iff_iff.mpr hp
  · exact List.filter_congr

theorem forall_mem_resources {graph : Value} {resources : List (Resource graph)}
    {P : Node → Prop} :
    (∀ n ∈ resources.map Resource.node, P n) ↔ ∀ r ∈ resources, P r.node := by
  simp

/-- **Blocks are counted, each once, exactly when the walks along recorded references count them.** -/
theorem process_counts_iff (f : Filter) (graph : Value) (resources : List (Resource graph)) :
    Meets f graph resources ↔ ∀ r ∈ resources, CountsBlocks f graph r.node := by
  constructor
  · rintro ⟨results, hprocess, hkept, hlists⟩ r hr
    have hread := readable_of_process hprocess
    rw [process_eq hread, Except.ok.injEq] at hprocess
    subst hprocess
    rw [List.map_map, Function.comp_def, List.map_id', filter_eq_filter_iff,
      forall_mem_resources] at hkept
    have hr' : r.node ∈ resources.map Resource.node := List.mem_map_of_mem hr
    refine ⟨hread _ hr', fun hw => lists_targets_iff.mp ?_, fun hw => ?_⟩
    · rw [← hkept r hr] at hw
      exact hlists (r.node, matchedBlocks f graph r.node) (List.mem_map_of_mem
        (List.mem_filter.mpr ⟨hr', hw⟩))
    · rw [← length_matched, hkept r hr]
      exact hw
  · intro h
    have hread : ∀ n ∈ resources.map Resource.node, Readable graph f.typeChain n.id :=
      forall_mem_resources.mpr fun r hr => (h r hr).readable
    have hagree : ∀ r ∈ resources, matchCardinality f (matchedBlocks f graph r.node).length =
        matchCardinality f (targets f graph r.node).ncard := by
      intro r hr
      by_cases hw : matchCardinality f (targets f graph r.node).ncard = true
      · rw [ncard_targets ((h r hr).once hw)]
      · have hmiss := (h r hr).miss hw
        rw [← length_matched, Bool.not_eq_true] at hmiss
        rw [hmiss, Bool.eq_false_iff.mpr hw]
    refine ⟨_, process_eq hread, ?_, ?_⟩
    · rw [List.map_map, Function.comp_def, List.map_id', filter_eq_filter_iff,
        forall_mem_resources]
      exact hagree
    · intro e he
      obtain ⟨n, hn, rfl⟩ := List.mem_map.mp he
      obtain ⟨hn, hcard⟩ := List.mem_filter.mp hn
      obtain ⟨r, hr, rfl⟩ := List.mem_map.mp hn
      rw [hagree r hr] at hcard
      exact lists_targets_iff.mpr ((h r hr).once hcard)

/-! ## A reference in a list -/

theorem targets_finite (f : Filter) (graph : Value) (r : Node) : (targets f graph r).Finite := by
  refine (List.finite_toSet ((visit graph).ids.map Prod.fst)).subset fun y hy => ?_
  by_contra hno
  have hnone : idMap graph y = none := by
    rw [idMap, List.lookup_eq_none_iff]
    intro e he
    rw [bne_iff_ne]
    rintro rfl
    exact hno (List.mem_map_of_mem (List.mem_reverse.mp he))
  have hpass := hy.2
  rw [passes, hnone] at hpass
  cases hpass

/-- The id of a certificate. -/
def certificateId : Text := "11111111-2222-3333-4444-555555555555".toList

/-- A listener with two blocks `certificate`, one of which refers to a certificate. -/
def listener : Value :=
  .dict (some "listener".toList) (some ⟨some "aws_lb_listener".toList, false, []⟩)
    [("certificate".toList, .list [.dict none none [("arn".toList, .text certificateId)],
      .dict none none []])]

def certificate : Value :=
  .dict (some certificateId) (some ⟨some "aws_acm_certificate".toList, false, []⟩) []

def listenerGraph : Value :=
  .dict none none [("aws_lb_listener".toList, .list [listener]),
    ("aws_acm_certificate".toList, .list [certificate])]

def listenerResource : Resource listenerGraph := ⟨⟨"listener".toList, listener⟩, rfl⟩

/-- The filter for resources with a certificate. -/
def hasCertificate : Filter :=
  ⟨["aws_acm_certificate".toList], fun _ => true, none, fun n count => n = count⟩

/-- The reference inside the list of nested blocks is not followed. -/
theorem certificate_not_found :
    certificateId ∈ targets hasCertificate listenerGraph listenerResource.node ∧
      process hasCertificate listenerGraph [listenerResource.node] = .ok [] ∧
      ¬Meets hasCertificate listenerGraph [listenerResource] := by
  have htarget : certificateId ∈ targets hasCertificate listenerGraph listenerResource.node := by
    have hblock : ("listener".toList, listener) ∈ blocks listenerGraph := List.mem_cons_self
    have hmention : certificateId ∈ mentions listener := by decide
    exact ⟨⟨certificateId, ⟨_, hblock, .inl ⟨rfl, hmention⟩⟩, rfl, rfl⟩, rfl⟩
  have hprocess : process hasCertificate listenerGraph [listenerResource.node] = .ok [] := by
    rfl
  refine ⟨htarget, hprocess, ?_⟩
  rintro ⟨results, hresults, hkept, -⟩
  rw [List.map_singleton, hprocess, Except.ok.injEq] at hresults
  subst hresults
  have hpos := (Set.ncard_pos (targets_finite _ _ _)).mpr ⟨_, htarget⟩
  have hwanted : matchCardinality hasCertificate
      (targets hasCertificate listenerGraph listenerResource.node).ncard = true :=
    decide_eq_true hpos.ne'
  rw [List.map_singleton, List.filter_cons, if_pos hwanted] at hkept
  cases hkept

end Custodian.Traverse

import Custodian.Filters.Semantics
import Mathlib.Data.List.GetD

/-!
# Filters on the items of a list

`ListItemFilter` of `c7n/filters/core.py`: value filters, under `and`, `or` and `not`, on the items
that a key of a resource yields.  The items get a temporary id, which is an annotation as well.
-/

namespace Custodian.ListItems

open Py BoolLogic Custodian.Blocks Custodian.Sweeper Custodian.Semantics

/-! ## Items -/

/-- A value of an item: a temporary id, a list of texts and others, or something else. -/
inductive Value (D : Type) where
  | index (n : Nat)
  | list (xs : List (Text ⊕ D))
  | other (d : D)
  deriving DecidableEq

variable {D : Type}

abbrev Item (D : Type) := Resource (Value D)

/-- `'c7n:_id'` -/
def idKey : Text := "c7n:_id".toList

/-- `ANNOTATION_KEY` -/
def matchedFilters : Text := "c7n:MatchedFilters".toList

/-- `set_annotation(i, ANNOTATION_KEY, k)` -/
def setAnnotation (i : Item D) (k : Text) : Item D :=
  match i.lookup matchedFilters with
  | some (.list ev) => i.insert matchedFilters (.list (ev ++ [.inl k]))
  | some _ => i
  | none => i.insert matchedFilters (.list [.inl k])

/-- `ListItemModel` -/
def listItemModel : ResourceModel (Value D) where
  id := idKey
  search d := (d.lookup (idKey.takeWhile (· ≠ '.'))).getD (.index 0)
  search_congr _ _ h := by rw [h]

/-- A value filter that looks at one item, with its key and its `match`. -/
structure ValueFilter (D : Type) where
  key : Text
  test : Item D → Bool

/-- `list(filter(self, resources))`: an item that matches is annotated. -/
def ValueFilter.run (f : ValueFilter D) : Heap (Value D) → List Ref → Heap (Value D) × List Ref
  | h, [] => (h, [])
  | h, r :: rs =>
    if f.test (h r) then
      let out := f.run (Function.update h r <| setAnnotation (h r) f.key) rs
      (out.1, r :: out.2)
    else f.run h rs

theorem ValueFilter.run_subset (f : ValueFilter D) (h : Heap (Value D)) (rs : List Ref) :
    ∀ r ∈ (f.run h rs).2, r ∈ rs := by
  induction rs generalizing h with
  | nil => exact fun _ => id
  | cons r rs ih =>
    rw [run]
    split
    · exact fun r' hr' => List.mem_cons.mpr ((List.mem_cons.mp hr').imp_right (ih _ r'))
    · exact fun r' hr' => List.mem_cons_of_mem _ (ih _ r' hr')

def ValueFilter.leaf (f : ValueFilter D) : LeafFilter (Value D) where
  process h rs := .ok (f.run h rs)
  selects h rs h' out hrun := by
    have hout := f.run_subset h rs
    rwa [Except.ok.inj hrun] at hout

/-! ## The filter -/

/-- A `list-item` filter; with `count` there is a comparison of the number of items with it. -/
structure ListItemFilter (D : Type) where
  key : Text
  attrs : List (FilterTree (Value D))
  count : Option (Nat → Bool)

/-- A resource by the items that the key yields and its annotation `c7n:ListItemMatches`. -/
structure Source (D : Type) where
  items : List (Item D)
  listItemMatches : Option (List Text)

namespace ListItemFilter

variable (f : ListItemFilter D)

/-- `check_count` -/
def checkCount (rcount : Nat) : Bool :=
  match f.count with
  | some op => op rcount
  | none => false

/-- The items at their indices, with temporary ids. -/
def withIds (items : List (Item D)) : Heap (Value D) :=
  fun idx => (items.getD idx ∅).insert idKey (.index idx)

/-- `r['c7n:_id']`; nothing but an index is found there. -/
def itemId (i : Item D) : Except Exn Nat :=
  match i.lookup idKey with
  | some (.index n) => .ok n
  | _ => .error .keyError

/-- `list_value.pop('c7n:_id')` -/
def popId (i : Item D) : Except Exn (Item D) :=
  if (i.lookup idKey).isSome then .ok (i.erase idKey) else .error .keyError

/-- `f'{key}[{str(i)}]'` -/
def annotation (i : Nat) : Text := f.key ++ '[' :: Nat.toDigits 10 i ++ [']']

variable [DecidableEq D]

/-- `process`, for one resource: what it becomes, and whether it is in the result. -/
def processResource (order : SetOrder (Value D)) (r : Source D) :
    Except Exn (Source D × Bool) :=
  if r.items.isEmpty then .ok (r, f.checkCount 0)
  else do
    let indices := List.range r.items.length
    let (h, listResources) ← filterResources listItemModel order f.attrs (withIds r.items) indices
    let matchedIndices ← listResources.mapM fun i => itemId (h i)
    let items ← indices.mapM fun i => popId (h i)
    let r := { r with items := items }
    if f.count.isSome then return (r, f.checkCount listResources.length)
    else if listResources.isEmpty then return (r, false)
    else return ({ r with
      listItemMatches := some (r.listItemMatches.getD [] ++ matchedIndices.map f.annotation) }, true)

/-- `process` -/
def process (order : SetOrder (Value D)) (resources : List (Source D)) :
    Except Exn (List (Source D × Bool)) :=
  resources.mapM (f.processResource order)

end ListItemFilter

/-! ## What value filters do to items -/

/-- The annotation of an item that a filter with a key matches. -/
def annotated (o : Option (Value D)) (k : Text) : Option (Value D) :=
  match o with
  | some (.list ev) => some (.list (ev ++ [.inl k]))
  | some v => some v
  | none => some (.list [.inl k])

/-- Keys of filters are appended to the annotation, and nothing else changes. -/
structure Annotates (names : Text → Prop) (d d' : Item D) : Prop where
  other : ∀ k, k ≠ matchedFilters → d'.lookup k = d.lookup k
  keys : ∃ ks : List Text, (∀ k ∈ ks, names k) ∧
    d'.lookup matchedFilters = ks.foldl annotated (d.lookup matchedFilters)

theorem idKey_ne : idKey ≠ matchedFilters := by decide

theorem annotationKey_idKey : annotationKey idKey = true := by decide

theorem annotationKey_matchedFilters : annotationKey matchedFilters = true := by decide

theorem idKey_plain : (listItemModel : ResourceModel (Value D)).idKey = idKey :=
  idKey_of_plain (show '.' ∉ idKey by decide)

theorem setAnnotation_annotates {names : Text → Prop} {k : Text} (hk : names k) (d : Item D) :
    Annotates names d <| setAnnotation d k := by
  have hkeys : ∀ j ∈ [k], names j := fun j hj => List.mem_singleton.mp hj ▸ hk
  unfold setAnnotation
  split
  · next ev hev =>
    refine ⟨fun j hj => AList.lookup_insert_ne hj, [k], hkeys, ?_⟩
    rw [AList.lookup_insert, hev]
    rfl
  · next v hv hev =>
    refine ⟨fun _ _ => rfl, [k], hkeys, ?_⟩
    rw [hev]
    cases v with
    | list ev => exact (hv ev rfl).elim
    | index n => rfl
    | other d => rfl
  · next hev =>
    refine ⟨fun j hj => AList.lookup_insert_ne hj, [k], hkeys, ?_⟩
    rw [AList.lookup_insert, hev]
    rfl

theorem preserved_annotates (names : Text → Prop) :
    Preserved (listItemModel : ResourceModel (Value D)) (Annotates names) where
  refl d := ⟨fun _ _ => rfl, [], by simp, rfl⟩
  trans h h' := by
    obtain ⟨ks, hks, hlast⟩ := h.keys
    obtain ⟨ks', hks', hlast'⟩ := h'.keys
    refine ⟨fun k hk => (h'.other k hk).trans (h.other k hk), ks ++ ks', ?_, ?_⟩
    · exact List.forall_mem_append.mpr ⟨hks, hks'⟩
    · rw [hlast', hlast, List.foldl_append]
  frame h k hk := by
    refine (h.other k ?_).symm
    rintro rfl
    rw [idKey_plain] at hk
    rcases hk with hk | hk
    · rw [annotationKey_matchedFilters] at hk
      cases hk
    · exact idKey_ne hk.symm
  sweep {d e} h := by
    refine ⟨fun k hk => ?_, [], by simp, ?_⟩
    · rw [Dict.lookup_restore]
      split
      · rfl
      · exact h.other k hk
    · rw [Dict.lookup_restore, if_pos annotationKey_matchedFilters]
      rfl

namespace ValueFilter

variable {f : ValueFilter D}

theorem run_annotates {names : Text → Prop} (hk : names f.key) (h : Heap (Value D))
    (rs : List Ref) (r : Ref) : Annotates names (h r) ((f.run h rs).1 r) := by
  have hR : Preserved (listItemModel : ResourceModel (Value D)) _ := preserved_annotates names
  induction rs generalizing h with
  | nil => exact hR.refl _
  | cons r' rs ih =>
    rw [run]
    split
    · refine hR.trans ?_ (ih _)
      by_cases hr : r = r'
      · subst hr
        rw [Function.update_self]
        exact setAnnotation_annotates hk (h r)
      · rw [Function.update_of_ne hr]
        exact hR.refl _
    · exact ih h

theorem run_eq_filter (h : Heap (Value D)) {rs : List Ref} (hn : rs.Nodup) :
    (f.run h rs).2 = rs.filter fun r => f.test (h r) := by
  induction rs generalizing h with
  | nil => rfl
  | cons r rs ih =>
    rw [List.nodup_cons] at hn
    have hrest :
        rs.filter (fun r' => f.test ((Function.update h r <| setAnnotation (h r) f.key) r')) =
          rs.filter fun r' => f.test (h r') := by
      refine List.filter_congr fun r' hr' => ?_
      rw [Function.update_of_ne]
      rintro rfl
      exact hn.1 hr'
    rw [run, List.filter_cons]
    split
    · exact congrArg (r :: ·) ((ih _ hn.2).trans hrest)
    · exact ih h hn.2

/-- The filter does not look at annotations, temporary ids included. -/
def IgnoresAnnotations (f : ValueFilter D) : Prop :=
  ∀ d d' : Item D, Dict.AgreeOn (annotationKey · = false) d d' → f.test d = f.test d'

theorem keeps_leaf (f : ValueFilter D) : keeps f.leaf = f.test := by
  funext d
  have hout : (f.run (fun _ => d) [0]).2 = [0].filter fun _ => f.test d :=
    run_eq_filter _ (List.nodup_singleton 0)
  rw [keeps, leaf]
  simp only [hout]
  cases f.test d <;> rfl

theorem leaf_related (order : SetOrder (Value D)) [DecidableEq D] {names : Text → Prop}
    (hk : names f.key) : Related listItemModel order (Annotates names) (.leaf f.leaf) := by
  intro h rs h' out _ hrun
  simp only [FilterTree.process, leaf, Except.ok.injEq] at hrun
  have hann := run_annotates hk h rs
  have hsub := f.run_subset h rs
  rw [hrun] at hann hsub
  exact ⟨hann, hsub⟩

theorem leaf_selects (hf : f.IgnoresAnnotations) :
    Selects listItemModel f.leaf (keeps f.leaf) := by
  rw [keeps_leaf]
  refine ⟨hf, fun h rs hd => ⟨_, _, rfl, ?_, ?_⟩⟩
  · exact fun r => (preserved_annotates fun _ => True).frame (run_annotates trivial h rs r)
  · rw [run_eq_filter h hd.nodup]

end ValueFilter

/-! ## What the filter reports -/

namespace ListItemFilter

/-- The filters are value filters under blocks, which do not look at annotations. -/
def OnValues (f : ListItemFilter D) : Prop :=
  ∀ t ∈ f.attrs, ∀ l ∈ leaves t, ∃ v : ValueFilter D, l = v.leaf ∧ v.IgnoresAnnotations

/-- An item satisfies the filters, read as one conjunction of formulas. -/
def satisfied (f : ListItemFilter D) (i : Item D) : Bool := f.attrs.all fun t => truth keeps t i

/-- The key of a value filter. -/
def Names (f : ListItemFilter D) (k : Text) : Prop :=
  ∃ t ∈ f.attrs, ∃ v : ValueFilter D, v.leaf ∈ leaves t ∧ v.key = k

/-- What the filter makes of an item: its temporary id is gone. -/
structure Cleaned (f : ListItemFilter D) (i i' : Item D) : Prop where
  id : i'.lookup idKey = none
  other : ∀ k, k ≠ idKey → k ≠ matchedFilters → i'.lookup k = i.lookup k
  keys : ∃ ks : List Text, (∀ k ∈ ks, f.Names k) ∧
    i'.lookup matchedFilters = ks.foldl annotated (i.lookup matchedFilters)

/-- The items that satisfy the filters decide on the resource, and are reported once each. -/
structure Meets (f : ListItemFilter D) (r r' : Source D) (kept : Bool) : Prop where
  kept_eq : kept = match f.count with
    | some op => op (r.items.countP f.satisfied)
    | none => r.items.any f.satisfied
  annotation : ∃ indices : List Nat, indices.Nodup ∧
    (∀ i, i ∈ indices ↔ ∃ item, r.items[i]? = some item ∧ f.satisfied item = true) ∧
    r'.listItemMatches =
      if f.count.isNone && kept then
        some (r.listItemMatches.getD [] ++ indices.map f.annotation)
      else r.listItemMatches
  items : List.Forall₂ f.Cleaned r.items r'.items

variable {f : ListItemFilter D} {items : List (Item D)}

theorem lookup_idKey_withIds (i : Nat) :
    (withIds items i).lookup idKey = some (.index i) := AList.lookup_insert _

theorem lookup_withIds {i : Nat} {k : Text} (hk : k ≠ idKey) :
    (withIds items i).lookup k = (items.getD i ∅).lookup k := AList.lookup_insert_ne hk

theorem typeId_withIds (i : Nat) :
    typeId listItemModel (withIds items i) = .ok (.index i) := by
  have hplain : '.' ∉ (listItemModel : ResourceModel (Value D)).id := show '.' ∉ idKey by decide
  rw [typeId, if_neg hplain]
  simp only [listItemModel, lookup_idKey_withIds]

theorem distinctIds_withIds (n : Nat) :
    DistinctIds listItemModel (withIds items) (List.range n) := by
  refine ⟨(List.range n).map .index, mapM_eq_map fun i _ => typeId_withIds i, ?_⟩
  exact List.nodup_range.map fun i j h => Value.index.inj h

theorem satisfied_withIds (hf : f.OnValues) (i : Nat) :
    f.satisfied (withIds items i) = f.satisfied (items.getD i ∅) := by
  have hplain : ∀ k, annotationKey k = false →
      (withIds items i).lookup k = (items.getD i ∅).lookup k := by
    intro k hk
    refine lookup_withIds ?_
    rintro rfl
    rw [annotationKey_idKey] at hk
    cases hk
  rw [satisfied, satisfied, Bool.eq_iff_iff, List.all_eq_true, List.all_eq_true]
  refine forall₂_congr fun t ht => ?_
  rw [truth, truth, Formula.eval_congr _ _ _ fun l hl => ?_]
  obtain ⟨v, rfl, hv⟩ := hf t ht l hl
  rw [ValueFilter.keeps_leaf]
  exact hv _ _ hplain

variable [DecidableEq D] {order : SetOrder (Value D)}

theorem satisfying_spec (hf : f.OnValues) (items : List (Item D)) :
    ∃ h' out, filterResources listItemModel order f.attrs (withIds items)
        (List.range items.length) = .ok (h', out) ∧
      out.Perm ((List.range items.length).filter fun i => f.satisfied (items.getD i ∅)) ∧
      ∀ i, Annotates f.Names (withIds items i) (h' i) := by
  have hd := @distinctIds_withIds D items items.length
  have hselects : ∀ t ∈ f.attrs, ∀ l ∈ leaves t, Selects listItemModel l (keeps l) := by
    intro t ht l hl
    obtain ⟨v, rfl, hv⟩ := hf t ht l hl
    exact v.leaf_selects hv
  obtain ⟨h', out, hrun, -, hn, hmem⟩ :=
    @filterResources_semantics _ _ order _ _ f.attrs hselects _ _ hd
  have hrelated : ∀ t ∈ f.attrs, ∀ l ∈ leaves t,
      Related listItemModel order (Annotates f.Names) (.leaf l) := by
    intro t ht l hl
    obtain ⟨v, rfl, -⟩ := hf t ht l hl
    exact ValueFilter.leaf_related order ⟨t, ht, v, hl, rfl⟩
  refine ⟨h', out, hrun, ?_, (filterResources_related (preserved_annotates _) hrelated
    hd.identified hrun).1⟩
  rw [List.perm_ext_iff_of_nodup hn (List.nodup_range.filter _)]
  intro i
  rw [hmem, List.mem_filter, ← satisfied_withIds hf]
  rfl

omit [DecidableEq D] in
theorem map_getD_range (items : List (Item D)) :
    (List.range items.length).map (fun i => items.getD i ∅) = items :=
  List.ext_getElem (by simp) fun i h _ => by simp at h; simp [h]

omit [DecidableEq D] in
theorem length_satisfying (items : List (Item D)) :
    ((List.range items.length).filter fun i => f.satisfied (items.getD i ∅)).length =
      items.countP f.satisfied := by
  rw [← List.countP_eq_length_filter]
  conv_rhs => rw [← map_getD_range items, List.countP_map]
  rfl

omit [DecidableEq D] in
theorem mem_satisfying {i : Nat} :
    i ∈ (List.range items.length).filter (fun i => f.satisfied (items.getD i ∅)) ↔
      ∃ item, items[i]? = some item ∧ f.satisfied item = true := by
  rw [List.mem_filter, List.mem_range]
  constructor
  · rintro ⟨hi, h⟩
    refine ⟨items[i], List.getElem?_eq_getElem hi, ?_⟩
    rwa [List.getD_eq_getElem _ _ hi] at h
  · rintro ⟨item, hitem, h⟩
    obtain ⟨hi, rfl⟩ := List.getElem?_eq_some_iff.mp hitem
    rw [List.getD_eq_getElem _ _ hi]
    exact ⟨hi, h⟩

omit [DecidableEq D] in
theorem itemId_of_annotates {i : Nat} {item : Item D} {names : Text → Prop}
    (h : Annotates names (withIds items i) item) : itemId item = .ok i := by
  rw [itemId, h.other idKey idKey_ne, lookup_idKey_withIds]

omit [DecidableEq D] in
theorem popId_of_annotates {i : Nat} {item : Item D}
    (h : Annotates f.Names (withIds items i) item) :
    ∃ item', popId item = .ok item' ∧ f.Cleaned (items.getD i ∅) item' := by
  refine ⟨item.erase idKey, ?_, AList.lookup_erase _ _, fun k hk hk' => ?_, ?_⟩
  · rw [popId, h.other idKey idKey_ne, lookup_idKey_withIds]
    rfl
  · rw [AList.lookup_erase_ne hk, h.other k hk', lookup_withIds hk]
  · obtain ⟨ks, hks, hlast⟩ := h.keys
    refine ⟨ks, hks, ?_⟩
    rw [AList.lookup_erase_ne idKey_ne.symm, hlast, lookup_withIds idKey_ne.symm]

omit [DecidableEq D] in
theorem popIds_of_annotates {h : Heap (Value D)}
    (hann : ∀ i, Annotates f.Names (withIds items i) (h i)) :
    ∃ items', (List.range items.length).mapM (fun i => popId (h i)) = .ok items' ∧
      List.Forall₂ f.Cleaned items items' := by
  obtain ⟨items', hitems'⟩ := @exists_mapM_eq_ok _ _ _ (fun i => popId (h i))
    (List.range items.length) fun i _ => (popId_of_annotates (hann i)).imp fun _ => And.left
  refine ⟨items', hitems', ?_⟩
  have hclean : List.Forall₂ (fun i item' => f.Cleaned (items.getD i ∅) item')
      (List.range items.length) items' := by
    refine ((mapM_eq_ok _ _ _).mp hitems').imp fun i item' hpop => ?_
    obtain ⟨item'', hpop', hc⟩ := popId_of_annotates (hann i)
    cases hpop.symm.trans hpop'
    exact hc
  rw [← map_getD_range items, List.forall₂_map_left_iff]
  exact hclean

theorem processResource_meets (hf : f.OnValues) (r : Source D) :
    ∃ x, f.processResource order r = .ok x ∧ f.Meets r x.1 x.2 := by
  rw [processResource]
  split
  · next hempty =>
    have hnil : r.items = [] := List.isEmpty_iff.mp hempty
    refine ⟨_, rfl, ?_, ⟨[], List.nodup_nil, by simp [hnil], ?_⟩, ?_⟩
    · rw [checkCount, hnil]
      rfl
    · cases hc : f.count <;> simp [checkCount, hc]
    · rw [hnil]
      exact .nil
  · obtain ⟨h', out, hrun, hperm, hann⟩ := @satisfying_spec D f _ order hf r.items
    obtain ⟨items', hitems', hclean⟩ := popIds_of_annotates hann
    have hids : out.mapM (fun i => itemId (h' i)) = .ok out := by
      rw [mapM_eq_map fun i _ => itemId_of_annotates (hann i), List.map_id']
    have hlength : out.length = r.items.countP f.satisfied :=
      hperm.length_eq.trans (length_satisfying r.items)
    have hindices : ∀ i, i ∈ out ↔ ∃ item, r.items[i]? = some item ∧ f.satisfied item = true :=
      fun i => hperm.mem_iff.trans mem_satisfying
    have hany : r.items.any f.satisfied = !out.isEmpty := by
      rw [Bool.eq_iff_iff, List.any_eq_true, ← List.countP_pos_iff, ← hlength, List.length_pos_iff]
      cases out <;> simp
    have hnodup : out.Nodup := hperm.nodup_iff.mpr (List.nodup_range.filter _)
    simp only [hrun, ok_bind, hids, hitems']
    cases hc : f.count with
    | some op =>
      refine ⟨_, rfl, ?_, ⟨out, hnodup, hindices, ?_⟩, hclean⟩
      · simp only [checkCount, hc, hlength]
      · simp [hc]
    | none =>
      rw [if_neg (by simp)]
      split
      · next hempty =>
        refine ⟨_, rfl, ?_, ⟨out, hnodup, hindices, ?_⟩, hclean⟩
        · simp only [hc, hany, hempty, Bool.not_true]
        · simp
      · next hempty =>
        refine ⟨_, rfl, ?_, ⟨out, hnodup, hindices, ?_⟩, hclean⟩
        · simp only [hc, hany, hempty, Bool.not_false]
        · simp [hc]

/-- **List items.**  A resource is kept by the number of its items that satisfy the filters,
these are annotated once each, and the items lose their temporary ids; what changes in them
otherwise is the annotation of the value filters that they match. -/
theorem process_meets (hf : f.OnValues) (resources : List (Source D)) :
    ∃ results, f.process order resources = .ok results ∧
      List.Forall₂ (fun r x => f.Meets r x.1 x.2) resources results := by
  obtain ⟨results, hresults⟩ := @exists_mapM_eq_ok _ _ _ (f.processResource order) resources
    fun r _ => (processResource_meets hf r).imp fun _ => And.left
  refine ⟨results, hresults, ((mapM_eq_ok _ _ _).mp hresults).imp fun r x hx => ?_⟩
  obtain ⟨x', hx', hmeets⟩ := @processResource_meets D f _ order hf r
  cases hx.symm.trans hx'
  exact hmeets

end ListItemFilter

/-! ## An item with a state -/

/-- `State: running` -/
def stateRunning : ValueFilter Text where
  key := "State".toList
  test i := i.lookup "State".toList = some (.other "running".toList)

/-- The annotation of value filters is present. -/
def annotationPresent : ValueFilter Text where
  key := "\"c7n:MatchedFilters\"".toList
  test i := (i.lookup matchedFilters).isSome

def running : Item Text := AList.insert "State".toList (.other "running".toList) ∅

def onStates (filters : List (ValueFilter Text)) : ListItemFilter Text where
  key := "States".toList
  attrs := filters.map fun v => .leaf v.leaf
  count := none

/-- The item is annotated with the filter that it matches, and a filter on this annotation
matches it, though the item itself does not have it. -/
theorem running_annotated :
    (∃ r, (onStates [stateRunning]).processResource .ofInsertion ⟨[running], none⟩ =
        .ok (r, true) ∧
      ∃ i ∈ r.items, i.lookup matchedFilters ≠ running.lookup matchedFilters) ∧
    ∃ r, (onStates [stateRunning, annotationPresent]).processResource .ofInsertion
        ⟨[running], none⟩ = .ok (r, true) ∧
      r.listItemMatches = some ["States[0]".toList] ∧
      (onStates [stateRunning, annotationPresent]).satisfied running = false := by
  refine ⟨⟨_, rfl, _, List.mem_singleton_self _, by decide⟩, _, rfl, rfl, by decide⟩

/-- The filter on the state alone meets what it is for. -/
theorem process_meets_running :
    ∃ results, (onStates [stateRunning]).process .ofInsertion [⟨[running], none⟩] = .ok results ∧
      List.Forall₂ (fun r x => (onStates [stateRunning]).Meets r x.1 x.2) [⟨[running], none⟩]
        results :=
  ListItemFilter.process_meets (by
    intro t ht l hl
    rw [List.mem_singleton.mp ht] at hl
    have hl' : l = stateRunning.leaf := by simpa [leaves] using hl
    refine ⟨stateRunning, hl', fun d d' h => ?_⟩
    rw [stateRunning]
    simp only [h "State".toList (by decide)]) _

end Custodian.ListItems

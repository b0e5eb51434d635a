import Custodian.Lib.Dict
import Custodian.Lib.Text
import Mathlib.Data.List.Dedup

/-!
# Block filters over annotated resources

The boolean group filters of `c7n/filters/core.py` (`Or`, `And`, `Not` and the
`AnnotationSweeper`) and `ResourceManager.filter_resources`.  Resources are
mutable dictionaries shared by every filter of a policy, so a filter runs on a
heap and a list of references into it.  A leaf filter is any function of that
kind that returns a selection of the resources it is given.

Python sets are iterated in an unspecified order: `SetOrder` is any such order.
Values are immutable here, so the deep copy of the sweeper is the value itself.
-/

namespace Custodian.Blocks

open Py

/-! ## Resources -/

/-- The identity of a resource object. -/
abbrev Ref := Nat

abbrev Resource (V : Type) := Dict Text V

abbrev Heap (V : Type) := Ref → Resource V

/-- `k.startswith('c7n')` -/
def annotationKey (k : Text) : Bool := Text.startsWith k "c7n"

/-- The meta model of a resource type: the `id` it names, and the compiled
jmespath expression that is used when the id is a dotted path.  The value of a
path is determined by the entry under its first key. -/
structure ResourceModel (V : Type) where
  id : Text
  search : Resource V → V
  search_congr : ∀ r r' : Resource V,
    r.lookup (id.takeWhile (· ≠ '.')) = r'.lookup (id.takeWhile (· ≠ '.')) → search r = search r'

/-- The top-level key that the id is read from. -/
def ResourceModel.idKey {V : Type} (m : ResourceModel V) : Text := m.id.takeWhile (· ≠ '.')

/-- The order in which a set built from the given insertions is iterated. -/
structure SetOrder (V : Type) where
  iter : List V → List V
  nodup : ∀ l, (iter l).Nodup
  mem : ∀ l v, v ∈ iter l ↔ v ∈ l

variable {V : Type}

/-- A set that is iterated in the order of the last insertions. -/
def SetOrder.ofInsertion [DecidableEq V] : SetOrder V where
  iter l := l.dedup
  nodup := List.nodup_dedup
  mem _ _ := List.mem_dedup

/-- `compiled.search(r)` for a dotted id and `r[rtype_id]` otherwise. -/
def typeId (m : ResourceModel V) (r : Resource V) : Except Exn V :=
  if '.' ∈ m.id then .ok (m.search r)
  else match r.lookup m.id with
    | some v => .ok v
    | none => .error .keyError

def typeIds (m : ResourceModel V) (h : Heap V) (rs : List Ref) : Except Exn (List V) :=
  rs.mapM fun r => typeId m (h r)

/-- `{id: r for r in resources}`: the last resource with an id wins. -/
def resourceMap (m : ResourceModel V) (h : Heap V) (rs : List Ref) :
    Except Exn (List (V × Ref)) := do
  let ids ← typeIds m h rs
  return (ids.zip rs).reverse

/-- `resource_map[r_id] for r_id in results` -/
def lookupAll [DecidableEq V] (rmap : List (V × Ref)) (ids : List V) : Except Exn (List Ref) :=
  ids.mapM fun i => match rmap.lookup i with
    | some r => .ok r
    | none => .error .keyError

/-! ## AnnotationSweeper -/

/-- The annotations of every resource and the resources themselves, by id. -/
structure AnnotationSweeper (V : Type) where
  raMap : List (V × Resource V)
  resourceMap : List (V × Ref)

def AnnotationSweeper.init (m : ResourceModel V) (h : Heap V) (rs : List Ref) :
    Except Exn (AnnotationSweeper V) := do
  let ids ← typeIds m h rs
  return ⟨(ids.zip (rs.map fun r => (h r).keepKeys annotationKey)).reverse, (ids.zip rs).reverse⟩

variable [DecidableEq V]

/-- Clear the annotations of the resource with an id and restore the saved ones. -/
def AnnotationSweeper.restore (s : AnnotationSweeper V) (h : Heap V) (rid : V) :
    Except Exn (Heap V) :=
  match s.resourceMap.lookup rid, s.raMap.lookup rid with
  | some r, some saved =>
    .ok (Function.update h r (((h r).dropKeys annotationKey).update saved))
  | _, _ => .error .keyError

/-- Restore every resource whose id is not among those of `rs`. -/
def AnnotationSweeper.sweep (s : AnnotationSweeper V) (m : ResourceModel V) (order : SetOrder V)
    (h : Heap V) (rs : List Ref) : Except Exn (Heap V) := do
  let kept ← typeIds m h rs
  (order.iter ((s.raMap.map Prod.fst).filter (· ∉ kept))).foldlM s.restore h

/-! ## Filters -/

/-- A leaf filter: `process` may annotate any resource and returns a selection
of the resources it is given. -/
structure LeafFilter (V : Type) where
  process : Heap V → List Ref → Except Exn (Heap V × List Ref)
  selects : ∀ h rs h' out, process h rs = .ok (h', out) → ∀ r ∈ out, r ∈ rs

/-- `Filter.process`: `list(filter(self, resources))` for a filter that is called
on one resource. -/
def LeafFilter.ofCall (call : Resource V → Bool) : LeafFilter V where
  process h rs := .ok (h, rs.filter fun r => call (h r))
  selects h rs h' out hrun r hr := by
    obtain ⟨rfl, rfl⟩ := hrun
    exact List.mem_of_mem_filter hr

inductive FilterTree (V : Type) where
  | leaf (f : LeafFilter V)
  | or (filters : List (FilterTree V))
  | and (filters : List (FilterTree V))
  | not (filters : List (FilterTree V))

mutual
/-- `process` of every class, for a tree whose groups have a manager
with meta model `m`. -/
def FilterTree.process (m : ResourceModel V) (order : SetOrder V) :
    FilterTree V → Heap V → List Ref → Except Exn (Heap V × List Ref)
  | .leaf f, h, rs => f.process h rs
  | .or fs, h, rs => do
    let rmap ← resourceMap m h rs
    let (h, results) ← orLoop m order fs h rs []
    let out ← lookupAll rmap (order.iter results)
    return (h, out)
  | .and fs, h, rs => do
    let sweeper ← AnnotationSweeper.init m h rs
    let (h, out) ← andLoop m order fs h rs
    let h ← sweeper.sweep m order h out
    return (h, out)
  | .not fs, h, rs => do
    let rmap ← resourceMap m h rs
    let sweeper ← AnnotationSweeper.init m h rs
    let (h, kept) ← andLoop m order fs h rs
    let after ← typeIds m h kept
    let results := order.iter ((rmap.map Prod.fst).filter (· ∉ after))
    let h ← sweeper.sweep m order h []
    let out ← lookupAll rmap results
    return (h, out)

/-- The loop of `Or.process_set`: every filter sees all resources, and the ids
it keeps are added to `results`. -/
def orLoop (m : ResourceModel V) (order : SetOrder V) :
    List (FilterTree V) → Heap V → List Ref → List V → Except Exn (Heap V × List V)
  | [], h, _, results => .ok (h, results)
  | f :: fs, h, rs, results => do
    let (h, out) ← FilterTree.process m order f h rs
    let ids ← typeIds m h out
    orLoop m order fs h rs (results ++ ids)

/-- The loop of `And.process` and `Not.process_set`: every filter sees what the
ones before it kept, up to the first empty set. -/
def andLoop (m : ResourceModel V) (order : SetOrder V) :
    List (FilterTree V) → Heap V → List Ref → Except Exn (Heap V × List Ref)
  | [], h, rs => .ok (h, rs)
  | f :: fs, h, rs => do
    let (h, out) ← FilterTree.process m order f h rs
    if out.isEmpty then return (h, out) else andLoop m order fs h out
end

/-- `ResourceManager.filter_resources` -/
def filterResources (m : ResourceModel V) (order : SetOrder V) :
    List (FilterTree V) → Heap V → List Ref → Except Exn (Heap V × List Ref)
  | [], h, rs => .ok (h, rs)
  | f :: fs, h, rs =>
    if rs.isEmpty then .ok (h, rs)
    else do
      let (h, out) ← f.process m order h rs
      filterResources m order fs h out

end Custodian.Blocks

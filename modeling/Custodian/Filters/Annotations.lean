import Custodian.Filters.Semantics

/-!
# Blocks leave no annotations on the resources they reject

Leaves that write nothing but annotations, the id key apart, are run by blocks
of any depth.
-/

namespace Custodian.Annotations

open Py BoolLogic Custodian.Blocks Custodian.Sweeper Custodian.Semantics

variable {V : Type} [DecidableEq V] {m : ResourceModel V} {order : SetOrder V}

/-- A leaf that writes only annotations, and not the key that ids are read from. -/
def Annotates (m : ResourceModel V) (l : LeafFilter V) : Prop :=
  ∀ h rs h' out, l.process h rs = .ok (h', out) → Frame m h h'

theorem Annotates.framed {l : LeafFilter V} (hl : Annotates m l) : Framed m order (.leaf l) := by
  intro h rs h' out _ hrun
  simp only [FilterTree.process] at hrun
  exact ⟨hl h rs h' out hrun, l.selects h rs h' out hrun⟩

theorem framed_of_annotates {f : FilterTree V} (hl : ∀ l ∈ leaves f, Annotates m l) :
    Framed m order f :=
  process_frame f fun l h => (hl l h).framed

omit [DecidableEq V] in
theorem restored_agreeOn (h h₁ : Heap V) (r : Ref) :
    Dict.AgreeOn (annotationKey · = true) (h r) (restored h h₁ r) := by
  intro k hk
  rw [lookup_restored, if_pos hk]

/-! ## The two blocks -/

theorem and_rejected {fs : List (FilterTree V)} (hl : ∀ f ∈ fs, ∀ l ∈ leaves f, Annotates m l)
    {h h' : Heap V} {rs out : List Ref} (hi : Identified m h rs)
    (hrun : (FilterTree.and fs).process m order h rs = .ok (h', out)) :
    ∀ r ∈ rs, r ∉ out → Dict.AgreeOn (annotationKey · = true) (h r) (h' r) := by
  simp only [FilterTree.process, bind_eq_ok, pure_eq_ok, Prod.exists, Prod.mk.injEq] at hrun
  obtain ⟨s, hs, h₁, out₁, hloop, h₂, hsweep, rfl, rfl⟩ := hrun
  obtain ⟨hframe, hsub⟩ := andLoop_frame (fun f hf => framed_of_annotates (hl f hf)) hi hloop
  obtain ⟨h₃, hrun₃, hin, -⟩ := sweep_spec order hs hi hframe hsub
  rw [hsweep, Except.ok.injEq] at hrun₃
  subst hrun₃
  intro r hr hno
  rw [hin r hr hno]
  exact restored_agreeOn h h₁ r

theorem not_restored {fs : List (FilterTree V)} (hl : ∀ f ∈ fs, ∀ l ∈ leaves f, Annotates m l)
    {h h' : Heap V} {rs out : List Ref} (hi : Identified m h rs)
    (hrun : (FilterTree.not fs).process m order h rs = .ok (h', out)) :
    ∀ r ∈ rs, Dict.AgreeOn (annotationKey · = true) (h r) (h' r) := by
  simp only [FilterTree.process, bind_eq_ok, pure_eq_ok, Prod.exists, Prod.mk.injEq] at hrun
  obtain ⟨rmap, -, s, hs, h₁, kept, hloop, after, -, h₂, hsweep, out₁, -, rfl, rfl⟩ := hrun
  obtain ⟨hframe, -⟩ := andLoop_frame (fun f hf => framed_of_annotates (hl f hf)) hi hloop
  obtain ⟨h₃, hrun₃, hin, -⟩ := sweep_spec order hs hi hframe (List.forall_mem_nil _)
  rw [hsweep, Except.ok.injEq] at hrun₃
  subst hrun₃
  intro r hr
  rw [hin r hr List.not_mem_nil]
  exact restored_agreeOn h h₁ r

/-- **Blocks are clean.**  Whatever its members are, an `and` block gives the
resources it rejects their annotations back, a `not` block all resources, and
neither changes a key that is not an annotation. -/
theorem blocks_clean {fs : List (FilterTree V)} (hl : ∀ f ∈ fs, ∀ l ∈ leaves f, Annotates m l)
    {h : Heap V} {rs : List Ref} (hd : DistinctIds m h rs) :
    (∀ h' out, (FilterTree.and fs).process m order h rs = .ok (h', out) →
      (∀ r ∈ rs, r ∉ out → Dict.AgreeOn (annotationKey · = true) (h r) (h' r)) ∧
        ∀ r, Dict.AgreeOn (annotationKey · = false) (h r) (h' r)) ∧
    ∀ h' out, (FilterTree.not fs).process m order h rs = .ok (h', out) →
      (∀ r ∈ rs, Dict.AgreeOn (annotationKey · = true) (h r) (h' r)) ∧
        ∀ r, Dict.AgreeOn (annotationKey · = false) (h r) (h' r) := by
  have hi := hd.identified
  have hplain : ∀ {h' : Heap V}, Frame m h h' →
      ∀ r, Dict.AgreeOn (annotationKey · = false) (h r) (h' r) :=
    fun hf r k hk => hf r k (Or.inl hk)
  have hand : Framed m order (.and fs) := framed_of_annotates fun l hlf => by
    obtain ⟨f, hf, hlf⟩ : ∃ f ∈ fs, l ∈ leaves f := by simpa [leaves] using hlf
    exact hl f hf l hlf
  have hnot : Framed m order (.not fs) := framed_of_annotates fun l hlf => by
    obtain ⟨f, hf, hlf⟩ : ∃ f ∈ fs, l ∈ leaves f := by simpa [leaves] using hlf
    exact hl f hf l hlf
  exact ⟨fun h' out hrun => ⟨and_rejected hl hi hrun, hplain (hand h rs h' out hi hrun).1⟩,
    fun h' out hrun => ⟨not_restored hl hi hrun, hplain (hnot h rs h' out hi hrun).1⟩⟩

/-! ## Two leaves -/

/-- Annotate every resource of the list with `values`, and keep those with `v`
under `k`. -/
def annotate (values : Dict Text V) (k : Text) (v : V) : LeafFilter V where
  process h rs := .ok (fun r => if r ∈ rs then (h r).update values else h r,
    rs.filter fun r => (h r).lookup k = some v)
  selects h rs h' out hrun r hr := by
    obtain ⟨rfl, rfl⟩ := hrun
    exact List.mem_of_mem_filter hr

theorem annotate_agreeOn {values : Dict Text V} {k : Text} {v : V} {s : Text → Prop}
    (hs : ∀ k, s k → values.lookup k = none) {h h' : Heap V} {rs out : List Ref}
    (hrun : (annotate values k v).process h rs = .ok (h', out)) (r : Ref) :
    Dict.AgreeOn s (h r) (h' r) := by
  obtain ⟨rfl, rfl⟩ := hrun
  intro k hk
  by_cases hr : r ∈ rs
  · simp only [hr, ↓reduceIte, Dict.lookup_update, hs k hk, Option.none_or]
  · simp only [hr, ↓reduceIte]

def instances : Heap (Option Text) := fun r =>
  AList.insert "c7n:_id".toList (some (if r = 0 then "a".toList else "b".toList))
    (AList.insert "State".toList (some (if r = 0 then "running".toList else "stopped".toList)) ∅)

def matched : Dict Text (Option Text) :=
  AList.insert "c7n:matched".toList (some "yes".toList) ∅

theorem lookup_matched {k : Text} (hk : k ≠ "c7n:matched".toList) : matched.lookup k = none := by
  rw [matched, AList.lookup_insert_ne hk]
  rfl

/-- List items are told apart by `c7n:_id`; a leaf marks both items and keeps
one of them. -/
theorem blocks_clean_items :
    let m := plainModel "c7n:_id".toList
    let fs := [FilterTree.not [.leaf (annotate matched "State".toList (some "stopped".toList))],
      .leaf (annotate matched "State".toList (some "running".toList))]
    (∀ h' out, (FilterTree.and fs).process m .ofInsertion instances [0, 1] = .ok (h', out) →
      (∀ r ∈ [0, 1], r ∉ out → Dict.AgreeOn (annotationKey · = true) (instances r) (h' r)) ∧
        ∀ r, Dict.AgreeOn (annotationKey · = false) (instances r) (h' r)) ∧
    ∀ h' out, (FilterTree.not fs).process m .ofInsertion instances [0, 1] = .ok (h', out) →
      (∀ r ∈ [0, 1], Dict.AgreeOn (annotationKey · = true) (instances r) (h' r)) ∧
        ∀ r, Dict.AgreeOn (annotationKey · = false) (instances r) (h' r) := by
  intro m fs
  have hannotates : ∀ v, Annotates m (annotate matched "State".toList v) := by
    intro v h rs h' out hrun r
    refine annotate_agreeOn (fun k hk => lookup_matched ?_) hrun r
    rintro rfl
    rcases hk with hk | hk
    · exact absurd hk (by decide)
    · exact absurd hk (by decide)
  refine blocks_clean (m := m) (fun f hf l hl => ?_)
    ⟨[some "a".toList, some "b".toList], rfl, by decide⟩
  rcases List.mem_cons.mp hf with rfl | hf
  · have hl' : l = annotate matched "State".toList (some "stopped".toList) := by
      simpa [leaves] using hl
    exact hl' ▸ hannotates _
  · rw [List.mem_singleton.mp hf] at hl
    have hl' : l = annotate matched "State".toList (some "running".toList) := by
      simpa [leaves] using hl
    exact hl' ▸ hannotates _

/-- The leaf gives both items the id of the second one: the block takes the
first, which it returns, for the rejected one. -/
theorem id_annotation_kept :
    let m := plainModel "c7n:_id".toList
    let values := AList.insert "c7n:_id".toList (some "b".toList) matched
    let l := annotate values "State".toList (some "running".toList)
    (∀ h rs h' out, l.process h rs = .ok (h', out) →
      ∀ r, Dict.AgreeOn (annotationKey · = false) (h r) (h' r)) ∧
    DistinctIds m instances [0, 1] ∧
    ∃ h', (FilterTree.and [.leaf l]).process m .ofInsertion instances [0, 1] = .ok (h', [0]) ∧
      ¬ Dict.AgreeOn (annotationKey · = true) (instances 1) (h' 1) := by
  intro m values l
  refine ⟨fun h rs h' out hrun r => annotate_agreeOn (fun k hk => ?_) hrun r,
    ⟨[some "a".toList, some "b".toList], rfl, by decide⟩, ?_⟩
  · have hid : k ≠ "c7n:_id".toList := by
      rintro rfl
      exact absurd hk (by decide)
    have hmatched : k ≠ "c7n:matched".toList := by
      rintro rfl
      exact absurd hk (by decide)
    rw [AList.lookup_insert_ne hid, lookup_matched hmatched]
  · refine ⟨_, rfl, fun hagree => ?_⟩
    have := hagree "c7n:matched".toList (by decide)
    exact absurd this (by decide)

end Custodian.Annotations

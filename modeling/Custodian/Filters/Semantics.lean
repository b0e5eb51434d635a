import Custodian.Filters.Sweeper
import Custodian.Lib.Formula

/-!
# Block filters evaluate Boolean logic

A filter tree reads as a formula over its leaves: `or` is a disjunction, `and` a
conjunction and `not` the negation of the conjunction of its members.
-/

namespace Custodian.Semantics

open Py BoolLogic Custodian.Blocks Custodian.Sweeper

variable {V : Type} {m : ResourceModel V} {order : SetOrder V}

/-! ## Filter trees as formulas -/

mutual
def formula : FilterTree V → Formula (LeafFilter V)
  | .leaf l => .atom l
  | .or fs => .any (formulas fs)
  | .and fs => .all (formulas fs)
  | .not fs => .neg (.all (formulas fs))

def formulas : List (FilterTree V) → List (Formula (LeafFilter V))
  | [] => []
  | f :: fs => formula f :: formulas fs
end

theorem formulas_eq (fs : List (FilterTree V)) : formulas fs = fs.map formula := by
  induction fs with
  | nil => rfl
  | cons f fs ih => exact congrArg (formula f :: ·) ih

@[simp] theorem formula_leaf (l : LeafFilter V) : formula (.leaf l) = .atom l := rfl

@[simp] theorem formula_or (fs : List (FilterTree V)) :
    formula (.or fs) = .any (fs.map formula) := congrArg Formula.any (formulas_eq fs)

@[simp] theorem formula_and (fs : List (FilterTree V)) :
    formula (.and fs) = .all (fs.map formula) := congrArg Formula.all (formulas_eq fs)

@[simp] theorem formula_not (fs : List (FilterTree V)) :
    formula (.not fs) = .neg (.all (fs.map formula)) :=
  congrArg (fun gs => Formula.neg (.all gs)) (formulas_eq fs)

/-- Induction over a filter tree with one hypothesis for every member of a group. -/
@[elab_as_elim]
theorem filter_induct {motive : FilterTree V → Prop}
    (leaf : ∀ l, motive (.leaf l))
    (or : ∀ fs, (∀ f ∈ fs, motive f) → motive (.or fs))
    (and : ∀ fs, (∀ f ∈ fs, motive f) → motive (.and fs))
    (not : ∀ fs, (∀ f ∈ fs, motive f) → motive (.not fs)) (f : FilterTree V) : motive f :=
  @FilterTree.rec V motive (fun fs => ∀ f ∈ fs, motive f) leaf or and not (by simp)
    (fun f fs hf hfs => by
      intro g hg
      rcases List.mem_cons.mp hg with rfl | hg
      · exact hf
      · exact hfs g hg) f

/-- The leaves of a filter tree. -/
def leaves (f : FilterTree V) : List (LeafFilter V) := (formula f).atoms

/-! ## Filters that only annotate -/

variable [DecidableEq V]

/-- Every successful run of the filter leaves all but annotations unchanged and
returns a selection of its input. -/
def Framed (m : ResourceModel V) (order : SetOrder V) (f : FilterTree V) : Prop :=
  ∀ h rs h' out, Identified m h rs → f.process m order h rs = .ok (h', out) →
    Frame m h h' ∧ ∀ r ∈ out, r ∈ rs

/-- A relation of what resources were to what they become, that a sweep keeps and that
leaves all but annotations unchanged. -/
structure Preserved (m : ResourceModel V) (R : Resource V → Resource V → Prop) : Prop where
  refl : ∀ d, R d d
  trans : ∀ {d e f}, R d e → R e f → R d f
  frame : ∀ {d e}, R d e → Dict.AgreeOn (fun k => annotationKey k = false ∨ k = m.idKey) d e
  sweep : ∀ {d e}, R d e → R d ((e.dropKeys annotationKey).update (d.keepKeys annotationKey))

/-- Every successful run of the filter relates each resource to what it becomes, and
returns a selection of its input. -/
def Related (m : ResourceModel V) (order : SetOrder V) (R : Resource V → Resource V → Prop)
    (f : FilterTree V) : Prop :=
  ∀ h rs h' out, Identified m h rs → f.process m order h rs = .ok (h', out) →
    (∀ r, R (h r) (h' r)) ∧ ∀ r ∈ out, r ∈ rs

omit [DecidableEq V] in
theorem preserved_frame :
    Preserved m (Dict.AgreeOn fun k => annotationKey k = false ∨ k = m.idKey) where
  refl := Dict.AgreeOn.refl _
  trans := Dict.AgreeOn.trans
  frame := id
  sweep {d e} h k hk := by
    rw [Dict.lookup_restore]
    split
    · rfl
    · exact h k hk

section Related

variable {R : Resource V → Resource V → Prop}

theorem andLoop_related (hR : Preserved m R) {fs : List (FilterTree V)}
    (hfs : ∀ f ∈ fs, Related m order R f) :
    ∀ {h rs h' out}, Identified m h rs → andLoop m order fs h rs = .ok (h', out) →
      (∀ r, R (h r) (h' r)) ∧ ∀ r ∈ out, r ∈ rs := by
  induction fs with
  | nil =>
    intro h rs h' out _ hrun
    simp only [andLoop, Except.ok.injEq, Prod.mk.injEq] at hrun
    obtain ⟨rfl, rfl⟩ := hrun
    exact ⟨fun r => hR.refl _, fun _ => id⟩
  | cons f fs ih =>
    intro h rs h' out hi hrun
    simp only [andLoop, bind_eq_ok, Prod.exists] at hrun
    obtain ⟨h₁, out₁, hf, hrest⟩ := hrun
    obtain ⟨hrel, hsub⟩ := hfs f (List.mem_cons_self ..) h rs h₁ out₁ hi hf
    split at hrest
    · simp only [pure_eq_ok, Prod.mk.injEq] at hrest
      obtain ⟨rfl, rfl⟩ := hrest
      exact ⟨hrel, hsub⟩
    · obtain ⟨hrel', hsub'⟩ := ih (fun g hg => hfs g (List.mem_cons_of_mem _ hg))
        ((hi.subset hsub).frame fun r => hR.frame (hrel r)) hrest
      exact ⟨fun r => hR.trans (hrel r) (hrel' r), fun r hr => hsub r (hsub' r hr)⟩

theorem orLoop_related (hR : Preserved m R) {fs : List (FilterTree V)}
    (hfs : ∀ f ∈ fs, Related m order R f) :
    ∀ {h rs results h' results'}, Identified m h rs →
      orLoop m order fs h rs results = .ok (h', results') →
      (∀ r, R (h r) (h' r)) ∧
        ∀ i ∈ results', i ∈ results ∨ ∃ r ∈ rs, typeId m (h r) = .ok i := by
  induction fs with
  | nil =>
    intro h rs results h' results' _ hrun
    simp only [orLoop, Except.ok.injEq, Prod.mk.injEq] at hrun
    obtain ⟨rfl, rfl⟩ := hrun
    exact ⟨fun r => hR.refl _, fun _ => Or.inl⟩
  | cons f fs ih =>
    intro h rs results h' results' hi hrun
    simp only [orLoop, bind_eq_ok, Prod.exists] at hrun
    obtain ⟨h₁, out₁, hf, ids, hids, hrest⟩ := hrun
    obtain ⟨hrel, hsub⟩ := hfs f (List.mem_cons_self ..) h rs h₁ out₁ hi hf
    have hframe : Frame m h h₁ := fun r => hR.frame (hrel r)
    obtain ⟨hrel', hmem⟩ := ih (fun g hg => hfs g (List.mem_cons_of_mem _ hg))
      (hi.frame hframe) hrest
    refine ⟨fun r => hR.trans (hrel r) (hrel' r), fun i hin => ?_⟩
    rcases hmem i hin with hin | ⟨r, hr, hid⟩
    · rcases List.mem_append.mp hin with hin | hin
      · exact Or.inl hin
      · obtain ⟨r, hr, hid⟩ := (mem_typeIds hids i).mp hin
        exact Or.inr ⟨r, hsub r hr, by rw [← hframe.typeId_eq, hid]⟩
    · exact Or.inr ⟨r, hr, by rw [← hframe.typeId_eq, hid]⟩

omit [DecidableEq V] in
theorem related_of_sweep (hR : Preserved m R) {h h₁ h₂ : Heap V} {rs out : List Ref}
    (hrel : ∀ r, R (h r) (h₁ r)) (hin : ∀ r ∈ rs, r ∉ out → h₂ r = restored h h₁ r)
    (hout : ∀ r, r ∉ rs ∨ r ∈ out → h₂ r = h₁ r) (r : Ref) : R (h r) (h₂ r) := by
  by_cases hr : r ∉ rs ∨ r ∈ out
  · rw [hout r hr]
    exact hrel r
  · simp only [not_or, not_not] at hr
    rw [hin r hr.1 hr.2]
    exact hR.sweep (hrel r)

theorem process_related (hR : Preserved m R) (f : FilterTree V)
    (hl : ∀ l ∈ leaves f, Related m order R (.leaf l)) : Related m order R f := by
  induction f using filter_induct with
  | leaf l => exact hl l (by simp [leaves])
  | or fs ih =>
    intro h rs h' out hi hrun
    have hfs : ∀ f ∈ fs, Related m order R f := fun f hf => ih f hf fun l hlf =>
      hl l (by simpa [leaves] using ⟨f, hf, hlf⟩)
    simp only [FilterTree.process, bind_eq_ok, pure_eq_ok, Prod.exists, Prod.mk.injEq] at hrun
    obtain ⟨rmap, hrmap, h₁, results, hloop, out₁, hlook, rfl, rfl⟩ := hrun
    obtain ⟨hrel, hmem⟩ := orLoop_related hR hfs hi hloop
    obtain ⟨out₂, hout₂, -, hmem₂⟩ := lookupAll_spec (order.iter results) hrmap hi
      fun i hin => by simpa using hmem i ((order.mem _ _).mp hin)
    rw [hlook, Except.ok.injEq] at hout₂
    subst hout₂
    exact ⟨hrel, fun r hr => ((hmem₂ r).mp hr).1⟩
  | and fs ih =>
    intro h rs h' out hi hrun
    have hfs : ∀ f ∈ fs, Related m order R f := fun f hf => ih f hf fun l hlf =>
      hl l (by simpa [leaves] using ⟨f, hf, hlf⟩)
    simp only [FilterTree.process, bind_eq_ok, pure_eq_ok, Prod.exists, Prod.mk.injEq] at hrun
    obtain ⟨s, hs, h₁, out₁, hloop, h₂, hsweep, rfl, rfl⟩ := hrun
    obtain ⟨hrel, hsub⟩ := andLoop_related hR hfs hi hloop
    obtain ⟨h₃, hrun₃, hin, hout⟩ := sweep_spec order hs hi (fun r => hR.frame (hrel r)) hsub
    rw [hsweep, Except.ok.injEq] at hrun₃
    subst hrun₃
    exact ⟨related_of_sweep hR hrel hin hout, hsub⟩
  | not fs ih =>
    intro h rs h' out hi hrun
    have hfs : ∀ f ∈ fs, Related m order R f := fun f hf => ih f hf fun l hlf =>
      hl l (by simpa [leaves] using ⟨f, hf, hlf⟩)
    simp only [FilterTree.process, bind_eq_ok, pure_eq_ok, Prod.exists, Prod.mk.injEq] at hrun
    obtain ⟨rmap, hrmap, s, hs, h₁, kept, hloop, after, hafter, h₂, hsweep, out₁, hlook, rfl, rfl⟩ :=
      hrun
    obtain ⟨hrel, -⟩ := andLoop_related hR hfs hi hloop
    obtain ⟨h₃, hrun₃, hin, hout⟩ :=
      sweep_spec order hs hi (fun r => hR.frame (hrel r)) (List.forall_mem_nil _)
    rw [hsweep, Except.ok.injEq] at hrun₃
    subst hrun₃
    refine ⟨related_of_sweep hR hrel hin hout, fun r hr => ?_⟩
    obtain ⟨out₂, hout₂, -, hmem₂⟩ := lookupAll_spec
      (order.iter ((rmap.map Prod.fst).filter (· ∉ after))) hrmap hi fun i hin => by
        rw [order.mem, List.mem_filter] at hin
        exact (mem_keys_resourceMap hrmap i).mp hin.1
    rw [hlook, Except.ok.injEq] at hout₂
    subst hout₂
    exact ((hmem₂ r).mp hr).1

theorem filterResources_related (hR : Preserved m R) {fs : List (FilterTree V)}
    (hl : ∀ f ∈ fs, ∀ l ∈ leaves f, Related m order R (.leaf l)) :
    ∀ {h rs h' out}, Identified m h rs → filterResources m order fs h rs = .ok (h', out) →
      (∀ r, R (h r) (h' r)) ∧ ∀ r ∈ out, r ∈ rs := by
  induction fs with
  | nil =>
    intro h rs h' out _ hrun
    cases hrun
    exact ⟨fun r => hR.refl _, fun _ => id⟩
  | cons f fs ih =>
    intro h rs h' out hi hrun
    rw [filterResources] at hrun
    split at hrun
    · cases hrun
      exact ⟨fun r => hR.refl _, fun _ => id⟩
    · obtain ⟨⟨h₁, out₁⟩, hf, hrest⟩ := bind_eq_ok.mp hrun
      obtain ⟨hrel, hsub⟩ :=
        process_related hR f (hl f (List.mem_cons_self ..)) h rs h₁ out₁ hi hf
      obtain ⟨hrel', hsub'⟩ := ih (fun g hg => hl g (List.mem_cons_of_mem _ hg))
        ((hi.subset hsub).frame fun r => hR.frame (hrel r)) hrest
      exact ⟨fun r => hR.trans (hrel r) (hrel' r), fun r hr => hsub r (hsub' r hr)⟩

end Related

theorem andLoop_frame {fs : List (FilterTree V)} (hfs : ∀ f ∈ fs, Framed m order f)
    {h : Heap V} {rs : List Ref} {h' : Heap V} {out : List Ref} (hi : Identified m h rs)
    (hrun : andLoop m order fs h rs = .ok (h', out)) : Frame m h h' ∧ ∀ r ∈ out, r ∈ rs :=
  andLoop_related preserved_frame hfs hi hrun

omit [DecidableEq V] in
theorem frame_of_sweep {h h₁ h₂ : Heap V} {rs out : List Ref} (hf : Frame m h h₁)
    (hin : ∀ r ∈ rs, r ∉ out → h₂ r = restored h h₁ r)
    (hout : ∀ r, r ∉ rs ∨ r ∈ out → h₂ r = h₁ r) : Frame m h h₂ :=
  related_of_sweep preserved_frame hf hin hout

theorem process_frame (f : FilterTree V) (hl : ∀ l ∈ leaves f, Framed m order (.leaf l)) :
    Framed m order f := process_related preserved_frame f hl

/-! ## Filters that select by a predicate -/

omit [DecidableEq V] in
/-- A leaf that keeps exactly the resources satisfying `p`, where `p` does not
look at annotations: it may return them in any order and annotate them. -/
structure Selects (m : ResourceModel V) (l : LeafFilter V) (p : Resource V → Bool) : Prop where
  ignores : ∀ d d', Dict.AgreeOn (annotationKey · = false) d d' → p d = p d'
  run : ∀ h rs, DistinctIds m h rs → ∃ h' out, l.process h rs = .ok (h', out) ∧
    Frame m h h' ∧ out.Perm (rs.filter fun r => p (h r))

/-- The formula of `f` at one resource. -/
def truth (holds : LeafFilter V → Resource V → Bool) (f : FilterTree V) (d : Resource V) : Bool :=
  (formula f).eval fun l => holds l d

/-- On identified resources the filter returns, annotates only, and keeps
exactly the resources with a true formula, each once. -/
def Correct (m : ResourceModel V) (order : SetOrder V)
    (holds : LeafFilter V → Resource V → Bool) (f : FilterTree V) : Prop :=
  ∀ h rs, DistinctIds m h rs → ∃ h' out, f.process m order h rs = .ok (h', out) ∧
    Frame m h h' ∧ out.Nodup ∧ ∀ r, r ∈ out ↔ r ∈ rs ∧ truth holds f (h r) = true

variable {holds : LeafFilter V → Resource V → Bool}

omit [DecidableEq V] in
theorem truth_frame {f : FilterTree V} (hl : ∀ l ∈ leaves f, Selects m l (holds l)) {h h' : Heap V}
    (hf : Frame m h h') (r : Ref) : truth holds f (h' r) = truth holds f (h r) := by
  apply Formula.eval_congr
  intro l hlf
  exact (hl l hlf).ignores _ _ fun k hk => (hf r k (Or.inl hk)).symm

theorem andLoop_correct {fs : List (FilterTree V)} (hfs : ∀ f ∈ fs, Correct m order holds f)
    (hl : ∀ f ∈ fs, ∀ l ∈ leaves f, Selects m l (holds l)) :
    ∀ h rs, DistinctIds m h rs → ∃ h' out, andLoop m order fs h rs = .ok (h', out) ∧
      Frame m h h' ∧ out.Nodup ∧
        ∀ r, r ∈ out ↔ r ∈ rs ∧ fs.all (fun f => truth holds f (h r)) = true := by
  induction fs with
  | nil => exact fun h rs hd => ⟨h, rs, rfl, .refl _ _, hd.nodup, by simp⟩
  | cons f fs ih =>
    intro h rs hd
    obtain ⟨h₁, out₁, hrun₁, hframe₁, hn₁, hmem₁⟩ := hfs f (List.mem_cons_self ..) h rs hd
    by_cases he : out₁.isEmpty = true
    · refine ⟨h₁, out₁, ?_, hframe₁, hn₁, fun r => ?_⟩
      · simp only [andLoop, hrun₁, bind, Except.bind, he, ↓reduceIte]
        rfl
      · have hno : r ∉ out₁ := by simp [List.isEmpty_iff.mp he]
        refine iff_of_false hno fun ⟨hr, hall⟩ => hno ((hmem₁ r).mpr ⟨hr, ?_⟩)
        simp only [List.all_cons, Bool.and_eq_true] at hall
        exact hall.1
    · have hd₁ : DistinctIds m h₁ out₁ := distinctIds_iff.mpr ⟨hn₁,
        (hd.identified.subset fun r hr => ((hmem₁ r).mp hr).1).frame hframe₁⟩
      obtain ⟨h₂, out₂, hrun₂, hframe₂, hn₂, hmem₂⟩ :=
        ih (fun g hg => hfs g (List.mem_cons_of_mem _ hg))
          (fun g hg => hl g (List.mem_cons_of_mem _ hg)) h₁ out₁ hd₁
      refine ⟨h₂, out₂, ?_, hframe₁.trans hframe₂, hn₂, fun r => ?_⟩
      · simp only [andLoop, hrun₁, bind, Except.bind, he]
        exact hrun₂
      · have hsame : fs.all (fun f => truth holds f (h₁ r)) = true ↔
            fs.all (fun f => truth holds f (h r)) = true := by
          simp only [List.all_eq_true]
          refine forall₂_congr fun g hg => ?_
          rw [truth_frame (hl g (List.mem_cons_of_mem _ hg)) hframe₁]
        rw [hmem₂, hmem₁, hsame, List.all_cons, Bool.and_eq_true, and_assoc]

theorem orLoop_correct {fs : List (FilterTree V)} (hfs : ∀ f ∈ fs, Correct m order holds f)
    (hl : ∀ f ∈ fs, ∀ l ∈ leaves f, Selects m l (holds l)) :
    ∀ h rs results, DistinctIds m h rs →
      ∃ h' results', orLoop m order fs h rs results = .ok (h', results') ∧ Frame m h h' ∧
        ∀ i, i ∈ results' ↔ i ∈ results ∨ ∃ r ∈ rs, typeId m (h r) = .ok i ∧
          fs.any (fun f => truth holds f (h r)) = true := by
  induction fs with
  | nil => exact fun h rs results _ => ⟨h, results, rfl, .refl _ _, by simp⟩
  | cons f fs ih =>
    intro h rs results hd
    obtain ⟨h₁, out₁, hrun₁, hframe₁, hn₁, hmem₁⟩ := hfs f (List.mem_cons_self ..) h rs hd
    have hi₁ := (hd.identified.subset fun r hr => ((hmem₁ r).mp hr).1).frame hframe₁
    obtain ⟨ids, hids⟩ := hi₁.exists_typeIds
    have hd₁ : DistinctIds m h₁ rs :=
      distinctIds_iff.mpr ⟨hd.nodup, hd.identified.frame hframe₁⟩
    obtain ⟨h₂, results₂, hrun₂, hframe₂, hmem₂⟩ :=
      ih (fun g hg => hfs g (List.mem_cons_of_mem _ hg))
        (fun g hg => hl g (List.mem_cons_of_mem _ hg)) h₁ rs (results ++ ids) hd₁
    refine ⟨h₂, results₂, ?_, hframe₁.trans hframe₂, fun i => ?_⟩
    · simp only [orLoop, hrun₁, hids, bind, Except.bind]
      exact hrun₂
    · have hsame : ∀ r, fs.any (fun f => truth holds f (h₁ r)) = true ↔
          fs.any (fun f => truth holds f (h r)) = true := by
        intro r
        simp only [List.any_eq_true]
        refine exists_congr fun g => and_congr_right fun hg => ?_
        rw [truth_frame (hl g (List.mem_cons_of_mem _ hg)) hframe₁]
      rw [hmem₂, List.mem_append, mem_typeIds hids, or_assoc]
      simp only [hframe₁.typeId_eq, hmem₁, hsame, List.any_cons, Bool.or_eq_true]
      refine or_congr_right ?_
      constructor
      · rintro (⟨r, ⟨hr, ht⟩, hid⟩ | ⟨r, hr, hid, ht⟩)
        · exact ⟨r, hr, hid, Or.inl ht⟩
        · exact ⟨r, hr, hid, Or.inr ht⟩
      · rintro ⟨r, hr, hid, ht | ht⟩
        · exact Or.inl ⟨r, ⟨hr, ht⟩, hid⟩
        · exact Or.inr ⟨r, hr, hid, ht⟩

theorem or_correct {fs : List (FilterTree V)} (hfs : ∀ f ∈ fs, Correct m order holds f)
    (hl : ∀ f ∈ fs, ∀ l ∈ leaves f, Selects m l (holds l)) :
    Correct m order holds (.or fs) := by
  intro h rs hd
  have hi := hd.identified
  obtain ⟨rmap, hrmap⟩ := hi.exists_resourceMap
  obtain ⟨h₁, results, hloop, hframe, hmem⟩ :=
    orLoop_correct hfs hl h rs [] hd
  obtain ⟨out, hout, hn, hmem'⟩ := lookupAll_spec (order.iter results) hrmap hi
    fun i hin => by
      obtain ⟨r, hr, hid, -⟩ := by simpa using (hmem i).mp ((order.mem _ _).mp hin)
      exact ⟨r, hr, hid⟩
  refine ⟨h₁, out, ?_, hframe, hn (order.nodup _), fun r => ?_⟩
  · simp only [FilterTree.process, hrmap, hloop, hout, bind, Except.bind]
    rfl
  · rw [hmem']
    refine and_congr_right fun hr => ?_
    simp only [order.mem, hmem, List.not_mem_nil, false_or, truth, formula_or,
      Formula.eval_any, List.any_map]
    constructor
    · rintro ⟨i, ⟨r', hr', hid', ht⟩, hid⟩
      obtain ⟨j, hj, hu⟩ := hi r hr
      rw [hid, Except.ok.injEq] at hj
      subst hj
      rwa [hu r' hr' hid'] at ht
    · intro ht
      obtain ⟨i, hid, -⟩ := hi r hr
      exact ⟨i, ⟨r, hr, hid, ht⟩, hid⟩

theorem and_correct {fs : List (FilterTree V)} (hfs : ∀ f ∈ fs, Correct m order holds f)
    (hl : ∀ f ∈ fs, ∀ l ∈ leaves f, Selects m l (holds l)) :
    Correct m order holds (.and fs) := by
  intro h rs hd
  obtain ⟨s, hs⟩ := hd.identified.exists_init
  obtain ⟨h₁, out, hloop, hframe, hn, hmem⟩ :=
    andLoop_correct hfs hl h rs hd
  obtain ⟨h₂, hsweep, hin, hout⟩ := sweep_spec order hs hd.identified hframe
    fun r hr => ((hmem r).mp hr).1
  refine ⟨h₂, out, ?_, frame_of_sweep hframe hin hout, hn, fun r => ?_⟩
  · simp only [FilterTree.process, hs, hloop, hsweep, bind, Except.bind]
    rfl
  · rw [hmem]
    simp [truth, List.all_map, Function.comp_def]

theorem not_correct {fs : List (FilterTree V)} (hfs : ∀ f ∈ fs, Correct m order holds f)
    (hl : ∀ f ∈ fs, ∀ l ∈ leaves f, Selects m l (holds l)) :
    Correct m order holds (.not fs) := by
  intro h rs hd
  have hi := hd.identified
  obtain ⟨rmap, hrmap⟩ := hi.exists_resourceMap
  obtain ⟨s, hs⟩ := hi.exists_init
  obtain ⟨h₁, kept, hloop, hframe, -, hmem⟩ :=
    andLoop_correct hfs hl h rs hd
  obtain ⟨after, hafter⟩ :=
    ((hi.subset fun r hr => ((hmem r).mp hr).1).frame hframe).exists_typeIds
  obtain ⟨h₂, hsweep, hin, hout⟩ := sweep_spec order hs hi hframe (List.forall_mem_nil _)
  obtain ⟨out, hlook, hn, hmem'⟩ := lookupAll_spec
    (order.iter ((rmap.map Prod.fst).filter (· ∉ after))) hrmap hi fun i hin => by
      rw [order.mem, List.mem_filter] at hin
      exact (mem_keys_resourceMap hrmap i).mp hin.1
  refine ⟨h₂, out, ?_, frame_of_sweep hframe hin hout, hn (order.nodup _), fun r => ?_⟩
  · simp only [FilterTree.process, hrmap, hs, hloop, hafter, hsweep, hlook, bind, Except.bind]
    rfl
  · rw [hmem']
    refine and_congr_right fun hr => ?_
    obtain ⟨i, hid, hu⟩ := hi r hr
    -- `r` is in the complement exactly when the conjunction did not keep it
    have hkept : i ∈ after ↔ r ∈ kept := by
      rw [mem_typeIds hafter]
      simp only [hframe.typeId_eq]
      constructor
      · rintro ⟨r', hr', hid'⟩
        rwa [← hu r' ((hmem r').mp hr').1 hid']
      · exact fun hrk => ⟨r, hrk, hid⟩
    have hex : (∃ j ∈ order.iter ((rmap.map Prod.fst).filter (· ∉ after)),
        typeId m (h r) = .ok j) ↔ i ∉ after := by
      simp only [hid, Except.ok.injEq, exists_eq_right', order.mem, List.mem_filter,
        mem_keys_resourceMap hrmap, decide_eq_true_eq]
      exact ⟨And.right, fun hno => ⟨⟨r, hr, hid⟩, hno⟩⟩
    rw [hex, hkept, hmem]
    simp [truth, List.all_map, Function.comp_def, hr]

/-- **Block semantics.**  A filter tree keeps exactly the resources its formula
is true of, each once, whichever strategy its groups use. -/
theorem process_semantics (f : FilterTree V) (hl : ∀ l ∈ leaves f, Selects m l (holds l)) :
    Correct m order holds f := by
  have hparts : ∀ fs : List (FilterTree V), (∀ l ∈ fs.flatMap leaves, Selects m l (holds l)) →
      ∀ f ∈ fs, ∀ l ∈ leaves f, Selects m l (holds l) :=
    fun _ h f hf l hlf => h l (List.mem_flatMap.mpr ⟨f, hf, hlf⟩)
  induction f using filter_induct with
  | leaf l =>
    intro h rs hd
    obtain ⟨h', out, hrun, hframe, hperm⟩ := (hl l (by simp [leaves])).run h rs hd
    refine ⟨h', out, by simpa only [FilterTree.process] using hrun, hframe,
      hperm.nodup_iff.mpr (hd.nodup.filter _), fun r => ?_⟩
    rw [hperm.mem_iff, List.mem_filter]
    simp [truth]
  | or fs ih =>
    have hl' := hparts fs (by simpa [leaves] using hl)
    exact or_correct (fun f hf => ih f hf (hl' f hf)) hl'
  | and fs ih =>
    have hl' := hparts fs (by simpa [leaves] using hl)
    exact and_correct (fun f hf => ih f hf (hl' f hf)) hl'
  | not fs ih =>
    have hl' := hparts fs (by simpa [leaves] using hl)
    exact not_correct (fun f hf => ih f hf (hl' f hf)) hl'

theorem filterResources_semantics (fs : List (FilterTree V))
    (hl : ∀ f ∈ fs, ∀ l ∈ leaves f, Selects m l (holds l)) :
    ∀ (h : Heap V) (rs : List Ref), DistinctIds m h rs →
      ∃ h' out, filterResources m order fs h rs = .ok (h', out) ∧ Frame m h h' ∧ out.Nodup ∧
        ∀ r, r ∈ out ↔ r ∈ rs ∧ fs.all (fun f => truth holds f (h r)) = true := by
  induction fs with
  | nil => exact fun h rs hd => ⟨h, rs, rfl, .refl _ _, hd.nodup, by simp⟩
  | cons f fs ih =>
    intro h rs hd
    cases hrs : rs.isEmpty
    · obtain ⟨h₁, out₁, hrun₁, hframe₁, hn₁, hmem₁⟩ :=
        (process_semantics f (hl f (List.mem_cons_self ..)) : Correct m order holds f) h rs hd
      obtain ⟨h₂, out₂, hrun₂, hframe₂, hn₂, hmem₂⟩ :=
        ih (fun g hg => hl g (List.mem_cons_of_mem _ hg)) h₁ out₁ (distinctIds_iff.mpr ⟨hn₁,
          (hd.identified.subset fun r hr => ((hmem₁ r).mp hr).1).frame hframe₁⟩)
      refine ⟨h₂, out₂, ?_, hframe₁.trans hframe₂, hn₂, fun r => ?_⟩
      · simp only [filterResources, hrs, hrun₁, bind, Except.bind]
        exact hrun₂
      · have hsame : fs.all (fun f => truth holds f (h₁ r)) = true ↔
            fs.all (fun f => truth holds f (h r)) = true := by
          simp only [List.all_eq_true]
          refine forall₂_congr fun g hg => ?_
          rw [truth_frame (hl g (List.mem_cons_of_mem _ hg)) hframe₁]
        rw [hmem₂, hmem₁, hsame, List.all_cons, Bool.and_eq_true, and_assoc]
    · have he : rs = [] := List.isEmpty_iff.mp hrs
      exact ⟨h, rs, by simp [filterResources, he], .refl _ _, hd.nodup, by simp [he]⟩

/-- **Boolean blocks.**  The filters of a resource manager, read as one
conjunction of formulas, keep exactly the resources it is true of, each once. -/
theorem filterResources_boolean {fs : List (FilterTree V)}
    (hl : ∀ f ∈ fs, ∀ l ∈ leaves f, Selects m l (holds l)) {h : Heap V} {rs : List Ref}
    (hd : DistinctIds m h rs) :
    ∃ h' out, filterResources m order fs h rs = .ok (h', out) ∧ out.Nodup ∧
      ∀ r, r ∈ out ↔
        r ∈ rs ∧ (Formula.all (fs.map formula)).eval (fun l => holds l (h r)) = true := by
  obtain ⟨h', out, hrun, -, hn, hmem⟩ := filterResources_semantics fs hl h rs hd
  refine ⟨h', out, hrun, hn, fun r => ?_⟩
  rw [hmem, Formula.eval_all, List.all_map]
  rfl

/-! ## Filters called on one resource -/

omit [DecidableEq V]

/-- Whether a filter keeps a resource that it sees alone. -/
def keeps (l : LeafFilter V) (d : Resource V) : Bool :=
  match l.process (fun _ => d) [0] with
  | .ok (_, out) => !out.isEmpty
  | .error _ => false

theorem keeps_ofCall (call : Resource V → Bool) : keeps (.ofCall call) = call := by
  funext d
  cases h : call d <;> simp [keeps, LeafFilter.ofCall, h]

theorem selects_ofCall {call : Resource V → Bool}
    (hc : ∀ d d', Dict.AgreeOn (annotationKey · = false) d d' → call d = call d') :
    Selects m (.ofCall call) (keeps (.ofCall call)) := by
  rw [keeps_ofCall]
  exact ⟨hc, fun h rs _ => ⟨h, _, rfl, .refl _ _, .rfl⟩⟩

/-- A model whose resources are told apart by one top-level key. -/
def plainModel (k : Text) : ResourceModel (Option Text) where
  id := k
  search d := (d.lookup (k.takeWhile (· ≠ '.'))).getD none
  search_congr _ _ h := by rw [h]

/-- `{key: value}` as a value filter that is called on one resource. -/
def keyIs (k v : Text) : LeafFilter (Option Text) :=
  .ofCall fun d => d.lookup k = some (some v)

theorem selects_keyIs (m : ResourceModel (Option Text)) {k v : Text}
    (hk : annotationKey k = false) : Selects m (keyIs k v) (keeps (keyIs k v)) :=
  selects_ofCall fun d d' h => by rw [h k hk]

/-- Two instances, filtered by `not: [State: running, Type: large]`. -/
theorem filterResources_boolean_not :
    let m := plainModel "InstanceId".toList
    let fs := [FilterTree.not [.leaf (keyIs "State".toList "running".toList),
      .leaf (keyIs "Type".toList "large".toList)]]
    let h : Heap (Option Text) := fun r =>
      (AList.insert "InstanceId".toList (some (if r = 0 then "i-0".toList else "i-1".toList))
        (AList.insert "State".toList (some "running".toList)
          (AList.insert "Type".toList (some (if r = 0 then "large".toList else "small".toList)) ∅)))
    ∃ h' out, filterResources m .ofInsertion fs h [0, 1] = .ok (h', out) ∧ out.Nodup ∧
      ∀ r, r ∈ out ↔
        r ∈ [0, 1] ∧ (Formula.all (fs.map formula)).eval (fun l => keeps l (h r)) = true := by
  intro m fs h
  refine filterResources_boolean (m := m) (fun f hf l hl => ?_)
    ⟨[some "i-0".toList, some "i-1".toList], rfl, by decide⟩
  rw [List.mem_singleton.mp hf] at hl
  have hl' : l = keyIs "State".toList "running".toList ∨ l = keyIs "Type".toList "large".toList := by
    simpa [leaves] using hl
  rcases hl' with rfl | rfl
  · exact selects_keyIs m (by decide)
  · exact selects_keyIs m (by decide)

end Custodian.Semantics

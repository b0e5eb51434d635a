import Custodian.Filters.Blocks
import Custodian.Lib.Except
import Mathlib.Data.List.TakeWhile

/-!
# What the sweeper of a block does to the heap
-/

namespace Custodian.Sweeper

open Py Custodian.Blocks

variable {V : Type} {m : ResourceModel V} {order : SetOrder V}

/-! ## Ids -/

/-- Two heaps agree on everything but annotations that are not read as an id. -/
def Frame (m : ResourceModel V) (h h' : Heap V) : Prop :=
  ∀ r, Dict.AgreeOn (fun k => annotationKey k = false ∨ k = m.idKey) (h r) (h' r)

theorem Frame.refl (m : ResourceModel V) (h : Heap V) : Frame m h h := fun _ => .refl _ _

theorem Frame.trans {h h' h'' : Heap V} (a : Frame m h h') (b : Frame m h' h'') :
    Frame m h h'' := fun r => (a r).trans (b r)

theorem idKey_of_plain (hm : '.' ∉ m.id) : m.idKey = m.id := by
  rw [ResourceModel.idKey, List.takeWhile_eq_self_iff]
  intro c hc
  simpa using fun e : c = '.' => hm (e ▸ hc)

theorem typeId_congr {d d' : Resource V} (h : d.lookup m.idKey = d'.lookup m.idKey) :
    typeId m d = typeId m d' := by
  unfold typeId
  by_cases hm : '.' ∈ m.id
  · simp only [hm, ↓reduceIte, m.search_congr d d' h]
  · rw [idKey_of_plain hm] at h
    simp only [hm, ↓reduceIte, h]

theorem Frame.typeId_eq {h h' : Heap V} (a : Frame m h h') (r : Ref) :
    typeId m (h' r) = typeId m (h r) := (typeId_congr (a r _ (Or.inr rfl))).symm

/-- Every resource has an id, and no two resources share one. -/
def Identified (m : ResourceModel V) (h : Heap V) (rs : List Ref) : Prop :=
  ∀ r ∈ rs, ∃ i, typeId m (h r) = .ok i ∧ ∀ r' ∈ rs, typeId m (h r') = .ok i → r' = r

/-- The ids of the list are pairwise distinct. -/
def DistinctIds (m : ResourceModel V) (h : Heap V) (rs : List Ref) : Prop :=
  ∃ ids, typeIds m h rs = .ok ids ∧ ids.Nodup

theorem Identified.subset {h : Heap V} {rs out : List Ref} (hi : Identified m h rs)
    (hs : ∀ r ∈ out, r ∈ rs) : Identified m h out := by
  intro r hr
  obtain ⟨i, hid, hu⟩ := hi r (hs r hr)
  exact ⟨i, hid, fun r' hr' => hu r' (hs r' hr')⟩

theorem Identified.frame {h h' : Heap V} {rs : List Ref} (hi : Identified m h rs)
    (hf : Frame m h h') : Identified m h' rs := by
  intro r hr
  obtain ⟨i, hid, hu⟩ := hi r hr
  refine ⟨i, by rw [hf.typeId_eq, hid], fun r' hr' h' => hu r' hr' ?_⟩
  rwa [hf.typeId_eq] at h'

theorem Identified.exists_typeIds {h : Heap V} {rs : List Ref} (hi : Identified m h rs) :
    ∃ ids, typeIds m h rs = .ok ids :=
  exists_mapM_eq_ok fun r hr => (hi r hr).imp fun _ => And.left

theorem mem_typeIds {h : Heap V} {rs : List Ref} {ids : List V} (hids : typeIds m h rs = .ok ids)
    (i : V) : i ∈ ids ↔ ∃ r ∈ rs, typeId m (h r) = .ok i := by
  have hf := (mapM_eq_ok _ _ _).mp hids
  clear hids
  induction hf with
  | nil => simp
  | @cons r j rs ids hr _ ih => simp [ih, hr, eq_comm]

theorem mem_zip_typeIds {h : Heap V} {rs : List Ref} {ids : List V}
    (hids : typeIds m h rs = .ok ids) {β : Type} (g : Ref → β) (i : V) (b : β) :
    (i, b) ∈ ids.zip (rs.map g) ↔ ∃ r ∈ rs, typeId m (h r) = .ok i ∧ b = g r := by
  have hf := (mapM_eq_ok _ _ _).mp hids
  clear hids
  induction hf with
  | nil => simp
  | @cons r j rs ids hr _ ih => simp [ih, hr, eq_comm]

theorem DistinctIds.nodup {h : Heap V} {rs : List Ref} (hd : DistinctIds m h rs) : rs.Nodup := by
  obtain ⟨ids, hids, hn⟩ := hd
  have hf := (mapM_eq_ok _ _ _).mp hids
  clear hids
  induction hf with
  | nil => exact List.nodup_nil
  | @cons r j rs ids hr hrs ih =>
    rw [List.nodup_cons] at hn ⊢
    refine ⟨fun hmem => hn.1 ?_, ih hn.2⟩
    exact (mem_typeIds ((mapM_eq_ok _ _ _).mpr hrs) j).mpr ⟨r, hmem, hr⟩

theorem DistinctIds.identified {h : Heap V} {rs : List Ref} (hd : DistinctIds m h rs) :
    Identified m h rs := by
  obtain ⟨ids, hids, hn⟩ := hd
  have hf := (mapM_eq_ok _ _ _).mp hids
  clear hids
  induction hf with
  | nil => intro r hr; simp at hr
  | @cons r j rs ids hr hrs ih =>
    rw [List.nodup_cons] at hn
    have hj : ∀ r' ∈ rs, typeId m (h r') ≠ .ok j := fun r' hr' e =>
      hn.1 ((mem_typeIds ((mapM_eq_ok _ _ _).mpr hrs) j).mpr ⟨r', hr', e⟩)
    intro r₁ h₁
    rcases List.mem_cons.mp h₁ with rfl | h₁
    · refine ⟨j, hr, fun r' hr' e => ?_⟩
      rcases List.mem_cons.mp hr' with rfl | hr'
      · rfl
      · exact absurd e (hj r' hr')
    · obtain ⟨i, hi, hu⟩ := ih hn.2 r₁ h₁
      refine ⟨i, hi, fun r' hr' e => ?_⟩
      rcases List.mem_cons.mp hr' with e' | hr'
      · rw [e', hr] at e
        exact absurd (hi.trans e.symm) (hj r₁ h₁)
      · exact hu r' hr' e

theorem distinctIds_iff {h : Heap V} {rs : List Ref} :
    DistinctIds m h rs ↔ rs.Nodup ∧ Identified m h rs := by
  refine ⟨fun hd => ⟨hd.nodup, hd.identified⟩, fun ⟨hn, hi⟩ => ?_⟩
  obtain ⟨ids, hids⟩ := hi.exists_typeIds
  refine ⟨ids, hids, ?_⟩
  have hf := (mapM_eq_ok _ _ _).mp hids
  clear hids
  induction hf with
  | nil => exact List.nodup_nil
  | @cons r j rs ids hr hrs ih =>
    rw [List.nodup_cons] at hn ⊢
    refine ⟨fun hj => ?_, ih ⟨hn.2, hi.subset fun r' => List.mem_cons_of_mem _⟩ hn.2
      (hi.subset fun r' => List.mem_cons_of_mem _)⟩
    obtain ⟨r', hr', e⟩ := (mem_typeIds ((mapM_eq_ok _ _ _).mpr hrs) j).mp hj
    obtain ⟨i, hid, hu⟩ := hi r (List.mem_cons_self ..)
    rw [hr, Except.ok.injEq] at hid
    subst hid
    exact hn.1 (hu r' (List.mem_cons_of_mem _ hr') e ▸ hr')

/-! ## Maps from ids -/

theorem mem_keys_zip {h : Heap V} {rs : List Ref} {ids : List V}
    (hids : typeIds m h rs = .ok ids) {β : Type} (g : Ref → β) (i : V) :
    i ∈ (ids.zip (rs.map g)).reverse.map Prod.fst ↔ ∃ r ∈ rs, typeId m (h r) = .ok i := by
  simp only [List.mem_map, List.mem_reverse]
  constructor
  · rintro ⟨⟨j, b⟩, hj, rfl⟩
    obtain ⟨r, hr, hid, -⟩ := (mem_zip_typeIds hids g j b).mp hj
    exact ⟨r, hr, hid⟩
  · rintro ⟨r, hr, hid⟩
    exact ⟨(i, g r), (mem_zip_typeIds hids g i (g r)).mpr ⟨r, hr, hid, rfl⟩, rfl⟩

theorem mem_keys_resourceMap {h : Heap V} {rs : List Ref} {rmap : List (V × Ref)}
    (hm : resourceMap m h rs = .ok rmap) (i : V) :
    i ∈ rmap.map Prod.fst ↔ ∃ r ∈ rs, typeId m (h r) = .ok i := by
  simp only [resourceMap, bind_eq_ok, pure_eq_ok] at hm
  obtain ⟨ids, hids, rfl⟩ := hm
  simpa only [List.map_id] using mem_keys_zip hids id i

theorem Identified.exists_resourceMap {h : Heap V} {rs : List Ref} (hi : Identified m h rs) :
    ∃ rmap, resourceMap m h rs = .ok rmap := by
  obtain ⟨ids, hids⟩ := hi.exists_typeIds
  exact ⟨_, by simp only [resourceMap, hids]; rfl⟩

theorem Identified.exists_init {h : Heap V} {rs : List Ref} (hi : Identified m h rs) :
    ∃ s, AnnotationSweeper.init m h rs = .ok s := by
  obtain ⟨ids, hids⟩ := hi.exists_typeIds
  exact ⟨_, by simp only [AnnotationSweeper.init, hids]; rfl⟩

/-- The resource of the block with the annotations saved at its start. -/
def restored (h h₁ : Heap V) (r : Ref) : Resource V :=
  ((h₁ r).dropKeys annotationKey).update ((h r).keepKeys annotationKey)

theorem lookup_restored (h h₁ : Heap V) (r : Ref) (k : Text) :
    (restored h h₁ r).lookup k = if annotationKey k then (h r).lookup k else (h₁ r).lookup k :=
  Dict.lookup_restore _ _ _ _

variable [DecidableEq V]

theorem lookup_zip_reverse {h : Heap V} {rs : List Ref} {ids : List V}
    (hids : typeIds m h rs = .ok ids) (hi : Identified m h rs) {β : Type} (g : Ref → β)
    (i : V) (b : β) :
    (ids.zip (rs.map g)).reverse.lookup i = some b ↔
      ∃ r ∈ rs, typeId m (h r) = .ok i ∧ b = g r := by
  rw [lookup_eq_some_iff, List.mem_reverse, mem_zip_typeIds hids]
  intro k v v' hv hv'
  rw [List.mem_reverse, mem_zip_typeIds hids] at hv hv'
  obtain ⟨r, hr, hk, rfl⟩ := hv
  obtain ⟨r', hr', hk', rfl⟩ := hv'
  obtain ⟨j, hj, hu⟩ := hi r hr
  rw [hk, Except.ok.injEq] at hj
  subst hj
  rw [hu r' hr' hk']

theorem mem_resourceMap {h : Heap V} {rs : List Ref} {rmap : List (V × Ref)}
    (hm : resourceMap m h rs = .ok rmap) (hi : Identified m h rs) (i : V) (r : Ref) :
    rmap.lookup i = some r ↔ r ∈ rs ∧ typeId m (h r) = .ok i := by
  simp only [resourceMap, bind_eq_ok, pure_eq_ok] at hm
  obtain ⟨ids, hids, rfl⟩ := hm
  have := lookup_zip_reverse hids hi id i r
  simp only [List.map_id, id_eq] at this
  rw [this]
  constructor
  · rintro ⟨r', hr', hid, rfl⟩; exact ⟨hr', hid⟩
  · rintro ⟨hr, hid⟩; exact ⟨r, hr, hid, rfl⟩

/-! ## The sweep -/

theorem foldlM_restore {s : AnnotationSweeper V} {h : Heap V} (owner : V → Ref) {l : List V}
    (hn : l.Nodup) (hinj : ∀ i ∈ l, ∀ j ∈ l, owner i = owner j → i = j)
    (hr : ∀ i ∈ l, s.resourceMap.lookup i = some (owner i))
    (ha : ∀ i ∈ l, s.raMap.lookup i = some ((h (owner i)).keepKeys annotationKey)) (h₁ : Heap V) :
    ∃ h₂, l.foldlM s.restore h₁ = .ok h₂ ∧ (∀ i ∈ l, h₂ (owner i) = restored h h₁ (owner i)) ∧
      ∀ r, (∀ i ∈ l, owner i ≠ r) → h₂ r = h₁ r := by
  induction l generalizing h₁ with
  | nil => exact ⟨h₁, rfl, by simp, fun _ _ => rfl⟩
  | cons i l ih =>
    rw [List.nodup_cons] at hn
    have hstep : s.restore h₁ i = .ok (Function.update h₁ (owner i) (restored h h₁ (owner i))) := by
      simp only [AnnotationSweeper.restore, hr i (List.mem_cons_self ..),
        ha i (List.mem_cons_self ..), restored]
    obtain ⟨h₂, hrun, hin, hout⟩ := ih hn.2
      (fun i hi j hj => hinj i (List.mem_cons_of_mem _ hi) j (List.mem_cons_of_mem _ hj))
      (fun j hj => hr j (List.mem_cons_of_mem _ hj))
      (fun j hj => ha j (List.mem_cons_of_mem _ hj))
      (Function.update h₁ (owner i) (restored h h₁ (owner i)))
    have hne : ∀ j ∈ l, owner j ≠ owner i := fun j hj e =>
      hn.1 (hinj j (List.mem_cons_of_mem _ hj) i (List.mem_cons_self ..) e ▸ hj)
    refine ⟨h₂, ?_, ?_, ?_⟩
    · rw [List.foldlM_cons, hstep]
      exact hrun
    · intro j hj
      rcases List.mem_cons.mp hj with rfl | hj
      · rw [hout _ hne, Function.update_self]
      · rw [hin j hj]
        simp only [restored, Function.update_of_ne (hne j hj)]
    · intro r hr'
      rw [hout r fun j hj => hr' j (List.mem_cons_of_mem _ hj),
        Function.update_of_ne (hr' i (List.mem_cons_self ..)).symm]

variable (order) in
/-- **The sweep.**  Resources of the block that are not kept get back the
annotations they had when the sweeper was made; nothing else changes. -/
theorem sweep_spec {h h₁ : Heap V} {rs out : List Ref} {s : AnnotationSweeper V}
    (hs : AnnotationSweeper.init m h rs = .ok s) (hi : Identified m h rs) (hf : Frame m h h₁)
    (hsub : ∀ r ∈ out, r ∈ rs) :
    ∃ h₂, s.sweep m order h₁ out = .ok h₂ ∧ (∀ r ∈ rs, r ∉ out → h₂ r = restored h h₁ r) ∧
      ∀ r, r ∉ rs ∨ r ∈ out → h₂ r = h₁ r := by
  simp only [AnnotationSweeper.init, bind_eq_ok, pure_eq_ok] at hs
  obtain ⟨ids, hids, rfl⟩ := hs
  obtain ⟨kept, hkept⟩ := ((hi.subset hsub).frame hf).exists_typeIds
  -- `owner` reads the resource of an id back from the map of the sweeper
  let owner : V → Ref := fun i => (((ids.zip rs).reverse.lookup i).getD 0)
  have howner : ∀ r ∈ rs, ∀ i, typeId m (h r) = .ok i → owner i = r := by
    intro r hr i hid
    have := (lookup_zip_reverse hids hi id i r).mpr ⟨r, hr, hid, rfl⟩
    simp only [List.map_id] at this
    simp only [owner, this, Option.getD_some]
  have hdiff : ∀ i, i ∈ order.iter (((ids.zip (rs.map fun r => (h r).keepKeys annotationKey)).reverse.map
      Prod.fst).filter (· ∉ kept)) ↔ ∃ r ∈ rs, typeId m (h r) = .ok i ∧ r ∉ out := by
    intro i
    simp only [order.mem, List.mem_filter, mem_keys_zip hids, decide_eq_true_eq,
      mem_typeIds hkept, hf.typeId_eq]
    constructor
    · rintro ⟨⟨r, hr, hid⟩, hno⟩
      exact ⟨r, hr, hid, fun ho => hno ⟨r, ho, hid⟩⟩
    · rintro ⟨r, hr, hid, ho⟩
      refine ⟨⟨r, hr, hid⟩, ?_⟩
      rintro ⟨r', hr', hid'⟩
      obtain ⟨j, hj, hu⟩ := hi r hr
      rw [hid, Except.ok.injEq] at hj
      subst hj
      exact ho (hu r' (hsub r' hr') hid' ▸ hr')
  obtain ⟨h₂, hrun, hin, hout⟩ := foldlM_restore owner
    (s := ⟨(ids.zip (rs.map fun r => (h r).keepKeys annotationKey)).reverse, (ids.zip rs).reverse⟩)
    (h := h) (order.nodup (((ids.zip (rs.map fun r =>
      (h r).keepKeys annotationKey)).reverse.map Prod.fst).filter (· ∉ kept)))
    (by
      intro i hi' j hj' e
      obtain ⟨r, hr, hid, -⟩ := (hdiff i).mp hi'
      obtain ⟨r', hr', hid', -⟩ := (hdiff j).mp hj'
      rw [howner r hr i hid, howner r' hr' j hid'] at e
      subst e
      rw [hid, Except.ok.injEq] at hid'
      exact hid')
    (by
      intro i hi'
      obtain ⟨r, hr, hid, -⟩ := (hdiff i).mp hi'
      have := (lookup_zip_reverse hids hi id i r).mpr ⟨r, hr, hid, rfl⟩
      simpa only [List.map_id, howner r hr i hid] using this)
    (by
      intro i hi'
      obtain ⟨r, hr, hid, -⟩ := (hdiff i).mp hi'
      rw [howner r hr i hid]
      exact (lookup_zip_reverse hids hi _ i _).mpr ⟨r, hr, hid, rfl⟩) h₁
  refine ⟨h₂, ?_, ?_, ?_⟩
  · rw [AnnotationSweeper.sweep, hkept]
    exact hrun
  · intro r hr ho
    obtain ⟨i, hid, -⟩ := hi r hr
    have := hin i ((hdiff i).mpr ⟨r, hr, hid, ho⟩)
    rwa [howner r hr i hid] at this
  · intro r hr
    apply hout
    intro i hi' e
    obtain ⟨r', hr', hid, ho⟩ := (hdiff i).mp hi'
    rw [howner r' hr' i hid] at e
    subst e
    rcases hr with hr | hr
    · exact hr hr'
    · exact ho hr

theorem lookupAll_spec {h : Heap V} {rs : List Ref} {rmap : List (V × Ref)}
    (ids : List V) (hm : resourceMap m h rs = .ok rmap) (hi : Identified m h rs)
    (hids : ∀ i ∈ ids, ∃ r ∈ rs, typeId m (h r) = .ok i) :
    ∃ out, lookupAll rmap ids = .ok out ∧ (ids.Nodup → out.Nodup) ∧
      ∀ r, r ∈ out ↔ r ∈ rs ∧ ∃ i ∈ ids, typeId m (h r) = .ok i := by
  induction ids with
  | nil => exact ⟨[], rfl, fun _ => List.nodup_nil, by simp⟩
  | cons i ids ih =>
    obtain ⟨out, hout, hn, hmem⟩ := ih fun j hj => hids j (List.mem_cons_of_mem _ hj)
    obtain ⟨r, hr, hid⟩ := hids i (List.mem_cons_self ..)
    have hl := (mem_resourceMap hm hi i r).mpr ⟨hr, hid⟩
    refine ⟨r :: out, ?_, ?_, ?_⟩
    · rw [lookupAll] at hout ⊢
      rw [List.mapM_cons, hout, hl]
      rfl
    · intro hnd
      rw [List.nodup_cons] at hnd ⊢
      refine ⟨fun hro => ?_, hn hnd.2⟩
      obtain ⟨-, j, hj, hid'⟩ := (hmem r).mp hro
      rw [hid, Except.ok.injEq] at hid'
      exact hnd.1 (hid' ▸ hj)
    · intro r'
      simp only [List.mem_cons, hmem, exists_eq_or_imp]
      obtain ⟨j, hj, hu⟩ := hi r hr
      rw [hid, Except.ok.injEq] at hj
      subst hj
      constructor
      · rintro (rfl | ⟨hr', hex⟩)
        · exact ⟨hr, Or.inl hid⟩
        · exact ⟨hr', Or.inr hex⟩
      · rintro ⟨hr', hid' | hex⟩
        · exact Or.inl (hu r' hr' hid')
        · exact Or.inr ⟨hr', hex⟩

end Custodian.Sweeper

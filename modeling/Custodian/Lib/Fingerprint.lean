import Mathlib.Data.Set.Basic
import Mathlib.Data.List.Nodup

/-!
# Reconciling collections through fingerprints

A collection lists items; an item has a slot and holds elements.  To turn one
collection into another, items are indexed by a fingerprint, where the last item
with a fingerprint stays, and an item is taken out or put in when the other
collection has no item with its fingerprint.
-/

namespace Fingerprint

variable {ρ κ σ φ : Type} (slot : ρ → κ) (content : ρ → Set σ) (mark : ρ → φ)

/-- The elements that a collection holds, with their slots. -/
def Holds (l : List ρ) (k : κ) (x : σ) : Prop := ∃ r ∈ l, slot r = k ∧ x ∈ content r

/-- Two items hold the same elements in the same slot. -/
def Alike (r r' : ρ) : Prop := slot r = slot r' ∧ content r = content r'

/-- A collection has an item like `r`. -/
def Has (l : List ρ) (r : ρ) : Prop := ∃ r' ∈ l, Alike slot content r r'

/-- The last item of `l` with its fingerprint. -/
def Last (l : List ρ) (r : ρ) : Prop :=
  ∃ before after, l = before ++ r :: after ∧ ∀ r' ∈ after, mark r' ≠ mark r

/-- The item that the index of `S` has under a fingerprint which `T` does not have. -/
def Only (S T : List ρ) (r : ρ) : Prop := Last mark S r ∧ ∀ t ∈ T, mark t ≠ mark r

/-- What is held after the items only in `S` are taken out and those only in `T` put in. -/
def Patched (S T : List ρ) (k : κ) (x : σ) : Prop :=
  Holds slot content S k x ∧ (∀ r, Only mark S T r → slot r = k → x ∉ content r) ∨
    ∃ t, Only mark T S t ∧ slot t = k ∧ x ∈ content t

/-- One item for a slot, and none without elements. -/
structure Keyed (l : List ρ) : Prop where
  slots : (l.map slot).Nodup
  full : ∀ r ∈ l, (content r).Nonempty

/-- Items that one collection lacks are the only ones under their fingerprint; one
that is to go may also stay when its elements are all held in its slot. -/
def Told (S T : List ρ) : Prop :=
  (∀ t ∈ T, ¬ Has slot content S t → Only mark T S t) ∧
  (∀ s ∈ S, ¬ Has slot content T s →
    Only mark S T s ∨ ∃ t ∈ T, slot t = slot s ∧ content s ⊆ content t)

variable {slot content mark} {S T : List ρ}

theorem Only.mem {r : ρ} (h : Only mark S T r) : r ∈ S := by
  obtain ⟨⟨before, after, rfl, -⟩, -⟩ := h
  exact List.mem_append_right before List.mem_cons_self

namespace Keyed

theorem eq_of_slot (hS : Keyed slot content S) {r r' : ρ} (hr : r ∈ S) (hr' : r' ∈ S)
    (h : slot r = slot r') : r = r' :=
  List.inj_on_of_nodup_map hS.slots hr hr' h

theorem holds_slot (hS : Keyed slot content S) {r : ρ} (hr : r ∈ S) (x : σ) :
    Holds slot content S (slot r) x ↔ x ∈ content r := by
  constructor
  · rintro ⟨r', hr', e, hx⟩
    rwa [hS.eq_of_slot hr' hr e] at hx
  · exact fun hx => ⟨r, hr, rfl, hx⟩

end Keyed

/-! ## The patch -/

section Patch

variable (hS : Keyed slot content S) (hT : Keyed slot content T)
include hS hT

/-- An item that stays though the other collection lacks it and its elements shows. -/
theorem only_of_patched
    (h : ∀ k x, Patched slot content mark S T k x ↔ Holds slot content T k x) {t : ρ}
    (ht : t ∈ T) (hn : ¬ Has slot content S t) : Only mark T S t := by
  by_contra ho
  have key : ∀ x, x ∈ content t ↔ Holds slot content S (slot t) x ∧
      ∀ r, Only mark S T r → slot r = slot t → x ∉ content r := by
    intro x
    rw [← hT.holds_slot ht, ← h]
    refine or_iff_left ?_
    rintro ⟨t', ho', e, -⟩
    exact ho (hT.eq_of_slot ho'.mem ht e ▸ ho')
  obtain ⟨x, hx⟩ := hT.full t ht
  obtain ⟨⟨s, hs, e, hxs⟩, hr⟩ := (key x).mp hx
  refine hn ⟨s, hs, e.symm, Set.ext fun y => ?_⟩
  rw [key, ← e, hS.holds_slot hs]
  refine and_iff_left_of_imp fun _ r hr' e' _ => ?_
  have hrs : r = s := hS.eq_of_slot hr'.mem hs e'
  subst hrs
  exact hr r hr' e hxs

theorem subset_of_patched
    (h : ∀ k x, Patched slot content mark S T k x ↔ Holds slot content T k x) {s : ρ}
    (hs : s ∈ S) (ho : ¬ Only mark S T s) : ∃ t ∈ T, slot t = slot s ∧ content s ⊆ content t := by
  have key : ∀ x ∈ content s, Holds slot content T (slot s) x := by
    intro x hx
    rw [← h]
    refine Or.inl ⟨(hS.holds_slot hs x).mpr hx, fun r hr e => ?_⟩
    exact absurd (hS.eq_of_slot hr.mem hs e ▸ hr) ho
  obtain ⟨x, hx⟩ := hS.full s hs
  obtain ⟨t, ht, e, -⟩ := key x hx
  refine ⟨t, ht, e, fun y hy => ?_⟩
  have hy' := key y hy
  rwa [← e, hT.holds_slot ht] at hy'

/-- **The patch reaches the other collection exactly when the fingerprints tell.** -/
theorem patched_iff (hm : ∀ s ∈ S, ∀ t ∈ T, Alike slot content s t → mark s = mark t) :
    (∀ k x, Patched slot content mark S T k x ↔ Holds slot content T k x) ↔
      Told slot content mark S T := by
  constructor
  · intro h
    refine ⟨fun t ht hn => only_of_patched hS hT h ht hn, fun s hs _ => ?_⟩
    by_cases ho : Only mark S T s
    · exact Or.inl ho
    · exact Or.inr (subset_of_patched hS hT h hs ho)
  · rintro ⟨hadd, hdrop⟩ k x
    constructor
    · rintro (⟨⟨s, hs, rfl, hx⟩, hkeep⟩ | ⟨t, ht, rfl, hx⟩)
      · by_cases hn : Has slot content T s
        · obtain ⟨t, ht, e, e'⟩ := hn
          exact ⟨t, ht, e.symm, e' ▸ hx⟩
        · rcases hdrop s hs hn with ho | ⟨t, ht, e, hsub⟩
          · exact absurd hx (hkeep s ho rfl)
          · exact ⟨t, ht, e, hsub hx⟩
      · exact ⟨t, ht.mem, rfl, hx⟩
    · rintro ⟨t, ht, rfl, hx⟩
      by_cases hn : Has slot content S t
      · obtain ⟨s, hs, e, e'⟩ := hn
        refine Or.inl ⟨⟨s, hs, e.symm, e' ▸ hx⟩, fun r hr er _ => ?_⟩
        have hrs : r = s := hS.eq_of_slot hr.mem hs (er.trans e)
        subst hrs
        exact hr.2 t ht (hm r hs t ht ⟨e.symm, e'.symm⟩).symm
      · exact Or.inr ⟨t, hadd t ht hn, rfl, hx⟩

theorem not_only_of_same (hm : ∀ s ∈ S, ∀ t ∈ T, Alike slot content s t → mark s = mark t)
    (h : ∀ k x, Holds slot content S k x ↔ Holds slot content T k x) (s : ρ) :
    ¬ Only mark S T s := by
  intro ho
  have hs : s ∈ S := ho.mem
  obtain ⟨x, hx⟩ := hS.full s hs
  obtain ⟨t, ht, e, -⟩ := (h _ _).mp ⟨s, hs, rfl, hx⟩
  have hc : content s = content t :=
    Set.ext fun y => by rw [← hS.holds_slot hs, h, ← e, hT.holds_slot ht]
  exact ho.2 t ht (hm s hs t ht ⟨e.symm, hc⟩).symm

end Patch

theorem only_of_apart (hS : Keyed slot content S)
    (h : ∀ r ∈ S ++ T, ∀ r' ∈ S ++ T, mark r = mark r' → Alike slot content r r') {s : ρ}
    (hs : s ∈ S) (hn : ¬ Has slot content T s) : Only mark S T s := by
  constructor
  · obtain ⟨before, after, rfl⟩ := List.append_of_mem hs
    refine ⟨before, after, rfl, fun r hr e => ?_⟩
    have hr' : r ∈ before ++ s :: after := by simp [hr]
    have hslot : slot r = slot s := (h r (by simp [hr]) s (by simp) e).1
    have hnd := hS.slots
    rw [List.map_append, List.map_cons, List.nodup_append, List.nodup_cons] at hnd
    exact hnd.2.1.1 (hslot ▸ List.mem_map_of_mem hr)
  · intro t ht e
    exact hn ⟨t, ht, h s (by simp [hs]) t (by simp [ht]) e.symm⟩

theorem told_of_apart (hS : Keyed slot content S) (hT : Keyed slot content T)
    (h : ∀ r ∈ S ++ T, ∀ r' ∈ S ++ T, mark r = mark r' → Alike slot content r r') :
    Told slot content mark S T := by
  refine ⟨fun t ht hn => only_of_apart hT ?_ ht hn, fun s hs hn => Or.inl (only_of_apart hS h hs hn)⟩
  intro r hr r' hr' e
  exact h r (by simpa [or_comm] using hr) r' (by simpa [or_comm] using hr') e

end Fingerprint

import Mathlib.Data.List.Perm.Basic
import Mathlib.Data.List.Forall2

/-!
# Pairing two lists greedily

Every element of a list takes the first free partner that it accepts.
-/

namespace Py.Matching

variable {F C : Type} (R : F → C → Bool)

/-- A one-to-one assignment of `fs` to `cs` that respects `R`. -/
def Pairs (fs : List F) (cs : List C) : Prop :=
  ∃ cs', cs'.Perm cs ∧ List.Forall₂ (fun f c => R f c = true) fs cs'

/-- Every element takes the first free partner it accepts.  What is left: the partners that are
still free and the elements without one. -/
def greedy : List F → List C → List C × List F
  | [], cs => (cs, [])
  | f :: fs, cs =>
    if cs.any (R f) then greedy fs (cs.eraseP (R f))
    else ((greedy fs cs).1, f :: (greedy fs cs).2)

/-- Nothing is left on either side. -/
def Complete (fs : List F) (cs : List C) : Prop := greedy R fs cs = ([], [])

/-- Partners that accept a common element accept the same ones. -/
def Separated (fs : List F) (cs : List C) : Prop :=
  ∀ c ∈ cs, ∀ d ∈ cs, ∀ f ∈ fs, R f c → R f d → ∀ g ∈ fs, R g c = R g d

variable {R}

theorem Pairs.perm_right {fs : List F} {cs cs' : List C} (h : Pairs R fs cs) (hp : cs.Perm cs') :
    Pairs R fs cs' := by
  obtain ⟨ds, hds, hR⟩ := h
  exact ⟨ds, hds.trans hp, hR⟩

theorem Pairs.perm_left {fs fs' : List F} {cs : List C} (h : Pairs R fs cs) (hp : fs.Perm fs') :
    Pairs R fs' cs := by
  obtain ⟨ds, hds, hR⟩ := h
  obtain ⟨ds', hR', hds'⟩ := List.perm_comp_forall₂ hp.symm hR
  exact ⟨ds', hds'.trans hds, hR'⟩

theorem Pairs.cons {f : F} {c : C} {fs : List F} {cs : List C} (hf : R f c = true)
    (h : Pairs R fs cs) : Pairs R (f :: fs) (c :: cs) := by
  obtain ⟨ds, hds, hR⟩ := h
  exact ⟨c :: ds, hds.cons c, .cons hf hR⟩

theorem exists_perm_eraseP {cs : List C} {f : F} (h : cs.any (R f) = true) :
    ∃ c, R f c = true ∧ cs.Perm (c :: cs.eraseP (R f)) := by
  obtain ⟨a, ha, hR⟩ := List.any_eq_true.mp h
  obtain ⟨c, before, after, -, hc, rfl, he⟩ := List.exists_of_eraseP ha hR
  rw [he]
  exact ⟨c, hc, List.perm_middle⟩

theorem pairs_of_greedy {fs : List F} {cs : List C} (h : Complete R fs cs) : Pairs R fs cs := by
  induction fs generalizing cs with
  | nil =>
    obtain rfl : cs = [] := (Prod.mk.inj h).1
    exact ⟨[], .refl _, .nil⟩
  | cons f fs ih =>
    rw [Complete, greedy] at h
    split at h
    · rename_i hany
      obtain ⟨c, hc, hperm⟩ := exists_perm_eraseP hany
      exact ((ih h).cons hc).perm_right hperm.symm
    · cases (Prod.mk.inj h).2

theorem exists_replaced {c d : C} {fs : List F} {cs : List C}
    (h : List.Forall₂ (fun f c => R f c = true) fs cs) (hc : c ∈ cs)
    (hcd : ∀ f ∈ fs, R f c = R f d) :
    ∃ ds, List.Forall₂ (fun f c => R f c = true) fs ds ∧ (c :: ds).Perm (d :: cs) := by
  induction h with
  | nil => cases hc
  | cons hfe hrest ih =>
    rename_i f e fs cs
    rw [List.forall_mem_cons] at hcd
    rcases List.mem_cons.mp hc with rfl | hc
    · exact ⟨d :: cs, .cons (hcd.1 ▸ hfe) hrest, .swap _ _ _⟩
    · obtain ⟨ds, hds, hperm⟩ := ih hc hcd.2
      exact ⟨e :: ds, .cons hfe hds, (List.Perm.swap _ _ _).trans
        ((hperm.cons e).trans (.swap _ _ _))⟩

theorem Pairs.exchange {f : F} {c : C} {fs : List F} {cs rest : List C}
    (h : Pairs R (f :: fs) cs) (hsep : Separated R (f :: fs) cs) (hperm : cs.Perm (c :: rest))
    (hc : R f c = true) : Pairs R fs rest := by
  obtain ⟨ds, hds, hR⟩ := h
  cases hR with
  | cons hd hR =>
    rename_i d ds
    have hall := hds.trans hperm
    rcases List.mem_cons.mp (hall.mem_iff.mpr List.mem_cons_self) with rfl | hmem
    · exact ⟨ds, hall.cons_inv, hR⟩
    · have hsame : ∀ g ∈ fs, R g c = R g d := fun g hg =>
        hsep c (hperm.mem_iff.mpr List.mem_cons_self) d (hds.mem_iff.mp List.mem_cons_self) f
          List.mem_cons_self hc hd g (List.mem_cons_of_mem _ hg)
      obtain ⟨ds', hR', hds'⟩ := exists_replaced hR hmem hsame
      exact ⟨ds', (hds'.trans hall).cons_inv, hR'⟩

theorem Separated.tail {f : F} {c : C} {fs : List F} {cs rest : List C}
    (h : Separated R (f :: fs) cs) (hperm : cs.Perm (c :: rest)) : Separated R fs rest := by
  intro a ha b hb e he hea heb g hg
  exact h a (hperm.mem_iff.mpr (List.mem_cons_of_mem _ ha)) b
    (hperm.mem_iff.mpr (List.mem_cons_of_mem _ hb)) e (List.mem_cons_of_mem _ he) hea heb g
    (List.mem_cons_of_mem _ hg)

/-- Nothing is left when partners that share an element are accepted by the same ones. -/
theorem greedy_of_pairs {fs : List F} {cs : List C} (h : Pairs R fs cs)
    (hsep : Separated R fs cs) : Complete R fs cs := by
  induction fs generalizing cs with
  | nil =>
    obtain ⟨ds, hds, hR⟩ := h
    cases hR
    rw [Complete, greedy, hds.symm.eq_nil]
  | cons f fs ih =>
    have hany : cs.any (R f) = true := by
      obtain ⟨ds, hds, hR⟩ := h
      cases hR with
      | cons hd hR =>
        rw [List.any_eq_true]
        exact ⟨_, hds.mem_iff.mp List.mem_cons_self, hd⟩
    obtain ⟨c, hc, hperm⟩ := exists_perm_eraseP hany
    rw [Complete, greedy, if_pos hany]
    exact ih (h.exchange hsep hperm hc) (hsep.tail hperm)

theorem complete_map {D : Type} {g : D → C} {fs : List F} {ds : List D} :
    Complete R fs (ds.map g) ↔ Complete (fun f d => R f (g d)) fs ds := by
  have hmap : ∀ ds : List D, greedy R fs (ds.map g) =
      ((greedy (fun f d => R f (g d)) fs ds).1.map g, (greedy (fun f d => R f (g d)) fs ds).2) := by
    induction fs with
    | nil => exact fun ds => rfl
    | cons f fs ih =>
      intro ds
      have hcomp : (R f ∘ g) = fun d => R f (g d) := rfl
      rw [greedy, greedy, List.any_map, List.eraseP_map, hcomp]
      split
      · exact ih _
      · rw [ih]
  rw [Complete, Complete, hmap, Prod.mk.injEq, Prod.ext_iff, List.map_eq_nil_iff]

theorem Separated.perm {fs fs' : List F} {cs cs' : List C} (h : Separated R fs cs)
    (hf : fs.Perm fs') (hc : cs.Perm cs') : Separated R fs' cs' := by
  intro c hc' d hd f hf' hfc hfd g hg
  exact h c (hc.mem_iff.mpr hc') d (hc.mem_iff.mpr hd) f (hf.mem_iff.mpr hf') hfc hfd g
    (hf.mem_iff.mpr hg)

theorem greedy_append {fs fs' : List F} {cs cs' : List C}
    (h : List.Forall₂ (fun f c => R f c = true) fs cs) :
    greedy R (fs ++ fs') (cs ++ cs') = greedy R fs' cs' := by
  induction h with
  | nil => rfl
  | cons hfc _ ih =>
    rw [List.cons_append, List.cons_append, greedy, if_pos (by simp [hfc]),
      List.eraseP_cons_of_pos hfc, ih]

theorem exists_perm_cons {α : Type} {a : α} {l : List α} (h : a ∈ l) :
    ∃ rest, l.Perm (a :: rest) := by
  obtain ⟨before, after, rfl⟩ := List.append_of_mem h
  exact ⟨before ++ after, List.perm_middle⟩

theorem exists_perm_pair {α : Type} {a b : α} {l : List α} (ha : a ∈ l) (hb : b ∈ l)
    (hab : a ≠ b) : ∃ rest, l.Perm (a :: b :: rest) := by
  obtain ⟨r, hr⟩ := exists_perm_cons ha
  have hb' : b ∈ r := (List.mem_cons.mp (hr.mem_iff.mp hb)).resolve_left (Ne.symm hab)
  obtain ⟨r', hr'⟩ := exists_perm_cons hb'
  exact ⟨r', hr.trans (hr'.cons a)⟩

/-- If the first choice is right in every order, elements that share a partner accept the same. -/
theorem separated_of_greedy {fs : List F} {cs : List C}
    (h : ∀ fs' cs', fs'.Perm fs → cs'.Perm cs → Complete R fs' cs') : Separated R fs cs := by
  have hstep : ∀ c ∈ cs, ∀ d ∈ cs, ∀ f ∈ fs, R f c → R f d → ∀ g ∈ fs, R g c → R g d := by
    intro c hc d hd f hf hfc hfd g hg hgc
    by_contra hgd
    have hcd : c ≠ d := fun e => hgd (e ▸ hgc)
    have hgf : g ≠ f := fun e => hgd (e ▸ hfd)
    obtain ⟨fs', hfs⟩ := exists_perm_pair hg hf hgf
    obtain ⟨cs', hcs⟩ := exists_perm_pair hc hd hcd
    -- first `g` takes `c` and `f` takes `d`, which leaves an assignment of the others
    have htwo : List.Forall₂ (fun f c => R f c = true) [g, f] [c, d] := .cons hgc (.cons hfd .nil)
    have hfirst : Complete R ([g, f] ++ fs') ([c, d] ++ cs') := h _ _ hfs.symm hcs.symm
    rw [Complete, greedy_append htwo] at hfirst
    obtain ⟨ds, hds, hR⟩ := pairs_of_greedy hfirst
    -- then `f` takes `c` and the others their own, which leaves `d` to `g`
    have hlast : Complete R ((f :: fs') ++ [g]) ((c :: ds) ++ [d]) := by
      refine h _ _ ?_ ?_
      · exact (List.perm_append_singleton g (f :: fs')).trans hfs.symm
      · exact (List.perm_append_singleton d (c :: ds)).trans (((hds.cons c).cons d).trans
          ((List.Perm.swap c d cs').trans hcs.symm))
    rw [Complete, greedy_append (.cons hfc hR), greedy, if_neg (by simpa using hgd)] at hlast
    cases (Prod.mk.inj hlast).2
  intro c hc d hd f hf hfc hfd g hg
  rw [Bool.eq_iff_iff]
  exact ⟨hstep c hc d hd f hf hfc hfd g hg, hstep d hd c hc f hf hfd hfc g hg⟩

/-- **Taking the first free partner is right in every order exactly when there is no assignment
or partners that share an element are accepted by the same ones.** -/
theorem greedy_correct_iff {fs : List F} {cs : List C} :
    (∀ fs' cs', fs'.Perm fs → cs'.Perm cs → (Complete R fs' cs' ↔ Pairs R fs cs)) ↔
      (Pairs R fs cs → Separated R fs cs) := by
  constructor
  · intro h hp
    exact separated_of_greedy fun fs' cs' hf hc => (h fs' cs' hf hc).mpr hp
  · intro h fs' cs' hf hc
    constructor
    · exact fun hg => ((pairs_of_greedy hg).perm_left hf).perm_right hc
    · intro hp
      exact greedy_of_pairs ((hp.perm_left hf.symm).perm_right hc.symm)
        ((h hp).perm hf.symm hc.symm)

end Py.Matching

import Custodian.Lib.Text

/-!
# Lowercasing keeps the shape of a text
-/

namespace Py

/-! ## Lowered texts -/

namespace CaseTable

variable (t : CaseTable)

/-- Every character is its own lowercase text. -/
def Lowered (s : Text) : Prop := ∀ d ∈ s, d ≠ 'Σ' ∧ t.lowerChar d = [d]

theorem lowerFrom_eq_self {s : Text} (h : t.Lowered s) (before : Text) :
    t.lowerFrom before s = s := by
  induction s generalizing before with
  | nil => rfl
  | cons c s ih =>
    obtain ⟨hc, hs⟩ := List.forall_mem_cons.mp h
    rw [lowerFrom, if_neg hc.1, hc.2, ih hs]
    rfl

theorem lower_eq_self {s : Text} (h : t.Lowered s) : t.lower s = s := t.lowerFrom_eq_self h []

theorem lowered_lowerFrom (before s : Text) : t.Lowered (t.lowerFrom before s) := by
  induction s generalizing before with
  | nil => exact fun d hd => absurd hd List.not_mem_nil
  | cons c s ih =>
    intro d hd
    rw [lowerFrom, List.mem_append] at hd
    rcases hd with hd | hd
    · split at hd
      · split at hd
        · rw [List.mem_singleton.mp hd]
          exact ⟨by decide, t.sigma.2⟩
        · rw [List.mem_singleton.mp hd]
          exact ⟨by decide, t.sigma.1⟩
      · rename_i hc
        have hne : d ≠ 'Σ' := fun e => t.no_sigma c hc (e ▸ hd)
        exact ⟨hne, t.fixed c d hd hne⟩
    · exact ih _ d hd

theorem lowered_lower (s : Text) : t.Lowered (t.lower s) := t.lowered_lowerFrom [] s

@[simp] theorem lower_lower (s : Text) : t.lower (t.lower s) = t.lower s :=
  t.lower_eq_self (t.lowered_lower s)

theorem Lowered.append {t : CaseTable} {s s' : Text} (h : t.Lowered s) (h' : t.Lowered s') :
    t.Lowered (s ++ s') := by
  intro d hd
  rcases List.mem_append.mp hd with hd | hd
  · exact h d hd
  · exact h' d hd

theorem not_mem_lower {c : Char} (hc : isAsciiUpper c = true) (s : Text) : c ∉ t.lower s := by
  intro h
  have hfix := (t.lowered_lower s c h).2
  have hlt : c.toNat < 128 := by
    simp only [isAsciiUpper, Bool.and_eq_true, decide_eq_true_eq] at hc
    omega
  rw [t.ascii c hlt, List.cons.injEq] at hfix
  have := isAsciiUpper_asciiLower c
  rw [hfix.1, hc] at this
  cases this

end CaseTable

/-! ## Rewriting letters only -/

/-- Characters that are not inert are replaced by texts of such characters. -/
inductive Recased : Text → Text → Prop where
  | nil : Recased [] []
  | inert {c s s'} : isInert c = true → Recased s s' → Recased (c :: s) (c :: s')
  | letter {c u s s'} : isInert c = false → u ≠ [] → (∀ d ∈ u, isInert d = false) →
      Recased s s' → Recased (c :: s) (u ++ s')

namespace Recased

theorem refl (s : Text) : Recased s s := by
  induction s with
  | nil => exact .nil
  | cons c s ih =>
    cases hc : isInert c
    · exact .letter (u := [c]) hc (by simp) (fun d hd => by rwa [List.mem_singleton.mp hd]) ih
    · exact .inert hc ih

theorem append {s s' u u' : Text} (h : Recased s s') (h' : Recased u u') :
    Recased (s ++ u) (s' ++ u') := by
  induction h with
  | nil => exact h'
  | inert hc _ ih => exact .inert hc ih
  | letter hc hne hd _ ih =>
    rw [List.append_assoc]
    exact .letter hc hne hd ih

theorem lowerFrom (t : CaseTable) (before s : Text) : Recased s (t.lowerFrom before s) := by
  induction s generalizing before with
  | nil => exact .nil
  | cons c s ih =>
    rw [CaseTable.lowerFrom]
    by_cases hc : c = 'Σ'
    · subst hc
      rw [if_pos rfl]
      cases t.finalSigma before s
      · exact .letter CaseTable.sigma_not_inert (by simp) (by decide) (ih _)
      · exact .letter CaseTable.sigma_not_inert (by simp) (by decide) (ih _)
    · rw [if_neg hc]
      cases hi : isInert c
      · exact .letter hi (t.ne_nil c) (t.not_inert c hi) (ih _)
      · rw [t.inert c hi]
        exact .inert hi (ih _)

theorem lower (t : CaseTable) (s : Text) : Recased s (t.lower s) := lowerFrom t [] s

theorem eq_nil_iff {s s' : Text} (h : Recased s s') : s = [] ↔ s' = [] := by
  cases h with
  | nil => simp
  | inert => simp
  | letter _ hne => simp [hne]

/-- The first character is kept when it is inert, and is no inert one otherwise. -/
theorem head_eq {s s' : Text} (h : Recased s s') {c : Char} (hc : isInert c = true) :
    s.head? = some c ↔ s'.head? = some c := by
  cases h with
  | nil => simp
  | inert => simp
  | @letter d u s s' hd hne hu _ =>
    obtain ⟨e, u, rfl⟩ := List.exists_cons_of_ne_nil hne
    have he := hu e List.mem_cons_self
    simp only [List.head?_cons, List.cons_append, Option.some.injEq]
    constructor
    · rintro rfl
      rw [hc] at hd
      cases hd
    · rintro rfl
      rw [hc] at he
      cases he

theorem singleton {c : Char} {s : Text} (h : Recased [c] s) (hc : isInert c = true) : s = [c] := by
  cases h with
  | inert _ h =>
    cases h
    rfl
  | letter hd =>
    rw [hc] at hd
    cases hd

theorem split {a b x : Text} (h : Recased (a ++ b) x) :
    ∃ y z, x = y ++ z ∧ Recased a y ∧ Recased b z := by
  induction a generalizing x with
  | nil => exact ⟨[], x, rfl, .nil, h⟩
  | cons c a ih =>
    rw [List.cons_append] at h
    cases h with
    | inert hc h =>
      obtain ⟨y, z, rfl, hy, hz⟩ := ih h
      exact ⟨c :: y, z, rfl, .inert hc hy, hz⟩
    | @letter _ u _ _ hc hne hu h =>
      obtain ⟨y, z, rfl, hy, hz⟩ := ih h
      exact ⟨u ++ y, z, by rw [List.append_assoc], .letter hc hne hu hy, hz⟩

end Recased

/-! ## Lowercasing in some context -/

/-- A lowercase text of a part of a text: what follows a capital sigma decides
which small one it becomes. -/
inductive LowersTo (t : CaseTable) : Text → Text → Prop where
  | nil : LowersTo t [] []
  | sigma {u s s'} : u = ['σ'] ∨ u = ['ς'] → LowersTo t s s' → LowersTo t ('Σ' :: s) (u ++ s')
  | char {c s s'} : c ≠ 'Σ' → LowersTo t s s' → LowersTo t (c :: s) (t.lowerChar c ++ s')

namespace LowersTo

variable {t : CaseTable}

theorem lowerFrom (before s : Text) : LowersTo t s (t.lowerFrom before s) := by
  induction s generalizing before with
  | nil => exact .nil
  | cons c s ih =>
    rw [CaseTable.lowerFrom]
    by_cases hc : c = 'Σ'
    · subst hc
      rw [if_pos rfl]
      cases t.finalSigma before s
      · exact .sigma (Or.inl rfl) (ih _)
      · exact .sigma (Or.inr rfl) (ih _)
    · rw [if_neg hc]
      exact .char hc (ih _)

theorem lower (s : Text) : LowersTo t s (t.lower s) := lowerFrom [] s

theorem recased {s s' : Text} (h : LowersTo t s s') : Recased s s' := by
  induction h with
  | nil => exact .nil
  | sigma hu _ ih =>
    rcases hu with rfl | rfl
    · exact .letter CaseTable.sigma_not_inert (by simp) (by decide) ih
    · exact .letter CaseTable.sigma_not_inert (by simp) (by decide) ih
  | @char c s s' hc _ ih =>
    cases hi : isInert c
    · exact .letter hi (t.ne_nil c) (t.not_inert c hi) ih
    · rw [t.inert c hi]
      exact .inert hi ih

theorem lowered {s s' : Text} (h : LowersTo t s s') : t.Lowered s' := by
  induction h with
  | nil => exact fun d hd => absurd hd List.not_mem_nil
  | sigma hu _ ih =>
    refine CaseTable.Lowered.append (fun d hd => ?_) ih
    rcases hu with rfl | rfl
    · rw [List.mem_singleton.mp hd]
      exact ⟨by decide, t.sigma.1⟩
    · rw [List.mem_singleton.mp hd]
      exact ⟨by decide, t.sigma.2⟩
  | @char c s s' hc _ ih =>
    refine CaseTable.Lowered.append (fun d hd => ?_) ih
    have hne : d ≠ 'Σ' := fun e => t.no_sigma c hc (e ▸ hd)
    exact ⟨hne, t.fixed c d hd hne⟩

theorem split {a b x : Text} (h : LowersTo t (a ++ b) x) :
    ∃ y z, x = y ++ z ∧ LowersTo t a y ∧ LowersTo t b z := by
  induction a generalizing x with
  | nil => exact ⟨[], x, rfl, .nil, h⟩
  | cons c a ih =>
    rw [List.cons_append] at h
    cases h with
    | @sigma u _ _ hu h =>
      obtain ⟨y, z, rfl, hy, hz⟩ := ih h
      exact ⟨u ++ y, z, by rw [List.append_assoc], .sigma hu hy, hz⟩
    | char hc h =>
      obtain ⟨y, z, rfl, hy, hz⟩ := ih h
      exact ⟨t.lowerChar c ++ y, z, by rw [List.append_assoc], .char hc hy, hz⟩

theorem unique {s x y : Text} (h : LowersTo t s x) (h' : LowersTo t s y)
    (hx : ∀ c ∈ x, c ≠ 'σ' ∧ c ≠ 'ς') : x = y := by
  induction h generalizing y with
  | nil =>
    cases h'
    rfl
  | sigma hu _ _ =>
    rcases hu with rfl | rfl
    · exact absurd rfl (hx 'σ' (by simp)).1
    · exact absurd rfl (hx 'ς' (by simp)).2
  | char hc _ ih =>
    cases h' with
    | sigma => exact absurd rfl hc
    | char _ h' => rw [ih h' fun c hm => hx c (List.mem_append_right _ hm)]

theorem cons_inert {c : Char} {s x : Text} (hc : isInert c = true) (h : LowersTo t (c :: s) x) :
    ∃ y, x = c :: y ∧ LowersTo t s y := by
  cases h with
  | sigma =>
    rw [CaseTable.sigma_not_inert] at hc
    cases hc
  | @char _ _ s' _ h =>
    rw [t.inert c hc]
    exact ⟨s', rfl, h⟩

end LowersTo

end Py

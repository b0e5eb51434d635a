import Custodian.Lib.Except

/-!
# Loops that carry a state

A loop takes the elements of a list one after another, and what it finds for an element depends on
the state that the elements before it have left.
-/

namespace Py.Runs

variable {σ α β : Type}

/-- It holds of every element of the list, given the elements before it. -/
def AtEach (P : List α → α → Prop) (l : List α) : Prop :=
  ∀ before x after, l = before ++ x :: after → P before x

theorem atEach_nil (P : List α → α → Prop) : AtEach P [] := by
  intro before x after h
  cases before <;> cases h

theorem atEach_cons {P : List α → α → Prop} {x : α} {l : List α} :
    AtEach P (x :: l) ↔ P [] x ∧ AtEach (fun before => P (x :: before)) l := by
  constructor
  · intro h
    exact ⟨h [] x l rfl, fun before y after hl => h (x :: before) y after (by rw [hl]; rfl)⟩
  · rintro ⟨hx, hl⟩ before y after h
    cases before with
    | nil =>
      cases h
      exact hx
    | cons z before =>
      cases h
      exact hl before y after rfl

theorem atEach_mem {P : α → Prop} {l : List α} : AtEach (fun _ => P) l ↔ ∀ x ∈ l, P x := by
  induction l with
  | nil => simp [atEach_nil]
  | cons x l ih => rw [atEach_cons, ih, List.forall_mem_cons]

theorem AtEach.imp {P Q : List α → α → Prop} {l : List α} (h : AtEach P l)
    (hPQ : ∀ before x, P before x → Q before x) : AtEach Q l :=
  fun before x after hl => hPQ before x (h before x after hl)

/-- What the loop finds for the elements, and the state after it. -/
def results (step : σ → α → β × σ) : σ → List α → List β × σ
  | s, [] => ([], s)
  | s, x :: l =>
    let (b, s) := step s x
    let rest := results step s l
    (b :: rest.1, rest.2)

theorem results_cons (step : σ → α → β × σ) (s : σ) (x : α) (l : List α) :
    results step s (x :: l) =
      ((step s x).1 :: (results step (step s x).2 l).1, (results step (step s x).2 l).2) := rfl

/-- **Runs.**  If in every state of the invariant the result for an element is as it is to be
exactly under a condition on the element and those before it, then all results of the loop are if
and only if the condition holds at every element. -/
theorem forall₂_results_iff {step : σ → α → β × σ} {I : List α → σ → Prop}
    {Q : α → β → Prop} {P : List α → α → Prop}
    (hstep : ∀ before x s, I before s → I (before ++ [x]) (step s x).2)
    (hresult : ∀ before x s, I before s → (Q x (step s x).1 ↔ P before x)) (before : List α)
    {s : σ} (hs : I before s) (l : List α) :
    List.Forall₂ Q l (results step s l).1 ↔ AtEach (fun passed => P (before ++ passed)) l := by
  induction l generalizing before s with
  | nil => exact iff_of_true .nil (atEach_nil _)
  | cons x l ih =>
    have hrest := ih (before ++ [x]) (hstep before x s hs)
    simp only [List.append_assoc, List.singleton_append] at hrest
    rw [results_cons, List.forall₂_cons, atEach_cons, hresult before x s hs, hrest,
      List.append_nil]

theorem forall₂_results_iff_of_stays {step : σ → α → β × σ} {Q : α → β → Prop} {s : σ}
    (hstays : ∀ x, Q x (step s x).1 → (step s x).2 = s) (l : List α) :
    List.Forall₂ Q l (results step s l).1 ↔ ∀ x ∈ l, Q x (step s x).1 := by
  induction l with
  | nil => exact iff_of_true .nil fun x hx => absurd hx List.not_mem_nil
  | cons x l ih =>
    rw [results_cons, List.forall₂_cons, List.forall_mem_cons]
    refine and_congr_right fun hx => ?_
    rw [hstays x hx]
    exact ih

/-! ## Steps that may raise -/

variable {ε : Type}

/-- The loop where a step may raise, which ends it. -/
def resultsM (step : σ → α → Except ε (β × σ)) : σ → List α → Except ε (List β × σ)
  | s, [] => .ok ([], s)
  | s, x :: l => do
    let (b, s) ← step s x
    let (bs, s) ← resultsM step s l
    return (b :: bs, s)

/-- What is found for every element, given the elements before it. -/
def eachWith (out : List α → α → β) : List α → List β
  | [] => []
  | x :: l => out [] x :: eachWith (fun before => out (x :: before)) l

theorem forall₂_eachWith {Q : α → β → Prop} {out : List α → α → β} {l : List α} :
    List.Forall₂ Q l (eachWith out l) ↔ AtEach (fun before x => Q x (out before x)) l := by
  induction l generalizing out with
  | nil => exact iff_of_true .nil (atEach_nil _)
  | cons x l ih => rw [eachWith, List.forall₂_cons, atEach_cons, ih]

theorem zip_eachWith {γ : Type} (out : List α → α → β) (out' : List α → α → γ) (l : List α) :
    (eachWith out l).zip (eachWith out' l) =
      eachWith (fun before x => (out before x, out' before x)) l := by
  induction l generalizing out out' with
  | nil => rfl
  | cons x l ih => rw [eachWith, eachWith, eachWith, List.zip_cons_cons, ih]

/-- **Runs that may raise.**  If in every state of the invariant a step returns exactly under a
condition on the element and those before it, then the loop returns if and only if the condition
holds at every element. -/
theorem resultsM_eq_ok_iff {step : σ → α → Except ε (β × σ)} {I : List α → σ → Prop}
    {P : List α → α → Prop} {out : List α → α → β}
    (hreturns : ∀ before x s, I before s → P before x →
      ∃ s', step s x = .ok (out before x, s') ∧ I (before ++ [x]) s')
    (hraises : ∀ before x s, I before s → ¬P before x → ∀ r, step s x ≠ .ok r)
    (before : List α) {s : σ} (hs : I before s) {l : List α} {bs : List β} :
    (∃ s', resultsM step s l = .ok (bs, s')) ↔
      AtEach (fun passed => P (before ++ passed)) l ∧
        bs = eachWith (fun passed => out (before ++ passed)) l := by
  induction l generalizing before s bs with
  | nil =>
    rw [resultsM, eachWith, and_iff_right (atEach_nil _)]
    simp [eq_comm]
  | cons x l ih =>
    rw [atEach_cons, List.append_nil, eachWith, List.append_nil]
    by_cases hx : P before x
    · obtain ⟨s', hstep, hs'⟩ := hreturns before x s hs hx
      have hrest := fun bs : List β => @ih (before ++ [x]) s' hs' bs
      simp only [List.append_assoc, List.singleton_append] at hrest
      simp only [resultsM, hstep, ok_bind, bind_eq_ok, pure_eq_ok, Prod.exists, Prod.mk.injEq]
      rw [and_iff_right hx]
      constructor
      · rintro ⟨_, bs, t, hl, rfl, rfl⟩
        obtain ⟨hat, rfl⟩ := (hrest bs).mp ⟨t, hl⟩
        exact ⟨hat, rfl⟩
      · rintro ⟨hat, rfl⟩
        obtain ⟨t, hl⟩ := (hrest _).mpr ⟨hat, rfl⟩
        exact ⟨t, _, t, hl, rfl, rfl⟩
    · refine iff_of_false ?_ fun h => hx h.1.1
      rintro ⟨s', h⟩
      obtain ⟨r, hr, -⟩ := bind_eq_ok.mp h
      exact hraises before x s hs hx r hr

end Py.Runs

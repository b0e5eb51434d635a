import Mathlib.Data.List.Basic

/-!
# Loops of calls to a service

In each round the loop asks a service whose answer depends on its state, and the answer ends the
loop or gives the next round.
-/

namespace Py

variable {S Q A R σ : Type}

/-- A call: a request and the answer to it. -/
structure Call (Q A : Type) where
  request : Q
  answer : A
  deriving DecidableEq, Repr

/-- A loop with rounds `S`, requests `Q`, answers `A` and results `R`. -/
structure Loop (S Q A R : Type) where
  /-- What the loop ends with before a call, or the request of the round. -/
  ask : S → R ⊕ Q
  /-- What the loop ends with after an answer, or the next round. -/
  next : S → A → R ⊕ S
  size : S → Nat
  /-- A round that calls is not of size zero. -/
  size_ask : ∀ x q, ask x = .inr q → 0 < size x
  size_next : ∀ x q a x', ask x = .inr q → next x a = .inr x' → size x' < size x

/-- The calls of a loop in their order, its result and the service's state after it. -/
structure Session (Q A R σ : Type) where
  calls : List (Call Q A)
  result : R
  state : σ

namespace Loop

/-- The loop from a round on. -/
def run (loop : Loop S Q A R) (service : σ → Q → A × σ) (s : σ) (x : S) : Session Q A R σ :=
  match _hask : loop.ask x with
  | .inl r => ⟨[], r, s⟩
  | .inr q =>
    let call : Call Q A := ⟨q, (service s q).1⟩
    match _hnext : loop.next x call.answer with
    | .inl r => ⟨[call], r, (service s q).2⟩
    | .inr x' =>
      let rest := loop.run service (service s q).2 x'
      { rest with calls := call :: rest.calls }
termination_by loop.size x
decreasing_by exact loop.size_next x q _ x' ‹_› ‹_›

/-- The calls from a round on, and what they end with. -/
inductive Attempts (loop : Loop S Q A R) : S → List (Call Q A) → R → Prop where
  | idle {x : S} {r : R} (hask : loop.ask x = .inl r) : Attempts loop x [] r
  | done {x : S} {c : Call Q A} {r : R} (hask : loop.ask x = .inr c.request)
      (hnext : loop.next x c.answer = .inl r) : Attempts loop x [c] r
  | again {x x' : S} {c : Call Q A} {calls : List (Call Q A)} {r : R}
      (hask : loop.ask x = .inr c.request) (hnext : loop.next x c.answer = .inr x')
      (hrest : Attempts loop x' calls r) : Attempts loop x (c :: calls) r

/-- A run makes its calls round by round. -/
theorem attempts_run (loop : Loop S Q A R) (service : σ → Q → A × σ) (s : σ) (x : S) :
    loop.Attempts x (loop.run service s x).calls (loop.run service s x).result := by
  induction hn : loop.size x using Nat.strongRecOn generalizing s x with
  | ind n ih =>
    rw [run]
    split
    · rename_i r hask
      exact .idle hask
    · rename_i q hask
      dsimp only
      split
      · rename_i r hnext
        exact .done hask hnext
      · rename_i x' hnext
        refine .again hask hnext ?_
        exact ih _ (hn ▸ loop.size_next x q _ x' hask hnext) _ x' rfl

variable {loop : Loop S Q A R} {x : S} {calls : List (Call Q A)} {r : R}

theorem Attempts.length_le (h : loop.Attempts x calls r) : calls.length ≤ loop.size x := by
  induction h with
  | idle _ => exact Nat.zero_le _
  | done hask _ => exact loop.size_ask _ _ hask
  | again hask hnext _ ih => exact Nat.lt_of_le_of_lt ih (loop.size_next _ _ _ _ hask hnext)

theorem length_calls_le (loop : Loop S Q A R) (service : σ → Q → A × σ) (s : σ) (x : S) :
    (loop.run service s x).calls.length ≤ loop.size x :=
  (loop.attempts_run service s x).length_le

/-- **Invariants.**  What holds of the first round and is preserved, with the calls before it, by
every answer that leads to a next round, holds when a call is made. -/
theorem Attempts.invariant {I : List (Call Q A) → S → Prop}
    (hstep : ∀ before x c x', I before x → loop.ask x = .inr c.request →
      loop.next x c.answer = .inr x' → I (before ++ [c]) x')
    (h : loop.Attempts x calls r) {done : List (Call Q A)} (hx : I done x)
    {before after : List (Call Q A)} {c : Call Q A} (hcalls : calls = before ++ c :: after) :
    ∃ x', I (done ++ before) x' ∧ loop.Attempts x' (c :: after) r := by
  induction h generalizing done before with
  | idle _ => cases before <;> cases hcalls
  | done hask hnext =>
    cases before with
    | nil =>
      cases hcalls
      exact ⟨_, by rwa [List.append_nil], .done hask hnext⟩
    | cons b before => cases before <;> cases hcalls
  | @again x x' d calls r hask hnext hrest ih =>
    cases before with
    | nil =>
      cases hcalls
      exact ⟨x, by rwa [List.append_nil], .again hask hnext hrest⟩
    | cons b before =>
      cases hcalls
      obtain ⟨y, hy, hrest'⟩ := ih (hstep done x _ x' hx hask hnext) rfl
      exact ⟨y, by simpa using hy, hrest'⟩

theorem Attempts.round {I : List (Call Q A) → S → Prop}
    (hstep : ∀ before x c x', I before x → loop.ask x = .inr c.request →
      loop.next x c.answer = .inr x' → I (before ++ [c]) x')
    (h : loop.Attempts x calls r) {done : List (Call Q A)} (hx : I done x)
    {before after : List (Call Q A)} {c : Call Q A} (hcalls : calls = before ++ c :: after) :
    ∃ y, I (done ++ before) y ∧ loop.ask y = .inr c.request ∧
      (loop.next y c.answer = .inl r ∧ after = [] ∨ ∃ y', loop.next y c.answer = .inr y') := by
  obtain ⟨y, hy, hrest⟩ := h.invariant hstep hx hcalls
  cases hrest with
  | done hask hnext => exact ⟨y, hy, hask, Or.inl ⟨hnext, rfl⟩⟩
  | again hask hnext _ => exact ⟨y, hy, hask, Or.inr ⟨_, hnext⟩⟩

/-- **Ends.**  The result is that of a round of the invariant, before its call or after it. -/
theorem Attempts.ends {I : List (Call Q A) → S → Prop}
    (hstep : ∀ before x c x', I before x → loop.ask x = .inr c.request →
      loop.next x c.answer = .inr x' → I (before ++ [c]) x')
    (h : loop.Attempts x calls r) {done : List (Call Q A)} (hx : I done x) :
    (∃ x', I (done ++ calls) x' ∧ loop.ask x' = .inl r) ∨
      ∃ before c x', calls = before ++ [c] ∧ I (done ++ before) x' ∧
        loop.ask x' = .inr c.request ∧ loop.next x' c.answer = .inl r := by
  induction h generalizing done with
  | @idle x r hask => exact Or.inl ⟨x, by rwa [List.append_nil], hask⟩
  | @done x c r hask hnext => exact Or.inr ⟨[], c, x, rfl, by rwa [List.append_nil], hask, hnext⟩
  | @again x x' c calls r hask hnext _ ih =>
    rcases ih (hstep done x c x' hx hask hnext) with ⟨y, hy, hend⟩ | ⟨before, d, y, rfl, hy, hend⟩
    · exact Or.inl ⟨y, by simpa using hy, hend⟩
    · exact Or.inr ⟨c :: before, d, y, rfl, by simpa using hy, hend⟩

end Loop

end Py

import Custodian.Lib.Attempts
import Custodian.Tags.UniversalRetry
import Mathlib.Algebra.Order.Ring.Pow
import Mathlib.Algebra.Order.Field.Rat

/-!
# Retries of transient errors

`get_retry` of `c7n/utils.py` calls a function again while it fails with one of the retryable codes,
after the delays of `backoff_delays`.  It raises at the last attempt; without a delay for every
attempt the loop would end before that and return `None`.  Numbers are exact here.
-/

namespace Custodian.GetRetry

open Py
open UniversalRetry (backoffDelays)

/-- What a call can raise: a `ClientError`, or anything else. -/
inductive Failure where
  | clientError (code message : Text)
  | other (name : Text)
  deriving DecidableEq, Repr

/-- What a call comes to. -/
abbrev Answer (ρ : Type) := Except Failure ρ

/-- The parameters of `get_retry` and of its wrapper. -/
structure Parameters where
  retryCodes : List Text
  ignoreErrCodes : List Text
  maxAttempts : Nat
  minDelay : ℚ

/-- `max_delay` -/
def Parameters.maxDelay (p : Parameters) : ℚ := max p.minDelay 2 ^ p.maxAttempts

/-- A round of the loop over the numbered delays. -/
structure Round where
  idx : Nat
  delays : List ℚ

variable {ρ σ : Type}

/-- The body of the loop after a call: it returns, raises or goes to sleep. -/
def Parameters.afterCall (p : Parameters) (x : Round) : Answer ρ → Answer (Option ρ) ⊕ Round
  | .ok response => .inl (.ok (some response))
  | .error (.other name) => .inl (.error (.other name))
  | .error (.clientError code message) =>
    if code ∈ p.ignoreErrCodes then .inl (.ok none)
    else if code ∉ p.retryCodes then .inl (.error (.clientError code message))
    else if (x.idx : Int) = p.maxAttempts - 1 then .inl (.error (.clientError code message))
    else .inr ⟨x.idx + 1, x.delays.tail⟩

/-- The error is one after which the function is called again. -/
def Parameters.Retryable (p : Parameters) (e : Failure) : Prop :=
  ∃ code message, e = .clientError code message ∧ code ∉ p.ignoreErrCodes ∧ code ∈ p.retryCodes

/-- The error is one that the wrapper does not raise. -/
def Parameters.Ignored (p : Parameters) (e : Failure) : Prop :=
  ∃ code message, e = .clientError code message ∧ code ∈ p.ignoreErrCodes

theorem Parameters.afterCall_eq_inr {p : Parameters} {x x' : Round} {answer : Answer ρ} :
    p.afterCall x answer = .inr x' ↔ ∃ e, answer = .error e ∧ p.Retryable e ∧
      (x.idx : Int) ≠ p.maxAttempts - 1 ∧ x' = ⟨x.idx + 1, x.delays.tail⟩ := by
  cases answer with
  | ok response => simp [afterCall]
  | error e =>
    cases e with
    | other name => simp [afterCall, Retryable]
    | clientError code message =>
      by_cases hignore : code ∈ p.ignoreErrCodes
      · simp [afterCall, Retryable, hignore]
      · by_cases hretry : code ∈ p.retryCodes
        · by_cases hlast : (x.idx : Int) = p.maxAttempts - 1
          · simp [afterCall, Retryable, hignore, hretry, hlast]
          · simp [afterCall, Retryable, hignore, hretry, hlast, eq_comm]
        · simp [afterCall, Retryable, hignore, hretry]

/-- `for idx, delay in enumerate(backoff_delays(…)): try: return func(…) except ClientError as e: …`;
the function is called for each delay. -/
def Parameters.loop (p : Parameters) (ρ : Type) : Loop Round ℚ (Answer ρ) (Answer (Option ρ)) where
  ask x :=
    match x.delays with
    | [] => .inl (.ok none)
    | delay :: _ => .inr delay
  next := p.afterCall
  size x := x.delays.length
  size_ask x q h := by
    split at h
    · cases h
    · rename_i hx
      rw [hx]
      exact Nat.succ_pos _
  size_next x q answer x' hask hnext := by
    obtain ⟨e, -, -, -, rfl⟩ := Parameters.afterCall_eq_inr.mp hnext
    split at hask
    · cases hask
    · rename_i delay delays hx
      rw [hx]
      exact Nat.lt_succ_self _

/-- The wrapper that `get_retry` returns, called once, where `random` gives the jitter and at most
`n` delays are taken. -/
def getRetry (p : Parameters) (random : Nat → ℚ) (n : Nat) (call : σ → ℚ → Answer ρ × σ) (s : σ) :
    Session ℚ (Answer ρ) (Answer (Option ρ)) σ :=
  (p.loop ρ).run call s ⟨0, backoffDelays p.maxDelay 2 random n p.minDelay⟩

/-! ## What is expected of a run -/

/-- The function is called up to the budget, and its last answer is what the wrapper gives. -/
structure Accounts (p : Parameters) (run : Session ℚ (Answer ρ) (Answer (Option ρ)) σ) : Prop where
  bounded : run.calls.length ≤ p.maxAttempts
  answered : ∀ before c after response, run.calls = before ++ c :: after →
    c.answer = .ok response → after = [] ∧ run.result = .ok (some response)
  exhausted : (∀ c ∈ run.calls, ∃ e, c.answer = .error e ∧ p.Retryable e) →
    run.calls.length = p.maxAttempts ∧ ∃ before c e, run.calls = before ++ [c] ∧
      c.answer = .error e ∧ run.result = .error e
  returned : ∀ response, run.result = .ok (some response) →
    ∃ before c, run.calls = before ++ [c] ∧ c.answer = .ok response
  silent : run.result = .ok none →
    ∃ before c e, run.calls = before ++ [c] ∧ c.answer = .error e ∧ p.Ignored e
  raised : ∀ e, run.result = .error e → ∃ before c, run.calls = before ++ [c] ∧ c.answer = .error e

/-! ## Delays -/

theorem le_length_backoffDelays {stop factor : ℚ} (random : Nat → ℚ) {m n : Nat} (hmn : m ≤ n)
    {cur : ℚ} (h : ∀ k < m, cur * factor ^ k ≤ stop) :
    m ≤ (backoffDelays stop factor random n cur).length := by
  induction n generalizing m cur with
  | zero => exact hmn
  | succ n ih =>
    cases m with
    | zero => exact Nat.zero_le _
    | succ m =>
      have hcur : cur ≤ stop := by simpa using h 0 (Nat.succ_pos m)
      rw [backoffDelays, if_pos hcur, List.length_cons]
      refine Nat.succ_le_succ (ih (Nat.le_of_succ_le_succ hmn) fun k hk => ?_)
      calc cur * factor * factor ^ k = cur * factor ^ (k + 1) := by rw [pow_succ', mul_assoc]
        _ ≤ stop := h (k + 1) (Nat.succ_lt_succ hk)

theorem Parameters.delay_le (p : Parameters) (hmin : 0 < p.minDelay) {k : Nat}
    (hk : k < p.maxAttempts) : p.minDelay * 2 ^ k ≤ p.maxDelay := by
  have htwo : (2 : ℚ) ≤ max p.minDelay 2 := le_max_right _ _
  calc p.minDelay * 2 ^ k ≤ max p.minDelay 2 * max p.minDelay 2 ^ k :=
        mul_le_mul (le_max_left _ _) (pow_le_pow_left₀ zero_le_two htwo k)
          (pow_nonneg zero_le_two k) (hmin.le.trans (le_max_left _ _))
    _ = max p.minDelay 2 ^ (k + 1) := (pow_succ' _ k).symm
    _ ≤ p.maxDelay := pow_le_pow_right₀ (one_le_two.trans htwo) hk

/-! ## Rounds -/

theorem Parameters.afterCall_eq_inl {p : Parameters} {x : Round} {answer : Answer ρ}
    {r : Answer (Option ρ)} : p.afterCall x answer = .inl r ↔
      (∃ response, answer = .ok response ∧ r = .ok (some response)) ∨
        ∃ e, answer = .error e ∧ (p.Ignored e ∧ r = .ok none ∨
          ¬p.Ignored e ∧ (¬p.Retryable e ∨ (x.idx : Int) = p.maxAttempts - 1) ∧ r = .error e) := by
  cases answer with
  | ok response => simp [afterCall, eq_comm]
  | error e =>
    cases e with
    | other name => simp [afterCall, Retryable, Ignored, eq_comm]
    | clientError code message =>
      by_cases hignore : code ∈ p.ignoreErrCodes
      · simp [afterCall, Retryable, Ignored, hignore, eq_comm]
      · by_cases hretry : code ∈ p.retryCodes
        · by_cases hlast : (x.idx : Int) = p.maxAttempts - 1
          · simp [afterCall, Retryable, Ignored, hignore, hretry, hlast, eq_comm]
          · simp [afterCall, Retryable, Ignored, hignore, hretry, hlast]
        · simp [afterCall, Retryable, Ignored, hignore, hretry, eq_comm]

/-- A round that is one of the attempts, with a delay for it and for each one after it. -/
structure Attempt (p : Parameters) (before : List (Call ℚ (Answer ρ))) (x : Round) : Prop where
  idx : x.idx = before.length
  lt : x.idx < p.maxAttempts
  delays : p.maxAttempts ≤ x.idx + x.delays.length

theorem Attempt.ask_ne {p : Parameters} {before : List (Call ℚ (Answer ρ))} {x : Round}
    (h : Attempt p before x) (r : Answer (Option ρ)) : (p.loop ρ).ask x ≠ .inl r := by
  intro hask
  have hlt := h.lt
  have hdelays := h.delays
  simp only [Parameters.loop] at hask
  split at hask
  · rename_i hnil
    rw [hnil, List.length_nil] at hdelays
    omega
  · cases hask

theorem Attempt.next {p : Parameters} {before : List (Call ℚ (Answer ρ))} {x x' : Round}
    {c : Call ℚ (Answer ρ)} (h : Attempt p before x)
    (hnext : (p.loop ρ).next x c.answer = .inr x') : Attempt p (before ++ [c]) x' := by
  obtain ⟨e, -, -, hlast, rfl⟩ := Parameters.afterCall_eq_inr.mp hnext
  obtain ⟨hidx, hlt, hdelays⟩ := h
  refine ⟨by simp [hidx], ?_, ?_⟩
  · show x.idx + 1 < p.maxAttempts
    omega
  · show p.maxAttempts ≤ x.idx + 1 + x.delays.tail.length
    rw [List.length_tail]
    omega

section Runs

variable {p : Parameters} (hmin : 0 < p.minDelay) (hmax : 1 ≤ p.maxAttempts) (random : Nat → ℚ)
  {n : Nat} (hn : p.maxAttempts ≤ n) (call : σ → ℚ → Answer ρ × σ) (s : σ)

include hmin hmax hn

theorem attempt_nil : Attempt p ([] : List (Call ℚ (Answer ρ)))
    ⟨0, backoffDelays p.maxDelay 2 random n p.minDelay⟩ := by
  refine ⟨rfl, hmax, ?_⟩
  rw [Nat.zero_add]
  exact le_length_backoffDelays random hn fun k hk => p.delay_le hmin hk

theorem getRetry_ends : ∃ before c x, (getRetry p random n call s).calls = before ++ [c] ∧
    Attempt p before x ∧ p.afterCall x c.answer = .inl (getRetry p random n call s).result := by
  rcases ((p.loop ρ).attempts_run call s _).ends
    (fun before x c x' (hx : Attempt p before x) _ hnext => hx.next hnext)
    (attempt_nil hmin hmax random hn) with ⟨x, hx, hask⟩ | ⟨before, c, x, hcalls, hx, -, hnext⟩
  · exact absurd hask (hx.ask_ne _)
  · exact ⟨before, c, x, hcalls, hx, hnext⟩

theorem getRetry_answered {before after : List (Call ℚ (Answer ρ))} {c : Call ℚ (Answer ρ)}
    {response : ρ} (hcalls : (getRetry p random n call s).calls = before ++ c :: after)
    (hanswer : c.answer = .ok response) :
    after = [] ∧ (getRetry p random n call s).result = .ok (some response) := by
  obtain ⟨x, -, -, hnext⟩ := ((p.loop ρ).attempts_run call s _).round
    (fun before x c x' (hx : Attempt p before x) _ hnext => hx.next hnext)
    (attempt_nil hmin hmax random hn) hcalls
  rw [hanswer] at hnext
  rcases hnext with ⟨hnext, hafter⟩ | ⟨x', hnext⟩
  · exact ⟨hafter, (Sum.inl.inj hnext).symm⟩
  · cases hnext

end Runs

def throttling : Text := "Throttling".toList

/-- Three attempts, and delays from half a second on. -/
def threeAttempts : Parameters := ⟨[throttling], [], 3, 1 / 2⟩

/-- A function that is always throttled. -/
def alwaysThrottled (s : Unit) (_ : ℚ) : Answer Nat × Unit :=
  (.error (.clientError throttling "Rate exceeded".toList), s)

end Custodian.GetRetry

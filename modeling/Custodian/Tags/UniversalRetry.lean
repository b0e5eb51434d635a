import Custodian.Lib.Dict
import Custodian.Lib.Text
import Mathlib.Algebra.Order.Ring.Unbundled.Rat
import Mathlib.Tactic.NormNum

/-!
# Retries of the tagging service

`universal_retry` of `c7n/tags.py` sends a list of arns and sends those that were throttled again,
after the delays of `backoff_delays`.
-/

namespace Custodian.UniversalRetry

open Py

/-! ## Delays -/

/-- The first `n` values of `backoff_delays(start, stop, factor, jitter=True)`, where `random` gives
the values of `random.random()`; without jitter these are zero. -/
def backoffDelays (stop factor : ℚ) (random : Nat → ℚ) : Nat → ℚ → List ℚ
  | 0, _ => []
  | n + 1, cur =>
    if cur ≤ stop then (cur - cur * random n / 5) :: backoffDelays stop factor random n (cur * factor)
    else []

/-! ## The service -/

def throttling : Text := "ThrottlingException".toList

/-- `is_resource_gone(error_code)`: the pattern matches at the end, or before a final newline. -/
def isResourceGone (errorCode : Text) : Bool :=
  ["NotFound".toList, "NotFoundFault".toList, "NotFoundException".toList].any fun code =>
    code.isSuffixOf errorCode || (code ++ ['\n']).isSuffixOf errorCode

/-- A response: the error code of each arn in `FailedResourcesMap`. -/
structure Response where
  failures : Dict Text Text

/-- A service that answers by its state; it names failures of the request only. -/
structure Service (σ : Type) where
  call : σ → List Text → Response × σ
  mem_request : ∀ s arns, ∀ arn ∈ (call s arns).1.failures, arn ∈ arns

/-- A call: a request and the response to it. -/
structure Call where
  request : List Text
  response : Response
  mem_request : ∀ arn ∈ response.failures, arn ∈ request

/-- The order in which the elements of a set are listed. -/
structure SetOrder where
  list : List Text → List Text
  perm : ∀ arns, (list arns).Perm arns

/-- `throttles` -/
def Response.throttles (r : Response) : List Text :=
  (r.failures.entries.filter fun e => e.2 = throttling).map Sigma.fst

/-- `errors` -/
def Response.errors (r : Response) : List (Sigma fun _ : Text => Text) :=
  r.failures.entries.filter fun e => e.2 ≠ throttling && !isResourceGone e.2

/-! ## The loop -/

def maxAttempts : Nat := 6

/-- The exceptions, with the data of their messages. -/
inductive Failure where
  /-- `"Resource Tag Errors %s" % (errors)` -/
  | errors (errors : List (Sigma fun _ : Text => Text))
  /-- `"Resource Tag Throttled %s" % (", ".join(throttles))` -/
  | throttled (arns : List Text)

/-- The calls of a run and how it ends; it returns `none` where it ends without `return`. -/
structure Run (σ : Type) where
  calls : List Call
  result : Except Failure (Option Response)
  state : σ

variable {σ : Type}

/-- `service(ResourceARNList=arns)` -/
def Service.send (service : Service σ) (s : σ) (arns : List Text) : Call :=
  ⟨arns, (service.call s arns).1, service.mem_request s arns⟩

/-- The loop over the numbered delays. -/
def retryLoop (service : Service σ) (order : SetOrder) :
    Nat → List ℚ → List Text → σ → Run σ
  | _, [], _, s => ⟨[], .ok none, s⟩
  | idx, _ :: delays, arns, s =>
    let call := service.send s arns
    let response := call.response
    let s := (service.call s arns).2
    if response.failures.entries = [] then ⟨[call], .ok (some response), s⟩
    else if response.errors ≠ [] then ⟨[call], .error (.errors response.errors), s⟩
    else if response.throttles = [] then ⟨[call], .ok (some response), s⟩
    else
      let throttles := order.list response.throttles
      if idx = maxAttempts - 1 then ⟨[call], .error (.throttled throttles), s⟩
      else
        let rest := retryLoop service order (idx + 1) delays throttles s
        { rest with calls := call :: rest.calls }

/-- `universal_retry(method, ResourceARNList)`: there are less than ten delays. -/
def universalRetry (service : Service σ) (order : SetOrder) (random : Nat → ℚ) (arns : List Text)
    (s : σ) : Run σ :=
  retryLoop service order 0 (backoffDelays (2 ^ 8) 2 random 10 (3 / 2)) arns s

/-! ## What is expected of a run -/

/-- The arn was sent and is none of the failures. -/
def Call.Accepted (c : Call) (arn : Text) : Prop := arn ∈ c.request ∧ arn ∉ c.response.failures

/-- The arn failed because its resource is gone. -/
def Call.Gone (c : Call) (arn : Text) : Prop :=
  ∃ code, c.response.failures.lookup arn = some code ∧ isResourceGone code = true

/-- Some arn was throttled. -/
def Call.throttled (c : Call) : Bool := c.response.throttles ≠ []

/-- Every arn is accounted for. -/
structure Accounts (arns : List Text) (calls : List Call)
    (result : Except Failure (Option Response)) : Prop where
  returned : ∀ r, result = .ok r → ∀ arn ∈ arns, ∃ c ∈ calls, c.Accepted arn ∨ c.Gone arn
  errors : ∀ c ∈ calls, ∀ arn code, c.response.failures.lookup arn = some code →
    code ≠ throttling → isResourceGone code = false → ∃ e, result = .error e
  throttled : maxAttempts ≤ calls.countP Call.throttled → ∃ e, result = .error e
  settled : calls.Pairwise fun c c' => ∀ arn, c.Accepted arn ∨ c.Gone arn → arn ∉ c'.request
  bounded : calls.length ≤ maxAttempts
  ends : result ≠ .ok none

/-! ## Rounds -/

/-- The calls of a run from a round on: a call settles the run, or fails, or the arns that it
throttled are sent in the next round. -/
inductive Retries : Nat → List Text → List Call → Except Failure (Option Response) → Prop where
  | settled {idx : Nat} (c : Call) (herrors : c.response.errors = [])
      (hthrottles : c.response.throttles = []) :
      Retries idx c.request [c] (.ok (some c.response))
  | failed {idx : Nat} (c : Call) (e : Failure) : Retries idx c.request [c] (.error e)
  | again {idx : Nat} {arns : List Text} {calls : List Call}
      {result : Except Failure (Option Response)} (c : Call) (herrors : c.response.errors = [])
      (hidx : idx + 1 < maxAttempts) (hperm : arns.Perm c.response.throttles)
      (hrest : Retries (idx + 1) arns calls result) : Retries idx c.request (c :: calls) result

theorem mem_throttles {r : Response} {arn : Text} :
    arn ∈ r.throttles ↔ r.failures.lookup arn = some throttling := by
  rw [Response.throttles, List.mem_map]
  constructor
  · rintro ⟨⟨arn, code⟩, hentry, rfl⟩
    obtain ⟨hmem, hcode⟩ := List.mem_filter.mp hentry
    exact AList.mem_lookup_iff.mpr (of_decide_eq_true hcode ▸ hmem)
  · intro h
    exact ⟨⟨arn, throttling⟩, List.mem_filter.mpr ⟨AList.mem_lookup_iff.mp h, by simp⟩, rfl⟩

theorem errors_ne_nil {r : Response} {arn code : Text} (h : r.failures.lookup arn = some code)
    (hcode : code ≠ throttling) (hgone : isResourceGone code = false) : r.errors ≠ [] := by
  have hmem : ⟨arn, code⟩ ∈ r.errors :=
    List.mem_filter.mpr ⟨AList.mem_lookup_iff.mp h, by simp [hcode, hgone]⟩
  exact List.ne_nil_of_mem hmem

theorem Call.settles {c : Call} (herrors : c.response.errors = []) {arn : Text}
    (harn : arn ∈ c.request) :
    (c.Accepted arn ∨ c.Gone arn) ∨ arn ∈ c.response.throttles := by
  cases hcode : c.response.failures.lookup arn with
  | none => exact Or.inl (Or.inl ⟨harn, AList.lookup_eq_none.mp hcode⟩)
  | some code =>
    by_cases hthrottled : code = throttling
    · exact Or.inr (mem_throttles.mpr (hthrottled ▸ hcode))
    · cases hgone : isResourceGone code with
      | true => exact Or.inl (Or.inr ⟨code, hcode, hgone⟩)
      | false => exact absurd herrors (errors_ne_nil hcode hthrottled hgone)

theorem Call.not_settled {c : Call} {arn : Text} (h : arn ∈ c.response.throttles) :
    ¬ (c.Accepted arn ∨ c.Gone arn) := by
  have hcode := mem_throttles.mp h
  rintro (haccepted | ⟨code, hgone, hcodeGone⟩)
  · have hnone := AList.lookup_eq_none.mpr haccepted.2
    rw [hnone] at hcode
    cases hcode
  · rw [hcode] at hgone
    cases hgone
    revert hcodeGone
    decide

theorem Call.throttles_subset (c : Call) : c.response.throttles ⊆ c.request := by
  intro arn harn
  exact c.mem_request arn (AList.lookup_isSome.mp (by rw [mem_throttles.mp harn]; rfl))

namespace Retries

variable {idx : Nat} {arns : List Text} {calls : List Call}
  {result : Except Failure (Option Response)}

theorem request_subset (h : Retries idx arns calls result) : ∀ c ∈ calls, c.request ⊆ arns := by
  induction h with
  | settled c | failed c =>
    intro c' hc'
    rw [List.mem_singleton.mp hc']
    exact List.Subset.refl _
  | again c herrors hidx hperm hrest ih =>
    intro c' hc'
    rcases List.mem_cons.mp hc' with rfl | hc'
    · exact List.Subset.refl _
    · intro arn harn
      exact c.throttles_subset (hperm.subset (ih c' hc' harn))

theorem returned (h : Retries idx arns calls result) (r : Option Response) (hr : result = .ok r) :
    ∀ arn ∈ arns, ∃ c ∈ calls, c.Accepted arn ∨ c.Gone arn := by
  induction h with
  | settled c herrors hthrottles =>
    intro arn harn
    refine ⟨c, List.mem_singleton_self c, (c.settles herrors harn).resolve_right ?_⟩
    rw [hthrottles]
    exact List.not_mem_nil
  | failed => cases hr
  | again c herrors hidx hperm hrest ih =>
    intro arn harn
    rcases c.settles herrors harn with hsettled | hthrottled
    · exact ⟨c, List.mem_cons_self, hsettled⟩
    · obtain ⟨c', hc', hsettled⟩ := ih hr arn (hperm.symm.subset hthrottled)
      exact ⟨c', List.mem_cons_of_mem c hc', hsettled⟩

theorem errors (h : Retries idx arns calls result) {c : Call} (hc : c ∈ calls)
    (herrors : c.response.errors ≠ []) : ∃ e, result = .error e := by
  induction h with
  | settled c' herrors' =>
    rw [List.mem_singleton.mp hc] at herrors
    exact absurd herrors' herrors
  | failed c' e => exact ⟨e, rfl⟩
  | again c' herrors' hidx hperm hrest ih =>
    rcases List.mem_cons.mp hc with rfl | hc
    · exact absurd herrors' herrors
    · exact ih hc

theorem throttled (h : Retries idx arns calls result) (hidx : idx < maxAttempts)
    (hcalls : maxAttempts ≤ idx + calls.countP Call.throttled) : ∃ e, result = .error e := by
  induction h with
  | settled c herrors hthrottles =>
    have hcount : [c].countP Call.throttled = 0 := by simp [Call.throttled, hthrottles]
    omega
  | failed c e => exact ⟨e, rfl⟩
  | again c herrors hidx' hperm hrest ih =>
    rw [List.countP_cons] at hcalls
    refine ih hidx' ?_
    split at hcalls <;> omega

theorem pairwise (h : Retries idx arns calls result) :
    calls.Pairwise fun c c' => ∀ arn, c.Accepted arn ∨ c.Gone arn → arn ∉ c'.request := by
  induction h with
  | settled | failed => exact List.pairwise_singleton ..
  | again c herrors hidx hperm hrest ih =>
    refine List.pairwise_cons.mpr ⟨fun c' hc' arn hsettled harn => ?_, ih⟩
    exact c.not_settled (hperm.subset (hrest.request_subset c' hc' harn)) hsettled

theorem length_le (h : Retries idx arns calls result) (hidx : idx < maxAttempts) :
    idx + calls.length ≤ maxAttempts := by
  induction h with
  | settled | failed => exact hidx
  | again c herrors hidx' hperm hrest ih =>
    rw [List.length_cons]
    have hrest := ih hidx'
    omega

theorem ends (h : Retries idx arns calls result) : result ≠ .ok none := by
  induction h with
  | settled | failed => simp
  | again c herrors hidx hperm hrest ih => exact ih

theorem accounts (h : Retries 0 arns calls result) : Accounts arns calls result where
  returned := h.returned
  errors c hc _ _ hlookup hcode hgone := h.errors hc (errors_ne_nil hlookup hcode hgone)
  throttled hcalls := h.throttled (by decide) (by omega)
  settled := h.pairwise
  bounded := by
    have hlength := h.length_le (by decide)
    omega
  ends := h.ends

end Retries

/-! ## The run -/

theorem retryLoop_retries (service : Service σ) (order : SetOrder) {idx : Nat} {delays : List ℚ}
    (hidx : idx < maxAttempts) (hdelays : maxAttempts ≤ idx + delays.length) (arns : List Text)
    (s : σ) :
    Retries idx arns (retryLoop service order idx delays arns s).calls
      (retryLoop service order idx delays arns s).result := by
  induction delays generalizing idx arns s with
  | nil =>
    rw [List.length_nil] at hdelays
    omega
  | cons delay delays ih =>
    simp only [retryLoop]
    split
    · rename_i hnone
      exact .settled (service.send s arns) (by rw [Response.errors, hnone]; rfl)
        (by rw [Response.throttles, hnone]; rfl)
    split
    · exact .failed (service.send s arns) _
    rename_i herrors
    rw [not_not] at herrors
    split
    · rename_i hthrottles
      exact .settled (service.send s arns) herrors hthrottles
    split
    · exact .failed (service.send s arns) _
    · rename_i hlast
      rw [maxAttempts] at hidx hlast hdelays
      rw [List.length_cons] at hdelays
      exact .again (service.send s arns) herrors (by rw [maxAttempts]; omega) (order.perm _)
        (ih (by rw [maxAttempts]; omega) (by rw [maxAttempts]; omega) _ _)

theorem length_backoffDelays (random : Nat → ℚ) (n : Nat) :
    (backoffDelays (2 ^ 8) 2 random (n + 8) (3 / 2)).length = 8 := by
  have hend : backoffDelays 256 2 random n 384 = [] := by
    cases n with
    | zero => rfl
    | succ n => norm_num [backoffDelays]
  norm_num [backoffDelays, hend]

/-- **Retries.**  Every arn is accounted for. -/
theorem universalRetry_accounts (service : Service σ) (order : SetOrder) (random : Nat → ℚ)
    (arns : List Text) (s : σ) :
    Accounts arns (universalRetry service order random arns s).calls
      (universalRetry service order random arns s).result := by
  refine (retryLoop_retries service order (by decide) ?_ arns s).accounts
  rw [length_backoffDelays random 2]
  decide

end Custodian.UniversalRetry

import Custodian.Filters.Blocks
import Custodian.Lib.Bulk

/-!
# Evaluations of config poll rules

`ConfigPollRuleMode` of `c7n/policy.py` reports the matched and the other resources of a policy,
and the previous evaluations of resources that are gone, to AWS Config in batches.
-/

namespace Custodian.ConfigPoll

open Py Bulk Custodian.Blocks

/-! ## The source -/

inductive ComplianceType where
  | compliant
  | nonCompliant
  | notApplicable
  deriving DecidableEq

structure Evaluation where
  complianceResourceType : Text
  complianceResourceId : Text
  complianceType : ComplianceType
  orderingTimestamp : Text
  annotation : Text
  deriving DecidableEq

/-- `EvaluationResultQualifier` of a previous evaluation. -/
structure OldEvaluation where
  resourceType : Text
  resourceId : Text
  deriving DecidableEq

/-- What the mode reads of its policy and of the event. -/
structure Poll where
  cfnType : Text
  policyName : Text
  resultToken : Option Text
  notificationCreationTime : Text

/-- The arguments of a call of `client.put_evaluations`. -/
structure PutCall where
  evaluations : List Evaluation
  resultToken : Text
  deriving DecidableEq

/-- `get_obsolete_evaluations` -/
def getObsoleteEvaluations (orderingTs : Text) (oldEvals : List OldEvaluation)
    (evaluations : List Evaluation) : List Evaluation :=
  let latestResourceIds := evaluations.map Evaluation.complianceResourceId
  (oldEvals.filter fun old => old.resourceId ∉ latestResourceIds).map fun old =>
    { complianceResourceType := old.resourceType
      complianceResourceId := old.resourceId
      annotation := "The rule does not apply.".toList
      complianceType := .notApplicable
      orderingTimestamp := orderingTs }

/-- `put_evaluations` -/
def putEvaluations (token : Text) (evaluations : List Evaluation) : List PutCall :=
  (chunks 100 evaluations).map fun evalSet => ⟨evalSet, token⟩

section Run

variable {ρ : Type} (resourceId : ρ → Text) (order : SetOrder Text) (poll : Poll)
  (matched population : List ρ) (oldEvals : List OldEvaluation)

/-- `matched_resources` -/
def matchedResources : List Text := order.iter (matched.map resourceId)

/-- `unmatched_resources` -/
def unmatchedResources : List Text :=
  order.iter ((population.map resourceId).filter fun r =>
    r ∉ matchedResources resourceId order matched)

def Poll.nonCompliant (r : Text) : Evaluation where
  complianceResourceType := poll.cfnType
  complianceResourceId := r
  complianceType := .nonCompliant
  orderingTimestamp := poll.notificationCreationTime
  annotation := "The resource is not compliant with policy:".toList ++ poll.policyName ++ ".".toList

def Poll.compliant (r : Text) : Evaluation where
  complianceResourceType := poll.cfnType
  complianceResourceId := r
  complianceType := .compliant
  orderingTimestamp := poll.notificationCreationTime
  annotation := "The resource is compliant with policy:".toList ++ poll.policyName ++ ".".toList

/-- `non_compliant_evals + compliant_evals` -/
def latestEvaluations : List Evaluation :=
  (matchedResources resourceId order matched).map poll.nonCompliant ++
    (unmatchedResources resourceId order matched population).map poll.compliant

def evaluations : List Evaluation :=
  let latest := latestEvaluations resourceId order poll matched population
  latest ++ getObsoleteEvaluations poll.notificationCreationTime oldEvals latest

/-- `run`, for the resources that `PullMode.run` returns and those of the policy
without filters: the calls made, and the ids returned. -/
def run : List PutCall × List Text :=
  let evals := evaluations resourceId order poll matched population oldEvals
  (match poll.resultToken with
    | some token => if evals ≠ [] ∧ token ≠ [] then putEvaluations token evals else []
    | none => [],
   matchedResources resourceId order matched)

end Run

/-! ## The evaluations of an id -/

variable {ρ : Type} {resourceId : ρ → Text} {order : SetOrder Text} {poll : Poll}
  {matched population : List ρ} {oldEvals : List OldEvaluation}

theorem mem_matchedResources {i : Text} :
    i ∈ matchedResources resourceId order matched ↔ i ∈ matched.map resourceId :=
  order.mem _ _

theorem mem_unmatchedResources {i : Text} :
    i ∈ unmatchedResources resourceId order matched population ↔
      i ∈ population.map resourceId ∧ i ∉ matched.map resourceId := by
  rw [unmatchedResources, order.mem, List.mem_filter, decide_eq_true_iff, mem_matchedResources]

theorem matchedResources_nodup : (matchedResources resourceId order matched).Nodup :=
  order.nodup _

theorem unmatchedResources_nodup :
    (unmatchedResources resourceId order matched population).Nodup := order.nodup _

theorem filter_map_of_nodup {f : Text → Evaluation} (hf : ∀ r, (f r).complianceResourceId = r)
    {ids : List Text} (h : ids.Nodup) (i : Text) :
    (ids.map f).filter (fun e => e.complianceResourceId = i) = if i ∈ ids then [f i] else [] := by
  rw [List.filter_map, show (fun e : Evaluation => decide (e.complianceResourceId = i)) ∘ f =
    fun r => decide (r = i) from funext fun r => by simp [hf], List.filter_eq, h.count]
  split <;> simp

/-- Whether a previous evaluation is of a resource that is gone. -/
def isObsolete (resourceId : ρ → Text) (matched population : List ρ) (old : OldEvaluation) : Bool :=
  old.resourceId ∉ matched.map resourceId && old.resourceId ∉ population.map resourceId

/-- The ids of the resources that are gone, one for each previous evaluation. -/
def obsoleteIds (resourceId : ρ → Text) (matched population : List ρ)
    (oldEvals : List OldEvaluation) : List Text :=
  (oldEvals.filter (isObsolete resourceId matched population)).map OldEvaluation.resourceId

/-- What should be reported for an id. -/
def verdict (resourceId : ρ → Text) (matched population : List ρ) (oldEvals : List OldEvaluation)
    (i : Text) : List ComplianceType :=
  if i ∈ matched.map resourceId then [.nonCompliant]
  else if i ∈ population.map resourceId then [.compliant]
  else if i ∈ oldEvals.map OldEvaluation.resourceId then [.notApplicable]
  else []

/-- The types of the evaluations of an id. -/
def typesOf (evals : List Evaluation) (i : Text) : List ComplianceType :=
  (evals.filter fun e => e.complianceResourceId = i).map Evaluation.complianceType

theorem typesOf_append (evals evals' : List Evaluation) (i : Text) :
    typesOf (evals ++ evals') i = typesOf evals i ++ typesOf evals' i := by
  rw [typesOf, List.filter_append, List.map_append]
  rfl

theorem typesOf_latest (i : Text) :
    typesOf (latestEvaluations resourceId order poll matched population) i =
      if i ∈ matched.map resourceId then [.nonCompliant]
      else if i ∈ population.map resourceId then [.compliant] else [] := by
  rw [latestEvaluations, typesOf_append, typesOf, typesOf,
    filter_map_of_nodup (f := poll.nonCompliant) (fun _ => rfl) matchedResources_nodup,
    filter_map_of_nodup (f := poll.compliant) (fun _ => rfl) unmatchedResources_nodup]
  simp only [mem_matchedResources, mem_unmatchedResources]
  by_cases hm : i ∈ matched.map resourceId
  · simp [hm, Poll.nonCompliant]
  · by_cases hp : i ∈ population.map resourceId <;> simp [hm, hp, Poll.compliant]

theorem mem_latest_ids {i : Text} :
    i ∈ (latestEvaluations resourceId order poll matched population).map
        Evaluation.complianceResourceId ↔
      i ∈ matched.map resourceId ∨ i ∈ population.map resourceId := by
  rw [latestEvaluations, List.map_append, List.mem_append, List.map_map, List.map_map]
  have hnon : Evaluation.complianceResourceId ∘ poll.nonCompliant = id := rfl
  have hcom : Evaluation.complianceResourceId ∘ poll.compliant = id := rfl
  rw [hnon, hcom, List.map_id, List.map_id, mem_matchedResources, mem_unmatchedResources]
  tauto

theorem typesOf_obsolete (ts i : Text) :
    typesOf (getObsoleteEvaluations ts oldEvals
        (latestEvaluations resourceId order poll matched population)) i =
      List.replicate ((obsoleteIds resourceId matched population oldEvals).count i)
        .notApplicable := by
  have hfilter : oldEvals.filter (fun old => decide (old.resourceId ∉
      (latestEvaluations resourceId order poll matched population).map
        Evaluation.complianceResourceId)) =
      oldEvals.filter (isObsolete resourceId matched population) := by
    refine List.filter_congr fun old _ => ?_
    rw [isObsolete, ← Bool.decide_and, decide_eq_decide, mem_latest_ids, not_or]
  simp only [getObsoleteEvaluations, hfilter]
  rw [typesOf, List.filter_map, List.map_map, obsoleteIds, List.count_eq_length_filter,
    List.filter_map, List.length_map]
  rw [List.eq_replicate_iff]
  refine ⟨?_, fun t ht => ?_⟩
  · rw [List.length_map]
    exact congrArg List.length (List.filter_congr fun old _ => (beq_eq_decide ..).symm)
  · obtain ⟨old, -, rfl⟩ := List.mem_map.mp ht
    rfl

/-- **The evaluations of an id**: one, and besides one for each previous evaluation
if the resource is gone. -/
theorem evaluations_of_id (i : Text) :
    typesOf (evaluations resourceId order poll matched population oldEvals) i =
        verdict resourceId matched population oldEvals i ↔
      (obsoleteIds resourceId matched population oldEvals).count i ≤ 1 := by
  rw [evaluations, typesOf_append, typesOf_latest, typesOf_obsolete]
  have hpos : 0 < (obsoleteIds resourceId matched population oldEvals).count i ↔
      i ∈ oldEvals.map OldEvaluation.resourceId ∧ i ∉ matched.map resourceId ∧
        i ∉ population.map resourceId := by
    rw [List.count_pos_iff, obsoleteIds, List.mem_map, List.mem_map]
    simp only [List.mem_filter, isObsolete, Bool.and_eq_true, decide_eq_true_eq]
    constructor
    · rintro ⟨old, ⟨hold, hgone⟩, rfl⟩
      exact ⟨⟨old, hold, rfl⟩, hgone⟩
    · rintro ⟨⟨old, hold, rfl⟩, hgone⟩
      exact ⟨old, ⟨hold, hgone⟩, rfl⟩
  unfold verdict
  by_cases hm : i ∈ matched.map resourceId
  · have hzero : (obsoleteIds resourceId matched population oldEvals).count i = 0 := by
      by_contra hne
      exact (hpos.mp (Nat.pos_of_ne_zero hne)).2.1 hm
    simp [hm, hzero]
  · by_cases hp : i ∈ population.map resourceId
    · have hzero : (obsoleteIds resourceId matched population oldEvals).count i = 0 := by
        by_contra hne
        exact (hpos.mp (Nat.pos_of_ne_zero hne)).2.2 hp
      simp [hm, hp, hzero]
    · rw [if_neg hm, if_neg hp, if_neg hm, if_neg hp, List.nil_append]
      by_cases ho : i ∈ oldEvals.map OldEvaluation.resourceId
      · have hone := hpos.mpr ⟨ho, hm, hp⟩
        rw [if_pos ho, show [ComplianceType.notApplicable] = List.replicate 1 .notApplicable from rfl,
          List.replicate_left_inj]
        omega
      · have hzero : (obsoleteIds resourceId matched population oldEvals).count i = 0 := by
          by_contra hne
          exact ho (hpos.mp (Nat.pos_of_ne_zero hne)).1
        simp [ho, hzero]

/-! ## Runs -/

/-- The evaluations that a run submits. -/
def submitted (calls : List PutCall) : List Evaluation := calls.flatMap PutCall.evaluations

/-- Each id is reported exactly once, in batches of at most a hundred. -/
def ReportedOnce (resourceId : ρ → Text) (matched population : List ρ)
    (oldEvals : List OldEvaluation) (calls : List PutCall) : Prop :=
  (∀ call ∈ calls, call.evaluations.length ≤ 100) ∧
    ∀ i, typesOf (submitted calls) i = verdict resourceId matched population oldEvals i

/-- The event has a token that is not empty. -/
def Poll.hasToken (poll : Poll) : Bool := poll.resultToken.any (· ≠ [])

theorem submitted_putEvaluations (token : Text) (evals : List Evaluation) :
    submitted (putEvaluations token evals) = evals := by
  rw [submitted, putEvaluations, List.flatMap_map]
  exact List.flatMap_id.trans (flatten_chunks 100 evals)

theorem submitted_run :
    submitted (run resourceId order poll matched population oldEvals).1 =
      if poll.hasToken then evaluations resourceId order poll matched population oldEvals else [] := by
  unfold run Poll.hasToken
  cases poll.resultToken with
  | none => rfl
  | some token =>
    by_cases htoken : token = []
    · simp [htoken, submitted]
    · by_cases hevals : evaluations resourceId order poll matched population oldEvals = []
      · simp [hevals, submitted]
      · simp [htoken, hevals, submitted_putEvaluations]

theorem length_of_run : ∀ call ∈ (run resourceId order poll matched population oldEvals).1,
    call.evaluations.length ≤ 100 := by
  intro call hcall
  rw [run] at hcall
  cases htoken : poll.resultToken with
  | none =>
    rw [htoken] at hcall
    cases hcall
  | some token =>
    simp only [htoken] at hcall
    split at hcall
    · obtain ⟨evalSet, hset, rfl⟩ := List.mem_map.mp hcall
      exact length_chunks_le (by decide) _ evalSet hset
    · cases hcall

/-- **Each id is reported exactly once** exactly if there is a token, or nothing to
report, and no two previous evaluations are of one resource that is gone. -/
theorem reported_once_iff (resourceId : ρ → Text) (order : SetOrder Text) (poll : Poll)
    (matched population : List ρ) (oldEvals : List OldEvaluation) :
    ReportedOnce resourceId matched population oldEvals
        (run resourceId order poll matched population oldEvals).1 ↔
      (poll.hasToken = true ∨ (matched = [] ∧ population = [] ∧ oldEvals = [])) ∧
        (obsoleteIds resourceId matched population oldEvals).Nodup := by
  rw [ReportedOnce, and_iff_right length_of_run, submitted_run]
  cases htoken : poll.hasToken with
  | true =>
    rw [if_pos rfl, and_iff_right (Or.inl rfl), List.nodup_iff_count_le_one]
    exact forall_congr' fun i => evaluations_of_id i
  | false =>
    rw [if_neg Bool.false_ne_true]
    constructor
    · intro hnone
      have hempty : ∀ i, i ∉ matched.map resourceId ∧ i ∉ population.map resourceId ∧
          i ∉ oldEvals.map OldEvaluation.resourceId := by
        intro i
        have hi := hnone i
        unfold verdict at hi
        split_ifs at hi with hm hp ho
        · cases hi
        · cases hi
        · cases hi
        · exact ⟨hm, hp, ho⟩
      have hmatched : matched = [] := List.eq_nil_iff_forall_not_mem.mpr fun r hr =>
        (hempty (resourceId r)).1 (List.mem_map_of_mem hr)
      have hpopulation : population = [] := List.eq_nil_iff_forall_not_mem.mpr fun r hr =>
        (hempty (resourceId r)).2.1 (List.mem_map_of_mem hr)
      have hold : oldEvals = [] := List.eq_nil_iff_forall_not_mem.mpr fun old ho =>
        (hempty old.resourceId).2.2 (List.mem_map_of_mem ho)
      exact ⟨Or.inr ⟨hmatched, hpopulation, hold⟩, by rw [hold]; exact List.nodup_nil⟩
    · rintro ⟨hfalse | ⟨rfl, rfl, rfl⟩, -⟩
      · cases hfalse
      · exact fun i => rfl

/-- The rule has two previous evaluations of a stream that is gone, and no resources. -/
theorem repeated_obsolete_reported_twice :
    ¬ ReportedOnce (fun r : Text => r) [] [] [⟨"AWS::Kinesis::Stream".toList, "dev".toList⟩,
        ⟨"AWS::Kinesis::Stream".toList, "dev".toList⟩]
      (run (fun r : Text => r) SetOrder.ofInsertion
        ⟨"AWS::Kinesis::Stream".toList, "p".toList, some "t".toList, "0".toList⟩ [] []
        [⟨"AWS::Kinesis::Stream".toList, "dev".toList⟩,
          ⟨"AWS::Kinesis::Stream".toList, "dev".toList⟩]).1 := by
  intro h
  exact absurd (h.2 "dev".toList) (by decide +kernel)

end Custodian.ConfigPoll

import Custodian.Filters.ValueMatch
import Custodian.Lib.Items

/-!
# Users by the services they used

`MultiAttrFilter` of `c7n/filters/multiattr.py` and the filter `usage` of `c7n/resources/iam.py`.
The filter starts a job for every resource and asks for the jobs, in rounds, until each one is
complete.
-/

namespace Custodian.ServiceUsage

open Py
open ValueOps

/-! ## Attributes of a record -/

/-- `SERVICE_ATTR` -/
def serviceAttr : List Text :=
  ["ServiceName", "ServiceNamespace", "TotalAuthenticatedEntities", "LastAuthenticated",
   "LastAuthenticatedEntity"].map String.toList

/-- What an attribute is to be: a value, or a value filter whose key is set to the attribute. -/
inductive Setting where
  | literal (v : Value)
  | filter (d : ValueMatch.Data)

/-- `vf(target)`, for a filter on the number of resources on the number of the record's members. -/
def attrFilter (env : ValueTypes.Env) (f : Text) (s : Setting) (target : ValueTypes.Resource) :
    Except Exn Bool :=
  match s with
  | .literal v => (ValueMatch.Data.mk (some f) v none none none []).matches env (some target)
  | .filter d =>
    if d.valueType = some .resourceCount then
      match d.op.bind fun op => operators.lookup op with
      | none => .error .keyError
      | some op =>
        (op.apply env.toLanguage (.value (.int target.length)) (.value d.value)).map fun b =>
          b && !target.isEmpty
    else { d with key := some f }.matches env (some target)

section Filter

variable {ν ρ : Type} (test : Text → ν → ρ → Except Exn Bool)

/-- `get_attr_filters` -/
def getAttrFilters (multiAttrs : List Text) (data : List (Text × ν)) : List (Text × ν) :=
  data.filter fun e => e.1 ∈ multiAttrs

/-- `MultiAttrFilter.process`; `matchOperator` is `data.get('match-operator')`. -/
def multiAttrProcess (multiAttrs : List Text) (matchOperator : Option Text) (data : List (Text × ν))
    (resources : List ρ) : Except Exn (List ρ) :=
  let attrFilters := getAttrFilters multiAttrs data
  let matchOp : List Bool → Bool :=
    if matchOperator.getD "and".toList = "and".toList then fun bs => bs.all id
    else fun bs => bs.any id
  filterE (fun r => do return matchOp (← attrFilters.mapM fun af => test af.1 af.2 r)) resources

/-- A record satisfies every attribute. -/
def satisfies (attrs : List (Text × ν)) (record : ρ) : Bool :=
  attrs.all fun af => holds (test af.1 af.2 record)

/-- Every attribute can be tested on the record. -/
def Testable (attrs : List (Text × ν)) (record : ρ) : Prop :=
  ∀ af ∈ attrs, ∃ b, test af.1 af.2 record = .ok b

variable {test}

theorem multiAttrProcess_eq_ok_iff {multiAttrs : List Text} {data : List (Text × ν)}
    {resources matched : List ρ} :
    multiAttrProcess test multiAttrs none data resources = .ok matched ↔
      (∀ r ∈ resources, Testable test (getAttrFilters multiAttrs data) r) ∧
        matched = resources.filter (satisfies test (getAttrFilters multiAttrs data)) := by
  have hbool : ∀ r (af : Text × ν) b, test af.1 af.2 r = .ok b ↔
      (∃ b, test af.1 af.2 r = .ok b) ∧ b = holds (test af.1 af.2 r) := by
    intro r af b
    cases test af.1 af.2 r with
    | ok c => exact ⟨fun h => ⟨⟨b, h⟩, (Except.ok.inj h).symm⟩, fun h => congrArg _ h.2.symm⟩
    | error e => exact iff_of_false (fun h => by cases h) fun h => by obtain ⟨⟨b, h⟩, -⟩ := h; cases h
  have hall : ∀ r b, (do return (← (getAttrFilters multiAttrs data).mapM fun af =>
      test af.1 af.2 r).all id : Except Exn Bool) = .ok b ↔
        Testable test (getAttrFilters multiAttrs data) r ∧
          b = satisfies test (getAttrFilters multiAttrs data) r := by
    intro r b
    simp only [bind_eq_ok, pure_eq_ok, mapM_eq_ok_iff (hbool r)]
    constructor
    · rintro ⟨bs, ⟨hbs, rfl⟩, rfl⟩
      exact ⟨hbs, by rw [satisfies, List.all_map]; rfl⟩
    · rintro ⟨hbs, rfl⟩
      exact ⟨_, ⟨hbs, rfl⟩, by rw [satisfies, List.all_map]; rfl⟩
  rw [multiAttrProcess, Option.getD_none, if_pos rfl, filterE_eq_ok_iff]
  simp only [hall]
  constructor
  · rintro ⟨hr, rfl⟩
    refine ⟨fun r h => ?_, List.filter_congr fun r h => ?_⟩
    · obtain ⟨b, hb⟩ := hr r h
      exact hb.1
    · obtain ⟨b, hb⟩ := hr r h
      rw [(hall r b).mpr hb, hb.2]
      rfl
  · rintro ⟨hr, rfl⟩
    refine ⟨fun r h => ⟨_, hr r h, rfl⟩, List.filter_congr fun r h => ?_⟩
    rw [(hall r _).mpr ⟨hr r h, rfl⟩]
    rfl

end Filter

/-! ## Jobs -/

inductive JobStatus where
  | inProgress
  | completed
  | failed
  deriving DecidableEq

structure Response (ρ : Type) where
  jobStatus : JobStatus
  servicesLastAccessed : List ρ

/-- What a job ends with. -/
inductive Outcome (ρ : Type) where
  | completed (services : List ρ)
  | failed

def Outcome.response {ρ : Type} : Outcome ρ → Response ρ
  | .completed services => ⟨.completed, services⟩
  | .failed => ⟨.failed, []⟩

/-- A job is in progress for some polls and then ends. -/
structure JobRun (ρ : Type) where
  delay : Nat
  outcome : Outcome ρ

/-- The response to a poll, given the number of polls before it. -/
def JobRun.response {ρ : Type} (run : JobRun ρ) (n : Nat) : Response ρ :=
  if n < run.delay then ⟨.inProgress, []⟩ else run.outcome.response

/-- `job_resource_map`, the jobs that were asked for so far, and `results`. -/
structure Polling (J R : Type) where
  jobResourceMap : List (J × R)
  asked : List J
  results : List R

section Rounds

variable {J R ρ : Type} [DecidableEq J] (run : J → JobRun ρ) (keeps : List ρ → Except Exn Bool)

/-- One round of polls: `job_results_map`, and the jobs asked for. -/
def poll : List J → List (J × R) → List (J × List ρ) × List J
  | asked, [] => ([], asked)
  | asked, (jid, _) :: jobs =>
    let result := (run jid).response (asked.count jid)
    let rest := poll (asked ++ [jid]) jobs
    if result.jobStatus ≠ .completed then rest
    else ((jid, result.servicesLastAccessed) :: rest.1, rest.2)

/-- A complete job is taken from the map. -/
def settle (s : Polling J R) (c : J × List ρ) : Except Exn (Polling J R) := do
  let r := s.jobResourceMap.lookup c.1
  let kept ← keeps c.2
  return { s with
    jobResourceMap := s.jobResourceMap.filter fun e => e.1 ≠ c.1
    results := s.results ++ if kept then r.toList else [] }

/-- The rounds, at most as many as the fuel says. -/
def loop : Nat → Polling J R → Option (Except Exn (List R × List J))
  | 0, _ => none
  | n + 1, s =>
    if s.jobResourceMap.isEmpty then some (.ok (s.results, s.asked))
    else
      let p := poll run s.asked s.jobResourceMap
      match p.1.foldlM (settle keeps) { s with asked := p.2 } with
      | .error e => some (.error e)
      | .ok s => loop n s

/-- The jobs that are started for the resources, in the order of the calls; nothing for
`NoSuchEntityException`. -/
def startJobs (generate : Nat → Text → Option J) :
    Nat → List (Text × R) → List (J × R) → List (J × R)
  | _, [], jobs => jobs
  | n, (arn, r) :: es, jobs =>
    startJobs generate (n + 1) es (match generate n arn with
      | some jid => Items.set jid r jobs
      | none => jobs)

end Rounds

/-- `data`, with the members other than `match-operator`. -/
structure Data (ν : Type) where
  matchOperator : Option Text
  members : List (Text × ν)

section Usage

variable {J R ρ ν : Type} [DecidableEq J] (test : Text → ν → ρ → Except Exn Bool)

/-- Whether a resource with these service records is kept. -/
def keepsRecords (d : Data ν) (matchOperator : Text) (services : List ρ) : Except Exn Bool := do
  let matched ← multiAttrProcess test serviceAttr none d.members services
  return if matchOperator = "all".toList ∧ matched.length = services.length then true
    else matchOperator ≠ "all".toList && !matched.isEmpty

/-- `ServiceUsage.process`, with the fuel of its loop: the results and the jobs asked for. -/
def process (getArns : List R → List Text) (generate : Nat → Text → Option J)
    (run : J → JobRun ρ) (d : Data ν) (fuel : Nat) (resources : List R) :
    Option (Except Exn (List R × List J)) :=
  let jobResourceMap := startJobs generate 0 ((getArns resources).zip resources) []
  match d.matchOperator with
  | none => some (.error .keyError)
  | some matchOperator => loop run (keepsRecords test d matchOperator) fuel ⟨jobResourceMap, [], []⟩

end Usage

/-! ## One round -/

/-- The records of a job that is complete at a poll. -/
def JobRun.completedAt {ρ : Type} (run : JobRun ρ) (n : Nat) : Option (List ρ) :=
  match run.outcome with
  | .completed services => if run.delay ≤ n then some services else none
  | .failed => none

theorem response_completed {ρ : Type} (run : JobRun ρ) (n : Nat) :
    (if (run.response n).jobStatus ≠ .completed then none
      else some (run.response n).servicesLastAccessed) = run.completedAt n := by
  obtain ⟨delay, outcome⟩ := run
  by_cases hn : n < delay
  · cases outcome <;> simp [JobRun.response, JobRun.completedAt, hn]
  · cases outcome <;> simp [JobRun.response, JobRun.completedAt, hn, Outcome.response]

theorem completedAt_eq_some {ρ : Type} {run : JobRun ρ} {n : Nat} {services : List ρ} :
    run.completedAt n = some services ↔ run.outcome = .completed services ∧ run.delay ≤ n := by
  obtain ⟨delay, outcome⟩ := run
  cases outcome with
  | failed => simp [JobRun.completedAt]
  | completed l =>
    by_cases hd : delay ≤ n <;> simp [JobRun.completedAt, hd]

section Rounds

variable {J R ρ : Type} [DecidableEq J] {run : J → JobRun ρ} {keeps : List ρ → Except Exn Bool}

theorem poll_cons (asked : List J) (e : J × R) (jobs : List (J × R)) :
    poll run asked (e :: jobs) =
      ((((run e.1).completedAt (asked.count e.1)).map fun services => (e.1, services)).toList ++
        (poll run (asked ++ [e.1]) jobs).1, (poll run (asked ++ [e.1]) jobs).2) := by
  rw [← response_completed, poll]
  split <;> rfl

theorem asked_poll (asked : List J) (jobs : List (J × R)) :
    (poll run asked jobs).2 = asked ++ jobs.map Prod.fst := by
  induction jobs generalizing asked with
  | nil => simp [poll]
  | cons e jobs ih =>
    rw [poll_cons, List.map_cons]
    simp only [ih, List.append_assoc, List.singleton_append]

theorem found_poll {n : Nat} {asked : List J} {jobs : List (J × R)}
    (hnodup : (jobs.map Prod.fst).Nodup) (hn : ∀ e ∈ jobs, asked.count e.1 = n) :
    (poll run asked jobs).1 =
      jobs.filterMap fun e => ((run e.1).completedAt n).map fun services => (e.1, services) := by
  induction jobs generalizing asked with
  | nil => rfl
  | cons e jobs ih =>
    rw [List.map_cons, List.nodup_cons] at hnodup
    have hrest : ∀ f ∈ jobs, (asked ++ [e.1]).count f.1 = n := by
      intro f hf
      have hne : e.1 ≠ f.1 := fun h => hnodup.1 (h ▸ List.mem_map_of_mem hf)
      rw [List.count_append, hn f (List.mem_cons_of_mem e hf)]
      simp [hne]
    rw [poll_cons, ih hnodup.2 hrest, hn e List.mem_cons_self, List.filterMap_cons]
    cases (run e.1).completedAt n <;> rfl

theorem mem_poll {asked : List J} {jobs : List (J × R)} {c : J × List ρ}
    (h : c ∈ (poll run asked jobs).1) : (run c.1).outcome = .completed c.2 := by
  induction jobs generalizing asked with
  | nil => cases h
  | cons e jobs ih =>
    rw [poll_cons] at h
    rcases List.mem_append.mp h with h | h
    · rw [Option.mem_toList, Option.map_eq_some_iff] at h
      obtain ⟨services, hs, rfl⟩ := h
      exact (completedAt_eq_some.mp hs).1
    · exact ih h

/-- What a complete job leaves. -/
def settled (keeps : List ρ → Except Exn Bool) (s : Polling J R) (c : J × List ρ) : Polling J R :=
  { s with
    jobResourceMap := s.jobResourceMap.filter fun e => e.1 ≠ c.1
    results := s.results ++
      if holds (keeps c.2) then (s.jobResourceMap.lookup c.1).toList else [] }

theorem settle_eq_ok_iff {s s' : Polling J R} {c : J × List ρ} :
    settle keeps s c = .ok s' ↔ (∃ b, keeps c.2 = .ok b) ∧ s' = settled keeps s c := by
  rw [settle, settled]
  cases keeps c.2 with
  | error e => exact iff_of_false (fun h => by cases h) fun h => by obtain ⟨⟨b, h⟩, -⟩ := h; cases h
  | ok b =>
    rw [ok_bind, pure_eq_ok, and_iff_right ⟨b, rfl⟩, eq_comm]
    rfl

theorem foldl_settled_map (cs : List (J × List ρ)) (s : Polling J R) :
    (cs.foldl (settled keeps) s).jobResourceMap =
        s.jobResourceMap.filter (fun e => e.1 ∉ cs.map Prod.fst) ∧
      (cs.foldl (settled keeps) s).asked = s.asked := by
  induction cs generalizing s with
  | nil => simp
  | cons c cs ih =>
    obtain ⟨hmap, hasked⟩ := ih (settled keeps s c)
    refine ⟨?_, hasked⟩
    rw [List.foldl_cons, hmap, settled, List.filter_filter]
    refine List.filter_congr fun e _ => ?_
    by_cases h : e.1 = c.1 <;> simp [h]

/-- Whether the resource of a job is kept in the end. -/
def keptIn (run : J → JobRun ρ) (keeps : List ρ → Except Exn Bool) (jid : J) : Bool :=
  match (run jid).outcome with
  | .completed services => holds (keeps services)
  | .failed => false

/-- The resources that are kept of some jobs. -/
def keptOf (run : J → JobRun ρ) (keeps : List ρ → Except Exn Bool) (jobs : List (J × R)) : List R :=
  (jobs.filter fun e => keptIn run keeps e.1).map Prod.snd

theorem settled_perm {s : Polling J R} (hnodup : (s.jobResourceMap.map Prod.fst).Nodup)
    {c : J × List ρ} (hc : c.1 ∈ s.jobResourceMap.map Prod.fst)
    (hout : (run c.1).outcome = .completed c.2) :
    ((settled keeps s c).results ++ keptOf run keeps (settled keeps s c).jobResourceMap).Perm
      (s.results ++ keptOf run keeps s.jobResourceMap) := by
  obtain ⟨r, hr⟩ := Items.exists_lookup hc
  have hkept : keptIn run keeps c.1 = holds (keeps c.2) := by rw [keptIn, hout]
  have hpop := ((Items.perm_pop hnodup hr).filter fun e => keptIn run keeps e.1).map Prod.snd
  rw [settled, hr, List.append_assoc]
  refine List.Perm.append_left s.results (List.Perm.trans ?_ hpop.symm)
  rw [Option.toList_some, ← hkept, List.filter_cons]
  split
  · exact List.Perm.refl _
  · exact List.Perm.refl _

theorem foldl_settled_perm {cs : List (J × List ρ)} {s : Polling J R}
    (hnodup : (s.jobResourceMap.map Prod.fst).Nodup) (hcs : (cs.map Prod.fst).Nodup)
    (hc : ∀ c ∈ cs, c.1 ∈ s.jobResourceMap.map Prod.fst ∧ (run c.1).outcome = .completed c.2) :
    ((cs.foldl (settled keeps) s).results ++
        keptOf run keeps (cs.foldl (settled keeps) s).jobResourceMap).Perm
      (s.results ++ keptOf run keeps s.jobResourceMap) := by
  induction cs generalizing s with
  | nil => exact List.Perm.refl _
  | cons c cs ih =>
    rw [List.map_cons, List.nodup_cons] at hcs
    obtain ⟨hmem, hout⟩ := hc c List.mem_cons_self
    have hsub : ((settled keeps s c).jobResourceMap.map Prod.fst).Nodup :=
      hnodup.sublist (List.Sublist.map Prod.fst List.filter_sublist)
    refine (ih hsub hcs.2 fun d hd => ?_).trans (settled_perm hnodup hmem hout)
    obtain ⟨hd', hout'⟩ := hc d (List.mem_cons_of_mem c hd)
    refine ⟨?_, hout'⟩
    obtain ⟨e, he, heq⟩ := List.mem_map.mp hd'
    have hne : e.1 ≠ c.1 := fun h => hcs.1 (h ▸ heq ▸ List.mem_map_of_mem hd)
    exact List.mem_map.mpr ⟨e, List.mem_filter.mpr ⟨he, by simpa using hne⟩, heq⟩

/-! ## All rounds -/

/-- The job completes, and what it reports is decided on. -/
def Settles (run : J → JobRun ρ) (keeps : List ρ → Except Exn Bool) (jid : J) : Prop :=
  ∃ services, (run jid).outcome = .completed services ∧ ∃ b, keeps services = .ok b

omit [DecidableEq J] in
theorem mem_keys_found {n : Nat} {jobs : List (J × R)} {e : J × R} (he : e ∈ jobs)
    (hs : Settles run keeps e.1) :
    e.1 ∈ (jobs.filterMap fun e => ((run e.1).completedAt n).map fun services =>
      (e.1, services)).map Prod.fst ↔ (run e.1).delay ≤ n := by
  obtain ⟨services, hout, -⟩ := hs
  simp only [List.mem_map, List.mem_filterMap, Option.map_eq_some_iff]
  constructor
  · rintro ⟨c, ⟨f, -, l, hl, rfl⟩, hc⟩
    rw [← show f.1 = e.1 from hc]
    exact (completedAt_eq_some.mp hl).2
  · intro hd
    exact ⟨_, ⟨e, he, services, completedAt_eq_some.mpr ⟨hout, hd⟩, rfl⟩, rfl⟩

omit [DecidableEq J] in
theorem keys_found_sublist (n : Nat) (jobs : List (J × R)) :
    ((jobs.filterMap fun e => ((run e.1).completedAt n).map fun services =>
      (e.1, services)).map Prod.fst).Sublist (jobs.map Prod.fst) := by
  induction jobs with
  | nil => exact List.Sublist.refl _
  | cons e jobs ih =>
    rw [List.filterMap_cons]
    cases (run e.1).completedAt n with
    | none => exact ih.cons e.1
    | some services => exact ih.cons_cons e.1

theorem exists_round (fuel : Nat) {n : Nat} {s : Polling J R} (hne : s.jobResourceMap ≠ [])
    (hnodup : (s.jobResourceMap.map Prod.fst).Nodup)
    (hn : ∀ e ∈ s.jobResourceMap, s.asked.count e.1 = n)
    (hall : ∀ e ∈ s.jobResourceMap, Settles run keeps e.1) :
    ∃ s', loop run keeps (fuel + 1) s = loop run keeps fuel s' ∧
      s'.jobResourceMap = s.jobResourceMap.filter (fun e => n < (run e.1).delay) ∧
      s'.asked = s.asked ++ s.jobResourceMap.map Prod.fst ∧
      (s'.results ++ keptOf run keeps s'.jobResourceMap).Perm
        (s.results ++ keptOf run keeps s.jobResourceMap) := by
  have hfound := @found_poll J R ρ _ run n _ _ hnodup hn
  have hsub := @keys_found_sublist J R ρ run n s.jobResourceMap
  have hkeys := fun e he => mem_keys_found (n := n) he (hall e he)
  generalize (s.jobResourceMap.filterMap fun e =>
    ((run e.1).completedAt n).map fun services => (e.1, services)) = cs at hfound hsub hkeys
  have hout : ∀ c ∈ cs, (run c.1).outcome = .completed c.2 := by
    intro c hc
    rw [← hfound] at hc
    exact mem_poll hc
  have hkept : ∀ c ∈ cs, ∃ b, keeps c.2 = .ok b := by
    intro c hc
    obtain ⟨e, he, heq⟩ := List.mem_map.mp (hsub.subset (List.mem_map_of_mem hc))
    obtain ⟨services, hservices, hb⟩ := hall e he
    rw [heq, hout c hc, Outcome.completed.injEq] at hservices
    rwa [hservices]
  let s₀ : Polling J R := { s with asked := s.asked ++ s.jobResourceMap.map Prod.fst }
  obtain ⟨hmap, hasked⟩ := @foldl_settled_map J R ρ _ keeps cs s₀
  refine ⟨cs.foldl (settled keeps) s₀, ?_, ?_, hasked, ?_⟩
  · have hround : cs.foldlM (settle keeps) s₀ = .ok (cs.foldl (settled keeps) s₀) :=
      (foldlM_eq_ok_iff fun s c s' => settle_eq_ok_iff).mpr ⟨hkept, rfl⟩
    rw [loop, if_neg (by simpa using hne)]
    dsimp only
    rw [hfound, asked_poll, hround]
  · rw [hmap]
    refine List.filter_congr fun e he => ?_
    rw [decide_eq_decide, hkeys e he, Nat.not_le]
  · exact foldl_settled_perm (s := s₀) hnodup (hnodup.sublist hsub)
      fun c hc => ⟨hsub.subset (List.mem_map_of_mem hc), hout c hc⟩

theorem loop_idle (fuel n : Nat) {s : Polling J R} (h : s.jobResourceMap = []) :
    ∃ results more, loop run keeps (fuel + 1) s = some (.ok (results, s.asked ++ more)) ∧
      results.Perm (s.results ++ keptOf run keeps s.jobResourceMap) ∧
      ∀ jid, more.count jid =
        if jid ∈ s.jobResourceMap.map Prod.fst then (run jid).delay + 1 - n else 0 := by
  refine ⟨s.results, [], ?_, by simp [h, keptOf], by simp [h]⟩
  rw [loop, h, List.append_nil]
  rfl

/-- **Rounds.**  When every job settles, each one is asked for until it is complete, and the
resources that are kept do not depend on when the jobs are. -/
theorem loop_returns (rounds : Nat) {n : Nat} {s : Polling J R}
    (hnodup : (s.jobResourceMap.map Prod.fst).Nodup)
    (hn : ∀ e ∈ s.jobResourceMap, s.asked.count e.1 = n)
    (hle : ∀ e ∈ s.jobResourceMap, n ≤ (run e.1).delay)
    (hlt : ∀ e ∈ s.jobResourceMap, (run e.1).delay < n + rounds)
    (hall : ∀ e ∈ s.jobResourceMap, Settles run keeps e.1) :
    ∃ results more, loop run keeps (rounds + 1) s = some (.ok (results, s.asked ++ more)) ∧
      results.Perm (s.results ++ keptOf run keeps s.jobResourceMap) ∧
      ∀ jid, more.count jid =
        if jid ∈ s.jobResourceMap.map Prod.fst then (run jid).delay + 1 - n else 0 := by
  induction rounds generalizing n s with
  | zero =>
    refine loop_idle 0 n (List.eq_nil_iff_forall_not_mem.mpr fun e he => ?_)
    have hlow := hle e he
    have hhigh := hlt e he
    omega
  | succ rounds ih =>
    by_cases hnil : s.jobResourceMap = []
    · exact loop_idle (rounds + 1) n hnil
    · obtain ⟨s', hloop, hmap, hasked, hperm⟩ := exists_round (rounds + 1) hnil hnodup hn hall
      have hleft : ∀ e, e ∈ s'.jobResourceMap ↔ e ∈ s.jobResourceMap ∧ n < (run e.1).delay := by
        intro e
        rw [hmap, List.mem_filter, decide_eq_true_eq]
      have hkeys : ∀ jid, jid ∈ s'.jobResourceMap.map Prod.fst ↔
          jid ∈ s.jobResourceMap.map Prod.fst ∧ n < (run jid).delay := by
        intro jid
        simp only [List.mem_map, hleft]
        constructor
        · rintro ⟨e, ⟨he, hd⟩, rfl⟩
          exact ⟨⟨e, he, rfl⟩, hd⟩
        · rintro ⟨⟨e, he, rfl⟩, hd⟩
          exact ⟨e, ⟨he, hd⟩, rfl⟩
      have hcount : ∀ e ∈ s'.jobResourceMap, s'.asked.count e.1 = n + 1 := by
        intro e he
        have hmem := ((hleft e).mp he).1
        rw [hasked, List.count_append, hn e hmem,
          List.count_eq_one_of_mem hnodup (List.mem_map_of_mem hmem)]
      have hfew : ∀ e ∈ s'.jobResourceMap, (run e.1).delay < n + 1 + rounds := by
        intro e he
        have hlt := hlt e ((hleft e).mp he).1
        omega
      obtain ⟨results, more, hrest, hresults, hmore⟩ := ih
        (hmap ▸ hnodup.sublist (List.filter_sublist.map Prod.fst)) hcount
        (fun e he => ((hleft e).mp he).2) hfew (fun e he => hall e ((hleft e).mp he).1)
      refine ⟨results, s.jobResourceMap.map Prod.fst ++ more, ?_, hresults.trans hperm, ?_⟩
      · rw [hloop, hrest, hasked, List.append_assoc]
      · intro jid
        rw [List.count_append, hmore]
        by_cases hj : jid ∈ s.jobResourceMap.map Prod.fst
        · obtain ⟨e, he, rfl⟩ := List.mem_map.mp hj
          have hlow := hle e he
          simp only [hkeys, hj, true_and, if_true, List.count_eq_one_of_mem hnodup hj]
          split <;> omega
        · simp [hkeys, hj, List.count_eq_zero_of_not_mem hj]

theorem loop_ne_ok {jid : J} (hjid : ¬ Settles run keeps jid) (fuel : Nat) {s : Polling J R}
    (hmem : jid ∈ s.jobResourceMap.map Prod.fst) (v : List R × List J) :
    loop run keeps fuel s ≠ some (.ok v) := by
  induction fuel generalizing s with
  | zero => simp [loop]
  | succ fuel ih =>
    have hne : s.jobResourceMap ≠ [] := by
      intro h
      rw [h] at hmem
      cases hmem
    rw [loop, if_neg (by simpa using hne)]
    dsimp only
    split
    · simp
    · rename_i s' hs
      obtain ⟨hok, rfl⟩ := (foldlM_eq_ok_iff fun s c s' => settle_eq_ok_iff).mp hs
      refine ih ?_
      obtain ⟨e, he, rfl⟩ := List.mem_map.mp hmem
      rw [(foldl_settled_map _ _).1]
      refine List.mem_map.mpr ⟨e, List.mem_filter.mpr ⟨he, ?_⟩, rfl⟩
      rw [decide_eq_true_eq]
      intro hin
      obtain ⟨c, hc, hce⟩ := List.mem_map.mp hin
      exact hjid (hce ▸ ⟨c.2, mem_poll hc, hok c hc⟩)

end Rounds

/-! ## The filter -/

section Usage

variable {J R ρ ν : Type} [DecidableEq J]

/-- The jobs that are started, with their resources. -/
def started (generate : Nat → Text → Option J) (n : Nat) (es : List (Text × R)) : List (J × R) :=
  (es.zipIdx n).filterMap fun e => (generate e.2 e.1.1).map fun jid => (jid, e.1.2)

theorem set_of_not_mem {jid : J} {r : R} {jobs : List (J × R)} (h : jid ∉ jobs.map Prod.fst) :
    Items.set jid r jobs = jobs ++ [(jid, r)] := by
  induction jobs with
  | nil => rfl
  | cons e jobs ih =>
    rw [List.map_cons, List.mem_cons, not_or] at h
    rw [Items.set, if_neg fun he => h.1 he.symm, ih h.2, List.cons_append]

theorem startJobs_eq {generate : Nat → Text → Option J} {n : Nat} {es : List (Text × R)}
    {jobs : List (J × R)} (h : ((jobs ++ started generate n es).map Prod.fst).Nodup) :
    startJobs generate n es jobs = jobs ++ started generate n es := by
  induction es generalizing n jobs with
  | nil => simp [startJobs, started]
  | cons e es ih =>
    obtain ⟨arn, r⟩ := e
    rw [startJobs]
    have hstarted : started generate n ((arn, r) :: es) =
        ((generate n arn).map fun jid => (jid, r)).toList ++ started generate (n + 1) es := by
      rw [started, List.zipIdx_cons, List.filterMap_cons, started]
      cases generate n arn <;> rfl
    rw [hstarted] at h ⊢
    cases hg : generate n arn with
    | none =>
      rw [hg] at h
      exact ih h
    | some jid =>
      rw [hg] at h
      simp only [Option.map_some, Option.toList_some, List.singleton_append] at h ⊢
      have hnew : jid ∉ jobs.map Prod.fst := by
        rw [List.map_append, List.map_cons, List.nodup_append] at h
        exact fun hj => h.2.2 jid hj jid List.mem_cons_self rfl
      rw [set_of_not_mem hnew, ih (by rw [List.append_assoc]; exact h), List.append_assoc]
      rfl

/-- The configured attributes of a record. -/
def Data.attributes (d : Data ν) : List (Text × ν) := getAttrFilters serviceAttr d.members

variable (test : Text → ν → ρ → Except Exn Bool)

/-- Whether the resource of a job is to be kept, by what the job ends with. -/
def Outcome.verdict (attrs : List (Text × ν)) (matchOperator : Text) : Outcome ρ → Bool
  | .completed services =>
    if matchOperator = "all".toList then services.all (satisfies test attrs)
    else services.any (satisfies test attrs)
  | .failed => false

/-- The job completes, and every attribute can be tested on its records. -/
def Completes (attrs : List (Text × ν)) (run : JobRun ρ) : Prop :=
  ∃ services, run.outcome = .completed services ∧ ∀ record ∈ services, Testable test attrs record

/-- The resources that the filter returns are the right ones, and each job is asked for until it
ends. -/
structure Right (attrs : List (Text × ν)) (matchOperator : Text) (run : J → JobRun ρ)
    (jobs : List (J × R)) (results : List R) (asked : List J) : Prop where
  kept : results.Perm ((jobs.filter fun e =>
    (run e.1).outcome.verdict test attrs matchOperator).map Prod.snd)
  polls : ∀ jid, asked.count jid = if jid ∈ jobs.map Prod.fst then (run jid).delay + 1 else 0

variable {test}

theorem keepsRecords_eq_ok_iff {d : Data ν} {matchOperator : Text} {services : List ρ} {b : Bool} :
    keepsRecords test d matchOperator services = .ok b ↔
      (∀ record ∈ services, Testable test d.attributes record) ∧
        b = (Outcome.completed services).verdict test d.attributes matchOperator := by
  have hverdict : (if matchOperator = "all".toList ∧
      (services.filter (satisfies test d.attributes)).length = services.length then true
      else matchOperator ≠ "all".toList &&
        !(services.filter (satisfies test d.attributes)).isEmpty) =
      (Outcome.completed services).verdict test d.attributes matchOperator := by
    rw [Outcome.verdict]
    by_cases hop : matchOperator = "all".toList
    · rw [if_pos hop, Bool.eq_iff_iff]
      simp [hop, List.length_filter_eq_length_iff]
    · rw [if_neg hop, if_neg fun h => hop h.1, decide_eq_true hop, Bool.eq_iff_iff]
      simp
  simp only [keepsRecords, bind_eq_ok, multiAttrProcess_eq_ok_iff, pure_eq_ok]
  constructor
  · rintro ⟨matched, ⟨htest, rfl⟩, hb⟩
    exact ⟨htest, hb.symm.trans hverdict⟩
  · rintro ⟨htest, rfl⟩
    exact ⟨_, ⟨htest, rfl⟩, hverdict⟩

omit [DecidableEq J] in
theorem settles_iff {d : Data ν} {matchOperator : Text} {run : J → JobRun ρ} {jid : J} :
    Settles run (keepsRecords test d matchOperator) jid ↔ Completes test d.attributes (run jid) := by
  refine exists_congr fun services => and_congr_right fun _ => ?_
  simp only [keepsRecords_eq_ok_iff]
  exact ⟨fun ⟨_, h⟩ => h.1, fun h => ⟨_, h, rfl⟩⟩

omit [DecidableEq J] in
theorem keptIn_eq {d : Data ν} {matchOperator : Text} {run : J → JobRun ρ} {jid : J}
    (h : Completes test d.attributes (run jid)) :
    keptIn run (keepsRecords test d matchOperator) jid =
      (run jid).outcome.verdict test d.attributes matchOperator := by
  obtain ⟨services, hout, htest⟩ := h
  rw [keptIn, hout]
  dsimp only
  rw [keepsRecords_eq_ok_iff.mpr ⟨htest, rfl⟩]
  rfl

/-- **Usage.**  For jobs with distinct ids the filter ends with the right resources when no job
fails and the attributes can be tested, and only then. -/
theorem process_right_iff (getArns : List R → List Text) (generate : Nat → Text → Option J)
    (run : J → JobRun ρ) (d : Data ν) {matchOperator : Text} (resources : List R)
    (hop : d.matchOperator = some matchOperator)
    (hdistinct : ((started generate 0 ((getArns resources).zip resources)).map Prod.fst).Nodup) :
    (∃ fuel results asked,
      process test getArns generate run d fuel resources = some (.ok (results, asked)) ∧
        Right test d.attributes matchOperator run
          (started generate 0 ((getArns resources).zip resources)) results asked) ↔
      ∀ e ∈ started generate 0 ((getArns resources).zip resources),
        Completes test d.attributes (run e.1) := by
  have hjobs : startJobs generate 0 ((getArns resources).zip resources) [] =
      started generate 0 ((getArns resources).zip resources) :=
    @startJobs_eq J R _ _ _ _ [] hdistinct
  simp only [process, hop, hjobs]
  generalize started generate 0 ((getArns resources).zip resources) = jobs at hdistinct
  constructor
  · rintro ⟨fuel, results, asked, hloop, -⟩ e he
    by_contra hfail
    exact loop_ne_ok (fun h => hfail (settles_iff.mp h)) fuel (List.mem_map_of_mem he) _ hloop
  · intro hall
    obtain ⟨bound, hbound⟩ : ∃ bound, ∀ e ∈ jobs, (run e.1).delay < bound := by
      refine ⟨(jobs.map fun e => (run e.1).delay).max?.getD 0 + 1, fun e he => ?_⟩
      exact Nat.lt_succ_of_le (List.le_max?_getD_of_mem (List.mem_map_of_mem he))
    obtain ⟨results, more, hloop, hperm, hmore⟩ :=
      @loop_returns J R ρ _ run (keepsRecords test d matchOperator) bound 0 ⟨jobs, [], []⟩ hdistinct (fun e _ => rfl)
        (fun e _ => Nat.zero_le _) (fun e he => by rw [Nat.zero_add]; exact hbound e he)
        (fun e he => settles_iff.mpr (hall e he))
    refine ⟨bound + 1, results, more, hloop, ?_, hmore⟩
    have hkept : jobs.filter (fun e => keptIn run (keepsRecords test d matchOperator) e.1) =
        jobs.filter fun e => (run e.1).outcome.verdict test d.attributes matchOperator :=
      List.filter_congr fun e he => keptIn_eq (hall e he)
    rwa [List.nil_append, keptOf, hkept] at hperm

end Usage

/-! ## Two users -/

/-- Users that have used dynamodb. -/
def dynamodbUsers : Data Setting where
  matchOperator := some "any".toList
  members := [("type".toList, .literal (.str "usage".toList)),
    ("ServiceNamespace".toList, .literal (.str "dynamodb".toList))]

/-- The job of the first user takes two polls more than that of the second one. -/
def twoJobs (jid : Nat) : JobRun ValueTypes.Resource where
  delay := if jid = 0 then 2 else 0
  outcome := .completed [[("ServiceNamespace".toList, .str "dynamodb".toList)]]

/-- The ids of jobs are the numbers of the calls. -/
def byNumber (n : Nat) (_ : Text) : Option Nat := some n

theorem dynamodbUsers_right : dynamodbUsers.matchOperator = some "any".toList ∧
    ∃ fuel results asked, process (attrFilter ValueMatch.words) id byNumber twoJobs dynamodbUsers fuel
        ["ann".toList, "bob".toList] = some (.ok (results, asked)) ∧
      Right (attrFilter ValueMatch.words) dynamodbUsers.attributes "any".toList twoJobs
        [(0, "ann".toList), (1, "bob".toList)] results asked :=
  ⟨rfl, (process_right_iff id byNumber twoJobs dynamodbUsers ["ann".toList, "bob".toList] rfl
    (by decide)).mpr fun e _ => ⟨_, rfl, by
      intro record hrecord af haf
      obtain rfl := List.mem_singleton.mp hrecord
      obtain rfl : af = _ := List.mem_singleton.mp haf
      exact ⟨true, rfl⟩⟩⟩

/-- A job that fails is asked for in every round, and the filter never returns. -/
theorem failed_not_ends : ¬ ∃ fuel results asked,
    process (attrFilter ValueMatch.words) id byNumber (fun _ => ⟨0, .failed⟩) dynamodbUsers fuel
      ["ann".toList] = some (.ok (results, asked)) := by
  rintro ⟨fuel, results, asked, h⟩
  refine @loop_ne_ok _ _ _ _ _ _ 0 ?_ fuel _ (by decide) _ h
  rintro ⟨services, hout, -⟩
  cases hout

end Custodian.ServiceUsage

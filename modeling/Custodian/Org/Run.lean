import Custodian.Lib.Items
import Custodian.Lib.Text
import Mathlib.Algebra.BigOperators.Group.List.Basic
import Mathlib.Algebra.GroupWithZero.Nat
import Mathlib.Algebra.Order.BigOperators.Group.List
import Mathlib.Algebra.Order.Group.Nat

/-!
# Policies over a fleet of accounts

`run_account` and `run` of `c7n_org/cli.py`.  An account and region is a job of its own, whose
policies are expanded, validated and run one after the other; the results of the jobs are
collected in the order in which they complete.
-/

namespace Custodian.Org

open Py

/-! ## Jobs -/

/-- How a policy goes in an account and region. -/
inductive Outcome where
  | expansion
  | validation
  | resources (n : Nat)
  | clientError (code : Text)
  | exception
  deriving DecidableEq

def accessDenied : Text := "AccessDenied".toList

/-- A policy that raised or could not be expanded or validated. -/
def Outcome.failed : Outcome → Bool
  | .resources _ => false
  | _ => true

/-- An account and region: whether its session can be set up, and its policies by name. -/
structure Job where
  ready : Bool
  policies : List (Text × Outcome)

abbrev Counts := List (Text × Nat)

/-- The loop of `run_account` over policies; `none` where it raises. -/
def runPolicies (debug : Bool) (counts : Counts) (success : Bool) :
    List (Text × Outcome) → Option (Counts × Bool)
  | [] => some (counts, success)
  | (name, outcome) :: ps =>
    match outcome with
    | .expansion => none
    | .validation => none
    | .resources n => runPolicies debug (Items.set name n counts) success ps
    | .clientError code =>
      if code = accessDenied then some (counts, false) else runPolicies debug counts false ps
    | .exception => if debug then none else runPolicies debug counts false ps

def runAccount (debug : Bool) (job : Job) : Option (Counts × Bool) :=
  if job.ready then runPolicies debug [] true job.policies else none

/-! ## The fleet -/

/-- The accounts with their regions, and the policies with how they go there. -/
structure Fleet (A : Type) where
  accounts : List (A × List Text)
  policies : List Text
  ready : A → Text → Bool
  outcome : A → Text → Nat → Outcome

variable {A : Type}

/-- The jobs that are submitted, in order. -/
def Fleet.jobs (fleet : Fleet A) : List Job :=
  fleet.accounts.flatMap fun account => account.2.map fun region =>
    ⟨fleet.ready account.1 region,
      fleet.policies.zipIdx.map fun p => (p.1, fleet.outcome account.1 region p.2)⟩

/-- An order in which the jobs complete. -/
structure Completion (fleet : Fleet A) where
  order : List Job
  perm : order.Perm fleet.jobs

/-- The count of a name in a counter. -/
def count (counts : Counts) (name : Text) : Nat := (Items.get name counts).getD 0

/-- `policy_counts[p] += account_region_pcounts[p]` -/
def addCount (counts : Counts) (e : Text × Nat) : Counts :=
  Items.set e.1 (count counts e.1 + e.2) counts

/-- The loop over completed futures; `none` where it raises. -/
def collect (debug : Bool) (counts : Counts) (success : Bool) :
    List Job → Option (Counts × Bool)
  | [] => some (counts, success)
  | job :: jobs =>
    match runAccount debug job with
    | none => if debug then none else collect debug counts success jobs
    | some (pcounts, ok) => collect debug (pcounts.foldl addCount counts) (success && ok) jobs

/-- The end of a run: whether the exit status is not zero, and the counts it has logged. -/
structure Exit where
  failed : Bool
  counts : Option Counts

/-- `run`, where debug mode runs the jobs at once and lets their exceptions through. -/
def run (debug : Bool) (fleet : Fleet A) (completion : Completion fleet) : Exit :=
  if fleet.accounts.isEmpty || fleet.policies.isEmpty then ⟨false, none⟩
  else if debug && fleet.jobs.any fun job => (runAccount debug job).isNone then ⟨true, none⟩
  else match collect debug [] true completion.order with
    | none => ⟨true, none⟩
    | some (counts, success) => ⟨!success, some counts⟩

/-! ## What a run has to report -/

/-- The resources that the policies returned which came to run. -/
def returned (debug : Bool) : List (Text × Outcome) → List (Text × Nat)
  | [] => []
  | (name, outcome) :: ps =>
    match outcome with
    | .expansion => []
    | .validation => []
    | .resources n => (name, n) :: returned debug ps
    | .clientError code => if code = accessDenied then [] else returned debug ps
    | .exception => if debug then [] else returned debug ps

def Job.returned (debug : Bool) (job : Job) : List (Text × Nat) :=
  if job.ready then Org.returned debug job.policies else []

/-- The resources under a name. -/
def total (l : List (Text × Nat)) (name : Text) : Nat :=
  (l.map fun e => if e.1 = name then e.2 else 0).sum

/-- Some policy in some account and region could not be run or raised. -/
def Fleet.Failed (fleet : Fleet A) : Prop :=
  ∃ job ∈ fleet.jobs, ∃ p ∈ job.policies, job.ready = false ∨ p.2.failed = true

/-- The exit status tells of every failure, and each final count is the sum. -/
structure Reports (debug : Bool) (fleet : Fleet A) (completion : Completion fleet) : Prop where
  status : (run debug fleet completion).failed = true ↔ fleet.Failed
  counts : ∀ counts, (run debug fleet completion).counts = some counts → ∀ name,
    count counts name = (fleet.jobs.map fun job => total (job.returned debug) name).sum

/-! ## The condition -/

/-- The policies raise out of the job. -/
def raises (debug : Bool) : List (Text × Outcome) → Bool
  | [] => false
  | (_, outcome) :: ps =>
    match outcome with
    | .expansion => true
    | .validation => true
    | .resources _ => raises debug ps
    | .clientError code => code ≠ accessDenied && raises debug ps
    | .exception => debug || raises debug ps

def Job.raises (debug : Bool) (job : Job) : Bool := !job.ready || Org.raises debug job.policies

/-- A job whose counts are not lost: it raises after policies that found nothing, or no policy
that found something has the name of a later one. -/
def Job.Counted (debug : Bool) (job : Job) : Prop :=
  if job.raises debug then ∀ e ∈ job.returned debug, e.2 = 0
  else (job.returned debug).Pairwise fun e e' => e.1 = e'.1 → e.2 = 0

/-- A failure out of a job is let through, or a policy raises in a job that ends. -/
def Fleet.Noticed (debug : Bool) (fleet : Fleet A) : Prop :=
  debug = true ∨ (∀ job ∈ fleet.jobs, job.raises debug = false) ∨
    ∃ job ∈ fleet.jobs, job.raises debug = false ∧ ∃ p ∈ job.policies, p.2.failed = true

def Fleet.Counted (debug : Bool) (fleet : Fleet A) : Prop :=
  (debug = true ∧ ∃ job ∈ fleet.jobs, job.raises debug = true) ∨
    ∀ job ∈ fleet.jobs, job.Counted debug

/-! ## Jobs and their counts -/

theorem runPolicies_spec (debug : Bool) (counts : Counts) (success : Bool)
    (ps : List (Text × Outcome)) :
    runPolicies debug counts success ps =
      if raises debug ps then none
      else some ((returned debug ps).foldl (fun d e => Items.set e.1 e.2 d) counts,
        success && !ps.any fun p => p.2.failed) := by
  induction ps generalizing counts success with
  | nil => simp [runPolicies, raises, returned]
  | cons p ps ih =>
    obtain ⟨name, outcome⟩ := p
    cases outcome with
    | expansion => rfl
    | validation => rfl
    | resources n =>
      simp only [runPolicies, raises, returned, List.any_cons, Outcome.failed, Bool.false_or]
      exact ih _ _
    | clientError code =>
      by_cases hcode : code = accessDenied
      · simp [runPolicies, raises, returned, hcode, Outcome.failed]
      · simp [runPolicies, raises, returned, hcode, Outcome.failed, ih]
    | exception =>
      cases debug with
      | true => rfl
      | false => simp [runPolicies, raises, returned, Outcome.failed, ih]

theorem runAccount_spec (debug : Bool) (job : Job) :
    runAccount debug job =
      if job.raises debug then none
      else some (Items.ofList (job.returned debug), !job.policies.any fun p => p.2.failed) := by
  obtain ⟨ready, policies⟩ := job
  cases ready with
  | false => rfl
  | true =>
    simp only [runAccount, Job.raises, Job.returned, if_true, Bool.not_true, Bool.false_or,
      runPolicies_spec, Bool.true_and, Items.ofList]

/-! ## Counters -/

theorem count_set (k : Text) (n : Nat) (counts : Counts) (name : Text) :
    count (Items.set k n counts) name = if name = k then n else count counts name := by
  rw [count, Items.get, Items.lookup_set]
  split <;> rfl

theorem total_cons (e : Text × Nat) (l : List (Text × Nat)) (name : Text) :
    total (e :: l) name = (if e.1 = name then e.2 else 0) + total l name := by
  rw [total, List.map_cons, List.sum_cons]
  rfl

theorem total_concat (l : List (Text × Nat)) (e : Text × Nat) (name : Text) :
    total (l ++ [e]) name = total l name + if e.1 = name then e.2 else 0 := by
  rw [total, List.map_append, List.sum_append]
  simp [total]

theorem count_foldl_addCount (l : List (Text × Nat)) (counts : Counts) (name : Text) :
    count (l.foldl addCount counts) name = count counts name + total l name := by
  induction l generalizing counts with
  | nil => rfl
  | cons e l ih =>
    rw [List.foldl_cons, ih, addCount, count_set, total_cons]
    by_cases he : name = e.1
    · rw [if_pos he, if_pos he.symm, he]
      omega
    · rw [if_neg he, if_neg (Ne.symm he)]
      omega

theorem total_eq_zero {l : List (Text × Nat)} {name : Text} :
    total l name = 0 ↔ ∀ e ∈ l, e.1 = name → e.2 = 0 := by
  induction l with
  | nil => simp [total]
  | cons e l ih =>
    rw [total_cons, Nat.add_eq_zero_iff, ih, List.forall_mem_cons]
    by_cases he : e.1 = name <;> simp [he]

theorem total_of_nodup {counts : Counts} (h : (counts.map Prod.fst).Nodup) (name : Text) :
    total counts name = count counts name := by
  induction counts with
  | nil => rfl
  | cons e counts ih =>
    rw [List.map_cons, List.nodup_cons] at h
    rw [total_cons, ih h.2, count, count, Items.get, Items.get, Items.lookup_cons]
    by_cases he : name = e.1
    · subst he
      rw [if_pos rfl, if_pos rfl, Items.lookup_eq_none.mpr h.1]
      rfl
    · rw [if_neg he, if_neg (Ne.symm he), Nat.zero_add]

theorem count_ofList_concat (l : List (Text × Nat)) (e : Text × Nat) (name : Text) :
    count (Items.ofList (l ++ [e])) name =
      if name = e.1 then e.2 else count (Items.ofList l) name := by
  rw [Items.ofList_concat, count_set]

theorem last_le_total (l : List (Text × Nat)) (name : Text) :
    count (Items.ofList l) name ≤ total l name := by
  induction l using List.reverseRecOn with
  | nil => exact Nat.le_refl _
  | append_singleton l e ih =>
    rw [count_ofList_concat, total_concat]
    by_cases he : name = e.1
    · rw [if_pos he, if_pos he.symm]
      omega
    · rw [if_neg he, if_neg (Ne.symm he)]
      omega

theorem last_eq_total_iff (l : List (Text × Nat)) :
    (∀ name, count (Items.ofList l) name = total l name) ↔
      l.Pairwise fun e e' => e.1 = e'.1 → e.2 = 0 := by
  induction l using List.reverseRecOn with
  | nil => exact ⟨fun _ => List.Pairwise.nil, fun _ _ => rfl⟩
  | append_singleton l e ih =>
    simp only [count_ofList_concat, total_concat, List.pairwise_append, List.mem_singleton,
      List.pairwise_singleton, true_and, forall_eq, ← ih]
    constructor
    · intro h
      have hzero : total l e.1 = 0 := by
        have hname := h e.1
        rw [if_pos rfl, if_pos rfl] at hname
        omega
      refine ⟨fun name => ?_, fun a ha => total_eq_zero.mp hzero a ha⟩
      by_cases he : name = e.1
      · have hle := last_le_total l e.1
        rw [he]
        omega
      · have hname := h name
        rw [if_neg he, if_neg (Ne.symm he)] at hname
        exact hname
    · rintro ⟨h, hbefore⟩ name
      by_cases he : name = e.1
      · have hzero : total l e.1 = 0 := total_eq_zero.mpr hbefore
        rw [if_pos he, if_pos he.symm, he, hzero, Nat.zero_add]
      · rw [if_neg he, if_neg (Ne.symm he), h name, Nat.add_zero]

theorem sum_eq_sum_iff {α : Type} {f g : α → Nat} {xs : List α} (h : ∀ x ∈ xs, f x ≤ g x) :
    (xs.map f).sum = (xs.map g).sum ↔ ∀ x ∈ xs, f x = g x := by
  induction xs with
  | nil => simp
  | cons x xs ih =>
    rw [List.forall_mem_cons] at h
    have hle : (xs.map f).sum ≤ (xs.map g).sum := List.sum_le_sum h.2
    rw [List.map_cons, List.map_cons, List.sum_cons, List.sum_cons, List.forall_mem_cons,
      ← ih h.2]
    have hx := h.1
    omega

/-! ## Collecting -/

/-- What a job adds to the final count of a name. -/
def Job.added (debug : Bool) (job : Job) (name : Text) : Nat :=
  if job.raises debug then 0 else count (Items.ofList (job.returned debug)) name

theorem added_le_total (debug : Bool) (job : Job) (name : Text) :
    job.added debug name ≤ total (job.returned debug) name := by
  rw [Job.added]
  split
  · exact Nat.zero_le _
  · exact last_le_total _ name

theorem counted_iff (debug : Bool) (job : Job) :
    job.Counted debug ↔ ∀ name, job.added debug name = total (job.returned debug) name := by
  unfold Job.Counted Job.added
  cases job.raises debug with
  | true =>
    simp only [if_true]
    constructor
    · intro h name
      exact (total_eq_zero.mpr fun e he _ => h e he).symm
    · intro h e he
      exact total_eq_zero.mp (h e.1).symm e he rfl
  | false =>
    simp only [Bool.false_eq_true, if_false]
    exact (last_eq_total_iff _).symm

theorem collect_spec {debug : Bool} {jobs : List Job}
    (h : debug = true → ∀ job ∈ jobs, job.raises debug = false) (counts : Counts)
    (success : Bool) :
    ∃ counts', collect debug counts success jobs = some (counts', success &&
        !jobs.any fun job => !job.raises debug && job.policies.any fun p => p.2.failed) ∧
      ∀ name, count counts' name =
        count counts name + (jobs.map fun job => job.added debug name).sum := by
  induction jobs generalizing counts success with
  | nil => exact ⟨counts, by simp [collect], by simp⟩
  | cons job jobs ih =>
    have hrest : debug = true → ∀ job ∈ jobs, job.raises debug = false :=
      fun hdebug => (List.forall_mem_cons.mp (h hdebug)).2
    rw [collect, runAccount_spec]
    cases hraises : job.raises debug with
    | true =>
      have hdebug : debug = false := by
        by_contra hdebug
        have hjob := h (Bool.eq_true_of_not_eq_false hdebug) job (List.mem_cons_self ..)
        rw [hraises] at hjob
        cases hjob
      obtain ⟨counts', hcollect, hcount⟩ := ih hrest counts success
      refine ⟨counts', ?_, fun name => ?_⟩
      · simp [hdebug] at hcollect hraises ⊢
        simp [hcollect, hraises]
      · rw [hcount, List.map_cons, List.sum_cons, Job.added, if_pos hraises, Nat.zero_add]
    | false =>
      obtain ⟨counts', hcollect, hcount⟩ := ih hrest
        ((Items.ofList (job.returned debug)).foldl addCount counts)
        (success && !job.policies.any fun p => p.2.failed)
      refine ⟨counts', ?_, fun name => ?_⟩
      · simp [hraises, hcollect, Bool.and_assoc]
      · rw [hcount, count_foldl_addCount, total_of_nodup (Items.keys_nodup_ofList _),
          List.map_cons, List.sum_cons, Job.added, hraises]
        simp only [Bool.false_eq_true, if_false]
        omega

/-! ## Failures -/

theorem failed_of_raises {debug : Bool} {ps : List (Text × Outcome)}
    (h : raises debug ps = true) : ∃ p ∈ ps, p.2.failed = true := by
  induction ps with
  | nil => cases h
  | cons p ps ih =>
    obtain ⟨name, outcome⟩ := p
    cases outcome with
    | resources n =>
      obtain ⟨p, hp, hfailed⟩ := ih h
      exact ⟨p, List.mem_cons_of_mem _ hp, hfailed⟩
    | expansion => exact ⟨_, List.mem_cons_self .., rfl⟩
    | validation => exact ⟨_, List.mem_cons_self .., rfl⟩
    | clientError code => exact ⟨_, List.mem_cons_self .., rfl⟩
    | exception => exact ⟨_, List.mem_cons_self .., rfl⟩

theorem Fleet.policies_ne_nil {fleet : Fleet A} (h : fleet.policies ≠ []) {job : Job}
    (hjob : job ∈ fleet.jobs) : job.policies ≠ [] := by
  obtain ⟨account, -, hjob⟩ := List.mem_flatMap.mp hjob
  obtain ⟨region, -, rfl⟩ := List.mem_map.mp hjob
  simpa using h

theorem Fleet.failed_iff {fleet : Fleet A} (h : fleet.policies ≠ []) (debug : Bool) :
    fleet.Failed ↔ (∃ job ∈ fleet.jobs, job.raises debug = true) ∨
      ∃ job ∈ fleet.jobs, job.raises debug = false ∧ ∃ p ∈ job.policies, p.2.failed = true := by
  constructor
  · rintro ⟨job, hjob, p, hp, hfailed⟩
    cases hraises : job.raises debug with
    | true => exact Or.inl ⟨job, hjob, hraises⟩
    | false =>
      refine Or.inr ⟨job, hjob, hraises, p, hp, ?_⟩
      rcases hfailed with hready | hfailed
      · rw [Job.raises, hready] at hraises
        cases hraises
      · exact hfailed
  · rintro (⟨job, hjob, hraises⟩ | ⟨job, hjob, -, p, hp, hfailed⟩)
    · cases hready : job.ready with
      | false =>
        obtain ⟨p, hp⟩ := List.exists_mem_of_ne_nil _ (policies_ne_nil h hjob)
        exact ⟨job, hjob, p, hp, Or.inl hready⟩
      | true =>
        rw [Job.raises, hready] at hraises
        obtain ⟨p, hp, hfailed⟩ := failed_of_raises hraises
        exact ⟨job, hjob, p, hp, Or.inr hfailed⟩
    · exact ⟨job, hjob, p, hp, Or.inr hfailed⟩

theorem Fleet.not_failed {fleet : Fleet A}
    (h : (fleet.accounts.isEmpty || fleet.policies.isEmpty) = true) : ¬ fleet.Failed := by
  rintro ⟨job, hjob, p, hp, -⟩
  obtain ⟨account, haccount, hjob⟩ := List.mem_flatMap.mp hjob
  obtain ⟨region, -, rfl⟩ := List.mem_map.mp hjob
  simp only [Bool.or_eq_true, List.isEmpty_iff] at h
  rcases h with h | h
  · rw [h] at haccount
    cases haccount
  · simp [h] at hp

/-! ## The result -/

variable {debug : Bool} {fleet : Fleet A} {completion : Completion fleet}

theorem any_raises_iff :
    (fleet.jobs.any fun job => (runAccount debug job).isNone) = true ↔
      ∃ job ∈ fleet.jobs, job.raises debug = true := by
  rw [List.any_eq_true]
  refine exists_congr fun job => and_congr_right fun _ => ?_
  rw [runAccount_spec]
  cases job.raises debug <;> simp

theorem run_spec (completion : Completion fleet)
    (hwork : (fleet.accounts.isEmpty || fleet.policies.isEmpty) = false)
    (hraises : debug = true → ∀ job ∈ fleet.jobs, job.raises debug = false) :
    ((run debug fleet completion).failed = true ↔ ∃ job ∈ fleet.jobs,
        job.raises debug = false ∧ ∃ p ∈ job.policies, p.2.failed = true) ∧
      ∃ counts, (run debug fleet completion).counts = some counts ∧ ∀ name,
        count counts name = (fleet.jobs.map fun job => job.added debug name).sum := by
  have hpass : (debug && fleet.jobs.any fun job => (runAccount debug job).isNone) = false := by
    by_contra hany
    obtain ⟨hdebug, hany⟩ := Bool.and_eq_true_iff.mp (Bool.eq_true_of_not_eq_false hany)
    obtain ⟨job, hjob, hjobs⟩ := any_raises_iff.mp hany
    rw [hraises hdebug job hjob] at hjobs
    cases hjobs
  have horder : debug = true → ∀ job ∈ completion.order, job.raises debug = false :=
    fun hdebug job hjob => hraises hdebug job (completion.perm.mem_iff.mp hjob)
  obtain ⟨counts, hcollect, hcount⟩ := collect_spec horder [] true
  unfold run
  simp only [hwork, hpass, hcollect, Bool.false_eq_true, if_false]
  refine ⟨?_, counts, rfl, fun name => ?_⟩
  · rw [Bool.true_and, Bool.not_not, List.any_eq_true]
    refine exists_congr fun job => and_congr completion.perm.mem_iff ?_
    simp
  · rw [hcount, (completion.perm.map _).sum_eq]
    exact Nat.zero_add _

theorem reports_of_empty (h : (fleet.accounts.isEmpty || fleet.policies.isEmpty) = true) :
    Reports debug fleet completion := by
  have hrun : run debug fleet completion = ⟨false, none⟩ := by
    unfold run
    simp only [h, if_true]
  refine ⟨?_, ?_⟩
  · rw [hrun]
    exact iff_of_false Bool.false_ne_true (Fleet.not_failed h)
  · rw [hrun]
    exact fun counts hcounts => by cases hcounts

theorem reports_of_raises (hwork : (fleet.accounts.isEmpty || fleet.policies.isEmpty) = false)
    (hpolicies : fleet.policies ≠ []) (hdebug : debug = true)
    (hraises : ∃ job ∈ fleet.jobs, job.raises debug = true) :
    Reports debug fleet completion := by
  have hrun : run debug fleet completion = ⟨true, none⟩ := by
    unfold run
    simp only [hwork, any_raises_iff.mpr hraises, Bool.false_eq_true, if_false]
    rw [if_pos (by rw [hdebug]; rfl)]
  refine ⟨?_, ?_⟩
  · rw [hrun]
    exact iff_of_true rfl ((Fleet.failed_iff hpolicies debug).mpr (Or.inl hraises))
  · rw [hrun]
    exact fun counts hcounts => by cases hcounts

theorem counts_iff (debug : Bool) (fleet : Fleet A) :
    (∀ name, (fleet.jobs.map fun job => job.added debug name).sum =
        (fleet.jobs.map fun job => total (job.returned debug) name).sum) ↔
      ∀ job ∈ fleet.jobs, job.Counted debug := by
  simp only [sum_eq_sum_iff fun job _ => added_le_total debug job _, counted_iff]
  exact ⟨fun h job hjob name => h name job hjob, fun h name job hjob => h job hjob name⟩

/-- **When a fleet's exit status and counts are right.**  Every failure that leaves its job has
to be let through or to come with one that does not, and no counts may be lost. -/
theorem reports_iff (debug : Bool) (fleet : Fleet A) (completion : Completion fleet) :
    Reports debug fleet completion ↔
      fleet.policies = [] ∨ (fleet.Noticed debug ∧ fleet.Counted debug) := by
  cases hwork : fleet.accounts.isEmpty || fleet.policies.isEmpty with
  | true =>
    refine iff_of_true (reports_of_empty hwork) ?_
    rcases Bool.or_eq_true_iff.mp hwork with haccounts | hpolicies
    · have hjobs : fleet.jobs = [] := by
        rw [Fleet.jobs, List.isEmpty_iff.mp haccounts, List.flatMap_nil]
      exact Or.inr ⟨Or.inr (Or.inl (by simp [hjobs])), Or.inr (by simp [hjobs])⟩
    · exact Or.inl (List.isEmpty_iff.mp hpolicies)
  | false =>
    have hpolicies : fleet.policies ≠ [] := by
      intro hnil
      rw [hnil, List.isEmpty_nil, Bool.or_true] at hwork
      cases hwork
    rw [or_iff_right hpolicies]
    by_cases hbubble : debug = true ∧ ∃ job ∈ fleet.jobs, job.raises debug = true
    · exact iff_of_true (reports_of_raises hwork hpolicies hbubble.1 hbubble.2)
        ⟨Or.inl hbubble.1, Or.inl hbubble⟩
    · have hraises : debug = true → ∀ job ∈ fleet.jobs, job.raises debug = false := by
        intro hdebug job hjob
        by_contra hjobs
        exact hbubble ⟨hdebug, job, hjob, Bool.eq_true_of_not_eq_false hjobs⟩
      obtain ⟨hstatus, counts, hcounts, hcount⟩ := run_spec completion hwork hraises
      have hnoticed : ((∃ job ∈ fleet.jobs, job.raises debug = false ∧
          ∃ p ∈ job.policies, p.2.failed = true) ↔ fleet.Failed) ↔ fleet.Noticed debug := by
        rw [Fleet.failed_iff hpolicies debug, Fleet.Noticed]
        constructor
        · intro h
          by_cases hsome : ∃ job ∈ fleet.jobs, job.raises debug = true
          · exact Or.inr (Or.inr (h.mpr (Or.inl hsome)))
          · refine Or.inr (Or.inl fun job hjob => ?_)
            by_contra hjobs
            exact hsome ⟨job, hjob, Bool.eq_true_of_not_eq_false hjobs⟩
        · rintro h
          refine ⟨Or.inr, fun hfailed => ?_⟩
          rcases hfailed with ⟨job, hjob, hjobs⟩ | hended
          · rcases h with hdebug | hnone | hended
            · rw [hraises hdebug job hjob] at hjobs
              cases hjobs
            · rw [hnone job hjob] at hjobs
              cases hjobs
            · exact hended
          · exact hended
      have hcounted : fleet.Counted debug ↔ ∀ job ∈ fleet.jobs, job.Counted debug :=
        or_iff_right hbubble
      rw [← hnoticed, hcounted, ← counts_iff]
      constructor
      · intro h
        refine ⟨hstatus.symm.trans h.status, fun name => ?_⟩
        rw [← hcount, h.counts counts hcounts]
      · rintro ⟨hfailed, hsums⟩
        refine ⟨hstatus.trans hfailed, fun counts' hcounts' name => ?_⟩
        rw [hcounts] at hcounts'
        cases hcounts'
        rw [hcount, hsums]

/-! ## A fleet with a policy that is not valid -/

/-- Two accounts in a region, where the second policy is not valid in the first one. -/
def sampleFleet : Fleet Text where
  accounts := [("dev".toList, ["us-east-1".toList]), ("prod".toList, ["us-east-1".toList])]
  policies := ["old-ami".toList, "open-acl".toList]
  ready _ _ := true
  outcome account _ i :=
    if i = 0 then .resources 3 else if account = "dev".toList then .validation else .resources 2

def sampleCompletion : Completion sampleFleet := ⟨sampleFleet.jobs, .refl _⟩

/-- The run ends well and has lost the resources of the first account. -/
theorem sampleFleet_run :
    ¬ Reports false sampleFleet sampleCompletion ∧
      run false sampleFleet sampleCompletion =
        ⟨false, some [("old-ami".toList, 3), ("open-acl".toList, 2)]⟩ := by
  have hrun : run false sampleFleet sampleCompletion =
      ⟨false, some [("old-ami".toList, 3), ("open-acl".toList, 2)]⟩ := by rfl
  refine ⟨fun h => ?_, hrun⟩
  have hfailed : sampleFleet.Failed :=
    ⟨⟨true, [("old-ami".toList, .resources 3), ("open-acl".toList, .validation)]⟩,
      List.mem_cons_self .., ("open-acl".toList, .validation), by simp, Or.inr rfl⟩
  have hstatus := h.status.mpr hfailed
  rw [hrun] at hstatus
  cases hstatus

end Custodian.Org

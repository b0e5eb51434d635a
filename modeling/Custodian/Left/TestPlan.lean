import Custodian.Lib.Matching

/-!
# Test plans

`TestPlan` of `c7n_left/test.py`: the checks of a plan are used up by the findings of a run.
-/

namespace Custodian.TestPlan

open Py.Matching

/-- A plan: its matchers, the positions of the used ones, and the findings without one. -/
structure Plan (F : Type) where
  matchers : List (F → Bool)
  used : List Nat
  unmatched : List F

variable {F : Type}

/-- `TestPlan(plan_data)`, for the predicates of its blocks -/
def Plan.new (checks : List (F → Bool)) : Plan F := ⟨checks, [], []⟩

/-- `match` -/
def Plan.matchResult (plan : Plan F) (result : F) : Plan F :=
  match plan.matchers.zipIdx.find? fun m => m.2 ∉ plan.used && m.1 result with
  | some m => { plan with used := m.2 :: plan.used }
  | none => { plan with unmatched := plan.unmatched ++ [result] }

/-- `get_test_result()["success"]` -/
def Plan.success (plan : Plan F) : Bool :=
  plan.used.length = plan.matchers.length && plan.unmatched.isEmpty

/-- The plan after all findings of a run. -/
def Plan.run (plan : Plan F) (findings : List F) : Plan F := findings.foldl Plan.matchResult plan

/-- A one-to-one assignment of all findings to all checks that they satisfy. -/
def Assigned (findings : List F) (checks : List (F → Bool)) : Prop :=
  Pairs (fun f c => c f) findings checks

/-- In every order of findings and checks the verdict is whether there is an assignment. -/
def VerdictCorrect (findings : List F) (checks : List (F → Bool)) : Prop :=
  ∀ findings' checks', findings'.Perm findings → checks'.Perm checks →
    (((Plan.new checks').run findings').success = true ↔ Assigned findings checks)

/-! ## Free checks -/

/-- The checks that are not used, with their positions. -/
def Plan.free (plan : Plan F) : List ((F → Bool) × Nat) :=
  plan.matchers.zipIdx.filter fun m => m.2 ∉ plan.used

/-- The check takes the finding. -/
def takes (f : F) (c : (F → Bool) × Nat) : Bool := c.1 f

theorem filter_ne_eq_eraseP {α : Type} {p : α × Nat → Bool} {l : List (α × Nat)} {c : α × Nat}
    (hnodup : (l.map Prod.snd).Nodup) (hc : l.find? p = some c) :
    (l.filter fun m => m.2 ≠ c.2) = l.eraseP p := by
  induction l with
  | nil => cases hc
  | cons m l ih =>
    rw [List.map_cons, List.nodup_cons] at hnodup
    cases hm : p m with
    | true =>
      rw [List.find?_cons_of_pos hm] at hc
      obtain rfl := Option.some.inj hc
      rw [List.eraseP_cons_of_pos hm, List.filter_cons_of_neg (by simp), List.filter_eq_self]
      intro m' hm'
      have hne : m'.2 ≠ m.2 := fun e => hnodup.1 (e ▸ List.mem_map_of_mem hm')
      exact decide_eq_true hne
    | false =>
      rw [List.find?_cons_of_neg (by simp [hm])] at hc
      have hne : m.2 ≠ c.2 := fun e =>
        hnodup.1 (e ▸ List.mem_map_of_mem (List.mem_of_find?_eq_some hc))
      rw [List.eraseP_cons_of_neg (by simp [hm]), List.filter_cons_of_pos (by simpa using hne),
        ih hnodup.2 hc]

theorem free_nodup (plan : Plan F) : (plan.free.map Prod.snd).Nodup := by
  refine List.Nodup.sublist (List.filter_sublist.map _) ?_
  rw [List.zipIdx_map_snd]
  exact List.nodup_range'

theorem matchResult_cases (plan : Plan F) (f : F) :
    (plan.free.any (takes f) = true ∧ (plan.matchResult f).free = plan.free.eraseP (takes f) ∧
      (plan.matchResult f).unmatched = plan.unmatched ∧
      (plan.matchResult f).used.length = plan.used.length + 1) ∨
    (plan.free.any (takes f) = false ∧ (plan.matchResult f).free = plan.free ∧
      (plan.matchResult f).unmatched = plan.unmatched ++ [f] ∧
      (plan.matchResult f).used.length = plan.used.length) := by
  have hfind : plan.matchers.zipIdx.find? (fun m => m.2 ∉ plan.used && m.1 f) =
      plan.free.find? (takes f) := by
    rw [Plan.free, List.find?_filter]
    refine congrArg (List.find? · _) (funext fun m => ?_)
    rw [takes, Bool.decide_and, Bool.decide_eq_true, Bool.decide_eq_true]
  rw [Plan.matchResult, hfind]
  cases hc : plan.free.find? (takes f) with
  | some c =>
    refine .inl ⟨?_, ?_, rfl, rfl⟩
    · rw [List.any_eq_true]
      exact ⟨c, List.mem_of_find?_eq_some hc, List.find?_some hc⟩
    · rw [← filter_ne_eq_eraseP (free_nodup plan) hc, Plan.free, Plan.free, List.filter_filter]
      refine List.filter_congr fun m _ => ?_
      simp [not_or]
  | none =>
    refine .inr ⟨?_, rfl, rfl, rfl⟩
    rw [List.find?_eq_none] at hc
    simpa using hc

/-! ## Runs -/

theorem run_cons (plan : Plan F) (f : F) (findings : List F) :
    plan.run (f :: findings) = (plan.matchResult f).run findings := rfl

theorem run_spec (plan : Plan F) (findings : List F) :
    (plan.run findings).free = (greedy takes findings plan.free).1 ∧
      (plan.run findings).unmatched =
        plan.unmatched ++ (greedy takes findings plan.free).2 ∧
      (plan.run findings).used.length + (plan.run findings).free.length =
        plan.used.length + plan.free.length := by
  induction findings generalizing plan with
  | nil => exact ⟨rfl, (List.append_nil _).symm, rfl⟩
  | cons f findings ih =>
    rw [run_cons, greedy]
    obtain ⟨hfree, hunmatched, hlen⟩ := ih (plan.matchResult f)
    rcases matchResult_cases plan f with ⟨hany, hf, hu, hl⟩ | ⟨hany, hf, hu, hl⟩
    · rw [if_pos hany]
      rw [hf] at hfree hunmatched hlen
      rw [hu] at hunmatched
      rw [hl, List.length_eraseP, hany, if_pos rfl] at hlen
      have hpos : 0 < plan.free.length := by
        obtain ⟨c, hc, -⟩ := List.any_eq_true.mp hany
        exact List.length_pos_of_mem hc
      exact ⟨hfree, hunmatched, by omega⟩
    · rw [if_neg (by simp [hany])]
      rw [hf] at hfree hunmatched hlen
      rw [hu, List.append_assoc] at hunmatched
      rw [hl] at hlen
      exact ⟨hfree, hunmatched, hlen⟩

theorem matchers_run (plan : Plan F) (findings : List F) :
    (plan.run findings).matchers = plan.matchers := by
  induction findings generalizing plan with
  | nil => rfl
  | cons f findings ih =>
    rw [run_cons, ih, Plan.matchResult]
    split <;> rfl

theorem success_iff_complete (findings : List F) (checks : List (F → Bool)) :
    ((Plan.new checks).run findings).success = true ↔
      Complete (fun f c => c f) findings checks := by
  obtain ⟨hfree, hunmatched, hlen⟩ := run_spec (Plan.new checks) findings
  have hstart : (Plan.new checks).free = checks.zipIdx := by
    simp [Plan.free, Plan.new]
  have hchecks : checks = checks.zipIdx.map Prod.fst := by rw [List.zipIdx_map_fst]
  have hcomplete : Complete (fun f c => c f) findings checks ↔
      Complete takes findings checks.zipIdx := by
    conv_lhs => rw [hchecks]
    exact complete_map
  rw [hstart] at hfree hunmatched hlen
  rw [hcomplete, Complete, Prod.ext_iff, ← hfree, Plan.success, matchers_run, hunmatched,
    Bool.and_eq_true, decide_eq_true_eq, List.isEmpty_iff]
  refine and_congr ?_ Iff.rfl
  rw [List.length_zipIdx] at hlen
  have hused : (Plan.new checks).used.length = 0 := rfl
  have hmatchers : (Plan.new checks).matchers.length = checks.length := rfl
  rw [← List.length_eq_zero_iff]
  omega

/-- **The verdict is right in every order exactly when there is no assignment or checks that share
a finding accept the same findings.** -/
theorem verdict_correct_iff (findings : List F) (checks : List (F → Bool)) :
    VerdictCorrect findings checks ↔ (Assigned findings checks →
      ∀ c ∈ checks, ∀ d ∈ checks, ∀ f ∈ findings, c f → d f → ∀ g ∈ findings, c g = d g) := by
  simp only [VerdictCorrect, success_iff_complete]
  exact greedy_correct_iff

/-! ## A check that is written too early -/

/-- The first finding uses the wide check, so that the second one has none. -/
theorem wide_check_first :
    Assigned ["a", "b"] [fun _ => true, fun f => f == "a"] ∧
      ((Plan.new [fun _ => true, fun f => f == "a"]).run ["a", "b"]).success = false ∧
      ¬VerdictCorrect ["a", "b"] [fun _ => true, fun f => f == "a"] := by
  have hassigned : Assigned ["a", "b"] [fun _ => true, fun f => f == "a"] :=
    ⟨[fun f => f == "a", fun _ => true], .swap _ _ _, .cons (by decide) (.cons rfl .nil)⟩
  have hfails : ((Plan.new [fun _ => true, fun f => f == "a"]).run ["a", "b"]).success = false := by
    decide
  refine ⟨hassigned, hfails, fun h => ?_⟩
  have hsuccess := (h _ _ (.refl _) (.refl _)).mpr hassigned
  rw [hfails] at hsuccess
  cases hsuccess

end Custodian.TestPlan

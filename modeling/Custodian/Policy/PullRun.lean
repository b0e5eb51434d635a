import Custodian.Filters.Semantics
import Custodian.Policy.ResourceLimit

/-!
# Running policies

`run` of `c7n/commands.py` runs the policies one after the other, and `PullMode.run` of
`c7n/policy.py` one of them: its conditions are evaluated, its resources are fetched, filtered and
counted against its limits, and its actions are called on what is left.
-/

namespace Custodian.PullRun

open Py BoolLogic Custodian.Blocks Custodian.Sweeper Custodian.Semantics
open ResourceLimit (ResourceLimitExceeded checkResourceLimit Raises)

variable {V : Type}

/-! ## A policy -/

/-- An action: it may change the objects, and it may raise. -/
structure Action (V : Type) where
  name : Text
  process : Heap V → List Ref → Except Exn (Heap V)

structure Policy (V : Type) extends ResourceLimit.Policy where
  model : ResourceModel V
  conditions : List (FilterTree V)
  filters : List (FilterTree V)
  actions : List (Action V)

/-- A policy and what it finds when it is run: the objects of the process, among them its execution
variables, and what the cache or the source has for its query. -/
structure Turn (V : Type) where
  policy : Policy V
  heap : Heap V
  policyVars : Ref
  fetch : Heap V → Except Exn (Heap V × List Ref)

structure Call where
  policy : Text
  action : Text
  resources : List Ref
  deriving DecidableEq

inductive Failure where
  | limit (e : ResourceLimitExceeded)
  | raised (e : Exn)

/-- What a policy returns or raises, the resources it writes to its file and the calls it makes. -/
structure Outcome where
  result : Except Failure (List Ref)
  written : Option (List Ref) := none
  calls : List Call := []

/-- What all policies of a process share: the limits' environment, the order of sets, the model of
the execution variables and whether nothing is to be done. -/
structure Options (V : Type) where
  table : CaseTable
  env : Text
  str : Option ResourceLimit.Number → Text
  order : SetOrder V
  varsModel : ResourceModel V
  dryrun : Bool

section Run

variable [DecidableEq V] (o : Options V)

/-- `evaluate`: every condition gets the variables. -/
def evaluate : List (FilterTree V) → Heap V → Ref → Except Exn (Heap V × Bool)
  | [], h, _ => .ok (h, true)
  | f :: fs, h, r => do
    let (h, out) ← f.process o.varsModel o.order h [r]
    let (h, rest) ← evaluate fs h r
    return (h, !out.isEmpty && rest)

/-- `resources`, and the objects then. -/
def Turn.resources (t : Turn V) (h : Heap V) : Except Failure (Heap V × List Ref) := do
  let (h, rs) ← (t.fetch h).mapError .raised
  let (h, kept) ← (filterResources t.policy.model o.order t.policy.filters h rs).mapError .raised
  (checkResourceLimit o.table o.env o.str t.policy.toPolicy kept.length rs.length).mapError .limit
  return (h, kept)

/-- The loop over the actions. -/
def callActions (p : Text) (rs : List Ref) :
    List (Action V) → Heap V → Except Failure (List Ref) × List Call
  | [], _ => (.ok rs, [])
  | a :: actions, h =>
    let call : Call := ⟨p, a.name, rs⟩
    match a.process h rs with
    | .error e => (.error (.raised e), [call])
    | .ok h =>
      let (result, calls) := callActions p rs actions h
      (result, call :: calls)

/-- `PullMode.run` -/
def Turn.run (t : Turn V) : Outcome :=
  match evaluate o t.policy.conditions t.heap t.policyVars with
  | .error e => { result := .error (.raised e) }
  | .ok (_, false) => { result := .ok [] }
  | .ok (h, true) =>
    match t.resources o h with
    | .error e => { result := .error e }
    | .ok (h, rs) =>
      if rs.isEmpty ∨ o.dryrun then { result := .ok rs, written := some rs }
      else
        let (result, calls) := callActions t.policy.name rs t.policy.actions h
        { result, written := some rs, calls }

/-- What a command leaves: the calls, the names of the policies that had errors, and the failure
that it raises. -/
structure Report where
  calls : List Call
  errored : List Text
  raised : Option Failure

/-- `run`; with `debug` the first failure is raised. -/
def runPolicies (debug : Bool) : List (Turn V) → Report
  | [] => ⟨[], [], none⟩
  | t :: turns =>
    let outcome := t.run o
    match outcome.result with
    | .ok _ =>
      let rest := runPolicies debug turns
      { rest with calls := outcome.calls ++ rest.calls }
    | .error e =>
      if debug then ⟨outcome.calls, [t.policy.name], some e⟩
      else
        let rest := runPolicies debug turns
        { rest with calls := outcome.calls ++ rest.calls, errored := t.policy.name :: rest.errored }

end Run

/-! ## What a policy is meant to act on -/

variable (o : Options V) (holds : LeafFilter V → Resource V → Bool)

/-- The filters are a conjunction of formulas. -/
def conjunction (fs : List (FilterTree V)) (d : Resource V) : Bool :=
  (Formula.all (fs.map formula)).eval fun l => holds l d

/-- The leaves select by what they hold of, and the ids of what is fetched are distinct. -/
structure Turn.Sound (t : Turn V) : Prop where
  conditions : ∀ f ∈ t.policy.conditions, ∀ l ∈ leaves f, Selects o.varsModel l (holds l)
  filters : ∀ f ∈ t.policy.filters, ∀ l ∈ leaves f, Selects t.policy.model l (holds l)
  named : DistinctIds o.varsModel t.heap [t.policyVars]
  fetched : ∀ h h' rs, t.fetch h = .ok (h', rs) → DistinctIds t.policy.model h' rs

/-- The resources that the filters keep of those that are fetched, no more than the limits allow. -/
def Turn.Keeps (t : Turn V) (h : Heap V) (kept : List Ref) : Prop :=
  ∃ h' rs, t.fetch h = .ok (h', rs) ∧ kept.Nodup ∧
    (∀ r, r ∈ kept ↔ r ∈ rs ∧ conjunction holds t.policy.filters (h' r) = true) ∧
    ¬Raises o.table o.env o.str t.policy.toPolicy kept.length rs.length

/-- The conditions are met, and these are kept of what is fetched then. -/
def Turn.Selected [DecidableEq V] (t : Turn V) (kept : List Ref) : Prop :=
  conjunction holds t.policy.conditions (t.heap t.policyVars) = true ∧ ∃ h b,
    evaluate o t.policy.conditions t.heap t.policyVars = .ok (h, b) ∧ t.Keeps o holds h kept

/-! ## One policy -/

variable {o holds}

theorem conjunction_eq (fs : List (FilterTree V)) (d : Resource V) :
    conjunction holds fs d = fs.all fun f => truth holds f d := by
  rw [conjunction, Formula.eval_all, List.all_map]
  rfl

variable [DecidableEq V]

theorem evaluate_eq {r : Ref} (fs : List (FilterTree V))
    (hl : ∀ f ∈ fs, ∀ l ∈ leaves f, Selects o.varsModel l (holds l)) :
    ∀ h, DistinctIds o.varsModel h [r] →
      ∃ h', evaluate o fs h r = .ok (h', conjunction holds fs (h r)) := by
  simp only [conjunction_eq]
  induction fs with
  | nil => exact fun h _ => ⟨h, rfl⟩
  | cons f fs ih =>
    intro h hd
    obtain ⟨h₁, out, hrun, hframe, -, hmem⟩ :=
      (process_semantics f (hl f (List.mem_cons_self ..)) : Correct _ o.order holds f) h [r] hd
    have hfs : ∀ g ∈ fs, ∀ l ∈ leaves g, Selects o.varsModel l (holds l) :=
      fun g hg => hl g (List.mem_cons_of_mem _ hg)
    obtain ⟨h₂, hrest⟩ := ih hfs h₁ (distinctIds_iff.mpr ⟨hd.nodup, hd.identified.frame hframe⟩)
    have hout : (!out.isEmpty) = truth holds f (h r) := by
      rw [Bool.eq_iff_iff, Bool.not_eq_true', List.isEmpty_eq_false_iff_exists_mem]
      simp [hmem]
    have hsame : (fs.all fun g => truth holds g (h₁ r)) = fs.all fun g => truth holds g (h r) := by
      rw [Bool.eq_iff_iff, List.all_eq_true, List.all_eq_true]
      exact forall₂_congr fun g hg => by rw [truth_frame (hfs g hg) hframe]
    refine ⟨h₂, ?_⟩
    rw [evaluate, hrun, ok_bind]
    simp only [hrest, ok_bind, hout, hsame, List.all_cons]
    rfl

omit [DecidableEq V] in
theorem callActions_calls (p : Text) (rs : List Ref) (actions : List (Action V)) (h : Heap V) :
    ∃ called rest, actions = called ++ rest ∧
      (callActions p rs actions h).2 = called.map (fun a => ⟨p, a.name, rs⟩) ∧
      (rest = [] ∨ ∃ a ∈ called, ∃ h e, a.process h rs = .error e) := by
  induction actions generalizing h with
  | nil => exact ⟨[], [], rfl, rfl, .inl rfl⟩
  | cons a actions ih =>
    rw [callActions]
    cases hrun : a.process h rs with
    | error e => exact ⟨[a], actions, rfl, rfl, .inr ⟨a, List.mem_singleton_self a, h, e, hrun⟩⟩
    | ok h' =>
      obtain ⟨called, rest, rfl, hcalls, hstop⟩ := ih h'
      refine ⟨a :: called, rest, rfl, congrArg (_ :: ·) hcalls, hstop.imp_right ?_⟩
      exact fun ⟨b, hb, hraised⟩ => ⟨b, List.mem_cons_of_mem _ hb, hraised⟩

theorem perm_of_mem_iff {kept kept' : List Ref} {p : Ref → Prop} (hnodup : kept.Nodup)
    (hmem : ∀ r, r ∈ kept ↔ p r) (hnodup' : kept'.Nodup) (hmem' : ∀ r, r ∈ kept' ↔ p r) :
    kept'.Perm kept :=
  (List.perm_ext_iff_of_nodup hnodup' hnodup).mpr fun r => (hmem' r).trans (hmem r).symm

omit [DecidableEq V] in
theorem Turn.Keeps.perm {t : Turn V} {h : Heap V} {kept kept' : List Ref}
    (hk : t.Keeps o holds h kept) (hk' : t.Keeps o holds h kept') : kept'.Perm kept := by
  obtain ⟨h₁, rs, hfetch, hnodup, hmem, -⟩ := hk
  obtain ⟨h₂, rs', hfetch', hnodup', hmem', -⟩ := hk'
  rw [hfetch] at hfetch'
  cases hfetch'
  exact perm_of_mem_iff hnodup hmem hnodup' hmem'

theorem resources_cases {t : Turn V} (ht : t.Sound o holds) (h : Heap V) :
    (∃ e, t.resources o h = .error e) ∧ (∀ kept, ¬t.Keeps o holds h kept) ∨
      ∃ h' kept, t.resources o h = .ok (h', kept) ∧ t.Keeps o holds h kept := by
  cases hfetch : t.fetch h with
  | error e =>
    refine .inl ⟨⟨.raised e, by rw [Turn.resources, hfetch]; rfl⟩, ?_⟩
    rintro kept ⟨h', rs, hok, -⟩
    rw [hfetch] at hok
    cases hok
  | ok p =>
    obtain ⟨h', rs⟩ := p
    obtain ⟨h₂, kept, hrun, -, hnodup, hmem⟩ := @filterResources_semantics _ _ o.order _ _
      t.policy.filters ht.filters h' rs (ht.fetched h h' rs hfetch)
    simp only [← conjunction_eq] at hmem
    have hresources : t.resources o h =
        (checkResourceLimit o.table o.env o.str t.policy.toPolicy kept.length
          rs.length).mapError .limit >>= fun _ => .ok (h₂, kept) := by
      rw [Turn.resources, hfetch]
      simp only [Except.mapError, ok_bind, hrun]
      rfl
    cases hcheck : checkResourceLimit o.table o.env o.str t.policy.toPolicy kept.length
      rs.length with
    | error e =>
      refine .inl ⟨⟨.limit e, by rw [hresources, hcheck]; rfl⟩, ?_⟩
      rintro kept' ⟨h'', rs', hok, hnodup', hmem', hraises⟩
      rw [hfetch] at hok
      cases hok
      -- the same resources, in some order
      have hperm := perm_of_mem_iff hnodup hmem hnodup' hmem'
      exact hraises (hperm.length_eq ▸ ⟨e, hcheck⟩)
    | ok u =>
      refine .inr ⟨h₂, kept, by rw [hresources, hcheck]; rfl, h', rs, hfetch, hnodup, hmem, ?_⟩
      rintro ⟨e, he⟩
      rw [hcheck] at he
      cases he

theorem run_cases {t : Turn V} (ht : t.Sound o holds) :
    (t.run o).calls = [] ∧ (t.run o).written = none ∧ (∀ kept, ¬t.Selected o holds kept) ∨
    ∃ kept, t.Selected o holds kept ∧ (t.run o).written = some kept ∧
      if kept = [] ∨ o.dryrun = true then (t.run o).calls = []
      else ∃ called rest, t.policy.actions = called ++ rest ∧
        (t.run o).calls = called.map (fun a => ⟨t.policy.name, a.name, kept⟩) ∧
        (rest = [] ∨ ∃ a ∈ called, ∃ h e, a.process h kept = .error e) := by
  obtain ⟨h, heval⟩ := evaluate_eq t.policy.conditions ht.conditions t.heap ht.named
  cases hmet : conjunction holds t.policy.conditions (t.heap t.policyVars) with
  | false =>
    rw [hmet] at heval
    refine .inl ⟨by rw [Turn.run, heval], by rw [Turn.run, heval], fun kept hsel => ?_⟩
    rw [hsel.1] at hmet
    cases hmet
  | true =>
    rw [hmet] at heval
    rcases resources_cases ht h with ⟨⟨e, hres⟩, hnone⟩ | ⟨h', kept, hres, hkeeps⟩
    · refine .inl ⟨by rw [Turn.run, heval]; simp only [hres],
        by rw [Turn.run, heval]; simp only [hres], fun kept hsel => ?_⟩
      obtain ⟨-, h', b, heval', hkeeps⟩ := hsel
      rw [heval] at heval'
      cases heval'
      exact hnone kept hkeeps
    · refine .inr ⟨kept, ⟨hmet, h, true, heval, hkeeps⟩, ?_, ?_⟩
      · rw [Turn.run, heval]
        simp only [hres]
        split <;> rfl
      · have hrun : t.run o = if kept.isEmpty ∨ o.dryrun then
            { result := .ok kept, written := some kept }
          else
            { result := (callActions t.policy.name kept t.policy.actions h').1
              written := some kept
              calls := (callActions t.policy.name kept t.policy.actions h').2 } := by
          rw [Turn.run, heval]
          simp only [hres]
        rw [hrun]
        simp only [List.isEmpty_iff]
        split
        · rfl
        · exact callActions_calls ..

/-! ## All policies -/

theorem mem_calls {debug : Bool} {turns : List (Turn V)} {c : Call}
    (hc : c ∈ (runPolicies o debug turns).calls) : ∃ t ∈ turns, c ∈ (t.run o).calls := by
  induction turns with
  | nil => cases hc
  | cons t turns ih =>
    rw [runPolicies] at hc
    cases hresult : (t.run o).result with
    | ok rs =>
      simp only [hresult, List.mem_append] at hc
      exact hc.elim (fun h => ⟨t, List.mem_cons_self .., h⟩)
        fun h => (ih h).imp fun _ h => ⟨List.mem_cons_of_mem _ h.1, h.2⟩
    | error e =>
      cases debug with
      | true =>
        simp only [hresult, if_true] at hc
        exact ⟨t, List.mem_cons_self .., hc⟩
      | false =>
        simp only [hresult, Bool.false_eq_true, if_false, List.mem_append] at hc
        exact hc.elim (fun h => ⟨t, List.mem_cons_self .., h⟩)
          fun h => (ih h).imp fun _ h => ⟨List.mem_cons_of_mem _ h.1, h.2⟩

theorem calls_append (before : List (Turn V)) (t : Turn V) (after : List (Turn V)) :
    (runPolicies o false (before ++ t :: after)).calls =
      (runPolicies o false before).calls ++ (t.run o).calls ++ (runPolicies o false after).calls := by
  have hcons : ∀ (t : Turn V) turns, (runPolicies o false (t :: turns)).calls =
      (t.run o).calls ++ (runPolicies o false turns).calls := by
    intro t turns
    rw [runPolicies]
    cases hresult : (t.run o).result <;> simp
  induction before with
  | nil => exact hcons t after
  | cons s before ih => rw [List.cons_append, hcons, ih, hcons, List.append_assoc, List.append_assoc,
      List.append_assoc]

def instances : Heap (Option Text) := fun r =>
  if r = 2 then AList.insert "name".toList (some "stop-running".toList) ∅
  else AList.insert "InstanceId".toList (some (if r = 0 then "i-0".toList else "i-1".toList))
    (AList.insert "State".toList (some (if r = 0 then "running".toList else "stopped".toList)) ∅)

def stopRunning : Turn (Option Text) where
  policy :=
    { name := "stop-running".toList
      model := plainModel "InstanceId".toList
      conditions := []
      filters := [.leaf (keyIs "State".toList "running".toList)]
      actions := [⟨"stop".toList, fun h _ => .ok h⟩] }
  heap := instances
  policyVars := 2
  fetch _ := .ok (instances, [0, 1])

def localOptions : Options (Option Text) :=
  ⟨asciiTable, "or".toList, fun _ => [], .ofInsertion, plainModel "name".toList, false⟩

theorem stopRunning_sound : stopRunning.Sound localOptions keeps where
  conditions _ hf := absurd hf List.not_mem_nil
  filters f hf l hl := by
    rw [List.mem_singleton.mp hf] at hl
    have hl' : l = keyIs "State".toList "running".toList := by simpa [leaves] using hl
    rw [hl']
    exact selects_keyIs _ (by decide)
  named := ⟨[some "stop-running".toList], rfl, by decide⟩
  fetched h h' rs hfetch := by
    cases hfetch
    exact ⟨[some "i-0".toList, some "i-1".toList], rfl, by decide⟩

theorem stopRunning_selected : stopRunning.Selected localOptions keeps [0] := by
  have hkept : ∀ r, r ∈ [0] ↔
      r ∈ [0, 1] ∧ conjunction keeps stopRunning.policy.filters (instances r) = true := by
    intro r
    have hstate : conjunction keeps stopRunning.policy.filters (instances r) =
        keeps (keyIs "State".toList "running".toList) (instances r) := by
      rw [conjunction_eq, show stopRunning.policy.filters =
        [.leaf (keyIs "State".toList "running".toList)] from rfl, List.all_cons, List.all_nil,
        Bool.and_true, truth, formula_leaf, Formula.eval_atom]
    rw [hstate]
    constructor
    · intro hr
      rw [List.mem_singleton.mp hr]
      decide
    · rintro ⟨hr, hrunning⟩
      rcases List.mem_pair.mp hr with rfl | rfl
      · exact List.mem_singleton_self 0
      · exact absurd hrunning (by decide)
  have hlimit : ¬Raises asciiTable "or".toList (fun _ => []) stopRunning.policy.toPolicy 1 2 := by
    rintro ⟨e, he⟩
    cases he
  exact ⟨by rw [conjunction_eq]; rfl, instances, true, rfl, instances, [0, 1], rfl,
    List.nodup_singleton 0, hkept, hlimit⟩

end Custodian.PullRun

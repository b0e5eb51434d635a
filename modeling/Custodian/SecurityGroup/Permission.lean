import Mathlib.Data.List.Basic
import Mathlib.Tactic.MkIffOfInductiveProp

/-!
# Ports of a security group rule

`SGPermission.process_ports` of `resources/vpc.py`: whether a rule of a group matches the `Ports`
and `OnlyPorts` of an `ingress` or `egress` filter.
-/

namespace Custodian.SGPermission

/-- The ports of the filter; `none` where the key is missing. -/
structure Data where
  ports : Option (List Int)
  onlyPorts : Option (List Int)

/-- A rule; one for all protocols has no ports. -/
structure Perm where
  fromPort : Option Int
  toPort : Option Int

/-- The loop over `self.ports`, which ends at the first port in the range. -/
def searchPorts (fromPort toPort : Int) : Option Bool → List Int → Option Bool
  | found, [] => found
  | _, port :: ports =>
    if port ≥ fromPort ∧ port ≤ toPort then some true
    else searchPorts fromPort toPort (some false) ports

/-- `self.process_ports(perm)` -/
def processPorts (d : Data) (perm : Perm) : Option Bool :=
  match perm.fromPort, perm.toPort with
  | some fromPort, some toPort =>
    let ports := d.ports.getD []
    let onlyPorts := d.onlyPorts.getD []
    let found := searchPorts fromPort toPort none ports
    let onlyFound := onlyPorts.any fun port => port = fromPort && port = toPort
    let found := if onlyPorts ≠ [] ∧ !onlyFound then some (found.getD true) else found
    if onlyPorts ≠ [] ∧ onlyFound then some false else found
  | _, _ => none

/-! ## What is documented -/

/-- The port is in the range of the rule. -/
def InRange (fromPort toPort port : Int) : Prop := fromPort ≤ port ∧ port ≤ toPort

/-- The range has a port that is not one of the list. -/
def Outside (fromPort toPort : Int) (onlyPorts : List Int) : Prop :=
  ∃ port, InRange fromPort toPort port ∧ port ∉ onlyPorts

/-- A rule matches when it allows a port outside of `OnlyPorts` and, if there are `Ports`, one of
these. -/
@[mk_iff]
structure Meets (d : Data) (fromPort toPort : Int) (onlyPorts : List Int) : Prop where
  true_iff : processPorts d ⟨some fromPort, some toPort⟩ = some true ↔
    Outside fromPort toPort onlyPorts ∧
      ∀ ports, d.ports = some ports → ∃ port ∈ ports, InRange fromPort toPort port
  covered : d.ports = none → ¬ Outside fromPort toPort onlyPorts →
    processPorts d ⟨some fromPort, some toPort⟩ = some false

variable {d : Data} {fromPort toPort : Int} {onlyPorts : List Int}

/-! ## The loops -/

theorem searchPorts_eq (found : Option Bool) (ports : List Int) :
    searchPorts fromPort toPort found ports =
      if ports = [] then found
      else some (ports.any fun port => fromPort ≤ port && port ≤ toPort) := by
  induction ports generalizing found with
  | nil => rfl
  | cons port ports ih =>
    rw [searchPorts, ih, if_neg (List.cons_ne_nil port ports), List.any_cons]
    by_cases hport : port ≥ fromPort ∧ port ≤ toPort
    · simp [hport.1, hport.2]
    · have hout : (decide (fromPort ≤ port) && decide (port ≤ toPort)) = false := by
        simpa using hport
      rw [if_neg hport, hout, Bool.false_or]
      split
      · rename_i hnil
        rw [hnil]
        rfl
      · rfl

theorem processPorts_eq (honly : d.onlyPorts = some onlyPorts) (hne : onlyPorts ≠ []) :
    processPorts d ⟨some fromPort, some toPort⟩ =
      if fromPort = toPort ∧ fromPort ∈ onlyPorts then some false
      else some (d.ports.getD [] = [] ||
        (d.ports.getD []).any fun port => fromPort ≤ port && port ≤ toPort) := by
  have hfound : (onlyPorts.any fun port => port = fromPort && port = toPort) = true ↔
      fromPort = toPort ∧ fromPort ∈ onlyPorts := by
    simp only [List.any_eq_true, Bool.and_eq_true, decide_eq_true_eq]
    constructor
    · rintro ⟨port, hport, rfl, rfl⟩
      exact ⟨rfl, hport⟩
    · rintro ⟨rfl, hport⟩
      exact ⟨fromPort, hport, rfl, rfl⟩
  simp only [processPorts, honly, Option.getD_some]
  by_cases h : fromPort = toPort ∧ fromPort ∈ onlyPorts
  · rw [if_pos ⟨hne, hfound.mpr h⟩, if_pos h]
  · have hno : (onlyPorts.any fun port => port = fromPort && port = toPort) = false :=
      Bool.eq_false_iff.mpr fun hany => h (hfound.mp hany)
    rw [if_neg h, hno, if_neg (by simp), if_pos ⟨hne, rfl⟩, searchPorts_eq]
    by_cases hports : d.ports.getD [] = []
    · simp [hports]
    · simp [hports]

/-! ## When a rule matches -/

theorem processPorts_eq_true_iff (honly : d.onlyPorts = some onlyPorts) (hne : onlyPorts ≠ []) :
    processPorts d ⟨some fromPort, some toPort⟩ = some true ↔
      ¬ (fromPort = toPort ∧ fromPort ∈ onlyPorts) ∧
        (d.ports.getD [] = [] ∨ ∃ port ∈ d.ports.getD [], InRange fromPort toPort port) := by
  rw [processPorts_eq honly hne]
  split
  · rename_i h
    exact iff_of_false (by simp) fun hmatch => hmatch.1 h
  · rename_i h
    simp [h, InRange]

theorem outside_of_single (hrange : fromPort ≤ toPort)
    (h : ¬ (fromPort = toPort ∧ fromPort ∈ onlyPorts)) (hsingle : fromPort = toPort) :
    Outside fromPort toPort onlyPorts :=
  ⟨fromPort, ⟨Int.le_refl _, hrange⟩, fun hmem => h ⟨hsingle, hmem⟩⟩

theorem not_outside_of_found (h : fromPort = toPort ∧ fromPort ∈ onlyPorts) :
    ¬ Outside fromPort toPort onlyPorts := by
  rintro ⟨port, ⟨hlow, hhigh⟩, hport⟩
  obtain ⟨rfl, hmem⟩ := h
  exact hport (Int.le_antisymm hlow hhigh ▸ hmem)

/-- **Only ports.**  A rule matches as documented if and only if its range is a single port or has
a port outside of `OnlyPorts` or none of the `Ports`, and an empty list of `Ports` stands beside a
covered range only. -/
theorem onlyPorts_meets_iff (hrange : fromPort ≤ toPort) (honly : d.onlyPorts = some onlyPorts)
    (hne : onlyPorts ≠ []) :
    Meets d fromPort toPort onlyPorts ↔
      (fromPort = toPort ∨ Outside fromPort toPort onlyPorts ∨
        ∃ ports, d.ports = some ports ∧ ports ≠ [] ∧
          ∀ port ∈ ports, ¬ InRange fromPort toPort port) ∧
      (d.ports = some [] → ¬ Outside fromPort toPort onlyPorts) := by
  have htrue : processPorts d ⟨some fromPort, some toPort⟩ = some true ↔ _ :=
    processPorts_eq_true_iff honly hne
  have hfalse : processPorts d ⟨some fromPort, some toPort⟩ = some false ↔
      ¬ processPorts d ⟨some fromPort, some toPort⟩ = some true := by
    rw [processPorts_eq honly hne]
    split <;> simp
  rw [meets_iff, hfalse, htrue]
  by_cases hfound : fromPort = toPort ∧ fromPort ∈ onlyPorts
  · have hcovered := not_outside_of_found hfound
    refine iff_of_true ⟨iff_of_false (fun h => h.1 hfound) fun h => hcovered h.1, ?_⟩
      ⟨Or.inl hfound.1, fun _ => hcovered⟩
    exact fun _ _ h => h.1 hfound
  · simp only [hfound, not_false_eq_true, true_and]
    by_cases houtside : Outside fromPort toPort onlyPorts
    · -- the rule is to match if one of the `Ports` is in its range
      simp only [houtside, true_and, not_true, false_imp_iff, implies_true, and_true, true_or,
        or_true, imp_false]
      cases hports : d.ports with
      | none => simp
      | some ports => cases ports <;> simp
    · -- the range has several ports, all of them in `OnlyPorts`
      have hseveral : fromPort ≠ toPort := fun h =>
        houtside (outside_of_single hrange hfound h)
      simp only [houtside, hseveral, false_and, iff_false, not_false_eq_true, true_imp_iff,
        false_or, implies_true, and_true]
      cases hports : d.ports with
      | none => simp
      | some ports => cases ports <;> simp

/-- `OnlyPorts: [22, 23]` -/
def sampleFilter : Data := ⟨none, some [22, 23]⟩

/-- A rule for two of the ports matches, though all its ports are listed. -/
theorem sampleFilter_covered :
    processPorts sampleFilter ⟨some 22, some 23⟩ = some true ∧
    ¬ Outside 22 23 [22, 23] ∧ ¬ Meets sampleFilter 22 23 [22, 23] := by
  have hcovered : ¬ Outside 22 23 [22, 23] := by
    rintro ⟨port, ⟨hlow, hhigh⟩, hport⟩
    simp only [List.mem_cons, List.not_mem_nil, or_false] at hport
    omega
  refine ⟨by decide, hcovered, fun h => ?_⟩
  have hfalse := h.covered rfl hcovered
  revert hfalse
  decide

/-- The condition at that rule. -/
theorem sampleFilter_meets_iff :
    Meets sampleFilter 22 23 [22, 23] ↔
      ((22 : Int) = 23 ∨ Outside 22 23 [22, 23] ∨
        ∃ ports, sampleFilter.ports = some ports ∧ ports ≠ [] ∧
          ∀ port ∈ ports, ¬ InRange 22 23 port) ∧
      (sampleFilter.ports = some [] → ¬ Outside 22 23 [22, 23]) :=
  onlyPorts_meets_iff (by decide) rfl (by decide)

end Custodian.SGPermission

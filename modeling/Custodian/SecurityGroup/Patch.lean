import Custodian.SecurityGroup.Diff
import Mathlib.Logic.Function.Basic

/-!
# Patching security groups

`SecurityGroupPatch` of `c7n/resources/vpc.py`: the calls that apply a difference,
and what the calls do to the groups of an account.
-/

namespace Custodian.Patch

open Py Custodian.Diff

/-! ## The calls -/

inductive Call where
  | deleteTags (group : Text) (keys : List Text)
  | createTags (group : Text) (tags : List (Text × Text))
  | revoke (type : Direction) (group : Text) (rules : List Rule)
  | authorize (type : Direction) (group : Text) (rules : List Rule)

/-- `d.items()` -/
def items (d : Option (Dict Text Text)) : List (Text × Text) :=
  (d.elim [] fun d => d.entries).map fun e => (e.1, e.2)

def processTags (group : SecurityGroup) (delta : TagDelta) : List Call :=
  let removed := delta.removed.elim [] fun d => [.deleteTags group.groupId d.keys]
  let tags := items delta.added ++ items delta.updated
  removed ++ if tags.isEmpty then [] else [.createTags group.groupId tags]

def processRules (type : Direction) (group : SecurityGroup) (delta : RuleDelta) : List Call :=
  delta.removed.elim [] (fun rules => [.revoke type group.groupId rules]) ++
    delta.added.elim [] fun rules => [.authorize type group.groupId rules]

def applyDelta (target : SecurityGroup) (changeSet : Delta) : List Call :=
  changeSet.tags.elim [] (processTags target) ++
    changeSet.ingress.elim [] (processRules .ingress target) ++
    changeSet.egress.elim [] (processRules .egress target)

/-! ## The account -/

/-- The protocol and the ports of a rule. -/
structure Slot where
  protocol : Option Text
  fromPort : Option Int
  toPort : Option Int
  deriving DecidableEq

/-- A prefix list, a group or an address range. -/
abbrev Source := RuleAttr × Text

def slot (rule : Rule) : Slot := ⟨rule.ipProtocol, rule.fromPort, rule.toPort⟩

/-- The sources that a rule lists. -/
def sources (rule : Rule) : Set Source :=
  {s | ∃ ke, (s.1, ke) ∈ ruleAttrs ∧ ∃ e ∈ (rule.attr s.1).getD [], e.lookup ke = some s.2}

/-- What a list of rules grants. -/
def grants (rules : List Rule) : Set (Slot × Source) :=
  {g | ∃ r ∈ rules, slot r = g.1 ∧ g.2 ∈ sources r}

/-- The tags of a group and what it grants in each direction. -/
@[ext]
structure Live where
  tags : Text → Option Text
  grants : Direction → Set (Slot × Source)

/-- The groups of an account by their id. -/
abbrev Account := Text → Live

/-- The group that a call is about. -/
def Call.group : Call → Text
  | .deleteTags g _ | .createTags g _ | .revoke _ g _ | .authorize _ g _ => g

/-- Deleting removes keys, creating sets them, revoking removes the listed grants and
authorizing adds them. -/
def Call.effect : Call → Live → Live
  | .deleteTags _ keys, l => { l with tags := fun k => if k ∈ keys then none else l.tags k }
  | .createTags _ tags, l =>
    { l with tags := fun k => ((Dict.ofPairs tags).lookup k).or (l.tags k) }
  | .revoke d _ rules, l =>
    { l with grants := Function.update l.grants d (l.grants d \ Patch.grants rules) }
  | .authorize d _ rules, l =>
    { l with grants := Function.update l.grants d (l.grants d ∪ Patch.grants rules) }

def Call.run (c : Call) (w : Account) : Account :=
  Function.update w c.group (c.effect (w c.group))

/-- The account after a list of calls. -/
def run (calls : List Call) (w : Account) : Account := calls.foldl (fun w c => c.run w) w

/-- A group after a list of calls about it. -/
def effects (calls : List Call) (l : Live) : Live := calls.foldl (fun l c => c.effect l) l

@[simp] theorem effects_nil (l : Live) : effects [] l = l := rfl

@[simp] theorem effects_cons (c : Call) (calls : List Call) (l : Live) :
    effects (c :: calls) l = effects calls (c.effect l) := rfl

@[simp] theorem effects_append (calls calls' : List Call) (l : Live) :
    effects (calls ++ calls') l = effects calls' (effects calls l) :=
  List.foldl_append

theorem run_eq_update {calls : List Call} {g : Text} (h : ∀ c ∈ calls, c.group = g) (w : Account) :
    run calls w = Function.update w g (effects calls (w g)) := by
  induction calls generalizing w with
  | nil => exact (Function.update_eq_self g w).symm
  | cons c calls ih =>
    have hc : c.group = g := h c List.mem_cons_self
    subst hc
    have hrun : run (c :: calls) w = run calls (c.run w) := rfl
    rw [hrun, ih fun c' hc' => h c' (List.mem_cons_of_mem c hc'), Call.run, effects_cons]
    simp

theorem mem_elim {α β : Type} {o : Option α} {f : α → List β} {b : β} :
    b ∈ o.elim [] f ↔ ∃ a, o = some a ∧ b ∈ f a := by
  cases o <;> simp

theorem group_applyDelta (target : SecurityGroup) (changeSet : Delta) :
    ∀ c ∈ applyDelta target changeSet, c.group = target.groupId := by
  have htags : ∀ delta, ∀ c ∈ processTags target delta, c.group = target.groupId := by
    intro delta c hc
    rcases List.mem_append.mp hc with hc | hc
    · obtain ⟨d, -, hc⟩ := mem_elim.mp hc
      rw [List.mem_singleton.mp hc, Call.group]
    · split at hc
      · cases hc
      · rw [List.mem_singleton.mp hc, Call.group]
  have hrules : ∀ d delta, ∀ c ∈ processRules d target delta, c.group = target.groupId := by
    intro d delta c hc
    rcases List.mem_append.mp hc with hc | hc
    · obtain ⟨rules, -, hc⟩ := mem_elim.mp hc
      rw [List.mem_singleton.mp hc, Call.group]
    · obtain ⟨rules, -, hc⟩ := mem_elim.mp hc
      rw [List.mem_singleton.mp hc, Call.group]
  intro c hc
  rw [applyDelta, List.mem_append, List.mem_append, mem_elim, mem_elim, mem_elim] at hc
  rcases hc with (⟨delta, -, hc⟩ | ⟨delta, -, hc⟩) | ⟨delta, -, hc⟩
  · exact htags delta c hc
  · exact hrules .ingress delta c hc
  · exact hrules .egress delta c hc

/-- The state that a version of a group describes. -/
def describe (group : SecurityGroup) : Live where
  tags k := match tagDict group with
    | .ok d => d.lookup k
    | .error _ => none
  grants d := grants (group.rules d)

end Custodian.Patch

import Custodian.Lib.AppendNew
import Custodian.Lib.Except
import Custodian.Lib.Text
import Custodian.SecurityGroup.Permission
import Mathlib.Data.Finmap

/-!
# Matched rules of a security group

The `ingress` and `egress` filters of `c7n/resources/vpc.py` split the rules of a group by their
sources and annotate the group with those that match; `remove-permissions` revokes them.
-/

namespace Custodian.MatchedRules

open Py

/-! ## Rules -/

/-- A source of a rule, a dictionary of texts: two are equal in whatever order. -/
abbrev Source := Finmap fun _ : Text => Text

/-- The lists of sources, in the order that they are split. -/
inductive SourceKey where
  | ipRanges
  | ipv6Ranges
  | prefixListIds
  | userIdGroupPairs
  deriving DecidableEq

def SourceKey.all : List SourceKey := [.ipRanges, .ipv6Ranges, .prefixListIds, .userIdGroupPairs]

structure Rule where
  ipProtocol : Option Text
  fromPort : Option Int
  toPort : Option Int
  ipRanges : Option (List Source)
  ipv6Ranges : Option (List Source)
  prefixListIds : Option (List Source)
  userIdGroupPairs : Option (List Source)
  deriving DecidableEq

namespace Rule

/-- `p.get(k, ())` -/
def get (p : Rule) : SourceKey → List Source
  | .ipRanges => p.ipRanges.getD []
  | .ipv6Ranges => p.ipv6Ranges.getD []
  | .prefixListIds => p.prefixListIds.getD []
  | .userIdGroupPairs => p.userIdGroupPairs.getD []

/-- `p[k] = v` -/
def set (p : Rule) (v : List Source) : SourceKey → Rule
  | .ipRanges => { p with ipRanges := some v }
  | .ipv6Ranges => { p with ipv6Ranges := some v }
  | .prefixListIds => { p with prefixListIds := some v }
  | .userIdGroupPairs => { p with userIdGroupPairs := some v }

/-- The rule with empty lists of sources. -/
def withoutSources (p : Rule) : Rule :=
  { p with ipRanges := some [], ipv6Ranges := some [], prefixListIds := some []
           userIdGroupPairs := some [] }

/-- The rules that a rule is split into. -/
def expand (p : Rule) : List Rule :=
  SourceKey.all.flatMap fun k => (p.get k).map fun e => p.withoutSources.set [e] k

end Rule

/-- `expand_permissions` -/
def expandPermissions (permissions : List Rule) : List Rule := permissions.flatMap Rule.expand

/-! ## Filters -/

inductive Direction where
  | ingress
  | egress
  deriving DecidableEq

/-- A security group as it is described, with its rules in both directions. -/
structure Group where
  groupId : Text
  ownerId : Text
  ipPermissions : List Rule
  ipPermissionsEgress : List Rule

/-- `resource[self.ip_permissions_key]` -/
def Group.permissions (g : Group) : Direction → List Rule
  | .ingress => g.ipPermissions
  | .egress => g.ipPermissionsEgress

/-- A group with the annotations `MatchedIpPermissions` and `MatchedIpPermissionsEgress`. -/
structure Resource where
  group : Group
  matched : Direction → Option (List Rule)

/-- A group that no filter has annotated. -/
def Group.fresh (g : Group) : Resource := ⟨g, fun _ => none⟩

inductive MatchOperator where
  | and
  | or
  deriving DecidableEq

/-- A value filter, which does not annotate what it looks at. -/
abbrev VFilter (α : Type) := α → Except Exn Bool

/-- An `ingress` or `egress` filter; its value filters are given by what they match. -/
structure Filter where
  matchOperator : MatchOperator
  vfilters : List (VFilter Rule)
  description : Option (VFilter Source)
  ports : SGPermission.Data
  cidr : Option (VFilter Source)
  cidrV6 : Option (VFilter Source)
  selfReference : Option Bool
  /-- The filter and `manager.get_resources`, for the ids of groups. -/
  sgReferences : Option (VFilter Group × (List Text → Except Exn (List Group)))

namespace Filter

variable (f : Filter)

/-- `match_op(values)`, that is `all` or `any` -/
def matchOp (values : List Bool) : Bool :=
  match f.matchOperator with
  | .and => values.all id
  | .or => values.any id

/-- The loop over the sources of a kind, which ends at the first one that matches. -/
def anyMatch {α : Type} (vf : VFilter α) : List α → Except Exn Bool
  | [] => .ok false
  | x :: xs => do if ← vf x then return true else anyMatch vf xs

/-- `_process_cidr` -/
def processCidr (vf : VFilter Source) (ipPerms : List Source) : Except Exn Bool :=
  anyMatch vf ipPerms

/-- `process_cidrs` -/
def processCidrs (perm : Rule) : Except Exn (Option Bool) := do
  let foundV6 ← f.cidrV6.mapM fun vf => processCidr vf (perm.get .ipv6Ranges)
  let foundV4 ← f.cidr.mapM fun vf => processCidr vf (perm.get .ipRanges)
  let cidrMatch := [foundV6, foundV4].reduceOption
  return if cidrMatch = [] then none else some (f.matchOp cidrMatch)

/-- `process_description`: the first source of the first kind that the rule has -/
def processDescription (perm : Rule) : Except Exn (Option Bool) :=
  f.description.mapM fun vf =>
    match (([.ipv6Ranges, .ipRanges, .userIdGroupPairs, .prefixListIds] : List SourceKey).flatMap
      perm.get).head? with
    | some source => vf source
    | none => .ok false

/-- `p['GroupId']` -/
def groupIdOf (p : Source) : Except Exn Text :=
  match p.lookup "GroupId".toList with
  | some id => .ok id
  | none => .error .keyError

/-- `process_self_reference` -/
def processSelfReference (perm : Rule) (sgId : Text) : Except Exn (Option Bool) :=
  f.selfReference.mapM fun refMatch => do
    let ids ← (perm.get .userIdGroupPairs).mapM groupIdOf
    return refMatch = decide (sgId ∈ ids)

/-- `process_sg_references` -/
def processSgReferences (perm : Rule) (ownerId : Text) : Except Exn (Option Bool) :=
  f.sgReferences.mapM fun sgRefs => do
    let sgPerm := perm.get .userIdGroupPairs
    if sgPerm = [] then return false
    let sgGroupIds ← (sgPerm.filter fun p =>
      (p.lookup "UserId".toList).getD [] = ownerId).mapM groupIdOf
    let sgResources ← sgRefs.2 sgGroupIds
    anyMatch sgRefs.1 sgResources

/-- `perm_match_values` -/
def permMatchValues (g : Group) (perm : Rule) : Except Exn (List Bool) := do
  let vfilters ← f.vfilters.mapM fun vf => vf perm
  let description ← f.processDescription perm
  let ports := SGPermission.processPorts f.ports ⟨perm.fromPort, perm.toPort⟩
  let cidrs ← f.processCidrs perm
  let selfRefs ← f.processSelfReference perm g.groupId
  let sgRefs ← f.processSgReferences perm g.ownerId
  return vfilters ++ [description, ports, cidrs, selfRefs, sgRefs].reduceOption

/-- Whether a rule of a group matches; one that nothing is asked of does not. -/
def matchesRule (g : Group) (perm : Rule) : Except Exn Bool := do
  let values ← f.permMatchValues g perm
  return values ≠ [] && f.matchOp values

/-- `matched`, for the split rules -/
def matchedRules (g : Group) (rules : List Rule) : Except Exn (List Rule) := do
  let found ← rules.mapM fun perm => do
    return if ← f.matchesRule g perm then [perm] else []
  return found.flatten

/-- `__call__`: the resource with its annotation, and whether it is kept -/
def call (direction : Direction) (r : Resource) : Except Exn (Resource × Bool) := do
  let matched ← f.matchedRules r.group (expandPermissions (r.group.permissions direction))
  if matched = [] then return (r, false)
  let annotation := appendNew ((r.matched direction).getD []) matched
  return ({ r with matched := Function.update r.matched direction (some annotation) }, true)

end Filter

/-- The filters that look at a group, one after the other. -/
def runFilters (filters : List (Direction × Filter)) (r : Resource) : Except Exn Resource :=
  filters.foldlM (fun r f => do return (← f.2.call f.1 r).1) r

/-! ## Revoking -/

/-- `ingress` and `egress` of `remove-permissions`; `other` is neither of the first nor a list. -/
inductive Perms where
  | matched
  | all
  | list (rules : List Rule)
  | other

/-- The data of `remove-permissions`; what is missing is `matched`. -/
structure RemoveData where
  ingress : Option Perms
  egress : Option Perms

def RemoveData.perms (d : RemoveData) : Direction → Perms
  | .ingress => d.ingress.getD .matched
  | .egress => d.egress.getD .matched

/-- A call of `revoke_security_group_ingress` or `revoke_security_group_egress`. -/
structure Revoke where
  direction : Direction
  groupId : Text
  ipPermissions : List Rule

/-- `groups`, or nothing for perms of another kind -/
def removedRules (r : Resource) (direction : Direction) : Perms → List Rule
  | .matched => (r.matched direction).getD []
  | .all => r.group.permissions direction
  | .list rules => rules
  | .other => []

/-- `RemovePermissions.process` -/
def removePermissions (d : RemoveData) (resources : List Resource) : List Revoke :=
  resources.flatMap fun r => [Direction.ingress, .egress].flatMap fun direction =>
    match removedRules r direction (d.perms direction) with
    | [] => []
    | groups => [⟨direction, r.group.groupId, groups⟩]

/-! ## What rules grant -/

/-- A protocol and ports that are granted to a source. -/
structure Grant where
  ipProtocol : Option Text
  fromPort : Option Int
  toPort : Option Int
  key : SourceKey
  source : Source
  deriving DecidableEq

/-- The sources of a rule, with their kinds. -/
def Rule.sources (p : Rule) : List (SourceKey × Source) :=
  SourceKey.all.flatMap fun k => (p.get k).map fun e => (k, e)

def Rule.grants (p : Rule) : List Grant :=
  p.sources.map fun e => ⟨p.ipProtocol, p.fromPort, p.toPort, e.1, e.2⟩

theorem sources_set (p : Rule) (k : SourceKey) (e : Source) :
    (p.withoutSources.set [e] k).sources = [(k, e)] := by
  cases k <;> rfl

theorem grants_set (p : Rule) (k : SourceKey) (e : Source) :
    (p.withoutSources.set [e] k).grants = [⟨p.ipProtocol, p.fromPort, p.toPort, k, e⟩] := by
  rw [Rule.grants, sources_set]
  cases k <;> rfl

theorem expand_eq (p : Rule) :
    p.expand = p.sources.map fun e => p.withoutSources.set [e.2] e.1 := by
  rw [Rule.expand, Rule.sources, List.map_flatMap]
  simp only [List.map_map, Function.comp_def]

theorem sources_expandPermissions {permissions : List Rule} {r : Rule}
    (h : r ∈ expandPermissions permissions) : ∃ e, r.sources = [e] := by
  obtain ⟨p, -, hr⟩ := List.mem_flatMap.mp h
  rw [expand_eq] at hr
  obtain ⟨e, -, rfl⟩ := List.mem_map.mp hr
  exact ⟨e, sources_set p e.1 e.2⟩

theorem grants_expand (p : Rule) : p.expand.flatMap Rule.grants = p.grants := by
  rw [expand_eq, List.flatMap_map, Rule.grants, List.map_eq_flatMap]
  simp only [grants_set]

theorem grants_expandPermissions (permissions : List Rule) :
    (expandPermissions permissions).flatMap Rule.grants = permissions.flatMap Rule.grants := by
  rw [expandPermissions, List.flatMap_assoc]
  simp only [grants_expand]

theorem expand_eq_nil_iff {p : Rule} : p.expand = [] ↔ p.sources = [] := by
  rw [expand_eq, List.map_eq_nil_iff]

/-! ## Annotations -/

variable {f : Filter} {direction : Direction} {filters : List (Direction × Filter)}

theorem mem_matchedRules {g : Group} {rules matched : List Rule}
    (h : f.matchedRules g rules = .ok matched) {r : Rule} :
    r ∈ matched ↔ r ∈ rules ∧ f.matchesRule g r = .ok true := by
  obtain ⟨found, hfound, hflat⟩ := bind_eq_ok.mp h
  cases pure_eq_ok.mp hflat
  clear h hflat
  rw [mapM_eq_ok] at hfound
  induction hfound with
  | nil => simp
  | @cons perm out rules found hperm _ ih =>
    obtain ⟨b, hb, hout⟩ := bind_eq_ok.mp hperm
    cases pure_eq_ok.mp hout
    rw [List.flatten_cons, List.mem_append, ih, List.mem_cons]
    cases b with
    | true =>
      rw [if_pos rfl, List.mem_singleton]
      constructor
      · rintro (rfl | h)
        · exact ⟨Or.inl rfl, hb⟩
        · exact ⟨Or.inr h.1, h.2⟩
      · exact fun h => h.1.imp_right fun hr => ⟨hr, h.2⟩
    | false =>
      rw [if_neg Bool.false_ne_true]
      simp only [List.not_mem_nil, false_or]
      constructor
      · exact fun h => ⟨Or.inr h.1, h.2⟩
      · rintro ⟨rfl | hr, h⟩
        · rw [hb] at h
          cases h
        · exact ⟨hr, h⟩

/-- The split rules of a group in one direction that a filter for it matches. -/
def Matched (g : Group) (filters : List (Direction × Filter)) (direction : Direction) (r : Rule) :
    Prop :=
  r ∈ expandPermissions (g.permissions direction) ∧
    ∃ f ∈ filters, f.1 = direction ∧ f.2.matchesRule g r = .ok true

/-- The annotations are the matched rules, once each. -/
structure Annotated (g : Group) (filters : List (Direction × Filter)) (r : Resource) : Prop where
  group : r.group = g
  nodup : ∀ direction, ((r.matched direction).getD []).Nodup
  mem : ∀ direction rule, rule ∈ (r.matched direction).getD [] ↔ Matched g filters direction rule

theorem annotated_fresh (g : Group) : Annotated g [] g.fresh where
  group := rfl
  nodup _ := List.nodup_nil
  mem _ _ := by simp [Group.fresh, Matched]

theorem matched_concat {g : Group} {d : Direction} {rule : Rule} :
    Matched g (filters ++ [(direction, f)]) d rule ↔ Matched g filters d rule ∨
      direction = d ∧ rule ∈ expandPermissions (g.permissions d) ∧
        f.matchesRule g rule = .ok true := by
  simp only [Matched, List.mem_append, List.mem_singleton, or_and_right, exists_or,
    exists_eq_left, and_or_left]
  exact or_congr_right and_left_comm

theorem call_annotated {g : Group} {r r' : Resource} {kept : Bool} (hr : Annotated g filters r)
    (h : f.call direction r = .ok (r', kept)) : Annotated g (filters ++ [(direction, f)]) r' := by
  obtain ⟨matched, hmatched, h⟩ := bind_eq_ok.mp h
  rw [hr.group] at hmatched
  have hnew : ∀ rule, rule ∈ expandPermissions (g.permissions direction) ∧
      f.matchesRule g rule = .ok true ↔ rule ∈ matched := fun rule =>
    (mem_matchedRules hmatched).symm
  split at h
  · next hnil =>
    -- nothing matches, and the resource is as it was
    cases h
    refine ⟨hr.group, hr.nodup, fun d rule => ?_⟩
    rw [hr.mem, matched_concat, or_iff_left]
    rintro ⟨rfl, hrule⟩
    rw [hnew, hnil] at hrule
    exact List.not_mem_nil hrule
  · cases h
    refine ⟨hr.group, fun d => ?_, fun d rule => ?_⟩
    · by_cases hd : d = direction
      · subst hd
        simpa using nodup_appendNew (hr.nodup d) matched
      · simpa [Function.update_of_ne hd] using hr.nodup d
    · rw [matched_concat, ← hr.mem]
      by_cases hd : d = direction
      · subst hd
        simp [mem_appendNew, hnew]
      · simp [Function.update_of_ne hd, Ne.symm hd]

theorem runFilters_annotated {g : Group} {before : List (Direction × Filter)} {r r' : Resource}
    (hr : Annotated g before r) (h : runFilters filters r = .ok r') :
    Annotated g (before ++ filters) r' := by
  induction filters generalizing before r with
  | nil =>
    cases h
    rwa [List.append_nil]
  | cons f filters ih =>
    rw [runFilters, List.foldlM_cons] at h
    obtain ⟨r₁, hr₁, h⟩ := bind_eq_ok.mp h
    obtain ⟨⟨_, kept⟩, hcall, hfst⟩ := bind_eq_ok.mp hr₁
    cases pure_eq_ok.mp hfst
    have hstep := ih (call_annotated hr hcall) h
    rwa [List.append_assoc] at hstep

theorem runFilters_matched {g : Group} {r : Resource} (h : runFilters filters g.fresh = .ok r) :
    Annotated g filters r := runFilters_annotated (annotated_fresh g) h

/-! ## Revoking -/

theorem mem_removePermissions {d : RemoveData} {resources : List Resource} {c : Revoke}
    (h : c ∈ removePermissions d resources) (hd : d.perms c.direction = .matched) :
    ∃ r ∈ resources, c.groupId = r.group.groupId ∧
      c.ipPermissions = (r.matched c.direction).getD [] := by
  obtain ⟨r, hr, h⟩ := List.mem_flatMap.mp h
  obtain ⟨direction, -, h⟩ := List.mem_flatMap.mp h
  split at h
  · cases h
  · cases List.mem_singleton.mp h
    refine ⟨r, hr, rfl, ?_⟩
    rw [hd]
    rfl

/-- **Matched rules.**  Split rules have one source each and grant what the rules of the group
do; after any filters the annotation of a direction is the split rules that one of them matches,
once each; and only these are revoked as matched rules. -/
theorem matched_rules (runs : List ((Group × List (Direction × Filter)) × Resource))
    (hruns : ∀ x ∈ runs, runFilters x.1.2 x.1.1.fresh = .ok x.2) :
    (∀ permissions : List Rule, (∀ r ∈ expandPermissions permissions, ∃ e, r.sources = [e]) ∧
      (expandPermissions permissions).flatMap Rule.grants = permissions.flatMap Rule.grants ∧
      ∀ p : Rule, p.sources = [] → p.expand = []) ∧
    (∀ x ∈ runs, ∀ direction, ((x.2.matched direction).getD []).Nodup ∧
      ∀ rule, rule ∈ (x.2.matched direction).getD [] ↔ Matched x.1.1 x.1.2 direction rule) ∧
    ∀ (d : RemoveData), ∀ c ∈ removePermissions d (runs.map Prod.snd),
      d.perms c.direction = .matched → ∃ x ∈ runs, c.groupId = x.1.1.groupId ∧
        ∀ rule ∈ c.ipPermissions, Matched x.1.1 x.1.2 c.direction rule := by
  have hann : ∀ x ∈ runs, Annotated x.1.1 x.1.2 x.2 := fun x hx => runFilters_matched (hruns x hx)
  refine ⟨fun permissions => ⟨fun r => sources_expandPermissions,
    grants_expandPermissions permissions, fun p => expand_eq_nil_iff.mpr⟩, ?_, ?_⟩
  · exact fun x hx direction => ⟨(hann x hx).nodup direction, (hann x hx).mem direction⟩
  · intro d c hc hd
    obtain ⟨r, hr, hid, hrules⟩ := mem_removePermissions hc hd
    obtain ⟨x, hx, rfl⟩ := List.mem_map.mp hr
    rw [(hann x hx).group] at hid
    refine ⟨x, hx, hid, fun rule hrule => ?_⟩
    rw [hrules] at hrule
    exact ((hann x hx).mem _ rule).mp hrule

/-- SSH from everywhere -/
def sshRule : Rule where
  ipProtocol := some "tcp".toList
  fromPort := some 22
  toPort := some 22
  ipRanges := some [[⟨"CidrIp".toList, "0.0.0.0/0".toList⟩].toFinmap]
  ipv6Ranges := some [[⟨"CidrIpv6".toList, "::/0".toList⟩].toFinmap]
  prefixListIds := none
  userIdGroupPairs := none

def sshGroup : Group := ⟨"sg-1".toList, "123456789012".toList, [sshRule], []⟩

/-- `Ports: [22]` -/
def sshFilter : Filter where
  matchOperator := .and
  vfilters := []
  description := none
  ports := ⟨some [22], none⟩
  cidr := none
  cidrV6 := none
  selfReference := none
  sgReferences := none

def sshResource : Resource :=
  ⟨sshGroup, Function.update (fun _ => none) .ingress (some sshRule.expand)⟩

/-- Both split rules are annotated. -/
theorem matched_rules_ssh :
    ((sshResource.matched .ingress).getD []).Nodup ∧ ∀ rule,
      rule ∈ (sshResource.matched .ingress).getD [] ↔
        Matched sshGroup [(.ingress, sshFilter)] .ingress rule :=
  (matched_rules [((sshGroup, [(.ingress, sshFilter)]), sshResource)] (by
    intro x hx
    cases List.mem_singleton.mp hx
    rfl)).2.1 _ (List.mem_singleton_self _) .ingress

end Custodian.MatchedRules

import Custodian.Lib.Crc32
import Custodian.Lib.Dict
import Custodian.Lib.Except
import Custodian.Lib.SortedSet
import Mathlib.Data.List.Sort

/-!
# Differences of security groups

`SecurityGroupDiff` of `c7n/resources/vpc.py`: the tags and the rules in which two
versions of a security group differ.  A rule is known by the checksum of its ports,
its protocol and its sorted sources.
-/

namespace Custodian.Diff

open Py

/-- A JSON object whose values are texts. -/
abbrev Record := Dict Text Text

/-- `d[k]` -/
def item (k : Text) (d : Record) : Except Exn Text :=
  match d.lookup k with
  | some v => .ok v
  | none => .error .keyError

/-- The lists of sources of a rule. -/
inductive RuleAttr where
  | prefixListIds
  | userIdGroupPairs
  | ipRanges
  | ipv6Ranges
  deriving DecidableEq, Repr

structure Rule where
  ipProtocol : Option Text := none
  fromPort : Option Int := none
  toPort : Option Int := none
  prefixListIds : Option (List Record) := none
  userIdGroupPairs : Option (List Record) := none
  ipRanges : Option (List Record) := none
  ipv6Ranges : Option (List Record) := none

/-- `rule.get(a)` -/
def Rule.attr (rule : Rule) : RuleAttr → Option (List Record)
  | .prefixListIds => rule.prefixListIds
  | .userIdGroupPairs => rule.userIdGroupPairs
  | .ipRanges => rule.ipRanges
  | .ipv6Ranges => rule.ipv6Ranges

/-- `RULE_ATTRS`: the lists of sources and the key of the source in their entries. -/
def ruleAttrs : List (RuleAttr × Text) :=
  [(.prefixListIds, "PrefixListId".toList),
   (.userIdGroupPairs, "GroupId".toList),
   (.ipRanges, "CidrIp".toList),
   (.ipv6Ranges, "CidrIpv6".toList)]

inductive Direction where
  | ingress
  | egress
  deriving DecidableEq, Repr

structure SecurityGroup where
  groupId : Text
  tags : Option (List Record) := none
  ipPermissions : Option (List Rule) := none
  ipPermissionsEgress : Option (List Rule) := none

/-- `group.get(key, ())` for the key of a direction. -/
def SecurityGroup.rules (group : SecurityGroup) : Direction → List Rule
  | .ingress => group.ipPermissions.getD []
  | .egress => group.ipPermissionsEgress.getD []

/-! ## Rules -/

/-- `"%d" % n` -/
def decimal : Int → Text
  | .ofNat n => Nat.toDigits 10 n
  | .negSucc n => '-' :: Nat.toDigits 10 (n + 1)

/-- `rule.get('IpProtocol', '-1') or '-1'` -/
def protocolText (protocol : Option Text) : Text :=
  match protocol with
  | none | some [] => "-1".toList
  | some p => p

/-- `s <= t` -/
def atMost (s t : Text) : Prop := Text.lt t s = false

instance : DecidableRel atMost := fun s t => inferInstanceAs (Decidable (Text.lt t s = false))

/-- The sources of one list, sorted, each followed by a dash. -/
def sourcesText (entries : Option (List Record)) (ke : Text) : Except Exn Text :=
  match entries with
  | none => .ok []
  | some es => do
    let ev ← es.mapM (item ke)
    return (ev.insertionSort atMost).flatMap fun e => e ++ ['-']

/-- `buf.encode('ascii')` -/
def encodeAscii (buf : Text) : Except Exn (List UInt8) :=
  buf.mapM fun c =>
    if c.toNat < 128 then .ok c.toUInt8 else .error (.raised "UnicodeEncodeError".toList)

/-- The text that is checksummed. -/
def ruleText (rule : Rule) : Except Exn Text := do
  let parts ← ruleAttrs.mapM fun a => sourcesText (rule.attr a.1) a.2
  return decimal (rule.fromPort.getD 0) ++ '-' :: decimal (rule.toPort.getD 0) ++
    '-' :: protocolText rule.ipProtocol ++ '-' :: parts.flatten

def computeRuleHash (rule : Rule) : Except Exn Nat := do
  let buf ← ruleText rule
  let data ← encodeAscii buf
  return crc32 data &&& 0xffffffff

/-- `{self.compute_rule_hash(r): r for r in rules}` -/
def rulesByHash (rules : List Rule) : Except Exn (Dict Nat Rule) := do
  let pairs ← rules.mapM fun r => do
    let h ← computeRuleHash r
    return (h, r)
  return Dict.ofPairs pairs

structure RuleDelta where
  removed : Option (List Rule)
  added : Option (List Rule)

/-- `if v` for a list. -/
def filled {α : Type} (l : List α) : Option (List α) := if l.isEmpty then none else some l

/-- The rules of `d` under the hashes that `e` does not have, by increasing hash. -/
def rulesOnlyIn (d e : Dict Nat Rule) : List Rule :=
  ((d.keys.filter fun h => h ∉ e).insertionSort (· ≤ ·)).filterMap fun rid => d.lookup rid

/-- `get_rule_delta`; nothing when it is empty. -/
def getRuleDelta (key : Direction) (source target : SecurityGroup) :
    Except Exn (Option RuleDelta) := do
  let sourceRules ← rulesByHash (source.rules key)
  let targetRules ← rulesByHash (target.rules key)
  let removed := filled (rulesOnlyIn sourceRules targetRules)
  let added := filled (rulesOnlyIn targetRules sourceRules)
  return if removed.isNone && added.isNone then none else some ⟨removed, added⟩

/-! ## Tags -/

/-- `{t['Key']: t['Value'] for t in group.get('Tags', ())}` -/
def tagDict (group : SecurityGroup) : Except Exn (Dict Text Text) := do
  let pairs ← (group.tags.getD []).mapM fun t => do
    let k ← item "Key".toList t
    let v ← item "Value".toList t
    return (k, v)
  return Dict.ofPairs pairs

structure TagDelta where
  added : Option (Dict Text Text)
  removed : Option (Dict Text Text)
  updated : Option (Dict Text Text)

/-- `if v` for a dictionary. -/
def filledDict (d : Dict Text Text) : Option (Dict Text Text) :=
  if d.entries.isEmpty then none else some d

/-- `get_tag_delta`; nothing when it is empty. -/
def getTagDelta (source target : SecurityGroup) : Except Exn (Option TagDelta) := do
  let sourceTags ← tagDict source
  let targetTags ← tagDict target
  let added := filledDict (targetTags.keepKeys fun k => k ∉ sourceTags)
  let removed := filledDict (sourceTags.keepKeys fun k => k ∉ targetTags)
  let updated := filledDict (targetTags.keepKeys fun k =>
    k ∈ sourceTags ∧ sourceTags.lookup k ≠ targetTags.lookup k)
  return if added.isNone && removed.isNone && updated.isNone then none
    else some ⟨added, removed, updated⟩

/-! ## The difference -/

structure Delta where
  tags : Option TagDelta
  ingress : Option RuleDelta
  egress : Option RuleDelta

/-- The changes from `source` to `target`; nothing when there are none. -/
def diff (source target : SecurityGroup) : Except Exn (Option Delta) := do
  let tags ← getTagDelta source target
  let ingress ← getRuleDelta .ingress source target
  let egress ← getRuleDelta .egress source target
  return if tags.isNone && ingress.isNone && egress.isNone then none
    else some ⟨tags, ingress, egress⟩

end Custodian.Diff

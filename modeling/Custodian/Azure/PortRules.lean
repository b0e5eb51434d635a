import Custodian.Azure.PortRanges
import Mathlib.Data.List.Sort
import Mathlib.Data.Int.Order.Basic

/-!
# The map of ports to rules

`build_ports_rules_dict` of `c7n_azure/utils.py`, which the ingress and egress filters of network
security groups ask for the access of every port and the rules that decide it.
-/

namespace Custodian.PortRules

open Py PortsRangeHelper

/-! ## Rules -/

/-- The properties of a security rule and its id. -/
structure Properties where
  id : Text
  priority : Int
  direction : Text
  protocol : Text
  access : Text
  sourceAddressPrefix : Option Text
  sourceAddressPrefixes : Option (List Text)
  destinationAddressPrefix : Option Text
  destinationAddressPrefixes : Option (List Text)
  destinationPortRange : Option Text
  destinationPortRanges : Option (List Text)

/-- A rule has one of the two keys for ports, and its texts denote ranges. -/
structure SecurityRule extends Properties where
  some_ports : (destinationPortRange.filter (· ≠ [])).isSome ∨ destinationPortRanges.isSome
  ports : ∀ s ∈ portTexts destinationPortRange destinationPortRanges, ∃ r, IsPortRange s r

/-- A network security group, whose rules have distinct priorities. -/
structure Group where
  securityRules : List SecurityRule
  distinct : (securityRules.map fun r => r.priority).Nodup

/-- What the filter asks for. -/
structure Selector where
  directionKey : Text
  ipProtocol : Text
  sourceAddress : Option Text
  destinationAddress : Option Text

/-- What the map holds for a port. -/
structure PortInfo where
  allowed : Bool
  byRules : List Text
  deriving DecidableEq

/-! ## The map -/

variable (t : CaseTable)

/-- `StringUtils.equal` -/
def equal (a b : Text) : Bool := t.lower (strip a) = t.lower (strip b)

/-- `check_address`; a text is looked for in `None` with a `TypeError`. -/
def checkAddress (targetAddress : Option Text) (addressSet : Option (List Text))
    (address : Option Text) : Except Exn Bool :=
  match targetAddress.filter (· ≠ []) with
  | none => .ok true
  | some target =>
    match addressSet with
    | none => .error .typeError
    | some addresses => .ok (target ∈ addresses || some target = address)

/-- `get_ports_set_from_rule` -/
def getPortsSetFromRule (rule : SecurityRule) : Except Exn (List Nat) := do
  let ranges ← getRulePortRanges rule.destinationPortRange rule.destinationPortRanges
  pure (portRangesToSet ranges)

/-- The entry of one port after a rule for it. -/
def addPort (isAllowed : Bool) (id : Text) : Option PortInfo → PortInfo
  | none => ⟨isAllowed, [id]⟩
  | some info =>
    -- one of the previous rules overrides this one
    if isAllowed ≠ info.allowed then info else ⟨info.allowed, info.byRules.insert id⟩

/-- The rule is not skipped for its direction or its protocol. -/
def concerns (sel : Selector) (rule : SecurityRule) : Bool :=
  equal t sel.directionKey rule.direction &&
    (equal t rule.protocol "*" || equal t sel.ipProtocol "*" ||
      equal t rule.protocol sel.ipProtocol)

/-- One rule of `build_ports_rules_dict`. -/
def addRule (sel : Selector) (ports : Nat → Option PortInfo) (rule : SecurityRule) :
    Except Exn (Nat → Option PortInfo) :=
  if !concerns t sel rule then .ok ports
  else do
    let source ← checkAddress sel.sourceAddress rule.sourceAddressPrefixes rule.sourceAddressPrefix
    if !source then pure ports
    else do
      let destination ← checkAddress sel.destinationAddress rule.destinationAddressPrefixes
        rule.destinationAddressPrefix
      if !destination then pure ports
      else do
        let portsSet ← getPortsSetFromRule rule
        pure fun p =>
          if p ∈ portsSet then some (addPort (equal t rule.access "allow") rule.id (ports p))
          else ports p

/-- `sorted(rules, key=lambda k: k['properties']['priority'])` -/
def sortRules (rules : List SecurityRule) : List SecurityRule :=
  rules.insertionSort fun r r' => r.priority ≤ r'.priority

/-- `build_ports_rules_dict` -/
def buildPortsRulesDict (sel : Selector) (rules : List SecurityRule) :
    Except Exn (Nat → Option PortInfo) :=
  (sortRules rules).foldlM (addRule t sel) fun _ => none

/-! ## First-match evaluation -/

/-- The selector gives no address, or one that the rule names. -/
def AddressMatches (targetAddress : Option Text) (addressSet : Option (List Text))
    (address : Option Text) : Prop :=
  ∀ target ∈ targetAddress.filter (· ≠ []), target ∈ addressSet.getD [] ∨ some target = address

instance (targetAddress : Option Text) (addressSet : Option (List Text)) (address : Option Text) :
    Decidable (AddressMatches targetAddress addressSet address) :=
  Option.decidableForallMem _

/-- The rule has the direction, and its protocol and addresses match. -/
def Applicable (sel : Selector) (rule : SecurityRule) : Prop :=
  concerns t sel rule ∧
    AddressMatches sel.sourceAddress rule.sourceAddressPrefixes rule.sourceAddressPrefix ∧
    AddressMatches sel.destinationAddress rule.destinationAddressPrefixes
      rule.destinationAddressPrefix

def Covers (rule : SecurityRule) (p : Nat) : Prop :=
  ∃ s ∈ portTexts rule.destinationPortRange rule.destinationPortRanges, Spans s p

/-- The rule allows access. -/
def allows (rule : SecurityRule) : Bool := equal t rule.access "allow"

/-- The map gives a port the access of the first rule for it, and names the rules that agree. -/
structure FirstMatch (sel : Selector) (rules : List SecurityRule)
    (ports : Nat → Option PortInfo) : Prop where
  mapped : ∀ p, (∃ info, ports p = some info) ↔ ∃ r ∈ rules, Applicable t sel r ∧ Covers r p
  allowed : ∀ p info, ports p = some info → ∃ r ∈ rules, Applicable t sel r ∧ Covers r p ∧
    (∀ r' ∈ rules, Applicable t sel r' → Covers r' p → r.priority ≤ r'.priority) ∧
    info.allowed = allows t r
  byRules : ∀ p info, ports p = some info → ∀ id, id ∈ info.byRules ↔
    ∃ r ∈ rules, Applicable t sel r ∧ Covers r p ∧ allows t r = info.allowed ∧ r.id = id

/-- The map is made, by first-match evaluation, and in any order of the rules. -/
def Meets (sel : Selector) (nsg : Group) : Prop :=
  ∃ ports, buildPortsRulesDict t sel nsg.securityRules = .ok ports ∧
    FirstMatch t sel nsg.securityRules ports ∧
    ∀ rules, rules.Perm nsg.securityRules → buildPortsRulesDict t sel rules = .ok ports

/-- The rule has a list of prefixes for each address that it is checked for. -/
def HasLists (sel : Selector) (rule : SecurityRule) : Prop :=
  concerns t sel rule →
    (sel.sourceAddress.filter (· ≠ []) ≠ none → rule.sourceAddressPrefixes ≠ none) ∧
    (AddressMatches sel.sourceAddress rule.sourceAddressPrefixes rule.sourceAddressPrefix →
      sel.destinationAddress.filter (· ≠ []) ≠ none → rule.destinationAddressPrefixes ≠ none)

/-! ## One rule -/

theorem checkAddress_eq_ok {targetAddress address : Option Text} {addressSet : Option (List Text)}
    {b : Bool} : checkAddress targetAddress addressSet address = .ok b ↔
      (targetAddress.filter (· ≠ []) ≠ none → addressSet ≠ none) ∧
        (b = true ↔ AddressMatches targetAddress addressSet address) := by
  rw [checkAddress, AddressMatches]
  cases targetAddress.filter (· ≠ []) with
  | none => simp [eq_comm]
  | some target =>
    cases addressSet with
    | none => simp
    | some addresses => cases b <;> simp

theorem bind_checkAddress {β : Type} {targetAddress address : Option Text}
    {addressSet : Option (List Text)} {f : Bool → Except Exn β} {b : β} :
    (checkAddress targetAddress addressSet address >>= f) = .ok b ↔
      (targetAddress.filter (· ≠ []) ≠ none → addressSet ≠ none) ∧
        f (decide (AddressMatches targetAddress addressSet address)) = .ok b := by
  simp only [bind_eq_ok, checkAddress_eq_ok]
  constructor
  · rintro ⟨c, ⟨hlist, hc⟩, hf⟩
    refine ⟨hlist, ?_⟩
    rwa [Bool.eq_iff_iff.mpr (hc.trans decide_eq_true_iff.symm)] at hf
  · rintro ⟨hlist, hf⟩
    exact ⟨_, ⟨hlist, decide_eq_true_iff⟩, hf⟩

open Classical in
/-- What the rule makes of the entry of a port. -/
noncomputable def added (sel : Selector) (ports : Nat → Option PortInfo) (rule : SecurityRule) :
    Nat → Option PortInfo := fun p =>
  if Applicable t sel rule ∧ Covers rule p then
    some (addPort (allows t rule) rule.id (ports p))
  else ports p

variable {t}

theorem getPortsSetFromRule_eq (rule : SecurityRule) :
    ∃ ports, getPortsSetFromRule rule = .ok ports ∧ ∀ p, p ∈ ports ↔ Covers rule p := by
  obtain ⟨ranges, hranges, hmem⟩ := exists_getRulePortRanges rule.some_ports rule.ports
  exact ⟨portRangesToSet ranges, by rw [getPortsSetFromRule, hranges]; rfl, hmem⟩

theorem addRule_eq_ok (sel : Selector) (ports : Nat → Option PortInfo) (rule : SecurityRule)
    (ports' : Nat → Option PortInfo) :
    addRule t sel ports rule = .ok ports' ↔
      HasLists t sel rule ∧ ports' = added t sel ports rule := by
  have hskip : ¬Applicable t sel rule → added t sel ports rule = ports := fun h =>
    funext fun p => if_neg fun hp => h hp.1
  have hflip : ∀ {x : Nat → Option PortInfo}, (pure x : Except Exn _) = .ok ports' ↔ ports' = x :=
    pure_eq_ok.trans eq_comm
  rw [addRule, HasLists]
  by_cases hc : concerns t sel rule
  swap
  · rw [hskip fun h => hc h.1]
    simp [hc, eq_comm]
  rw [if_neg (by simp [hc]), bind_checkAddress, forall_prop_of_true hc, and_assoc]
  refine and_congr_right fun _ => ?_
  by_cases hsource : AddressMatches sel.sourceAddress rule.sourceAddressPrefixes
    rule.sourceAddressPrefix
  swap
  · rw [hskip fun h => hsource h.2.1]
    simp [hsource, hflip]
  rw [decide_eq_true hsource, if_neg (by simp), bind_checkAddress, forall_prop_of_true hsource]
  refine and_congr_right fun _ => ?_
  by_cases hdest : AddressMatches sel.destinationAddress rule.destinationAddressPrefixes
    rule.destinationAddressPrefix
  swap
  · rw [hskip fun h => hdest h.2.2]
    simp [hdest, hflip]
  obtain ⟨portsSet, hset, hmem⟩ := getPortsSetFromRule_eq rule
  have happ : Applicable t sel rule := ⟨hc, hsource, hdest⟩
  rw [decide_eq_true hdest, if_neg (by simp), hset, ok_bind, hflip]
  refine Eq.congr_right (funext fun p => ?_)
  have hp : p ∈ portsSet ↔ Applicable t sel rule ∧ Covers rule p :=
    (hmem p).trans (and_iff_right happ).symm
  rw [added, allows]
  split <;> rename_i h <;> simp [hp.symm, h]

/-! ## All rules -/

theorem addPort_byRules {isAllowed : Bool} {id id' : Text} {info : PortInfo} :
    id' ∈ (addPort isAllowed id (some info)).byRules ↔
      (isAllowed = info.allowed ∧ id' = id) ∨ id' ∈ info.byRules := by
  rw [addPort]
  split
  · rename_i hne
    simp [hne]
  · rename_i heq
    simp [not_not.mp heq, List.mem_insert_iff]

theorem addPort_allowed (isAllowed : Bool) (id : Text) (info : PortInfo) :
    (addPort isAllowed id (some info)).allowed = info.allowed := by
  rw [addPort]
  split <;> rfl

theorem foldl_addPort_some (rules : List SecurityRule) (info : PortInfo) :
    ∃ info', rules.foldl (fun o r => some (addPort (allows t r) r.id o)) (some info) = some info' ∧
      info'.allowed = info.allowed ∧
      ∀ id, id ∈ info'.byRules ↔
        id ∈ info.byRules ∨ ∃ r ∈ rules, allows t r = info.allowed ∧ r.id = id := by
  induction rules generalizing info with
  | nil => exact ⟨info, rfl, rfl, by simp⟩
  | cons r rules ih =>
    obtain ⟨info', hfold, hallowed, hby⟩ := ih (addPort (allows t r) r.id (some info))
    rw [addPort_allowed] at hallowed hby
    refine ⟨info', hfold, hallowed, fun id => ?_⟩
    rw [hby, addPort_byRules, List.exists_mem_cons_iff]
    tauto

/-- **The first rule decides.**  What a port gets from the rules for it, in their order. -/
theorem foldl_addPort (r : SecurityRule) (rules : List SecurityRule) :
    ∃ info, (r :: rules).foldl (fun o r => some (addPort (allows t r) r.id o)) none = some info ∧
      info.allowed = allows t r ∧
      ∀ id, id ∈ info.byRules ↔ ∃ r' ∈ r :: rules, allows t r' = info.allowed ∧ r'.id = id := by
  obtain ⟨info, hfold, hallowed, hby⟩ := foldl_addPort_some (t := t) rules ⟨allows t r, [r.id]⟩
  refine ⟨info, hfold, hallowed, fun id => ?_⟩
  rw [hby, hallowed, List.exists_mem_cons_iff, List.mem_singleton]
  simp [eq_comm]

open Classical in
theorem foldl_added (sel : Selector) (rules : List SecurityRule) (ports : Nat → Option PortInfo)
    (p : Nat) : rules.foldl (added t sel) ports p =
      (rules.filter fun r => Applicable t sel r ∧ Covers r p).foldl
        (fun o r => some (addPort (allows t r) r.id o)) (ports p) := by
  induction rules generalizing ports with
  | nil => rfl
  | cons r rules ih =>
    rw [List.foldl_cons, ih, List.filter_cons, added]
    by_cases hr : Applicable t sel r ∧ Covers r p <;> simp [hr]

/-! ## The order of the rules -/

theorem mem_sortRules {rules : List SecurityRule} {r : SecurityRule} :
    r ∈ sortRules rules ↔ r ∈ rules := List.mem_insertionSort _

theorem pairwise_sortRules (rules : List SecurityRule) :
    (sortRules rules).Pairwise fun r r' => r.priority ≤ r'.priority :=
  List.pairwise_insertionSort _ _

theorem sortRules_eq_of_perm {rules rules' : List SecurityRule} (h : rules.Perm rules')
    (hd : (rules'.map fun r => r.priority).Nodup) : sortRules rules = sortRules rules' := by
  refine List.Perm.eq_of_pairwise (fun r r' hr hr' hle hle' => ?_) (pairwise_sortRules rules)
    (pairwise_sortRules rules') ?_
  · have hmem : r ∈ rules' := h.mem_iff.mp (mem_sortRules.mp hr)
    exact List.inj_on_of_nodup_map hd hmem (mem_sortRules.mp hr') (le_antisymm hle hle')
  · exact (List.perm_insertionSort _ rules).trans (h.trans (List.perm_insertionSort _ rules').symm)

theorem foldl_added_port (sel : Selector) (rules : List SecurityRule) (p : Nat) :
    ((sortRules rules).foldl (added t sel) (fun _ => none) p = none ∧
      ∀ r ∈ rules, ¬(Applicable t sel r ∧ Covers r p)) ∨
    ∃ r info, (sortRules rules).foldl (added t sel) (fun _ => none) p = some info ∧
      r ∈ rules ∧ (Applicable t sel r ∧ Covers r p) ∧
      (∀ r' ∈ rules, Applicable t sel r' ∧ Covers r' p → r.priority ≤ r'.priority) ∧
      info.allowed = allows t r ∧ ∀ id, id ∈ info.byRules ↔
        ∃ r' ∈ rules, (Applicable t sel r' ∧ Covers r' p) ∧ allows t r' = info.allowed ∧
          r'.id = id := by
  classical
  have hmem : ∀ r, r ∈ (sortRules rules).filter (fun r => Applicable t sel r ∧ Covers r p) ↔
      r ∈ rules ∧ Applicable t sel r ∧ Covers r p := by
    intro r
    rw [List.mem_filter, mem_sortRules, decide_eq_true_eq]
  have hsorted : ((sortRules rules).filter fun r => Applicable t sel r ∧ Covers r p).Pairwise
      fun r r' => r.priority ≤ r'.priority := (pairwise_sortRules rules).filter _
  rw [foldl_added]
  cases hrules : (sortRules rules).filter fun r => Applicable t sel r ∧ Covers r p with
  | nil =>
    rw [hrules] at hmem
    exact .inl ⟨rfl, fun r hr hp => List.not_mem_nil ((hmem r).mpr ⟨hr, hp⟩)⟩
  | cons r rest =>
    rw [hrules] at hmem hsorted
    obtain ⟨info, hfold, hallowed, hby⟩ := foldl_addPort (t := t) r rest
    obtain ⟨hr, hp⟩ := (hmem r).mp List.mem_cons_self
    refine .inr ⟨r, info, hfold, hr, hp, fun r' hr' hp' => ?_, hallowed, fun id => ?_⟩
    · rcases List.mem_cons.mp ((hmem r').mpr ⟨hr', hp'⟩) with rfl | hrest
      · exact le_rfl
      · exact List.rel_of_pairwise_cons hsorted hrest
    · simp only [hby, hmem, and_assoc]

theorem firstMatch_of_sorted (sel : Selector) (rules : List SecurityRule) :
    FirstMatch t sel rules ((sortRules rules).foldl (added t sel) fun _ => none) := by
  refine ⟨fun p => ?_, fun p info hinfo => ?_, fun p info hinfo id => ?_⟩
  · rcases foldl_added_port (t := t) sel rules p with ⟨hnone, hno⟩ | ⟨r, info, hsome, hr, hp, -⟩
    · rw [hnone]
      exact iff_of_false (by simp) fun ⟨r, hr, hp⟩ => hno r hr hp
    · exact iff_of_true ⟨info, hsome⟩ ⟨r, hr, hp⟩
  · rcases foldl_added_port (t := t) sel rules p with
      ⟨hnone, -⟩ | ⟨r, info', hsome, hr, hp, hleast, hallowed, -⟩
    · rw [hnone] at hinfo
      cases hinfo
    · obtain rfl := Option.some.inj (hsome.symm.trans hinfo)
      exact ⟨r, hr, hp.1, hp.2, fun r' hr' ha hc => hleast r' hr' ⟨ha, hc⟩, hallowed⟩
  · rcases foldl_added_port (t := t) sel rules p with
      ⟨hnone, -⟩ | ⟨r, info', hsome, hr, hp, hleast, hallowed, hby⟩
    · rw [hnone] at hinfo
      cases hinfo
    · obtain rfl := Option.some.inj (hsome.symm.trans hinfo)
      simp only [hby, and_assoc]

/-- **First match.**  The map is made, and is first-match evaluation in any order of the rules,
exactly when every rule has a list of prefixes for each address that it is checked for. -/
theorem firstMatch_iff (sel : Selector) (nsg : Group) :
    Meets t sel nsg ↔ ∀ r ∈ nsg.securityRules, HasLists t sel r := by
  have hok : ∀ rules ports, buildPortsRulesDict t sel rules = .ok ports ↔
      (∀ r ∈ rules, HasLists t sel r) ∧
        ports = (sortRules rules).foldl (added t sel) fun _ => none := by
    intro rules ports
    rw [buildPortsRulesDict, foldlM_eq_ok_iff fun s r s' => addRule_eq_ok sel s r s']
    simp only [mem_sortRules]
  constructor
  · rintro ⟨ports, hports, -⟩
    exact ((hok _ _).mp hports).1
  · intro h
    refine ⟨_, (hok _ _).mpr ⟨h, rfl⟩, firstMatch_of_sorted sel _, fun rules hperm => ?_⟩
    refine (hok _ _).mpr ⟨fun r hr => h r (hperm.mem_iff.mp hr), ?_⟩
    rw [sortRules_eq_of_perm hperm nsg.distinct]

/-! ## A rule without a list -/

theorem isPortRange_https : IsPortRange "443".toList ⟨443, 443⟩ :=
  (getPortRange_eq_ok (by decide)).mp rfl

/-- A rule for one address, which it has no list for. -/
def officeRule : SecurityRule where
  id := "office".toList
  priority := 100
  direction := "Inbound".toList
  protocol := "TCP".toList
  access := "Allow".toList
  sourceAddressPrefix := some "10.0.0.1".toList
  sourceAddressPrefixes := none
  destinationAddressPrefix := some "*".toList
  destinationAddressPrefixes := none
  destinationPortRange := some "443".toList
  destinationPortRanges := none
  some_ports := .inl rfl
  ports _ hs := ⟨_, List.mem_singleton.mp hs ▸ isPortRange_https⟩

def officeGroup : Group := ⟨[officeRule], List.nodup_singleton _⟩

/-- An ingress filter that asks for the source of the rule. -/
def fromOffice : Selector := ⟨"Inbound".toList, "*".toList, some "10.0.0.1".toList, none⟩

theorem officeGroup_not_meets : ¬Meets asciiTable fromOffice officeGroup := by
  rintro ⟨ports, hports, -⟩
  have hraises : buildPortsRulesDict asciiTable fromOffice officeGroup.securityRules =
      .error .typeError := by rfl
  rw [hraises] at hports
  cases hports

end Custodian.PortRules

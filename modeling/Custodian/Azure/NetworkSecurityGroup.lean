import Custodian.Azure.PortRanges
import Mathlib.Data.List.Sort
import Mathlib.Data.Int.Order.Basic

/-!
# Opening and closing ports

`NetworkSecurityGroupPortsAction` of `c7n_azure/resources/network_security_group.py` and the map
of ports of `c7n_azure/utils.py` it relies on.
-/

namespace Custodian.NetworkSecurityGroup

open Py PortsRangeHelper

/-! ## Rules and packets -/

inductive Direction where
  | inbound
  | outbound
  deriving DecidableEq

inductive Access where
  | allow
  | deny
  deriving DecidableEq

/-- The protocol of a packet. -/
inductive IpProtocol where
  | tcp
  | udp
  | icmp
  | esp
  | ah
  | other (number : Nat)
  deriving DecidableEq

/-- The protocol of a rule or an action, `*` for all. -/
inductive Protocol where
  | star
  | only (protocol : IpProtocol)
  deriving DecidableEq

/-- The properties of a security rule; `endpoints` is what it says of addresses and source ports. -/
structure Rule (E : Type) where
  priority : Int
  direction : Direction
  protocol : Protocol
  access : Access
  destinationPortRange : Option Text
  destinationPortRanges : Option (List Text)
  endpoints : E → Bool

structure Packet (E : Type) where
  direction : Direction
  protocol : IpProtocol
  port : Nat
  endpoints : E

variable {E : Type}

/-- The texts of a rule's destination ports. -/
def Rule.portTexts (rule : Rule E) : List Text :=
  match rule.destinationPortRange.filter (· ≠ []) with
  | some rangeStr => [rangeStr]
  | none => rule.destinationPortRanges.getD []

/-- A rule has one of the two keys, and its texts denote ranges. -/
structure Rule.Valid (rule : Rule E) : Prop where
  priority_ge : 100 ≤ rule.priority
  priority_le : rule.priority ≤ 4096
  some_ports : (rule.destinationPortRange.filter (· ≠ [])).isSome ∨
    rule.destinationPortRanges.isSome
  ports : ∀ s ∈ rule.portTexts, ∃ r, IsPortRange s r

/-- A network security group: of two rules of one direction the priorities differ. -/
structure Group (E : Type) where
  securityRules : List (Rule E)
  valid : ∀ r ∈ securityRules, r.Valid
  distinct : ∀ r ∈ securityRules, ∀ r' ∈ securityRules, r.direction = r'.direction →
    r.priority = r'.priority → r = r'

/-- An `open` or `close` action whose texts of ports have passed `validate`. -/
structure Action where
  accessAction : Access
  direction : Direction
  ipProtocol : Option Protocol
  ports : Option Text
  exceptPorts : Option Text
  ports_valid : ∀ s ∈ ports, validatePortsString s = .ok true
  except_valid : ∀ s ∈ exceptPorts, validatePortsString s = .ok true

/-! ## The action -/

/-- `get_ports_set_from_rule` -/
def getPortsSetFromRule (rule : Rule E) : Except Exn (List Nat) := do
  let ranges ← getRulePortRanges rule.destinationPortRange rule.destinationPortRanges
  pure (portRangesToSet ranges)

/-- The protocols of a rule and an action meet, as `build_ports_rules_dict` sees it. -/
def Protocol.meets (protocol ipProtocol : Protocol) : Bool :=
  protocol = .star || ipProtocol = .star || protocol = ipProtocol

/-- One rule of `build_ports_rules_dict`; a port that is known keeps its access. -/
def addRule (directionKey : Direction) (ipProtocol : Protocol) (ports : Nat → Option Bool)
    (rule : Rule E) : Except Exn (Nat → Option Bool) :=
  if directionKey ≠ rule.direction then .ok ports
  else if !rule.protocol.meets ipProtocol then .ok ports
  else do
    let portsSet ← getPortsSetFromRule rule
    pure fun p => if p ∈ portsSet then (ports p).or (some (rule.access = .allow)) else ports p

/-- `sorted(rules, key=lambda k: k['properties']['priority'])` -/
def sortRules (rules : List (Rule E)) : List (Rule E) :=
  rules.insertionSort fun r r' => r.priority ≤ r'.priority

/-- `build_ports_dict`; the action gives no addresses, so that `check_address` is true. -/
def buildPortsDict (rules : List (Rule E)) (directionKey : Direction) (ipProtocol : Protocol) :
    Except Exn (Nat → Option Bool) :=
  (sortRules rules).foldlM (addRule directionKey ipProtocol) fun _ => none

/-- `_build_ports_strings` -/
def buildPortsStrings (accessAction : Access) (actionPorts : List Nat) (rules : List (Rule E))
    (directionKey : Direction) (ipProtocol : Protocol) : Except Exn (List Text) := do
  let nsgPorts ← buildPortsDict rules directionKey ipProtocol
  let isAllowed : Bool := accessAction = .allow
  let diffPorts := (actionPorts.filter fun p => (nsgPorts p).getD false ≠ isAllowed).insertionSort
    (· ≤ ·)
  pure (getPortsStringsFromList diffPorts)

def priorityStep : Int := 10

/-- The loop of `process` for one group: the rule that is created, if any. -/
def createRule (action : Action) (actionPorts : List Nat) (nsg : Group E) :
    Except Exn (Option (Rule E)) := do
  let ipProtocol := action.ipProtocol.getD .star
  let ports ← buildPortsStrings action.accessAction actionPorts nsg.securityRules action.direction
    ipProtocol
  if ports = [] then pure none
  else
    let rules := (sortRules nsg.securityRules).filter fun r => r.direction = action.direction
    let lowestPriority := rules.head?.elim 4096 Rule.priority
    pure <| some {
      priority := lowestPriority - priorityStep
      direction := action.direction
      protocol := ipProtocol
      access := action.accessAction
      destinationPortRange := none
      destinationPortRanges := some ports
      endpoints := fun _ => true }

/-- The ports that the action names. -/
def actionPorts (action : Action) : Except Exn (List Nat) := do
  let ports ← getPortsSetFromString (action.ports.getD "0-65535".toList)
  let exceptPorts ← getPortsSetFromString (action.exceptPorts.getD [])
  pure (ports.filter fun p => p ∉ exceptPorts)

/-- `process` -/
def process (action : Action) (networkSecurityGroups : List (Group E)) :
    Except Exn (List (Option (Rule E))) := do
  let actionPorts ← actionPorts action
  networkSecurityGroups.mapM (createRule action actionPorts)

/-! ## What becomes of packets -/

def Protocol.covers : Protocol → IpProtocol → Prop
  | .star, _ => True
  | .only p, q => p = q

def Rule.Matches (rule : Rule E) (packet : Packet E) : Prop :=
  rule.direction = packet.direction ∧ rule.protocol.covers packet.protocol ∧
    (∃ s ∈ rule.portTexts, Spans s packet.port) ∧ rule.endpoints packet.endpoints

/-- The first of the rules that satisfy `m`, by priority, has the access; without one it is deny. -/
def FirstMatch (rules : List (Rule E)) (m : Rule E → Prop) (access : Access) : Prop :=
  (∃ r ∈ rules, m r ∧ r.access = access ∧ ∀ r' ∈ rules, m r' → r.priority ≤ r'.priority) ∨
    (access = .deny ∧ ∀ r ∈ rules, ¬m r)

/-- What the rules decide for a packet. -/
def Decided (rules : List (Rule E)) (packet : Packet E) (access : Access) : Prop :=
  FirstMatch rules (fun r => r.Matches packet) access

/-- The port is in `ports` and not in `exceptPorts`. -/
def Action.Names (action : Action) (p : Nat) : Prop :=
  Listed (action.ports.getD "0-65535".toList) p ∧ ¬Listed (action.exceptPorts.getD []) p

/-- The action is about the packet. -/
def Action.Addresses (action : Action) (packet : Packet E) : Prop :=
  packet.direction = action.direction ∧
    (action.ipProtocol.getD .star).covers packet.protocol ∧ action.Names packet.port

/-- The rule that is created for a group has the effect the action asks for. -/
structure TakesEffect (action : Action) (nsg : Group E) (created : Option (Rule E)) : Prop where
  decided : ∀ packet, action.Addresses packet →
    Decided (nsg.securityRules ++ created.toList) packet action.accessAction
  others : ∀ packet, ¬action.Addresses packet → ∀ access,
    Decided (nsg.securityRules ++ created.toList) packet access ↔
      Decided nsg.securityRules packet access
  priority : ∀ r ∈ created, 100 ≤ r.priority ∧ r.priority ≤ 4096 ∧
    ∀ r' ∈ nsg.securityRules, r'.direction = action.direction → r.priority < r'.priority

/-- Every group gets the effect. -/
def Meets (action : Action) (nsgs : List (Group E)) : Prop :=
  ∃ created, process action nsgs = .ok created ∧ List.Forall₂ (TakesEffect action) nsgs created

/-! ## The map of ports -/

theorem getPortsSetFromRule_eq {rule : Rule E} (h : rule.Valid) :
    ∃ ports, getPortsSetFromRule rule = .ok ports ∧
      ∀ p, p ∈ ports ↔ ∃ s ∈ rule.portTexts, Spans s p := by
  obtain ⟨ranges, hranges, hmem⟩ := exists_getRulePortRanges h.some_ports h.ports
  exact ⟨portRangesToSet ranges, by rw [getPortsSetFromRule, hranges]; rfl, hmem⟩

/-- The map of ports takes the rule into account for the port. -/
def Rule.Concerns (rule : Rule E) (directionKey : Direction) (ipProtocol : Protocol) (p : Nat) :
    Prop :=
  rule.direction = directionKey ∧ rule.protocol.meets ipProtocol ∧
    ∃ s ∈ rule.portTexts, Spans s p

open Classical in
theorem addRule_eq {rule : Rule E} (h : rule.Valid) (directionKey : Direction)
    (ipProtocol : Protocol) (ports : Nat → Option Bool) :
    addRule directionKey ipProtocol ports rule = .ok fun p =>
      if rule.Concerns directionKey ipProtocol p then (ports p).or (some (rule.access = .allow))
      else ports p := by
  rw [addRule]
  split
  · rename_i hdir
    simp [Rule.Concerns, Ne.symm hdir]
  · rename_i hdir
    split
    · rename_i hproto
      simp only [Bool.not_eq_true'] at hproto
      simp [Rule.Concerns, hproto]
    · rename_i hproto
      obtain ⟨portsSet, hset, hmem⟩ := getPortsSetFromRule_eq h
      rw [hset]
      refine congrArg Except.ok (funext fun p => ?_)
      simp only [Rule.Concerns, hmem]
      simp_all

open Classical in
theorem foldlM_addRule {rules : List (Rule E)} (h : ∀ r ∈ rules, r.Valid)
    (directionKey : Direction) (ipProtocol : Protocol) (ports : Nat → Option Bool) :
    rules.foldlM (addRule directionKey ipProtocol) ports = .ok fun p =>
      (ports p).or ((rules.find? fun r => r.Concerns directionKey ipProtocol p).map
        fun r => decide (r.access = .allow)) := by
  induction rules generalizing ports with
  | nil => simp [pure, Except.pure]
  | cons r rules ih =>
    rw [List.forall_mem_cons] at h
    rw [List.foldlM_cons, addRule_eq h.1]
    refine (ih h.2 _).trans (congrArg Except.ok (funext fun p => ?_))
    rw [List.find?_cons]
    by_cases hr : r.Concerns directionKey ipProtocol p <;> simp [hr]

/-! ## The first rule -/

open Classical in
theorem firstMatch_iff_find {rules : List (Rule E)} {m : Rule E → Prop} (hm : ∀ r ∈ rules,
    ∀ r' ∈ rules, m r → m r' → r.priority = r'.priority → r = r') {access : Access} :
    FirstMatch rules m access ↔
      ((sortRules rules).find? fun r => m r).elim .deny Rule.access = access := by
  have hmem : ∀ r, r ∈ sortRules rules ↔ r ∈ rules := fun r => List.mem_insertionSort _
  cases hfind : (sortRules rules).find? fun r => m r with
  | none =>
    have hno : ∀ r ∈ rules, ¬m r := fun r hr =>
      of_decide_eq_false (Bool.eq_false_iff.mpr (List.find?_eq_none.mp hfind r ((hmem r).mpr hr)))
    rw [FirstMatch, Option.elim_none, eq_comm (a := Access.deny)]
    constructor
    · rintro (⟨r, hr, hmr, -⟩ | ⟨ha, -⟩)
      · exact absurd hmr (hno r hr)
      · exact ha
    · exact fun ha => .inr ⟨ha, hno⟩
  | some r =>
    obtain ⟨hmr, before, after, hsorted, hbefore⟩ := List.find?_eq_some_iff_append.mp hfind
    have hmr : m r := of_decide_eq_true hmr
    have hr : r ∈ rules := (hmem r).mp (hsorted ▸ List.mem_append_right _ List.mem_cons_self)
    have hleast : ∀ r' ∈ rules, m r' → r.priority ≤ r'.priority := by
      intro r' hr' hmr'
      have hpair : (sortRules rules).Pairwise fun r r' => r.priority ≤ r'.priority :=
        List.pairwise_insertionSort _ _
      rw [hsorted, List.pairwise_append, List.pairwise_cons] at hpair
      rcases List.mem_append.mp (hsorted ▸ (hmem r').mpr hr') with h | h
      · have hno := hbefore r' h
        rw [Bool.not_eq_true', decide_eq_false_iff_not] at hno
        exact absurd hmr' hno
      · rcases List.mem_cons.mp h with rfl | h
        · exact le_rfl
        · exact hpair.2.1.1 r' h
    rw [FirstMatch, Option.elim_some]
    constructor
    · rintro (⟨r', hr', hmr', rfl, hleast'⟩ | ⟨-, hno⟩)
      · rw [hm r hr r' hr' hmr hmr' (le_antisymm (hleast r' hr' hmr') (hleast' r hr hmr))]
      · exact absurd hmr (hno r hr)
    · exact fun ha => .inl ⟨r, hr, hmr, ha, hleast⟩

/-- The access of the first rule that the map of ports takes into account for the port. -/
def Believed (action : Action) (nsg : Group E) (p : Nat) (access : Access) : Prop :=
  FirstMatch nsg.securityRules
    (fun r => r.Concerns action.direction (action.ipProtocol.getD .star) p) access

theorem portsDict_spec (action : Action) (nsg : Group E) :
    ∃ ports, buildPortsDict nsg.securityRules action.direction (action.ipProtocol.getD .star) =
        .ok ports ∧
      ∀ p, (ports p).getD false = decide (action.accessAction = .allow) ↔
        Believed action nsg p action.accessAction := by
  have hvalid : ∀ r ∈ sortRules nsg.securityRules, r.Valid := fun r hr =>
    nsg.valid r ((List.mem_insertionSort _).mp hr)
  refine ⟨_, foldlM_addRule hvalid _ _ _, fun p => ?_⟩
  rw [Believed, firstMatch_iff_find fun r hr r' hr' hm hm' => nsg.distinct r hr r' hr'
    (hm.1.trans hm'.1.symm)]
  rw [Option.none_or]
  cases (sortRules nsg.securityRules).find? _ with
  | none => cases action.accessAction <;> simp
  | some r => cases hr : r.access <;> cases action.accessAction <;> simp [hr]

/-! ## The rule that is created -/

/-- What is known of a created rule: it is on top of the others and holds the ports whose access
the map does not give already. -/
structure Created (action : Action) (nsg : Group E) (r : Rule E) : Prop where
  direction : r.direction = action.direction
  protocol : r.protocol = action.ipProtocol.getD .star
  access : r.access = action.accessAction
  endpoints : ∀ e, r.endpoints e = true
  ports : ∀ p, (∃ s ∈ r.portTexts, Spans s p) ↔
    action.Names p ∧ ¬Believed action nsg p action.accessAction
  some_port : ∃ p, action.Names p ∧ ¬Believed action nsg p action.accessAction
  on_top : ∀ r' ∈ nsg.securityRules, r'.direction = action.direction →
    r.priority + priorityStep ≤ r'.priority
  next : r.priority + priorityStep = 4096 ∨ ∃ r' ∈ nsg.securityRules,
    r'.direction = action.direction ∧ r.priority + priorityStep = r'.priority

theorem actionPorts_eq (action : Action) :
    ∃ ports, actionPorts action = .ok ports ∧ (∀ p, p ∈ ports ↔ action.Names p) ∧
      ∀ p ∈ ports, p ≤ 65535 := by
  have hvalid : validatePortsString (action.ports.getD "0-65535".toList) = .ok true := by
    cases h : action.ports with
    | none => rfl
    | some s => exact action.ports_valid s h
  obtain ⟨ports, hports, hmem, hle⟩ := mem_getPortsSetFromString hvalid
  have hexcept : ∃ except, getPortsSetFromString (action.exceptPorts.getD []) = .ok except ∧
      ∀ p, p ∈ except ↔ Listed (action.exceptPorts.getD []) p := by
    cases h : action.exceptPorts with
    | none => exact ⟨[], getPortsSetFromString_nil.1, by simp [getPortsSetFromString_nil.2]⟩
    | some s =>
      obtain ⟨except, he, hmem, -⟩ := mem_getPortsSetFromString (action.except_valid s h)
      exact ⟨except, he, hmem⟩
  obtain ⟨except, he, hemem⟩ := hexcept
  refine ⟨ports.filter fun p => p ∉ except, by rw [actionPorts, hports, he]; rfl, fun p => ?_,
    fun p hp => hle p (List.mem_of_mem_filter hp)⟩
  rw [List.mem_filter, decide_eq_true_eq, hmem, hemem, Action.Names]

theorem lowest_priority (nsg : Group E) (direction : Direction) :
    let lowest := (((sortRules nsg.securityRules).filter fun r =>
      r.direction = direction).head?.elim 4096 Rule.priority : Int)
    (∀ r ∈ nsg.securityRules, r.direction = direction → lowest ≤ r.priority) ∧
      (lowest = 4096 ∨ ∃ r ∈ nsg.securityRules, r.direction = direction ∧ lowest = r.priority) := by
  intro lowest
  have hmem : ∀ r, r ∈ (sortRules nsg.securityRules).filter (fun r => r.direction = direction) ↔
      r ∈ nsg.securityRules ∧ r.direction = direction := by
    intro r
    rw [List.mem_filter, decide_eq_true_eq, sortRules, List.mem_insertionSort]
  have hpair : ((sortRules nsg.securityRules).filter fun r => r.direction = direction).Pairwise
      fun r r' => r.priority ≤ r'.priority :=
    (List.pairwise_insertionSort (fun r r' : Rule E => r.priority ≤ r'.priority) _).filter _
  cases hrules : (sortRules nsg.securityRules).filter (fun r => r.direction = direction) with
  | nil =>
    have hlowest : lowest = 4096 := by simp only [lowest, hrules, List.head?_nil, Option.elim_none]
    rw [hrules] at hmem
    exact ⟨fun r hr hd => absurd ((hmem r).mpr ⟨hr, hd⟩) List.not_mem_nil, .inl hlowest⟩
  | cons r rest =>
    have hlowest : lowest = r.priority := by
      simp only [lowest, hrules, List.head?_cons, Option.elim_some]
    rw [hrules] at hmem hpair
    rw [hlowest]
    refine ⟨fun r' hr' hd => ?_, .inr ⟨r, ((hmem r).mp List.mem_cons_self).1,
      ((hmem r).mp List.mem_cons_self).2, rfl⟩⟩
    rcases List.mem_cons.mp ((hmem r').mpr ⟨hr', hd⟩) with rfl | h
    · exact le_rfl
    · exact (List.pairwise_cons.mp hpair).1 r' h

/-- **The rule that is created for a group.** -/
theorem created_rule (action : Action) (nsg : Group E) {ports : List Nat}
    (hports : ∀ p, p ∈ ports ↔ action.Names p) (hle : ∀ p ∈ ports, p ≤ 65535) :
    ∃ created, createRule action ports nsg = .ok created ∧
      (∀ r ∈ created, Created action nsg r) ∧
      (created = none → ∀ p, action.Names p → Believed action nsg p action.accessAction) := by
  obtain ⟨dict, hdict, hbelieved⟩ := portsDict_spec action nsg
  let diff := (ports.filter fun p =>
    (dict p).getD false ≠ decide (action.accessAction = .allow)).insertionSort (· ≤ ·)
  have hdiff : ∀ p, p ∈ diff ↔
      action.Names p ∧ ¬Believed action nsg p action.accessAction := by
    intro p
    rw [List.mem_insertionSort, List.mem_filter, hports, ← hbelieved, decide_eq_true_eq]
  have hstrings : buildPortsStrings action.accessAction ports nsg.securityRules action.direction
      (action.ipProtocol.getD .star) = .ok (getPortsStringsFromList diff) := by
    rw [buildPortsStrings, hdict]
    rfl
  rw [createRule, hstrings]
  by_cases hnil : getPortsStringsFromList diff = []
  · refine ⟨none, if_pos hnil, by simp, fun _ p hp => ?_⟩
    by_contra hb
    have hmem := (hdiff p).mpr ⟨hp, hb⟩
    rw [getPortsStringsFromList_eq_nil.mp hnil] at hmem
    cases hmem
  · obtain ⟨hleast, hnext⟩ := lowest_priority nsg action.direction
    refine ⟨_, if_neg hnil, ?_, by simp⟩
    rintro r ⟨⟩
    refine ⟨rfl, rfl, rfl, fun _ => rfl, fun p => ?_, ?_, ?_, ?_⟩
    · have hspans := spans_getPortsStringsFromList
        (fun p hp => hle p ((hports p).mpr ((hdiff p).mp hp).1)) p
      rw [← hdiff, ← hspans]
      rfl
    · rw [getPortsStringsFromList_eq_nil] at hnil
      obtain ⟨p, hp⟩ := List.exists_mem_of_ne_nil diff hnil
      exact ⟨p, (hdiff p).mp hp⟩
    · intro r' hr' hd
      rw [Int.sub_add_cancel]
      exact hleast r' hr' hd
    · rw [Int.sub_add_cancel]
      exact hnext

/-! ## When the packets are decided as asked -/

/-- The rules of the group decide as the map of ports has it, and there is room above them. -/
structure Trusted (action : Action) (nsg : Group E) : Prop where
  /-- If the first rule for a port has the access that is asked for, without regard to addresses
  and protocols that only overlap, then all packets to the port get it. -/
  decided : ∀ packet, action.Addresses packet →
    Believed action nsg packet.port action.accessAction →
    Decided nsg.securityRules packet action.accessAction
  /-- If a rule is needed, the priorities of the direction leave room for one. -/
  room : (∃ p, action.Names p ∧ ¬Believed action nsg p action.accessAction) →
    ∀ r ∈ nsg.securityRules, r.direction = action.direction → 100 + priorityStep ≤ r.priority

theorem Created.matches_iff {action : Action} {nsg : Group E} {r : Rule E}
    (h : Created action nsg r) (packet : Packet E) :
    r.Matches packet ↔ action.Addresses packet ∧
      ¬Believed action nsg packet.port action.accessAction := by
  rw [Rule.Matches, h.direction, h.protocol, h.ports, Action.Addresses,
    eq_comm (a := packet.direction)]
  constructor
  · rintro ⟨hd, hp, ⟨hn, hb⟩, -⟩
    exact ⟨⟨hd, hp, hn⟩, hb⟩
  · rintro ⟨⟨hd, hp, hn⟩, hb⟩
    exact ⟨hd, hp, ⟨hn, hb⟩, h.endpoints _⟩

theorem firstMatch_append_of_not {rules : List (Rule E)} {m : Rule E → Prop} {r : Rule E}
    (h : ¬m r) (access : Access) :
    FirstMatch (rules ++ [r]) m access ↔ FirstMatch rules m access := by
  simp [FirstMatch, or_and_right, exists_or, or_imp, forall_and, h]

theorem takesEffect_iff {action : Action} {nsg : Group E} {created : Option (Rule E)}
    (hcreated : ∀ r ∈ created, Created action nsg r)
    (hnone : created = none → ∀ p, action.Names p → Believed action nsg p action.accessAction) :
    TakesEffect action nsg created ↔ Trusted action nsg := by
  cases created with
  | none =>
    have hall := hnone rfl
    constructor
    · intro h
      refine ⟨fun packet ha _ => ?_, fun ⟨p, hp, hb⟩ => absurd (hall p hp) hb⟩
      have hd := h.decided packet ha
      rwa [Option.toList_none, List.append_nil] at hd
    · intro h
      refine ⟨fun packet ha => ?_, fun packet _ access => ?_, by simp⟩
      · rw [Option.toList_none, List.append_nil]
        exact h.decided packet ha (hall _ ha.2.2)
      · rw [Option.toList_none, List.append_nil]
  | some r =>
    have hr := hcreated r rfl
    have hsame : ∀ packet, (action.Addresses packet →
        Believed action nsg packet.port action.accessAction) → ∀ access,
        Decided (nsg.securityRules ++ (some r).toList) packet access ↔
          Decided nsg.securityRules packet access := by
      intro packet hp access
      refine firstMatch_append_of_not (fun hm => ?_) access
      obtain ⟨ha, hb⟩ := (hr.matches_iff packet).mp hm
      exact hb (hp ha)
    constructor
    · intro h
      refine ⟨fun packet ha hb => (hsame packet (fun _ => hb) _).mp (h.decided packet ha),
        fun _ r' hr' hd => ?_⟩
      have hge := (h.priority r rfl).1
      have htop := hr.on_top r' hr' hd
      omega
    · intro h
      refine ⟨fun packet ha => ?_, fun packet hna => hsame packet fun ha => absurd ha hna, ?_⟩
      · by_cases hb : Believed action nsg packet.port action.accessAction
        · exact (hsame packet (fun _ => hb) _).mpr (h.decided packet ha hb)
        · refine .inl ⟨r, by simp, (hr.matches_iff packet).mpr ⟨ha, hb⟩, hr.access, ?_⟩
          intro r' hr' hm
          rw [Option.toList_some, List.mem_append, List.mem_singleton] at hr'
          rcases hr' with hr' | rfl
          · have htop := hr.on_top r' hr' (hm.1.trans ha.1)
            rw [priorityStep] at htop
            omega
          · exact le_rfl
      · rintro r ⟨⟩
        have hroom := h.room hr.some_port
        have hnext := hr.next
        refine ⟨?_, ?_, fun r' hr' hd => ?_⟩
        · rcases hnext with hnext | ⟨r', hr', hd, hnext⟩
          · rw [priorityStep] at hnext
            omega
          · have hge := hroom r' hr' hd
            omega
        · rcases hnext with hnext | ⟨r', hr', hd, hnext⟩
          · rw [priorityStep] at hnext
            omega
          · have hle := (nsg.valid r' hr').priority_le
            rw [priorityStep] at hnext
            omega
        · have htop := hr.on_top r' hr' hd
          rw [priorityStep] at htop
          omega

/-- **The packets are decided as the action says exactly when the map of ports can be trusted.** -/
theorem process_takes_effect_iff (action : Action) (nsgs : List (Group E)) :
    Meets action nsgs ↔ ∀ nsg ∈ nsgs, Trusted action nsg := by
  obtain ⟨ports, hports, hnames, hle⟩ := actionPorts_eq action
  have hgroup : ∀ nsg : Group E, ∃ created, createRule action ports nsg = .ok created ∧
      (TakesEffect action nsg created ↔ Trusted action nsg) := by
    intro nsg
    obtain ⟨created, hok, hcreated, hnone⟩ := created_rule action nsg hnames hle
    exact ⟨created, hok, takesEffect_iff hcreated hnone⟩
  choose created hok hiff using hgroup
  have hprocess : process action nsgs = .ok (nsgs.map created) := by
    rw [process, hports]
    exact mapM_eq_map fun nsg _ => hok nsg
  rw [Meets, hprocess]
  simp only [Except.ok.injEq, exists_eq_left', List.forall₂_map_right_iff, List.forall₂_same, hiff]

/-! ## A port that is open to some -/

/-- An inbound rule that opens port 22 to one of two addresses. -/
def officeRule : Rule Bool :=
  ⟨200, .inbound, .only .tcp, .allow, some "22".toList, none, fun e => e⟩

theorem isPortRange_ssh : IsPortRange "22".toList ⟨22, 22⟩ :=
  (getPortRange_eq_ok (by decide)).mp rfl

def officeOnly : Group Bool where
  securityRules := [officeRule]
  valid := by
    rw [List.forall_mem_singleton]
    refine ⟨by decide, by decide, .inl rfl, fun s hs => ?_⟩
    obtain rfl := List.mem_singleton.mp hs
    exact ⟨_, isPortRange_ssh⟩
  distinct := by
    intro r hr r' hr' _ _
    rw [List.mem_singleton.mp hr, List.mem_singleton.mp hr']

/-- `open` with `ports: '22'` and `ipProtocol: TCP` -/
def openSsh : Action :=
  ⟨.allow, .inbound, some (.only .tcp), some "22".toList, none, by rintro s ⟨⟩; rfl, by simp⟩

/-- Port 22 is open to one address, so that opening it opens it to no other. -/
theorem opened_to_one_address :
    process openSsh [officeOnly] = .ok [none] ∧ ¬Meets openSsh [officeOnly] := by
  have hprocess : process openSsh [officeOnly] = .ok [none] := rfl
  refine ⟨hprocess, ?_⟩
  rintro ⟨created, hcreated, heffect⟩
  rw [hprocess, Except.ok.injEq] at hcreated
  subst hcreated
  have hnames : openSsh.Names 22 := by
    refine ⟨⟨_, List.mem_singleton_self _, _, isPortRange_ssh, le_rfl, le_rfl⟩, ?_⟩
    exact getPortsSetFromString_nil.2 22
  have hdecided := (List.forall₂_cons.mp heffect).1.decided ⟨.inbound, .tcp, 22, false⟩
    ⟨rfl, rfl, hnames⟩
  rcases hdecided with ⟨r, hr, hm, -⟩ | ⟨h, -⟩
  · obtain rfl := List.mem_singleton.mp hr
    cases hm.2.2.2
  · cases h

end Custodian.NetworkSecurityGroup

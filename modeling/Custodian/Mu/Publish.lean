import Custodian.Lib.Dict
import Custodian.Lib.Except
import Custodian.Lib.Split
import Mathlib.Data.Finmap
import Mathlib.Data.Finset.Dedup

/-!
# Publishing a policy lambda

`LambdaManager._create_or_update` of `c7n/mu.py` compares an existing function
with the definition of the policy and calls the service for what differs.
-/

namespace Custodian.Mu

open Py

/-! ## Functions -/

/-- Nested settings, compared regardless of the order of their keys. -/
abbrev Vars := Finmap fun _ : Text => Text

structure VpcConfig where
  subnetIds : List Text
  securityGroupIds : List Text
  vpcId : Option Text
  ipv6AllowedForDualStack : Option Bool
  deriving DecidableEq

/-- The configuration of a function as the service describes it; of its layers
the names are kept. -/
structure Configuration where
  functionArn : Text
  codeSha256 : Text
  architectures : Option (List Text)
  functionName : Option Text
  memorySize : Option Nat
  role : Option Text
  description : Option Text
  runtime : Option Text
  handler : Option Text
  timeout : Option Nat
  tracingConfig : Option Vars
  kmsKeyArn : Option Text
  deadLetterConfig : Option Vars
  vpcConfig : Option VpcConfig
  layers : Option (List Text)
  environment : Option Vars

/-- An existing function. -/
structure FunctionState where
  configuration : Configuration
  tags : Option (Dict Text Text)
  concurrency : Option Nat

/-- A function as the policy defines it. -/
structure Definition where
  name : Text
  memorySize : Nat
  role : Text
  description : Text
  runtime : Text
  handler : Text
  timeout : Nat
  tracingConfig : Vars
  kmsKeyArn : Text
  deadLetterConfig : Vars
  layers : List Text
  environment : Vars
  subnets : Option (List Text)
  securityGroups : Option (List Text)
  tags : Dict Text Text
  architectures : Option (List Text)
  concurrency : Option Nat
  checksum : Text

/-! ### `LAMBDA_EMPTY_VALUES` -/

def emptyEnvironment : Vars := ∅

def emptyDeadLetterConfig : Vars := ∅

def emptyTracingConfig : Vars := Finmap.singleton "Mode".toList "PassThrough".toList

def emptyVpcConfig : VpcConfig := ⟨[], [], none, none⟩

def emptyKmsKeyArn : Text := []

/-! ## The configuration of a definition -/

/-- What `get_config` gives; layers and environment are left out when they are empty. -/
structure NewConfig where
  functionName : Text
  memorySize : Nat
  role : Text
  description : Text
  runtime : Text
  handler : Text
  timeout : Nat
  tracingConfig : Vars
  kmsKeyArn : Text
  deadLetterConfig : Vars
  vpcConfig : VpcConfig
  tags : Dict Text Text
  layers : Option (List Text)
  environment : Option Vars
  architectures : Option (List Text)

/-- The networks of a definition: subnets and security groups, or neither. -/
def Definition.vpcConfig (f : Definition) : VpcConfig :=
  if f.subnets.getD [] ≠ [] ∧ f.securityGroups.getD [] ≠ [] then
    ⟨f.subnets.getD [], f.securityGroups.getD [], none, none⟩
  else emptyVpcConfig

/-- `AbstractLambdaFunction.get_config`, with the role that is used. -/
def getConfig (f : Definition) (role : Text) : NewConfig where
  functionName := f.name
  memorySize := f.memorySize
  role := role
  description := f.description
  runtime := f.runtime
  handler := f.handler
  timeout := f.timeout
  tracingConfig := f.tracingConfig
  kmsKeyArn := f.kmsKeyArn
  deadLetterConfig := f.deadLetterConfig
  vpcConfig := f.vpcConfig
  tags := f.tags
  layers := if f.layers = [] then none else some f.layers
  environment := if f.environment = ∅ then none else some f.environment
  architectures := if f.architectures.getD [] = [] then none else f.architectures

/-! ## Comparing -/

/-- A key of the new configuration against the old one; a key that is missing
there counts as changed unless its value is the empty one. -/
def differs {α : Type} [DecidableEq α] (empty old : Option α) (new : α) : Bool :=
  match old with
  | none => empty ≠ some new
  | some o => o ≠ new

/-- For the role the configuration may have the name only. -/
def roleDiffers (old : Option Text) (new : Text) : Except Exn Bool :=
  match old with
  | none => .ok true
  | some o =>
    if new = o then .ok false
    else match splitMax '/' 1 o with
      | [_, name] => .ok (name ≠ new)
      | _ => .error (.raised "IndexError".toList)

/-- Layers are compared sorted. -/
def layersDiffer (old : Option (List Text)) (new : List Text) : Bool :=
  match old with
  | none => true
  | some o => !decide (new.Perm o)

/-- An entry that may be missing or a placeholder. -/
def subKeyDiffers {α : Type} [DecidableEq α] (truthy : α → Bool) (old new : Option α) : Bool :=
  (old.any truthy || new.any truthy) && decide (old ≠ new)

def vpcDiffers (old : Option VpcConfig) (new : VpcConfig) : Bool :=
  match old with
  | none => emptyVpcConfig ≠ new
  | some o =>
    o.subnetIds.toFinset ≠ new.subnetIds.toFinset ||
    o.securityGroupIds.toFinset ≠ new.securityGroupIds.toFinset ||
    subKeyDiffers (fun s => !s.isEmpty) o.vpcId new.vpcId ||
    subKeyDiffers id o.ipv6AllowedForDualStack new.ipv6AllowedForDualStack

/-- `LambdaManager.delta_function`: the keys that differ, each once. -/
def deltaFunction (old : Configuration) (new : NewConfig) : Except Exn (List Text) := do
  let role ← roleDiffers old.role new.role
  let keys := [
    ("FunctionName".toList, differs none old.functionName new.functionName),
    ("MemorySize".toList, differs none old.memorySize new.memorySize),
    ("Role".toList, role),
    ("Description".toList, differs none old.description new.description),
    ("Runtime".toList, differs none old.runtime new.runtime),
    ("Handler".toList, differs none old.handler new.handler),
    ("Timeout".toList, differs none old.timeout new.timeout),
    ("TracingConfig".toList,
      differs (some emptyTracingConfig) old.tracingConfig new.tracingConfig),
    ("KMSKeyArn".toList, differs (some emptyKmsKeyArn) old.kmsKeyArn new.kmsKeyArn),
    ("DeadLetterConfig".toList,
      differs (some emptyDeadLetterConfig) old.deadLetterConfig new.deadLetterConfig),
    ("VpcConfig".toList, vpcDiffers old.vpcConfig new.vpcConfig),
    ("Layers".toList, new.layers.elim false (layersDiffer old.layers)),
    ("Environment".toList,
      new.environment.elim false (differs (some emptyEnvironment) old.environment))]
  return (keys.filter (·.2)).map (·.1)

/-- `LambdaManager.diff_tags`: the tags to add and the keys to remove. -/
def diffTags (old new : Dict Text Text) : Dict Text Text × List Text :=
  (new.keepKeys fun k => old.lookup k ≠ new.lookup k, old.keys.filter fun k => decide (k ∉ new))

/-! ## The service -/

/-- The calls that change a function. -/
inductive Call where
  | createFunction (config : NewConfig) (codeSha256 : Text)
  | updateFunctionCode (codeSha256 : Text) (architectures : Option (List Text))
  | updateFunctionConfiguration (config : NewConfig)
  | tagResource (tags : Dict Text Text)
  | untagResource (keys : List Text)
  | putFunctionConcurrency (n : Nat)
  | deleteFunctionConcurrency

/-- `update_function_configuration` overwrites the keys that are passed. -/
def overwrite (c : Configuration) (new : NewConfig) : Configuration where
  functionArn := c.functionArn
  codeSha256 := c.codeSha256
  architectures := c.architectures
  functionName := some new.functionName
  memorySize := some new.memorySize
  role := some new.role
  description := some new.description
  runtime := some new.runtime
  handler := some new.handler
  timeout := some new.timeout
  tracingConfig := some new.tracingConfig
  kmsKeyArn := some new.kmsKeyArn
  deadLetterConfig := some new.deadLetterConfig
  vpcConfig := some new.vpcConfig
  layers := new.layers.or c.layers
  environment := new.environment.or c.environment

/-- A function before anything is written. -/
def blankConfiguration (arn : Text) : Configuration :=
  ⟨arn, [], none, none, none, none, none, none, none, none, none, none, none, none, none, none⟩

/-- What a call does; a new function gets its name from the service. -/
def Call.apply (arnOf : Text → Text) (s : Option FunctionState) : Call → Option FunctionState
  | .createFunction config sha =>
    let c := overwrite (blankConfiguration (arnOf config.functionName)) config
    some ⟨{ c with codeSha256 := sha, architectures := config.architectures }, some config.tags,
      none⟩
  | .updateFunctionCode sha architectures => s.map fun f =>
    { f with configuration := { f.configuration with
        codeSha256 := sha, architectures := architectures.or f.configuration.architectures } }
  | .updateFunctionConfiguration config => s.map fun f =>
    { f with configuration := overwrite f.configuration config }
  | .tagResource tags => s.map fun f => { f with tags := some ((f.tags.getD ∅).update tags) }
  | .untagResource keys => s.map fun f =>
    { f with tags := some ((f.tags.getD ∅).dropKeys fun k => decide (k ∈ keys)) }
  | .putFunctionConcurrency n => s.map fun f => { f with concurrency := some n }
  | .deleteFunctionConcurrency => s.map fun f => { f with concurrency := none }

/-! ## Publishing -/

def updateCode (f : Definition) (c : Configuration) : List Call :=
  if f.checksum ≠ c.codeSha256 then [.updateFunctionCode f.checksum none] else []

/-- `LambdaManager._update_tags` -/
def updateTags (old : Option (Dict Text Text)) (new : Dict Text Text) : List Call :=
  let d := diffTags (old.getD ∅) new
  (if d.1.keys = [] then [] else [.tagResource d.1]) ++
    if d.2 = [] then [] else [.untagResource d.2]

def defaultArchitectures : List Text := ["x86_64".toList]

/-- `LambdaManager._update_architecture` -/
def updateArchitecture (f : Definition) (c : Configuration) (new : Option (List Text)) :
    List Call :=
  let new := new.getD defaultArchitectures
  if c.architectures.getD defaultArchitectures ≠ new then
    [.updateFunctionCode f.checksum (some new)]
  else []

/-- `LambdaManager._update_concurrency`, which reports a change only for a removal. -/
def updateConcurrency (existing : Option Nat) (f : Definition) : List Call × Bool :=
  if existing = f.concurrency then ([], false)
  else match f.concurrency with
    | none => ([.deleteFunctionConcurrency], true)
    | some n => ([.putFunctionConcurrency n], false)

/-- The calls for an existing function whose settings differ in these keys, and
whether one of them is reported as a change. -/
def updateFunction (f : Definition) (new : NewConfig) (existing : FunctionState)
    (keys : List Text) : List Call × Bool :=
  let code := updateCode f existing.configuration
  let tags := updateTags existing.tags new.tags
  let architecture := updateArchitecture f existing.configuration new.architectures
  let config := if keys = [] then [] else [Call.updateFunctionConfiguration new]
  let concurrency := updateConcurrency existing.concurrency f
  (code ++ tags ++ architecture ++ config ++ concurrency.1,
    !(code ++ tags ++ architecture ++ config).isEmpty || concurrency.2)

/-- `LambdaManager._create_or_update`: the calls, and whether the function changed. -/
def createOrUpdate (f : Definition) (role : Text) (s : Option FunctionState) :
    Except Exn (List Call × Bool) := do
  let role := if f.role = [] then role else f.role
  if role = [] then .error (.raised "AssertionError".toList)
  else
    let new := getConfig f role
    match s with
    | some existing => do
      let keys ← deltaFunction existing.configuration new
      return updateFunction f new existing keys
    | none => return (.createFunction new f.checksum :: (updateConcurrency none f).1, true)

/-- Publish a function: the calls are made on the service. -/
def publish (arnOf : Text → Text) (f : Definition) (role : Text) (s : Option FunctionState) :
    Except Exn (Option FunctionState × List Call × Bool) := do
  let (calls, changed) ← createOrUpdate f role s
  return (calls.foldl (Call.apply arnOf) s, calls, changed)

/-! ## What is promised -/

/-- The role that is used: the one of the definition, or else the one that is given. -/
def Definition.roleOr (f : Definition) (role : Text) : Text := if f.role = [] then role else f.role

/-- The role, by its name in the account or as it is given. -/
def SameRole (role : Text) (old : Option Text) : Prop :=
  ∃ r, old = some r ∧ (r = role ∨ ∃ a, '/' ∉ a ∧ r = a ++ '/' :: role)

/-- The same subnets and security groups, in any order. -/
def SameNetworks (v : VpcConfig) (old : Option VpcConfig) : Prop :=
  (old.getD emptyVpcConfig).subnetIds.toFinset = v.subnetIds.toFinset ∧
    (old.getD emptyVpcConfig).securityGroupIds.toFinset = v.securityGroupIds.toFinset

/-- The function is the one that is defined; what is missing has its empty value. -/
structure Matches (f : Definition) (role : Text) (s : FunctionState) : Prop where
  role : SameRole role s.configuration.role
  memorySize : s.configuration.memorySize = some f.memorySize
  timeout : s.configuration.timeout = some f.timeout
  runtime : s.configuration.runtime = some f.runtime
  handler : s.configuration.handler = some f.handler
  description : s.configuration.description = some f.description
  environment : s.configuration.environment.getD emptyEnvironment = f.environment
  layers : s.configuration.layers.getD [] = f.layers
  vpcConfig : SameNetworks f.vpcConfig s.configuration.vpcConfig
  deadLetterConfig :
    s.configuration.deadLetterConfig.getD emptyDeadLetterConfig = f.deadLetterConfig
  tracingConfig : s.configuration.tracingConfig.getD emptyTracingConfig = f.tracingConfig
  kmsKeyArn : s.configuration.kmsKeyArn.getD emptyKmsKeyArn = f.kmsKeyArn
  tags : ∀ k, (s.tags.getD ∅).lookup k = f.tags.lookup k
  concurrency : s.concurrency = f.concurrency

/-- A publication gives the function that is defined, and a second one does nothing. -/
def Converges (arnOf : Text → Text) (f : Definition) (role : Text) (s : Option FunctionState) :
    Prop :=
  ∃ s' calls changed, publish arnOf f role s = .ok (some s', calls, changed) ∧
    Matches f (f.roleOr role) s' ∧ publish arnOf f role (some s') = .ok (some s', [], false)

/-- The settings of the function are those of the definition, apart from the order of the
layers and from layers and variables that the definition does not have. -/
structure UpToDate (f : Definition) (role : Text) (c : Configuration) : Prop where
  functionName : c.functionName = some f.name
  memorySize : c.memorySize = some f.memorySize
  role : SameRole role c.role
  description : c.description = some f.description
  runtime : c.runtime = some f.runtime
  handler : c.handler = some f.handler
  timeout : c.timeout = some f.timeout
  tracingConfig : c.tracingConfig.getD emptyTracingConfig = f.tracingConfig
  kmsKeyArn : c.kmsKeyArn.getD emptyKmsKeyArn = f.kmsKeyArn
  deadLetterConfig : c.deadLetterConfig.getD emptyDeadLetterConfig = f.deadLetterConfig
  networks : SameNetworks f.vpcConfig c.vpcConfig
  placeholders : ∀ v ∈ c.vpcConfig, v.vpcId.getD [] = [] ∧
    v.ipv6AllowedForDualStack.getD false = false
  layers : f.layers ≠ [] → ∃ l, c.layers = some l ∧ f.layers.Perm l
  environment : f.environment ≠ ∅ → c.environment = some f.environment

/-- The states that a publication brings to the definition. -/
structure Convergent (f : Definition) (role : Text) (c : Configuration) : Prop where
  readable : ∀ r ∈ c.role, r = role ∨ '/' ∈ r
  noLayers : f.layers = [] → c.layers.getD [] = []
  noEnvironment : f.environment = ∅ → c.environment.getD emptyEnvironment = ∅
  order : UpToDate f role c → c.layers.getD [] = f.layers

/-! ## When the comparison finds nothing -/

section Compare

variable {α : Type} [DecidableEq α]

theorem differs_none {old : Option α} {new : α} : differs none old new = false ↔ old = some new := by
  cases old <;> simp [differs]

theorem differs_some {empty new : α} {old : Option α} :
    differs (some empty) old new = false ↔ old.getD empty = new := by
  cases old <;> simp [differs]

theorem roleDiffers_eq_false {old : Option Text} {new : Text} :
    roleDiffers old new = .ok false ↔ SameRole new old := by
  cases old with
  | none => simp [roleDiffers, SameRole]
  | some o =>
    simp only [roleDiffers, SameRole, Option.some.injEq, exists_eq_left']
    by_cases hnew : new = o
    · simp [hnew]
    rw [if_neg hnew, or_iff_right (Ne.symm hnew)]
    by_cases hslash : '/' ∈ o
    · obtain ⟨a, b, rfl, ha⟩ := List.eq_append_cons_of_mem hslash
      rw [splitMax_append ha]
      simp only [splitMax, Except.ok.injEq, decide_eq_false_iff_not, ne_eq, not_not]
      constructor
      · rintro rfl
        exact ⟨a, ha, rfl⟩
      · rintro ⟨a', ha', h⟩
        have hb := congrArg (splitMax '/' 1) h
        rw [splitMax_append ha, splitMax_append ha'] at hb
        simp only [splitMax, List.cons.injEq, and_true] at hb
        exact hb.2
    · rw [splitMax_of_not_mem hslash]
      refine iff_of_false (by simp) ?_
      rintro ⟨a, -, rfl⟩
      simp at hslash

theorem roleDiffers_ok {old : Option Text} {new : Text} :
    (∃ b, roleDiffers old new = .ok b) ↔ ∀ r ∈ old, r = new ∨ '/' ∈ r := by
  cases old with
  | none => simp [roleDiffers]
  | some o =>
    simp only [roleDiffers, Option.mem_some_iff, forall_eq']
    by_cases hnew : new = o
    · simp [hnew]
    rw [if_neg hnew, or_iff_right (Ne.symm hnew)]
    by_cases hslash : '/' ∈ o
    · obtain ⟨a, b, rfl, ha⟩ := List.eq_append_cons_of_mem hslash
      rw [splitMax_append ha]
      exact iff_of_true ⟨_, rfl⟩ hslash
    · rw [splitMax_of_not_mem hslash]
      simp [hslash]

theorem vpcDiffers_eq_false {old : Option VpcConfig} {f : Definition} :
    vpcDiffers old f.vpcConfig = false ↔ SameNetworks f.vpcConfig old ∧
      ∀ v ∈ old, v.vpcId.getD [] = [] ∧ v.ipv6AllowedForDualStack.getD false = false := by
  have hid : f.vpcConfig.vpcId = none ∧ f.vpcConfig.ipv6AllowedForDualStack = none := by
    unfold Definition.vpcConfig
    split <;> exact ⟨rfl, rfl⟩
  cases old with
  | none =>
    have hempty : vpcDiffers none f.vpcConfig = false ↔ emptyVpcConfig = f.vpcConfig := by
      simp [vpcDiffers]
    rw [hempty]
    constructor
    · intro h
      rw [← h]
      exact ⟨⟨rfl, rfl⟩, by simp⟩
    · rintro ⟨⟨h₁, h₂⟩, -⟩
      have hs : f.vpcConfig.subnetIds = [] := List.toFinset_eq_empty_iff _ |>.mp h₁.symm
      have hg : f.vpcConfig.securityGroupIds = [] := List.toFinset_eq_empty_iff _ |>.mp h₂.symm
      have heta : f.vpcConfig = ⟨f.vpcConfig.subnetIds, f.vpcConfig.securityGroupIds,
        f.vpcConfig.vpcId, f.vpcConfig.ipv6AllowedForDualStack⟩ := rfl
      rw [heta, hs, hg, hid.1, hid.2]
      rfl
  | some v =>
    obtain ⟨subnets, groups, vpcId, ipv6⟩ := v
    simp only [vpcDiffers, SameNetworks, Option.getD_some, hid, Option.mem_some_iff, forall_eq',
      Bool.or_eq_false_iff, ne_eq, decide_not, Bool.not_eq_false', decide_eq_true_eq, and_assoc]
    have h₁ : subKeyDiffers (fun s : Text => !s.isEmpty) vpcId none = false ↔
        vpcId.getD [] = [] := by
      cases vpcId <;> simp [subKeyDiffers]
    have h₂ : subKeyDiffers id ipv6 none = false ↔ ipv6.getD false = false := by
      cases ipv6 <;> simp [subKeyDiffers]
    rw [h₁, h₂]

end Compare

/-! ### The comparison of all settings -/

section Delta

variable {f : Definition} {role : Text} {c : Configuration}

theorem layersDiffer_eq_false {old : Option (List Text)} {new : List Text} :
    layersDiffer old new = false ↔ ∃ l, old = some l ∧ new.Perm l := by
  cases old <;> simp [layersDiffer]

theorem layers_eq_false : (getConfig f role).layers.elim false (layersDiffer c.layers) = false ↔
    (f.layers ≠ [] → ∃ l, c.layers = some l ∧ f.layers.Perm l) := by
  by_cases h : f.layers = []
  · simp [getConfig, h]
  · simp only [getConfig, if_neg h, Option.elim_some, layersDiffer_eq_false]
    simp [h]

theorem environment_eq_false :
    (getConfig f role).environment.elim false (differs (some emptyEnvironment) c.environment) =
      false ↔ (f.environment ≠ ∅ → c.environment = some f.environment) := by
  by_cases h : f.environment = ∅
  · simp [getConfig, h]
  · simp only [getConfig, if_neg h, Option.elim_some, differs_some]
    cases c.environment with
    | none => simp [emptyEnvironment, h, Ne.symm h]
    | some e => simp [h]

/-- **The comparison finds nothing exactly on the settings that are up to date.** -/
theorem deltaFunction_eq_nil : deltaFunction c (getConfig f role) = .ok [] ↔ UpToDate f role c := by
  rw [deltaFunction, bind_eq_ok]
  simp only [pure_eq_ok, List.map_eq_nil_iff, List.filter_eq_nil_iff, List.forall_mem_cons,
    List.not_mem_nil, false_implies, implies_true, and_true, Bool.not_eq_true]
  rw [layers_eq_false, environment_eq_false]
  constructor
  · rintro ⟨b, hb, h₁, h₂, rfl, h₄, h₅, h₆, h₇, h₈, h₉, h₁₀, h₁₁, h₁₂, h₁₃⟩
    have hv := vpcDiffers_eq_false.mp h₁₁
    exact ⟨differs_none.mp h₁, differs_none.mp h₂, roleDiffers_eq_false.mp hb, differs_none.mp h₄,
      differs_none.mp h₅, differs_none.mp h₆, differs_none.mp h₇, differs_some.mp h₈,
      differs_some.mp h₉, differs_some.mp h₁₀, hv.1, hv.2, h₁₂, h₁₃⟩
  · intro h
    exact ⟨false, roleDiffers_eq_false.mpr h.role, differs_none.mpr h.functionName,
      differs_none.mpr h.memorySize, rfl, differs_none.mpr h.description,
      differs_none.mpr h.runtime, differs_none.mpr h.handler, differs_none.mpr h.timeout,
      differs_some.mpr h.tracingConfig, differs_some.mpr h.kmsKeyArn,
      differs_some.mpr h.deadLetterConfig, vpcDiffers_eq_false.mpr ⟨h.networks, h.placeholders⟩,
      h.layers, h.environment⟩

theorem deltaFunction_ok :
    (∃ keys, deltaFunction c (getConfig f role) = .ok keys) ↔ ∀ r ∈ c.role, r = role ∨ '/' ∈ r := by
  rw [← roleDiffers_ok, deltaFunction]
  constructor
  · rintro ⟨keys, h⟩
    obtain ⟨b, hb, -⟩ := bind_eq_ok.mp h
    exact ⟨b, hb⟩
  · rintro ⟨b, hb⟩
    exact ⟨_, bind_eq_ok.mpr ⟨b, hb, rfl⟩⟩

theorem upToDate_overwrite : UpToDate f role (overwrite c (getConfig f role)) where
  functionName := rfl
  memorySize := rfl
  role := ⟨role, rfl, Or.inl rfl⟩
  description := rfl
  runtime := rfl
  handler := rfl
  timeout := rfl
  tracingConfig := rfl
  kmsKeyArn := rfl
  deadLetterConfig := rfl
  networks := ⟨rfl, rfl⟩
  placeholders v hv := by
    obtain rfl : f.vpcConfig = v := Option.some.inj hv
    unfold Definition.vpcConfig
    split <;> exact ⟨rfl, rfl⟩
  layers h := by
    simp only [overwrite, getConfig, if_neg h, Option.some_or]
    exact ⟨f.layers, rfl, List.Perm.refl _⟩
  environment h := by simp only [overwrite, getConfig, if_neg h, Option.some_or]

theorem UpToDate.matches {s : FunctionState} (h : UpToDate f role s.configuration)
    (hl : s.configuration.layers.getD [] = f.layers)
    (he : f.environment = ∅ → s.configuration.environment.getD emptyEnvironment = ∅)
    (ht : ∀ k, (s.tags.getD ∅).lookup k = f.tags.lookup k) (hc : s.concurrency = f.concurrency) :
    Matches f role s where
  role := h.role
  memorySize := h.memorySize
  timeout := h.timeout
  runtime := h.runtime
  handler := h.handler
  description := h.description
  environment := by
    by_cases hf : f.environment = ∅
    · rw [he hf, hf]
    · rw [h.environment hf]
      rfl
  layers := hl
  vpcConfig := h.networks
  deadLetterConfig := h.deadLetterConfig
  tracingConfig := h.tracingConfig
  kmsKeyArn := h.kmsKeyArn
  tags := ht
  concurrency := hc

end Delta

/-! ## What each group of calls does -/

section Calls

variable {arnOf : Text → Text} {f : Definition} {role : Text} {s : FunctionState}

theorem foldl_updateCode : (updateCode f s.configuration).foldl (Call.apply arnOf) (some s) =
    some { s with configuration := { s.configuration with codeSha256 := f.checksum } } := by
  unfold updateCode
  split
  · rfl
  · rename_i h
    rw [not_not.mp h]
    rfl

theorem lookup_diffTags (old new : Dict Text Text) (k : Text) :
    (((old.update (diffTags old new).1).dropKeys fun k => decide (k ∈ (diffTags old new).2)).lookup
      k) = new.lookup k := by
  have hmem : k ∈ (diffTags old new).2 ↔ k ∈ old ∧ k ∉ new := by
    rw [diffTags, List.mem_filter, decide_eq_true_eq, ← AList.mem_keys]
  rw [Dict.lookup_dropKeys, Dict.lookup_update, diffTags, Dict.lookup_keepKeys]
  cases hn : new.lookup k with
  | some v =>
    have hk : k ∈ new := AList.lookup_isSome.mp (by rw [hn]; rfl)
    rw [if_neg (by simp only [decide_eq_true_eq]; exact fun h => (hmem.mp h).2 hk)]
    by_cases ho : old.lookup k = some v
    · simp [ho]
    · simp [ho]
  | none =>
    have hk : k ∉ new := AList.lookup_eq_none.mp hn
    by_cases ho : k ∈ old
    · rw [if_pos (by simp only [decide_eq_true_eq]; exact hmem.mpr ⟨ho, hk⟩)]
    · have hno : old.lookup k = none := AList.lookup_eq_none.mpr ho
      simp [hno]

theorem lookup_update_nil {d e : Dict Text Text} (h : e.keys = []) (k : Text) :
    (d.update e).lookup k = d.lookup k := by
  have hno : e.lookup k = none := by
    rw [AList.lookup_eq_none, AList.mem_keys, h]
    simp
  rw [Dict.lookup_update, hno, Option.none_or]

theorem foldl_updateTags (new : Dict Text Text) : ∃ tags : Option (Dict Text Text),
    (updateTags s.tags new).foldl (Call.apply arnOf) (some s) = some { s with tags := tags } ∧
      ∀ k, (tags.getD ∅).lookup k = new.lookup k := by
  have hl := lookup_diffTags (s.tags.getD ∅) new
  rw [updateTags]
  by_cases h₁ : (diffTags (s.tags.getD ∅) new).1.keys = [] <;>
    by_cases h₂ : (diffTags (s.tags.getD ∅) new).2 = []
  · simp only [if_pos h₁, if_pos h₂]
    refine ⟨s.tags, rfl, fun k => ?_⟩
    rw [← hl k, Dict.lookup_dropKeys, lookup_update_nil h₁, h₂]
    simp
  · simp only [if_pos h₁, if_neg h₂]
    refine ⟨_, rfl, fun k => ?_⟩
    rw [← hl k, Dict.lookup_dropKeys, lookup_update_nil h₁, Option.getD_some, Dict.lookup_dropKeys]
  · simp only [if_neg h₁, if_pos h₂]
    refine ⟨_, rfl, fun k => ?_⟩
    rw [← hl k, Dict.lookup_dropKeys, h₂]
    simp
  · simp only [if_neg h₁, if_neg h₂]
    exact ⟨_, rfl, hl⟩

theorem updateTags_eq_nil {old : Option (Dict Text Text)} {new : Dict Text Text}
    (h : ∀ k, (old.getD ∅).lookup k = new.lookup k) : updateTags old new = [] := by
  have h₁ : (diffTags (old.getD ∅) new).1.keys = [] := by
    simp [diffTags, Dict.keepKeys, AList.keys, List.keys, h]
  have h₂ : (diffTags (old.getD ∅) new).2 = [] := by
    rw [diffTags, List.filter_eq_nil_iff]
    intro k hk
    rw [← AList.mem_keys, ← AList.lookup_isSome, h k, AList.lookup_isSome] at hk
    simpa using hk
  rw [updateTags, if_pos h₁, if_pos h₂]
  rfl

theorem foldl_updateArchitecture (new : Option (List Text))
    (hsha : s.configuration.codeSha256 = f.checksum) : ∃ architectures : Option (List Text),
    (updateArchitecture f s.configuration new).foldl (Call.apply arnOf) (some s) =
      some { s with configuration := { s.configuration with architectures := architectures } } ∧
      architectures.getD defaultArchitectures = new.getD defaultArchitectures := by
  unfold updateArchitecture
  simp only
  split
  · refine ⟨some (new.getD defaultArchitectures), ?_, rfl⟩
    simp only [List.foldl_cons, List.foldl_nil, Call.apply, Option.map_some, ← hsha]
    rfl
  · rename_i h
    exact ⟨s.configuration.architectures, rfl, not_not.mp h⟩

theorem foldl_updateConcurrency :
    (updateConcurrency s.concurrency f).1.foldl (Call.apply arnOf) (some s) =
      some { s with concurrency := f.concurrency } := by
  unfold updateConcurrency
  split
  · rename_i h
    rw [← h]
    rfl
  · cases hc : f.concurrency <;> rfl

end Calls

/-! ## Publishing once and twice -/

section Publish

variable {arnOf : Text → Text} {f : Definition} {role : Text} {s : FunctionState}

/-- The configuration after a publication whose comparison found these keys. -/
def configured (f : Definition) (role : Text) (keys : List Text) (c : Configuration)
    (architectures : Option (List Text)) : Configuration :=
  let c := { c with codeSha256 := f.checksum, architectures := architectures }
  if keys = [] then c else overwrite c (getConfig f role)

/-- **What a publication over an existing function does.** -/
theorem publish_existing (hrole : f.roleOr role ≠ []) {keys : List Text}
    (hkeys : deltaFunction s.configuration (getConfig f (f.roleOr role)) = .ok keys) :
    ∃ calls changed tags architectures, publish arnOf f role (some s) =
      .ok (some ⟨configured f (f.roleOr role) keys s.configuration architectures, tags,
        f.concurrency⟩, calls, changed) ∧
      (∀ k, (tags.getD ∅).lookup k = f.tags.lookup k) ∧
      architectures.getD defaultArchitectures =
        (getConfig f (f.roleOr role)).architectures.getD defaultArchitectures := by
  obtain ⟨tags, htags, hlookup⟩ := @foldl_updateTags arnOf
    { s with configuration := { s.configuration with codeSha256 := f.checksum } } f.tags
  obtain ⟨architectures, harch, hdefault⟩ := @foldl_updateArchitecture arnOf f
    ⟨{ s.configuration with codeSha256 := f.checksum }, tags, s.concurrency⟩
    (getConfig f (f.roleOr role)).architectures rfl
  have hcreate : createOrUpdate f role (some s) =
      .ok (updateFunction f (getConfig f (f.roleOr role)) s keys) := by
    rw [createOrUpdate]
    simp only [show (if f.role = [] then role else f.role) = f.roleOr role from rfl, if_neg hrole,
      hkeys]
    rfl
  refine ⟨(updateFunction f (getConfig f (f.roleOr role)) s keys).1,
    (updateFunction f (getConfig f (f.roleOr role)) s keys).2, tags, architectures, ?_, hlookup,
    hdefault⟩
  rw [publish, hcreate]
  simp only [bind, Except.bind, pure, Except.pure, Except.ok.injEq, Prod.mk.injEq, and_true,
    updateFunction, List.foldl_append]
  rw [foldl_updateCode]
  have htags' : (updateTags s.tags (getConfig f (f.roleOr role)).tags).foldl (Call.apply arnOf)
      (some { s with configuration := { s.configuration with codeSha256 := f.checksum } }) =
      some ⟨{ s.configuration with codeSha256 := f.checksum }, tags, s.concurrency⟩ := htags
  have harch' : (updateArchitecture f s.configuration
      (getConfig f (f.roleOr role)).architectures).foldl (Call.apply arnOf)
      (some ⟨{ s.configuration with codeSha256 := f.checksum }, tags, s.concurrency⟩) =
      some ⟨{ s.configuration with codeSha256 := f.checksum, architectures := architectures },
        tags, s.concurrency⟩ := harch
  rw [htags', harch']
  have hconfig : (if keys = [] then [] else
      [Call.updateFunctionConfiguration (getConfig f (f.roleOr role))]).foldl (Call.apply arnOf)
      (some ⟨{ s.configuration with codeSha256 := f.checksum, architectures := architectures },
        tags, s.concurrency⟩) =
      some ⟨configured f (f.roleOr role) keys s.configuration architectures, tags,
        s.concurrency⟩ := by
    unfold configured
    split <;> rfl
  rw [hconfig]
  exact @foldl_updateConcurrency arnOf f
    ⟨configured f (f.roleOr role) keys s.configuration architectures, tags, s.concurrency⟩

theorem upToDate_configured {keys : List Text} {architectures : Option (List Text)}
    (hkeys : deltaFunction s.configuration (getConfig f role) = .ok keys) :
    UpToDate f role (configured f role keys s.configuration architectures) := by
  unfold configured
  split
  · rename_i h
    rw [h] at hkeys
    have hup := deltaFunction_eq_nil.mp hkeys
    exact ⟨hup.functionName, hup.memorySize, hup.role, hup.description, hup.runtime, hup.handler,
      hup.timeout, hup.tracingConfig, hup.kmsKeyArn, hup.deadLetterConfig, hup.networks,
      hup.placeholders, hup.layers, hup.environment⟩
  · exact upToDate_overwrite

/-- **A publication over an up-to-date function makes no call and reports no change.** -/
theorem publish_quiet (hrole : f.roleOr role ≠ []) (hup : UpToDate f (f.roleOr role) s.configuration)
    (hsha : s.configuration.codeSha256 = f.checksum)
    (htags : ∀ k, (s.tags.getD ∅).lookup k = f.tags.lookup k)
    (harch : s.configuration.architectures.getD defaultArchitectures =
      (getConfig f (f.roleOr role)).architectures.getD defaultArchitectures)
    (hconc : s.concurrency = f.concurrency) :
    publish arnOf f role (some s) = .ok (some s, [], false) := by
  have hcode : updateCode f s.configuration = [] := if_neg (not_not.mpr hsha.symm)
  have htag : updateTags s.tags (getConfig f (f.roleOr role)).tags = [] := updateTags_eq_nil htags
  have har : updateArchitecture f s.configuration (getConfig f (f.roleOr role)).architectures = [] :=
    if_neg (not_not.mpr harch)
  have hco : updateConcurrency s.concurrency f = ([], false) := if_pos hconc
  rw [publish, createOrUpdate]
  simp only [show (if f.role = [] then role else f.role) = f.roleOr role from rfl, if_neg hrole,
    deltaFunction_eq_nil.mpr hup, updateFunction, hcode, htag, har, hco, bind, Except.bind, pure,
    Except.pure]
  rfl

theorem publish_twice (hrole : f.roleOr role ≠ []) {keys : List Text}
    (hkeys : deltaFunction s.configuration (getConfig f (f.roleOr role)) = .ok keys) :
    ∃ calls changed s', publish arnOf f role (some s) = .ok (some s', calls, changed) ∧
      publish arnOf f role (some s') = .ok (some s', [], false) ∧
      UpToDate f (f.roleOr role) s'.configuration ∧
      (∀ k, (s'.tags.getD ∅).lookup k = f.tags.lookup k) ∧ s'.concurrency = f.concurrency ∧
      ∃ architectures, s'.configuration =
        configured f (f.roleOr role) keys s.configuration architectures := by
  obtain ⟨calls, changed, tags, architectures, hpub, htags, harch⟩ :=
    @publish_existing arnOf f role s hrole keys hkeys
  refine ⟨calls, changed, _, hpub, publish_quiet hrole (upToDate_configured hkeys) ?_ htags ?_ rfl,
    upToDate_configured hkeys, htags, rfl, architectures, rfl⟩
  · unfold configured
    split <;> rfl
  · rw [← harch]
    unfold configured
    split <;> rfl

theorem layers_configured {keys : List Text} {architectures : Option (List Text)}
    (hkeys : deltaFunction s.configuration (getConfig f role) = .ok keys) :
    (configured f role keys s.configuration architectures).layers.getD [] = f.layers ↔
      (f.layers = [] → s.configuration.layers.getD [] = []) ∧
        (UpToDate f role s.configuration → s.configuration.layers.getD [] = f.layers) := by
  rw [← deltaFunction_eq_nil, hkeys]
  unfold configured
  by_cases h : keys = []
  · simp only [h, if_true]
    constructor
    · intro hl
      exact ⟨fun he => hl.trans he, fun _ => hl⟩
    · exact fun hc => hc.2 trivial
  · simp only [overwrite, getConfig, Except.ok.injEq, h, false_implies, and_true]
    by_cases he : f.layers = []
    · simp [he]
    · simp [he]

theorem environment_configured {keys : List Text} {architectures : Option (List Text)}
    (hf : f.environment = ∅) :
    (configured f role keys s.configuration architectures).environment =
      s.configuration.environment := by
  unfold configured
  split
  · rfl
  · simp [overwrite, getConfig, hf]

/-- **Converging.**  A publication gives the function that is defined, and a second one changes
nothing, exactly when there is a role, the existing role can be compared with it, and the
existing function has no layers or variables that the definition leaves out and no other order
of the layers. -/
theorem converges_existing_iff : Converges arnOf f role (some s) ↔
    f.roleOr role ≠ [] ∧ Convergent f (f.roleOr role) s.configuration := by
  constructor
  · rintro ⟨s', calls, changed, hpub, hm, -⟩
    have hrole : f.roleOr role ≠ [] := by
      intro h
      rw [publish, createOrUpdate,
        if_pos (show (if f.role = [] then role else f.role) = [] from h)] at hpub
      cases hpub
    have hread : ∀ r ∈ s.configuration.role, r = f.roleOr role ∨ '/' ∈ r := by
      apply deltaFunction_ok.mp
      rw [publish, createOrUpdate] at hpub
      simp only [show (if f.role = [] then role else f.role) = f.roleOr role from rfl,
        if_neg hrole] at hpub
      obtain ⟨_, hc, -⟩ := bind_eq_ok.mp hpub
      obtain ⟨keys, hk, -⟩ := bind_eq_ok.mp hc
      exact ⟨keys, hk⟩
    obtain ⟨keys, hkeys⟩ := deltaFunction_ok.mpr hread
    obtain ⟨calls', changed', s'', hpub', -, -, -, -, architectures, hs⟩ :=
      @publish_twice arnOf f role s hrole keys hkeys
    rw [hpub] at hpub'
    obtain rfl : s' = s'' := by
      simp only [Except.ok.injEq, Prod.mk.injEq, Option.some.injEq] at hpub'
      exact hpub'.1
    have hl := hm.layers
    rw [hs, layers_configured hkeys] at hl
    refine ⟨hrole, hread, hl.1, fun he => ?_, hl.2⟩
    have henv := hm.environment
    rwa [hs, environment_configured he, he] at henv
  · rintro ⟨hrole, hc⟩
    obtain ⟨keys, hkeys⟩ := deltaFunction_ok.mpr hc.readable
    obtain ⟨calls, changed, s', hpub, hpub', hup, htags, hconc, architectures, hs⟩ :=
      @publish_twice arnOf f role s hrole keys hkeys
    refine ⟨s', calls, changed, hpub, hup.matches ?_ ?_ htags hconc, hpub'⟩
    · rw [hs, layers_configured hkeys]
      exact ⟨hc.noLayers, hc.order⟩
    · intro he
      rw [hs, environment_configured he]
      exact hc.noEnvironment he

/-- A function that was created. -/
def created (arnOf : Text → Text) (f : Definition) (role : Text) : FunctionState :=
  let c := overwrite (blankConfiguration (arnOf f.name)) (getConfig f role)
  ⟨{ c with codeSha256 := f.checksum, architectures := (getConfig f role).architectures },
    some f.tags, f.concurrency⟩

theorem publish_create (hrole : f.roleOr role ≠ []) : publish arnOf f role none =
    .ok (some (created arnOf f (f.roleOr role)),
      .createFunction (getConfig f (f.roleOr role)) f.checksum :: (updateConcurrency none f).1,
      true) := by
  rw [publish, createOrUpdate]
  simp only [show (if f.role = [] then role else f.role) = f.roleOr role from rfl, if_neg hrole,
    bind, Except.bind, pure, Except.pure, List.foldl_cons]
  have hconc := @foldl_updateConcurrency arnOf f { created arnOf f (f.roleOr role) with
    concurrency := none }
  exact congrArg (fun x => Except.ok (x, _, true)) hconc

theorem converges_create (hrole : f.roleOr role ≠ []) : Converges arnOf f role none := by
  have hup : UpToDate f (f.roleOr role) (created arnOf f (f.roleOr role)).configuration := by
    have h := @upToDate_overwrite f (f.roleOr role) (blankConfiguration (arnOf f.name))
    exact ⟨h.functionName, h.memorySize, h.role, h.description, h.runtime, h.handler, h.timeout,
      h.tracingConfig, h.kmsKeyArn, h.deadLetterConfig, h.networks, h.placeholders, h.layers,
      h.environment⟩
  refine ⟨_, _, _, publish_create hrole, hup.matches ?_ ?_ (fun _ => rfl) rfl,
    publish_quiet hrole hup rfl (fun _ => rfl) rfl rfl⟩
  · by_cases he : f.layers = []
    · simp [created, overwrite, blankConfiguration, getConfig, he]
    · simp [created, overwrite, blankConfiguration, getConfig, he]
  · intro he
    simp [created, overwrite, blankConfiguration, getConfig, he, emptyEnvironment]

/-- **From every state, existing or not.** -/
theorem converges_iff (t : Option FunctionState) : Converges arnOf f role t ↔
    f.roleOr role ≠ [] ∧ ∀ s ∈ t, Convergent f (f.roleOr role) s.configuration := by
  cases t with
  | some s => simpa using converges_existing_iff
  | none =>
    simp only [Option.not_mem_none, false_implies, implies_true, and_true]
    constructor
    · rintro ⟨s', calls, changed, hpub, -⟩ h
      rw [publish, createOrUpdate,
        if_pos (show (if f.role = [] then role else f.role) = [] from h)] at hpub
      cases hpub
    · exact converges_create

end Publish

/-! ## A layer that the policy no longer has -/

def helloWorld : Definition where
  name := "custodian-hello-world".toList
  memorySize := 512
  role := "arn:aws:iam::644160558196:role/custodian-mu".toList
  description := "cloud-custodian lambda policy".toList
  runtime := "python3.11".toList
  handler := "custodian_policy.run".toList
  timeout := 900
  tracingConfig := emptyTracingConfig
  kmsKeyArn := []
  deadLetterConfig := emptyDeadLetterConfig
  layers := []
  environment := emptyEnvironment
  subnets := none
  securityGroups := none
  tags := ∅
  architectures := none
  concurrency := none
  checksum := "sha".toList

/-- The function as it was published with a layer. -/
def layered : FunctionState where
  configuration :=
    { overwrite (blankConfiguration "arn".toList) (getConfig helloWorld helloWorld.role) with
      codeSha256 := helloWorld.checksum
      layers := some ["arn:aws:lambda:us-east-1:644160558196:layer:Powertools:59".toList] }
  tags := none
  concurrency := none

theorem layer_stays (arnOf : Text → Text) :
    publish arnOf helloWorld [] (some layered) = .ok (some layered, [], false) := by
  have hup : UpToDate helloWorld (helloWorld.roleOr []) layered.configuration := by
    have h := @upToDate_overwrite helloWorld (helloWorld.roleOr []) (blankConfiguration "arn".toList)
    exact ⟨h.functionName, h.memorySize, h.role, h.description, h.runtime, h.handler, h.timeout,
      h.tracingConfig, h.kmsKeyArn, h.deadLetterConfig, h.networks, h.placeholders,
      fun hl => absurd rfl hl, fun he => absurd rfl he⟩
  exact publish_quiet (by decide) hup rfl (fun _ => rfl) rfl rfl

theorem layer_not_removed : publish id helloWorld [] (some layered) = .ok (some layered, [], false) ∧
    layered.configuration.layers.getD [] ≠ helloWorld.layers ∧
    ¬ Converges id helloWorld [] (some layered) := by
  refine ⟨layer_stays id, by decide, ?_⟩
  rintro ⟨s', calls, changed, hpub, hm, -⟩
  rw [layer_stays id] at hpub
  simp only [Except.ok.injEq, Prod.mk.injEq, Option.some.injEq] at hpub
  obtain ⟨rfl, -, -⟩ := hpub
  have hlayers := hm.layers
  revert hlayers
  decide

end Custodian.Mu

import Custodian.Lib.Dict
import Custodian.Lib.Except
import Custodian.Lib.Text
import Mathlib.Data.List.TakeWhile

/-!
# Schedules of policy lambdas

`EventBridgeScheduleSource` of `c7n/mu.py` keeps one schedule per function in a
schedule group of the scheduler service; the group of the last publication is
written in a tag of the function.
-/

namespace Custodian.Mu

open Py

/-! ## The scheduler service -/

def isNameChar (c : Char) : Bool := c.isAlphanum || c = '-' || c = '_'

/-- The characters of the names of schedules and groups. -/
def isGroupChar (c : Char) : Bool := isNameChar c || c = '.'

/-- The names of functions that the lambda service accepts. -/
def isFunctionName (s : Text) : Bool := s.all isNameChar && 1 ≤ s.length && s.length ≤ 64

/-- The names of schedules and groups that the scheduler service accepts. -/
def isGroupName (s : Text) : Bool := s.all isGroupChar && 1 ≤ s.length && s.length ≤ 64

def clientError (code : String) : Exn := .raised code.toList

/-- A schedule, without its name and group. -/
structure Schedule where
  state : Option Text
  startDate : Option Text
  endDate : Option Text
  expression : Option Text
  timezone : Option Text
  description : Option Text
  flexibleTimeWindow : Option Text
  targetArn : Option Text
  roleArn : Option Text
  deriving DecidableEq

/-- The groups there are, and the schedules by group and name. -/
structure Scheduler where
  groups : List Text
  schedules : Dict (Text × Text) Schedule

namespace Scheduler

/-- A schedule with this name is in this group. -/
def Has (s : Scheduler) (group name : Text) : Prop := (group, name) ∈ s.schedules

/-- Every call names a schedule and a group. -/
def checkNames (group name : Text) : Except Exn Unit :=
  if isGroupName group ∧ isGroupName name then .ok ()
  else .error (clientError "ValidationException")

/-- `resource_exists(client.get_schedule, Name=name, GroupName=group)` -/
def getSchedule (s : Scheduler) (group name : Text) : Except Exn (Option Schedule) := do
  checkNames group name
  return s.schedules.lookup (group, name)

def createSchedule (s : Scheduler) (group name : Text) (v : Schedule) : Except Exn Scheduler := do
  checkNames group name
  if group ∉ s.groups then .error (clientError "ResourceNotFoundException")
  else if (group, name) ∈ s.schedules then .error (clientError "ConflictException")
  else return { s with schedules := s.schedules.insert (group, name) v }

def updateSchedule (s : Scheduler) (group name : Text) (v : Schedule) : Except Exn Scheduler := do
  checkNames group name
  if (group, name) ∉ s.schedules then .error (clientError "ResourceNotFoundException")
  else return { s with schedules := s.schedules.insert (group, name) v }

def deleteSchedule (s : Scheduler) (group name : Text) : Except Exn Scheduler := do
  checkNames group name
  if (group, name) ∉ s.schedules then .error (clientError "ResourceNotFoundException")
  else return { s with schedules := s.schedules.erase (group, name) }

end Scheduler

/-! ## The event source -/

/-- The mode block of the policy. -/
structure ScheduleData where
  schedule : Option Text
  timezone : Option Text
  groupName : Option Text
  schedulerRole : Option Text

/-- What an event source reads of a function. -/
structure Func where
  eventName : Text
  description : Text
  arn : Text

/-- `normalize_arn` -/
def normalizeArn (arn : Text) : Text :=
  if 6 < arn.count ':' then ((arn.reverse.dropWhile (· ≠ ':')).tail).reverse else arn

def defaultGroup : Text := "default".toList

/-- The group of the policy. -/
def ScheduleData.group (data : ScheduleData) : Text := data.groupName.getD defaultGroup

/-- The parameters of the calls to the service. -/
def ScheduleData.params (data : ScheduleData) (func : Func) : Schedule where
  state := some "ENABLED".toList
  startDate := none
  endDate := none
  expression := data.schedule
  timezone := some (data.timezone.getD "Etc/UTC".toList)
  description := some func.description
  flexibleTimeWindow := some "OFF".toList
  targetArn := some (normalizeArn func.arn)
  roleArn := data.schedulerRole

/-- `EventBridgeScheduleSource.delta`, for two schedules of one group. -/
def delta (src tgt : Schedule) : Bool :=
  src.state ≠ tgt.state || src.startDate ≠ tgt.startDate || src.endDate ≠ tgt.endDate ||
  src.expression ≠ tgt.expression || src.timezone ≠ tgt.timezone ||
  src.description ≠ tgt.description || src.targetArn ≠ tgt.targetArn || src.roleArn ≠ tgt.roleArn

/-- The match of `schedule_tag_pattern`: the group of a tag value.  The end of
the pattern also matches in front of a last line break. -/
def matchScheduleTag (v : Text) : Option Text :=
  let afterName := (v.drop 5).dropWhile isNameChar
  let name := (v.drop 5).takeWhile isNameChar
  let afterGroup := (afterName.drop 7).dropWhile isGroupChar
  let group := (afterName.drop 7).takeWhile isGroupChar
  if v.take 5 = "name=".toList ∧ isFunctionName name ∧ afterName.take 7 = ":group=".toList ∧
      isGroupName group ∧ (afterGroup = [] ∨ afterGroup = ['\n']) then some group
  else none

def scheduleTagKey : Text := "custodian-schedule".toList

/-- `_get_previous_group` of the tags of the existing function. -/
def previousGroup (existing : Option (Dict Text Text)) : Option Text := do
  let tags ← existing
  let tag ← tags.lookup scheduleTagKey
  matchScheduleTag tag

/-- The first part of `add`: the schedule of the policy is there and up to date. -/
def publishSchedule (data : ScheduleData) (func : Func) (s : Scheduler) : Except Exn Scheduler := do
  let found ← s.getSchedule data.group func.eventName
  match found with
  | some schedule =>
    if delta schedule (data.params func) then
      s.updateSchedule data.group func.eventName (data.params func)
    else .ok s
  | none => s.createSchedule data.group func.eventName (data.params func)

/-- The second part: the schedule in the previous group is deleted. -/
def leaveGroup (data : ScheduleData) (func : Func) (existing : Option (Dict Text Text))
    (s : Scheduler) : Except Exn Scheduler :=
  match previousGroup existing with
  | some previous =>
    if previous ≠ data.group then s.deleteSchedule previous func.eventName else .ok s
  | none => .ok s

/-- `EventBridgeScheduleSource.add` -/
def add (data : ScheduleData) (func : Func) (existing : Option (Dict Text Text)) (s : Scheduler) :
    Except Exn Scheduler := do
  let s ← publishSchedule data func s
  leaveGroup data func existing s

/-- `EventBridgeScheduleSource.remove`, which looks for the schedule in the default group. -/
def remove (data : ScheduleData) (func : Func) (s : Scheduler) : Except Exn Scheduler := do
  let found ← s.getSchedule defaultGroup func.eventName
  if found.isSome then s.deleteSchedule data.group func.eventName else .ok s

/-! ## Publishing a policy -/

/-- A policy in schedule mode. -/
structure Policy where
  name : Text
  functionPrefix : Option Text
  description : Text
  tags : Dict Text Text
  data : ScheduleData

/-- The name of the function of a policy. -/
def Policy.functionName (p : Policy) : Text :=
  p.functionPrefix.getD "custodian-".toList ++ p.name

/-- The value of the tag `custodian-schedule`. -/
def scheduleTag (name group : Text) : Text :=
  "name=".toList ++ name ++ ":group=".toList ++ group

/-- The tags of the function: those of the policy, its mode and version, its name and group. -/
def Policy.functionTags (p : Policy) (version : Text) : Dict Text Text :=
  (p.tags.insert "custodian-info".toList ("mode=schedule:version=".toList ++ version)).insert
    scheduleTagKey (scheduleTag p.functionName p.data.group)

/-- The tags of the functions by their names, and the scheduler. -/
structure Account where
  functions : Dict Text (Dict Text Text)
  scheduler : Scheduler

/-- `LambdaMode.provision` in schedule mode: the function is published with the
tags, and the event source is told of the function that was there before. -/
def provision (p : Policy) (arn version : Text) (a : Account) : Except Exn Account := do
  if isFunctionName p.functionName = false then .error (clientError "ValidationException")
  else do
    let existing := a.functions.lookup p.functionName
    let scheduler ← add p.data ⟨p.functionName, p.description, arn⟩ existing a.scheduler
    return ⟨a.functions.insert p.functionName (p.functionTags version), scheduler⟩

/-! ## The tag is read as it was written -/

theorem span_append {p : Char → Bool} {a b : Text} (ha : a.all p = true)
    (hb : ∀ c ∈ b.head?, p c = false) : (a ++ b).takeWhile p = a ∧ (a ++ b).dropWhile p = b := by
  have ha' : ∀ c ∈ a, p c = true := List.all_eq_true.mp ha
  rw [List.takeWhile_append_of_pos ha', List.dropWhile_append_of_pos ha']
  cases b with
  | nil => simp
  | cons c b => simp [hb c rfl]

theorem matchScheduleTag_scheduleTag {name group : Text} (hn : isFunctionName name = true)
    (hg : isGroupName group = true) : matchScheduleTag (scheduleTag name group) = some group := by
  have hn' : name.all isNameChar = true := by
    simp only [isFunctionName, Bool.and_eq_true] at hn
    exact hn.1.1
  have hg' : group.all isGroupChar = true := by
    simp only [isGroupName, Bool.and_eq_true] at hg
    exact hg.1.1
  have htake : (scheduleTag name group).take 5 = "name=".toList := rfl
  have hdrop : (scheduleTag name group).drop 5 = name ++ (":group=".toList ++ group) := by
    -- the texts are variables here: rewriting with the literals would compute them
    have happend : ∀ a b : Text, a ++ name ++ b ++ group = a ++ (name ++ (b ++ group)) := by
      intro a b
      rw [List.append_assoc, List.append_assoc]
    exact (congrArg (List.drop 5) (happend _ _)).trans (List.drop_left' rfl)
  obtain ⟨h₁, h₂⟩ := span_append hn' (show ∀ c ∈ (":group=".toList ++ group).head?,
    isNameChar c = false by rintro c ⟨⟩; decide)
  obtain ⟨h₃, h₄⟩ := span_append (b := []) hg' (by simp)
  rw [List.append_nil] at h₃ h₄
  have h₅ : (":group=".toList ++ group).take 7 = ":group=".toList := rfl
  have h₆ : (":group=".toList ++ group).drop 7 = group := rfl
  rw [matchScheduleTag, htake, hdrop]
  simp only [h₁, h₂, h₃, h₄, h₅, h₆, hn, hg, true_and, true_or, if_true]

theorem previousGroup_scheduleTag {tags : Dict Text Text} {name group : Text}
    (h : tags.lookup scheduleTagKey = some (scheduleTag name group))
    (hn : isFunctionName name = true) (hg : isGroupName group = true) :
    previousGroup (some tags) = some group := by
  show (tags.lookup scheduleTagKey).bind matchScheduleTag = some group
  rw [h, Option.bind_some, matchScheduleTag_scheduleTag hn hg]

/-! ## What each call does -/

section Calls

variable {s s' : Scheduler} {group name : Text} {v : Schedule}

theorem checkNames_ok (hg : isGroupName group = true) (hn : isGroupName name = true) :
    Scheduler.checkNames group name = .ok () := if_pos ⟨hg, hn⟩

theorem of_checkNames (h : Scheduler.checkNames group name = .ok ()) :
    isGroupName group = true ∧ isGroupName name = true := by
  unfold Scheduler.checkNames at h
  split at h
  · assumption
  · cases h

/-- The schedules of a state, and the one that was written. -/
def Wrote (s s' : Scheduler) (group name : Text) : Prop :=
  s'.groups = s.groups ∧ ∀ g n, s'.Has g n ↔ (g = group ∧ n = name) ∨ s.Has g n

theorem wrote_insert (s : Scheduler) (group name : Text) (v : Schedule) :
    Wrote s { s with schedules := s.schedules.insert (group, name) v } group name := by
  refine ⟨rfl, fun g n => ?_⟩
  simp only [Scheduler.Has, AList.mem_insert, Prod.mk.injEq]

theorem createSchedule_wrote (h : s.createSchedule group name v = .ok s') :
    Wrote s s' group name := by
  obtain ⟨_, -, h⟩ := bind_eq_ok.mp h
  split at h
  · cases h
  split at h
  · cases h
  · cases pure_eq_ok.mp h
    exact wrote_insert s group name v

theorem updateSchedule_wrote (h : s.updateSchedule group name v = .ok s') :
    Wrote s s' group name := by
  obtain ⟨_, -, h⟩ := bind_eq_ok.mp h
  split at h
  · cases h
  · cases pure_eq_ok.mp h
    exact wrote_insert s group name v

theorem deleteSchedule_has (h : s.deleteSchedule group name = .ok s') :
    s'.groups = s.groups ∧ ∀ g n, s'.Has g n ↔ s.Has g n ∧ ¬ (g = group ∧ n = name) := by
  obtain ⟨_, -, h⟩ := bind_eq_ok.mp h
  split at h
  · cases h
  · cases pure_eq_ok.mp h
    refine ⟨rfl, fun g n => ?_⟩
    simp only [Scheduler.Has, AList.mem_erase, ne_eq, Prod.mk.injEq]
    exact and_comm

theorem deleteSchedule_ok (hg : isGroupName group = true) (hn : isGroupName name = true)
    (h : s.Has group name) : ∃ s', s.deleteSchedule group name = .ok s' := by
  rw [Scheduler.deleteSchedule, checkNames_ok hg hn]
  exact ⟨_, if_neg (not_not.mpr h)⟩

end Calls

/-! ## Adding the event source -/

section Add

variable {data : ScheduleData} {func : Func} {existing : Option (Dict Text Text)} {s s' : Scheduler}

theorem add_eq : add data func existing s =
    publishSchedule data func s >>= leaveGroup data func existing := rfl

theorem publishSchedule_wrote (h : publishSchedule data func s = .ok s') :
    Wrote s s' data.group func.eventName ∧ isGroupName data.group = true ∧
      isGroupName func.eventName = true := by
  obtain ⟨found, hf, h⟩ := bind_eq_ok.mp h
  obtain ⟨_, hc, hf⟩ := bind_eq_ok.mp hf
  refine ⟨?_, of_checkNames hc⟩
  have hfound := pure_eq_ok.mp hf
  cases found with
  | none => exact createSchedule_wrote h
  | some schedule =>
    simp only at h
    split at h
    · exact updateSchedule_wrote h
    · cases h
      refine ⟨rfl, fun g n => ⟨Or.inr, ?_⟩⟩
      rintro (⟨rfl, rfl⟩ | hs)
      · exact AList.lookup_isSome.mp (by rw [hfound]; rfl)
      · exact hs

theorem publishSchedule_ok (hg : isGroupName data.group = true)
    (hn : isGroupName func.eventName = true) (hmem : data.group ∈ s.groups) :
    ∃ s', publishSchedule data func s = .ok s' := by
  rw [publishSchedule, Scheduler.getSchedule, checkNames_ok hg hn]
  cases hl : s.schedules.lookup (data.group, func.eventName) with
  | none =>
    have hno : (data.group, func.eventName) ∉ s.schedules := AList.lookup_eq_none.mp hl
    simp only [bind, Except.bind, pure, Except.pure, Scheduler.createSchedule,
      checkNames_ok hg hn, if_neg (not_not.mpr hmem), if_neg hno]
    exact ⟨_, rfl⟩
  | some schedule =>
    have hyes : (data.group, func.eventName) ∈ s.schedules :=
      AList.lookup_isSome.mp (by rw [hl]; rfl)
    simp only [bind, Except.bind, pure, Except.pure, Scheduler.updateSchedule,
      checkNames_ok hg hn, if_neg (not_not.mpr hyes)]
    split <;> exact ⟨_, rfl⟩

/-- **What `add` leaves**: the schedule of the policy is there and the one in the previous
group is not. -/
theorem add_has (h : add data func existing s = .ok s') (g n : Text) :
    s'.Has g n ↔ ((g = data.group ∧ n = func.eventName) ∨ s.Has g n) ∧
      ¬ (previousGroup existing = some g ∧ g ≠ data.group ∧ n = func.eventName) := by
  rw [add_eq, bind_eq_ok] at h
  obtain ⟨s₁, h₁, h⟩ := h
  have hw := (publishSchedule_wrote h₁).1.2 g n
  unfold leaveGroup at h
  cases hp : previousGroup existing with
  | none =>
    rw [hp] at h
    cases h
    simp [hw]
  | some previous =>
    rw [hp] at h
    simp only at h
    split at h
    · rename_i hne
      rw [(deleteSchedule_has h).2, hw]
      grind
    · rename_i heq
      cases h
      rw [hw]
      grind

theorem add_groups (h : add data func existing s = .ok s') : s'.groups = s.groups := by
  rw [add_eq, bind_eq_ok] at h
  obtain ⟨s₁, h₁, h⟩ := h
  rw [← (publishSchedule_wrote h₁).1.1]
  unfold leaveGroup at h
  split at h
  · split at h
    · exact (deleteSchedule_has h).1
    · cases h
      rfl
  · cases h
    rfl

theorem add_ok (hg : isGroupName data.group = true) (hn : isGroupName func.eventName = true)
    (hmem : data.group ∈ s.groups)
    (hprev : ∀ g, previousGroup existing = some g → isGroupName g = true ∧ s.Has g func.eventName) :
    ∃ s', add data func existing s = .ok s' := by
  obtain ⟨s₁, h₁⟩ := publishSchedule_ok hg hn hmem
  rw [add_eq, h₁]
  show ∃ s', leaveGroup data func existing s₁ = .ok s'
  unfold leaveGroup
  cases hp : previousGroup existing with
  | none => exact ⟨s₁, rfl⟩
  | some previous =>
    simp only
    obtain ⟨hgroup, hhas⟩ := hprev previous hp
    split
    · exact deleteSchedule_ok hgroup hn
        (((publishSchedule_wrote h₁).1.2 previous func.eventName).mpr (Or.inr hhas))
    · exact ⟨s₁, rfl⟩

end Add

/-! ## Publications over time -/

/-- The function's tag names a group, and the schedules of the function are the one there. -/
structure Tracked (a : Account) (name group : Text) : Prop where
  tag : ∃ tags, a.functions.lookup name = some tags ∧
    tags.lookup scheduleTagKey = some (scheduleTag name group)
  isFunctionName : isFunctionName name = true
  isGroupName : isGroupName group = true
  has_iff : ∀ g, a.scheduler.Has g name ↔ g = group

/-- There is neither the function nor a schedule of its name. -/
def Absent (a : Account) (name : Text) : Prop :=
  a.functions.lookup name = none ∧ isFunctionName name = true ∧ ∀ g, ¬ a.scheduler.Has g name

theorem isGroupName_of_isFunctionName {name : Text} (h : isFunctionName name = true) :
    isGroupName name = true := by
  simp only [isFunctionName, isGroupName, Bool.and_eq_true, List.all_eq_true] at h ⊢
  refine ⟨⟨fun c hc => ?_, h.1.2⟩, h.2⟩
  simp only [isGroupChar, h.1.1 c hc, Bool.true_or]

section Provision

variable {p : Policy} {arn version : Text} {a : Account}

theorem provision_of_add {s : Scheduler} (hn : isFunctionName p.functionName = true)
    (hadd : add p.data ⟨p.functionName, p.description, arn⟩ (a.functions.lookup p.functionName)
      a.scheduler = .ok s) :
    provision p arn version a =
      .ok ⟨a.functions.insert p.functionName (p.functionTags version), s⟩ := by
  rw [provision, if_neg (by rw [hn]; simp)]
  simp only [hadd]
  rfl

theorem tracked_insert {s : Scheduler} (hn : isFunctionName p.functionName = true)
    (hg : isGroupName p.data.group = true) (hs : ∀ g, s.Has g p.functionName ↔ g = p.data.group) :
    Tracked ⟨a.functions.insert p.functionName (p.functionTags version), s⟩ p.functionName
      p.data.group :=
  ⟨⟨p.functionTags version, AList.lookup_insert _, AList.lookup_insert _⟩, hn, hg, hs⟩

/-- **Step.**  A publication over an earlier one moves the schedule to the group of the policy. -/
theorem provision_tracked {old : Text} (h : Tracked a p.functionName old)
    (hg : isGroupName p.data.group = true) (hmem : p.data.group ∈ a.scheduler.groups) :
    ∃ a', provision p arn version a = .ok a' ∧ Tracked a' p.functionName p.data.group ∧
      a'.scheduler.groups = a.scheduler.groups := by
  obtain ⟨tags, hf, htag⟩ := h.tag
  have hprev : previousGroup (a.functions.lookup p.functionName) = some old := by
    rw [hf]
    exact previousGroup_scheduleTag htag h.isFunctionName h.isGroupName
  obtain ⟨s, hs⟩ := @add_ok p.data ⟨p.functionName, p.description, arn⟩
    (a.functions.lookup p.functionName) a.scheduler hg
    (isGroupName_of_isFunctionName h.isFunctionName) hmem (by
      intro g hg'
      obtain rfl : old = g := Option.some.inj (hprev.symm.trans hg')
      exact ⟨h.isGroupName, (h.has_iff old).mpr rfl⟩)
  refine ⟨_, provision_of_add h.isFunctionName hs,
    tracked_insert h.isFunctionName hg fun g => ?_, add_groups hs⟩
  rw [add_has hs, hprev, h.has_iff]
  simp only [and_true, Option.some.injEq]
  grind

/-- **Step.**  The first publication creates the schedule in the group of the policy. -/
theorem provision_absent (h : Absent a p.functionName)
    (hg : isGroupName p.data.group = true) (hmem : p.data.group ∈ a.scheduler.groups) :
    ∃ a', provision p arn version a = .ok a' ∧ Tracked a' p.functionName p.data.group ∧
      a'.scheduler.groups = a.scheduler.groups := by
  obtain ⟨hf, hn, hs⟩ := h
  have hprev : previousGroup (a.functions.lookup p.functionName) = none := by
    rw [hf]
    rfl
  obtain ⟨s, hadd⟩ := @add_ok p.data ⟨p.functionName, p.description, arn⟩
    (a.functions.lookup p.functionName) a.scheduler hg (isGroupName_of_isFunctionName hn) hmem (by
      intro g hg'
      rw [hprev] at hg'
      cases hg')
  refine ⟨_, provision_of_add hn hadd, tracked_insert hn hg fun g => ?_, add_groups hadd⟩
  rw [add_has hadd, hprev]
  simp [hs]

end Provision

/-- Publish the policies one after the other. -/
def provisionAll (arn version : Text) : List Policy → Account → Except Exn Account
  | [], a => .ok a
  | p :: ps, a => do
    let a ← provision p arn version a
    provisionAll arn version ps a

/-- **Run.**  However often the policy of a function changes its group, the one schedule of the
function is in the group of the last publication. -/
theorem run_tracked {arn version name : Text} (ps : List Policy) {a : Account} {old : Text}
    (h : Tracked a name old) (hps : ∀ p ∈ ps, p.functionName = name ∧
      isGroupName p.data.group = true ∧ p.data.group ∈ a.scheduler.groups) :
    ∃ a', provisionAll arn version ps a = .ok a' ∧
      Tracked a' name ((ps.map fun p => p.data.group).getLast?.getD old) := by
  induction ps generalizing a old with
  | nil => exact ⟨a, rfl, h⟩
  | cons p ps ih =>
    rw [List.forall_mem_cons] at hps
    obtain ⟨⟨rfl, hg, hmem⟩, hps⟩ := hps
    obtain ⟨a₁, h₁, ht, hgroups⟩ := @provision_tracked p arn version a old h hg hmem
    obtain ⟨a', h', ht'⟩ := ih ht (by rwa [hgroups])
    refine ⟨a', by rw [provisionAll, h₁]; exact h', ?_⟩
    rw [List.map_cons, List.getLast?_cons]
    exact ht'

/-- **From the first publication on.**  However often the policy of a new function changes its
group, there is one schedule of the function, in the group of the last publication. -/
theorem provisionAll_tracked {arn version name : Text} {p : Policy} {ps : List Policy} {a : Account}
    (h : Absent a name) (hps : ∀ q ∈ p :: ps, q.functionName = name ∧
      isGroupName q.data.group = true ∧ q.data.group ∈ a.scheduler.groups) :
    ∃ a', provisionAll arn version (p :: ps) a = .ok a' ∧
      Tracked a' name ((ps.map fun q => q.data.group).getLast?.getD p.data.group) := by
  rw [List.forall_mem_cons] at hps
  obtain ⟨⟨rfl, hg, hmem⟩, hps⟩ := hps
  obtain ⟨a₁, h₁, ht, hgroups⟩ := @provision_absent p arn version a h hg hmem
  obtain ⟨a', h', ht'⟩ := run_tracked ps ht (by rwa [hgroups])
  exact ⟨a', by rw [provisionAll, h₁]; exact h', ht'⟩

/-! ## Undoing a publication -/

/-- `remove` leaves no schedule of the function in the group of the policy. -/
def Removed (data : ScheduleData) (func : Func) (s : Scheduler) : Prop :=
  ∃ s', remove data func s = .ok s' ∧ ¬ s'.Has data.group func.eventName

/-- Publishing over an earlier publication leaves one schedule, in the group of the policy. -/
def Republished (data : ScheduleData) : Prop :=
  ∀ (p : Policy) (arn version : Text) (a : Account) (old : Text), p.data = data →
    Tracked a p.functionName old → isGroupName data.group = true →
    data.group ∈ a.scheduler.groups →
    ∃ a', provision p arn version a = .ok a' ∧
      ∀ g, a'.scheduler.Has g p.functionName ↔ g = data.group

theorem republished (data : ScheduleData) : Republished data := by
  rintro p arn version a old rfl ht hg hmem
  obtain ⟨a', hp, ht', -⟩ := @provision_tracked p arn version a old ht hg hmem
  exact ⟨a', hp, ht'.has_iff⟩

theorem isGroupName_default : isGroupName defaultGroup = true := by decide

theorem removed_iff_has {data : ScheduleData} {func : Func} {s : Scheduler}
    (hg : isGroupName data.group = true) (hn : isGroupName func.eventName = true)
    (hs : s.Has data.group func.eventName) :
    Removed data func s ↔ s.Has defaultGroup func.eventName := by
  rw [Removed, remove, Scheduler.getSchedule, checkNames_ok isGroupName_default hn]
  simp only [bind, Except.bind, pure, Except.pure]
  cases hl : (s.schedules.lookup (defaultGroup, func.eventName)).isSome with
  | true =>
    have hd : s.Has defaultGroup func.eventName := AList.lookup_isSome.mp hl
    obtain ⟨s', hs'⟩ := deleteSchedule_ok hg hn hs
    refine iff_of_true ⟨s', by simpa using hs', fun h => ?_⟩ hd
    exact (((deleteSchedule_has hs').2 _ _).mp h).2 ⟨rfl, rfl⟩
  | false =>
    have hd : ¬ s.Has defaultGroup func.eventName := fun h => by
      rw [AList.lookup_isSome.mpr h] at hl
      cases hl
    refine iff_of_false ?_ hd
    rintro ⟨s', h, hno⟩
    simp only [Bool.false_eq_true, if_false] at h
    cases h
    exact hno hs

/-- **Schedules are undone and moved exactly when the group of the policy is the default one, or
the default group keeps a schedule of the same name.** -/
theorem removed_and_republished_iff {data : ScheduleData} {func : Func}
    {existing : Option (Dict Text Text)} {s s' : Scheduler}
    (h : add data func existing s = .ok s') :
    Removed data func s' ∧ Republished data ↔
      data.group = defaultGroup ∨
        (s.Has defaultGroup func.eventName ∧ previousGroup existing ≠ some defaultGroup) := by
  rw [and_iff_left (republished data)]
  have hnames : isGroupName data.group = true ∧ isGroupName func.eventName = true := by
    rw [add_eq, bind_eq_ok] at h
    obtain ⟨s₁, h₁, -⟩ := h
    exact (publishSchedule_wrote h₁).2
  have hs' : s'.Has data.group func.eventName := by
    rw [add_has h]
    exact ⟨Or.inl ⟨rfl, rfl⟩, fun hc => hc.2.1 rfl⟩
  rw [removed_iff_has hnames.1 hnames.2 hs', add_has h]
  simp only [and_true]
  grind

/-! ## A schedule in a group of its own -/

def checker : Func where
  eventName := "custodian-checker".toList
  description := "checks".toList
  arn := "arn:aws:lambda:us-east-1:644160558196:function:custodian-checker".toList

def daily (group : Option Text) : ScheduleData where
  schedule := some "rate(1 day)".toList
  timezone := none
  groupName := group
  schedulerRole := some "arn:aws:iam::644160558196:role/custodian-scheduler-mu".toList

/-- A scheduler with two groups and no schedule. -/
def emptyScheduler : Scheduler := ⟨[defaultGroup, "MySchedGroup".toList], ∅⟩

/-- The scheduler with one schedule of the checker. -/
def oneSchedule (data : ScheduleData) : Scheduler :=
  { emptyScheduler with
    schedules := (∅ : Dict (Text × Text) Schedule).insert (data.group, checker.eventName)
      (data.params checker) }

theorem add_oneSchedule (data : ScheduleData) (hg : isGroupName data.group = true)
    (hmem : data.group ∈ emptyScheduler.groups) :
    add data checker none emptyScheduler = .ok (oneSchedule data) := by
  have hn : isGroupName checker.eventName = true := by decide
  rw [add_eq, publishSchedule, Scheduler.getSchedule, checkNames_ok hg hn]
  simp only [bind, Except.bind, pure, Except.pure, emptyScheduler, AList.lookup_empty,
    Scheduler.createSchedule, checkNames_ok hg hn, AList.notMem_empty]
  rw [if_neg (show ¬ data.group ∉ [defaultGroup, "MySchedGroup".toList] from not_not.mpr hmem)]
  rfl

theorem removed_default : Removed (daily none) checker (oneSchedule (daily none)) ∧
    Republished (daily none) :=
  (removed_and_republished_iff (add_oneSchedule (daily none) (by decide) (by decide))).mpr
    (Or.inl rfl)

/-- A schedule in another group is left there: `remove` looks for it in the default group. -/
theorem group_not_removed :
    add (daily (some "MySchedGroup".toList)) checker none emptyScheduler =
      .ok (oneSchedule (daily (some "MySchedGroup".toList))) ∧
    remove (daily (some "MySchedGroup".toList)) checker
      (oneSchedule (daily (some "MySchedGroup".toList))) =
      .ok (oneSchedule (daily (some "MySchedGroup".toList))) ∧
    (oneSchedule (daily (some "MySchedGroup".toList))).Has "MySchedGroup".toList
      checker.eventName ∧
    ¬ Removed (daily (some "MySchedGroup".toList)) checker
      (oneSchedule (daily (some "MySchedGroup".toList))) := by
  have hremove : remove (daily (some "MySchedGroup".toList)) checker
      (oneSchedule (daily (some "MySchedGroup".toList))) =
      .ok (oneSchedule (daily (some "MySchedGroup".toList))) := by
    rfl
  have hhas : (oneSchedule (daily (some "MySchedGroup".toList))).Has "MySchedGroup".toList
      checker.eventName := (AList.mem_insert _).mpr (Or.inl rfl)
  refine ⟨add_oneSchedule _ (by decide) (by decide), hremove, hhas, ?_⟩
  rintro ⟨s, hs, hno⟩
  rw [hremove] at hs
  cases hs
  exact hno hhas

/-- A policy whose function is the checker. -/
def checkerPolicy (group : Option Text) : Policy where
  name := "checker".toList
  functionPrefix := none
  description := checker.description
  tags := ∅
  data := daily group

theorem provisionAll_tracked_checker : ∃ a',
    provisionAll checker.arn "0.9.50".toList
      [checkerPolicy none, checkerPolicy (some "MySchedGroup".toList)] ⟨∅, emptyScheduler⟩ = .ok a' ∧
      Tracked a' "custodian-checker".toList "MySchedGroup".toList :=
  provisionAll_tracked
    ⟨AList.lookup_empty _, by decide, fun g => AList.notMem_empty (g, "custodian-checker".toList)⟩
    (by
      intro q hq
      rcases List.mem_pair.mp hq with rfl | rfl <;> exact ⟨rfl, by decide, by decide⟩)

end Custodian.Mu

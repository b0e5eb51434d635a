import Custodian.Lib.Items
import Custodian.Lib.Text
import Custodian.Lib.Traced

/-!
# Encrypting the volumes of instances

`EncryptInstanceVolumes` of `resources/ebs.py`: the volumes of an instance are copied to encrypted
ones while it is stopped, the copies take their places, and the volumes are deleted.  The service
is the state of one instance with what is attached to it; each call may fail.
-/

namespace Custodian.EncryptVolumes

open Py Py.Traced

/-! ## Volumes and instances -/

structure Attachment where
  instanceId : Text
  device : Text
  deleteOnTermination : Bool

/-- A volume as it is described. -/
structure Volume where
  volumeId : Text
  encrypted : Bool
  attachments : List Attachment
  size : Nat
  volumeType : Text
  availabilityZone : Text
  tags : List (Text × Text)

/-- A volume with an attachment. -/
abbrev AttachedVolume := { v : Volume // v.attachments ≠ [] }

/-- `v['Attachments'][0]` -/
def AttachedVolume.attachment (v : AttachedVolume) : Attachment := v.1.attachments.head v.2

inductive InstanceState where
  | pending
  | running
  | stopping
  | stopped
  | shuttingDown
  | terminated
  deriving DecidableEq

/-! ## The service -/

/-- A volume that was there before, or one that was created. -/
inductive VolumeId where
  | origin (id : Text)
  | created (n : Nat)
  deriving DecidableEq

/-- What a snapshot is a copy of. -/
structure SnapshotCopy where
  sourceRegion : Text
  kmsKeyId : Text

/-- A snapshot, with the volume it was first taken of and the state of the instance then; an
encrypted one is a copy. -/
structure Snapshot where
  volume : Text
  takenWhile : InstanceState
  copy : Option SnapshotCopy

structure CreatedVolume where
  source : Snapshot
  encrypted : Bool
  size : Nat
  volumeType : Text
  availabilityZone : Text

inductive ResourceId where
  | snapshot (n : Nat)
  | volume (n : Nat)
  deriving DecidableEq

/-- An instance with what belongs to it; created resources are numbered. -/
structure Machine where
  state : InstanceState
  /-- The volumes by their devices. -/
  attached : List (Text × VolumeId)
  snapshots : List Snapshot
  volumes : List CreatedVolume
  detached : List Text
  deleted : List Text

/-- The state of the service, with tags and clean-up that the machine does not depend on. -/
structure World extends Machine where
  tags : List (ResourceId × Text × Text)
  deletedSnapshots : List Nat
  deleteOnTermination : List Text

namespace World

variable (w : World)

def stopInstances : Option (Unit × World) :=
  if w.state = .running then some ((), { w with state := .stopping }) else none

def waitInstanceStopped : Option (Unit × World) :=
  if w.state = .stopping ∨ w.state = .stopped then some ((), { w with state := .stopped }) else none

def createSnapshot (volume : Text) : Option (Nat × World) :=
  if volume ∈ w.deleted then none
  else some (w.snapshots.length,
    { w with snapshots := w.snapshots ++ [⟨volume, w.state, none⟩] })

def createTags (resource : ResourceId) (tags : List (Text × Text)) : Option (Unit × World) :=
  some ((), { w with tags := w.tags ++ tags.map fun t => (resource, t) })

def waitCreated : Option (Unit × World) := some ((), w)

def copySnapshot (sourceSnapshot : Nat) (sourceRegion kmsKeyId : Text) : Option (Nat × World) :=
  match w.snapshots[sourceSnapshot]? with
  | some s => some (w.snapshots.length,
      { w with snapshots := w.snapshots ++ [{ s with copy := some ⟨sourceRegion, kmsKeyId⟩ }] })
  | none => none

def createVolume (snapshot : Nat) (v : Volume) : Option (Nat × World) :=
  match w.snapshots[snapshot]? with
  | some s => some (w.volumes.length,
      { w with volumes := w.volumes ++ [⟨s, true, v.size, v.volumeType, v.availabilityZone⟩] })
  | none => none

def deleteSnapshot (snapshot : Nat) : Option (Unit × World) :=
  some ((), { w with deletedSnapshots := w.deletedSnapshots ++ [snapshot] })

def detachVolume (volume : Text) : Option (Unit × World) :=
  if VolumeId.origin volume ∈ w.attached.map Prod.snd then
    some ((), { w with
      attached := w.attached.filter fun p => decide (p.2 ≠ .origin volume)
      detached := w.detached ++ [volume] })
  else none

def attachVolume (volume : Nat) (device : Text) : Option (Unit × World) :=
  if device ∈ w.attached.map Prod.fst ∨ VolumeId.created volume ∈ w.attached.map Prod.snd then none
  else some ((), { w with attached := w.attached ++ [(device, .created volume)] })

def modifyInstanceAttribute (device : Text) (volume : Nat) : Option (Unit × World) :=
  if (device, VolumeId.created volume) ∈ w.attached then
    some ((), { w with deleteOnTermination := w.deleteOnTermination ++ [device] })
  else none

def startInstances : Option (Unit × World) :=
  if w.state = .stopped then some ((), { w with state := .running }) else none

def deleteVolume (volume : Text) : Option (Unit × World) :=
  if VolumeId.origin volume ∈ w.attached.map Prod.snd ∨ volume ∈ w.deleted then none
  else some ((), { w with deleted := w.deleted ++ [volume] })

def deleteTags (resource : ResourceId) (keys : List Text) : Option (Unit × World) :=
  some ((), { w with tags := w.tags.filter fun t => decide (¬ (t.1 = resource ∧ t.2.1 ∈ keys)) })

end World

/-! ## Calls -/

/-- The calls that are made for an instance; those for a volume have its place in the list of
volumes, and those that wait the number of the attempt. -/
inductive Call where
  | describeKey
  | stopInstances
  | waitInstance (attempt : Nat)
  | createSnapshot (k : Nat)
  | tagSnapshot (k : Nat)
  | waitSnapshot (k attempt : Nat)
  | copySnapshot (k : Nat)
  | tagCopy (k : Nat)
  | waitCopy (k attempt : Nat)
  | createVolume (k : Nat)
  | tagVolume (k : Nat)
  | waitVolume (k attempt : Nat)
  | deleteSnapshot (k : Nat)
  | deleteCopy (k : Nat)
  | detachVolume (k : Nat)
  | attachVolume (k : Nat)
  | modifyInstanceAttribute (k : Nat)
  | startInstances
  | deleteVolume (k : Nat)
  | deleteTags (k : Nat)
  deriving DecidableEq

/-- How the processing of an instance can end before its time. -/
inductive Failure where
  | keyError
  | call (c : Call)
  deriving DecidableEq

/-- The volumes of a policy, with the instances they are attached to and the answers of the
service to all calls. -/
structure Fleet where
  volumes : List Volume
  /-- `self.get_encryption_key()` -/
  keyId : Text
  /-- The instance is among those that were queried. -/
  described : Text → Bool
  state : Text → InstanceState
  /-- What is attached to an instance: volumes by their devices. -/
  attached : Text → List (Text × Text)
  /-- The call for the instance does not fail by itself. -/
  answers : Text → Call → Bool
  accurate : ∀ v ∈ volumes, ∀ a ∈ v.attachments.head?,
    (a.device, v.volumeId) ∈ attached a.instanceId
  devices_nodup : ∀ i, ((attached i).map Prod.fst).Nodup
  volumes_nodup : ∀ i, ((attached i).map Prod.snd).Nodup

/-- A program for one instance. -/
abbrev Ec2M := TraceM Failure World

/-- A call to the service, which may fail by itself or because of the state it meets. -/
def ec2 {α : Type} (answers : Call → Bool) (c : Call) (effect : World → Option (α × World)) :
    Ec2M α :=
  Traced.call (.call c) fun w => if answers c then effect w else none

/-- `self.wait_on_resource(...)` -/
def waitOnResource (answers : Call → Bool) (c : Nat → Call)
    (effect : World → Option (Unit × World)) : Ec2M Unit :=
  tryCatch (ec2 answers (c 0) effect) fun _ =>
    tryCatch (ec2 answers (c 1) effect) fun _ => ec2 answers (c 2) effect

/-! ## Processing -/

/-- `[v for v in volumes if not v['Encrypted'] or not v['Attachments']]` -/
def selected (volumes : List Volume) : List Volume :=
  volumes.filter fun v => !v.encrypted || v.attachments.isEmpty

/-- The loop that groups volumes by instance. -/
def groupByInstance : List (Text × List AttachedVolume) → List Volume →
    Except Exn (List (Text × List AttachedVolume))
  | instanceVolMap, [] => .ok instanceVolMap
  | instanceVolMap, v :: volumes =>
    if h : v.attachments = [] then .error (.raised "IndexError".toList)
    else
      let v : AttachedVolume := ⟨v, h⟩
      groupByInstance
        (Items.set v.attachment.instanceId
          ((Items.get v.attachment.instanceId instanceVolMap).getD [] ++ [v]) instanceVolMap)
        volumes

/-- The instances that `process` submits, with their volumes. -/
def instanceVolMap (volumes : List Volume) : Except Exn (List (Text × List AttachedVolume)) :=
  groupByInstance [] (selected volumes)

section Process

variable (fleet : Fleet) (instanceId : Text)

/-- `self.instance_map.get(instance_id)` -/
def Fleet.instanceMap : Option InstanceState :=
  if fleet.described instanceId then some (fleet.state instanceId) else none

/-- `self.stop_instance(client, instance_id)` -/
def stopInstance : Ec2M (Option Bool) :=
  match fleet.instanceMap instanceId with
  | none => throw .keyError
  | some .shuttingDown | some .terminated => pure none
  | some .running => do
    ec2 (fleet.answers instanceId) .stopInstances World.stopInstances
    waitOnResource (fleet.answers instanceId) .waitInstance World.waitInstanceStopped
    pure (some true)
  | some _ => pure (some false)

/-- `self.create_encrypted_volume(ec2, v, key_id, instance_id)` -/
def createEncryptedVolume (keyId : Text) (v : AttachedVolume) (k : Nat) : Ec2M Nat := do
  let answers := fleet.answers instanceId
  let snapshot ← ec2 answers (.createSnapshot k) fun w => w.createSnapshot v.1.volumeId
  ec2 answers (.tagSnapshot k) fun w => w.createTags (.snapshot snapshot)
    [("maid-crypto-remediation".toList, "true".toList)]
  waitOnResource answers (.waitSnapshot k) World.waitCreated
  let copy ← ec2 answers (.copySnapshot k) fun w =>
    w.copySnapshot snapshot v.1.availabilityZone.dropLast keyId
  ec2 answers (.tagCopy k) fun w => w.createTags (.snapshot copy)
    [("maid-crypto-remediation".toList, "true".toList)]
  waitOnResource answers (.waitCopy k) World.waitCreated
  let volume ← ec2 answers (.createVolume k) fun w => w.createVolume copy v.1
  ec2 answers (.tagVolume k) fun w => w.createTags (.volume volume)
    ([("maid-crypt-remediation".toList, instanceId),
      ("maid-origin-volume".toList, v.1.volumeId),
      ("maid-instance-device".toList, v.attachment.device)] ++ v.1.tags)
  waitOnResource answers (.waitVolume k) World.waitCreated
  ec2 answers (.deleteSnapshot k) fun w => w.deleteSnapshot snapshot
  ec2 answers (.deleteCopy k) fun w => w.deleteSnapshot copy
  pure volume

/-- A volume of the list with its place, and the volume that was created for it. -/
structure Pair where
  v : AttachedVolume
  k : Nat
  volume : Nat

/-- Detach the volume and attach the encrypted one. -/
def patch (p : Pair) : Ec2M Unit := do
  let answers := fleet.answers instanceId
  ec2 answers (.detachVolume p.k) fun w => w.detachVolume p.v.1.volumeId
  ec2 answers (.attachVolume p.k) fun w => w.attachVolume p.volume p.v.attachment.device
  if p.v.attachment.deleteOnTermination then
    ec2 answers (.modifyInstanceAttribute p.k) fun w =>
      w.modifyInstanceAttribute p.v.attachment.device p.volume

/-- What follows when all volumes are patched. -/
def cleanUp (instanceRunning : Bool) (paired : List Pair) : Ec2M Unit := do
  let answers := fleet.answers instanceId
  if instanceRunning then
    ec2 answers .startInstances World.startInstances
  paired.forM fun p => ec2 answers (.deleteVolume p.k) fun w => w.deleteVolume p.v.1.volumeId
  paired.forM fun p => ec2 answers (.deleteTags p.k) fun w => w.deleteTags (.volume p.volume)
    ["maid-crypt-remediation".toList, "maid-origin-volume".toList, "maid-instance-device".toList]

/-- `self.process_volume(client, instance_id, vol_set)` -/
def processVolume (volSet : List AttachedVolume) : Ec2M Unit := do
  let keyId ← ec2 (fleet.answers instanceId) .describeKey fun w => some (fleet.keyId, w)
  match ← stopInstance fleet instanceId with
  | none => pure ()
  | some instanceRunning => do
    let paired ← volSet.zipIdx.mapM fun e => do
      let volume ← createEncryptedVolume fleet instanceId keyId e.1 e.2
      pure (Pair.mk e.1 e.2 volume)
    paired.forM (patch fleet instanceId)
    cleanUp fleet instanceId instanceRunning paired

/-- The instance before it is processed. -/
def Fleet.world : World where
  state := fleet.state instanceId
  attached := (fleet.attached instanceId).map fun p => (p.1, .origin p.2)
  snapshots := []
  volumes := []
  detached := []
  deleted := []
  tags := []
  deletedSnapshots := []
  deleteOnTermination := []

/-- The processing of an instance in its thread. -/
def outcome (volSet : List AttachedVolume) : EStateM.Result Failure (Trace World) Unit :=
  processVolume fleet instanceId volSet ⟨fleet.world instanceId, []⟩

end Process

/-! ## What must not happen -/

namespace Machine

variable (m : Machine)

/-- The volumes of the policy that calls have named. -/
def named : List Text := m.snapshots.map Snapshot.volume ++ m.detached ++ m.deleted

/-- An encrypted copy of the volume, of a snapshot taken while the instance was stopped. -/
def Copies (v : AttachedVolume) (n : Nat) : Prop :=
  ∃ c, m.volumes[n]? = some c ∧ c.encrypted = true ∧ c.source.volume = v.1.volumeId ∧
    c.source.takenWhile = .stopped

/-- An encrypted copy of the volume is attached in its place. -/
def Replaced (v : AttachedVolume) : Prop :=
  ∃ n, m.Copies v n ∧ (v.attachment.device, VolumeId.created n) ∈ m.attached

/-- A state in which no data is lost: a volume that is deleted has been replaced, and no other
volumes than those of the set are named. -/
structure Safe (volSet : List AttachedVolume) : Prop where
  deleted : ∀ id ∈ m.deleted, ∃ v ∈ volSet, v.1.volumeId = id ∧ m.Replaced v
  named : ∀ id ∈ m.named, ∃ v ∈ volSet, v.1.volumeId = id

end Machine

/-- The detaching or attaching of a volume failed. -/
def patchFailed : Option Failure → Prop
  | some (.call (.detachVolume _)) | some (.call (.attachVolume _)) => True
  | _ => False

/-- A state in which the processing of an instance ends: its devices have volumes unless a volume
could not be detached or attached, and it runs again if it did and no volume was detached. -/
structure Ends (fleet : Fleet) (instanceId : Text) (failure : Option Failure) (m : Machine) :
    Prop where
  devices : ¬ patchFailed failure →
    ∀ d ∈ (fleet.attached instanceId).map Prod.fst, d ∈ m.attached.map Prod.fst
  restarted : fleet.state instanceId = .running → m.detached = [] → m.state = .running

/-! ## Calls and waits -/

section Calls

variable {answers : Call → Bool} {S P : World → Prop} {E : Failure → World → Prop}

theorem ec2_triple {α : Type} {c : Call} {effect : World → Option (α × World)}
    {Q : α → World → Prop}
    (hok : ∀ w a w', P w → S w → effect w = some (a, w') → Q a w' ∧ S w')
    (hfail : ∀ w, P w → S w → answers c = false ∨ effect w = none → E (.call c) w) :
    Triple S P (ec2 answers c effect) Q E := by
  refine .call (fun w a w' hP hS h => ?_) fun w hP hS h => ?_
  · split at h
    · exact hok w a w' hP hS h
    · cases h
  · split at h
    · exact hfail w hP hS (Or.inr h)
    · rename_i hanswers
      exact hfail w hP hS (Or.inl (Bool.eq_false_iff.mpr hanswers))

theorem ec2_triple_refused {α : Type} {c : Call} (h : answers c = false)
    {effect : World → Option (α × World)} (hfail : ∀ w, P w → S w → E (.call c) w) :
    Triple S P (ec2 answers c effect) (fun _ _ => False) E := by
  refine .call (fun w a w' hP hS heffect => ?_) fun w hP hS _ => hfail w hP hS
  rw [h] at heffect
  cases heffect

theorem waitOnResource_triple {c : Nat → Call} {effect : World → Option (Unit × World)}
    {Q : World → Prop} (hok : ∀ w w', P w → S w → effect w = some ((), w') → Q w' ∧ S w')
    (hfail : ∀ w, P w → S w → (∀ a < 3, answers (c a) = false) ∨ effect w = none →
      E (.call (c 2)) w) :
    Triple S P (waitOnResource answers c effect) (fun _ => Q) E := by
  refine .tryCatch (F := fun _ w => P w ∧ (answers (c 0) = false ∨ effect w = none))
    (ec2_triple (fun w a w' hP => hok w w' hP) fun w hP _ h => ⟨hP, h⟩) fun _ => ?_
  refine .tryCatch (F := fun _ w => P w ∧
      ((answers (c 0) = false ∧ answers (c 1) = false) ∨ effect w = none))
    (ec2_triple (fun w a w' hP => hok w w' hP.1) fun w hP _ h => ⟨hP.1, ?_⟩) fun _ => ?_
  · rcases hP.2 with h₀ | h₀
    · exact h.imp_left fun h₁ => ⟨h₀, h₁⟩
    · exact Or.inr h₀
  · refine ec2_triple (fun w a w' hP => hok w w' hP.1) fun w hP hS h => ?_
    refine hfail w hP.1 hS ?_
    rcases hP.2 with ⟨h₀, h₁⟩ | h₀
    · refine h.imp_left fun h₂ a ha => ?_
      match a, ha with
      | 0, _ => exact h₀
      | 1, _ => exact h₁
      | 2, _ => exact h₂
    · exact Or.inr h₀

end Calls

/-! ## Creating the copies -/

/-- Some attempt of a wait does not fail. -/
def Waits (answers : Call → Bool) (c : Nat → Call) : Prop := ∃ a < 3, answers (c a) = true

/-- No call fails by itself while the copy of a volume is created. -/
structure Creates (answers : Call → Bool) (k : Nat) : Prop where
  createSnapshot : answers (.createSnapshot k) = true
  tagSnapshot : answers (.tagSnapshot k) = true
  waitSnapshot : Waits answers (.waitSnapshot k)
  copySnapshot : answers (.copySnapshot k) = true
  tagCopy : answers (.tagCopy k) = true
  waitCopy : Waits answers (.waitCopy k)
  createVolume : answers (.createVolume k) = true
  tagVolume : answers (.tagVolume k) = true
  waitVolume : Waits answers (.waitVolume k)
  deleteSnapshot : answers (.deleteSnapshot k) = true
  deleteCopy : answers (.deleteCopy k) = true

section Building

variable (fleet : Fleet) (i : Text)

/-- The instance is stopped and has its volumes. -/
structure Building (m : Machine) : Prop where
  state : m.state = .stopped
  attached : m.attached = (fleet.world i).attached
  detached : m.detached = []
  deleted : m.deleted = []

/-- The instance is stopped, and the volumes of some pairs are copied. -/
structure Stage (paired : List Pair) (m : Machine) : Prop where
  building : Building fleet i m
  copies : ∀ p ∈ paired, m.Copies p.v p.volume

variable {fleet i}

theorem map_fst_world : (fleet.world i).attached.map Prod.fst = (fleet.attached i).map Prod.fst := by
  rw [Fleet.world, List.map_map]
  rfl

theorem Building.ends {m : Machine} (h : Building fleet i m) (hstate : fleet.state i ≠ .running)
    (failure : Option Failure) : Ends fleet i failure m := by
  refine ⟨fun _ d hd => ?_, fun hrunning => absurd hrunning hstate⟩
  rw [h.attached, map_fst_world]
  exact hd

theorem build_triple {volSet : List AttachedVolume} {α : Type} {c : Call}
    {effect : World → Option (α × World)} {P : World → Prop} {Q : α → World → Prop}
    (hbuilding : ∀ w, P w → Building fleet i w.toMachine)
    (hanswers : fleet.state i = .running → fleet.answers i c = true)
    (heffect : ∀ w, P w → w.toMachine.Safe volSet →
      ∃ a w', effect w = some (a, w') ∧ Q a w' ∧ w'.toMachine.Safe volSet) :
    Triple (fun w => w.toMachine.Safe volSet) P (ec2 (fleet.answers i) c effect) Q
      (fun f w => Ends fleet i (some f) w.toMachine) := by
  refine ec2_triple (fun w a w' hP hS h => ?_) fun w hP hS h => ?_
  · obtain ⟨a', w'', h', hQ⟩ := heffect w hP hS
    rw [h] at h'
    cases h'
    exact hQ
  · refine (hbuilding w hP).ends (fun hrunning => ?_) _
    obtain ⟨a', w'', h', -⟩ := heffect w hP hS
    rcases h with h | h
    · rw [hanswers hrunning] at h
      cases h
    · rw [h] at h'
      cases h'

theorem build_keep {volSet : List AttachedVolume} {c : Call}
    {effect : World → Option (Unit × World)} {P : World → Prop}
    (hbuilding : ∀ w, P w → Building fleet i w.toMachine)
    (hanswers : fleet.state i = .running → fleet.answers i c = true)
    (heffect : ∀ w, ∃ w', effect w = some ((), w') ∧ (P w → P w') ∧
      (w.toMachine.Safe volSet → w'.toMachine.Safe volSet)) :
    Triple (fun w => w.toMachine.Safe volSet) P (ec2 (fleet.answers i) c effect) (fun _ => P)
      (fun f w => Ends fleet i (some f) w.toMachine) := by
  refine build_triple hbuilding hanswers fun w hP hS => ?_
  obtain ⟨w', h, hkeep, hsafe⟩ := heffect w
  exact ⟨(), w', h, hkeep hP, hsafe hS⟩

theorem build_wait {volSet : List AttachedVolume} {c : Nat → Call} {P : World → Prop}
    (hbuilding : ∀ w, P w → Building fleet i w.toMachine)
    (hanswers : fleet.state i = .running → Waits (fleet.answers i) c) :
    Triple (fun w => w.toMachine.Safe volSet) P
      (waitOnResource (fleet.answers i) c World.waitCreated) (fun _ => P)
      (fun f w => Ends fleet i (some f) w.toMachine) := by
  refine waitOnResource_triple (fun w w' hP hS h => ?_) fun w hP hS h => ?_
  · cases h
    exact ⟨hP, hS⟩
  · refine (hbuilding w hP).ends (fun hrunning => ?_) _
    obtain ⟨a, ha, hanswer⟩ := hanswers hrunning
    rcases h with h | h
    · rw [h a ha] at hanswer
      cases hanswer
    · cases h

/-- A snapshot of the volume that was taken while the instance was stopped. -/
def Taken (v : AttachedVolume) (n : Nat) (m : Machine) : Prop :=
  ∃ s, m.snapshots[n]? = some s ∧ s.volume = v.1.volumeId ∧ s.takenWhile = .stopped

theorem Stage.safe_snapshot {volSet : List AttachedVolume} {paired : List Pair} {m : Machine}
    (h : Stage fleet i paired m) (hS : m.Safe volSet) {v : AttachedVolume} (hv : v ∈ volSet)
    {s : Snapshot} (hs : s.volume = v.1.volumeId) :
    Machine.Safe { m with snapshots := m.snapshots ++ [s] } volSet := by
  refine ⟨fun id hid => ?_, fun id hid => ?_⟩
  · rw [h.building.deleted] at hid
    exact absurd hid List.not_mem_nil
  · simp only [Machine.named, List.map_append, List.mem_append, List.map_cons, List.map_nil,
      List.mem_singleton, hs] at hid
    rcases hid with (((hid | rfl) | hid) | hid)
    · exact hS.named id (by simp [Machine.named, hid])
    · exact ⟨v, hv, rfl⟩
    · exact hS.named id (by simp [Machine.named, hid])
    · exact hS.named id (by simp [Machine.named, hid])

theorem Stage.snapshot {paired : List Pair} {m : Machine} (h : Stage fleet i paired m)
    (snapshots : List Snapshot) : Stage fleet i paired { m with snapshots := snapshots } :=
  ⟨⟨h.building.state, h.building.attached, h.building.detached, h.building.deleted⟩, h.copies⟩

theorem Stage.volume {paired : List Pair} {m : Machine} (h : Stage fleet i paired m)
    (c : CreatedVolume) : Stage fleet i paired { m with volumes := m.volumes ++ [c] } := by
  refine ⟨⟨h.building.state, h.building.attached, h.building.detached, h.building.deleted⟩,
    fun p hp => ?_⟩
  obtain ⟨c', hc', hcopy⟩ := h.copies p hp
  exact ⟨c', List.getElem?_append_left (List.getElem?_eq_some_iff.mp hc').1 ▸ hc', hcopy⟩

theorem Stage.safe_volume {volSet : List AttachedVolume} {paired : List Pair} {m : Machine}
    (h : Stage fleet i paired m) (hS : m.Safe volSet) (c : CreatedVolume) :
    Machine.Safe { m with volumes := m.volumes ++ [c] } volSet := by
  refine ⟨fun id hid => ?_, hS.named⟩
  rw [h.building.deleted] at hid
  exact absurd hid List.not_mem_nil

/-- **The copy of one volume.**  It is made of a snapshot taken while the instance is stopped; if a
call fails, the instance did not run before. -/
theorem createEncryptedVolume_spec {volSet : List AttachedVolume} {paired : List Pair}
    {v : AttachedVolume} (hv : v ∈ volSet) {k : Nat}
    (hcreates : fleet.state i = .running → Creates (fleet.answers i) k) (keyId : Text) :
    Triple (fun w => w.toMachine.Safe volSet) (fun w => Stage fleet i paired w.toMachine)
      (createEncryptedVolume fleet i keyId v k)
      (fun n w => Stage fleet i paired w.toMachine ∧ w.toMachine.Copies v n)
      (fun f w => Ends fleet i (some f) w.toMachine) := by
  unfold createEncryptedVolume
  refine .bind (Q := fun n w => Stage fleet i paired w.toMachine ∧ Taken v n w.toMachine)
    (build_triple (fun w h => h.building) (fun h => (hcreates h).createSnapshot) ?_) fun n => ?_
  · intro w h hS
    let s : Snapshot := ⟨v.1.volumeId, .stopped, none⟩
    refine ⟨w.snapshots.length, { w with snapshots := w.snapshots ++ [s] }, ?_,
      ⟨h.snapshot _, s, ?_, rfl, rfl⟩, h.safe_snapshot hS hv rfl⟩
    · simp only [World.createSnapshot, h.building.deleted, h.building.state, List.not_mem_nil,
        if_false, s]
    · simp
  refine .bind (build_keep (fun w h => h.1.building) (fun h => (hcreates h).tagSnapshot)
    fun w => ⟨_, rfl, id, id⟩) fun _ => ?_
  refine .bind (build_wait (fun w h => h.1.building) fun h => (hcreates h).waitSnapshot) fun _ => ?_
  refine .bind (Q := fun c w => Stage fleet i paired w.toMachine ∧ Taken v c w.toMachine)
    (build_triple (fun w h => h.1.building) (fun h => (hcreates h).copySnapshot) ?_) fun c => ?_
  · rintro w ⟨h, s, hs, hvolume, hstopped⟩ hS
    let copy : Snapshot := { s with copy := some ⟨v.1.availabilityZone.dropLast, keyId⟩ }
    have hcopy : copy.volume = v.1.volumeId := hvolume
    refine ⟨w.snapshots.length, { w with snapshots := w.snapshots ++ [copy] }, ?_,
      ⟨h.snapshot _, copy, ?_, hvolume, hstopped⟩, h.safe_snapshot hS hv hcopy⟩
    · simp only [World.copySnapshot, hs, copy]
    · simp
  refine .bind (build_keep (fun w h => h.1.building) (fun h => (hcreates h).tagCopy)
    fun w => ⟨_, rfl, id, id⟩) fun _ => ?_
  refine .bind (build_wait (fun w h => h.1.building) fun h => (hcreates h).waitCopy) fun _ => ?_
  refine .bind (Q := fun n w => Stage fleet i paired w.toMachine ∧ w.toMachine.Copies v n)
    (build_triple (fun w h => h.1.building) (fun h => (hcreates h).createVolume) ?_) fun volume => ?_
  · rintro w ⟨h, s, hs, hvolume, hstopped⟩ hS
    let created : CreatedVolume := ⟨s, true, v.1.size, v.1.volumeType, v.1.availabilityZone⟩
    refine ⟨w.volumes.length, { w with volumes := w.volumes ++ [created] }, ?_,
      ⟨h.volume created, created, ?_, rfl, hvolume, hstopped⟩, h.safe_volume hS created⟩
    · simp only [World.createVolume, hs, created]
    · simp
  refine .bind (build_keep (fun w h => h.1.building) (fun h => (hcreates h).tagVolume)
    fun w => ⟨_, rfl, id, id⟩) fun _ => ?_
  refine .bind (build_wait (fun w h => h.1.building) fun h => (hcreates h).waitVolume) fun _ => ?_
  refine .bind (build_keep (fun w h => h.1.building) (fun h => (hcreates h).deleteSnapshot)
    fun w => ⟨_, rfl, id, id⟩) fun _ => ?_
  refine .bind (build_keep (fun w h => h.1.building) (fun h => (hcreates h).deleteCopy)
    fun w => ⟨_, rfl, id, id⟩) fun _ => ?_
  exact .pure fun w h _ => h

/-! ## Patching the instance -/

variable (fleet i) in
/-- The copies of some pairs have taken the places of their volumes. -/
structure Patched (paired done : List Pair) (m : Machine) : Prop where
  copies : ∀ p ∈ paired, m.Copies p.v p.volume
  devices : ∀ d ∈ (fleet.attached i).map Prod.fst, d ∈ m.attached.map Prod.fst
  origins : ∀ d id, (d, VolumeId.origin id) ∈ m.attached → (d, id) ∈ fleet.attached i
  patched : ∀ p ∈ done, (p.v.attachment.device, VolumeId.created p.volume) ∈ m.attached
  begun : done ≠ [] → m.detached ≠ []
  start : done = [] → m.attached = (fleet.world i).attached

variable (fleet i) in
/-- The volume of a pair is detached, and its copy is not attached yet. -/
structure Open (paired done : List Pair) (p : Pair) (m : Machine) : Prop where
  copies : ∀ p ∈ paired, m.Copies p.v p.volume
  devices : ∀ d ∈ (fleet.attached i).map Prod.fst,
    d = p.v.attachment.device ∨ d ∈ m.attached.map Prod.fst
  origins : ∀ d id, (d, VolumeId.origin id) ∈ m.attached → (d, id) ∈ fleet.attached i
  patched : ∀ p ∈ done, (p.v.attachment.device, VolumeId.created p.volume) ∈ m.attached
  begun : m.detached ≠ []

/-- A volume of an instance is attached where it is said to be. -/
structure Placed (fleet : Fleet) (i : Text) (v : AttachedVolume) : Prop where
  attached : (v.attachment.device, v.1.volumeId) ∈ fleet.attached i

theorem Placed.device_eq {v : AttachedVolume} (h : Placed fleet i v) {d : Text}
    (hd : (d, v.1.volumeId) ∈ fleet.attached i) : d = v.attachment.device := by
  have hinj := List.inj_on_of_nodup_map (fleet.volumes_nodup i) hd h.attached rfl
  exact congrArg Prod.fst hinj

theorem Patched.ends {paired done : List Pair} {m : Machine} (h : Patched fleet i paired done m)
    (hdetached : m.detached ≠ []) (failure : Option Failure) : Ends fleet i failure m :=
  ⟨fun _ => h.devices, fun _ hnone => absurd hnone hdetached⟩

theorem Patched.detach {paired done : List Pair} {m : Machine} (h : Patched fleet i paired done m)
    {p : Pair} (hp : Placed fleet i p.v) :
    Open fleet i paired done p
      { m with
        attached := m.attached.filter fun q => decide (q.2 ≠ .origin p.v.1.volumeId)
        detached := m.detached ++ [p.v.1.volumeId] } where
  copies := h.copies
  devices d hd := by
    obtain ⟨q, hq, rfl⟩ := List.mem_map.mp (h.devices d hd)
    by_cases hvolume : q.2 = .origin p.v.1.volumeId
    · obtain ⟨d, volume⟩ := q
      obtain rfl : volume = .origin p.v.1.volumeId := hvolume
      exact Or.inl (hp.device_eq (h.origins d _ hq))
    · refine Or.inr (List.mem_map_of_mem (List.mem_filter.mpr ⟨hq, ?_⟩))
      exact decide_eq_true hvolume
  origins d id hmem := h.origins d id (List.mem_filter.mp hmem).1
  patched q hq := List.mem_filter.mpr ⟨h.patched q hq, by simp⟩
  begun := by simp

theorem Open.attach {paired done : List Pair} {p : Pair} {m : Machine}
    (h : Open fleet i paired done p m) :
    Patched fleet i paired (done ++ [p])
      { m with attached := m.attached ++ [(p.v.attachment.device, .created p.volume)] } where
  copies := h.copies
  devices d hd := by
    rw [List.map_append, List.mem_append]
    rcases h.devices d hd with rfl | hd
    · exact Or.inr (List.mem_singleton_self _)
    · exact Or.inl hd
  origins d id hmem := by
    rcases List.mem_append.mp hmem with hmem | hmem
    · exact h.origins d id hmem
    · cases List.mem_singleton.mp hmem
  patched q hq := by
    rcases List.mem_append.mp hq with hq | hq
    · exact List.mem_append_left _ (h.patched q hq)
    · rw [List.mem_singleton.mp hq]
      exact List.mem_append_right _ (List.mem_singleton_self _)
  begun _ := h.begun
  start hnil := by simp at hnil

theorem safe_of_deleted {volSet : List AttachedVolume} {m : Machine} (hdeleted : m.deleted = [])
    (hnamed : ∀ id ∈ m.named, ∃ v ∈ volSet, v.1.volumeId = id) : m.Safe volSet :=
  ⟨fun _ hid => absurd (hdeleted ▸ hid) List.not_mem_nil, hnamed⟩

/-- **One volume is replaced.** -/
theorem patch_spec {volSet : List AttachedVolume} {paired done : List Pair} {p : Pair}
    (hv : p.v ∈ volSet) (hplaced : Placed fleet i p.v)
    (hfirst : fleet.state i = .running → done = [] →
      fleet.answers i (.detachVolume p.k) = true) :
    Triple (fun w => w.toMachine.Safe volSet)
      (fun w => w.deleted = [] ∧ Patched fleet i paired done w.toMachine)
      (patch fleet i p)
      (fun _ w => w.deleted = [] ∧ Patched fleet i paired (done ++ [p]) w.toMachine)
      (fun f w => Ends fleet i (some f) w.toMachine) := by
  unfold patch
  refine .bind (Q := fun _ w => w.deleted = [] ∧ Open fleet i paired done p w.toMachine)
    (ec2_triple ?_ ?_) fun _ => .bind
      (Q := fun _ w => w.deleted = [] ∧ Patched fleet i paired (done ++ [p]) w.toMachine)
      (ec2_triple ?_ ?_) fun _ => ?_
  · rintro w _ w' ⟨hdeleted, h⟩ hS heffect
    simp only [World.detachVolume] at heffect
    split at heffect
    · cases heffect
      refine ⟨⟨hdeleted, h.detach hplaced⟩, safe_of_deleted hdeleted fun id hid => ?_⟩
      simp only [Machine.named, List.mem_append, List.mem_singleton] at hid
      rcases hid with ((hid | (hid | rfl)) | hid)
      · exact hS.named id (by simp [Machine.named, hid])
      · exact hS.named id (by simp [Machine.named, hid])
      · exact ⟨p.v, hv, rfl⟩
      · exact hS.named id (by simp [Machine.named, hid])
    · cases heffect
  · rintro w ⟨-, h⟩ hS hfail
    refine ⟨fun hnot => absurd trivial hnot, fun hrunning hnone => ?_⟩
    by_cases hdone : done = []
    · rcases hfail with hfail | hfail
      · rw [hfirst hrunning hdone] at hfail
        cases hfail
      · have hmem : VolumeId.origin p.v.1.volumeId ∈ w.attached.map Prod.snd := by
          rw [h.start hdone, Fleet.world, List.map_map]
          exact List.mem_map.mpr ⟨_, hplaced.attached, rfl⟩
        rw [World.detachVolume, if_pos hmem] at hfail
        cases hfail
    · exact absurd hnone (h.begun hdone)
  · rintro w _ w' ⟨hdeleted, h⟩ hS heffect
    simp only [World.attachVolume] at heffect
    split at heffect
    · cases heffect
    · cases heffect
      exact ⟨⟨hdeleted, h.attach⟩, safe_of_deleted hdeleted hS.named⟩
  · rintro w ⟨-, h⟩ hS -
    exact ⟨fun hnot => absurd trivial hnot, fun _ hnone => absurd hnone h.begun⟩
  · have hne : done ++ [p] ≠ [] := by simp
    split
    · refine ec2_triple ?_ fun w h _ _ => h.2.ends (h.2.begun hne) _
      rintro w _ w' h hS heffect
      simp only [World.modifyInstanceAttribute] at heffect
      split at heffect
      · cases heffect
        exact ⟨h, hS⟩
      · cases heffect
    · exact .pure fun w h _ => h

/-! ## Deleting the volumes -/

theorem Patched.safe_delete {volSet : List AttachedVolume} {paired : List Pair} {m : Machine}
    (h : Patched fleet i paired paired m) (hS : m.Safe volSet) {p : Pair} (hp : p ∈ paired)
    (hv : p.v ∈ volSet) : Machine.Safe { m with deleted := m.deleted ++ [p.v.1.volumeId] } volSet := by
  refine ⟨fun id hid => ?_, fun id hid => ?_⟩
  · rcases List.mem_append.mp hid with hid | hid
    · exact hS.deleted id hid
    · exact ⟨p.v, hv, (List.mem_singleton.mp hid).symm, p.volume, h.copies p hp, h.patched p hp⟩
  · rw [Machine.named, ← List.append_assoc, List.mem_append] at hid
    rcases hid with hid | hid
    · exact hS.named id hid
    · exact ⟨p.v, hv, (List.mem_singleton.mp hid).symm⟩

/-- **The end of the processing.**  Every volume that is deleted has been replaced. -/
theorem cleanUp_spec {volSet : List AttachedVolume} {paired : List Pair} (hne : paired ≠ [])
    (hv : ∀ p ∈ paired, p.v ∈ volSet) (instanceRunning : Bool) :
    Triple (fun w => w.toMachine.Safe volSet)
      (fun w => Patched fleet i paired paired w.toMachine)
      (cleanUp fleet i instanceRunning paired)
      (fun _ w => Ends fleet i none w.toMachine)
      (fun f w => Ends fleet i (some f) w.toMachine) := by
  have hends : ∀ (w : World) (failure : Option Failure), Patched fleet i paired paired w.toMachine →
      Ends fleet i failure w.toMachine := fun w failure h => h.ends (h.begun hne) failure
  have hrest : Triple (fun w => w.toMachine.Safe volSet)
      (fun w => Patched fleet i paired paired w.toMachine)
      (do
        paired.forM fun p => ec2 (fleet.answers i) (.deleteVolume p.k) fun w =>
          w.deleteVolume p.v.1.volumeId
        paired.forM fun p => ec2 (fleet.answers i) (.deleteTags p.k) fun w =>
          w.deleteTags (.volume p.volume)
            ["maid-crypt-remediation".toList, "maid-origin-volume".toList,
              "maid-instance-device".toList])
      (fun _ w => Ends fleet i none w.toMachine)
      (fun f w => Ends fleet i (some f) w.toMachine) := by
    refine .bind (Q := fun _ w => Patched fleet i paired paired w.toMachine)
      (.forM (fun _ (w : World) => Patched fleet i paired paired w.toMachine)
        fun done p rest hdone => ?_)
      fun _ => .conseq
        (.forM (fun _ (w : World) => Patched fleet i paired paired w.toMachine)
        fun done p rest hdone => ?_)
        (fun _ h _ => h) (fun _ w h _ => hends w none h) fun _ _ h _ => h
    · refine ec2_triple ?_ fun w h _ _ => hends w _ h
      rintro w _ w' h hS heffect
      simp only [World.deleteVolume] at heffect
      split at heffect
      · cases heffect
      · cases heffect
        have hp : p ∈ paired := hdone ▸ List.mem_append_right done List.mem_cons_self
        exact ⟨⟨h.copies, h.devices, h.origins, h.patched, h.begun, h.start⟩,
          h.safe_delete hS hp (hv p hp)⟩
    · refine ec2_triple ?_ fun w h _ _ => hends w _ h
      rintro w _ w' h hS heffect
      cases heffect
      exact ⟨h, hS⟩
  unfold cleanUp
  cases instanceRunning with
  | false => exact hrest
  | true =>
    refine .bind (ec2_triple ?_ fun w h _ _ => hends w _ h) fun _ => hrest
    rintro w _ w' h hS heffect
    simp only [World.startInstances] at heffect
    split at heffect
    · cases heffect
      exact ⟨⟨h.copies, h.devices, h.origins, h.patched, h.begun, h.start⟩, hS.deleted, hS.named⟩
    · cases heffect

/-! ## One instance -/

variable (fleet i) in
/-- The instance is neither starting nor stopping; and if it runs and is stopped, no call fails by
itself from then on until the first volume is detached. -/
structure Orderly (count : Nat) : Prop where
  settled : fleet.described i = true → fleet.state i ≠ .pending ∧ fleet.state i ≠ .stopping
  restartable : fleet.described i = true → fleet.state i = .running →
    fleet.answers i .describeKey = true → fleet.answers i .stopInstances = true →
      Waits (fleet.answers i) .waitInstance ∧ (∀ k < count, Creates (fleet.answers i) k) ∧
        fleet.answers i (.detachVolume 0) = true

theorem ends_world (failure : Option Failure) :
    Ends fleet i failure (fleet.world i).toMachine := by
  refine ⟨fun _ d hd => ?_, fun hrunning _ => hrunning⟩
  rw [map_fst_world]
  exact hd

variable (fleet i) in
/-- The instance runs, and its stop was accepted. -/
def Stopping : Prop := fleet.described i = true ∧ fleet.answers i .stopInstances = true

/-- **Stopping the instance.** -/
theorem stopInstance_spec {volSet : List AttachedVolume} {count : Nat}
    (horderly : Orderly fleet i count) (hkey : fleet.answers i .describeKey = true) :
    Triple (fun w => w.toMachine.Safe volSet) (fun w => w = fleet.world i)
      (stopInstance fleet i)
      (fun stopped w => match stopped with
        | none => w = fleet.world i
        | some _ => (fleet.state i = .running → Stopping fleet i) ∧ Building fleet i w.toMachine)
      (fun f w => Ends fleet i (some f) w.toMachine) := by
  have hsettled := horderly.settled
  have hrestart := horderly.restartable
  unfold stopInstance Fleet.instanceMap
  cases hdescribed : fleet.described i with
  | false => exact .throw fun w hw _ => hw ▸ ends_world _
  | true =>
    simp only [hdescribed, forall_const] at hsettled hrestart
    have hpure : fleet.state i = .stopped → Triple (fun w => w.toMachine.Safe volSet)
        (fun w => w = fleet.world i) (pure (some false) : Ec2M (Option Bool))
        (fun stopped w => match stopped with
          | none => w = fleet.world i
          | some _ => (fleet.state i = .running → Stopping fleet i) ∧ Building fleet i w.toMachine)
        (fun f w => Ends fleet i (some f) w.toMachine) := by
      refine fun hstate => .pure ?_
      rintro w rfl -
      refine ⟨fun hrunning => ?_, hstate, rfl, rfl, rfl⟩
      rw [hstate] at hrunning
      cases hrunning
    cases hstate : fleet.state i with
    | pending => exact absurd hstate hsettled.1
    | stopping => exact absurd hstate hsettled.2
    | stopped =>
      rw [hstate] at hpure
      exact hpure rfl
    | shuttingDown | terminated => exact .pure fun w hw _ => hw
    | running =>
      simp only [if_true]
      cases hstop : fleet.answers i .stopInstances with
      | false =>
        refine .bind (ec2_triple_refused hstop fun w hw _ => hw ▸ ends_world _) fun _ => ?_
        exact .of_false fun _ h => h
      | true =>
        obtain ⟨hwaits, -, -⟩ := hrestart hstate hkey hstop
        refine .bind (Q := fun _ w => w.toMachine =
          { (fleet.world i).toMachine with state := .stopping }) (ec2_triple ?_ ?_) fun _ => ?_
        · rintro w _ w' rfl hS heffect
          simp only [World.stopInstances, Fleet.world, hstate, if_true] at heffect
          cases heffect
          exact ⟨rfl, hS.deleted, hS.named⟩
        · rintro w rfl - hfail
          exact ends_world _
        refine .bind (Q := fun _ w => Building fleet i w.toMachine)
          (waitOnResource_triple ?_ ?_) fun _ => .pure fun w h _ => ⟨fun _ => ⟨hdescribed, hstop⟩, h⟩
        · rintro w w' hw hS heffect
          have hstopping : w.state = .stopping := by rw [hw]
          have hattached : w.attached = (fleet.world i).attached := by rw [hw]
          have hdetached : w.detached = [] := by
            rw [hw]
            rfl
          have hdeleted : w.deleted = [] := by
            rw [hw]
            rfl
          simp only [World.waitInstanceStopped, hstopping, true_or, if_true] at heffect
          cases heffect
          exact ⟨⟨rfl, hattached, hdetached, hdeleted⟩, hS.deleted, hS.named⟩
        · rintro w hw hS hfail
          obtain ⟨a, ha, hanswer⟩ := hwaits
          rcases hfail with hfail | hfail
          · rw [hfail a ha] at hanswer
            cases hanswer
          · have hstopping : w.state = .stopping := by rw [hw]
            rw [World.waitInstanceStopped, if_pos (Or.inl hstopping)] at hfail
            cases hfail

theorem Stage.patched {paired : List Pair} {m : Machine} (h : Stage fleet i paired m) :
    Patched fleet i paired [] m where
  copies := h.copies
  devices d hd := by
    rw [h.building.attached, map_fst_world]
    exact hd
  origins d id hmem := by
    rw [h.building.attached, Fleet.world] at hmem
    obtain ⟨q, hq, he⟩ := List.mem_map.mp hmem
    cases he
    exact hq
  patched p hp := absurd hp List.not_mem_nil
  begun hne := absurd rfl hne
  start _ := h.building.attached

/-- The pairs are those of the volumes and their places. -/
structure PairsOf (volSet : List AttachedVolume) (paired : List Pair) : Prop where
  zipIdx : paired.map (fun p => (p.v, p.k)) = volSet.zipIdx

theorem PairsOf.map_v {volSet : List AttachedVolume} {paired : List Pair}
    (h : PairsOf volSet paired) : paired.map Pair.v = volSet := by
  have hfst := congrArg (List.map Prod.fst) h.zipIdx
  rw [List.map_map, List.zipIdx_map_fst] at hfst
  exact hfst

theorem PairsOf.mem {volSet : List AttachedVolume} {paired : List Pair} (h : PairsOf volSet paired)
    {p : Pair} (hp : p ∈ paired) : p.v ∈ volSet := h.map_v ▸ List.mem_map_of_mem hp

theorem PairsOf.first {volSet : List AttachedVolume} {p : Pair} {rest : List Pair}
    (h : PairsOf volSet (p :: rest)) : p.k = 0 := by
  have hzip := h.zipIdx
  cases volSet with
  | nil => cases hzip
  | cons v volSet =>
    rw [List.map_cons, List.zipIdx_cons] at hzip
    exact congrArg Prod.snd (List.cons.inj hzip).1

/-- **One instance.**  It ends as it should, and no state loses data. -/
theorem processVolume_spec {volSet : List AttachedVolume} (hne : volSet ≠ [])
    (hplaced : ∀ v ∈ volSet, Placed fleet i v) (horderly : Orderly fleet i volSet.length) :
    Triple (fun w => w.toMachine.Safe volSet) (fun w => w = fleet.world i)
      (processVolume fleet i volSet)
      (fun _ w => Ends fleet i none w.toMachine)
      (fun f w => Ends fleet i (some f) w.toMachine) := by
  unfold processVolume
  cases hkey : fleet.answers i .describeKey with
  | false =>
    refine .bind (ec2_triple_refused hkey fun w hw _ => hw ▸ ends_world _) fun _ => ?_
    exact .of_false fun _ h => h
  | true =>
    refine .bind (Q := fun _ w => w = fleet.world i) (ec2_triple ?_ fun w hw _ _ => hw ▸ ends_world _)
      fun keyId => ?_
    · rintro w a w' rfl hS heffect
      cases heffect
      exact ⟨rfl, hS⟩
    refine .bind (stopInstance_spec horderly hkey) fun stopped => ?_
    cases stopped with
    | none => exact .pure fun w hw _ => hw ▸ ends_world _
    | some instanceRunning =>
      refine .assume fun hstopping => ?_
      have hcreates : fleet.state i = .running →
          (∀ k < volSet.length, Creates (fleet.answers i) k) ∧
            fleet.answers i (.detachVolume 0) = true := by
        intro hrunning
        obtain ⟨hdescribed, hstop⟩ := hstopping hrunning
        exact (horderly.restartable hdescribed hrunning hkey hstop).2
      refine .bind (.conseq (.mapM
        (fun done paired w => paired.map (fun p => (p.v, p.k)) = done ∧
          Stage fleet i paired w.toMachine) fun done e rest paired hdone => ?_)
        (fun w h _ => ⟨rfl, h, fun p hp => absurd hp List.not_mem_nil⟩) (fun _ _ h _ => h)
        fun _ _ h _ => h) fun paired => ?_
      · have he : e ∈ volSet.zipIdx := hdone ▸ List.mem_append_right done List.mem_cons_self
        obtain ⟨hlt, hv⟩ := List.mem_zipIdx' he
        refine .assume fun hpaired => .bind (createEncryptedVolume_spec (hv ▸ List.getElem_mem hlt)
          (fun hrunning => (hcreates hrunning).1 e.2 hlt) keyId) fun n => .pure fun w h _ => ?_
        refine ⟨by rw [List.map_append, hpaired]; rfl, h.1.building, fun p hp => ?_⟩
        rcases List.mem_append.mp hp with hp | hp
        · exact h.1.copies p hp
        · rw [List.mem_singleton.mp hp]
          exact h.2
      refine .assume fun hzip => ?_
      have hpairs : PairsOf volSet paired := ⟨hzip⟩
      refine .bind (Q := fun _ w => w.deleted = [] ∧ Patched fleet i paired paired w.toMachine)
        (.conseq (.forM (fun done w => w.deleted = [] ∧ Patched fleet i paired done w.toMachine)
          fun done p rest hdone => ?_) (fun w h _ => ⟨h.building.deleted, h.patched⟩)
          (fun _ _ h _ => h) fun _ _ h _ => h) fun _ => ?_
      · have hp : p ∈ paired := hdone ▸ List.mem_append_right done List.mem_cons_self
        refine patch_spec (hpairs.mem hp) (hplaced p.v (hpairs.mem hp)) fun hrunning hnil => ?_
        rw [hnil, List.nil_append] at hdone
        rw [PairsOf.first (hdone ▸ hpairs)]
        exact (hcreates hrunning).2
      · have hpaired : paired ≠ [] := by
          rintro rfl
          exact hne hpairs.map_v.symm
        exact .conseq (cleanUp_spec hpaired (fun p hp => hpairs.mem hp) instanceRunning)
          (fun _ h _ => h.2) (fun _ _ h _ => h) fun _ _ h _ => h

end Building

/-! ## Grouping by instance -/

/-- A map lists the volumes that are done under their instances. -/
structure Groups (groups : List (Text × List AttachedVolume)) (done : List Volume) : Prop where
  members : ∀ g ∈ groups, g.2 ≠ [] ∧ ∀ v ∈ g.2, v.1 ∈ done ∧ v.attachment.instanceId = g.1
  all : ∀ v : AttachedVolume, v.1 ∈ done →
    ∃ vs, Items.get v.attachment.instanceId groups = some vs ∧ v ∈ vs

theorem Groups.nil : Groups [] [] :=
  ⟨fun _ hg => absurd hg List.not_mem_nil, fun _ hv => absurd hv List.not_mem_nil⟩

theorem Groups.add {groups : List (Text × List AttachedVolume)} {done : List Volume}
    (h : Groups groups done) (v : AttachedVolume) :
    Groups (Items.set v.attachment.instanceId
      ((Items.get v.attachment.instanceId groups).getD [] ++ [v]) groups) (done ++ [v.1]) := by
  refine ⟨fun g hg => ?_, fun u hu => ?_⟩
  · rcases Items.mem_set hg with rfl | hg
    · refine ⟨by simp, fun u hu => ?_⟩
      rcases List.mem_append.mp hu with hu | hu
      · cases hget : Items.get v.attachment.instanceId groups with
        | none =>
          rw [hget] at hu
          exact absurd hu List.not_mem_nil
        | some vs =>
          rw [hget] at hu
          obtain ⟨hdone, hinstance⟩ := (h.members _ (Items.mem_of_get hget)).2 u hu
          exact ⟨List.mem_append_left _ hdone, hinstance⟩
      · rw [List.mem_singleton.mp hu]
        exact ⟨List.mem_append_right _ (List.mem_singleton_self _), rfl⟩
    · obtain ⟨hne, hall⟩ := h.members g hg
      exact ⟨hne, fun u hu => ⟨List.mem_append_left _ (hall u hu).1, (hall u hu).2⟩⟩
  · rw [Items.get_set]
    rcases List.mem_append.mp hu with hu | hu
    · obtain ⟨vs, hvs, hmem⟩ := h.all u hu
      split
      · rename_i hinstance
        refine ⟨_, rfl, List.mem_append_left _ ?_⟩
        rw [← hinstance, hvs]
        exact hmem
      · exact ⟨vs, hvs, hmem⟩
    · obtain rfl : u = v := Subtype.ext (List.mem_singleton.mp hu)
      rw [if_pos rfl]
      exact ⟨_, rfl, List.mem_append_right _ (List.mem_singleton_self _)⟩

theorem groupByInstance_spec {groups : List (Text × List AttachedVolume)} {done : List Volume}
    (h : Groups groups done) {volumes : List Volume} (hall : ∀ v ∈ volumes, v.attachments ≠ []) :
    ∃ groups', groupByInstance groups volumes = .ok groups' ∧ Groups groups' (done ++ volumes) := by
  induction volumes generalizing groups done with
  | nil => exact ⟨groups, rfl, by rwa [List.append_nil]⟩
  | cons v volumes ih =>
    obtain ⟨hv, hrest⟩ := List.forall_mem_cons.mp hall
    rw [groupByInstance, dif_neg hv]
    obtain ⟨groups', hgroups', hspec⟩ := ih (h.add ⟨v, hv⟩) hrest
    refine ⟨groups', hgroups', ?_⟩
    rwa [List.append_assoc, List.singleton_append] at hspec

theorem instanceVolMap_spec {volumes : List Volume} (hall : ∀ v ∈ volumes, v.attachments ≠ []) :
    ∃ groups, instanceVolMap volumes = .ok groups ∧ Groups groups (selected volumes) :=
  groupByInstance_spec Groups.nil fun v hv => hall v (List.mem_filter.mp hv).1

theorem mem_selected {volumes : List Volume} {v : Volume} (h : v.attachments ≠ []) :
    v ∈ selected volumes ↔ v ∈ volumes ∧ v.encrypted = false := by
  have hempty : v.attachments.isEmpty = false := by simpa using h
  simp [selected, hempty]

/-! ## All instances -/

section Fleet

variable (fleet : Fleet) (g : Text × List AttachedVolume)

/-- The trace of the thread of an instance. -/
def Fleet.trace : Trace World :=
  match outcome fleet g.1 g.2 with
  | .ok _ t => t
  | .error _ t => t

/-- How the thread of an instance failed. -/
def Fleet.failure : Option Failure :=
  match outcome fleet g.1 g.2 with
  | .ok _ _ => none
  | .error e _ => some e

/-- The thread of an instance has made all its calls. -/
def Fleet.Ended (schedule : List Text) : Prop :=
  (fleet.trace g).history.length ≤ schedule.count g.1

/-- The instance when the threads have taken turns in the order of the schedule: a thread only
calls for its own instance. -/
def Fleet.worldAfter (schedule : List Text) : World :=
  ((fleet.world g.1 :: (fleet.trace g).history).dropLast[schedule.count g.1]?).getD
    (fleet.trace g).world

/-- Encrypting the volumes loses no data and leaves no instance down: all attached volumes that are
not encrypted are processed; what is deleted was replaced; other volumes are left alone; and every
instance ends as it should, whatever happens with the others. -/
structure Encrypts : Prop where
  processed : ∃ groups, instanceVolMap fleet.volumes = .ok groups ∧
    ∀ v : AttachedVolume, v.1 ∈ fleet.volumes → v.1.encrypted = false →
      ∃ vs, (v.attachment.instanceId, vs) ∈ groups ∧ v ∈ vs
  deletes : ∀ groups, instanceVolMap fleet.volumes = .ok groups → ∀ g ∈ groups, ∀ schedule,
    ∀ id ∈ (fleet.worldAfter g schedule).deleted, ∃ v ∈ g.2, v.1.volumeId = id ∧
      (fleet.worldAfter g schedule).toMachine.Replaced v
  leftAlone : ∀ groups, instanceVolMap fleet.volumes = .ok groups → ∀ g ∈ groups, ∀ schedule,
    ∀ id ∈ (fleet.worldAfter g schedule).toMachine.named, ∃ v ∈ fleet.volumes, v.volumeId = id ∧
      v.encrypted = false ∧ v.attachments ≠ []
  ends : ∀ groups, instanceVolMap fleet.volumes = .ok groups → ∀ g ∈ groups, ∀ schedule,
    fleet.Ended g schedule →
      Ends fleet g.1 (fleet.failure g) (fleet.worldAfter g schedule).toMachine

end Fleet

variable {fleet : Fleet}

theorem trace_spec {g : Text × List AttachedVolume} (hne : g.2 ≠ [])
    (hplaced : ∀ v ∈ g.2, Placed fleet g.1 v) (horderly : Orderly fleet g.1 g.2.length) :
    Ends fleet g.1 (fleet.failure g) (fleet.trace g).world.toMachine ∧
      Passed (fun w => w.toMachine.Safe g.2) (fleet.trace g) := by
  have hstart : (fleet.world g.1).toMachine.Safe g.2 :=
    safe_of_deleted rfl fun id hid => absurd hid List.not_mem_nil
  have hrun := processVolume_spec hne hplaced horderly ⟨fleet.world g.1, []⟩ rfl
    ⟨hstart, fun w hw => absurd hw List.not_mem_nil⟩
  unfold Fleet.failure Fleet.trace outcome
  split
  · rename_i t hok
    rw [hok] at hrun
    exact hrun
  · rename_i e t herror
    rw [herror] at hrun
    exact hrun

/-- **Encrypting the volumes of instances.**  If all volumes are attached, no instance is starting
or stopping, and no call fails between stopping a running instance and detaching its first volume,
then no data is lost and no instance is left down. -/
theorem encrypts_of_orderly (fleet : Fleet)
    (hattached : ∀ v ∈ fleet.volumes, v.attachments ≠ [])
    (horderly : ∀ groups, instanceVolMap fleet.volumes = .ok groups →
      ∀ g ∈ groups, Orderly fleet g.1 g.2.length) : Encrypts fleet := by
  obtain ⟨groups, hgroups, hspec⟩ := instanceVolMap_spec hattached
  have hvolume : ∀ g ∈ groups, ∀ v ∈ g.2, v.1 ∈ fleet.volumes ∧ v.1.encrypted = false ∧
      Placed fleet g.1 v := by
    intro g hg v hv
    obtain ⟨hselected, hinstance⟩ := (hspec.members g hg).2 v hv
    obtain ⟨hmem, hencrypted⟩ := (mem_selected v.2).mp hselected
    refine ⟨hmem, hencrypted, ⟨?_⟩⟩
    rw [← hinstance]
    exact fleet.accurate v.1 hmem v.attachment (List.head?_eq_some_head v.2)
  have htrace : ∀ g ∈ groups, Ends fleet g.1 (fleet.failure g) (fleet.trace g).world.toMachine ∧
      Passed (fun w => w.toMachine.Safe g.2) (fleet.trace g) := fun g hg =>
    trace_spec (hspec.members g hg).1 (fun v hv => (hvolume g hg v hv).2.2)
      (horderly groups hgroups g hg)
  have hsafe : ∀ g ∈ groups, ∀ schedule, (fleet.worldAfter g schedule).toMachine.Safe g.2 := by
    intro g hg schedule
    obtain ⟨-, hpassed⟩ := htrace g hg
    unfold Fleet.worldAfter
    cases hat : (fleet.world g.1 :: (fleet.trace g).history).dropLast[schedule.count g.1]? with
    | none => exact hpassed.world
    | some w =>
      have hw := List.dropLast_subset _ (List.mem_of_getElem? hat)
      rcases List.mem_cons.mp hw with rfl | hw
      · exact safe_of_deleted rfl fun id hid => absurd hid List.not_mem_nil
      · exact hpassed.history w hw
  refine ⟨⟨groups, hgroups, fun v hv hencrypted => ?_⟩, ?_, ?_, ?_⟩
  · obtain ⟨vs, hvs, hmem⟩ := hspec.all v ((mem_selected v.2).mpr ⟨hv, hencrypted⟩)
    exact ⟨vs, Items.mem_of_get hvs, hmem⟩
  · intro groups' hgroups' g hg schedule id hid
    obtain rfl := Except.ok.inj (hgroups.symm.trans hgroups')
    exact (hsafe g hg schedule).deleted id hid
  · intro groups' hgroups' g hg schedule id hid
    obtain rfl := Except.ok.inj (hgroups.symm.trans hgroups')
    obtain ⟨v, hv, hid⟩ := (hsafe g hg schedule).named id hid
    obtain ⟨hmem, hencrypted, -⟩ := hvolume g hg v hv
    exact ⟨v.1, hmem, hid, hencrypted, v.2⟩
  · intro groups' hgroups' g hg schedule hended
    obtain rfl := Except.ok.inj (hgroups.symm.trans hgroups')
    have hlast : fleet.worldAfter g schedule = (fleet.trace g).world := by
      rw [Fleet.worldAfter, List.getElem?_eq_none, Option.getD_none]
      rw [List.length_dropLast, List.length_cons, Nat.add_sub_cancel]
      exact hended
    rw [hlast]
    exact (htrace g hg).1

/-! ## One volume -/

/-- A volume that is attached to an instance. -/
def sampleVolume : Volume where
  volumeId := "vol-1".toList
  encrypted := false
  attachments := [⟨"i-1".toList, "/dev/sda1".toList, true⟩]
  size := 8
  volumeType := "gp3".toList
  availabilityZone := "us-east-1a".toList
  tags := []

def sampleAttached : AttachedVolume := ⟨sampleVolume, by simp [sampleVolume]⟩

/-- The volume alone, on an instance in some state. -/
def sampleFleet (state : InstanceState) (answers : Call → Bool) : Fleet where
  volumes := [sampleVolume]
  keyId := "key-1".toList
  described _ := true
  state _ := state
  attached i := if i = "i-1".toList then [("/dev/sda1".toList, "vol-1".toList)] else []
  answers _ := answers
  accurate := by decide
  devices_nodup i := by split <;> simp
  volumes_nodup i := by split <;> simp

/-- The volume, and one that is not attached. -/
def sampleUnattached : Fleet where
  volumes := [sampleVolume, { sampleVolume with volumeId := "vol-2".toList, attachments := [] }]
  keyId := "key-1".toList
  described _ := true
  state _ := .running
  attached i := if i = "i-1".toList then [("/dev/sda1".toList, "vol-1".toList)] else []
  answers _ _ := true
  accurate := by decide
  devices_nodup i := by split <;> simp
  volumes_nodup i := by split <;> simp

theorem encrypts_of_orderly_sample : Encrypts (sampleFleet .running fun _ => true) := by
  refine encrypts_of_orderly (sampleFleet .running fun _ => true) (by decide)
    fun groups hgroups g hg => ⟨fun _ => ?_, fun _ _ _ _ => ⟨⟨0, by decide, rfl⟩, fun k hk => ?_, rfl⟩⟩
  · have hstate : (sampleFleet .running fun _ => true).state g.1 = .running := rfl
    rw [hstate]
    exact ⟨by decide, by decide⟩
  · exact ⟨rfl, rfl, ⟨0, by decide, rfl⟩, rfl, rfl, ⟨0, by decide, rfl⟩, rfl, rfl,
      ⟨0, by decide, rfl⟩, rfl, rfl⟩

theorem instanceVolMap_sample :
    instanceVolMap [sampleVolume] = .ok [("i-1".toList, [sampleAttached])] := rfl

/-- A volume that is not attached stops everything; the volume of an instance that is starting is
deleted after a snapshot of the running disk; and an instance stays down when its volume cannot be
created. -/
theorem sampleFleet_fails :
    ¬ Encrypts sampleUnattached ∧
    ¬ Encrypts (sampleFleet .pending fun _ => true) ∧
    ¬ Encrypts (sampleFleet .running fun c => decide (c ≠ .createVolume 0)) := by
  refine ⟨fun h => ?_, fun h => ?_, fun h => ?_⟩
  · obtain ⟨groups, hgroups, -⟩ := h.processed
    cases hgroups
  · obtain ⟨v, -, -, n, ⟨c, hc, -, -, hstopped⟩, -⟩ := h.deletes _ instanceVolMap_sample _
      (List.mem_singleton_self _) (List.replicate 20 "i-1".toList) "vol-1".toList (by decide +kernel)
    have hall : ∀ c ∈ ((sampleFleet .pending fun _ => true).worldAfter
        ("i-1".toList, [sampleAttached]) (List.replicate 20 "i-1".toList)).volumes,
        c.source.takenWhile = .pending := by decide +kernel
    rw [hall c (List.mem_of_getElem? hc)] at hstopped
    cases hstopped
  · have hended : (sampleFleet .running fun c => decide (c ≠ .createVolume 0)).Ended
        ("i-1".toList, [sampleAttached]) (List.replicate 20 "i-1".toList) := by
      unfold Fleet.Ended
      decide +kernel
    have hends := (h.ends _ instanceVolMap_sample _ (List.mem_singleton_self _) _ hended).restarted
      rfl (by decide +kernel)
    exact absurd hends (by decide +kernel)

end Custodian.EncryptVolumes

import Custodian.Lib.Items
import Custodian.Lib.Text

/-!
# Locks of resources

`Controller.lock`, `unlock`, `info` and `process_pending` of `c7n_sphere11/controller.py` over the
table of `LockDb`.  A pass over pending records reads the records of an account in one step, and
saves each of them in a later one.
-/

namespace Custodian.Sphere11

open Py

/-! ## Records -/

inductive LockStatus where
  | locked
  | unlocked
  | pending
  deriving DecidableEq

/-- A record of the table. -/
structure Record where
  accountId : Text
  resourceId : Text
  lockDate : Int
  lockStatus : LockStatus
  revisionDate : Option Int
  lockDelay : Option Int
  deriving DecidableEq

abbrev Key := Text × Text

def Record.key (p : Record) : Key := (p.accountId, p.resourceId)

/-- A record as the index gives it: the keys, the lock status and the lock date. -/
def Record.projected (p : Record) : Record := { p with revisionDate := none, lockDelay := none }

/-- A pass of `process_pending`: the accounts it has to come to, and the records it has read of the
account it is at. -/
structure Process where
  accounts : List Text
  pending : List Record

structure State where
  table : List (Key × Record)
  processes : List Process

def State.init : State := ⟨[], []⟩

namespace State

variable (s : State)

/-- `LockDb.record` -/
def record (k : Key) : Option Record := Items.get k s.table

/-- `LockDb.save` -/
def save (p : Record) : State := { s with table := Items.set p.key p s.table }

/-- `LockDb.iter_pending`: the condition on the lock status is made and dropped, so the query has
the one on the account. -/
def iterPending (accountId : Text) : List Record :=
  (s.table.filter fun e => decide (e.1.1 = accountId)).map fun e => e.2.projected

end State

/-- What `info` tells of a resource. -/
structure Info where
  resourceId : Text
  parentId : Option Text
  lockStatus : LockStatus

/-- `LockDb.info`, with an empty text for no parent. -/
def State.info (s : State) (accountId resourceId parentId : Text) : Option Info :=
  match s.record (accountId, resourceId) with
  | none =>
    if parentId.isEmpty then some ⟨resourceId, none, .unlocked⟩
    else match s.record (accountId, parentId) with
      | none => some ⟨resourceId, some parentId, .unlocked⟩
      | some parent => some ⟨resourceId, some parentId, parent.lockStatus⟩
  | some resource =>
    if Text.startsWith resource.resourceId "vpc-".toList then
      some ⟨resource.resourceId, none, resource.lockStatus⟩
    else if Text.startsWith resource.resourceId "sg-".toList then
      some ⟨resource.resourceId, none, resource.lockStatus⟩
    else none

/-- `get_resource_class` finds a class, and does not raise. -/
def supported (resourceId : Text) : Bool :=
  Text.startsWith resourceId "vpc-".toList || Text.startsWith resourceId "sg-".toList

/-! ## Steps -/

/-- What `lock` finds out about a resource: it raises, the revision is not current, or it is and
has a date. -/
inductive Revision where
  | unknown
  | outdated
  | current (date : Int)

inductive Step where
  | lock (accountId resourceId : Text) (revision : Revision) (now : Int)
  | unlock (accountId resourceId : Text) (now : Int)
  | start
  | read (i : Nat)
  | take (i : Nat) (captured : Option Int)

/-- The record that a step saves. -/
def written (s : State) : Step → Option Record
  | .lock accountId resourceId revision now =>
    if supported resourceId then
      match revision with
      | .unknown => none
      | .outdated => some ⟨accountId, resourceId, now, .pending, none, none⟩
      | .current date => some ⟨accountId, resourceId, now, .locked, some (date + 1), none⟩
    else none
  | .unlock accountId resourceId now =>
    some ⟨accountId, resourceId, now, .unlocked, none, none⟩
  | .start => none
  | .read _ => none
  | .take i captured =>
    match s.processes[i]? with
    | some ⟨_, p :: _⟩ =>
      if supported p.resourceId then
        captured.map fun date =>
          { p with revisionDate := some date, lockStatus := .locked, lockDelay := some (date - p.lockDate) }
      else none
    | _ => none

/-- How the passes go on with a step.  A record of another type of resource ends a pass. -/
def advance (accounts : List Text) (s : State) : Step → List Process
  | .lock _ _ _ _ => s.processes
  | .unlock _ _ _ => s.processes
  | .start => s.processes ++ [⟨accounts, []⟩]
  | .read i =>
    match s.processes[i]? with
    | some ⟨accountId :: rest, []⟩ => s.processes.set i ⟨rest, s.iterPending accountId⟩
    | _ => s.processes
  | .take i _ =>
    match s.processes[i]? with
    | some ⟨rest, p :: ps⟩ =>
      s.processes.set i (if supported p.resourceId then ⟨rest, ps⟩ else ⟨[], []⟩)
    | _ => s.processes

def apply (accounts : List Text) (s : State) (step : Step) : State :=
  let s' : State := { s with processes := advance accounts s step }
  match written s step with
  | none => s'
  | some p => s'.save p

/-- The steps of a run, in order. -/
def exec (accounts : List Text) (steps : List Step) : State := steps.foldl (apply accounts) .init

/-! ## What a run has to respect -/

def Step.locks (accountId resourceId : Text) : Step → Prop
  | .lock a r _ _ => a = accountId ∧ r = resourceId
  | _ => False

/-- The resource was unlocked and no lock was requested after that. -/
def Unlocked (accountId resourceId : Text) (steps : List Step) : Prop :=
  ∃ pre now post, steps = pre ++ .unlock accountId resourceId now :: post ∧
    ∀ step ∈ post, ¬ step.locks accountId resourceId

/-- At every moment of a run unlocked resources are told of as unlocked, only a lock saves another
status for one, and passes change only records that are pending. -/
structure Respects (accounts : List Text) (steps : List Step) : Prop where
  info : ∀ pre, pre <+: steps → ∀ a r, Unlocked a r pre → ∀ parentId,
    ∃ i, (exec accounts pre).info a r parentId = some i ∧ i.lockStatus = .unlocked
  saves : ∀ pre step, pre ++ [step] <+: steps → ∀ p, written (exec accounts pre) step = some p →
    p.lockStatus ≠ .unlocked → Unlocked p.accountId p.resourceId pre →
      step.locks p.accountId p.resourceId
  pending : ∀ pre i captured, pre ++ [.take i captured] <+: steps → ∀ k,
    (exec accounts (pre ++ [.take i captured])).record k ≠ (exec accounts pre).record k →
      ∃ p, (exec accounts pre).record k = some p ∧ p.lockStatus = .pending

/-! ## The condition -/

/-- A pass, but the one at a place, holds a pending copy of a record that it has not come to. -/
def HeldBy (s : State) (other : Option Nat) (k : Key) : Prop :=
  ∃ i process, s.processes[i]? = some process ∧ some i ≠ other ∧
    ∃ p ∈ process.pending, p.lockStatus = .pending ∧ p.key = k

/-- A step that saves no copy which was not pending when it was read, and that gives no record
another status while a pass holds a pending copy of it. -/
def Orderly (s : State) : Step → Prop
  | .lock a r revision _ =>
    match revision with
    | .current _ => ¬ HeldBy s none (a, r)
    | _ => True
  | .unlock a r _ => supported r = true ∧ ¬ HeldBy s none (a, r)
  | .start => True
  | .read _ => True
  | .take i captured => ∀ rest p ps, s.processes[i]? = some ⟨rest, p :: ps⟩ →
      (written s (.take i captured)).isSome → p.lockStatus = .pending ∧ ¬ HeldBy s (some i) p.key

def OrderlyRun (accounts : List Text) (steps : List Step) : Prop :=
  ∀ pre step, pre ++ [step] <+: steps → Orderly (exec accounts pre) step

variable {accounts : List Text} {s : State} {steps : List Step} {step : Step}

/-! ## What a step changes -/

theorem get_apply (accounts : List Text) (s : State) (step : Step) (k : Key) :
    (apply accounts s step).record k =
      match written s step with
      | none => s.record k
      | some p => if k = p.key then some p else s.record k := by
  unfold apply
  cases written s step with
  | none => rfl
  | some p => exact Items.lookup_set p.key p s.table k

theorem apply_processes (accounts : List Text) (s : State) (step : Step) :
    (apply accounts s step).processes = advance accounts s step := by
  unfold apply
  cases written s step <;> rfl

theorem written_take {i : Nat} {captured : Option Int} {w : Record}
    (h : written s (.take i captured) = some w) :
    ∃ rest p ps, s.processes[i]? = some ⟨rest, p :: ps⟩ ∧ w.key = p.key ∧
      w.lockStatus = .locked ∧ supported p.resourceId = true := by
  rw [written] at h
  split at h
  · rename_i rest p ps hprocess
    split at h
    · rename_i hsupported
      obtain ⟨date, -, rfl⟩ := Option.map_eq_some_iff.mp h
      exact ⟨rest, p, ps, hprocess, rfl, rfl, hsupported⟩
    · cases h
  · cases h

theorem exec_concat (accounts : List Text) (steps : List Step) (step : Step) :
    exec accounts (steps ++ [step]) = apply accounts (exec accounts steps) step := by
  rw [exec, List.foldl_append]
  rfl

theorem unlocked_concat {a r : Text} : Unlocked a r (steps ++ [step]) ↔
    (∃ now, step = .unlock a r now) ∨ (¬ step.locks a r ∧ Unlocked a r steps) := by
  constructor
  · rintro ⟨pre, now, post, hsteps, hpost⟩
    rcases List.eq_nil_or_concat' post with rfl | ⟨post, last, rfl⟩
    · have hlast := List.append_inj_right' hsteps rfl
      injection hlast with hlast
      exact Or.inl ⟨now, hlast⟩
    · rw [← List.cons_append, ← List.append_assoc] at hsteps
      have hlast := List.append_inj_right' hsteps rfl
      injection hlast with hlast
      have hinit := List.append_inj_left' hsteps rfl
      rw [List.forall_mem_append, List.forall_mem_singleton] at hpost
      exact Or.inr ⟨hlast ▸ hpost.2, pre, now, post, hinit, hpost.1⟩
  · rintro (⟨now, rfl⟩ | ⟨hlocks, pre, now, post, rfl, hpost⟩)
    · exact ⟨steps, now, [], rfl, by simp⟩
    · refine ⟨pre, now, post ++ [step], by simp, ?_⟩
      rw [List.forall_mem_append, List.forall_mem_singleton]
      exact ⟨hpost, hlocks⟩

/-! ## The invariant -/

/-- The records that passes hold pending copies of are pending, and unlocked resources have a
record. -/
structure Inv (s : State) (steps : List Step) : Prop where
  keys : ∀ k p, s.record k = some p → p.key = k
  nodup : (s.table.map Prod.fst).Nodup
  distinct : ∀ process ∈ s.processes, (process.pending.map Record.key).Nodup
  held : ∀ process ∈ s.processes, ∀ p ∈ process.pending, p.lockStatus = .pending →
    ∃ q, s.record p.key = some q ∧ q.lockStatus = .pending
  unlocked : ∀ a r, Unlocked a r steps →
    supported r = true ∧ ∃ q, s.record (a, r) = some q ∧ q.lockStatus = .unlocked

theorem inv_init : Inv .init [] := by
  refine ⟨?_, List.nodup_nil, ?_, ?_, ?_⟩
  · intro k p h
    cases h
  · intro process h
    cases h
  · intro process h
    cases h
  · rintro a r ⟨pre, now, post, hsteps, -⟩
    simp at hsteps

theorem iterPending_spec (h : Inv s steps) (a : Text) :
    ((s.iterPending a).map Record.key).Nodup ∧ ∀ p ∈ s.iterPending a,
      ∃ q, s.record p.key = some q ∧ q.lockStatus = p.lockStatus := by
  have hrecord : ∀ e ∈ s.table, s.record e.1 = some e.2 := fun e he =>
    (Items.mem_iff_lookup h.nodup).mp he
  have hkey : ∀ e ∈ s.table, e.2.projected.key = e.1 := fun e he => h.keys e.1 e.2 (hrecord e he)
  constructor
  · have hmap : (s.iterPending a).map Record.key =
        (s.table.filter fun e => decide (e.1.1 = a)).map Prod.fst := by
      rw [State.iterPending, List.map_map]
      exact List.map_congr_left fun e he => hkey e (List.mem_of_mem_filter he)
    rw [hmap]
    exact (List.filter_sublist.map _).nodup h.nodup
  · intro p hp
    obtain ⟨e, he, rfl⟩ := List.mem_map.mp hp
    have hmem := List.mem_of_mem_filter he
    refine ⟨e.2, ?_, rfl⟩
    rw [hkey e hmem]
    exact hrecord e hmem

theorem mem_advance {process : Process} (h : process ∈ advance accounts s step) :
    process ∈ s.processes ∨ process.pending = [] ∨
      (∃ i a rest, step = .read i ∧ s.processes[i]? = some ⟨a :: rest, []⟩ ∧
        process.pending = s.iterPending a) ∨
      ∃ i captured rest p ps, step = .take i captured ∧
        s.processes[i]? = some ⟨rest, p :: ps⟩ ∧ process.pending = ps := by
  cases step with
  | lock => exact Or.inl h
  | unlock => exact Or.inl h
  | start =>
    rcases List.mem_append.mp h with h | h
    · exact Or.inl h
    · rw [List.mem_singleton.mp h]
      exact Or.inr (Or.inl rfl)
  | read i =>
    rw [advance] at h
    split at h
    · rename_i a rest hprocess
      rcases List.mem_or_eq_of_mem_set h with h | rfl
      · exact Or.inl h
      · exact Or.inr (Or.inr (Or.inl ⟨i, a, rest, rfl, hprocess, rfl⟩))
    · exact Or.inl h
  | take i captured =>
    rw [advance] at h
    split at h
    · rename_i rest p ps hprocess
      rcases List.mem_or_eq_of_mem_set h with h | rfl
      · exact Or.inl h
      · split
        · exact Or.inr (Or.inr (Or.inr ⟨i, captured, rest, p, ps, rfl, hprocess, rfl⟩))
        · exact Or.inr (Or.inl rfl)
    · exact Or.inl h

theorem exists_of_mem_set {α : Type} {l : List α} {i : Nat} {a b : α} (h : a ∈ l.set i b) :
    a = b ∨ ∃ j, j ≠ i ∧ l[j]? = some a := by
  obtain ⟨j, hj⟩ := List.mem_iff_getElem?.mp h
  rw [List.getElem?_set] at hj
  split at hj
  · split at hj
    · exact Or.inl (Option.some.inj hj).symm
    · cases hj
  · rename_i hne
    exact Or.inr ⟨j, Ne.symm hne, hj⟩

theorem written_held (h : Inv s steps) (horderly : Orderly s step) {w p : Record}
    {process : Process} (hw : written s step = some w)
    (hprocess : process ∈ advance accounts s step) (hp : p ∈ process.pending)
    (hpending : p.lockStatus = .pending) (hkey : p.key = w.key) : w.lockStatus = .pending := by
  cases step with
  | lock a r revision now =>
    simp only [written] at hw
    split at hw
    · cases revision with
      | unknown => cases hw
      | outdated =>
        cases hw
        rfl
      | current date =>
        cases hw
        obtain ⟨i, hi⟩ := List.mem_iff_getElem?.mp hprocess
        exact absurd ⟨i, process, hi, by simp, p, hp, hpending, hkey⟩ horderly
    · cases hw
  | unlock a r now =>
    cases hw
    obtain ⟨i, hi⟩ := List.mem_iff_getElem?.mp hprocess
    exact absurd ⟨i, process, hi, by simp, p, hp, hpending, hkey⟩ horderly.2
  | start => cases hw
  | read i => cases hw
  | take i captured =>
    obtain ⟨rest, first, ps, hfirst, hsame, -, hsupported⟩ := written_take hw
    rw [advance, hfirst] at hprocess
    simp only [if_pos hsupported] at hprocess
    rcases exists_of_mem_set hprocess with rfl | ⟨j, hj, hother⟩
    · have hdistinct := h.distinct _ (List.mem_of_getElem? hfirst)
      rw [List.map_cons, List.nodup_cons] at hdistinct
      exact absurd (List.mem_map.mpr ⟨p, hp, hkey.trans hsame⟩) hdistinct.1
    · have hfree := (horderly rest first ps hfirst (by rw [hw]; rfl)).2
      rw [← hsame] at hfree
      exact absurd ⟨j, process, hother, by simpa using hj, p, hp, hpending, hkey⟩ hfree

theorem written_unlocked (h : Inv s steps) (horderly : Orderly s step) {w : Record}
    (hw : written s step = some w)
    (hunlocked : Unlocked w.accountId w.resourceId steps) :
    step.locks w.accountId w.resourceId ∨ w.lockStatus = .unlocked := by
  cases step with
  | lock a r revision now =>
    simp only [written] at hw
    split at hw
    · cases revision with
      | unknown => cases hw
      | outdated =>
        cases hw
        exact Or.inl ⟨rfl, rfl⟩
      | current date =>
        cases hw
        exact Or.inl ⟨rfl, rfl⟩
    · cases hw
  | unlock a r now =>
    cases hw
    exact Or.inr rfl
  | start => cases hw
  | read i => cases hw
  | take i captured =>
    obtain ⟨rest, first, ps, hfirst, hsame, -, -⟩ := written_take hw
    obtain ⟨q, hq, hpending⟩ := h.held _ (List.mem_of_getElem? hfirst) first
      (List.mem_cons_self ..) (horderly rest first ps hfirst (by rw [hw]; rfl)).1
    obtain ⟨-, q', hq', hfree⟩ := h.unlocked _ _ hunlocked
    have hkey : s.record w.key = some q := hsame ▸ hq
    rw [show (w.accountId, w.resourceId) = w.key from rfl, hkey] at hq'
    cases hq'
    rw [hpending] at hfree
    cases hfree

/-- **An orderly step keeps the invariant.** -/
theorem inv_apply (h : Inv s steps) (horderly : Orderly s step) :
    Inv (apply accounts s step) (steps ++ [step]) := by
  have hget := get_apply accounts s step
  refine ⟨?_, ?_, ?_, ?_, ?_⟩
  · intro k p hp
    rw [hget] at hp
    cases hw : written s step with
    | none =>
      rw [hw] at hp
      exact h.keys k p hp
    | some w =>
      rw [hw] at hp
      simp only at hp
      split at hp
      · rename_i hk
        cases hp
        exact hk.symm
      · exact h.keys k p hp
  · unfold apply
    cases written s step with
    | none => exact h.nodup
    | some w => exact Items.keys_nodup_set h.nodup
  · intro process hprocess
    rw [apply_processes] at hprocess
    rcases mem_advance hprocess with hold | hnil | ⟨i, a, rest, -, -, hread⟩ |
      ⟨i, captured, rest, p, ps, -, hfirst, hps⟩
    · exact h.distinct process hold
    · rw [hnil]
      exact List.nodup_nil
    · rw [hread]
      exact (iterPending_spec h a).1
    · have hdistinct := h.distinct _ (List.mem_of_getElem? hfirst)
      rw [hps]
      exact (List.nodup_cons.mp hdistinct).2
  · intro process hprocess p hp hpending
    rw [apply_processes] at hprocess
    have hold : ∃ q, s.record p.key = some q ∧ q.lockStatus = .pending := by
      rcases mem_advance hprocess with hold | hnil | ⟨i, a, rest, rfl, hfirst, hread⟩ |
        ⟨i, captured, rest, first, ps, -, hfirst, hps⟩
      · exact h.held process hold p hp hpending
      · rw [hnil] at hp
        cases hp
      · rw [hread] at hp
        obtain ⟨q, hq, hstatus⟩ := (iterPending_spec h a).2 p hp
        exact ⟨q, hq, hstatus.trans hpending⟩
      · rw [hps] at hp
        exact h.held _ (List.mem_of_getElem? hfirst) p (List.mem_cons_of_mem _ hp) hpending
    rw [hget]
    cases hw : written s step with
    | none => exact hold
    | some w =>
      simp only
      split
      · rename_i hkey
        exact ⟨w, rfl, written_held h horderly hw hprocess hp hpending hkey⟩
      · exact hold
  · intro a r hunlocked
    rw [hget]
    rcases unlocked_concat.mp hunlocked with ⟨now, rfl⟩ | ⟨hlocks, hunlocked⟩
    · exact ⟨horderly.1, _, if_pos rfl, rfl⟩
    · obtain ⟨hsupported, q, hq, hfree⟩ := h.unlocked a r hunlocked
      refine ⟨hsupported, ?_⟩
      cases hw : written s step with
      | none => exact ⟨q, hq, hfree⟩
      | some w =>
        simp only
        split
        · rename_i hkey
          cases hkey
          rcases written_unlocked h horderly hw hunlocked with hlock | hfree
          · exact absurd hlock hlocks
          · exact ⟨w, rfl, hfree⟩
        · exact ⟨q, hq, hfree⟩

/-! ## The result -/

theorem inv_exec (h : OrderlyRun accounts steps) : Inv (exec accounts steps) steps := by
  induction steps using List.reverseRecOn with
  | nil => exact inv_init
  | append_singleton steps step ih =>
    rw [exec_concat]
    have hsteps : OrderlyRun accounts steps := fun pre step' hpre =>
      h pre step' (hpre.trans (List.prefix_append _ _))
    exact inv_apply (ih hsteps) (h steps step List.prefix_rfl)

theorem info_of_record {a r : Text} {q : Record} (h : Inv s steps)
    (hrecord : s.record (a, r) = some q) (hsupported : supported r = true) (parentId : Text) :
    ∃ i, s.info a r parentId = some i ∧ i.lockStatus = q.lockStatus := by
  have hr : q.resourceId = r := congrArg Prod.snd (h.keys _ _ hrecord)
  unfold State.info
  simp only [hrecord, hr]
  by_cases hvpc : Text.startsWith r "vpc-".toList = true
  · rw [if_pos hvpc]
    exact ⟨_, rfl, rfl⟩
  · rw [if_neg hvpc, if_pos ((Bool.or_eq_true_iff.mp hsupported).resolve_left hvpc)]
    exact ⟨_, rfl, rfl⟩

/-- **In a run of orderly steps an unlocked resource stays unlocked until it is locked again, and
passes over pending records change only these.** -/
theorem respects_of_orderly (accounts : List Text) (steps : List Step)
    (h : OrderlyRun accounts steps) : Respects accounts steps := by
  have hpres : ∀ pre, pre <+: steps → Inv (exec accounts pre) pre := fun pre hpre =>
    inv_exec fun pre' step hpre' => h pre' step (hpre'.trans hpre)
  refine ⟨?_, ?_, ?_⟩
  · intro pre hpre a r hunlocked parentId
    obtain ⟨hsupported, q, hq, hfree⟩ := (hpres pre hpre).unlocked a r hunlocked
    obtain ⟨i, hi, hstatus⟩ := info_of_record (hpres pre hpre) hq hsupported parentId
    exact ⟨i, hi, hstatus.trans hfree⟩
  · intro pre step hpre w hw hstatus hunlocked
    have hinv := hpres pre ((List.prefix_append _ _).trans hpre)
    exact (written_unlocked hinv (h pre step hpre) hw hunlocked).resolve_right hstatus
  · intro pre i captured hpre k hchanged
    have hinv := hpres pre ((List.prefix_append _ _).trans hpre)
    rw [exec_concat, get_apply] at hchanged
    cases hw : written (exec accounts pre) (.take i captured) with
    | none =>
      rw [hw] at hchanged
      exact absurd rfl hchanged
    | some w =>
      rw [hw] at hchanged
      simp only at hchanged
      split at hchanged
      · rename_i hkey
        obtain ⟨rest, first, ps, hfirst, hsame, -, -⟩ := written_take hw
        rw [hkey, hsame]
        exact hinv.held _ (List.mem_of_getElem? hfirst) first (List.mem_cons_self ..)
          (h pre _ hpre rest first ps hfirst (by rw [hw]; rfl)).1
      · exact absurd rfl hchanged

/-! ## A pending lock -/

theorem orderlyRun_concat (h : OrderlyRun accounts steps)
    (hstep : Orderly (exec accounts steps) step) : OrderlyRun accounts (steps ++ [step]) := by
  intro pre step' hpre
  rcases List.prefix_concat_iff.mp hpre with heq | hpre
  · have hlast := List.append_inj_right' heq rfl
    injection hlast with hlast
    rw [List.append_inj_left' heq rfl, hlast]
    exact hstep
  · exact h pre step' hpre

def sampleAccounts : List Text := ["644160558196".toList]

def sampleLock : Step := .lock "644160558196".toList "sg-3f1".toList .outdated 10

def sampleUnlock : Step := .unlock "644160558196".toList "sg-3f1".toList 20

/-- A lock is pending until a pass has found a newer revision, and is taken back after that. -/
theorem respects_of_orderly_sample :
    Respects sampleAccounts [sampleLock, .start, .read 0, .take 0 (some 15), sampleUnlock] := by
  apply respects_of_orderly
  have hnil : OrderlyRun sampleAccounts [] := fun pre step hpre => by simp at hpre
  have hlock : OrderlyRun sampleAccounts [sampleLock] := orderlyRun_concat hnil trivial
  have hstart : OrderlyRun sampleAccounts [sampleLock, .start] := orderlyRun_concat hlock trivial
  have hread : OrderlyRun sampleAccounts [sampleLock, .start, .read 0] :=
    orderlyRun_concat hstart trivial
  have htake : OrderlyRun sampleAccounts [sampleLock, .start, .read 0, .take 0 (some 15)] := by
    refine orderlyRun_concat hread ?_
    rintro rest p ps hfirst -
    cases hfirst
    refine ⟨rfl, ?_⟩
    rintro ⟨i, process, hprocess, hne, -⟩
    cases i with
    | zero => exact hne rfl
    | succ i => cases hprocess
  refine orderlyRun_concat htake ⟨by rfl, ?_⟩
  rintro ⟨i, process, hprocess, -, p, hp, -⟩
  cases i with
  | zero =>
    cases hprocess
    cases hp
  | succ i => cases hprocess

/-- A record that is unlocked when it is read, and one that is unlocked after that, are locked. -/
theorem sample_locked :
    ¬ Respects sampleAccounts [sampleLock, sampleUnlock, .start, .read 0, .take 0 (some 15)] ∧
      ¬ Respects sampleAccounts [sampleLock, .start, .read 0, sampleUnlock, .take 0 (some 15)] := by
  constructor
  · intro h
    obtain ⟨i, hi, hstatus⟩ := h.info _ List.prefix_rfl "644160558196".toList "sg-3f1".toList
      ⟨[sampleLock], 20, [.start, .read 0, .take 0 (some 15)], rfl, by simp [Step.locks]⟩ []
    cases hi
    cases hstatus
  · intro h
    obtain ⟨i, hi, hstatus⟩ := h.info _ List.prefix_rfl "644160558196".toList "sg-3f1".toList
      ⟨[sampleLock, .start, .read 0], 20, [.take 0 (some 15)], rfl, by simp [Step.locks]⟩ []
    cases hi
    cases hstatus

end Custodian.Sphere11

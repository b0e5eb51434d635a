import Custodian.Lib.Text
import Mathlib.Data.List.Perm.Subperm

/-!
# The queue of the mailer

`MailerSqsQueueIterator` and `MailerSqsQueueProcessor.run` of `sqs_queue_processor.py`: batches are
received into a buffer, and its messages are handled and deleted one by one.  In parallel mode a
handling is a call in a pool, which is given the message as its list of arguments.
-/

namespace Custodian.SqsQueue

open Py

/-! ## Messages -/

/-- A message attribute; one of binary type has no string value. -/
structure Attribute where
  stringValue : Option Text

/-- A message that the queue returns. -/
structure Message where
  messageId : Text
  receiptHandle : Text
  body : Text
  sentTimestamp : Text
  messageAttributes : Option (List (Text × Attribute))

/-- The keys of the dictionary that a message is. -/
def Message.keys (m : Message) : List Text :=
  ["MessageId".toList, "ReceiptHandle".toList, "Body".toList, "Attributes".toList] ++
    if m.messageAttributes.isSome then ["MessageAttributes".toList] else []

/-- `sqs_message.get("MessageAttributes", {}).get("mtype")`, and its string value. -/
def Message.msgKind (m : Message) : Except Exn (Option Text) :=
  match (m.messageAttributes.getD []).lookup "mtype".toList with
  | none => .ok none
  | some a => match a.stringValue with
    | some kind => .ok (some kind)
    | none => .error .keyError

/-- A message of a batch, with whether `process_sqs_message` returns on it. -/
structure Receipt where
  message : Message
  ok : Bool

/-- What a function of one argument can be called with. -/
inductive Arg where
  | message (m : Message)
  | text (s : Text)

/-- A call of `process_sqs_message`, which is performed with one argument only; with others the
call raises before its body. -/
def call (args : List Arg) (ok : Bool) : List (Arg × Bool) :=
  match args with
  | [arg] => [(arg, ok)]
  | _ => []

/-! ## Runs -/

inductive Failure where
  | keyError
  | handling
  deriving DecidableEq

inductive Status where
  | running
  | returned
  | raised (e : Failure)
  deriving DecidableEq

/-- The batches that the queue returns, one for each time it is asked. -/
abbrev Queue := Nat → List Receipt

/-- The state of a run: how often the queue was asked, the buffer, and what was received, handled
and deleted so far. -/
structure State where
  polls : Nat
  messages : List Receipt
  received : List Receipt
  handled : List (Arg × Bool)
  deleted : List Message
  status : Status

def State.init : State := ⟨0, [], [], [], [], .running⟩

/-- The body of the loop of `run`. -/
def process (parallel : Bool) (r : Receipt) (s : State) : State :=
  match r.message.msgKind with
  | .error _ => { s with status := .raised .keyError }
  | .ok _ =>
    if parallel then
      { s with
        handled := s.handled ++ call (r.message.keys.map .text) r.ok
        deleted := s.deleted ++ [r.message] }
    else
      let handled := s.handled ++ call [.message r.message] r.ok
      if r.ok then { s with handled := handled, deleted := s.deleted ++ [r.message] }
      else { s with handled := handled, status := .raised .handling }

/-- A message is taken from the buffer, or a batch from the queue. -/
def step (parallel : Bool) (queue : Queue) (s : State) : State :=
  match s.status with
  | .running =>
    match s.messages with
    | r :: rest => process parallel r { s with messages := rest }
    | [] =>
      match queue s.polls with
      | [] => { s with polls := s.polls + 1, status := .returned }
      | r :: rest =>
        { s with
          polls := s.polls + 1
          messages := r :: rest
          received := s.received ++ r :: rest }
  | _ => s

def run (parallel : Bool) (queue : Queue) : Nat → State
  | 0 => .init
  | n + 1 => step parallel queue (run parallel queue n)

/-- The arguments that messages are to be handled with. -/
def arguments (rs : List Receipt) : List Arg := rs.map fun r => .message r.message

/-- Every message received is handled once with itself as the argument, one is deleted only if it
was handled without raising, and the queue is asked until it has no more, unless a handling
raises. -/
structure Acknowledges (parallel : Bool) (queue : Queue) : Prop where
  atMostOnce : ∀ n, ((run parallel queue n).handled.map Prod.fst).Subperm
    (arguments (run parallel queue n).received)
  handled : ∀ n, ∃ n', (arguments (run parallel queue n).received).Subperm
    ((run parallel queue n').handled.map Prod.fst)
  deleted : ∀ n, ((run parallel queue n).deleted.map Arg.message).Subperm
    (((run parallel queue n).handled.filter Prod.snd).map Prod.fst)
  drained : ∀ n, (run parallel queue n).status = .returned →
    ∃ polls, (run parallel queue n).polls = polls + 1 ∧ queue polls = []
  raised : ∀ n e, (run parallel queue n).status = .raised e →
    ∃ arg, (arg, false) ∈ (run parallel queue n).handled

/-! ## The condition -/

/-- The message has no `mtype`, or one with a string value. -/
def Receipt.Readable (r : Receipt) : Prop := ∃ kind, r.message.msgKind = .ok kind

/-- A batch whose messages are read and handled. -/
def Good (batch : List Receipt) : Prop := ∀ r ∈ batch, r.Readable ∧ r.ok = true

/-- A batch whose messages are read, where at most the handling of the last one raises. -/
def Clean (batch : List Receipt) : Prop :=
  (∀ r ∈ batch, r.Readable) ∧ ∀ r ∈ batch.dropLast, r.ok = true

/-- The batches up to an empty one or one with a failure are clean. -/
def CleanRun (queue : Queue) : Prop :=
  ∀ i, (∀ j < i, queue j ≠ [] ∧ Good (queue j)) → Clean (queue i)

variable {queue : Queue}

/-! ## Steps -/

theorem step_message {parallel : Bool} {s : State} {r : Receipt} {rest : List Receipt}
    (hstatus : s.status = .running) (hmessages : s.messages = r :: rest) :
    step parallel queue s = process parallel r { s with messages := rest } := by
  simp only [step, hstatus, hmessages]

theorem step_receive {parallel : Bool} {s : State} (hstatus : s.status = .running)
    (hmessages : s.messages = []) (hbatch : queue s.polls ≠ []) :
    step parallel queue s =
      { s with
        polls := s.polls + 1
        messages := queue s.polls
        received := s.received ++ queue s.polls } := by
  cases hqueue : queue s.polls with
  | nil => exact absurd hqueue hbatch
  | cons r rest => simp only [step, hstatus, hmessages, hqueue]

theorem step_return {parallel : Bool} {s : State} (hstatus : s.status = .running)
    (hmessages : s.messages = []) (hbatch : queue s.polls = []) :
    step parallel queue s = { s with polls := s.polls + 1, status := .returned } := by
  simp only [step, hstatus, hmessages, hbatch]

theorem step_stopped {parallel : Bool} {s : State} (hstatus : s.status ≠ .running) :
    step parallel queue s = s := by
  unfold step
  split
  · rename_i hrunning
    exact absurd hrunning hstatus
  · rfl

theorem process_good {r : Receipt} (hread : r.Readable) (hok : r.ok = true) (s : State) :
    process false r s =
      { s with
        handled := s.handled ++ [(.message r.message, true)]
        deleted := s.deleted ++ [r.message] } := by
  obtain ⟨kind, hkind⟩ := hread
  simp only [process, hkind, hok, call, if_true, Bool.false_eq_true, if_false]

theorem process_raises {r : Receipt} (hread : r.Readable) (hok : r.ok = false) (s : State) :
    process false r s =
      { s with
        handled := s.handled ++ [(.message r.message, false)]
        status := .raised .handling } := by
  obtain ⟨kind, hkind⟩ := hread
  simp only [process, hkind, hok, call, Bool.false_eq_true, if_false]

theorem process_unreadable {parallel : Bool} {r : Receipt} (hread : ¬ r.Readable) (s : State) :
    process parallel r s = { s with status := .raised .keyError } := by
  unfold process
  split
  · rfl
  · rename_i kind hkind
    exact absurd ⟨kind, hkind⟩ hread

/-! ## Clean runs -/

/-- Where a run stands: between two batches, in a clean one, at the end of the queue, or after a
handling that has raised. -/
inductive Stands (queue : Queue) (s : State) (done : List Receipt) : Prop where
  | start (status : s.status = .running) (polls : s.polls = 0) (messages : s.messages = [])
      (good : Good done)
  | batch (i : Nat) (current : List Receipt) (status : s.status = .running)
      (polls : s.polls = i + 1) (before : ∀ j < i, queue j ≠ [] ∧ Good (queue j))
      (messages : queue i = current ++ s.messages) (nonempty : queue i ≠ []) (good : Good done)
      (current_good : Good current)
  | returned (polls : Nat) (status : s.status = .returned) (messages : s.messages = [])
      (asked : s.polls = polls + 1) (drained : queue polls = [])
  | raised (arg : Arg) (status : s.status = .raised .handling) (messages : s.messages = [])
      (failed : (arg, false) ∈ s.handled)

/-- What was received is done or in the buffer; what is done was handled, and deleted unless its
handling has raised. -/
structure Settled (queue : Queue) (s : State) (done : List Receipt) : Prop where
  received : s.received = done ++ s.messages
  handled : s.handled = done.map fun r => (.message r.message, r.ok)
  deleted : s.deleted = (done.filter Receipt.ok).map Receipt.message
  stands : Stands queue s done

theorem Good.append {rs rs' : List Receipt} (h : Good rs) (h' : Good rs') : Good (rs ++ rs') :=
  fun r hr => (List.mem_append.mp hr).elim (h r) (h' r)

theorem settled_message {s : State} {done : List Receipt} {r : Receipt} {rest : List Receipt}
    (hclean : CleanRun queue) (h : Settled queue s done) (hmessages : s.messages = r :: rest) :
    Settled queue (step false queue s) (done ++ [r]) ∧
      (step false queue s).messages = rest ∧ (step false queue s).received = s.received := by
  obtain ⟨hreceived, hhandled, hdeleted, hstands⟩ := h
  cases hstands with
  | start _ _ hnil _ =>
    rw [hnil] at hmessages
    cases hmessages
  | returned _ _ hnil _ _ =>
    rw [hnil] at hmessages
    cases hmessages
  | raised _ _ hnil _ =>
    rw [hnil] at hmessages
    cases hmessages
  | batch i current hstatus hpolls hbefore hbatch hne hgood hcurrent =>
    rw [hmessages] at hreceived hbatch
    obtain ⟨hread, hok⟩ := hclean i hbefore
    rw [hbatch] at hread hok
    have hr : r.Readable := hread r (by simp)
    rw [step_message hstatus hmessages]
    cases hrok : r.ok with
    | true =>
      have hrgood : Good [r] := fun r' hr' => List.mem_singleton.mp hr' ▸ ⟨hr, hrok⟩
      rw [process_good hr hrok]
      refine ⟨⟨?_, ?_, ?_, ?_⟩, rfl, rfl⟩
      · simp [hreceived]
      · simp [hhandled, hrok]
      · simp [hdeleted, hrok, List.filter_append]
      · refine .batch i (current ++ [r]) hstatus hpolls hbefore ?_ hne (hgood.append hrgood)
          (hcurrent.append hrgood)
        simp [hbatch]
    | false =>
      -- the handling of the last message of the batch raises
      have hrest : rest = [] := by
        rcases List.eq_nil_or_concat' rest with hnil | ⟨rest', last, rfl⟩
        · exact hnil
        · have hmem : r ∈ (current ++ r :: (rest' ++ [last])).dropLast := by
            rw [← List.cons_append, ← List.append_assoc, List.dropLast_concat]
            simp
          rw [hok r hmem] at hrok
          cases hrok
      rw [process_raises hr hrok]
      refine ⟨⟨?_, ?_, ?_, ?_⟩, rfl, rfl⟩
      · simp [hreceived]
      · simp [hhandled, hrok]
      · simp [hdeleted, hrok, List.filter_append]
      · exact .raised (.message r.message) rfl hrest (by simp)

theorem settled_ask {s : State} {done : List Receipt} (h : Settled queue s done)
    (hmessages : s.messages = []) : Settled queue (step false queue s) done := by
  have hask : s.status = .running → (∀ j < s.polls, queue j ≠ [] ∧ Good (queue j)) → Good done →
      Settled queue (step false queue s) done := by
    intro hstatus hbefore hgood
    by_cases hbatch : queue s.polls = []
    · rw [step_return hstatus hmessages hbatch]
      exact ⟨h.received, h.handled, h.deleted, .returned s.polls rfl hmessages rfl hbatch⟩
    · rw [step_receive hstatus hmessages hbatch]
      refine ⟨?_, h.handled, h.deleted, ?_⟩
      · rw [h.received, hmessages, List.append_nil]
      · exact .batch s.polls [] hstatus rfl hbefore (List.nil_append _).symm hbatch hgood
          fun r hr => absurd hr List.not_mem_nil
  cases h.stands with
  | start hstatus hpolls _ hgood =>
    exact hask hstatus (fun j hj => absurd hj (by omega)) hgood
  | batch i current hstatus hpolls hbefore hbatch hne hgood hcurrent =>
    rw [hmessages, List.append_nil] at hbatch
    refine hask hstatus (fun j hj => ?_) hgood
    rcases Nat.lt_or_eq_of_le (Nat.le_of_lt_succ (hpolls ▸ hj)) with hj | rfl
    · exact hbefore j hj
    · exact ⟨hne, hbatch ▸ hcurrent⟩
  | returned _ hstatus _ _ _ =>
    rw [step_stopped (by rw [hstatus]; decide)]
    exact h
  | raised _ hstatus _ _ =>
    rw [step_stopped (by rw [hstatus]; decide)]
    exact h

/-- **Every state of a clean run is settled.** -/
theorem run_settled (hclean : CleanRun queue) (n : Nat) :
    ∃ done, Settled queue (run false queue n) done := by
  induction n with
  | zero => exact ⟨[], rfl, rfl, rfl, .start rfl rfl rfl fun r hr => absurd hr List.not_mem_nil⟩
  | succ n ih =>
    obtain ⟨done, h⟩ := ih
    cases hmessages : (run false queue n).messages with
    | nil => exact ⟨done, settled_ask h hmessages⟩
    | cons r rest => exact ⟨_, (settled_message hclean h hmessages).1⟩

theorem run_consumes (hclean : CleanRun queue) (n : Nat) :
    ∃ n', (run false queue n').messages = [] ∧
      (run false queue n').received = (run false queue n).received := by
  induction hlength : (run false queue n).messages.length generalizing n with
  | zero => exact ⟨n, List.length_eq_zero_iff.mp hlength, rfl⟩
  | succ length ih =>
    obtain ⟨done, h⟩ := run_settled hclean n
    obtain ⟨r, rest, hmessages⟩ := List.exists_cons_of_length_eq_add_one hlength
    obtain ⟨-, hrest, hreceived⟩ := settled_message hclean h hmessages
    rw [hmessages, List.length_cons] at hlength
    obtain ⟨n', hn', hsame⟩ := ih (n + 1) (by rw [run, hrest]; omega)
    exact ⟨n', hn', hsame.trans hreceived⟩

theorem acknowledges_of_clean (hclean : CleanRun queue) : Acknowledges false queue where
  atMostOnce n := by
    obtain ⟨done, h⟩ := run_settled hclean n
    rw [h.handled, h.received, arguments, List.map_append, List.map_map]
    exact (List.sublist_append_left _ _).subperm
  handled n := by
    obtain ⟨n', hmessages, hreceived⟩ := run_consumes hclean n
    obtain ⟨done, h⟩ := run_settled hclean n'
    refine ⟨n', ?_⟩
    rw [← hreceived, h.handled, h.received, hmessages, List.append_nil, List.map_map]
    exact List.Subperm.refl _
  deleted n := by
    obtain ⟨done, h⟩ := run_settled hclean n
    rw [h.deleted, h.handled, List.filter_map, List.map_map, List.map_map]
    exact List.Subperm.refl _
  drained n hstatus := by
    obtain ⟨done, h⟩ := run_settled hclean n
    cases h.stands with
    | start hrunning =>
      rw [hrunning] at hstatus
      cases hstatus
    | batch _ _ hrunning =>
      rw [hrunning] at hstatus
      cases hstatus
    | returned polls _ _ hpolls hempty => exact ⟨polls, hpolls, hempty⟩
    | raised _ hraised =>
      rw [hraised] at hstatus
      cases hstatus
  raised n e hstatus := by
    obtain ⟨done, h⟩ := run_settled hclean n
    cases h.stands with
    | start hrunning =>
      rw [hrunning] at hstatus
      cases hstatus
    | batch _ _ hrunning =>
      rw [hrunning] at hstatus
      cases hstatus
    | returned _ hreturned =>
      rw [hreturned] at hstatus
      cases hstatus
    | raised arg _ _ hfailed => exact ⟨arg, hfailed⟩

/-! ## Failures -/

/-- A state in which everything that was taken was handled and deleted. -/
def after (polls : Nat) (done rest : List Receipt) : State :=
  ⟨polls, rest, done ++ rest, done.map fun r => (.message r.message, true),
    done.map Receipt.message, .running⟩

theorem run_good {n polls : Nat} {done good rest : List Receipt} (hgood : Good good)
    (hrun : run false queue n = after polls done (good ++ rest)) :
    ∃ n', run false queue n' = after polls (done ++ good) rest := by
  induction good generalizing n done with
  | nil => exact ⟨n, by rw [hrun, List.append_nil, List.nil_append]⟩
  | cons r good ih =>
    obtain ⟨hr, hrest⟩ := List.forall_mem_cons.mp hgood
    have hstep : run false queue (n + 1) = after polls (done ++ [r]) (good ++ rest) := by
      rw [run, hrun, step_message rfl rfl, process_good hr.1 hr.2]
      simp [after]
    obtain ⟨n', hn'⟩ := ih hrest hstep
    exact ⟨n', by rw [hn', List.append_assoc, List.singleton_append]⟩

theorem run_batches {i : Nat} (h : ∀ j < i, queue j ≠ [] ∧ Good (queue j)) :
    ∃ n done, run false queue n = after i done [] := by
  induction i with
  | zero => exact ⟨0, [], rfl⟩
  | succ i ih =>
    obtain ⟨n, done, hrun⟩ := ih fun j hj => h j (Nat.lt_succ_of_lt hj)
    obtain ⟨hne, hgood⟩ := h i (Nat.lt_succ_self i)
    have hstep : run false queue (n + 1) = after (i + 1) done (queue i ++ []) := by
      rw [run, hrun, step_receive rfl rfl hne]
      simp [after]
    obtain ⟨n', hn'⟩ := run_good hgood hstep
    exact ⟨n', _, hn'⟩

theorem run_stopped {parallel : Bool} {n : Nat}
    (h : (run parallel queue n).status ≠ .running) (k : Nat) :
    run parallel queue (n + k) = run parallel queue n := by
  induction k with
  | zero => rfl
  | succ k ih =>
    rw [← Nat.add_assoc, run, ih]
    exact step_stopped h

theorem handled_le_process (parallel : Bool) (r : Receipt) (s : State) :
    s.handled.length ≤ (process parallel r s).handled.length := by
  unfold process
  split
  · exact Nat.le_refl _
  · split
    · simp
    · simp only
      split <;> simp

theorem handled_le_step (parallel : Bool) (s : State) :
    s.handled.length ≤ (step parallel queue s).handled.length := by
  unfold step
  split
  · split
    · rename_i r rest hmessages
      exact handled_le_process parallel r { s with messages := rest }
    · split <;> exact Nat.le_refl _
  · exact Nat.le_refl _

theorem handled_mono (parallel : Bool) (n k : Nat) :
    (run parallel queue n).handled.length ≤ (run parallel queue (n + k)).handled.length := by
  induction k with
  | zero => exact Nat.le_refl _
  | succ k ih => exact Nat.le_trans ih (handled_le_step parallel _)

theorem received_le_of_stopped {parallel : Bool} (h : Acknowledges parallel queue) {n : Nat}
    (hstopped : (run parallel queue n).status ≠ .running) :
    (run parallel queue n).received.length ≤ (run parallel queue n).handled.length := by
  obtain ⟨n', hn'⟩ := h.handled n
  have hle := hn'.length_le
  have hmono : (run parallel queue n').handled.length ≤ (run parallel queue (n' + n)).handled.length :=
    handled_mono parallel n' n
  rw [Nat.add_comm, run_stopped hstopped] at hmono
  rw [arguments, List.length_map, List.length_map] at hle
  omega

theorem exists_first_bad {batch : List Receipt} (h : ¬ Good batch) :
    ∃ good r rest, batch = good ++ r :: rest ∧ Good good ∧ ¬ (r.Readable ∧ r.ok = true) := by
  induction batch with
  | nil => exact absurd (fun r hr => absurd hr List.not_mem_nil) h
  | cons r batch ih =>
    by_cases hr : r.Readable ∧ r.ok = true
    · obtain ⟨good, bad, rest, rfl, hgood, hbad⟩ :=
        ih fun hall => h (List.forall_mem_cons.mpr ⟨hr, hall⟩)
      exact ⟨r :: good, bad, rest, rfl, List.forall_mem_cons.mpr ⟨hr, hgood⟩, hbad⟩
    · exact ⟨[], r, batch, rfl, fun r hr => absurd hr List.not_mem_nil, hr⟩

theorem Good.clean {batch : List Receipt} (h : Good batch) : Clean batch :=
  ⟨fun r hr => (h r hr).1, fun r hr => (h r (List.dropLast_subset _ hr)).2⟩

theorem clean_of_acknowledges (h : Acknowledges false queue) : CleanRun queue := by
  intro i hbefore
  by_cases hgood : Good (queue i)
  · exact hgood.clean
  obtain ⟨good, r, rest, hbatch, hgood, hbad⟩ := exists_first_bad hgood
  obtain ⟨n, done, hrun⟩ := run_batches hbefore
  have hreceive : run false queue (n + 1) = after (i + 1) done (good ++ r :: rest) := by
    rw [run, hrun, step_receive rfl rfl (by simp [after, hbatch])]
    simp [after, hbatch]
  obtain ⟨n', hn'⟩ := run_good hgood hreceive
  by_cases hread : r.Readable
  · have hok : r.ok = false := by simpa [hread] using hbad
    have hstop : run false queue (n' + 1) =
        { after (i + 1) (done ++ good) (r :: rest) with
          messages := rest
          handled := (done ++ good).map (fun r => (.message r.message, true)) ++
            [(.message r.message, false)]
          status := .raised .handling } := by
      rw [run, hn', step_message rfl rfl, process_raises hread hok]
      rfl
    -- what is left in the buffer is never handled
    have hle := received_le_of_stopped h (n := n' + 1) (by rw [hstop]; simp)
    rw [hstop] at hle
    simp only [after, List.length_append, List.length_map, List.length_cons,
      List.length_nil] at hle
    have hrest : rest = [] := List.length_eq_zero_iff.mp (by omega)
    rw [hbatch, hrest]
    refine ⟨fun r' hr' => ?_, fun r' hr' => ?_⟩
    · rcases List.mem_append.mp hr' with hr' | hr'
      · exact (hgood r' hr').1
      · exact List.mem_singleton.mp hr' ▸ hread
    · rw [List.dropLast_concat] at hr'
      exact (hgood r' hr').2
  · have hstop : (run false queue (n' + 1)).status = .raised .keyError ∧
        (run false queue (n' + 1)).handled = (done ++ good).map fun r => (.message r.message, true) := by
      rw [run, hn', step_message rfl rfl, process_unreadable hread]
      exact ⟨rfl, rfl⟩
    obtain ⟨arg, harg⟩ := h.raised _ _ hstop.1
    rw [hstop.2] at harg
    simp at harg

/-! ## Parallel mode -/

theorem run_empty (parallel : Bool) (h : queue 0 = []) (n : Nat) :
    run parallel queue (n + 1) = ⟨1, [], [], [], [], .returned⟩ := by
  induction n with
  | zero => exact step_return rfl rfl h
  | succ n ih =>
    rw [run, ih]
    exact step_stopped (by decide)

theorem cleanRun_of_empty (h : queue 0 = []) : CleanRun queue := by
  intro i hi
  cases i with
  | zero => simp [h, Clean]
  | succ i => exact absurd h (hi 0 (Nat.succ_pos i)).1

theorem acknowledges_of_empty (parallel : Bool) (h : queue 0 = []) :
    Acknowledges parallel queue := by
  have hsame : run parallel queue = run false queue := by
    funext n
    cases n with
    | zero => rfl
    | succ n => rw [run_empty parallel h, run_empty false h]
  obtain ⟨h₁, h₂, h₃, h₄, h₅⟩ := acknowledges_of_clean (cleanRun_of_empty h)
  rw [← hsame] at h₁ h₂ h₃ h₄ h₅
  exact ⟨h₁, h₂, h₃, h₄, h₅⟩

theorem call_keys (m : Message) (ok : Bool) : call (m.keys.map .text) ok = [] := by
  rw [Message.keys]
  split <;> rfl

theorem empty_of_acknowledges (h : Acknowledges true queue) : queue 0 = [] := by
  by_contra hne
  obtain ⟨r, rest, hbatch⟩ := List.exists_cons_of_ne_nil hne
  have hreceive : run true queue 1 =
      { State.init with polls := 1, messages := r :: rest, received := r :: rest } := by
    rw [← hbatch]
    exact step_receive rfl rfl hne
  have hprocess : run true queue 2 = process true r
      { State.init with polls := 1, messages := rest, received := r :: rest } := by
    rw [run, hreceive]
    exact step_message rfl rfl
  by_cases hread : r.Readable
  · obtain ⟨kind, hkind⟩ := hread
    have hdeleted := (h.deleted 2).length_le
    rw [hprocess] at hdeleted
    simp [process, hkind, call_keys, State.init] at hdeleted
  · rw [process_unreadable hread] at hprocess
    obtain ⟨arg, harg⟩ := h.raised 2 .keyError (by rw [hprocess])
    rw [hprocess] at harg
    cases harg

/-- **When a queue is acknowledged only after messages were handled.**  It must be empty or be
read one message after the other, without one that cannot be read, and a handling may raise only
on the last message of its batch. -/
theorem acknowledges_iff (parallel : Bool) (queue : Queue) :
    Acknowledges parallel queue ↔ queue 0 = [] ∨ (parallel = false ∧ CleanRun queue) := by
  constructor
  · intro h
    cases parallel with
    | true => exact Or.inl (empty_of_acknowledges h)
    | false => exact Or.inr ⟨rfl, clean_of_acknowledges h⟩
  · rintro (hempty | ⟨rfl, hclean⟩)
    · exact acknowledges_of_empty parallel hempty
    · exact acknowledges_of_clean hclean

/-! ## A message in parallel mode -/

/-- A queue with one message, whose handling would return. -/
def sampleQueue : Queue
  | 0 => [⟨⟨"19dd0b57".toList, "MbZj6wDW".toList, "eJyrVspPVrJS".toList, "1545116953".toList, none⟩,
      true⟩]
  | _ => []

/-- In parallel mode the message is deleted, and nothing is handled. -/
theorem sampleQueue_lost :
    ¬ Acknowledges true sampleQueue ∧ (run true sampleQueue 3).handled = [] ∧
      ((run true sampleQueue 3).deleted.map Message.messageId) = ["19dd0b57".toList] ∧
        (run true sampleQueue 3).status = .returned := by
  refine ⟨fun h => ?_, rfl, rfl, rfl⟩
  have hdeleted := (h.deleted 3).length_le
  exact absurd hdeleted (by decide)

end Custodian.SqsQueue

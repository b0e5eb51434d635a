import Custodian.Lib.Except
import Custodian.Lib.Items
import Custodian.Lib.Segments
import Custodian.Lib.Text

/-!
# Statistics of api calls

`APICallStats` of `c7n/output.py` counts api calls by name; `DeltaStats` keeps a stack of snapshots
of the counts, and popping one gives the difference to the current counts.
-/

namespace Custodian.ApiStats

open Py Segments

/-! ## The statistics -/

/-- A `Counter` of names. -/
abbrev Counter := List (Text × Nat)

abbrev Delta := List (Text × Int)

/-- The counts, and the snapshots of them from the last to the first. -/
structure APICallStats where
  snapshotStack : List Counter
  apiCalls : Counter

namespace APICallStats

/-- `__init__` -/
def init : APICallStats := ⟨[], []⟩

/-- `record` -/
def record (name : Text) (s : APICallStats) : APICallStats :=
  { s with apiCalls := Items.set name ((Items.get name s.apiCalls).getD 0 + 1) s.apiCalls }

/-- `get_snapshot` -/
def getSnapshot (s : APICallStats) : Counter := s.apiCalls

/-- `push_snapshot` -/
def pushSnapshot (s : APICallStats) : APICallStats :=
  { s with snapshotStack := s.getSnapshot :: s.snapshotStack }

/-- One name of `delta`. -/
def deltaOf (after : Counter) (delta : Delta) (e : Text × Nat) : Except Exn Delta :=
  match Items.get e.1 after with
  | none => .error .keyError
  | some n =>
    let val : Int := n - e.2
    .ok (if val ≠ 0 then Items.set e.1 val delta else delta)

/-- `DeltaStats.delta` -/
def delta (before after : Counter) : Except Exn Delta := before.foldlM (deltaOf after) []

/-- `pop_snapshot` -/
def popSnapshot (s : APICallStats) : Except Exn (Delta × APICallStats) :=
  match s.snapshotStack with
  | [] => .error (.raised "IndexError".toList)
  | before :: stack => do
    let s := { s with snapshotStack := stack }
    return (← delta before s.getSnapshot, s)

/-- What the pops of a run return. -/
def run : APICallStats → List (Op Text) → Except Exn (List Delta)
  | _, [] => .ok []
  | s, .push :: ops => run s.pushSnapshot ops
  | s, .record name :: ops => run (s.record name) ops
  | s, .pop :: ops => do
    let (d, s) ← s.popSnapshot
    return d :: (← run s ops)

end APICallStats

/-! ## Exact deltas -/

/-- The map from the names to how often they were called, without names that were not. -/
def Exact (d : Delta) (calls : List Text) : Prop :=
  ∀ name, Items.get name d = if calls.count name = 0 then none else some (calls.count name : Int)

/-- What a delta says of a name. -/
def value (d : Delta) (name : Text) : Int := (Items.get name d).getD 0

/-- Every pop returns what was called since its push, and outer segments are the sums of inner ones
and their own calls. -/
def Meets (ops : List (Op Text)) : Prop :=
  ∃ deltas, APICallStats.init.run ops = .ok deltas ∧
    List.Forall₂ (fun d segment => Exact d segment.2) deltas (closed [] [] ops) ∧
    Adds value [] ops deltas

/-! ## Counts -/

/-- The counts after these calls. -/
def counter (calls : List Text) : Counter := (calls.foldl (fun s name => s.record name)
  APICallStats.init).apiCalls

theorem counter_concat (calls : List Text) (name : Text) : counter (calls ++ [name]) =
    Items.set name ((Items.get name (counter calls)).getD 0 + 1) (counter calls) := by
  rw [counter, List.foldl_append]
  rfl

theorem get_counter (calls : List Text) (name : Text) : Items.get name (counter calls) =
    if calls.count name = 0 then none else some (calls.count name) := by
  induction calls using List.reverseRecOn with
  | nil => simp [counter, APICallStats.init, Items.get]
  | append_singleton calls name' ih =>
    rw [counter_concat, Items.get_set, List.count_append, List.count_singleton]
    by_cases hname : name = name'
    · subst hname
      rw [ih]
      by_cases hzero : calls.count name = 0 <;> simp [hzero]
    · simp [hname, Ne.symm hname, ih]

theorem nodup_counter (calls : List Text) : ((counter calls).map Prod.fst).Nodup := by
  induction calls using List.reverseRecOn with
  | nil => exact List.nodup_nil
  | append_singleton calls name ih =>
    rw [counter_concat]
    exact Items.keys_nodup_set ih

theorem mem_counter {calls : List Text} {e : Text × Nat} (h : e ∈ counter calls) :
    e.2 = calls.count e.1 ∧ e.1 ∈ calls := by
  have hget : Items.get e.1 (counter calls) = some e.2 :=
    (Items.mem_iff_lookup (nodup_counter calls)).mp h
  rw [get_counter] at hget
  split at hget
  · cases hget
  · rename_i hcount
    exact ⟨(Option.some.inj hget).symm, List.count_pos_iff.mp (Nat.pos_of_ne_zero hcount)⟩

/-! ## Differences -/

theorem get_foldl_set (val : Text × Nat → Int) {l : List (Text × Nat)}
    (hn : (l.map Prod.fst).Nodup) (d : Delta) (name : Text) :
    Items.get name (l.foldl (fun d e => if val e ≠ 0 then Items.set e.1 (val e) d else d) d) =
      match Items.get name l with
      | some n => if val (name, n) ≠ 0 then some (val (name, n)) else Items.get name d
      | none => Items.get name d := by
  induction l generalizing d with
  | nil => rfl
  | cons e l ih =>
    rw [List.map_cons, List.nodup_cons] at hn
    rw [List.foldl_cons, ih hn.2]
    by_cases hname : name = e.1
    · subst hname
      have hnone : Items.get e.1 l = none := Items.lookup_eq_none.mpr hn.1
      have hsome : Items.get e.1 (e :: l) = some e.2 := by
        rw [Items.get, Items.lookup_cons, if_pos rfl]
      rw [hnone, hsome]
      by_cases hval : val e = 0 <;> simp [hval, Items.get_set]
    · have hother : Items.get name (e :: l) = Items.get name l := by
        rw [Items.get, Items.lookup_cons, if_neg hname, Items.get]
      have hset : Items.get name (if val e ≠ 0 then Items.set e.1 (val e) d else d) =
          Items.get name d := by
        split
        · rw [Items.get_set, if_neg hname]
        · rfl
      rw [hother, hset]

/-- What a pop returns: the names that were counted at its push, and called since. -/
def Known (d : Delta) (segment : List Text × List Text) : Prop :=
  ∀ name, Items.get name d = if name ∈ segment.1 ∧ segment.2.count name ≠ 0 then
    some (segment.2.count name : Int) else none

/-- **Differences.**  Names that were not counted before are left out. -/
theorem delta_counter (before calls : List Text) :
    ∃ d, APICallStats.delta (counter before) (counter (before ++ calls)) = .ok d ∧
      Known d (before, calls) := by
  let val : Text × Nat → Int := fun e => ((before ++ calls).count e.1 : Int) - e.2
  have hstep : ∀ (es : List (Text × Nat)) (d : Delta), (∀ e ∈ es, e ∈ counter before) →
      es.foldlM (APICallStats.deltaOf (counter (before ++ calls))) d =
        .ok (es.foldl (fun d e => if val e ≠ 0 then Items.set e.1 (val e) d else d) d) := by
    intro es d hes
    induction es generalizing d with
    | nil => rfl
    | cons e es ih =>
      rw [List.forall_mem_cons] at hes
      have hcount : (before ++ calls).count e.1 ≠ 0 := by
        rw [List.count_append]
        have := List.count_pos_iff.mpr (mem_counter hes.1).2
        omega
      rw [List.foldlM_cons, List.foldl_cons, APICallStats.deltaOf, get_counter, if_neg hcount]
      exact ih _ hes.2
  refine ⟨_, hstep _ [] fun _ he => he, fun name => ?_⟩
  rw [get_foldl_set val (nodup_counter before), get_counter]
  have hval : val (name, before.count name) = calls.count name := by
    simp [val, List.count_append]
  by_cases hmem : name ∈ before
  · have hcount : before.count name ≠ 0 := (List.count_pos_iff.mpr hmem).ne'
    rw [if_neg hcount]
    simp only [hval]
    by_cases hzero : calls.count name = 0 <;> simp [hmem, hzero, Items.get]
  · rw [if_pos (List.count_eq_zero.mpr hmem), if_neg fun h => hmem h.1]
    rfl

/-! ## Runs -/

/-- The statistics after these calls, with pushes at the marks. -/
def after (history : List Text) (marks : List Nat) : APICallStats :=
  ⟨marks.map fun mark => counter (history.take mark), counter history⟩

theorem after_push (history : List Text) (marks : List Nat) :
    (after history marks).pushSnapshot = after history (history.length :: marks) := by
  simp [after, APICallStats.pushSnapshot, APICallStats.getSnapshot]

theorem after_record {history : List Text} {marks : List Nat}
    (h : ∀ mark ∈ marks, mark ≤ history.length) (name : Text) :
    (after history marks).record name = after (history ++ [name]) marks := by
  have htake : marks.map (fun mark => counter ((history ++ [name]).take mark)) =
      marks.map fun mark => counter (history.take mark) :=
    List.map_congr_left fun mark hmark => by rw [List.take_append_of_le_length (h mark hmark)]
  rw [after, after, htake, counter_concat]
  rfl

/-- **Runs.**  Each pop returns what was called in its segment, of the names known before it. -/
theorem run_eq {ops : List (Op Text)} {history : List Text} {marks : List Nat}
    (hmarks : ∀ mark ∈ marks, mark ≤ history.length) (h : Balanced marks.length ops) :
    ∃ deltas, (after history marks).run ops = .ok deltas ∧
      List.Forall₂ Known deltas (closed history marks ops) := by
  induction ops generalizing history marks with
  | nil => exact ⟨[], rfl, .nil⟩
  | cons op ops ih =>
    cases op with
    | push =>
      rw [APICallStats.run, after_push]
      refine ih (fun mark hmark => ?_) h
      rcases List.mem_cons.mp hmark with rfl | hmark
      · exact Nat.le_refl _
      · exact hmarks mark hmark
    | record name =>
      rw [APICallStats.run, after_record hmarks]
      refine ih (fun mark hmark => ?_) h
      rw [List.length_append]
      exact Nat.le_add_right_of_le (hmarks mark hmark)
    | pop =>
      cases marks with
      | nil => exact h.elim
      | cons mark marks =>
        rw [List.forall_mem_cons] at hmarks
        obtain ⟨deltas, hrun, hdeltas⟩ := ih hmarks.2 h
        obtain ⟨d, hd, hknown⟩ := delta_counter (history.take mark) (history.drop mark)
        rw [List.take_append_drop] at hd
        have hpop : (after history (mark :: marks)).popSnapshot = .ok (d, after history marks) :=
          bind_eq_ok.mpr ⟨d, hd, rfl⟩
        rw [APICallStats.run, hpop, ok_bind]
        exact ⟨d :: deltas, bind_eq_ok.mpr ⟨deltas, hrun, rfl⟩, .cons hknown hdeltas⟩

theorem exact_iff_of_known {d : Delta} {segment : List Text × List Text} (h : Known d segment) :
    Exact d segment.2 ↔ ∀ name ∈ segment.2, name ∈ segment.1 := by
  constructor
  · intro hexact name hname
    by_contra hnew
    have hcount : segment.2.count name ≠ 0 := (List.count_pos_iff.mpr hname).ne'
    have hget := hexact name
    rw [h name, if_neg fun hknown => hnew hknown.1, if_neg hcount] at hget
    cases hget
  · intro hknown name
    rw [h name]
    by_cases hcount : segment.2.count name = 0
    · simp [hcount]
    · have hname := hknown name (List.count_pos_iff.mp (Nat.pos_of_ne_zero hcount))
      simp [hcount, hname]

theorem value_of_exact {d : Delta} {calls : List Text} (h : Exact d calls) (name : Text) :
    value d name = calls.count name := by
  rw [value, h name]
  split
  · rename_i hcount
    rw [hcount]
    rfl
  · rfl

/-- **Popped statistics.**  They are exact when each name that is called in a segment was called
before it too. -/
theorem exact_iff (ops : List (Op Text)) (h : Balanced 0 ops) :
    Meets ops ↔ ∀ segment ∈ closed [] [] ops, ∀ name ∈ segment.2, name ∈ segment.1 := by
  have hmarks : ∀ mark ∈ ([] : List Nat), mark ≤ ([] : List Text).length := by simp
  obtain ⟨deltas, hrun, hknown⟩ := run_eq hmarks h
  have hexact : List.Forall₂ (fun d segment => Exact d segment.2) deltas (closed [] [] ops) ↔
      ∀ segment ∈ closed [] [] ops, ∀ name ∈ segment.2, name ∈ segment.1 := by
    clear hrun
    generalize closed [] [] ops = segments at hknown
    induction hknown with
    | nil => simp
    | cons hd _ ih => rw [List.forall₂_cons, List.forall_mem_cons, exact_iff_of_known hd, ih]
  rw [← hexact]
  constructor
  · rintro ⟨deltas', hrun', hexact', -⟩
    obtain rfl : deltas = deltas' := Except.ok.inj (hrun.symm.trans hrun')
    exact hexact'
  · intro hall
    have hsums : Sums value [] [] [] fun _ => 0 := trivial
    exact ⟨deltas, hrun, hall,
      adds_of_exact hsums (hall.imp fun _ _ hd name => value_of_exact hd name)⟩

/-- A name that is called again in a segment is counted there. -/
theorem exact_again : Meets [.record "ec2.DescribeInstances".toList, .push,
    .record "ec2.DescribeInstances".toList, .pop] :=
  (exact_iff _ (by simp [Segments.Balanced])).mpr (by simp [closed])

/-- A name that is first called in a segment is left out there. -/
theorem first_call_not_meets : ¬ Meets [.push, .record "ec2.DescribeInstances".toList, .pop] := by
  rintro ⟨deltas, hrun, hexact, -⟩
  have hnone : APICallStats.init.run [.push, .record "ec2.DescribeInstances".toList, .pop] =
      .ok [[]] := by rfl
  obtain rfl : [[]] = deltas := Except.ok.inj (hnone.symm.trans hrun)
  have hcount := (List.forall₂_cons.mp hexact).1 "ec2.DescribeInstances".toList
  simp [Items.get] at hcount

end Custodian.ApiStats

import Custodian.Filters.ScheduleZone
import Custodian.Lib.StableSort
import Custodian.Lib.Strptime
import Custodian.Tags.MarkForOp

/-!
# Labels for a later action

`LabelDelayedAction` of `tools/c7n_gcp/c7n_gcp/actions/labels.py` writes a label that ends in an
operation and a date, without a time zone; `LabelActionFilter` of `filters/labels.py` finds the
operation as the longest action name in front of the date, and compares the date with the clock of
the machine that it runs on.
-/

namespace Custodian.MarkedLabels

open Py Py.Format Py.Clock
open ScheduleZone (Zones)

/-! ## Configurations -/

/-- The data of a `mark-for-op` action. -/
structure LabelDelayedAction where
  op : Option Text
  label : Option Text
  msg : Option Text
  days : Option ℚ
  hours : Option ℚ
  tz : Option Text
  days_nonneg : ∀ d ∈ days, 0 ≤ d
  hours_nonneg : ∀ h ∈ hours, 0 ≤ h

/-- The data of a `marked-for-op` filter. -/
structure LabelActionFilter where
  op : Option Text
  label : Option Text
  tz : Option Text
  skew : Option ℚ
  skewHours : Option ℚ

def defaultTag : Text := "custodian_status".toList

def defaultOp : Text := "stop".toList

def defaultTz : Text := "utc".toList

def defaultTemplate : Text := "resource_policy-{op}-{action_date}".toList

/-- The objects of the formatter, the time zones and the actions of the resource type. -/
structure Runtime (V : Type) where
  objects : Objects V
  zones : Zones Zone
  registry : List Text
  format_ofText : ∀ s, objects.format (objects.ofText s) [] = .ok s

variable {V : Type} (r : Runtime V)

def invalid : Exn := .raised "FilterValidationError".toList

/-! ## The action -/

/-- `tzutil.gettz(name)`: without a name it is the zone of the machine. -/
def gettz (here : Zone) : Option Text → Option Zone
  | some name => r.zones.gettz name
  | none => some here

namespace LabelDelayedAction

/-- `self.tz` -/
def zone (a : LabelDelayedAction) (here : Zone) : Option Zone :=
  gettz r here (r.zones.aliasOf (a.tz.getD defaultTz))

/-- `validate`, with the zone that is found. -/
def validate (a : LabelDelayedAction) (here : Zone) : Except Exn Zone :=
  match a.op with
  | none => .error invalid
  | some op => if op ∈ r.registry then (a.zone r here).elim (.error invalid) .ok else .error invalid

/-- `w.strftime('%Y_%m_%d__%H_%M')`, or with zeros in the place of the time. -/
def stamp (w : Int) (time : Bool) : Text :=
  let d := civil (w / day)
  let minutes := (w % day / minute).toNat
  ['_'].intercalate ([Nat.toDigits 10 d.1, twoDigits d.2.1, twoDigits d.2.2, []] ++
    if time then [twoDigits (minutes / 60), twoDigits (minutes % 60)] else [['0'], ['0']])

def generateTimestamp (z : Zone) (days hours : Option ℚ) (now : Int) : Except Exn Text :=
  let days := if days = none ∨ hours = none then some 4 else days
  match days, hours with
  | some d, some h => do
    let actionDate ← datetime (z.wall now + timedelta d h)
    return stamp actionDate (0 < h)
  | _, _ => .error .typeError

/-- The arguments of the message template. -/
def messageArgs (op date : Text) : Dict Text V :=
  Dict.ofPairs [("op".toList, r.objects.ofText op), ("action_date".toList, r.objects.ofText date)]

/-- `self.msg` -/
def message (a : LabelDelayedAction) (here : Zone) (now : Int) : Except Exn Text := do
  let z := (a.zone r here).getD here
  let date ← generateTimestamp z (some (a.days.getD 0)) (some (a.hours.getD 0)) now
  Format.format r.objects [] (messageArgs r (a.op.getD defaultOp) date)
    (a.msg.getD defaultTemplate)

/-- The labels that are set on a resource with these labels. -/
def mark (a : LabelDelayedAction) (here : Zone) (now : Int) (labels : List (Text × Text)) :
    Except Exn (List (Text × Text)) := do
  let msg ← a.message r here now
  return Items.overwrite labels [(a.label.getD defaultTag, msg)]

end LabelDelayedAction

/-! ## The filter -/

/-- `datetime.strptime(s, '%Y_%m_%d__%H_%M')` -/
def strptime (s : Text) : Option Int :=
  match s.splitOn '_' with
  | [y, m, d, [], h, n] => do
    reading (← Directive.year.read y) (← Directive.month.read m) (← Directive.dayOfMonth.read d)
      (← Directive.hour.read h) (← Directive.minute.read n)
  | _ => none

namespace LabelActionFilter

/-- `validate`, with the zone that is found. -/
def validate (f : LabelActionFilter) : Except Exn Zone :=
  match f.op with
  | none => .error invalid
  | some op =>
    if op ∈ r.registry then (r.zones.getTz (f.tz.getD defaultTz)).elim (.error invalid) .ok
    else .error invalid

/-- The registered names, the longer ones first. -/
def validActions (registry : List Text) : List Text :=
  StableSort.sort (fun a b => b.length < a.length) registry

/-- The message, the operation and the date. -/
def parse (v : Text) : Text × Option Text × Text :=
  let remainder := beforeLast '-' v
  match (validActions r.registry).find? fun a => a <:+ remainder with
  | some a => (remainder.take (remainder.length - (a.length + 1)), some a, afterLast '-' v)
  | none => ([], none, afterLast '-' v)

/-- `__call__` on a resource with these labels, on a machine in a zone. -/
def call (f : LabelActionFilter) (here : Zone) (labels : List (Text × Text)) (now : Int) :
    Except Exn Bool :=
  match Items.get (f.label.getD defaultTag) labels with
  | none => .ok false
  | some v =>
    if '-' ∉ v ∨ '_' ∉ v then .ok false
    else
      let (_, action, date) := parse r v
      if action ≠ some (f.op.getD defaultOp) ∨ action = some [] then .ok false
      else match strptime date with
        | none => .ok false
        | some actionDate => do
          -- a date that was read has no time zone
          let start ← datetime (actionDate - timedelta (f.skew.getD 0) (f.skewHours.getD 0))
          return decide (start ≤ here.wall now)

end LabelActionFilter

/-! ## What a label is for -/

/-- The filter that looks for a label of this action. -/
def filterFor (a : LabelDelayedAction) (op : Text) : LabelActionFilter :=
  ⟨some op, a.label, a.tz, none, none⟩

/-- The reading of the clock that the action is for. -/
def actionReading (z : Zone) (a : LabelDelayedAction) (now : Int) : Int :=
  z.wall now + timedelta (a.days.getD 0) (a.hours.getD 0)

/-- The date that is written, to the minute when hours are given and to the day otherwise. -/
def actionDate (z : Zone) (a : LabelDelayedAction) (now : Int) : Int :=
  floorTo (if 0 < a.hours.getD 0 then minute else day) (actionReading z a now)

def writtenDate (z : Zone) (a : LabelDelayedAction) (now : Int) : Text :=
  LabelDelayedAction.stamp (actionReading z a now) (0 < a.hours.getD 0)

/-- The filter reads the operation and the date, matches when the clock of the time zone has reached
the date, and with another operation never does. -/
structure Honours (a : LabelDelayedAction) (op date : Text) (actionDate mark : Int)
    (z here : Zone) (labels : List (Text × Text)) : Prop where
  recovers : ∃ v, Items.get (a.label.getD defaultTag) labels = some v ∧
    LabelActionFilter.parse r v = ("resource_policy".toList, some op, date) ∧
    strptime date = some actionDate
  matched : ∀ now ≥ mark, (filterFor a op).call r here labels now =
    .ok (decide (actionDate ≤ z.wall now))
  others : ∀ op' ∈ r.registry, op' ≠ op → ∀ now ≥ mark,
    (filterFor a op').call r here labels now = .ok false

/-- No longer action name ends what is in front of the date. -/
def NoLonger (op : Text) : Prop :=
  ∀ name ∈ r.registry, name <:+ "resource_policy-".toList ++ op → name.length ≤ op.length

/-- The clock of the machine has reached a date when that of the time zone has. -/
def SameClocks (here z : Zone) (w mark : Int) : Prop :=
  ∀ now ≥ mark, w ≤ here.wall now ↔ w ≤ z.wall now

/-! ## The label that is written -/

def message (op date : Text) : Text := "resource_policy-".toList ++ op ++ '-' :: date

theorem parse_defaultTemplate : Format.parse defaultTemplate =
    .entry ⟨"resource_policy-".toList, some ⟨"op".toList, none, []⟩⟩
      (.entry ⟨['-'], some ⟨"action_date".toList, none, []⟩⟩ .done) := by
  decide +kernel

theorem format_defaultTemplate (op date : Text) :
    Format.format r.objects [] (LabelDelayedAction.messageArgs r op date) defaultTemplate =
      .ok (message op date) := by
  have hop : ∀ auto, fetch r.objects [] (LabelDelayedAction.messageArgs r op date) auto
      ⟨"op".toList, none, []⟩ = .ok (r.objects.ofText op, auto) := by
    apply fetch_keyword
    · decide +kernel
    · decide +kernel
    · decide +kernel
    · decide +kernel
    · rfl
  have hdate : ∀ auto, fetch r.objects [] (LabelDelayedAction.messageArgs r op date) auto
      ⟨"action_date".toList, none, []⟩ = .ok (r.objects.ofText date, auto) := by
    apply fetch_keyword
    · decide +kernel
    · decide +kernel
    · decide +kernel
    · decide +kernel
    · rfl
  have hspec : ∀ auto, vformat r.objects [] (LabelDelayedAction.messageArgs r op date) 2 [] auto =
      .ok ([], auto) := fun _ => rfl
  rw [Format.format, vformat, parse_defaultTemplate]
  simp only [render, hop, hdate, hspec, r.format_ofText, bind, Except.bind, pure, Except.pure]
  exact congrArg Except.ok (congrArg (_ ++ ·) (List.append_nil _))

section Written

variable {r} {a : LabelDelayedAction} {op : Text} {here z : Zone} {mark : Int}
  {labels labels' : List (Text × Text)}

theorem zone_of_validate (h : a.validate r here = .ok z) : a.zone r here = some z := by
  rw [LabelDelayedAction.validate] at h
  split at h
  · cases h
  · split at h
    · cases hz : a.zone r here with
      | none =>
        rw [hz] at h
        cases h
      | some z' =>
        rw [hz] at h
        exact congrArg some (Except.ok.inj h)
    · cases h

theorem mark_eq (hop : a.op = some op) (hmsg : a.msg = none) (hz : a.validate r here = .ok z)
    (h : a.mark r here mark labels = .ok labels') :
    datetime (actionReading z a mark) = .ok (actionReading z a mark) ∧
      Items.get (a.label.getD defaultTag) labels' = some (message op (writtenDate z a mark)) := by
  rw [LabelDelayedAction.mark, bind_eq_ok] at h
  obtain ⟨msg, hmessage, h⟩ := h
  rw [LabelDelayedAction.message, zone_of_validate hz, bind_eq_ok] at hmessage
  obtain ⟨date, hdate, hformat⟩ := hmessage
  simp only [LabelDelayedAction.generateTimestamp, reduceCtorEq, or_self, if_false,
    Option.getD_some] at hdate
  obtain ⟨w, hw, hdate⟩ := bind_eq_ok.mp hdate
  have hw' : actionReading z a mark = w := by
    rw [actionReading]
    rw [datetime] at hw
    split at hw
    · exact Except.ok.inj hw
    · cases hw
  rw [hmsg, hop, Option.getD_none, Option.getD_some, format_defaultTemplate] at hformat
  rw [← pure_eq_ok.mp h, ← Except.ok.inj hformat, ← pure_eq_ok.mp hdate, ← hw']
  refine ⟨by rw [hw']; exact hw' ▸ hw, ?_⟩
  rw [Items.overwrite, List.foldl_cons, List.foldl_nil, Items.get_set, if_pos rfl]
  rfl

end Written

/-! ## The operation that is read -/

section Operation

variable {r} {op date : Text}

theorem find_validActions {registry : List Text} {remainder name : Text}
    (h : (LabelActionFilter.validActions registry).find? (fun a => a <:+ remainder) = some name) :
    name <:+ remainder ∧
      ∀ b ∈ registry, b <:+ remainder → b.length ≤ name.length := by
  have hordered : StableSort.Ordered (fun a b : Text => decide (b.length < a.length)) registry := by
    refine ⟨fun a _ b _ h => ?_, fun a _ b _ c _ h => ?_⟩
    · simp only [decide_eq_true_eq, decide_eq_false_iff_not] at h ⊢
      omega
    · simp only [decide_eq_true_eq] at h ⊢
      omega
  have hsorted := StableSort.pairwise_sort hordered
  obtain ⟨hname, before, after, hsplit, hbefore⟩ := List.find?_eq_some_iff_append.mp h
  refine ⟨of_decide_eq_true hname, fun b hb hsuffix => ?_⟩
  have hmem : b ∈ LabelActionFilter.validActions registry :=
    (StableSort.sort_perm _ registry).mem_iff.mpr hb
  rw [hsplit] at hmem
  rcases List.mem_append.mp hmem with hb | hb
  · have hnot := hbefore b hb
    rw [decide_eq_true hsuffix] at hnot
    cases hnot
  · rcases List.mem_cons.mp hb with rfl | hb
    · exact le_refl _
    · rw [← LabelActionFilter.validActions, hsplit, List.pairwise_append] at hsorted
      have hlt := List.rel_of_pairwise_cons hsorted.2.1 hb
      rw [decide_eq_false_iff_not] at hlt
      omega

/-- **What the filter reads of a label**: the longest name that ends what is in front of the date,
which is the operation when none is longer. -/
theorem parse_written (hop : op ∈ r.registry) (hdate : '-' ∉ date) :
    ∃ msg name, LabelActionFilter.parse r (message op date) = (msg, some name, date) ∧
      (name = op ↔ NoLonger r op) ∧ (name = op → msg = "resource_policy".toList) := by
  have hbefore : beforeLast '-' (message op date) = "resource_policy-".toList ++ op :=
    beforeLast_append _ hdate
  have hafter : afterLast '-' (message op date) = date := afterLast_append _ hdate
  have hsuffix : op <:+ "resource_policy-".toList ++ op := List.suffix_append ..
  have hmem : op ∈ LabelActionFilter.validActions r.registry :=
    (StableSort.sort_perm _ r.registry).mem_iff.mpr hop
  rw [LabelActionFilter.parse, hbefore, hafter]
  cases hfind : (LabelActionFilter.validActions r.registry).find?
      fun a => a <:+ "resource_policy-".toList ++ op with
  | none => exact absurd (decide_eq_true hsuffix) (List.find?_eq_none.mp hfind op hmem)
  | some name =>
    obtain ⟨hname, hlongest⟩ := find_validActions hfind
    refine ⟨_, name, rfl, ⟨?_, fun hlonger => ?_⟩, ?_⟩
    · rintro rfl
      exact hlongest
    · have hle : name.length ≤ op.length := hlonger name
        ((StableSort.sort_perm _ r.registry).mem_iff.mp (List.mem_of_find?_eq_some hfind)) hname
      exact (List.suffix_of_suffix_length_le hname hsuffix hle).eq_of_length
        (le_antisymm hle (hlongest op hop hsuffix))
    · rintro rfl
      have hlength : ("resource_policy-".toList ++ name).length - (name.length + 1) =
          "resource_policy".toList.length := by
        rw [List.length_append]
        have h₁ : "resource_policy-".toList.length = 16 := by decide
        have h₂ : "resource_policy".toList.length = 15 := by decide
        omega
      rw [hlength, List.take_append_of_le_length (by decide)]
      decide

end Operation

/-! ## The date that is read -/

section Dates

variable {w : Int} {time : Bool}

theorem not_mem_stampFields {c : Char} (hc : c.isDigit = false) :
    ∀ p ∈ [Nat.toDigits 10 (civil (w / day)).1, twoDigits (civil (w / day)).2.1,
        twoDigits (civil (w / day)).2.2, []] ++
      (if time then [twoDigits ((w % day / minute).toNat / 60),
        twoDigits ((w % day / minute).toNat % 60)] else [['0'], ['0']]), c ∉ p := by
  have hdigits : ∀ p : Text, (∀ x ∈ p, x.isDigit = true) → c ∉ p := by
    intro p hp hmem
    rw [hp c hmem] at hc
    cases hc
  intro p hp
  apply hdigits
  rcases List.mem_append.mp hp with hp | hp
  · simp only [List.mem_cons, List.not_mem_nil, or_false] at hp
    rcases hp with rfl | rfl | rfl | rfl
    · exact fun x hx => Nat.isDigit_of_mem_toDigits (by decide) (by decide) hx
    · exact twoDigits_isDigit _
    · exact twoDigits_isDigit _
    · exact fun x hx => absurd hx List.not_mem_nil
  · cases time with
    | true =>
      rcases List.mem_pair.mp hp with rfl | rfl
      · exact twoDigits_isDigit _
      · exact twoDigits_isDigit _
    | false =>
      rcases List.mem_pair.mp hp with rfl | rfl
      · decide
      · decide

theorem minus_not_mem_stamp : '-' ∉ LabelDelayedAction.stamp w time :=
  not_mem_intercalate (by decide) (not_mem_stampFields (by decide))

/-- **The date that is read** is the one that was written. -/
theorem strptime_stamp (hw : -353000 * day ≤ w ∧ w < 2932897 * day) :
    strptime (LabelDelayedAction.stamp w time) =
      some (floorTo (if time then minute else day) w) := by
  have hday : -353000 ≤ w / day ∧ w / day < 2932897 := by
    have hpos : 0 < day := by decide
    exact ⟨Int.le_ediv_of_mul_le hpos hw.1, Int.ediv_lt_of_lt_mul hpos hw.2⟩
  obtain ⟨hyear, hmonth, hdays⟩ := civil_bounds hday
  have hminutes : (w % day / minute).toNat < 1440 := by
    simp only [day, minute]
    omega
  rw [strptime, LabelDelayedAction.stamp, List.splitOn_intercalate _ (not_mem_stampFields (by decide))
    (by simp)]
  have hnumber : dayNumber (civil (w / day)).1 (civil (w / day)).2.1 (civil (w / day)).2.2 = w / day :=
    dayNumber_civil (by omega)
  cases time with
  | true =>
    simp only [if_true, List.cons_append, List.nil_append, read_year hyear,
      read_month _ (Nat.lt_succ_of_le hmonth.2) hmonth.1,
      read_day _ (Nat.lt_succ_of_le hdays.2) hdays.1,
      read_hour _ (Nat.div_lt_of_lt_mul (show _ < 60 * 24 from hminutes)),
      read_minute _ (Nat.mod_lt _ (by decide)), Option.bind_eq_bind, Option.bind_some, reading,
      hnumber]
    rw [if_pos ⟨by omega, trivial⟩, Nat.div_add_mod']
    refine congrArg some ?_
    simp only [floorTo, day, minute]
    omega
  | false =>
    have hhour : Directive.hour.read ['0'] = some 0 := by decide +kernel
    have hminute : Directive.minute.read ['0'] = some 0 := by decide +kernel
    simp only [Bool.false_eq_true, if_false, List.cons_append, List.nil_append, read_year hyear,
      read_month _ (Nat.lt_succ_of_le hmonth.2) hmonth.1,
      read_day _ (Nat.lt_succ_of_le hdays.2) hdays.1, hhour, hminute, Option.bind_eq_bind,
      Option.bind_some, reading, hnumber]
    rw [if_pos ⟨by omega, trivial⟩]
    refine congrArg some ?_
    simp only [floorTo, day, minute]
    omega

end Dates

/-! ## The labels that are honoured -/

theorem roundHalfEven_nonneg {q : ℚ} (hq : 0 ≤ q) : 0 ≤ roundHalfEven q := by
  have hfloor : 0 ≤ q.floor := Rat.le_floor_iff.mpr (by exact_mod_cast hq)
  rw [roundHalfEven]
  split
  · exact hfloor
  · split
    · omega
    · split
      · exact hfloor
      · omega

theorem timedelta_nonneg {days hours : ℚ} (hd : 0 ≤ days) (hh : 0 ≤ hours) :
    0 ≤ timedelta days hours := by
  apply roundHalfEven_nonneg
  have hminute : (0 : ℚ) ≤ (minute : ℚ) := by
    rw [minute]
    norm_num
  positivity

section Honoured

variable {r} {a : LabelDelayedAction} {op : Text} {writer here z' z : Zone} {mark : ℕ}
  {labels labels' : List (Text × Text)}

theorem reading_bounds (z : Zone) (mark : ℕ)
    (h : datetime (actionReading z a mark) = .ok (actionReading z a mark)) :
    -day ≤ actionReading z a mark ∧ actionReading z a mark < 2932897 * day := by
  have hdays : 0 ≤ a.days.getD 0 := by
    cases hd : a.days with
    | none => exact le_refl _
    | some d => exact a.days_nonneg d hd
  have hhours : 0 ≤ a.hours.getD 0 := by
    cases hh : a.hours with
    | none => exact le_refl _
    | some d => exact a.hours_nonneg d hh
  have hdelta := timedelta_nonneg hdays hhours
  have hoffset := abs_lt.mp (z.offset_lt mark)
  rw [datetime] at h
  split at h
  · next hrange =>
    refine ⟨?_, hrange.2⟩
    rw [actionReading, Zone.wall]
    omega
  · cases h

theorem strptime_writtenDate (h : datetime (actionReading z a mark) = .ok (actionReading z a mark)) :
    strptime (writtenDate z a mark) = some (actionDate z a mark) ∧
      datetime (actionDate z a mark) = .ok (actionDate z a mark) := by
  obtain ⟨hlow, hhigh⟩ := reading_bounds z mark h
  have hday : day = 86400000000 := rfl
  have hminute : minute = 60000000 := rfl
  constructor
  · rw [writtenDate, strptime_stamp ⟨by omega, hhigh⟩, actionDate]
    simp only [decide_eq_true_eq]
  · rw [datetime, if_pos]
    rw [actionDate, floorTo]
    split
    · rw [hminute]
      omega
    · rw [hday]
      omega

theorem call_eq {msg name date : Text} {d now : Int} (op' : Text)
    (hget : Items.get (a.label.getD defaultTag) labels = some (message op date))
    (hparse : LabelActionFilter.parse r (message op date) = (msg, some name, date))
    (hdate : strptime date = some d) (hd : datetime d = .ok d) :
    (filterFor a op').call r here labels now =
      .ok (decide (name = op' ∧ name ≠ [] ∧ d ≤ here.wall now)) := by
  have hseparators : ¬ ('-' ∉ message op date ∨ '_' ∉ message op date) := by
    rw [not_or, not_not, not_not]
    refine ⟨List.mem_append_right _ List.mem_cons_self, ?_⟩
    exact List.mem_append_left _ (List.mem_append_left _ (by decide))
  have hskew : d - timedelta ((none : Option ℚ).getD 0) ((none : Option ℚ).getD 0) = d := by
    have hzero : timedelta ((none : Option ℚ).getD 0) ((none : Option ℚ).getD 0) = 0 := by
      decide +kernel
    rw [hzero, sub_zero]
  rw [LabelActionFilter.call, filterFor]
  simp only [hget, if_neg hseparators, hparse, Option.getD_some, Option.some.injEq, ne_eq]
  by_cases hname : name = op' ∧ name ≠ []
  · rw [if_neg (by rw [not_or, not_not]; exact hname)]
    simp only [hdate, hskew, hd, ok_bind]
    exact congrArg Except.ok (decide_eq_decide.mpr (by
      rw [← and_assoc]
      exact (and_iff_right hname).symm))
  · rw [if_pos (by rwa [not_and_or, ne_eq, not_not] at hname), decide_eq_false]
    rintro ⟨heq, hne, -⟩
    exact hname ⟨heq, hne⟩

/-- **A label is honoured exactly when no longer action name ends what is in front of the date and
the machine's clock reaches the date with that of the time zone.** -/
theorem labelHonoured_iff (hop : a.op = some op) (hmsg : a.msg = none)
    (hz' : a.validate r writer = .ok z') (hz : (filterFor a op).validate r = .ok z)
    (h : a.mark r writer mark labels = .ok labels') :
    Honours r a op (writtenDate z' a mark) (actionDate z' a mark) mark z here labels' ↔
      op ≠ [] ∧ NoLonger r op ∧ SameClocks here z (actionDate z' a mark) mark := by
  obtain ⟨hrange, hget⟩ := mark_eq hop hmsg hz' h
  have hregistered : op ∈ r.registry := by
    by_contra hnot
    simp only [LabelActionFilter.validate, filterFor, if_neg hnot] at hz
    cases hz
  have hminus : '-' ∉ writtenDate z' a mark := minus_not_mem_stamp
  obtain ⟨msg, name, hparse, hname, hmsg'⟩ := parse_written hregistered hminus
  obtain ⟨hread, hd⟩ := strptime_writtenDate hrange
  have hcall : ∀ op' now, (filterFor a op').call r here labels' now =
      .ok (decide (name = op' ∧ name ≠ [] ∧ actionDate z' a mark ≤ here.wall now)) :=
    fun op' now => call_eq op' hget hparse hread hd
  constructor
  · rintro ⟨⟨v, hv, hrecovers, -⟩, hmatched, -⟩
    rw [hget, Option.some.injEq] at hv
    rw [← hv, hparse, Prod.mk.injEq, Prod.mk.injEq, Option.some.injEq] at hrecovers
    obtain rfl := hrecovers.2.1
    have hmatched' : ∀ now ≥ (mark : Int),
        (name ≠ [] ∧ actionDate z' a mark ≤ here.wall now ↔ actionDate z' a mark ≤ z.wall now) := by
      intro now hnow
      have heq := (hcall name now).symm.trans (hmatched now hnow)
      have hiff := decide_eq_decide.mp (Except.ok.inj heq)
      rwa [and_iff_right rfl] at hiff
    obtain ⟨late, hlate, hreached⟩ := z.exists_wall_ge (actionDate z' a mark) mark
    have hne := ((hmatched' late hlate).mpr hreached).1
    exact ⟨hne, hname.mp rfl, fun now hnow => by rw [← hmatched' now hnow, and_iff_right hne]⟩
  · rintro ⟨hne, hlonger, hclocks⟩
    obtain rfl := hname.mpr hlonger
    refine ⟨⟨_, hget, by rw [hparse, hmsg' rfl], hread⟩, fun now hnow => ?_,
      fun op' _ hop' now _ => ?_⟩
    · rw [hcall]
      refine congrArg Except.ok (decide_eq_decide.mpr ?_)
      rw [and_iff_right rfl, and_iff_right hne]
      exact hclocks now hnow
    · rw [hcall, decide_eq_false]
      exact fun hnot => hop' hnot.1.symm

end Honoured

/-! ## When the clocks agree -/

/-! ## A label for the next day -/

/-- Two actions and two time zones. -/
def twoZones : Runtime Text where
  objects := Tags.textObjects
  zones :=
    { names := ["America/Los_Angeles".toList, "Etc/UTC".toList]
      gettz := fun name =>
        if name = "Etc/UTC".toList then some Tags.utc
        else if name = "America/Los_Angeles".toList then some Tags.pacific else none
      lower := fun s => s.map asciiLower
      title := id }
  registry := ["stop".toList, "delete".toList]
  format_ofText := Tags.textObjects_format

/-- Stop the resource a day later. -/
def stopNextDay (tz : String) : LabelDelayedAction :=
  ⟨some "stop".toList, none, none, some 1, none, some tz.toList, by decide, by decide⟩

/-- Eight in the evening of the first of March 2024, in UTC. -/
def evening : ℕ := 1709323200000000

/-- The first midnight after it. -/
def midnight : Int := 19784 * day

def stopLabels : List (Text × Text) :=
  [(defaultTag, "resource_policy-stop-2024_03_02__0_0".toList)]

/-- In the time zone of the machine the label is honoured. -/
theorem labelHonoured_utc : Honours twoZones (stopNextDay "utc") "stop".toList
    (writtenDate Tags.utc (stopNextDay "utc") evening)
    (actionDate Tags.utc (stopNextDay "utc") evening) evening Tags.utc Tags.utc stopLabels := by
  have hvalid : (stopNextDay "utc").validate twoZones Tags.utc = .ok Tags.utc := rfl
  have hfilter : (filterFor (stopNextDay "utc") "stop".toList).validate twoZones =
      .ok Tags.utc := rfl
  have hmark : (stopNextDay "utc").mark twoZones Tags.utc evening [] = .ok stopLabels := by
    decide +kernel
  refine (labelHonoured_iff rfl rfl hvalid hfilter hmark).mpr ⟨by decide, ?_, fun _ _ => Iff.rfl⟩
  intro name hname hsuffix
  rcases List.mem_pair.mp hname with rfl | rfl
  · decide
  · revert hsuffix
    decide

/-- On the Pacific coast the label is matched at midnight in UTC, eight hours early. -/
theorem pacific_early :
    (stopNextDay "pt").validate twoZones Tags.utc = .ok Tags.pacific ∧
      (filterFor (stopNextDay "pt") "stop".toList).validate twoZones = .ok Tags.pacific ∧
      (stopNextDay "pt").mark twoZones Tags.utc evening [] = .ok stopLabels ∧
      (filterFor (stopNextDay "pt") "stop".toList).call twoZones Tags.utc stopLabels midnight =
        .ok true ∧
      Tags.pacific.wall midnight < actionDate Tags.pacific (stopNextDay "pt") evening ∧
      ¬ Honours twoZones (stopNextDay "pt") "stop".toList
        (writtenDate Tags.pacific (stopNextDay "pt") evening)
        (actionDate Tags.pacific (stopNextDay "pt") evening) evening Tags.pacific Tags.utc
        stopLabels := by
  have hmatched : (filterFor (stopNextDay "pt") "stop".toList).call twoZones Tags.utc stopLabels
      midnight = .ok true := by
    decide +kernel
  have hearly : Tags.pacific.wall midnight <
      actionDate Tags.pacific (stopNextDay "pt") evening := by
    decide +kernel
  refine ⟨rfl, rfl, by decide +kernel, hmatched, hearly, fun h => ?_⟩
  have hanswer := h.matched midnight (by decide)
  rw [hmatched, decide_eq_false (not_le.mpr hearly)] at hanswer
  cases hanswer

end Custodian.MarkedLabels

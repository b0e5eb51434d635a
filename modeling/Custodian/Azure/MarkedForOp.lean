import Custodian.Filters.ScheduleZone
import Custodian.Lib.Items
import Custodian.Tags.MarkForOp

/-!
# Marks on Azure resources

`TagDelayedAction` of `actions/tagging.py` writes a tag that ends in an operation and a date, and
`TagActionFilter` of `filters.py` reads it.  The action takes a zone that is no alias to be the one
of the machine, the filter asks for its title; and a date that was read without a zone is compared
with the clock of the machine.
-/

namespace Custodian.AzureMarks

open Py Py.Format Py.Clock
open ScheduleZone (Zones)
open Tags (MarkForOp MarkedForOp Parsed IsOpName readMark markFields)

/-! ## Configurations -/

def defaultTag : Text := "custodian_status".toList

def defaultOp : Text := "stop".toList

def defaultTz : Text := "utc".toList

def defaultTemplate : Text := "Resource does not meet policy: {op}@{action_date}".toList

/-- The objects of the formatter, the time zones, the date parser, which takes no text with an `@`,
and the actions of the resource type. -/
structure Runtime (V : Type) where
  objects : Objects V
  zones : Zones Zone
  parse : Text → Option Parsed
  registry : List Text
  format_ofText : ∀ s, objects.format (objects.ofText s) [] = .ok s
  registry_isOpName : ∀ op ∈ registry, IsOpName op
  parse_at : ∀ s, '@' ∈ s → parse s = none

/-- A resource, with its `InstanceId` if it has one. -/
structure Resource where
  tags : List (Text × Text)
  instanceId : Option Text
  deriving DecidableEq

variable {V : Type} (r : Runtime V)

/-- What the same action finds on a machine of another cloud. -/
def Runtime.tags (here : Zone) : Tags.Runtime V where
  objects := r.objects
  gettz := r.zones.getTz
  localZone := here
  parse := r.parse
  registry := r.registry
  format_ofText := r.format_ofText
  registry_isOpName := r.registry_isOpName
  parse_at := r.parse_at

/-! ## The action -/

namespace TagDelayedAction

variable (a : MarkForOp) (here : Zone)

/-- `self.tz`; without a name it is the zone of the machine. -/
def zone : Option Zone :=
  match r.zones.aliasOf (a.tz.getD defaultTz) with
  | some name => r.zones.gettz name
  | none => some here

/-- `validate`, with the zone that is found. -/
def validate : Except Exn Zone :=
  let invalid := Exn.raised "FilterValidationError".toList
  match a.op with
  | none => .error invalid
  | some op => if op ∈ r.registry then (zone r a here).elim (.error invalid) .ok else .error invalid

def generateTimestamp (z : Zone) (days hours : Option ℚ) (now : Int) : Except Exn Text :=
  Tags.generateTimestamp z days hours now

/-- `self.msg` -/
def message (now : Int) : Except Exn Text := do
  let z := (zone r a here).getD here
  let date ← generateTimestamp z (some (a.days.getD 0)) (some (a.hours.getD 0)) now
  Tags.formatMessage (r.tags here) (a.msg.getD defaultTemplate) (a.op.getD defaultOp) date

/-- `_process_resource` -/
def processResource (now : Int) (resource : Resource) : Except Exn Resource := do
  let msg ← message r a here now
  return { resource with tags := Items.set (a.tag.getD defaultTag) msg resource.tags }

end TagDelayedAction

/-! ## The filter -/

namespace TagActionFilter

variable (f : MarkedForOp)

/-- `validate`, with the zone that is found. -/
def validate : Except Exn Zone :=
  let invalid := Exn.raised "PolicyValidationError".toList
  match f.op with
  | none => .error invalid
  | some op =>
    if op ∈ r.registry then (r.zones.getTz (f.tz.getD defaultTz)).elim (.error invalid) .ok
    else .error invalid

/-- The zone of `current_date`: `now()` is read on the clock of the machine. -/
def clock (here z : Zone) : Parsed → Zone
  | .naive _ => here
  | .aware _ _ => z

/-- `current_date >= (action_date - timedelta(days=self.skew, hours=self.skew_hours))` -/
def reached (here z : Zone) (now : Int) (d : Parsed) : Except Exn Bool := do
  let actionDate ← Tags.deadline z d
  let start ← datetime (actionDate - timedelta (f.skew.getD 0) (f.skewHours.getD 0))
  return decide (start ≤ (clock here z d).wall now)

/-- `__call__`, with the zone `self.tz` on a machine in another one. -/
def call (here z : Zone) (resource : Resource) (now : Int) : Except Exn Bool :=
  match Items.get (f.tag.getD defaultTag) resource.tags with
  | none => .ok false
  | some v => do
    match ← readMark v with
    | none => return false
    | some (action, date) =>
      if action ≠ f.op.getD defaultOp then return false
      else match r.parse date with
        | some d => reached f here z now d
        -- the message that is logged has `i['InstanceId']`
        | none => if resource.instanceId.isSome then return false else throw .keyError

end TagActionFilter

/-! ## What a mark is for -/

/-- The filter that looks for a mark of this action. -/
def filterFor (a : MarkForOp) (op : Text) (skew skewHours : Option ℚ) : MarkedForOp :=
  ⟨some op, a.tag, a.tz, skew, skewHours⟩

/-- The time that is documented: four days when neither days nor hours are given. -/
def documentedOffset (a : MarkForOp) : Int :=
  if a.days = none ∧ a.hours = none then timedelta 4 0 else timedelta (a.days.getD 0) (a.hours.getD 0)

/-- The announced date, to the minute when hours are given and to the day otherwise. -/
def announced (z : Zone) (a : MarkForOp) (mark : Int) : Int :=
  floorTo (if 0 < a.hours.getD 0 then minute else day) (z.wall mark + documentedOffset a)

/-- The start of the time in which the filter is to match. -/
def startDate (z : Zone) (a : MarkForOp) (mark : Int) (skew skewHours : Option ℚ) : Int :=
  announced z a mark - timedelta (skew.getD 0) (skewHours.getD 0)

/-- The filter matches the mark from the announced date on, less the skew, in the time zone; with
another operation it never does. -/
structure Honours (z here : Zone) (a : MarkForOp) (op : Text) (mark : Int) (resource : Resource)
    (skew skewHours : Option ℚ) : Prop where
  matched : ∀ now ≥ mark, TagActionFilter.call r (filterFor a op skew skewHours) here z resource now =
    .ok (decide (startDate z a mark skew skewHours ≤ z.wall now))
  others : ∀ op' ∈ r.registry, op' ≠ op → ∀ now ≥ mark,
    TagActionFilter.call r (filterFor a op' skew skewHours) here z resource now = .ok false

/-- The clock that the filter reads passes the date that was read, less the skew, when that of the
time zone passes the announced date, less the skew. -/
def SameClocks (z here : Zone) (a : MarkForOp) (mark : Int) (d : Parsed)
    (skew skewHours : Option ℚ) : Prop :=
  ∃ w start, Tags.deadline z d = .ok w ∧
    datetime (w - timedelta (skew.getD 0) (skewHours.getD 0)) = .ok start ∧
    ∀ now ≥ mark, (start ≤ (TagActionFilter.clock here z d).wall now ↔
      startDate z a mark skew skewHours ≤ z.wall now)

/-- A value that has no operation and date. -/
def Unparsable (v : Text) : Prop :=
  ∀ action date, readMark v = .ok (some (action, date)) → r.parse date = none

/-- A value that is rejected: what follows its last colon has an `@`, and where the operation is the
one that is looked for, the message that the date cannot be read can be written. -/
structure Rejectable (f : MarkedForOp) (resource : Resource) (v : Text) : Prop where
  separated : ':' ∈ v → '@' ∈ v → '@' ∈ afterLast ':' v
  logged : ∀ date, readMark v = .ok (some (f.op.getD defaultOp, date)) →
    resource.instanceId.isSome = true

/-! ## Values without a mark -/

section Values

variable {r} {f : MarkedForOp} {here z : Zone} {resource : Resource} {v : Text} {now : Int}

theorem call_none (hv : Items.get (f.tag.getD defaultTag) resource.tags = some v)
    (h : readMark v = .ok none) : TagActionFilter.call r f here z resource now = .ok false := by
  simp only [TagActionFilter.call, hv, h]
  rfl

theorem call_other {action date : Text}
    (hv : Items.get (f.tag.getD defaultTag) resource.tags = some v)
    (h : readMark v = .ok (some (action, date))) (hop : action ≠ f.op.getD defaultOp) :
    TagActionFilter.call r f here z resource now = .ok false := by
  simp only [TagActionFilter.call, hv, h, ok_bind, if_pos hop]
  rfl

theorem call_same {date : Text} {d : Parsed}
    (hv : Items.get (f.tag.getD defaultTag) resource.tags = some v)
    (h : readMark v = .ok (some (f.op.getD defaultOp, date))) (hd : r.parse date = some d) :
    TagActionFilter.call r f here z resource now = TagActionFilter.reached f here z now d := by
  simp only [TagActionFilter.call, hv, h, ok_bind, ne_eq, not_true_eq_false, if_false, hd]

theorem call_unread {date : Text} (hv : Items.get (f.tag.getD defaultTag) resource.tags = some v)
    (h : readMark v = .ok (some (f.op.getD defaultOp, date))) (hd : r.parse date = none) :
    TagActionFilter.call r f here z resource now =
      if resource.instanceId.isSome then .ok false else .error .keyError := by
  simp only [TagActionFilter.call, hv, h, ok_bind, ne_eq, not_true_eq_false, if_false, hd]
  rfl

theorem readMark_cases (v : Text) :
    (':' ∉ v ∨ '@' ∉ v) ∧ readMark v = .ok none ∨
      (':' ∈ v ∧ '@' ∈ v) ∧ ('@' ∈ afterLast ':' v ∧ (∃ mark, readMark v = .ok (some mark)) ∨
        '@' ∉ afterLast ':' v ∧ readMark v = .error valueError) := by
  rw [readMark]
  split
  · next h => exact Or.inl ⟨h, rfl⟩
  · next h =>
    rw [not_or, not_not, not_not] at h
    refine Or.inr ⟨h, ?_⟩
    by_cases hat : '@' ∈ afterLast ':' v
    · have hstrip : '@' ∈ strip (afterLast ':' v) :=
        (mem_strip_or_isSpace hat).resolve_right (by decide)
      obtain ⟨action, date, hparts, haction⟩ := List.eq_append_cons_of_mem hstrip
      refine Or.inl ⟨hat, (action, date), ?_⟩
      rw [hparts, Tags.markParts_append haction]
    · have hstrip : '@' ∉ strip (afterLast ':' v) := fun h => hat (mem_of_mem_strip h)
      refine Or.inr ⟨hat, ?_⟩
      rw [Tags.markParts, splitMax_of_not_mem hstrip]

/-- **Rejection.**  When a value without a mark is rejected without an exception. -/
theorem rejected_iff (hv : Items.get (f.tag.getD defaultTag) resource.tags = some v)
    (h : Unparsable r v) :
    TagActionFilter.call r f here z resource now = .ok false ↔ Rejectable f resource v := by
  rcases readMark_cases v with ⟨hsep, hread⟩ | ⟨⟨hcolon, hsign⟩, ⟨hat, mark, hread⟩ | ⟨hat, hread⟩⟩
  · refine iff_of_true (call_none hv hread) ⟨fun hcolon hsign => ?_, fun date hmark => ?_⟩
    · exact absurd hsep (not_or.mpr ⟨not_not.mpr hcolon, not_not.mpr hsign⟩)
    · rw [hread] at hmark
      cases hmark
  · obtain ⟨action, date⟩ := mark
    have hdate := h action date hread
    by_cases haction : action = f.op.getD defaultOp
    · subst haction
      rw [call_unread hv hread hdate]
      cases hid : resource.instanceId.isSome with
      | true =>
        exact iff_of_true (if_pos rfl) ⟨fun _ _ => hat, fun _ _ => hid⟩
      | false =>
        refine iff_of_false (fun hfalse => by cases hfalse) fun hrejectable => ?_
        have hlogged := hrejectable.logged date hread
        rw [hid] at hlogged
        cases hlogged
    · refine iff_of_true (call_other hv hread haction) ⟨fun _ _ => hat, fun date' hmark => ?_⟩
      rw [hread] at hmark
      exact absurd (congrArg Prod.fst (Option.some.inj (Except.ok.inj hmark))) haction
  · refine iff_of_false (fun hfalse => ?_) fun hrejectable => hat (hrejectable.separated hcolon hsign)
    simp only [TagActionFilter.call, hv, hread] at hfalse
    cases hfalse

end Values

/-! ## Which marks are honoured -/

section Honoured

variable {r} {a : MarkForOp} {op before date : Text} {writer here z' z : Zone} {mark : Int}
  {d : Parsed} {resource resource' : Resource} {skew skewHours : Option ℚ}

theorem processResource_eq (hop : a.op = some op)
    (hz' : TagDelayedAction.validate r a writer = .ok z')
    (hmsg : a.msg.getD defaultTemplate = before ++ markFields)
    (hdate : TagDelayedAction.generateTimestamp z' (some (a.days.getD 0)) (some (a.hours.getD 0))
      mark = .ok date)
    (h : TagDelayedAction.processResource r a writer mark resource = .ok resource') :
    ∃ start, Tags.formatMessage (r.tags writer) before op date = .ok start ∧
      Items.get (a.tag.getD defaultTag) resource'.tags = some (start ++ op ++ '@' :: date) := by
  have hzone : TagDelayedAction.zone r a writer = some z' := by
    simp only [TagDelayedAction.validate, hop] at hz'
    split at hz'
    · cases hzone : TagDelayedAction.zone r a writer with
      | none =>
        rw [hzone] at hz'
        cases hz'
      | some found =>
        rw [hzone] at hz'
        exact congrArg some (Except.ok.inj hz')
    · cases hz'
  obtain ⟨msg, hmessage, h⟩ := bind_eq_ok.mp h
  rw [TagDelayedAction.message, hzone, Option.getD_some, hdate, hmsg, hop, Option.getD_some,
    ok_bind] at hmessage
  obtain ⟨start, hstart, rfl⟩ := Tags.formatMessage_append (r.tags writer) hmessage
  refine ⟨start, hstart, ?_⟩
  rw [← pure_eq_ok.mp h]
  exact (Items.get_set _ _ _ _).trans (if_pos rfl)

theorem isOpName_of_validate (hop : a.op = some op)
    (hz' : TagDelayedAction.validate r a writer = .ok z') : IsOpName op := by
  simp only [TagDelayedAction.validate, hop] at hz'
  split at hz'
  · next hregistered => exact r.registry_isOpName op hregistered
  · cases hz'

theorem matched_iff_sameClocks {v : Text}
    (hv : Items.get (a.tag.getD defaultTag) resource.tags = some v)
    (hread : readMark v = .ok (some (op, date))) (hparse : r.parse date = some d) :
    (∀ now ≥ mark, TagActionFilter.call r (filterFor a op skew skewHours) here z resource now =
      .ok (decide (startDate z a mark skew skewHours ≤ z.wall now))) ↔
      SameClocks z here a mark d skew skewHours := by
  have hcall : ∀ now, TagActionFilter.call r (filterFor a op skew skewHours) here z resource now =
      TagActionFilter.reached (filterFor a op skew skewHours) here z now d :=
    fun now => call_same hv hread hparse
  simp only [hcall, TagActionFilter.reached]
  constructor
  · intro h
    obtain ⟨w, hw, hstart⟩ := bind_eq_ok.mp (h mark (le_refl mark))
    obtain ⟨start, hstart, -⟩ := bind_eq_ok.mp hstart
    refine ⟨w, start, hw, hstart, fun now hnow => ?_⟩
    have hnow' := h now hnow
    rw [hw, ok_bind, hstart, ok_bind] at hnow'
    exact decide_eq_decide.mp (Except.ok.inj hnow')
  · rintro ⟨w, start, hw, hstart, hclock⟩ now hnow
    rw [hw, ok_bind]
    refine bind_eq_ok.mpr ⟨start, hstart, ?_⟩
    exact congrArg Except.ok (decide_eq_decide.mpr (hclock now hnow))

/-- **A mark is honoured exactly when the text in front of the operation ends in a colon and white
space and the clock that is read agrees with that of the time zone.** -/
theorem azureHonoured_iff (hop : a.op = some op) (hz' : TagDelayedAction.validate r a writer = .ok z')
    (hmsg : a.msg.getD defaultTemplate = before ++ markFields)
    (hdate : TagDelayedAction.generateTimestamp z' (some (a.days.getD 0)) (some (a.hours.getD 0))
      mark = .ok date)
    (hparse : r.parse date = some d)
    (h : TagDelayedAction.processResource r a writer mark resource = .ok resource') :
    Honours r z here a op mark resource' skew skewHours ↔
      Tags.EndsInColon (r.tags writer) op date before ∧
        SameClocks z here a mark d skew skewHours := by
  obtain ⟨start, hstart, hget⟩ := processResource_eq hop hz' hmsg hdate h
  have hname := isOpName_of_validate hop hz'
  obtain ⟨hcolon, hne, hlast⟩ := Tags.written_plain hdate
  by_cases hends : Tags.EndsInColon (r.tags writer) op date before
  · rw [and_iff_right hends]
    obtain ⟨p, b, hab, hb⟩ := hends
    obtain rfl : start = p ++ ':' :: b := Except.ok.inj (hstart.symm.trans hab)
    have hread : readMark (p ++ ':' :: b ++ op ++ '@' :: date) = .ok (some (op, date)) :=
      Tags.readMark_written hname hcolon hne hlast hb
    rw [← matched_iff_sameClocks hget hread hparse]
    have hothers : ∀ op' ≠ op, ∀ now, TagActionFilter.call r (filterFor a op' skew skewHours) here z
        resource' now = .ok false := fun op' hop' now => call_other hget hread hop'.symm
    exact ⟨Honours.matched, fun hmatched => ⟨hmatched, fun op' _ hop' now _ => hothers op' hop' now⟩⟩
  · rw [iff_false_right fun hc => hends hc.1]
    intro hhonours
    obtain ⟨late, hlate, hreached⟩ := z.exists_wall_ge (startDate z a mark skew skewHours) mark
    have hmatch := hhonours.matched late hlate
    rw [decide_eq_true hreached] at hmatch
    -- no value that has something else after its last colon is matched
    have hnot : TagActionFilter.call r (filterFor a op skew skewHours) here z resource' late =
        .ok false ∨ TagActionFilter.call r (filterFor a op skew skewHours) here z resource' late =
          .error .keyError := by
      by_cases hc : ':' ∈ start
      · obtain ⟨p, b, rfl, hb⟩ := exists_last hc
        have hspace : ¬ ∀ c ∈ b, isSpace c = true := fun hs => hends ⟨p, b, hstart, hs⟩
        obtain ⟨action, rest, hread, hat⟩ :
            ∃ action rest, readMark (p ++ ':' :: b ++ op ++ '@' :: date) =
              .ok (some (action, rest)) ∧ (action = op → '@' ∈ rest) :=
          Tags.readMark_other hname hcolon hne hlast hb hspace
        by_cases haction : action = op
        · subst haction
          rw [call_unread hget hread (r.parse_at rest (hat rfl))]
          split
          · exact Or.inl rfl
          · exact Or.inr rfl
        · exact Or.inl (call_other hget hread haction)
      · refine Or.inl (call_none hget ?_)
        rw [readMark, if_pos]
        simp [hc, hname.1, hcolon]
    rw [hmatch] at hnot
    rcases hnot with hnot | hnot <;> cases hnot

end Honoured

/-- **Clocks that are never changed** agree on a date without a zone when the filter starts to match
at one instant for both, or has started for both at the mark. -/
theorem sameClocks_fixed_iff {a : MarkForOp} {here z : Zone} {o o' w start mark : Int}
    {skew skewHours : Option ℚ} (hhere : ∀ t, here.offset t = o) (hz : ∀ t, z.offset t = o')
    (hstart : datetime (w - timedelta (skew.getD 0) (skewHours.getD 0)) = .ok start) :
    SameClocks z here a mark (.naive w) skew skewHours ↔
      start - o = startDate z a mark skew skewHours - o' ∨
        start ≤ mark + o ∧ startDate z a mark skew skewHours ≤ mark + o' := by
  simp only [SameClocks, TagActionFilter.clock, Zone.wall, hhere, hz]
  generalize startDate z a mark skew skewHours = date
  constructor
  · rintro ⟨w', start', hw, hstart', hclock⟩
    obtain rfl : w = w' := Except.ok.inj hw
    obtain rfl : start = start' := Except.ok.inj (hstart.symm.trans hstart')
    have hmark := hclock mark (le_refl mark)
    have hfirst := hclock (max mark (start - o)) (le_max_left ..)
    have hsecond := hclock (max mark (date - o')) (le_max_left ..)
    omega
  · intro h
    exact ⟨w, start, rfl, hstart, fun now hnow => by omega⟩

/-- **Marks.**  A mark is honoured by a filter in the zone `z` exactly when it follows a colon and the
clocks agree; and a value without an operation and date is rejected, instead of raising, exactly
when it is rejectable. -/
theorem azureMark_iff (r : Runtime V) {a : MarkForOp} {op before date : Text}
    {writer here z' z : Zone} {mark : Int} {d : Parsed} {resource resource' : Resource}
    (skew skewHours : Option ℚ) (hop : a.op = some op)
    (hz' : TagDelayedAction.validate r a writer = .ok z')
    (hmsg : a.msg.getD defaultTemplate = before ++ markFields)
    (hdate : TagDelayedAction.generateTimestamp z' (some (a.days.getD 0)) (some (a.hours.getD 0))
      mark = .ok date)
    (hparse : r.parse date = some d)
    (h : TagDelayedAction.processResource r a writer mark resource = .ok resource') :
    (Honours r z here a op mark resource' skew skewHours ↔
      Tags.EndsInColon (r.tags writer) op date before ∧
        SameClocks z here a mark d skew skewHours) ∧
      ∀ (f : MarkedForOp) (other : Resource) (v : Text) (now : Int),
        Items.get (f.tag.getD defaultTag) other.tags = some v → Unparsable r v →
          (TagActionFilter.call r f here z other now = .ok false ↔ Rejectable f other v) :=
  ⟨azureHonoured_iff hop hz' hmsg hdate hparse h, fun _ _ _ _ hv hunparsable =>
    rejected_iff hv hunparsable⟩

/-! ## Marks in UTC -/

/-- A resource type with two actions, and a parser that reads two dates. -/
def vmRuntime : Runtime Text where
  objects := Tags.textObjects
  zones :=
    { names := ["Etc/UTC".toList]
      gettz := fun name => if name = "Etc/UTC".toList then some Tags.utc else none
      lower := fun s => s.map asciiLower
      title := id }
  parse s :=
    if s = "2024/03/02".toList then some (.naive (19784 * day))
    else if s = "2024/03/01".toList then some (.naive (19783 * day)) else none
  registry := ["stop".toList]
  format_ofText := Tags.textObjects_format
  registry_isOpName := Tags.utcRuntime.registry_isOpName
  parse_at s hs := by
    have hne : ∀ t : Text, '@' ∉ t → s ≠ t := fun t ht h => ht (h ▸ hs)
    rw [if_neg (hne _ (by decide)), if_neg (hne _ (by decide))]

/-- Stop the resource, a day later or when it is documented. -/
def stopIn (days : Option ℚ) : MarkForOp := ⟨some "stop".toList, none, none, days, none, none⟩

/-- A resource without tags. -/
def untaggedVm : Resource := ⟨[], none⟩

def vmWithTag (value : Text) : Resource := ⟨[(defaultTag, value)], none⟩

theorem azureMark_utc :
    TagActionFilter.validate vmRuntime (filterFor (stopIn (some 1)) "stop".toList none none) =
        .ok Tags.utc ∧
      Honours vmRuntime Tags.utc Tags.utc (stopIn (some 1)) "stop".toList Tags.evening
        (vmWithTag "Resource does not meet policy: stop@2024/03/02".toList) none none ∧
      TagActionFilter.call vmRuntime (filterFor (stopIn none) "start".toList none none) Tags.utc
        Tags.utc (vmWithTag "owner: stop@now".toList) 0 = .ok false := by
  have hz' : TagDelayedAction.validate vmRuntime (stopIn (some 1)) Tags.utc = .ok Tags.utc := rfl
  have hmsg : (stopIn (some 1)).msg.getD defaultTemplate =
      "Resource does not meet policy: ".toList ++ markFields := by decide +kernel
  have hdate : TagDelayedAction.generateTimestamp Tags.utc (some ((stopIn (some 1)).days.getD 0))
      (some ((stopIn (some 1)).hours.getD 0)) Tags.evening = .ok "2024/03/02".toList := by
    decide +kernel
  have hparse : vmRuntime.parse "2024/03/02".toList = some (.naive (19784 * day)) := rfl
  have hmark : TagDelayedAction.processResource vmRuntime (stopIn (some 1)) Tags.utc Tags.evening
      untaggedVm = .ok (vmWithTag "Resource does not meet policy: stop@2024/03/02".toList) := by
    decide +kernel
  have hiff := @azureMark_iff _ vmRuntime _ _ _ _ _ Tags.utc _ Tags.utc _ _ _ _ none none rfl hz'
    hmsg hdate hparse hmark
  refine ⟨rfl, hiff.1.mpr ⟨?_, ?_⟩, (hiff.2 _ _ _ 0 rfl ?_).mpr ⟨fun _ _ => ?_, ?_⟩⟩
  · exact ⟨"Resource does not meet policy".toList, [' '], by decide +kernel, by decide⟩
  · have hstart : datetime (19784 * day - timedelta ((none : Option ℚ).getD 0)
        ((none : Option ℚ).getD 0)) = .ok (19784 * day) := by decide +kernel
    refine (sameClocks_fixed_iff (fun _ => rfl) (fun _ => rfl) hstart).mpr (Or.inl ?_)
    decide +kernel
  · intro action date hread
    have hmark : readMark "owner: stop@now".toList = .ok (some ("stop".toList, "now".toList)) := by
      decide +kernel
    rw [hmark] at hread
    obtain rfl : "now".toList = date :=
      congrArg Prod.snd (Option.some.inj (Except.ok.inj hread))
    decide +kernel
  · decide +kernel
  · intro date hread
    have hmark : readMark "owner: stop@now".toList = .ok (some ("stop".toList, "now".toList)) := by
      decide +kernel
    rw [hmark] at hread
    have hop : "stop".toList = "start".toList :=
      congrArg Prod.fst (Option.some.inj (Except.ok.inj hread))
    exact absurd hop (by decide)

/-- Without days and hours the mark is for the same day, on which it is matched at once, four days
early; and a date that cannot be read raises. -/
theorem undated_matched :
    (TagDelayedAction.processResource vmRuntime (stopIn none) Tags.utc Tags.evening untaggedVm =
        .ok (vmWithTag "Resource does not meet policy: stop@2024/03/01".toList) ∧
      announced Tags.utc (stopIn none) Tags.evening = 19787 * day ∧
      TagActionFilter.call vmRuntime (filterFor (stopIn none) "stop".toList none none) Tags.utc
        Tags.utc (vmWithTag "Resource does not meet policy: stop@2024/03/01".toList) Tags.evening =
          .ok true ∧
      ¬ Honours vmRuntime Tags.utc Tags.utc (stopIn none) "stop".toList Tags.evening
        (vmWithTag "Resource does not meet policy: stop@2024/03/01".toList) none none) ∧
    TagActionFilter.call vmRuntime (filterFor (stopIn none) "stop".toList none none) Tags.utc
      Tags.utc (vmWithTag "owner: stop@now".toList) 0 = .error .keyError := by
  have hmatched : TagActionFilter.call vmRuntime (filterFor (stopIn none) "stop".toList none none)
      Tags.utc Tags.utc (vmWithTag "Resource does not meet policy: stop@2024/03/01".toList)
        Tags.evening = .ok true := by
    decide +kernel
  have hearly : decide (startDate Tags.utc (stopIn none) Tags.evening none none ≤
      Tags.utc.wall Tags.evening) = false := by decide +kernel
  refine ⟨⟨by decide +kernel, by decide +kernel, hmatched, fun h => ?_⟩, by decide +kernel⟩
  have hanswer := h.matched Tags.evening (le_refl _)
  rw [hmatched, hearly] at hanswer
  cases hanswer

end Custodian.AzureMarks

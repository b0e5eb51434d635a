import Custodian.Filters.ScheduleZone
import Custodian.Filters.TagEscapes

/-!
# Resources on schedule

`Time.process` of `c7n/filters/offhours.py` keeps the resources whose schedule has the present hour.
One parser serves all resources that a filter looks at, and it remembers what it has parsed; the
resources that opt out and those whose schedule cannot be read are written to files.
-/

namespace Custodian.ScheduledHours

open Py
open OffHours ScheduleZone TagEscapes

variable {ζ : Type}

/-! ## The filter -/

/-- What `datetime.now(tz)` tells. -/
structure Moment where
  date : Text
  weekday : Nat
  hour : Nat

structure Resource where
  id : Text
  tags : List (Text × Text)
  labels : Option (Dict Text Text)

structure Filter extends Time where
  tag : Text
  /-- `fallback-schedule` and `fallback_schedule` -/
  fallbacks : Option Text × Option Text
  optOut : Bool
  skipDays : List Text

/-- What a filter remembers from one resource to the next. -/
structure State where
  cache : Cache
  optedOut : List Resource
  parseErrors : List (Text × Text)
  enabledCount : Nat

def Filter.init : State := ⟨∅, [], [], 0⟩

def Filter.fallbackSchedule (f : Filter) : Option Text :=
  (f.fallbacks.1.filter (· ≠ [])).or f.fallbacks.2

/-- `s.strip(c)` for a single character. -/
def stripChar (c : Char) (s : Text) : Text :=
  ((s.dropWhile (· = c)).reverse.dropWhile (· = c)).reverse

def Filter.getTagValue (f : Filter) (z : Zones ζ) (r : Resource) : Option Text :=
  let tagKey := z.lower f.tag
  let found := ((r.tags.find? fun t => z.lower t.1 = tagKey).map Prod.snd).or f.fallbackSchedule
  let found :=
    -- the labels of a resource that has no tag, or one like the fallback
    if found = f.fallbackSchedule then
      ((r.labels.bind (AList.lookup tagKey)).filter (· ≠ [])).or found
    else found
  found.map fun v => stripChar '"' (stripChar '\'' (unescapeTagRestrictions (z.lower v)))

/-- The value that is taken for a resource: in an opt-out mode, the defaults for one without. -/
def Filter.valueOf (f : Filter) (z : Zones ζ) (r : Resource) : Option Text :=
  (f.getTagValue z r).or (if f.optOut then some [] else none)

/-- `match` -/
def Filter.isNow (f : Filter) (now : Moment) (schedule : Schedule) : Except Exn Bool :=
  match schedule.lookup f.timeType.key with
  | none => .ok false
  | some (.times l) => .ok (l.any fun item => now.weekday ∈ item.days ∧ now.hour = item.hour)
  | some (.zone tz) => if tz = [] then .ok false else .error .attributeError

/-- The cache of the parser after a value. -/
def Filter.cached (f : Filter) (cache : Cache) (value : Text) : Cache :=
  if ((rawData (normalize value)).lookup f.timeType.key).isSome then
    (parse f.defaultTz cache (normalize value)).2
  else cache

def Filter.processResourceSchedule (f : Filter) (z : Zones ζ) (clock : ζ → Moment) (st : State)
    (r : Resource) (value : Text) : Except Exn Bool × State :=
  let outcome := f.toTime.processResourceSchedule z st.cache value
  let st := { st with cache := f.cached st.cache value }
  match outcome with
  | .error e => (.error e, st)
  | .ok (.evaluated (some zone) schedule) =>
    (if (clock zone).date ∈ f.skipDays then .ok false else f.isNow (clock zone) schedule, st)
  -- no schedule, or no time zone
  | .ok _ => (.ok false, { st with parseErrors := st.parseErrors ++ [(r.id, normalize value)] })

/-- `__call__` -/
def Filter.call (f : Filter) (z : Zones ζ) (clock : ζ → Moment) (st : State) (r : Resource) :
    Bool × State :=
  match f.valueOf z r with
  | none => (false, st)
  | some value =>
    if value = keyOff then (false, { st with optedOut := st.optedOut ++ [r] })
    else
      let st := { st with enabledCount := st.enabledCount + 1 }
      let (kept, st) := f.processResourceSchedule z clock st r value
      (holds kept, st)

/-- Resources, each with the clocks when the filter comes to it. -/
abbrev Batch (ζ : Type) := List (Resource × (ζ → Moment))

/-- `list(filter(self, resources))` -/
def Filter.filterAll (f : Filter) (z : Zones ζ) : State → Batch ζ → List Resource × State
  | st, [] => ([], st)
  | st, (r, clock) :: rest =>
    let (kept, st) := f.call z clock st r
    let (others, st) := f.filterAll z st rest
    (if kept then r :: others else others, st)

/-- What comes of a batch: the resources that are kept, and the files that are written. -/
structure Output where
  kept : List Resource
  parseErrors : Option (List (Text × Text))
  optedOut : Option (List Resource)

def file {α : Type} (l : List α) : Option (List α) := if l.isEmpty then none else some l

/-- `process`, when there is a directory for the logs. -/
def Filter.process (f : Filter) (z : Zones ζ) (st : State) (batch : Batch ζ) : Output × State :=
  let (kept, st) := f.filterAll z st batch
  (⟨kept, file st.parseErrors, file st.optedOut⟩, { st with parseErrors := [], optedOut := [] })

/-- The state after some batches. -/
def Filter.after (f : Filter) (z : Zones ζ) (history : List (Batch ζ)) : State :=
  history.foldl (fun st batch => (f.process z st batch).2) Filter.init

/-! ## What a resource asks for -/

/-- The time zone and the hours that a value asks for: its own ones for the filter's time type,
in the language that the parser accepts, or the default ones in its time zone. -/
inductive Asks (f : Filter) (value : Text) : Text → List Entry → Prop
  | own {schedule : Schedule} {tz : Text} {l : List Entry} :
      valuesOf f.timeType.key (components value) ≠ [] →
      IsSchedule IsTimes f.defaultTz (normalize value) schedule →
      schedule.lookup f.timeType.key = some (.times l) →
      schedule.lookup keyTz = some (.zone tz) → Asks f value tz l
  | defaults : keysAreValid value = true → valuesOf f.timeType.key (components value) = [] →
      Asks f value ((tzComponents value).getLast?.getD f.defaultTz) [⟨f.defaultDays, f.hour⟩]

/-- It is one of the hours in the time zone, on a day that is not skipped. -/
def OnTime (f : Filter) (z : Zones ζ) (clock : ζ → Moment) (tz : Text) (l : List Entry) : Prop :=
  ∃ zone, z.getTz tz = some zone ∧ (clock zone).date ∉ f.skipDays ∧
    ∃ t ∈ l, (clock zone).weekday ∈ t.days ∧ (clock zone).hour = t.hour

/-! ## The cache -/

/-- What becomes of a resource when nothing was parsed before. -/
def Filter.alone (f : Filter) (z : Zones ζ) (e : Resource × (ζ → Moment)) : Bool × State :=
  f.call z e.2 Filter.init e.1

theorem processResourceSchedule_fresh {f : Filter} {cache : Cache}
    (hcache : Faithful f.defaultTz cache) (z : Zones ζ) (value : Text) :
    f.toTime.processResourceSchedule z cache value =
      f.toTime.processResourceSchedule z ∅ value := by
  have hempty : Faithful f.defaultTz (∅ : Cache) := faithful_cacheAfter []
  have hschedule : f.toTime.schedule cache value = f.toTime.schedule ∅ value := by
    rw [Time.schedule, Time.schedule, parse_of_faithful hcache, parse_of_faithful hempty]
  rw [Time.processResourceSchedule, Time.processResourceSchedule, hschedule]

theorem faithful_cached {f : Filter} {cache : Cache} (hcache : Faithful f.defaultTz cache)
    (value : Text) : Faithful f.defaultTz (f.cached cache value) := by
  rw [Filter.cached]
  split
  · exact faithful_parse hcache _
  · exact hcache

theorem call_spec {f : Filter} {st : State} (hcache : Faithful f.defaultTz st.cache) (z : Zones ζ)
    (e : Resource × (ζ → Moment)) :
    (f.call z e.2 st e.1).1 = (f.alone z e).1 ∧
      Faithful f.defaultTz (f.call z e.2 st e.1).2.cache ∧
      (f.call z e.2 st e.1).2.parseErrors = st.parseErrors ++ (f.alone z e).2.parseErrors ∧
      (f.call z e.2 st e.1).2.optedOut = st.optedOut ++ (f.alone z e).2.optedOut := by
  rw [Filter.alone, Filter.call, Filter.call]
  cases f.valueOf z e.1 with
  | none => simp [Filter.init, hcache]
  | some value =>
    by_cases hoff : value = keyOff
    · simp [hoff, Filter.init, hcache]
    · have hfresh := processResourceSchedule_fresh hcache z value
      have hcached := faithful_cached hcache value
      simp only [if_neg hoff, Filter.processResourceSchedule, Filter.init, hfresh]
      rcases f.toTime.processResourceSchedule z ∅ value with e | _ | ⟨_ | zone, schedule⟩ <;>
        simp [hcached]

theorem filterAll_spec (f : Filter) (z : Zones ζ) (batch : Batch ζ) {st : State}
    (hcache : Faithful f.defaultTz st.cache) :
    (f.filterAll z st batch).1 = (batch.filter fun e => (f.alone z e).1).map Prod.fst ∧
      Faithful f.defaultTz (f.filterAll z st batch).2.cache ∧
      (f.filterAll z st batch).2.parseErrors =
        st.parseErrors ++ batch.flatMap (fun e => (f.alone z e).2.parseErrors) ∧
      (f.filterAll z st batch).2.optedOut =
        st.optedOut ++ batch.flatMap (fun e => (f.alone z e).2.optedOut) := by
  induction batch generalizing st with
  | nil => exact ⟨rfl, hcache, (List.append_nil _).symm, (List.append_nil _).symm⟩
  | cons e batch ih =>
    obtain ⟨hkept, hcall, herrors, hopted⟩ := call_spec hcache z e
    obtain ⟨ihkept, ihcache, iherrors, ihopted⟩ := ih hcall
    refine ⟨?_, ihcache, ?_, ?_⟩
    · rw [Filter.filterAll]
      simp only [ihkept, hkept, List.filter_cons]
      split <;> rfl
    · rw [Filter.filterAll]
      simp only [iherrors, herrors, List.append_assoc, List.flatMap_cons]
    · rw [Filter.filterAll]
      simp only [ihopted, hopted, List.append_assoc, List.flatMap_cons]

theorem after_spec (f : Filter) (z : Zones ζ) (history : List (Batch ζ)) :
    Faithful f.defaultTz (f.after z history).cache ∧ (f.after z history).parseErrors = [] ∧
      (f.after z history).optedOut = [] := by
  induction history using List.reverseRecOn with
  | nil => exact ⟨faithful_cacheAfter [], rfl, rfl⟩
  | append_singleton history batch ih =>
    rw [Filter.after, List.foldl_append]
    exact ⟨(filterAll_spec f z batch ih.1).2.1, rfl, rfl⟩

/-- **One parser for all.**  Whatever batches a filter has processed before, and whatever its parser
remembers of them, a batch is decided and reported resource by resource, as by a filter that sees
each resource first: what is kept stays in order, and the files name the resources of this batch
that cannot be read or have opted out, and none of another. -/
theorem process_eq_alone (f : Filter) (z : Zones ζ) (history : List (Batch ζ)) (batch : Batch ζ) :
    (f.process z (f.after z history) batch).1 =
      { kept := (batch.filter fun e => (f.alone z e).1).map Prod.fst
        parseErrors := file (batch.flatMap fun e => (f.alone z e).2.parseErrors)
        optedOut := file (batch.flatMap fun e => (f.alone z e).2.optedOut) } := by
  obtain ⟨hcache, herrors, hopted⟩ := after_spec f z history
  obtain ⟨hkept, -, hbatchErrors, hbatchOpted⟩ := filterAll_spec f z batch hcache
  rw [herrors, List.nil_append] at hbatchErrors
  rw [hopted, List.nil_append] at hbatchOpted
  rw [← hkept, ← hbatchErrors, ← hbatchOpted]
  rfl

/-! ## Kept resources -/

theorem schedule_of_defaults {f : Filter} (cache : Cache) {value : Text}
    (hkeys : keysAreValid value = true) (h : valuesOf f.timeType.key (components value) = []) :
    ∃ schedule, f.toTime.schedule cache value = .ok (some schedule) ∧
      schedule.lookup keyTz = some (.zone ((tzComponents value).getLast?.getD f.defaultTz)) ∧
      schedule.lookup f.timeType.key = some (.times [⟨f.defaultDays, f.hour⟩]) := by
  have hne : f.timeType.key ≠ keyTz := by cases f.timeType <;> decide
  have hown : f.getDefaultSchedule.lookup f.timeType.key =
      some (.times [⟨f.defaultDays, f.hour⟩]) := by
    rw [Time.getDefaultSchedule, Dict.lookup_ofPairs,
      List.filter_cons_of_neg (by simpa using hne.symm), List.filter_cons_of_pos (by simp)]
    rfl
  rw [Time.schedule]
  simp only [rawData_normalize, keysAreValid_normalize, lookup_rawData, h, List.getLast?_nil,
    Option.isSome_none, Bool.false_eq_true, if_false, hkeys, if_true]
  rw [show valuesOf keyTz (components value) = tzComponents value from rfl]
  cases (tzComponents value).getLast? with
  | none => exact ⟨_, rfl, lookup_getDefaultSchedule _, hown⟩
  | some tz =>
    exact ⟨_, rfl, AList.lookup_insert _, by rw [AList.lookup_insert_ne hne, hown]⟩

theorem holds_eq_true {x : Except Exn Bool} : holds x = true ↔ x = .ok true := by
  cases x <;> simp [holds, Except.toOption]

theorem isNow_eq_true {f : Filter} {now : Moment} {schedule : Schedule} :
    f.isNow now schedule = .ok true ↔ ∃ l, schedule.lookup f.timeType.key = some (.times l) ∧
      ∃ t ∈ l, now.weekday ∈ t.days ∧ now.hour = t.hour := by
  rw [Filter.isNow]
  rcases schedule.lookup f.timeType.key with _ | l | tz
  · simp
  · simp
  · by_cases htz : tz = [] <;> simp [htz]

theorem holds_evaluated {f : Filter} {z : Zones ζ} {clock : ζ → Moment} {st : State} {r : Resource}
    {value tz : Text} {schedule : Schedule}
    (h : f.toTime.schedule st.cache value = .ok (some schedule))
    (htz : schedule.lookup keyTz = some (.zone tz)) :
    holds (f.processResourceSchedule z clock st r value).1 = true ↔
      ∃ l, schedule.lookup f.timeType.key = some (.times l) ∧ OnTime f z clock tz l := by
  have hout : f.toTime.processResourceSchedule z st.cache value =
      .ok (.evaluated (z.getTz tz) schedule) :=
    ScheduleZone.processResourceSchedule_eq h (by rw [tzOf, htz])
  rw [Filter.processResourceSchedule, hout, holds_eq_true]
  cases hzone : z.getTz tz with
  | none => simp [OnTime, hzone]
  | some zone =>
    by_cases hskip : (clock zone).date ∈ f.skipDays
    · simp [OnTime, hzone, hskip]
    · simp only [OnTime, hzone, Option.some.injEq, exists_eq_left', hskip,
        not_false_eq_true, true_and]
      exact isNow_eq_true

theorem holds_unread {f : Filter} {z : Zones ζ} {clock : ζ → Moment} {st : State} {r : Resource}
    {value : Text} (h : ∀ schedule, f.toTime.schedule st.cache value ≠ .ok (some schedule)) :
    holds (f.processResourceSchedule z clock st r value).1 = false := by
  rw [Filter.processResourceSchedule, Time.processResourceSchedule]
  rcases hs : f.toTime.schedule st.cache value with e | _ | schedule
  · rfl
  · rfl
  · exact absurd hs (h schedule)

theorem holds_iff_asks {f : Filter} {z : Zones ζ} {clock : ζ → Moment} {st : State} {r : Resource}
    {value : Text} (hcache : Faithful f.defaultTz st.cache) (hplain : Plain (normalize value)) :
    holds (f.processResourceSchedule z clock st r value).1 = true ↔
      ∃ tz l, Asks f value tz l ∧ OnTime f z clock tz l := by
  by_cases hkeys : keysAreValid value = true
  swap
  · rw [holds_unread fun schedule hs => ?_]
    · refine iff_of_false Bool.false_ne_true ?_
      rintro ⟨tz, l, hasks, -⟩
      cases hasks with
      | own _ hs =>
        obtain ⟨entries, hentries, -⟩ := hs
        exact hkeys ((keysAreValid_normalize value).symm.trans (keysAreValid_of_components hentries))
      | defaults h => exact hkeys h
    · rw [schedule_of_invalid_keys hcache hkeys] at hs
      cases hs
  by_cases hown : valuesOf f.timeType.key (components value) = []
  · obtain ⟨schedule, hs, htz, htimes⟩ := schedule_of_defaults st.cache hkeys hown
    rw [holds_evaluated hs htz]
    constructor
    · rintro ⟨l, hl, hon⟩
      cases htimes.symm.trans hl
      exact ⟨_, _, .defaults hkeys hown, hon⟩
    · rintro ⟨tz, l, hasks, hon⟩
      cases hasks with
      | own h => exact absurd hown h
      | defaults => exact ⟨_, htimes, hon⟩
  · have hread := schedule_of_own hcache hown
    cases hparse : parseFresh f.defaultTz (normalize value) with
    | error e =>
      rw [holds_unread fun schedule hs => ?_]
      · refine iff_of_false Bool.false_ne_true ?_
        rintro ⟨tz, l, hasks, -⟩
        cases hasks with
        | own _ hs =>
          rw [(parseFresh_eq_ok hplain).mpr hs] at hparse
          cases hparse
        | defaults _ h => exact hown h
      · rw [hread, hparse] at hs
        cases e <;> cases hs
    | ok schedule =>
      have hs : f.toTime.schedule st.cache value = .ok (some schedule) := by rw [hread, hparse]; rfl
      have hlang := (parseFresh_eq_ok hplain).mp hparse
      obtain ⟨tz, htz⟩ : ∃ tz, schedule.lookup keyTz = some (.zone tz) := by
        have h := tzOf_parse hparse
        rw [tzOf] at h
        rcases hz : schedule.lookup keyTz with _ | l | tz
        · rw [hz] at h; cases h
        · rw [hz] at h; cases h
        · exact ⟨tz, rfl⟩
      rw [holds_evaluated hs htz]
      constructor
      · rintro ⟨l, hl, hon⟩
        exact ⟨tz, l, .own hown hlang hl htz, hon⟩
      · rintro ⟨tz', l, hasks, hon⟩
        cases hasks with
        | own _ hs' hl htz' =>
          rw [(parseFresh_eq_ok hplain).mpr hs', Except.ok.injEq] at hparse
          subst hparse
          cases htz.symm.trans htz'
          exact ⟨l, hl, hon⟩
        | defaults _ h => exact absurd h hown

theorem alone_iff {f : Filter} {z : Zones ζ} {r : Resource} {clock : ζ → Moment}
    (hplain : ∀ value ∈ f.valueOf z r, Plain (normalize value)) :
    (f.alone z (r, clock)).1 = true ↔ ∃ value, f.valueOf z r = some value ∧ value ≠ keyOff ∧
      ∃ tz l, Asks f value tz l ∧ OnTime f z clock tz l := by
  rw [Filter.alone, Filter.call]
  cases hvalue : f.valueOf z r with
  | none => simp
  | some value =>
    by_cases hoff : value = keyOff
    · simp [hoff]
    · simp only [Option.some.injEq, exists_eq_left', hoff, ne_eq, not_false_eq_true, true_and]
      exact holds_iff_asks (faithful_cacheAfter []) (hplain value hvalue)

/-- **On schedule.**  Whatever was processed before, a batch of resources with plain values keeps a
resource if and only if its tag, its label, the fallback or the opt-out mode gives it a value other
than `off`, and that asks for the weekday and the hour it is in the time zone that the value is
taken to name, on a day that is not skipped. -/
theorem mem_kept_iff (f : Filter) (z : Zones ζ) (history : List (Batch ζ)) (batch : Batch ζ)
    (hplain : ∀ e ∈ batch, ∀ value ∈ f.valueOf z e.1, Plain (normalize value)) (r : Resource) :
    r ∈ (f.process z (f.after z history) batch).1.kept ↔
      ∃ clock, (r, clock) ∈ batch ∧ ∃ value, f.valueOf z r = some value ∧ value ≠ keyOff ∧
        ∃ tz l, Asks f value tz l ∧ OnTime f z clock tz l := by
  have hkept := (filterAll_spec f z batch (after_spec f z history).1).1
  rw [show (f.process z (f.after z history) batch).1.kept =
    (f.filterAll z (f.after z history) batch).1 from rfl, hkept, List.mem_map]
  constructor
  · rintro ⟨⟨r, clock⟩, he, rfl⟩
    obtain ⟨he, halone⟩ := List.mem_filter.mp he
    exact ⟨clock, he, (alone_iff (hplain _ he)).mp halone⟩
  · rintro ⟨clock, he, h⟩
    exact ⟨(r, clock), List.mem_filter.mpr ⟨he, (alone_iff (hplain _ he)).mpr h⟩, rfl⟩

def eveningFilter : Filter where
  toTime := offAtSeven
  tag := "maid_offhours".toList
  fallbacks := (none, none)
  optOut := true
  skipDays := ["2017-12-25".toList]

def sundayEvening : Text → Moment := fun _ => ⟨"2017-12-24".toList, 6, 18⟩

/-- It has its own hour for Sundays. -/
def weekendServer : Resource :=
  ⟨"i-1".toList, [("Maid_Offhours".toList, "off=[(m-f,19),(u,18)];tz=pt;".toList)], none⟩

/-- It has the default hours, on weekdays. -/
def untaggedServer : Resource := ⟨"i-2".toList, [], none⟩

def serverBatch : Batch Text :=
  [(weekendServer, sundayEvening), (untaggedServer, sundayEvening)]

theorem weekendServer_on_time : ∃ clock, (weekendServer, clock) ∈ serverBatch ∧
    ∃ value, eveningFilter.valueOf hostZones weekendServer = some value ∧ value ≠ keyOff ∧
      ∃ tz l, Asks eveningFilter value tz l ∧ OnTime eveningFilter hostZones clock tz l := by
  have hplain : ∀ e ∈ serverBatch, ∀ value ∈ eveningFilter.valueOf hostZones e.1,
      Plain (normalize value) := by decide +kernel
  have hkept : (eveningFilter.process hostZones (eveningFilter.after hostZones [serverBatch])
      serverBatch).1.kept = [weekendServer] := rfl
  refine (mem_kept_iff eveningFilter hostZones [serverBatch] serverBatch hplain weekendServer).mp ?_
  rw [hkept]
  exact List.mem_singleton_self _

end Custodian.ScheduledHours

import Custodian.Filters.OffHours
import Custodian.Lib.Items

/-!
# The time zone of a schedule

`process_resource_schedule` of `c7n/filters/offhours.py` reads the schedule of a tag value with the
parser when the value has one for the filter's own time type; otherwise it takes the default
schedule, with the time zone of the value.  The parser puts the default in the place of a blank time
zone, the other path does not.
-/

namespace Custodian.ScheduleZone

open Py
open OffHours

/-! ## Time zones -/

/-- `TZ_ALIASES`, before the names that are not in title case are added. -/
def tzAliases : List (Text × Text) :=
  [("pdt", "America/Los_Angeles"), ("pt", "America/Los_Angeles"), ("pst", "America/Los_Angeles"),
   ("ast", "America/Phoenix"), ("at", "America/Phoenix"), ("est", "America/New_York"),
   ("edt", "America/New_York"), ("et", "America/New_York"), ("cst", "America/Chicago"),
   ("cdt", "America/Chicago"), ("ct", "America/Chicago"), ("mst", "America/Denver"),
   ("mdt", "America/Denver"), ("mt", "America/Denver"), ("gmt", "Etc/GMT"), ("gt", "Etc/GMT"),
   ("bst", "Europe/London"), ("ist", "Europe/Dublin"), ("cet", "Europe/Berlin"),
   ("it", "Asia/Kolkata"), ("jst", "Asia/Tokyo"), ("kst", "Asia/Seoul"),
   ("sgt", "Asia/Singapore"), ("aet", "Australia/Sydney"), ("brt", "America/Sao_Paulo"),
   ("nzst", "Pacific/Auckland"), ("utc", "Etc/UTC")].map fun e => (e.1.toList, e.2.toList)

/-- The database of `dateutil`, and the case mappings of texts. -/
structure Zones (ζ : Type) where
  names : List Text
  gettz : Text → Option ζ
  lower : Text → Text
  title : Text → Text

variable {ζ : Type}

/-- `non_title_case_zones` -/
def Zones.nonTitleCase (z : Zones ζ) : Dict Text Text :=
  Dict.ofPairs ((z.names.filter fun name => z.title name ≠ name &&
    (Items.get (z.lower name) tzAliases).isNone).map fun name => (z.lower name, name))

/-- `TZ_ALIASES.get(tz)` -/
def Zones.aliasOf (z : Zones ζ) (tz : Text) : Option Text :=
  (z.nonTitleCase.lookup tz).or (Items.get tz tzAliases)

def Zones.getTz (z : Zones ζ) (tz : Text) : Option ζ :=
  match z.aliasOf tz with
  | some found => if found ≠ [] then z.gettz found else z.gettz (z.title tz)
  | none => z.gettz (z.title tz)

/-! ## The filter -/

inductive TimeType where
  | on
  | off
  deriving DecidableEq, Repr

def TimeType.key : TimeType → Text
  | .on => keyOn
  | .off => keyOff

/-- What an `onhour` or `offhour` filter is set to. -/
structure Time where
  timeType : TimeType
  defaultTz : Text
  hour : Nat
  weekends : Bool
  weekendsOnly : Bool

def Time.defaultDays (f : Time) : List Nat :=
  if f.weekendsOnly then
    match f.timeType with
    | .on => [0]
    | .off => [4]
  else if f.weekends then List.range 5
  else List.range 7

def Time.getDefaultSchedule (f : Time) : Schedule :=
  Dict.ofPairs [(keyTz, .zone f.defaultTz), (f.timeType.key, .times [⟨f.defaultDays, f.hour⟩])]

/-- `';'.join(filter(None, value.split(';')))` -/
def normalize (value : Text) : Text := [';'].intercalate ((value.splitOn ';').filter (· ≠ []))

/-- The schedule of a tag value; the cache is that of the parser. -/
def Time.schedule (f : Time) (cache : Cache) (value : Text) : Except Exn (Option Schedule) :=
  let value := normalize value
  if ((rawData value).lookup f.timeType.key).isSome then (parse f.defaultTz cache value).1
  else if keysAreValid value then
    -- respect timezone from tag
    match (rawData value).lookup keyTz with
    | some tz => .ok (some (f.getDefaultSchedule.insert keyTz (.zone tz)))
    | none => .ok (some f.getDefaultSchedule)
  else .ok none

/-- `schedule['tz']`, where a list is no key of `TZ_ALIASES`. -/
def tzOf (schedule : Schedule) : Except Exn Text :=
  match schedule.lookup keyTz with
  | some (.zone tz) => .ok tz
  | some (.times _) => .error .typeError
  | none => .error .keyError

/-- What becomes of a resource: no schedule, or one in a time zone, if that is found. -/
inductive Outcome (ζ : Type) where
  | invalid
  | evaluated (zone : Option ζ) (schedule : Schedule)

def Time.processResourceSchedule (f : Time) (z : Zones ζ) (cache : Cache) (value : Text) :
    Except Exn (Outcome ζ) := do
  match ← f.schedule cache value with
  | none => return .invalid
  | some schedule => return .evaluated (z.getTz (← tzOf schedule)) schedule

/-! ## The time zone that is asked for -/

/-- The parts with one `=` between separators. -/
def components (value : Text) : List (Text × Text) :=
  ((value.splitOn ' ').flatMap (List.splitOn ';')).filterMap (splitTwo '=')

/-- The values with a key. -/
def valuesOf (key : Text) (l : List (Text × Text)) : List Text :=
  (l.filter fun e => e.1 = key).map Prod.snd

def tzComponents (value : Text) : List Text := valuesOf keyTz (components value)

/-- The last time zone of a value that is not blank, or the default. -/
def Time.namedTz (f : Time) (value : Text) : Text :=
  (((tzComponents value).filter (· ≠ [])).getLast?).getD f.defaultTz

/-- A schedule is evaluated in the time zone that the value names. -/
def Zoned (z : Zones ζ) (f : Time) (cache : Cache) (value : Text) : Prop :=
  ∀ zone schedule, f.processResourceSchedule z cache value = .ok (.evaluated zone schedule) →
    zone = z.getTz (f.namedTz value)

/-- The last of the values, or the default when it is blank. -/
def orDefault (defaultTz : Text) (values : List Text) : Text :=
  match values.getLast? with
  | some tz => if tz = [] then defaultTz else tz
  | none => defaultTz

/-- The parts between semicolons only. -/
def pieces (value : Text) : List (Text × Text) := (value.splitOn ';').filterMap (splitTwo '=')

/-- Where the two ways to split a value agree, and no blank time zone is taken. -/
def Agrees (z : Zones ζ) (f : Time) (value : Text) : Prop :=
  keysAreValid value = true →
    if valuesOf f.timeType.key (components value) ≠ [] then
      (∃ schedule, parseFresh f.defaultTz (normalize value) = .ok schedule) →
        z.getTz (orDefault f.defaultTz (valuesOf keyTz (pieces value))) = z.getTz (f.namedTz value)
    else (tzComponents value).getLast? = some [] → z.getTz [] = z.getTz (f.namedTz value)

/-! ## Normalized values -/

theorem splitTwo_nil : splitTwo '=' [] = none := by
  rw [splitTwo, List.splitOn_nil]

theorem flatMap_filter_ne_nil {β : Type} (g : Text → List β) (hg : g [] = []) (l : List Text) :
    (l.filter (· ≠ [])).flatMap g = l.flatMap g := by
  induction l with
  | nil => rfl
  | cons p l ih =>
    by_cases hp : p = []
    · rw [hp, List.filter_cons_of_neg (by simp), ih, List.flatMap_cons, hg, List.nil_append]
    · rw [List.filter_cons_of_pos (by simpa using hp), List.flatMap_cons, ih, List.flatMap_cons]

theorem flatMap_normalize {β : Type} (g : Text → List β) (hg : g [] = []) (value : Text) :
    ((normalize value).splitOn ';').flatMap g = (value.splitOn ';').flatMap g := by
  have hfilter := flatMap_filter_ne_nil g hg (value.splitOn ';')
  by_cases h : (value.splitOn ';').filter (· ≠ []) = []
  · rw [normalize, h]
    rw [h] at hfilter
    rw [← hfilter]
    simp [hg]
  · rw [normalize, List.splitOn_intercalate ';'
      (fun p hp => not_mem_of_mem_splitOn (List.mem_of_mem_filter hp)) h, hfilter]

theorem pieces_normalize (value : Text) : pieces (normalize value) = pieces value := by
  have hflat : ∀ v : Text, pieces v = (v.splitOn ';').flatMap fun p => (splitTwo '=' p).toList :=
    fun v => List.filterMap_eq_flatMap_toList ..
  rw [hflat, hflat]
  exact flatMap_normalize _ (by rw [splitTwo_nil]; rfl) value

theorem components_normalize (value : Text) : components (normalize value) = components value := by
  have hflat : ∀ v : Text, components v =
      (v.splitOn ';').flatMap fun p => (p.splitOn ' ').filterMap (splitTwo '=') := by
    intro v
    rw [components, flatMap_splitOn_comm, List.filterMap_flatMap]
  rw [hflat, hflat]
  refine flatMap_normalize _ ?_ value
  rw [List.splitOn_nil, List.filterMap_cons_none splitTwo_nil, List.filterMap_nil]

theorem rawData_normalize (value : Text) : rawData (normalize value) = rawData value :=
  congrArg Dict.ofPairs (components_normalize value)

theorem keysAreValid_normalize (value : Text) :
    keysAreValid (normalize value) = keysAreValid value := by
  rw [keysAreValid, keysAreValid, rawData_normalize]

theorem lookup_rawData (value key : Text) :
    (rawData value).lookup key = (valuesOf key (components value)).getLast? :=
  Dict.lookup_ofPairs _ _

/-! ## The parser -/

theorem zones_of_parsePiece {ps : List Text} {entries : List (Text × Value)}
    (h : List.Forall₂ (fun piece e => parsePiece piece = .ok e) ps entries) :
    (entries.filter fun e => e.1 = keyTz).map Prod.snd =
      (valuesOf keyTz (ps.filterMap (splitTwo '='))).map .zone := by
  induction h with
  | nil => rfl
  | @cons piece e ps entries hpiece _ ih =>
    obtain ⟨key, value, hkv, ⟨rfl, rfl⟩ | ⟨hne, l, -, rfl⟩⟩ := parsePiece_eq_ok.mp hpiece
    · rw [List.filterMap_cons_some hkv, valuesOf, List.filter_cons_of_pos (by simp),
        List.filter_cons_of_pos (by simp), List.map_cons, List.map_cons, List.map_cons, ih, valuesOf]
    · rw [List.filterMap_cons_some hkv, valuesOf, List.filter_cons_of_neg (by simpa using hne),
        List.filter_cons_of_neg (by simpa using hne), ih, valuesOf]

theorem tzOf_withZone (defaultTz : Text) (schedule : Schedule) {values : List Text}
    (h : schedule.lookup keyTz = (values.map Value.zone).getLast?) :
    tzOf (withZone defaultTz schedule) = .ok (orDefault defaultTz values) := by
  rw [List.getLast?_map] at h
  cases hlast : values.getLast? with
  | none =>
    rw [hlast, Option.map_none] at h
    simp only [orDefault, hlast, withZone, h, Option.elim_none, if_true]
    rw [tzOf, AList.lookup_insert]
  | some tz =>
    rw [hlast, Option.map_some] at h
    simp only [orDefault, hlast, withZone, h, Option.elim_some, Value.isBlank, decide_eq_true_eq]
    split
    · rw [tzOf, AList.lookup_insert]
    · rw [tzOf, h]

theorem tzOf_parse {defaultTz value : Text} {schedule : Schedule}
    (h : parseFresh defaultTz value = .ok schedule) :
    tzOf schedule = .ok (orDefault defaultTz (valuesOf keyTz (pieces value))) := by
  rw [parseFresh] at h
  split at h
  · simp only [bind_eq_ok, pure_eq_ok, mapM_eq_ok] at h
    obtain ⟨entries, hentries, rfl⟩ := h
    apply tzOf_withZone
    rw [Dict.lookup_ofPairs, zones_of_parsePiece hentries, pieces]
  · cases h

/-! ## The default schedule -/

theorem lookup_getDefaultSchedule (f : Time) :
    f.getDefaultSchedule.lookup keyTz = some (.zone f.defaultTz) := by
  have hne : f.timeType.key ≠ keyTz := by cases f.timeType <;> decide
  rw [Time.getDefaultSchedule, Dict.lookup_ofPairs, List.filter_cons_of_pos (by simp),
    List.filter_cons_of_neg (by simpa using hne)]
  rfl

theorem tzOf_raw {f : Time} (cache : Cache) {value : Text} (hkeys : keysAreValid value = true)
    (h : valuesOf f.timeType.key (components value) = []) :
    ∃ schedule, f.schedule cache value = .ok (some schedule) ∧
      tzOf schedule = .ok ((tzComponents value).getLast?.getD f.defaultTz) := by
  rw [Time.schedule]
  simp only [rawData_normalize, keysAreValid_normalize, lookup_rawData, h, List.getLast?_nil,
    Option.isSome_none, Bool.false_eq_true, if_false, hkeys, if_true]
  rw [show valuesOf keyTz (components value) = tzComponents value from rfl]
  cases (tzComponents value).getLast? with
  | none => exact ⟨_, rfl, by rw [tzOf, lookup_getDefaultSchedule, Option.getD_none]⟩
  | some tz => exact ⟨_, rfl, by rw [tzOf, AList.lookup_insert, Option.getD_some]⟩

/-! ## The time zone of a schedule -/

theorem processResourceSchedule_eq {f : Time} {z : Zones ζ} {cache : Cache} {value tz : Text}
    {schedule : Schedule} (h : f.schedule cache value = .ok (some schedule))
    (htz : tzOf schedule = .ok tz) :
    f.processResourceSchedule z cache value = .ok (.evaluated (z.getTz tz) schedule) := by
  rw [Time.processResourceSchedule, h]
  show (tzOf schedule >>= fun tz => (pure (Outcome.evaluated (z.getTz tz) schedule) :
    Except Exn (Outcome ζ))) = _
  rw [htz]
  rfl

theorem zoned_iff_of_schedule {f : Time} {z : Zones ζ} {cache : Cache} {value tz : Text}
    {schedule : Schedule} (h : f.schedule cache value = .ok (some schedule))
    (htz : tzOf schedule = .ok tz) :
    Zoned z f cache value ↔ z.getTz tz = z.getTz (f.namedTz value) := by
  rw [Zoned, processResourceSchedule_eq h htz]
  constructor
  · exact fun hall => hall _ _ rfl
  · intro heq zone schedule' hout
    cases hout
    exact heq

theorem zoned_of_no_schedule {f : Time} {z : Zones ζ} {cache : Cache} {value : Text}
    (h : ∀ schedule, f.schedule cache value ≠ .ok (some schedule)) : Zoned z f cache value := by
  intro zone schedule hout
  rw [Time.processResourceSchedule, bind_eq_ok] at hout
  obtain ⟨result, hresult, hout⟩ := hout
  cases result with
  | none => cases hout
  | some schedule' => exact absurd hresult (h schedule')

theorem namedTz_of_last {f : Time} {value : Text} (h : (tzComponents value).getLast? ≠ some []) :
    (tzComponents value).getLast?.getD f.defaultTz = f.namedTz value := by
  rw [Time.namedTz]
  cases hlast : (tzComponents value).getLast? with
  | none => rw [List.getLast?_eq_none_iff.mp hlast]; rfl
  | some tz =>
    obtain ⟨front, hfront⟩ := List.getLast?_eq_some_iff.mp hlast
    have htz : tz ≠ [] := fun he => h (he ▸ hlast)
    rw [hfront, List.filter_append, List.filter_cons_of_pos (by simpa using htz), List.filter_nil,
      List.getLast?_concat]

theorem schedule_of_own {f : Time} {cache : Cache} (hcache : Faithful f.defaultTz cache)
    {value : Text} (h : valuesOf f.timeType.key (components value) ≠ []) :
    f.schedule cache value = returned (parseFresh f.defaultTz (normalize value)) := by
  have hsome : (valuesOf f.timeType.key (components value)).getLast?.isSome = true := by
    rwa [List.getLast?_isSome]
  rw [Time.schedule, if_pos (by rw [rawData_normalize, lookup_rawData]; exact hsome),
    parse_of_faithful hcache]

theorem schedule_of_invalid_keys {f : Time} {cache : Cache} (hcache : Faithful f.defaultTz cache)
    {value : Text} (h : keysAreValid value ≠ true) : f.schedule cache value = .ok none := by
  have hkeys : keysAreValid (normalize value) ≠ true := by rwa [keysAreValid_normalize]
  rw [Time.schedule]
  simp only [if_neg hkeys]
  split
  · rw [parse_of_faithful hcache, parseFresh, if_neg hkeys]
    rfl
  · rfl

/-- When a schedule is evaluated in the time zone of the value, or the default. -/
theorem zoned_iff (z : Zones ζ) (f : Time) (history : List Text) (value : Text) :
    Zoned z f (cacheAfter f.defaultTz history) value ↔ Agrees z f value := by
  have hcache : Faithful f.defaultTz (cacheAfter f.defaultTz history) := faithful_cacheAfter history
  rw [Agrees]
  by_cases hkeys : keysAreValid value = true
  swap
  · refine iff_of_true (zoned_of_no_schedule fun schedule hs => ?_) fun h => absurd h hkeys
    rw [schedule_of_invalid_keys hcache hkeys] at hs
    cases hs
  simp only [hkeys, true_implies]
  by_cases hown : valuesOf f.timeType.key (components value) = []
  · rw [if_neg (not_not.mpr hown)]
    obtain ⟨schedule, hs, htz⟩ := tzOf_raw (cacheAfter f.defaultTz history) hkeys hown
    rw [zoned_iff_of_schedule hs htz]
    by_cases hlast : (tzComponents value).getLast? = some []
    · rw [hlast, Option.getD_some]
      simp
    · rw [namedTz_of_last hlast]
      simp [hlast]
  · rw [if_pos hown]
    cases hparse : parseFresh f.defaultTz (normalize value) with
    | error e =>
      refine iff_of_true (zoned_of_no_schedule fun schedule hs => ?_) fun h => ?_
      · rw [schedule_of_own hcache hown, hparse] at hs
        cases e <;> cases hs
      · obtain ⟨schedule, hs⟩ := h
        cases hs
    | ok schedule =>
      have hs : f.schedule (cacheAfter f.defaultTz history) value = .ok (some schedule) := by
        rw [schedule_of_own hcache hown, hparse]
        rfl
      rw [zoned_iff_of_schedule hs (tzOf_parse hparse), pieces_normalize]
      simp

/-! ## A blank time zone -/

def offAtSeven : Time := ⟨.off, "et".toList, 19, true, false⟩

/-- Without a name, `gettz` gives the zone of the host. -/
def hostZones : Zones Text where
  names := ["America/New_York".toList]
  gettz := fun name => some (if name = [] then "localtime".toList else name)
  lower := fun s => s.map Char.toLower
  title := id

/-- The tag has a time for the other filter only, and no time zone. -/
theorem blank_not_zoned : ¬ Zoned hostZones offAtSeven (cacheAfter offAtSeven.defaultTz [])
    "on=(m-f,8);tz=".toList := by
  have hrun : ∃ schedule, offAtSeven.processResourceSchedule hostZones
      (cacheAfter offAtSeven.defaultTz []) "on=(m-f,8);tz=".toList =
      .ok (.evaluated (some "localtime".toList) schedule) := ⟨_, rfl⟩
  obtain ⟨schedule, hschedule⟩ := hrun
  intro h
  have hzone := h _ _ hschedule
  revert hzone
  decide

end Custodian.ScheduleZone

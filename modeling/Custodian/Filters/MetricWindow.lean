import Custodian.Lib.Timedelta

/-!
# The window of a metrics filter

`MetricsFilter.get_metric_window` and the beginning of `process` of `c7n/filters/metrics.py`, and
`snap_to_period_start` of `c7n/utils.py`: a time span before now, whose end is at the next second,
minute, five minutes or hour, and whose ends may be put back to midnight.
-/

namespace Custodian.MetricWindow

open Py Clock Timedelta

/-! ## Filters -/

/-- `METRIC_WINDOW_ALIGNMENT` -/
inductive PeriodStart where
  | auto
  | startOfDay
  deriving DecidableEq

/-- What a filter says of its window; a number that is not finite is the positive infinity. -/
structure MetricsFilter where
  days : Number := .int 14
  periodStart : PeriodStart := .auto
  period : Option Number := none

structure Window where
  start : Int
  stop : Int

/-- `validate`, of the days -/
def MetricsFilter.validate (f : MetricsFilter) : Except Exn Unit :=
  match f.days.finite with
  | some days => if 455 < days then .error (.raised "PolicyValidationError".toList) else .ok ()
  | none => .error (.raised "PolicyValidationError".toList)

/-- Positive days that `validate` accepts. -/
def MetricsFilter.Accepted (f : MetricsFilter) : Prop :=
  (∃ x, f.days.finite = some x ∧ 0 < x) ∧ f.validate = .ok ()

/-! ## Windows -/

def second : Int := 1000000

def hour : Int := 60 * minute

/-- `now.replace(minute=m, second=0, microsecond=0)` -/
def replaceMinute (now m : Int) : Int := floorTo hour now + m * minute

/-- The end of a window, by the time for which data of this age are kept. -/
def alignedEnd (duration now : Int) : Except Exn Int :=
  if duration ≤ day / 8 then datetime (floorTo second now + second)
  else if duration ≤ 15 * day then datetime (floorTo minute now + minute)
  else if duration ≤ 63 * day then
    datetime (replaceMinute now (now % hour / minute / 5 * 5) + 5 * minute)
  else datetime (floorTo hour now + hour)

def snapToPeriodStart (start stop : Int) : PeriodStart → Window
  | .startOfDay => ⟨floorTo day start, floorTo day stop⟩
  | .auto => ⟨start, stop⟩

namespace MetricsFilter

variable (f : MetricsFilter)

/-- `timedelta(self.days)` -/
def duration : Except Exn Int := timedelta [(day, f.days)]

def getMetricWindow (now : Int) : Except Exn Window := do
  let duration ← f.duration
  let stop ← alignedEnd duration now
  let start ← datetime (stop - duration)
  return snapToPeriodStart start stop f.periodStart

/-- The window and the period that `process` asks for. -/
def process (now : Int) : Except Exn (Window × Int) := do
  let w ← f.getMetricWindow now
  let period ← (f.period.getD (totalSeconds (w.stop - w.start))).toInt
  return (w, period)

end MetricsFilter

/-! ## Units -/

/-- The unit that the end of a window is aligned to. -/
def alignmentUnit (duration : Int) : Int :=
  if duration ≤ day / 8 then second
  else if duration ≤ 15 * day then minute
  else if duration ≤ 63 * day then 5 * minute
  else hour

/-- The first multiple of a unit after a reading. -/
def next (unit now : Int) : Int := floorTo unit now + unit

theorem alignmentUnit_pos (duration : Int) : 0 < alignmentUnit duration := by
  rw [alignmentUnit]
  split_ifs <;> decide

theorem replaceMinute_fifth (now : Int) :
    replaceMinute now (now % hour / minute / 5 * 5) = floorTo (5 * minute) now := by
  simp only [replaceMinute, floorTo, hour, minute]
  omega

/-- **Alignment.**  A window ends at the next multiple of its unit. -/
theorem alignedEnd_eq (duration now : Int) :
    alignedEnd duration now = datetime (next (alignmentUnit duration) now) := by
  rw [alignedEnd, alignmentUnit, replaceMinute_fifth]
  split_ifs <;> rfl

theorem next_le {unit : Int} (hu : 0 < unit) (now : Int) : next unit now ≤ now + unit := by
  have := floorTo_le hu now
  rw [next]
  omega

/-! ## Accepted days -/

theorem exists_duration {f : MetricsFilter} (h : f.Accepted) :
    ∃ d, f.duration = .ok d ∧ 0 ≤ d ∧ d ≤ 455 * day := by
  obtain ⟨⟨x, hx, hpos⟩, hvalid⟩ := h
  have hle : x ≤ ((455 : Int) : ℚ) := by
    by_contra! hgt
    have hraised : f.validate = .error (.raised "PolicyValidationError".toList) := by
      rw [MetricsFilter.validate, hx]
      exact if_pos (by exact_mod_cast hgt)
    rw [hraised] at hvalid
    cases hvalid
  have hargs : HasValues [(day, f.days)] [(day, x)] := .cons ⟨rfl, hx⟩ .nil
  have heq := timedelta_eq hargs (by simpa using ⟨by decide, hpos.le⟩) (List.pairwise_singleton _ _)
  rw [List.map_singleton, List.sum_singleton] at heq
  have hlow : 0 ≤ roundHalfEven (product day x) :=
    le_roundHalfEven (by exact_mod_cast product_nonneg (by decide) hpos.le)
  have hhigh : roundHalfEven (product day x) ≤ 455 * day :=
    roundHalfEven_le (by exact_mod_cast product_le (by decide) (by decide) hpos.le hle)
  refine ⟨_, heq.trans (if_pos ?_), hlow, hhigh⟩
  rw [abs_le]
  simp only [day, minute] at hlow hhigh ⊢
  omega

/-! ## Windows that are not empty -/

/-- The window is not empty, ends at most one unit after now, is as long as the duration unless it
is put back to midnight, and its default period is positive. -/
def NeverEmpty (f : MetricsFilter) (now : Int) : Prop :=
  ∃ d w period, f.duration = .ok d ∧ f.getMetricWindow now = .ok w ∧
    w.start < w.stop ∧ w.stop ≤ now + alignmentUnit d ∧
    (f.periodStart = .auto → w.stop - w.start = d) ∧
    { f with period := none }.process now = .ok (w, period) ∧ 0 < period

/-- A reading is a `datetime`. -/
def IsDatetime (w : Int) : Prop := -719162 * day ≤ w ∧ w < 2932897 * day

/-- The duration before the next multiple of the unit lies in the years that there are. -/
def InYears (d now : Int) : Prop :=
  IsDatetime (next (alignmentUnit d) now) ∧ IsDatetime (next (alignmentUnit d) now - d)

/-- A duration of a second, or one that reaches back to the day before its end. -/
def LongEnough (d now : Int) : PeriodStart → Prop
  | .auto => second ≤ d
  | .startOfDay => next (alignmentUnit d) now % day < d

theorem datetime_eq_ok {w r : Int} : datetime w = .ok r ↔ IsDatetime w ∧ w = r := by
  rw [datetime]
  split
  · rename_i h
    rw [Except.ok.injEq, and_iff_right (show IsDatetime w from h)]
  · rename_i h
    exact iff_of_false (by rintro ⟨⟩) fun hr => h hr.1

theorem getMetricWindow_eq_ok {f : MetricsFilter} {d : Int} (hd : f.duration = .ok d) {now : Int}
    {w : Window} : f.getMetricWindow now = .ok w ↔ InYears d now ∧
      w = snapToPeriodStart (next (alignmentUnit d) now - d) (next (alignmentUnit d) now)
        f.periodStart := by
  rw [MetricsFilter.getMetricWindow, hd, ok_bind, alignedEnd_eq]
  simp only [bind_eq_ok, datetime_eq_ok, InYears]
  constructor
  · rintro ⟨_, ⟨hstop, rfl⟩, _, ⟨hstart, rfl⟩, heq⟩
    exact ⟨⟨hstop, hstart⟩, (Except.ok.inj heq).symm⟩
  · rintro ⟨⟨hstop, hstart⟩, rfl⟩
    exact ⟨_, ⟨hstop, rfl⟩, _, ⟨hstart, rfl⟩, rfl⟩

/-- At 04:47:15, twenty days end at 04:50. -/
example : ({ days := .int 20 } : MetricsFilter).getMetricWindow
    (18599 * day + 4 * hour + 47 * minute + 15 * second) =
    .ok ⟨18579 * day + 4 * hour + 50 * minute, 18599 * day + 4 * hour + 50 * minute⟩ := by rfl

theorem exists_process {f : MetricsFilter} {now : Int} {w : Window}
    (hw : f.getMetricWindow now = .ok w) :
    ∃ period, { f with period := none }.process now = .ok (w, period) ∧
      (0 < period ↔ second ≤ w.stop - w.start) := by
  obtain ⟨n, hn, hpos⟩ := exists_toInt_totalSeconds (w.stop - w.start)
  refine ⟨n, ?_, hpos⟩
  have hwindow : { f with period := none }.getMetricWindow now = .ok w := hw
  rw [MetricsFilter.process, hwindow, ok_bind, Option.getD_none, hn]
  rfl

theorem snapToPeriodStart_stop_le (start stop : Int) (p : PeriodStart) :
    (snapToPeriodStart start stop p).stop ≤ stop := by
  cases p with
  | auto => exact le_rfl
  | startOfDay => exact floorTo_le (by decide) stop

theorem second_le_snapToPeriodStart_iff {d now : Int} {w : Window} {p : PeriodStart}
    (hw : w = snapToPeriodStart (next (alignmentUnit d) now - d) (next (alignmentUnit d) now) p) :
    second ≤ w.stop - w.start ↔ LongEnough d now p := by
  subst hw
  cases p with
  | auto => rw [snapToPeriodStart, sub_sub_cancel, LongEnough]
  | startOfDay =>
    have hday : 0 < day := by decide
    have hsecond : 0 < second ∧ second ≤ day := by decide
    rw [snapToPeriodStart, LongEnough]
    constructor
    · intro hlong
      have hlt := (floorTo_lt_floorTo hday).mp (sub_pos.mp (hsecond.1.trans_le hlong))
      rw [floorTo] at hlt
      omega
    · intro hlong
      have hlt : floorTo day (next (alignmentUnit d) now - d) <
          floorTo day (next (alignmentUnit d) now) := by
        rw [floorTo_lt_floorTo hday, floorTo]
        omega
      exact hsecond.2.trans (le_sub_iff_add_le'.mpr (add_floorTo_le hday hlt))

theorem neverEmpty_iff_of_duration {f : MetricsFilter} {d : Int} (hd : f.duration = .ok d)
    (now : Int) : NeverEmpty f now ↔ InYears d now ∧ LongEnough d now f.periodStart := by
  constructor
  · rintro ⟨d', w, period, hd', hw, -, -, -, hprocess, hpos⟩
    obtain rfl : d = d' := Except.ok.inj (hd.symm.trans hd')
    obtain ⟨period', hprocess', hiff⟩ := exists_process hw
    obtain rfl : period = period' :=
      congrArg Prod.snd (Except.ok.inj (hprocess.symm.trans hprocess'))
    obtain ⟨hyears, hsnap⟩ := (getMetricWindow_eq_ok hd).mp hw
    exact ⟨hyears, (second_le_snapToPeriodStart_iff hsnap).mp (hiff.mp hpos)⟩
  · rintro ⟨hyears, hlong⟩
    obtain ⟨w, hw⟩ : ∃ w, f.getMetricWindow now = .ok w :=
      ⟨_, (getMetricWindow_eq_ok hd).mpr ⟨hyears, rfl⟩⟩
    obtain ⟨period, hprocess, hiff⟩ := exists_process hw
    obtain ⟨-, hsnap⟩ := (getMetricWindow_eq_ok hd).mp hw
    have hwidth := (second_le_snapToPeriodStart_iff hsnap).mpr hlong
    have hlt : w.start < w.stop := sub_pos.mp ((by decide : 0 < second).trans_le hwidth)
    have hstop : w.stop ≤ now + alignmentUnit d :=
      (hsnap ▸ snapToPeriodStart_stop_le _ _ _).trans (next_le (alignmentUnit_pos d) now)
    refine ⟨d, w, period, hd, hw, hlt, hstop, fun hauto => ?_, hprocess, hiff.mpr hwidth⟩
    rw [hsnap, hauto]
    exact sub_sub_cancel _ _

/-- **The window.**  Accepted days are a duration.  In years that there are, the window is not empty
exactly if the duration is a second, or reaches back to the day before the end if both ends are put
back to midnight. -/
theorem neverEmpty_iff (f : MetricsFilter) (h : f.Accepted) :
    ∃ d, f.duration = .ok d ∧ 0 ≤ d ∧ d ≤ 455 * day ∧
      ∀ now, NeverEmpty f now ↔ InYears d now ∧ LongEnough d now f.periodStart := by
  obtain ⟨d, hd, hlow, hhigh⟩ := exists_duration h
  exact ⟨d, hd, hlow, hhigh, neverEmpty_iff_of_duration hd⟩

theorem accepted_of_le {f : MetricsFilter} {x : ℚ} (hx : f.days.finite = some x) (hpos : 0 < x)
    (hle : x ≤ 455) : f.Accepted := by
  refine ⟨⟨x, hx, hpos⟩, ?_⟩
  rw [MetricsFilter.validate, hx]
  exact if_neg hle.not_gt

/-- Fourteen days, as a filter has them if it says nothing. -/
theorem neverEmpty_iff_fortnight :
    ∃ d, ({} : MetricsFilter).duration = .ok d ∧ 0 ≤ d ∧ d ≤ 455 * day ∧
      ∀ now, NeverEmpty {} now ↔ InYears d now ∧ LongEnough d now .auto :=
  neverEmpty_iff {} (accepted_of_le (x := 14) rfl (by norm_num) (by norm_num))

/-! ## Half a day -/

/-- Half a day, put back to midnight. -/
def halfDay : MetricsFilter where
  days := .float (some (1 / 2))
  periodStart := .startOfDay

theorem halfDay_duration : halfDay.duration = .ok (day / 2) := by
  have hproduct : product day (1 / 2) = ((day / 2 : Int) : ℚ) := by
    have htrunc : trunc (1 / 2) = 0 := by
      rw [trunc_of_nonneg (by norm_num), Int.floor_eq_iff]
      norm_num
    have hhalf : (day * (1 / 2 - ((0 : Int) : ℚ)) : ℚ) = ((day / 2 : Int) : ℚ) := by
      norm_num [day, minute]
    rw [product, htrunc, hhalf, Double.nearest_intCast (by decide), Int.cast_zero, zero_mul,
      zero_add]
  have hargs : HasValues [(day, halfDay.days)] [(day, 1 / 2)] := .cons ⟨rfl, rfl⟩ .nil
  have heq := timedelta_eq hargs (by norm_num [day, minute]) (List.pairwise_singleton _ _)
  rw [List.map_singleton, List.sum_singleton, hproduct, roundHalfEven_intCast] at heq
  exact heq.trans (if_pos (by decide))

/-- At six in the evening the window begins and ends at the midnight before. -/
theorem halfDay_empty : halfDay.Accepted ∧
    halfDay.getMetricWindow (18599 * day + 18 * hour) = .ok ⟨18599 * day, 18599 * day⟩ ∧
    ¬NeverEmpty halfDay (18599 * day + 18 * hour) := by
  have hwindow : halfDay.getMetricWindow (18599 * day + 18 * hour) =
      .ok ⟨18599 * day, 18599 * day⟩ :=
    (getMetricWindow_eq_ok halfDay_duration).mpr ⟨by simp only [InYears, IsDatetime]; decide, rfl⟩
  refine ⟨accepted_of_le (x := 1 / 2) rfl (by norm_num) (by norm_num), hwindow, ?_⟩
  rintro ⟨d, w, period, -, hw, hlt, -⟩
  obtain rfl : _ = w := Except.ok.inj (hwindow.symm.trans hw)
  exact lt_irrefl _ hlt

end Custodian.MetricWindow

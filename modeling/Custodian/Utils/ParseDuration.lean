import Custodian.Lib.Json
import Custodian.Lib.Numeral
import Custodian.Lib.Regex
import Custodian.Lib.Split
import Custodian.Lib.Timedelta

/-!
# Durations in texts

`parse_duration` of `c7n/utils.py` reads the ISO 8601 durations of fixed length.  The numbers of a
text are read as doubles, of which a `timedelta` is made.
-/

namespace Custodian.ParseDuration

open Py Regex Timedelta

/-! ## The expression -/

inductive TimeUnit where
  | weeks
  | days
  | hours
  | minutes
  | seconds
  deriving DecidableEq

namespace TimeUnit

/-- The units, in the order of the expression. -/
def all : List TimeUnit := [weeks, days, hours, minutes, seconds]

def letter : TimeUnit → Char
  | weeks => 'W'
  | days => 'D'
  | hours => 'H'
  | minutes => 'M'
  | seconds => 'S'

/-- The microseconds of a unit. -/
def factor : TimeUnit → Int
  | weeks => 604800000000
  | days => 86400000000
  | hours => 3600000000
  | minutes => 60000000
  | seconds => 1000000

end TimeUnit

def isSep (c : Char) : Bool := c = '.' || c = ','

/-- `\d+(?:[.,]\d+)?` -/
def numberRe : Re TimeUnit :=
  .seq (.chars Char.isDigit) (.opt (.seq (.char isSep) (.chars Char.isDigit)))

/-- `(?:(?P<unit>..)U)?` -/
def unitRe (u : TimeUnit) : Re TimeUnit :=
  .opt (.seq (.group u numberRe) (.char fun c => c = u.letter))

/-- `T(?=\d)..` -/
def timeRe : Re TimeUnit :=
  .seq (.char fun c => c = 'T') <| .seq (.ahead (.char Char.isDigit)) <|
    .seq (unitRe .hours) <| .seq (unitRe .minutes) (unitRe .seconds)

/-- `ISO_DURATION` -/
def isoDuration : Re TimeUnit :=
  .seq (.char fun c => c = 'P') <| .seq (unitRe .weeks) <| .seq (unitRe .days) <| .opt timeRe

/-! ## Reading -/

/-- The number that a text of digits stands for. -/
def natOf (digits : Text) : Nat := digits.foldl (fun n c => 10 * n + (c.toNat - 48)) 0

/-- The number that a text of digits with a point stands for. -/
def decimal (n : Text) : ℚ :=
  let frac := (n.dropWhile fun c => c ≠ '.').drop 1
  natOf (n.takeWhile (fun c => c ≠ '.') ++ frac) / 10 ^ frac.length

/-- `float(n.replace(',', '.'))` -/
def float (n : Text) : Option ℚ := Double.ofRat (decimal (n.replaceChar ',' '.'))

/-- The arguments of `timedelta(**parts)`, in the order of the constructor. -/
def kwargs (parts : List (TimeUnit × Text)) : List (Int × Number) :=
  [TimeUnit.seconds, .minutes, .hours, .days, .weeks].filterMap fun u =>
    (parts.lookup u).map fun n => (u.factor, .float (float n))

/-- `parse_duration` -/
def parseDuration : Json → Except Exn (Option Int)
  | .str v =>
    match fullmatch isoDuration (strip v) with
    | none => .ok none
    | some groups =>
      let parts := TimeUnit.all.filterMap fun u =>
        ((groups.lookup u).filter (· ≠ [])).map fun n => (u, n)
      if parts = [] then .ok none
      -- ISO 8601: weeks stand alone, and only the smallest unit given may have a fraction
      else if (parts.lookup .weeks).isSome ∧ 1 < parts.length then .ok none
      else if parts.dropLast.any fun e => e.2.any isSep then .ok none
      else
        match timedelta (kwargs parts) with
        | .ok td => .ok (some td)
        | .error e => if e = overflowError then .ok none else .error e
  | _ => .ok none

/-! ## Durations -/

def Digits (w : Text) : Prop := w ≠ [] ∧ ∀ c ∈ w, c.isDigit = true

/-- Digits, or digits with a mark for a fraction between them. -/
def IsNumber (n : Text) : Prop :=
  Digits n ∨ ∃ whole sep frac, Digits whole ∧ isSep sep = true ∧ Digits frac ∧
    n = whole ++ sep :: frac

/-- Numbers for some of the units. -/
structure Components where
  number : TimeUnit → Option Text
  isNumber : ∀ u, ∀ n ∈ number u, IsNumber n

/-- A number with the letter of its unit. -/
def written (u : TimeUnit) (o : Option Text) : Text := o.elim [] fun n => n ++ [u.letter]

/-- The text of the numbers for units of less than a day. -/
def timeText (h m s : Option Text) : Text :=
  if h = none ∧ m = none ∧ s = none then []
  else 'T' :: (written .hours h ++ (written .minutes m ++ written .seconds s))

/-- The form `P[nW][nD][T[nH][nM][nS]]`. -/
def Components.text (c : Components) : Text :=
  'P' :: (written .weeks (c.number .weeks) ++ (written .days (c.number .days) ++
    timeText (c.number .hours) (c.number .minutes) (c.number .seconds)))

/-- The numbers with their units, from the largest unit on. -/
def Components.parts (c : Components) : List (TimeUnit × Text) :=
  TimeUnit.all.filterMap fun u => (c.number u).map fun n => (u, n)

/-- The components of a duration: weeks stand alone, and only the smallest one may have a
fraction. -/
structure Duration extends Components where
  some_part : toComponents.parts ≠ []
  weeks_alone : (number .weeks).isSome → toComponents.parts.length = 1
  whole : ∀ e ∈ toComponents.parts.dropLast, Digits e.2

/-- The microseconds of a number: those of a whole number exactly, and of one with a fraction those
of the nearest double, whose fraction is multiplied as a double.  A number may be too large for
a double. -/
def micros (u : TimeUnit) (n : Text) : Option ℚ :=
  if n.any isSep then (float n).map (product u.factor) else some (natOf n * u.factor)

/-- The whole microseconds of a duration. -/
def Duration.total (d : Duration) : Option Int :=
  (d.parts.mapM fun e => micros e.1 e.2).map fun ms => Clock.roundHalfEven ms.sum

/-- A `timedelta` of so many microseconds. -/
def InRange (x : Int) : Prop := |x / Clock.day| ≤ 999999999

instance (x : Int) : Decidable (InRange x) := inferInstanceAs (Decidable (_ ≤ _))

/-! ## What the expression matches -/

variable {w t rest : Text} {gs : List (TimeUnit × Text)} {u : TimeUnit}

theorem mem_numberRe :
    ⟨w, gs, rest⟩ ∈ numberRe.matchesOf t ↔ gs = [] ∧ IsNumber w ∧ t = w ++ rest := by
  simp only [numberRe, mem_seq, mem_opt, mem_chars, mem_char]
  constructor
  · rintro ⟨w₁, _, mid, w₂, gs₂, ⟨rfl, hne, hdigits, rfl⟩, hopt, rfl, rfl⟩
    rcases hopt with ⟨_, _, _, w₃, gs₃, ⟨rfl, sep, hsep, rfl, rfl⟩, ⟨rfl, hne₃, hdigits₃, rfl⟩,
      rfl, rfl⟩ | ⟨rfl, rfl, rfl⟩
    · exact ⟨rfl, .inr ⟨w₁, sep, w₃, ⟨hne, hdigits⟩, hsep, ⟨hne₃, hdigits₃⟩, rfl⟩, by simp⟩
    · exact ⟨rfl, .inl (by simpa using ⟨hne, hdigits⟩), by simp⟩
  · rintro ⟨rfl, hdigits | ⟨whole, sep, frac, hwhole, hsep, hfrac, rfl⟩, rfl⟩
    · exact ⟨w, [], rest, [], [], ⟨rfl, hdigits.1, hdigits.2, rfl⟩, .inr ⟨rfl, rfl, rfl⟩,
        (List.append_nil w).symm, rfl⟩
    · refine ⟨whole, [], sep :: (frac ++ rest), sep :: frac, [], ⟨rfl, hwhole.1, hwhole.2, by simp⟩,
        .inl ?_, rfl, rfl⟩
      exact ⟨[sep], [], frac ++ rest, frac, [], ⟨rfl, sep, hsep, rfl, rfl⟩,
        ⟨rfl, hfrac.1, hfrac.2, rfl⟩, rfl, rfl⟩

/-- The group of a number. -/
def groupOf (u : TimeUnit) (o : Option Text) : List (TimeUnit × Text) :=
  (o.map fun n => (u, n)).toList

theorem mem_unitRe : ⟨w, gs, rest⟩ ∈ (unitRe u).matchesOf t ↔ ∃ o : Option Text,
    (∀ n ∈ o, IsNumber n) ∧ w = written u o ∧ gs = groupOf u o ∧ t = w ++ rest := by
  simp only [unitRe, mem_opt, mem_seq, mem_group, mem_numberRe, mem_char, decide_eq_true_eq]
  constructor
  · rintro (⟨n, _, _, _, _, ⟨_, ⟨rfl, hn, rfl⟩, rfl⟩, ⟨rfl, c, rfl, rfl, rfl⟩, rfl, rfl⟩ |
      ⟨rfl, rfl, rfl⟩)
    · exact ⟨some n, by simpa using hn, rfl, rfl, by simp⟩
    · exact ⟨none, by simp, rfl, rfl, rfl⟩
  · rintro ⟨_ | n, hn, rfl, rfl, rfl⟩
    · exact .inr ⟨rfl, rfl, rfl⟩
    · exact .inl ⟨n, [(u, n)], u.letter :: rest, [u.letter], [],
        ⟨[], ⟨rfl, hn n rfl, by simp [written]⟩, rfl⟩, ⟨rfl, u.letter, rfl, rfl, rfl⟩, rfl, rfl⟩

theorem isDigit_of_isNumber {n : Text} (h : IsNumber n) : ∃ c s, n = c :: s ∧ c.isDigit = true := by
  have hdigits : ∀ {w : Text}, Digits w → ∀ rest, ∃ c s, w ++ rest = c :: s ∧ c.isDigit = true := by
    intro w hw rest
    obtain ⟨c, s, rfl⟩ := List.exists_cons_of_ne_nil hw.1
    exact ⟨c, s ++ rest, rfl, hw.2 c List.mem_cons_self⟩
  rcases h with h | ⟨whole, sep, frac, hwhole, -, -, rfl⟩
  · simpa using hdigits h []
  · exact hdigits hwhole _

theorem written_isDigit {n : Text} (h : IsNumber n) (rest : Text) :
    ∃ c s, written u (some n) ++ rest = c :: s ∧ c.isDigit = true := by
  obtain ⟨c, s, rfl, hc⟩ := isDigit_of_isNumber h
  exact ⟨c, _, rfl, hc⟩

theorem mem_ahead_isDigit : ⟨w, gs, rest⟩ ∈ (Re.ahead (.char Char.isDigit)).matchesOf t ↔
    w = [] ∧ gs = [] ∧ rest = t ∧ ∃ c s, t = c :: s ∧ c.isDigit = true := by
  rw [mem_ahead fun m hm => (mem_char.mp hm).1]
  refine and_congr_right fun _ => and_congr_right fun _ => and_congr_right fun _ => ?_
  constructor
  · rintro ⟨m, hm⟩
    obtain ⟨-, c, hc, -, rfl⟩ := mem_char.mp hm
    exact ⟨c, _, rfl, hc⟩
  · rintro ⟨c, s, rfl, hc⟩
    exact ⟨⟨[c], [], s⟩, mem_char.mpr ⟨rfl, c, hc, rfl, rfl⟩⟩

theorem written_time_isDigit {h m s : Option Text} (hh : ∀ n ∈ h, IsNumber n)
    (hm : ∀ n ∈ m, IsNumber n) (hs : ∀ n ∈ s, IsNumber n)
    (hsome : ¬ (h = none ∧ m = none ∧ s = none)) :
    ∃ c s', written .hours h ++ (written .minutes m ++ written .seconds s) = c :: s' ∧
      c.isDigit = true := by
  cases h with
  | some n => exact written_isDigit (hh n rfl) _
  | none =>
    cases m with
    | some n => exact written_isDigit (hm n rfl) _
    | none =>
      cases s with
      | some n =>
        rw [← List.append_nil (written .seconds (some n))]
        exact written_isDigit (hs n rfl) []
      | none => exact absurd ⟨rfl, rfl, rfl⟩ hsome

theorem mem_timeRe : ⟨w, gs, []⟩ ∈ timeRe.matchesOf t ↔ ∃ h m s : Option Text,
    (∀ n ∈ h, IsNumber n) ∧ (∀ n ∈ m, IsNumber n) ∧ (∀ n ∈ s, IsNumber n) ∧
      ¬ (h = none ∧ m = none ∧ s = none) ∧ w = timeText h m s ∧ t = w ∧
      gs = groupOf .hours h ++ (groupOf .minutes m ++ groupOf .seconds s) := by
  simp only [timeRe, mem_seq, mem_char, decide_eq_true_eq, mem_ahead_isDigit, mem_unitRe]
  constructor
  · rintro ⟨_, _, _, _, _, ⟨rfl, c, rfl, rfl, rfl⟩, ⟨_, _, _, _, _, ⟨rfl, rfl, rfl, d, s', hd, hdigit⟩,
      ⟨_, _, _, _, _, ⟨h, hh, rfl, rfl, rfl⟩, ⟨_, _, _, _, _, ⟨m, hm, rfl, rfl, rfl⟩,
      ⟨s, hs, rfl, rfl, rfl⟩, rfl, rfl⟩, rfl, rfl⟩, rfl, rfl⟩, rfl, rfl⟩
    have hsome : ¬ (h = none ∧ m = none ∧ s = none) := by
      rintro ⟨rfl, rfl, rfl⟩
      cases hd
    refine ⟨h, m, s, hh, hm, hs, hsome, ?_, ?_, by simp⟩
    · simp [timeText, hsome]
    · simp
  · rintro ⟨h, m, s, hh, hm, hs, hsome, rfl, rfl, rfl⟩
    have hdigit := written_time_isDigit hh hm hs hsome
    have htext : timeText h m s =
        ['T'] ++ ([] ++ (written .hours h ++ (written .minutes m ++ written .seconds s))) := by
      simp [timeText, hsome]
    exact ⟨['T'], [], _, _, _, ⟨rfl, 'T', rfl, rfl, htext⟩, ⟨[], [], _, _, _, ⟨rfl, rfl, rfl, hdigit⟩,
      ⟨_, _, _, _, _, ⟨h, hh, rfl, rfl, rfl⟩, ⟨_, _, _, _, _, ⟨m, hm, rfl, rfl, rfl⟩,
        ⟨s, hs, rfl, rfl, (List.append_nil _).symm⟩, rfl, rfl⟩, rfl, rfl⟩, rfl, rfl⟩, htext, rfl⟩

theorem parts_eq (c : Components) : c.parts = groupOf .weeks (c.number .weeks) ++
    (groupOf .days (c.number .days) ++ (groupOf .hours (c.number .hours) ++
      (groupOf .minutes (c.number .minutes) ++ groupOf .seconds (c.number .seconds)))) := by
  have hcons : ∀ (u : TimeUnit) (us : List TimeUnit),
      (u :: us).filterMap (fun u => (c.number u).map fun n => (u, n)) =
        groupOf u (c.number u) ++ us.filterMap fun u => (c.number u).map fun n => (u, n) := by
    intro u us
    rw [List.filterMap_cons, groupOf]
    cases c.number u <;> rfl
  simp only [Components.parts, TimeUnit.all, hcons, List.filterMap_nil, List.append_nil]

theorem mem_opt_timeRe : ⟨w, gs, []⟩ ∈ (Re.opt timeRe).matchesOf t ↔ ∃ h m s : Option Text,
    (∀ n ∈ h, IsNumber n) ∧ (∀ n ∈ m, IsNumber n) ∧ (∀ n ∈ s, IsNumber n) ∧
      w = timeText h m s ∧ t = w ∧
      gs = groupOf .hours h ++ (groupOf .minutes m ++ groupOf .seconds s) := by
  rw [mem_opt, mem_timeRe]
  constructor
  · rintro (⟨h, m, s, hh, hm, hs, -, hw, ht, hgs⟩ | ⟨rfl, rfl, rfl⟩)
    · exact ⟨h, m, s, hh, hm, hs, hw, ht, hgs⟩
    · exact ⟨none, none, none, by simp, by simp, by simp, rfl, rfl, rfl⟩
  · rintro ⟨h, m, s, hh, hm, hs, hw, ht, hgs⟩
    by_cases hnone : h = none ∧ m = none ∧ s = none
    · obtain ⟨rfl, rfl, rfl⟩ := hnone
      exact .inr ⟨hw, hgs, hw.symm.trans ht.symm⟩
    · exact .inl ⟨h, m, s, hh, hm, hs, hnone, hw, ht, hgs⟩

/-- **The form.**  The expression matches the texts of numbers for some units. -/
theorem mem_isoDuration : ⟨t, gs, []⟩ ∈ isoDuration.matchesOf t ↔
    ∃ c : Components, t = c.text ∧ gs = c.parts := by
  simp only [isoDuration, mem_seq, mem_char, decide_eq_true_eq, mem_unitRe, mem_opt_timeRe]
  constructor
  · rintro ⟨_, _, _, _, _, ⟨rfl, c, rfl, rfl, -⟩, ⟨_, _, _, _, _, ⟨w, hw, rfl, rfl, rfl⟩,
      ⟨_, _, _, _, _, ⟨d, hd, rfl, rfl, rfl⟩, ⟨h, m, s, hh, hm, hs, rfl, rfl, rfl⟩, rfl, rfl⟩, rfl,
      rfl⟩, rfl, rfl⟩
    let number : TimeUnit → Option Text
      | .weeks => w
      | .days => d
      | .hours => h
      | .minutes => m
      | .seconds => s
    have hnumber : ∀ u, ∀ n ∈ number u, IsNumber n := by
      rintro (_ | _ | _ | _ | _)
      · exact hw
      · exact hd
      · exact hh
      · exact hm
      · exact hs
    refine ⟨⟨number, hnumber⟩, rfl, ?_⟩
    rw [parts_eq]
    rfl
  · rintro ⟨c, rfl, rfl⟩
    exact ⟨['P'], [], _, _, _, ⟨rfl, 'P', rfl, rfl, rfl⟩, ⟨_, _, _, _, _, ⟨_, c.isNumber _, rfl, rfl, rfl⟩,
      ⟨_, _, _, _, _, ⟨_, c.isNumber _, rfl, rfl, rfl⟩, ⟨_, _, _, c.isNumber _, c.isNumber _,
        c.isNumber _, rfl, rfl, rfl⟩, rfl, rfl⟩, rfl, rfl⟩, rfl, parts_eq c⟩

/-! ## One reading -/

/-- The characters of numbers. -/
def isNumberChar (c : Char) : Bool := c.isDigit || isSep c

theorem isNumberChar_of_isNumber {n : Text} (h : IsNumber n) : ∀ c ∈ n, isNumberChar c = true := by
  have hdigits : ∀ {w : Text}, Digits w → ∀ c ∈ w, isNumberChar c = true := fun hw c hc => by
    rw [isNumberChar, hw.2 c hc]
    rfl
  rcases h with h | ⟨whole, sep, frac, hwhole, hsep, hfrac, rfl⟩
  · exact hdigits h
  · intro c hc
    rcases List.mem_append.mp hc with hc | hc
    · exact hdigits hwhole c hc
    · rcases List.mem_cons.mp hc with rfl | hc
      · rw [isNumberChar, hsep, Bool.or_true]
      · exact hdigits hfrac c hc

theorem isNumberChar_letter (u : TimeUnit) : isNumberChar u.letter = false := by
  cases u <;> decide

theorem append_cons_inj {n n' r r' : Text} {c c' : Char} (hn : ∀ d ∈ n, isNumberChar d = true)
    (hn' : ∀ d ∈ n', isNumberChar d = true) (hc : isNumberChar c = false)
    (hc' : isNumberChar c' = false) (h : n ++ c :: r = n' ++ c' :: r') :
    n = n' ∧ c = c' ∧ r = r' := by
  have htake := congrArg (List.takeWhile isNumberChar) h
  rw [List.takeWhile_append_of_pos hn, List.takeWhile_append_of_pos hn', List.takeWhile_cons,
    List.takeWhile_cons, hc, hc'] at htake
  obtain rfl : n = n' := by simpa using htake
  obtain ⟨rfl, rfl⟩ := List.cons.inj (List.append_cancel_left h)
  exact ⟨rfl, rfl, rfl⟩

/-- A text does not begin with a number for the unit. -/
def Avoids (u : TimeUnit) (r : Text) : Prop := ∀ n rest, IsNumber n → r ≠ n ++ u.letter :: rest

theorem avoids_of_not_isDigit {r : Text} (h : ∀ c ∈ r.head?, c.isDigit = false) (u : TimeUnit) :
    Avoids u r := by
  rintro n rest hn rfl
  obtain ⟨c, s, rfl, hc⟩ := isDigit_of_isNumber hn
  rw [h c rfl] at hc
  cases hc

theorem avoids_written {u u' : TimeUnit} {o : Option Text} {r : Text}
    (ho : ∀ n ∈ o, IsNumber n) (hu : u.letter ≠ u'.letter) (hr : Avoids u r) :
    Avoids u (written u' o ++ r) := by
  cases o with
  | none => exact hr
  | some n' =>
    intro n rest hn h
    rw [written, Option.elim_some, List.append_assoc, List.singleton_append] at h
    exact hu (append_cons_inj (isNumberChar_of_isNumber (ho n' rfl)) (isNumberChar_of_isNumber hn)
      (isNumberChar_letter u') (isNumberChar_letter u) h).2.1.symm

theorem written_inj {o o' : Option Text} {r r' : Text} (ho : ∀ n ∈ o, IsNumber n)
    (ho' : ∀ n ∈ o', IsNumber n) (hr : Avoids u r) (hr' : Avoids u r')
    (h : written u o ++ r = written u o' ++ r') : o = o' ∧ r = r' := by
  have hsome : ∀ n s, written u (some n) ++ s = n ++ u.letter :: s := fun n s => by simp [written]
  cases o with
  | none =>
    cases o' with
    | none => exact ⟨rfl, h⟩
    | some n' => exact absurd (h.trans (hsome n' r')) (hr n' r' (ho' n' rfl))
  | some n =>
    cases o' with
    | none => exact absurd (h.symm.trans (hsome n r)) (hr' n r (ho n rfl))
    | some n' =>
      rw [hsome, hsome] at h
      obtain ⟨rfl, -, rfl⟩ := append_cons_inj (isNumberChar_of_isNumber (ho n rfl))
        (isNumberChar_of_isNumber (ho' n' rfl)) (isNumberChar_letter u) (isNumberChar_letter u) h
      exact ⟨rfl, rfl⟩

theorem avoids_timeText (h m s : Option Text) : Avoids u (timeText h m s) := by
  refine avoids_of_not_isDigit ?_ u
  rw [timeText]
  split
  · simp
  · intro c hc
    obtain rfl : 'T' = c := Option.some.inj hc
    rfl

theorem timeText_inj {h m s h' m' s' : Option Text} (hh : ∀ n ∈ h, IsNumber n)
    (hm : ∀ n ∈ m, IsNumber n) (hs : ∀ n ∈ s, IsNumber n) (hh' : ∀ n ∈ h', IsNumber n)
    (hm' : ∀ n ∈ m', IsNumber n) (hs' : ∀ n ∈ s', IsNumber n)
    (heq : timeText h m s = timeText h' m' s') : h = h' ∧ m = m' ∧ s = s' := by
  have hnil : ∀ u, Avoids u [] := avoids_of_not_isDigit (by simp)
  have hrest : ∀ {u : TimeUnit} {s : Option Text}, (∀ n ∈ s, IsNumber n) →
      u.letter ≠ TimeUnit.seconds.letter → Avoids u (written .seconds s) := fun hs hu => by
    simpa using avoids_written hs hu (hnil _)
  rw [timeText, timeText] at heq
  split at heq <;> split at heq
  · rename_i hnone hnone'
    exact ⟨hnone.1.trans hnone'.1.symm, hnone.2.1.trans hnone'.2.1.symm,
      hnone.2.2.trans hnone'.2.2.symm⟩
  · cases heq
  · cases heq
  · obtain ⟨rfl, hms⟩ := written_inj hh hh' (avoids_written hm (by decide) (hrest hs (by decide)))
      (avoids_written hm' (by decide) (hrest hs' (by decide))) (List.cons.inj heq).2
    obtain ⟨rfl, hseconds⟩ := written_inj hm hm' (hrest hs (by decide)) (hrest hs' (by decide)) hms
    rw [← List.append_nil (written .seconds s), ← List.append_nil (written .seconds s')] at hseconds
    obtain ⟨rfl, -⟩ := written_inj hs hs' (hnil _) (hnil _) hseconds
    exact ⟨rfl, rfl, rfl⟩

/-- **One reading.**  A text is that of one list of numbers. -/
theorem text_inj {c c' : Components} (h : c.text = c'.text) : c.parts = c'.parts := by
  have htime : ∀ (c : Components) (u : TimeUnit), Avoids u
      (timeText (c.number .hours) (c.number .minutes) (c.number .seconds)) :=
    fun c u => avoids_timeText _ _ _
  obtain ⟨hw, h⟩ := written_inj (c.isNumber _) (c'.isNumber _)
    (avoids_written (c.isNumber _) (by decide) (htime c _))
    (avoids_written (c'.isNumber _) (by decide) (htime c' _)) (List.cons.inj h).2
  obtain ⟨hd, h⟩ := written_inj (c.isNumber _) (c'.isNumber _) (htime c _) (htime c' _) h
  obtain ⟨hh, hm, hs⟩ := timeText_inj (c.isNumber _) (c.isNumber _) (c.isNumber _)
    (c'.isNumber _) (c'.isNumber _) (c'.isNumber _) h
  rw [parts_eq, parts_eq, hw, hd, hh, hm, hs]

theorem fullmatch_text (c : Components) : fullmatch isoDuration c.text = some c.parts := by
  refine fullmatch_eq_some (mem_isoDuration.mpr ⟨c, rfl, rfl⟩) fun gs hgs => ?_
  obtain ⟨c', htext, rfl⟩ := mem_isoDuration.mp hgs
  exact (text_inj htext).symm

theorem fullmatch_eq_none (h : ∀ c : Components, t ≠ c.text) : fullmatch isoDuration t = none := by
  refine fullmatch_eq_none_iff.mpr fun gs hgs => ?_
  obtain ⟨c, ht, -⟩ := mem_isoDuration.mp hgs
  exact h c ht

/-! ## The parts -/

theorem lookup_parts (c : Components) (u : TimeUnit) : c.parts.lookup u = c.number u := by
  have hlookup : ∀ us : List TimeUnit, (us.filterMap fun u => (c.number u).map fun n => (u, n)).lookup u =
      if u ∈ us then c.number u else none := by
    intro us
    induction us with
    | nil => rfl
    | cons v us ih =>
      rw [List.filterMap_cons]
      by_cases hv : u = v
      · subst hv
        cases hu : c.number u with
        | none => simp [ih, hu]
        | some n => simp
      · cases hu : c.number v with
        | none => simp [ih, hv]
        | some n => simp [ih, hv, List.lookup_cons, beq_eq_false_iff_ne.mpr hv]
  rw [Components.parts, hlookup, if_pos (by cases u <;> simp [TimeUnit.all])]

theorem ne_nil_of_isNumber {n : Text} (h : IsNumber n) : n ≠ [] := by
  obtain ⟨c, s, rfl, -⟩ := isDigit_of_isNumber h
  exact List.cons_ne_nil c s

theorem parts_of_groups (c : Components) : TimeUnit.all.filterMap (fun u =>
    ((c.parts.lookup u).filter (· ≠ [])).map fun n => (u, n)) = c.parts := by
  refine List.filterMap_congr fun u _ => congrArg (Option.map _) ?_
  rw [lookup_parts]
  cases hu : c.number u with
  | none => rfl
  | some n => exact Option.filter_some_pos (by simpa using ne_nil_of_isNumber (c.isNumber u n hu))

theorem mem_parts {c : Components} {e : TimeUnit × Text} (h : e ∈ c.parts) : IsNumber e.2 := by
  obtain ⟨u, -, hu⟩ := List.mem_filterMap.mp h
  obtain ⟨n, hn, rfl⟩ := Option.map_eq_some_iff.mp hu
  exact c.isNumber u n hn

theorem any_isSep_eq_false {n : Text} (h : IsNumber n) : n.any isSep = false ↔ Digits n := by
  rw [List.any_eq_false]
  constructor
  · intro hsep
    rcases h with h | ⟨whole, sep, frac, -, hmark, -, rfl⟩
    · exact h
    · exact absurd hmark (hsep sep (by simp))
  · intro hdigits c hc hsep
    have hdigit := hdigits.2 c hc
    rw [isSep, Bool.or_eq_true, decide_eq_true_eq, decide_eq_true_eq] at hsep
    rcases hsep with rfl | rfl <;> revert hdigit <;> decide

theorem kwargs_parts (c : Components) : kwargs c.parts =
    (c.parts.map fun e => (e.1.factor, Number.float (float e.2))).reverse := by
  have hunits : [TimeUnit.seconds, .minutes, .hours, .days, .weeks] = TimeUnit.all.reverse := rfl
  simp only [kwargs, lookup_parts]
  rw [hunits, List.filterMap_reverse, Components.parts, List.map_filterMap]
  simp only [Option.map_map]
  rfl

/-! ## Numbers as doubles -/

theorem decimal_of_digits {n : Text} (h : Digits n) : decimal (n.replaceChar ',' '.') = natOf n := by
  have hreplace : n.replaceChar ',' '.' = n := by
    rw [Text.replaceChar]
    conv_rhs => rw [← List.map_id n]
    refine List.map_congr_left fun c hc => if_neg ?_
    rintro rfl
    exact absurd (h.2 ',' hc) (by decide)
  have hpoint : ∀ c ∈ n, decide (c ≠ '.') = true := by
    intro c hc
    refine decide_eq_true ?_
    rintro rfl
    exact absurd (h.2 '.' hc) (by decide)
  rw [hreplace, decimal, List.dropWhile_eq_nil_iff.mpr hpoint, List.takeWhile_eq_self_iff.mpr hpoint]
  simp

theorem decimal_nonneg (n : Text) : 0 ≤ decimal n := by
  rw [decimal]
  positivity

theorem float_nonneg {n : Text} {x : ℚ} (h : float n = some x) : 0 ≤ x := by
  rw [float, Double.ofRat] at h
  split at h
  · rw [← Option.some.inj h]
    exact Double.nearest_nonneg (decimal_nonneg _)
  · cases h

theorem float_of_digits {n : Text} (h : Digits n) (hn : natOf n ≤ 2 ^ 53) :
    float n = some (natOf n : ℚ) := by
  have hnearest : Double.nearest (natOf n : ℚ) = natOf n := by
    exact_mod_cast Double.nearest_intCast (n := natOf n) (by rw [Nat.abs_cast]; exact_mod_cast hn)
  have hlt : |(natOf n : ℚ)| < 2 ^ 1024 := by
    rw [Nat.abs_cast]
    have hle : (natOf n : ℚ) ≤ 2 ^ 53 := by exact_mod_cast hn
    exact hle.trans_lt (pow_lt_pow_right₀ (by norm_num) (by norm_num))
  rw [float, decimal_of_digits h, Double.ofRat, hnearest, if_pos hlt]

theorem whole_of_digits {n : Text} (h : Digits n) {x : ℚ} (hx : float n = some x) : Whole x := by
  rw [float, decimal_of_digits h, Double.ofRat] at hx
  split at hx
  · obtain ⟨k, hk⟩ := Double.exists_nearest_natCast (natOf n)
    rw [← Option.some.inj hx, hk, Whole, Int.floor_intCast]
  · cases hx

theorem le_float_of_digits {n : Text} (h : Digits n) (hn : 2 ^ 53 ≤ natOf n) {x : ℚ}
    (hx : float n = some x) : 2 ^ 53 ≤ x := by
  rw [float, decimal_of_digits h, Double.ofRat] at hx
  split at hx
  · rw [← Option.some.inj hx]
    exact_mod_cast Double.zpow_le_nearest (k := 53) (by norm_num) (by exact_mod_cast hn)
  · cases hx

/-! ## Sums of numbers -/

theorem TimeUnit.le_factor (u : TimeUnit) : 1000000 ≤ u.factor := by cases u <;> decide

theorem TimeUnit.factor_nonneg (u : TimeUnit) : 0 ≤ u.factor := by cases u <;> decide

theorem ofMicroseconds_eq (x : Int) :
    ofMicroseconds x = if InRange x then .ok x else .error overflowError := rfl

theorem not_inRange {q : ℚ} (h : 2 ^ 53 * 1000000 ≤ q) : ¬ InRange (Clock.roundHalfEven q) := by
  have hround : 2 ^ 53 * 1000000 ≤ Clock.roundHalfEven q := by
    refine Clock.le_roundHalfEven ?_
    push_cast
    linarith
  rw [InRange, Clock.day, Clock.minute, abs_le]
  omega

variable (d : Duration)

theorem micros_nonneg {n : Text} {q : ℚ} (h : micros u n = some q) : 0 ≤ q := by
  rw [micros] at h
  split at h
  · obtain ⟨x, hx, rfl⟩ := Option.map_eq_some_iff.mp h
    exact product_nonneg u.factor_nonneg (float_nonneg hx)
  · rw [← Option.some.inj h]
    exact mul_nonneg (Nat.cast_nonneg _) (by exact_mod_cast u.factor_nonneg)

theorem micros_of_digits {n : Text} (h : Digits n) : micros u n = some (natOf n * u.factor : ℚ) := by
  rw [micros, (any_isSep_eq_false (.inl h)).mpr h]
  rfl

/-- The value of a part that is finite. -/
def value (e : TimeUnit × Text) : ℚ := (float e.2).getD 0

theorem value_nonneg (e : TimeUnit × Text) : 0 ≤ value e := by
  rw [value]
  cases hx : float e.2 with
  | none => exact le_rfl
  | some x => exact float_nonneg hx

theorem oneFraction_parts (hfinite : ∀ e ∈ d.parts, (float e.2).isSome) :
    OneFraction (d.parts.map fun e => (e.1.factor, value e)).reverse := by
  have hwhole : ∀ e ∈ d.parts.dropLast, Whole (value e) := by
    intro e he
    obtain ⟨x, hx⟩ := Option.isSome_iff_exists.mp (hfinite e (List.mem_of_mem_dropLast he))
    rw [value, hx]
    exact whole_of_digits (d.whole e he) hx
  have hpairs : ∀ l : List (TimeUnit × Text), (∀ e ∈ l.dropLast, Whole (value e)) →
      l.Pairwise fun a b => Whole (value b) ∨ Whole (value a) := by
    intro l hl
    induction l with
    | nil => exact .nil
    | cons e l ih =>
      cases l with
      | nil => exact List.pairwise_singleton _ _
      | cons e' l =>
        rw [List.dropLast_cons_of_ne_nil (List.cons_ne_nil e' l), List.forall_mem_cons] at hl
        exact .cons (fun _ _ => .inr hl.1) (ih hl.2)
  rw [OneFraction, List.pairwise_reverse, List.pairwise_map]
  exact hpairs d.parts hwhole

theorem timedelta_of_finite (hfinite : ∀ e ∈ d.parts, (float e.2).isSome) :
    timedelta (kwargs d.parts) = ofMicroseconds (Clock.roundHalfEven
      (d.parts.map fun e => product e.1.factor (value e)).sum) := by
  have hargs : HasValues (kwargs d.parts) (d.parts.map fun e => (e.1.factor, value e)).reverse := by
    rw [kwargs_parts, HasValues, List.forall₂_reverse_iff, List.forall₂_map_left_iff,
      List.forall₂_map_right_iff, List.forall₂_same]
    intro e he
    obtain ⟨x, hx⟩ := Option.isSome_iff_exists.mp (hfinite e he)
    exact ⟨rfl, by rw [value, hx]; rfl⟩
  have hpos : ∀ x ∈ (d.parts.map fun e => (e.1.factor, value e)).reverse, 0 ≤ x.1 ∧ 0 ≤ x.2 := by
    intro x hx
    obtain ⟨e, -, rfl⟩ := List.mem_map.mp (List.mem_reverse.mp hx)
    exact ⟨e.1.factor_nonneg, value_nonneg e⟩
  rw [timedelta_eq hargs hpos (oneFraction_parts d hfinite), List.map_reverse, List.sum_reverse,
    List.map_map]
  rfl

theorem timedelta_of_infinite_part {e : TimeUnit × Text} (he : e ∈ d.parts) (h : float e.2 = none) :
    timedelta (kwargs d.parts) = .error overflowError := by
  refine timedelta_of_infinite ⟨(e.1.factor, .float (float e.2)), ?_, h⟩
  rw [kwargs_parts, List.mem_reverse]
  exact List.mem_map.mpr ⟨e, he, rfl⟩

/-! ## The duration of the numbers -/

/-- What is made of the numbers is their total, if there is a `timedelta` of it. -/
def Agrees (d : Duration) : Prop :=
  timedelta (kwargs d.parts) =
    match d.total.filter fun x => InRange x with
    | some x => .ok x
    | none => .error overflowError

theorem total_eq_some {x : Int} (h : d.total = some x) : ∃ ms : List ℚ,
    List.Forall₂ (fun e m => micros e.1 e.2 = some m) d.parts ms ∧
      x = Clock.roundHalfEven ms.sum := by
  obtain ⟨ms, hms, hx⟩ := Option.map_eq_some_iff.mp h
  exact ⟨ms, mapM_eq_some.mp hms, hx.symm⟩

theorem not_inRange_of_total {e : TimeUnit × Text} (he : e ∈ d.parts) (hdigits : Digits e.2)
    (hlarge : 2 ^ 53 ≤ natOf e.2) : ∀ x ∈ d.total, ¬ InRange x := by
  intro x hx
  obtain ⟨ms, hms, rfl⟩ := total_eq_some d hx
  obtain ⟨m, hm, hmicros⟩ := exists_of_forall₂ hms he
  have hpos : ∀ q ∈ ms, 0 ≤ q := by
    intro q hq
    obtain ⟨e', -, hq'⟩ := exists_of_forall₂ hms.flip hq
    exact micros_nonneg hq'
  have hle : 2 ^ 53 * 1000000 ≤ m := by
    rw [micros_of_digits hdigits, Option.some.injEq] at hmicros
    rw [← hmicros]
    have hcast : (2 ^ 53 : ℚ) ≤ natOf e.2 := by exact_mod_cast hlarge
    have hfactor : (1000000 : ℚ) ≤ e.1.factor := by exact_mod_cast e.1.le_factor
    exact mul_le_mul hcast hfactor (by norm_num) (Nat.cast_nonneg _)
  exact not_inRange (hle.trans (List.single_le_sum hpos m hm))

theorem timedelta_of_large {e : TimeUnit × Text} (he : e ∈ d.parts) (hdigits : Digits e.2)
    (hlarge : 2 ^ 53 ≤ natOf e.2) : timedelta (kwargs d.parts) = .error overflowError := by
  by_cases hfinite : ∀ e ∈ d.parts, (float e.2).isSome
  · obtain ⟨x, hx⟩ := Option.isSome_iff_exists.mp (hfinite e he)
    have hfloor : (2 ^ 53 : ℚ) ≤ ⌊x⌋ := by
      have := Int.le_floor.mpr (show (((2 ^ 53 : Int)) : ℚ) ≤ x by
        push_cast
        exact le_float_of_digits hdigits hlarge hx)
      exact_mod_cast this
    have hfactor : (1000000 : ℚ) ≤ e.1.factor := by exact_mod_cast e.1.le_factor
    have hle : 2 ^ 53 * 1000000 ≤ product e.1.factor (value e) := by
      rw [value, hx, Option.getD_some]
      refine le_trans ?_ (floor_mul_le_product e.1.factor_nonneg (float_nonneg hx))
      exact mul_le_mul hfloor hfactor (by norm_num) (le_trans (by norm_num) hfloor)
    have hpos : ∀ q ∈ d.parts.map (fun e => product e.1.factor (value e)), 0 ≤ q := by
      intro q hq
      obtain ⟨e', -, rfl⟩ := List.mem_map.mp hq
      exact product_nonneg e'.1.factor_nonneg (value_nonneg e')
    have hsum := List.single_le_sum hpos _ (List.mem_map_of_mem he)
    rw [timedelta_of_finite d hfinite, ofMicroseconds_eq, if_neg (not_inRange (hle.trans hsum))]
  · push Not at hfinite
    obtain ⟨e', he', hnone⟩ := hfinite
    exact timedelta_of_infinite_part d he' (by simpa using hnone)

theorem agrees_of_large {e : TimeUnit × Text} (he : e ∈ d.parts) (hdigits : Digits e.2)
    (hlarge : 2 ^ 53 ≤ natOf e.2) : Agrees d := by
  have htotal : d.total.filter (fun x => InRange x) = none :=
    Option.filter_eq_none_iff.mpr fun x hx hrange =>
      not_inRange_of_total d he hdigits hlarge x hx (of_decide_eq_true hrange)
  rw [Agrees, htotal]
  exact timedelta_of_large d he hdigits hlarge

theorem micros_eq {e : TimeUnit × Text} (he : e ∈ d.parts)
    (hsmall : Digits e.2 → natOf e.2 ≤ 2 ^ 53) :
    micros e.1 e.2 = (float e.2).map (product e.1.factor) := by
  by_cases hdigits : Digits e.2
  · rw [micros_of_digits hdigits, float_of_digits hdigits (hsmall hdigits), Option.map_some]
    exact congrArg some (by exact_mod_cast (product_intCast e.1.factor (natOf e.2)).symm)
  · have hsep : e.2.any isSep = true := by
      rw [← Bool.not_eq_false, any_isSep_eq_false (mem_parts he)]
      exact hdigits
    rw [micros, if_pos hsep]

theorem agrees_of_small (hsmall : ∀ e ∈ d.parts, Digits e.2 → natOf e.2 ≤ 2 ^ 53) : Agrees d := by
  by_cases hfinite : ∀ e ∈ d.parts, (float e.2).isSome
  · have hmicros : d.parts.mapM (fun e => micros e.1 e.2) =
        some (d.parts.map fun e => product e.1.factor (value e)) := by
      rw [mapM_eq_some, List.forall₂_map_right_iff, List.forall₂_same]
      intro e he
      obtain ⟨x, hx⟩ := Option.isSome_iff_exists.mp (hfinite e he)
      rw [micros_eq d he (hsmall e he), value, hx]
      rfl
    rw [Agrees, timedelta_of_finite d hfinite, ofMicroseconds_eq, Duration.total, hmicros,
      Option.map_some]
    by_cases hrange : InRange (Clock.roundHalfEven
        (d.parts.map fun e => product e.1.factor (value e)).sum)
    · rw [if_pos hrange, Option.filter_some_pos (p := fun x => decide (InRange x))
        (decide_eq_true hrange)]
    · rw [if_neg hrange, Option.filter_some_neg (p := fun x => decide (InRange x))
        (by simpa using hrange)]
  · push Not at hfinite
    obtain ⟨e, he, hnone⟩ := hfinite
    replace hnone : float e.2 = none := by simpa using hnone
    have htotal : d.total = none := by
      cases htotal : d.total with
      | none => rfl
      | some x =>
        obtain ⟨ms, hms, -⟩ := total_eq_some d htotal
        obtain ⟨m, -, hm⟩ := exists_of_forall₂ hms he
        rw [micros_eq d he (hsmall e he), hnone] at hm
        cases hm
    rw [Agrees, timedelta_of_infinite_part d he hnone, htotal]
    rfl

theorem agrees : Agrees d := by
  by_cases hsmall : ∀ e ∈ d.parts, Digits e.2 → natOf e.2 ≤ 2 ^ 53
  · exact agrees_of_small d hsmall
  · push Not at hsmall
    obtain ⟨e, he, hdigits, hlarge⟩ := hsmall
    exact agrees_of_large d he hdigits hlarge.le

/-! ## What is read -/

theorem mem_dropLast_whole {c : Components}
    (h : c.parts.dropLast.any (fun e => e.2.any isSep) = false) :
    ∀ e ∈ c.parts.dropLast, Digits e.2 := fun e he =>
  (any_isSep_eq_false (mem_parts (List.mem_of_mem_dropLast he))).mp
    (Bool.eq_false_iff.mpr (List.any_eq_false.mp h e he))

theorem parse_duration {v : Text} (d : Duration) (h : strip v = d.text) :
    parseDuration (.str v) = .ok (d.total.filter fun x => InRange x) := by
  have hweeks : ¬ ((d.parts.lookup .weeks).isSome ∧ 1 < d.parts.length) := by
    rintro ⟨hsome, hlen⟩
    rw [lookup_parts] at hsome
    rw [d.weeks_alone hsome] at hlen
    exact absurd hlen (lt_irrefl 1)
  have hwhole : d.parts.dropLast.any (fun e => e.2.any isSep) = false := by
    rw [List.any_eq_false]
    intro e he
    rw [(any_isSep_eq_false (.inl (d.whole e he))).mpr (d.whole e he)]
    exact Bool.false_ne_true
  have hagrees := agrees d
  rw [Agrees] at hagrees
  simp only [parseDuration, h, fullmatch_text, parts_of_groups]
  rw [if_neg d.some_part, if_neg hweeks, if_neg (by rw [hwhole]; exact Bool.false_ne_true), hagrees]
  cases d.total.filter fun x => InRange x with
  | some x => rfl
  | none => exact if_pos rfl

theorem parse_other {v : Text} (h : ∀ d : Duration, strip v ≠ d.text) :
    parseDuration (.str v) = .ok none := by
  by_cases hform : ∃ c : Components, strip v = c.text
  · obtain ⟨c, hc⟩ := hform
    simp only [parseDuration, hc, fullmatch_text, parts_of_groups]
    split
    · rfl
    · rename_i hsome
      split
      · rfl
      · rename_i hweeks
        split
        · rfl
        · rename_i hwhole
          have halone : (c.number .weeks).isSome → c.parts.length = 1 := by
            intro hs
            rw [lookup_parts, not_and, Nat.not_lt] at hweeks
            exact Nat.le_antisymm (hweeks hs) (List.length_pos_of_ne_nil hsome)
          exact absurd hc (h ⟨c, hsome, halone, mem_dropLast_whole (Bool.eq_false_iff.mpr hwhole)⟩)
  · push Not at hform
    simp only [parseDuration, fullmatch_eq_none hform]

theorem total_of_digits (d : Duration) (h : ∀ e ∈ d.parts, Digits e.2) :
    d.total = some (d.parts.map fun e => (natOf e.2 * e.1.factor : Int)).sum := by
  have hmicros : d.parts.mapM (fun e => micros e.1 e.2) =
      some (d.parts.map fun e => ((natOf e.2 * e.1.factor : Int) : ℚ)) := by
    rw [mapM_eq_some, List.forall₂_map_right_iff, List.forall₂_same]
    intro e he
    rw [micros_of_digits (h e he)]
    push_cast
    rfl
  have hsum : ∀ l : List (TimeUnit × Text),
      (l.map fun e => ((natOf e.2 * e.1.factor : Int) : ℚ)).sum =
        (((l.map fun e => (natOf e.2 * e.1.factor : Int)).sum : Int) : ℚ) := by
    intro l
    induction l with
    | nil => simp
    | cons e l ih =>
      rw [List.map_cons, List.map_cons, List.sum_cons, List.sum_cons, ih, Int.cast_add]
  rw [Duration.total, hmicros, Option.map_some, hsum, Clock.roundHalfEven_intCast]

/-- What is read of a text. -/
structure Reads (v : Text) : Prop where
  /-- A duration, if there is a `timedelta` of its microseconds. -/
  accepted : ∀ d : Duration, strip v = d.text →
    parseDuration (.str v) = .ok (d.total.filter fun x => InRange x)
  /-- The microseconds are exact where there is no fraction. -/
  exact : ∀ d : Duration, strip v = d.text → (∀ e ∈ d.parts, Digits e.2) →
    d.total = some (d.parts.map fun e => (natOf e.2 * e.1.factor : Int)).sum
  rejected : (∀ d : Duration, strip v ≠ d.text) → parseDuration (.str v) = .ok none

/-- **Durations.**  Exactly those of fixed length whose microseconds a `timedelta` can have are
read. -/
theorem parseDuration_spec (v : Text) : Reads v where
  accepted := parse_duration
  exact d _ := total_of_digits d
  rejected := parse_other

/-! ## A duration that is rounded up -/

/-- The exact microseconds of a duration. -/
def Duration.exact (d : Duration) : ℚ :=
  (d.parts.map fun e => decimal (e.2.replaceChar ',' '.') * e.1.factor).sum

/-- The longest `timedelta`. -/
def maxMicroseconds : ℚ := 1000000000 * Clock.day - 1

def almostDays : Text := "999999999.9999999999".toList

def dayNumber : TimeUnit → Option Text
  | .days => some almostDays
  | _ => none

/-- Nine microseconds short of the first duration that is too long. -/
def almostTooLong : Duration where
  number := dayNumber
  isNumber u n hn := by
    cases u
    case days =>
      obtain rfl : _ = n := Option.some.inj hn
      exact .inr ⟨"999999999".toList, '.', "9999999999".toList, ⟨by decide, by decide⟩, rfl,
        ⟨by decide, by decide⟩, rfl⟩
    all_goals cases hn
  some_part := by decide
  weeks_alone h := absurd h (by decide)
  whole _ he := absurd he List.not_mem_nil

theorem decimal_almostDays :
    decimal (almostDays.replaceChar ',' '.') = 9999999999999999999 / 10 ^ 10 := by
  have hreplace : almostDays.replaceChar ',' '.' = almostDays := by decide
  have hwhole : almostDays.takeWhile (fun c => c ≠ '.') = "999999999".toList := by decide
  have hfrac : (almostDays.dropWhile fun c => c ≠ '.').drop 1 = "9999999999".toList := by decide
  have hnat : natOf ("999999999".toList ++ "9999999999".toList) = 9999999999999999999 := by decide
  have hlen : "9999999999".toList.length = 10 := by decide
  simp only [decimal, hreplace, hwhole, hfrac, hnat, hlen]
  norm_num

theorem nearest_almost : Double.nearest (9999999999999999999 / 10 ^ 10) = (1000000000 : Int) := by
  have hpos : (0 : ℚ) < 9999999999999999999 / 10 ^ 10 := by norm_num
  have hlog : Int.log 2 (9999999999999999999 / 10 ^ 10 : ℚ) = 29 :=
    le_antisymm (Int.lt_add_one_iff.mp (Double.log_lt hpos (by norm_num)))
      (Double.le_log hpos (by norm_num))
  have hexp : Double.exponent (9999999999999999999 / 10 ^ 10) = -23 := by
    rw [Double.exponent, abs_of_pos hpos, hlog]
    rfl
  have hround : Clock.roundHalfEven ((9999999999999999999 / 10 ^ 10) / 2 ^ (-23 : ℤ)) =
      8388608000000000 := by
    refine Clock.roundHalfEven_eq ?_
    rw [abs_lt]
    constructor <;> norm_num
  rw [Double.nearest, hexp, hround]
  norm_num

theorem micros_almostDays : micros .days almostDays = some ((1000000000 * 86400000000 : Int) : ℚ) := by
  have hlt : |((1000000000 : Int) : ℚ)| < 2 ^ 1024 := by
    have hpow : ((1000000000 : Int) : ℚ) < 2 ^ 30 := by norm_num
    rw [abs_of_pos (by norm_num)]
    exact hpow.trans_le (pow_le_pow_right₀ (by norm_num) (by norm_num))
  rw [micros, if_pos (by decide), float, decimal_almostDays, Double.ofRat, nearest_almost,
    if_pos hlt, Option.map_some, product_intCast, TimeUnit.factor, Int.cast_mul]

/-- A duration within the range is not read, as the nearest double of its days is not in it. -/
theorem almostTooLong_not_read : ¬ ∀ v : Text,
    (∃ td, parseDuration (.str v) = .ok (some td)) ↔
      ∃ d : Duration, strip v = d.text ∧ d.exact ≤ maxMicroseconds := by
  intro h
  have hstrip : strip almostTooLong.text = almostTooLong.text := by decide
  have hparts : almostTooLong.parts = [(.days, almostDays)] := rfl
  have htotal : almostTooLong.total = some (1000000000 * 86400000000) := by
    rw [Duration.total, hparts, List.mapM_cons, micros_almostDays]
    exact congrArg some ((congrArg Clock.roundHalfEven (add_zero _)).trans
      (Clock.roundHalfEven_intCast _))
  have hexact : almostTooLong.exact ≤ maxMicroseconds := by
    rw [Duration.exact, hparts, List.map_singleton, List.sum_singleton, decimal_almostDays,
      maxMicroseconds, Clock.day, Clock.minute, TimeUnit.factor]
    norm_num
  obtain ⟨td, htd⟩ := (h almostTooLong.text).mpr ⟨almostTooLong, hstrip, hexact⟩
  rw [parse_duration almostTooLong hstrip, htotal, Option.filter_some_neg (by decide)] at htd
  cases htd

end Custodian.ParseDuration

import Custodian.Lib.Dict
import Custodian.Lib.Numeral
import Custodian.Lib.Split

/-!
# Schedules in tag values

`ScheduleParser` of `c7n/filters/offhours.py` reads a tag value such as
`off=[(m-f,21),(u,18)];on=(m-f,6);tz=pt`.  It splits, and it drops brackets and
parentheses wherever they stand, so that it takes more than what is documented.
-/

namespace Custodian.OffHours

open Py

/-! ## The parser -/

/-- `DAY_MAP` -/
def dayMap : List (Text × Nat) :=
  [("m".toList, 0), ("t".toList, 1), ("w".toList, 2), ("h".toList, 3), ("f".toList, 4),
   ("s".toList, 5), ("u".toList, 6)]

/-- `DAY_MAP.get(d)` -/
def day (d : Text) : Option Nat := dayMap.lookup d

/-- An entry of a schedule. -/
structure Entry where
  days : List Nat
  hour : Nat
  deriving DecidableEq, Repr

/-- A value of a schedule: the entries of `on` or `off`, or a time zone. -/
inductive Value where
  | times (l : List Entry)
  | zone (z : Text)
  deriving DecidableEq, Repr

abbrev Schedule := Dict Text Value

def keyOn : Text := "on".toList

def keyOff : Text := "off".toList

def keyTz : Text := "tz".toList

/-- What a function returns: a value, `None` (`.error none`) or nothing, when it raises. -/
abbrev Result (α : Type) := Except (Option Exn) α

/-- `return None` -/
def none' {α : Type} : Result α := .error none

def lift {α : Type} : Except Exn α → Result α
  | .ok a => .ok a
  | .error e => .error (some e)

def bracketsRemoved (u : Text) : Text := u.filter fun c => c ≠ '[' && c ≠ ']'

def parensRemoved (u : Text) : Text := u.filter fun c => c ≠ '(' && c ≠ ')'

/-- `raw_data`: the pieces between spaces and semicolons that have one `=`. -/
def rawData (tagValue : Text) : Dict Text Text :=
  Dict.ofPairs (((tagValue.splitOn ' ').flatMap (List.splitOn ';')).filterMap (splitTwo '='))

def keysAreValid (tagValue : Text) : Bool :=
  (rawData tagValue).keys.all fun key => key ∈ [keyOn, keyOff, keyTz]

/-- The days of a letter or a range of letters. -/
def expandDayRange (days : Text) : Option (List Nat) :=
  match day days with
  | some d => some [d]
  | none =>
    match (days.splitOn '-').filterMap day with
    | [x, y] =>
      -- support wrap around days aka friday-monday = 4,5,6,0
      if y < x then some (List.range' x (7 - x) ++ List.range (y + 1))
      else some (List.range' (min x y) (max x y + 1 - min x y))
    | _ => none

/-- The body of the loop of `parse_resource_schedule`. -/
def parseEntry (e : Text) : Result Entry :=
  match splitTwo ',' (parensRemoved e) with
  | some (days, hour) =>
    if isdigit hour then do
      let hour ← lift (int hour)
      -- the days are never the empty list
      if hour < 24 then (expandDayRange days).elim none' fun days => .ok ⟨days, hour⟩ else none'
    else none'
  | none => none'

def parseResourceSchedule (lexeme : Text) : Result (List Entry) :=
  (splitPair ',' '(' (bracketsRemoved lexeme)).mapM parseEntry

/-- The body of the loop of `parse`. -/
def parsePiece (piece : Text) : Result (Text × Value) :=
  match splitTwo '=' piece with
  | some (key, value) =>
    if key = keyTz then .ok (key, .zone value)
    else do return (key, .times (← parseResourceSchedule value))
  | none => none'

/-- `not v` -/
def Value.isBlank : Value → Bool
  | .times l => l = []
  | .zone z => z = []

/-- Add the default time zone when there is none or it is blank. -/
def withZone (defaultTz : Text) (schedule : Schedule) : Schedule :=
  if ((schedule.lookup keyTz).elim true Value.isBlank) then
    schedule.insert keyTz (.zone defaultTz)
  else schedule

/-- `parse` of a value that is not in the cache. -/
def parseFresh (defaultTz tagValue : Text) : Result Schedule :=
  if keysAreValid tagValue then do
    let entries ← (tagValue.splitOn ';').mapM parsePiece
    return withZone defaultTz (Dict.ofPairs entries)
  else none'

/-- The schedules that were parsed before. -/
abbrev Cache := Dict Text Schedule

/-- `parse`, and the cache afterwards. -/
def parse (defaultTz : Text) (cache : Cache) (tagValue : Text) :
    Except Exn (Option Schedule) × Cache :=
  match cache.lookup tagValue with
  | some schedule => (.ok (some schedule), cache)
  | none =>
    match parseFresh defaultTz tagValue with
    | .ok schedule => (.ok (some schedule), cache.insert tagValue schedule)
    | .error none => (.ok none, cache)
    | .error (some e) => (.error e, cache)

/-- The cache of a parser that has parsed these values. -/
def cacheAfter (defaultTz : Text) (values : List Text) : Cache :=
  values.foldl (fun cache v => (parse defaultTz cache v).2) ∅

/-! ## The language -/

/-- The days from `x` on to `y`, modulo a week. -/
def forward (x y : Nat) : List Nat := (List.range ((y + 7 - x) % 7 + 1)).map fun k => (x + k) % 7

/-- A letter, or two letters that are a range. -/
def IsDays (text : Text) (days : List Nat) : Prop :=
  (∃ x, day text = some x ∧ days = [x]) ∨
    ∃ a b x y, text = a ++ '-' :: b ∧ day a = some x ∧ day b = some y ∧ days = forward x y

/-- `days,hour` -/
def IsPair (text : Text) (t : Entry) : Prop :=
  ∃ days hour, text = days ++ ',' :: hour ∧ IsDays days t.days ∧ IsNumeral hour t.hour ∧ t.hour < 24

/-- The entries that are accepted: brackets anywhere, and pairs with parentheses
anywhere, of which each but the first has one at its beginning. -/
def IsTimes (text : Text) (l : List Entry) : Prop :=
  List.Forall₂ (fun e t => IsPair (parensRemoved e) t) (splitPair ',' '(' (bracketsRemoved text)) l

/-- `(days,hour)` -/
def enclosed (pair : Text) : Text := '(' :: pair ++ [')']

/-- The entries that are documented: a pair or a list of pairs. -/
inductive IsDocumentedTimes : Text → List Entry → Prop
  | pair {p : Text} {t : Entry} : IsPair p t → IsDocumentedTimes (enclosed p) [t]
  | list {ps : List Text} {l : List Entry} : ps ≠ [] → List.Forall₂ IsPair ps l →
      IsDocumentedTimes ('[' :: [','].intercalate (ps.map enclosed) ++ [']']) l

/-- `on=S`, `off=S` or `tz=Z`, where the entries `S` are of the language `Times`. -/
inductive Component (Times : Text → List Entry → Prop) : Text → Text × Value → Prop
  | times {key value : Text} {l : List Entry} : key = keyOn ∨ key = keyOff → '=' ∉ value →
      Times value l → Component Times (key ++ '=' :: value) (key, .times l)
  | zone {value : Text} : '=' ∉ value → Component Times (keyTz ++ '=' :: value) (keyTz, .zone value)

/-- The schedule of a list of components, of which the last one with a key counts. -/
def IsSchedule (Times : Text → List Entry → Prop) (defaultTz text : Text) (schedule : Schedule) :
    Prop :=
  ∃ entries, List.Forall₂ (Component Times) (text.splitOn ';') entries ∧
    schedule = withZone defaultTz (Dict.ofPairs entries)

/-! ## Where the parser reads too much -/

/-- A text of digits is one that `int` reads. -/
def ReadableHour (hour : Text) : Prop := isdigit hour = true → (int hour).isOk = true

/-- A range with two known letters has no third part. -/
def PlainRange (days : Text) : Prop :=
  ((days.splitOn '-').filterMap day).length = 2 → (days.splitOn '-').length = 2

def PlainEntry (e : Text) : Prop :=
  ∀ p ∈ splitTwo ',' (parensRemoved e), PlainRange p.1 ∧ ReadableHour p.2

def PlainEntries (value : Text) : Prop :=
  ∀ e ∈ splitPair ',' '(' (bracketsRemoved value), PlainEntry e

/-- The key is not an unknown one that has a known key as its last word. -/
def PlainKey (key : Text) : Prop :=
  afterLast ' ' key ∈ [keyOn, keyOff, keyTz] → key ∈ [keyOn, keyOff, keyTz]

/-- The keys and the entries are plain. -/
def Plain (text : Text) : Prop :=
  ∀ piece ∈ text.splitOn ';', ∀ p ∈ splitTwo '=' piece,
    PlainKey p.1 ∧ (p.1 ≠ keyTz → PlainEntries p.2)

instance (hour : Text) : Decidable (ReadableHour hour) := by unfold ReadableHour; infer_instance

instance (days : Text) : Decidable (PlainRange days) := by unfold PlainRange; infer_instance

instance (e : Text) : Decidable (PlainEntry e) := by unfold PlainEntry; infer_instance

instance (value : Text) : Decidable (PlainEntries value) := by unfold PlainEntries; infer_instance

instance (key : Text) : Decidable (PlainKey key) := by unfold PlainKey; infer_instance

instance (text : Text) : Decidable (Plain text) := by unfold Plain; infer_instance

/-! ## Days and hours -/

theorem day_eq_some {d : Text} {n : Nat} : day d = some n ↔ (d, n) ∈ dayMap := by
  have hkeys : ∀ e ∈ dayMap, ∀ e' ∈ dayMap, e.1 = e'.1 → e.2 = e'.2 := by decide
  rw [day, ← lookup_eq_some_iff (fun k v v' hv hv' => hkeys (k, v) hv (k, v') hv' rfl) d n]
  congr!

theorem exists_of_day {d : Text} {n : Nat} (h : day d = some n) :
    (∃ c ∈ "mtwhfsu".toList, d = [c]) ∧ n < 7 :=
  (by decide : ∀ e ∈ dayMap, (∃ c ∈ "mtwhfsu".toList, e.1 = [c]) ∧ e.2 < 7) _ (day_eq_some.mp h)

theorem not_mem_of_day {d : Text} {n : Nat} (h : day d = some n) {c : Char}
    (hc : c ∉ "mtwhfsu".toList) : c ∉ d := by
  obtain ⟨⟨l, hl, rfl⟩, -⟩ := exists_of_day h
  rw [List.mem_singleton]
  rintro rfl
  exact hc hl

theorem forward_eq {x y : Nat} (hx : x < 7) (hy : y < 7) :
    (if y < x then List.range' x (7 - x) ++ List.range (y + 1)
      else List.range' (min x y) (max x y + 1 - min x y)) = forward x y :=
  (by decide : ∀ x < 7, ∀ y < 7, (if y < x then List.range' x (7 - x) ++ List.range (y + 1)
    else List.range' (min x y) (max x y + 1 - min x y)) = forward x y) x hx y hy

theorem expandDayRange_range {a b : Text} {x y : Nat} (ha : day a = some x) (hb : day b = some y) :
    expandDayRange (a ++ '-' :: b) = some (forward x y) := by
  have hnone : day (a ++ '-' :: b) = none := by
    cases h : day (a ++ '-' :: b) with
    | none => rfl
    | some n => exact absurd (by simp) (not_mem_of_day h (by decide : '-' ∉ _))
  have hsplit : (a ++ '-' :: b).splitOn '-' = [a, b] := by
    rw [List.splitOn_append_cons_self_of_not_mem (not_mem_of_day ha (by decide)),
      List.splitOn_eq_singleton (not_mem_of_day hb (by decide))]
  simp only [expandDayRange, hnone, hsplit, List.filterMap_cons, List.filterMap_nil, ha, hb]
  rw [← forward_eq (exists_of_day ha).2 (exists_of_day hb).2]
  split <;> rfl

theorem expandDayRange_eq_some {text : Text} (h : PlainRange text) {days : List Nat} :
    expandDayRange text = some days ↔ IsDays text days := by
  constructor
  · intro hd
    cases hday : day text with
    | some x =>
      simp only [expandDayRange, hday, Option.some.injEq] at hd
      exact Or.inl ⟨x, hday, hd.symm⟩
    | none =>
      right
      have hsome : (expandDayRange text).isSome = true := by rw [hd]; rfl
      simp only [expandDayRange, hday] at hsome
      split at hsome
      · rename_i x y hxy
        obtain ⟨a, b, hab⟩ := List.length_eq_two.mp (h (by rw [hxy]; rfl))
        rw [hab] at hxy
        obtain ⟨rfl, -, -⟩ := splitTwo_eq_some.mp (show splitTwo '-' text = some (a, b) by
          rw [splitTwo, hab])
        cases ha : day a with
        | none =>
          rw [List.filterMap_cons_none ha] at hxy
          cases hb : day b <;> simp [hb] at hxy
        | some x' =>
          cases hb : day b with
          | none => simp [ha, hb] at hxy
          | some y' =>
            rw [expandDayRange_range ha hb, Option.some.injEq] at hd
            exact ⟨a, b, x', y', rfl, ha, hb, hd.symm⟩
      · cases hsome
  · rintro (⟨x, hx, rfl⟩ | ⟨a, b, x, y, rfl, ha, hb, rfl⟩)
    · simp only [expandDayRange, hx]
    · exact expandDayRange_range ha hb

theorem not_mem_of_isDays {text : Text} {days : List Nat} (h : IsDays text days) {c : Char}
    (hc : c ∉ "mtwhfsu-".toList) : c ∉ text := by
  have hl : c ∉ "mtwhfsu".toList := fun hm => hc (List.mem_append_left ['-'] hm)
  rcases h with ⟨x, hx, -⟩ | ⟨a, b, x, y, rfl, ha, hb, -⟩
  · exact not_mem_of_day hx hl
  · rw [List.mem_append, List.mem_cons, not_or, not_or]
    refine ⟨not_mem_of_day ha hl, ?_, not_mem_of_day hb hl⟩
    rintro rfl
    exact hc (by decide)

/-! ## Entries -/

theorem lift_eq_ok {α : Type} {x : Except Exn α} {a : α} : lift x = .ok a ↔ x = .ok a := by
  cases x <;> simp [lift]

theorem IsNumeral.not_mem {s : Text} {n : Nat} (h : IsNumeral s n) {c : Char}
    (hc : digitValue c = none) : c ∉ s := by
  obtain ⟨-, ds, hds, -⟩ := h
  intro hs
  obtain ⟨d, -, hd⟩ := exists_of_forall₂ hds hs
  rw [hc] at hd
  cases hd

theorem ReadableHour.exists {hour : Text} (h : ReadableHour hour) (hd : isdigit hour = true) :
    ∃ n, int hour = .ok n := by
  have hok := h hd
  cases hn : int hour with
  | error e =>
    rw [hn] at hok
    cases hok
  | ok n => exact ⟨n, rfl⟩

theorem parseEntry_eq_ok {e : Text} (h : PlainEntry e) {t : Entry} :
    parseEntry e = .ok t ↔ IsPair (parensRemoved e) t := by
  obtain ⟨days', hour'⟩ := t
  constructor
  · intro ht
    rw [parseEntry] at ht
    split at ht
    · rename_i days hour hsplit
      split at ht
      · rw [bind_eq_ok] at ht
        obtain ⟨n, hn, ht⟩ := ht
        have hn := (int_eq_ok.mp (lift_eq_ok.mp hn)).1
        split at ht
        · rename_i hlt
          cases hd : expandDayRange days with
          | none => simp [hd, none'] at ht
          | some ds =>
            simp only [hd, Option.elim_some, Except.ok.injEq, Entry.mk.injEq] at ht
            obtain ⟨rfl, rfl⟩ := ht
            exact ⟨days, hour, (splitTwo_eq_some.mp hsplit).1,
              (expandDayRange_eq_some (h _ hsplit).1).mp hd, hn, hlt⟩
        · cases ht
      · cases ht
    · cases ht
  · rintro ⟨days, hour, htext, hdays, hhour, hlt⟩
    have hsplit : splitTwo ',' (parensRemoved e) = some (days, hour) :=
      splitTwo_eq_some.mpr ⟨htext, not_mem_of_isDays hdays (by decide),
        IsNumeral.not_mem hhour (by decide)⟩
    obtain ⟨hplain, hread⟩ := h _ hsplit
    obtain ⟨n, hn⟩ := hread.exists hhour.isdigit
    obtain rfl := hhour.unique (int_eq_ok.mp hn).1
    rw [parseEntry, hsplit]
    simp only [hhour.isdigit, if_true, hn, lift]
    show (if hour' < 24 then _ else none') = _
    rw [if_pos hlt, (expandDayRange_eq_some hplain).mpr hdays]
    rfl

theorem parseEntry_ne_raise {e : Text} (h : PlainEntry e) {x : Exn} :
    parseEntry e ≠ .error (some x) := by
  intro hx
  rw [parseEntry] at hx
  split at hx
  · rename_i days hour hsplit
    split at hx
    · rename_i hdigits
      obtain ⟨n, hn⟩ := (h _ hsplit).2.exists hdigits
      rw [bind_eq_error, hn] at hx
      rcases hx with hx | ⟨m, -, hx⟩
      · cases hx
      · split at hx
        · cases hd : expandDayRange days <;> simp [hd, none'] at hx
        · cases hx
    · cases hx
  · cases hx

theorem parseResourceSchedule_eq_ok {value : Text} (h : PlainEntries value) {l : List Entry} :
    parseResourceSchedule value = .ok l ↔ IsTimes value l := by
  rw [parseResourceSchedule, mapM_eq_ok, IsTimes]
  exact forall₂_congr_mem fun e he t => parseEntry_eq_ok (h e he)

theorem parseResourceSchedule_ne_raise {value : Text} (h : PlainEntries value) {x : Exn} :
    parseResourceSchedule value ≠ .error (some x) := by
  intro hx
  obtain ⟨e, he, hx⟩ := exists_of_mapM_eq_error hx
  exact parseEntry_ne_raise (h e he) hx

/-! ## Keys -/

theorem keysAreValid_eq_true {text : Text} :
    keysAreValid text = true ↔ ∀ piece ∈ text.splitOn ';', ∀ word ∈ piece.splitOn ' ',
      ∀ p ∈ splitTwo '=' word, p.1 ∈ [keyOn, keyOff, keyTz] := by
  rw [keysAreValid, rawData, flatMap_splitOn_comm]
  simp only [List.all_eq_true, decide_eq_true_eq]
  have hkeys : ∀ (l : List (Text × Text)) key, key ∈ (Dict.ofPairs l).keys ↔ ∃ e ∈ l, e.1 = key := by
    intro l key
    have h := Dict.lookup_ofPairs_eq_none l key
    rw [AList.lookup_eq_none, AList.mem_keys] at h
    rw [← not_iff_not, h]
    simp only [not_exists, not_and, ne_eq]
  simp only [hkeys, List.mem_filterMap, List.mem_flatMap]
  constructor
  · intro h piece hpiece word hword p hp
    exact h p.1 ⟨p, ⟨word, ⟨piece, hpiece, hword⟩, hp⟩, rfl⟩
  · rintro h key ⟨p, ⟨word, ⟨piece, hpiece, hword⟩, hp⟩, rfl⟩
    exact h piece hpiece word hword p hp

theorem splitOn_component {key value : Text} (hk : '=' ∉ key) (hv : '=' ∉ value) :
    ∃ before first rest, (key ++ '=' :: value).splitOn ' ' =
        before ++ (afterLast ' ' key ++ '=' :: first) :: rest ∧
      '=' ∉ first ∧ (∀ word ∈ before, '=' ∉ word) ∧ ∀ word ∈ rest, '=' ∉ word := by
  obtain ⟨first, rest, hvalue⟩ := List.exists_cons_of_ne_nil (List.splitOn_ne_nil ' ' value)
  have hmem := forall_not_mem_splitOn (c := ' ') hv
  rw [hvalue, List.forall_mem_cons] at hmem
  have hlast : ∀ {b : Text}, ' ' ∉ b →
      (b ++ '=' :: value).splitOn ' ' = (b ++ '=' :: first) :: rest := by
    intro b hb
    have hb' : ' ' ∉ b ++ ['='] := by simp [hb]
    rw [show b ++ '=' :: value = (b ++ ['=']) ++ value by simp, splitOn_append_of_not_mem hb', hvalue]
    simp
  by_cases hspace : ' ' ∈ key
  · obtain ⟨a, b, rfl, hb⟩ := exists_last hspace
    have ha : '=' ∉ a := fun h => hk (List.mem_append_left _ h)
    refine ⟨a.splitOn ' ', first, rest, ?_, hmem.1, forall_not_mem_splitOn ha, hmem.2⟩
    rw [afterLast_append a hb, List.append_assoc, List.cons_append,
      List.splitOn_append_cons_self, hlast hb]
  · refine ⟨[], first, rest, ?_, hmem.1, by simp, hmem.2⟩
    rw [afterLast_of_not_mem hspace, hlast hspace, List.nil_append]

theorem key_of_component {piece key value : Text} (h : splitTwo '=' piece = some (key, value))
    {P : Text → Prop} :
    (∀ word ∈ piece.splitOn ' ', ∀ p ∈ splitTwo '=' word, P p.1) ↔ P (afterLast ' ' key) := by
  obtain ⟨rfl, hk, hv⟩ := splitTwo_eq_some.mp h
  obtain ⟨before, first, rest, hwords, hfirst, hbefore, hrest⟩ := splitOn_component hk hv
  have hlast : '=' ∉ afterLast ' ' key := by
    intro hm
    rw [afterLast, List.mem_reverse] at hm
    exact hk (List.mem_reverse.mp ((List.takeWhile_sublist _).subset hm))
  have hsplit : splitTwo '=' (afterLast ' ' key ++ '=' :: first) =
      some (afterLast ' ' key, first) := splitTwo_eq_some.mpr ⟨rfl, hlast, hfirst⟩
  have hno : ∀ word : Text, '=' ∉ word → ∀ p, p ∉ splitTwo '=' word := by
    rintro word hword p hp
    obtain ⟨rfl, -, -⟩ := splitTwo_eq_some.mp hp
    exact hword (by simp)
  rw [hwords]
  constructor
  · intro hP
    exact hP _ (by simp) _ hsplit
  · intro hP word hword p hp
    rcases List.mem_append.mp hword with hword | hword
    · exact absurd hp (hno word (hbefore word hword) p)
    · rcases List.mem_cons.mp hword with rfl | hword
      · rw [hsplit, Option.mem_some] at hp
        exact hp ▸ hP
      · exact absurd hp (hno word (hrest word hword) p)

/-! ## Components and values -/

theorem parsePiece_eq_ok {piece : Text} {e : Text × Value} :
    parsePiece piece = .ok e ↔ ∃ key value, splitTwo '=' piece = some (key, value) ∧
      ((key = keyTz ∧ e = (key, .zone value)) ∨
        (key ≠ keyTz ∧ ∃ l, parseResourceSchedule value = .ok l ∧ e = (key, .times l))) := by
  rw [parsePiece]
  cases h : splitTwo '=' piece with
  | none => simp [none']
  | some p =>
    obtain ⟨key, value⟩ := p
    by_cases hk : key = keyTz
    · simp only [hk, if_true]
      constructor
      · rintro ⟨⟩
        exact ⟨keyTz, value, rfl, Or.inl ⟨rfl, rfl⟩⟩
      · rintro ⟨_, _, ⟨⟩, ⟨-, rfl⟩ | ⟨hne, -⟩⟩
        · rfl
        · exact absurd rfl hne
    · simp only [hk, if_false, bind_eq_ok]
      constructor
      · rintro ⟨l, hl, ⟨⟩⟩
        exact ⟨key, value, rfl, Or.inr ⟨hk, l, hl, rfl⟩⟩
      · rintro ⟨_, _, ⟨⟩, ⟨hk', -⟩ | ⟨-, l, hl, rfl⟩⟩
        · exact absurd hk' hk
        · exact ⟨l, hl, rfl⟩

theorem parsePiece_ne_raise {piece : Text} {x : Exn}
    (h : ∀ p ∈ splitTwo '=' piece, p.1 ≠ keyTz → PlainEntries p.2) :
    parsePiece piece ≠ .error (some x) := by
  intro hx
  rw [parsePiece] at hx
  split at hx
  · rename_i key value hkv
    split at hx
    · cases hx
    · rename_i hk
      rw [bind_eq_error] at hx
      rcases hx with hx | ⟨l, -, hx⟩
      · exact parseResourceSchedule_ne_raise (h _ hkv hk) hx
      · cases hx
  · cases hx

theorem parsePiece_eq_component {text piece : Text} (hplain : Plain text)
    (hpiece : piece ∈ text.splitOn ';') (hkeys : keysAreValid text = true) (e : Text × Value) :
    parsePiece piece = .ok e ↔ Component IsTimes piece e := by
  rw [parsePiece_eq_ok]
  constructor
  · rintro ⟨key, value, hkv, h⟩
    obtain ⟨rfl, hk, hv⟩ := splitTwo_eq_some.mp hkv
    obtain ⟨hlast, hentries⟩ := hplain _ hpiece _ hkv
    have hkey := hlast ((key_of_component hkv).mp (keysAreValid_eq_true.mp hkeys _ hpiece))
    rcases h with ⟨rfl, rfl⟩ | ⟨hne, l, hl, rfl⟩
    · exact .zone hv
    · refine .times ?_ hv ((parseResourceSchedule_eq_ok (hentries hne)).mp hl)
      simpa [hne] using hkey
  · intro h
    cases h with
    | @times key value l hkey hv hl =>
      have hk : '=' ∉ key ∧ key ≠ keyTz := by rcases hkey with rfl | rfl <;> decide
      have hkv : splitTwo '=' (key ++ '=' :: value) = some (key, value) :=
        splitTwo_eq_some.mpr ⟨rfl, hk.1, hv⟩
      have hentries := (hplain _ hpiece _ hkv).2 hk.2
      exact ⟨key, value, hkv, Or.inr ⟨hk.2, l, (parseResourceSchedule_eq_ok hentries).mpr hl, rfl⟩⟩
    | @zone value hv =>
      exact ⟨keyTz, value, splitTwo_eq_some.mpr ⟨rfl, by decide, hv⟩, Or.inl ⟨rfl, rfl⟩⟩

theorem Component.key {Times : Text → List Entry → Prop} {piece : Text} {e : Text × Value}
    (h : Component Times piece e) :
    ∃ value, splitTwo '=' piece = some (e.1, value) ∧ e.1 ∈ [keyOn, keyOff, keyTz] ∧ ' ' ∉ e.1 ∧
      (e.1 ≠ keyTz → ∃ l, Times value l) := by
  cases h with
  | @times key value l hkey hv hl =>
    have hk : '=' ∉ key ∧ key ∈ [keyOn, keyOff, keyTz] ∧ ' ' ∉ key := by
      rcases hkey with rfl | rfl <;> decide
    exact ⟨value, splitTwo_eq_some.mpr ⟨rfl, hk.1, hv⟩, hk.2.1, hk.2.2, fun _ => ⟨l, hl⟩⟩
  | @zone value hv =>
    have hk : '=' ∉ keyTz ∧ keyTz ∈ [keyOn, keyOff, keyTz] ∧ ' ' ∉ keyTz := by decide
    exact ⟨value, splitTwo_eq_some.mpr ⟨rfl, hk.1, hv⟩, hk.2.1, hk.2.2, fun h => absurd rfl h⟩

theorem keysAreValid_of_components {Times : Text → List Entry → Prop} {text : Text}
    {entries : List (Text × Value)}
    (h : List.Forall₂ (Component Times) (text.splitOn ';') entries) : keysAreValid text = true := by
  refine keysAreValid_eq_true.mpr fun piece hpiece => ?_
  obtain ⟨e, -, he⟩ := exists_of_forall₂ h hpiece
  obtain ⟨value, hkv, hkey, hspace, -⟩ := he.key
  rw [key_of_component hkv, afterLast_of_not_mem hspace]
  exact hkey

theorem parseFresh_eq_ok {defaultTz text : Text} (h : Plain text) {schedule : Schedule} :
    parseFresh defaultTz text = .ok schedule ↔ IsSchedule IsTimes defaultTz text schedule := by
  rw [parseFresh, IsSchedule]
  constructor
  · intro hs
    split at hs
    · rename_i hkeys
      simp only [bind_eq_ok, pure_eq_ok, mapM_eq_ok] at hs
      obtain ⟨entries, hentries, rfl⟩ := hs
      exact ⟨entries, (forall₂_congr_mem fun piece hp => parsePiece_eq_component h hp hkeys).mp
        hentries, rfl⟩
    · cases hs
  · rintro ⟨entries, hentries, rfl⟩
    have hkeys := keysAreValid_of_components hentries
    simp only [hkeys, if_true, bind_eq_ok, pure_eq_ok, mapM_eq_ok]
    exact ⟨entries, (forall₂_congr_mem fun piece hp => parsePiece_eq_component h hp hkeys).mpr
      hentries, rfl⟩

theorem parseFresh_ne_raise {defaultTz text : Text} (h : Plain text) {x : Exn} :
    parseFresh defaultTz text ≠ .error (some x) := by
  intro hx
  rw [parseFresh] at hx
  split at hx
  · rw [bind_eq_error] at hx
    rcases hx with hx | ⟨entries, -, hx⟩
    · obtain ⟨piece, hpiece, hx⟩ := exists_of_mapM_eq_error hx
      exact parsePiece_ne_raise (fun p hp => (h piece hpiece p hp).2) hx
    · cases hx
  · cases hx

/-! ## The documented schedules -/

theorem IsPair.not_mem {text : Text} {t : Entry} (h : IsPair text t) {c : Char}
    (hc : c ∉ "mtwhfsu-,".toList) (hd : digitValue c = none) : c ∉ text := by
  obtain ⟨days, hour, rfl, hdays, hhour, -⟩ := h
  rw [List.mem_append, List.mem_cons, not_or, not_or]
  refine ⟨not_mem_of_isDays hdays fun hm => hc ?_, ?_, IsNumeral.not_mem hhour hd⟩
  · exact List.mem_append_left [','] hm
  · rintro rfl
    exact hc (by decide)

theorem parensRemoved_of_not_mem {s : Text} (h : '(' ∉ s) (h' : ')' ∉ s) : parensRemoved s = s := by
  rw [parensRemoved, List.filter_eq_self]
  intro c hc
  simp only [Bool.and_eq_true, decide_eq_true_eq]
  exact ⟨fun he => h (he ▸ hc), fun he => h' (he ▸ hc)⟩

theorem parensRemoved_append (a b : Text) :
    parensRemoved (a ++ b) = parensRemoved a ++ parensRemoved b := List.filter_append ..

theorem bracketsRemoved_of_not_mem {s : Text} (h : '[' ∉ s) (h' : ']' ∉ s) :
    bracketsRemoved s = s := by
  rw [bracketsRemoved, List.filter_eq_self]
  intro c hc
  simp only [Bool.and_eq_true, decide_eq_true_eq]
  exact ⟨fun he => h (he ▸ hc), fun he => h' (he ▸ hc)⟩

theorem intercalate_enclosed (p : Text) (ps : List Text) :
    [','].intercalate ((p :: ps).map enclosed) =
      [',', '('].intercalate (enclosed p :: ps.map (· ++ [')'])) := by
  induction ps generalizing p with
  | nil => simp
  | cons q ps ih =>
    have hq : [',', '('].intercalate (enclosed q :: ps.map (· ++ [')'])) =
        '(' :: [',', '('].intercalate ((q :: ps).map (· ++ [')'])) := by
      rw [enclosed, List.cons_append, List.intercalate_cons_cons_left, List.map_cons]
    rw [List.map_cons, List.map_cons, List.intercalate_cons_cons, ← List.map_cons, ih q, hq,
      List.map_cons, List.intercalate_cons_cons]
    simp

theorem not_infix_enclosed {p : Text} (h : '(' ∉ p) :
    ¬[',', '('] <:+: enclosed p ∧ ¬[',', '('] <:+: p ++ [')'] := by
  have hclosed : ¬[',', '('] <:+: p ++ [')'] := by
    intro hi
    have hm : '(' ∈ p ++ [')'] := hi.subset (by simp)
    simp [h] at hm
  refine ⟨fun hi => ?_, hclosed⟩
  rcases List.infix_cons_iff.mp hi with hi | hi
  · simp [List.cons_prefix_cons] at hi
  · exact hclosed hi

theorem splitPair_enclosed {p : Text} {ps : List Text} (h : ∀ q ∈ p :: ps, '(' ∉ q) :
    splitPair ',' '(' ([','].intercalate ((p :: ps).map enclosed)) =
      enclosed p :: ps.map (· ++ [')']) := by
  rw [List.forall_mem_cons] at h
  rw [intercalate_enclosed]
  refine splitPair_intercalate (by decide) (by simp) ?_
  rw [List.forall_mem_cons]
  refine ⟨(not_infix_enclosed h.1).1, fun part hpart => ?_⟩
  obtain ⟨q, hq, rfl⟩ := List.mem_map.mp hpart
  exact (not_infix_enclosed (h.2 q hq)).2

theorem isTimes_of_enclosed {ps : List Text} {l : List Entry} (hne : ps ≠ [])
    (h : List.Forall₂ IsPair ps l) {text : Text}
    (htext : bracketsRemoved text = [','].intercalate (ps.map enclosed)) : IsTimes text l := by
  have hmem : ∀ q ∈ ps, '(' ∉ q ∧ ')' ∉ q := by
    intro q hq
    obtain ⟨t, -, ht⟩ := exists_of_forall₂ h hq
    exact ⟨ht.not_mem (by decide) (by decide), ht.not_mem (by decide) (by decide)⟩
  rw [IsTimes, htext]
  cases h with
  | nil => exact absurd rfl hne
  | @cons p t ps l hp hps =>
    rw [splitPair_enclosed fun q hq => (hmem q hq).1, List.forall₂_cons]
    rw [List.forall_mem_cons] at hmem
    constructor
    · rw [enclosed, ← List.singleton_append, parensRemoved_append, parensRemoved_append,
        parensRemoved_of_not_mem hmem.1.1 hmem.1.2]
      simpa [parensRemoved] using hp
    · rw [List.forall₂_map_left_iff]
      refine (forall₂_congr_mem fun q hq t => ?_).mpr hps
      rw [parensRemoved_append, parensRemoved_of_not_mem (hmem.2 q hq).1 (hmem.2 q hq).2]
      simp [parensRemoved]

theorem bracketsRemoved_enclosed {ps : List Text} {l : List Entry}
    (h : List.Forall₂ IsPair ps l) : bracketsRemoved ([','].intercalate (ps.map enclosed)) =
      [','].intercalate (ps.map enclosed) := by
  have hmem : ∀ {c : Char}, c ∉ "mtwhfsu-,()".toList → digitValue c = none →
      ∀ q ∈ ps.map enclosed, c ∉ q := by
    intro c hc hd part hpart
    obtain ⟨p, hp, rfl⟩ := List.mem_map.mp hpart
    obtain ⟨t, -, ht⟩ := exists_of_forall₂ h hp
    have hp : c ∉ p := ht.not_mem (fun hm => hc (List.mem_append_left "()".toList hm)) hd
    rw [enclosed, List.cons_append, List.mem_cons, List.mem_append, List.mem_singleton]
    rintro (rfl | hm | rfl)
    · exact hc (by decide)
    · exact hp hm
    · exact hc (by decide)
  exact bracketsRemoved_of_not_mem
    (not_mem_intercalate (by decide) (hmem (by decide) (by decide)))
    (not_mem_intercalate (by decide) (hmem (by decide) (by decide)))

theorem IsDocumentedTimes.head {text : Text} {l : List Entry} (h : IsDocumentedTimes text l) :
    ['('] <+: text ∨ "[(".toList <+: text := by
  cases h with
  | @pair p t hp => exact Or.inl ⟨p ++ [')'], rfl⟩
  | @list ps l hne hps =>
    obtain ⟨p, ps, rfl⟩ := List.exists_cons_of_ne_nil hne
    refine Or.inr ?_
    rw [intercalate_enclosed, enclosed, List.cons_append, List.cons_append,
      List.intercalate_cons_cons_left]
    exact ⟨_, rfl⟩

theorem isTimes_of_documented {text : Text} {l : List Entry} (h : IsDocumentedTimes text l) :
    IsTimes text l := by
  cases h with
  | @pair p t hp =>
    have hps : List.Forall₂ IsPair [p] [t] := .cons hp .nil
    refine isTimes_of_enclosed (by simp) hps ?_
    simpa using bracketsRemoved_enclosed hps
  | @list ps l hne hps =>
    refine isTimes_of_enclosed hne hps ?_
    rw [← bracketsRemoved_enclosed hps]
    simp [bracketsRemoved]

theorem IsSchedule.mono {T T' : Text → List Entry → Prop} (h : ∀ text l, T text l → T' text l)
    {defaultTz text : Text} {schedule : Schedule} (hs : IsSchedule T defaultTz text schedule) :
    IsSchedule T' defaultTz text schedule := by
  obtain ⟨entries, hentries, rfl⟩ := hs
  refine ⟨entries, hentries.imp fun piece e he => ?_, rfl⟩
  cases he with
  | times hkey hv hl => exact .times hkey hv (h _ _ hl)
  | zone hv => exact .zone hv

/-! ## The cache -/

/-- A result, and `None` as a value. -/
def returned {α : Type} : Result α → Except Exn (Option α)
  | .ok a => .ok (some a)
  | .error none => .ok none
  | .error (some e) => .error e

/-- The cache holds what was parsed. -/
def Faithful (defaultTz : Text) (cache : Cache) : Prop :=
  ∀ text schedule, cache.lookup text = some schedule → parseFresh defaultTz text = .ok schedule

variable {defaultTz : Text}

theorem parse_of_faithful {cache : Cache} (h : Faithful defaultTz cache) (text : Text) :
    (parse defaultTz cache text).1 = returned (parseFresh defaultTz text) := by
  rw [parse]
  cases hc : cache.lookup text with
  | some schedule => rw [h _ _ hc]; rfl
  | none =>
    cases parseFresh defaultTz text with
    | ok schedule => rfl
    | error e => cases e <;> rfl

theorem faithful_parse {cache : Cache} (h : Faithful defaultTz cache) (text : Text) :
    Faithful defaultTz (parse defaultTz cache text).2 := by
  rw [parse]
  cases cache.lookup text with
  | some schedule => exact h
  | none =>
    cases hf : parseFresh defaultTz text with
    | error e => cases e <;> exact h
    | ok schedule =>
      intro text' schedule' hl
      by_cases htext : text' = text
      · subst htext
        rw [AList.lookup_insert, Option.some.injEq] at hl
        rw [hf, hl]
      · rw [AList.lookup_insert_ne htext] at hl
        exact h _ _ hl

theorem faithful_cacheAfter (values : List Text) : Faithful defaultTz (cacheAfter defaultTz values) := by
  induction values using List.reverseRecOn with
  | nil =>
    intro text schedule h
    rw [cacheAfter, List.foldl_nil, AList.lookup_empty] at h
    cases h
  | append_singleton values v ih =>
    rw [cacheAfter, List.foldl_append]
    exact faithful_parse ih v

/-- **Schedules that are accepted.**  A parser, whatever it has parsed before, returns a
schedule for the components of the accepted language and only for them, among them the
documented ones, and `None` for every other plain text. -/
theorem parse_accepts (defaultTz : Text) (history : List Text) (text : Text) (h : Plain text) :
    ∃ result, (parse defaultTz (cacheAfter defaultTz history) text).1 = .ok result ∧
      (∀ schedule, result = some schedule ↔ IsSchedule IsTimes defaultTz text schedule) ∧
      ∀ schedule, IsSchedule IsDocumentedTimes defaultTz text schedule → result = some schedule := by
  have hresult : ∃ result, returned (parseFresh defaultTz text) = .ok result ∧
      ∀ schedule, result = some schedule ↔ IsSchedule IsTimes defaultTz text schedule := by
    simp only [← parseFresh_eq_ok h]
    cases hf : parseFresh defaultTz text with
    | ok schedule => exact ⟨some schedule, rfl, by simp⟩
    | error e =>
      cases e with
      | none => exact ⟨none, rfl, by simp⟩
      | some x => exact absurd hf (parseFresh_ne_raise h)
  obtain ⟨result, hr, hiff⟩ := hresult
  refine ⟨result, ?_, hiff, fun schedule hs => (hiff schedule).mpr ?_⟩
  · rw [parse_of_faithful (faithful_cacheAfter history), hr]
  · exact hs.mono fun _ _ => isTimes_of_documented

def weekdaysFromSeven : Text := "off=[(m-f,19),(u,18)];on=(m-f,7)".toList

theorem weekdaysFromSeven_accepted : Plain weekdaysFromSeven ∧
    ∃ result, (parse "et".toList (cacheAfter "et".toList [weekdaysFromSeven]) weekdaysFromSeven).1 =
        .ok result ∧
      (∀ schedule, result = some schedule ↔
        IsSchedule IsTimes "et".toList weekdaysFromSeven schedule) ∧
      ∀ schedule, IsSchedule IsDocumentedTimes "et".toList weekdaysFromSeven schedule →
        result = some schedule :=
  have h : Plain weekdaysFromSeven := by decide +kernel
  ⟨h, parse_accepts "et".toList [weekdaysFromSeven] weekdaysFromSeven h⟩

theorem exists_of_isSome {α : Type} {r : Except Exn (Option α)}
    (h : r.toOption.join.isSome = true) : ∃ a, r = .ok (some a) := by
  rcases r with e | _ | a
  · cases h
  · cases h
  · exact ⟨a, rfl⟩

/-- Brackets stand for the parentheses of a single pair, which is not documented. -/
theorem brackets_accepted :
    (∃ schedule, (parse "et".toList ∅ "on=[m-f,5]".toList).1 = .ok (some schedule)) ∧
      ¬∃ schedule, IsSchedule IsDocumentedTimes "et".toList "on=[m-f,5]".toList schedule := by
  constructor
  · exact exists_of_isSome (by decide +kernel)
  · rintro ⟨schedule, entries, hentries, -⟩
    have hpiece : "on=[m-f,5]".toList ∈ "on=[m-f,5]".toList.splitOn ';' := by decide +kernel
    obtain ⟨e, -, he⟩ := exists_of_forall₂ hentries hpiece
    obtain ⟨value, hkv, -, -, htimes⟩ := he.key
    have hsplit : splitTwo '=' "on=[m-f,5]".toList = some (keyOn, "[m-f,5]".toList) := by
      decide +kernel
    rw [hsplit, Option.some.injEq, Prod.mk.injEq] at hkv
    obtain ⟨hkey, rfl⟩ := hkv
    obtain ⟨l, hl⟩ := htimes (by rw [← hkey]; decide)
    exact absurd hl.head (by decide)

end Custodian.OffHours

import Custodian.Lib.Clock
import Custodian.Lib.FormatString

/-!
# Marks for a later action

`mark-for-op` writes a tag value that ends in an operation and a date, and
`marked-for-op` reads it: the text after the last colon, up to the `@`, is the
operation and what follows is the date.  A date without a time is compared with
the local clock, whatever the time zone of the mark is.
-/

namespace Custodian.Tags

open Py Py.Format Py.Clock

/-! ## Configurations -/

/-- The data of a `mark-for-op` action. -/
structure MarkForOp where
  op : Option Text
  tag : Option Text
  msg : Option Text
  days : Option ℚ
  hours : Option ℚ
  tz : Option Text

/-- The data of a `marked-for-op` filter. -/
structure MarkedForOp where
  op : Option Text
  tag : Option Text
  tz : Option Text
  skew : Option ℚ
  skewHours : Option ℚ

def defaultTag : Text := "maid_status".toList

def defaultOp : Text := "stop".toList

def defaultTemplate : Text := "Resource does not meet policy: {op}@{action_date}".toList

/-- A date that was parsed: without a time zone, or with an offset from UTC. -/
inductive Parsed where
  | naive (w : Int)
  | aware (w offset : Int)
  deriving DecidableEq, Repr

/-- The name of a registered action. -/
def IsOpName (op : Text) : Prop := ':' ∉ op ∧ '@' ∉ op ∧ HasEdges op

/-- What the action and the filter find around them: the objects of the
formatter, the time zones by their aliases, the local one, the date parser,
which takes no text with an `@`, and the registered actions. -/
structure Runtime (V : Type) where
  objects : Objects V
  gettz : Text → Option Zone
  localZone : Zone
  parse : Text → Option Parsed
  registry : List Text
  format_ofText : ∀ s, objects.format (objects.ofText s) [] = .ok s
  registry_isOpName : ∀ op ∈ registry, IsOpName op
  parse_at : ∀ s, '@' ∈ s → parse s = none

variable {V : Type} (r : Runtime V)

/-- `validate` of the action and of the filter: the operation is registered and
the time zone is known. -/
def validate (op tz : Option Text) : Except Exn Zone :=
  let invalid := Exn.raised "PolicyValidationError".toList
  match op with
  | none => .error invalid
  | some op =>
    if op ∈ r.registry then (r.gettz (tz.getD "utc".toList)).elim (.error invalid) .ok
    else .error invalid

/-! ## The action -/

/-- `TagDelayedAction.generate_timestamp` -/
def generateTimestamp (z : Zone) (days hours : Option ℚ) (now : Int) : Except Exn Text :=
  -- a missing value gives four days
  let days := if days = none ∨ hours = none then some 4 else days
  match days, hours with
  | some d, some h => do
    let actionDate ← datetime (z.wall now + timedelta d h)
    return if 0 < h then minuteText actionDate (z.tzname actionDate) else dateText actionDate
  | _, _ => .error .typeError

/-- The arguments of the message template. -/
def messageArgs (op date : Text) : Dict Text V :=
  Dict.ofPairs [("op".toList, r.objects.ofText op), ("action_date".toList, r.objects.ofText date)]

/-- `template.format(op=op, action_date=date)`: with keyword arguments only, the
method of the text differs from the formatter in the errors it raises. -/
def formatMessage (template op date : Text) : Except Exn Text :=
  Format.format r.objects [] (messageArgs r op date) template

/-- Write a tag, in the place of the one with that key. -/
def setTag (tags : List (Text × Text)) (key value : Text) : List (Text × Text) :=
  tags.filter (·.1 ≠ key) ++ [(key, value)]

/-- `TagDelayedAction.process` for a resource with these tags. -/
def process (z : Zone) (cfg : MarkForOp) (now : Int) (tags : List (Text × Text)) :
    Except Exn (List (Text × Text)) := do
  let date ← generateTimestamp z (some (cfg.days.getD 0)) (some (cfg.hours.getD 0)) now
  let msg ← formatMessage r (cfg.msg.getD defaultTemplate) (cfg.op.getD defaultOp) date
  return setTag tags (cfg.tag.getD defaultTag) msg

/-! ## The filter -/

/-- `action, action_date_str = tgt.split('@', 1)` -/
def markParts (tgt : Text) : Except Exn (Option (Text × Text)) :=
  match splitMax '@' 1 tgt with
  | [action, date] => .ok (some (action, date))
  | _ => .error valueError

/-- The operation and the date of a tag value. -/
def readMark (v : Text) : Except Exn (Option (Text × Text)) :=
  if ':' ∉ v ∨ '@' ∉ v then .ok none else markParts (strip (afterLast ':' v))

/-- The date that the current one is compared with. -/
def deadline (z : Zone) : Parsed → Except Exn Int
  | .naive w => .ok w
  | .aware w offset => do
    let u ← datetime (w - offset)
    datetime (z.wall u)

/-- The zone of the current date: the local one for a date without a zone. -/
def clock (z : Zone) : Parsed → Zone
  | .naive _ => r.localZone
  | .aware _ _ => z

/-- `TagActionFilter.__call__` on a resource with these tags. -/
def markedForOp (z : Zone) (f : MarkedForOp) (tags : List (Text × Text)) (now : Int) :
    Except Exn Bool :=
  match tags.find? (·.1 = f.tag.getD defaultTag) with
  | none => .ok false
  | some tag => do
    match ← readMark tag.2 with
    | none => return false
    | some mark =>
      if mark.1 ≠ f.op.getD defaultOp then return false
      else match r.parse mark.2 with
        | none => return false
        | some d => do
          let actionDate ← deadline z d
          let start ← datetime (actionDate - timedelta (f.skew.getD 0) (f.skewHours.getD 0))
          return decide (start ≤ (clock r z d).wall now)

/-! ## What a mark is for -/

/-- The filter that looks for a mark of this action. -/
def filterFor (cfg : MarkForOp) (op : Text) (skew : Option ℚ) : MarkedForOp :=
  ⟨some op, cfg.tag, cfg.tz, skew, none⟩

/-- The reading of the clock that the mark is for. -/
def actionReading (z : Zone) (cfg : MarkForOp) (mark : Int) : Int :=
  z.wall mark + timedelta (cfg.days.getD 0) (cfg.hours.getD 0)

/-- The action date, to the minute when hours are given and to the day otherwise. -/
def actionDate (z : Zone) (cfg : MarkForOp) (mark : Int) : Int :=
  floorTo (if 0 < cfg.hours.getD 0 then minute else day) (actionReading z cfg mark)

/-- The date as it is written: with the time zone only when hours are given. -/
def writtenDate (z : Zone) (cfg : MarkForOp) (mark : Int) : Parsed :=
  if 0 < cfg.hours.getD 0 then
    .aware (actionDate z cfg mark) (z.utcoffset (actionReading z cfg mark))
  else .naive (actionDate z cfg mark)

/-- The filter matches the mark from the action date on, less the skew, in the
time zone; with another operation it never does. -/
def Honours (z : Zone) (cfg : MarkForOp) (op : Text) (mark : Int) (tags : List (Text × Text))
    (skew : Option ℚ) : Prop :=
  (∀ now ≥ mark, markedForOp r z (filterFor cfg op skew) tags now =
    .ok (decide (actionDate z cfg mark - timedelta (skew.getD 0) 0 ≤ z.wall now))) ∧
  ∀ op' ∈ r.registry, op' ≠ op → ∀ now ≥ mark,
    markedForOp r z (filterFor cfg op' skew) tags now = .ok false

/-! ## When it is honoured -/

def markFields : Text := "{op}@{action_date}".toList

/-- The text in front of the operation ends in a colon and white space. -/
def EndsInColon (op date before : Text) : Prop :=
  ∃ a b, formatMessage r before op date = .ok (a ++ ':' :: b) ∧ ∀ c ∈ b, isSpace c = true

/-- The clock that the filter reads passes the date that it compares with when
the clock of the time zone passes the action date. -/
def SameClocks (z : Zone) (cfg : MarkForOp) (mark : Int) (skew : Option ℚ) : Prop :=
  ∃ d start, deadline z (writtenDate z cfg mark) = .ok d ∧
    datetime (d - timedelta (skew.getD 0) 0) = .ok start ∧
    ∀ now ≥ mark, (start ≤ (clock r z (writtenDate z cfg mark)).wall now ↔
      actionDate z cfg mark - timedelta (skew.getD 0) 0 ≤ z.wall now)

/-! ### The text that is written -/

theorem standsAlone_markFields : StandsAlone markFields where
  opens := ⟨'o', "p\x7d@\x7baction_date\x7d".toList, by decide, by decide, by decide, by decide⟩
  name b r := by
    cases b
    · have h : scanName false markFields = .error valueError := by decide +kernel
      rw [h]
      simp
    · have h : scanName true markFields = .error valueError := by decide +kernel
      rw [h]
      simp
  spec n r := by
    have hend : ∀ r, scanSpec n [] ≠ .ok r := fun r h => by cases h
    have hdate := @scanSpec_field_ne "action_date".toList [] n (by decide +kernel) hend
    have hat := scanSpec_cons_ne (by decide : isBrace '@' = false) hdate
    exact @scanSpec_field_ne "op".toList _ n (by decide +kernel) hat r
  tail r := by
    have h : nextEntry markFields.tail = .error valueError := by decide +kernel
    rw [h]
    simp

theorem parse_markFields : parse markFields =
    .entry ⟨[], some ⟨"op".toList, none, []⟩⟩
      (.entry ⟨['@'], some ⟨"action_date".toList, none, []⟩⟩ .done) := by
  decide +kernel

theorem render_markFields (op date : Text) (auto : Option Nat) :
    render r.objects [] (messageArgs r op date)
      (Format.vformat r.objects [] (messageArgs r op date) 2) (parse markFields) auto =
      .ok (op ++ '@' :: date, auto) := by
  have hop : fetch r.objects [] (messageArgs r op date) auto ⟨"op".toList, none, []⟩ =
      .ok (r.objects.ofText op, auto) := by
    apply fetch_keyword
    · decide +kernel
    · decide +kernel
    · decide +kernel
    · decide +kernel
    · rfl
  have hdate : fetch r.objects [] (messageArgs r op date) auto ⟨"action_date".toList, none, []⟩ =
      .ok (r.objects.ofText date, auto) := by
    apply fetch_keyword
    · decide +kernel
    · decide +kernel
    · decide +kernel
    · decide +kernel
    · rfl
  have hspec : Format.vformat r.objects [] (messageArgs r op date) 2 [] auto = .ok ([], auto) := rfl
  rw [parse_markFields]
  simp only [render, hop, hdate, hspec, r.format_ofText, bind, Except.bind, pure, Except.pure,
    List.nil_append, List.append_nil, List.singleton_append]

theorem formatMessage_append {before op date msg : Text}
    (h : formatMessage r (before ++ markFields) op date = .ok msg) :
    ∃ start, formatMessage r before op date = .ok start ∧ msg = start ++ op ++ '@' :: date := by
  simp only [formatMessage, Format.format, bind_eq_ok, pure_eq_ok, Prod.exists] at h ⊢
  obtain ⟨written, a, h, rfl⟩ := h
  obtain ⟨start, a', rest, hs, hr, rfl⟩ :=
    render_append standsAlone_markFields before.length before _ _ _ le_rfl h
  rw [render_markFields] at hr
  cases hr
  exact ⟨start, ⟨start, a, hs, rfl⟩, (List.append_assoc ..).symm⟩

theorem isOpName_of_validate {op : Text} {tz : Option Text} {z : Zone}
    (h : validate r (some op) tz = .ok z) : IsOpName op := by
  unfold validate at h
  by_cases hop : op ∈ r.registry
  · exact r.registry_isOpName op hop
  · simp only [if_neg hop] at h
    cases h

theorem written_plain {z : Zone} {cfg : MarkForOp} {mark : Int} {date : Text}
    (h : generateTimestamp z (some (cfg.days.getD 0)) (some (cfg.hours.getD 0)) mark = .ok date) :
    ':' ∉ date ∧ date ≠ [] ∧ ∀ c ∈ date.getLast?, isSpace c = false := by
  simp only [generateTimestamp, reduceCtorEq, or_self, if_false] at h
  obtain ⟨w, -, h⟩ := bind_eq_ok.mp h
  rw [← pure_eq_ok.mp h]
  split
  · refine ⟨colon_not_mem_minuteText w (z.tzname_plain w), ?_,
      minuteText_getLast w (z.tzname_ne w) (z.tzname_plain w)⟩
    simp [minuteText]
  · exact ⟨colon_not_mem_dateText w, by simp [dateText], dateText_getLast w⟩

/-! ### The text that is read -/

theorem markParts_append {action : Text} (h : '@' ∉ action) (date : Text) :
    markParts (action ++ '@' :: date) = .ok (some (action, date)) := by
  rw [markParts, splitMax_append h]
  rfl

section Reading

variable {start op date : Text} (hop : IsOpName op) (hcolon : ':' ∉ date) (hne : date ≠ [])
  (hlast : ∀ c ∈ date.getLast?, isSpace c = false)

include hop hcolon in
theorem readMark_of_colon {a b : Text} (hb : ':' ∉ b) :
    readMark (a ++ ':' :: b ++ op ++ '@' :: date) =
      markParts (strip (b ++ (op ++ '@' :: date))) := by
  have htail : ':' ∉ b ++ (op ++ '@' :: date) := by simp [hb, hop.1, hcolon]
  rw [show a ++ ':' :: b ++ op ++ '@' :: date = a ++ ':' :: (b ++ (op ++ '@' :: date)) by simp]
  rw [readMark, if_neg (by simp), afterLast_append a htail]

include hop hne hlast in
theorem hasEdges_mark : HasEdges (op ++ '@' :: date) := by
  constructor
  · intro c hc
    cases op with
    | nil =>
      cases hc
      decide
    | cons d op =>
      cases hc
      exact hop.2.2.1 _ rfl
  · intro c hc
    rw [List.getLast?_append_of_ne_nil _ (by simp), List.getLast?_cons_of_ne_nil hne] at hc
    exact hlast c hc

include hop hcolon hne hlast

/-- **The filter reads back what follows a colon and white space.** -/
theorem readMark_written {a b : Text} (hb : ∀ c ∈ b, isSpace c = true) :
    readMark (a ++ ':' :: b ++ op ++ '@' :: date) = .ok (some (op, date)) := by
  have hb' : ':' ∉ b := fun h => by
    have := hb _ h
    revert this
    decide
  rw [readMark_of_colon hop hcolon hb', strip_space hb,
    strip_of_edges (hasEdges_mark hop hne hlast), markParts_append hop.2.1]

theorem readMark_other {a b : Text} (hb : ':' ∉ b) (hspace : ¬ ∀ c ∈ b, isSpace c = true) :
    ∃ action rest, readMark (a ++ ':' :: b ++ op ++ '@' :: date) = .ok (some (action, rest)) ∧
      (action = op → '@' ∈ rest) := by
  rw [readMark_of_colon hop hcolon hb]
  -- the white space in front is stripped, the first other character stays
  have hsplit := @List.takeWhile_append_dropWhile _ isSpace b
  have hspaces : ∀ c ∈ b.takeWhile isSpace, isSpace c = true := fun c hc =>
    @List.mem_takeWhile_imp _ isSpace _ _ hc
  cases hdrop : b.dropWhile isSpace with
  | nil =>
    rw [hdrop, List.append_nil] at hsplit
    rw [hsplit] at hspaces
    exact absurd hspaces hspace
  | cons c b' =>
    have hc : isSpace c = false := by
      have := @List.head_dropWhile_not _ isSpace b (by rw [hdrop]; simp)
      simpa [hdrop] using this
    rw [← hsplit, hdrop, List.append_assoc, strip_space hspaces, strip_of_edges]
    · by_cases hat : '@' ∈ c :: b'
      · obtain ⟨q, q', hq, hq'⟩ := List.eq_append_cons_of_mem hat
        refine ⟨q, q' ++ (op ++ '@' :: date), ?_, fun _ => by simp⟩
        rw [hq, List.append_assoc, List.cons_append, markParts_append hq']
      · refine ⟨c :: b' ++ op, date, ?_, fun h => ?_⟩
        · rw [← List.append_assoc, markParts_append]
          rw [List.mem_append]
          exact not_or.mpr ⟨hat, hop.2.1⟩
        · have hlen := congrArg List.length h
          simp only [List.length_append, List.length_cons] at hlen
          omega
    · refine ⟨fun x hx => ?_, fun x hx => ?_⟩
      · cases hx
        exact hc
      · apply (hasEdges_mark hop hne hlast).2 x
        rwa [List.getLast?_append_of_ne_nil _ (by simp)] at hx

end Reading

/-! ### The filter on a marked resource -/

theorem find_setTag (tags : List (Text × Text)) (key value : Text) :
    (setTag tags key value).find? (·.1 = key) = some (key, value) := by
  have hnone : (tags.filter (·.1 ≠ key)).find? (·.1 = key) = none := by
    rw [List.find?_eq_none]
    intro e he
    simpa using (List.mem_filter.mp he).2
  rw [setTag, List.find?_append, hnone]
  simp

section Marked

variable {r} {z : Zone} {cfg : MarkForOp} {op' : Text} {skew : Option ℚ}
  {tags : List (Text × Text)} {value : Text} {now : Int}

theorem markedForOp_none (h : readMark value = .ok none) :
    markedForOp r z (filterFor cfg op' skew) (setTag tags (cfg.tag.getD defaultTag) value) now =
      .ok false := by
  rw [markedForOp, filterFor, find_setTag]
  simp only [h]
  rfl

theorem markedForOp_other {action rest : Text} (h : readMark value = .ok (some (action, rest)))
    (hop : action ≠ op' ∨ r.parse rest = none) :
    markedForOp r z (filterFor cfg op' skew) (setTag tags (cfg.tag.getD defaultTag) value) now =
      .ok false := by
  rw [markedForOp, filterFor, find_setTag]
  simp only [h, bind, Except.bind, Option.getD_some]
  split
  · rfl
  · rename_i hne
    rw [hop.resolve_left hne]
    rfl

theorem markedForOp_same {date : Text} {d : Parsed} (h : readMark value = .ok (some (op', date)))
    (hd : r.parse date = some d) :
    markedForOp r z (filterFor cfg op' skew) (setTag tags (cfg.tag.getD defaultTag) value) now =
      (do
        let actionDate ← deadline z d
        let start ← datetime (actionDate - timedelta (skew.getD 0) 0)
        return decide (start ≤ (clock r z d).wall now)) := by
  rw [markedForOp, filterFor, find_setTag]
  simp only [h, bind, Except.bind, Option.getD_some, ne_eq, not_true_eq_false, if_false, hd,
    Option.getD_none]

end Marked

/-! ### Which marks are honoured -/

section Honoured

variable {r} {z : Zone} {cfg : MarkForOp} {op before date : Text} {mark : Int}
  {tags tags' : List (Text × Text)} (skew : Option ℚ)

theorem process_eq (hop : cfg.op = some op)
    (hmsg : cfg.msg.getD defaultTemplate = before ++ markFields)
    (hdate : generateTimestamp z (some (cfg.days.getD 0)) (some (cfg.hours.getD 0)) mark = .ok date)
    (h : process r z cfg mark tags = .ok tags') :
    ∃ start, formatMessage r before op date = .ok start ∧
      tags' = setTag tags (cfg.tag.getD defaultTag) (start ++ op ++ '@' :: date) := by
  rw [process, bind_eq_ok] at h
  obtain ⟨date', hd, h⟩ := h
  obtain rfl : date' = date := Except.ok.inj (hd.symm.trans hdate)
  obtain ⟨msg, hm, h⟩ := bind_eq_ok.mp h
  rw [hmsg, hop] at hm
  obtain ⟨start, hs, rfl⟩ := formatMessage_append r hm
  exact ⟨start, hs, (pure_eq_ok.mp h).symm⟩

/-- **A mark is honoured exactly when the text in front of the operation ends in a colon and
white space and the clock that is read agrees with that of the time zone.** -/
theorem honours_iff (hop : cfg.op = some op) (hz : validate r cfg.op cfg.tz = .ok z)
    (hmsg : cfg.msg.getD defaultTemplate = before ++ markFields)
    (hdate : generateTimestamp z (some (cfg.days.getD 0)) (some (cfg.hours.getD 0)) mark = .ok date)
    (hparse : r.parse date = some (writtenDate z cfg mark))
    (h : process r z cfg mark tags = .ok tags') :
    Honours r z cfg op mark tags' skew ↔
      EndsInColon r op date before ∧ SameClocks r z cfg mark skew := by
  obtain ⟨start, hstart, rfl⟩ := process_eq hop hmsg hdate h
  rw [hop] at hz
  have hname := isOpName_of_validate r hz
  obtain ⟨hcolon, hne, hlast⟩ := written_plain hdate
  -- the time at which the filter has to match
  obtain ⟨late, hlate, hreached⟩ := z.exists_wall_ge
    (actionDate z cfg mark - timedelta (skew.getD 0) 0) mark
  have hnever : (∀ now, markedForOp r z (filterFor cfg op skew) (setTag tags
      (cfg.tag.getD defaultTag) (start ++ op ++ '@' :: date)) now = .ok false) →
      ¬ Honours r z cfg op mark (setTag tags (cfg.tag.getD defaultTag)
        (start ++ op ++ '@' :: date)) skew := by
    intro hfalse hon
    have := hon.1 late hlate
    rw [hfalse, decide_eq_true hreached] at this
    cases this
  by_cases hends : EndsInColon r op date before
  · rw [and_iff_right hends]
    obtain ⟨a, b, hab, hb⟩ := hends
    obtain rfl : start = a ++ ':' :: b := Except.ok.inj (hstart.symm.trans hab)
    have hread := readMark_written (a := a) hname hcolon hne hlast hb
    constructor
    · rintro ⟨hsame, -⟩
      have hlate' := hsame late hlate
      rw [markedForOp_same hread hparse, bind_eq_ok] at hlate'
      obtain ⟨d, hd, hlate'⟩ := hlate'
      obtain ⟨s, hs, -⟩ := bind_eq_ok.mp hlate'
      refine ⟨d, s, hd, hs, fun now hnow => ?_⟩
      have hnow' := hsame now hnow
      rw [markedForOp_same hread hparse, hd] at hnow'
      simp only [bind, Except.bind, hs] at hnow'
      exact decide_eq_decide.mp (Except.ok.inj hnow')
    · rintro ⟨d, s, hd, hs, hclock⟩
      refine ⟨fun now hnow => ?_, fun op' _ hop' now _ => ?_⟩
      · rw [markedForOp_same hread hparse, hd]
        simp only [bind, Except.bind, hs]
        exact congrArg Except.ok (decide_eq_decide.mpr (hclock now hnow))
      · exact markedForOp_other hread (Or.inl (Ne.symm hop'))
  · rw [iff_false_right (fun hc => hends hc.1)]
    apply hnever
    intro now
    by_cases hc : ':' ∈ start
    · obtain ⟨a, b, rfl, hb⟩ := exists_last hc
      have hspace : ¬ ∀ c ∈ b, isSpace c = true := fun hs => hends ⟨a, b, hstart, hs⟩
      obtain ⟨action, rest, hread, hat⟩ := readMark_other (a := a) hname hcolon hne hlast hb hspace
      apply markedForOp_other hread
      by_cases ha : action = op
      · exact Or.inr (r.parse_at rest (hat ha))
      · exact Or.inl ha
    · apply markedForOp_none
      rw [readMark, if_pos]
      simp [hc, hname.1, hcolon]

end Honoured

/-! ## A mark for the next day -/

/-- Texts as the only objects. -/
def textObjects : Objects Text where
  ofText s := s
  attr _ _ := .error .attributeError
  item _ _ := .error .typeError
  format s _ := .ok s
  str s := s
  repr s := .ok s
  ascii s := .ok s

theorem textObjects_format (s : Text) : textObjects.format (textObjects.ofText s) [] = .ok s := rfl

def utc : Zone := Zone.fixed 0 "UTC".toList (by decide) (by decide) (by decide)

def pacific : Zone := Zone.fixed (-480 * minute) "PST".toList (by decide) (by decide) (by decide)

def nextDay : Text := "2024/03/02".toList

/-- A process in UTC that knows two time zones and one date. -/
def utcRuntime : Runtime Text where
  objects := textObjects
  gettz name :=
    if name = "utc".toList then some utc else if name = "pt".toList then some pacific else none
  localZone := utc
  parse s := if s = nextDay then some (.naive (19784 * day)) else none
  registry := ["stop".toList]
  format_ofText _ := rfl
  registry_isOpName := by
    rintro op h
    rw [List.mem_singleton.mp h]
    exact ⟨by decide, by decide, by decide, by decide⟩
  parse_at s hs := by
    rw [if_neg]
    rintro rfl
    revert hs
    decide

/-- Stop the resource a day later. -/
def stopNextDay (tz : String) : MarkForOp :=
  ⟨some "stop".toList, none, none, some 1, none, some tz.toList⟩

/-- Eight in the evening of the first of March 2024, in UTC. -/
def evening : Int := 19783 * day + 20 * 60 * minute

def markedTags : List (Text × Text) :=
  [(defaultTag, "Resource does not meet policy: stop@2024/03/02".toList)]

/-- In the time zone of the process the mark is honoured. -/
theorem honours_utc : Honours utcRuntime utc (stopNextDay "utc") "stop".toList evening markedTags
    none := by
  have hdate : generateTimestamp utc (some 1) (some 0) evening = .ok nextDay := by decide +kernel
  have hprocess : process utcRuntime utc (stopNextDay "utc") evening [] = .ok markedTags := by
    decide +kernel
  have hmsg : (stopNextDay "utc").msg.getD defaultTemplate =
      "Resource does not meet policy: ".toList ++ markFields := by decide +kernel
  have hparse : utcRuntime.parse nextDay = some (writtenDate utc (stopNextDay "utc") evening) := by
    decide +kernel
  have hz : validate utcRuntime (stopNextDay "utc").op (stopNextDay "utc").tz = .ok utc := rfl
  refine (honours_iff none rfl hz hmsg hdate hparse hprocess).mpr ⟨?_, ?_⟩
  · exact ⟨"Resource does not meet policy".toList, [' '], by decide +kernel, by decide⟩
  · have hwritten : writtenDate utc (stopNextDay "utc") evening = .naive (19784 * day) := by
      decide +kernel
    have hreading : actionDate utc (stopNextDay "utc") evening - timedelta 0 0 = 19784 * day := by
      decide +kernel
    rw [SameClocks, hwritten]
    refine ⟨19784 * day, 19784 * day, rfl, by decide +kernel, fun now _ => ?_⟩
    rw [show (none : Option ℚ).getD 0 = 0 from rfl, hreading]
    exact Iff.rfl

/-- On the Pacific coast the mark is matched at midnight in UTC, eight hours early. -/
theorem pacific_matched_early :
    (process utcRuntime pacific (stopNextDay "pt") evening [] = .ok markedTags ∧
      evening ≤ 19784 * day ∧
      markedForOp utcRuntime pacific (filterFor (stopNextDay "pt") "stop".toList none) markedTags
        (19784 * day) = .ok true ∧
      pacific.wall (19784 * day) < actionDate pacific (stopNextDay "pt") evening) ∧
    ¬ Honours utcRuntime pacific (stopNextDay "pt") "stop".toList evening markedTags none := by
  have hlater : evening ≤ 19784 * day := by decide
  have hmatched : markedForOp utcRuntime pacific (filterFor (stopNextDay "pt") "stop".toList none)
      markedTags (19784 * day) = .ok true := by decide +kernel
  have hnot : decide (actionDate pacific (stopNextDay "pt") evening - timedelta 0 0 ≤
      pacific.wall (19784 * day)) = false := by decide +kernel
  refine ⟨⟨by decide +kernel, hlater, hmatched, by decide +kernel⟩, fun h => ?_⟩
  have := h.1 (19784 * day) hlater
  rw [hmatched, show (none : Option ℚ).getD 0 = 0 from rfl, hnot] at this
  cases this

end Custodian.Tags

import Custodian.Filters.ValueOps
import Custodian.Lib.Split

/-!
# Values of resources and their types

`BaseValueFilter.get_resource_value` of `c7n/filters/core.py` finds the value of a key in a
resource, and `ValueFilter.process_value_type` converts it, and the value of the filter, to what is
compared.
-/

namespace Custodian.ValueTypes

open Py
open ParseDate
open ValueOps

abbrev Resource := List (Text × Value)

/-- `NormalizeFilterTagKeys` -/
inductive Transform where
  | noop
  | capitalize
  | lower
  | strip
  | title
  | upper
  | nospaces
  | nounderscores
  | nodashes
  deriving DecidableEq, Repr

/-- What is taken of the language, of `dateutil` and of `jmespath`. -/
structure Env extends Language where
  now : Instant
  table : CaseTable
  capitalize : Text → Text
  title : Text → Text
  upper : Text → Text
  search : Text → Resource → Except Exn Value
  /-- `int(str(v).strip())` -/
  intOf : Value → Except Exn Int
  /-- `float(str(v).strip())` -/
  floatOf : Value → Except Exn Number
  /-- `timedelta(x)`, in microseconds -/
  timedelta : Number → Except Exn Int
  /-- `timedelta` of the numbers of some units, if it is not too large -/
  duration : List (Text × Text) → Option Int
  /-- `ipaddress.ip_address(s)`, with nothing for a `ValueError`; the same for `IPv4Network(s)` -/
  ipAddress : Text → Option Address
  ipv4Network : Text → Option Network
  intOf_error : ∀ v e, intOf v = .error e → e = valueError
  floatOf_error : ∀ v e, floatOf v = .error e → e = valueError

/-! ## Keys of tags -/

def transforms : List (Text × Transform) :=
  [("noop", .noop), ("capitalize", .capitalize), ("lower", .lower), ("strip", .strip),
   ("title", .title), ("upper", .upper), ("nospaces", .nospaces),
   ("nounderscores", .nounderscores), ("nodashes", .nodashes)].map fun e => (e.1.toList, e.2)

def Transform.text (env : Env) : Transform → Text → Text
  | .noop, s => s
  | .capitalize, s => env.capitalize s
  | .lower, s => env.table.lower s
  | .strip, s => Py.strip s
  | .title, s => env.title s
  | .upper, s => env.upper s
  | .nospaces, s => s.filter fun c => c ≠ ' '
  | .nounderscores, s => s.filter fun c => c ≠ '_'
  | .nodashes, s => s.filter fun c => c ≠ '-'

/-- `transform_func_if_needed`; names that are no transforms are passed over. -/
def transformFuncIfNeeded (names : List Text) : Except Exn (Option (List Transform)) :=
  if names = [] then .ok none
  else
    match names.filterMap fun n => transforms.lookup n with
    | [] => .error .typeError
    | ts => .ok (some ts)

def normalizeText (env : Env) (ts : List Transform) (s : Text) : Text :=
  ts.foldl (fun s t => t.text env s) s

/-- Other values than texts have no methods of a text. -/
def normalizeKey (env : Env) (ts : List Transform) : Value → Except Exn Value
  | .str s => .ok (.str (normalizeText env ts s))
  | v => if ts.all (· = .noop) then .ok v else .error .attributeError

def keyName : Text := "Key".toList

def valueName : Text := "Value".toList

def tagsName : Text := "Tags".toList

def labelsName : Text := "labels".toList

def lowerTagsName : Text := "tags".toList

/-- A tag with its key changed; it is left out when that fails. -/
def normalizeTag (env : Env) (ts : List Transform) : Value → Except Exn (Option Value)
  | .dict ms =>
    match ms.lookup keyName, ms.lookup valueName with
    | some k, some v =>
      match normalizeKey env ts k with
      | .ok k => .ok (some (.dict [(keyName, k), (valueName, v)]))
      | .error _ => .ok none
    | _, _ => .ok none
  | _ => .error .typeError

/-- `_normalize_aws_tag_keys` -/
def normalizeAwsTagKeys (env : Env) (func : Option (List Transform)) (tags : Value) :
    Except Exn (List Value) := do
  let items ← tags.elements
  match func with
  | none => return items
  | some ts => return (← items.mapM (normalizeTag env ts)).filterMap id

/-- `_normalize_tag_dict_keys` -/
def normalizeTagDictKeys (env : Env) (func : Option (List Transform)) :
    Value → Except Exn Resource
  | .dict ms => .ok (func.elim ms fun ts => ms.map fun m => (normalizeText env ts m.1, m.2))
  | _ => .error .attributeError

def isTag (tk : Text) : Value → Bool
  | .dict ms => ((ms.lookup keyName).getD .none).eq (.str tk)
  | _ => false

/-- The value of the first tag with a key. -/
def findTag (tk : Text) : List Value → Except Exn Value
  | [] => .ok .none
  | .dict ms :: tags =>
    if isTag tk (.dict ms) then .ok ((ms.lookup valueName).getD .none) else findTag tk tags
  | _ :: _ => .error .attributeError

/-- The last member that has a key is the one that is kept. -/
def lastValue (tk : Text) (ms : Resource) : Value := (ms.reverse.lookup tk).getD .none

/-- The value of a tag, or of a label. -/
def tagValue (env : Env) (names : List Text) (tk : Text) (i : Resource) : Except Exn Value := do
  let func ← transformFuncIfNeeded names
  match i.lookup tagsName, i.lookup labelsName, i.lookup lowerTagsName with
  | some tags, _, _ => findTag tk (← normalizeAwsTagKeys env func tags)
  | none, some labels, _ => return lastValue tk (← normalizeTagDictKeys env func labels)
  | none, none, some tags =>
    if tags.truthy then return lastValue tk (← normalizeTagDictKeys env func tags)
    else return .none
  | none, none, none => return .none

/-! ## Values of resources -/

def indexError : Exn := .raised "IndexError".toList

/-- `ValueRegex(expr).get_resource_value(r)` -/
def regexValue (env : Env) (expr : Text) (r : Value) : Except Exn Value :=
  if r.isNone then .ok .none
  else
    match env.compile expr with
    | .error e => if e ∈ [valueError, .typeError] then .ok .none else .error e
    | .ok p =>
      match r with
      | .str s =>
        if p.isMatch false s then
          if p.groups = 0 then .error indexError else .ok ((p.group s).elim .none .str)
        else .ok .none
      | _ => .ok .none

def tagPrefix : Text := "tag:".toList

/-- The value of a key before the expression of the filter is matched. -/
def rawValue (env : Env) (names : List Text) (k : Text) (i : Resource) : Except Exn Value :=
  if k.startsWith tagPrefix then tagValue env names (k.drop 4) i
  else
    match i.lookup k with
    | some v => .ok v
    | none => env.search k i

/-- `get_resource_value`; an empty expression is none. -/
def getResourceValue (env : Env) (names : List Text) (regex : Option Text) (k : Text)
    (i : Resource) : Except Exn Value := do
  let r ← rawValue env names k i
  match regex with
  | none => return r
  | some expr => if expr = [] then return r else regexValue env expr r

/-! ## When a value is found -/

def isDict : Value → Bool
  | .dict _ => true
  | _ => false

/-- Something that is no tag is come across before the tag, or at all if the keys are changed. -/
def ItemsRaise (func : Option (List Transform)) (tk : Text) (items : List Value) : Prop :=
  ∃ t ∈ func.elim (items.takeWhile fun t => !isTag tk t) fun _ => items, isDict t = false

/-- Tags that cannot be read: not a list of tags, or labels that are no map. -/
def TagsRaise (func : Option (List Transform)) (tk : Text) (i : Resource) : Prop :=
  match i.lookup tagsName, i.lookup labelsName, i.lookup lowerTagsName with
  | some tags, _, _ =>
    match tags.elements with
    | .ok items => ItemsRaise func tk items
    | .error _ => True
  | none, some labels, _ => isDict labels = false
  | none, none, some tags => tags.truthy = true ∧ isDict tags = false
  | none, none, none => False

/-- The filter's own names of transforms are all unknown. -/
def TransformsRaise (names : List Text) : Prop :=
  names ≠ [] ∧ ∀ n ∈ names, transforms.lookup n = none

/-- What `get_resource_value` raises for, without the expression of the filter. -/
def KeyRaises (env : Env) (names : List Text) (k : Text) (i : Resource) : Prop :=
  if k.startsWith tagPrefix then
    TransformsRaise names ∨
      ∃ func, transformFuncIfNeeded names = .ok func ∧ TagsRaise func (k.drop 4) i
  else i.lookup k = none ∧ ∀ v, env.search k i ≠ .ok v

theorem exists_transformFunc_iff {names : List Text} :
    (∃ func, transformFuncIfNeeded names = .ok func) ↔ ¬ TransformsRaise names := by
  rw [transformFuncIfNeeded, TransformsRaise]
  by_cases hnames : names = []
  · simp [hnames]
  · rw [if_neg hnames]
    have hnone : names.filterMap (fun n => transforms.lookup n) = [] ↔
        ∀ n ∈ names, transforms.lookup n = none := List.filterMap_eq_nil_iff
    split
    case h_1 hts => exact iff_of_false (by simp) fun h => h ⟨hnames, hnone.mp hts⟩
    case h_2 ts hts => exact iff_of_true ⟨_, rfl⟩ fun h => hts (hnone.mpr h.2)

theorem exists_findTag_iff {tk : Text} {tags : List Value} : (∃ v, findTag tk tags = .ok v) ↔
    ∀ t ∈ tags.takeWhile fun t => !isTag tk t, isDict t = true := by
  induction tags with
  | nil => simp [findTag]
  | cons t tags ih =>
    cases t with
    | dict ms =>
      rw [findTag, List.takeWhile_cons]
      cases hms : isTag tk (.dict ms) with
      | true => simp
      | false => simp [ih, isDict]
    | _ => simp [findTag, isTag, isDict]

theorem normalizeTag_isDict {env : Env} {ts : List Transform} {t t' : Value}
    (h : normalizeTag env ts t = .ok (some t')) : isDict t' = true := by
  cases t with
  | dict ms =>
    rw [normalizeTag] at h
    split at h
    · split at h <;> cases h
      rfl
    · cases h
  | _ => cases h

theorem exists_normalizeTag_iff {env : Env} {ts : List Transform} {t : Value} :
    (∃ t', normalizeTag env ts t = .ok t') ↔ isDict t = true := by
  cases t with
  | dict ms =>
    rw [normalizeTag]
    split
    · split <;> simp [isDict]
    · simp [isDict]
  | _ => simp [normalizeTag, isDict]

theorem exists_normalizeAwsTagKeys_iff {env : Env} {func : Option (List Transform)} {tk : Text}
    {tags : Value} :
    (∃ v, (normalizeAwsTagKeys env func tags >>= findTag tk) = .ok v) ↔
      ∃ items, tags.elements = .ok items ∧ ¬ ItemsRaise func tk items := by
  rw [normalizeAwsTagKeys]
  cases tags.elements with
  | error e => simp [bind, Except.bind]
  | ok items =>
    simp only [ok_bind, Except.ok.injEq, exists_eq_left', ItemsRaise, not_exists, not_and,
      Bool.not_eq_false]
    cases func with
    | none => exact exists_findTag_iff
    | some ts =>
      simp only [Option.elim_some, bind_eq_ok, pure_eq_ok]
      constructor
      · rintro ⟨v, items', ⟨normalized, hn, -⟩, -⟩ t ht
        obtain ⟨t', -, ht'⟩ := exists_of_forall₂ ((mapM_eq_ok _ _ _).mp hn) ht
        exact exists_normalizeTag_iff.mp ⟨t', ht'⟩
      · intro h
        obtain ⟨normalized, hn⟩ := exists_mapM_eq_ok (f := normalizeTag env ts) fun t ht =>
          exists_normalizeTag_iff.mpr (h t ht)
        have hdicts : ∀ t ∈ normalized.filterMap id, isDict t = true := by
          intro t ht
          obtain ⟨t', ht', heq⟩ := List.mem_filterMap.mp ht
          exact forall_of_mapM_eq_ok (P := fun o => ∀ t, o = some t → isDict t = true) hn
            (fun _ _ _ hy _ hsome => normalizeTag_isDict (hsome ▸ hy)) t' ht' t heq
        obtain ⟨v, hv⟩ : ∃ v, findTag tk (normalized.filterMap id) = .ok v :=
          exists_findTag_iff.mpr fun t ht => hdicts t ((List.takeWhile_sublist _).subset ht)
        exact ⟨v, _, ⟨normalized, hn, rfl⟩, hv⟩

theorem exists_normalizeTagDictKeys_iff {env : Env} {func : Option (List Transform)}
    {tags : Value} :
    (∃ ms, normalizeTagDictKeys env func tags = .ok ms) ↔ isDict tags = true := by
  cases tags <;> simp [normalizeTagDictKeys, isDict]

theorem exists_tagValue_iff {env : Env} {names : List Text} {tk : Text} {i : Resource} :
    (∃ v, tagValue env names tk i = .ok v) ↔
      ∃ func, transformFuncIfNeeded names = .ok func ∧ ¬ TagsRaise func tk i := by
  rw [tagValue, exists_bind_eq_ok]
  refine exists_congr fun func => and_congr_right fun _ => ?_
  have hlabels : ∀ labels, (∃ v, (normalizeTagDictKeys env func labels >>= fun ms =>
      (pure (lastValue tk ms) : Except Exn Value)) = .ok v) ↔ isDict labels = true := by
    intro labels
    rw [exists_bind_eq_ok]
    simp [pure_eq_ok, exists_normalizeTagDictKeys_iff]
  rw [TagsRaise]
  cases i.lookup tagsName with
  | some tags =>
    simp only [exists_normalizeAwsTagKeys_iff]
    cases tags.elements <;> simp
  | none =>
    cases i.lookup labelsName with
    | some labels =>
      refine (hlabels labels).trans ?_
      simp
    | none =>
      cases i.lookup lowerTagsName with
      | none => exact iff_of_true ⟨_, rfl⟩ id
      | some tags =>
        by_cases ht : tags.truthy = true
        · simp only [ht, if_true, true_and]
          refine (hlabels tags).trans ?_
          simp
        · simp only [ht]
          exact iff_of_true ⟨_, rfl⟩ fun h => absurd h.1 Bool.false_ne_true

theorem exists_rawValue_iff {env : Env} {names : List Text} {k : Text} {i : Resource} :
    (∃ v, rawValue env names k i = .ok v) ↔ ¬ KeyRaises env names k i := by
  rw [rawValue, KeyRaises]
  split
  · rw [exists_tagValue_iff, not_or, ← exists_transformFunc_iff, not_exists]
    constructor
    · rintro ⟨func, hfunc, htags⟩
      refine ⟨⟨func, hfunc⟩, fun func' h => ?_⟩
      rw [hfunc] at h
      cases h.1
      exact htags h.2
    · rintro ⟨⟨func, hfunc⟩, hall⟩
      exact ⟨func, hfunc, fun h => hall func ⟨hfunc, h⟩⟩
  · cases i.lookup k <;> simp

/-- The expression of a filter is valid: it has one group. -/
def ValidRegex (env : Env) (regex : Option Text) : Prop :=
  ∀ expr, regex = some expr → ∃ p, env.compile expr = .ok p ∧ p.groups = 1

theorem exists_regexValue {env : Env} {expr : Text}
    (h : ∃ p, env.compile expr = .ok p ∧ p.groups = 1) (r : Value) :
    ∃ v, regexValue env expr r = .ok v := by
  obtain ⟨p, hp, hgroups⟩ := h
  rw [regexValue, hp]
  cases r with
  | str s =>
    simp only [Value.isNone, Bool.false_eq_true, if_false]
    split
    · rw [if_neg (by simp [hgroups])]
      exact ⟨_, rfl⟩
    · exact ⟨_, rfl⟩
  | _ => exact ⟨_, rfl⟩

/-- **Values of keys.**  What a filter with a valid expression finds no value for. -/
theorem exists_getResourceValue_iff {env : Env} {names : List Text} {regex : Option Text}
    (hregex : ValidRegex env regex) {k : Text} {i : Resource} :
    (∃ v, getResourceValue env names regex k i = .ok v) ↔ ¬ KeyRaises env names k i := by
  rw [← exists_rawValue_iff, getResourceValue, exists_bind_eq_ok]
  refine exists_congr fun r => and_iff_left ?_
  cases regex with
  | none => exact ⟨r, rfl⟩
  | some expr =>
    dsimp only
    split
    · exact ⟨r, rfl⟩
    · exact exists_regexValue (hregex expr rfl) r

/-! ## Conversions -/

/-- The value of a resource, or an empty tuple where it is looked for in a list. -/
abbrev Found := Option Value

def Found.operand : Found → Operand
  | none => .unit
  | some v => .value v

mutual

/-- `parse_cidr`; a map is a text that is no address. -/
def parseCidr (env : Env) : Value → Except Exn (Option Cidr)
  | .str s =>
    if '/' ∈ s then .ok ((env.ipv4Network s).map .network)
    else .ok ((env.ipAddress s).map .address)
  | .list items => (parseCidrs env items).map fun cs => some (.list cs)
  | .dict _ => .ok none
  | _ => .error .typeError

def parseCidrs (env : Env) : List Value → Except Exn (List (Option Cidr))
  | [] => .ok []
  | v :: vs => do
    let c ← parseCidr env v
    let cs ← parseCidrs env vs
    return c :: cs

end

/-- An empty tuple is no address either. -/
def foundCidr (env : Env) : Found → Except Exn (Option Cidr)
  | none => .ok none
  | some v => parseCidr env v

def Found.raw (env : Env) : Found → Raw
  | some (.str s) => .text s
  | some (.list _) => .other
  | some (.dict _) => .other
  | some .none => .other
  | some v => .number (env.asFloat v)
  | none => .other

/-- `parse_date` -/
def parseDate (env : Env) (v : Found) : Except Exn (Option Instant) :=
  env.clock.parseDate (v.raw env)

/-- The kinds of characters that `component_re` tells apart. -/
inductive Kind where
  | digit
  | letter
  | dot
  | other
  deriving DecidableEq, Repr

def kind (c : Char) : Kind :=
  if isDigit c then .digit
  else if 97 ≤ c.toNat ∧ c.toNat ≤ 122 then .letter
  else if c = '.' then .dot
  else .other

def part (s : Text) : Part :=
  match int s with
  | .ok n => .number n
  | .error _ => .text s

/-- `LooseVersion.parse` -/
def components (s : Text) : List Part :=
  ((s.splitBy fun c d => kind c = kind d).filter fun run => run.head? ≠ some '.').map part

/-- Only texts can be split. -/
def parseVersion : Value → Except Exn (List Part)
  | .str s => .ok (components s)
  | _ => .error .typeError

/-- `ComparableVersion(v)`; what is falsy is not parsed. -/
def versionOf : Found → Except Exn (Option (List Part))
  | none => .ok none
  | some v => if v.truthy then (parseVersion v).map some else .ok none

def dayMicros : Int := 86400000000

/-- `timedelta(days)`, in microseconds -/
def days (env : Env) : Value → Except Exn Int
  | .bool b => .ok (if b then dayMicros else 0)
  | .int n => if n.natAbs ≤ 999999999 then .ok (n * dayMicros) else .error overflowError
  | .float x => env.timedelta x
  | _ => .error .typeError

/-- `t + timedelta(microseconds=d)` -/
def shift (t : Instant) (d : Int) : Except Exn Instant :=
  if h : minMicros ≤ t.micros + d ∧ t.micros + d ≤ maxMicros then .ok ⟨t.micros + d, h.1, h.2⟩
  else .error overflowError

def daysAgo (env : Env) (v : Value) : Except Exn Instant := do
  let d ← days env v
  shift env.now (-d)

def daysAhead (env : Env) (v : Value) : Except Exn Instant := do
  let d ← days env v
  shift env.now d

/-! ## Durations -/

def isAsciiDigit (c : Char) : Bool := 48 ≤ c.toNat && c.toNat ≤ 57

/-- Digits, and a fraction if digits follow the mark. -/
def durationNumber (s : Text) : Text × Text :=
  let whole := s.takeWhile isAsciiDigit
  match s.dropWhile isAsciiDigit with
  | [] => (whole, [])
  | c :: rest =>
    let fraction := rest.takeWhile isAsciiDigit
    if whole ≠ [] ∧ (c = '.' ∨ c = ',') ∧ fraction ≠ [] then
      (whole ++ c :: fraction, rest.dropWhile isAsciiDigit)
    else (whole, c :: rest)

/-- The numbers before the letters of some units, each of which can be left out. -/
def durationUnits : List (Text × Char) → Text → List (Text × Text) × Text
  | [], s => ([], s)
  | (unit, letter) :: units, s =>
    let (n, rest) := durationNumber s
    if n ≠ [] ∧ rest.head? = some letter then
      let (parts, rest) := durationUnits units rest.tail
      ((unit, n) :: parts, rest)
    else durationUnits units s

def dateUnits : List (Text × Char) := [("weeks".toList, 'W'), ("days".toList, 'D')]

def timeUnits : List (Text × Char) :=
  [("hours".toList, 'H'), ("minutes".toList, 'M'), ("seconds".toList, 'S')]

/-- `ISO_DURATION.fullmatch(s)`, by the groups that took part -/
def isoDuration (s : Text) : Option (List (Text × Text)) :=
  if s.head? ≠ some 'P' then none
  else
    let (parts, rest) := durationUnits dateUnits s.tail
    if rest = [] then some parts
    else if rest.head? = some 'T' ∧ rest.tail.head?.any isAsciiDigit then
      let (times, rest) := durationUnits timeUnits rest.tail
      if rest = [] then some (parts ++ times) else none
    else none

/-- `parse_duration`, in microseconds -/
def parseDuration (env : Env) : Found → Option Int
  | some (.str v) => do
    let parts ← isoDuration (strip v)
    let weeks := parts.any (fun p => p.1 = "weeks".toList) && 1 < parts.length
    let fractions := parts.dropLast.any fun p => '.' ∈ p.2 || ',' ∈ p.2
    if parts = [] || weeks || fractions then none
    else env.duration (parts.map fun p => (p.1, p.2.replaceChar ',' '.'))
  | _ => none

/-! ## Types -/

/-- `VALUE_TYPES` -/
inductive ValueType where
  | age
  | integer
  | expiration
  | normalize
  | size
  | cidr
  | cidrSize
  | swap
  | resourceCount
  | expr
  | uniqueSize
  | date
  | version
  | float
  | duration
  deriving DecidableEq, Repr

/-- A value for an exception. -/
def orElse {α : Type} (caught : Exn) (default : α) : Except Exn α → Except Exn α
  | .ok a => .ok a
  | .error e => if e = caught then .ok default else .error e

/-- `len(value)` -/
def size : Found → Except Exn Nat
  | none => .ok 0
  | some v => v.elements.map List.length

def distinct (items : List Value) : List Value :=
  items.foldl (fun seen v => if seen.any fun w => w.eq v then seen else seen ++ [v]) []

/-- `len(set(value))` -/
def uniqueSize : Found → Except Exn Nat
  | none => .ok 0
  | some v => do
    let items ← v.elements
    if items.all Value.hashable then return (distinct items).length else .error .typeError

def normalize (env : Env) : Found → Found
  | some (.str s) => some (.str (env.table.lower (strip s)))
  | r => r

def integer (env : Env) (r : Found) : Except Exn Int :=
  orElse valueError 0 (r.elim (.error valueError) env.intOf)

def float (env : Env) (r : Found) : Except Exn Number :=
  orElse valueError (.fin 0) (r.elim (.error valueError) env.floatOf)

def dateOr (default : Value) (d : Option Instant) : Operand := d.elim (.value default) .instant

def deltaOf (d : Option Int) : Operand := d.elim (.value .none) .delta

def cidrOf (c : Option Cidr) : Operand := c.elim (.value .none) .cidr

/-- An address is looked for in a network, whichever side it is on. -/
def cidrOperands : Option Cidr → Option Cidr → Operand × Operand
  | some (.address a), some (.network n) => (.cidr (.network n), .cidr (.address a))
  | s, v => (cidrOf s, cidrOf v)

/-- `cidr.prefixlen`, or 0 where there is none. -/
def prefixlen : Option Cidr → Except Exn Nat
  | none => .ok 0
  | some (.network n) => .ok n.prefixlen
  | some _ => .error .attributeError

/-- `process_value_type` -/
def processValueType (env : Env) (names : List Text) (regex : Option Text) (sentinel : Value)
    (value : Found) (i : Resource) : ValueType → Except Exn (Operand × Operand)
  | .normalize => .ok (.value sentinel, (normalize env value).operand)
  | .expr =>
    match sentinel with
    | .str expr =>
      (getResourceValue env names regex expr i).map fun s => (.value s, value.operand)
    | _ => .error .attributeError
  | .integer => (integer env value).map fun n => (.value sentinel, .value (.int n))
  | .float => (float env value).map fun x => (.value sentinel, .value (.float x))
  | .size =>
    (orElse .typeError 0 (size value)).map fun n : Nat => (.value sentinel, .value (.int n))
  | .uniqueSize =>
    (orElse .typeError 0 (uniqueSize value)).map fun n : Nat => (.value sentinel, .value (.int n))
  | .swap => .ok (value.operand, .value sentinel)
  | .date => do
    let s ← parseDate env (some sentinel)
    let v ← parseDate env value
    return (dateOr .none s, dateOr .none v)
  | .duration =>
    .ok (deltaOf (parseDuration env (some sentinel)), deltaOf (parseDuration env value))
  | .age => do
    let s ← daysAgo env sentinel
    let v ← parseDate env value
    return (dateOr (.int 0) v, .instant s)
  | .cidr => do
    let s ← parseCidr env sentinel
    let v ← foundCidr env value
    return cidrOperands s v
  | .cidrSize => do
    let c ← foundCidr env value
    let n ← prefixlen c
    return (.value sentinel, .value (.int n))
  | .expiration => do
    let s ← daysAhead env sentinel
    let v ← parseDate env value
    return (.instant s, dateOr (.int 0) v)
  | .version => do
    let s ← versionOf (some sentinel)
    let v ← versionOf value
    return (.version s, .version v)
  | .resourceCount => .ok (.value sentinel, value.operand)

/-! ## What is converted -/

mutual

/-- A text, a map, or a list of such values. -/
def cidrable : Value → Bool
  | .str _ => true
  | .list items => cidrables items
  | .dict _ => true
  | _ => false

def cidrables : List Value → Bool
  | [] => true
  | v :: vs => cidrable v && cidrables vs

end

mutual

theorem exists_parseCidr_iff (env : Env) : ∀ v : Value,
    (∃ c, parseCidr env v = .ok c) ↔ cidrable v = true
  | .str s => by
    rw [parseCidr]
    split <;> simp [cidrable]
  | .list items => by
    rw [parseCidr, cidrable, ← exists_parseCidrs_iff env items]
    cases parseCidrs env items <;> simp [Except.map]
  | .none => by simp [parseCidr, cidrable]
  | .bool b => by simp [parseCidr, cidrable]
  | .int n => by simp [parseCidr, cidrable]
  | .float x => by simp [parseCidr, cidrable]
  | .dict ms => by simp [parseCidr, cidrable]

theorem exists_parseCidrs_iff (env : Env) : ∀ vs : List Value,
    (∃ cs, parseCidrs env vs = .ok cs) ↔ cidrables vs = true
  | [] => by simp [parseCidrs, cidrables]
  | v :: vs => by
    rw [parseCidrs, exists_bind_eq_ok, cidrables, Bool.and_eq_true, ← exists_parseCidr_iff env v,
      ← exists_parseCidrs_iff env vs]
    simp only [exists_bind_eq_ok, pure_eq_ok]
    simp

end

/-- Neither missing nor what `parse_cidr` takes. -/
def NoAddress : Found → Prop
  | none => False
  | some v => cidrable v = false

theorem exists_foundCidr_iff {env : Env} {r : Found} :
    (∃ c, foundCidr env r = .ok c) ↔ ¬ NoAddress r := by
  cases r with
  | none => simp [foundCidr, NoAddress]
  | some v => rw [foundCidr, exists_parseCidr_iff, NoAddress, Bool.not_eq_false]

/-- Something truthy that is no text. -/
def NoVersion : Found → Prop
  | none => False
  | some v => v.truthy = true ∧ ∀ s, v ≠ .str s

theorem exists_versionOf_iff {r : Found} : (∃ p, versionOf r = .ok p) ↔ ¬ NoVersion r := by
  cases r with
  | none => simp [versionOf, NoVersion]
  | some v =>
    rw [versionOf, NoVersion]
    split
    case isTrue hv => cases v <;> simp_all [parseVersion, Except.map]
    case isFalse hv => simp [hv]

theorem orElse_eq_ok {α : Type} {caught : Exn} {default : α} {x : Except Exn α}
    (h : ∀ e, x = .error e → e = caught) : ∃ a, orElse caught default x = .ok a := by
  cases x with
  | ok a => exact ⟨a, rfl⟩
  | error e => exact ⟨default, if_pos (h e rfl)⟩

theorem exists_integer (env : Env) (r : Found) : ∃ n, integer env r = .ok n := by
  apply orElse_eq_ok
  cases r with
  | none => simp
  | some v => exact env.intOf_error v

theorem exists_float (env : Env) (r : Found) : ∃ x, float env r = .ok x := by
  apply orElse_eq_ok
  cases r with
  | none => simp
  | some v => exact env.floatOf_error v

theorem elements_error {v : Value} {e : Exn} (h : v.elements = .error e) : e = .typeError := by
  cases v <;> cases h <;> rfl

theorem exists_size (r : Found) : ∃ n, orElse .typeError 0 (size r) = .ok n := by
  apply orElse_eq_ok
  cases r with
  | none => simp [size]
  | some v =>
    rw [size]
    intro e he
    cases hv : v.elements with
    | ok items => rw [hv] at he; cases he
    | error e' => rw [hv] at he; cases he; exact elements_error hv

theorem exists_uniqueSize (r : Found) : ∃ n, orElse .typeError 0 (uniqueSize r) = .ok n := by
  apply orElse_eq_ok
  cases r with
  | none => simp [uniqueSize]
  | some v =>
    rw [uniqueSize]
    intro e he
    rcases bind_eq_error.mp he with he | ⟨items, -, he⟩
    · exact elements_error he
    · split at he <;> cases he
      rfl

end Custodian.ValueTypes

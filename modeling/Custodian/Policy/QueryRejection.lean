import Custodian.Lib.Except
import Custodian.Utils.ParseDate
import Mathlib.Data.List.Nodup

/-!
# Rejected queries

`QueryParser` of `c7n/utils.py` with every exception that it may raise, for values that are read
from a document: no two of their lists are the same one.
-/

namespace Custodian.QueryRejection

open Py Custodian.ParseDate

/-! ## Values -/

inductive Scalar where
  | null
  | bool (b : Bool)
  | num (q : ℚ)
  | text (s : Text)
  deriving DecidableEq

/-- A value of the policy; the keys of a dictionary need not be texts. -/
inductive Value where
  | scalar (s : Scalar)
  | list (items : List Value)
  | dict (items : List (Scalar × Value))

namespace Scalar

/-- A text that the code writes out. -/
def lit (s : String) : Scalar := text s.toList

def isText : Scalar → Bool
  | text _ => true
  | _ => false

/-- A truth value is equal to a number. -/
def number : Scalar → Scalar
  | bool b => num (if b then 1 else 0)
  | s => s

/-- `s == t` -/
def eq (s t : Scalar) : Bool := s.number = t.number

def json : Scalar → Json
  | null => .null
  | bool b => .bool b
  | num q => .num q
  | text s => .str s

end Scalar

namespace Value

def truthy : Value → Bool
  | scalar .null => false
  | scalar (.bool b) => b
  | scalar (.num q) => q ≠ 0
  | scalar (.text s) => !s.isEmpty
  | list items => !items.isEmpty
  | dict items => !items.isEmpty

/-- `d.get(key)` is true. -/
def getTruthy (items : List (Scalar × Value)) (key : String) : Bool :=
  (items.lookup (.lit key)).any truthy

/-- `if not isinstance(v, list): v = [v]` -/
def asList : Value → List Value
  | list items => items
  | v => [v]

/-- `v in choices` -/
def isIn (choices : List Scalar) : Value → Bool
  | scalar s => choices.any s.eq
  | _ => false

/-- What `parse_date` looks at. -/
def raw (clock : Clock) : Value → Raw
  | scalar s => clock.raw s.json
  | _ => .other

/-- `q.append(v)` -/
def append (v : Value) : Value → Except Exn Value
  | list items => .ok (.list (items ++ [v]))
  | _ => .error .attributeError

/-- `{key: value}` -/
def single (key : Scalar) (value : Value) : Value := .dict [(key, value)]

end Value

/-! ## Schemas -/

/-- The type of a value in a schema: a tuple, `'date'`, a class or, for `Filters`, a schema. -/
inductive VType where
  | oneOf (choices : List Scalar)
  | date
  | cls (instances : Value → Bool)
  | schema

/-- `str` as the type of a value. -/
def VType.str : VType :=
  .cls fun
    | .scalar (.text _) => true
    | _ => false

/-- A subclass of `QueryParser`: `QuerySchema` is split into its `Filters` and its other keys. -/
structure Parser where
  typeName : Text
  filters : Option (List (Text × VType))
  params : List (Text × VType)
  multiValue : Bool
  singleValueFields : List Text
  clock : Clock

/-- What `parse` raises: `PolicyValidationError` by its message, or another exception. -/
inductive Error where
  | mustBeArrayOfDicts
  | notNameValuePairs
  | notKeyValuePairs
  | mustBeUnique (key : Scalar)
  | filterMustBeArrayOfDicts
  | filterNameAndValues
  | filterInvalidKey (key : Text)
  | filterMustBeArray (key : Text)
  | mustBeScalar (key : Scalar)
  | invalidKey (key : Scalar)
  | invalidValue
  | invalidDate
  | invalidValueType
  | other (e : Exn)

def Error.isPolicyValidation : Error → Bool
  | .other _ => false
  | _ => true

def indexError : Error := .other (.raised "IndexError".toList)

/-- The variables of the loop of `parse`; a result is a dictionary with one key. -/
structure State where
  results : List (Scalar × Value)
  names : List Scalar

namespace Parser

variable (p : Parser)

/-- `cls.QuerySchema.get(key)` -/
def schemaType : Scalar → Option VType
  | .text key => if key = "Filters".toList then p.filters.map fun _ => .schema
      else p.params.lookup key
  | _ => none

/-! ## Types of values -/

/-- `type_check`; the message for a tuple joins its texts. -/
def typeCheck (vtype : VType) (value : Value) : Except Error Unit :=
  match vtype with
  | .oneOf choices =>
    if value.isIn choices then .ok ()
    else if choices.all Scalar.isText then .error .invalidValue
    else .error (.other .typeError)
  | .date =>
    match p.clock.parseDate (value.raw p.clock) with
    | .ok (some _) => .ok ()
    | .ok none => .error .invalidDate
    | .error e => .error (.other e)
  | .cls instances => if instances value then .ok () else .error .invalidValueType
  | .schema => .error (.other .typeError)

/-- The type check of every value of a list. -/
def typeCheckAll (vtype : VType) (values : List Value) : Except Error Unit :=
  values.foldlM (fun _ value => p.typeCheck vtype value) ()

/-! ## Filters -/

/-- `key in cls.QuerySchema.get("Filters", {})` -/
def isFilter (key : Text) : Bool := p.filters.any fun types => (types.lookup key).isSome

/-- The name of a filter is in the schema or is that of a tag. -/
def knownFilter (key : Text) : Bool := p.isFilter key || Text.startsWith key "tag:".toList

/-- `cls.QuerySchema["Filters"].get(key)`, or `str` for a tag. -/
def filterType (key : Text) : Except Error VType :=
  match p.filters with
  | some types => .ok ((types.lookup key).getD .str)
  | none => .error (.other .keyError)

/-- A filter with its name and values: the checks of `parse_qfilters`. -/
def parseFilter (name values : Value) : Except Error (Text × List Value) :=
  match name with
  | .scalar (.text key) =>
    if p.knownFilter key then
      match values with
      | .list values => do
        let vtype ← p.filterType key
        p.typeCheckAll vtype values
        pure (key, values)
      | _ => .error (.filterMustBeArray key)
    else .error (.filterInvalidKey key)
  | .scalar _ => .error (.other .attributeError)
  | _ => .error (.other .typeError)

/-- The values of a filter with the same name are extended, else the filter is added. -/
def mergeFilter (results : List (Text × List Value)) (f : Text × List Value) :
    List (Text × List Value) :=
  if f.1 ∈ results.map Prod.fst then
    results.map fun qf => if qf.1 = f.1 then (qf.1, qf.2 ++ f.2) else qf
  else results ++ [f]

/-- The loop of `parse_qfilters`. -/
def qfilterStep (results : List (Text × List Value)) (f : Value) :
    Except Error (List (Text × List Value)) :=
  match f with
  | .dict items =>
    match items.lookup (.lit "Name"), items.lookup (.lit "Values") with
    | some name, some values => do
      let f ← p.parseFilter name values
      pure (mergeFilter results f)
    | _, _ => .error .filterNameAndValues
  | _ => .error .filterMustBeArrayOfDicts

/-- `{'Name': key, 'Values': values}` -/
def filterDict (name : Value) (values : List Value) : Value :=
  .dict [(.lit "Name", name), (.lit "Values", .list values)]

/-- `parse_qfilters` -/
def parseQfilters : Value → Except Error Value
  | .list data => do
    let results ← data.foldlM p.qfilterStep []
    pure (.list (results.map fun f => filterDict (.scalar (.text f.1)) f.2))
  | _ => .error .filterMustBeArrayOfDicts

/-! ## Other keys -/

/-- The key takes one scalar. -/
def singleKey (key : Scalar) : Bool :=
  !p.multiValue || p.singleValueFields.any fun field => key = .text field

/-- The check of a key and its values. -/
def checkKey (key : Scalar) (values : List Value) : Except Error Unit :=
  match p.schemaType key with
  | none => .error (.invalidKey key)
  | some vtype => p.typeCheckAll vtype values

/-- `parse_query` -/
def parseQuery (key : Scalar) (value : Value) : Except Error Value :=
  if p.singleKey key then
    match value with
    | .list _ => .error (.mustBeScalar key)
    | value => do
      p.checkKey key [value]
      pure value
  else do
    p.checkKey key value.asList
    pure (.list value.asList)

/-- The values of a key are appended to those it has in the results. -/
def appendResult (key : Scalar) (value : Value) (q : Scalar × Value) :
    Except Error (Scalar × Value) :=
  if q.1 = key then
    match value.append q.2 with
    | .ok values => .ok (q.1, values)
    | .error e => .error (.other e)
  else .ok q

/-- `d.get("Filters")` is true, for a dictionary with one key. -/
def hasFilters (key : Scalar) (value : Value) : Bool :=
  key = .lit "Filters" && value.truthy

/-- The loop of `parse`, for an item with its only key. -/
def parseItem (s : State) (key : Scalar) (value : Value) : Except Error State :=
  if hasFilters key value then do
    let filters ← p.parseQfilters value
    pure { s with results := s.results ++ [(key, filters)] }
  else do
    let values ← p.parseQuery key value
    if key ∈ s.names then
      if p.singleKey key then .error (.mustBeUnique key)
      else do
        let results ← s.results.mapM (appendResult key value)
        pure { s with results := results }
    else pure { results := s.results ++ [(key, values)], names := s.names ++ [key] }

/-- The loop of `parse`. -/
def parseStep (s : State) : Value → Except Error State
  | .dict [(key, value)] => p.parseItem s key value
  | _ => .error .notKeyValuePairs

def parseItems (data : List Value) : Except Error State := data.foldlM p.parseStep ⟨[], []⟩

/-! ## Forms of a query -/

/-- `is_implicit_query_filter`, for the first item -/
def isImplicitQueryFilter : List (Scalar × Value) → Except Error Bool
  | [] => .error indexError
  | (key, _) :: _ =>
    if (p.schemaType key).isNone && p.filters.isSome then
      match key with
      | .text key => .ok (p.knownFilter key)
      | _ => .error (.other .attributeError)
    else .ok false

/-- An item of `implicit_qfilter_translate`: its first key. -/
def implicitFilter : Value → Except Error Value
  | .dict ((key, value) :: _) => .ok (filterDict (.scalar key) value.asList)
  | .dict [] => .error indexError
  | _ => .error (.other .attributeError)

/-- `{d['Name']: d['Value']}`, where a `KeyError` is caught. -/
def nameValue : Value → Except Error Value
  | .dict items =>
    match items.lookup (.lit "Name"), items.lookup (.lit "Value") with
    | some (.scalar name), some value => .ok (.single name value)
    | some _, some _ => .error (.other .typeError)
    | _, _ => .error .notNameValuePairs
  | _ => .error (.other .typeError)

/-- Queries of `Name` and `Value` without `Filters`. -/
def takesNameValue (first : List (Scalar × Value)) : Bool :=
  Value.getTruthy first "Value" &&
    (p.typeName = "IAM Policy".toList || p.typeName = "ElastiCache".toList)

/-- Queries of `Name` and `Values` without `Filters`. -/
def takesNameValues (first : List (Scalar × Value)) : Bool :=
  Value.getTruthy first "Values" &&
    (p.typeName = "EBS Snapshot".toList || p.typeName = "EBS Volume".toList)

/-- `[{'Filters': filters}]` -/
def onlyFilters (filters : List Value) : List Value :=
  [.single (.lit "Filters") (.list filters)]

/-- The rewriting of older forms of a query; a translated one has no other key. -/
def rewrite (data : List Value) : Except Error (List Value) :=
  match data with
  | [] => .ok []
  | .dict first :: _ => do
    if ← p.isImplicitQueryFilter first then
      let filters ← data.mapM implicitFilter
      pure (onlyFilters filters)
    else if p.takesNameValue first then data.mapM nameValue
    else if p.takesNameValues first then pure (onlyFilters data)
    else pure data
  | _ :: _ => .error .mustBeArrayOfDicts

/-- `parse` -/
def parse : Value → Except Error (List Value)
  | .list data => do
    let data ← p.rewrite data
    let s ← p.parseItems data
    pure (s.results.map fun q => .single q.1 q.2)
  | _ => .error .mustBeArrayOfDicts

end Parser

/-! ## What breaks the parser -/

/-- The first element that is not accepted breaks. -/
def FirstBreaks {α : Type} (accepts breaks : α → Prop) (xs : List α) : Prop :=
  ∃ before x after, xs = before ++ x :: after ∧ (∀ y ∈ before, accepts y) ∧ breaks x

section FirstBreaks

variable {α β : Type} {accepts breaks : α → Prop} {accepts' breaks' : β → Prop}

theorem not_firstBreaks_nil : ¬ FirstBreaks accepts breaks [] := by
  rintro ⟨_ | ⟨_, _⟩, _, _, h, -⟩ <;> cases h

theorem firstBreaks_cons {x : α} {xs : List α} : FirstBreaks accepts breaks (x :: xs) ↔
    breaks x ∨ accepts x ∧ FirstBreaks accepts breaks xs := by
  constructor
  · rintro ⟨before, y, after, heq, hbefore, hy⟩
    rcases before with _ | ⟨z, before⟩
    · cases heq
      exact Or.inl hy
    · cases heq
      rw [List.forall_mem_cons] at hbefore
      exact Or.inr ⟨hbefore.1, before, y, after, rfl, hbefore.2, hy⟩
  · rintro (hx | ⟨hx, before, y, after, rfl, hbefore, hy⟩)
    · exact ⟨[], x, xs, rfl, by simp, hx⟩
    · exact ⟨x :: before, y, after, rfl, List.forall_mem_cons.mpr ⟨hx, hbefore⟩, hy⟩

theorem firstBreaks_not {xs : List α} :
    FirstBreaks accepts (fun x => ¬ accepts x) xs ↔ ∃ x ∈ xs, ¬ accepts x := by
  induction xs with
  | nil => simp [not_firstBreaks_nil]
  | cons x xs ih =>
    rw [firstBreaks_cons, ih, List.exists_mem_cons_iff]
    tauto

theorem firstBreaks_congr {xs : List α} {ys : List β}
    (h : List.Forall₂ (fun x y => (accepts x ↔ accepts' y) ∧ (breaks x ↔ breaks' y)) xs ys) :
    FirstBreaks accepts breaks xs ↔ FirstBreaks accepts' breaks' ys := by
  induction h with
  | nil => simp only [not_firstBreaks_nil]
  | cons hxy _ ih => rw [firstBreaks_cons, firstBreaks_cons, hxy.1, hxy.2, ih]

end FirstBreaks

/-- The key of an item, if it is not that of its filters. -/
def queryKey : Value → Option Scalar
  | .dict [(key, value)] => if Parser.hasFilters key value then none else some key
  | _ => none

/-- A dictionary with a key. -/
def HasKey (d : Value) : Prop := ∃ entry rest, d = .dict (entry :: rest)

/-- A name that can be a key with a value, and the item that they make. -/
def IsPair (d item : Value) : Prop := ∃ items name value, d = .dict items ∧
  items.lookup (.lit "Name") = some (.scalar name) ∧
    items.lookup (.lit "Value") = some value ∧ item = .single name value

def AcceptsPair (d : Value) : Prop := ∃ item, IsPair d item

/-- No dictionary, or one whose name cannot be a key. -/
def BreaksPair (d : Value) : Prop := ∀ items, d = .dict items →
  (∃ v, items.lookup (.lit "Value") = some v) ∧
    ∃ n, items.lookup (.lit "Name") = some n ∧ ∀ s, n ≠ .scalar s

namespace Parser

variable (p : Parser)

def AcceptsValue (vtype : VType) (value : Value) : Prop :=
  match vtype with
  | .oneOf choices => value.isIn choices = true
  | .date => ∃ d, p.clock.parseDate (value.raw p.clock) = .ok (some d)
  | .cls instances => instances value = true
  | .schema => False

/-- A date that `parse_date` raises on, another value for an enumeration that has a
choice that is no text, or a value under `Filters` itself. -/
def BreaksValue (vtype : VType) (value : Value) : Prop :=
  match vtype with
  | .oneOf choices => value.isIn choices = false ∧ ∃ c ∈ choices, c.isText = false
  | .date => ∃ e, p.clock.parseDate (value.raw p.clock) = .error e
  | .cls _ => False
  | .schema => True

/-- The values under a name, of a type of the schema. -/
def AcceptsValues (vtype : Option VType) (values : List Value) : Prop :=
  ∃ t, vtype = some t ∧ ∀ v ∈ values, p.AcceptsValue t v

def BreaksValues (vtype : Option VType) (values : List Value) : Prop :=
  ∃ t, vtype = some t ∧ FirstBreaks (p.AcceptsValue t) (p.BreaksValue t) values

/-- The type of the values of a filter, if the schema has filters. -/
def valueType (key : Text) : Option VType := p.filters.map fun types => (types.lookup key).getD .str

def AcceptsNamed (name values : Value) : Prop := ∃ key vs, name = .scalar (.text key) ∧
  values = .list vs ∧ p.knownFilter key = true ∧ p.AcceptsValues (p.valueType key) vs

/-- A name that is no text, a tag under a schema without filters, or values that break. -/
def BreaksNamed (name values : Value) : Prop := ∀ key, name = .scalar (.text key) →
  p.knownFilter key = true ∧ ∃ vs, values = .list vs ∧
    (p.filters = none ∨ p.BreaksValues (p.valueType key) vs)

/-- A filter is a dictionary with a name and values. -/
def Filter (condition : Value → Value → Prop) (f : Value) : Prop := ∃ items name values,
  f = .dict items ∧ items.lookup (.lit "Name") = some name ∧
    items.lookup (.lit "Values") = some values ∧ condition name values

/-- The values that are checked under a key, which may take one scalar alone. -/
def queryValues (key : Scalar) (value : Value) : Option (List Value) :=
  if p.singleKey key then
    match value with
    | .list _ => none
    | value => some [value]
  else some value.asList

def AcceptsItem (key : Scalar) (value : Value) : Prop :=
  if hasFilters key value then ∃ fs, value = .list fs ∧ ∀ f ∈ fs, Filter p.AcceptsNamed f
  else ∃ values, p.queryValues key value = some values ∧ p.AcceptsValues (p.schemaType key) values

def BreaksItem (key : Scalar) (value : Value) : Prop :=
  if hasFilters key value then
    ∃ fs, value = .list fs ∧ FirstBreaks (Filter p.AcceptsNamed) (Filter p.BreaksNamed) fs
  else ∃ values, p.queryValues key value = some values ∧ p.BreaksValues (p.schemaType key) values

/-- Items with one key each, where the keys that take one scalar are not repeated. -/
def AcceptsItems (data : List Value) : Prop :=
  (∀ d ∈ data, ∃ key value, d = .single key value ∧ p.AcceptsItem key value) ∧
    ((data.filterMap queryKey).filter p.singleKey).Nodup

def BreaksItems (data : List Value) : Prop := ∃ before key value after,
  data = before ++ .single key value :: after ∧ p.AcceptsItems before ∧ p.BreaksItem key value

/-- A first item without keys, or with one that is no text where the schema has filters. -/
def BreaksFirst (first : List (Scalar × Value)) : Prop := first = [] ∨
  p.filters.isSome = true ∧ ∃ key value rest, first = (key, value) :: rest ∧ ∀ t, key ≠ .text t

/-- The first key of a query names a filter and no other key of the schema. -/
def IsImplicit (first : List (Scalar × Value)) : Prop := ∃ key value rest,
  first = (.text key, value) :: rest ∧ p.schemaType (.text key) = none ∧
    p.filters.isSome = true ∧ p.knownFilter key = true

/-- The first key of an item with its value, as a filter. -/
def FirstKey (condition : Value → Value → Prop) (d : Value) : Prop := ∃ key value rest,
  d = .dict ((key, value) :: rest) ∧ condition (.scalar key) (.list value.asList)

/-- What breaks a query of filters that are not listed under `Filters`: an item
without keys anywhere, or a filter after others that are accepted. -/
def BreaksImplicit (data : List Value) : Prop :=
  (∃ d ∈ data, ¬ HasKey d) ∨ FirstBreaks (FirstKey p.AcceptsNamed) (FirstKey p.BreaksNamed) data

/-- What breaks a query of names and values: a pair, or the items that they make. -/
def BreaksPairs (data : List Value) : Prop :=
  FirstBreaks AcceptsPair BreaksPair data ∨
    ∃ items, List.Forall₂ IsPair data items ∧ p.BreaksItems items

/-- What breaks a query, by the form of its first item. -/
def BreaksData (first : List (Scalar × Value)) (data : List Value) : Prop :=
  p.BreaksFirst first ∨ p.IsImplicit first ∧ p.BreaksImplicit data ∨
    ¬ p.IsImplicit first ∧
      if p.takesNameValue first then p.BreaksPairs data
      else if p.takesNameValues first then
        FirstBreaks (Filter p.AcceptsNamed) (Filter p.BreaksNamed) data
      else p.BreaksItems data

/-- The query breaks the parser. -/
def Breaks (query : Value) : Prop :=
  ∃ first rest, query = .list (.dict first :: rest) ∧ p.BreaksData first (.dict first :: rest)

end Parser

/-! ## Steps that succeed or raise -/

section Runs

variable {α β σ : Type}

def Succeeds (r : Except Error α) : Prop := ∃ a, r = .ok a

/-- Another exception than `PolicyValidationError` is raised. -/
def Raises (r : Except Error α) : Prop := ∃ e, r = .error e ∧ e.isPolicyValidation = false

@[simp] theorem succeeds_ok (a : α) : Succeeds (.ok a) := ⟨a, rfl⟩

@[simp] theorem succeeds_pure (a : α) : Succeeds (pure a) := ⟨a, rfl⟩

@[simp] theorem not_succeeds_error (e : Error) : ¬ Succeeds (.error e : Except Error α) := by
  rintro ⟨a, h⟩
  cases h

@[simp] theorem not_raises_ok (a : α) : ¬ Raises (.ok a) := by
  rintro ⟨e, h, -⟩
  cases h

@[simp] theorem not_raises_pure (a : α) : ¬ Raises (pure a) := not_raises_ok a

@[simp] theorem raises_error {e : Error} :
    Raises (.error e : Except Error α) ↔ e.isPolicyValidation = false := by
  constructor
  · rintro ⟨_, ⟨⟩, h⟩
    exact h
  · exact fun h => ⟨e, rfl, h⟩

theorem succeeds_bind {x : Except Error α} {f : α → Except Error β} :
    Succeeds (x >>= f) ↔ ∃ a, x = .ok a ∧ Succeeds (f a) := exists_bind_eq_ok

theorem raises_bind {x : Except Error α} {f : α → Except Error β} :
    Raises (x >>= f) ↔ Raises x ∨ ∃ a, x = .ok a ∧ Raises (f a) := by
  constructor
  · rintro ⟨e, h, he⟩
    rcases bind_eq_error.mp h with h | ⟨a, ha, h⟩
    · exact Or.inl ⟨e, h, he⟩
    · exact Or.inr ⟨a, ha, e, h, he⟩
  · rintro (⟨e, h, he⟩ | ⟨a, ha, e, h, he⟩)
    · exact ⟨e, bind_eq_error.mpr (Or.inl h), he⟩
    · exact ⟨e, bind_eq_error.mpr (Or.inr ⟨a, ha, h⟩), he⟩

@[simp] theorem succeeds_map {x : Except Error α} {f : α → β} : Succeeds (f <$> x) ↔ Succeeds x := by
  cases x <;> simp [Succeeds]

@[simp] theorem raises_map {x : Except Error α} {f : α → β} : Raises (f <$> x) ↔ Raises x := by
  cases x <;> simp [Raises]

theorem foldlM_succeeds_iff {f : σ → α → Except Error σ} {accepts : α → Prop}
    (hf : ∀ s x, Succeeds (f s x) ↔ accepts x) {xs : List α} {s : σ} :
    Succeeds (xs.foldlM f s) ↔ ∀ x ∈ xs, accepts x := by
  induction xs generalizing s with
  | nil => simp
  | cons x xs ih =>
    rw [List.foldlM_cons, succeeds_bind, List.forall_mem_cons, ← hf s]
    constructor
    · rintro ⟨s', hs', h⟩
      exact ⟨⟨s', hs'⟩, ih.mp h⟩
    · rintro ⟨⟨s', hs'⟩, h⟩
      exact ⟨s', hs', ih.mpr h⟩

theorem foldlM_raises_iff {f : σ → α → Except Error σ} {accepts breaks : α → Prop}
    (hf : ∀ s x, Succeeds (f s x) ↔ accepts x) (hb : ∀ s x, Raises (f s x) ↔ breaks x)
    {xs : List α} {s : σ} : Raises (xs.foldlM f s) ↔ FirstBreaks accepts breaks xs := by
  constructor
  · rintro ⟨e, h, he⟩
    obtain ⟨before, x, after, s', rfl, hbefore, hx⟩ := foldlM_eq_error_iff.mp h
    exact ⟨before, x, after, rfl, (foldlM_succeeds_iff hf).mp ⟨s', hbefore⟩,
      (hb s' x).mp ⟨e, hx, he⟩⟩
  · rintro ⟨before, x, after, rfl, hbefore, hx⟩
    obtain ⟨s', hs'⟩ := (foldlM_succeeds_iff hf).mpr hbefore
    obtain ⟨e, he, hpv⟩ := (hb s' x).mpr hx
    exact ⟨e, foldlM_eq_error_iff.mpr ⟨before, x, after, s', rfl, hs', he⟩, hpv⟩

theorem mapM_succeeds_iff {f : α → Except Error β} {accepts : α → Prop}
    (hf : ∀ x, Succeeds (f x) ↔ accepts x) {xs : List α} :
    Succeeds (xs.mapM f) ↔ ∀ x ∈ xs, accepts x := by
  constructor
  · rintro ⟨ys, h⟩ x hx
    obtain ⟨y, -, hy⟩ := exists_of_forall₂ ((mapM_eq_ok f xs ys).mp h) hx
    exact (hf x).mp ⟨y, hy⟩
  · exact fun h => exists_mapM_eq_ok fun x hx => (hf x).mpr (h x hx)

theorem mapM_raises_iff {f : α → Except Error β} {accepts breaks : α → Prop}
    (hf : ∀ x, Succeeds (f x) ↔ accepts x) (hb : ∀ x, Raises (f x) ↔ breaks x) {xs : List α} :
    Raises (xs.mapM f) ↔ FirstBreaks accepts breaks xs := by
  constructor
  · rintro ⟨e, h, he⟩
    obtain ⟨before, x, after, ys, rfl, hbefore, hx⟩ := mapM_eq_error_iff.mp h
    exact ⟨before, x, after, rfl, (mapM_succeeds_iff hf).mp ⟨ys, hbefore⟩, (hb x).mp ⟨e, hx, he⟩⟩
  · rintro ⟨before, x, after, rfl, hbefore, hx⟩
    obtain ⟨ys, hys⟩ := (mapM_succeeds_iff hf).mpr hbefore
    obtain ⟨e, he, hpv⟩ := (hb x).mpr hx
    exact ⟨e, mapM_append_cons_eq_error hys he after, hpv⟩

end Runs

namespace Parser

variable {p : Parser}

/-! ## Values and filters -/

theorem typeCheck_succeeds_iff (vtype : VType) (value : Value) :
    Succeeds (p.typeCheck vtype value) ↔ p.AcceptsValue vtype value := by
  cases vtype with
  | oneOf choices =>
    rw [typeCheck, AcceptsValue]
    split
    · simp_all
    · split <;> simp_all
  | date =>
    rw [typeCheck, AcceptsValue]
    split <;> simp_all
  | cls instances =>
    rw [typeCheck, AcceptsValue]
    split <;> simp_all
  | schema => simp [typeCheck, AcceptsValue]

theorem typeCheck_raises_iff (vtype : VType) (value : Value) :
    Raises (p.typeCheck vtype value) ↔ p.BreaksValue vtype value := by
  cases vtype with
  | oneOf choices =>
    rw [typeCheck, BreaksValue]
    split
    · simp_all
    · split <;> simp_all [Error.isPolicyValidation]
  | date =>
    rw [typeCheck, BreaksValue]
    split <;> simp_all [Error.isPolicyValidation]
  | cls instances =>
    rw [typeCheck, BreaksValue]
    split <;> simp [Error.isPolicyValidation]
  | schema => simp [typeCheck, BreaksValue, Error.isPolicyValidation]

theorem typeCheckAll_succeeds_iff {vtype : VType} {values : List Value} :
    Succeeds (p.typeCheckAll vtype values) ↔ ∀ v ∈ values, p.AcceptsValue vtype v :=
  foldlM_succeeds_iff fun _ => typeCheck_succeeds_iff vtype

theorem typeCheckAll_raises_iff {vtype : VType} {values : List Value} :
    Raises (p.typeCheckAll vtype values) ↔
      FirstBreaks (p.AcceptsValue vtype) (p.BreaksValue vtype) values :=
  foldlM_raises_iff (fun _ => typeCheck_succeeds_iff vtype) fun _ => typeCheck_raises_iff vtype

theorem parseFilter_succeeds_iff {name values : Value} :
    Succeeds (p.parseFilter name values) ↔ p.AcceptsNamed name values := by
  rw [AcceptsNamed]
  fun_cases parseFilter p name values with
  | case1 key hkey vs =>
    cases hfilters : p.filters with
    | none => simp [filterType, hfilters, succeeds_bind, AcceptsValues, valueType]
    | some types =>
      simp [filterType, hfilters, ok_bind, typeCheckAll_succeeds_iff, hkey,
        AcceptsValues, valueType]
  | case2 key hkey values hvalues => simp_all
  | case3 key hkey => simp_all
  | case4 s hs => simp_all
  | case5 => simp_all

theorem parseFilter_raises_iff {name values : Value} :
    Raises (p.parseFilter name values) ↔ p.BreaksNamed name values := by
  rw [BreaksNamed]
  fun_cases parseFilter p name values with
  | case1 key hkey vs =>
    cases hfilters : p.filters with
    | none => simp [filterType, hfilters, raises_bind, hkey, Error.isPolicyValidation]
    | some types =>
      simp [filterType, hfilters, ok_bind, typeCheckAll_raises_iff, hkey,
        BreaksValues, valueType]
  | case2 key hkey values hvalues => simp_all [Error.isPolicyValidation]
  | case3 key hkey => simp_all [Error.isPolicyValidation]
  | case4 s hs => simp_all [Error.isPolicyValidation]
  | case5 => simp_all [Error.isPolicyValidation]

theorem qfilterStep_succeeds_iff (results : List (Text × List Value)) (f : Value) :
    Succeeds (p.qfilterStep results f) ↔ Filter p.AcceptsNamed f := by
  rw [Filter]
  fun_cases qfilterStep p results f with
  | case1 items name values hname hvalues =>
    simp [parseFilter_succeeds_iff, hname, hvalues]
  | case2 items h =>
    simp only [not_succeeds_error, Value.dict.injEq, false_iff]
    rintro ⟨_, name, values, rfl, hname, hvalues, -⟩
    exact h name values hname hvalues
  | case3 => simp_all

theorem qfilterStep_raises_iff (results : List (Text × List Value)) (f : Value) :
    Raises (p.qfilterStep results f) ↔ Filter p.BreaksNamed f := by
  rw [Filter]
  fun_cases qfilterStep p results f with
  | case1 items name values hname hvalues =>
    simp [parseFilter_raises_iff, hname, hvalues]
  | case2 items h =>
    simp only [raises_error, Error.isPolicyValidation, Value.dict.injEq, Bool.true_eq_false,
      false_iff]
    rintro ⟨_, name, values, rfl, hname, hvalues, -⟩
    exact h name values hname hvalues
  | case3 => simp_all [Error.isPolicyValidation]

theorem parseQfilters_succeeds_iff {value : Value} : Succeeds (p.parseQfilters value) ↔
    ∃ fs, value = .list fs ∧ ∀ f ∈ fs, Filter p.AcceptsNamed f := by
  cases value with
  | list data =>
    simp only [parseQfilters, bind_pure_comp, succeeds_map, Value.list.injEq, exists_eq_left']
    exact foldlM_succeeds_iff qfilterStep_succeeds_iff
  | scalar s => simp [parseQfilters]
  | dict items => simp [parseQfilters]

theorem parseQfilters_raises_iff {value : Value} : Raises (p.parseQfilters value) ↔
    ∃ fs, value = .list fs ∧ FirstBreaks (Filter p.AcceptsNamed) (Filter p.BreaksNamed) fs := by
  cases value with
  | list data =>
    simp only [parseQfilters, bind_pure_comp, raises_map, Value.list.injEq, exists_eq_left']
    exact foldlM_raises_iff qfilterStep_succeeds_iff qfilterStep_raises_iff
  | scalar s => simp [parseQfilters, Error.isPolicyValidation]
  | dict items => simp [parseQfilters, Error.isPolicyValidation]

/-! ## Other keys -/

theorem checkKey_succeeds_iff {key : Scalar} {values : List Value} :
    Succeeds (p.checkKey key values) ↔ p.AcceptsValues (p.schemaType key) values := by
  rw [checkKey, AcceptsValues]
  split
  · simp_all
  · simp_all [typeCheckAll_succeeds_iff]

theorem checkKey_raises_iff {key : Scalar} {values : List Value} :
    Raises (p.checkKey key values) ↔ p.BreaksValues (p.schemaType key) values := by
  rw [checkKey, BreaksValues]
  split
  · simp_all [Error.isPolicyValidation]
  · simp_all [typeCheckAll_raises_iff]

theorem parseQuery_succeeds_iff {key : Scalar} {value : Value} :
    Succeeds (p.parseQuery key value) ↔ ∃ values, p.queryValues key value = some values ∧
      p.AcceptsValues (p.schemaType key) values := by
  unfold parseQuery queryValues
  split
  · cases value <;> simp [checkKey_succeeds_iff]
  · simp [checkKey_succeeds_iff]

theorem parseQuery_raises_iff {key : Scalar} {value : Value} :
    Raises (p.parseQuery key value) ↔ ∃ values, p.queryValues key value = some values ∧
      p.BreaksValues (p.schemaType key) values := by
  unfold parseQuery queryValues
  split
  · cases value <;> simp [checkKey_raises_iff, Error.isPolicyValidation]
  · simp [checkKey_raises_iff]

theorem parseQuery_list {key : Scalar} {value values : Value}
    (h : p.parseQuery key value = .ok values) (hkey : p.singleKey key = false) :
    ∃ xs, values = .list xs := by
  unfold parseQuery at h
  rw [hkey, if_neg Bool.false_ne_true, bind_eq_ok] at h
  obtain ⟨_, -, h⟩ := h
  exact ⟨_, (pure_eq_ok.mp h).symm⟩

theorem parseQfilters_list {value filters : Value} (h : p.parseQfilters value = .ok filters) :
    ∃ xs, filters = .list xs := by
  cases value with
  | list data =>
    obtain ⟨_, -, h⟩ := bind_eq_ok.mp h
    exact ⟨_, (pure_eq_ok.mp h).symm⟩
  | scalar s => cases h
  | dict items => cases h

/-! ## The loop of `parse` -/

/-- What the loop keeps: the names are the keys so far, and a key that takes more than
one value has a list of them. -/
structure Tracks (p : Parser) (data : List Value) (s : State) : Prop where
  names : ∀ key, key ∈ s.names ↔ key ∈ data.filterMap queryKey
  lists : ∀ q ∈ s.results, p.singleKey q.1 = false → ∃ xs, q.2 = .list xs

variable {data : List Value} {s s' : State} {key : Scalar} {value : Value}

theorem append_list {v w values : Value} (h : v.append w = .ok values) :
    ∃ xs, values = .list xs := by
  cases w with
  | list items => exact ⟨_, (Except.ok.inj h).symm⟩
  | scalar _ => cases h
  | dict _ => cases h

theorem appendResult_cases {q q' : Scalar × Value} (h : appendResult key value q = .ok q') :
    q' = q ∨ ∃ xs, q'.2 = .list xs := by
  rw [appendResult] at h
  split at h
  · split at h
    · next values hvalues =>
      cases h
      exact Or.inr (append_list hvalues)
    · cases h
  · exact Or.inl (Except.ok.inj h).symm

theorem appendResult_succeeds {q : Scalar × Value} (hq : q.1 = key → ∃ xs, q.2 = .list xs) :
    Succeeds (appendResult key value q) := by
  rw [appendResult]
  split
  · next heq =>
    obtain ⟨xs, hxs⟩ := hq heq
    simp [hxs, Value.append]
  · exact succeeds_ok q

theorem appendResults_succeed (hs : p.Tracks data s) (hkey : p.singleKey key = false) :
    Succeeds (s.results.mapM (appendResult key value)) := by
  refine exists_mapM_eq_ok fun q hq => appendResult_succeeds fun heq => hs.lists q hq ?_
  rw [heq, hkey]

theorem parseItem_succeeds_iff (hs : p.Tracks data s) :
    Succeeds (p.parseItem s key value) ↔ p.AcceptsItem key value ∧
      (hasFilters key value = false → p.singleKey key = true → key ∉ s.names) := by
  rw [parseItem, AcceptsItem]
  split
  · next hf => simp [parseQfilters_succeeds_iff, hf]
  · next hf =>
    rw [succeeds_bind, ← parseQuery_succeeds_iff]
    have hf' : hasFilters key value = false := Bool.not_eq_true _ ▸ hf
    constructor
    · rintro ⟨values, hvalues, h⟩
      refine ⟨⟨values, hvalues⟩, fun _ hsingle hmem => ?_⟩
      rw [if_pos hmem, if_pos hsingle] at h
      exact not_succeeds_error _ h
    · rintro ⟨⟨values, hvalues⟩, hunique⟩
      refine ⟨values, hvalues, ?_⟩
      split
      · next hmem =>
        cases hsingle : p.singleKey key with
        | true => exact absurd hmem (hunique hf' hsingle)
        | false => simpa using appendResults_succeed hs hsingle
      · exact succeeds_pure _

theorem parseItem_raises_iff (hs : p.Tracks data s) :
    Raises (p.parseItem s key value) ↔ p.BreaksItem key value := by
  rw [parseItem, BreaksItem]
  split
  · simp [parseQfilters_raises_iff]
  · rw [raises_bind, ← parseQuery_raises_iff]
    refine or_iff_left ?_
    rintro ⟨values, -, h⟩
    split at h
    · split at h
      · exact absurd h (by simp [Error.isPolicyValidation])
      · next hsingle =>
        obtain ⟨results, hresults⟩ :=
          @appendResults_succeed p data s key value hs (Bool.not_eq_true _ ▸ hsingle)
        rw [hresults] at h
        exact not_raises_ok _ h
    · exact not_raises_pure _ h

theorem queryKeys_append : (data ++ [Value.single key value]).filterMap queryKey =
    data.filterMap queryKey ++ if hasFilters key value then [] else [key] := by
  rw [List.filterMap_append, Value.single, List.filterMap_cons, queryKey]
  cases hasFilters key value <;> rfl

theorem parseItem_tracks (hs : p.Tracks data s) (h : p.parseItem s key value = .ok s') :
    p.Tracks (data ++ [.single key value]) s' := by
  have hkeys := @queryKeys_append data key value
  rw [parseItem] at h
  split at h
  · next hf =>
    obtain ⟨filters, hfilters, h⟩ := bind_eq_ok.mp h
    cases pure_eq_ok.mp h
    refine ⟨fun k => ?_, ?_⟩
    · rw [hkeys, if_pos hf, List.append_nil]
      exact hs.names k
    · rw [List.forall_mem_append, List.forall_mem_singleton]
      exact ⟨hs.lists, fun _ => parseQfilters_list hfilters⟩
  · next hf =>
    obtain ⟨values, hvalues, h⟩ := bind_eq_ok.mp h
    rw [if_neg hf] at hkeys
    split at h
    · next hmem =>
      have hnames : ∀ k, k ∈ s.names ↔ k ∈ (data ++ [Value.single key value]).filterMap queryKey := by
        intro k
        rw [hkeys, List.mem_append, ← hs.names, List.mem_singleton, or_iff_left_of_imp]
        rintro rfl
        exact hmem
      split at h
      · cases h
      · obtain ⟨results, hresults, h⟩ := bind_eq_ok.mp h
        cases pure_eq_ok.mp h
        refine ⟨hnames, forall_of_mapM_eq_ok hresults fun q hq q' hq' hsingle => ?_⟩
        rcases appendResult_cases hq' with rfl | hlist
        · exact hs.lists _ hq hsingle
        · exact hlist
    · cases pure_eq_ok.mp h
      refine ⟨fun k => ?_, ?_⟩
      · rw [hkeys, List.mem_append, List.mem_append, hs.names]
      · rw [List.forall_mem_append, List.forall_mem_singleton]
        exact ⟨hs.lists, parseQuery_list hvalues⟩

theorem acceptsItems_append {d : Value} : p.AcceptsItems (data ++ [d]) ↔ p.AcceptsItems data ∧
    ∃ key value, d = .single key value ∧ p.AcceptsItem key value ∧
      (hasFilters key value = false → p.singleKey key = true → key ∉ data.filterMap queryKey) := by
  rw [AcceptsItems, List.forall_mem_append, List.forall_mem_singleton, AcceptsItems]
  constructor
  · rintro ⟨⟨hdata, key, value, rfl, hitem⟩, hnodup⟩
    rw [queryKeys_append, List.filter_append, List.nodup_append] at hnodup
    refine ⟨⟨hdata, hnodup.1⟩, key, value, rfl, hitem, fun hf hsingle hmem => ?_⟩
    refine hnodup.2.2 key (List.mem_filter.mpr ⟨hmem, hsingle⟩) key ?_ rfl
    simp [hf, hsingle]
  · rintro ⟨⟨hdata, hnodup⟩, key, value, rfl, hitem, hunique⟩
    refine ⟨⟨hdata, key, value, rfl, hitem⟩, ?_⟩
    rw [queryKeys_append]
    cases hf : hasFilters key value with
    | true => simpa using hnodup
    | false =>
      rw [if_neg Bool.false_ne_true, List.filter_append, List.nodup_append]
      refine ⟨hnodup, (List.nodup_singleton key).filter _, ?_⟩
      rintro k hk _ hkey rfl
      obtain ⟨hkey, hsingle⟩ := List.mem_filter.mp hkey
      cases List.mem_singleton.mp hkey
      exact hunique hf hsingle (List.mem_filter.mp hk).1

theorem parseStep_succeeds_iff (hs : p.Tracks data s) {d : Value} :
    Succeeds (p.parseStep s d) ↔ ∃ key value, d = .single key value ∧ p.AcceptsItem key value ∧
      (hasFilters key value = false → p.singleKey key = true → key ∉ data.filterMap queryKey) := by
  fun_cases parseStep p s d with
  | case1 key value =>
    rw [parseItem_succeeds_iff hs]
    simp [Value.single, hs.names]
  | case2 _ hd =>
    simp only [not_succeeds_error, false_iff, not_exists, not_and]
    exact fun key value heq => (hd key value heq).elim

theorem parseStep_raises_iff (hs : p.Tracks data s) {d : Value} :
    Raises (p.parseStep s d) ↔ ∃ key value, d = .single key value ∧ p.BreaksItem key value := by
  fun_cases parseStep p s d with
  | case1 key value =>
    rw [parseItem_raises_iff hs]
    simp [Value.single]
  | case2 _ hd =>
    simp only [raises_error, Error.isPolicyValidation, Bool.true_eq_false, false_iff, not_exists,
      not_and]
    exact fun key value heq => (hd key value heq).elim

theorem parseStep_tracks (hs : p.Tracks data s) {d : Value} (h : p.parseStep s d = .ok s') :
    p.Tracks (data ++ [d]) s' := by
  revert h
  fun_cases parseStep p s d with
  | case1 key value => exact parseItem_tracks hs
  | case2 => exact fun h => nomatch h

theorem parseItems_tracks (h : p.parseItems data = .ok s) : p.Tracks data s := by
  induction data using List.reverseRecOn generalizing s with
  | nil =>
    cases h
    exact ⟨fun _ => Iff.rfl, by simp⟩
  | append_singleton data d ih =>
    rw [parseItems, List.foldlM_append, bind_eq_ok] at h
    obtain ⟨s₁, hs₁, h⟩ := h
    simp only [List.foldlM_cons, List.foldlM_nil, bind_pure] at h
    exact parseStep_tracks (ih hs₁) h

theorem parseItems_succeeds_iff : Succeeds (p.parseItems data) ↔ p.AcceptsItems data := by
  induction data using List.reverseRecOn with
  | nil => simp [parseItems, AcceptsItems]
  | append_singleton data d ih =>
    rw [acceptsItems_append, ← ih, parseItems, List.foldlM_append, succeeds_bind]
    simp only [List.foldlM_cons, List.foldlM_nil, bind_pure]
    constructor
    · rintro ⟨s, hs, h⟩
      exact ⟨⟨s, hs⟩, (parseStep_succeeds_iff (parseItems_tracks hs)).mp h⟩
    · rintro ⟨⟨s, hs⟩, h⟩
      exact ⟨s, hs, (parseStep_succeeds_iff (parseItems_tracks hs)).mpr h⟩

theorem parseItems_raises_iff : Raises (p.parseItems data) ↔ p.BreaksItems data := by
  constructor
  · rintro ⟨e, h, he⟩
    obtain ⟨before, d, after, s, rfl, hbefore, hd⟩ := foldlM_eq_error_iff.mp h
    obtain ⟨key, value, rfl, hitem⟩ :=
      (parseStep_raises_iff (parseItems_tracks hbefore)).mp ⟨e, hd, he⟩
    exact ⟨before, key, value, after, rfl, parseItems_succeeds_iff.mp ⟨s, hbefore⟩, hitem⟩
  · rintro ⟨before, key, value, after, rfl, hbefore, hitem⟩
    obtain ⟨s, hs⟩ := parseItems_succeeds_iff.mpr hbefore
    obtain ⟨e, he, hpv⟩ :=
      (parseStep_raises_iff (parseItems_tracks hs)).mpr ⟨key, value, rfl, hitem⟩
    exact ⟨e, foldlM_eq_error_iff.mpr ⟨before, _, after, s, rfl, hs, he⟩, hpv⟩

/-! ## Forms of a query -/

theorem breaksItems_onlyFilters {filters : List Value} (h : filters ≠ []) :
    p.BreaksItems (onlyFilters filters) ↔
      FirstBreaks (Filter p.AcceptsNamed) (Filter p.BreaksNamed) filters := by
  have hf : hasFilters (.lit "Filters") (.list filters) = true := by
    simpa [hasFilters, Value.truthy, List.isEmpty_eq_false_iff] using h
  have hitem : p.BreaksItem (.lit "Filters") (.list filters) ↔
      FirstBreaks (Filter p.AcceptsNamed) (Filter p.BreaksNamed) filters := by
    rw [BreaksItem, if_pos hf]
    simp
  constructor
  · rintro ⟨before, key, value, after, heq, -, hbreaks⟩
    rcases before with _ | ⟨d, before⟩
    · cases heq
      exact hitem.mp hbreaks
    · simp [onlyFilters] at heq
  · intro h
    exact ⟨[], _, _, [], rfl, parseItems_succeeds_iff.mp (succeeds_ok _), hitem.mpr h⟩

theorem filter_filterDict {condition : Value → Value → Prop} {name : Value} {values : List Value} :
    Filter condition (filterDict name values) ↔ condition name (.list values) := by
  have hname : [(Scalar.lit "Name", name), (.lit "Values", .list values)].lookup (.lit "Name") =
      some name := rfl
  have hvalues : [(Scalar.lit "Name", name), (.lit "Values", .list values)].lookup
      (.lit "Values") = some (.list values) := rfl
  constructor
  · rintro ⟨_, n, v, ⟨⟩, hn, hv, h⟩
    cases hname.symm.trans hn
    cases hvalues.symm.trans hv
    exact h
  · exact fun h => ⟨_, name, .list values, rfl, hname, hvalues, h⟩

theorem isImplicitQueryFilter_raises_iff {first : List (Scalar × Value)} :
    Raises (p.isImplicitQueryFilter first) ↔ p.BreaksFirst first := by
  rw [BreaksFirst]
  fun_cases isImplicitQueryFilter p first with
  | case1 => simp [indexError, Error.isPolicyValidation]
  | case2 value rest key h => simp
  | case3 key value rest h hkey =>
    have hf : p.filters.isSome = true := (Bool.and_eq_true_iff.mp h).2
    simpa [Error.isPolicyValidation, hf] using hkey
  | case4 key value rest h =>
    simp only [not_raises_ok, List.cons_ne_nil, false_or, List.cons.injEq, Prod.mk.injEq,
      false_iff, not_and, not_exists]
    rintro hf k v r ⟨⟨rfl, rfl⟩, rfl⟩ hkey
    refine h (Bool.and_eq_true_iff.mpr ⟨?_, hf⟩)
    cases key with
    | text t => exact absurd rfl (hkey t)
    | _ => rfl

theorem isImplicitQueryFilter_eq_true_iff {first : List (Scalar × Value)} :
    p.isImplicitQueryFilter first = .ok true ↔ p.IsImplicit first := by
  rw [IsImplicit]
  fun_cases isImplicitQueryFilter p first with
  | case1 => simp
  | case2 value rest key h =>
    rw [Bool.and_eq_true_iff, Option.isNone_iff_eq_none] at h
    simp [h]
  | case3 key value rest h hkey =>
    simp only [reduceCtorEq, List.cons.injEq, Prod.mk.injEq, false_iff, not_exists, not_and]
    rintro t v r ⟨⟨rfl, rfl⟩, rfl⟩
    exact absurd rfl (hkey t)
  | case4 key value rest h =>
    simp only [Except.ok.injEq, Bool.false_eq_true, List.cons.injEq, Prod.mk.injEq, false_iff,
      not_exists, not_and]
    rintro t v r ⟨⟨rfl, rfl⟩, rfl⟩ hnone hsome
    exact absurd (Bool.and_eq_true_iff.mpr ⟨Option.isNone_iff_eq_none.mpr hnone, hsome⟩) h

theorem implicitFilter_succeeds_iff (d : Value) : Succeeds (implicitFilter d) ↔ HasKey d := by
  rw [HasKey]
  rcases d with _ | _ | (_ | ⟨entry, rest⟩) <;> simp [implicitFilter]

theorem implicitFilter_raises_iff (d : Value) : Raises (implicitFilter d) ↔ ¬ HasKey d := by
  rw [HasKey]
  rcases d with _ | _ | (_ | ⟨entry, rest⟩) <;>
    simp [implicitFilter, indexError, Error.isPolicyValidation]

theorem nameValue_eq_ok {d item : Value} : nameValue d = .ok item ↔ IsPair d item := by
  rw [IsPair]
  fun_cases nameValue d with
  | case1 items name value hvalue hname =>
    simp [hname, hvalue, eq_comm]
  | case2 items name value hn hvalue hname =>
    simp only [reduceCtorEq, Value.dict.injEq, false_iff, not_exists, not_and]
    rintro _ n v rfl hname' - -
    exact hn n (Option.some.inj (hname.symm.trans hname'))
  | case3 items _ h =>
    simp only [reduceCtorEq, Value.dict.injEq, false_iff, not_exists, not_and]
    rintro _ n v rfl hname hvalue -
    exact h _ v hname hvalue
  | case4 d hd =>
    simp only [reduceCtorEq, false_iff, not_exists, not_and]
    rintro items n v rfl
    exact absurd rfl (hd items)

theorem nameValue_succeeds_iff (d : Value) : Succeeds (nameValue d) ↔ AcceptsPair d :=
  exists_congr fun _ => nameValue_eq_ok

theorem nameValue_raises_iff (d : Value) : Raises (nameValue d) ↔ BreaksPair d := by
  rw [BreaksPair]
  fun_cases nameValue d with
  | case1 items name value hvalue hname => simp [hname]
  | case2 items name value hn hvalue hname => simpa [hname, hvalue, Error.isPolicyValidation] using hn
  | case3 items _ h =>
    simp only [raises_error, Error.isPolicyValidation, Bool.true_eq_false, false_iff]
    intro hbreaks
    obtain ⟨⟨v, hv⟩, n, hn, -⟩ := hbreaks items rfl
    exact h n v hn hv
  | case4 d hd =>
    simp only [raises_error, Error.isPolicyValidation, true_iff]
    exact fun items heq => absurd heq (hd items)

theorem firstKey_iff {condition : Value → Value → Prop} {d f : Value}
    (h : implicitFilter d = .ok f) : FirstKey condition d ↔ Filter condition f := by
  revert h
  rw [FirstKey]
  fun_cases implicitFilter d with
  | case1 key value rest =>
    intro h
    rw [← Except.ok.inj h, filter_filterDict]
    constructor
    · rintro ⟨k, v, r, ⟨⟩, h⟩
      exact h
    · exact fun h => ⟨key, value, rest, rfl, h⟩
  | case2 => exact fun h => nomatch h
  | case3 => exact fun h => nomatch h

/-! ## Queries -/

theorem implicit_raises_iff {data : List Value} (hne : data ≠ []) :
    Raises (data.mapM implicitFilter >>= fun filters => p.parseItems (onlyFilters filters)) ↔
      p.BreaksImplicit data := by
  rw [raises_bind, mapM_raises_iff implicitFilter_succeeds_iff implicitFilter_raises_iff,
    firstBreaks_not, BreaksImplicit]
  by_cases hall : ∃ d ∈ data, ¬ HasKey d
  · exact iff_of_true (Or.inl hall) (Or.inl hall)
  · rw [or_iff_right hall, or_iff_right hall]
    push Not at hall
    obtain ⟨filters, hfilters⟩ := (mapM_succeeds_iff implicitFilter_succeeds_iff).mpr hall
    have hrel := (mapM_eq_ok _ _ _).mp hfilters
    have hfilters_ne : filters ≠ [] := by
      rintro rfl
      exact hne (List.forall₂_nil_right_iff.mp hrel)
    have hcongr : FirstBreaks (FirstKey p.AcceptsNamed) (FirstKey p.BreaksNamed) data ↔
        FirstBreaks (Filter p.AcceptsNamed) (Filter p.BreaksNamed) filters :=
      firstBreaks_congr (hrel.imp fun d f h => ⟨firstKey_iff h, firstKey_iff h⟩)
    rw [hcongr, ← breaksItems_onlyFilters hfilters_ne, ← parseItems_raises_iff]
    constructor
    · rintro ⟨filters', hfilters', h⟩
      cases hfilters.symm.trans hfilters'
      exact h
    · exact fun h => ⟨filters, hfilters, h⟩

theorem pairs_raises_iff {data : List Value} :
    Raises (data.mapM nameValue >>= p.parseItems) ↔ p.BreaksPairs data := by
  rw [raises_bind, mapM_raises_iff nameValue_succeeds_iff nameValue_raises_iff, BreaksPairs]
  simp only [mapM_eq_ok, nameValue_eq_ok, parseItems_raises_iff]

theorem isImplicitQueryFilter_error {first : List (Scalar × Value)} {e : Error}
    (h : p.isImplicitQueryFilter first = .error e) : e.isPolicyValidation = false := by
  revert h
  fun_cases isImplicitQueryFilter p first with
  | case1 => exact fun h => Except.error.inj h ▸ rfl
  | case2 => exact fun h => nomatch h
  | case3 => exact fun h => Except.error.inj h ▸ rfl
  | case4 => exact fun h => nomatch h

theorem rewrite_raises_iff {first : List (Scalar × Value)} {rest : List Value} :
    Raises (p.rewrite (.dict first :: rest) >>= p.parseItems) ↔
      p.BreaksData first (.dict first :: rest) := by
  rw [BreaksData]
  cases h : p.isImplicitQueryFilter first with
  | error e =>
    have he := isImplicitQueryFilter_error h
    refine iff_of_true ⟨e, ?_, he⟩ (Or.inl (isImplicitQueryFilter_raises_iff.mp ⟨e, h, he⟩))
    simp only [rewrite, h]
    rfl
  | ok implicit =>
    have hfirst : ¬ p.BreaksFirst first := by
      rw [← isImplicitQueryFilter_raises_iff, h]
      exact not_raises_ok _
    rw [or_iff_right hfirst, ← isImplicitQueryFilter_eq_true_iff, h, Except.ok.injEq]
    simp only [rewrite, h, ok_bind]
    cases implicit with
    | true =>
      rw [← implicit_raises_iff (List.cons_ne_nil _ _)]
      simp [bind_assoc]
    | false =>
      simp only [Bool.false_eq_true, if_false, false_and, not_false_eq_true, true_and, false_or]
      split
      · exact pairs_raises_iff
      · split
        · rw [← breaksItems_onlyFilters (List.cons_ne_nil _ _), ← parseItems_raises_iff]
          rfl
        · exact parseItems_raises_iff

theorem parse_raises_iff {query : Value} : Raises (p.parse query) ↔ p.Breaks query := by
  rw [Breaks]
  rcases query with s | (_ | ⟨d, rest⟩) | items
  · simp [parse, Error.isPolicyValidation]
  · simp [parse, rewrite, parseItems, ok_bind]
  · have hparse : Raises (p.parse (.list (d :: rest))) ↔
        Raises (p.rewrite (d :: rest) >>= p.parseItems) := by
      simp only [parse, bind_pure_comp, raises_bind, raises_map]
    rw [hparse]
    cases d with
    | dict first => simp [rewrite_raises_iff]
    | scalar s => simp [rewrite, raises_bind, Error.isPolicyValidation]
    | list items => simp [rewrite, raises_bind, Error.isPolicyValidation]
  · simp [parse, Error.isPolicyValidation]

end Parser

/-- `EMRQueryParser` -/
def emrQueryParser (clock : Clock) : Parser where
  typeName := "EMR".toList
  filters := none
  params := [
    ("ClusterStates".toList, .oneOf (["STARTING", "BOOTSTRAPPING", "RUNNING", "WAITING",
      "TERMINATING", "TERMINATED", "TERMINATED_WITH_ERRORS"].map Scalar.lit)),
    ("CreatedBefore".toList, .date), ("CreatedAfter".toList, .date)]
  multiValue := true
  singleValueFields := ["CreatedBefore".toList, "CreatedAfter".toList]
  clock := clock

/-- A clock that knows no date; an item without keys is not looked at that far. -/
def undated : Clock where
  floatOfText _ := .error valueError
  floatOfNum q := .ok (.fin q)
  parse _ := .error valueError
  fromtimestamp _ := .error valueError
  fromMillis _ := .error valueError
  dateFloor := 1142726400
  windows := false

end Custodian.QueryRejection

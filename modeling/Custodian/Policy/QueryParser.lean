import Custodian.Lib.Except
import Custodian.Lib.SharedLists
import Custodian.Lib.Text

/-!
# Parsing a resource query

`QueryParser` of `c7n/utils.py`: the check of the `query` key of a policy against the schema of a
resource, which also merges the values of repeated keys.

The lists of the policy are read at addresses, since `parse` returns some of them and may add to
them later.
-/

namespace Custodian.QueryParser

open Py

/-! ## Policy data -/

/-- A scalar; `other` are numbers with a fraction, dates and times. -/
inductive Scalar (A : Type) where
  | text (s : Text)
  | int (n : Int)
  | bool (b : Bool)
  | null
  | other (a : A)
  deriving DecidableEq

/-- A value of the policy. -/
inductive Value (A : Type) where
  | scalar (s : Scalar A)
  | list (address : Nat)
  | dict (items : List (Text × Value A))

variable {A : Type}

def Value.isScalar : Value A → Bool
  | .scalar _ => true
  | _ => false

/-- `if not isinstance(v, list): v = [v]` -/
def Value.asList : Value A → Ref (Value A)
  | .list l => .own l
  | v => .fresh [v]

/-! ## Schemas -/

/-- The type of a value in a schema: a tuple, `'date'`, a class or, for `Filters`, a schema. -/
inductive VType (A : Type) where
  | oneOf (choices : List Text)
  | date
  | cls (instances : Scalar A → Bool)
  | schema

/-- `str` as the type of a value. -/
def VType.str : VType A :=
  .cls fun
    | .text _ => true
    | _ => false

/-- A subclass of `QueryParser`: `QuerySchema` is split into its `Filters` and its other keys. -/
structure Parser (A : Type) where
  typeName : Text
  filters : Option (Text → Option (VType A))
  params : Text → Option (VType A)
  multiValue : Bool
  /-- `key in single_value_fields` -/
  singleValueFields : Text → Bool
  /-- `parse_date` gives a date, for a scalar. -/
  parseDate : Scalar A → Bool
  /-- The truth value of other scalars. -/
  truthy : A → Bool

/-- What `parse` raises: `PolicyValidationError` by its message, or another exception. -/
inductive Error where
  | mustBeArrayOfDicts
  | notKeyValuePairs
  | mustBeUnique (key : Text)
  | filterMustBeArrayOfDicts
  | filterNameAndValues
  | filterInvalidKey (key : Text)
  | filterMustBeArray (key : Text)
  | mustBeScalar (key : Text)
  | invalidKey (key : Text)
  | invalidValue
  | invalidDate
  | invalidValueType
  | other (e : Exn)
  deriving DecidableEq

/-! ## Results -/

/-- The results of `parse_qfilters`, with the lists of the policy. -/
abbrev Filters (A : Type) := List (Text × Ref (Value A)) × Store (Value A)

/-- What `parse` stores under a key; filters with the values that are appended to them. -/
inductive Slot (A : Type) where
  | scalar (v : Value A)
  | list (values : Ref (Value A))
  | filters (entries : List (Text × Ref (Value A))) (appended : List (Value A))

/-- `q[key].append(v)`; a scalar is never reached, its key must be unique. -/
def Slot.append (v : Value A) (slot : Slot A) (own : Store (Value A)) :
    Slot A × Store (Value A) :=
  match slot with
  | .scalar w => (.scalar w, own)
  | .list values => (.list (values.extend [v] own).1, (values.extend [v] own).2)
  | .filters entries appended => (.filters entries (appended ++ [v]), own)

/-- The variables of the loop of `parse`, with the lists of the policy. -/
structure State (A : Type) where
  results : List (Text × Slot A)
  names : List Text
  own : Store (Value A)

/-- The result of `parse` and the lists of the policy after it. -/
abbrev Parsed (A : Type) := List (Text × Slot A) × Store (Value A)

/-- The result when a query is its filters alone. -/
def onlyFilters (st : Filters A) : Parsed A := ([("Filters".toList, .filters st.1 [])], st.2)

/-- A query as it is rewritten before the loop: its filters alone, or items. -/
inductive Form (A : Type) where
  | implicit (filters : List (Text × Ref (Value A)))
  | filters (data : List (Value A))
  | items (data : List (Value A))

namespace Parser

variable (p : Parser A)

/-- `cls.QuerySchema.get(key)` -/
def schemaType (key : Text) : Option (VType A) :=
  if key = "Filters".toList then p.filters.map fun _ => .schema else p.params key

/-! ## Types of values -/

/-- A value has a type: no list or dictionary has one. -/
def hasType : VType A → Value A → Bool
  | .oneOf choices, .scalar (.text s) => choices.contains s
  | .date, .scalar s => p.parseDate s
  | .cls instances, .scalar s => instances s
  | _, _ => false

def typeError : VType A → Error
  | .oneOf _ => .invalidValue
  | .date => .invalidDate
  | .cls _ => .invalidValueType
  | .schema => .other .typeError

/-- `type_check` -/
def typeCheck (vtype : VType A) (value : Value A) : Except Error Unit :=
  if p.hasType vtype value then .ok () else .error (typeError vtype)

/-- The type check of every value of a list. -/
def typeCheckAll (vtype : VType A) (values : List (Value A)) : Except Error Unit :=
  values.forM (p.typeCheck vtype)

/-! ## Filters -/

/-- The name of a filter is in the schema or is that of a tag. -/
def knownFilter (key : Text) : Bool :=
  (p.filters.any fun types => (types key).isSome) || Text.startsWith key "tag:".toList

/-- The check of a filter's name, with the type of its values. -/
def filterType (key : Text) : Except Error (VType A) :=
  if p.knownFilter key then
    match p.filters with
    | some types => .ok ((types key).getD .str)
    | none => .error (.other .keyError)
  else .error (.filterInvalidKey key)

/-- A filter of the policy, with its list of values. -/
def filterOf : Value A → Except Error (Text × Ref (Value A))
  | .dict items =>
    match items.lookup "Name".toList, items.lookup "Values".toList with
    | some (.scalar (.text key)), some (.list l) =>
      if p.knownFilter key then .ok (key, .own l) else .error (.filterInvalidKey key)
    | some (.scalar (.text key)), some _ =>
      if p.knownFilter key then .error (.filterMustBeArray key)
      else .error (.filterInvalidKey key)
    | some _, some _ => .error (.other .attributeError)
    | _, _ => .error .filterNameAndValues
  | _ => .error .filterMustBeArrayOfDicts

/-- The loop of `parse_qfilters` after the checks of a filter's form. -/
def addFilter (st : Filters A) (f : Text × Ref (Value A)) : Except Error (Filters A) := do
  let vtype ← p.filterType f.1
  p.typeCheckAll vtype (f.2.read st.2)
  pure (mergeStep st f)

/-- `parse_qfilters` of a list -/
def parseFilterList (own : Store (Value A)) (data : List (Value A)) : Except Error (Filters A) :=
  data.foldlM (fun st f => do p.addFilter st (← p.filterOf f)) ([], own)

/-- `parse_qfilters` -/
def parseQfilters (own : Store (Value A)) : Value A → Except Error (Filters A)
  | .list l => p.parseFilterList own (own l)
  | _ => .error .filterMustBeArrayOfDicts

/-! ## Other keys -/

/-- The key takes one scalar. -/
def single (key : Text) : Bool := !p.multiValue || p.singleValueFields key

/-- The check of a key, with its type. -/
def keyType (key : Text) : Except Error (VType A) :=
  match p.schemaType key with
  | some vtype => .ok vtype
  | none => .error (.invalidKey key)

/-- `parse_query` -/
def parseQuery (own : Store (Value A)) (key : Text) (value : Value A) :
    Except Error (Slot A) :=
  if p.single key then
    match value with
    | .list _ => .error (.mustBeScalar key)
    | v => do
      let vtype ← p.keyType key
      p.typeCheck vtype v
      pure (.scalar v)
  else do
    let vtype ← p.keyType key
    p.typeCheckAll vtype (value.asList.read own)
    pure (.list value.asList)

/-- The truth value of a value. -/
def isTrue (own : Store (Value A)) : Value A → Bool
  | .scalar (.text s) => !s.isEmpty
  | .scalar (.int n) => n ≠ 0
  | .scalar (.bool b) => b
  | .scalar .null => false
  | .scalar (.other a) => p.truthy a
  | .list l => !(own l).isEmpty
  | .dict items => !items.isEmpty

/-- The loop of `parse`, for an item with its only key. -/
def parseItem (s : State A) (key : Text) (value : Value A) : Except Error (State A) :=
  if key = "Filters".toList ∧ p.isTrue s.own value then do
    let st ← p.parseQfilters s.own value
    pure { s with results := s.results ++ [(key, .filters st.1 [])], own := st.2 }
  else do
    let slot ← p.parseQuery s.own key value
    if key ∈ s.names then
      if p.single key then .error (.mustBeUnique key)
      else
        let st := updateKey key (Slot.append value) s.results s.own
        pure { s with results := st.1, own := st.2 }
    else pure { s with results := s.results ++ [(key, slot)], names := s.names ++ [key] }

/-- The loop of `parse`. -/
def parseStep (s : State A) : Value A → Except Error (State A)
  | .dict [(key, value)] => p.parseItem s key value
  | _ => .error .notKeyValuePairs

def parseItems (own : Store (Value A)) (data : List (Value A)) : Except Error (State A) :=
  data.foldlM p.parseStep ⟨[], [], own⟩

/-! ## Forms of a query -/

/-- `is_implicit_query_filter`, for the first item -/
def isImplicitQueryFilter : List (Text × Value A) → Except Error Bool
  | [] => .error (.other (.raised "IndexError".toList))
  | (key, _) :: _ => .ok ((p.schemaType key).isNone && p.filters.any fun types =>
      (types key).isSome || Text.startsWith key "tag:".toList)

/-- The filter of an item: its first key. -/
def implicitFilter : Value A → Except Error (Text × Ref (Value A))
  | .dict ((key, value) :: _) => .ok (key, value.asList)
  | .dict [] => .error (.other (.raised "IndexError".toList))
  | _ => .error (.other .attributeError)

/-- `{d['Name']: d['Value']}`; a name that is no string is no key of the schema. -/
def nameValue : Value A → Except Error (Value A)
  | .dict items =>
    match items.lookup "Name".toList, items.lookup "Value".toList with
    | some (.scalar (.text key)), some value => .ok (.dict [(key, value)])
    | some _, some _ => .error (.other .typeError)
    | _, _ => .error .notKeyValuePairs
  | _ => .error (.other .typeError)

/-- `d.get(key)` is true. -/
def hasTrue (own : Store (Value A)) (items : List (Text × Value A)) (key : Text) : Bool :=
  (items.lookup key).any (p.isTrue own)

/-- The rewriting of older forms of a query. -/
def formOf (own : Store (Value A)) (data : List (Value A)) : Except Error (Form A) :=
  match data with
  | [] => .ok (.items [])
  | .dict first :: _ => do
    if ← p.isImplicitQueryFilter first then
      let filters ← data.mapM implicitFilter
      pure (.implicit filters)
    else if p.hasTrue own first "Value".toList &&
        (p.typeName = "IAM Policy".toList || p.typeName = "ElastiCache".toList) then
      let items ← data.mapM nameValue
      pure (.items items)
    else if p.hasTrue own first "Values".toList &&
        (p.typeName = "EBS Snapshot".toList || p.typeName = "EBS Volume".toList) then
      pure (.filters data)
    else pure (.items data)
  | _ :: _ => .error .mustBeArrayOfDicts

/-- The parse of a rewritten query. -/
def parseForm (own : Store (Value A)) : Form A → Except Error (Parsed A)
  | .implicit filters => do
    let st ← filters.foldlM p.addFilter ([], own)
    pure (onlyFilters st)
  | .filters data => do
    let st ← p.parseFilterList own data
    pure (onlyFilters st)
  | .items data => do
    let s ← p.parseItems own data
    pure (s.results, s.own)

/-- `parse` -/
def parse (own : Store (Value A)) : Value A → Except Error (Parsed A)
  | .list l => do
    let form ← p.formOf own (own l)
    p.parseForm own form
  | _ => .error .mustBeArrayOfDicts

end Parser

end Custodian.QueryParser

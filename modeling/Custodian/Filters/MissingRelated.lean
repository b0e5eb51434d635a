import Custodian.Filters.Related
import Custodian.Filters.ValueMatch

/-!
# Related objects that are missing

`RelatedResourceFilter.process_resource` of `filters/related.py` for the filters of `filters/vpc.py`
on security groups, subnets and vpcs, where an object that a resource refers to may be missing: that
branch, and the matching of a subnet, read data that the filter may not have.
-/

namespace Custodian.MissingRelated

open Py
open Related (Operator Verdict)
open ValueTypes
open ValueOps (Value operators)
open ValueMatch (invalid regexOperators)

/-! ## The data of a filter -/

inductive Class where
  | securityGroup
  | subnet
  | vpc
  deriving DecidableEq

/-- `type` -/
def Class.type : Class → Text
  | .securityGroup => "security-group".toList
  | .subnet => "subnet".toList
  | .vpc => "vpc".toList

/-- The members of the data of a filter, but for its `type`. -/
structure Data where
  key : Option Text
  value : Option Value
  /-- What `ValuesFrom(data['value_from']).get_values()` gives. -/
  valueFrom : Option (Except Exn Value)
  valuePath : Option Text
  op : Option Text
  valueType : Option ValueType
  valueRegex : Option Text
  tagKeyTransforms : Option (List Text)
  /-- `'default' in data` -/
  default : Bool
  operator : Option Operator
  matchResource : Option Bool
  igw : Option Bool
  nat : Option Bool

/-- `len(data) == 1` -/
def Data.isSingle (d : Data) : Bool :=
  d.key.isNone && d.value.isNone && d.valueFrom.isNone && d.valuePath.isNone && d.op.isNone &&
    d.valueType.isNone && d.valueRegex.isNone && d.tagKeyTransforms.isNone && !d.default &&
    d.operator.isNone && d.matchResource.isNone && d.igw.isNone && d.nat.isNone

/-- The part of the data that `ValueFilter` reads, with a value. -/
def Data.withValue (d : Data) (v : Value) : ValueMatch.Data where
  key := d.key
  value := v
  op := d.op
  valueType := d.valueType
  valueRegex := d.valueRegex
  tagKeyTransforms := d.tagKeyTransforms.getD []

/-- `data.get('value')` -/
def valueOrNone (value : Option Value) : Value := value.getD .none

/-! ## Validation -/

/-- `required_keys`, of which either both or none of `key` and `value` are members: `set('key',)` is
the set of the letters. -/
def Data.requiresKeys (cls : Class) (d : Data) : Bool :=
  cls ≠ .subnet && d.matchResource ≠ some true

/-- `_validate_resource_count` -/
def Data.validateResourceCount (d : Data) : Except Exn Unit :=
  match d.value with
  | none => invalid
  | some v => (d.withValue v).validateResourceCount

def Data.validateType (env : Env) (d : Data) : Except Exn Unit :=
  if d.valueType = some .duration ∧
      (d.value.isNone ∨ d.valueFrom.isSome ∨ d.valuePath.isSome) then invalid
  else (d.withValue (valueOrNone d.value)).validateType env

/-- An expression is read from the data. -/
def Data.validateOp (env : Env) (d : Data) : Except Exn Unit :=
  match d.value, d.op with
  | some v, _ => (d.withValue v).validateOp env
  | none, none => .ok ()
  | none, some op =>
    if operators.lookup op = none then invalid
    else if op ∈ regexOperators then .error .keyError
    else .ok ()

/-- `validate` -/
def Data.validate (env : Env) (cls : Class) (d : Data) : Except Exn Unit :=
  if d.isSingle then .ok ()
  else if d.valueType = some .resourceCount then d.validateResourceCount
  else do
    d.validateType env
    if d.key.isNone && d.requiresKeys cls then invalid
    else if d.value.isNone && d.valueFrom.isNone && d.valuePath.isNone && d.requiresKeys cls then
      invalid
    else do
      d.validateOp env
      (d.withValue (valueOrNone d.value)).validateTagKeyTransforms
      (d.withValue (valueOrNone d.value)).validateValueRegex env

/-! ## Route tables -/

structure Association where
  main : Bool
  subnetId : Option Text

structure Route where
  gatewayId : Option Text
  natGatewayId : Option Text

structure RouteTable where
  vpcId : Text
  associations : List Association
  routes : List Route

/-- The table of a vpc or a subnet. -/
abbrev RouteTables := Text → Option RouteTable

/-- One association of a table. -/
def addAssociation (r : RouteTable) (tables : RouteTables) (a : Association) : RouteTables :=
  if a.main then Function.update tables r.vpcId (some r)
  else match a.subnetId with
    | some subnetId => Function.update tables subnetId (some r)
    | none => tables

/-- `get_route_tables` -/
def getRouteTables (tables : List RouteTable) : RouteTables :=
  tables.foldl (fun found r => r.associations.foldl (addAssociation r) found) fun _ => none

/-- A route to an internet gateway. -/
def Route.isIgw (r : Route) : Bool :=
  r.gatewayId.any fun gatewayId => gatewayId.startsWith "igw-".toList

/-- A route to a nat gateway. -/
def Route.isNat (r : Route) : Bool := r.natGatewayId.any fun natGatewayId => !natGatewayId.isEmpty

/-! ## The filters -/

/-- A filter, and what it reads of resources `R` and objects `O`. -/
structure Filter (R O Id : Type) where
  env : Env
  cls : Class
  data : Data
  /-- `self.get_related_ids([resource])` -/
  relatedIds : R → List Id
  fields : R → Resource
  /-- `model.id in resource` -/
  hasId : R → Bool
  objectFields : O → Resource
  /-- `subnet['SubnetId']` and `subnet['VpcId']` -/
  subnetId : O → Text
  vpcId : O → Text
  /-- What the manager of route tables finds. -/
  routeTables : List RouteTable

/-- `data['value']`, and `self.v` once `match` has set it. -/
structure State where
  value : Option Value
  v : Option Value

variable {R O Id : Type} (f : Filter R O Id)

/-- `match_igw` and `match_nat`; no route table is no match. -/
def matchRoute (check : Option Bool) (isRoute : Route → Bool) (subnet : O) : Bool :=
  match check with
  | none => true
  | some check =>
    let tables := getRouteTables f.routeTables
    match (tables (f.subnetId subnet)).or (tables (f.vpcId subnet)) with
    | none => false
    | some rtable => check = rtable.routes.any isRoute

/-- What `self.v` is set to by the first `match`. -/
def initial (value : Option Value) : Except Exn Value :=
  if f.data.isSingle then .ok (.str f.cls.type)
  else match f.data.valueFrom with
    | some values => values
    | none => if f.data.valuePath.isSome then .ok .none else .ok (valueOrNone value)

/-- `self.v` after it is set: `v` is the one that it was, if any. -/
def held (v value : Option Value) : Except Exn Value :=
  match v with
  | some v => .ok v
  | none => initial f value

/-- What `match` reads of the data; of data with one member, this is the key. -/
def matched (v : Value) : ValueMatch.Data :=
  if f.data.isSingle then { f.data.withValue v with key := some "type".toList }
  else f.data.withValue v

/-- An object is matched with the value `v`, or with what the path of the filter gives for it. -/
def compare (v : Value) (robj : O) : Except Exn Bool := do
  let i := f.objectFields robj
  let v ← match f.data.valueFrom, f.data.valuePath with
    | none, some path => f.env.search path i
    | _, _ => .ok v
  (matched f v).matches f.env (some i)

/-- `ValueFilter.match` -/
def valueMatch (robj : O) (s : State) : Except Exn (Bool × State) := do
  let v ← held f s.v s.value
  let m ← compare f v robj
  return (m, { s with v := some v })

/-- `SubnetFilter.match` -/
def subnetMatch (subnet : O) (s : State) : Except Exn (Bool × State) := do
  let (m, s) ← if f.data.key.isNone || s.value.isNone then .ok (true, s) else valueMatch f subnet s
  let igw := matchRoute f f.data.igw Route.isIgw subnet
  let nat := matchRoute f f.data.nat Route.isNat subnet
  return (match f.data.operator.getD .and with
    | .and => igw && nat && m
    | .or => igw || nat || m, s)

/-- `self.match(robj)` -/
def matchObject (robj : O) (s : State) : Except Exn (Bool × State) :=
  match f.cls with
  | .subnet => subnetMatch f robj s
  | _ => valueMatch f robj s

def isAbsent : Value → Bool
  | .str s => s = "absent".toList
  | _ => false

/-- A missing object: it is found, or a warning is written with the id of the resource. -/
def missing (resource : R) (value : Option Value) : Except Exn Bool :=
  match value with
  | none => .error .keyError
  | some v =>
    if isAbsent v then .ok true
    else if f.hasId resource then .ok false
    else .error .keyError

/-- Whether an id is found. -/
def matchId (related : Id → Option O) (resource : R) (s : State) (rid : Id) :
    Except Exn (Bool × State) :=
  match related rid with
  | none => (missing f resource s.value).map fun m => (m, s)
  | some robj => matchObject f robj s

/-- The loop over the related ids. -/
def findRelated (related : Id → Option O) (resource : R) :
    List Id → State → Except Exn (List Id × State)
  | [], s => .ok ([], s)
  | rid :: rids, s => do
    let (m, s) ← matchId f related resource s rid
    let (found, s) ← findRelated related resource rids s
    return (if m then rid :: found else found, s)

/-- The start of `process_resource`. -/
def setValue (resource : R) (s : State) : Except Exn State :=
  if f.data.matchResource = some true then
    match f.data.key with
    | none => .error .keyError
    | some key => do
      let v ← getResourceValue f.env (f.data.tagKeyTransforms.getD []) f.data.valueRegex key
        (f.fields resource)
      return { s with value := some v }
  else .ok s

/-- `OPERATORS[data.get('op')](len(related_ids), data.get('value'))` -/
def countMatches (resource : R) (value : Option Value) : Except Exn Bool :=
  match f.data.op.bind fun op => operators.lookup op with
  | none => .error .keyError
  | some op => op.apply f.env.toLanguage (.value (.int (f.relatedIds resource).length))
      (.value (valueOrNone value))

/-- `data.get('value_type') == 'resource_count'` -/
def counts : Prop := f.data.valueType = some .resourceCount

instance : Decidable (counts f) := inferInstanceAs (Decidable (_ = _))

/-- What follows it. -/
def judgeResource (related : Id → Option O) (resource : R) (s : State) :
    Except Exn (Verdict Id × State) := do
  let relatedIds := f.relatedIds resource
  if counts f then
    let countMatches ← countMatches f resource s.value
    return (⟨countMatches, if countMatches then relatedIds else []⟩, s)
  else
    let (found, s) ← findRelated f related resource relatedIds s
    return (⟨(f.data.operator.getD .or).decides found relatedIds, found⟩, s)

/-- `process_resource` -/
def processResource (related : Id → Option O) (s : State) (resource : R) :
    Except Exn (Verdict Id × State) := do
  let s ← setValue f resource s
  judgeResource f related resource s

/-- `process`: the verdict on every resource. -/
def process (related : Id → Option O) (resources : List R) : Except Exn (List (Verdict Id)) :=
  (Runs.resultsM (processResource f related) ⟨f.data.value, none⟩ resources).map Prod.fst

variable {f}

/-! ## One object -/

/-- Objects are compared with a value: subnets only if the data has a key and a value. -/
def comparesValue (f : Filter R O Id) (value : Option Value) : Bool :=
  f.cls ≠ .subnet || !(f.data.key.isNone || value.isNone)

/-- `match` returns for an object. -/
def MatchReturns (f : Filter R O Id) (v value : Option Value) (robj : O) : Prop :=
  comparesValue f value = true → ∃ h, held f v value = .ok h ∧ ∃ m, compare f h robj = .ok m

/-- The result of the comparison where it returns. -/
def compared (f : Filter R O Id) (v value : Option Value) (robj : O) : Bool :=
  if comparesValue f value then
    (held f v value >>= fun h => compare f h robj).toOption.getD false
  else true

/-- What `match` makes of the result of the comparison. -/
def withRoutes (f : Filter R O Id) (robj : O) (m : Bool) : Bool :=
  match f.cls with
  | .subnet =>
    let igw := matchRoute f f.data.igw Route.isIgw robj
    let nat := matchRoute f f.data.nat Route.isNat robj
    match f.data.operator.getD .and with
    | .and => igw && nat && m
    | .or => igw || nat || m
  | _ => m

/-- `self.v` after a `match`. -/
def keptValue (f : Filter R O Id) (v value : Option Value) : Option Value :=
  if comparesValue f value then (held f v value).toOption else v

theorem matchObject_eq (robj : O) (s : State) :
    matchObject f robj s =
      (if comparesValue f s.value then valueMatch f robj s else .ok (true, s)).map
        fun p => (withRoutes f robj p.1, p.2) := by
  have hid (x : Except Exn (Bool × State)) : x = x.map fun p => (p.1, p.2) := by
    cases x <;> rfl
  cases hcls : f.cls with
  | subnet =>
    simp only [matchObject, withRoutes, comparesValue, hcls, subnetMatch]
    cases f.data.key.isNone || s.value.isNone with
    | true => rfl
    | false =>
      simp only [Bool.false_eq_true, if_false]
      cases valueMatch f robj s <;> rfl
  | securityGroup =>
    simp only [matchObject, withRoutes, comparesValue, hcls]
    exact hid _
  | vpc =>
    simp only [matchObject, withRoutes, comparesValue, hcls]
    exact hid _

theorem valueMatch_eq_ok_iff {robj : O} {s : State} {r : Bool × State} :
    valueMatch f robj s = .ok r ↔ ∃ h, held f s.v s.value = .ok h ∧
      ∃ m, compare f h robj = .ok m ∧ r = (m, { s with v := some h }) := by
  simp only [valueMatch, bind_eq_ok, pure_eq_ok, @eq_comm _ r]

theorem matchObject_eq_ok_iff {robj : O} {s : State} {r : Bool × State} :
    matchObject f robj s = .ok r ↔ MatchReturns f s.v s.value robj ∧
      r = (withRoutes f robj (compared f s.v s.value robj),
        ⟨s.value, keptValue f s.v s.value⟩) := by
  rw [matchObject_eq, MatchReturns, compared, keptValue]
  cases comparesValue f s.value with
  | false => simp [Except.map, eq_comm]
  | true =>
    simp only [if_true, forall_const]
    constructor
    · intro h
      cases hx : valueMatch f robj s with
      | error e =>
        rw [hx] at h
        cases h
      | ok p =>
        rw [hx] at h
        cases h
        obtain ⟨w, hw, m, hm, rfl⟩ := valueMatch_eq_ok_iff.mp hx
        exact ⟨⟨w, hw, m, hm⟩, by rw [hw, ok_bind, hm]; rfl⟩
    · rintro ⟨⟨w, hw, m, hm⟩, rfl⟩
      rw [valueMatch_eq_ok_iff.mpr ⟨w, hw, m, hm, rfl⟩, hw, ok_bind, hm]
      rfl

/-! ## One resource -/

theorem held_keptValue {v value : Option Value} {robj : O} (h : MatchReturns f v value robj)
    (hcompares : comparesValue f value = true) :
    held f (keptValue f v value) value = held f v value := by
  obtain ⟨w, hw, -⟩ := h hcompares
  rw [keptValue, if_pos hcompares, hw]
  rfl

/-- An id is no obstacle: its object can be matched, or it is missing, the filter has a value, and
either the value is the word for it or the resource has an id for the warning. -/
def IdReturns (f : Filter R O Id) (related : Id → Option O) (r : R) (v value : Option Value)
    (rid : Id) : Prop :=
  match related rid with
  | none => ∃ x, value = some x ∧ (isAbsent x = true ∨ f.hasId r = true)
  | some robj => MatchReturns f v value robj

/-- An id is found. -/
def finds (f : Filter R O Id) (related : Id → Option O) (v value : Option Value) (rid : Id) : Bool :=
  match related rid with
  | none => value.any isAbsent
  | some robj => withRoutes f robj (compared f v value robj)

/-- `self.v` after the loop over some ids. -/
def valueAfter (f : Filter R O Id) (related : Id → Option O) (v value : Option Value)
    (ids : List Id) : Option Value :=
  if ids.any fun rid => (related rid).isSome then keptValue f v value else v

theorem missing_eq_ok_iff {r : R} {value : Option Value} {m : Bool} :
    missing f r value = .ok m ↔
      (∃ x, value = some x ∧ (isAbsent x = true ∨ f.hasId r = true)) ∧ m = value.any isAbsent := by
  cases value with
  | none => simp [missing]
  | some x =>
    rw [missing.eq_def]
    cases hx : isAbsent x <;> cases hid : f.hasId r <;> cases m <;> simp [hx]

theorem matchId_eq_ok_iff {related : Id → Option O} {r : R} {s : State} {rid : Id}
    {p : Bool × State} :
    matchId f related r s rid = .ok p ↔ IdReturns f related r s.v s.value rid ∧
      p = (finds f related s.v s.value rid, ⟨s.value, valueAfter f related s.v s.value [rid]⟩) := by
  rw [matchId, IdReturns, finds, valueAfter, List.any_cons, List.any_nil, Bool.or_false]
  cases related rid with
  | none =>
    constructor
    · intro h
      cases hm : missing f r s.value with
      | error e =>
        rw [hm] at h
        cases h
      | ok m =>
        rw [hm] at h
        cases h
        obtain ⟨hreturns, rfl⟩ := missing_eq_ok_iff.mp hm
        exact ⟨hreturns, rfl⟩
    · rintro ⟨hreturns, rfl⟩
      dsimp only
      rw [missing_eq_ok_iff.mpr ⟨hreturns, rfl⟩]
      rfl
  | some robj => exact matchObject_eq_ok_iff

theorem keptValue_spec {v value : Option Value} {robj : O} (h : MatchReturns f v value robj)
    (related : Id → Option O) (r : R) (rid : Id) :
    (IdReturns f related r (keptValue f v value) value rid ↔ IdReturns f related r v value rid) ∧
      finds f related (keptValue f v value) value rid = finds f related v value rid ∧
      keptValue f (keptValue f v value) value = keptValue f v value := by
  by_cases hcompares : comparesValue f value = true
  · have hheld := held_keptValue h hcompares
    have hkept : keptValue f (keptValue f v value) value = keptValue f v value := by
      rw [keptValue, if_pos hcompares, hheld, keptValue, if_pos hcompares]
    simp only [IdReturns, MatchReturns, finds, compared, hheld, hkept, and_self]
  · have hkept : keptValue f v value = v := if_neg hcompares
    simp only [hkept, and_self]

theorem valueAfter_spec {related : Id → Option O} {r : R} {v value : Option Value} {rid : Id}
    (h : IdReturns f related r v value rid) :
    (∀ rid', IdReturns f related r (valueAfter f related v value [rid]) value rid' ↔
        IdReturns f related r v value rid') ∧
      finds f related (valueAfter f related v value [rid]) value = finds f related v value ∧
      ∀ ids, valueAfter f related (valueAfter f related v value [rid]) value ids =
        valueAfter f related v value (rid :: ids) := by
  simp only [valueAfter, List.any_cons, List.any_nil, Bool.or_false]
  rcases Option.eq_none_or_eq_some (related rid) with hrid | ⟨robj, hrid⟩
  · simp only [hrid, Option.isSome_none, Bool.false_eq_true, if_false, Bool.false_or, implies_true,
      and_self]
  · rw [IdReturns, hrid] at h
    have hkept := keptValue_spec h related r
    simp only [hrid, Option.isSome_some, if_true, Bool.true_or]
    refine ⟨fun rid' => (hkept rid').1, funext fun rid' => (hkept rid').2.1, fun ids => ?_⟩
    rw [(hkept rid).2.2, ite_self]

theorem findRelated_eq_ok_iff {related : Id → Option O} {r : R} {ids : List Id} {s : State}
    {p : List Id × State} :
    findRelated f related r ids s = .ok p ↔
      (∀ rid ∈ ids, IdReturns f related r s.v s.value rid) ∧
        p = (ids.filter (finds f related s.v s.value),
          ⟨s.value, valueAfter f related s.v s.value ids⟩) := by
  induction ids generalizing s p with
  | nil => simp [findRelated, valueAfter, eq_comm]
  | cons rid ids ih =>
    simp only [findRelated, bind_eq_ok, pure_eq_ok, Prod.exists, matchId_eq_ok_iff, ih,
      Prod.mk.injEq, List.forall_mem_cons]
    constructor
    · rintro ⟨m, s', ⟨hrid, rfl, rfl⟩, found, s'', ⟨hrids, rfl, rfl⟩, rfl⟩
      obtain ⟨hreturns, hfinds, hafter⟩ := valueAfter_spec hrid
      simp only [hreturns] at hrids
      refine ⟨⟨hrid, hrids⟩, ?_⟩
      simp only [hfinds, hafter, List.filter_cons]
    · rintro ⟨⟨hrid, hrids⟩, rfl⟩
      obtain ⟨hreturns, hfinds, hafter⟩ := valueAfter_spec hrid
      refine ⟨_, _, ⟨hrid, rfl, rfl⟩, _, _, ⟨?_, rfl, rfl⟩, ?_⟩
      · simpa only [hreturns] using hrids
      · simp only [hfinds, hafter, List.filter_cons]

/-- The value that the data has when a resource is processed. -/
def valueFor (f : Filter R O Id) (r : R) : Option Value :=
  if f.data.matchResource = some true then
    f.data.key.bind fun key => (getResourceValue f.env (f.data.tagKeyTransforms.getD [])
      f.data.valueRegex key (f.fields r)).toOption
  else f.data.value

/-- The values of the resources are read: the filter has a key, which gives one. -/
def ValueReturns (f : Filter R O Id) (r : R) : Prop :=
  f.data.matchResource = some true → ∃ key, f.data.key = some key ∧
    ∃ v, getResourceValue f.env (f.data.tagKeyTransforms.getD []) f.data.valueRegex key
      (f.fields r) = .ok v

/-- A resource is processed: its number of ids can be compared, or no id is an obstacle. -/
def Returns (f : Filter R O Id) (related : Id → Option O) (v : Option Value) (r : R) : Prop :=
  ValueReturns f r ∧
    if counts f then ∃ b, countMatches f r (valueFor f r) = .ok b
    else ∀ rid ∈ f.relatedIds r, IdReturns f related r v (valueFor f r) rid

/-- The number of ids is as the filter has it. -/
def isCounted (f : Filter R O Id) (r : R) : Bool :=
  (countMatches f r (valueFor f r)).toOption.getD false

/-- The verdict on a resource that is processed. -/
def verdict (f : Filter R O Id) (related : Id → Option O) (v : Option Value) (r : R) : Verdict Id :=
  if counts f then ⟨isCounted f r, if isCounted f r then f.relatedIds r else []⟩
  else
    let found := (f.relatedIds r).filter (finds f related v (valueFor f r))
    ⟨(f.data.operator.getD .or).decides found (f.relatedIds r), found⟩

/-- `self.v` after a resource. -/
def nextValue (f : Filter R O Id) (related : Id → Option O) (v : Option Value) (r : R) :
    Option Value :=
  if counts f then v else valueAfter f related v (valueFor f r) (f.relatedIds r)

theorem setValue_eq_ok_iff {r : R} {s s' : State}
    (hs : f.data.matchResource ≠ some true → s.value = f.data.value) :
    setValue f r s = .ok s' ↔ ValueReturns f r ∧ s' = ⟨valueFor f r, s.v⟩ := by
  rw [setValue.eq_def, ValueReturns, valueFor]
  by_cases hmatch : f.data.matchResource = some true
  · rw [if_pos hmatch, if_pos hmatch]
    cases f.data.key with
    | none => simp [hmatch]
    | some key =>
      simp only [bind_eq_ok, pure_eq_ok, forall_prop_of_true hmatch, Option.some.injEq,
        exists_eq_left', Option.bind_some]
      constructor
      · rintro ⟨v, hv, rfl⟩
        exact ⟨⟨v, hv⟩, by rw [hv]; rfl⟩
      · rintro ⟨⟨v, hv⟩, rfl⟩
        exact ⟨v, hv, by rw [hv]; rfl⟩
  · rw [if_neg hmatch, if_neg hmatch, ← hs hmatch]
    rw [and_iff_right fun h => absurd h hmatch]
    exact Except.ok.injEq s s' ▸ eq_comm

theorem judgeResource_eq_ok_iff {related : Id → Option O} {v value : Option Value} {r : R}
    (hvalue : value = valueFor f r) {p : Verdict Id × State} :
    judgeResource f related r ⟨value, v⟩ = .ok p ↔
      (if counts f then ∃ b, countMatches f r value = .ok b
        else ∀ rid ∈ f.relatedIds r, IdReturns f related r v value rid) ∧
      p = (verdict f related v r, ⟨value, nextValue f related v r⟩) := by
  rw [judgeResource, verdict, nextValue, isCounted, ← hvalue]
  by_cases hcounts : counts f
  · rw [if_pos hcounts, if_pos hcounts, if_pos hcounts, if_pos hcounts]
    cases countMatches f r value with
    | error e => simp [bind, Except.bind]
    | ok b =>
      rw [ok_bind, pure_eq_ok, and_iff_right ⟨b, rfl⟩]
      exact eq_comm
  · rw [if_neg hcounts, if_neg hcounts, if_neg hcounts, if_neg hcounts]
    simp only [bind_eq_ok, pure_eq_ok, findRelated_eq_ok_iff, Prod.exists, Prod.mk.injEq]
    constructor
    · rintro ⟨_, _, ⟨hids, rfl, rfl⟩, rfl⟩
      exact ⟨hids, rfl⟩
    · rintro ⟨hids, rfl⟩
      exact ⟨_, _, ⟨hids, rfl, rfl⟩, rfl⟩

theorem processResource_eq_ok_iff {related : Id → Option O} {s : State} {r : R}
    {p : Verdict Id × State}
    (hs : f.data.matchResource ≠ some true → s.value = f.data.value) :
    processResource f related s r = .ok p ↔ Returns f related s.v r ∧
      p = (verdict f related s.v r, ⟨valueFor f r, nextValue f related s.v r⟩) := by
  rw [processResource, bind_eq_ok, Returns, and_assoc]
  simp only [setValue_eq_ok_iff hs, and_assoc, exists_and_left, exists_eq_left,
    judgeResource_eq_ok_iff rfl]

/-! ## All resources -/

/-- A resource has an object that is compared with a value. -/
def setsValue (f : Filter R O Id) (related : Id → Option O) (r : R) : Bool :=
  !decide (counts f) && comparesValue f (valueFor f r) &&
    (f.relatedIds r).any fun rid => (related rid).isSome

/-- `self.v` after some resources: what is read at the first that has an object. -/
def firstValue (f : Filter R O Id) (related : Id → Option O) (before : List R) : Option Value :=
  (before.find? (setsValue f related)).bind fun r => (initial f (valueFor f r)).toOption

theorem nextValue_eq {related : Id → Option O} {v : Option Value} {r : R} :
    nextValue f related v r =
      if setsValue f related r then (held f v (valueFor f r)).toOption else v := by
  rw [nextValue, setsValue, valueAfter, keptValue]
  by_cases hcounts : counts f
  · simp [hcounts]
  · cases comparesValue f (valueFor f r) <;> simp [hcounts]

/-- The first value could be read. -/
def FirstReturns (f : Filter R O Id) (related : Id → Option O) (before : List R) : Prop :=
  ∀ q, before.find? (setsValue f related) = some q → ∃ v, initial f (valueFor f q) = .ok v

theorem nextValue_firstValue {related : Id → Option O} {before : List R} {r : R}
    (hfirst : FirstReturns f related before) :
    nextValue f related (firstValue f related before) r = firstValue f related (before ++ [r]) := by
  rw [nextValue_eq, firstValue, firstValue, List.find?_append]
  cases hfind : before.find? (setsValue f related) with
  | none => cases hr : setsValue f related r <;> simp [hr, held]
  | some q =>
    obtain ⟨v, hv⟩ := hfirst q hfind
    simp [hv, Except.toOption, held]

theorem firstReturns_concat {related : Id → Option O} {before : List R} {r : R}
    (hfirst : FirstReturns f related before)
    (h : Returns f related (firstValue f related before) r) :
    FirstReturns f related (before ++ [r]) := by
  intro q hq
  rw [List.find?_append] at hq
  cases hfind : before.find? (setsValue f related) with
  | some q' =>
    rw [hfind] at hq
    cases hq
    exact hfirst q hfind
  | none =>
    rw [hfind, Option.none_or, List.find?_singleton] at hq
    split at hq
    case isFalse => cases hq
    case isTrue hsets =>
      cases hq
      simp only [setsValue, Bool.and_eq_true, Bool.not_eq_true', decide_eq_false_iff_not,
        List.any_eq_true, Option.isSome_iff_exists] at hsets
      obtain ⟨⟨hcounts, hcompares⟩, rid, hrid, robj, hrobj⟩ := hsets
      have hreturns := h.2
      rw [if_neg hcounts] at hreturns
      have hmatch := hreturns rid hrid
      rw [IdReturns, hrobj, firstValue, hfind] at hmatch
      obtain ⟨v, hv, -⟩ := hmatch hcompares
      exact ⟨v, hv⟩

theorem process_eq_ok_iff {related : Id → Option O} {rs : List R} {verdicts : List (Verdict Id)} :
    process f related rs = .ok verdicts ↔
      Runs.AtEach (fun before r => Returns f related (firstValue f related before) r) rs ∧
        verdicts = Runs.eachWith
          (fun before r => verdict f related (firstValue f related before) r) rs := by
  have hrun := @Runs.resultsM_eq_ok_iff _ _ _ _ (processResource f related)
    (fun before s => s.v = firstValue f related before ∧ FirstReturns f related before ∧
      (f.data.matchResource ≠ some true → s.value = f.data.value))
    (fun before r => Returns f related (firstValue f related before) r)
    (fun before r => verdict f related (firstValue f related before) r)
    (fun before r s hs hr => ?_) (fun before r s hs hr p hp => ?_) [] ⟨f.data.value, none⟩
    ⟨rfl, by simp [FirstReturns], fun _ => rfl⟩ rs verdicts
  · simp only [List.nil_append] at hrun
    rw [← hrun, process, map_fst_eq_ok]
  · obtain ⟨hv, hfirst, hvalue⟩ := hs
    refine ⟨⟨valueFor f r, nextValue f related s.v r⟩, ?_, ?_, ?_, ?_⟩
    · rw [processResource_eq_ok_iff hvalue, hv]
      exact ⟨hr, rfl⟩
    · rw [hv]
      exact nextValue_firstValue hfirst
    · exact firstReturns_concat hfirst hr
    · intro hmatch
      rw [valueFor, if_neg hmatch]
  · rw [processResource_eq_ok_iff hs.2.2, hs.1] at hp
    exact hr hp.1

/-! ## Missing objects -/

/-- A resource refers to objects, and all of them are missing. -/
def AllMissing (f : Filter R O Id) (related : Id → Option O) (r : R) : Prop :=
  f.relatedIds r ≠ [] ∧ ∀ rid ∈ f.relatedIds r, related rid = none

/-- The filter looks for absent values; with `match-resource`, its value is that of the resource. -/
def LooksForAbsent (f : Filter R O Id) (r : R) : Prop := (valueFor f r).any isAbsent = true

/-- The objects with one that is no longer missing. -/
def withObject [DecidableEq Id] (related : Id → Option O) (rid : Id) (robj : O) : Id → Option O :=
  Function.update related rid (some robj)

/-- The filter is applied whatever is missing: it returns, a resource whose objects are all missing
is kept only if the filter looks for absent values, and the verdict on a resource that does not refer
to a missing object is the same with this object, where the filter returns then. -/
structure Survives [DecidableEq Id] (f : Filter R O Id) (related : Id → Option O) (rs : List R) :
    Prop where
  returns : ∃ verdicts, process f related rs = .ok verdicts
  kept : ∀ verdicts, process f related rs = .ok verdicts →
    List.Forall₂ (fun r verdict => AllMissing f related r → verdict.keep = true →
      LooksForAbsent f r) rs verdicts
  unchanged : ∀ rid robj verdicts verdicts', related rid = none →
    process f related rs = .ok verdicts → process f (withObject related rid robj) rs = .ok verdicts' →
    List.Forall₂ (fun r p => rid ∉ f.relatedIds r → p.1.keep = p.2.keep) rs
      (verdicts.zip verdicts')

/-- Some, or all, of the ids of a resource are found. -/
def Found (f : Filter R O Id) (related : Id → Option O) (v : Option Value) (r : R) : Prop :=
  match f.data.operator.getD .or with
  | .or => ∃ rid ∈ f.relatedIds r, finds f related v (valueFor f r) rid = true
  | .and => ∀ rid ∈ f.relatedIds r, finds f related v (valueFor f r) rid = true

/-- All objects are compared with the value of the first resource that has one. -/
def readsFirst (f : Filter R O Id) : Prop :=
  f.data.matchResource = some true ∧ f.data.valueFrom = none ∧ f.data.valuePath = none

theorem keep_verdict_of_counts (hcounts : counts f) (related : Id → Option O) (v : Option Value)
    (r : R) : (verdict f related v r).keep = isCounted f r := by
  rw [verdict, if_pos hcounts]

theorem keep_verdict (hcounts : ¬counts f) (related : Id → Option O) (v : Option Value) (r : R) :
    (verdict f related v r).keep = true ↔ Found f related v r := by
  rw [verdict, if_neg hcounts]
  exact Related.decides_filter ..

theorem looksForAbsent_of_found {related : Id → Option O} {v : Option Value} {r : R}
    (hmissing : AllMissing f related r) (hfound : Found f related v r) : LooksForAbsent f r := by
  have hfinds {rid : Id} (hrid : rid ∈ f.relatedIds r)
      (h : finds f related v (valueFor f r) rid = true) : LooksForAbsent f r := by
    rwa [finds, hmissing.2 rid hrid] at h
  rw [Found] at hfound
  split at hfound
  · obtain ⟨rid, hrid, h⟩ := hfound
    exact hfinds hrid h
  · obtain ⟨rid, hrid⟩ := List.exists_mem_of_ne_nil _ hmissing.1
    exact hfinds hrid (hfound rid hrid)

theorem finds_congr {related related' : Id → Option O} {v v' value : Option Value} {rid : Id}
    (hrelated : related rid = related' rid) (hheld : held f v value = held f v' value) :
    finds f related v value rid = finds f related' v' value rid := by
  simp only [finds, compared, hrelated, hheld]

theorem withObject_of_mem [DecidableEq Id] {related : Id → Option O} {r : R} {rid : Id} (robj : O)
    (hrid : rid ∉ f.relatedIds r) : ∀ rid' ∈ f.relatedIds r,
      withObject related rid robj rid' = related rid' :=
  fun _ hrid' => Function.update_of_ne (ne_of_mem_of_not_mem hrid' hrid) ..

theorem found_congr {related related' : Id → Option O} {v v' : Option Value} {r : R}
    (hrelated : ∀ rid ∈ f.relatedIds r, related rid = related' rid)
    (hheld : held f v (valueFor f r) = held f v' (valueFor f r)) :
    Found f related v r ↔ Found f related' v' r := by
  rw [Found, Found]
  cases f.data.operator.getD .or with
  | or =>
    exact exists_congr fun rid => and_congr_right fun hrid => by
      rw [finds_congr (hrelated rid hrid) hheld]
  | and =>
    exact forall₂_congr fun rid hrid => by rw [finds_congr (hrelated rid hrid) hheld]

theorem initial_eq (h : ¬readsFirst f) (r q : R) :
    initial f (valueFor f q) = initial f (valueFor f r) := by
  rw [initial.eq_def, initial.eq_def]
  by_cases hmatch : f.data.matchResource = some true
  · cases hfrom : f.data.valueFrom with
    | some values => rfl
    | none =>
      cases hpath : f.data.valuePath with
      | some path => rfl
      | none => exact absurd ⟨hmatch, hfrom, hpath⟩ h
  · rw [valueFor, valueFor, if_neg hmatch, if_neg hmatch]

theorem held_firstValue (h : ¬readsFirst f) (related : Id → Option O) (before : List R) (r : R) :
    held f (firstValue f related before) (valueFor f r) = initial f (valueFor f r) := by
  rw [firstValue]
  cases before.find? (setsValue f related) with
  | none => rfl
  | some q =>
    rw [Option.bind_some, initial_eq h r q]
    cases hr : initial f (valueFor f r) with
    | error e => exact hr
    | ok v => rfl

theorem keep_verdict_withObject [DecidableEq Id] (h : readsFirst f → counts f)
    (related : Id → Option O) (robj : O) (before : List R) {r : R} {rid : Id}
    (hrid : rid ∉ f.relatedIds r) :
    (verdict f related (firstValue f related before) r).keep =
      (verdict f (withObject related rid robj)
        (firstValue f (withObject related rid robj) before) r).keep := by
  by_cases hcounts : counts f
  · rw [keep_verdict_of_counts hcounts, keep_verdict_of_counts hcounts]
  · rw [Bool.eq_iff_iff, keep_verdict hcounts, keep_verdict hcounts]
    have hfirst : ¬readsFirst f := fun h' => hcounts (h h')
    refine found_congr (fun rid' hrid' => (withObject_of_mem robj hrid rid' hrid').symm) ?_
    rw [held_firstValue hfirst, held_firstValue hfirst]

/-- **Missing objects.**  The filter is applied whatever is missing if and only if

* every resource is processed: a filter with `match-resource` has a key, and no id is an obstacle;
* no resource whose objects are all missing is counted, unless the filter looks for absent values;
* if all objects are compared with the value of the first resource that has one, a missing object
  that would make a resource the first one makes no difference for the others. -/
theorem survives_iff [DecidableEq Id] (f : Filter R O Id) (related : Id → Option O) (rs : List R) :
    Survives f related rs ↔
      Runs.AtEach (fun before r => Returns f related (firstValue f related before) r) rs ∧
      (counts f → ∀ r ∈ rs, AllMissing f related r → isCounted f r = true → LooksForAbsent f r) ∧
      (readsFirst f → ¬counts f → ∀ rid robj, related rid = none →
        Runs.AtEach (fun before r => Returns f (withObject related rid robj)
          (firstValue f (withObject related rid robj) before) r) rs →
        Runs.AtEach (fun before r => rid ∉ f.relatedIds r →
          (Found f related (firstValue f related before) r ↔
            Found f related (firstValue f (withObject related rid robj) before) r)) rs) := by
  have hsame {rid : Id} {robj : O} {r : R} (v : Option Value) (hrid : rid ∉ f.relatedIds r) :
      Found f (withObject related rid robj) v r ↔ Found f related v r :=
    found_congr (withObject_of_mem robj hrid) rfl
  constructor
  · rintro ⟨⟨verdicts, hverdicts⟩, hkept, hunchanged⟩
    obtain ⟨hreturns, rfl⟩ := process_eq_ok_iff.mp hverdicts
    refine ⟨hreturns, fun hcounts => ?_, fun hfirst hcounts rid robj hrid hreturns' => ?_⟩
    · have hat := Runs.forall₂_eachWith.mp (hkept _ hverdicts)
      simp only [keep_verdict_of_counts hcounts] at hat
      exact Runs.atEach_mem.mp hat
    · have hat := hunchanged rid robj _ _ hrid hverdicts (process_eq_ok_iff.mpr ⟨hreturns', rfl⟩)
      rw [Runs.zip_eachWith, Runs.forall₂_eachWith] at hat
      refine hat.imp fun before r h hr => ?_
      rw [← keep_verdict hcounts, h hr, keep_verdict hcounts, hsame _ hr]
  · rintro ⟨hreturns, hcounted, hfirst⟩
    refine ⟨⟨_, process_eq_ok_iff.mpr ⟨hreturns, rfl⟩⟩, fun verdicts hverdicts => ?_,
      fun rid robj verdicts verdicts' hrid hverdicts hverdicts' => ?_⟩
    · obtain ⟨-, rfl⟩ := process_eq_ok_iff.mp hverdicts
      rw [Runs.forall₂_eachWith]
      intro before r after hrs hmissing hkeep
      by_cases hcounts : counts f
      · rw [keep_verdict_of_counts hcounts] at hkeep
        exact hcounted hcounts r (by simp [hrs]) hmissing hkeep
      · exact looksForAbsent_of_found hmissing ((keep_verdict hcounts ..).mp hkeep)
    · obtain ⟨-, rfl⟩ := process_eq_ok_iff.mp hverdicts
      obtain ⟨hreturns', rfl⟩ := process_eq_ok_iff.mp hverdicts'
      rw [Runs.zip_eachWith, Runs.forall₂_eachWith]
      intro before r after hrs hr
      by_cases h : readsFirst f → counts f
      · exact keep_verdict_withObject h related robj before hr
      · rw [Classical.not_imp] at h
        have hfound := hfirst h.1 h.2 rid robj hrid hreturns' before r after hrs hr
        rw [Bool.eq_iff_iff, keep_verdict h.2, keep_verdict h.2, hfound, hsame _ hr]

/-! ### A subnet that is gone -/

/-- An instance with the ids of its subnets. -/
structure Instance where
  subnets : List Text

structure Subnet where
  subnetId : Text
  vpcId : Text

/-- `igw: true` -/
def publicSubnet : Data where
  key := none
  value := none
  valueFrom := none
  valuePath := none
  op := none
  valueType := none
  valueRegex := none
  tagKeyTransforms := none
  default := false
  operator := none
  matchResource := none
  igw := some true
  nat := none

def publicInstances : Filter Instance Subnet Text where
  env := ValueMatch.words
  cls := .subnet
  data := publicSubnet
  relatedIds := Instance.subnets
  fields _ := []
  hasId _ := true
  objectFields _ := []
  subnetId := Subnet.subnetId
  vpcId := Subnet.vpcId
  routeTables := [⟨"vpc-1".toList, [⟨true, none⟩], [⟨some "igw-1".toList, none⟩]⟩]

/-- The subnets that are there. -/
def subnets (rid : Text) : Option Subnet :=
  if rid = "subnet-1".toList then some ⟨"subnet-1".toList, "vpc-1".toList⟩ else none

/-- An instance in a public subnet, and one whose subnet is missing. -/
def instances : List Instance := [⟨["subnet-1".toList]⟩, ⟨["subnet-2".toList]⟩]

/-- The filter is accepted and keeps the first instance, but raises where the second one is there. -/
theorem publicInstances_not_survives :
    publicSubnet.validate ValueMatch.words .subnet = .ok () ∧
      (process publicInstances subnets (instances.take 1)).map (fun vs => vs.map Verdict.keep) =
        .ok [true] ∧
      process publicInstances subnets instances = .error .keyError ∧
      ¬Survives publicInstances subnets instances := by
  have hraises : process publicInstances subnets instances = .error .keyError := by rfl
  refine ⟨rfl, rfl, hraises, fun h => ?_⟩
  obtain ⟨verdicts, hverdicts⟩ := h.returns
  rw [hraises] at hverdicts
  cases hverdicts

end Custodian.MissingRelated

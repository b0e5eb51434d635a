import Custodian.Cache.ValueCache
import Custodian.Lib.Items
import Custodian.Lib.Text

/-!
# Resource managers and their cache

`ResourceQuery`, `QueryResourceManager`, `ChildResourceManager` and `RegionalResourceManager` of
`c7n_gcp/query.py`: what a manager asks the API for, and how the lists are cached.

The API is a parameter.  A cached list is kept with the call that has fetched it.
-/

namespace Custodian.GcpQuery

open Py Cache

/-! ## Types and sessions -/

/-- The value of a parameter of a query. -/
inductive Arg (A : Type) where
  | null
  | text (s : Text)
  | texts (l : List Text)
  | items (l : List A)
  deriving DecidableEq

variable {A R : Type}

def Arg.isTrue : Arg A → Bool
  | .null => false
  | .text s => !s.isEmpty
  | .texts l => !l.isEmpty
  | .items l => !l.isEmpty

/-- Parameters of a query, in the order in which they were first set. -/
abbrev Params (A : Type) := List (Text × Arg A)

/-- `params.update(args)` -/
def update (params args : Params A) : Params A :=
  args.foldl (fun d e => Items.set e.1 e.2 d) params

inductive Scope where
  | project
  | zone
  | global
  deriving DecidableEq

/-- `TypeInfo` -/
structure TypeInfo (A : Type) where
  name : Text
  service : Text
  version : Text
  component : Text
  scopes : Option Text
  scope : Scope
  scopeKey : Option Text
  /-- `scope_template.format` -/
  scopeTemplate : Option (Text → Text)
  enumOp : Text
  path : Text
  extraArgs : Params A
  assetType : Text

/-- A type of resources, which may be children of other resources or of the regions. -/
inductive ResourceType (A : Type) where
  | base (info : TypeInfo A)
  | child (info : TypeInfo A) (useChildQuery : Bool) (parent : ResourceType A)
  | regional (info : TypeInfo A)

def ResourceType.info : ResourceType A → TypeInfo A
  | base info => info
  | child info _ _ => info
  | regional info => info

inductive SourceType where
  | describeGcp
  | inventory
  deriving DecidableEq

/-- The default project and zone of a session. -/
structure Session where
  project : Option Text
  zone : Option Text

/-- What a manager is made of but its type: the `source` and `query` of its data, its session, and
the regions that the configuration selects. -/
structure Context (A : Type) where
  sourceType : SourceType
  query : Option (Arg A)
  session : Session
  regions : List Text

/-- A resource manager. -/
structure Manager (A : Type) extends Context A where
  resourceType : ResourceType A

/-- The context of the manager of the parents. -/
def Context.parent (ctx : Context A) (useChildQuery : Bool) : Context A :=
  { ctx with
    sourceType := .describeGcp
    query := if useChildQuery then ctx.query.filter Arg.isTrue else none }

/-! ## Fetching -/

/-- A request to the API. -/
inductive Request (A : Type) where
  | enumerate (info : TypeInfo A) (params : Params A)
  | assets (params : Params A)

/-- An error of the API, which may say that the API is disabled, or another exception. -/
inductive Failure where
  | http (disabled : Bool) (content : Text)
  | exn (e : Exn)

/-- The API, with what is done with a resource of some type. -/
structure Api (A R : Type) where
  invoke : Request A → Except Failure (Option (List R))
  augment : Session → TypeInfo A → List R → Except Failure (List R)
  region : Text → R
  /-- `_get_child_enum_args` -/
  childEnumArgs : TypeInfo A → R → Except Failure (Params A)
  /-- The child with its parent under the annotation key. -/
  annotate : TypeInfo A → R → R → R

namespace Manager

variable (m : Manager A) (api : Api A R)

def info : TypeInfo A := m.resourceType.info

/-- `session.get_default_project()` -/
def defaultProject : Except Failure Text :=
  match m.session.project with
  | some project => .ok project
  | none => .error (.exn (.raised "ValueError".toList))

/-- `ResourceQuery.filter` -/
def filterParams (params : Params A) : Except Failure (Params A) := do
  let params ← if m.info.scope = .global then pure params else do
    let project ← m.defaultProject
    let project := m.info.scopeTemplate.elim project fun format => format project
    pure (Items.set (m.info.scopeKey.getD "project".toList) (.text project) params)
  let params :=
    match m.info.scope, m.session.zone with
    | .zone, some zone => Items.set "zone".toList (.text zone) params
    | _, _ => params
  pure (update params m.info.extraArgs)

/-- The query of `AssetInventory.get_resources` -/
def inventoryParams (query : Params A) : Except Failure (Params A) := do
  let query ← if (query.lookup "scope".toList).isSome then pure query else do
    let project ← m.defaultProject
    pure (Items.set "scope".toList (.text ("projects/".toList ++ project)) query)
  pure (if (query.lookup "assetTypes".toList).isSome then query
    else Items.set "assetTypes".toList (.texts [m.info.assetType]) query)

/-- `get_resources` of the source, with the query after it: `inventory` writes into it. -/
def getResources (query : Params A) : Except Failure (Option (List R)) × Params A :=
  match m.sourceType with
  | .describeGcp =>
    (do let params ← m.filterParams query
        api.invoke (.enumerate m.info params), query)
  | .inventory =>
    match m.inventoryParams query with
    | .error e => (.error e, query)
    | .ok query => (api.invoke (.assets query), query)

/-- `_fetch_resources` of `QueryResourceManager` -/
def fetchQuery (query : Params A) : Except Failure (List R) × Params A :=
  let r := m.getResources api query
  let resources := do
    let resources ← r.1
    api.augment m.session m.info (resources.getD [])
  match resources with
  | .error (.http true _) => (.ok [], r.2)
  | resources => (resources, r.2)

/-- The loop of `_fetch_resources` of `ChildResourceManager` -/
def fetchChildren : List R → Params A → Except Failure (List R) × Params A
  | [], query => (.ok [], query)
  | parent :: parents, query =>
    match api.childEnumArgs m.info parent with
    | .error e => (.error e, query)
    | .ok args =>
      match m.fetchQuery api (update query args) with
      | (.error e, query) => (.error e, query)
      | (.ok children, query) =>
        let rest := fetchChildren parents query
        (rest.1.map fun resources => children.map (api.annotate m.info parent) ++ resources,
          rest.2)

/-- `_fetch_resources`, given the parents, with the query after it.  A query that is `None` is
replaced, and stays `None` for the caller. -/
def fetchResources (parents : List R) (query : Option (Params A)) :
    Except Failure (List R) × Option (Params A) :=
  let r :=
    match m.resourceType with
    | .base _ => m.fetchQuery api (query.getD [])
    | _ => m.fetchChildren api parents (query.getD [])
  (r.1, query.map fun _ => r.2)

/-- `get_resource_query` -/
def getResourceQuery : Option (Params A) := m.query.map fun q => [("filter".toList, q)]

/-- `query or self.get_resource_query()` -/
def effectiveQuery (query : Option (Params A)) : Option (Params A) :=
  match query with
  | none | some [] => m.getResourceQuery
  | some q => some q

end Manager

/-! ## Calls of resources -/

/-- The key of a list in the cache. -/
structure Key (A : Type) where
  sourceType : SourceType
  query : Option (Params A)
  service : Text
  version : Text
  component : Text
  deriving DecidableEq

/-- A call of `resources`: the manager and the query that it uses. -/
structure Call (A : Type) where
  manager : Manager A
  query : Option (Params A)

/-- `get_cache_key` -/
def Call.getCacheKey (call : Call A) (query : Option (Params A)) : Key A :=
  ⟨call.manager.sourceType, query, call.manager.info.service, call.manager.info.version,
    call.manager.info.component⟩

/-- A list in the cache, with the call that has fetched it. -/
structure Cached (A R : Type) where
  origin : Call A
  resources : List R

/-- A call of a run, and the call that has fetched its list if that was cached. -/
structure Event (A : Type) where
  call : Call A
  origin : Option (Call A)

/-- The list that a call gives, the cache after it and the calls that it has made. -/
structure Result (A R σ : Type) where
  resources : Except Failure (List R)
  cache : σ
  events : List (Event A)

variable {σ : Type} [DecidableEq A]

/-- `resources`, given how the parents are found. -/
def cachedResources (api : Api A R) (c : ValueCache σ (Key A) (Cached A R)) (now : Nat)
    (call : Call A) (parents : σ → Result A R σ) (s : σ) : Result A R σ :=
  match c.get s now (call.getCacheKey call.query) with
  | some cached => ⟨.ok cached.resources, s, [⟨call, some cached.origin⟩]⟩
  | none =>
    let p := parents s
    let events := p.events ++ [⟨call, none⟩]
    match p.resources with
    | .error e => ⟨.error e, p.cache, events⟩
    | .ok parents =>
      match call.manager.fetchResources api parents call.query with
      | (.error e, _) => ⟨.error e, p.cache, events⟩
      | (.ok resources, query) =>
        ⟨.ok resources, c.save p.cache now (call.getCacheKey query) ⟨call, resources⟩, events⟩

/-- `resources` of a manager -/
def resources (api : Api A R) (c : ValueCache σ (Key A) (Cached A R)) (now : Nat) :
    ResourceType A → Context A → Option (Params A) → σ → Result A R σ
  | .base info, ctx, query =>
    let m : Manager A := ⟨ctx, .base info⟩
    cachedResources api c now ⟨m, m.effectiveQuery query⟩ fun s => ⟨.ok [], s, []⟩
  | .child info useChildQuery parent, ctx, query =>
    let m : Manager A := ⟨ctx, .child info useChildQuery parent⟩
    cachedResources api c now ⟨m, m.effectiveQuery query⟩
      (resources api c now parent (ctx.parent useChildQuery) none)
  | .regional info, ctx, query =>
    let m : Manager A := ⟨ctx, .regional info⟩
    cachedResources api c now ⟨m, m.effectiveQuery query⟩
      fun s => ⟨.ok (ctx.regions.map api.region), s, []⟩

/-- A manager that is run at some time with a query. -/
structure Job (A : Type) where
  now : Nat
  manager : Manager A
  query : Option (Params A)

/-- The call of `resources` that a job makes. -/
def Job.call (job : Job A) : Call A := ⟨job.manager, job.manager.effectiveQuery job.query⟩

/-- A run of jobs, one after the other with one cache. -/
def run (api : Api A R) (c : ValueCache σ (Key A) (Cached A R)) : List (Job A) → σ → List (Event A)
  | [], _ => []
  | job :: jobs, s =>
    let r := resources api c job.now job.manager.resourceType job.manager.toContext job.query s
    r.events ++ run api c jobs r.cache

/-! ## Fetching anew -/

/-- What a manager of the type fetches without a cache, with its query after that. -/
def freshOf (api : Api A R) : ResourceType A → Context A → Option (Params A) →
    Except Failure (List R) × Option (Params A)
  | .base info, ctx, query => Manager.fetchResources ⟨ctx, .base info⟩ api [] query
  | .child info useChildQuery parent, ctx, query =>
    let ctx' := ctx.parent useChildQuery
    match freshOf api parent ctx' (Manager.getResourceQuery ⟨ctx', parent⟩) with
    | (.error e, _) => (.error e, query)
    | (.ok parents, _) =>
      Manager.fetchResources ⟨ctx, .child info useChildQuery parent⟩ api parents query
  | .regional info, ctx, query =>
    Manager.fetchResources ⟨ctx, .regional info⟩ api (ctx.regions.map api.region) query

/-- What a call fetches without a cache. -/
def Call.fresh (api : Api A R) (call : Call A) : Except Failure (List R) × Option (Params A) :=
  freshOf api call.manager.resourceType call.manager.toContext call.query

/-- Both calls fetch the same, whatever the API gives. -/
def SameFetch (R : Type) (call call' : Call A) : Prop :=
  ∀ api : Api A R, (call.fresh api).1 = (call'.fresh api).1

/-- The calls of `resources` that a manager makes: its own and those of its ancestors. -/
def callsOf : ResourceType A → Context A → Option (Params A) → List (Call A)
  | .base info, ctx, query => [⟨⟨ctx, .base info⟩, query⟩]
  | .child info useChildQuery parent, ctx, query =>
    ⟨⟨ctx, .child info useChildQuery parent⟩, query⟩ ::
      callsOf parent (ctx.parent useChildQuery)
        (Manager.getResourceQuery ⟨ctx.parent useChildQuery, parent⟩)
  | .regional info, ctx, query => [⟨⟨ctx, .regional info⟩, query⟩]

def Job.calls (job : Job A) : List (Call A) :=
  callsOf job.manager.resourceType job.manager.toContext job.call.query

/-! ## The property -/

/-- A call is only given a list that it could have fetched itself. -/
def Kept (R : Type) (events : List (Event A)) : Prop :=
  ∀ e ∈ events, ∀ origin, e.origin = some origin → SameFetch R origin e.call

/-- Whatever the API gives, and in whatever order the jobs are run with one cache, no list leaks. -/
def NeverLeaks (R : Type) (calls : List (Call A)) : Prop :=
  ∀ (api : Api A R) (σ : Type) (c : ValueCache σ (Key A) (Cached A R)) (jobs : List (Job A)),
    (∀ job ∈ jobs, ∀ call ∈ job.calls, call ∈ calls) → Kept R (run api c jobs c.empty)

/-- A list that one call saves has the key of another one only if both fetch the same. -/
def KeysApart (R : Type) (calls : List (Call A)) : Prop :=
  ∀ call ∈ calls, ∀ call' ∈ calls, ∀ (api : Api A R) (resources : List R) query,
    call.fresh api = (.ok resources, query) →
    call.getCacheKey query = call'.getCacheKey call'.query → SameFetch R call call'

end Custodian.GcpQuery

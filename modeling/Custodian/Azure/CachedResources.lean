import Custodian.Cache.ValueCache
import Custodian.Lib.Items
import Custodian.Lib.Text

/-!
# Azure resource managers and their cache

`ResourceQuery`, `ChildResourceQuery`, `QueryResourceManager` and `ChildResourceManager` of
`c7n_azure/query.py`.  The API is a parameter, and a cached list is kept with the call that has
fetched it.
-/

namespace Custodian.AzureQuery

open Py Cache

/-! ## Managers -/

abbrev Params (A : Type) := List (Text × A)

variable {A R : Type}

/-- `params.update(args)` -/
def update (params args : Params A) : Params A :=
  args.foldl (fun d e => Items.set e.1 e.2 d) params

/-- The class of a manager, by its module and name, and its `resource_type`. -/
structure TypeInfo (A : Type) where
  moduleName : Text
  className : Text
  service : Text
  client : Text
  resource : Text
  enumOp : Option Text
  listOp : Text
  extraArgs : Params A
  /-- `resource_type.resource_type` -/
  graphType : Text
  annotateParent : Bool
  raiseOnException : Bool

/-- A type of resources, which may be children of other resources. -/
inductive ResourceType (A : Type) where
  | base (info : TypeInfo A)
  | child (info : TypeInfo A) (parent : ResourceType A)

def ResourceType.info : ResourceType A → TypeInfo A
  | base info => info
  | child info _ => info

/-- The `query` of a policy is a list of parameters. -/
abbrev Query (A : Type) := List (Params A)

/-- The subscription of the session of a manager, and the `source` and `query` of its data. -/
structure Context (A : Type) where
  subscription : Text
  source : Option Text
  query : Option (Query A)

structure Manager (A : Type) extends Context A where
  resourceType : ResourceType A

/-- The context of the manager of the parents, which has no data. -/
def Context.parent (ctx : Context A) : Context A := ⟨ctx.subscription, none, none⟩

def describeAzure : Text := "describe-azure".toList

def describeChildAzure : Text := "describe-child-azure".toList

def resourceGraph : Text := "resource-graph".toList

/-- A request to the API. -/
inductive Request (A : Type) where
  | enumerate (subscription : Text) (info : TypeInfo A) (params : Params A)
  | graph (subscription : Text) (query : Text)

/-- The API, with what the class of a manager does. -/
structure Api (A R : Type) where
  invoke : Request A → Except Exn (List R)
  /-- `resource_type.extra_args` -/
  extraArgs : TypeInfo A → Text → Params A
  /-- `enumerate_resources` for a parent, with its vault. -/
  enumerateResources : Text → TypeInfo A → R → Except Exn (List R)
  /-- The child with the id of its parent. -/
  annotate : TypeInfo A → R → R → R
  augment : Text → TypeInfo A → List R → Except Exn (List R)
  /-- A source that a resource type has registered for itself. -/
  otherSource : Text → Text → TypeInfo A → Option (Query A) → Except Exn (List R)

namespace Manager

variable (m : Manager A) (api : Api A R)

def info : TypeInfo A := m.resourceType.info

def sourceType : Text :=
  match m.resourceType with
  | .base _ => m.source.getD describeAzure
  | .child _ _ =>
    let source := m.source.getD describeChildAzure
    if source = "describe".toList then describeChildAzure else source

/-- `ResourceQuery.filter` -/
def filter (query : Option (Query A)) : Except Exn (List R) :=
  let params := update m.info.extraArgs (api.extraArgs m.info m.subscription)
  let params := match query with
    | some (first :: _) => update params first
    | _ => params
  api.invoke (.enumerate m.subscription m.info params)

/-- `ChildResourceQuery.filter` -/
def filterChildren : List R → Except Exn (List R)
  | [] => .ok []
  | parent :: parents =>
    match api.enumerateResources m.subscription m.info parent with
    | .ok subset => do
      let results ← filterChildren parents
      let subset := if m.info.annotateParent then subset.map (api.annotate m.info parent) else subset
      return subset ++ results
    | .error e => if m.info.raiseOnException then .error e else filterChildren parents

/-- `ResourceGraphSource.get_resources` -/
def graphResources : Except Exn (List R) :=
  let scope := if m.info.graphType = "armresource".toList then []
    else "where type =~ '".toList ++ m.info.graphType ++ "'".toList
  api.invoke (.graph m.subscription scope)

/-- `self.source.get_resources`, given the parents. -/
def getResources (parents : List R) (query : Option (Query A)) : Except Exn (List R) :=
  if m.sourceType = describeAzure then m.filter api query
  else if m.sourceType = describeChildAzure then m.filterChildren api parents
  else if m.sourceType = resourceGraph then m.graphResources api
  else api.otherSource m.sourceType m.subscription m.info query

/-- The list that is fetched, and augmented where that is asked for. -/
def fetch (parents : List R) (query : Option (Query A)) (augment : Bool) :
    Except Exn (List R) := do
  let resources ← m.getResources api parents query
  if augment then api.augment m.subscription m.info resources else return resources

/-- `self.data["query"]` if there is one. -/
def effectiveQuery (query : Option (Query A)) : Option (Query A) :=
  match m.query with
  | some (first :: rest) => some (first :: rest)
  | _ => query

end Manager

/-! ## Calls of resources -/

/-- The key of a list in the cache. -/
structure Key (A : Type) where
  sourceType : Text
  query : Option (Query A)
  resource : Text
  deriving DecidableEq

/-- A call of `resources`: the manager, the query that it uses and whether it augments. -/
structure Call (A : Type) where
  manager : Manager A
  query : Option (Query A)
  augment : Bool

/-- `get_cache_key` -/
def Call.getCacheKey (call : Call A) : Key A :=
  ⟨call.manager.sourceType, call.query, call.manager.info.className⟩

/-- A list in the cache, with the call that has fetched it. -/
structure Cached (A R : Type) where
  origin : Call A
  resources : List R

/-- A call of a run, and the call that has fetched its list if that was cached. -/
structure Event (A : Type) where
  call : Call A
  origin : Option (Call A)

/-- The list that a call gives, the cache after it and the calls that it has made. -/
structure Result (A R σ : Type) where
  resources : Except Exn (List R)
  cache : σ
  events : List (Event A)

variable {σ : Type} [DecidableEq A]

/-- `resources`, given how the parents are found. -/
def cachedResources (api : Api A R) (c : ValueCache σ (Key A) (Cached A R)) (now : Nat)
    (call : Call A) (parents : σ → Result A R σ) (s : σ) : Result A R σ :=
  match c.get s now call.getCacheKey with
  | some cached => ⟨.ok cached.resources, s, [⟨call, some cached.origin⟩]⟩
  | none =>
    let p := parents s
    let events := p.events ++ [⟨call, none⟩]
    match p.resources with
    | .error e => ⟨.error e, p.cache, events⟩
    | .ok parents =>
      match call.manager.fetch api parents call.query call.augment with
      | .error e => ⟨.error e, p.cache, events⟩
      | .ok resources =>
        ⟨.ok resources, c.save p.cache now call.getCacheKey ⟨call, resources⟩, events⟩

/-- `resources` of a manager, which has its parents listed if its source is the one for children. -/
def resources (api : Api A R) (c : ValueCache σ (Key A) (Cached A R)) (now : Nat) :
    ResourceType A → Context A → Option (Query A) → Bool → σ → Result A R σ
  | .base info, ctx, query, augment =>
    let m : Manager A := ⟨ctx, .base info⟩
    cachedResources api c now ⟨m, m.effectiveQuery query, augment⟩ fun s => ⟨.ok [], s, []⟩
  | .child info parent, ctx, query, augment =>
    let m : Manager A := ⟨ctx, .child info parent⟩
    cachedResources api c now ⟨m, m.effectiveQuery query, augment⟩ fun s =>
      if m.sourceType = describeChildAzure then
        resources api c now parent ctx.parent none true s
      else ⟨.ok [], s, []⟩

/-- A manager whose `resources` is called at some time. -/
structure Job (A : Type) where
  now : Nat
  manager : Manager A
  query : Option (Query A)
  augment : Bool

/-- The call of `resources` that a job makes itself. -/
def Job.call (job : Job A) : Call A :=
  ⟨job.manager, job.manager.effectiveQuery job.query, job.augment⟩

/-- A run of jobs, one after the other with one cache. -/
def run (api : Api A R) (c : ValueCache σ (Key A) (Cached A R)) : List (Job A) → σ → List (Event A)
  | [], _ => []
  | job :: jobs, s =>
    let r := resources api c job.now job.manager.resourceType job.manager.toContext job.query
      job.augment s
    r.events ++ run api c jobs r.cache

/-! ## Leaks -/

/-- The calls of `resources` that a manager makes: its own and those of its ancestors. -/
def callsOf : ResourceType A → Context A → Option (Query A) → Bool → List (Call A)
  | .base info, ctx, query, augment =>
    [⟨⟨ctx, .base info⟩, Manager.effectiveQuery ⟨ctx, .base info⟩ query, augment⟩]
  | .child info parent, ctx, query, augment =>
    let m : Manager A := ⟨ctx, .child info parent⟩
    ⟨m, m.effectiveQuery query, augment⟩ ::
      if m.sourceType = describeChildAzure then callsOf parent ctx.parent none true else []

def Job.calls (job : Job A) : List (Call A) :=
  callsOf job.manager.resourceType job.manager.toContext job.query job.augment

/-- Two calls that fetch the same: of one class in one subscription, with the same source and
query, both augmented or both not. -/
structure SameFetch (call call' : Call A) : Prop where
  subscription : call.manager.subscription = call'.manager.subscription
  moduleName : call.manager.info.moduleName = call'.manager.info.moduleName
  className : call.manager.info.className = call'.manager.info.className
  sourceType : call.manager.sourceType = call'.manager.sourceType
  query : call.query = call'.query
  augment : call.augment = call'.augment

/-- No call is given a list that a different fetch has left in the cache. -/
def Kept (events : List (Event A)) : Prop :=
  ∀ e ∈ events, ∀ origin, e.origin = some origin → SameFetch origin e.call

/-- Nothing leaks between some calls, for every API and cache and every order of jobs that make
no other calls. -/
def NeverLeaks (R : Type) (calls : List (Call A)) : Prop :=
  ∀ (api : Api A R) (σ : Type) (c : ValueCache σ (Key A) (Cached A R)) (jobs : List (Job A)),
    (∀ job ∈ jobs, ∀ call ∈ job.calls, call ∈ calls) → Kept (run api c jobs c.empty)

/-- Calls for one class name, source and query are of one class and subscription, and all of them
augmented or none. -/
def Apart (calls : List (Call A)) : Prop :=
  ∀ call ∈ calls, ∀ call' ∈ calls, call.manager.info.className = call'.manager.info.className →
    call.manager.sourceType = call'.manager.sourceType → call.query = call'.query →
      call.manager.subscription = call'.manager.subscription ∧
        call.manager.info.moduleName = call'.manager.info.moduleName ∧
          call.augment = call'.augment

omit [DecidableEq A] in
theorem getCacheKey_eq_iff {call call' : Call A} : call.getCacheKey = call'.getCacheKey ↔
    call.manager.sourceType = call'.manager.sourceType ∧ call.query = call'.query ∧
      call.manager.info.className = call'.manager.info.className := by
  simp [Call.getCacheKey]

/-! ## What a cache hands on -/

variable {api : Api A R} {c : ValueCache σ (Key A) (Cached A R)}

/-- Every list of the cache has been fetched by one of the calls, under its key. -/
def Labelled (c : ValueCache σ (Key A) (Cached A R)) (calls : List (Call A)) (s : σ) : Prop :=
  ∀ t key cached, c.get s t key = some cached →
    cached.origin ∈ calls ∧ cached.origin.getCacheKey = key

/-- What is cached for the calls is given to calls with its key. -/
structure Labels (c : ValueCache σ (Key A) (Cached A R)) (calls : List (Call A))
    (r : Result A R σ) : Prop where
  cache : Labelled c calls r.cache
  events : ∀ e ∈ r.events, e.call ∈ calls ∧ ∀ origin, e.origin = some origin →
    origin ∈ calls ∧ origin.getCacheKey = e.call.getCacheKey

theorem Labelled.save {calls : List (Call A)} {s : σ} (h : Labelled c calls s) {now : Nat}
    {call : Call A} (hcall : call ∈ calls) (list : List R) :
    Labelled c calls (c.save s now call.getCacheKey ⟨call, list⟩) := by
  intro t key cached hget
  rw [c.get_save] at hget
  split at hget
  · rename_i hk
    split at hget
    · obtain rfl := Option.some.inj hget
      exact ⟨hcall, hk.symm⟩
    · cases hget
  · exact h t key cached hget

/-- **A call is given a list that was fetched under its key.** -/
theorem cachedResources_spec {calls : List (Call A)} {now : Nat} {call : Call A}
    {parents : σ → Result A R σ} {s : σ} (hcall : call ∈ calls) (hs : Labelled c calls s)
    (hparents : Labels c calls (parents s)) :
    Labels c calls (cachedResources api c now call parents s) := by
  rw [cachedResources]
  cases hget : c.get s now call.getCacheKey with
  | some cached =>
    refine ⟨hs, fun e he => ?_⟩
    obtain rfl := List.mem_singleton.mp he
    refine ⟨hcall, fun origin ho => ?_⟩
    obtain rfl := Option.some.inj ho
    exact hs _ _ _ hget
  | none =>
    have hevents : ∀ e ∈ (parents s).events ++ [⟨call, none⟩], e.call ∈ calls ∧
        ∀ origin, e.origin = some origin →
          origin ∈ calls ∧ origin.getCacheKey = e.call.getCacheKey := by
      intro e he
      rcases List.mem_append.mp he with he | he
      · exact hparents.events e he
      · obtain rfl := List.mem_singleton.mp he
        exact ⟨hcall, fun origin ho => by cases ho⟩
    simp only
    cases (parents s).resources with
    | error e => exact ⟨hparents.cache, hevents⟩
    | ok ps =>
      simp only
      cases call.manager.fetch api ps call.query call.augment with
      | error e => exact ⟨hparents.cache, hevents⟩
      | ok list => exact ⟨hparents.cache.save hcall list, hevents⟩

theorem resources_spec (api : Api A R) {calls : List (Call A)} (now : Nat) {t : ResourceType A}
    {ctx : Context A} {query : Option (Query A)} {augment : Bool} {s : σ}
    (hcalls : ∀ call ∈ callsOf t ctx query augment, call ∈ calls) (hs : Labelled c calls s) :
    Labels c calls (resources api c now t ctx query augment s) := by
  induction t generalizing ctx query augment s with
  | base info =>
    rw [resources]
    exact cachedResources_spec (hcalls _ List.mem_cons_self) hs
      ⟨hs, fun e he => absurd he List.not_mem_nil⟩
  | child info parent ih =>
    rw [resources]
    rw [callsOf, List.forall_mem_cons] at hcalls
    refine cachedResources_spec hcalls.1 hs ?_
    by_cases hsource : Manager.sourceType ⟨ctx, .child info parent⟩ = describeChildAzure
    · simp only [if_pos hsource] at hcalls ⊢
      exact ih hcalls.2 hs
    · simp only [if_neg hsource]
      exact ⟨hs, fun e he => absurd he List.not_mem_nil⟩

theorem run_spec {calls : List (Call A)} (jobs : List (Job A)) {s : σ}
    (hs : Labelled c calls s) (hjobs : ∀ job ∈ jobs, ∀ call ∈ job.calls, call ∈ calls) :
    ∀ e ∈ run api c jobs s, e.call ∈ calls ∧ ∀ origin, e.origin = some origin →
      origin ∈ calls ∧ origin.getCacheKey = e.call.getCacheKey := by
  induction jobs generalizing s with
  | nil => exact fun e he => absurd he List.not_mem_nil
  | cons job jobs ih =>
    rw [List.forall_mem_cons] at hjobs
    have hlabels : Labels c calls _ := resources_spec api job.now hjobs.1 hs
    intro e he
    rcases List.mem_append.mp he with he | he
    · exact hlabels.events e he
    · exact ih hlabels.cache hjobs.2 e he

/-! ## A run that leaks -/

/-- An API that has nothing. -/
def silent (A R : Type) : Api A R where
  invoke _ := .ok []
  extraArgs _ _ := []
  enumerateResources _ _ _ := .ok []
  annotate _ _ r := r
  augment _ _ l := .ok l
  otherSource _ _ _ _ := .ok []

omit [DecidableEq A] in
theorem fetch_silent (m : Manager A) (parents : List R) (query : Option (Query A))
    (augment : Bool) : ∃ list, m.fetch (silent A R) parents query augment = .ok list := by
  have hchildren : ∃ list, m.filterChildren (silent A R) parents = .ok list := by
    induction parents with
    | nil => exact ⟨[], rfl⟩
    | cons parent parents ih =>
      obtain ⟨list, hlist⟩ := ih
      simp only [Manager.filterChildren, hlist]
      exact ⟨_, rfl⟩
  have hget : ∃ list, m.getResources (silent A R) parents query = .ok list := by
    rw [Manager.getResources]
    split
    · exact ⟨[], rfl⟩
    · split
      · exact hchildren
      · split
        · exact ⟨[], rfl⟩
        · exact ⟨[], rfl⟩
  obtain ⟨list, hlist⟩ := hget
  rw [Manager.fetch, hlist]
  cases augment with
  | true => exact ⟨list, rfl⟩
  | false => exact ⟨list, rfl⟩

theorem cachedResources_silent (c : ValueCache σ (Key A) (Cached A R)) (now : Nat)
    (call : Call A) {parents : σ → Result A R σ} {s : σ}
    (hparents : ∃ list, (parents s).resources = .ok list) :
    (∃ list, (cachedResources (silent A R) c now call parents s).resources = .ok list) ∧
      (c.get s now call.getCacheKey = none → ∃ s' list,
        (cachedResources (silent A R) c now call parents s).cache =
          c.save s' now call.getCacheKey ⟨call, list⟩) := by
  rw [cachedResources]
  cases hget : c.get s now call.getCacheKey with
  | some cached => exact ⟨⟨cached.resources, rfl⟩, fun h => by cases h⟩
  | none =>
    obtain ⟨ps, hps⟩ := hparents
    obtain ⟨list, hlist⟩ := fetch_silent call.manager ps call.query call.augment
    simp only [hps, hlist]
    exact ⟨⟨list, rfl⟩, fun _ => ⟨_, list, rfl⟩⟩

theorem resources_silent (c : ValueCache σ (Key A) (Cached A R)) (now : Nat)
    (t : ResourceType A) (ctx : Context A) (query : Option (Query A)) (augment : Bool) (s : σ) :
    let call : Call A := ⟨⟨ctx, t⟩, Manager.effectiveQuery ⟨ctx, t⟩ query, augment⟩
    (∃ list, (resources (silent A R) c now t ctx query augment s).resources = .ok list) ∧
      (c.get s now call.getCacheKey = none → ∃ s' list,
        (resources (silent A R) c now t ctx query augment s).cache =
          c.save s' now call.getCacheKey ⟨call, list⟩) := by
  induction t generalizing ctx query augment s with
  | base info =>
    rw [resources]
    exact cachedResources_silent c now _ ⟨[], rfl⟩
  | child info parent ih =>
    rw [resources]
    refine cachedResources_silent c now _ ?_
    by_cases hsource : Manager.sourceType ⟨ctx, .child info parent⟩ = describeChildAzure
    · simp only [if_pos hsource]
      exact (ih ctx.parent none true s).1
    · simp only [if_neg hsource]
      exact ⟨[], rfl⟩

theorem resources_hit (now : Nat) {t : ResourceType A} {ctx : Context A}
    (query : Option (Query A)) (augment : Bool) {s : σ} {cached : Cached A R}
    (hget : c.get s now (Call.getCacheKey
      ⟨⟨ctx, t⟩, Manager.effectiveQuery ⟨ctx, t⟩ query, augment⟩) = some cached) :
    (resources api c now t ctx query augment s).events =
      [⟨⟨⟨ctx, t⟩, Manager.effectiveQuery ⟨ctx, t⟩ query, augment⟩, some cached.origin⟩] := by
  cases t with
  | base info => rw [resources, cachedResources, hget]
  | child info parent => rw [resources, cachedResources, hget]

omit [DecidableEq A] in
theorem exists_job {t : ResourceType A} {ctx : Context A} {query : Option (Query A)}
    {augment : Bool} {call : Call A} (h : call ∈ callsOf t ctx query augment) :
    ∃ job : Job A, job.call = call ∧ ∀ call' ∈ job.calls, call' ∈ callsOf t ctx query augment := by
  induction t generalizing ctx query augment with
  | base info =>
    obtain rfl := List.mem_singleton.mp h
    exact ⟨⟨0, ⟨ctx, .base info⟩, query, augment⟩, rfl, fun _ h => h⟩
  | child info parent ih =>
    have hcalls := h
    rw [callsOf, List.mem_cons] at hcalls
    rcases hcalls with rfl | hparent
    · exact ⟨⟨0, ⟨ctx, .child info parent⟩, query, augment⟩, rfl, fun _ h => h⟩
    · split at hparent
      · rename_i hsource
        obtain ⟨job, hjob, hmem⟩ := ih hparent
        refine ⟨job, hjob, fun call' h' => ?_⟩
        rw [callsOf, if_pos hsource]
        exact List.mem_cons_of_mem _ (hmem call' h')
      · cases hparent

theorem leaks_of_key {calls : List (Call A)} (h : NeverLeaks R calls) {job job' : Job A}
    (hjob : ∀ call ∈ job.calls, call ∈ calls) (hjob' : ∀ call ∈ job'.calls, call ∈ calls)
    (hkey : job.call.getCacheKey = job'.call.getCacheKey) : SameFetch job.call job'.call := by
  let c := memoryValues (ν := Cached A R) (⟨id, id, fun _ => rfl⟩ : Pickle (Key A) (Key A))
  have hkept := h (silent A R) _ c [job, job'] (by
    rw [List.forall_mem_cons, List.forall_mem_singleton]
    exact ⟨hjob, hjob'⟩)
  obtain ⟨s', list, hs'⟩ := (resources_silent c job.now job.manager.resourceType
    job.manager.toContext job.query job.augment c.empty).2 (c.get_empty _ _)
  have hget : c.get (resources (silent A R) c job.now job.manager.resourceType
      job.manager.toContext job.query job.augment c.empty).cache job'.now
      job'.call.getCacheKey = some ⟨job.call, list⟩ := by
    rw [hs', c.get_save]
    exact (if_pos hkey.symm).trans (if_pos rfl)
  refine hkept ⟨job'.call, some job.call⟩ ?_ _ rfl
  simp only [run, List.mem_append]
  refine .inr (.inl ?_)
  rw [resources_hit job'.now job'.query job'.augment hget]
  exact List.mem_singleton_self _

/-- **No list leaks, in whatever order the jobs are run, exactly when calls for one class name,
source and query are the same fetch.** -/
theorem subscriptionsApart_iff (R : Type) (jobs : List (Job A)) :
    NeverLeaks R (jobs.flatMap Job.calls) ↔ Apart (jobs.flatMap Job.calls) := by
  constructor
  · intro h call hcall call' hcall' hclass hsource hquery
    have hself : ∀ call ∈ jobs.flatMap Job.calls, ∃ job : Job A, job.call = call ∧
        ∀ call' ∈ job.calls, call' ∈ jobs.flatMap Job.calls := by
      intro call hcall
      obtain ⟨job, hjob, hmem⟩ := List.mem_flatMap.mp hcall
      obtain ⟨job', hcall', hcalls⟩ := exists_job hmem
      exact ⟨job', hcall', fun call' h' => List.mem_flatMap.mpr ⟨job, hjob, hcalls call' h'⟩⟩
    obtain ⟨job, rfl, hjob⟩ := hself call hcall
    obtain ⟨job', rfl, hjob'⟩ := hself call' hcall'
    have hsame := leaks_of_key h hjob hjob'
      (getCacheKey_eq_iff.mpr ⟨hsource, hquery, hclass⟩)
    exact ⟨hsame.subscription, hsame.moduleName, hsame.augment⟩
  · intro h api σ c jobs' hjobs e he origin ho
    have hempty : Labelled c (jobs.flatMap Job.calls) c.empty := by
      intro t key cached hget
      rw [c.get_empty] at hget
      cases hget
    obtain ⟨hcall, horigin⟩ := run_spec jobs' hempty hjobs e he
    obtain ⟨hmem, hkey⟩ := horigin origin ho
    obtain ⟨hsource, hquery, hclass⟩ := getCacheKey_eq_iff.mp hkey
    obtain ⟨hsub, hmodule, haugment⟩ := h origin hmem e.call hcall hclass hsource hquery
    exact ⟨hsub, hmodule, hclass, hsource, hquery, haugment⟩

/-! ## Two subscriptions -/

/-- The virtual machines of a subscription. -/
def machines (subscription : Text) : Job Unit where
  now := 0
  manager :=
    { resourceType := .base
        { moduleName := "c7n_azure.resources.vm".toList, className := "VirtualMachine".toList
          service := "azure.mgmt.compute".toList, client := "ComputeManagementClient".toList
          resource := "resource_manager".toList
          enumOp := some "virtual_machines".toList, listOp := "list_all".toList, extraArgs := []
          graphType := "Microsoft.Compute/virtualMachines".toList
          annotateParent := false, raiseOnException := true }
      subscription := subscription
      source := none
      query := none }
  query := none
  augment := true

/-- An in-memory cache of lists. -/
def sampleCache : ValueCache (Held (Key Unit) (Cached Unit Unit)) (Key Unit) (Cached Unit Unit) :=
  memoryValues ⟨id, id, fun _ => rfl⟩

/-- The second subscription is given the list of the first one. -/
theorem subscription_leaks :
    ((run (silent Unit Unit) sampleCache [machines "dev".toList, machines "prod".toList]
        sampleCache.empty).map fun e => (e.call.manager.subscription,
          e.origin.map fun o => o.manager.subscription)) =
      [("dev".toList, none), ("prod".toList, some "dev".toList)] ∧
      ¬ NeverLeaks Unit ([machines "dev".toList, machines "prod".toList].flatMap Job.calls) := by
  refine ⟨rfl, fun h => ?_⟩
  have hkept := h (silent Unit Unit) _ sampleCache [machines "dev".toList, machines "prod".toList]
    fun job hjob call hcall => List.mem_flatMap.mpr ⟨job, hjob, hcall⟩
  have hsame := hkept _ (List.mem_cons_of_mem _ List.mem_cons_self) _ rfl
  exact absurd hsame.subscription (by decide)

end Custodian.AzureQuery

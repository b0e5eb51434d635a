import Custodian.Gcp.Query

/-!
# Lists that a cache hands on

When a list that one resource manager has cached is given to another one.
-/

namespace Custodian.GcpQuery

open Py Cache

variable {A R σ : Type} [DecidableEq A] {api : Api A R} {c : ValueCache σ (Key A) (Cached A R)}

/-! ## Calls and their parents -/

/-- The parents of the resources of a manager. -/
def parentsOf (api : Api A R) (c : ValueCache σ (Key A) (Cached A R)) (now : Nat) :
    ResourceType A → Context A → σ → Result A R σ
  | .base _, _, s => ⟨.ok [], s, []⟩
  | .child _ useChildQuery parent, ctx, s =>
    resources api c now parent (ctx.parent useChildQuery) none s
  | .regional _, ctx, s => ⟨.ok (ctx.regions.map api.region), s, []⟩

theorem resources_eq (now : Nat) (t : ResourceType A) (ctx : Context A) (query : Option (Params A))
    (s : σ) : resources api c now t ctx query s =
      cachedResources api c now ⟨⟨ctx, t⟩, Manager.effectiveQuery ⟨ctx, t⟩ query⟩
        (parentsOf api c now t ctx) s := by
  cases t <;> rw [resources] <;> rfl

/-- The parents that a call fetches without a cache. -/
def freshParents (api : Api A R) : ResourceType A → Context A → Except Failure (List R)
  | .base _, _ => .ok []
  | .child _ useChildQuery parent, ctx =>
    (freshOf api parent (ctx.parent useChildQuery)
      (Manager.getResourceQuery ⟨ctx.parent useChildQuery, parent⟩)).1
  | .regional _, ctx => .ok (ctx.regions.map api.region)

omit [DecidableEq A] in
theorem fresh_eq (api : Api A R) (call : Call A) : call.fresh api =
    match freshParents api call.manager.resourceType call.manager.toContext with
    | .error e => (.error e, call.query)
    | .ok parents => call.manager.fetchResources api parents call.query := by
  obtain ⟨⟨ctx, t⟩, query⟩ := call
  cases t with
  | base info => rfl
  | regional info => rfl
  | child info useChildQuery parent =>
    simp only [Call.fresh, freshOf, freshParents]
    generalize freshOf api parent _ _ = r
    obtain ⟨r, q⟩ := r
    cases r <;> rfl

omit [DecidableEq A] in
/-! ## Runs with keys that tell fetches apart -/

/-- Every list of the cache is what the call that has saved it fetches, under its key. -/
def Faithful (api : Api A R) (c : ValueCache σ (Key A) (Cached A R)) (calls : List (Call A))
    (s : σ) : Prop :=
  ∀ t key cached, c.get s t key = some cached → cached.origin ∈ calls ∧
    ∃ query, cached.origin.fresh api = (.ok cached.resources, query) ∧
      cached.origin.getCacheKey query = key

theorem Faithful.save {calls : List (Call A)} {s : σ} (h : Faithful api c calls s) {now : Nat}
    {call : Call A} {list : List R} {query : Option (Params A)} (hcall : call ∈ calls)
    (hfresh : call.fresh api = (.ok list, query)) :
    Faithful api c calls (c.save s now (call.getCacheKey query) ⟨call, list⟩) := by
  intro t key cached hget
  rw [c.get_save] at hget
  split at hget
  · rename_i hk
    split at hget
    · obtain rfl := Option.some.inj hget
      exact ⟨hcall, query, hfresh, hk.symm⟩
    · cases hget
  · exact h t key cached hget

/-- A call gives what it fetches itself, keeps the cache faithful and leaks nothing. -/
structure Right (api : Api A R) (c : ValueCache σ (Key A) (Cached A R)) (calls : List (Call A))
    (fresh : Except Failure (List R)) (r : Result A R σ) : Prop where
  resources : r.resources = fresh
  faithful : Faithful api c calls r.cache
  kept : Kept R r.events

/-- **With keys that tell fetches apart a call gives what it would fetch.** -/
theorem cachedResources_spec {calls : List (Call A)} (hapart : KeysApart R calls) {now : Nat}
    {call : Call A} {parents : σ → Result A R σ} {s : σ} (hcall : call ∈ calls)
    (hs : Faithful api c calls s)
    (hparents : Right api c calls
      (freshParents api call.manager.resourceType call.manager.toContext) (parents s)) :
    Right api c calls (call.fresh api).1 (cachedResources api c now call parents s) := by
  rw [cachedResources]
  cases hget : c.get s now (call.getCacheKey call.query) with
  | some cached =>
    obtain ⟨horigin, query, hfresh, hkey⟩ := hs _ _ _ hget
    have hsame := hapart _ horigin _ hcall api _ _ hfresh hkey
    refine ⟨?_, hs, ?_⟩
    · rw [← hsame api, hfresh]
    · intro e he origin ho
      obtain rfl := List.mem_singleton.mp he
      exact Option.some.inj ho ▸ hsame
  | none =>
    obtain ⟨hresources, hfaithful, hkept⟩ := hparents
    have hfresh := fresh_eq api call
    rw [← hresources] at hfresh
    have hevents : Kept R ((parents s).events ++ [⟨call, none⟩]) := by
      intro e he origin ho
      rcases List.mem_append.mp he with he | he
      · exact hkept e he origin ho
      · obtain rfl := List.mem_singleton.mp he
        cases ho
    simp only
    cases hp : (parents s).resources with
    | error e =>
      rw [hp] at hfresh
      exact ⟨by rw [hfresh], hfaithful, hevents⟩
    | ok ps =>
      rw [hp] at hfresh
      simp only at hfresh ⊢
      generalize call.manager.fetchResources api ps call.query = fetched at hfresh ⊢
      obtain ⟨r, query⟩ := fetched
      cases r with
      | error e => exact ⟨by rw [hfresh], hfaithful, hevents⟩
      | ok list => exact ⟨by rw [hfresh], hfaithful.save hcall hfresh, hevents⟩

theorem resources_spec {calls : List (Call A)} (hapart : KeysApart R calls) (now : Nat)
    {t : ResourceType A} {ctx : Context A} (query : Option (Params A)) {s : σ}
    (hcalls : ∀ call ∈ callsOf t ctx (Manager.effectiveQuery ⟨ctx, t⟩ query), call ∈ calls)
    (hs : Faithful api c calls s) :
    Right api c calls (freshOf api t ctx (Manager.effectiveQuery ⟨ctx, t⟩ query)).1
      (resources api c now t ctx query s) := by
  induction t generalizing ctx query s with
  | base info =>
    rw [resources_eq]
    exact cachedResources_spec hapart (hcalls _ List.mem_cons_self) hs
      ⟨rfl, hs, fun e he => absurd he List.not_mem_nil⟩
  | regional info =>
    rw [resources_eq]
    exact cachedResources_spec hapart (hcalls _ List.mem_cons_self) hs
      ⟨rfl, hs, fun e he => absurd he List.not_mem_nil⟩
  | child info useChildQuery parent ih =>
    rw [resources_eq]
    refine cachedResources_spec hapart (hcalls _ List.mem_cons_self) hs ?_
    exact ih none (fun call h => hcalls call (List.mem_cons_of_mem _ h)) hs

theorem run_kept {calls : List (Call A)} (hapart : KeysApart R calls) (jobs : List (Job A))
    {s : σ} (hs : Faithful api c calls s)
    (hjobs : ∀ job ∈ jobs, ∀ call ∈ job.calls, call ∈ calls) : Kept R (run api c jobs s) := by
  induction jobs generalizing s with
  | nil => exact fun e he => absurd he List.not_mem_nil
  | cons job jobs ih =>
    rw [List.forall_mem_cons] at hjobs
    have hright : Right api c calls _ _ := resources_spec hapart job.now job.query hjobs.1 hs
    intro e he
    rcases List.mem_append.mp he with he | he
    · exact hright.kept e he
    · exact ih hright.faithful hjobs.2 e he

/-! ## A run that leaks -/

theorem cachedResources_miss {now : Nat} {call : Call A} {parents : σ → Result A R σ} {s : σ}
    (hmiss : c.get s now (call.getCacheKey call.query) = none)
    (hparents : (parents s).resources =
      freshParents api call.manager.resourceType call.manager.toContext) :
    (cachedResources api c now call parents s).resources = (call.fresh api).1 ∧
      ∀ list query, call.fresh api = (.ok list, query) →
        ∃ s', (cachedResources api c now call parents s).cache =
          c.save s' now (call.getCacheKey query) ⟨call, list⟩ := by
  have hfresh := fresh_eq api call
  rw [← hparents] at hfresh
  rw [cachedResources, hmiss]
  simp only
  cases hp : (parents s).resources with
  | error e =>
    rw [hp] at hfresh
    refine ⟨by rw [hfresh], fun list query h => ?_⟩
    rw [hfresh] at h
    cases h
  | ok ps =>
    rw [hp] at hfresh
    simp only at hfresh ⊢
    generalize call.manager.fetchResources api ps call.query = fetched at hfresh ⊢
    obtain ⟨r, query⟩ := fetched
    cases r with
    | error e =>
      refine ⟨by rw [hfresh], fun list query' h => ?_⟩
      rw [hfresh] at h
      cases h
    | ok list =>
      refine ⟨by rw [hfresh], fun list' query' h => ?_⟩
      rw [hfresh] at h
      cases h
      exact ⟨_, rfl⟩

theorem resources_empty (api : Api A R) {now : Nat} (t : ResourceType A) (ctx : Context A)
    (query : Option (Params A)) {s : σ} (hs : ∀ key, c.get s now key = none) :
    (resources api c now t ctx query s).resources =
        (freshOf api t ctx (Manager.effectiveQuery ⟨ctx, t⟩ query)).1 ∧
      ∀ list query', freshOf api t ctx (Manager.effectiveQuery ⟨ctx, t⟩ query) =
          (.ok list, query') →
        ∃ s', (resources api c now t ctx query s).cache =
          c.save s' now
            (Call.getCacheKey ⟨⟨ctx, t⟩, Manager.effectiveQuery ⟨ctx, t⟩ query⟩ query')
            ⟨⟨⟨ctx, t⟩, Manager.effectiveQuery ⟨ctx, t⟩ query⟩, list⟩ := by
  induction t generalizing ctx query with
  | base info =>
    rw [resources_eq]
    exact cachedResources_miss (hs _) rfl
  | regional info =>
    rw [resources_eq]
    exact cachedResources_miss (hs _) rfl
  | child info useChildQuery parent ih =>
    rw [resources_eq]
    exact cachedResources_miss (hs _) (ih _ none).1

theorem resources_hit {now : Nat} {t : ResourceType A} {ctx : Context A}
    (query : Option (Params A)) {s : σ} {cached : Cached A R}
    (hget : c.get s now (Call.getCacheKey ⟨⟨ctx, t⟩, Manager.effectiveQuery ⟨ctx, t⟩ query⟩
      (Manager.effectiveQuery ⟨ctx, t⟩ query)) = some cached) :
    (resources api c now t ctx query s).events =
      [⟨⟨⟨ctx, t⟩, Manager.effectiveQuery ⟨ctx, t⟩ query⟩, some cached.origin⟩] := by
  rw [resources_eq, cachedResources, hget]

omit [DecidableEq A] in
theorem exists_job {t : ResourceType A} {ctx : Context A} (query : Option (Params A))
    {call : Call A} (h : call ∈ callsOf t ctx (Manager.effectiveQuery ⟨ctx, t⟩ query)) :
    ∃ job : Job A, job.call = call ∧ ∀ call' ∈ job.calls,
      call' ∈ callsOf t ctx (Manager.effectiveQuery ⟨ctx, t⟩ query) := by
  induction t generalizing ctx query with
  | base info =>
    obtain rfl := List.mem_singleton.mp h
    exact ⟨⟨0, ⟨ctx, .base info⟩, query⟩, rfl, fun _ h => h⟩
  | regional info =>
    obtain rfl := List.mem_singleton.mp h
    exact ⟨⟨0, ⟨ctx, .regional info⟩, query⟩, rfl, fun _ h => h⟩
  | child info useChildQuery parent ih =>
    rcases List.mem_cons.mp h with rfl | h
    · exact ⟨⟨0, ⟨ctx, .child info useChildQuery parent⟩, query⟩, rfl, fun _ h => h⟩
    · obtain ⟨job, hjob, hcalls⟩ := ih none h
      exact ⟨job, hjob, fun call' h' => List.mem_cons_of_mem _ (hcalls call' h')⟩

theorem leaks_of_key {calls : List (Call A)} (h : NeverLeaks R calls) {job job' : Job A}
    (hjob : ∀ call ∈ job.calls, call ∈ calls) (hjob' : ∀ call ∈ job'.calls, call ∈ calls)
    {list : List R} {query : Option (Params A)}
    (hfresh : job.call.fresh api = (.ok list, query))
    (hkey : job.call.getCacheKey query = job'.call.getCacheKey job'.call.query) :
    SameFetch R job.call job'.call := by
  let c := memoryValues (ν := Cached A R) (⟨id, id, fun _ => rfl⟩ : Pickle (Key A) (Key A))
  have hkept := h api _ c [job, job'] (by
    rw [List.forall_mem_cons, List.forall_mem_singleton]
    exact ⟨hjob, hjob'⟩)
  obtain ⟨s', hs'⟩ := (resources_empty api job.manager.resourceType job.manager.toContext
    job.query fun key => c.get_empty job.now key).2 list query hfresh
  have hget : c.get (resources api c job.now job.manager.resourceType job.manager.toContext
      job.query c.empty).cache job'.now (job'.call.getCacheKey job'.call.query) =
      some ⟨job.call, list⟩ := by
    rw [hs', c.get_save]
    exact (if_pos hkey.symm).trans (if_pos rfl)
  refine hkept ⟨job'.call, some job.call⟩ ?_ _ rfl
  simp only [run, List.mem_append]
  refine .inr (.inl ?_)
  rw [resources_hit job'.query hget]
  exact List.mem_singleton_self _

/-- **No list leaks, in whatever order the jobs are run, exactly when keys tell fetches apart.** -/
theorem neverLeaks_iff (R : Type) (jobs : List (Job A)) :
    NeverLeaks R (jobs.flatMap Job.calls) ↔ KeysApart R (jobs.flatMap Job.calls) := by
  constructor
  · intro h call hcall call' hcall' api list query hfresh hkey
    have hself : ∀ call ∈ jobs.flatMap Job.calls, ∃ job : Job A, job.call = call ∧
        ∀ call' ∈ job.calls, call' ∈ jobs.flatMap Job.calls := by
      intro call hcall
      obtain ⟨job, hjob, hmem⟩ := List.mem_flatMap.mp hcall
      obtain ⟨job', hcall', hcalls⟩ := exists_job job.query hmem
      exact ⟨job', hcall', fun call' h' => List.mem_flatMap.mpr ⟨job, hjob, hcalls call' h'⟩⟩
    obtain ⟨job, rfl, hjob⟩ := hself call hcall
    obtain ⟨job', rfl, hjob'⟩ := hself call' hcall'
    exact leaks_of_key h hjob hjob' hfresh hkey
  · intro h api σ c jobs' hjobs
    refine run_kept h jobs' (fun t key cached hget => ?_) hjobs
    rw [c.get_empty] at hget
    cases hget

/-! ## Two projects -/

/-- `compute.instances`, for a policy without a query in a project. -/
def instances (project : Text) : Job Unit where
  now := 0
  manager :=
    { resourceType := .base
        { name := "gcp.instance".toList, service := "compute".toList, version := "v1".toList
          component := "instances".toList, scopes := none, scope := .project, scopeKey := none
          scopeTemplate := none, enumOp := "aggregatedList".toList
          path := "items.*.instances[]".toList, extraArgs := []
          assetType := "compute.googleapis.com/Instance".toList }
      sourceType := .describeGcp
      query := none
      session := ⟨some project, none⟩
      regions := [] }
  query := none

/-- An API whose list is the project it is asked for. -/
def echo : Api Unit (Option (Arg Unit)) where
  invoke
    | .enumerate _ params => .ok (some [params.lookup "project".toList])
    | .assets _ => .ok none
  augment _ _ l := .ok l
  region _ := none
  childEnumArgs _ _ := .ok []
  annotate _ _ r := r

/-- An in-memory cache of lists. -/
def sampleCache : ValueCache (Held (Key Unit) (Cached Unit (Option (Arg Unit)))) (Key Unit)
    (Cached Unit (Option (Arg Unit))) :=
  memoryValues ⟨id, id, fun _ => rfl⟩

/-- The second project is given the list of the first one. -/
theorem project_leaks :
    ((run echo sampleCache [instances "dev".toList, instances "prod".toList]
        sampleCache.empty).map fun e => (e.call.manager.session.project,
          e.origin.bind fun o => o.manager.session.project)) =
      [(some "dev".toList, none), (some "prod".toList, some "dev".toList)] ∧
      ¬NeverLeaks (Option (Arg Unit))
        ([instances "dev".toList, instances "prod".toList].flatMap Job.calls) := by
  refine ⟨rfl, fun h => ?_⟩
  have hkept := h echo _ sampleCache [instances "dev".toList, instances "prod".toList]
    fun job hjob call hcall => List.mem_flatMap.mpr ⟨job, hjob, hcall⟩
  have hsame := hkept _ (List.mem_cons_of_mem _ List.mem_cons_self) _ rfl echo
  have hdev : (Call.fresh echo (instances "dev".toList).call).1 =
      .ok [some (.text "dev".toList)] := rfl
  have hprod : (Call.fresh echo (instances "prod".toList).call).1 =
      .ok [some (.text "prod".toList)] := rfl
  have heq := hdev.symm.trans (Eq.trans hsame hprod)
  simp at heq

end Custodian.GcpQuery

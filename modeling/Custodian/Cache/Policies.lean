import Custodian.Cache.Store
import Custodian.Lib.Text
import Mathlib.Algebra.GroupWithZero.Nat

/-!
# Policies that share a cache

`QueryResourceManager.resources` of `c7n/query.py`: a policy gets its resources from
the cache or fetches and saves them, and then runs its filters and actions over the
very objects it has got or saved.
-/

namespace Custodian.Cache

open Py

/-- One run of a policy: the key of its query, the augmented resources that its source
has, what its filters and actions make of the resources they are fed, and its time. -/
structure PolicyRun (κ ν : Type) where
  key : κ
  fetched : ν
  process : ν → ν
  elapsed : Nat

section Manager

variable {σ κ ν : Type} (b : Backend σ κ ν)

/-- A process with its cache, clock and live objects. -/
structure Process (σ ν : Type) where
  cache : σ
  now : Nat
  heap : List ν

/-- The resources that the filters are given, and the process then. -/
def resources (s : Process σ ν) (key : κ) (fetched : ν) : Ref × Process σ ν :=
  let p := b.get s.cache s.now key s.heap
  match p.1 with
  | some r => (r, { s with heap := p.2 })
  | none =>
    let r := p.2.length
    (r, { s with cache := b.save s.cache s.now key r fetched, heap := p.2 ++ [fetched] })

/-- What each policy's filters are fed. -/
def fed (s : Process σ ν) : List (PolicyRun κ ν) → List (Option ν)
  | [] => []
  | p :: ps =>
    let q := resources b s p.key p.fetched
    q.2.heap[q.1]? :: fed { q.2 with
      now := q.2.now + p.elapsed, heap := q.2.heap.modify q.1 p.process } ps

def Process.start : Process σ ν := ⟨b.empty, 0, []⟩

end Manager

variable {κ ν : Type} [DecidableEq κ]

/-- Every policy is fed what was fetched first under its key. -/
def plain (known : κ → Option ν) : List (PolicyRun κ ν) → List ν
  | [] => []
  | p :: ps =>
    let v := (known p.key).getD p.fetched
    v :: plain (Function.update known p.key (some v)) ps

/-- Every policy is fed what the one before it under its key has left. -/
def live (known : κ → Option ν) : List (PolicyRun κ ν) → List ν
  | [] => []
  | p :: ps =>
    let v := (known p.key).getD p.fetched
    v :: live (Function.update known p.key (some (p.process v))) ps

/-- A policy whose key is used again leaves the resources as it was fed them. -/
def Undisturbed (known : κ → Option ν) : List (PolicyRun κ ν) → Prop
  | [] => True
  | p :: ps =>
    let v := (known p.key).getD p.fetched
    ((∃ q ∈ ps, q.key = p.key) → p.process v = v) ∧
      Undisturbed (Function.update known p.key (some v)) ps

/-! ## When annotations do not show -/

theorem live_congr {known known' : κ → Option ν} {ps : List (PolicyRun κ ν)}
    (h : ∀ p ∈ ps, known p.key = known' p.key) : live known ps = live known' ps := by
  induction ps generalizing known known' with
  | nil => rfl
  | cons p ps ih =>
    rw [List.forall_mem_cons] at h
    rw [live, live, h.1]
    refine congrArg _ (ih fun q hq => ?_)
    by_cases hk : q.key = p.key
    · rw [hk, Function.update_self, Function.update_self]
    · rw [Function.update_of_ne hk, Function.update_of_ne hk, h.2 q hq]

theorem live_ne_plain {known known' : κ → Option ν} {k : κ} {v v' : ν}
    (hk : known k = some v) (hk' : known' k = some v') (hne : v ≠ v')
    {ps : List (PolicyRun κ ν)} (h : ∃ q ∈ ps, q.key = k) : live known ps ≠ plain known' ps := by
  induction ps generalizing known known' with
  | nil =>
    obtain ⟨q, hq, -⟩ := h
    cases hq
  | cons p ps ih =>
    intro heq
    rw [live, plain, List.cons.injEq] at heq
    by_cases hp : p.key = k
    · rw [hp, hk, hk'] at heq
      exact hne heq.1
    · obtain ⟨q, hq, hqk⟩ := h
      rcases List.mem_cons.mp hq with rfl | hq
      · exact hp hqk
      · refine ih ?_ ?_ ⟨q, hq, hqk⟩ heq.2
        · rw [Function.update_of_ne (Ne.symm hp), hk]
        · rw [Function.update_of_ne (Ne.symm hp), hk']

theorem live_eq_plain_iff (known : κ → Option ν) (ps : List (PolicyRun κ ν)) :
    live known ps = plain known ps ↔ Undisturbed known ps := by
  induction ps generalizing known with
  | nil => exact iff_of_true rfl trivial
  | cons p ps ih =>
    rw [live, plain, Undisturbed, List.cons.injEq, ← ih]
    generalize (known p.key).getD p.fetched = v
    simp only [true_and]
    by_cases hq : ∃ q ∈ ps, q.key = p.key
    · by_cases hv : p.process v = v
      · rw [hv]
        exact (and_iff_right fun _ => rfl).symm
      · refine iff_of_false ?_ fun h => hv (h.1 hq)
        exact live_ne_plain (Function.update_self ..) (Function.update_self ..) hv hq
    · rw [and_iff_right fun h => absurd h hq]
      have hlive : live (Function.update known p.key (some (p.process v))) ps =
          live (Function.update known p.key (some v)) ps := by
        refine live_congr fun q hqs => ?_
        have hne : q.key ≠ p.key := fun e => hq ⟨q, hqs, e⟩
        rw [Function.update_of_ne hne, Function.update_of_ne hne]
      rw [hlive]

/-! ## What the caches feed -/

section Caches

variable {β γ : Type} [DecidableEq β] (keys : Pickle κ β) (data : Pickle ν γ) (cachePeriod : Nat)

/-- What the rows of the table are worth. -/
def sqlKnown (s : Process (Dict β (γ × Nat)) ν) (key : κ) : Option ν :=
  (s.cache.lookup (keys.dumps key)).map fun e => data.loads e.1

/-- What the held objects are worth. -/
def memoryKnown (s : Process (Dict β Ref) ν) (key : κ) : Option ν :=
  (s.cache.lookup (keys.dumps key)).bind fun r => s.heap[r]?

theorem resources_sql {s : Process (Dict β (γ × Nat)) ν} (h : s.now ≤ cachePeriod) (key : κ)
    (fetched : ν) :
    let q := resources (sqlKvCache keys data cachePeriod) s key fetched
    let v := (sqlKnown keys data s key).getD fetched
    q.2.heap[q.1]? = some v ∧ q.2.now = s.now ∧
      sqlKnown keys data q.2 = Function.update (sqlKnown keys data s) key (some v) := by
  have hfresh : ∀ d, ¬ cachePeriod < s.now - d := fun d => by omega
  cases hl : s.cache.lookup (keys.dumps key) with
  | none =>
    refine ⟨by simp [resources, sqlKvCache, sqlKnown, hl], by simp [resources, sqlKvCache, hl], ?_⟩
    funext key'
    by_cases hk : key' = key
    · subst hk
      simp [resources, sqlKvCache, sqlKnown, hl, AList.lookup_insert, data.loads_dumps]
    · have hd : keys.dumps key' ≠ keys.dumps key := fun e => hk (keys.dumps_inj.mp e)
      simp [resources, sqlKvCache, sqlKnown, hl, AList.lookup_insert_ne hd, hk]
  | some e =>
    refine ⟨by simp [resources, sqlKvCache, sqlKnown, hl, hfresh],
      by simp [resources, sqlKvCache, hl, hfresh], ?_⟩
    have hcache : (resources (sqlKvCache keys data cachePeriod) s key fetched).2.cache = s.cache := by
      simp [resources, sqlKvCache, hl, hfresh]
    funext key'
    by_cases hk : key' = key
    · subst hk
      simp [sqlKnown, hcache, hl]
    · simp [sqlKnown, hcache, hk]

theorem fed_sql {ps : List (PolicyRun κ ν)} {s : Process (Dict β (γ × Nat)) ν}
    (h : s.now + (ps.map PolicyRun.elapsed).sum ≤ cachePeriod) :
    fed (sqlKvCache keys data cachePeriod) s ps =
      (plain (sqlKnown keys data s) ps).map some := by
  induction ps generalizing s with
  | nil => rfl
  | cons p ps ih =>
    rw [List.map_cons, List.sum_cons] at h
    obtain ⟨hv, hnow, hknown⟩ := resources_sql keys data cachePeriod (s := s) (by omega) p.key
      p.fetched
    rw [fed, plain, List.map_cons, hv, ih (by simp only [hnow]; omega)]
    exact congrArg (fun k => _ :: (plain k ps).map some) hknown

/-- Every held object is there, and no two keys share one. -/
structure Separate (s : Process (Dict β Ref) ν) : Prop where
  held : ∀ k r, s.cache.lookup k = some r → r < s.heap.length
  distinct : ∀ k k' r, s.cache.lookup k = some r → s.cache.lookup k' = some r → k = k'

omit [DecidableEq κ] in
theorem resources_memory {s : Process (Dict β Ref) ν} (hs : Separate s) (key : κ) (fetched : ν) :
    let q := resources (inMemoryCache keys) s key fetched
    q.2.heap[q.1]? = some ((memoryKnown keys s key).getD fetched) ∧ Separate q.2 ∧
      q.2.cache.lookup (keys.dumps key) = some q.1 ∧
      ∀ key' ≠ key, memoryKnown keys q.2 key' = memoryKnown keys s key' := by
  cases hl : s.cache.lookup (keys.dumps key) with
  | none =>
    refine ⟨by simp [resources, inMemoryCache, memoryKnown, hl], ⟨?_, ?_⟩,
      by simp [resources, inMemoryCache, hl, AList.lookup_insert], ?_⟩
    · intro k r hr
      simp only [resources, inMemoryCache, hl] at hr ⊢
      by_cases hk : k = keys.dumps key
      · rw [hk, AList.lookup_insert] at hr
        cases hr
        simp
      · rw [AList.lookup_insert_ne hk] at hr
        exact Nat.lt_of_lt_of_le (hs.held k r hr) (by simp)
    · intro k k' r hr hr'
      simp only [resources, inMemoryCache, hl] at hr hr'
      by_cases hk : k = keys.dumps key <;> by_cases hk' : k' = keys.dumps key
      · rw [hk, hk']
      · rw [hk, AList.lookup_insert] at hr
        rw [AList.lookup_insert_ne hk'] at hr'
        cases hr
        exact absurd (hs.held k' _ hr') (Nat.lt_irrefl _)
      · rw [hk', AList.lookup_insert] at hr'
        rw [AList.lookup_insert_ne hk] at hr
        cases hr'
        exact absurd (hs.held k _ hr) (Nat.lt_irrefl _)
      · rw [AList.lookup_insert_ne hk] at hr
        rw [AList.lookup_insert_ne hk'] at hr'
        exact hs.distinct k k' r hr hr'
    · intro key' hk
      have hd : keys.dumps key' ≠ keys.dumps key := fun e => hk (keys.dumps_inj.mp e)
      simp only [memoryKnown, resources, inMemoryCache, hl, AList.lookup_insert_ne hd]
      cases hl' : s.cache.lookup (keys.dumps key') with
      | none => rfl
      | some r => exact List.getElem?_append_left (hs.held _ r hl')
  | some r =>
    have hq : resources (inMemoryCache keys) s key fetched = (r, s) := by
      simp [resources, inMemoryCache, hl]
    rw [hq]
    refine ⟨?_, hs, hl, fun key' _ => rfl⟩
    simp [memoryKnown, hl, List.getElem?_eq_getElem (hs.held _ r hl)]

theorem fed_memory {ps : List (PolicyRun κ ν)} {s : Process (Dict β Ref) ν} (hs : Separate s) :
    fed (inMemoryCache keys) s ps = (live (memoryKnown keys s) ps).map some := by
  induction ps generalizing s with
  | nil => rfl
  | cons p ps ih =>
    obtain ⟨hv, hsep, hl, hother⟩ := resources_memory keys hs p.key p.fetched
    have hs' : Separate { (resources (inMemoryCache keys) s p.key p.fetched).2 with
        now := (resources (inMemoryCache keys) s p.key p.fetched).2.now + p.elapsed
        heap := (resources (inMemoryCache keys) s p.key p.fetched).2.heap.modify
          (resources (inMemoryCache keys) s p.key p.fetched).1 p.process } :=
      ⟨fun k r hr => by simpa using hsep.held k r hr, hsep.distinct⟩
    rw [fed, live, List.map_cons, hv, ih hs']
    refine congrArg (fun k => _ :: (live k ps).map some) (funext fun key => ?_)
    by_cases hk : key = p.key
    · subst hk
      simp [memoryKnown, hl, hv]
    · have hd : keys.dumps key ≠ keys.dumps p.key := fun e => hk (keys.dumps_inj.mp e)
      rw [Function.update_of_ne hk, ← hother key hk]
      simp only [memoryKnown]
      cases hl' : (resources (inMemoryCache keys) s p.key p.fetched).2.cache.lookup
          (keys.dumps key) with
      | none => rfl
      | some r =>
        have hne : (resources (inMemoryCache keys) s p.key p.fetched).1 ≠ r := by
          rintro rfl
          exact hd (hsep.distinct _ _ _ hl' hl)
        simp [List.getElem?_modify, hne]

end Caches

/-! ## An annotation that shows -/

/-- Texts written as they are. -/
def asIs (α : Type) : Pickle α α := ⟨id, id, fun _ => rfl⟩

/-- A policy that finds one instance, whose keys are given, and adds a key to it. -/
def annotating (key : List Text) : PolicyRun Text (List (List Text)) where
  key := "ec2".toList
  fetched := [["InstanceId".toList]]
  process rs := rs.map fun r => r ++ key
  elapsed := 1

end Custodian.Cache

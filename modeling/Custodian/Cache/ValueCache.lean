import Custodian.Cache.Store

/-!
# Caches as their callers see them

A cache is asked for the value of a key at some time, and given values to save.  Both kinds of
cache answer with the value that was last saved, as long as it is fresh.
-/

namespace Custodian.Cache

open Py

/-- A cache of values: what is saved under a key is found until it is no longer fresh. -/
structure ValueCache (σ κ ν : Type) [DecidableEq κ] where
  empty : σ
  get : σ → Nat → κ → Option ν
  save : σ → Nat → κ → ν → σ
  /-- A value saved at the first time is found at the second. -/
  fresh : Nat → Nat → Bool
  fresh_of_le : ∀ s t u, s ≤ t → t ≤ u → fresh s u → fresh s t
  get_empty : ∀ t k, get empty t k = none
  get_save : ∀ s t k v t' k', get (save s t k v) t' k' =
    if k' = k then (if fresh t t' then some v else none) else get s t' k'

/-- The value that `get` returns, an object of the heap. -/
def Backend.read {σ κ ν : Type} (b : Backend σ κ ν) (s : σ) (now : Nat) (key : κ)
    (heap : List ν) : Option ν :=
  (b.get s now key heap).1.bind fun r => (b.get s now key heap).2[r]?

variable {κ ν β γ : Type} [DecidableEq κ] [DecidableEq β]

/-- The dictionary of the in-memory cache and the objects it holds. -/
structure Held (β ν : Type) [DecidableEq β] where
  data : Dict β Ref
  heap : List ν
  held : ∀ k r, data.lookup k = some r → r < heap.length

/-- Saving a new object in the in-memory cache. -/
def Held.save (keys : Pickle κ β) (s : Held β ν) (now : Nat) (key : κ) (v : ν) : Held β ν where
  data := (inMemoryCache keys).save s.data now key s.heap.length v
  heap := s.heap ++ [v]
  held := by
    intro k r h
    rw [List.length_append, List.length_singleton]
    simp only [inMemoryCache] at h
    by_cases hk : k = keys.dumps key
    · subst hk
      rw [AList.lookup_insert] at h
      exact Option.some.inj h ▸ Nat.lt_succ_self _
    · rw [AList.lookup_insert_ne hk] at h
      exact Nat.lt_succ_of_lt (s.held k r h)

/-- `InMemoryCache`, with the values of the objects that it holds. -/
def memoryValues (keys : Pickle κ β) : ValueCache (Held β ν) κ ν where
  empty := ⟨∅, [], by simp⟩
  get s now key := (inMemoryCache keys).read s.data now key s.heap
  save := Held.save keys
  fresh _ _ := true
  fresh_of_le _ _ _ _ _ _ := rfl
  get_empty _ _ := rfl
  get_save s t k v t' k' := by
    simp only [Backend.read, inMemoryCache, Held.save]
    by_cases hk : k' = k
    · subst hk
      simp [AList.lookup_insert]
    · rw [if_neg hk, AList.lookup_insert_ne fun e => hk (keys.dumps_inj.mp e)]
      cases hl : s.data.lookup (keys.dumps k') with
      | none => rfl
      | some r => simp [List.getElem?_append_left (s.held _ r hl)]

/-- `SqlKvCache`: every value that is read is a new copy. -/
def sqlValues (keys : Pickle κ β) (data : Pickle ν γ) (cachePeriod : Nat) :
    ValueCache (Dict β (γ × Nat)) κ ν where
  empty := ∅
  get s now key := (sqlKvCache keys data cachePeriod).read s now key []
  save s now key v := (sqlKvCache keys data cachePeriod).save s now key 0 v
  fresh t t' := t' - t ≤ cachePeriod
  fresh_of_le s t u _ htu h := by
    simp only [decide_eq_true_eq] at h ⊢
    omega
  get_empty _ _ := rfl
  get_save s t k v t' k' := by
    simp only [Backend.read, sqlKvCache]
    by_cases hk : k' = k
    · subst hk
      rw [AList.lookup_insert, if_pos rfl]
      by_cases hf : cachePeriod < t' - t
      · simp [hf, Nat.not_le.mpr hf]
      · simp [hf, Nat.not_lt.mp hf, data.loads_dumps]
    · rw [if_neg hk, AList.lookup_insert_ne fun e => hk (keys.dumps_inj.mp e)]

end Custodian.Cache

import Custodian.Lib.Dict

/-!
# The resource caches

`InMemoryCache` and `SqlKvCache` of `c7n/cache.py`, run by a program that creates
objects, saves them, gets them and changes objects in place.  The one cache keeps
the live objects, the other one pickled copies.
-/

namespace Custodian.Cache

open Py

/-- Writing values as bytes and reading them back. -/
structure Pickle (α β : Type) where
  dumps : α → β
  loads : β → α
  loads_dumps : ∀ v, loads (dumps v) = v

theorem Pickle.dumps_inj {α β : Type} (p : Pickle α β) {v v' : α} :
    p.dumps v = p.dumps v' ↔ v = v' := by
  constructor
  · intro h
    rw [← p.loads_dumps v, h, p.loads_dumps]
  · rintro rfl
    rfl

/-- The live objects are numbered in the order of their creation. -/
abbrev Ref := Nat

/-- What a program can do with a cache: `get` may create an object, and `save` is given
an object and its value. -/
structure Backend (σ κ ν : Type) where
  empty : σ
  get : σ → Nat → κ → List ν → Option Ref × List ν
  save : σ → Nat → κ → Ref → ν → σ

section Backends

variable {κ ν β γ : Type} [DecidableEq β] (keys : Pickle κ β) (data : Pickle ν γ)

/-- `InMemoryCache` -/
def inMemoryCache : Backend (Dict β Ref) κ ν where
  empty := ∅
  get s _ key heap := (s.lookup (keys.dumps key), heap)
  save s _ key r _ := s.insert (keys.dumps key) r

/-- `SqlKvCache`: an entry is as old as its last save, and not returned after the period. -/
def sqlKvCache (cachePeriod : Nat) : Backend (Dict β (γ × Nat)) κ ν where
  empty := ∅
  get s now key heap :=
    match s.lookup (keys.dumps key) with
    | none => (none, heap)
    | some (value, createDate) =>
      if cachePeriod < now - createDate then (none, heap)
      else (some heap.length, heap ++ [data.loads value])
  save s now key _ v := s.insert (keys.dumps key) (data.dumps v, now)

end Backends

/-! ## Programs -/

/-- The operations of a program; an object is known by the position of the operation
that created or returned it among such operations. -/
inductive Op (κ ν : Type) where
  | create (v : ν)
  | save (key : κ) (h : Nat)
  | get (key : κ)
  | change (h : Nat) (f : ν → ν)
  | wait (d : Nat)

/-- The state of a run.  `saved` and `gets` record, apart from the cache, the value last
saved under a key with its time and, for every `get`, what it returned and what was last
saved. -/
structure World (σ κ ν : Type) where
  cache : σ
  now : Nat
  heap : List ν
  objects : List (Option Ref)
  saved : κ → Option (ν × Nat)
  gets : List (Option ν × Option ν)

namespace World

variable {σ κ ν : Type}

/-- The object of an operation. -/
def object (w : World σ κ ν) (h : Nat) : Option Ref := w.objects.getD h none

def value (w : World σ κ ν) (r : Ref) : Option ν := w.heap[r]?

end World

variable {σ κ ν : Type} [DecidableEq κ] (b : Backend σ κ ν)

def start : World σ κ ν := ⟨b.empty, 0, [], [], fun _ => none, []⟩

def step (w : World σ κ ν) : Op κ ν → World σ κ ν
  | .create v => { w with heap := w.heap ++ [v], objects := w.objects ++ [some w.heap.length] }
  | .save key h =>
    match w.object h with
    | none => w
    | some r =>
      match w.value r with
      | none => w
      | some v => { w with
          cache := b.save w.cache w.now key r v
          saved := Function.update w.saved key (some (v, w.now)) }
  | .get key =>
    let p := b.get w.cache w.now key w.heap
    { w with
      heap := p.2
      objects := w.objects ++ [p.1]
      gets := w.gets ++ [(p.1.bind fun r => p.2[r]?, (w.saved key).map Prod.fst)] }
  | .change h f =>
    match w.object h with
    | none => w
    | some r => { w with heap := w.heap.modify r f }
  | .wait d => { w with now := w.now + d }

def run (w : World σ κ ν) (ops : List (Op κ ν)) : World σ κ ν :=
  ops.foldl (step b) w

/-- Every `get` returned the value last saved under its key. -/
def Faithful (w : World σ κ ν) : Prop := ∀ e ∈ w.gets, e.1 = e.2

/-- A condition holds at every step of a run. -/
def Along (P : World σ κ ν → Op κ ν → Prop) : World σ κ ν → List (Op κ ν) → Prop
  | _, [] => True
  | w, op :: ops => P w op ∧ Along P (step b w op) ops

variable {b}

theorem run_induction {P : World σ κ ν → Op κ ν → Prop} {I : World σ κ ν → Prop}
    (hstep : ∀ w op, I w → P w op → I (step b w op)) {w : World σ κ ν} {ops : List (Op κ ν)}
    (hw : I w) (h : Along b P w ops) : I (run b w ops) := by
  induction ops generalizing w with
  | nil => exact hw
  | cons op ops ih => exact ih (hstep w op hw h.1) h.2

variable {β γ : Type} [DecidableEq β] {keys : Pickle κ β} {data : Pickle ν γ} {cachePeriod : Nat}

/-! ## The sqlite cache -/

/-- A key is looked up within the period after its last save. -/
def Fresh (cachePeriod : Nat) (w : World σ κ ν) : Op κ ν → Prop
  | .get key => ∀ e ∈ w.saved key, w.now - e.2 ≤ cachePeriod
  | _ => True

/-- The rows are what was last saved, and `get` returned so. -/
def SqlAgrees (keys : Pickle κ β) (data : Pickle ν γ) (w : World (Dict β (γ × Nat)) κ ν) : Prop :=
  (∀ key, (w.cache.lookup (keys.dumps key)).map
    (fun e => (data.loads e.1, e.2)) = w.saved key) ∧ Faithful w

theorem sql_step (w : World (Dict β (γ × Nat)) κ ν) (op : Op κ ν)
    (hw : SqlAgrees keys data w) (hop : Fresh cachePeriod w op) :
    SqlAgrees keys data (step (sqlKvCache keys data cachePeriod) w op) := by
  obtain ⟨hrows, hgets⟩ := hw
  cases op with
  | create v => exact ⟨hrows, hgets⟩
  | save key h =>
    simp only [step]
    split
    · exact ⟨hrows, hgets⟩
    · split
      · exact ⟨hrows, hgets⟩
      · rename_i v hv
        refine ⟨fun key' => ?_, hgets⟩
        by_cases hk : key' = key
        · subst hk
          simp [sqlKvCache, AList.lookup_insert, data.loads_dumps]
        · have hd : keys.dumps key' ≠ keys.dumps key := fun e => hk (keys.dumps_inj.mp e)
          simp only [sqlKvCache, Function.update_of_ne hk, AList.lookup_insert_ne hd]
          exact hrows key'
  | get key =>
    refine ⟨hrows, fun e he => ?_⟩
    rcases List.mem_append.mp he with he | he
    · exact hgets e he
    · rw [List.mem_singleton.mp he]
      have hrow := hrows key
      simp only [sqlKvCache]
      cases hl : w.cache.lookup (keys.dumps key) with
      | none =>
        rw [hl] at hrow
        rw [← hrow]
        rfl
      | some e =>
        rw [hl] at hrow
        have hfresh : ¬ cachePeriod < w.now - e.2 := Nat.not_lt.mpr (hop _ hrow.symm)
        rw [← hrow]
        simp [hfresh]
  | change h f =>
    simp only [step]
    split <;> exact ⟨hrows, hgets⟩
  | wait d => exact ⟨hrows, hgets⟩

theorem sql_faithful {ops : List (Op κ ν)}
    (h : Along (sqlKvCache keys data cachePeriod) (Fresh cachePeriod)
      (start (sqlKvCache keys data cachePeriod)) ops) :
    Faithful (run (sqlKvCache keys data cachePeriod)
      (start (sqlKvCache keys data cachePeriod)) ops) :=
  (run_induction sql_step ⟨fun _ => rfl, fun _ he => by cases he⟩ h).2

/-! ## The in-memory cache -/

/-- An object that the cache holds is not changed. -/
def Untouched (w : World (Dict β Ref) κ ν) : Op κ ν → Prop
  | .change h f => ∀ k r v, w.cache.lookup k = some r → w.object h = some r →
      w.value r = some v → f v = v
  | _ => True

/-- The held objects have the values that were last saved, and `get` returned so. -/
structure MemoryAgrees (keys : Pickle κ β) (w : World (Dict β Ref) κ ν) : Prop where
  values : ∀ key, (w.cache.lookup (keys.dumps key)).bind w.value = (w.saved key).map Prod.fst
  held : ∀ k r, w.cache.lookup k = some r → r < w.heap.length
  gets : Faithful w

theorem memory_step (w : World (Dict β Ref) κ ν) (op : Op κ ν) (hw : MemoryAgrees keys w)
    (hop : Untouched w op) : MemoryAgrees keys (step (inMemoryCache keys) w op) := by
  obtain ⟨hvalues, hheld, hgets⟩ := hw
  cases op with
  | create v =>
    refine ⟨fun key => ?_, fun k r hr => ?_, hgets⟩
    · have hv := hvalues key
      cases hl : w.cache.lookup (keys.dumps key) with
      | none => simpa [step, hl] using hv
      | some r =>
        rw [hl] at hv
        simpa [step, hl, World.value, List.getElem?_append_left (hheld _ r hl)] using hv
    · exact Nat.lt_of_lt_of_le (hheld k r hr) (by simp [step])
  | save key h =>
    simp only [step]
    split
    · exact ⟨hvalues, hheld, hgets⟩
    · split
      · exact ⟨hvalues, hheld, hgets⟩
      · rename_i r _ v hv
        refine ⟨fun key' => ?_, fun k r' hr' => ?_, hgets⟩
        · by_cases hk : key' = key
          · subst hk
            simpa [inMemoryCache, AList.lookup_insert, World.value] using hv
          · have hd : keys.dumps key' ≠ keys.dumps key := fun e => hk (keys.dumps_inj.mp e)
            simp only [inMemoryCache, Function.update_of_ne hk, AList.lookup_insert_ne hd]
            exact hvalues key'
        · simp only [inMemoryCache] at hr'
          by_cases hk : k = keys.dumps key
          · subst hk
            rw [AList.lookup_insert] at hr'
            cases hr'
            exact (List.getElem?_eq_some_iff.mp hv).1
          · rw [AList.lookup_insert_ne hk] at hr'
            exact hheld k r' hr'
  | get key =>
    refine ⟨hvalues, hheld, fun e he => ?_⟩
    rcases List.mem_append.mp he with he | he
    · exact hgets e he
    · rw [List.mem_singleton.mp he]
      exact hvalues key
  | change h f =>
    simp only [step]
    split
    · exact ⟨hvalues, hheld, hgets⟩
    · rename_i r hr
      refine ⟨fun key => ?_, fun k r' hr' => ?_, hgets⟩
      · have hv := hvalues key
        cases hl : w.cache.lookup (keys.dumps key) with
        | none =>
          rw [hl] at hv
          exact hv
        | some r' =>
          rw [hl] at hv
          rw [← hv]
          simp only [Option.bind_some, World.value, List.getElem?_modify]
          by_cases hrr : r = r'
          · subst hrr
            cases hv : w.heap[r]? with
            | none => rfl
            | some v => simp [hop _ r v hl hr hv]
          · simp [hrr]
      · rw [List.length_modify]
        exact hheld k r' hr'
  | wait d => exact ⟨hvalues, hheld, hgets⟩

theorem memory_faithful {ops : List (Op κ ν)}
    (h : Along (inMemoryCache keys) Untouched (start (inMemoryCache keys)) ops) :
    Faithful (run (inMemoryCache keys) (start (inMemoryCache keys)) ops) := by
  have hstart : MemoryAgrees keys (start (inMemoryCache keys : Backend _ κ ν)) := by
    refine ⟨fun key => rfl, fun k r hr => ?_, fun e he => by cases he⟩
    cases hr
  exact (run_induction memory_step hstart h).gets

end Custodian.Cache

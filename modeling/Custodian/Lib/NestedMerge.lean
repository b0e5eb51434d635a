import Custodian.Lib.Nested

/-!
# Merging dictionaries key by key

A loop over the entries of one dictionary changes the values that another one has under their keys.
A value inside a dictionary is found along its path of keys.
-/

namespace Py

variable {α β ε : Type}

/-! ## Values along a path -/

theorem Nested.find_mapLeaves (f : α → β) (path : List Text) (v : Nested α) :
    (v.mapLeaves f).find path = (v.find path).map (·.mapLeaves f) := by
  induction path generalizing v with
  | nil => simp
  | cons k path ih =>
    cases v with
    | leaf a => rfl
    | dict es =>
      rw [Nested.mapLeaves, Nested.find, Nested.find, Entries.lookup_mapLeaves]
      cases es.lookup k with
      | none => rfl
      | some u => exact ih u

/-- Equal values have equal leaves along every path. -/
theorem Nested.eq_find {r : α → α → Bool} {v w : Nested α} (h : v.eq r w = true)
    (hv : v.distinct = true) {path : List Text} {x y : α} (hx : v.find path = some (.leaf x))
    (hy : w.find path = some (.leaf y)) : r x y = true := by
  induction path generalizing v w with
  | nil =>
    obtain rfl : v = .leaf x := by simpa using hx
    obtain rfl : w = .leaf y := by simpa using hy
    exact h
  | cons k path ih =>
    cases v with
    | leaf a => cases hx
    | dict es =>
      cases w with
      | leaf a => cases hy
      | dict fs =>
        obtain ⟨u, hu, hx⟩ := find_cons_eq_some.mp hx
        obtain ⟨t, ht, hy⟩ := find_cons_eq_some.mp hy
        rw [Nested.eq, Bool.and_eq_true, Entries.allEq_iff hv] at h
        obtain ⟨t', ht', hut⟩ := h.2 k u hu
        rw [ht, Option.some.injEq] at ht'
        subst ht'
        exact ih hut (Entries.distinct_of_lookup hv hu) hx hy

/-! ## The loop -/

namespace Entries

/-- `for k, v in es.items(): d[k] = f(k, d.get(k), v)` -/
def mergeFrom (f : Text → Option (Nested α) → Nested β → Except ε (Nested α)) (d : Entries α) :
    Entries β → Except ε (Entries α)
  | .nil => .ok d
  | .cons k v es => do
    let w ← f k (d.lookup k) v
    (d.set k w).mergeFrom f es

variable {f : Text → Option (Nested α) → Nested β → Except ε (Nested α)} {d m : Entries α}
  {es : Entries β}

theorem mergeFrom_cons (k : Text) (v : Nested β) : d.mergeFrom f (.cons k v es) =
    (f k (d.lookup k) v).bind fun w => (d.set k w).mergeFrom f es := rfl

theorem set_of_lookup {k : Text} {v : Nested α} {d : Entries α} (h : d.lookup k = some v) :
    d.set k v = d := by
  induction d using Entries.induction with
  | nil => cases h
  | cons k' w d ih =>
    rw [lookup] at h
    rw [set]
    split at h
    · next hk =>
      rw [if_pos hk, Option.some.inj h]
    · next hk => rw [if_neg hk, ih h]

theorem notMem_keys_of_lookup {k k' : Text} {v : Nested β} (h : k ∉ es.keys)
    (hk : es.lookup k' = some v) : k' ≠ k := by
  rintro rfl
  exact h (mem_keys.mpr ⟨v, hk⟩)

theorem mergeFrom_ok (hes : es.distinct = true) (h : d.mergeFrom f es = .ok m) :
    (∀ k, es.lookup k = none → m.lookup k = d.lookup k) ∧
      ∀ k v, es.lookup k = some v → ∃ w, f k (d.lookup k) v = .ok w ∧ m.lookup k = some w := by
  induction es using Entries.induction generalizing d with
  | nil =>
    cases h
    exact ⟨fun _ _ => rfl, fun k v hv => by cases hv⟩
  | cons k v es ih =>
    rw [distinct_cons] at hes
    rw [mergeFrom_cons] at h
    cases hw : f k (d.lookup k) v with
    | error e =>
      rw [hw] at h
      cases h
    | ok w =>
      rw [hw] at h
      obtain ⟨hkeep, hmerged⟩ := ih hes.2 h
      have hk : m.lookup k = some w := by
        rw [hkeep k (lookup_eq_none.mpr hes.1.1), lookup_set, if_pos rfl]
      constructor
      · intro k' hk'
        rw [lookup] at hk'
        split at hk'
        · cases hk'
        · next hne => rw [hkeep k' hk', lookup_set, if_neg hne]
      · intro k' v' hv'
        rcases (lookup_cons_eq_some hes.1.1).mp hv' with ⟨rfl, rfl⟩ | hv'
        · exact ⟨w, hw, hk⟩
        · have hother := hmerged k' v' hv'
          rwa [lookup_set, if_neg (notMem_keys_of_lookup hes.1.1 hv')] at hother

theorem mergeFrom_error (hes : es.distinct = true) {k : Text} {v : Nested β}
    (hv : es.lookup k = some v) (h : ∃ e, f k (d.lookup k) v = .error e) :
    ∃ e, d.mergeFrom f es = .error e := by
  cases hm : d.mergeFrom f es with
  | error e => exact ⟨e, rfl⟩
  | ok m =>
    obtain ⟨w, hw, -⟩ := (mergeFrom_ok hes hm).2 k v hv
    obtain ⟨e, he⟩ := h
    rw [he] at hw
    cases hw

theorem mergeFrom_self (hes : es.distinct = true)
    (h : ∀ k v, es.lookup k = some v → ∃ w, m.lookup k = some w ∧ f k (some w) v = .ok w) :
    m.mergeFrom f es = .ok m := by
  induction es using Entries.induction with
  | nil => rfl
  | cons k v es ih =>
    rw [distinct_cons] at hes
    simp only [lookup_cons_eq_some hes.1.1] at h
    obtain ⟨w, hk, hw⟩ := h k v (Or.inl ⟨rfl, rfl⟩)
    rw [mergeFrom_cons, hk, hw]
    change (m.set k w).mergeFrom f es = .ok m
    rw [set_of_lookup hk]
    exact ih hes.2 fun k' v' hv' => h k' v' (Or.inr hv')

end Entries

end Py

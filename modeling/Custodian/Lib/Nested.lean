import Custodian.Lib.Except
import Custodian.Lib.Text
import Mathlib.Data.List.Perm.Subperm

/-!
# Nested dictionaries

Values that are leaves or dictionaries of such values.  One includes another when
every entry of the one is in the other, where leaves are compared by a relation.
-/

namespace Py

mutual

/-- A leaf or a dictionary. -/
inductive Nested (α : Type) where
  | leaf (a : α)
  | dict (es : Entries α)

/-- The entries of a dictionary in their order. -/
inductive Entries (α : Type) where
  | nil
  | cons (key : Text) (value : Nested α) (rest : Entries α)

end

variable {α β γ : Type}

theorem Nested.induction {P : Nested α → Prop} {Q : Entries α → Prop} (leaf : ∀ a, P (.leaf a))
    (dict : ∀ es, Q es → P (.dict es)) (nil : Q .nil)
    (cons : ∀ k v es, P v → Q es → Q (.cons k v es)) : (∀ v, P v) ∧ ∀ es, Q es :=
  ⟨fun v => @Nested.rec α P Q leaf dict nil cons v, fun es => @Entries.rec α P Q leaf dict nil cons es⟩

namespace Entries

def lookup (k : Text) : Entries α → Option (Nested α)
  | .nil => none
  | .cons k' v es => if k = k' then some v else es.lookup k

def keys : Entries α → List Text
  | .nil => []
  | .cons k _ es => k :: es.keys

/-- `d[k] = v` -/
def set (k : Text) (v : Nested α) : Entries α → Entries α
  | .nil => .cons k v .nil
  | .cons k' w es => if k = k' then .cons k' v es else .cons k' w (es.set k v)

/-- The dictionary without a key. -/
def erase (k : Text) : Entries α → Entries α
  | .nil => .nil
  | .cons k' v es => if k = k' then es else .cons k' v (es.erase k)

/-- What holds of the empty dictionary and is kept by an entry holds of all. -/
@[elab_as_elim]
theorem induction {P : Entries α → Prop} (nil : P .nil)
    (cons : ∀ k v es, P es → P (.cons k v es)) : ∀ es, P es
  | .nil => nil
  | .cons k v es => cons k v es (induction nil cons es)

theorem lookup_eq_none {k : Text} {es : Entries α} : es.lookup k = none ↔ k ∉ es.keys := by
  induction es using Entries.induction with
  | nil => simp [lookup, keys]
  | cons k' v es ih =>
    by_cases hk : k = k'
    · simp [lookup, keys, hk]
    · simp [lookup, keys, hk, ih]

theorem mem_keys {k : Text} {es : Entries α} : k ∈ es.keys ↔ ∃ v, es.lookup k = some v := by
  rw [← Option.isSome_iff_exists, ← Option.ne_none_iff_isSome, ne_eq, lookup_eq_none, not_not]

theorem lookup_set (k k' : Text) (v : Nested α) (es : Entries α) :
    (es.set k v).lookup k' = if k' = k then some v else es.lookup k' := by
  induction es using Entries.induction with
  | nil => simp [set, lookup]
  | cons l w es ih =>
    by_cases hl : k = l
    · by_cases hk : k' = l <;> simp [set, lookup, hl, hk]
    · by_cases hk : k' = l
      · have hne : k' ≠ k := by rw [hk]; exact Ne.symm hl
        simp [set, lookup, hl, hk, Ne.symm hl]
      · simp [set, lookup, hl, hk, ih]

theorem mem_keys_set {k k' : Text} {v : Nested α} {es : Entries α} :
    k' ∈ (es.set k v).keys ↔ k' = k ∨ k' ∈ es.keys := by
  rw [mem_keys, mem_keys, lookup_set]
  by_cases hk : k' = k <;> simp [hk]

end Entries

/-! ## Distinct keys -/

mutual

/-- All dictionaries in a value have distinct keys. -/
def Nested.distinct : Nested α → Bool
  | .leaf _ => true
  | .dict es => es.distinct

def Entries.distinct : Entries α → Bool
  | .nil => true
  | .cons k v es => !es.keys.contains k && v.distinct && es.distinct

end

theorem Entries.distinct_cons {k : Text} {v : Nested α} {es : Entries α} :
    (Entries.cons k v es).distinct = true ↔
      (k ∉ es.keys ∧ v.distinct = true) ∧ es.distinct = true := by
  simp only [distinct, Bool.and_eq_true, Bool.not_eq_true', List.contains_eq_mem,
    decide_eq_false_iff_not]

theorem Entries.lookup_cons_eq_some {k k' : Text} {v v' : Nested α} {es : Entries α}
    (h : k ∉ es.keys) :
    (Entries.cons k v es).lookup k' = some v' ↔ (k' = k ∧ v = v') ∨ es.lookup k' = some v' := by
  rw [lookup]
  by_cases hk : k' = k
  · subst hk
    simp [lookup_eq_none.mpr h]
  · simp [hk]

theorem Entries.nodup_keys {es : Entries α} (h : es.distinct = true) : es.keys.Nodup := by
  induction es using Entries.induction with
  | nil => exact List.nodup_nil
  | cons k v es ih =>
    rw [distinct_cons] at h
    exact List.nodup_cons.mpr ⟨h.1.1, ih h.2⟩

theorem Entries.distinct_of_lookup {es : Entries α} (h : es.distinct = true) {k : Text}
    {v : Nested α} (hv : es.lookup k = some v) : v.distinct = true := by
  induction es using Entries.induction with
  | nil => cases hv
  | cons k' w es ih =>
    rw [distinct_cons] at h
    rw [lookup] at hv
    split at hv
    · cases hv
      exact h.1.2
    · exact ih h.2 hv

/-- Every entry has a property. -/
def Entries.Forall (p : Text → Nested α → Prop) : Entries α → Prop
  | .nil => True
  | .cons k v es => p k v ∧ es.Forall p

theorem Entries.Forall.lookup {p : Text → Nested α → Prop} {es : Entries α} (h : es.Forall p)
    {k : Text} {v : Nested α} (hv : es.lookup k = some v) : p k v := by
  induction es using Entries.induction with
  | nil => cases hv
  | cons k' w es ih =>
    rw [Entries.lookup] at hv
    split at hv
    · rename_i hk
      cases hv
      exact hk ▸ h.1
    · exact ih h.2 hv

theorem Entries.Forall.erase {p : Text → Nested α → Prop} {es : Entries α} (h : es.Forall p)
    (k : Text) : (es.erase k).Forall p := by
  induction es using Entries.induction with
  | nil => trivial
  | cons k' w es ih =>
    rw [Entries.erase]
    split
    · exact h.2
    · exact ⟨h.1, ih h.2⟩

theorem Entries.lookup_erase {es : Entries α} (h : es.distinct = true) (k k' : Text) :
    (es.erase k).lookup k' = if k' = k then none else es.lookup k' := by
  induction es using Entries.induction with
  | nil => simp [erase, Entries.lookup]
  | cons l w es ih =>
    rw [distinct_cons] at h
    rw [erase]
    by_cases hl : k = l
    · rw [if_pos hl]
      by_cases hk : k' = k
      · rw [if_pos hk, hk, hl, lookup_eq_none.mpr h.1.1]
      · rw [if_neg hk, Entries.lookup, if_neg (hl ▸ hk)]
    · rw [if_neg hl, Entries.lookup, Entries.lookup, ih h.2]
      by_cases hk : k' = l
      · rw [if_pos hk, if_neg (by rw [hk]; exact Ne.symm hl), if_pos hk]
      · rw [if_neg hk, if_neg hk]

theorem Entries.keys_erase_sublist (k : Text) (es : Entries α) :
    (es.erase k).keys.Sublist es.keys := by
  induction es using Entries.induction with
  | nil => exact List.Sublist.refl _
  | cons k' w es ih =>
    rw [erase]
    split
    · exact List.sublist_cons_self ..
    · exact ih.cons_cons _

theorem Entries.distinct_erase {es : Entries α} (h : es.distinct = true) (k : Text) :
    (es.erase k).distinct = true := by
  induction es using Entries.induction with
  | nil => rfl
  | cons k' w es ih =>
    rw [distinct_cons] at h
    rw [erase]
    split
    · exact h.2
    · rw [distinct_cons]
      exact ⟨⟨fun hk => h.1.1 ((keys_erase_sublist k es).subset hk), h.1.2⟩, ih h.2⟩

/-! ## Values along a path -/

/-- The value that is found along a path of keys. -/
def Nested.find : List Text → Nested α → Option (Nested α)
  | [], v => some v
  | k :: p, .dict es => (es.lookup k).bind (find p)
  | _ :: _, .leaf _ => none

@[simp] theorem Nested.find_nil (v : Nested α) : v.find [] = some v := rfl

theorem Nested.find_leaf_eq_some {path : List Text} {a : α} {v : Nested α} :
    (Nested.leaf a).find path = some v ↔ path = [] ∧ v = .leaf a := by
  cases path with
  | nil => simp [eq_comm]
  | cons k path => simp [Nested.find]

theorem Nested.find_cons_eq_some {k : Text} {path : List Text} {es : Entries α} {v : Nested α} :
    (Nested.dict es).find (k :: path) = some v ↔ ∃ u, es.lookup k = some u ∧ u.find path = some v :=
  Option.bind_eq_some_iff

theorem Nested.find_append (p q : List Text) (t : Nested α) :
    t.find (p ++ q) = (t.find p).bind fun t => t.find q := by
  induction p generalizing t with
  | nil => rfl
  | cons k p ih =>
    cases t with
    | leaf a => rfl
    | dict es =>
      rw [List.cons_append, find, find, Option.bind_assoc]
      exact congrArg _ (funext ih)

theorem Nested.distinct_of_find {t : Nested α} (h : t.distinct = true) {p : List Text}
    {v : Nested α} (hv : t.find p = some v) : v.distinct = true := by
  induction p generalizing t with
  | nil =>
    cases hv
    exact h
  | cons k p ih =>
    cases t with
    | leaf a => cases hv
    | dict es =>
      obtain ⟨w, hw, hv⟩ := find_cons_eq_some.mp hv
      exact ih (Entries.distinct_of_lookup h hw) hv

/-- What holds of a dictionary when it holds of its values holds of every value. -/
@[elab_as_elim]
theorem Nested.lookup_induction {P : Nested α → Prop} (leaf : ∀ a, P (.leaf a))
    (dict : ∀ es : Entries α, (∀ k v, es.lookup k = some v → P v) → P (.dict es)) (v : Nested α) :
    P v := by
  refine (Nested.induction (P := P) (Q := fun es => ∀ k v, es.lookup k = some v → P v)
    leaf ?_ ?_ ?_).1 v
  · exact fun es h => dict es h
  · intro k v hv
    cases hv
  · intro k v es hv ih k' v' h
    rw [Entries.lookup] at h
    split at h
    · cases h
      exact hv
    · exact ih k' v' h

/-! ## Inclusion -/

section Inclusion

variable (r : β → α → Bool)

mutual

/-- Every entry of the first value is in the second one. -/
def Nested.includedIn : Nested β → Nested α → Bool
  | .leaf b, .leaf a => r b a
  | .dict es, .dict fs => es.allIn fs
  | _, _ => false

def Entries.allIn : Entries β → Entries α → Bool
  | .nil, _ => true
  | .cons k v es, fs => (fs.lookup k).any (v.includedIn ·) && es.allIn fs

end

variable {r}

/-- A test of all entries, by look-ups. -/
theorem Entries.forall_iff {f : Text → Nested β → Nested α → Bool} {g : Entries β → Entries α → Bool}
    (nil : ∀ fs, g .nil fs = true)
    (cons : ∀ k v es fs, g (.cons k v es) fs = ((fs.lookup k).any (f k v) && g es fs))
    {es : Entries β} (h : es.distinct = true) {fs : Entries α} :
    g es fs = true ↔ ∀ k v, es.lookup k = some v → ∃ w, fs.lookup k = some w ∧ f k v w = true := by
  induction es using Entries.induction with
  | nil => simp [nil, lookup]
  | cons k v es ih =>
    rw [distinct_cons] at h
    rw [cons, Bool.and_eq_true, ih h.2, Option.any_eq_true]
    simp only [lookup_cons_eq_some h.1.1]
    constructor
    · rintro ⟨hfirst, hrest⟩ k' v' (⟨rfl, rfl⟩ | hv')
      · exact hfirst
      · exact hrest k' v' hv'
    · intro hall
      exact ⟨hall k v (Or.inl ⟨rfl, rfl⟩), fun k' v' hv' => hall k' v' (Or.inr hv')⟩

/-- A test of some entry, by look-ups. -/
theorem Entries.exists_iff {f : Text → Nested β → Nested α → Bool} {g : Entries β → Entries α → Bool}
    (nil : ∀ fs, g .nil fs = false)
    (cons : ∀ k v es fs, g (.cons k v es) fs = ((fs.lookup k).any (f k v) || g es fs))
    {es : Entries β} (h : es.distinct = true) {fs : Entries α} :
    g es fs = true ↔
      ∃ k v w, es.lookup k = some v ∧ fs.lookup k = some w ∧ f k v w = true := by
  induction es using Entries.induction with
  | nil => simp [nil, lookup]
  | cons k v es ih =>
    rw [distinct_cons] at h
    rw [cons, Bool.or_eq_true, ih h.2, Option.any_eq_true]
    simp only [lookup_cons_eq_some h.1.1]
    constructor
    · rintro (⟨w, hw, hvw⟩ | ⟨k', v', w, hv', hw, hvw⟩)
      · exact ⟨k, v, w, Or.inl ⟨rfl, rfl⟩, hw, hvw⟩
      · exact ⟨k', v', w, Or.inr hv', hw, hvw⟩
    · rintro ⟨k', v', w, ⟨rfl, rfl⟩ | hv', hw, hvw⟩
      · exact Or.inl ⟨w, hw, hvw⟩
      · exact Or.inr ⟨k', v', w, hv', hw, hvw⟩

theorem Entries.allIn_iff {es : Entries β} (h : es.distinct = true) {fs : Entries α} :
    es.allIn r fs = true ↔
      ∀ k v, es.lookup k = some v → ∃ w, fs.lookup k = some w ∧ v.includedIn r w = true :=
  Entries.forall_iff (f := fun _ => Nested.includedIn r) (fun _ => by rw [allIn])
    (fun _ _ _ _ => by rw [allIn]) h

end Inclusion

/-- Inclusion is transitive. -/
theorem Nested.includedIn_trans {r : γ → β → Bool} {s : β → α → Bool} {t : γ → α → Bool}
    (h : ∀ c b a, r c b = true → s b a = true → t c a = true) {u : Nested γ} {v : Nested β}
    {w : Nested α} (hu : u.distinct = true) (hv : v.distinct = true)
    (huv : u.includedIn r v = true) (hvw : v.includedIn s w = true) :
    u.includedIn t w = true := by
  induction u using Nested.lookup_induction generalizing v w with
  | leaf c =>
    cases v with
    | leaf b =>
      cases w with
      | leaf a => exact h c b a huv hvw
      | dict fs => cases hvw
    | dict es => cases huv
  | dict es ih =>
    cases v with
    | leaf b => cases huv
    | dict fs =>
      cases w with
      | leaf a => cases hvw
      | dict gs =>
        simp only [Nested.includedIn] at huv hvw ⊢
        rw [Entries.allIn_iff hu] at huv ⊢
        rw [Entries.allIn_iff hv] at hvw
        intro k x hx
        obtain ⟨y, hy, hxy⟩ := huv k x hx
        obtain ⟨z, hz, hyz⟩ := hvw k y hy
        exact ⟨z, hz, ih k x hx (Entries.distinct_of_lookup hu hx)
          (Entries.distinct_of_lookup hv hy) hxy hyz⟩

/-- Inclusion by a relation is inclusion by a weaker one. -/
theorem Nested.includedIn_mono {r s : β → α → Bool} (h : ∀ b a, r b a = true → s b a = true)
    {v : Nested β} {w : Nested α} (hv : v.distinct = true) (hvw : v.includedIn r w = true) :
    v.includedIn s w = true := by
  induction v using Nested.lookup_induction generalizing w with
  | leaf b =>
    cases w with
    | leaf a => exact h b a hvw
    | dict fs => cases hvw
  | dict es ih =>
    cases w with
    | leaf a => cases hvw
    | dict fs =>
      simp only [Nested.includedIn] at hvw ⊢
      rw [Entries.allIn_iff hv] at hvw ⊢
      intro k x hx
      obtain ⟨y, hy, hxy⟩ := hvw k x hx
      exact ⟨y, hy, ih k x hx (Entries.distinct_of_lookup hv hx) hxy⟩

/-! ## Equality -/

section Equality

variable (r : α → α → Bool)

mutual

/-- `==`, where leaves are compared with `r` -/
def Nested.eq : Nested α → Nested α → Bool
  | .leaf a, .leaf b => r a b
  | .dict es, .dict fs => es.keys.length == fs.keys.length && es.allEq fs
  | _, _ => false

def Entries.allEq : Entries α → Entries α → Bool
  | .nil, _ => true
  | .cons k v es, fs => (fs.lookup k).any (v.eq ·) && es.allEq fs

end

end Equality

theorem Entries.allEq_iff {r : α → α → Bool} {es fs : Entries α} (h : es.distinct = true) :
    es.allEq r fs = true ↔
      ∀ k v, es.lookup k = some v → ∃ w, fs.lookup k = some w ∧ v.eq r w = true :=
  Entries.forall_iff (f := fun _ => Nested.eq r) (fun _ => by rw [allEq]) (fun _ _ _ _ => by rw [allEq]) h

theorem Nested.eq_dict_iff {r : α → α → Bool} {es fs : Entries α} (hes : es.distinct = true)
    (hfs : fs.distinct = true) : (Nested.dict es).eq r (.dict fs) = true ↔
      es.keys ⊆ fs.keys ∧ fs.keys ⊆ es.keys ∧
        ∀ k v w, es.lookup k = some v → fs.lookup k = some w → v.eq r w = true := by
  rw [Nested.eq, Bool.and_eq_true, beq_iff_eq, Entries.allEq_iff hes]
  have hnodup := Entries.nodup_keys hes
  constructor
  · rintro ⟨hlen, heq⟩
    have hsub : es.keys ⊆ fs.keys := fun k hk => by
      obtain ⟨v, hv⟩ := Entries.mem_keys.mp hk
      obtain ⟨w, hw, -⟩ := heq k v hv
      exact Entries.mem_keys.mpr ⟨w, hw⟩
    have hperm : es.keys.Perm fs.keys :=
      (List.subperm_of_subset hnodup hsub).perm_of_length_le (Nat.le_of_eq hlen.symm)
    refine ⟨hsub, hperm.symm.subset, fun k v w hv hw => ?_⟩
    obtain ⟨w', hw', hvw⟩ := heq k v hv
    rw [hw, Option.some.injEq] at hw'
    exact hw' ▸ hvw
  · rintro ⟨hsub, hsup, heq⟩
    refine ⟨Nat.le_antisymm (List.subperm_of_subset hnodup hsub).length_le
      (List.subperm_of_subset (Entries.nodup_keys hfs) hsup).length_le, fun k v hv => ?_⟩
    obtain ⟨w, hw⟩ := Entries.mem_keys.mp (hsub (Entries.mem_keys.mpr ⟨v, hv⟩))
    exact ⟨w, hw, heq k v w hv hw⟩

theorem Entries.keys_subset_of_allIn {r : β → α → Bool} {es : Entries β} {fs : Entries α}
    (h : ∀ k v, es.lookup k = some v → ∃ w, fs.lookup k = some w ∧ v.includedIn r w = true) :
    es.keys ⊆ fs.keys := fun k hk => by
  obtain ⟨v, hv⟩ := Entries.mem_keys.mp hk
  obtain ⟨w, hw, -⟩ := h k v hv
  exact Entries.mem_keys.mpr ⟨w, hw⟩

/-- Values are equal when they include each other. -/
theorem Nested.eq_iff_includedIn {r s : α → α → Bool}
    (h : ∀ a b, r a b = true ↔ s a b = true ∧ s b a = true) {v w : Nested α}
    (hv : v.distinct = true) (hw : w.distinct = true) :
    v.eq r w = true ↔ v.includedIn s w = true ∧ w.includedIn s v = true := by
  induction v using Nested.lookup_induction generalizing w with
  | leaf a =>
    cases w with
    | leaf b => exact h a b
    | dict fs => simp [Nested.eq, Nested.includedIn]
  | dict es ih =>
    cases w with
    | leaf b => simp [Nested.eq, Nested.includedIn]
    | dict fs =>
      have hboth : ∀ k x y, es.lookup k = some x → fs.lookup k = some y →
          (x.eq r y = true ↔ x.includedIn s y = true ∧ y.includedIn s x = true) :=
        fun k x y hx hy =>
          ih k x hx (Entries.distinct_of_lookup hv hx) (Entries.distinct_of_lookup hw hy)
      rw [Nested.eq_dict_iff hv hw, Nested.includedIn, Nested.includedIn, Entries.allIn_iff hv,
        Entries.allIn_iff hw]
      constructor
      · rintro ⟨hsub, hsup, heq⟩
        constructor
        · intro k x hx
          obtain ⟨y, hy⟩ := Entries.mem_keys.mp (hsub (Entries.mem_keys.mpr ⟨x, hx⟩))
          exact ⟨y, hy, ((hboth k x y hx hy).mp (heq k x y hx hy)).1⟩
        · intro k y hy
          obtain ⟨x, hx⟩ := Entries.mem_keys.mp (hsup (Entries.mem_keys.mpr ⟨y, hy⟩))
          exact ⟨x, hx, ((hboth k x y hx hy).mp (heq k x y hx hy)).2⟩
      · rintro ⟨hle, hge⟩
        refine ⟨Entries.keys_subset_of_allIn hle, Entries.keys_subset_of_allIn hge, ?_⟩
        intro k x y hx hy
        obtain ⟨y', hy', hxy⟩ := hle k x hx
        obtain ⟨x', hx', hyx⟩ := hge k y hy
        rw [hy, Option.some.injEq] at hy'
        rw [hx, Option.some.injEq] at hx'
        subst hy' hx'
        exact (hboth k x y hx hy).mpr ⟨hxy, hyx⟩

theorem Nested.eq_symm {r : α → α → Bool} (hr : ∀ a b, r a b = r b a) {v w : Nested α}
    (hv : v.distinct = true) (hw : w.distinct = true) : v.eq r w = w.eq r v := by
  have hself : ∀ a b, r a b = true ↔ r a b = true ∧ r b a = true := fun a b => by
    rw [hr b a, and_self]
  rw [Bool.eq_iff_iff, Nested.eq_iff_includedIn hself hv hw, Nested.eq_iff_includedIn hself hw hv,
    and_comm]

theorem Nested.eq_mono {r s : α → α → Bool} (h : ∀ a b, r a b = true → s a b = true)
    {v w : Nested α} (hv : v.distinct = true) (hvw : v.eq r w = true) : v.eq s w = true := by
  induction v using Nested.lookup_induction generalizing w with
  | leaf a =>
    cases w with
    | leaf b => exact h a b hvw
    | dict fs => cases hvw
  | dict es ih =>
    cases w with
    | leaf b => cases hvw
    | dict fs =>
      rw [Nested.eq, Bool.and_eq_true, Entries.allEq_iff hv] at hvw ⊢
      refine ⟨hvw.1, fun k x hx => ?_⟩
      obtain ⟨y, hy, hxy⟩ := hvw.2 k x hx
      exact ⟨y, hy, ih k x hx (Entries.distinct_of_lookup hv hx) hxy⟩

/-! ## Changing the leaves -/

mutual

def Nested.mapLeaves (f : α → β) : Nested α → Nested β
  | .leaf a => .leaf (f a)
  | .dict es => .dict (es.mapLeaves f)

def Entries.mapLeaves (f : α → β) : Entries α → Entries β
  | .nil => .nil
  | .cons k v es => .cons k (v.mapLeaves f) (es.mapLeaves f)

end

@[simp] theorem Entries.keys_mapLeaves (f : α → β) (es : Entries α) :
    (es.mapLeaves f).keys = es.keys := by
  induction es using Entries.induction with
  | nil => rfl
  | cons k v es ih => simp [mapLeaves, keys, ih]

@[simp] theorem Entries.lookup_mapLeaves (f : α → β) (es : Entries α) (k : Text) :
    (es.mapLeaves f).lookup k = (es.lookup k).map (·.mapLeaves f) := by
  induction es using Entries.induction with
  | nil => rfl
  | cons k' v es ih =>
    rw [mapLeaves, lookup, lookup, ih]
    split <;> rfl

theorem Entries.mapLeaves_set (f : α → β) (k : Text) (v : Nested α) (es : Entries α) :
    (es.set k v).mapLeaves f = (es.mapLeaves f).set k (v.mapLeaves f) := by
  induction es using Entries.induction with
  | nil => rfl
  | cons k' w es ih =>
    rw [Entries.set, mapLeaves, Entries.set]
    split
    · rw [mapLeaves]
    · rw [mapLeaves, ih]

theorem Nested.mapLeaves_mapLeaves (g : β → γ) (f : α → β) (v : Nested α) :
    (v.mapLeaves f).mapLeaves g = v.mapLeaves (g ∘ f) := by
  refine (Nested.induction (P := fun v => (v.mapLeaves f).mapLeaves g = v.mapLeaves (g ∘ f))
    (Q := fun es => (es.mapLeaves f).mapLeaves g = es.mapLeaves (g ∘ f)) ?_ ?_ rfl ?_).1 v
  · exact fun a => rfl
  · exact fun es ih => congrArg Nested.dict ih
  · intro k v es hv hes
    rw [Entries.mapLeaves, Entries.mapLeaves, Entries.mapLeaves, hv, hes]

@[simp] theorem Nested.distinct_mapLeaves (f : α → β) (v : Nested α) :
    (v.mapLeaves f).distinct = v.distinct := by
  refine (Nested.induction (P := fun v => (v.mapLeaves f).distinct = v.distinct)
    (Q := fun es => (es.mapLeaves f).distinct = es.distinct) ?_ ?_ ?_ ?_).1 v
  · exact fun a => rfl
  · exact fun es ih => ih
  · rfl
  · intro k v es hv hes
    rw [Entries.mapLeaves, Entries.distinct, Entries.distinct, Entries.keys_mapLeaves, hv, hes]

/-- Changed leaves are compared as they were before. -/
theorem Nested.eq_mapLeaves (r : β → β → Bool) (f : α → β) (v w : Nested α) :
    (v.mapLeaves f).eq r (w.mapLeaves f) = v.eq (fun a b => r (f a) (f b)) w := by
  refine (Nested.induction
    (P := fun v => ∀ w : Nested α,
      (v.mapLeaves f).eq r (w.mapLeaves f) = v.eq (fun a b => r (f a) (f b)) w)
    (Q := fun es => ∀ fs : Entries α,
      (es.mapLeaves f).allEq r (fs.mapLeaves f) = es.allEq (fun a b => r (f a) (f b)) fs)
    ?_ ?_ ?_ ?_).1 v w
  · intro a w
    cases w <;> rfl
  · intro es ih w
    cases w with
    | leaf b => rfl
    | dict fs =>
      simp only [Nested.mapLeaves, Nested.eq, Entries.keys_mapLeaves, ih]
  · intro fs
    rfl
  · intro k v es hv hes fs
    simp only [Entries.mapLeaves, Entries.allEq, Entries.lookup_mapLeaves, Option.any_map, hes]
    congr 1
    exact congrArg (Option.any · _) (funext hv)

theorem Nested.includedIn_mapLeaves {δ : Type} (r : δ → γ → Bool) (f : β → δ) (g : α → γ)
    (v : Nested β) (w : Nested α) :
    (v.mapLeaves f).includedIn r (w.mapLeaves g) = v.includedIn (fun b a => r (f b) (g a)) w := by
  refine (Nested.induction
    (P := fun v => ∀ w : Nested α,
      (v.mapLeaves f).includedIn r (w.mapLeaves g) = v.includedIn (fun b a => r (f b) (g a)) w)
    (Q := fun es => ∀ fs : Entries α,
      (es.mapLeaves f).allIn r (fs.mapLeaves g) = es.allIn (fun b a => r (f b) (g a)) fs)
    ?_ ?_ ?_ ?_).1 v w
  · intro b w
    cases w <;> rfl
  · intro es ih w
    cases w with
    | leaf a => rfl
    | dict fs => exact ih fs
  · intro fs
    rfl
  · intro k v es hv hes fs
    simp only [Entries.mapLeaves, Entries.allIn, Entries.lookup_mapLeaves, Option.any_map, hes]
    congr 1
    exact congrArg (Option.any · _) (funext hv)

mutual

/-- Change the leaves, which may raise. -/
def Nested.mapLeavesM {ε : Type} (f : α → Except ε β) : Nested α → Except ε (Nested β)
  | .leaf a => do return .leaf (← f a)
  | .dict es => do return .dict (← es.mapLeavesM f)

def Entries.mapLeavesM {ε : Type} (f : α → Except ε β) : Entries α → Except ε (Entries β)
  | .nil => .ok .nil
  | .cons k v es => do
    let w ← v.mapLeavesM f
    let fs ← es.mapLeavesM f
    return .cons k w fs

end

/-- What changing the leaves keeps of each leaf it keeps of the value. -/
theorem Entries.mapLeaves_of_mapLeavesM {ε : Type} {f : α → Except ε β} {g : β → γ} {h : α → γ}
    (hfg : ∀ a b, f a = .ok b → g b = h a) {es : Entries α} {fs : Entries β}
    (hes : es.mapLeavesM f = .ok fs) : fs.mapLeaves g = es.mapLeaves h := by
  suffices hall : ∀ fs, es.mapLeavesM f = .ok fs → fs.mapLeaves g = es.mapLeaves h from hall fs hes
  refine (Nested.induction
    (P := fun v => ∀ w, v.mapLeavesM f = .ok w → w.mapLeaves g = v.mapLeaves h)
    (Q := fun es => ∀ fs, es.mapLeavesM f = .ok fs → fs.mapLeaves g = es.mapLeaves h)
    ?_ ?_ ?_ ?_).2 es
  · intro a w hw
    simp only [Nested.mapLeavesM, bind_eq_ok, pure_eq_ok] at hw
    obtain ⟨b, hb, rfl⟩ := hw
    rw [Nested.mapLeaves, Nested.mapLeaves, hfg a b hb]
  · intro es ih w hw
    simp only [Nested.mapLeavesM, bind_eq_ok, pure_eq_ok] at hw
    obtain ⟨fs, hfs, rfl⟩ := hw
    rw [Nested.mapLeaves, Nested.mapLeaves, ih fs hfs]
  · intro fs hfs
    simp only [Entries.mapLeavesM, Except.ok.injEq] at hfs
    subst hfs
    rfl
  · intro k v es hv hes fs hfs
    simp only [Entries.mapLeavesM, bind_eq_ok, pure_eq_ok] at hfs
    obtain ⟨w, hw, gs, hgs, rfl⟩ := hfs
    rw [Entries.mapLeaves, Entries.mapLeaves, hv w hw, hes gs hgs]

/-- A property that only the changed leaves decide holds of all entries or of none. -/
theorem Entries.Forall.of_mapLeaves {f : α → γ} {g : β → γ} {p : Text → Nested α → Prop}
    {q : Text → Nested β → Prop}
    (h : ∀ k v w, v.mapLeaves f = w.mapLeaves g → p k v → q k w) {es : Entries α}
    {fs : Entries β} (he : es.mapLeaves f = fs.mapLeaves g) (hes : es.Forall p) :
    fs.Forall q := by
  induction es using Entries.induction generalizing fs with
  | nil =>
    cases fs with
    | nil => trivial
    | cons k w fs => cases he
  | cons k v es ih =>
    cases fs with
    | nil => cases he
    | cons k' w fs =>
      simp only [Entries.mapLeaves, Entries.cons.injEq] at he
      obtain ⟨rfl, hvw, hrest⟩ := he
      exact ⟨h k v w hvw hes.1, ih hrest hes.2⟩

/-! ## Changing the keys -/

mutual

def Nested.mapKeys (f : Text → Text) : Nested α → Nested α
  | .leaf a => .leaf a
  | .dict es => .dict (es.mapKeys f)

def Entries.mapKeys (f : Text → Text) : Entries α → Entries α
  | .nil => .nil
  | .cons k v es => .cons (f k) (v.mapKeys f) (es.mapKeys f)

end

theorem Nested.mapKeys_mapLeaves (f : Text → Text) (g : α → β) (v : Nested α) :
    (v.mapLeaves g).mapKeys f = (v.mapKeys f).mapLeaves g := by
  refine (Nested.induction
    (P := fun v => (v.mapLeaves g).mapKeys f = (v.mapKeys f).mapLeaves g)
    (Q := fun es => (es.mapLeaves g).mapKeys f = (es.mapKeys f).mapLeaves g) ?_ ?_ ?_ ?_).1 v
  · exact fun a => rfl
  · intro es ih
    rw [Nested.mapLeaves, Nested.mapKeys, Nested.mapKeys, Nested.mapLeaves, ih]
  · rfl
  · intro k v es hv hes
    rw [Entries.mapLeaves, Entries.mapKeys, Entries.mapKeys, Entries.mapLeaves, hv, hes]

theorem Nested.mapKeys_mapKeys {f : Text → Text} (h : ∀ k, f (f k) = f k) (v : Nested α) :
    (v.mapKeys f).mapKeys f = v.mapKeys f := by
  refine (Nested.induction (P := fun v => (v.mapKeys f).mapKeys f = v.mapKeys f)
    (Q := fun es => (es.mapKeys f).mapKeys f = es.mapKeys f) ?_ ?_ ?_ ?_).1 v
  · exact fun a => rfl
  · intro es ih
    rw [Nested.mapKeys, Nested.mapKeys, ih]
  · rfl
  · intro k v es hv hes
    rw [Entries.mapKeys, Entries.mapKeys, h, hv, hes]

theorem Entries.mem_keys_mapKeys {f : Text → Text} {k : Text} {es : Entries α}
    (h : k ∈ es.keys) : f k ∈ (es.mapKeys f).keys := by
  induction es using Entries.induction with
  | nil => cases h
  | cons k' v es ih =>
    rw [keys, List.mem_cons] at h
    rw [mapKeys, keys, List.mem_cons]
    exact h.imp (congrArg f) ih

theorem Entries.lookup_mapKeys {f : Text → Text} {es : Entries α}
    (h : (es.mapKeys f).distinct = true) {k : Text} {v : Nested α} (hv : es.lookup k = some v) :
    (es.mapKeys f).lookup (f k) = some (v.mapKeys f) := by
  induction es using Entries.induction with
  | nil => cases hv
  | cons k' w es ih =>
    rw [mapKeys, distinct_cons] at h
    rw [lookup] at hv
    rw [mapKeys, lookup]
    split at hv
    · rename_i hk
      cases hv
      rw [if_pos (congrArg f hk)]
    · have hne : f k ≠ f k' := fun he =>
        h.1.1 (he ▸ mem_keys_mapKeys (mem_keys.mpr ⟨v, hv⟩))
      rw [if_neg hne]
      exact ih h.2 hv

/-- Inclusion is kept when the keys of the larger value stay distinct. -/
theorem Nested.includedIn_mapKeys {r : β → α → Bool} {f : Text → Text} {v : Nested β}
    {w : Nested α} (hw : (w.mapKeys f).distinct = true) (h : v.includedIn r w = true) :
    (v.mapKeys f).includedIn r (w.mapKeys f) = true := by
  refine (Nested.induction
    (P := fun v => ∀ w : Nested α, (w.mapKeys f).distinct = true → v.includedIn r w = true →
      (v.mapKeys f).includedIn r (w.mapKeys f) = true)
    (Q := fun es => ∀ fs : Entries α, (fs.mapKeys f).distinct = true → es.allIn r fs = true →
      (es.mapKeys f).allIn r (fs.mapKeys f) = true) ?_ ?_ ?_ ?_).1 v w hw h
  · intro b w _ h
    cases w with
    | leaf a => exact h
    | dict fs => cases h
  · intro es ih w hw h
    cases w with
    | leaf a => cases h
    | dict fs => exact ih fs hw h
  · intro fs _ _
    rfl
  · intro k v es hv hes fs hfs h
    simp only [Entries.allIn, Bool.and_eq_true, Option.any_eq_true] at h
    obtain ⟨⟨w, hw, hvw⟩, hrest⟩ := h
    have hlookup := Entries.lookup_mapKeys hfs hw
    simp only [Entries.mapKeys, Entries.allIn, hlookup, Option.any_some, Bool.and_eq_true]
    exact ⟨hv w (Entries.distinct_of_lookup hfs hlookup) hvw, hes fs hfs hrest⟩

mutual

/-- `{f(k): ... for k, v in d.items()}` at every depth: of two entries whose keys
become the same, the place of the first one stays and the value of the last one. -/
def Nested.rekey (f : Text → Text) : Nested α → Nested α
  | .leaf a => .leaf a
  | .dict es => .dict (es.rekeyInto f .nil)

def Entries.rekeyInto (f : Text → Text) : Entries α → Entries α → Entries α
  | .nil, acc => acc
  | .cons k v es, acc => es.rekeyInto f (acc.set (f k) (v.rekey f))

end

def Entries.append : Entries α → Entries α → Entries α
  | .nil, fs => fs
  | .cons k v es, fs => .cons k v (es.append fs)

theorem Entries.append_nil (es : Entries α) : es.append .nil = es := by
  induction es using Entries.induction with
  | nil => rfl
  | cons k v es ih => rw [append, ih]

theorem Entries.append_cons {k : Text} {v : Nested α} {acc : Entries α} (h : k ∉ acc.keys)
    (es : Entries α) : acc.append (.cons k v es) = (acc.set k v).append es := by
  induction acc using Entries.induction with
  | nil => rfl
  | cons k' w acc ih =>
    rw [keys, List.mem_cons, not_or] at h
    rw [append, set, if_neg h.1, append, ih h.2]

/-- Keys that stay distinct are changed one by one. -/
theorem Nested.rekey_eq_mapKeys {f : Text → Text} {v : Nested α}
    (h : (v.mapKeys f).distinct = true) : v.rekey f = v.mapKeys f := by
  revert h
  refine (Nested.induction
    (P := fun v => (v.mapKeys f).distinct = true → v.rekey f = v.mapKeys f)
    (Q := fun es => (es.mapKeys f).distinct = true → ∀ acc : Entries α,
      (∀ k ∈ (es.mapKeys f).keys, k ∉ acc.keys) →
      es.rekeyInto f acc = acc.append (es.mapKeys f)) ?_ ?_ ?_ ?_).1 v
  · exact fun a _ => rfl
  · intro es ih h
    rw [Nested.rekey, Nested.mapKeys, ih h .nil (by simp [Entries.keys])]
    rfl
  · intro _ acc _
    rw [Entries.rekeyInto, Entries.mapKeys, Entries.append_nil]
  · intro k v es hv hes h acc hacc
    rw [Entries.mapKeys, Entries.distinct_cons] at h
    rw [Entries.mapKeys, Entries.keys, List.forall_mem_cons] at hacc
    rw [Entries.rekeyInto, hv h.1.2, hes h.2, Entries.mapKeys, Entries.append_cons hacc.1]
    intro k' hk' hmem
    rcases Entries.mem_keys_set.mp hmem with rfl | hmem
    · exact h.1.1 hk'
    · exact hacc.2 k' hk' hmem

end Py

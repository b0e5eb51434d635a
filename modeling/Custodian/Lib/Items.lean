import Mathlib.Data.List.Dedup
import Mathlib.Data.List.Induction
import Mathlib.Data.List.Nodup

/-!
# Dictionaries in the order of insertion

A dictionary as the list of its items.  A key that is written again keeps its place.
-/

namespace Py.Items

variable {κ ν : Type} [DecidableEq κ]

/-- `d[k] = v` -/
def set (k : κ) (v : ν) : List (κ × ν) → List (κ × ν)
  | [] => [(k, v)]
  | e :: d => if e.1 = k then (k, v) :: d else e :: set k v d

/-- `d.get(k)` -/
def get (k : κ) (d : List (κ × ν)) : Option ν := d.lookup k

/-- `{k: v for k, v in l}` -/
def ofList (l : List (κ × ν)) : List (κ × ν) := l.foldl (fun d e => set e.1 e.2 d) []

theorem lookup_cons (k : κ) (e : κ × ν) (d : List (κ × ν)) :
    (e :: d).lookup k = if k = e.1 then some e.2 else d.lookup k := by
  change (match k == e.1 with
    | true => some e.2
    | false => d.lookup k) = _
  by_cases hk : k = e.1
  · rw [if_pos hk, beq_iff_eq.mpr hk]
  · rw [if_neg hk, beq_eq_false_iff_ne.mpr hk]

theorem lookup_set (k : κ) (v : ν) (d : List (κ × ν)) (k' : κ) :
    (set k v d).lookup k' = if k' = k then some v else d.lookup k' := by
  induction d with
  | nil => rw [set, lookup_cons]
  | cons e d ih =>
    rw [set]
    by_cases he : e.1 = k
    · rw [if_pos he, lookup_cons, lookup_cons, he]
      split <;> rfl
    · rw [if_neg he, lookup_cons, ih, lookup_cons]
      by_cases hk : k' = e.1
      · rw [if_pos hk, if_pos hk, if_neg (hk ▸ he)]
      · rw [if_neg hk, if_neg hk]

theorem set_set (k : κ) (v w : ν) (d : List (κ × ν)) : set k v (set k w d) = set k v d := by
  induction d with
  | nil => exact if_pos rfl
  | cons e d ih =>
    rw [set, set]
    by_cases he : e.1 = k
    · rw [if_pos he, if_pos he, set, if_pos rfl]
    · rw [if_neg he, if_neg he, set, if_neg he, ih]

theorem get_cons (k : κ) (e : κ × ν) (d : List (κ × ν)) :
    get k (e :: d) = if k = e.1 then some e.2 else get k d := lookup_cons k e d

theorem get_set (k : κ) (v : ν) (d : List (κ × ν)) (k' : κ) :
    get k' (set k v d) = if k' = k then some v else get k' d := lookup_set k v d k'

theorem get_filter (p : κ → Bool) (d : List (κ × ν)) (k : κ) :
    get k (d.filter fun e => p e.1) = if p k then get k d else none := by
  induction d with
  | nil => exact (ite_self _).symm
  | cons e d ih =>
    rw [List.filter_cons]
    by_cases hk : k = e.1
    · subst hk
      cases hp : p e.1 with
      | true => rw [if_pos rfl, if_pos rfl, get_cons, get_cons, if_pos rfl, if_pos rfl]
      | false => rw [if_neg Bool.false_ne_true, if_neg Bool.false_ne_true, ih, hp]; rfl
    · rw [get_cons, if_neg hk, ← ih]
      split
      · rw [get_cons, if_neg hk]
      · rfl

theorem mem_of_get {k : κ} {v : ν} {d : List (κ × ν)} (h : get k d = some v) : (k, v) ∈ d := by
  induction d with
  | nil => cases h
  | cons e d ih =>
    rw [get, lookup_cons] at h
    split at h
    · rename_i hk
      rw [hk, ← Option.some.inj h]
      exact List.mem_cons_self
    · exact List.mem_cons_of_mem e (ih h)

theorem mem_set {k : κ} {v : ν} {d : List (κ × ν)} {e : κ × ν} (h : e ∈ set k v d) :
    e = (k, v) ∨ e ∈ d := by
  induction d with
  | nil => exact Or.inl (List.mem_singleton.mp h)
  | cons e' d ih =>
    rw [set] at h
    split at h
    · exact (List.mem_cons.mp h).imp_right (List.mem_cons_of_mem e')
    · rcases List.mem_cons.mp h with rfl | h
      · exact Or.inr List.mem_cons_self
      · exact (ih h).imp_right (List.mem_cons_of_mem e')

theorem mem_keys_set {k k' : κ} {v : ν} {d : List (κ × ν)} :
    k' ∈ (set k v d).map Prod.fst ↔ k' = k ∨ k' ∈ d.map Prod.fst := by
  induction d with
  | nil => simp [set]
  | cons e d ih =>
    rw [set]
    split
    · rename_i he
      simp [he]
    · rw [List.map_cons, List.mem_cons, ih, List.map_cons, List.mem_cons, or_left_comm]

theorem keys_nodup_set {k : κ} {v : ν} {d : List (κ × ν)} (h : (d.map Prod.fst).Nodup) :
    ((set k v d).map Prod.fst).Nodup := by
  induction d with
  | nil => simp [set]
  | cons e d ih =>
    rw [List.map_cons, List.nodup_cons] at h
    rw [set]
    split
    · rename_i he
      rw [List.map_cons, List.nodup_cons]
      exact he ▸ h
    · rename_i he
      rw [List.map_cons, List.nodup_cons, mem_keys_set, not_or]
      exact ⟨⟨he, h.1⟩, ih h.2⟩

theorem ofList_concat (l : List (κ × ν)) (e : κ × ν) :
    ofList (l ++ [e]) = set e.1 e.2 (ofList l) := by
  rw [ofList, List.foldl_append]
  rfl

theorem lookup_ofList (l : List (κ × ν)) (k : κ) : (ofList l).lookup k = l.reverse.lookup k := by
  induction l using List.reverseRecOn with
  | nil => rfl
  | append_singleton l e ih =>
    rw [ofList_concat, lookup_set, List.reverse_concat, lookup_cons, ih]

/-- What is found in a dictionary was written by an item that no later one with its key undoes. -/
theorem exists_get_ofList_iff {l : List (κ × ν)} {k : κ} {P : ν → Prop} :
    (∃ v, get k (ofList l) = some v ∧ P v) ↔
      ∃ before v after, l = before ++ (k, v) :: after ∧ P v ∧ ∀ e ∈ after, e.1 = k → P e.2 := by
  induction l using List.reverseRecOn with
  | nil => simp [ofList, get]
  | append_singleton l e ih =>
    rw [ofList_concat, get_set]
    constructor
    · rintro ⟨v, hv, hP⟩
      split at hv
      · rename_i hk
        refine ⟨l, v, [], ?_, hP, fun e he => absurd he List.not_mem_nil⟩
        rw [hk, ← Option.some.inj hv]
      · rename_i hk
        obtain ⟨before, w, after, rfl, hw, hafter⟩ := ih.mp ⟨v, hv, hP⟩
        refine ⟨before, w, after ++ [e], by simp, hw, fun e' he' hk' => ?_⟩
        rcases List.mem_append.mp he' with he' | he'
        · exact hafter e' he' hk'
        · exact absurd (List.mem_singleton.mp he' ▸ hk').symm hk
    · rintro ⟨before, v, after, hl, hv, hafter⟩
      rcases List.eq_nil_or_concat' after with rfl | ⟨after', last, rfl⟩
      · obtain ⟨rfl, he⟩ := List.append_inj' hl rfl
        rw [List.singleton_inj.mp he, if_pos rfl]
        exact ⟨v, rfl, hv⟩
      · rw [← List.cons_append, ← List.append_assoc] at hl
        obtain ⟨rfl, he⟩ := List.append_inj' hl rfl
        rw [List.singleton_inj.mp he]
        split
        · rename_i hk
          exact ⟨last.2, rfl, hafter last (List.mem_append_right _ (List.mem_singleton_self _)) hk.symm⟩
        · exact ih.mpr ⟨before, v, after', rfl, hv,
            fun e he => hafter e (List.mem_append_left _ he)⟩

theorem keys_nodup_ofList (l : List (κ × ν)) : ((ofList l).map Prod.fst).Nodup := by
  induction l using List.reverseRecOn with
  | nil => exact List.nodup_nil
  | append_singleton l e ih =>
    rw [ofList_concat]
    exact keys_nodup_set ih

theorem mem_keys_ofList {l : List (κ × ν)} {k : κ} :
    k ∈ (ofList l).map Prod.fst ↔ k ∈ l.map Prod.fst := by
  induction l using List.reverseRecOn with
  | nil => rfl
  | append_singleton l e ih =>
    rw [ofList_concat, mem_keys_set, ih, List.map_append, List.mem_append, List.map_singleton,
      List.mem_singleton, or_comm]

theorem filter_set (p : κ → Bool) (k : κ) (v : ν) (d : List (κ × ν)) :
    (set k v d).filter (fun e => p e.1) =
      if p k then set k v (d.filter fun e => p e.1) else d.filter fun e => p e.1 := by
  induction d with
  | nil => cases hp : p k <;> simp [set, hp]
  | cons e d ih =>
    rw [set]
    by_cases he : e.1 = k
    · subst he
      cases hp : p e.1 <;> simp [hp, set]
    · rw [if_neg he, List.filter_cons, ih, List.filter_cons]
      cases hp : p k <;> cases hp' : p e.1 <;> simp [set, he]

theorem filter_ofList (p : κ → Bool) (l : List (κ × ν)) :
    (ofList l).filter (fun e => p e.1) = ofList (l.filter fun e => p e.1) := by
  induction l using List.reverseRecOn with
  | nil => rfl
  | append_singleton l e ih =>
    rw [ofList_concat, filter_set, ih, List.filter_append, List.filter_cons, List.filter_nil]
    split
    · rw [ofList_concat]
    · rw [List.append_nil]

theorem mem_of_mem_ofList {l : List (κ × ν)} {e : κ × ν} (h : e ∈ ofList l) : e ∈ l := by
  induction l using List.reverseRecOn with
  | nil => exact h
  | append_singleton l e' ih =>
    rw [ofList_concat] at h
    rcases mem_set h with rfl | h
    · exact List.mem_append_right _ (List.mem_singleton_self _)
    · exact List.mem_append_left _ (ih h)

/-- `d.update(es)` -/
def overwrite (d es : List (κ × ν)) : List (κ × ν) := es.foldl (fun d e => set e.1 e.2 d) d

theorem keys_nodup_overwrite {d : List (κ × ν)} (h : (d.map Prod.fst).Nodup)
    (es : List (κ × ν)) : ((overwrite d es).map Prod.fst).Nodup := by
  rw [overwrite]
  induction es generalizing d with
  | nil => exact h
  | cons e es ih => exact ih (keys_nodup_set h)

theorem lookup_eq_none {k : κ} {d : List (κ × ν)} :
    d.lookup k = none ↔ k ∉ d.map Prod.fst := by
  induction d with
  | nil => simp
  | cons e d ih =>
    rw [lookup_cons, List.map_cons, List.mem_cons, not_or]
    by_cases hk : k = e.1 <;> simp [hk, ih]

theorem isSome_get {k : κ} {d : List (κ × ν)} : (get k d).isSome ↔ k ∈ d.map Prod.fst := by
  rw [Option.isSome_iff_ne_none]
  exact lookup_eq_none.not.trans not_not

theorem get_ofList_map (f : κ → ν) {ks : List κ} {k : κ} (h : k ∈ ks) :
    get k (ofList (ks.map fun k => (k, f k))) = some (f k) := by
  have hkey : k ∈ (ofList (ks.map fun k => (k, f k))).map Prod.fst := by
    rw [mem_keys_ofList, List.map_map]
    exact List.mem_map.mpr ⟨k, h, rfl⟩
  obtain ⟨v, hv⟩ := Option.isSome_iff_exists.mp (isSome_get.mpr hkey)
  obtain ⟨k', -, heq⟩ := List.mem_map.mp (mem_of_mem_ofList (mem_of_get hv))
  cases heq
  exact hv

theorem get_overwrite {es : List (κ × ν)} (h : (es.map Prod.fst).Nodup) (d : List (κ × ν)) (k : κ) :
    get k (overwrite d es) = (get k es).or (get k d) := by
  rw [overwrite]
  induction es generalizing d with
  | nil => rfl
  | cons e es ih =>
    rw [List.map_cons, List.nodup_cons] at h
    rw [List.foldl_cons, ih h.2, get_set, get_cons]
    by_cases hk : k = e.1
    · have hnone : get k es = none := by
        rw [← Option.not_isSome_iff_eq_none, isSome_get, hk]
        exact h.1
      rw [if_pos hk, if_pos hk, hnone]
      rfl
    · rw [if_neg hk, if_neg hk]

theorem exists_lookup {k : κ} {d : List (κ × ν)} (h : k ∈ d.map Prod.fst) :
    ∃ v, d.lookup k = some v := Option.isSome_iff_exists.mp (isSome_get.mpr h)

theorem mem_iff_lookup {k : κ} {v : ν} {d : List (κ × ν)} (h : (d.map Prod.fst).Nodup) :
    (k, v) ∈ d ↔ d.lookup k = some v := by
  induction d with
  | nil => simp
  | cons e d ih =>
    rw [List.map_cons, List.nodup_cons] at h
    rw [List.mem_cons, lookup_cons]
    by_cases hk : k = e.1
    · have hd : (k, v) ∉ d := fun hm => h.1 (hk ▸ List.mem_map_of_mem hm)
      rw [if_pos hk, or_iff_left hd, Option.some.injEq, Prod.ext_iff]
      exact ⟨fun he => he.2.symm, fun he => ⟨hk, he.symm⟩⟩
    · have hne : (k, v) ≠ e := fun he => hk (congrArg Prod.fst he)
      rw [if_neg hk, or_iff_right hne, ih h.2]

theorem mem_iff_get {k : κ} {v : ν} {d : List (κ × ν)} (h : (d.map Prod.fst).Nodup) :
    (k, v) ∈ d ↔ get k d = some v := mem_iff_lookup h

/-- An item that is popped stands before the others. -/
theorem perm_pop {k : κ} {v : ν} {d : List (κ × ν)} (h : (d.map Prod.fst).Nodup)
    (hv : d.lookup k = some v) : d.Perm ((k, v) :: d.filter fun e => e.1 ≠ k) := by
  induction d with
  | nil => cases hv
  | cons e d ih =>
    rw [List.map_cons, List.nodup_cons] at h
    rw [lookup_cons] at hv
    by_cases he : k = e.1
    · rw [if_pos he] at hv
      obtain rfl : e.2 = v := Option.some.inj hv
      have hrest : d.filter (fun f => f.1 ≠ k) = d := by
        refine List.filter_eq_self.mpr fun f hf => ?_
        have hne : f.1 ≠ k := fun hk => h.1 (he ▸ hk ▸ List.mem_map_of_mem hf)
        simpa using hne
      rw [List.filter_cons_of_neg (by simp [he]), hrest, he]
    · rw [if_neg he] at hv
      have hne : e.1 ≠ k := fun h => he h.symm
      rw [List.filter_cons_of_pos (by simpa using hne)]
      exact ((ih h.2 hv).cons e).trans (List.Perm.swap _ _ _)

theorem get_ofList_of_nodup {l : List (κ × ν)} (h : (l.map Prod.fst).Nodup) (k : κ) :
    get k (ofList l) = get k l := by
  have hreverse : (l.reverse.map Prod.fst).Nodup := by
    rw [List.map_reverse]
    exact List.nodup_reverse.mpr h
  refine Option.ext fun v => ?_
  rw [get, lookup_ofList, ← mem_iff_lookup hreverse, List.mem_reverse, mem_iff_get h]

end Py.Items

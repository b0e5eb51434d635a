import Mathlib.Data.List.Nodup
import Mathlib.Data.List.Perm.Basic
import Mathlib.Logic.Function.Basic

/-!
# Collections by key and edits of them

A list whose elements have distinct keys stands for a map from keys to elements.  A list of edits
that leads from one map to another edits every key at most once; a loop that follows single edits
follows such a list.
-/

namespace Py.Keyed

open Function (update)

variable {κ α : Type} {key : α → κ}

/-! ## Lists for maps -/

/-- The list has distinct keys and the elements of the map. -/
structure Lists (key : α → κ) (xs : List α) (m : κ → Option α) : Prop where
  nodup : (xs.map key).Nodup
  eq_some_iff : ∀ k x, m k = some x ↔ x ∈ xs ∧ key x = k

theorem Lists.nil (key : α → κ) : Lists key [] fun _ => none :=
  ⟨List.nodup_nil, fun _ _ => by simp⟩

namespace Lists

variable {xs ys : List α} {m : κ → Option α}

theorem mem_iff (h : Lists key xs m) {x : α} : x ∈ xs ↔ m (key x) = some x := by
  rw [h.eq_some_iff, and_iff_left rfl]

theorem key_eq (h : Lists key xs m) {k : κ} {x : α} (hk : m k = some x) : key x = k :=
  ((h.eq_some_iff k x).mp hk).2

theorem mem_keys_iff (h : Lists key xs m) {k : κ} : k ∈ xs.map key ↔ ∃ x, m k = some x := by
  simp only [List.mem_map, h.eq_some_iff]

theorem notMem_keys_iff (h : Lists key xs m) {k : κ} : k ∉ xs.map key ↔ m k = none := by
  rw [h.mem_keys_iff, ← Option.isSome_iff_exists, Bool.not_eq_true, Option.isSome_eq_false_iff,
    Option.isNone_iff_eq_none]

theorem perm (h : Lists key xs m) (h' : Lists key ys m) : xs.Perm ys := by
  refine (List.perm_ext_iff_of_nodup (.of_map key h.nodup) (.of_map key h'.nodup)).mpr fun x => ?_
  rw [h.mem_iff, h'.mem_iff]

theorem eq_of_perm {m' : κ → Option α} (h : Lists key xs m) (h' : Lists key ys m')
    (hperm : xs.Perm ys) : m = m' :=
  funext fun k => Option.ext fun x => by rw [h.eq_some_iff, h'.eq_some_iff, hperm.mem_iff]

variable [DecidableEq κ]

theorem find (h : (xs.map key).Nodup) : Lists key xs fun k => xs.find? fun x => key x = k := by
  refine ⟨h, fun k x => ⟨fun hx => ⟨List.mem_of_find?_eq_some hx, ?_⟩, ?_⟩⟩
  · exact of_decide_eq_true (List.find?_some (p := fun x => decide (key x = k)) hx)
  · rintro ⟨hx, rfl⟩
    cases hy : xs.find? fun y => key y = key x with
    | none => exact absurd (decide_eq_true rfl) (List.find?_eq_none.mp hy x hx)
    | some y =>
      have hkey : key y = key x :=
        of_decide_eq_true (List.find?_some (p := fun y => decide (key y = key x)) hy)
      rw [List.inj_on_of_nodup_map h (List.mem_of_find?_eq_some hy) hx hkey]

theorem append (h : Lists key xs m) {x : α} (hx : m (key x) = none) :
    Lists key (xs ++ [x]) (update m (key x) (some x)) := by
  refine ⟨?_, fun k y => ?_⟩
  · rw [List.map_append, List.nodup_append]
    refine ⟨h.nodup, List.nodup_singleton _, fun k hk k' hk' => ?_⟩
    rw [List.map_singleton, List.mem_singleton] at hk'
    rintro rfl
    exact h.notMem_keys_iff.mpr hx (hk' ▸ hk)
  · rw [List.mem_append, List.mem_singleton]
    by_cases hk : k = key x
    · subst hk
      have hy : ¬(y ∈ xs ∧ key y = key x) := by
        rw [← h.eq_some_iff, hx]
        exact nofun
      rw [Function.update_self, Option.some_inj]
      constructor
      · rintro rfl
        exact ⟨.inr rfl, rfl⟩
      · rintro ⟨hmem | rfl, hkey⟩
        · exact absurd ⟨hmem, hkey⟩ hy
        · rfl
    · rw [Function.update_of_ne hk, h.eq_some_iff]
      constructor
      · exact fun ⟨hmem, hkey⟩ => ⟨.inl hmem, hkey⟩
      · rintro ⟨hmem | rfl, hkey⟩
        · exact ⟨hmem, hkey⟩
        · exact absurd hkey.symm hk

theorem erase (h : Lists key xs m) (k : κ) :
    Lists key (xs.filter fun x => key x ≠ k) (update m k none) := by
  refine ⟨h.nodup.sublist (List.filter_sublist.map key), fun k' x => ?_⟩
  rw [List.mem_filter, decide_eq_true_eq]
  by_cases hk : k' = k
  · subst hk
    rw [Function.update_self]
    exact ⟨nofun, fun ⟨⟨_, hne⟩, hkey⟩ => absurd hkey hne⟩
  · rw [Function.update_of_ne hk, h.eq_some_iff]
    constructor
    · rintro ⟨hmem, rfl⟩
      exact ⟨⟨hmem, hk⟩, rfl⟩
    · exact fun ⟨⟨hmem, _⟩, hkey⟩ => ⟨hmem, hkey⟩

theorem replace (h : Lists key xs m) {x y : α} (hy : m (key x) = some y) :
    Lists key (xs.map fun z => if key z = key x then x else z) (update m (key x) (some x)) := by
  obtain ⟨hmem, hkey⟩ := (h.eq_some_iff _ _).mp hy
  refine ⟨?_, fun k z => ?_⟩
  · have hkeys : ∀ z ∈ xs, (key ∘ fun z => if key z = key x then x else z) z = key z := by
      intro z _
      rw [Function.comp_apply]
      split
      · rename_i hz
        exact hz.symm
      · rfl
    rw [List.map_map, List.map_congr_left hkeys]
    exact h.nodup
  · rw [List.mem_map]
    by_cases hk : k = key x
    · subst hk
      rw [Function.update_self, Option.some_inj]
      constructor
      · rintro rfl
        exact ⟨⟨y, hmem, if_pos hkey⟩, rfl⟩
      · rintro ⟨⟨w, hw, rfl⟩, hz⟩
        split at hz
        · rename_i hwx
          exact (if_pos hwx).symm
        · rename_i hwx
          exact absurd hz hwx
    · rw [Function.update_of_ne hk, h.eq_some_iff]
      constructor
      · rintro ⟨hz, rfl⟩
        exact ⟨⟨z, hz, if_neg hk⟩, rfl⟩
      · rintro ⟨⟨w, hw, rfl⟩, hz⟩
        split at hz
        · exact absurd hz.symm hk
        · rename_i hwx
          rw [if_neg hwx]
          exact ⟨hw, hz⟩

end Lists

/-! ## Parts of a map -/

/-- The elements of a map that satisfy a test. -/
def restrict (p : α → Bool) (m : κ → Option α) (k : κ) : Option α := (m k).filter p

theorem restrict_eq_some_iff {p : α → Bool} {m : κ → Option α} {k : κ} {x : α} :
    restrict p m k = some x ↔ m k = some x ∧ p x := by
  rw [restrict, Option.filter_eq_some_iff]

theorem restrict_update [DecidableEq κ] (p : α → Bool) (m : κ → Option α) (k : κ) (v : Option α) :
    restrict p (update m k v) = update (restrict p m) k (v.filter p) := by
  funext k'
  by_cases hk : k' = k
  · subst hk
    rw [restrict, Function.update_self, Function.update_self]
  · rw [restrict, Function.update_of_ne hk, Function.update_of_ne hk, restrict]

/-! ## Edits -/

section Edits

variable {E σ ε : Type} {keyOf : E → κ} {before after : E → Option α}

/-- The edits lead from one map to another and edit every key at most once. -/
structure Between (keyOf : E → κ) (before after : E → Option α) (m m' : κ → Option α)
    (es : List E) : Prop where
  nodup : (es.map keyOf).Nodup
  before_eq : ∀ e ∈ es, m (keyOf e) = before e
  after_eq : ∀ e ∈ es, m' (keyOf e) = after e
  frame : ∀ k, k ∉ es.map keyOf → m k = m' k

variable [DecidableEq κ]

theorem Between.tail {m m' : κ → Option α} {e : E} {es : List E}
    (h : Between keyOf before after m m' (e :: es)) :
    Between keyOf before after (update m (keyOf e) (after e)) m' es := by
  have hnodup := h.nodup
  rw [List.map_cons, List.nodup_cons] at hnodup
  refine ⟨hnodup.2, fun e' he' => ?_, fun e' he' => h.after_eq e' (List.mem_cons_of_mem _ he'),
    fun k hk => ?_⟩
  · have hne : keyOf e' ≠ keyOf e := fun hkey =>
      hnodup.1 (hkey ▸ List.mem_map_of_mem he')
    rw [Function.update_of_ne hne]
    exact h.before_eq e' (List.mem_cons_of_mem _ he')
  · by_cases hke : k = keyOf e
    · subst hke
      rw [Function.update_self]
      exact (h.after_eq e (List.mem_cons_self ..)).symm
    · rw [Function.update_of_ne hke]
      refine h.frame k ?_
      rw [List.map_cons, List.mem_cons, not_or]
      exact ⟨hke, hk⟩

/-- **A loop that follows every single edit follows the edits between two maps.** -/
theorem Between.foldlM {step : σ → E → Except ε σ} (Rep : σ → (κ → Option α) → Prop)
    (hstep : ∀ s m e, Rep s m → m (keyOf e) = before e → ∃ s', step s e = .ok s' ∧
      Rep s' (update m (keyOf e) (after e)))
    {m m' : κ → Option α} {es : List E} (h : Between keyOf before after m m' es) {s : σ}
    (hs : Rep s m) : ∃ s', es.foldlM step s = .ok s' ∧ Rep s' m' := by
  induction es generalizing m s with
  | nil =>
    have hm : m = m' := funext fun k => h.frame k List.not_mem_nil
    exact ⟨s, rfl, hm ▸ hs⟩
  | cons e es ih =>
    obtain ⟨s₁, hs₁, hrep⟩ := hstep s m e hs (h.before_eq e (List.mem_cons_self ..))
    obtain ⟨s', hs', hrep'⟩ := ih h.tail hrep
    refine ⟨s', ?_, hrep'⟩
    rw [List.foldlM_cons, hs₁]
    exact hs'

end Edits

end Py.Keyed

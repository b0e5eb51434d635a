import Mathlib.Data.List.Count
import Mathlib.Data.List.Nodup
import Mathlib.Data.List.Basic

/-!
# Selecting from a list by several keys

The elements that the first key selects come first, then those of the second, and so on.  What
comes out is the list filtered once, provided every element is selected by one key and the keys do
not go back along the list.
-/

namespace Py.Selection

variable {κ α : Type}

/-- A list whose later elements satisfy `p` only if the earlier ones do is split by `p`. -/
theorem filter_append_filter_not {p : α → Bool} {l : List α}
    (h : l.Pairwise fun x y => p y = true → p x = true) :
    l.filter p ++ l.filter (fun x => !p x) = l := by
  induction l with
  | nil => rfl
  | cons x l ih =>
    rw [List.pairwise_cons] at h
    cases hx : p x with
    | true => simp [hx, ih h.2]
    | false =>
      have hnone : l.filter p = [] := by
        rw [List.filter_eq_nil_iff]
        intro y hy hpy
        rw [h.1 y hy hpy] at hx
        cases hx
      have hall : l.filter (fun x => !p x) = l := by
        have hl := ih h.2
        rwa [hnone, List.nil_append] at hl
      simp [hx, hnone, hall]

/-- Passing once for each key gives the list back when each element has one key, in order. -/
theorem flatMap_filter_eq_self {ks : List κ} {m : κ → α → Bool} {l : List α}
    (hone : ∀ x ∈ l, ks.countP (m · x) = 1)
    (hord : l.Pairwise fun x y => ks.findIdx (m · x) ≤ ks.findIdx (m · y)) :
    ks.flatMap (fun k => l.filter (m k)) = l := by
  induction ks generalizing l with
  | nil =>
    cases l with
    | nil => rfl
    | cons x l => exact absurd (hone x List.mem_cons_self) (by simp)
  | cons k ks ih =>
    have hfirst : l.Pairwise fun x y => m k y = true → m k x = true := by
      refine hord.imp fun {x y} hxy hy => ?_
      by_contra hx
      rw [Bool.not_eq_true] at hx
      simp [List.findIdx_cons, hx, hy] at hxy
    have hrest : ks.flatMap (fun k' => l.filter (m k')) =
        ks.flatMap fun k' => (l.filter fun x => !m k x).filter (m k') := by
      refine List.flatMap_congr fun k' hk' => ?_
      rw [List.filter_filter]
      refine List.filter_congr fun x hx => ?_
      have h1 := hone x hx
      rw [List.countP_cons] at h1
      cases hk : m k x with
      | false => simp
      | true =>
        rw [hk, if_pos rfl, Nat.succ.injEq, List.countP_eq_zero] at h1
        simpa using h1 k' hk'
    rw [List.flatMap_cons, hrest, ih, filter_append_filter_not hfirst]
    · intro x hx
      obtain ⟨hx, hk⟩ := List.mem_filter.mp hx
      have h1 := hone x hx
      rw [Bool.not_eq_true'] at hk
      rwa [List.countP_cons, hk, if_neg (by simp), Nat.add_zero] at h1
    · rw [List.pairwise_filter]
      refine hord.imp fun {x y} hxy hx hy => ?_
      rw [Bool.not_eq_true'] at hx hy
      simpa [List.findIdx_cons, hx, hy] using hxy

/-- What is selected comes in the order of the keys if no element has two. -/
theorem pairwise_flatMap_filter {ks : List κ} {m : κ → α → Bool} {l : List α}
    (h : ∀ x ∈ l, ks.countP (m · x) ≤ 1) : (ks.flatMap fun k => l.filter (m k)).Pairwise
      fun x y => ks.findIdx (m · x) ≤ ks.findIdx (m · y) := by
  induction ks with
  | nil => exact List.Pairwise.nil
  | cons k ks ih =>
    have hzero : ∀ x ∈ l.filter (m k), (k :: ks).findIdx (m · x) = 0 := fun x hx => by
      rw [List.findIdx_cons, (List.mem_filter.mp hx).2]
      rfl
    have hsucc : ∀ x ∈ ks.flatMap fun k => l.filter (m k),
        (k :: ks).findIdx (m · x) = ks.findIdx (m · x) + 1 := by
      intro x hx
      obtain ⟨k', hk', hx⟩ := List.mem_flatMap.mp hx
      obtain ⟨hl, hm⟩ := List.mem_filter.mp hx
      have hpos : 0 < ks.countP (m · x) := List.countP_pos_iff.mpr ⟨k', hk', hm⟩
      have h1 := h x hl
      rw [List.countP_cons] at h1
      have hk : m k x = false := by
        by_contra hk
        rw [Bool.not_eq_false] at hk
        rw [hk, if_pos rfl] at h1
        omega
      rw [List.findIdx_cons, hk]
      rfl
    have hrest := ih fun x hx => Nat.le_trans (by rw [List.countP_cons]; omega) (h x hx)
    rw [List.flatMap_cons, List.pairwise_append]
    refine ⟨List.pairwise_of_forall_mem_list fun x hx y _ => ?_,
      hrest.imp_of_mem fun {x y} hx hy hxy => ?_, fun x hx y _ => ?_⟩
    · rw [hzero x hx]
      exact Nat.zero_le _
    · rw [hsucc x hx, hsucc y hy]
      exact Nat.succ_le_succ hxy
    · rw [hzero x hx]
      exact Nat.zero_le _

open Classical in
theorem count_flatMap_filter (ks : List κ) (m : κ → α → Bool) (l : List α) (x : α) :
    (ks.flatMap fun k => l.filter (m k)).count x = ks.countP (m · x) * l.count x := by
  induction ks with
  | nil => simp
  | cons k ks ih =>
    rw [List.flatMap_cons, List.count_append, ih, List.countP_cons, Nat.add_mul, Nat.add_comm]
    cases hk : m k x with
    | true => rw [List.count_filter hk, if_pos rfl, Nat.one_mul]
    | false =>
      have hx : (l.filter (m k)).count x = 0 := by
        rw [List.count_eq_zero]
        intro hx
        rw [(List.mem_filter.mp hx).2] at hk
        cases hk
      rw [if_neg (by simp), Nat.zero_mul, hx]

/-- **One pass for each key is one filter exactly when no element is selected twice and the keys
follow the list.** -/
theorem flatMap_filter_eq_filter_iff {ks : List κ} {m : κ → α → Bool} {p : α → Bool} {l : List α} :
    ks.flatMap (fun k => l.filter (m k)) = l.filter p ↔
      (∀ x ∈ l, ks.countP (m · x) = if p x then 1 else 0) ∧
      (l.filter p).Pairwise fun x y => ks.findIdx (m · x) ≤ ks.findIdx (m · y) := by
  classical
  constructor
  · intro h
    have hcount : ∀ x ∈ l, ks.countP (m · x) = if p x then 1 else 0 := by
      intro x hx
      have hone := count_flatMap_filter [()] (fun _ => p) l x
      have hc := count_flatMap_filter ks m l x
      rw [h] at hc
      simp only [List.flatMap_cons, List.flatMap_nil, List.append_nil, hc] at hone
      rw [Nat.mul_right_cancel (List.count_pos_iff.mpr hx) hone, List.countP_singleton]
    refine ⟨hcount, h ▸ pairwise_flatMap_filter fun x hx => ?_⟩
    rw [hcount x hx]
    split <;> simp
  · rintro ⟨hcount, hord⟩
    have hsub : ks.flatMap (fun k => l.filter (m k)) =
        ks.flatMap fun k => (l.filter p).filter (m k) := by
      refine List.flatMap_congr fun k hk => ?_
      rw [List.filter_filter]
      refine List.filter_congr fun x hx => ?_
      have hx := hcount x hx
      cases hp : p x with
      | true => simp
      | false =>
        rw [hp, if_neg (by simp), List.countP_eq_zero] at hx
        simpa using hx k hk
    rw [hsub]
    refine flatMap_filter_eq_self (fun x hx => ?_) hord
    obtain ⟨hx, hp⟩ := List.mem_filter.mp hx
    rw [hcount x hx, if_pos hp]

open Classical in
theorem count_flatMap_map (ks : List κ) (m : κ → α → Bool) (l : List α) (x : α) :
    (l.flatMap fun x => (ks.filter fun k => m k x).map fun _ => x).count x =
      ks.countP (m · x) * l.count x := by
  induction l with
  | nil => simp
  | cons y l ih =>
    rw [List.flatMap_cons, List.count_append, ih, List.count_cons, Nat.mul_add, Nat.add_comm,
      List.map_const', List.count_replicate, ← List.countP_eq_length_filter]
    by_cases hxy : y = x
    · subst hxy
      simp
    · simp [hxy]

/-- **One pass over the keys for each element is a filter exactly when none has two keys.** -/
theorem flatMap_map_eq_filter_iff {ks : List κ} {m : κ → α → Bool} {l : List α} :
    l.flatMap (fun x => (ks.filter fun k => m k x).map fun _ => x) =
        l.filter (fun x => ks.any (m · x)) ↔
      ∀ x ∈ l, ks.countP (m · x) ≤ 1 := by
  classical
  constructor
  · intro h x hx
    have hc := count_flatMap_map ks m l x
    have hone := count_flatMap_filter [()] (fun _ x => ks.any (m · x)) l x
    rw [h] at hc
    simp only [List.flatMap_cons, List.flatMap_nil, List.append_nil, hc] at hone
    rw [Nat.mul_right_cancel (List.count_pos_iff.mpr hx) hone]
    exact List.countP_le_length
  · intro h
    induction l with
    | nil => rfl
    | cons x l ih =>
      rw [List.forall_mem_cons] at h
      rw [List.flatMap_cons, ih h.2, List.filter_cons, List.map_const',
        ← List.countP_eq_length_filter]
      cases hany : ks.any (m · x) with
      | true =>
        have hpos : 0 < ks.countP (m · x) := by
          rw [List.countP_pos_iff]
          simpa using hany
        have hone : ks.countP (m · x) = 1 := by omega
        rw [hone, if_pos rfl]
        rfl
      | false =>
        have hzero : ks.countP (m · x) = 0 := by
          rw [List.countP_eq_zero]
          simpa using hany
        rw [hzero, if_neg (by simp)]
        rfl

end Py.Selection

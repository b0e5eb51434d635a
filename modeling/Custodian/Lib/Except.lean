import Mathlib.Data.List.Forall2

/-! # Computations that may raise: inversion of sequencing and of list maps -/

namespace Py

variable {ε α β : Type}

theorem bind_eq_ok {x : Except ε α} {f : α → Except ε β} {b : β} :
    (x >>= f) = .ok b ↔ ∃ a, x = .ok a ∧ f a = .ok b := by
  cases x <;> simp [bind, Except.bind]

theorem bind_eq_error {x : Except ε α} {f : α → Except ε β} {e : ε} :
    (x >>= f) = .error e ↔ x = .error e ∨ ∃ a, x = .ok a ∧ f a = .error e := by
  cases x <;> simp [bind, Except.bind]

theorem exists_bind_eq_ok {x : Except ε α} {f : α → Except ε β} :
    (∃ b, (x >>= f) = .ok b) ↔ ∃ a, x = .ok a ∧ ∃ b, f a = .ok b := by
  simp only [bind_eq_ok]
  exact ⟨fun h => h.elim fun b h => h.imp fun a h => ⟨h.1, b, h.2⟩,
    fun h => h.elim fun a h => h.2.imp fun b hb => ⟨a, h.1, hb⟩⟩

theorem ok_bind (a : α) (f : α → Except ε β) : (Except.ok a >>= f) = f a := rfl

theorem pure_eq_ok {a b : α} : (pure a : Except ε α) = .ok b ↔ a = b := by
  simp [pure, Except.pure]

theorem map_fst_eq_ok {x : Except ε (α × β)} {a : α} :
    x.map Prod.fst = .ok a ↔ ∃ b, x = .ok (a, b) := by
  rcases x with e | ⟨a', b⟩
  · simp [Except.map]
  · simp [Except.map, eq_comm]

theorem mapM_eq_ok (f : α → Except ε β) (xs : List α) (ys : List β) :
    xs.mapM f = .ok ys ↔ List.Forall₂ (fun x y => f x = .ok y) xs ys := by
  induction xs generalizing ys with
  | nil => cases ys <;> simp [pure, Except.pure]
  | cons x xs ih =>
    rw [List.mapM_cons, bind_eq_ok]
    simp only [bind_eq_ok, pure_eq_ok]
    constructor
    · rintro ⟨y, hy, ys', hys, rfl⟩
      exact .cons hy ((ih ys').mp hys)
    · rintro (_ | ⟨hy, hys⟩)
      exact ⟨_, hy, _, (ih _).mpr hys, rfl⟩

theorem exists_of_mapM_eq_error {f : α → Except ε β} {xs : List α} {e : ε}
    (h : xs.mapM f = .error e) : ∃ x ∈ xs, f x = .error e := by
  induction xs with
  | nil => cases h
  | cons x xs ih =>
    rw [List.mapM_cons, bind_eq_error] at h
    rcases h with h | ⟨y, -, h⟩
    · exact ⟨x, List.mem_cons_self .., h⟩
    · rw [bind_eq_error] at h
      rcases h with h | ⟨ys, -, h⟩
      · obtain ⟨x', hx', h⟩ := ih h
        exact ⟨x', List.mem_cons_of_mem _ hx', h⟩
      · cases h

theorem exists_mapM_eq_ok {f : α → Except ε β} {xs : List α} (h : ∀ x ∈ xs, ∃ y, f x = .ok y) :
    ∃ ys, xs.mapM f = .ok ys := by
  induction xs with
  | nil => exact ⟨[], rfl⟩
  | cons x xs ih =>
    obtain ⟨y, hy⟩ := h x (List.mem_cons_self ..)
    obtain ⟨ys, hys⟩ := ih fun x' hx' => h x' (List.mem_cons_of_mem _ hx')
    exact ⟨y :: ys, (mapM_eq_ok f _ _).mpr (.cons hy ((mapM_eq_ok f _ _).mp hys))⟩

theorem forall_of_mapM_eq_ok {f : α → Except ε β} {xs : List α} {ys : List β} {P : β → Prop}
    (h : xs.mapM f = .ok ys) (hP : ∀ x ∈ xs, ∀ y, f x = .ok y → P y) : ∀ y ∈ ys, P y := by
  rw [mapM_eq_ok] at h
  induction h with
  | nil => simp
  | cons hxy _ ih =>
    rw [List.forall_mem_cons] at hP ⊢
    exact ⟨hP.1 _ hxy, ih hP.2⟩

theorem mapM_congr {f g : α → Except ε β} {xs : List α} (h : ∀ x ∈ xs, f x = g x) :
    xs.mapM f = xs.mapM g := by
  induction xs with
  | nil => rfl
  | cons x xs ih =>
    rw [List.forall_mem_cons] at h
    rw [List.mapM_cons, List.mapM_cons, h.1, ih h.2]

theorem mapM_eq_map {f : α → Except ε β} {g : α → β} {xs : List α}
    (h : ∀ x ∈ xs, f x = .ok (g x)) : xs.mapM f = .ok (xs.map g) := by
  induction xs with
  | nil => rfl
  | cons x xs ih =>
    rw [List.forall_mem_cons] at h
    rw [List.mapM_cons, h.1, ih h.2]
    rfl

theorem mapM_eq_ok_iff {f : α → Except ε β} {P : α → Prop} {g : α → β}
    (h : ∀ x y, f x = .ok y ↔ P x ∧ y = g x) {xs : List α} {ys : List β} :
    xs.mapM f = .ok ys ↔ (∀ x ∈ xs, P x) ∧ ys = xs.map g := by
  rw [mapM_eq_ok]
  simp only [h]
  induction xs generalizing ys with
  | nil => simp
  | cons x xs ih =>
    simp only [List.forall₂_cons_left_iff, List.forall_mem_cons, List.map_cons, ih]
    constructor
    · rintro ⟨_, _, ⟨hx, rfl⟩, ⟨hxs, rfl⟩, rfl⟩
      exact ⟨⟨hx, hxs⟩, rfl⟩
    · rintro ⟨⟨hx, hxs⟩, rfl⟩
      exact ⟨_, _, ⟨hx, rfl⟩, ⟨hxs, rfl⟩, rfl⟩

/-- `list(filter(f, xs))` -/
def filterE (f : α → Except ε Bool) (xs : List α) : Except ε (List α) := do
  let kept ← xs.mapM fun x => do return if ← f x then some x else none
  return kept.reduceOption

/-- The answer of a test, if it answers, or else false. -/
def holds (x : Except ε Bool) : Bool := x.toOption.getD false

theorem filterE_eq_ok_iff {f : α → Except ε Bool} {xs ys : List α} :
    filterE f xs = .ok ys ↔
      (∀ x ∈ xs, ∃ b, f x = .ok b) ∧ ys = xs.filter fun x => holds (f x) := by
  have hstep : ∀ x o, (do return if ← f x then some x else none) = Except.ok o ↔
      (∃ b, f x = .ok b) ∧ o = if holds (f x) then some x else none := by
    intro x o
    cases hf : f x with
    | error e => exact iff_of_false (fun h => by cases h) fun h => by obtain ⟨⟨b, h⟩, -⟩ := h; cases h
    | ok b =>
      rw [ok_bind, pure_eq_ok, and_iff_right ⟨b, rfl⟩, eq_comm]
      rfl
  have hreduce : (xs.map fun x => if holds (f x) then some x else none).reduceOption =
      xs.filter fun x => holds (f x) := by
    change List.filterMap id (xs.map _) = _
    rw [List.filterMap_map, ← List.filterMap_eq_filter]
    rfl
  rw [filterE]
  simp only [bind_eq_ok, pure_eq_ok]
  constructor
  · rintro ⟨kept, hkept, rfl⟩
    obtain ⟨hP, rfl⟩ := (mapM_eq_ok_iff hstep).mp hkept
    exact ⟨hP, hreduce⟩
  · rintro ⟨hP, rfl⟩
    exact ⟨_, (mapM_eq_ok_iff hstep).mpr ⟨hP, rfl⟩, hreduce⟩

theorem filterE_eq_filter {f : α → Except ε Bool} {p : α → Bool} {xs : List α}
    (h : ∀ x ∈ xs, f x = .ok (p x)) : filterE f xs = .ok (xs.filter p) := by
  refine filterE_eq_ok_iff.mpr ⟨fun x hx => ⟨_, h x hx⟩, List.filter_congr fun x hx => ?_⟩
  rw [h x hx]
  rfl

theorem foldlM_eq_ok_iff {σ : Type} {f : σ → α → Except ε σ} {P : α → Prop} {g : σ → α → σ}
    (h : ∀ s x s', f s x = .ok s' ↔ P x ∧ s' = g s x) {xs : List α} {s s' : σ} :
    xs.foldlM f s = .ok s' ↔ (∀ x ∈ xs, P x) ∧ s' = xs.foldl g s := by
  induction xs generalizing s with
  | nil => simp [pure, Except.pure, eq_comm]
  | cons x xs ih =>
    rw [List.foldlM_cons, bind_eq_ok, List.forall_mem_cons, List.foldl_cons]
    simp only [h, ih]
    constructor
    · rintro ⟨_, ⟨hx, rfl⟩, hxs, hs'⟩
      exact ⟨⟨hx, hxs⟩, hs'⟩
    · rintro ⟨⟨hx, hxs⟩, hs'⟩
      exact ⟨_, ⟨hx, rfl⟩, hxs, hs'⟩

theorem exists_of_foldlM_eq_error {σ : Type} {f : σ → α → Except ε σ} {xs : List α} {s : σ} {e : ε}
    (h : xs.foldlM f s = .error e) : ∃ before x after s', xs = before ++ x :: after ∧
      before.foldlM f s = .ok s' ∧ f s' x = .error e := by
  induction xs generalizing s with
  | nil => cases h
  | cons x xs ih =>
    rw [List.foldlM_cons, bind_eq_error] at h
    rcases h with h | ⟨s', hs', h⟩
    · exact ⟨[], x, xs, s, rfl, rfl, h⟩
    · obtain ⟨before, y, after, t, rfl, hbefore, hy⟩ := ih h
      refine ⟨x :: before, y, after, t, rfl, ?_, hy⟩
      rw [List.foldlM_cons, bind_eq_ok]
      exact ⟨s', hs', hbefore⟩

theorem foldlM_eq_error_iff {σ : Type} {f : σ → α → Except ε σ} {xs : List α} {s : σ} {e : ε} :
    xs.foldlM f s = .error e ↔ ∃ before x after s', xs = before ++ x :: after ∧
      before.foldlM f s = .ok s' ∧ f s' x = .error e := by
  constructor
  · exact exists_of_foldlM_eq_error
  · rintro ⟨before, x, after, s', rfl, hbefore, hx⟩
    rw [List.foldlM_append, hbefore, ok_bind, List.foldlM_cons, hx]
    rfl

theorem mapM_append_cons_eq_error {f : α → Except ε β} {before : List α} {ys : List β} {x : α}
    {e : ε} (hbefore : before.mapM f = .ok ys) (hx : f x = .error e) (after : List α) :
    (before ++ x :: after).mapM f = .error e := by
  rw [List.mapM_append, hbefore, ok_bind, List.mapM_cons, hx]
  rfl

/-- What a list map raises after elements that it succeeds on. -/
theorem mapM_eq_error_iff {f : α → Except ε β} {xs : List α} {e : ε} :
    xs.mapM f = .error e ↔ ∃ before x after ys, xs = before ++ x :: after ∧
      before.mapM f = .ok ys ∧ f x = .error e := by
  constructor
  · induction xs with
    | nil => intro h; cases h
    | cons x xs ih =>
      rw [List.mapM_cons, bind_eq_error]
      rintro (h | ⟨y, hy, h⟩)
      · exact ⟨[], x, xs, [], rfl, rfl, h⟩
      · rw [bind_eq_error] at h
        rcases h with h | ⟨ys, -, h⟩
        · obtain ⟨before, x', after, ys, rfl, hbefore, hx'⟩ := ih h
          refine ⟨x :: before, x', after, y :: ys, rfl, ?_, hx'⟩
          rw [List.mapM_cons, hy, ok_bind, hbefore]
          rfl
        · cases h
  · rintro ⟨before, x, after, ys, rfl, hbefore, hx⟩
    exact mapM_append_cons_eq_error hbefore hx after

/-! ## Related lists -/

theorem exists_of_forall₂ {R : α → β → Prop} {xs : List α} {ys : List β}
    (h : List.Forall₂ R xs ys) {x : α} (hx : x ∈ xs) : ∃ y ∈ ys, R x y := by
  induction h with
  | nil => cases hx
  | cons hxy _ ih =>
    rcases List.mem_cons.mp hx with rfl | hx
    · exact ⟨_, List.mem_cons_self .., hxy⟩
    · obtain ⟨y, hy, hR⟩ := ih hx
      exact ⟨y, List.mem_cons_of_mem _ hy, hR⟩

theorem exists_mapM_eq_ok_iff {f : α → Except ε β} {xs : List α} :
    (∃ ys, xs.mapM f = .ok ys) ↔ ∀ x ∈ xs, ∃ y, f x = .ok y := by
  refine ⟨fun ⟨ys, hys⟩ x hx => ?_, exists_mapM_eq_ok⟩
  obtain ⟨y, -, hy⟩ := exists_of_forall₂ ((mapM_eq_ok f xs ys).mp hys) hx
  exact ⟨y, hy⟩

theorem forall₂_congr_mem {R S : α → β → Prop} {xs : List α} {ys : List β}
    (h : ∀ x ∈ xs, ∀ y, R x y ↔ S x y) : List.Forall₂ R xs ys ↔ List.Forall₂ S xs ys := by
  induction xs generalizing ys with
  | nil => cases ys <;> simp
  | cons x xs ih =>
    rw [List.forall_mem_cons] at h
    cases ys with
    | nil => simp
    | cons y ys => rw [List.forall₂_cons, List.forall₂_cons, h.1, ih h.2]

end Py

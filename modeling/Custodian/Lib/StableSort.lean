import Mathlib.Data.List.Sort
import Mathlib.Data.List.TakeWhile

/-!
# Stable sorting

Lists are sorted by a test for less, which need not be an order of the whole type: it is enough that
it orders the elements of the list.  Elements of which neither is less keep their places.
-/

namespace Py.StableSort

variable {α κ : Type}

/-! ## Sorting by a test -/

/-- `lt` is a strict order of the elements, up to elements that are equal in it. -/
structure Ordered (lt : α → α → Bool) (l : List α) : Prop where
  asymm : ∀ a ∈ l, ∀ b ∈ l, lt a b = true → lt b a = false
  cotrans : ∀ a ∈ l, ∀ b ∈ l, ∀ c ∈ l, lt a c = true → lt a b = true ∨ lt b c = true

def sort (lt : α → α → Bool) (l : List α) : List α := l.insertionSort fun a b => lt b a = false

variable {lt : α → α → Bool} {l : List α}

theorem sort_perm (lt : α → α → Bool) (l : List α) : (sort lt l).Perm l :=
  List.perm_insertionSort _ l

theorem Ordered.of_subset {l' : List α} (h : Ordered lt l) (hsub : ∀ a ∈ l', a ∈ l) :
    Ordered lt l' where
  asymm a ha b hb := h.asymm a (hsub a ha) b (hsub b hb)
  cotrans a ha b hb c hc := h.cotrans a (hsub a ha) b (hsub b hb) c (hsub c hc)

theorem Ordered.swap (h : Ordered lt l) : Ordered (fun a b => lt b a) l where
  asymm a ha b hb := h.asymm b hb a ha
  cotrans a ha b hb c hc hac := (h.cotrans c hc b hb a ha hac).symm

/-- Where an element is put into a list that is sorted. -/
theorem orderedInsert_split {a : α} {s : List α} (h : Ordered lt (a :: s))
    (hs : s.Pairwise fun x y => lt y x = false) :
    ∃ before after, s = before ++ after ∧ (∀ b ∈ before, lt b a = true) ∧
      (∀ b ∈ after, lt b a = false) ∧
      s.orderedInsert (fun a b => lt b a = false) a = before ++ a :: after := by
  refine ⟨_, _, List.takeWhile_append_dropWhile.symm, fun b hb => ?_, ?_,
    List.orderedInsert_eq_take_drop _ a s⟩
  · simpa using List.mem_takeWhile_imp hb
  · have hsuffix := hs.sublist (List.dropWhile_sublist fun b => ¬ lt b a = false)
    cases hdrop : s.dropWhile fun b => ¬ lt b a = false with
    | nil => simp
    | cons d after =>
      have hd : lt d a = false := by
        have hhead := List.head?_dropWhile_not (fun b => ¬ lt b a = false) s
        rw [hdrop] at hhead
        simpa using hhead
      rw [hdrop, List.pairwise_cons] at hsuffix
      have hmem : ∀ b ∈ d :: after, b ∈ a :: s := fun b hb =>
        List.mem_cons_of_mem a ((List.dropWhile_sublist _).subset (hdrop ▸ hb))
      intro b hb
      rcases List.mem_cons.mp hb with rfl | hafter
      · exact hd
      · -- an element after one that is not less than `a` is not less either
        by_contra hlt
        rcases h.cotrans b (hmem b hb) d (hmem d List.mem_cons_self) a List.mem_cons_self
          (by simpa using hlt) with hbd | hda
        · rw [hsuffix.1 b hafter] at hbd
          cases hbd
        · rw [hd] at hda
          cases hda

/-- Two elements are exchanged when the later one is less. -/
theorem pairwise_sort_iff (h : Ordered lt l) (P : α → α → Prop) :
    (sort lt l).Pairwise P ↔ l.Pairwise fun x y => if lt y x = true then P y x else P x y := by
  induction l generalizing P with
  | nil => simp [sort]
  | cons a l ih =>
    have hl : Ordered lt l := h.of_subset fun b => List.mem_cons_of_mem a
    have hmem : ∀ b, b ∈ sort lt l ↔ b ∈ l := fun b => (sort_perm lt l).mem_iff
    have hsorted : (sort lt l).Pairwise fun x y => lt y x = false := by
      rw [ih hl]
      refine List.pairwise_of_forall_mem_list fun x hx y hy => ?_
      split
      case isTrue hlt => exact hl.asymm y hy x hx hlt
      case isFalse hlt => simpa using hlt
    obtain ⟨before, after, hsplit, hbefore, hafter, hinsert⟩ := orderedInsert_split
      (s := sort lt l) (h.of_subset fun b hb => by simpa [hmem] using hb) hsorted
    rw [show sort lt (a :: l) = (sort lt l).orderedInsert (fun a b => lt b a = false) a from rfl,
      hinsert, List.pairwise_cons, ← ih hl, hsplit]
    have hall : (∀ b ∈ l, if lt b a = true then P b a else P a b) ↔
        (∀ b ∈ before, P b a) ∧ ∀ b ∈ after, P a b := by
      simp only [← hmem, hsplit, List.forall_mem_append]
      refine and_congr (forall₂_congr fun b hb => ?_) (forall₂_congr fun b hb => ?_)
      · rw [if_pos (hbefore b hb)]
      · rw [if_neg (by simp [hafter b hb])]
    rw [hall, List.pairwise_append, List.pairwise_append, List.pairwise_cons]
    simp only [List.forall_mem_cons]
    grind

theorem pairwise_sort (h : Ordered lt l) : (sort lt l).Pairwise fun x y => lt y x = false := by
  rw [pairwise_sort_iff h]
  refine List.pairwise_of_forall_mem_list fun x hx y hy => ?_
  split
  case isTrue hlt => exact h.asymm y hy x hx hlt
  case isFalse hlt => simpa using hlt

/-- Elements of which none is less than another keep their places. -/
theorem filter_sort {p : α → Bool}
    (h : ∀ a ∈ l, ∀ b ∈ l, p a = true → p b = true → lt a b = false) :
    (sort lt l).filter p = l.filter p := by
  induction l with
  | nil => rfl
  | cons a l ih =>
    have ih := ih fun a ha b hb => h a (List.mem_cons_of_mem _ ha) b (List.mem_cons_of_mem _ hb)
    rw [show sort lt (a :: l) = (sort lt l).orderedInsert (fun a b => lt b a = false) a from rfl,
      List.orderedInsert_eq_take_drop]
    have hsplit := List.takeWhile_append_dropWhile (p := fun b => ¬ lt b a = false) (l := sort lt l)
    by_cases hp : p a = true
    · have hbefore : ((sort lt l).takeWhile fun b => ¬ lt b a = false).filter p = [] := by
        rw [List.filter_eq_nil_iff]
        intro b hb hpb
        have hlt := List.mem_takeWhile_imp hb
        have hmem : b ∈ l := (sort_perm lt l).mem_iff.mp ((List.takeWhile_sublist _).subset hb)
        rw [h b (List.mem_cons_of_mem _ hmem) a List.mem_cons_self hpb hp] at hlt
        simp at hlt
      rw [List.filter_append, hbefore, List.nil_append, List.filter_cons_of_pos hp,
        List.filter_cons_of_pos hp, ← ih, ← hsplit, List.filter_append, hbefore, List.nil_append,
        hsplit]
    · rw [List.filter_append, List.filter_cons_of_neg hp, List.filter_cons_of_neg hp, ← ih,
        ← List.filter_append, hsplit]

/-! ## Sorting by a key -/

/-- The test by a key; in reverse, elements that are equal keep their places too. -/
def byKey (lt : κ → κ → Bool) (reverse : Bool) (key : α → κ) (a b : α) : Bool :=
  if reverse then lt (key b) (key a) else lt (key a) (key b)

/-- `sorted(l, key=key, reverse=reverse)` as it is documented. -/
structure Sorting (lt : κ → κ → Bool) where
  sorted {α : Type} (key : α → κ) (reverse : Bool) : List α → List α
  perm {α : Type} (key : α → κ) (reverse : Bool) (l : List α) : (sorted key reverse l).Perm l
  eq_sort {α : Type} (key : α → κ) (reverse : Bool) (l : List α) :
    Ordered (byKey lt reverse key) l → sorted key reverse l = sort (byKey lt reverse key) l

variable {lt : κ → κ → Bool}

/-- The sorting that treats every list alike. -/
def Sorting.plain (lt : κ → κ → Bool) : Sorting lt where
  sorted key reverse := sort (byKey lt reverse key)
  perm _ _ := sort_perm _
  eq_sort _ _ _ _ := rfl

theorem byKey_asymm (hlt : ∀ x y, lt x y = true → lt y x = false) {reverse : Bool} {key : α → κ}
    {a b : α} (h : byKey lt reverse key a b = true) : byKey lt reverse key b a = false := by
  cases reverse <;> exact hlt _ _ h

theorem ordered_byKey_iff {key : α → κ} {reverse : Bool} {l : List α} :
    Ordered (byKey lt reverse key) l ↔ Ordered (fun a b => lt (key a) (key b)) l := by
  cases reverse with
  | false => rfl
  | true => exact ⟨Ordered.swap, Ordered.swap⟩

/-- A list that is not ordered can be put in a wrong order. -/
theorem exists_not_sorted (hlt : ∀ x y, lt x y = true → lt y x = false) {reverse : Bool}
    {key : α → κ} {l : List α} (h : ¬ Ordered (byKey lt reverse key) l) :
    ∃ l' : List α, l'.Perm l ∧ ¬ l'.Pairwise fun x y => byKey lt reverse key y x = false := by
  have hex : ∃ a ∈ l, ∃ b ∈ l, byKey lt reverse key a b = true := by
    by_contra hnone
    push Not at hnone
    refine h ⟨fun a ha b hb hab => absurd hab (hnone a ha b hb), fun a ha b _ c hc hac => ?_⟩
    exact absurd hac (hnone a ha c hc)
  obtain ⟨a, ha, b, hb, hab⟩ := hex
  obtain ⟨front, back, rfl⟩ := List.append_of_mem hb
  have ha' : a ∈ front ++ back := by
    rcases List.mem_append.mp ha with ha | ha
    · exact List.mem_append_left _ ha
    · rcases List.mem_cons.mp ha with rfl | ha
      · rw [byKey_asymm hlt hab] at hab
        cases hab
      · exact List.mem_append_right _ ha
  refine ⟨b :: (front ++ back), List.perm_middle.symm, fun hpair => ?_⟩
  rw [(List.pairwise_cons.mp hpair).1 a ha'] at hab
  cases hab

open Classical in
/-- A sorting that puts every list in a wrong order whose keys are not ordered. -/
noncomputable def Sorting.adverse (lt : κ → κ → Bool) (hlt : ∀ x y, lt x y = true → lt y x = false) :
    Sorting lt where
  sorted key reverse l :=
    if h : Ordered (byKey lt reverse key) l then sort (byKey lt reverse key) l
    else (exists_not_sorted hlt h).choose
  perm key reverse l := by
    split
    · exact sort_perm _ l
    · rename_i h
      exact (exists_not_sorted hlt h).choose_spec.1
  eq_sort _ _ _ h := dif_pos h

theorem Sorting.adverse_not_sorted {hlt : ∀ x y, lt x y = true → lt y x = false} {reverse : Bool}
    {key : α → κ} {l : List α} (h : ¬ Ordered (byKey lt reverse key) l) :
    ¬ ((Sorting.adverse lt hlt).sorted key reverse l).Pairwise
      fun x y => byKey lt reverse key y x = false := by
  rw [Sorting.adverse]
  simp only [dif_neg h]
  exact (exists_not_sorted hlt h).choose_spec.2

end Py.StableSort

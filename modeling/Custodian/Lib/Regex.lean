import Custodian.Lib.Text
import Mathlib.Data.List.TakeWhile

/-!
# Regular expressions

Expressions of character classes, sequences, optional parts, named groups and look-ahead, with the
ways to match them in the order in which a backtracking matcher tries them.
-/

namespace Py.Regex

/-- An expression with groups named by `ν`. -/
inductive Re (ν : Type) where
  | char (p : Char → Bool)
  /-- One or more of these characters, as many as possible. -/
  | chars (p : Char → Bool)
  | seq (r s : Re ν)
  /-- The part, or else nothing. -/
  | opt (r : Re ν)
  | group (name : ν) (r : Re ν)
  /-- The part follows, but is not taken. -/
  | ahead (r : Re ν)

/-- A way to match: the text that is taken, its groups, and the rest. -/
structure Match (ν : Type) where
  text : Text
  groups : List (ν × Text)
  rest : Text

variable {ν : Type}

/-- The ways to match the beginning of a text, the preferred ones first. -/
def Re.matchesOf : Re ν → Text → List (Match ν)
  | .char _, [] => []
  | .char p, c :: t => if p c then [⟨[c], [], t⟩] else []
  | .chars p, t => ((List.range (t.takeWhile p).length).map fun i =>
      ⟨t.take (i + 1), [], t.drop (i + 1)⟩).reverse
  | .seq r s, t => (r.matchesOf t).flatMap fun m =>
      (s.matchesOf m.rest).map fun n => ⟨m.text ++ n.text, m.groups ++ n.groups, n.rest⟩
  | .opt r, t => r.matchesOf t ++ [⟨[], [], t⟩]
  | .group name r, t => (r.matchesOf t).map fun m => ⟨m.text, (name, m.text) :: m.groups, m.rest⟩
  | .ahead r, t => (r.matchesOf t).head?.toList.map fun m => ⟨[], m.groups, t⟩

/-- `re.fullmatch`: the groups of the first way that takes the whole text. -/
def fullmatch (r : Re ν) (t : Text) : Option (List (ν × Text)) :=
  ((r.matchesOf t).find? fun m => m.rest = []).map Match.groups

/-! ## Matches -/

variable {w t rest : Text} {gs : List (ν × Text)} {p : Char → Bool} {r s : Re ν}

theorem mem_char : ⟨w, gs, rest⟩ ∈ (Re.char p).matchesOf t ↔
    gs = [] ∧ ∃ c, p c = true ∧ w = [c] ∧ t = c :: rest := by
  cases t with
  | nil => simp [Re.matchesOf]
  | cons c t =>
    rw [Re.matchesOf]
    split
    · rename_i hc
      simp only [List.mem_singleton, Match.mk.injEq, List.cons.injEq]
      constructor
      · rintro ⟨rfl, rfl, rfl⟩
        exact ⟨rfl, c, hc, rfl, rfl, rfl⟩
      · rintro ⟨rfl, _, -, rfl, rfl, rfl⟩
        exact ⟨rfl, rfl, rfl⟩
    · rename_i hc
      refine iff_of_false List.not_mem_nil ?_
      rintro ⟨-, c', hc', -, heq⟩
      rw [← (List.cons.inj heq).1] at hc'
      exact hc hc'

theorem mem_chars : ⟨w, gs, rest⟩ ∈ (Re.chars p).matchesOf t ↔
    gs = [] ∧ w ≠ [] ∧ (∀ c ∈ w, p c = true) ∧ t = w ++ rest := by
  change _ ∈ ((List.range (t.takeWhile p).length).map _).reverse ↔ _
  simp only [List.mem_reverse, List.mem_map, List.mem_range, Match.mk.injEq]
  constructor
  · rintro ⟨i, hi, rfl, rfl, rfl⟩
    have hpre : t.take (i + 1) <+: t.takeWhile p := by
      refine List.prefix_of_prefix_length_le (List.take_prefix _ _) (List.takeWhile_prefix p) ?_
      rw [List.length_take]
      omega
    refine ⟨rfl, ?_, fun c hc => List.mem_takeWhile_imp (hpre.subset hc),
      (List.take_append_drop _ _).symm⟩
    rw [Ne, List.take_eq_nil_iff]
    rintro (h | rfl)
    · cases h
    · cases hi
  · rintro ⟨rfl, hw, hp, rfl⟩
    have hpos := List.length_pos_of_ne_nil hw
    refine ⟨w.length - 1, ?_, ?_, rfl, ?_⟩
    · rw [List.takeWhile_append_of_pos hp, List.length_append]
      omega
    · rw [Nat.sub_add_cancel hpos, List.take_left']
      rfl
    · rw [Nat.sub_add_cancel hpos, List.drop_left']
      rfl

theorem mem_seq : ⟨w, gs, rest⟩ ∈ (Re.seq r s).matchesOf t ↔ ∃ w₁ gs₁ mid w₂ gs₂,
    ⟨w₁, gs₁, mid⟩ ∈ r.matchesOf t ∧ ⟨w₂, gs₂, rest⟩ ∈ s.matchesOf mid ∧
      w = w₁ ++ w₂ ∧ gs = gs₁ ++ gs₂ := by
  change _ ∈ (r.matchesOf t).flatMap _ ↔ _
  simp only [List.mem_flatMap, List.mem_map, Match.mk.injEq]
  constructor
  · rintro ⟨⟨w₁, gs₁, mid⟩, h₁, ⟨w₂, gs₂, _⟩, h₂, rfl, rfl, rfl⟩
    exact ⟨w₁, gs₁, mid, w₂, gs₂, h₁, h₂, rfl, rfl⟩
  · rintro ⟨w₁, gs₁, mid, w₂, gs₂, h₁, h₂, rfl, rfl⟩
    exact ⟨⟨w₁, gs₁, mid⟩, h₁, ⟨w₂, gs₂, rest⟩, h₂, rfl, rfl, rfl⟩

theorem mem_opt : ⟨w, gs, rest⟩ ∈ (Re.opt r).matchesOf t ↔
    ⟨w, gs, rest⟩ ∈ r.matchesOf t ∨ w = [] ∧ gs = [] ∧ rest = t := by
  change _ ∈ r.matchesOf t ++ [_] ↔ _
  simp

theorem mem_group {name : ν} : ⟨w, gs, rest⟩ ∈ (Re.group name r).matchesOf t ↔
    ∃ gs', ⟨w, gs', rest⟩ ∈ r.matchesOf t ∧ gs = (name, w) :: gs' := by
  change _ ∈ (r.matchesOf t).map _ ↔ _
  simp only [List.mem_map, Match.mk.injEq]
  constructor
  · rintro ⟨⟨_, gs', _⟩, h, rfl, rfl, rfl⟩
    exact ⟨gs', h, rfl⟩
  · rintro ⟨gs', h, rfl⟩
    exact ⟨⟨w, gs', rest⟩, h, rfl, rfl, rfl⟩

theorem mem_ahead (hgroups : ∀ m ∈ r.matchesOf t, m.groups = []) :
    ⟨w, gs, rest⟩ ∈ (Re.ahead r).matchesOf t ↔
      w = [] ∧ gs = [] ∧ rest = t ∧ ∃ m, m ∈ r.matchesOf t := by
  change _ ∈ (r.matchesOf t).head?.toList.map _ ↔ _
  cases h : r.matchesOf t with
  | nil => simp
  | cons m ms =>
    have hm : m.groups = [] := hgroups m (h ▸ List.mem_cons_self)
    simp only [List.head?_cons, Option.toList_some, List.map_cons, List.map_nil,
      List.mem_singleton, Match.mk.injEq, hm]
    constructor
    · rintro ⟨rfl, rfl, rfl⟩
      exact ⟨rfl, rfl, rfl, m, List.mem_cons_self⟩
    · rintro ⟨rfl, rfl, rfl, -⟩
      exact ⟨rfl, rfl, rfl⟩

/-- A match takes a beginning of the text. -/
theorem append_of_mem {m : Match ν} (h : m ∈ r.matchesOf t) : t = m.text ++ m.rest := by
  induction r generalizing t m with
  | char p =>
    obtain ⟨-, c, -, hw, rfl⟩ := mem_char.mp h
    rw [hw]
    rfl
  | chars p => exact (mem_chars.mp h).2.2.2
  | seq r s ihr ihs =>
    obtain ⟨w₁, gs₁, mid, w₂, gs₂, h₁, h₂, hw, -⟩ := mem_seq.mp h
    rw [ihr h₁, ihs h₂, hw, List.append_assoc]
  | opt r ih =>
    rcases mem_opt.mp h with h | ⟨hw, -, hrest⟩
    · exact ih h
    · rw [hw, hrest]
      rfl
  | group name r ih =>
    obtain ⟨gs', h, -⟩ := mem_group.mp h
    exact ih (m := ⟨m.text, gs', m.rest⟩) h
  | ahead r ih =>
    obtain ⟨m', -, rfl⟩ := List.mem_map.mp h
    rfl

/-! ## Matching the whole text -/

theorem fullmatch_eq_some (h : ⟨t, gs, []⟩ ∈ r.matchesOf t)
    (hone : ∀ gs', ⟨t, gs', []⟩ ∈ r.matchesOf t → gs' = gs) : fullmatch r t = some gs := by
  rw [fullmatch, Option.map_eq_some_iff]
  cases hfind : (r.matchesOf t).find? fun m => m.rest = [] with
  | none => exact absurd (decide_eq_true rfl) (List.find?_eq_none.mp hfind _ h)
  | some m =>
    have hm := List.mem_of_find?_eq_some hfind
    have hrest : m.rest = [] := by simpa using List.find?_some hfind
    obtain ⟨w, gs', _⟩ := m
    obtain rfl : _ = [] := hrest
    have ht := append_of_mem hm
    rw [List.append_nil] at ht
    exact ⟨_, rfl, hone gs' (by rw [ht]; rw [ht] at hm; exact hm)⟩

theorem fullmatch_eq_none_iff : fullmatch r t = none ↔
    ∀ gs, (⟨t, gs, []⟩ : Match ν) ∉ r.matchesOf t := by
  rw [fullmatch, Option.map_eq_none_iff, List.find?_eq_none]
  constructor
  · exact fun h gs hmem => h _ hmem (decide_eq_true rfl)
  · intro h m hm hrest
    have ht := append_of_mem hm
    obtain ⟨w, gs, _⟩ := m
    obtain rfl : _ = [] := of_decide_eq_true hrest
    rw [List.append_nil] at ht
    exact h gs (by rw [ht]; rw [ht] at hm; exact hm)

end Py.Regex

import Custodian.Lib.AppendNew
import Custodian.Lib.Nested

/-!
# Values of policy statements

The value of a statement's element is a string, a list of strings or a dictionary of
such values.  `merge_dict` and `compare_dicts_using_sets` of `c7n/utils.py` are how a
dictionary is looked for in another one: it is merged into it, and the result is
compared with it.
-/

namespace Custodian.Statements

open Py

/-- A string or a list of strings. -/
inductive Strings where
  | one (t : Text)
  | many (xs : List Text)
  deriving DecidableEq, Repr

def Strings.items : Strings → List Text
  | .one t => [t]
  | .many xs => xs

abbrev Value := Nested Strings

/-- `xs <= ys` for sets -/
def subset (xs ys : List Text) : Bool := xs.all fun x => x ∈ ys

/-- `xs == ys` for sets -/
def sameItems (xs ys : List Text) : Bool := subset xs ys && subset ys xs

/-- `format_to_set` of a string or a list; a set is kept as a list. -/
def formatToSet (s : Strings) : List Text := s.items

/-- `format_dict_with_sets`, and `format_to_set` of a value that is no dictionary. -/
def formatDictWithSets (v : Value) : Nested (List Text) := v.mapLeaves formatToSet

/-! ## Merging -/

/-- The exception of values that cannot be merged. -/
def notConformable : Exn := .raised "Exception".toList

/-- What `d[k]` becomes when it and the value are strings or lists. -/
def mergeStrings : Strings → Strings → Strings
  | .many xs, .many ys => .many (ys.foldl (fun d y => if y ∈ d then d else d ++ [y]) xs)
  | .many xs, .one t => .many (if t ∈ xs then xs else xs ++ [t])
  | .one t, .many ys => .many (if t ∈ ys then ys else t :: ys)
  | .one _, .one t => .one t

mutual

/-- `merge_dict`, where the first dictionary has been copied. -/
def mergeDict (d : Entries Strings) : Entries Strings → Except Exn (Entries Strings)
  | .nil => .ok d
  | .cons k v b => do
    let w ← mergeValue (d.lookup k) v
    mergeDict (d.set k w) b

/-- What `d[k]` becomes. -/
def mergeValue : Option Value → Value → Except Exn Value
  | none, v => .ok v
  | some (.dict d), .dict b => do return .dict (← mergeDict d b)
  | some (.leaf s), .leaf s' => .ok (.leaf (mergeStrings s s'))
  | some (.dict _), .leaf (.one t) => .ok (.leaf (.one t))
  | some _, _ => .error notConformable

end

/-! ## Comparing -/

/-- The test of two values that are strings or lists: as sets when one is a list. -/
def compareStrings : Strings → Strings → Bool
  | .one s, .one t => s = t
  | s, t => sameItems (formatToSet s) (formatToSet t)

mutual

/-- The body of the loop of `compare_dicts_using_sets`; equal dictionaries also compare
as equal, so that the test which follows a comparison in the source adds nothing. -/
def compareValue : Value → Value → Bool
  | .dict b, .dict a => sameItems a.keys b.keys && compareEntries b a
  | .leaf t, .leaf s => compareStrings s t
  | _, _ => false

def compareEntries : Entries Strings → Entries Strings → Bool
  | .nil, _ => true
  | .cons k v b, a => (a.lookup k).any (compareValue v ·) && compareEntries b a

end

/-- `compare_dicts_using_sets` -/
def compareDicts (a b : Entries Strings) : Bool := sameItems a.keys b.keys && compareEntries b a

/-! ## Inclusion -/

theorem subset_iff {xs ys : List Text} : subset xs ys = true ↔ xs ⊆ ys := by
  simp [subset, List.subset_def]

theorem sameItems_iff {xs ys : List Text} : sameItems xs ys = true ↔ xs ⊆ ys ∧ ys ⊆ xs := by
  rw [sameItems, Bool.and_eq_true, subset_iff, subset_iff]

theorem compareStrings_iff {s t : Strings} :
    compareStrings s t = true ↔ sameItems s.items t.items = true := by
  rcases s with s | xs <;> rcases t with t | ys
  · simp only [compareStrings, decide_eq_true_eq, sameItems_iff, Strings.items]
    constructor
    · rintro rfl
      exact ⟨List.Subset.refl _, List.Subset.refl _⟩
    · rintro ⟨h, -⟩
      simpa using h
  · rfl
  · rfl
  · rfl

/-- The items of the one are among the items of the other. -/
def within (s t : Strings) : Bool := subset s.items t.items

theorem formatDictWithSets_eq {v w : Value} (hv : v.distinct = true) (hw : w.distinct = true) :
    (formatDictWithSets v).eq sameItems (formatDictWithSets w) = true ↔
      v.includedIn within w = true ∧ w.includedIn within v = true := by
  rw [formatDictWithSets, formatDictWithSets, Nested.eq_mapLeaves]
  exact Nested.eq_iff_includedIn (fun a b => by rw [sameItems, Bool.and_eq_true]; rfl) hv hw

/-! ## When merging raises -/

mutual

/-- The first value cannot be merged into the second one. -/
def clashes : Value → Value → Bool
  | .dict b, .dict d => clashesIn b d
  | .dict _, .leaf _ => true
  | .leaf (.many _), .dict _ => true
  | .leaf _, _ => false

def clashesIn : Entries Strings → Entries Strings → Bool
  | .nil, _ => false
  | .cons k v b, d => (d.lookup k).any (clashes v ·) || clashesIn b d

end

theorem clashesIn_iff {b : Entries Strings} (hb : b.distinct = true) {d : Entries Strings} :
    clashesIn b d = true ↔
      ∃ k v w, b.lookup k = some v ∧ d.lookup k = some w ∧ clashes v w = true :=
  Entries.exists_iff (f := fun _ => clashes) (fun _ => by rw [clashesIn])
    (fun _ _ _ _ => by rw [clashesIn]) hb

/-! ## Merging and comparing is inclusion -/

theorem mergeDict_ok {b : Entries Strings} (hb : b.distinct = true) {d : Entries Strings}
    (h : ∀ k v, b.lookup k = some v → ∃ w, mergeValue (d.lookup k) v = .ok w) :
    ∃ m, mergeDict d b = .ok m ∧ (∀ k, b.lookup k = none → m.lookup k = d.lookup k) ∧
      ∀ k v, b.lookup k = some v →
        ∃ w, mergeValue (d.lookup k) v = .ok w ∧ m.lookup k = some w := by
  induction b using Entries.induction generalizing d with
  | nil => exact ⟨d, by rw [mergeDict], fun _ _ => rfl, fun k v hv => by cases hv⟩
  | cons k v b ih =>
    rw [Entries.distinct_cons] at hb
    simp only [Entries.lookup_cons_eq_some hb.1.1] at h ⊢
    have hother : ∀ k' v', b.lookup k' = some v' → k' ≠ k := by
      rintro k' v' hv' rfl
      exact hb.1.1 (Entries.mem_keys.mpr ⟨v', hv'⟩)
    obtain ⟨w, hw⟩ := h k v (Or.inl ⟨rfl, rfl⟩)
    have hset : ∀ k' v', b.lookup k' = some v' → (d.set k w).lookup k' = d.lookup k' :=
      fun k' v' hv' => by rw [Entries.lookup_set, if_neg (hother k' v' hv')]
    obtain ⟨m, hm, hkeep, hmerged⟩ := ih hb.2 (d := d.set k w) fun k' v' hv' => by
      rw [hset k' v' hv']
      exact h k' v' (Or.inr hv')
    refine ⟨m, by simp only [mergeDict, hw, bind, Except.bind, hm], ?_, ?_⟩
    · intro k' hk'
      rw [Entries.lookup] at hk'
      split at hk'
      · cases hk'
      · rename_i hne
        rw [hkeep k' hk', Entries.lookup_set, if_neg hne]
    · rintro k' v' (⟨rfl, rfl⟩ | hv')
      · refine ⟨w, hw, ?_⟩
        rw [hkeep k' (Entries.lookup_eq_none.mpr hb.1.1), Entries.lookup_set, if_pos rfl]
      · obtain ⟨w', hw', hm'⟩ := hmerged k' v' hv'
        exact ⟨w', by rw [← hset k' v' hv', hw'], hm'⟩

theorem mergeDict_error {b : Entries Strings} (hb : b.distinct = true) {d : Entries Strings}
    {k : Text} {v : Value} (hv : b.lookup k = some v)
    (h : ∃ e, mergeValue (d.lookup k) v = .error e) : ∃ e, mergeDict d b = .error e := by
  induction b using Entries.induction generalizing d with
  | nil => cases hv
  | cons k' v' b ih =>
    rw [Entries.distinct_cons] at hb
    simp only [mergeDict, bind, Except.bind]
    rcases (Entries.lookup_cons_eq_some hb.1.1).mp hv with ⟨rfl, rfl⟩ | hrest
    · obtain ⟨e, he⟩ := h
      exact ⟨e, by rw [he]⟩
    · cases hw : mergeValue (d.lookup k') v' with
      | error e => exact ⟨e, rfl⟩
      | ok w =>
        have hne : k ≠ k' := by
          rintro rfl
          exact hb.1.1 (Entries.mem_keys.mpr ⟨v, hrest⟩)
        refine ih hb.2 hrest (d := d.set k' w) ?_
        rwa [Entries.lookup_set, if_neg hne]

theorem mem_items_mergeStrings {s t : Strings} (h : (∃ xs, s = .many xs) ∨ ∃ ys, t = .many ys)
    (x : Text) : x ∈ (mergeStrings s t).items ↔ x ∈ s.items ∨ x ∈ t.items := by
  rcases s with s | xs <;> rcases t with t | ys
  · simp at h
  · by_cases hs : s ∈ ys
    · simp only [mergeStrings, if_pos hs, Strings.items, List.mem_singleton]
      exact ⟨Or.inr, fun h => h.elim (fun h => h ▸ hs) id⟩
    · rw [mergeStrings, if_neg hs]
      simp [Strings.items]
  · by_cases ht : t ∈ xs
    · simp only [mergeStrings, if_pos ht, Strings.items, List.mem_singleton]
      exact ⟨Or.inl, fun h => h.elim id fun h => h ▸ ht⟩
    · simp only [mergeStrings, if_neg ht, Strings.items, List.mem_singleton, List.mem_append]
  · have hitems : (mergeStrings (.many xs) (.many ys)).items = appendNew xs ys := by
      rw [mergeStrings, Strings.items, appendNew]
      congr!
    rw [hitems, mem_appendNew]
    rfl

theorem compareStrings_mergeStrings (s t : Strings) :
    compareStrings (mergeStrings s t) s = true ↔ within t s = true := by
  rw [compareStrings_iff, sameItems_iff, within, subset_iff]
  by_cases h : (∃ xs, s = .many xs) ∨ ∃ ys, t = .many ys
  · simp only [List.subset_def, mem_items_mergeStrings h]
    exact ⟨fun h x hx => h.1 (Or.inr hx), fun h => ⟨fun hx => hx.elim id fun hx => h hx, Or.inl⟩⟩
  · rcases s with s | xs <;> rcases t with t | ys
    · simp only [mergeStrings, Strings.items, List.cons_subset, List.mem_singleton]
      exact ⟨fun h => h.1, fun h => ⟨h, by simp [h]⟩⟩
    · exact absurd (Or.inr ⟨ys, rfl⟩) h
    · exact absurd (Or.inl ⟨xs, rfl⟩) h
    · exact absurd (Or.inl ⟨xs, rfl⟩) h

theorem compareEntries_iff {b : Entries Strings} (hb : b.distinct = true)
    {a : Entries Strings} : compareEntries b a = true ↔
      ∀ k v, b.lookup k = some v → ∃ w, a.lookup k = some w ∧ compareValue v w = true :=
  Entries.forall_iff (f := fun _ => compareValue) (fun _ => by rw [compareEntries])
    (fun _ _ _ _ => by rw [compareEntries]) hb

theorem compareValue_self {v : Value} (hv : v.distinct = true) : compareValue v v = true := by
  induction v using Nested.lookup_induction with
  | leaf s => exact compareStrings_iff.mpr (sameItems_iff.mpr ⟨fun _ h => h, fun _ h => h⟩)
  | dict es ih =>
    rw [compareValue, Bool.and_eq_true, compareEntries_iff hv]
    refine ⟨sameItems_iff.mpr ⟨fun _ h => h, fun _ h => h⟩, fun k v hk => ?_⟩
    exact ⟨v, hk, ih k v hk (Entries.distinct_of_lookup hv hk)⟩

theorem compareValue_merged {b d m : Entries Strings} (hu : (Nested.dict b).distinct = true)
    (hv : (Nested.dict d).distinct = true)
    (hkeep : ∀ k, b.lookup k = none → m.lookup k = d.lookup k)
    (hmerged : ∀ k x, b.lookup k = some x → ∃ w, mergeValue (d.lookup k) x = .ok w ∧
      m.lookup k = some w)
    (hvalue : ∀ k x y, b.lookup k = some x → d.lookup k = some y →
      ∃ w, mergeValue (some y) x = .ok w ∧
        (compareValue y w = true ↔ x.includedIn within y = true)) :
    compareValue (.dict d) (.dict m) = true ↔ (Nested.dict b).includedIn within (.dict d) = true := by
  rw [compareValue, Bool.and_eq_true, compareEntries_iff hv, Nested.includedIn,
    Entries.allIn_iff hu, sameItems_iff]
  constructor
  · rintro ⟨⟨hsub, -⟩, hall⟩ k x hx
    obtain ⟨w, hw, hmk⟩ := hmerged k x hx
    obtain ⟨y, hy⟩ := Entries.mem_keys.mp (hsub (Entries.mem_keys.mpr ⟨w, hmk⟩))
    obtain ⟨w', hw', hcompare⟩ := hall k y hy
    obtain ⟨w'', hw'', hiff⟩ := hvalue k x y hx hy
    rw [hy, hw'', Except.ok.injEq] at hw
    rw [hmk, Option.some.injEq] at hw'
    subst hw hw'
    exact ⟨y, hy, hiff.mp hcompare⟩
  · intro hall
    have hlookup : ∀ k y, d.lookup k = some y →
        ∃ w, m.lookup k = some w ∧ compareValue y w = true := by
      intro k y hy
      cases hx : b.lookup k with
      | none =>
        exact ⟨y, by rw [hkeep k hx, hy], compareValue_self (Entries.distinct_of_lookup hv hy)⟩
      | some x =>
        obtain ⟨w, hw, hmk⟩ := hmerged k x hx
        obtain ⟨w', hw', hiff⟩ := hvalue k x y hx hy
        rw [hy, hw', Except.ok.injEq] at hw
        subst hw
        obtain ⟨y', hy', hxy⟩ := hall k x hx
        rw [hy, Option.some.injEq] at hy'
        subst hy'
        exact ⟨w', hmk, hiff.mpr hxy⟩
    refine ⟨⟨fun k hk => ?_, fun k hk => ?_⟩, hlookup⟩
    · obtain ⟨w, hw⟩ := Entries.mem_keys.mp hk
      cases hx : b.lookup k with
      | none => exact Entries.mem_keys.mpr ⟨w, by rw [← hkeep k hx, hw]⟩
      | some x =>
        obtain ⟨y, hy, -⟩ := hall k x hx
        exact Entries.mem_keys.mpr ⟨y, hy⟩
    · obtain ⟨y, hy⟩ := Entries.mem_keys.mp hk
      obtain ⟨w, hw, -⟩ := hlookup k y hy
      exact Entries.mem_keys.mpr ⟨w, hw⟩

theorem mergeValue_spec {u v : Value} (hu : u.distinct = true) (hv : v.distinct = true) :
    (clashes u v = true → ∃ e, mergeValue (some v) u = .error e) ∧
      (clashes u v = false → ∃ w, mergeValue (some v) u = .ok w ∧
        (compareValue v w = true ↔ u.includedIn within v = true)) := by
  induction u using Nested.lookup_induction generalizing v with
  | leaf t =>
    cases v with
    | leaf s =>
      have hno : clashes (.leaf t) (.leaf s) = false := by cases t <;> rfl
      rw [hno]
      refine ⟨(fun h => by cases h), fun _ => ⟨.leaf (mergeStrings s t), by rw [mergeValue], ?_⟩⟩
      rw [compareValue, Nested.includedIn]
      exact compareStrings_mergeStrings s t
    | dict d =>
      cases t with
      | one t =>
        refine ⟨(fun h => by cases h), fun _ => ⟨.leaf (.one t), by rw [mergeValue], ?_⟩⟩
        simp [compareValue, Nested.includedIn]
      | many ys => exact ⟨fun _ => ⟨notConformable, by simp [mergeValue]⟩, (fun h => by cases h)⟩
  | dict b ih =>
    cases v with
    | leaf s => exact ⟨fun _ => ⟨notConformable, by simp [mergeValue]⟩, (fun h => by cases h)⟩
    | dict d =>
      have hclash : clashes (.dict b) (.dict d) = clashesIn b d := by rw [clashes]
      rw [hclash]
      constructor
      · intro h
        obtain ⟨k, x, y, hx, hy, hxy⟩ := (clashesIn_iff hu).mp h
        obtain ⟨e, he⟩ := (ih k x hx (Entries.distinct_of_lookup hu hx)
          (Entries.distinct_of_lookup hv hy)).1 hxy
        obtain ⟨e', he'⟩ := mergeDict_error hu (d := d) hx ⟨e, by rw [hy, he]⟩
        exact ⟨e', by simp only [mergeValue, he', bind, Except.bind]⟩
      · intro h
        have hno : ∀ k x y, b.lookup k = some x → d.lookup k = some y → clashes x y = false := by
          intro k x y hx hy
          cases hxy : clashes x y
          · rfl
          · rw [(clashesIn_iff hu).mpr ⟨k, x, y, hx, hy, hxy⟩] at h
            cases h
        have hvalue : ∀ k x y, b.lookup k = some x → d.lookup k = some y →
            ∃ w, mergeValue (some y) x = .ok w ∧
              (compareValue y w = true ↔ x.includedIn within y = true) := fun k x y hx hy =>
          (ih k x hx (Entries.distinct_of_lookup hu hx) (Entries.distinct_of_lookup hv hy)).2
            (hno k x y hx hy)
        obtain ⟨m, hm, hkeep, hmerged⟩ := mergeDict_ok hu (d := d) fun k x hx => by
          cases hy : d.lookup k with
          | none => exact ⟨x, by rw [mergeValue]⟩
          | some y =>
            obtain ⟨w, hw, -⟩ := hvalue k x y hx hy
            exact ⟨w, hw⟩
        refine ⟨.dict m, by simp only [mergeValue, hm, bind, Except.bind, pure, Except.pure], ?_⟩
        exact compareValue_merged hu hv hkeep hmerged hvalue

end Custodian.Statements

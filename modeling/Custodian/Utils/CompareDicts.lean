import Custodian.Lib.NestedMerge
import Custodian.Statements.Values
import Mathlib.Data.Finset.Dedup

/-!
# Comparing dictionaries with sets

`compare_dicts_using_sets` of `c7n/utils.py` stores sets in its first argument: a list that it meets
there becomes a set, and so does a text that meets a list.
-/

namespace Custodian.CompareDicts

open Py Custodian.Statements

/-- A text, a list of texts, or a set that has been stored in its place. -/
inductive Held where
  | given (x : Strings)
  | set (xs : Finset Text)
  deriving DecidableEq

namespace Held

/-- `isinstance(x, str)` -/
def isStr : Held → Bool
  | given (.one _) => true
  | _ => false

/-- `isinstance(x, list)` -/
def isList : Held → Bool
  | given (.many _) => true
  | _ => false

/-- The set of the value. -/
def items : Held → Finset Text
  | given x => x.items.toFinset
  | set xs => xs

/-- `format_to_set` -/
def formatToSet (x : Held) : Held := set x.items

end Held

/-- `format_dict_with_sets` -/
def formatDictWithSets (v : Nested Held) : Nested Held := v.mapLeaves Held.formatToSet

/-- `==` -/
def equal (v w : Nested Held) : Bool := v.eq (fun x y => x = y) w

/-- A value as it is given. -/
def asGiven (v : Nested Strings) : Nested Held := v.mapLeaves .given

/-- `a[k]` and `v` after the tests for lists. -/
def convert (x v : Held) : Held × Held :=
  let p := if v.isList then (if x.isStr then x.formatToSet else x, v.formatToSet) else (x, v)
  if p.1.isList then (p.1.formatToSet, if p.2.isStr then p.2.formatToSet else p.2) else p

mutual

/-- The body of the loop: whether it goes on, and what `a[k]` has become. -/
def compareItem (x : Nested Held) : Nested Strings → Bool × Nested Held
  | .leaf v =>
    match x with
    | .leaf x =>
      let p := convert x (.given v)
      (p.2 = p.1, .leaf p.1)
    | .dict a => (false, .dict a)
  | .dict b =>
    match x with
    | .leaf x => (false, .leaf (if x.isList then x.formatToSet else x))
    | .dict a =>
      let p := if sameItems a.keys b.keys then compareLoop a b else (false, a)
      (p.1 || equal (asGiven (.dict b)) (.dict p.2), .dict p.2)

/-- The loop over the entries of `b`, of which nothing is stored; both have the same keys. -/
def compareLoop (a : Entries Held) : Entries Strings → Bool × Entries Held
  | .nil => (true, a)
  | .cons k v b =>
    match a.lookup k with
    | none => (false, a)
    | some x =>
      let p := compareItem x v
      if p.1 then compareLoop (a.set k p.2) b else (false, a.set k p.2)

end

/-- `compare_dicts_using_sets`, and the first argument afterwards. -/
def compareDictsUsingSets (a : Entries Held) (b : Entries Strings) : Bool × Entries Held :=
  if sameItems a.keys b.keys then compareLoop a b else (false, a)

/-- A leaf stays or becomes the set of its texts. -/
def Becomes (x y : Nested Held) : Prop :=
  ∀ path h, x.find path = some (.leaf h) →
    y.find path = some (.leaf h) ∨ y.find path = some (.leaf h.formatToSet)

/-- Equal as sets, with no text in the place of a set. -/
def Matches (x : Nested Held) (v : Nested Strings) : Prop :=
  equal (formatDictWithSets x) (formatDictWithSets (asGiven v)) = true ∧
    ∀ path xs t, x.find path = some (.leaf (.set xs)) → v.find path ≠ some (.leaf (.one t))

/-- What comparing two dictionaries says and leaves. -/
structure Compares (a b : Entries Strings) : Prop where
  exact : (compareDictsUsingSets (a.mapLeaves .given) b).1 = true ↔
    equal (formatDictWithSets (asGiven (.dict a))) (formatDictWithSets (asGiven (.dict b))) = true
  symmetric : (compareDictsUsingSets (a.mapLeaves .given) b).1 =
    (compareDictsUsingSets (b.mapLeaves .given) a).1
  /-- Only lists and texts of the first one are replaced, by their sets. -/
  becomes : Becomes (asGiven (.dict a)) (.dict (compareDictsUsingSets (a.mapLeaves .given) b).2)
  formats : formatDictWithSets (.dict (compareDictsUsingSets (a.mapLeaves .given) b).2) =
    formatDictWithSets (asGiven (.dict a))
  /-- Another one, without a text in the place of a set, compares as it would have before. -/
  again : ∀ c : Entries Strings, c.distinct = true →
    (∀ path xs t, (Nested.dict (compareDictsUsingSets (a.mapLeaves .given) b).2).find path =
      some (.leaf (.set xs)) → (Nested.dict c).find path ≠ some (.leaf (.one t))) →
    (compareDictsUsingSets (compareDictsUsingSets (a.mapLeaves .given) b).2 c).1 =
      (compareDictsUsingSets (a.mapLeaves .given) c).1

/-! ## One value -/

theorem Becomes.refl (x : Nested Held) : Becomes x x := fun _ _ h => Or.inl h

theorem Held.formatToSet_inj {x y : Held} : x.formatToSet = y.formatToSet ↔ x.items = y.items :=
  ⟨Held.set.inj, congrArg Held.set⟩

theorem convert_fst (x : Held) (v : Strings) :
    (convert x (.given v)).1 = x ∨ (convert x (.given v)).1 = x.formatToSet := by
  rcases x with (s | xs) | xs <;> rcases v with t | ys
  all_goals first | exact Or.inl rfl | exact Or.inr rfl

theorem convert_eq_iff (x : Held) (v : Strings) :
    (convert x (.given v)).2 = (convert x (.given v)).1 ↔
      x.formatToSet = (Held.given v).formatToSet ∧ ∀ xs t, x = .set xs → v ≠ .one t := by
  rcases x with (s | xs) | xs <;> rcases v with t | ys
  case given.one.one =>
    change Held.given (.one t) = .given (.one s) ↔ _
    constructor
    · intro h
      obtain rfl := Strings.one.inj (Held.given.inj h)
      exact ⟨rfl, nofun⟩
    · rintro ⟨h, -⟩
      have hsets : [s].toFinset = [t].toFinset := Held.formatToSet_inj.mp h
      have hmem : s ∈ [t].toFinset := hsets ▸ List.mem_toFinset.mpr (.head _)
      rw [List.mem_singleton.mp (List.mem_toFinset.mp hmem)]
  case set.one => exact iff_of_false nofun fun h => h.2 xs t rfl rfl
  all_goals
    refine ⟨fun h => ⟨h.symm, fun xs t hx hv => ?_⟩, fun h => h.1.symm⟩
    first | exact Held.noConfusion hx | exact Strings.noConfusion hv

theorem distinct_of_formats {x y : Nested Held} (h : formatDictWithSets y = formatDictWithSets x) :
    y.distinct = x.distinct := by
  rw [← Nested.distinct_mapLeaves Held.formatToSet y, ← Nested.distinct_mapLeaves Held.formatToSet x]
  exact congrArg Nested.distinct h

theorem equal_symm {v w : Nested Held} (hv : v.distinct = true) (hw : w.distinct = true) :
    equal v w = equal w v :=
  Nested.eq_symm (fun _ _ => decide_eq_decide.mpr eq_comm) hv hw

theorem matches_leaf_iff {x : Held} {v : Strings} : Matches (.leaf x) (.leaf v) ↔
    x.formatToSet = (Held.given v).formatToSet ∧ ∀ xs t, x = .set xs → v ≠ .one t := by
  refine and_congr decide_eq_true_iff ⟨fun h xs t hx hv => ?_, fun h path xs t hx hv => ?_⟩
  · exact h [] xs t (congrArg (fun x => some (Nested.leaf x)) hx)
      (congrArg (fun v => some (Nested.leaf v)) hv)
  · exact h xs t (Nested.leaf.inj (Nested.find_leaf_eq_some.mp hx).2).symm
      (Nested.leaf.inj (Nested.find_leaf_eq_some.mp hv).2).symm

theorem matches_dict_iff {a : Entries Held} {b : Entries Strings} (ha : a.distinct = true)
    (hb : b.distinct = true) : Matches (.dict a) (.dict b) ↔
      a.keys ⊆ b.keys ∧ b.keys ⊆ a.keys ∧
        ∀ k x v, a.lookup k = some x → b.lookup k = some v → Matches x v := by
  have ha' : (a.mapLeaves Held.formatToSet).distinct = true :=
    (Nested.distinct_mapLeaves _ (.dict a)).trans ha
  have hb' : ((b.mapLeaves Held.given).mapLeaves Held.formatToSet).distinct = true :=
    (Nested.distinct_mapLeaves _ (.dict _)).trans ((Nested.distinct_mapLeaves _ (.dict b)).trans hb)
  rw [Matches, formatDictWithSets, formatDictWithSets, asGiven, Nested.mapLeaves, Nested.mapLeaves,
    Nested.mapLeaves, equal, Nested.eq_dict_iff ha' hb']
  simp only [Entries.keys_mapLeaves, Entries.lookup_mapLeaves, Option.map_eq_some_iff]
  constructor
  · rintro ⟨⟨hsub, hsup, hall⟩, hsets⟩
    refine ⟨hsub, hsup, fun k x v hx hv => ⟨?_, fun path xs t hxs hvt => ?_⟩⟩
    · exact hall k _ _ ⟨x, hx, rfl⟩ ⟨_, ⟨v, hv, rfl⟩, rfl⟩
    · exact hsets (k :: path) xs t (Nested.find_cons_eq_some.mpr ⟨x, hx, hxs⟩)
        (Nested.find_cons_eq_some.mpr ⟨v, hv, hvt⟩)
  · rintro ⟨hsub, hsup, hall⟩
    refine ⟨⟨hsub, hsup, ?_⟩, fun path xs t hxs hvt => ?_⟩
    · rintro k _ _ ⟨x, hx, rfl⟩ ⟨_, ⟨v, hv, rfl⟩, rfl⟩
      exact (hall k x v hx hv).1
    · cases path with
      | nil => cases hxs
      | cons k path =>
        obtain ⟨x, hx, hxs⟩ := Nested.find_cons_eq_some.mp hxs
        obtain ⟨v, hv, hvt⟩ := Nested.find_cons_eq_some.mp hvt
        exact (hall k x v hx hv).2 path xs t hxs hvt

theorem matches_of_equal {x y : Nested Held} {v : Nested Strings} (hx : x.distinct = true)
    (hv : v.distinct = true) (hbecomes : Becomes x y)
    (hformats : formatDictWithSets y = formatDictWithSets x) (h : equal (asGiven v) y = true) :
    Matches x v := by
  have hgiven : (asGiven v).distinct = true := (Nested.distinct_mapLeaves _ v).trans hv
  have hformat : ∀ z : Nested Held, z.distinct = true → (formatDictWithSets z).distinct = true :=
    fun z hz => (Nested.distinct_mapLeaves _ z).trans hz
  constructor
  · rw [equal_symm (hformat x hx) (hformat _ hgiven), ← hformats, equal, formatDictWithSets,
      formatDictWithSets, Nested.eq_mapLeaves]
    refine Nested.eq_mono (fun a b hab => ?_) hgiven h
    rw [of_decide_eq_true hab]
    exact decide_eq_true rfl
  · intro path xs t hxs hvt
    have hy : y.find path = some (.leaf (.set xs)) := (hbecomes path _ hxs).elim id id
    have hgiventext : (asGiven v).find path = some (.leaf (.given (.one t))) := by
      rw [asGiven, Nested.find_mapLeaves, hvt]
      rfl
    exact absurd (of_decide_eq_true (Nested.eq_find h hgiven hgiventext hy)) nofun

theorem Becomes.trans {x y z : Nested Held} (h : Becomes x y) (h' : Becomes y z) : Becomes x z := by
  intro path t ht
  rcases h path t ht with hy | hy
  · exact h' path t hy
  · exact Or.inr ((h' path _ hy).elim id id)

theorem becomes_leaf {x y : Held} (h : y = x ∨ y = x.formatToSet) :
    Becomes (.leaf x) (.leaf y) := by
  intro path t ht
  obtain ⟨rfl, hleaf⟩ := Nested.find_leaf_eq_some.mp ht
  obtain rfl := Nested.leaf.inj hleaf
  exact h.imp (congrArg fun x => some (Nested.leaf x)) (congrArg fun x => some (Nested.leaf x))

theorem becomes_set {a : Entries Held} {k : Text} {x y : Nested Held} (hx : a.lookup k = some x)
    (h : Becomes x y) : Becomes (.dict a) (.dict (a.set k y)) := by
  rintro (_ | ⟨k', path⟩) t ht
  · cases ht
  · obtain ⟨u, hu, ht⟩ := Nested.find_cons_eq_some.mp ht
    simp only [Nested.find_cons_eq_some, Entries.lookup_set]
    by_cases hk : k' = k
    · subst hk
      obtain rfl := Option.some.inj (hx.symm.trans hu)
      exact (h path t ht).imp (fun h => ⟨y, if_pos rfl, h⟩) fun h => ⟨y, if_pos rfl, h⟩
    · exact Or.inl ⟨u, (if_neg hk).trans hu, ht⟩

theorem formats_set {a : Entries Held} {k : Text} {x y : Nested Held} (hx : a.lookup k = some x)
    (h : formatDictWithSets y = formatDictWithSets x) :
    formatDictWithSets (.dict (a.set k y)) = formatDictWithSets (.dict a) := by
  refine congrArg Nested.dict ?_
  rw [Entries.mapLeaves_set]
  refine Entries.set_of_lookup ?_
  rw [Entries.lookup_mapLeaves, hx]
  exact congrArg some h.symm

/-- What a value becomes, with the answer. -/
structure Compared (x : Nested Held) (p : Bool × Nested Held) (P : Prop) : Prop where
  becomes : Becomes x p.2
  formats : formatDictWithSets p.2 = formatDictWithSets x
  answer : p.1 = true ↔ P

theorem compared_dict {a : Entries Held} {b : Entries Strings} (ha : a.distinct = true)
    (hb : b.distinct = true)
    (hloop : b.keys ⊆ a.keys → Compared (.dict a) ((compareLoop a b).map id .dict)
      (∀ k x v, a.lookup k = some x → b.lookup k = some v → Matches x v)) :
    Compared (.dict a) ((compareDictsUsingSets a b).map id .dict) (Matches (.dict a) (.dict b)) := by
  rw [matches_dict_iff ha hb, compareDictsUsingSets]
  split
  · next hkeys =>
    obtain ⟨hsub, hsup⟩ := sameItems_iff.mp hkeys
    have h := hloop hsup
    exact ⟨h.becomes, h.formats, h.answer.trans ⟨fun h => ⟨hsub, hsup, h⟩, fun h => h.2.2⟩⟩
  · next hkeys =>
    exact ⟨.refl _, rfl, iff_of_false nofun fun h => hkeys (sameItems_iff.mpr ⟨h.1, h.2.1⟩)⟩

theorem compare_spec :
    (∀ v : Nested Strings, v.distinct = true → ∀ x : Nested Held, x.distinct = true →
      Compared x (compareItem x v) (Matches x v)) ∧
    ∀ b : Entries Strings, b.distinct = true → ∀ a : Entries Held, a.distinct = true →
      b.keys ⊆ a.keys → Compared (.dict a) ((compareLoop a b).map id .dict)
        (∀ k x v, a.lookup k = some x → b.lookup k = some v → Matches x v) := by
  refine Nested.induction (fun v => ?_) (fun b ih => ?_) ?_ fun k v b ihv ihb => ?_
  · rintro - (x | a) -
    · refine ⟨becomes_leaf (convert_fst x v), ?_, ?_⟩
      · exact (convert_fst x v).elim (fun h => by rw [compareItem, h])
          fun h => by rw [compareItem, h]; rfl
      · exact decide_eq_true_iff.trans ((convert_eq_iff x v).trans matches_leaf_iff.symm)
    · exact ⟨.refl _, rfl, iff_of_false nofun fun h => nomatch h.1⟩
  · rintro hb (x | a) ha
    · refine ⟨becomes_leaf ?_, ?_, iff_of_false nofun fun h => nomatch h.1⟩
      · split
        · exact Or.inr rfl
        · exact Or.inl rfl
      · rw [compareItem]
        split <;> rfl
    · have hdict := compared_dict ha hb fun hsub => ih hb a ha hsub
      refine ⟨hdict.becomes, hdict.formats, ?_⟩
      rw [compareItem, Bool.or_eq_true]
      exact ⟨fun h => h.elim hdict.answer.mp (matches_of_equal ha hb hdict.becomes hdict.formats),
        fun h => Or.inl (hdict.answer.mpr h)⟩
  · exact fun _ a _ _ => ⟨.refl _, rfl, iff_of_true rfl fun k x v _ hv => nomatch hv⟩
  · intro hb a ha hsub
    rw [Entries.distinct_cons] at hb
    obtain ⟨x, hx⟩ := Entries.mem_keys.mp (hsub List.mem_cons_self)
    have hitem := ihv hb.1.2 x (Entries.distinct_of_lookup ha hx)
    have hset := becomes_set hx hitem.becomes
    have hformats := formats_set hx hitem.formats
    simp only [Entries.lookup_cons_eq_some hb.1.1]
    rw [compareLoop, hx]
    simp only
    split
    · next hgo =>
      have hkeys : b.keys ⊆ (a.set k (compareItem x v).2).keys := fun k' hk' =>
        Entries.mem_keys_set.mpr (Or.inr (hsub (List.mem_cons_of_mem _ hk')))
      have hrest := ihb hb.2 (a.set k (compareItem x v).2)
        ((distinct_of_formats hformats).trans ha) hkeys
      refine ⟨hset.trans hrest.becomes, hrest.formats.trans hformats, hrest.answer.trans ?_⟩
      have hother : ∀ {k'}, k' ∈ b.keys →
          (a.set k (compareItem x v).2).lookup k' = a.lookup k' := fun {k'} hk' => by
        have hne : k' ≠ k := fun h => hb.1.1 (h ▸ hk')
        rw [Entries.lookup_set, if_neg hne]
      constructor
      · rintro hall k' x' v' hx' (⟨rfl, rfl⟩ | hv')
        · obtain rfl := Option.some.inj (hx.symm.trans hx')
          exact hitem.answer.mp hgo
        · exact hall k' x' v' ((hother (Entries.mem_keys.mpr ⟨v', hv'⟩)).trans hx') hv'
      · intro hall k' x' v' hx' hv'
        rw [hother (Entries.mem_keys.mpr ⟨v', hv'⟩)] at hx'
        exact hall k' x' v' hx' (Or.inr hv')
    · next hstop =>
      refine ⟨hset, hformats, iff_of_false nofun fun hall => hstop ?_⟩
      exact hitem.answer.mpr (hall k x v hx (Or.inl ⟨rfl, rfl⟩))

/-! ## Two dictionaries -/

theorem compareDictsUsingSets_spec {a : Entries Held} {b : Entries Strings}
    (ha : a.distinct = true) (hb : b.distinct = true) :
    Compared (.dict a) ((compareDictsUsingSets a b).map id .dict) (Matches (.dict a) (.dict b)) :=
  compared_dict ha hb (compare_spec.2 b hb a ha)

theorem distinct_asGiven {v : Nested Strings} (hv : v.distinct = true) :
    (asGiven v).distinct = true := (Nested.distinct_mapLeaves _ v).trans hv

theorem matches_asGiven_iff {u v : Nested Strings} : Matches (asGiven u) v ↔
    equal (formatDictWithSets (asGiven u)) (formatDictWithSets (asGiven v)) = true := by
  refine and_iff_left fun path xs t hxs => ?_
  rw [asGiven, Nested.find_mapLeaves, Option.map_eq_some_iff] at hxs
  obtain ⟨u, -, hu⟩ := hxs
  cases u <;> cases hu

theorem compares_of_distinct {a b : Entries Strings} (ha : a.distinct = true)
    (hb : b.distinct = true) : Compares a b := by
  have hgiven : ∀ {a b : Entries Strings}, a.distinct = true → b.distinct = true →
      Compared (asGiven (.dict a)) ((compareDictsUsingSets (a.mapLeaves .given) b).map id .dict)
        (equal (formatDictWithSets (asGiven (.dict a)))
          (formatDictWithSets (asGiven (.dict b))) = true) := fun {a b} ha hb => by
    rw [← matches_asGiven_iff]
    exact compareDictsUsingSets_spec (distinct_asGiven (v := .dict a) ha) hb
  have hformat : ∀ {a : Entries Strings}, a.distinct = true →
      (formatDictWithSets (asGiven (.dict a))).distinct = true := fun {a} ha =>
    (Nested.distinct_mapLeaves _ _).trans (distinct_asGiven (v := .dict a) ha)
  have h := hgiven ha hb
  refine ⟨h.answer, ?_, h.becomes, h.formats, fun c hc hsets => ?_⟩
  · rw [Bool.eq_iff_iff]
    refine h.answer.trans (Iff.trans ?_ (hgiven hb ha).answer.symm)
    rw [equal_symm (hformat ha) (hformat hb)]
  · have hafter : (compareDictsUsingSets (a.mapLeaves .given) b).2.distinct = true :=
      (distinct_of_formats h.formats).trans (distinct_asGiven (v := .dict a) ha)
    rw [Bool.eq_iff_iff]
    refine (compareDictsUsingSets_spec hafter hc).answer.trans (Iff.trans ?_ (hgiven ha hc).answer.symm)
    rw [Matches, and_iff_left hsets]
    exact iff_of_eq (congrArg (fun v => equal v _ = true) h.formats)

/-- The list of a text and the text. -/
theorem compares_word : Compares (.cons ['k'] (.leaf (.many [['x']])) .nil)
    (.cons ['k'] (.leaf (.one ['x'])) .nil) :=
  compares_of_distinct rfl rfl

/-- A list that has been compared is a set, which its text does not match any more. -/
theorem sameAgain_fails :
    let a : Entries Strings := .cons ['k'] (.leaf (.many [['x']])) .nil
    let c : Entries Strings := .cons ['k'] (.leaf (.one ['x'])) .nil
    let after := (compareDictsUsingSets (a.mapLeaves .given) a).2
    after.lookup ['k'] = some (.leaf (.set [['x']].toFinset)) ∧
      (compareDictsUsingSets (a.mapLeaves .given) c).1 = true ∧
      (compareDictsUsingSets after c).1 = false :=
  ⟨rfl, rfl, rfl⟩

end Custodian.CompareDicts

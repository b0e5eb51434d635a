import Custodian.Lib.AppendNew
import Custodian.Lib.Except
import Custodian.Lib.JsonEq
import Custodian.Lib.NestedMerge
import Custodian.Lib.SharedLists

/-!
# Merging dictionaries

`merge_dict` of `c7n/utils.py` copies a dictionary and merges another one into the copy.  Lists are
read in a store, where those of the arguments are the caller's, so that appending to one of them is
seen; what is merged is described on the contents of the lists.
-/

namespace Custodian.MergeDict

open Py

/-! ## Values -/

/-- What is not a dictionary, with lists of some kind. -/
inductive Leaf (L : Type) where
  | null
  | bool (b : Bool)
  | num (q : Rat)
  | str (t : Text)
  | list (xs : L)

namespace Leaf

variable {L M : Type}

def map (f : L → M) : Leaf L → Leaf M
  | null => null
  | bool b => bool b
  | num q => num q
  | str t => str t
  | list xs => list (f xs)

/-- `isinstance(v, (int, str, float, bool))` -/
def isScalar : Leaf L → Bool
  | null => false
  | list _ => false
  | _ => true

theorem isScalar_map (f : L → M) (x : Leaf L) : (x.map f).isScalar = x.isScalar := by
  cases x <;> rfl

end Leaf

/-- A value whose lists are in the store; a JSON value has no list twice. -/
abbrev Value := Nested (Leaf (Ref Json))

abbrev Dict := Entries (Leaf (Ref Json))

/-- The exception for values that are not conformable names the key. -/
structure NotConformable where
  key : Text
  deriving DecidableEq

/-! ## Merging -/

/-- `copy.deepcopy`: all lists are new ones. -/
def deepcopy (s : Store Json) (d : Dict) : Dict := d.mapLeaves (Leaf.map fun r => .fresh (r.read s))

/-- `if val not in d[k]: d[k].append(val)` -/
def appendMissing (d : Ref Json × Store Json) (val : Json) : Ref Json × Store Json :=
  if (d.1.read d.2).any val.same then d else d.1.extend [val] d.2

/-- What `d[k]` becomes when neither value is a dictionary. -/
def mergeLeaf (k : Text) (x v : Leaf (Ref Json)) (s : Store Json) :
    Except NotConformable (Leaf (Ref Json) × Store Json) :=
  match x, v with
  | .list r, .list vs =>
    let d := (vs.read s).foldl appendMissing (r, s)
    .ok (.list d.1, d.2)
  | .list r, .str t =>
    let d := appendMissing (r, s) (.str t)
    .ok (.list d.1, d.2)
  | .str t, .list vs =>
    if (vs.read s).any (Json.same (.str t)) then .ok (.list vs, s)
    else .ok (.list (.fresh (.str t :: vs.read s)), s)
  | _, v => if v.isScalar then .ok (v, s) else .error ⟨k⟩

mutual

/-- The loop of `merge_dict` over the entries of `b`. -/
def mergeInto (d : Dict) : Dict → Store Json → Except NotConformable (Dict × Store Json)
  | .nil, s => .ok (d, s)
  | .cons k v b, s => do
    let (w, s) ← mergeItem k (d.lookup k) v s
    mergeInto (d.set k w) b s

/-- What `d[k]` becomes. -/
def mergeItem (k : Text) : Option Value → Value → Store Json →
    Except NotConformable (Value × Store Json)
  | none, v, s => .ok (v, s)
  | some (.dict d), .dict b, s => do
    let (m, s) ← mergeInto (deepcopy s d) b s
    return (.dict m, s)
  | some (.leaf x), .leaf v, s => do
    let (w, s) ← mergeLeaf k x v s
    return (.leaf w, s)
  | some (.dict _), .leaf v, s => if v.isScalar then .ok (.leaf v, s) else .error ⟨k⟩
  | some (.leaf _), .dict _, _ => .error ⟨k⟩

end

/-- `merge_dict` -/
def mergeDict (a b : Dict) (s : Store Json) : Except NotConformable (Dict × Store Json) :=
  mergeInto (deepcopy s a) b s

/-! ## Joined contents -/

/-- A value with the contents of its lists. -/
abbrev Content := Nested (Leaf (List Json))

/-- The contents of the lists of a value. -/
def contents (s : Store Json) (v : Value) : Content := v.mapLeaves (Leaf.map (Ref.read s))

def joinLeaf (k : Text) (x v : Leaf (List Json)) : Except NotConformable (Leaf (List Json)) :=
  match x, v with
  | .list xs, .list vs => .ok (.list (appendNewBy Json.same xs vs))
  | .list xs, .str t => .ok (.list (appendNewBy Json.same xs [.str t]))
  | .str t, .list vs => .ok (.list (if vs.any (Json.same (.str t)) then vs else .str t :: vs))
  | _, v => if v.isScalar then .ok v else .error ⟨k⟩

mutual

def joinDict (d : Entries (Leaf (List Json))) :
    Entries (Leaf (List Json)) → Except NotConformable (Entries (Leaf (List Json)))
  | .nil => .ok d
  | .cons k v b => do
    let w ← joinValue k (d.lookup k) v
    joinDict (d.set k w) b

def joinValue (k : Text) : Option Content → Content → Except NotConformable Content
  | none, v => .ok v
  | some (.dict d), .dict b => do return .dict (← joinDict d b)
  | some (.leaf x), .leaf v => do return .leaf (← joinLeaf k x v)
  | some (.dict _), .leaf v => if v.isScalar then .ok (.leaf v) else .error ⟨k⟩
  | some (.leaf _), .dict _ => .error ⟨k⟩

end

/-- No dictionary inside has `None` for a value. -/
def NoNull (v : Content) : Prop := ∀ path, v.find path ≠ some (.leaf .null)

/-- Merging `b` into `a` with the lists of `s` has left `m` and the lists of `s'`. -/
structure Joins (s : Store Json) (a b m : Dict) (s' : Store Json) : Prop where
  unchanged : s' = s
  /-- Merging again changes nothing. -/
  again : ∃ m', mergeDict m b s' = .ok (m', s') ∧ contents s' (.dict m') = contents s' (.dict m)
  /-- A list has only got longer, unless a scalar has taken its place or that of a map around it. -/
  longer : ∀ path xs, (contents s (.dict a)).find path = some (.leaf (.list xs)) →
    (∃ ys, (contents s' (.dict m)).find path = some (.leaf (.list ys)) ∧ xs <+: ys) ∨
      ∃ start l, start <+: path ∧ l.isScalar = true ∧
        (contents s (.dict b)).find start = some (.leaf l) ∧
        (contents s' (.dict m)).find start = some (.leaf l)
  /-- What a list has is in the merged list. -/
  kept : ∀ path xs, (contents s (.dict b)).find path = some (.leaf (.list xs)) →
    ∃ ys, (contents s' (.dict m)).find path = some (.leaf (.list ys)) ∧
      ∀ x ∈ xs, ∃ y ∈ ys, x.same y = true

/-! ## The caller's lists -/

/-- A step leaves the caller's lists as they are, and its result is seen by `f` as the other one. -/
def Agrees {α β : Type} (f : α → β) (s : Store Json) (r : Except NotConformable (α × Store Json))
    (p : Except NotConformable β) : Prop :=
  match p with
  | .ok y => ∃ x, r = .ok (x, s) ∧ f x = y
  | .error e => r = .error e

theorem Agrees.bind {α β α' β' : Type} {f : α → β} {g : α' → β'} {s : Store Json}
    {r : Except NotConformable (α × Store Json)} {p : Except NotConformable β}
    {r' : α × Store Json → Except NotConformable (α' × Store Json)}
    {p' : β → Except NotConformable β'} (h : Agrees f s r p)
    (h' : ∀ x, Agrees g s (r' (x, s)) (p' (f x))) : Agrees g s (r >>= r') (p >>= p') := by
  cases p with
  | error e =>
    obtain rfl : r = .error e := h
    rfl
  | ok y =>
    obtain ⟨x, rfl, rfl⟩ := h
    exact h' x

theorem Leaf.map_map {L M N : Type} (g : M → N) (f : L → M) (x : Leaf L) :
    (x.map f).map g = x.map (g ∘ f) := by
  cases x <;> rfl

/-- All lists of the value are new ones. -/
def Copied (s : Store Json) (v : Value) : Prop :=
  v.mapLeaves (Leaf.map fun r => .fresh (r.read s)) = v

theorem copied_deepcopy (s : Store Json) {d : Dict} {k : Text} {v : Value}
    (h : (deepcopy s d).lookup k = some v) : Copied s v := by
  rw [deepcopy, Entries.lookup_mapLeaves, Option.map_eq_some_iff] at h
  obtain ⟨u, -, rfl⟩ := h
  rw [Copied, Nested.mapLeaves_mapLeaves]
  exact congrArg (fun f => u.mapLeaves f) (funext fun x => Leaf.map_map _ _ x)

theorem contents_deepcopy (s : Store Json) (d : Dict) :
    contents s (.dict (deepcopy s d)) = contents s (.dict d) := by
  have h := Nested.mapLeaves_mapLeaves (Leaf.map (Ref.read s))
    (Leaf.map fun r : Ref Json => Ref.fresh (r.read s)) (.dict d)
  refine h.trans (congrArg (fun f => (Nested.dict d).mapLeaves f) (funext fun x => ?_))
  exact Leaf.map_map _ _ x

theorem foldl_appendMissing (xs vs : List Json) (s : Store Json) :
    vs.foldl appendMissing (.fresh xs, s) = (.fresh (appendNewBy Json.same xs vs), s) := by
  induction vs generalizing xs with
  | nil => rfl
  | cons v vs ih =>
    have hstep : appendMissing (.fresh xs, s) v =
        (.fresh (if xs.any v.same then xs else xs ++ [v]), s) :=
      (apply_ite (fun ys => (Ref.fresh ys, s)) _ _ _).symm
    rw [List.foldl_cons, hstep, ih, appendNewBy_cons]

theorem mergeLeaf_agrees {k : Text} {x : Leaf (Ref Json)} (v : Leaf (Ref Json)) {s : Store Json}
    (hx : Copied s (.leaf x)) :
    Agrees (Leaf.map (Ref.read s)) s (mergeLeaf k x v s)
      (joinLeaf k (x.map (Ref.read s)) (v.map (Ref.read s))) := by
  have hscalar : Agrees (Leaf.map (Ref.read s)) s
      (if v.isScalar then .ok (v, s) else .error (⟨k⟩ : NotConformable))
      (if (v.map (Ref.read s)).isScalar then .ok (v.map (Ref.read s)) else .error ⟨k⟩) := by
    rw [Leaf.isScalar_map]
    split
    · exact ⟨v, rfl, rfl⟩
    · rfl
  cases x with
  | list r =>
    obtain ⟨xs, rfl⟩ : ∃ xs, r = .fresh xs :=
      ⟨r.read s, (Leaf.list.inj (Nested.leaf.inj hx)).symm⟩
    cases v with
    | list vs =>
      refine ⟨.list (.fresh (appendNewBy Json.same xs (vs.read s))), ?_, rfl⟩
      rw [mergeLeaf, foldl_appendMissing]
    | str t =>
      refine ⟨.list (.fresh (appendNewBy Json.same xs [.str t])), ?_, rfl⟩
      rw [mergeLeaf, ← List.foldl_nil (f := appendMissing) (b := appendMissing _ _),
        ← List.foldl_cons, foldl_appendMissing]
    | _ => exact hscalar
  | str t =>
    cases v with
    | list vs =>
      by_cases ht : (vs.read s).any (Json.same (.str t)) = true
      · exact ⟨_, if_pos ht, congrArg Leaf.list (if_pos ht).symm⟩
      · exact ⟨_, if_neg ht, congrArg Leaf.list (if_neg ht).symm⟩
    | _ => exact hscalar
  | _ => cases v <;> exact hscalar

theorem merge_agrees (s : Store Json) :
    (∀ v : Value, v.distinct = true → ∀ k x, (∀ u, x = some u → Copied s u) →
      Agrees (contents s) s (mergeItem k x v s)
        (joinValue k (x.map (contents s)) (contents s v))) ∧
    ∀ b : Dict, b.distinct = true → ∀ d : Dict,
      (∀ k ∈ b.keys, ∀ u, d.lookup k = some u → Copied s u) →
      Agrees (Entries.mapLeaves (Leaf.map (Ref.read s))) s (mergeInto d b s)
        (joinDict (d.mapLeaves (Leaf.map (Ref.read s))) (b.mapLeaves (Leaf.map (Ref.read s)))) := by
  refine Nested.induction (fun v => ?_) (fun b ih => ?_) ?_ fun k v b ihv ihb => ?_
  · rintro - k (_ | x | d) hx
    · exact ⟨_, rfl, rfl⟩
    · exact (mergeLeaf_agrees v (hx _ rfl)).bind fun w => ⟨_, rfl, rfl⟩
    · change Agrees (contents s) s (if v.isScalar then .ok (.leaf v, s) else .error ⟨k⟩)
        (if (v.map (Ref.read s)).isScalar then .ok (.leaf (v.map (Ref.read s))) else .error ⟨k⟩)
      rw [Leaf.isScalar_map]
      split
      · exact ⟨_, rfl, rfl⟩
      · rfl
  · rintro hb k (_ | x | d) hx
    · exact ⟨_, rfl, rfl⟩
    · rfl
    · have hdict := ih hb (deepcopy s d) fun k _ u hu => copied_deepcopy s hu
      have hcopy : (deepcopy s d).mapLeaves (Leaf.map (Ref.read s)) =
          d.mapLeaves (Leaf.map (Ref.read s)) := Nested.dict.inj (contents_deepcopy s d)
      rw [hcopy] at hdict
      exact hdict.bind fun m => ⟨_, rfl, rfl⟩
  · exact fun _ d _ => ⟨d, rfl, rfl⟩
  · intro hb d hd
    rw [Entries.distinct_cons] at hb
    have hitem : Agrees (contents s) s (mergeItem k (d.lookup k) v s)
        (joinValue k ((d.mapLeaves (Leaf.map (Ref.read s))).lookup k) (contents s v)) := by
      rw [Entries.lookup_mapLeaves]
      exact ihv hb.1.2 k (d.lookup k) (hd k List.mem_cons_self)
    refine hitem.bind fun w => ?_
    change Agrees _ s (mergeInto (d.set k w) b s) (joinDict ((d.mapLeaves _).set k (w.mapLeaves _)) _)
    rw [← Entries.mapLeaves_set]
    refine ihb hb.2 (d.set k w) fun k' hk' u hu => ?_
    have hne : k' ≠ k := fun h => hb.1.1 (h ▸ hk')
    rw [Entries.lookup_set, if_neg hne] at hu
    exact hd k' (List.mem_cons_of_mem _ hk') u hu

theorem mergeDict_contents {a b : Dict} (hb : b.distinct = true) (s : Store Json) :
    Agrees (Entries.mapLeaves (Leaf.map (Ref.read s))) s (mergeDict a b s)
      (joinDict (a.mapLeaves (Leaf.map (Ref.read s))) (b.mapLeaves (Leaf.map (Ref.read s)))) := by
  have h := (merge_agrees s).2 b hb (deepcopy s a) fun k _ u hu => copied_deepcopy s hu
  rwa [show (deepcopy s a).mapLeaves (Leaf.map (Ref.read s)) = a.mapLeaves (Leaf.map (Ref.read s)) from
    Nested.dict.inj (contents_deepcopy s a)] at h

/-! ## Joining again -/

variable {k : Text} {d m b : Entries (Leaf (List Json))}

theorem joinDict_eq (d b : Entries (Leaf (List Json))) : joinDict d b = d.mergeFrom joinValue b := by
  induction b using Entries.induction generalizing d with
  | nil => rfl
  | cons k v b ih =>
    rw [Entries.mergeFrom_cons]
    exact congrArg _ (funext fun w => ih (d.set k w))

theorem joinDict_ok (hb : b.distinct = true) (h : joinDict d b = .ok m) :
    (∀ k, b.lookup k = none → m.lookup k = d.lookup k) ∧
      ∀ k v, b.lookup k = some v → ∃ w, joinValue k (d.lookup k) v = .ok w ∧ m.lookup k = some w :=
  Entries.mergeFrom_ok hb (joinDict_eq d b ▸ h)

theorem joinValue_none (k : Text) (v : Content) : joinValue k none v = .ok v := by
  cases v <;> rfl

theorem joinValue_dict_eq_ok {w : Content} :
    joinValue k (some (.dict d)) (.dict b) = .ok w ↔ ∃ m, joinDict d b = .ok m ∧ w = .dict m := by
  change (joinDict d b).bind (fun m => .ok (.dict m)) = .ok w ↔ _
  cases joinDict d b with
  | error e => simp [Except.bind]
  | ok m => simp [Except.bind, eq_comm]

theorem joinValue_leaf_eq_ok {x v : Leaf (List Json)} {w : Content} :
    joinValue k (some (.leaf x)) (.leaf v) = .ok w ↔ ∃ y, joinLeaf k x v = .ok y ∧ w = .leaf y := by
  change (joinLeaf k x v).bind (fun y => .ok (.leaf y)) = .ok w ↔ _
  cases joinLeaf k x v with
  | error e => simp [Except.bind]
  | ok y => simp [Except.bind, eq_comm]

theorem joinValue_scalar_eq_ok {v : Leaf (List Json)} {w : Content} :
    joinValue k (some (.dict d)) (.leaf v) = .ok w ↔ v.isScalar = true ∧ w = .leaf v := by
  rw [joinValue]
  split
  · next hv => simp [hv, eq_comm]
  · next hv => simp [hv]

theorem appendNewBy_again (xs vs : List Json) :
    appendNewBy Json.same (appendNewBy Json.same xs vs) vs = appendNewBy Json.same xs vs :=
  appendNewBy_of_forall fun _ hv => exists_appendNewBy Json.same_refl hv

theorem joinLeaf_again {x v y : Leaf (List Json)} (h : joinLeaf k x v = .ok y) (hv : v ≠ .null) :
    joinLeaf k y v = .ok y := by
  cases v with
  | null => exact absurd rfl hv
  | list vs =>
    cases x with
    | list xs =>
      obtain rfl := Except.ok.inj h
      exact congrArg (fun ys => Except.ok (Leaf.list ys)) (appendNewBy_again xs vs)
    | str t =>
      obtain rfl := Except.ok.inj h
      refine congrArg (fun ys => Except.ok (Leaf.list ys)) (appendNewBy_of_forall fun v hv => ?_)
      refine ⟨v, ?_, Json.same_refl v⟩
      split
      · exact hv
      · exact List.mem_cons_of_mem _ hv
    | _ => cases h
  | str t =>
    cases x with
    | list xs =>
      obtain rfl := Except.ok.inj h
      exact congrArg (fun ys => Except.ok (Leaf.list ys)) (appendNewBy_again xs [.str t])
    | _ => exact Except.ok.inj h ▸ rfl
  | _ => cases x <;> exact Except.ok.inj h ▸ rfl

theorem NoNull.lookup (h : NoNull (.dict b)) {v : Content} (hv : b.lookup k = some v) : NoNull v :=
  fun path hnull => h (k :: path) (Nested.find_cons_eq_some.mpr ⟨v, hv, hnull⟩)

theorem joinValue_again {v w : Content} (hv : v.distinct = true) (hnull : NoNull v)
    {x : Option Content} (h : joinValue k x v = .ok w) : joinValue k (some w) v = .ok w := by
  induction v using Nested.lookup_induction generalizing k x w with
  | leaf v =>
    have hne : v ≠ .null := by
      rintro rfl
      exact hnull [] rfl
    have hself : v.isScalar = true → joinLeaf k v v = .ok v := fun hscalar => by
      cases v <;> first | rfl | cases hscalar
    rcases x with _ | x | d
    · cases h
      refine joinValue_leaf_eq_ok.mpr ⟨v, ?_, rfl⟩
      cases v with
      | null => exact absurd rfl hne
      | list vs =>
        exact congrArg (fun ys => Except.ok (Leaf.list ys))
          (appendNewBy_of_forall fun v hv => ⟨v, hv, Json.same_refl v⟩)
      | _ => exact hself rfl
    · obtain ⟨y, hy, rfl⟩ := joinValue_leaf_eq_ok.mp h
      exact joinValue_leaf_eq_ok.mpr ⟨y, joinLeaf_again hy hne, rfl⟩
    · obtain ⟨hscalar, rfl⟩ := joinValue_scalar_eq_ok.mp h
      exact joinValue_leaf_eq_ok.mpr ⟨v, hself hscalar, rfl⟩
  | dict b ih =>
    have hjoin : ∀ {m}, (∀ k v, b.lookup k = some v → ∃ x w, joinValue k x v = .ok w ∧
        m.lookup k = some w) → joinValue k (some (.dict m)) (.dict b) = .ok (.dict m) := by
      intro m hm
      refine joinValue_dict_eq_ok.mpr ⟨m, ?_, rfl⟩
      rw [joinDict_eq]
      refine Entries.mergeFrom_self hv fun k v hk => ?_
      obtain ⟨x, w, hw, hmk⟩ := hm k v hk
      exact ⟨w, hmk, ih k v hk (Entries.distinct_of_lookup hv hk) (hnull.lookup hk) hw⟩
    rcases x with _ | x | d
    · cases h
      exact hjoin fun k v hk => ⟨none, v, joinValue_none k v, hk⟩
    · cases h
    · obtain ⟨m, hm, rfl⟩ := joinValue_dict_eq_ok.mp h
      refine hjoin fun k v hk => ?_
      obtain ⟨w, hw, hmk⟩ := (joinDict_ok hv hm).2 k v hk
      exact ⟨_, w, hw, hmk⟩

theorem joinValue_null {v w : Content} (hv : v.distinct = true) {path : List Text}
    (hnull : v.find path = some (.leaf .null)) {x : Option Content} (h : joinValue k x v = .ok w) :
    ∃ e, joinValue k (some w) v = .error e := by
  induction path generalizing k x v w with
  | nil =>
    obtain rfl : v = .leaf .null := by simpa using hnull
    rcases w with y | m
    · exact ⟨⟨k⟩, by cases y <;> rfl⟩
    · exact ⟨⟨k⟩, rfl⟩
  | cons k' path ih =>
    cases v with
    | leaf v => cases hnull
    | dict b =>
      obtain ⟨v, hk, hnull⟩ := Nested.find_cons_eq_some.mp hnull
      have herror : ∀ {m : Entries (Leaf (List Json))} {x w}, joinValue k' x v = .ok w →
          m.lookup k' = some w → ∃ e, joinValue k (some (.dict m)) (.dict b) = .error e := by
        intro m x w hw hmk
        obtain ⟨e, he⟩ := ih (Entries.distinct_of_lookup hv hk) hnull hw
        obtain ⟨e', he'⟩ := Entries.mergeFrom_error (f := joinValue) (d := m) hv hk
          ⟨e, by rw [hmk, he]⟩
        refine ⟨e', ?_⟩
        change (joinDict m b).bind _ = _
        rw [joinDict_eq, he']
        rfl
      rcases x with _ | x | d
      · cases h
        exact herror (joinValue_none k' v) hk
      · cases h
      · obtain ⟨m, hm, rfl⟩ := joinValue_dict_eq_ok.mp h
        obtain ⟨w, hw, hmk⟩ := (joinDict_ok hv hm).2 k' v hk
        exact herror hw hmk

/-! ## The lists -/

theorem find_joined {x v w : Content} (hv : v.distinct = true) (h : joinValue k (some x) v = .ok w)
    {path : List Text} {xs : List Json} (hx : x.find path = some (.leaf (.list xs))) :
    (∃ ys, w.find path = some (.leaf (.list ys)) ∧ xs <+: ys) ∨
      ∃ start l, start <+: path ∧ l.isScalar = true ∧ v.find start = some (.leaf l) ∧
        w.find start = some (.leaf l) := by
  induction path generalizing k x v w with
  | nil =>
    obtain rfl : x = .leaf (.list xs) := by simpa using hx
    rcases v with v | b
    · obtain ⟨y, hy, rfl⟩ := joinValue_leaf_eq_ok.mp h
      cases v with
      | list vs =>
        obtain rfl := Except.ok.inj hy
        exact Or.inl ⟨_, rfl, prefix_appendNewBy ..⟩
      | str t =>
        obtain rfl := Except.ok.inj hy
        exact Or.inl ⟨_, rfl, prefix_appendNewBy ..⟩
      | null => cases hy
      | _ =>
        obtain rfl := Except.ok.inj hy
        exact Or.inr ⟨[], _, List.prefix_rfl, rfl, rfl, rfl⟩
    · cases h
  | cons k' path ih =>
    rcases x with x | d
    · cases hx
    · obtain ⟨u, hu, hx⟩ := Nested.find_cons_eq_some.mp hx
      rcases v with v | b
      · obtain ⟨hscalar, rfl⟩ := joinValue_scalar_eq_ok.mp h
        exact Or.inr ⟨[], v, List.nil_prefix, hscalar, rfl, rfl⟩
      · obtain ⟨m, hm, rfl⟩ := joinValue_dict_eq_ok.mp h
        obtain ⟨hkeep, hmerged⟩ := joinDict_ok hv hm
        cases hk : b.lookup k' with
        | none =>
          refine Or.inl ⟨xs, Nested.find_cons_eq_some.mpr ⟨u, ?_, hx⟩, List.prefix_rfl⟩
          rw [hkeep k' hk, hu]
        | some v =>
          obtain ⟨w, hw, hmk⟩ := hmerged k' v hk
          rw [hu] at hw
          rcases ih (Entries.distinct_of_lookup hv hk) hw hx with ⟨ys, hys, hpre⟩ |
            ⟨start, l, hstart, hscalar, hvl, hwl⟩
          · exact Or.inl ⟨ys, Nested.find_cons_eq_some.mpr ⟨w, hmk, hys⟩, hpre⟩
          · exact Or.inr ⟨k' :: start, l, List.cons_prefix_cons.mpr ⟨rfl, hstart⟩, hscalar,
              Nested.find_cons_eq_some.mpr ⟨v, hk, hvl⟩, Nested.find_cons_eq_some.mpr ⟨w, hmk, hwl⟩⟩

theorem find_added {x : Option Content} {v w : Content} (hv : v.distinct = true)
    (h : joinValue k x v = .ok w) {path : List Text} {vs : List Json}
    (hvs : v.find path = some (.leaf (.list vs))) :
    ∃ ys, w.find path = some (.leaf (.list ys)) ∧ ∀ v ∈ vs, ∃ y ∈ ys, v.same y = true := by
  induction path generalizing k x v w with
  | nil =>
    obtain rfl : v = .leaf (.list vs) := by simpa using hvs
    rcases x with _ | x | d
    · cases h
      exact ⟨vs, rfl, fun v hv => ⟨v, hv, Json.same_refl v⟩⟩
    · obtain ⟨y, hy, rfl⟩ := joinValue_leaf_eq_ok.mp h
      cases x with
      | list xs =>
        obtain rfl := Except.ok.inj hy
        exact ⟨_, rfl, fun v hv => exists_appendNewBy Json.same_refl hv⟩
      | str t =>
        obtain rfl := Except.ok.inj hy
        refine ⟨_, rfl, fun v hv => ⟨v, ?_, Json.same_refl v⟩⟩
        split
        · exact hv
        · exact List.mem_cons_of_mem _ hv
      | _ => cases hy
    · cases h
  | cons k' path ih =>
    rcases v with v | b
    · cases hvs
    · obtain ⟨v, hk, hvs⟩ := Nested.find_cons_eq_some.mp hvs
      rcases x with _ | x | d
      · cases h
        exact ⟨vs, Nested.find_cons_eq_some.mpr ⟨v, hk, hvs⟩,
          fun v hv => ⟨v, hv, Json.same_refl v⟩⟩
      · cases h
      · obtain ⟨m, hm, rfl⟩ := joinValue_dict_eq_ok.mp h
        obtain ⟨w, hw, hmk⟩ := (joinDict_ok hv hm).2 k' v hk
        obtain ⟨ys, hys, hmem⟩ := ih (Entries.distinct_of_lookup hv hk) hw hvs
        exact ⟨ys, Nested.find_cons_eq_some.mpr ⟨w, hmk, hys⟩, hmem⟩

/-! ## Merging is a join -/

theorem joinDict_again_iff (hb : b.distinct = true) (h : joinDict d b = .ok m) :
    joinDict m b = .ok m ↔ NoNull (.dict b) := by
  have hvalue : joinValue [] (some (.dict d)) (.dict b) = .ok (.dict m) :=
    joinValue_dict_eq_ok.mpr ⟨m, h, rfl⟩
  have hv : (Nested.dict b).distinct = true := hb
  constructor
  · intro hagain path hnull
    obtain ⟨e, he⟩ := joinValue_null hv hnull hvalue
    rw [joinValue_dict_eq_ok.mpr ⟨m, hagain, rfl⟩] at he
    cases he
  · intro hnull
    obtain ⟨m', hm', heq⟩ := joinValue_dict_eq_ok.mp (joinValue_again hv hnull hvalue)
    rw [hm', Nested.dict.inj heq]

theorem joins_iff {s s' : Store Json} {a b m : Dict} (hb : b.distinct = true)
    (h : mergeDict a b s = .ok (m, s')) : Joins s a b m s' ↔ NoNull (contents s (.dict b)) := by
  have hdistinct : (contents s (.dict b)).distinct = true :=
    (Nested.distinct_mapLeaves _ (.dict b)).trans hb
  have hagrees : ∀ a m s', mergeDict a b s = .ok (m, s') → s' = s ∧
      joinDict (a.mapLeaves (Leaf.map (Ref.read s))) (b.mapLeaves (Leaf.map (Ref.read s))) =
        .ok (m.mapLeaves (Leaf.map (Ref.read s))) := by
    intro a m s' h
    have hcontents := mergeDict_contents (a := a) hb s
    rw [h] at hcontents
    cases hj : joinDict (a.mapLeaves (Leaf.map (Ref.read s))) (b.mapLeaves (Leaf.map (Ref.read s))) with
    | error e =>
      rw [hj] at hcontents
      cases hcontents
    | ok w =>
      rw [hj] at hcontents
      obtain ⟨x, hx, rfl⟩ := hcontents
      cases hx
      exact ⟨rfl, rfl⟩
  obtain ⟨rfl, hjoin⟩ := hagrees a m s' h
  have hvalue := joinValue_dict_eq_ok (k := []).mpr ⟨_, hjoin, rfl⟩
  refine Iff.trans ⟨fun hj => ?_, fun hagain => ?_⟩ (joinDict_again_iff hdistinct hjoin)
  · obtain ⟨m', hm', heq⟩ := hj.again
    rw [(hagrees m m' s' hm').2]
    exact congrArg Except.ok (Nested.dict.inj heq)
  · have hcontents := mergeDict_contents (a := m) hb s'
    rw [hagain] at hcontents
    obtain ⟨m', hm', heq⟩ := hcontents
    exact ⟨rfl, ⟨m', hm', congrArg Nested.dict heq⟩, fun path xs => find_joined hdistinct hvalue,
      fun path xs => find_added hdistinct hvalue⟩

/-- A map with one entry. -/
def single (k : String) (v : Value) : Dict := .cons k.toList v .nil

theorem noNull_single {v : Leaf (List Json)} (k : Text) (hv : v ≠ .null) :
    NoNull (.dict (.cons k (.leaf v) .nil)) := by
  rintro (_ | ⟨k', path⟩) h
  · cases h
  · obtain ⟨u, hu, h⟩ := Nested.find_cons_eq_some.mp h
    rw [Entries.lookup] at hu
    split at hu
    · obtain rfl := Option.some.inj hu
      exact hv (Nested.leaf.inj (Nested.find_leaf_eq_some.mp h).2).symm
    · cases hu

/-- A text is put before the list that takes its place. -/
theorem joins_texts :
    Joins (fun _ => [.str ['c']]) (single "k" (.leaf (.str ['a'])))
      (single "k" (.leaf (.list (.own 0))))
      (single "k" (.leaf (.list (.fresh [.str ['a'], .str ['c']])))) fun _ => [.str ['c']] :=
  (joins_iff (by decide) rfl).mpr (noNull_single _ nofun)

/-- A value that is `None` is merged once, but not again. -/
theorem null_not_joins :
    let b := single "k" (.leaf .null)
    mergeDict .nil b (fun _ => []) = .ok (b, fun _ => []) ∧
      ¬ Joins (fun _ => []) .nil b b fun _ => [] := by
  refine ⟨rfl, fun h => ?_⟩
  obtain ⟨m', hm', -⟩ := h.again
  cases hm'

end Custodian.MergeDict

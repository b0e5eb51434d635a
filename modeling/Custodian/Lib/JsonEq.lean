import Custodian.Lib.Items
import Custodian.Lib.Json
import Custodian.Lib.SortedSet

/-!
# Equality of documents

Two documents are equal in the language when they are up to the order of the members of objects,
where a truth value is the number 0 or 1.  A canonical form has sorted members and numbers only, so
that equal documents are those with one canonical form.
-/

namespace Py.Json

open Items (get_cons isSome_get mem_iff_get)

/-! ## Look-ups -/

theorem lookup_eq_get (k : Text) (ms : List (Text × Json)) : ms.lookup k = Items.get k ms := by
  induction ms with
  | nil => rfl
  | cons m ms ih =>
    rw [get_cons, List.lookup_cons, ih]
    by_cases hk : k = m.1
    · rw [if_pos hk, beq_iff_eq.mpr hk]
    · rw [if_neg hk, beq_eq_false_iff_ne.mpr hk]

theorem hasKey_obj (k : Text) (ms : List (Text × Json)) :
    hasKey (.obj ms) k = .ok (Items.get k ms).isSome := by
  rw [hasKey, lookup_eq_get]

theorem index_obj (k : Text) (ms : List (Text × Json)) :
    index (.obj ms) k = (Items.get k ms).elim (.error .keyError) .ok := by
  rw [index, lookup_eq_get]
  cases Items.get k ms <;> rfl

/-! ## The same constructors -/

mutual

def beq : Json → Json → Bool
  | .null, .null => true
  | .bool b, .bool c => b = c
  | .num p, .num q => p = q
  | .str s, .str t => s = t
  | .arr xs, .arr ys => beqItems xs ys
  | .obj ms, .obj ns => beqMembers ms ns
  | _, _ => false

def beqItems : List Json → List Json → Bool
  | [], [] => true
  | x :: xs, y :: ys => beq x y && beqItems xs ys
  | _, _ => false

def beqMembers : List (Text × Json) → List (Text × Json) → Bool
  | [], [] => true
  | (k, x) :: ms, (l, y) :: ns => k = l && beq x y && beqMembers ms ns
  | _, _ => false

end

mutual

theorem beq_iff (x y : Json) : beq x y = true ↔ x = y := by
  cases x <;> cases y <;> simp [beq, beqItems_iff, beqMembers_iff]

theorem beqItems_iff (xs ys : List Json) : beqItems xs ys = true ↔ xs = ys := by
  cases xs <;> cases ys <;> simp [beqItems, beq_iff, beqItems_iff]

theorem beqMembers_iff (ms ns : List (Text × Json)) : beqMembers ms ns = true ↔ ms = ns := by
  cases ms <;> cases ns <;> simp [beqMembers, beq_iff, beqMembers_iff, Prod.ext_iff]

end

instance : DecidableEq Json := fun x y => decidable_of_iff _ (beq_iff x y)

/-! ## Canonical forms -/

mutual

def canon : Json → Json
  | .null => .null
  | .bool b => .num (if b then 1 else 0)
  | .num q => .num q
  | .str s => .str s
  | .arr xs => .arr (canonItems xs)
  | .obj ms => .obj (sortedSetBy Prod.fst (canonMembers ms))

def canonItems : List Json → List Json
  | [] => []
  | x :: xs => canon x :: canonItems xs

def canonMembers : List (Text × Json) → List (Text × Json)
  | [] => []
  | (k, x) :: ms => (k, canon x) :: canonMembers ms

end

/-- `x == y` -/
def same (x y : Json) : Bool := canon x = canon y

theorem same_iff {x y : Json} : same x y = true ↔ canon x = canon y := decide_eq_true_iff

theorem same_equivalence : Equivalence fun x y : Json => same x y = true where
  refl _ := same_iff.mpr rfl
  symm h := same_iff.mpr (same_iff.mp h).symm
  trans h h' := same_iff.mpr ((same_iff.mp h).trans (same_iff.mp h'))

theorem same_refl (x : Json) : same x x = true := same_equivalence.refl x

theorem same_congr_left {x y : Json} (h : same x y = true) (z : Json) : same x z = same y z := by
  rw [same, same, same_iff.mp h]

theorem canonMembers_eq (ms : List (Text × Json)) :
    canonMembers ms = ms.map fun m => (m.1, canon m.2) := by
  induction ms with
  | nil => rw [canonMembers, List.map_nil]
  | cons m ms ih => rw [canonMembers, ih, List.map_cons]

theorem same_str_iff {s : Text} {x : Json} : same (.str s) x = true ↔ x = .str s := by
  rw [same_iff]
  cases x <;> simp [canon, eq_comm]

/-! ## Objects -/

section Sorting

variable {ν : Type} {l l' : List (Text × ν)}

theorem keys_canonMembers (ms : List (Text × Json)) :
    (canonMembers ms).map Prod.fst = ms.map Prod.fst := by
  rw [canonMembers_eq, List.map_map]
  rfl

theorem get_canonMembers (ms : List (Text × Json)) (k : Text) :
    Items.get k (canonMembers ms) = (Items.get k ms).map canon := by
  induction ms with
  | nil => rw [canonMembers]; rfl
  | cons m ms ih =>
    rw [canonMembers, get_cons, get_cons, ih]
    split <;> rfl

theorem get_insertBy {e : Text × ν} (he : e.1 ∉ l.map Prod.fst) (k : Text) :
    Items.get k (insertBy Prod.fst e l) = if k = e.1 then some e.2 else Items.get k l := by
  induction l with
  | nil => rw [insertBy, get_cons]
  | cons e' l ih =>
    rw [List.map_cons, List.mem_cons, not_or] at he
    rw [insertBy, if_neg he.1]
    split
    · rw [get_cons]
    · rw [get_cons, ih he.2, get_cons]
      by_cases hk : k = e'.1
      · rw [if_pos hk, if_pos hk, if_neg (hk ▸ Ne.symm he.1)]
      · rw [if_neg hk, if_neg hk]

theorem mem_keys_sortedSetBy {k : Text} :
    k ∈ (sortedSetBy Prod.fst l).map Prod.fst ↔ k ∈ l.map Prod.fst := by
  rw [map_sortedSetBy, mem_sortedSet]

theorem get_sortedSetBy (h : (l.map Prod.fst).Nodup) (k : Text) :
    Items.get k (sortedSetBy Prod.fst l) = Items.get k l := by
  induction l with
  | nil => rfl
  | cons e l ih =>
    rw [List.map_cons, List.nodup_cons] at h
    rw [sortedSetBy, get_insertBy (fun he => h.1 (mem_keys_sortedSetBy.mp he)), ih h.2, get_cons]

theorem Increasing.nodup (h : Increasing Prod.fst l) : (l.map Prod.fst).Nodup := by
  refine List.pairwise_map.mpr (h.imp fun {x y} hlt heq => ?_)
  rw [heq, Text.lt_irrefl] at hlt
  exact Bool.false_ne_true hlt

/-- A sorted dictionary is known by its look-ups. -/
theorem eq_of_increasing (h : Increasing Prod.fst l) (h' : Increasing Prod.fst l')
    (hget : ∀ k, Items.get k l = Items.get k l') : l = l' := by
  have hkeys : l.map Prod.fst = l'.map Prod.fst := by
    have hid : ∀ {m : List (Text × ν)}, Increasing Prod.fst m → Increasing id (m.map Prod.fst) :=
      fun hm => List.pairwise_map.mpr hm
    refine (hid h).eq (hid h') fun k => ?_
    rw [← isSome_get, ← isSome_get, hget]
  have hmem : ∀ e, e ∈ l ↔ e ∈ l' := by
    rintro ⟨k, v⟩
    rw [mem_iff_get (Increasing.nodup h), mem_iff_get (Increasing.nodup h'), hget]
  have hperm : l.Perm l' :=
    (List.perm_ext_iff_of_nodup (Increasing.nodup h).of_map (Increasing.nodup h').of_map).mpr hmem
  refine hperm.eq_of_pairwise (fun x y _ _ hxy hyx => ?_) h h'
  have hlt := Text.lt_trans hxy hyx
  rw [Text.lt_irrefl] at hlt
  cases hlt

end Sorting

/-- **Objects are equal** when look-ups find equal values. -/
theorem same_obj_iff {ms ns : List (Text × Json)} (hms : (ms.map Prod.fst).Nodup)
    (hns : (ns.map Prod.fst).Nodup) : same (.obj ms) (.obj ns) = true ↔
      ∀ k, (Items.get k ms).map canon = (Items.get k ns).map canon := by
  have hget : ∀ {ms : List (Text × Json)}, (ms.map Prod.fst).Nodup → ∀ k,
      Items.get k (sortedSetBy Prod.fst (canonMembers ms)) = (Items.get k ms).map canon := by
    intro ms h k
    rw [get_sortedSetBy (by rwa [keys_canonMembers]), get_canonMembers]
  rw [same_iff, canon, canon, obj.injEq]
  constructor
  · intro h k
    rw [← hget hms, ← hget hns, h]
  · intro h
    refine eq_of_increasing (increasing_sortedSetBy _) (increasing_sortedSetBy _) fun k => ?_
    rw [hget hms, hget hns, h]

end Py.Json

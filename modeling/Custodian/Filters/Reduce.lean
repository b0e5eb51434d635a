import Custodian.Lib.Except
import Custodian.Lib.StableSort
import Custodian.Utils.ParseDate
import Mathlib.Data.Char
import Mathlib.Data.List.Flatten
import Mathlib.Data.List.Lex

/-!
# Grouping, sorting and limiting resources

`ReduceFilter` of `c7n/filters/core.py` groups resources by the text of a value, sorts each group and
takes a window of it: some resources are discarded, and of the others a number is kept.
-/

namespace Custodian.Reduce

open Py
open Py.StableSort
open ParseDate

/-! ## Configuration -/

inductive ValueType where
  | string
  | number
  | date
  deriving DecidableEq, Repr

inductive Order where
  | asc
  | desc
  | reverse
  | randomize
  deriving DecidableEq, Repr

/-- `group-by` or `sort-by`; a text stands for its key. -/
structure SortConfig where
  key : Option Text
  valueType : ValueType
  valueRegex : Option Text

/-- The data of the filter; the counts are whole. -/
structure Data where
  groupBy : Option SortConfig
  sortBy : Option SortConfig
  order : Option Order
  nullFirst : Bool
  limit : Nat
  limitPercent : ℚ
  discard : Nat
  discardPercent : ℚ

/-- `self.order` -/
def Data.orderOrAsc (d : Data) : Order := d.order.getD .asc

/-- `get_sort_config` of an option that is missing. -/
def noConfig : SortConfig := ⟨none, .string, none⟩

/-- What a resource is sorted by; keys of one configuration are of one kind. -/
inductive Key where
  | text (s : Text)
  | number (x : Number)
  | date (t : Instant)
  deriving DecidableEq

def Key.lt : Key → Key → Bool
  | .text s, .text s' => s < s'
  | .number x, .number x' => x.lt x'
  | .date t, .date t' => t.micros < t'.micros
  | _, _ => false

/-- What is taken of other modules. -/
structure Env where
  clock : Clock
  /-- `get_resource_value(expr, r, regex)` -/
  getResourceValue : Text → Option Text → Json → Except Exn Json
  /-- `str(v)` -/
  str : Json → Text
  strNumber : Number → Text
  strDate : Instant → Text
  /-- `int(pct / 100 * n)` -/
  percentOf : ℚ → Nat → Nat
  /-- `sample(items, k=len(items))` -/
  sample {α : Type} : List α → List α

/-! ## Values -/

/-- The value, converted to the type of the configuration. -/
def Env.convert (env : Env) (t : ValueType) (v : Json) : Except Exn (Option Key) :=
  match t with
  | .string => .ok (some (.text (env.str v)))
  | .number => (env.clock.float v).map fun x => some (.number x)
  | .date => (env.clock.parseDate (env.clock.raw v)).map (Option.map .date)

/-- The value by the expression; without one nothing is read. -/
def Env.read (env : Env) (c : SortConfig) (r : Json) : Except Exn Json :=
  match c.key with
  | none | some [] => .ok .null
  | some expr => env.getResourceValue expr c.valueRegex r

/-- The value, read and converted. -/
def Env.converted (env : Env) (c : SortConfig) (r : Json) : Except Exn (Option Key) := do
  match ← env.read c r with
  | .null => return none
  | v => env.convert c.valueType v

/-- The value of a resource, before it is replaced when missing. -/
def Env.sortValue (env : Env) (c : SortConfig) (r : Json) : Except Exn (Option Key) :=
  match env.converted c r with
  | .error e => if e = .attributeError ∨ e = valueError then .ok none else .error e
  | .ok k => .ok k

/-- A value that sorts first. -/
def smallest : ValueType → Key
  | .string => .text []
  | .number => .number .negInf
  | .date => .date .min

/-- A value that sorts last. -/
def greatest : ValueType → Key
  | .string => .text ['\uffff']
  | .number => .number .posInf
  | .date => .date .max

def Data.nullSortValue (d : Data) (c : SortConfig) : Key :=
  let last := !d.nullFirst
  let desc := d.orderOrAsc = .desc
  if (last ∧ desc) ∨ (¬ last ∧ ¬ desc) then smallest c.valueType else greatest c.valueType

/-- `_value_to_sort` -/
def Data.valueToSort (d : Data) (env : Env) (c : SortConfig) (r : Json) : Except Exn Key := do
  return (← env.sortValue c r).getD (d.nullSortValue c)

/-- `str(v)` of a key -/
def Env.strKey (env : Env) : Key → Text
  | .text s => s
  | .number x => env.strNumber x
  | .date t => env.strDate t

/-! ## The filter -/

/-- An item of `groups`. -/
structure Group where
  name : Text
  sortkey : Key
  resources : List Json

/-- A resource is added to the group of its name. -/
def addTo (name : Text) (sortkey : Key) (r : Json) : List Group → List Group
  | [] => [⟨name, sortkey, [r]⟩]
  | g :: groups =>
    if g.name = name then { g with resources := g.resources ++ [r] } :: groups
    else g :: addTo name sortkey r groups

def Data.group (d : Data) (env : Env) (resources : List Json) : Except Exn (List Group) :=
  resources.foldlM (fun groups r => do
    let v ← d.valueToSort env (d.groupBy.getD noConfig) r
    return addTo (env.strKey v) v r groups) []

/-- `reorder`; the keys of all items are computed before they are sorted. -/
def Data.reorder {α : Type} (d : Data) (env : Env) (σ : Sorting Key.lt) (items : List α)
    (key : α → Except Exn Key) : Except Exn (List α) :=
  match d.orderOrAsc with
  | .randomize => .ok (env.sample items)
  | .reverse => .ok items.reverse
  | order => do
    let keyed ← items.mapM fun x => do return (← key x, x)
    return (σ.sorted Prod.fst (order = .desc) keyed).map Prod.snd

def Data.sortGroup (d : Data) (env : Env) (σ : Sorting Key.lt) (g : Group) : Except Exn Group := do
  let resources ← d.reorder env σ g.resources (d.valueToSort env (d.sortBy.getD noConfig))
  return { g with resources := resources }

/-- The groups, sorted when one of the options is given. -/
def Data.sortedGroups (d : Data) (env : Env) (σ : Sorting Key.lt) (resources : List Json) :
    Except Exn (List Group) := do
  let groups ← d.group env resources
  if d.sortBy.isSome ∨ d.order.isSome then groups.mapM (d.sortGroup env σ) else return groups

/-- What is kept of a group. -/
def Data.window (d : Data) (env : Env) (resources : List Json) : List Json :=
  let n := env.percentOf d.discardPercent resources.length
  let gdrop := if 0 < d.discardPercent ∧ d.discard < n then n else d.discard
  let resources := if 0 < gdrop then resources.drop gdrop else resources
  let count := if 0 < d.limitPercent then env.percentOf d.limitPercent resources.length
    else resources.length
  let count := if 0 < d.limit ∧ d.limit < count then d.limit else count
  resources.take count

/-- The groups in order; the code orders their names, and a group has one name. -/
def Data.orderGroups (d : Data) (env : Env) (σ : Sorting Key.lt) (groups : List Group) :
    Except Exn (List Group) :=
  if d.groupBy.isSome ∨ d.order.isSome then d.reorder env σ groups fun g => .ok g.sortkey
  else .ok groups

/-- `limit` -/
def Data.limitGroups (d : Data) (env : Env) (σ : Sorting Key.lt) (groups : List Group) :
    Except Exn (List Json) := do
  return (← d.orderGroups env σ groups).flatMap fun g => d.window env g.resources

def Data.process (d : Data) (env : Env) (σ : Sorting Key.lt) (resources : List Json) :
    Except Exn (List Json) := do
  let groups ← d.sortedGroups env σ resources
  return (← d.limitGroups env σ groups).filter Json.truthy

/-! ## Keys -/

def Key.kind : Key → ValueType
  | .text _ => .string
  | .number _ => .number
  | .date _ => .date

theorem Key.lt_asymm {x y : Key} (h : x.lt y = true) : y.lt x = false := by
  cases x <;> cases y <;> simp only [Key.lt, decide_eq_true_eq, decide_eq_false_iff_not,
    Bool.false_eq_true] at h ⊢
  case text.text => exact not_lt_of_gt h
  case number.number => exact Number.lt_asymm h
  case date.date => exact not_lt_of_gt h

theorem Key.lt_cotrans {x z : Key} (h : x.lt z = true) {y : Key} (hkind : y.kind = x.kind)
    (hnan : y ≠ .number .nan) : x.lt y = true ∨ y.lt z = true := by
  cases x <;> cases z <;> simp only [Key.lt, decide_eq_true_eq, Bool.false_eq_true] at h
  case text.text s s' =>
    cases y <;> cases hkind
    rename_i s''
    rcases lt_or_ge s s'' with hlt | hge
    · exact Or.inl (by simpa [Key.lt] using hlt)
    · exact Or.inr (by simpa [Key.lt] using lt_of_le_of_lt hge h)
  case number.number =>
    cases y <;> cases hkind
    exact Number.lt_cotrans h (by simpa using hnan)
  case date.date t t' =>
    cases y <;> cases hkind
    rename_i t''
    simp only [Key.lt, decide_eq_true_eq]
    omega

theorem ordered_iff {α : Type} {key : α → Key} {t : ValueType} {l : List α}
    (hkind : ∀ x ∈ l, (key x).kind = t) :
    Ordered (fun a b => (key a).lt (key b)) l ↔ ∀ a ∈ l, ∀ b ∈ l,
      (key a).lt (key b) = true → ∀ c ∈ l, key c ≠ .number .nan := by
  constructor
  · intro h a ha b hb hab c hc hnan
    have hlt : ∀ x : Key, x.lt (.number .nan) = false ∧ Key.lt (.number .nan) x = false := by
      intro x
      cases x with
      | text s => exact ⟨rfl, rfl⟩
      | number x => cases x <;> exact ⟨rfl, rfl⟩
      | date t => exact ⟨rfl, rfl⟩
    rcases h.cotrans a ha c hc b hb hab with h | h
    · rw [hnan, (hlt _).1] at h
      cases h
    · rw [hnan, (hlt _).2] at h
      cases h
  · intro h
    exact ⟨fun a _ b _ hab => Key.lt_asymm hab, fun a ha c hc b hb hab =>
      Key.lt_cotrans hab ((hkind c hc).trans (hkind a ha).symm) (h a ha b hb hab c hc)⟩

theorem kind_of_convert {env : Env} {t : ValueType} {v : Json} {k : Key}
    (h : env.convert t v = .ok (some k)) : k.kind = t := by
  cases t with
  | string =>
    cases h
    rfl
  | number =>
    rw [Env.convert] at h
    cases hx : env.clock.float v with
    | error e => rw [hx] at h; cases h
    | ok x => rw [hx] at h; cases h; rfl
  | date =>
    rw [Env.convert] at h
    cases hx : env.clock.parseDate (env.clock.raw v) with
    | error e => rw [hx] at h; cases h
    | ok x =>
      rw [hx] at h
      cases x with
      | none => cases h
      | some x => cases h; rfl

theorem kind_of_sortValue {env : Env} {c : SortConfig} {r : Json} {k : Key}
    (h : env.sortValue c r = .ok (some k)) : k.kind = c.valueType := by
  rw [Env.sortValue] at h
  split at h
  · split at h <;> cases h
  · rename_i hvalue
    cases h
    rw [Env.converted, bind_eq_ok] at hvalue
    obtain ⟨v, -, hv⟩ := hvalue
    split at hv
    · cases hv
    · exact kind_of_convert hv

theorem kind_nullSortValue (d : Data) (c : SortConfig) : (d.nullSortValue c).kind = c.valueType := by
  rw [Data.nullSortValue]
  split <;> cases c.valueType <;> rfl

theorem kind_of_valueToSort {d : Data} {env : Env} {c : SortConfig} {r : Json} {k : Key}
    (h : d.valueToSort env c r = .ok k) : k.kind = c.valueType := by
  rw [Data.valueToSort, bind_eq_ok] at h
  obtain ⟨v, hv, h⟩ := h
  rw [pure_eq_ok] at h
  cases v with
  | none => rw [← h]; exact kind_nullSortValue d c
  | some v => rw [← h]; exact kind_of_sortValue hv

/-! ## Sorting -/

/-- A list of items, arranged in an order by a key. -/
structure InOrder {α : Type} (reverse : Bool) (key : α → Key) (l l' : List α) : Prop where
  perm : l'.Perm l
  sorted : l'.Pairwise fun x y => byKey Key.lt reverse key y x = false
  /-- Items with equal keys keep their order. -/
  stable : ∀ z ∈ l, l'.filter (fun x => !(key x).lt (key z) && !(key z).lt (key x)) =
    l.filter fun x => !(key x).lt (key z) && !(key z).lt (key x)

/-- What an order makes of a list. -/
def Arranged {α : Type} (order : Option Order) (key : α → Key) (l l' : List α) : Prop :=
  match order with
  | none => l' = l
  | some .asc => InOrder false key l l'
  | some .desc => InOrder true key l l'
  | some .reverse => l' = l.reverse
  | some .randomize => l'.Perm l

theorem inOrder_sort {α : Type} {reverse : Bool} {key : α → Key} {l : List α}
    (h : Ordered (fun a b => (key a).lt (key b)) l) :
    InOrder reverse key l (sort (byKey Key.lt reverse key) l) where
  perm := sort_perm _ l
  sorted := pairwise_sort (ordered_byKey_iff.mpr h)
  stable z hz := by
    refine filter_sort fun a ha b hb hza hzb => ?_
    simp only [Bool.and_eq_true, Bool.not_eq_true'] at hza hzb
    rw [← Bool.not_eq_true]
    cases reverse with
    | false =>
      intro hab
      rcases h.cotrans a ha z hz b hb hab with haz | hzb'
      · rw [hza.1] at haz
        cases haz
      · rw [hzb.2] at hzb'
        cases hzb'
    | true =>
      intro hba
      rcases h.cotrans b hb z hz a ha hba with hbz | hza'
      · rw [hzb.1] at hbz
        cases hbz
      · rw [hza.2] at hza'
        cases hza'

theorem map_snd_sort {α : Type} (reverse : Bool) (key : α → Key) (l : List α) :
    (sort (byKey Key.lt reverse Prod.fst) (l.map fun x => (key x, x))).map Prod.snd =
      sort (byKey Key.lt reverse key) l := by
  have hmap := List.map_insertionSort (fun a b => byKey Key.lt reverse key b a = false)
    (fun a b => byKey Key.lt reverse Prod.fst b a = false) (fun x => (key x, x)) l
    (fun a _ b _ => Iff.rfl)
  rw [sort, ← hmap, List.map_map, sort]
  exact List.map_id _

theorem ordered_pairs {α : Type} {key : α → Key} {l : List α} :
    Ordered (fun a b : Key × α => a.1.lt b.1) (l.map fun x => (key x, x)) ↔
      Ordered (fun a b => (key a).lt (key b)) l := by
  constructor
  · intro h
    have hmem : ∀ a ∈ l, (key a, a) ∈ l.map fun x => (key x, x) := fun a ha =>
      List.mem_map.mpr ⟨a, ha, rfl⟩
    exact ⟨fun a ha b hb => h.asymm _ (hmem a ha) _ (hmem b hb),
      fun a ha b hb c hc => h.cotrans _ (hmem a ha) _ (hmem b hb) _ (hmem c hc)⟩
  · intro h
    constructor
    · simp only [List.mem_map, forall_exists_index, and_imp, forall_apply_eq_imp_iff₂]
      exact h.asymm
    · simp only [List.mem_map, forall_exists_index, and_imp, forall_apply_eq_imp_iff₂]
      exact h.cotrans

theorem mapM_ok {α β : Type} {f : α → Except Exn β} {g : α → β} {l : List α}
    (h : ∀ x ∈ l, f x = .ok (g x)) : l.mapM f = .ok (l.map g) := by
  rw [mapM_eq_ok, List.forall₂_map_right_iff, List.forall₂_same]
  exact h

/-- The orders that compare keys. -/
def Order.compares : Order → Bool
  | .asc | .desc => true
  | .reverse | .randomize => false

theorem reorder_of_compares {α : Type} {d : Data} {env : Env} {σ : Sorting Key.lt}
    (hd : d.orderOrAsc.compares = true) {items : List α} {key : α → Except Exn Key} {k : α → Key}
    (hkey : ∀ x ∈ items, key x = .ok (k x)) :
    d.reorder env σ items key = .ok ((σ.sorted Prod.fst (d.orderOrAsc = .desc)
      (items.map fun x => (k x, x))).map Prod.snd) := by
  have hkeyed : (items.mapM fun x => do return (← key x, x)) =
      .ok (items.map fun x => (k x, x)) := by
    refine mapM_ok fun x hx => ?_
    rw [hkey x hx]
    rfl
  rw [Data.reorder]
  cases horder : d.orderOrAsc with
  | asc => simp only [hkeyed]; rfl
  | desc => simp only [hkeyed]; rfl
  | reverse => rw [horder] at hd; cases hd
  | randomize => rw [horder] at hd; cases hd

theorem reorder_spec {α : Type} {d : Data} (env : Env) {σ : Sorting Key.lt}
    (hrandom : d.orderOrAsc ≠ .randomize) {items : List α} {key : α → Except Exn Key} {k : α → Key}
    (hkey : d.orderOrAsc.compares = true → ∀ x ∈ items, key x = .ok (k x))
    (hordered : d.orderOrAsc.compares = true → Ordered (fun a b => (k a).lt (k b)) items) :
    ∃ items', d.reorder env σ items key = .ok items' ∧
      Arranged (some d.orderOrAsc) k items items' := by
  have hsorted : d.orderOrAsc.compares = true → d.reorder env σ items key =
      .ok (sort (byKey Key.lt (d.orderOrAsc = .desc) k) items) := by
    intro hd
    rw [reorder_of_compares hd (hkey hd), σ.eq_sort, map_snd_sort]
    exact ordered_byKey_iff.mpr (ordered_pairs.mpr (hordered hd))
  cases horder : d.orderOrAsc with
  | asc =>
    rw [horder] at hsorted hordered
    exact ⟨_, hsorted rfl, inOrder_sort (hordered rfl)⟩
  | desc =>
    rw [horder] at hsorted hordered
    exact ⟨_, hsorted rfl, inOrder_sort (hordered rfl)⟩
  | reverse => exact ⟨items.reverse, by rw [Data.reorder, horder], rfl⟩
  | randomize => exact absurd horder hrandom

/-! ## Groups -/

/-- The names, each where it appears first. -/
def firsts : List Text → List Text
  | [] => []
  | n :: ns => n :: (firsts ns).filter (· ≠ n)

theorem mem_firsts {n : Text} {ns : List Text} : n ∈ firsts ns ↔ n ∈ ns := by
  induction ns with
  | nil => rfl
  | cons m ns ih =>
    rw [firsts, List.mem_cons, List.mem_cons, List.mem_filter, ih]
    by_cases h : n = m <;> simp [h]

theorem nodup_firsts (ns : List Text) : (firsts ns).Nodup := by
  induction ns with
  | nil => exact List.nodup_nil
  | cons n ns ih => exact List.nodup_cons.mpr ⟨by simp, ih.filter _⟩

theorem firsts_concat (ns : List Text) (n : Text) :
    firsts (ns ++ [n]) = if n ∈ ns then firsts ns else firsts ns ++ [n] := by
  induction ns with
  | nil => rfl
  | cons m ns ih =>
    rw [List.cons_append, firsts, ih, firsts]
    by_cases hm : n = m
    · rw [hm, if_pos List.mem_cons_self]
      split <;> simp
    · by_cases hn : n ∈ ns
      · rw [if_pos hn, if_pos (List.mem_cons_of_mem _ hn)]
      · rw [if_neg hn, if_neg (by simp [hm, hn]), List.filter_append, List.cons_append,
          List.filter_cons_of_pos (by simpa using hm), List.filter_nil]

section Grouped

variable (env : Env) (k : Json → Key)

/-- The group of a name. -/
def groupOf (resources : List Json) (n : Text) : Group where
  name := n
  sortkey := ((resources.find? fun r => env.strKey (k r) = n).map k).getD (.text n)
  resources := resources.filter fun r => env.strKey (k r) = n

/-- The resources by the text of their key. -/
def grouped (resources : List Json) : List Group :=
  (firsts (resources.map fun r => env.strKey (k r))).map (groupOf env k resources)

theorem groupOf_concat_of_ne {resources : List Json} {r : Json} {n : Text}
    (h : env.strKey (k r) ≠ n) : groupOf env k (resources ++ [r]) n = groupOf env k resources n := by
  rw [groupOf, groupOf, List.filter_append, List.find?_append]
  simp [h]

theorem groupOf_concat_of_mem {resources : List Json} {r : Json}
    (h : env.strKey (k r) ∈ resources.map fun r => env.strKey (k r)) :
    groupOf env k (resources ++ [r]) (env.strKey (k r)) =
      { groupOf env k resources (env.strKey (k r)) with
        resources := (groupOf env k resources (env.strKey (k r))).resources ++ [r] } := by
  obtain ⟨r', hr', hname⟩ := List.mem_map.mp h
  have hsome : (resources.find? fun x => env.strKey (k x) = env.strKey (k r)).isSome = true :=
    List.find?_isSome.mpr ⟨r', hr', by simpa using hname⟩
  obtain ⟨x, hx⟩ := Option.isSome_iff_exists.mp hsome
  rw [groupOf, groupOf, List.filter_append, List.find?_append, hx]
  simp

theorem groupOf_concat_of_not_mem {resources : List Json} {r : Json}
    (h : env.strKey (k r) ∉ resources.map fun r => env.strKey (k r)) :
    groupOf env k (resources ++ [r]) (env.strKey (k r)) = ⟨env.strKey (k r), k r, [r]⟩ := by
  have hnone : ∀ x ∈ resources, ¬ env.strKey (k x) = env.strKey (k r) := fun x hx hname =>
    h (List.mem_map.mpr ⟨x, hx, hname⟩)
  have hfind : resources.find? (fun x => env.strKey (k x) = env.strKey (k r)) = none :=
    List.find?_eq_none.mpr fun x hx => by simpa using hnone x hx
  have hfilter : resources.filter (fun x => env.strKey (k x) = env.strKey (k r)) = [] :=
    List.filter_eq_nil_iff.mpr fun x hx => by simpa using hnone x hx
  rw [groupOf, List.filter_append, List.find?_append, hfind, hfilter]
  simp

theorem addTo_map {f : Text → Group} (hf : ∀ n, (f n).name = n) {ns : List Text} (hns : ns.Nodup)
    (n : Text) (key : Key) (r : Json) : addTo n key r (ns.map f) =
      if n ∈ ns then
        ns.map fun m => if m = n then { f m with resources := (f m).resources ++ [r] } else f m
      else ns.map f ++ [⟨n, key, [r]⟩] := by
  induction ns with
  | nil => rfl
  | cons m ns ih =>
    rw [List.nodup_cons] at hns
    rw [List.map_cons, addTo, hf m, ih hns.2]
    by_cases hm : m = n
    · subst hm
      rw [if_pos rfl, if_pos List.mem_cons_self, List.map_cons, if_pos rfl, List.cons.injEq]
      refine ⟨by simp [hf], List.map_congr_left fun m' hm' => ?_⟩
      rw [if_neg]
      rintro rfl
      exact hns.1 hm'
    · rw [if_neg hm]
      by_cases hn : n ∈ ns
      · rw [if_pos hn, if_pos (List.mem_cons_of_mem _ hn), List.map_cons, if_neg hm]
      · rw [if_neg hn, if_neg (by simp [Ne.symm hm, hn]), List.cons_append]

theorem addTo_grouped (resources : List Json) (r : Json) :
    addTo (env.strKey (k r)) (k r) r (grouped env k resources) =
      grouped env k (resources ++ [r]) := by
  have hmem : ∀ {m}, m ∈ firsts (resources.map fun r => env.strKey (k r)) ↔
      m ∈ resources.map fun r => env.strKey (k r) := mem_firsts
  rw [grouped, addTo_map (fun n => rfl) (nodup_firsts _), grouped, List.map_append, List.map_cons,
    List.map_nil, firsts_concat]
  by_cases hr : env.strKey (k r) ∈ resources.map fun r => env.strKey (k r)
  · rw [if_pos (hmem.mpr hr), if_pos hr]
    refine List.map_congr_left fun m _ => ?_
    split
    case isTrue hm => rw [hm, groupOf_concat_of_mem env k hr]
    case isFalse hm => rw [groupOf_concat_of_ne env k (Ne.symm hm)]
  · rw [if_neg (mt hmem.mp hr), if_neg hr, List.map_append, List.map_singleton,
      groupOf_concat_of_not_mem env k hr]
    congr 1
    refine List.map_congr_left fun m hm => ?_
    rw [groupOf_concat_of_ne env k]
    rintro rfl
    exact hr (hmem.mp hm)

theorem group_eq {d : Data} {resources : List Json}
    (h : ∀ r ∈ resources, d.valueToSort env (d.groupBy.getD noConfig) r = .ok (k r)) :
    d.group env resources = .ok (grouped env k resources) := by
  rw [Data.group]
  induction resources using List.reverseRecOn with
  | nil => rfl
  | append_singleton resources r ih =>
    rw [List.foldlM_append, ih fun r' hr' => h r' (List.mem_append_left _ hr'), ok_bind,
      List.foldlM_cons, h r (by simp), ok_bind, ← addTo_grouped]
    rfl

theorem of_mem_grouped {resources : List Json} {x : Group} (h : x ∈ grouped env k resources) :
    (∃ r ∈ resources, x.sortkey = k r) ∧ ∀ r ∈ x.resources, r ∈ resources := by
  obtain ⟨n, hn, rfl⟩ := List.mem_map.mp h
  obtain ⟨r, hr, hname⟩ := List.mem_map.mp (mem_firsts.mp hn)
  have hsome : (resources.find? fun x => env.strKey (k x) = n).isSome = true :=
    List.find?_isSome.mpr ⟨r, hr, by simpa using hname⟩
  obtain ⟨x, hx⟩ := Option.isSome_iff_exists.mp hsome
  exact ⟨⟨x, List.mem_of_find?_eq_some hx, by rw [groupOf, hx]; rfl⟩,
    fun r hr => List.mem_of_mem_filter hr⟩

theorem flatMap_addTo (name : Text) (key : Key) (r : Json) (groups : List Group) :
    ((addTo name key r groups).flatMap Group.resources).Perm
      (groups.flatMap Group.resources ++ [r]) := by
  induction groups with
  | nil => exact List.Perm.refl _
  | cons g groups ih =>
    rw [addTo]
    split
    · rw [List.flatMap_cons, List.flatMap_cons, List.append_assoc, List.append_assoc]
      exact List.perm_append_comm.append_left _
    · rw [List.flatMap_cons, List.flatMap_cons, List.append_assoc]
      exact ih.append_left _

theorem flatMap_grouped (resources : List Json) :
    ((grouped env k resources).flatMap Group.resources).Perm resources := by
  induction resources using List.reverseRecOn with
  | nil => exact List.Perm.refl _
  | append_singleton resources r ih =>
    rw [← addTo_grouped]
    exact (flatMap_addTo _ _ _ _).trans (ih.append_right _)

end Grouped

/-! ## Windows -/

/-- The positions from `discard` on, as many as the limit says; without a limit, all. -/
def Data.span (d : Data) (resources : List Json) : List Json :=
  let rest := resources.drop d.discard
  if d.limit = 0 then rest else rest.take d.limit

theorem window_eq_span {d : Data} (env : Env) (hlimit : d.limitPercent = 0)
    (hdiscard : d.discardPercent = 0) (resources : List Json) :
    d.window env resources = d.span resources := by
  have hdrop : (if 0 < d.discard then resources.drop d.discard else resources) =
      resources.drop d.discard := by
    by_cases hpos : 0 < d.discard
    · rw [if_pos hpos]
    · rw [if_neg hpos, Nat.eq_zero_of_not_pos hpos, List.drop_zero]
  rw [Data.window, Data.span, hlimit, hdiscard]
  simp only [lt_self_iff_false, false_and, if_false, hdrop]
  by_cases hzero : d.limit = 0
  · rw [if_pos hzero, if_neg (by omega), List.take_length]
  · rw [if_neg hzero]
    split
    · rfl
    · rw [List.take_length, List.take_of_length_le (by omega)]

theorem length_span (d : Data) (resources : List Json) : (d.span resources).length =
    if d.limit = 0 then resources.length - d.discard
    else min d.limit (resources.length - d.discard) := by
  rw [Data.span]
  split <;> simp

theorem span_sublist (d : Data) (resources : List Json) : (d.span resources).Sublist resources := by
  rw [Data.span]
  split
  · exact List.drop_sublist _ _
  · exact (List.take_sublist _ _).trans (List.drop_sublist _ _)

/-! ## The result -/

theorem Arranged.perm {α : Type} {order : Option Order} {key : α → Key} {l l' : List α}
    (h : Arranged order key l l') : l'.Perm l := by
  cases order with
  | none => exact h ▸ List.Perm.refl _
  | some order =>
    cases order with
    | asc => exact InOrder.perm h
    | desc => exact InOrder.perm h
    | reverse => exact h ▸ List.reverse_perm l
    | randomize => exact h

/-- How the resources of a group are ordered. -/
def Data.memberOrder (d : Data) : Option Order :=
  if d.sortBy.isSome ∨ d.order.isSome then some d.orderOrAsc else none

/-- How the groups are ordered. -/
def Data.groupOrder (d : Data) : Option Order :=
  if d.groupBy.isSome ∨ d.order.isSome then some d.orderOrAsc else none

/-- A group whose resources are ordered. -/
def OrderedGroup (d : Data) (key : Json → Key) (x y : Group) : Prop :=
  y.name = x.name ∧ y.sortkey = x.sortkey ∧ Arranged d.memberOrder key x.resources y.resources

/-- The concatenation of the windows of the groups. -/
def Selected (d : Data) (key : Json → Key) (groups : List Group) (result : List Json) : Prop :=
  ∃ sorted arranged, List.Forall₂ (OrderedGroup d key) groups sorted ∧
    Arranged d.groupOrder Group.sortkey sorted arranged ∧
    result = arranged.flatMap fun x => d.span x.resources

theorem Selected.subperm {d : Data} {key : Json → Key} {groups : List Group} {result : List Json}
    (h : Selected d key groups result) : result.Subperm (groups.flatMap Group.resources) := by
  obtain ⟨sorted, arranged, hsorted, harranged, rfl⟩ := h
  have hspans : ∀ l : List Group, (l.flatMap fun x => d.span x.resources).Sublist
      (l.flatMap Group.resources) :=
    fun l => List.Sublist.flatMap_right l fun x _ => span_sublist d x.resources
  have hperm : (sorted.flatMap Group.resources).Perm (groups.flatMap Group.resources) := by
    clear harranged
    induction hsorted with
    | nil => exact List.Perm.refl _
    | @cons x y groups sorted hxy _ ih =>
      rw [List.flatMap_cons, List.flatMap_cons]
      exact hxy.2.2.perm.append ih
  exact (hspans arranged).subperm.trans
    ((harranged.perm.flatMap_right Group.resources).trans hperm).subperm

/-- The keys of the resources, none of which is `nan`. -/
def HasKeys (d : Data) (env : Env) (c : SortConfig) (resources : List Json) (k : Json → Key) :
    Prop := ∀ r ∈ resources, d.valueToSort env c r = .ok (k r) ∧ k r ≠ .number .nan

theorem ordered_of_hasKeys {d : Data} {env : Env} {c : SortConfig} {resources : List Json}
    {k : Json → Key} (h : HasKeys d env c resources k) {α : Type} {key : α → Key} {l : List α}
    (hl : ∀ x ∈ l, ∃ r ∈ resources, key x = k r) :
    Ordered (fun a b => (key a).lt (key b)) l := by
  have hkind : ∀ x ∈ l, (key x).kind = c.valueType := by
    intro x hx
    obtain ⟨r, hr, hkey⟩ := hl x hx
    rw [hkey]
    exact kind_of_valueToSort (h r hr).1
  refine (ordered_iff hkind).mpr fun a _ b _ _ x hx hnan => ?_
  obtain ⟨r, hr, hkey⟩ := hl x hx
  exact (h r hr).2 (hkey ▸ hnan)

theorem sortedGroups_spec {d : Data} {env : Env} {σ : Sorting Key.lt} {resources : List Json}
    {g s : Json → Key} (hrandom : d.orderOrAsc ≠ .randomize)
    (hgroup : HasKeys d env (d.groupBy.getD noConfig) resources g)
    (hsort : d.memberOrder ≠ none → d.orderOrAsc.compares = true →
      HasKeys d env (d.sortBy.getD noConfig) resources s) :
    ∃ sorted, d.sortedGroups env σ resources = .ok sorted ∧
      List.Forall₂ (OrderedGroup d s) (grouped env g resources) sorted := by
  rw [Data.sortedGroups, group_eq env g fun r hr => (hgroup r hr).1, ok_bind]
  by_cases hsorts : d.sortBy.isSome ∨ d.order.isSome
  swap
  · refine ⟨_, if_neg hsorts, List.forall₂_same.mpr fun x _ => ⟨rfl, rfl, ?_⟩⟩
    rw [Data.memberOrder, if_neg hsorts]
    rfl
  have hmember : d.memberOrder = some d.orderOrAsc := if_pos hsorts
  have hone : ∀ x ∈ grouped env g resources, ∃ y, d.sortGroup env σ x = .ok y ∧
      OrderedGroup d s x y := by
    intro x hx
    have hmem := (of_mem_grouped env g hx).2
    have hkeys : d.orderOrAsc.compares = true →
        HasKeys d env (d.sortBy.getD noConfig) resources s := hsort (by rw [hmember]; simp)
    obtain ⟨items, hitems, harranged⟩ := reorder_spec env (σ := σ) hrandom
      (fun hc r hr => (hkeys hc r (hmem r hr)).1)
      (fun hc => ordered_of_hasKeys (hkeys hc) fun r hr => ⟨r, hmem r hr, rfl⟩)
    refine ⟨{ x with resources := items }, ?_, rfl, rfl, ?_⟩
    · rw [Data.sortGroup, hitems]
      rfl
    · rw [hmember]
      exact harranged
  rw [if_pos hsorts]
  obtain ⟨sorted, hsorted⟩ := exists_mapM_eq_ok fun x hx => (hone x hx).imp fun y hy => hy.1
  refine ⟨sorted, hsorted, ?_⟩
  rw [mapM_eq_ok] at hsorted
  refine List.forall₂_iff_get.mpr ⟨hsorted.length_eq, fun i hx hy => ?_⟩
  obtain ⟨y, hy', hordered⟩ := hone _ (List.get_mem _ ⟨i, hx⟩)
  rw [hsorted.get hx hy] at hy'
  cases hy'
  exact hordered

theorem limitGroups_spec {d : Data} {env : Env} {σ : Sorting Key.lt} {resources : List Json}
    {g s : Json → Key} (hlimit : d.limitPercent = 0) (hdiscard : d.discardPercent = 0)
    (hrandom : d.orderOrAsc ≠ .randomize)
    (hgroup : HasKeys d env (d.groupBy.getD noConfig) resources g) {sorted : List Group}
    (hsorted : List.Forall₂ (OrderedGroup d s) (grouped env g resources) sorted) :
    ∃ result, d.limitGroups env σ sorted = .ok result ∧
      Selected d s (grouped env g resources) result := by
  have hwindow : ∀ l : List Group, (l.flatMap fun x => d.window env x.resources) =
      l.flatMap fun x => d.span x.resources := fun l =>
    List.flatMap_congr fun x _ => window_eq_span env hlimit hdiscard x.resources
  have hkeys : ∀ y ∈ sorted, ∃ r ∈ resources, y.sortkey = g r := by
    intro y hy
    obtain ⟨x, hx, hxy⟩ := exists_of_forall₂ hsorted.flip hy
    rw [hxy.2.1]
    exact (of_mem_grouped env g hx).1
  have harranged : ∃ arranged, d.orderGroups env σ sorted = .ok arranged ∧
      Arranged d.groupOrder Group.sortkey sorted arranged := by
    rw [Data.orderGroups]
    by_cases horders : d.groupBy.isSome ∨ d.order.isSome
    · rw [if_pos horders, Data.groupOrder, if_pos horders]
      exact reorder_spec env hrandom (fun _ x _ => rfl) fun _ => ordered_of_hasKeys hgroup hkeys
    · rw [if_neg horders, Data.groupOrder, if_neg horders]
      exact ⟨sorted, rfl, rfl⟩
  obtain ⟨arranged, hreorder, harranged⟩ := harranged
  refine ⟨_, ?_, sorted, arranged, hsorted, harranged, hwindow arranged⟩
  rw [Data.limitGroups, hreorder]
  rfl

/-- **Windows of groups.**  With whole counts, and keys that are found, the result is a window of
every group, one group after the other; no resource is taken twice. -/
theorem process_selects (d : Data) (env : Env) (σ : Sorting Key.lt) (resources : List Json)
    (g s : Json → Key) (hlimit : d.limitPercent = 0) (hdiscard : d.discardPercent = 0)
    (hrandom : d.orderOrAsc ≠ .randomize)
    (hgroup : HasKeys d env (d.groupBy.getD noConfig) resources g)
    (hsort : d.memberOrder ≠ none → d.orderOrAsc.compares = true →
      HasKeys d env (d.sortBy.getD noConfig) resources s)
    (hfull : ∀ r ∈ resources, r.truthy = true) :
    ∃ result, d.process env σ resources = .ok result ∧
      Selected d s (grouped env g resources) result ∧ result.Subperm resources ∧
      ∀ l : List Json, (d.span l).length =
        if d.limit = 0 then l.length - d.discard else min d.limit (l.length - d.discard) := by
  obtain ⟨sorted, hsorted, hordered⟩ := sortedGroups_spec (σ := σ) hrandom hgroup hsort
  obtain ⟨result, hresult, hselected⟩ := limitGroups_spec (σ := σ) hlimit hdiscard hrandom hgroup
    hordered
  have hsub : result.Subperm resources :=
    hselected.subperm.trans (flatMap_grouped env g resources).subperm
  refine ⟨result, ?_, hselected, hsub, length_span d⟩
  have hall : result.filter Json.truthy = result :=
    List.filter_eq_self.mpr fun r hr => hfull r (hsub.subset hr)
  rw [Data.process, hsorted, ok_bind, hresult, ok_bind, hall]
  rfl

/-! ## Texts -/

/-- An environment for resources whose values are texts. -/
def texts : Env where
  clock :=
    { floatOfText := fun _ => .error valueError
      floatOfNum := fun q => .ok (.fin q)
      parse := fun _ => .error valueError
      fromtimestamp := fun _ => .error valueError
      fromMillis := fun _ => .error valueError
      dateFloor := 1142726400
      windows := false }
  getResourceValue := fun expr _ r => (r.get expr).map fun v => v.getD .null
  str := fun v => (v.text .typeError).toOption.getD []
  strNumber := fun _ => "0.0".toList
  strDate := fun _ => []
  percentOf := fun _ n => n
  sample := id

def byMember (key : String) : SortConfig := ⟨some key.toList, .string, none⟩

def instance_ (group name : String) : Json :=
  .obj [("Group".toList, .str group.toList), ("Name".toList, .str name.toList)]

def memberKey (key : String) (r : Json) : Key :=
  .text ((((r.get key.toList).toOption.join.getD .null).text .typeError).toOption.getD [])

/-- The last name of each group. -/
def lastOfGroup : Data where
  groupBy := some (byMember "Group")
  sortBy := some (byMember "Name")
  order := some .desc
  nullFirst := false
  limit := 1
  limitPercent := 0
  discard := 0
  discardPercent := 0

def fourInstances : List Json :=
  [instance_ "b" "x", instance_ "a" "y", instance_ "a" "z", instance_ "b" "w"]

theorem lastOfGroup_selects : ∃ result,
    lastOfGroup.process texts (Sorting.plain _) fourInstances = .ok result ∧
      Selected lastOfGroup (memberKey "Name")
        (grouped texts (memberKey "Group") fourInstances) result ∧
      result.Subperm fourInstances ∧
      ∀ l : List Json, (lastOfGroup.span l).length =
        if lastOfGroup.limit = 0 then l.length - lastOfGroup.discard
        else min lastOfGroup.limit (l.length - lastOfGroup.discard) := by
  refine process_selects lastOfGroup texts (Sorting.plain _) fourInstances (memberKey "Group")
    (memberKey "Name") rfl rfl (by decide) ?_ (fun _ _ => ?_) ?_
  all_goals
    simp only [HasKeys, fourInstances, List.forall_mem_cons, List.not_mem_nil, false_implies,
      implies_true, and_true]
  · exact ⟨⟨rfl, by decide⟩, ⟨rfl, by decide⟩, ⟨rfl, by decide⟩, ⟨rfl, by decide⟩⟩
  · exact ⟨⟨rfl, by decide⟩, ⟨rfl, by decide⟩, ⟨rfl, by decide⟩, ⟨rfl, by decide⟩⟩
  · exact ⟨rfl, rfl, rfl, rfl⟩

/-- The groups come in the order of their keys, in one of the directions. -/
def GroupsByKey (k : Json → Key) (result : List Json) : Prop :=
  result.Pairwise (fun r r' => (k r').lt (k r) = false) ∨
    result.Pairwise (fun r r' => (k r).lt (k r') = false)

/-- The groups in reverse. -/
def reversed : Data := { lastOfGroup with sortBy := none, order := some .reverse, limit := 0 }

/-- `reverse` does not look at the keys. -/
theorem reversed_not_groupsByKey : ∃ result,
    reversed.process texts (Sorting.plain _)
      [instance_ "a" "x", instance_ "c" "y", instance_ "b" "z"] = .ok result ∧
      ¬ GroupsByKey (memberKey "Group") result := by
  refine ⟨[instance_ "b" "z", instance_ "c" "y", instance_ "a" "x"], rfl, ?_⟩
  rintro (h | h)
  · have hlt := (List.pairwise_cons.mp h).1 (instance_ "a" "x") (by simp)
    revert hlt
    decide
  · have hlt := (List.pairwise_cons.mp h).1 (instance_ "c" "y") (by simp)
    revert hlt
    decide

end Custodian.Reduce

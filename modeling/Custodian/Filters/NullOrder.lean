import Custodian.Filters.Reduce

/-!
# Missing values in a sorted group

`null-order` of `ReduceFilter` says where the resources without a value go.  The filter sorts them by
a value that stands for a missing one, the least or the greatest of its type; a resource can have
that value, or in the case of texts a greater one, and not every value can be converted.
-/

namespace Custodian.NullOrder

open Py
open Py.StableSort
open ParseDate Reduce

variable {d : Data} {env : Env} {σ : Sorting Key.lt} {resources : List Json}

/-! ## Order of values -/

/-- The configuration of `sort-by` -/
def sortConfig (d : Data) : SortConfig := d.sortBy.getD noConfig

/-- The configuration of `group-by` -/
def groupConfig (d : Data) : SortConfig := d.groupBy.getD noConfig

/-- A key is sorted before another one. -/
def before (d : Data) : Key → Key → Bool := byKey Key.lt (d.orderOrAsc = .desc) id

/-- What may stand in front of what: missing values are at the end that `null-order` says, and
values are sorted. -/
def MayPrecede (d : Data) : Option Key → Option Key → Prop
  | none, none => True
  | none, some _ => d.nullFirst = true
  | some _, none => d.nullFirst = false
  | some a, some b => before d b a = false

/-- A value and the key of a missing one, for resources in the order of the input: the value is on
its side of the key, or equal to it and in front of the missing one or behind it. -/
def Apart (d : Data) (missing : Key) : Option Key → Option Key → Prop
  | none, some b => before d b missing = !d.nullFirst
  | some a, none => before d missing a = d.nullFirst
  | _, _ => True

theorem byKey_eq_before {α : Type} {key : α → Key} {x y : α} :
    byKey Key.lt (d.orderOrAsc = .desc) key x y = before d (key x) (key y) := rfl

theorem before_asymm {a b : Key} (h : before d a b = true) : before d b a = false :=
  byKey_asymm (fun _ _ => Key.lt_asymm) h

theorem apart_iff (missing : Key) (v v' : Option Key) :
    (if before d (v'.getD missing) (v.getD missing) = true then MayPrecede d v' v
      else MayPrecede d v v') ↔ Apart d missing v v' := by
  cases v with
  | none =>
    cases v' with
    | none => simp [MayPrecede, Apart]
    | some b =>
      simp only [Option.getD_none, Option.getD_some, MayPrecede, Apart]
      by_cases hlt : before d b missing = true <;> cases d.nullFirst <;> simp [hlt]
  | some a =>
    cases v' with
    | none =>
      simp only [Option.getD_none, Option.getD_some, MayPrecede, Apart]
      by_cases hlt : before d missing a = true <;> cases d.nullFirst <;> simp [hlt]
    | some b =>
      simp only [Option.getD_some, MayPrecede, Apart, iff_true]
      split
      case isTrue h => exact before_asymm h
      case isFalse h => simpa using h

theorem before_of_mayPrecede {c : SortConfig} (hc : c.valueType = .number) {v v' : Option Key}
    (hv : ∀ k ∈ v, k.kind = .number) (hv' : ∀ k ∈ v', k.kind = .number) (h : MayPrecede d v v') :
    before d (v'.getD (d.nullSortValue c)) (v.getD (d.nullSortValue c)) = false := by
  have hext : ∀ k : Key, k.kind = .number →
      (d.nullFirst = true → before d k (d.nullSortValue c) = false) ∧
        (d.nullFirst = false → before d (d.nullSortValue c) k = false) := by
    intro k hk
    cases k <;> cases hk
    rename_i x
    rw [before, Data.nullSortValue, hc]
    by_cases hdesc : d.orderOrAsc = .desc <;> cases d.nullFirst <;>
      simp [hdesc, byKey, smallest, greatest, Key.lt, Number.lt_posInf, Number.lt_negInf]
  cases v with
  | none =>
    cases v' with
    | none =>
      cases hk : before d (d.nullSortValue c) (d.nullSortValue c) with
      | false => exact hk
      | true => exact before_asymm hk
    | some b => exact (hext b (hv' b rfl)).1 h
  | some a =>
    cases v' with
    | none => exact (hext a (hv a rfl)).2 h
    | some b => exact h

/-! ## Groups that are sorted -/

section Sorted

variable {α : Type} {c : SortConfig} {items : List α} {v : α → Option Key} {key : α → Key}

theorem kind_of_key (hkind : ∀ x ∈ items, ∀ k ∈ v x, k.kind = c.valueType)
    (hkey : ∀ x ∈ items, key x = (v x).getD (d.nullSortValue c)) :
    ∀ x ∈ items, (key x).kind = c.valueType := by
  intro x hx
  rw [hkey x hx]
  cases hv : v x with
  | none => exact kind_nullSortValue d c
  | some k => exact hkind x hx k hv

theorem pairwise_sorted_iff (hkey : ∀ x ∈ items, key x = (v x).getD (d.nullSortValue c))
    (h : Ordered (fun x y => (key x).lt (key y)) items) (σ : Sorting Key.lt) :
    (σ.sorted key (d.orderOrAsc = .desc) items).Pairwise (fun x y => MayPrecede d (v x) (v y)) ↔
      items.Pairwise fun x y => Apart d (d.nullSortValue c) (v x) (v y) := by
  have h' : Ordered (byKey Key.lt (d.orderOrAsc = .desc) key) items := ordered_byKey_iff.mpr h
  rw [σ.eq_sort _ _ _ h', pairwise_sort_iff h']
  refine List.Pairwise.iff_of_mem fun {x y} hx hy => ?_
  rw [← apart_iff, ← hkey x hx, ← hkey y hy]
  rfl

theorem pairwise_mayPrecede_iff (hkind : ∀ x ∈ items, ∀ k ∈ v x, k.kind = c.valueType)
    (hkey : ∀ x ∈ items, key x = (v x).getD (d.nullSortValue c)) :
    (∀ σ : Sorting Key.lt, (σ.sorted key (d.orderOrAsc = .desc) items).Pairwise
      fun x y => MayPrecede d (v x) (v y)) ↔
      Ordered (fun x y => (key x).lt (key y)) items ∧
        items.Pairwise fun x y => Apart d (d.nullSortValue c) (v x) (v y) := by
  constructor
  · intro h
    have hordered : Ordered (fun x y => (key x).lt (key y)) items := by
      by_contra hnot
      -- keys that are not ordered are numbers, for which the key of a missing value is extreme
      have hnumber : c.valueType = .number := by
        by_contra hc
        refine hnot ((ordered_iff (kind_of_key hkind hkey)).mpr fun a _ b _ _ x hx hnan => hc ?_)
        rw [← kind_of_key hkind hkey x hx, hnan]
        rfl
      let σ := Sorting.adverse Key.lt fun _ _ => Key.lt_asymm
      have hmem : ∀ x, x ∈ σ.sorted key (d.orderOrAsc = .desc) items → x ∈ items :=
        fun x => (σ.perm key _ items).mem_iff.mp
      refine Sorting.adverse_not_sorted (mt ordered_byKey_iff.mp hnot) ((h σ).imp_of_mem ?_)
      intro x y hx hy hmay
      rw [byKey_eq_before, hkey x (hmem x hx), hkey y (hmem y hy)]
      refine before_of_mayPrecede hnumber (fun k hk => ?_) (fun k hk => ?_) hmay
      · rw [hkind x (hmem x hx) k hk, hnumber]
      · rw [hkind y (hmem y hy) k hk, hnumber]
    exact ⟨hordered, (pairwise_sorted_iff hkey hordered (Sorting.plain _)).mp (h _)⟩
  · rintro ⟨hordered, hapart⟩ σ
    exact (pairwise_sorted_iff hkey hordered σ).mpr hapart

end Sorted

/-! ## The filter -/

/-- The name of the group that a resource is put into. -/
def groupName (d : Data) (env : Env) (r : Json) : Except Exn Text :=
  (d.valueToSort env (groupConfig d) r).map env.strKey

/-- The filter returns, and every group is in order when the windows are taken. -/
structure Honoured (d : Data) (env : Env) (σ : Sorting Key.lt) (resources : List Json) : Prop where
  returns : ∃ result, d.process env σ resources = .ok result
  inOrder : ∀ sorted, d.sortedGroups env σ resources = .ok sorted → ∀ x ∈ sorted,
    x.resources.Pairwise fun r r' => ∀ v v', env.sortValue (sortConfig d) r = .ok v →
      env.sortValue (sortConfig d) r' = .ok v' → MayPrecede d v v'

/-- What the values of the resources are like: none raises, and when groups are sorted, there is no
`nan` in a group with two keys that differ, and values are apart from missing ones. -/
structure Sortable (d : Data) (env : Env) (resources : List Json) : Prop where
  group : ∀ r ∈ resources, ∃ v, env.sortValue (groupConfig d) r = .ok v
  values : d.memberOrder ≠ none → ∀ r ∈ resources, ∃ v, env.sortValue (sortConfig d) r = .ok v
  numbers : d.memberOrder ≠ none → ∀ r₁ ∈ resources, ∀ r₂ ∈ resources, ∀ r₃ ∈ resources,
    groupName d env r₂ = groupName d env r₁ → groupName d env r₃ = groupName d env r₁ →
    ∀ k₁ k₂ k₃, d.valueToSort env (sortConfig d) r₁ = .ok k₁ →
      d.valueToSort env (sortConfig d) r₂ = .ok k₂ → d.valueToSort env (sortConfig d) r₃ = .ok k₃ →
      k₁.lt k₂ = true → k₃ ≠ .number .nan
  apart : d.memberOrder ≠ none → resources.Pairwise fun r r' =>
    groupName d env r = groupName d env r' → ∀ v v', env.sortValue (sortConfig d) r = .ok v →
      env.sortValue (sortConfig d) r' = .ok v' → Apart d (d.nullSortValue (sortConfig d)) v v'

/-! ## Values that are found -/

theorem valueToSort_eq {c : SortConfig} {r : Json} {v : Option Key}
    (h : env.sortValue c r = .ok v) : d.valueToSort env c r = .ok (v.getD (d.nullSortValue c)) := by
  rw [Data.valueToSort, h]
  rfl

theorem exists_sortValue {c : SortConfig} {r : Json} {k : Key}
    (h : d.valueToSort env c r = .ok k) : ∃ v, env.sortValue c r = .ok v := by
  rw [Data.valueToSort, bind_eq_ok] at h
  obtain ⟨v, hv, -⟩ := h
  exact ⟨v, hv⟩

theorem exists_values {c : SortConfig} (h : ∀ r ∈ resources, ∃ v, env.sortValue c r = .ok v) :
    ∃ v : Json → Option Key, ∀ r ∈ resources, env.sortValue c r = .ok (v r) := by
  refine ⟨fun r => (env.sortValue c r).toOption.getD none, fun r hr => ?_⟩
  obtain ⟨v, hv⟩ := h r hr
  simp only [hv]
  rfl

theorem sortValue_of_group {groups : List Group} (h : d.group env resources = .ok groups) :
    ∀ r ∈ resources, ∃ v, env.sortValue (groupConfig d) r = .ok v := by
  rw [Data.group] at h
  generalize [] = start at h
  induction resources generalizing start with
  | nil => simp
  | cons r resources ih =>
    rw [List.foldlM_cons, bind_eq_ok] at h
    obtain ⟨next, hnext, h⟩ := h
    rw [bind_eq_ok] at hnext
    obtain ⟨k, hk, -⟩ := hnext
    exact List.forall_mem_cons.mpr ⟨exists_sortValue hk, ih _ h⟩

theorem key_of_reorder {α : Type} (hd : d.orderOrAsc.compares = true) {items items' : List α}
    {key : α → Except Exn Key} (h : d.reorder env σ items key = .ok items') :
    ∀ x ∈ items, ∃ k, key x = .ok k := by
  have hkeyed : ∃ keyed, (items.mapM fun x => do return (← key x, x)) = .ok keyed := by
    rw [Data.reorder] at h
    cases horder : d.orderOrAsc with
    | asc => rw [horder] at h; exact (bind_eq_ok.mp h).imp fun keyed hk => hk.1
    | desc => rw [horder] at h; exact (bind_eq_ok.mp h).imp fun keyed hk => hk.1
    | reverse => rw [horder] at hd; cases hd
    | randomize => rw [horder] at hd; cases hd
  obtain ⟨keyed, hkeyed⟩ := hkeyed
  intro x hx
  obtain ⟨p, -, hp⟩ := exists_of_forall₂ ((mapM_eq_ok _ _ _).mp hkeyed) hx
  obtain ⟨k, hk, -⟩ := bind_eq_ok.mp hp
  exact ⟨k, hk⟩

/-! ## Sorted groups -/

/-- The resources of a group in order. -/
def sortedBy (d : Data) (σ : Sorting Key.lt) (s : Json → Key) (items : List Json) : List Json :=
  (σ.sorted Prod.fst (d.orderOrAsc = .desc) (items.map fun r => (s r, r))).map Prod.snd

variable {g s : Json → Key}

theorem sortedGroups_of_none (hg : ∀ r ∈ resources, d.valueToSort env (groupConfig d) r = .ok (g r))
    (hnone : d.memberOrder = none) :
    d.sortedGroups env σ resources = .ok (grouped env g resources) := by
  have hnot : ¬ (d.sortBy.isSome ∨ d.order.isSome) := by
    intro h
    rw [Data.memberOrder, if_pos h] at hnone
    cases hnone
  rw [Data.sortedGroups, group_eq env g hg, ok_bind, if_neg hnot]
  rfl

theorem sorts_of_memberOrder (h : d.memberOrder ≠ none) : d.sortBy.isSome ∨ d.order.isSome := by
  by_contra hnot
  exact h (if_neg hnot)

theorem sortedGroups_eq (hd : d.orderOrAsc.compares = true)
    (hg : ∀ r ∈ resources, d.valueToSort env (groupConfig d) r = .ok (g r))
    (hmember : d.memberOrder ≠ none)
    (hs : ∀ r ∈ resources, d.valueToSort env (sortConfig d) r = .ok (s r)) :
    d.sortedGroups env σ resources = .ok ((grouped env g resources).map fun x =>
      { x with resources := sortedBy d σ s x.resources }) := by
  rw [Data.sortedGroups, group_eq env g hg, ok_bind, if_pos (sorts_of_memberOrder hmember)]
  refine mapM_ok fun x hx => ?_
  have hmem := (of_mem_grouped env g hx).2
  have hreorder : d.reorder env σ x.resources (d.valueToSort env (d.sortBy.getD noConfig)) =
      .ok (sortedBy d σ s x.resources) := reorder_of_compares hd fun r hr => hs r (hmem r hr)
  rw [Data.sortGroup, hreorder]
  rfl

theorem sortValue_of_sortedGroups (hd : d.orderOrAsc.compares = true)
    (hg : ∀ r ∈ resources, d.valueToSort env (groupConfig d) r = .ok (g r))
    (hmember : d.memberOrder ≠ none) {sorted : List Group}
    (h : d.sortedGroups env σ resources = .ok sorted) :
    ∀ r ∈ resources, ∃ v, env.sortValue (sortConfig d) r = .ok v := by
  rw [Data.sortedGroups, group_eq env g hg, ok_bind, if_pos (sorts_of_memberOrder hmember),
    mapM_eq_ok] at h
  intro r hr
  obtain ⟨x, hx, hrx⟩ := List.mem_flatMap.mp ((flatMap_grouped env g resources).mem_iff.mpr hr)
  obtain ⟨y, -, hy⟩ := exists_of_forall₂ h hx
  rw [Data.sortGroup, bind_eq_ok] at hy
  obtain ⟨items, hitems, -⟩ := hy
  obtain ⟨k, hk⟩ := key_of_reorder hd hitems r hrx
  exact exists_sortValue hk

theorem exists_process_iff (hd : d.orderOrAsc.compares = true) :
    (∃ result, d.process env σ resources = .ok result) ↔
      ∃ sorted, d.sortedGroups env σ resources = .ok sorted := by
  constructor
  · rintro ⟨result, h⟩
    rw [Data.process, bind_eq_ok] at h
    exact h.imp fun sorted hs => hs.1
  · rintro ⟨sorted, h⟩
    have horder : ∃ ordered, d.orderGroups env σ sorted = .ok ordered := by
      rw [Data.orderGroups]
      split
      · exact ⟨_, reorder_of_compares hd fun x _ => rfl⟩
      · exact ⟨sorted, rfl⟩
    obtain ⟨ordered, hordered⟩ := horder
    rw [Data.process, h, ok_bind, Data.limitGroups, hordered]
    exact ⟨_, rfl⟩

theorem sortValue_of_none {r : Json} (h : d.memberOrder = none) :
    env.sortValue (sortConfig d) r = .ok none := by
  have hnone : d.sortBy = none := by
    cases hs : d.sortBy with
    | none => rfl
    | some c => simp [Data.memberOrder, hs] at h
  rw [sortConfig, hnone]
  rfl

theorem forall_grouped {P : List Json → Prop} : (∀ x ∈ grouped env g resources, P x.resources) ↔
    ∀ r ∈ resources, P (resources.filter fun r' => env.strKey (g r') = env.strKey (g r)) := by
  rw [grouped]
  simp only [List.forall_mem_map, mem_firsts]
  rfl

theorem pairwise_sortedBy_iff {v : Json → Option Key} {items : List Json}
    (hv : ∀ r ∈ items, env.sortValue (sortConfig d) r = .ok (v r)) :
    (∀ σ : Sorting Key.lt, (sortedBy d σ (fun r => (v r).getD (d.nullSortValue (sortConfig d)))
      items).Pairwise fun r r' => MayPrecede d (v r) (v r')) ↔
      (∀ a ∈ items, ∀ b ∈ items, ((v a).getD (d.nullSortValue (sortConfig d))).lt
        ((v b).getD (d.nullSortValue (sortConfig d))) = true →
        ∀ c ∈ items, (v c).getD (d.nullSortValue (sortConfig d)) ≠ .number .nan) ∧
        items.Pairwise fun r r' => Apart d (d.nullSortValue (sortConfig d)) (v r) (v r') := by
  have hkind : ∀ r ∈ items, ∀ k ∈ v r, k.kind = (sortConfig d).valueType := by
    intro r hr k hk
    have hvalue := hv r hr
    rw [Option.mem_def.mp hk] at hvalue
    exact kind_of_sortValue hvalue
  have hpairs := @pairwise_mayPrecede_iff d (Key × Json) (sortConfig d)
    (items.map fun r => ((v r).getD (d.nullSortValue (sortConfig d)), r)) (fun p => v p.2) Prod.fst
    (List.forall_mem_map.mpr hkind) (List.forall_mem_map.mpr fun r _ => rfl)
  simp only [sortedBy, List.pairwise_map]
  rw [hpairs, ordered_pairs, List.pairwise_map,
    ordered_iff (kind_of_key (d := d) (c := sortConfig d) (v := v) hkind fun r _ => rfl)]

theorem forall_pairwise_filter {name : Json → Text} {R : Json → Json → Prop} :
    (∀ r ∈ resources, (resources.filter fun r' => name r' = name r).Pairwise R) ↔
      resources.Pairwise fun r r' => name r = name r' → R r r' := by
  simp only [List.pairwise_filter, decide_eq_true_eq]
  constructor
  · intro h
    refine List.pairwise_iff_forall_sublist.mpr fun {a b} hab hname => ?_
    exact List.pairwise_iff_forall_sublist.mp (h a (hab.subset (by simp))) hab rfl hname.symm
  · exact fun h r _ => h.imp fun hR ha hb => hR (ha.trans hb.symm)

section Values

variable {v : Json → Option Key}

/-- The key of a resource by its value. -/
def keyBy (d : Data) (c : SortConfig) (v : Json → Option Key) (r : Json) : Key :=
  (v r).getD (d.nullSortValue c)

theorem honoured_iff_of_values (hd : d.orderOrAsc.compares = true) (hmember : d.memberOrder ≠ none)
    (hg : ∀ r ∈ resources, d.valueToSort env (groupConfig d) r = .ok (g r))
    (hv : ∀ r ∈ resources, env.sortValue (sortConfig d) r = .ok (v r)) :
    Honoured d env σ resources ↔ ∀ x ∈ grouped env g resources,
      (sortedBy d σ (keyBy d (sortConfig d) v) x.resources).Pairwise
        fun r r' => MayPrecede d (v r) (v r') := by
  have hs : ∀ r ∈ resources, d.valueToSort env (sortConfig d) r =
      .ok (keyBy d (sortConfig d) v r) := fun r hr => valueToSort_eq (hv r hr)
  have hsorted := sortedGroups_eq (σ := σ) hd hg hmember hs
  have hmem : ∀ x ∈ grouped env g resources, ∀ r ∈ sortedBy d σ (keyBy d (sortConfig d) v)
      x.resources, r ∈ resources := by
    intro x hx r hr
    obtain ⟨p, hp, rfl⟩ := List.mem_map.mp hr
    obtain ⟨r', hr', rfl⟩ := List.mem_map.mp ((σ.perm _ _ _).mem_iff.mp hp)
    exact (of_mem_grouped env g hx).2 r' hr'
  constructor
  · intro h x hx
    refine (h.inOrder _ hsorted _ (List.mem_map_of_mem hx)).imp_of_mem fun hr hr' hmay => ?_
    exact hmay _ _ (hv _ (hmem x hx _ hr)) (hv _ (hmem x hx _ hr'))
  · intro h
    refine ⟨(exists_process_iff hd).mpr ⟨_, hsorted⟩, fun sorted hsorted' y hy => ?_⟩
    rw [hsorted] at hsorted'
    cases hsorted'
    obtain ⟨x, hx, rfl⟩ := List.mem_map.mp hy
    refine (h x hx).imp_of_mem fun hr hr' hmay w w' hw hw' => ?_
    rw [hv _ (hmem x hx _ hr)] at hw
    rw [hv _ (hmem x hx _ hr')] at hw'
    cases hw
    cases hw'
    exact hmay

theorem groupName_eq {r : Json} {k : Key} (h : d.valueToSort env (groupConfig d) r = .ok k) :
    groupName d env r = .ok (env.strKey k) := by
  rw [groupName, h]
  rfl

theorem sortable_iff_of_values (hmember : d.memberOrder ≠ none)
    (hg : ∀ r ∈ resources, d.valueToSort env (groupConfig d) r = .ok (g r))
    (hv : ∀ r ∈ resources, env.sortValue (sortConfig d) r = .ok (v r)) :
    Sortable d env resources ↔
      (∀ a ∈ resources, ∀ b ∈ resources, ∀ c ∈ resources,
        env.strKey (g b) = env.strKey (g a) → env.strKey (g c) = env.strKey (g a) →
        (keyBy d (sortConfig d) v a).lt (keyBy d (sortConfig d) v b) = true →
        keyBy d (sortConfig d) v c ≠ .number .nan) ∧
      resources.Pairwise fun r r' => env.strKey (g r) = env.strKey (g r') →
        Apart d (d.nullSortValue (sortConfig d)) (v r) (v r') := by
  have hname : ∀ r ∈ resources, groupName d env r = .ok (env.strKey (g r)) :=
    fun r hr => groupName_eq (hg r hr)
  have hs : ∀ r ∈ resources, d.valueToSort env (sortConfig d) r =
      .ok (keyBy d (sortConfig d) v r) := fun r hr => valueToSort_eq (hv r hr)
  constructor
  · intro h
    refine ⟨fun a ha b hb c hc hba hca => ?_, (h.apart hmember).imp_of_mem fun hr hr' hapart => ?_⟩
    · refine h.numbers hmember a ha b hb c hc ?_ ?_ _ _ _ (hs a ha) (hs b hb) (hs c hc)
      · rw [hname b hb, hname a ha, hba]
      · rw [hname c hc, hname a ha, hca]
    · intro heq
      exact hapart (by rw [hname _ hr, hname _ hr', heq]) _ _ (hv _ hr) (hv _ hr')
  · rintro ⟨hnumbers, hapart⟩
    refine ⟨fun r hr => exists_sortValue (hg r hr), fun _ r hr => ⟨_, hv r hr⟩, ?_, ?_⟩
    · intro _ a ha b hb c hc hba hca k₁ k₂ k₃ h₁ h₂ h₃
      rw [hs a ha] at h₁
      rw [hs b hb] at h₂
      rw [hs c hc] at h₃
      rw [hname b hb, hname a ha, Except.ok.injEq] at hba
      rw [hname c hc, hname a ha, Except.ok.injEq] at hca
      cases h₁
      cases h₂
      cases h₃
      exact hnumbers a ha b hb c hc hba hca
    · refine fun _ => hapart.imp_of_mem fun hr hr' hapart heq w w' hw hw' => ?_
      rw [hname _ hr, hname _ hr', Except.ok.injEq] at heq
      rw [hv _ hr] at hw
      rw [hv _ hr'] at hw'
      cases hw
      cases hw'
      exact hapart heq

end Values

/-- Sorted by a number. -/
def bySize : Data where
  groupBy := none
  sortBy := some ⟨some "Size".toList, .number, none⟩
  order := none
  nullFirst := false
  limit := 0
  limitPercent := 0
  discard := 0
  discardPercent := 0

def sized (size : Json) : Json := .obj [("Size".toList, size)]

end Custodian.NullOrder

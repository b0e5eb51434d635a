import Custodian.Policy.QueryParser

/-!
# Merged queries

What the result of `QueryParser.parse` should be, and when it is.
-/

namespace Custodian.QueryParser

open Py

variable {A : Type}

/-! ## What a query says -/

/-- What values belong to: a key of the query or the name of a filter. -/
inductive Heading where
  | key (k : Text)
  | filter (name : Text)
  deriving DecidableEq

/-- The key of the query that a heading stands under. -/
def Heading.root : Heading → Text
  | key k => k
  | filter _ => "Filters".toList

def Value.items : Value A → List (Text × Value A)
  | .dict items => items
  | _ => []

/-- The name and the values of a filter. -/
def named (f : Value A) : Option (Text × Ref (Value A)) :=
  match f.items.lookup "Name".toList, f.items.lookup "Values".toList with
  | some (.scalar (.text key)), some values => some (key, values.asList)
  | _, _ => none

def underFilter (f : Text × Ref (Value A)) : Heading × Ref (Value A) := (.filter f.1, f.2)

namespace Parser

variable (p : Parser A)

/-- The item has filters. -/
def HasFilters (own : Store (Value A)) (e : Text × Value A) : Prop :=
  e.1 = "Filters".toList ∧ p.isTrue own e.2

instance (own : Store (Value A)) (e : Text × Value A) : Decidable (p.HasFilters own e) :=
  inferInstanceAs (Decidable (_ ∧ _))

/-- What an item of a query says: each value read as a list. -/
def itemOccurrences (own : Store (Value A)) (e : Text × Value A) :
    List (Heading × Ref (Value A)) :=
  if p.HasFilters own e then ((e.2.asList.read own).filterMap named).map underFilter
  else [(.key e.1, e.2.asList)]

/-- What a query says, in order. -/
def occurrences (own : Store (Value A)) (data : List (Value A)) :
    List (Heading × Ref (Value A)) :=
  match p.formOf own data with
  | .ok (.implicit _) => (data.flatMap Value.items).map fun e => (.filter e.1, e.2.asList)
  | .ok (.filters filters) => (filters.filterMap named).map underFilter
  | .ok (.items items) => (items.flatMap Value.items).flatMap (p.itemOccurrences own)
  | .error _ => []

/-- The value is a scalar of the type that the schema has for the heading. -/
def Typed (h : Heading) (v : Value A) : Prop :=
  v.isScalar ∧ ∃ vtype, p.hasType vtype v ∧
    match h with
    | .key k => p.keyType k = .ok vtype
    | .filter name => p.filterType name = .ok vtype

end Parser

/-- The lists of values of an entry of the result. -/
def slotLists (own : Store (Value A)) (k : Text) : Slot A → List (Heading × List (Value A))
  | .scalar v => [(.key k, [v])]
  | .list values => [(.key k, values.read own)]
  | .filters entries appended =>
    (entries.map fun f => (.filter f.1, f.2.read own)) ++ appended.map fun v => (.key k, [v])

/-- The lists of values of a result. -/
def resultLists (out : Parsed A) : List (Heading × List (Value A)) :=
  out.1.flatMap fun e => slotLists out.2 e.1 e.2

namespace Parser

variable (p : Parser A)

/-- There is one list for each heading, with the values of the heading in order. -/
structure Covers (own : Store (Value A)) (occurrences : List (Heading × Ref (Value A)))
    (lists : List (Heading × List (Value A))) : Prop where
  once : (lists.map Prod.fst).Nodup
  complete : ∀ h, h ∈ lists.map Prod.fst ↔ h ∈ occurrences.map Prod.fst
  merged : ∀ e ∈ lists, e.2 = collected own e.1 occurrences

/-- The policy is as it was, and the result has the values of each key and filter name in order. -/
structure Good (own : Store (Value A)) (query : Value A) (out : Parsed A) : Prop where
  unchanged : out.2 = own
  again : p.parse out.2 query = .ok out
  distinct : (out.1.map Prod.fst).Nodup
  covers : Covers own (p.occurrences own (query.asList.read own)) (resultLists out)
  typed : ∀ e ∈ resultLists out, ∀ v ∈ e.2, p.Typed e.1 v

/-- Whenever the query is accepted, its parse is pure and merges repeated keys. -/
def Meets (own : Store (Value A)) (query : Value A) : Prop :=
  ∀ out, p.parse own query = .ok out → p.Good own query out

/-! ## When nothing is added to the policy -/

/-- A key is repeated with scalars only, and the filters of an item are merged quietly. -/
def QuietItems (own : Store (Value A)) (items : List (Text × Value A)) : Prop :=
  items.Pairwise (fun a b => a.1 = b.1 → a.2.isScalar ∧ b.2.isScalar) ∧
    ∀ l, ("Filters".toList, Value.list l) ∈ items → Quiet own ((own l).filterMap named)

/-- The keys of items after the first. -/
def furtherKeys (data : List (Value A)) : List (Text × Value A) :=
  data.flatMap fun d => d.items.tail

/-- The condition on a query: filters are merged quietly, keys are repeated with scalars only, and
what an item says under further keys than the first adds nothing to a query of filters alone. -/
def QuietQuery (own : Store (Value A)) (data : List (Value A)) : Prop :=
  match p.formOf own data with
  | .ok (.implicit filters) => Quiet own filters ∧
    ∀ e ∈ furtherKeys data, e.2.asList.read own = [] ∧ e.1 ∈ filters.map Prod.fst
  | .ok (.filters filters) => Quiet own (filters.filterMap named)
  | .ok (.items items) => QuietItems own (items.flatMap Value.items)
  | .error _ => True

/-! ## Type checks -/

theorem isScalar_of_hasType {vtype : VType A} {v : Value A} (h : p.hasType vtype v) :
    v.isScalar := by
  cases v with
  | scalar s => rfl
  | list l => cases vtype <;> cases h
  | dict items => cases vtype <;> cases h

theorem typeCheckAll_eq_ok {vtype : VType A} {values : List (Value A)} :
    p.typeCheckAll vtype values = .ok () ↔ ∀ v ∈ values, p.hasType vtype v := by
  induction values with
  | nil => simp [typeCheckAll, pure, Except.pure]
  | cons v values ih =>
    rw [typeCheckAll, List.forM, bind_eq_ok, List.forall_mem_cons]
    constructor
    · rintro ⟨_, hv, hvs⟩
      refine ⟨?_, ih.mp hvs⟩
      by_contra hn
      simp [typeCheck, hn] at hv
    · rintro ⟨hv, hvs⟩
      exact ⟨(), by simp [typeCheck, hv], ih.mpr hvs⟩

/-- The values of an occurrence have the type of its heading. -/
def TypedAll (own : Store (Value A)) (o : Heading × Ref (Value A)) : Prop :=
  ∀ v ∈ o.2.read own, p.Typed o.1 v

theorem typedAll_of_hasType {own : Store (Value A)} {h : Heading} {r : Ref (Value A)}
    {vtype : VType A}
    (ht : match h with
      | .key k => p.keyType k = .ok vtype
      | .filter name => p.filterType name = .ok vtype)
    (hv : ∀ v ∈ r.read own, p.hasType vtype v) : p.TypedAll own (h, r) :=
  fun v hm => ⟨p.isScalar_of_hasType (hv v hm), vtype, hv v hm, ht⟩

theorem TypedAll.of_grows {own own' : Store (Value A)} {o : Heading × Ref (Value A)}
    (hg : Grows own own') (h : p.TypedAll own' o) : p.TypedAll own o :=
  fun v hv => h v ((hg.read o.2).subset hv)

/-! ## Filters -/

theorem addFilter_eq_ok {st st' : Filters A} {f : Text × Ref (Value A)}
    (h : p.addFilter st f = .ok st') : p.TypedAll st.2 (underFilter f) ∧ mergeStep st f = st' := by
  obtain ⟨vtype, ht, h⟩ := bind_eq_ok.mp h
  obtain ⟨_, hv, h⟩ := bind_eq_ok.mp h
  exact ⟨p.typedAll_of_hasType (h := .filter f.1) ht (p.typeCheckAll_eq_ok.mp hv),
    pure_eq_ok.mp h⟩

theorem foldlM_addFilter {own : Store (Value A)} {ops : List (Text × Ref (Value A))}
    {st : Filters A} (h : ops.foldlM p.addFilter ([], own) = .ok st) :
    st = mergeAll own ops ∧ ∀ o ∈ ops, p.TypedAll own (underFilter o) := by
  induction ops using List.reverseRecOn generalizing st with
  | nil => exact ⟨(pure_eq_ok.mp h).symm, by simp⟩
  | append_singleton ops o ih =>
    rw [List.foldlM_append, bind_eq_ok] at h
    obtain ⟨st', h', h⟩ := h
    obtain ⟨rfl, htyped⟩ := ih h'
    rw [List.foldlM_cons, bind_eq_ok] at h
    obtain ⟨st'', h, hnil⟩ := h
    obtain ⟨ho, rfl⟩ := p.addFilter_eq_ok h
    refine ⟨by rw [mergeAll_concat, ← pure_eq_ok.mp hnil], fun o' ho' => ?_⟩
    rcases List.mem_append.mp ho' with ho' | ho'
    · exact htyped o' ho'
    · obtain rfl := List.mem_singleton.mp ho'
      exact ho.of_grows p (grows_mergeAll own ops)

theorem named_of_filterOf {f : Value A} {o : Text × Ref (Value A)} (h : p.filterOf f = .ok o) :
    named f = some o := by
  cases f with
  | scalar s => cases h
  | list l => cases h
  | dict items =>
    rw [filterOf] at h
    rw [named, Value.items]
    split at h
    · rename_i hn hv
      rw [hn, hv]
      split at h
      · exact congrArg some (Except.ok.inj h)
      · cases h
    · split at h <;> cases h
    all_goals cases h

theorem parseFilterList_spec {own : Store (Value A)} {data : List (Value A)} {st : Filters A}
    (h : p.parseFilterList own data = .ok st) :
    st = mergeAll own (data.filterMap named) ∧
      ∀ o ∈ data.filterMap named, p.TypedAll own (underFilter o) := by
  refine p.foldlM_addFilter ?_
  suffices ∀ init : Filters A, data.foldlM (fun st f => do p.addFilter st (← p.filterOf f)) init =
      .ok st → (data.filterMap named).foldlM p.addFilter init = .ok st from this _ h
  clear h
  induction data with
  | nil => exact fun init h => h
  | cons f data ih =>
    intro init h
    rw [List.foldlM_cons, bind_eq_ok] at h
    obtain ⟨st', h, hrest⟩ := h
    obtain ⟨o, ho, h⟩ := bind_eq_ok.mp h
    rw [List.filterMap_cons_some (p.named_of_filterOf ho), List.foldlM_cons, h]
    exact ih st' hrest

omit p in
theorem underFilter_collected (own : Store (Value A)) (n : Text) (ops : List (Text × Ref (Value A))) :
    collected own (.filter n) (ops.map underFilter) = collected own n ops :=
  collected_map (fun _ _ => Heading.filter.inj) own n ops

omit p in
theorem covers_of_merged {own : Store (Value A)} {ops entries : List (Text × Ref (Value A))}
    (h : Merged own ops entries) :
    Covers own (ops.map underFilter) (entries.map fun f => (.filter f.1, f.2.read own)) := by
  have hinj : Function.Injective Heading.filter := fun _ _ => Heading.filter.inj
  refine ⟨?_, fun g => ?_, fun e he => ?_⟩
  · rw [List.map_map]
    exact (List.map_map (f := Prod.fst) ▸ h.nodup.map hinj :)
  · have hkeys := h.keys
    simp only [List.mem_map, underFilter] at hkeys ⊢
    constructor
    · rintro ⟨-, ⟨f, hf, rfl⟩, rfl⟩
      obtain ⟨o, ho, hk⟩ := (hkeys f.1).mp ⟨f, hf, rfl⟩
      exact ⟨_, ⟨o, ho, rfl⟩, congrArg Heading.filter hk⟩
    · rintro ⟨-, ⟨o, ho, rfl⟩, rfl⟩
      obtain ⟨f, hf, hk⟩ := (hkeys o.1).mpr ⟨o, ho, rfl⟩
      exact ⟨_, ⟨f, hf, rfl⟩, congrArg Heading.filter hk⟩
  · obtain ⟨f, hf, rfl⟩ := List.mem_map.mp he
    exact (h.gathered f hf).trans (underFilter_collected own f.1 ops).symm

theorem Covers.typed {own : Store (Value A)} {occ : List (Heading × Ref (Value A))}
    {lists : List (Heading × List (Value A))} (h : Covers own occ lists)
    (htyped : ∀ o ∈ occ, p.TypedAll own o) : ∀ e ∈ lists, ∀ v ∈ e.2, p.Typed e.1 v := by
  intro e he v hv
  rw [h.merged e he, mem_collected] at hv
  obtain ⟨o, ho, hk, hv⟩ := hv
  exact hk ▸ htyped o ho v hv

/-! ## Groups of items -/

/-- The items with a key. -/
def group (k : Text) (items : List (Text × Value A)) : List (Text × Value A) :=
  items.filter fun e => e.1 = k

omit p in
theorem group_concat (k : Text) (items : List (Text × Value A)) (e : Text × Value A) :
    group k (items ++ [e]) = if e.1 = k then group k items ++ [e] else group k items := by
  rw [group, List.filter_append, List.filter_singleton]
  by_cases hk : e.1 = k <;> simp [hk, group]

omit p in
theorem group_of_notMem {k : Text} {items : List (Text × Value A)}
    (h : k ∉ items.map Prod.fst) : group k items = [] := by
  rw [group, List.filter_eq_nil_iff]
  rintro e he hk
  exact h (List.mem_map.mpr ⟨e, he, of_decide_eq_true hk⟩)

theorem root_of_mem_itemOccurrences {own : Store (Value A)} {e : Text × Value A}
    {o : Heading × Ref (Value A)} (h : o ∈ p.itemOccurrences own e) : o.1.root = e.1 := by
  rw [itemOccurrences] at h
  split at h
  · rename_i hf
    obtain ⟨f, -, rfl⟩ := List.mem_map.mp h
    exact hf.1.symm
  · obtain rfl := List.mem_singleton.mp h
    rfl

theorem collected_group (own : Store (Value A)) (h : Heading) (items : List (Text × Value A)) :
    collected own h ((group h.root items).flatMap (p.itemOccurrences own)) =
      collected own h (items.flatMap (p.itemOccurrences own)) := by
  induction items with
  | nil => rfl
  | cons e items ih =>
    rw [List.flatMap_cons, collected_append, ← ih, group, List.filter_cons]
    by_cases hk : e.1 = h.root
    · rw [if_pos (decide_eq_true hk), List.flatMap_cons, collected_append]
      rfl
    · have hnil : collected own h (p.itemOccurrences own e) = [] := by
        refine collected_of_notMem fun hm => ?_
        obtain ⟨o, ho, rfl⟩ := List.mem_map.mp hm
        exact hk (p.root_of_mem_itemOccurrences ho).symm
      rw [if_neg (by simpa using hk), hnil]
      rfl

theorem covers_of_groups {own : Store (Value A)} {items : List (Text × Value A)}
    {results : List (Text × Slot A)} (hnodup : (results.map Prod.fst).Nodup)
    (hkeys : ∀ k, k ∈ results.map Prod.fst ↔ k ∈ items.map Prod.fst)
    (hslots : ∀ e ∈ results, Covers own ((group e.1 items).flatMap (p.itemOccurrences own))
      (slotLists own e.1 e.2)) :
    Covers own (items.flatMap (p.itemOccurrences own)) (resultLists (results, own)) := by
  have hroot : ∀ e ∈ results, ∀ h ∈ (slotLists own e.1 e.2).map Prod.fst, h.root = e.1 := by
    intro e he h hh
    obtain ⟨o, ho, rfl⟩ := List.mem_map.mp (((hslots e he).complete h).mp hh)
    obtain ⟨i, hi, ho⟩ := List.mem_flatMap.mp ho
    rw [p.root_of_mem_itemOccurrences ho]
    exact of_decide_eq_true (List.mem_filter.mp hi).2
  refine ⟨?_, fun h => ?_, fun l hl => ?_⟩
  · rw [resultLists, List.map_flatMap, List.nodup_flatMap]
    refine ⟨fun e he => (hslots e he).once, ?_⟩
    refine (List.pairwise_map.mp hnodup).imp_of_mem fun {e e'} he he' hne => ?_
    exact fun h hh hh' => hne ((hroot e he h hh).symm.trans (hroot e' he' h hh'))
  · simp only [resultLists, List.map_flatMap, List.mem_flatMap]
    constructor
    · rintro ⟨e, he, hh⟩
      obtain ⟨i, hi, hh⟩ : ∃ i ∈ group e.1 items, h ∈ (p.itemOccurrences own i).map Prod.fst := by
        simpa only [List.map_flatMap, List.mem_flatMap] using ((hslots e he).complete h).mp hh
      exact ⟨i, List.mem_of_mem_filter hi, hh⟩
    · rintro ⟨i, hi, hh⟩
      obtain ⟨e, he, hk⟩ := List.mem_map.mp ((hkeys i.1).mpr (List.mem_map_of_mem hi))
      refine ⟨e, he, ((hslots e he).complete h).mpr ?_⟩
      simp only [List.map_flatMap, List.mem_flatMap]
      exact ⟨i, List.mem_filter.mpr ⟨hi, decide_eq_true hk.symm⟩, hh⟩
  · obtain ⟨e, he, hl⟩ := List.mem_flatMap.mp hl
    have hr := hroot e he l.1 (List.mem_map_of_mem hl)
    rw [(hslots e he).merged l hl, ← hr, p.collected_group]

/-! ## One item -/

theorem parseQuery_eq_ok {own : Store (Value A)} {key : Text} {value : Value A} {slot : Slot A}
    (h : p.parseQuery own key value = .ok slot) :
    p.TypedAll own (.key key, value.asList) ∧
      (slot = .scalar value ∧ value.isScalar ∧ p.single key ∨
        slot = .list value.asList ∧ (value.isScalar ∨ ∃ l, value = .list l)) := by
  unfold parseQuery at h
  split at h
  · rename_i hsingle
    have hscalar : ∀ v : Value A, (∀ l, v ≠ .list l) →
        (do let vtype ← p.keyType key; p.typeCheck vtype v; pure (Slot.scalar v)) = .ok slot →
        p.TypedAll own (.key key, v.asList) ∧ slot = .scalar v ∧ v.isScalar := by
      intro v hlist h
      obtain ⟨vtype, ht, h⟩ := bind_eq_ok.mp h
      obtain ⟨_, hv, h⟩ := bind_eq_ok.mp h
      have hv : p.hasType vtype v := by
        by_contra hn
        simp [typeCheck, hn] at hv
      refine ⟨p.typedAll_of_hasType (h := .key key) ht fun w hw => ?_, (pure_eq_ok.mp h).symm,
        p.isScalar_of_hasType hv⟩
      have hw : w ∈ [v] := by
        cases v with
        | list l => exact absurd rfl (hlist l)
        | scalar s => exact hw
        | dict items => exact hw
      exact List.mem_singleton.mp hw ▸ hv
    cases value with
    | list l => cases h
    | scalar s =>
      obtain ⟨ht, hs, hv⟩ := hscalar _ (by simp) h
      exact ⟨ht, .inl ⟨hs, hv, hsingle⟩⟩
    | dict items =>
      obtain ⟨ht, hs, hv⟩ := hscalar _ (by simp) h
      exact ⟨ht, .inl ⟨hs, hv, hsingle⟩⟩
  · obtain ⟨vtype, ht, h⟩ := bind_eq_ok.mp h
    obtain ⟨_, hv, h⟩ := bind_eq_ok.mp h
    have hv := p.typeCheckAll_eq_ok.mp hv
    refine ⟨p.typedAll_of_hasType (h := .key key) ht hv, .inr ⟨(pure_eq_ok.mp h).symm, ?_⟩⟩
    cases value with
    | scalar s => exact .inl rfl
    | list l => exact .inr ⟨l, rfl⟩
    | dict items => exact .inl (p.isScalar_of_hasType (hv _ (List.mem_singleton_self _)))

theorem parseItem_cases {s s' : State A} {k : Text} {v : Value A}
    (h : p.parseItem s k v = .ok s') :
    (p.HasFilters s.own (k, v) ∧ ∃ l st, v = .list l ∧ p.parseFilterList s.own (s.own l) = .ok st ∧
      s' = ⟨s.results ++ [(k, .filters st.1 [])], s.names, st.2⟩) ∨
    (¬p.HasFilters s.own (k, v) ∧ p.TypedAll s.own (.key k, v.asList) ∧
      ((k ∈ s.names ∧ ¬p.single k ∧ (v.isScalar ∨ ∃ l, v = .list l) ∧
        s' = ⟨(updateKey k (Slot.append v) s.results s.own).1, s.names,
          (updateKey k (Slot.append v) s.results s.own).2⟩) ∨
      (k ∉ s.names ∧ ∃ slot, (slot = .scalar v ∧ v.isScalar ∧ p.single k ∨
          slot = .list v.asList ∧ (v.isScalar ∨ ∃ l, v = .list l)) ∧
        s' = ⟨s.results ++ [(k, slot)], s.names ++ [k], s.own⟩))) := by
  rw [parseItem] at h
  split at h
  · rename_i hf
    obtain ⟨st, hst, hs'⟩ := bind_eq_ok.mp h
    refine .inl ⟨hf, ?_⟩
    cases v with
    | scalar s => cases hst
    | dict items => cases hst
    | list l => exact ⟨l, st, rfl, hst, (pure_eq_ok.mp hs').symm⟩
  · rename_i hf
    obtain ⟨slot, hslot, h⟩ := bind_eq_ok.mp h
    obtain ⟨ht, hslot⟩ := p.parseQuery_eq_ok hslot
    refine .inr ⟨hf, ht, ?_⟩
    by_cases hk : k ∈ s.names
    · rw [if_pos hk] at h
      by_cases hsingle : p.single k
      · rw [if_pos hsingle] at h
        cases h
      · rw [if_neg hsingle] at h
        refine .inl ⟨hk, hsingle, ?_, (pure_eq_ok.mp h).symm⟩
        exact hslot.elim (fun h => .inl h.2.1) And.right
    · rw [if_neg hk] at h
      exact .inr ⟨hk, slot, hslot, (pure_eq_ok.mp h).symm⟩

theorem grows_append (v : Value A) (slot : Slot A) (own : Store (Value A)) :
    Grows own (slot.append v own).2 := by
  cases slot with
  | scalar w => exact .refl own
  | list values => exact grows_extend values [v] own
  | filters entries appended => exact .refl own

theorem grows_parseItem {s s' : State A} {k : Text} {v : Value A}
    (h : p.parseItem s k v = .ok s') : Grows s.own s'.own := by
  obtain ⟨-, l, st, -, hst, rfl⟩ | ⟨-, -, ⟨-, -, -, rfl⟩ | ⟨-, slot, -, rfl⟩⟩ := p.parseItem_cases h
  · obtain ⟨rfl, -⟩ := p.parseFilterList_spec hst
    exact grows_mergeAll _ _
  · exact updateKey_rel Grows.refl (fun _ _ _ => Grows.trans) (grows_append v) _ _
  · exact .refl _

theorem typed_of_parseItem {s s' : State A} {k : Text} {v : Value A}
    (h : p.parseItem s k v = .ok s') :
    ∀ o ∈ p.itemOccurrences s.own (k, v), p.TypedAll s.own o := by
  rw [itemOccurrences]
  obtain ⟨hf, l, st, rfl, hst, -⟩ | ⟨hf, ht, -⟩ := p.parseItem_cases h
  · rw [if_pos hf, List.forall_mem_map]
    exact (p.parseFilterList_spec hst).2
  · rw [if_neg hf, List.forall_mem_singleton]
    exact ht

/-! ## The result so far -/

/-- The entry of a key holds what its items say. -/
inductive Holds (own : Store (Value A)) (k : Text) : List (Text × Value A) → Slot A → Prop
  | scalar (v : Value A) (hf : ¬p.HasFilters own (k, v)) (hs : p.single k) (hv : v.isScalar) :
    Holds own k [(k, v)] (.scalar v)
  | own (l : Nat) (hf : ¬p.HasFilters own (k, .list l)) (hv : ∀ v ∈ own l, v.isScalar) :
    Holds own k [(k, .list l)] (.list (.own l))
  | fresh (vs : List (Value A)) (hne : vs ≠ []) (hf : ∀ v ∈ vs, ¬p.HasFilters own (k, v))
    (hv : ∀ v ∈ vs, v.isScalar) : Holds own k (vs.map fun v => (k, v)) (.list (.fresh vs))
  | filters (l : Nat) (entries : List (Text × Ref (Value A)))
    (hf : p.HasFilters own (k, .list l))
    (hm : Merged own ((own l).filterMap named) entries) :
    Holds own k [(k, .list l)] (.filters entries [])

/-- The policy is as it was, each key has one entry, and lists have scalars only. -/
structure Clean (own : Store (Value A)) (s : State A) : Prop where
  unchanged : s.own = own
  distinct : (s.results.map Prod.fst).Nodup
  scalars : ∀ e ∈ s.results, ∀ r, e.2 = .list r → ∀ v ∈ r.read own, v.isScalar

/-- The result so far holds what the items say. -/
structure Tracks (own : Store (Value A)) (items : List (Text × Value A)) (s : State A) : Prop where
  unchanged : s.own = own
  distinct : (s.results.map Prod.fst).Nodup
  complete : ∀ k, k ∈ s.results.map Prod.fst ↔ k ∈ items.map Prod.fst
  holds : ∀ e ∈ s.results, p.Holds own e.1 (group e.1 items) e.2
  names : ∀ k, k ∈ s.names ↔ ∃ e ∈ s.results, e.1 = k ∧ ∀ entries appended,
    e.2 ≠ .filters entries appended

theorem asList_of_isScalar {v : Value A} (h : v.isScalar) : v.asList = .fresh [v] := by
  cases v with
  | scalar s => rfl
  | list l => cases h
  | dict items => cases h

theorem Clean.of_parseItem {own : Store (Value A)} {s s' : State A} {k : Text} {v : Value A}
    (hgrows : Grows own s.own) (h : p.parseItem s k v = .ok s') (hclean : Clean own s') :
    Clean own s := by
  have hown : s.own = own :=
    Grows.antisymm (hclean.unchanged ▸ p.grows_parseItem h) hgrows
  suffices hrest : (s.results.map Prod.fst).Nodup ∧
      ∀ e ∈ s.results, ∀ r, e.2 = .list r → ∀ v ∈ r.read own, v.isScalar from
    ⟨hown, hrest.1, hrest.2⟩
  have hpush : ∀ slot, s'.results = s.results ++ [(k, slot)] →
      (s.results.map Prod.fst).Nodup ∧
        ∀ e ∈ s.results, ∀ r, e.2 = .list r → ∀ v ∈ r.read own, v.isScalar := by
    intro slot he
    have hd := hclean.distinct
    have hs := hclean.scalars
    rw [he] at hd hs
    rw [List.map_append] at hd
    exact ⟨hd.of_append_left, fun e he => hs e (List.mem_append_left _ he)⟩
  obtain ⟨-, l, st, -, -, rfl⟩ | ⟨-, -, ⟨-, -, -, rfl⟩ | ⟨-, slot, -, rfl⟩⟩ := p.parseItem_cases h
  · exact hpush _ rfl
  · have hd : (s.results.map Prod.fst).Nodup := by
      have hd := hclean.distinct
      rwa [map_fst_updateKey] at hd
    refine ⟨hd, fun e he r hr w hw => ?_⟩
    have hs := hclean.scalars
    have hu := hclean.unchanged
    simp only at hs hu
    by_cases hk : k ∈ s.results.map Prod.fst
    · obtain ⟨⟨_, slot⟩, hmem, rfl⟩ := List.mem_map.mp hk
      obtain ⟨es, es', hes⟩ := List.append_of_mem hmem
      rw [hes] at hd he hs hu
      rw [updateKey_append _ hd] at hs hu
      rcases List.mem_append.mp he with he | he
      · exact hs e (List.mem_append_left _ he) r hr w hw
      · rcases List.mem_cons.mp he with rfl | he
        · simp only at hr
          subst hr
          refine hs (_, .list (r.extend [v] s.own).1) List.mem_append_cons_self _ rfl w ?_
          have hread := read_extend r [v] s.own
          rw [show (r.extend [v] s.own).2 = own from hu, hown] at hread
          rw [hown, hread]
          exact List.mem_append_left _ hw
        · exact hs e (List.mem_append_right _ (List.mem_cons_of_mem _ he)) r hr w hw
    · rw [updateKey_of_notMem _ hk] at hs
      exact hs e he r hr w hw
  · exact hpush _ rfl

/-! ## One step -/

/-- What an item must be for its key, after others, to leave the policy as it is. -/
def QuietStep (own : Store (Value A)) (items : List (Text × Value A)) (e : Text × Value A) :
    Prop :=
  (∀ a ∈ items, a.1 = e.1 → a.2.isScalar ∧ e.2.isScalar) ∧
    ∀ l, e = ("Filters".toList, Value.list l) → Quiet own ((own l).filterMap named)

theorem quietItems_concat {own : Store (Value A)} {items : List (Text × Value A)}
    {e : Text × Value A} :
    QuietItems own (items ++ [e]) ↔ QuietItems own items ∧ QuietStep own items e := by
  simp only [QuietItems, QuietStep, List.pairwise_append, List.pairwise_singleton, true_and,
    List.mem_singleton, forall_eq, List.mem_append, or_imp, forall_and]
  constructor
  · rintro ⟨⟨h1, h2⟩, h3, h4⟩
    exact ⟨⟨h1, h3⟩, h2, fun l he => h4 l he.symm⟩
  · rintro ⟨⟨h1, h3⟩, h2, h4⟩
    exact ⟨⟨h1, h2⟩, h3, fun l he => h4 l he.symm⟩

theorem mem_of_mem_group {k : Text} {items : List (Text × Value A)} {e : Text × Value A}
    (h : e ∈ group k items) : e ∈ items ∧ e.1 = k := by
  simpa [group] using h

theorem Tracks.push {own : Store (Value A)} {items : List (Text × Value A)} {s : State A}
    (h : p.Tracks own items s) {k : Text} {v : Value A} {slot : Slot A} {names : List Text}
    (hk : k ∉ s.results.map Prod.fst) (hh : p.Holds own k [(k, v)] slot)
    (hn : ∀ k', k' ∈ names ↔
      k' ∈ s.names ∨ k = k' ∧ ∀ entries appended, slot ≠ .filters entries appended) :
    p.Tracks own (items ++ [(k, v)]) ⟨s.results ++ [(k, slot)], names, own⟩ := by
  refine ⟨rfl, ?_, fun k' => ?_, fun e he => ?_, fun k' => ?_⟩
  · rw [List.map_append]
    exact h.distinct.append (List.nodup_singleton _) (List.disjoint_singleton.mpr hk)
  · simp only [List.map_append, List.mem_append, h.complete k', List.map_singleton]
  · rw [group_concat]
    rcases List.mem_append.mp he with he | he
    · rw [if_neg fun hke => hk (List.mem_map.mpr ⟨e, he, hke.symm⟩)]
      exact h.holds e he
    · obtain rfl := List.mem_singleton.mp he
      rw [if_pos rfl, group_of_notMem (mt (h.complete k).mpr hk)]
      exact hh
  · rw [hn, h.names]
    simp only [List.mem_append, or_and_right, exists_or, List.mem_singleton, exists_eq_left]

theorem Tracks.replace {own : Store (Value A)} {items : List (Text × Value A)} {s : State A}
    (h : p.Tracks own items s) {k : Text} {v : Value A} {slot slot' : Slot A}
    {es es' : List (Text × Slot A)} (hs : s.results = es ++ (k, slot) :: es')
    (hslot : ∀ entries appended, slot ≠ .filters entries appended)
    (hslot' : ∀ entries appended, slot' ≠ .filters entries appended)
    (hh : p.Holds own k (group k items ++ [(k, v)]) slot') :
    p.Tracks own (items ++ [(k, v)]) ⟨es ++ (k, slot') :: es', s.names, own⟩ := by
  obtain ⟨-, hd, hc, hholds, hn⟩ := h
  rw [hs] at hd hc hholds hn
  have hmap : (es ++ (k, slot') :: es').map Prod.fst = (es ++ (k, slot) :: es').map Prod.fst := by
    simp
  have hother : ∀ e ∈ es ++ es', e.1 ≠ k := by
    rw [List.map_append, List.map_cons, List.nodup_middle, List.nodup_cons, ← List.map_append]
      at hd
    exact fun e he hk => hd.1 (List.mem_map.mpr ⟨e, he, hk⟩)
  have hsplit : ∀ sl e, e ∈ es ++ (k, sl) :: es' ↔ e = (k, sl) ∨ e ∈ es ++ es' := by
    intro sl e
    simp only [List.mem_append, List.mem_cons]
    exact or_left_comm
  refine ⟨rfl, hmap ▸ hd, fun k' => ?_, fun e he => ?_, fun k' => ?_⟩
  · have hkey := hc k
    rw [hmap, hc k', List.map_append, List.mem_append, List.map_singleton, List.mem_singleton]
    refine ⟨.inl, fun hk => hk.elim id ?_⟩
    rintro rfl
    exact hkey.mp (by simp)
  · rw [group_concat]
    rcases (hsplit slot' e).mp he with rfl | he
    · rw [if_pos rfl]
      exact hh
    · rw [if_neg (hother e he).symm]
      exact hholds e ((hsplit slot e).mpr (.inr he))
  · rw [hn]
    simp only [hsplit, or_and_right, exists_or, exists_eq_left]
    refine or_congr_left (and_congr_right fun _ => ?_)
    exact iff_of_true hslot hslot'

theorem not_hasFilters_quiet {own : Store (Value A)} {k : Text} {v : Value A}
    (h : ¬p.HasFilters own (k, v)) (l : Nat) (he : (k, v) = ("Filters".toList, Value.list l)) :
    Quiet own ((own l).filterMap named) := by
  rw [he] at h
  have hl : own l = [] := by simpa [HasFilters, isTrue] using h
  rw [hl]
  exact quiet_nil own

theorem notMem_of_clean {own : Store (Value A)} {results : List (Text × Slot A)} {k : Text}
    {slot : Slot A} {names : List Text} {own' : Store (Value A)}
    (hc : Clean own ⟨results ++ [(k, slot)], names, own'⟩) : k ∉ results.map Prod.fst := by
  have hd := hc.distinct
  rw [List.map_append] at hd
  exact fun hk => hd.disjoint hk (List.mem_singleton_self k)

section Steps

variable {own : Store (Value A)} {items : List (Text × Value A)} {s : State A} {k : Text}
  {v : Value A} (h : p.Tracks own items s)

include h

theorem Tracks.vacuous (hk : k ∉ s.results.map Prod.fst) :
    ∀ a ∈ items, a.1 = k → a.2.isScalar ∧ v.isScalar :=
  fun a ha hak => absurd ((h.complete k).mpr (List.mem_map.mpr ⟨a, ha, hak⟩)) hk

theorem Tracks.filters_step {l : Nat} {st : Filters A} (hf : p.HasFilters own (k, .list l))
    (hst : st = mergeAll own ((own l).filterMap named)) :
    (Clean own ⟨s.results ++ [(k, .filters st.1 [])], s.names, st.2⟩ →
        QuietStep own items (k, .list l)) ∧
      (QuietStep own items (k, .list l) → p.Tracks own (items ++ [(k, .list l)])
        ⟨s.results ++ [(k, .filters st.1 [])], s.names, st.2⟩) := by
  subst hst
  constructor
  · intro hc
    refine ⟨h.vacuous p (notMem_of_clean hc), fun l' he => ?_⟩
    obtain ⟨-, hl⟩ := Prod.mk.inj he
    exact Value.list.inj hl ▸ mergeAll_store_eq_iff.mp hc.unchanged
  · rintro ⟨hscalar, hquiet⟩
    have hq := hquiet l (Prod.ext hf.1 rfl)
    have hk : k ∉ s.results.map Prod.fst := by
      intro hk
      obtain ⟨a, ha, hak⟩ := List.mem_map.mp ((h.complete k).mp hk)
      exact absurd (hscalar a ha hak).2 (by simp [Value.isScalar])
    rw [mergeAll_store_eq_iff.mpr hq]
    refine h.push p hk (.filters l _ hf (merged_mergeAll hq)) fun k' => ?_
    refine (or_iff_left ?_).symm
    rintro ⟨-, hne⟩
    exact hne _ _ rfl

theorem Tracks.again_step (hf : ¬p.HasFilters own (k, v)) (hk : k ∈ s.names)
    (hsingle : ¬p.single k) :
    (Clean own ⟨(updateKey k (Slot.append v) s.results own).1, s.names,
        (updateKey k (Slot.append v) s.results own).2⟩ → QuietStep own items (k, v)) ∧
      (QuietStep own items (k, v) → p.Tracks own (items ++ [(k, v)])
        ⟨(updateKey k (Slot.append v) s.results own).1, s.names,
          (updateKey k (Slot.append v) s.results own).2⟩) := by
  obtain ⟨⟨k', slot⟩, he, hkk, hslot⟩ := (h.names k).mp hk
  obtain rfl : k = k' := hkk.symm
  obtain ⟨es, es', hes⟩ := List.append_of_mem he
  rw [hes, updateKey_append _ (hes ▸ h.distinct)]
  have hh : p.Holds own k (group k items) slot := h.holds _ he
  generalize hg : group k items = g at hh
  cases hh with
  | scalar w _ hs => exact absurd hs hsingle
  | filters l entries => exact absurd rfl (hslot _ _)
  | own l =>
    obtain ⟨ha, hak⟩ := mem_of_mem_group (hg ▸ List.mem_singleton_self (k, Value.list l))
    constructor
    · exact fun hc => absurd (extend_store_eq_iff.mp hc.unchanged l rfl) (by simp)
    · rintro ⟨hscalar, -⟩
      exact absurd (hscalar _ ha hak).1 (by simp [Value.isScalar])
  | fresh vs hne hfs hvs =>
    have hgroup : ∀ w, (k, w) ∈ items ↔ w ∈ vs := by
      intro w
      have hw : (k, w) ∈ group k items ↔ (k, w) ∈ vs.map fun v => (k, v) := by rw [hg]
      simpa [group] using hw
    constructor
    · intro hc
      have hscalar : v.isScalar :=
        hc.scalars (k, .list (.fresh (vs ++ [v]))) List.mem_append_cons_self _ rfl v
          (List.mem_append_right _ (List.mem_singleton_self v))
      refine ⟨fun ⟨k', w⟩ ha hak => ⟨?_, hscalar⟩, p.not_hasFilters_quiet hf⟩
      obtain rfl : k' = k := hak
      exact hvs w ((hgroup w).mp ha)
    · rintro ⟨hscalar, -⟩
      obtain ⟨w, hw⟩ := List.exists_mem_of_ne_nil vs hne
      have hv := (hscalar (k, w) ((hgroup w).mpr hw) rfl).2
      refine h.replace p hes hslot (by simp [Slot.append]) ?_
      have hmap : (vs.map fun v => (k, v)) ++ [(k, v)] = (vs ++ [v]).map fun v => (k, v) := by
        simp
      rw [hg, hmap]
      refine .fresh (vs ++ [v]) (by simp) ?_ ?_
      · simpa only [List.forall_mem_append, List.forall_mem_singleton] using ⟨hfs, hf⟩
      · simpa only [List.forall_mem_append, List.forall_mem_singleton] using ⟨hvs, hv⟩

theorem Tracks.first_step {slot : Slot A} (hf : ¬p.HasFilters own (k, v))
    (ht : p.TypedAll own (.key k, v.asList)) (hk : k ∉ s.names)
    (hslot : slot = .scalar v ∧ v.isScalar ∧ p.single k ∨
      slot = .list v.asList ∧ (v.isScalar ∨ ∃ l, v = .list l)) :
    (Clean own ⟨s.results ++ [(k, slot)], s.names ++ [k], own⟩ → QuietStep own items (k, v)) ∧
      (QuietStep own items (k, v) → p.Tracks own (items ++ [(k, v)])
        ⟨s.results ++ [(k, slot)], s.names ++ [k], own⟩) := by
  constructor
  · intro hc
    exact ⟨h.vacuous p (notMem_of_clean hc), p.not_hasFilters_quiet hf⟩
  · rintro ⟨hscalar, -⟩
    have hk' : k ∉ s.results.map Prod.fst := by
      intro hm
      obtain ⟨⟨_, slot'⟩, he, rfl⟩ := List.mem_map.mp hm
      have hh := h.holds _ he
      cases slot' with
      | filters entries appended =>
        simp only at hh
        generalize hg : group _ items = g at hh
        cases hh with
        | filters l entries hf hm =>
          obtain ⟨ha, hak⟩ := mem_of_mem_group (hg ▸ List.mem_singleton_self _)
          exact absurd (hscalar _ ha hak).1 (by simp [Value.isScalar])
      | scalar w => exact hk ((h.names _).mpr ⟨_, he, rfl, by simp⟩)
      | list r => exact hk ((h.names _).mpr ⟨_, he, rfl, by simp⟩)
    refine h.push p hk' ?_ fun k' => ?_
    · rcases hslot with ⟨rfl, hv, hs⟩ | ⟨rfl, hv | ⟨l, rfl⟩⟩
      · exact .scalar v hf hs hv
      · rw [asList_of_isScalar hv]
        exact .fresh [v] (by simp) (by simpa using hf) (by simpa using hv)
      · exact .own l hf fun w hw => (ht w hw).1
    · have hne : ∀ entries appended, slot ≠ .filters entries appended := by
        rcases hslot with ⟨rfl, -⟩ | ⟨rfl, -⟩ <;> simp
      rw [List.mem_append, List.mem_singleton, eq_comm, and_iff_left hne]

end Steps

/-- **A step leaves the policy clean only if the item is quiet, and a quiet item is tracked.** -/
theorem parseItem_tracks {own : Store (Value A)} {items : List (Text × Value A)} {s s' : State A}
    {k : Text} {v : Value A} (h : p.Tracks own items s) (hs : p.parseItem s k v = .ok s') :
    (Clean own s' → QuietStep own items (k, v)) ∧
      (QuietStep own items (k, v) → p.Tracks own (items ++ [(k, v)]) s') := by
  have hcases := p.parseItem_cases hs
  rw [h.unchanged] at hcases
  obtain ⟨hf, l, st, rfl, hst, rfl⟩ | ⟨hf, ht, ⟨hk, hsingle, -, rfl⟩ | ⟨hk, slot, hslot, rfl⟩⟩ :=
    hcases
  · exact h.filters_step p hf (p.parseFilterList_spec hst).1
  · exact h.again_step p hf hk hsingle
  · exact h.first_step p hf ht hk hslot

/-! ## The whole loop -/

theorem parseItems_spec {own : Store (Value A)} {data : List (Value A)} {s : State A}
    (h : p.parseItems own data = .ok s) :
    Grows own s.own ∧
      (Clean own s → QuietItems own (data.flatMap Value.items)) ∧
      (QuietItems own (data.flatMap Value.items) →
        p.Tracks own (data.flatMap Value.items) s ∧
          ∀ o ∈ (data.flatMap Value.items).flatMap (p.itemOccurrences own), p.TypedAll own o) := by
  induction data using List.reverseRecOn generalizing s with
  | nil =>
    obtain rfl := pure_eq_ok.mp h
    refine ⟨.refl own, fun _ => ⟨.nil, by simp⟩, fun _ => ⟨⟨rfl, List.nodup_nil, ?_, ?_, ?_⟩, ?_⟩⟩
    all_goals simp
  | append_singleton data d ih =>
    rw [parseItems, List.foldlM_append, bind_eq_ok] at h
    obtain ⟨s₀, h₀, h⟩ := h
    obtain ⟨hgrows, hquiet, htracks⟩ := ih h₀
    rw [List.foldlM_cons, bind_eq_ok] at h
    obtain ⟨s₁, h, hnil⟩ := h
    obtain rfl := pure_eq_ok.mp hnil
    obtain ⟨k, v, rfl, h⟩ : ∃ k v, d = .dict [(k, v)] ∧ p.parseItem s₀ k v = .ok s₁ := by
      unfold parseStep at h
      split at h
      · exact ⟨_, _, rfl, h⟩
      · cases h
    have hitems : (data ++ [Value.dict [(k, v)]]).flatMap Value.items =
        data.flatMap Value.items ++ [(k, v)] := by
      simp [Value.items]
    rw [hitems, quietItems_concat]
    refine ⟨hgrows.trans (p.grows_parseItem h), fun hc => ?_, fun hq => ?_⟩
    · have hq := hquiet (hc.of_parseItem p hgrows h)
      exact ⟨hq, (p.parseItem_tracks (htracks hq).1 h).1 hc⟩
    · obtain ⟨ht, htyped⟩ := htracks hq.1
      refine ⟨(p.parseItem_tracks ht h).2 hq.2, ?_⟩
      rw [List.flatMap_append, List.forall_mem_append, List.flatMap_singleton]
      exact ⟨htyped, ht.unchanged ▸ p.typed_of_parseItem h⟩

/-! ## Whole queries -/

omit p in
theorem covers_singleton (own : Store (Value A)) {occ : List (Heading × Ref (Value A))}
    {h : Heading} (hne : occ ≠ []) (hh : ∀ o ∈ occ, o.1 = h) :
    Covers own occ [(h, occ.flatMap fun o => o.2.read own)] := by
  refine ⟨List.nodup_singleton _, fun h' => ?_, fun e he => ?_⟩
  · obtain ⟨o, ho⟩ := List.exists_mem_of_ne_nil occ hne
    rw [List.map_singleton, List.mem_singleton, List.mem_map]
    constructor
    · rintro rfl
      exact ⟨o, ho, hh o ho⟩
    · rintro ⟨o', ho', rfl⟩
      exact hh o' ho'
  · obtain rfl := List.mem_singleton.mp he
    rw [collected]
    exact List.flatMap_congr fun o ho => (if_pos (hh o ho)).symm

theorem Holds.covers {own : Store (Value A)} {k : Text} {g : List (Text × Value A)} {slot : Slot A}
    (h : p.Holds own k g slot) :
    Covers own (g.flatMap (p.itemOccurrences own)) (slotLists own k slot) := by
  have hkey : ∀ g : List (Text × Value A), g ≠ [] → (∀ e ∈ g, e.1 = k ∧ ¬p.HasFilters own e) →
      Covers own (g.flatMap (p.itemOccurrences own))
        [(.key k, g.flatMap fun e => e.2.asList.read own)] := by
    intro g hne hg
    have hocc : g.flatMap (p.itemOccurrences own) = g.map fun e => (.key k, e.2.asList) := by
      rw [← List.flatMap_pure_eq_map]
      refine List.flatMap_congr fun e he => ?_
      rw [itemOccurrences, if_neg (hg e he).2, (hg e he).1]
      rfl
    have hne' : (g.map fun e => (Heading.key k, e.2.asList)) ≠ [] := by
      simpa using hne
    have hc := covers_singleton own hne' (List.forall_mem_map.mpr fun _ _ => rfl)
    rw [hocc]
    simpa only [List.flatMap_map] using hc
  cases h with
  | scalar v hf hs hv =>
    have hc := hkey [(k, v)] (by simp) (by simpa using hf)
    rw [List.flatMap_singleton (f := fun e : Text × Value A => e.2.asList.read own),
      asList_of_isScalar hv] at hc
    exact hc
  | own l hf hv =>
    have hc := hkey [(k, .list l)] (by simp) (by simpa using hf)
    rw [List.flatMap_singleton (f := fun e : Text × Value A => e.2.asList.read own)] at hc
    exact hc
  | fresh vs hne hf hv =>
    have hc := hkey (vs.map fun v => (k, v)) (by simpa using hne)
      (by simpa only [List.forall_mem_map, true_and] using hf)
    have hvs : ((vs.map fun v => (k, v)).flatMap fun e => e.2.asList.read own) = vs := by
      rw [List.flatMap_map]
      conv_rhs => rw [← List.flatMap_singleton' vs]
      refine List.flatMap_congr fun v hm => ?_
      rw [asList_of_isScalar (hv v hm)]
      rfl
    rw [hvs] at hc
    exact hc
  | filters l entries hf hm =>
    rw [List.flatMap_singleton, itemOccurrences, if_pos hf, slotLists, List.map_nil,
      List.append_nil]
    exact covers_of_merged hm

theorem good_items_iff {own : Store (Value A)} {query : Value A} {data : List (Value A)}
    {out : Parsed A} (hform : p.formOf own (query.asList.read own) = .ok (.items data))
    (hparse : p.parse own query = .ok out) (h : p.parseForm own (.items data) = .ok out) :
    p.Good own query out ↔ QuietItems own (data.flatMap Value.items) := by
  obtain ⟨s, hs, hout⟩ := bind_eq_ok.mp h
  obtain rfl := pure_eq_ok.mp hout
  obtain ⟨-, hquiet, htracks⟩ := p.parseItems_spec hs
  have hocc : p.occurrences own (query.asList.read own) =
      (data.flatMap Value.items).flatMap (p.itemOccurrences own) := by
    rw [occurrences, hform]
  constructor
  · rintro ⟨hown, -, hdistinct, -, htyped⟩
    refine hquiet ⟨hown, hdistinct, fun e he r hr v hv => ?_⟩
    refine (htyped (.key e.1, r.read s.own) ?_ v (show v ∈ r.read s.own from ?_)).1
    swap
    · rw [show s.own = own from hown]
      exact hv
    exact List.mem_flatMap.mpr ⟨e, he, by rw [hr]; exact List.mem_singleton_self _⟩
  · intro hq
    obtain ⟨ht, htyped⟩ := htracks hq
    have hcovers := p.covers_of_groups ht.distinct ht.complete fun e he => (ht.holds e he).covers p
    rw [← hocc] at hcovers htyped
    refine ⟨ht.unchanged, ?_, ht.distinct, ht.unchanged.symm ▸ hcovers,
      ht.unchanged.symm ▸ hcovers.typed p htyped⟩
    rw [show (s.results, s.own).2 = own from ht.unchanged]
    exact hparse

theorem good_filters_iff {own : Store (Value A)} {query : Value A}
    {ops : List (Text × Ref (Value A))} (Rest : Prop)
    (hparse : p.parse own query = .ok (onlyFilters (mergeAll own ops)))
    (htyped : ∀ o ∈ ops, p.TypedAll own (underFilter o))
    (hrest : Quiet own ops → (Covers own (p.occurrences own (query.asList.read own))
      ((mergeAll own ops).1.map fun f => (.filter f.1, f.2.read own)) ↔ Rest)) :
    p.Good own query (onlyFilters (mergeAll own ops)) ↔ Quiet own ops ∧ Rest := by
  have hlists : resultLists (onlyFilters (mergeAll own ops)) =
      (mergeAll own ops).1.map fun f => (.filter f.1, f.2.read (mergeAll own ops).2) := by
    rw [resultLists, onlyFilters, List.flatMap_singleton, slotLists, List.map_nil,
      List.append_nil]
  constructor
  · rintro ⟨hown, -, -, hcovers, -⟩
    have hown : (mergeAll own ops).2 = own := hown
    have hq := mergeAll_store_eq_iff.mp hown
    rw [hlists, hown] at hcovers
    exact ⟨hq, (hrest hq).mp hcovers⟩
  · rintro ⟨hq, hr⟩
    have hown := mergeAll_store_eq_iff.mpr hq
    have hcovers := (hrest hq).mpr hr
    have hself := (covers_of_merged (merged_mergeAll hq)).typed p (List.forall_mem_map.mpr htyped)
    refine ⟨hown, ?_, List.nodup_singleton _, ?_, ?_⟩
    · rw [show (onlyFilters (mergeAll own ops)).2 = own from hown]
      exact hparse
    · rw [hlists, hown]
      exact hcovers
    · rw [hlists, hown]
      exact hself

/-! ## Queries of filters alone -/

/-- What an item of such a query says under all of its keys. -/
def implicitOccurrences (items : List (Text × Value A)) : List (Text × Ref (Value A)) :=
  items.map fun e => (e.1, e.2.asList)

omit p in
theorem perm_implicit {data : List (Value A)} {filters : List (Text × Ref (Value A))}
    (h : data.mapM implicitFilter = .ok filters) :
    (implicitOccurrences (data.flatMap Value.items)).Perm
        (filters ++ implicitOccurrences (furtherKeys data)) ∧
      filters.Sublist (implicitOccurrences (data.flatMap Value.items)) := by
  rw [mapM_eq_ok] at h
  induction h with
  | nil => exact ⟨.nil, .slnil⟩
  | @cons d f data filters hd h ih =>
    obtain ⟨e, items, rfl, rfl⟩ : ∃ e items, d = .dict (e :: items) ∧ f = (e.1, e.2.asList) := by
      unfold implicitFilter at hd
      split at hd
      · exact ⟨_, _, rfl, (Except.ok.inj hd).symm⟩
      · cases hd
      · cases hd
    have hall : implicitOccurrences ((Value.dict (e :: items) :: data).flatMap Value.items) =
        (e.1, e.2.asList) ::
          (implicitOccurrences items ++ implicitOccurrences (data.flatMap Value.items)) := by
      simp [implicitOccurrences, Value.items]
    have hfurther : implicitOccurrences (furtherKeys (Value.dict (e :: items) :: data)) =
        implicitOccurrences items ++ implicitOccurrences (furtherKeys data) := by
      simp [implicitOccurrences, furtherKeys, Value.items]
    rw [hall, hfurther]
    refine ⟨.cons _ ?_, .cons_cons _ (ih.2.trans (List.sublist_append_right ..))⟩
    refine (ih.1.append_left _).trans ?_
    rw [List.append_eq, ← List.append_assoc, ← List.append_assoc]
    exact List.perm_append_comm.append_right _

omit p in
theorem covers_implicit_iff {own : Store (Value A)} {data : List (Value A)}
    {filters entries : List (Text × Ref (Value A))}
    (h : data.mapM implicitFilter = .ok filters) (hm : Merged own filters entries) :
    Covers own ((implicitOccurrences (data.flatMap Value.items)).map underFilter)
        (entries.map fun f => (.filter f.1, f.2.read own)) ↔
      ∀ e ∈ furtherKeys data, e.2.asList.read own = [] ∧ e.1 ∈ filters.map Prod.fst := by
  obtain ⟨hperm, hsub⟩ := perm_implicit h
  have hkeys : ∀ n, n ∈ (implicitOccurrences (data.flatMap Value.items)).map Prod.fst ↔
      n ∈ filters.map Prod.fst ∨ ∃ e ∈ furtherKeys data, e.1 = n := by
    intro n
    rw [(hperm.map Prod.fst).mem_iff, List.map_append, List.mem_append]
    simp [implicitOccurrences]
  have hheadings : ∀ ops : List (Text × Ref (Value A)), ∀ n,
      Heading.filter n ∈ (ops.map underFilter).map Prod.fst ↔ n ∈ ops.map Prod.fst := by
    intro ops n
    simp [underFilter]
  have hcollected : ∀ n, collected own n filters =
      collected own n (implicitOccurrences (data.flatMap Value.items)) ↔
        ∀ e ∈ furtherKeys data, e.1 = n → e.2.asList.read own = [] := by
    intro n
    rw [collected_eq_iff hperm hsub]
    exact List.forall_mem_map
  have hbase := covers_of_merged hm
  constructor
  · rintro ⟨-, hcomplete, hmerged⟩ e he
    have hmem : e.1 ∈ filters.map Prod.fst := by
      rw [← hheadings, ← hbase.complete, hcomplete, hheadings, hkeys]
      exact .inr ⟨e, he, rfl⟩
    refine ⟨?_, hmem⟩
    obtain ⟨f, hf, hn⟩ := List.mem_map.mp ((hm.keys e.1).mpr hmem)
    have hall := hmerged _ (List.mem_map_of_mem hf)
    rw [underFilter_collected, hm.gathered f hf] at hall
    exact (hcollected f.1).mp hall e he hn.symm
  · intro hextra
    refine ⟨hbase.once, fun g => ?_, fun l hl => ?_⟩
    · rw [hbase.complete]
      cases g with
      | key k => simp [underFilter]
      | filter n =>
        rw [hheadings, hheadings, hkeys]
        exact ⟨.inl, fun hn => hn.elim id fun ⟨e, he, hn⟩ => hn ▸ (hextra e he).2⟩
    · obtain ⟨f, hf, rfl⟩ := List.mem_map.mp hl
      rw [hbase.merged _ hl]
      simp only [underFilter_collected]
      exact (hcollected f.1).mpr fun e he _ => (hextra e he).1

theorem mapM_of_formOf {own : Store (Value A)} {data : List (Value A)}
    {filters : List (Text × Ref (Value A))} (h : p.formOf own data = .ok (.implicit filters)) :
    data.mapM implicitFilter = .ok filters := by
  unfold formOf at h
  split at h
  · cases h
  · obtain ⟨b, -, h⟩ := bind_eq_ok.mp h
    split at h
    · obtain ⟨filters', hf, h⟩ := bind_eq_ok.mp h
      rw [hf, Form.implicit.inj (pure_eq_ok.mp h)]
    · split at h
      · obtain ⟨items, -, h⟩ := bind_eq_ok.mp h
        cases h
      · split at h <;> cases h
  · cases h

/-! ## Every query -/

/-- **Parsing is pure and merges repeated keys exactly when nothing is added to the policy.** -/
theorem parse_meets_iff (own : Store (Value A)) (query : Value A) :
    p.Meets own query ↔
      ((∃ out, p.parse own query = .ok out) → p.QuietQuery own (query.asList.read own)) := by
  suffices ∀ out, p.parse own query = .ok out →
      (p.Good own query out ↔ p.QuietQuery own (query.asList.read own)) by
    constructor
    · rintro h ⟨out, hout⟩
      exact (this out hout).mp (h out hout)
    · exact fun h out hout => (this out hout).mpr (h ⟨out, hout⟩)
  intro out hparse
  obtain ⟨form, hform, h⟩ : ∃ form, p.formOf own (query.asList.read own) = .ok form ∧
      p.parseForm own form = .ok out := by
    unfold parse at hparse
    split at hparse
    · exact bind_eq_ok.mp hparse
    · cases hparse
  cases form with
  | items data =>
    rw [p.good_items_iff hform hparse h, QuietQuery, hform]
  | filters data =>
    obtain ⟨st, hst, hout⟩ := bind_eq_ok.mp h
    obtain ⟨rfl, htyped⟩ := p.parseFilterList_spec hst
    obtain rfl := pure_eq_ok.mp hout
    have hocc : p.occurrences own (query.asList.read own) =
        (data.filterMap named).map underFilter := by
      rw [occurrences, hform]
    rw [p.good_filters_iff True hparse htyped, QuietQuery, hform, and_true]
    intro hq
    rw [hocc]
    exact iff_of_true (covers_of_merged (merged_mergeAll hq)) trivial
  | implicit filters =>
    obtain ⟨st, hst, hout⟩ := bind_eq_ok.mp h
    obtain ⟨rfl, htyped⟩ := p.foldlM_addFilter hst
    obtain rfl := pure_eq_ok.mp hout
    have hocc : p.occurrences own (query.asList.read own) =
        (implicitOccurrences ((query.asList.read own).flatMap Value.items)).map underFilter := by
      rw [occurrences, hform, implicitOccurrences, List.map_map]
      rfl
    rw [p.good_filters_iff _ hparse htyped, QuietQuery, hform]
    intro hq
    rw [hocc]
    exact covers_implicit_iff (p.mapM_of_formOf hform) (merged_mergeAll hq)

end Parser

/-! ## A policy that grows -/

/-- `int` as the type of a value: a boolean is one too. -/
def VType.int : VType A :=
  .cls fun
    | .int _ => true
    | .bool _ => true
    | _ => false

/-- `EC2QueryParser` with two of its filters. -/
def ec2 : Parser Unit where
  typeName := "EC2".toList
  filters := some fun k =>
    if k = "tag-key".toList then some .str
    else if k = "tenancy".toList then
      some (.oneOf ["dedicated".toList, "default".toList, "host".toList])
    else none
  params k :=
    if k = "InstanceIds".toList then some .str
    else if k = "MaxResults".toList then some .int
    else none
  multiValue := true
  singleValueFields k := k = "MaxResults".toList
  parseDate _ := false
  truthy _ := true

/-- A filter of a query. -/
def tenancyFilter (l : Nat) : Value Unit :=
  .dict [("Name".toList, .scalar (.text "tenancy".toList)), ("Values".toList, .list l)]

/-- `[{'Filters': [{'Name': 'tenancy', 'Values': ['host']},
{'Name': 'tenancy', 'Values': ['default']}]}]` -/
def twoTenancies : Store (Value Unit)
  | 0 => [.dict [("Filters".toList, .list 1)]]
  | 1 => [tenancyFilter 2, tenancyFilter 3]
  | 2 => [.scalar (.text "host".toList)]
  | 3 => [.scalar (.text "default".toList)]
  | _ => []

/-- The query is accepted, its first list of values is extended, and it is not parsed as it should
be. -/
theorem values_of_policy_extended :
    (∃ out, ec2.parse twoTenancies (.list 0) = .ok out ∧
      out.2 2 = [.scalar (.text "host".toList), .scalar (.text "default".toList)]) ∧
      ¬ec2.Meets twoTenancies (.list 0) := by
  have hout : ∃ out, ec2.parse twoTenancies (.list 0) = .ok out ∧
      out.2 2 = [.scalar (.text "host".toList), .scalar (.text "default".toList)] :=
    ⟨_, rfl, rfl⟩
  refine ⟨hout, fun hmeets => ?_⟩
  obtain ⟨out, hparse, htwo⟩ := hout
  rw [(hmeets out hparse).unchanged] at htwo
  simp [twoTenancies] at htwo

end Custodian.QueryParser

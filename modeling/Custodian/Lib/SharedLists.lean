import Custodian.Lib.Items
import Mathlib.Data.List.Flatten
import Mathlib.Data.List.Infix
import Mathlib.Data.List.Perm.Basic
import Mathlib.Logic.Function.Basic

/-!
# Lists that may be shared with the caller

A function that stores a list of its argument and extends it later writes into the argument.
The caller's lists are read at addresses; a list that the function has built is only its own.
-/

namespace Py

variable {V κ β σ : Type}

/-- The contents of the caller's lists. -/
abbrev Store (V : Type) := Nat → List V

/-- A list: one of the caller's or a new one. -/
inductive Ref (V : Type) where
  | own (address : Nat)
  | fresh (xs : List V)

namespace Ref

def read (s : Store V) : Ref V → List V
  | own l => s l
  | fresh xs => xs

/-- `r.extend(xs)` -/
def extend (r : Ref V) (xs : List V) (s : Store V) : Ref V × Store V :=
  match r with
  | own l => (own l, Function.update s l (s l ++ xs))
  | fresh ys => (fresh (ys ++ xs), s)

end Ref

/-- Every list has only got longer. -/
def Grows (s t : Store V) : Prop := ∀ l, s l <+: t l

theorem Grows.refl (s : Store V) : Grows s s := fun _ => List.prefix_rfl

theorem Grows.trans {s t u : Store V} (h : Grows s t) (h' : Grows t u) : Grows s u :=
  fun l => (h l).trans (h' l)

theorem Grows.antisymm {s t : Store V} (h : Grows s t) (h' : Grows t s) : s = t :=
  funext fun l => (h l).eq_of_length ((h l).length_le.antisymm (h' l).length_le)

theorem Grows.read {s t : Store V} (h : Grows s t) (r : Ref V) : r.read s <+: r.read t := by
  cases r with
  | own l => exact h l
  | fresh xs => exact List.prefix_rfl

theorem grows_extend (r : Ref V) (xs : List V) (s : Store V) : Grows s (r.extend xs s).2 := by
  cases r with
  | fresh ys => exact .refl s
  | own l =>
    intro l'
    by_cases hl : l' = l
    · subst hl
      simp [Ref.extend]
    · simp [Ref.extend, hl]

theorem read_extend (r : Ref V) (xs : List V) (s : Store V) :
    (r.extend xs s).1.read (r.extend xs s).2 = r.read s ++ xs := by
  cases r <;> simp [Ref.extend, Ref.read]

theorem extend_nil (r : Ref V) (s : Store V) : r.extend [] s = (r, s) := by
  cases r <;> simp [Ref.extend]

theorem extend_extend (r : Ref V) (xs ys : List V) (s : Store V) :
    (r.extend xs s).1.extend ys (r.extend xs s).2 = r.extend (xs ++ ys) s := by
  cases r <;> simp [Ref.extend]

theorem read_extend_other {r r' : Ref V} (h : ∀ l, r = .own l → r' ≠ .own l) (xs : List V)
    (s : Store V) : r'.read (r.extend xs s).2 = r'.read s := by
  cases r with
  | fresh ys => rfl
  | own l =>
    cases r' with
    | fresh ys => rfl
    | own l' =>
      have hne : l' ≠ l := fun he => h l rfl (congrArg Ref.own he)
      simp [Ref.extend, Ref.read, hne]

theorem extend_store_eq_iff {r : Ref V} {xs : List V} {s : Store V} :
    (r.extend xs s).2 = s ↔ ∀ l, r = .own l → xs = [] := by
  cases r with
  | fresh ys => simp [Ref.extend]
  | own l =>
    constructor
    · intro h l' _
      have hl := congrFun h l
      simpa [Ref.extend] using hl
    · intro h
      simp [Ref.extend, h l rfl]

theorem extend_eq_own_iff {r : Ref V} {xs : List V} {s : Store V} {l : Nat} :
    (r.extend xs s).1 = .own l ↔ r = .own l := by
  cases r <;> simp [Ref.extend]

variable [DecidableEq κ]

/-! ## Entries with a key -/

/-- `for e in es: if e.key == k: f(e.value)` -/
def updateKey (k : κ) (f : β → σ → β × σ) : List (κ × β) → σ → List (κ × β) × σ
  | [], s => ([], s)
  | e :: es, s =>
    if e.1 = k then
      let (b, s') := f e.2 s
      let (es', s'') := updateKey k f es s'
      ((k, b) :: es', s'')
    else
      let (es', s') := updateKey k f es s
      (e :: es', s')

theorem updateKey_of_notMem {k : κ} (f : β → σ → β × σ) {es : List (κ × β)}
    (h : k ∉ es.map Prod.fst) (s : σ) : updateKey k f es s = (es, s) := by
  induction es with
  | nil => rfl
  | cons e es ih =>
    rw [List.map_cons, List.mem_cons, not_or] at h
    rw [updateKey, if_neg (Ne.symm h.1), ih h.2]

theorem updateKey_append {k : κ} (f : β → σ → β × σ) {es es' : List (κ × β)} {b : β}
    (h : ((es ++ (k, b) :: es').map Prod.fst).Nodup) (s : σ) :
    updateKey k f (es ++ (k, b) :: es') s = (es ++ (k, (f b s).1) :: es', (f b s).2) := by
  induction es with
  | nil =>
    rw [List.nil_append, List.map_cons, List.nodup_cons] at h
    simp only [List.nil_append, updateKey, if_true]
    rw [updateKey_of_notMem f h.1]
  | cons e es ih =>
    rw [List.cons_append, List.map_cons, List.nodup_cons] at h
    have he : e.1 ≠ k := by
      rintro rfl
      exact h.1 (List.mem_map.mpr ⟨(e.1, b), List.mem_append_cons_self, rfl⟩)
    rw [List.cons_append, updateKey, if_neg he, ih h.2]
    rfl

theorem map_fst_updateKey (k : κ) (f : β → σ → β × σ) (es : List (κ × β)) (s : σ) :
    (updateKey k f es s).1.map Prod.fst = es.map Prod.fst := by
  induction es generalizing s with
  | nil => rfl
  | cons e es ih =>
    rw [updateKey]
    split
    · rename_i he
      simp only [List.map_cons, ih, he]
    · simp only [List.map_cons, ih]

theorem updateKey_rel {k : κ} {f : β → σ → β × σ} {R : σ → σ → Prop} (hrefl : ∀ s, R s s)
    (htrans : ∀ s t u, R s t → R t u → R s u) (hf : ∀ b s, R s (f b s).2)
    (es : List (κ × β)) (s : σ) : R s (updateKey k f es s).2 := by
  induction es generalizing s with
  | nil => exact hrefl s
  | cons e es ih =>
    rw [updateKey]
    split
    · exact htrans _ _ _ (hf e.2 s) (ih _)
    · exact ih s

/-! ## The values of a key -/

/-- The lists of a key, one after the other. -/
def collected (s : Store V) (k : κ) (ops : List (κ × Ref V)) : List V :=
  ops.flatMap fun o => if o.1 = k then o.2.read s else []

theorem collected_append (s : Store V) (k : κ) (ops ops' : List (κ × Ref V)) :
    collected s k (ops ++ ops') = collected s k ops ++ collected s k ops' :=
  List.flatMap_append

theorem collected_singleton (s : Store V) (k : κ) (o : κ × Ref V) :
    collected s k [o] = if o.1 = k then o.2.read s else [] :=
  List.flatMap_singleton ..

theorem collected_of_notMem {s : Store V} {k : κ} {ops : List (κ × Ref V)}
    (h : k ∉ ops.map Prod.fst) : collected s k ops = [] := by
  rw [collected, List.flatMap_eq_nil_iff]
  intro o ho
  rw [if_neg]
  rintro rfl
  exact h (List.mem_map_of_mem ho)

theorem mem_collected {s : Store V} {k : κ} {ops : List (κ × Ref V)} {v : V} :
    v ∈ collected s k ops ↔ ∃ o ∈ ops, o.1 = k ∧ v ∈ o.2.read s := by
  rw [collected, List.mem_flatMap]
  refine exists_congr fun o => and_congr_right fun _ => ?_
  split
  · rename_i hk
    rw [and_iff_right hk]
  · rename_i hk
    simp [hk]

theorem collected_map {ι : Type} [DecidableEq ι] {f : κ → ι} (hf : Function.Injective f)
    (s : Store V) (k : κ) (ops : List (κ × Ref V)) :
    collected s (f k) (ops.map fun o => (f o.1, o.2)) = collected s k ops := by
  simp only [collected, List.flatMap_map, hf.eq_iff]

/-- What else is in a list adds nothing to a key exactly when the key has only empty lists there. -/
theorem collected_eq_iff {s : Store V} {k : κ} {ops all extra : List (κ × Ref V)}
    (hperm : all.Perm (ops ++ extra)) (hsub : ops.Sublist all) :
    collected s k ops = collected s k all ↔ ∀ o ∈ extra, o.1 = k → o.2.read s = [] := by
  have hlength : (collected s k all).length = (collected s k ops).length + (collected s k extra).length := by
    rw [← List.length_append, ← collected_append]
    exact (hperm.flatMap_right _).length_eq
  have hnil : collected s k extra = [] ↔ ∀ o ∈ extra, o.1 = k → o.2.read s = [] := by
    rw [collected, List.flatMap_eq_nil_iff]
    exact forall₂_congr fun o _ => ite_eq_right_iff
  rw [← hnil]
  constructor
  · intro h
    rw [h] at hlength
    exact List.eq_nil_of_length_eq_zero (by omega)
  · intro h
    refine (hsub.flatMap _).eq_of_length ?_
    rw [h] at hlength
    exact hlength.symm

/-! ## Merging -/

/-- The first list of a key is stored; later ones are added to it. -/
def mergeStep (st : List (κ × Ref V) × Store V) (o : κ × Ref V) :
    List (κ × Ref V) × Store V :=
  if o.1 ∈ st.1.map Prod.fst then
    updateKey o.1 (fun r s => r.extend (o.2.read s) s) st.1 st.2
  else (st.1 ++ [o], st.2)

def mergeAll (s : Store V) (ops : List (κ × Ref V)) : List (κ × Ref V) × Store V :=
  ops.foldl mergeStep ([], s)

/-- When the first list of a key is the caller's, the later ones are empty. -/
def Quiet (s : Store V) (ops : List (κ × Ref V)) : Prop :=
  ∀ pre o post, ops = pre ++ o :: post → ∀ l, pre.lookup o.1 = some (.own l) → o.2.read s = []

/-- One entry for each key, with the lists of the key one after the other. -/
structure Merged (s : Store V) (ops results : List (κ × Ref V)) : Prop where
  nodup : (results.map Prod.fst).Nodup
  keys : ∀ k, k ∈ results.map Prod.fst ↔ k ∈ ops.map Prod.fst
  gathered : ∀ e ∈ results, e.2.read s = collected s e.1 ops
  /-- An entry has one of the caller's lists if that is the first one of its key. -/
  first : ∀ e ∈ results, ∀ l, e.2 = .own l ↔ ops.lookup e.1 = some (.own l)

theorem mergeAll_concat (s : Store V) (ops : List (κ × Ref V)) (o : κ × Ref V) :
    mergeAll s (ops ++ [o]) = mergeStep (mergeAll s ops) o := by
  rw [mergeAll, List.foldl_append]
  rfl

theorem grows_mergeStep (st : List (κ × Ref V) × Store V) (o : κ × Ref V) :
    Grows st.2 (mergeStep st o).2 := by
  rw [mergeStep]
  split
  · exact updateKey_rel Grows.refl (fun _ _ _ => Grows.trans) (fun r s => grows_extend r _ s) _ _
  · exact .refl _

theorem grows_mergeAll (s : Store V) (ops : List (κ × Ref V)) : Grows s (mergeAll s ops).2 := by
  induction ops using List.reverseRecOn with
  | nil => exact .refl s
  | append_singleton ops o ih =>
    rw [mergeAll_concat]
    exact ih.trans (grows_mergeStep _ o)

theorem quiet_nil (s : Store V) : Quiet s ([] : List (κ × Ref V)) := by
  intro pre o post he
  cases pre <;> cases he

theorem quiet_concat {s : Store V} {ops : List (κ × Ref V)} {o : κ × Ref V} :
    Quiet s (ops ++ [o]) ↔
      Quiet s ops ∧ ∀ l, ops.lookup o.1 = some (.own l) → o.2.read s = [] := by
  constructor
  · intro h
    refine ⟨fun pre o' post he => h pre o' (post ++ [o]) ?_, h ops o [] rfl⟩
    rw [he, List.append_assoc, List.cons_append]
  · rintro ⟨h, ho⟩ pre o' post he
    rcases List.eq_nil_or_concat post with rfl | ⟨post, o'', rfl⟩
    · obtain ⟨rfl, hlast⟩ := List.append_inj' he rfl
      obtain rfl := List.singleton_inj.mp hlast
      exact ho
    · rw [List.concat_eq_append, ← List.cons_append, ← List.append_assoc] at he
      exact h pre o' post (List.append_inj' he rfl).1

theorem lookup_concat (k : κ) (ops : List (κ × β)) (o : κ × β) :
    (ops ++ [o]).lookup k = (ops.lookup k).or (if o.1 = k then some o.2 else none) := by
  induction ops with
  | nil =>
    rw [List.nil_append, Items.lookup_cons]
    by_cases hk : k = o.1
    · simp [hk]
    · simp [hk, Ne.symm hk]
  | cons e ops ih =>
    rw [List.cons_append, Items.lookup_cons, Items.lookup_cons, ih]
    split <;> simp

theorem Merged.lookup_eq_none {s : Store V} {ops results : List (κ × Ref V)}
    (h : Merged s ops results) {k : κ} (hk : k ∉ results.map Prod.fst) : ops.lookup k = none :=
  Items.lookup_eq_none.mpr (mt (h.keys k).mpr hk)

theorem Merged.concat_new {s : Store V} {ops results : List (κ × Ref V)}
    (h : Merged s ops results) {o : κ × Ref V} (ho : o.1 ∉ results.map Prod.fst) :
    Merged s (ops ++ [o]) (results ++ [o]) := by
  have hops : o.1 ∉ ops.map Prod.fst := mt (h.keys o.1).mpr ho
  refine ⟨?_, fun k => ?_, fun e he => ?_, fun e he l => ?_⟩
  · rw [List.map_append]
    exact h.nodup.append (List.nodup_singleton _) (List.disjoint_singleton.mpr ho)
  · simp only [List.map_append, List.mem_append, h.keys k]
  · rw [collected_append, collected_singleton]
    rcases List.mem_append.mp he with he | he
    · have hne : o.1 ≠ e.1 := fun hk => ho (hk ▸ List.mem_map_of_mem he)
      rw [if_neg hne, List.append_nil, h.gathered e he]
    · obtain rfl := List.mem_singleton.mp he
      rw [if_pos rfl, collected_of_notMem hops, List.nil_append]
  · rw [lookup_concat]
    rcases List.mem_append.mp he with he | he
    · obtain ⟨r, hr⟩ := Items.exists_lookup ((h.keys e.1).mp (List.mem_map_of_mem he))
      rw [h.first e he l, hr, Option.some_or]
    · obtain rfl := List.mem_singleton.mp he
      rw [h.lookup_eq_none ho, Option.none_or, if_pos rfl, Option.some.injEq]

theorem Merged.concat_old {s : Store V} {ops es es' : List (κ × Ref V)} {o : κ × Ref V}
    {r r' : Ref V} (h : Merged s ops (es ++ (o.1, r) :: es'))
    (hread : r'.read s = r.read s ++ o.2.read s) (hown : ∀ l, r' = .own l ↔ r = .own l) :
    Merged s (ops ++ [o]) (es ++ (o.1, r') :: es') := by
  have hmap : (es ++ (o.1, r') :: es').map Prod.fst = (es ++ (o.1, r) :: es').map Prod.fst := by
    simp
  have hother : ∀ e ∈ es ++ es', e.1 ≠ o.1 := by
    have hnd := h.nodup
    rw [List.map_append, List.map_cons, List.nodup_middle, List.nodup_cons, ← List.map_append]
      at hnd
    exact fun e he hk => hnd.1 (hk ▸ List.mem_map_of_mem he)
  have hcases : ∀ e ∈ es ++ (o.1, r') :: es', e = (o.1, r') ∨
      e.1 ≠ o.1 ∧ e ∈ es ++ (o.1, r) :: es' := by
    intro e he
    rcases List.mem_append.mp he with he | he
    · exact .inr ⟨hother e (List.mem_append_left _ he), List.mem_append_left _ he⟩
    · rcases List.mem_cons.mp he with rfl | he
      · exact .inl rfl
      · exact .inr ⟨hother e (List.mem_append_right _ he),
          List.mem_append_right _ (List.mem_cons_of_mem _ he)⟩
  have hself : (o.1, r) ∈ es ++ (o.1, r) :: es' := List.mem_append_cons_self
  have hfound : ∀ k ∈ (es ++ (o.1, r) :: es').map Prod.fst,
      (ops ++ [o]).lookup k = ops.lookup k := by
    intro k hk
    obtain ⟨r, hr⟩ := Items.exists_lookup ((h.keys k).mp hk)
    rw [lookup_concat, hr, Option.some_or]
  refine ⟨hmap ▸ h.nodup, fun k => ?_, fun e he => ?_, fun e he l => ?_⟩
  · rw [hmap, h.keys k, List.map_append, List.mem_append, List.map_singleton, List.mem_singleton]
    refine ⟨.inl, fun hk => hk.elim id ?_⟩
    rintro rfl
    exact (h.keys o.1).mp (List.mem_map.mpr ⟨_, hself, rfl⟩)
  · rw [collected_append, collected_singleton]
    rcases hcases e he with rfl | ⟨hne, he⟩
    · rw [if_pos rfl, hread, h.gathered _ hself]
    · rw [if_neg hne.symm, List.append_nil, h.gathered e he]
  · rw [hfound e.1 (hmap ▸ List.mem_map_of_mem he)]
    rcases hcases e he with rfl | ⟨-, he⟩
    · rw [hown l]
      exact h.first _ hself l
    · exact h.first e he l

/-- One merge leaves the caller's lists as they are exactly when it is quiet. -/
theorem mergeStep_spec {s : Store V} {ops results : List (κ × Ref V)} (h : Merged s ops results)
    (o : κ × Ref V) :
    ((mergeStep (results, s) o).2 = s ↔
        ∀ l, ops.lookup o.1 = some (.own l) → o.2.read s = []) ∧
      ((mergeStep (results, s) o).2 = s →
        Merged s (ops ++ [o]) (mergeStep (results, s) o).1) := by
  rw [mergeStep]
  by_cases ho : o.1 ∈ results.map Prod.fst
  · obtain ⟨⟨k, r⟩, he, rfl⟩ := List.mem_map.mp ho
    obtain ⟨es, es', rfl⟩ := List.append_of_mem he
    rw [if_pos ho, updateKey_append _ h.nodup]
    have hfirst : ∀ l, r = .own l ↔ ops.lookup o.1 = some (.own l) :=
      h.first _ he
    have hread := read_extend r (o.2.read s) s
    constructor
    · rw [extend_store_eq_iff]
      exact forall_congr' fun l => by rw [hfirst l]
    · intro hs
      simp only at hs
      rw [hs] at hread
      exact h.concat_old hread fun l => extend_eq_own_iff
  · rw [if_neg ho]
    refine ⟨?_, fun _ => h.concat_new ho⟩
    simp [h.lookup_eq_none ho]

theorem mergeAll_spec (s : Store V) (ops : List (κ × Ref V)) :
    ((mergeAll s ops).2 = s ↔ Quiet s ops) ∧
      ((mergeAll s ops).2 = s → Merged s ops (mergeAll s ops).1) := by
  induction ops using List.reverseRecOn with
  | nil =>
    refine ⟨⟨fun _ => quiet_nil s, fun _ => rfl⟩, fun _ => ⟨List.nodup_nil, ?_, ?_, ?_⟩⟩
    · exact fun k => Iff.rfl
    · exact fun e he => absurd he List.not_mem_nil
    · exact fun e he => absurd he List.not_mem_nil
  | append_singleton ops o ih =>
    rw [mergeAll_concat, quiet_concat, ← ih.1]
    have hgrows := grows_mergeStep (mergeAll s ops) o
    have hold : (mergeStep (mergeAll s ops) o).2 = s → (mergeAll s ops).2 = s := fun h =>
      Grows.antisymm (h.subst (motive := Grows _) hgrows) (grows_mergeAll s ops)
    by_cases hs : (mergeAll s ops).2 = s
    · have hpair : mergeAll s ops = ((mergeAll s ops).1, s) := Prod.ext rfl hs
      obtain ⟨hstep, hmerged⟩ := mergeStep_spec (ih.2 hs) o
      rw [hpair]
      exact ⟨hstep.trans (and_iff_right rfl).symm, hmerged⟩
    · exact ⟨⟨fun h => absurd (hold h) hs, fun h => absurd h.1 hs⟩, fun h => absurd (hold h) hs⟩

/-- **Merging leaves the caller's lists as they are exactly when it is quiet.** -/
theorem mergeAll_store_eq_iff {s : Store V} {ops : List (κ × Ref V)} :
    (mergeAll s ops).2 = s ↔ Quiet s ops :=
  (mergeAll_spec s ops).1

theorem merged_mergeAll {s : Store V} {ops : List (κ × Ref V)} (h : Quiet s ops) :
    Merged s ops (mergeAll s ops).1 :=
  (mergeAll_spec s ops).2 (mergeAll_store_eq_iff.mpr h)

end Py

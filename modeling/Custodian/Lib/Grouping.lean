import Custodian.Lib.Updates

/-!
# Grouping by a key

The dictionary that collects the values of a list under the keys of its elements.
-/

namespace Py.Items

variable {κ ν α : Type} [DecidableEq κ] {key : α → κ} {val : α → ν}

/-- `for x in l: d.setdefault(key(x), []).append(val(x))` -/
def groupOn (key : α → κ) (val : α → ν) (l : List α) : List (κ × List ν) :=
  updates key (fun group x => group.getD [] ++ [val x]) [] l

theorem update_getD {g : ν → α → ν} {init : ν} (o : Option ν) {l : List α} (hl : l ≠ []) :
    update (fun o x => g (o.getD init) x) o l = some (l.foldl g (o.getD init)) := by
  induction l generalizing o with
  | nil => exact absurd rfl hl
  | cons x l ih =>
    rw [update, List.foldl_cons, ← update, List.foldl_cons]
    cases l with
    | nil => rfl
    | cons y l => exact ih _ (by simp)

theorem foldl_append_map (vs : List ν) (l : List α) :
    l.foldl (fun group x => group ++ [val x]) vs = vs ++ l.map val := by
  induction l generalizing vs with
  | nil => simp
  | cons x l ih => simp [ih]

theorem get_groupOn (l : List α) (k : κ) :
    get k (groupOn key val l) =
      if l.filter (fun x => key x = k) = [] then none
      else some ((l.filter fun x => key x = k).map val) := by
  rw [groupOn, get_updates]
  split
  · rename_i hnil
    rw [hnil]
    rfl
  · rename_i hne
    rw [update_getD (g := fun group x => group ++ [val x]) _ hne, foldl_append_map]
    rfl

theorem keys_nodup_groupOn (l : List α) : ((groupOn key val l).map Prod.fst).Nodup :=
  keys_nodup_updates (d := []) List.nodup_nil l

theorem mem_keys_groupOn {l : List α} {k : κ} :
    k ∈ (groupOn key val l).map Prod.fst ↔ ∃ x ∈ l, key x = k := by
  rw [groupOn, mem_keys_updates]
  simp

/-- **Groups.**  A group has the values of all elements with its key. -/
theorem mem_groupOn {l : List α} {k : κ} {vs : List ν} :
    (k, vs) ∈ groupOn key val l ↔
      l.filter (fun x => key x = k) ≠ [] ∧ vs = (l.filter fun x => key x = k).map val := by
  rw [mem_iff_lookup (keys_nodup_groupOn l), ← get, get_groupOn]
  split
  · rename_i hnil
    simp [hnil]
  · rename_i hne
    rw [Option.some.injEq, eq_comm]
    exact ⟨fun h => ⟨hne, h⟩, And.right⟩

theorem mem_group_iff {l : List α} {k : κ} {vs : List ν} (h : (k, vs) ∈ groupOn key val l) {v : ν} :
    v ∈ vs ↔ ∃ x ∈ l, key x = k ∧ val x = v := by
  rw [(mem_groupOn.mp h).2]
  simp [and_assoc]

/-- **Order.**  The keys are the same, up to order, whatever the order of the list. -/
theorem perm_keys_groupOn {l l' : List α} (h : l.Perm l') :
    ((groupOn key val l).map Prod.fst).Perm ((groupOn key val l').map Prod.fst) := by
  rw [List.perm_ext_iff_of_nodup (keys_nodup_groupOn l) (keys_nodup_groupOn l')]
  intro k
  rw [mem_keys_groupOn, mem_keys_groupOn]
  exact exists_congr fun x => and_congr_left' h.mem_iff

theorem groupOn_eq_map (l : List α) :
    groupOn key val l = ((groupOn key val l).map Prod.fst).map fun k =>
      (k, (l.filter fun x => key x = k).map val) := by
  rw [List.map_map]
  conv_lhs => rw [← List.map_id (groupOn key val l)]
  refine List.map_congr_left fun e he => ?_
  obtain ⟨k, vs⟩ := e
  exact Prod.ext rfl (mem_groupOn.mp he).2

theorem perm_map_groupOn {β : Type} {f : κ × List ν → β}
    (hf : ∀ k vs vs', vs.Perm vs' → f (k, vs) = f (k, vs')) {l l' : List α} (h : l.Perm l') :
    ((groupOn key val l).map f).Perm ((groupOn key val l').map f) := by
  have hmap (l : List α) : (groupOn key val l).map f = ((groupOn key val l).map Prod.fst).map
      fun k => f (k, (l.filter fun x => key x = k).map val) :=
    (congrArg (List.map f) (groupOn_eq_map l)).trans List.map_map
  rw [hmap l, hmap l', List.map_congr_left fun k _ => hf k _ _ ((h.filter _).map val)]
  exact (perm_keys_groupOn h).map _

/-- The groups whose keys satisfy `p` have the values of the elements whose keys do. -/
theorem perm_flatMap_groupOn (p : κ → Bool) (l : List α) :
    (((groupOn key val l).filter fun g => p g.1).flatMap Prod.snd).Perm
      ((l.filter fun x => p (key x)).map val) := by
  have hgroups : ((groupOn key val l).filter fun g => p g.1).flatMap Prod.snd =
      ((((groupOn key val l).map Prod.fst).filter p).flatMap fun k =>
        (l.filter fun x => p (key x)).filter fun x => key x = k).map val := by
    conv_lhs => rw [groupOn_eq_map, List.filter_map, List.flatMap_map]
    rw [List.map_flatMap]
    refine List.flatMap_congr fun k hk => congrArg (List.map val) ?_
    rw [List.filter_filter]
    refine List.filter_congr fun x _ => ?_
    have hp : p k = true := (List.mem_filter.mp hk).2
    by_cases hx : key x = k
    · simp [hx, hp]
    · simp [hx]
  rw [hgroups]
  refine (perm_flatMap_filter key ((keys_nodup_groupOn l).filter p) fun x hx => ?_).map val
  rw [List.mem_filter] at hx ⊢
  exact ⟨mem_keys_groupOn.mpr ⟨x, hx.1, rfl⟩, hx.2⟩

end Py.Items

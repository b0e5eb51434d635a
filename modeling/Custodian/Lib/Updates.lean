import Custodian.Lib.Items

/-!
# Dictionaries that a loop updates

A loop over a list writes, for each element, what a function makes of the value under the element's
key and of the element.  At each key it is a loop over the elements with that key.
-/

namespace Py.Items

variable {κ ν α : Type} [DecidableEq κ]

/-! ## Equal dictionaries -/

theorem keys_set_of_mem {k : κ} {v : ν} {d : List (κ × ν)} (h : k ∈ d.map Prod.fst) :
    (set k v d).map Prod.fst = d.map Prod.fst := by
  induction d with
  | nil => cases h
  | cons e d ih =>
    rw [set]
    split
    · rename_i he
      simp [he]
    · rename_i he
      have hd : k ∈ d.map Prod.fst := (List.mem_cons.mp h).resolve_left (Ne.symm he)
      rw [List.map_cons, List.map_cons, ih hd]

/-- Dictionaries with the same keys in the same order, and the same values. -/
theorem eq_of_get {d d' : List (κ × ν)} (hn : (d.map Prod.fst).Nodup)
    (hkeys : d'.map Prod.fst = d.map Prod.fst) (h : ∀ k, get k d' = get k d) : d' = d := by
  induction d generalizing d' with
  | nil => exact List.map_eq_nil_iff.mp hkeys
  | cons e d ih =>
    obtain ⟨e', d', rfl, he, htail⟩ := List.map_eq_cons_iff.mp hkeys
    rw [List.map_cons, List.nodup_cons] at hn
    have hvalue : e' = e := by
      have hget := h e.1
      rw [get, get, lookup_cons, lookup_cons, if_pos he.symm, if_pos rfl] at hget
      exact Prod.ext he (Option.some.inj hget)
    subst hvalue
    refine congrArg (e' :: ·) (ih hn.2 htail fun k => ?_)
    have hget := h k
    rw [get, get, lookup_cons, lookup_cons] at hget
    split at hget
    · rename_i hk
      subst hk
      rw [get, get, lookup_eq_none.mpr hn.1, lookup_eq_none.mpr (htail ▸ hn.1)]
    · exact hget

theorem set_of_not_mem {k : κ} {v : ν} {d : List (κ × ν)} (h : k ∉ d.map Prod.fst) :
    set k v d = d ++ [(k, v)] := by
  induction d with
  | nil => rfl
  | cons e d ih =>
    rw [List.map_cons, List.mem_cons, not_or] at h
    rw [set, if_neg (Ne.symm h.1), ih h.2, List.cons_append]

theorem ofList_eq_self {d : List (κ × ν)} (h : (d.map Prod.fst).Nodup) : ofList d = d := by
  induction d using List.reverseRecOn with
  | nil => rfl
  | append_singleton d e ih =>
    rw [List.map_append, List.map_singleton, List.nodup_append_comm, List.singleton_append,
      List.nodup_cons] at h
    rw [ofList_concat, ih h.2, set_of_not_mem h.1]

omit [DecidableEq κ] in
/-- Dictionaries with the same items whose keys come in the order of one list. -/
theorem eq_of_perm {names : List κ} (hn : names.Nodup) {d d' : List (κ × ν)}
    (hd : (d.map Prod.fst).Sublist names) (hd' : (d'.map Prod.fst).Sublist names)
    (h : d.Perm d') : d = d' := by
  induction names generalizing d d' with
  | nil =>
    rw [List.sublist_nil, List.map_eq_nil_iff] at hd hd'
    rw [hd, hd']
  | cons name names ih =>
    rw [List.nodup_cons] at hn
    have hkeys := h.map Prod.fst
    have hout : ∀ {l l' : List κ}, l.Perm l' → l.Sublist names → name ∈ l' → False :=
      fun hperm hl hname => hn.1 (hl.subset (hperm.mem_iff.mpr hname))
    rcases List.sublist_cons_iff.mp hd with hs | ⟨r, hr, hs⟩ <;>
      rcases List.sublist_cons_iff.mp hd' with hs' | ⟨r', hr', hs'⟩
    · exact ih hn.2 hs hs' h
    · exact absurd (hr' ▸ List.mem_cons_self) (hout hkeys hs)
    · exact absurd (hr ▸ List.mem_cons_self) (hout hkeys.symm hs')
    · obtain ⟨e, d, rfl, he, rfl⟩ := List.map_eq_cons_iff.mp hr
      obtain ⟨e', d', rfl, he', rfl⟩ := List.map_eq_cons_iff.mp hr'
      have hee : e = e' := by
        refine (List.mem_cons.mp (h.mem_iff.mp List.mem_cons_self)).resolve_right fun hmem => ?_
        exact hn.1 (hs'.subset (he ▸ List.mem_map_of_mem hmem))
      subst hee
      rw [ih hn.2 hs hs' ((List.perm_cons e).mp h)]

omit [DecidableEq κ] in
theorem map_values {name : ν → κ} {d : List (κ × ν)} (h : ∀ e ∈ d, name e.2 = e.1) :
    (d.map Prod.snd).map (fun v => (name v, v)) = d := by
  have hpair : ∀ e ∈ d, ((fun v => (name v, v)) ∘ Prod.snd) e = id e := fun e he =>
    Prod.ext (h e he) rfl
  rw [List.map_map, List.map_congr_left hpair, List.map_id]

theorem ofList_values {name : ν → κ} {d : List (κ × ν)} (hn : (d.map Prod.fst).Nodup)
    (h : ∀ e ∈ d, name e.2 = e.1) : ofList ((d.map Prod.snd).map fun v => (name v, v)) = d := by
  rw [map_values h, ofList_eq_self hn]

omit [DecidableEq κ] in
theorem eq_of_values {name : ν → κ} {d d' : List (κ × ν)} (h : ∀ e ∈ d, name e.2 = e.1)
    (h' : ∀ e ∈ d', name e.2 = e.1) (hv : d.map Prod.snd = d'.map Prod.snd) : d = d' := by
  rw [← map_values h, hv, map_values h']

theorem set_of_get {k : κ} {v : ν} {d : List (κ × ν)} (h : get k d = some v) : set k v d = d := by
  induction d with
  | nil => cases h
  | cons e d ih =>
    rw [get, lookup_cons] at h
    rw [set]
    split at h
    · rename_i hk
      rw [if_pos hk.symm, hk, ← Option.some.inj h]
    · rename_i hk
      rw [if_neg (Ne.symm hk), ih h]

/-- `del d[k]`, of a key that may be missing. -/
def erase (k : κ) (d : List (κ × ν)) : List (κ × ν) := d.filter fun e => e.1 ≠ k

theorem get_erase (k k' : κ) (d : List (κ × ν)) :
    get k' (erase k d) = if k' = k then none else get k' d := by
  induction d with
  | nil => simp [erase, get]
  | cons e d ih =>
    rw [get, erase] at ih
    rw [erase, get, get, List.filter_cons]
    by_cases he : e.1 = k
    · rw [if_neg (by simpa using he), ih, lookup_cons, he]
      split <;> rfl
    · rw [if_pos (by simpa using he), lookup_cons, lookup_cons, ih]
      by_cases hk : k' = e.1
      · rw [if_pos hk, if_pos hk, if_neg (hk ▸ he)]
      · rw [if_neg hk, if_neg hk]
        rfl

theorem filter_key_of_nodup {key : α → κ} {l : List α} (h : (l.map key).Nodup)
    {x : α} (hx : x ∈ l) : l.filter (fun y => key y = key x) = [x] := by
  induction l with
  | nil => cases hx
  | cons y l ih =>
    rw [List.map_cons, List.nodup_cons] at h
    rcases List.mem_cons.mp hx with rfl | hx
    · have hnil : l.filter (fun y => key y = key x) = [] := by
        refine List.filter_eq_nil_iff.mpr fun y hy => ?_
        rw [decide_eq_true_eq]
        exact fun hkey => h.1 (hkey ▸ List.mem_map_of_mem hy)
      rw [List.filter_cons_of_pos (by simp), hnil]
    · have hne : key y ≠ key x := fun hkey => h.1 (hkey ▸ List.mem_map_of_mem hx)
      rw [List.filter_cons_of_neg (by simpa using hne), ih h.2 hx]

/-- Elements that are collected for each of the distinct keys that they have. -/
theorem perm_flatMap_filter (key : α → κ) {ks : List κ} (hn : ks.Nodup) {l : List α}
    (h : ∀ x ∈ l, key x ∈ ks) : (ks.flatMap fun k => l.filter fun x => key x = k).Perm l := by
  induction ks generalizing l with
  | nil => rw [List.eq_nil_iff_forall_not_mem.mpr fun x hx => List.not_mem_nil (h x hx)]; rfl
  | cons k ks ih =>
    rw [List.nodup_cons] at hn
    have hrest : ∀ x ∈ l.filter (fun x => !decide (key x = k)), key x ∈ ks := by
      intro x hx
      rw [List.mem_filter, Bool.not_eq_true', decide_eq_false_iff_not] at hx
      exact (List.mem_cons.mp (h x hx.1)).resolve_left hx.2
    have hks : ks.flatMap (fun k' => (l.filter fun x => !decide (key x = k)).filter
        fun x => key x = k') = ks.flatMap fun k' => l.filter fun x => key x = k' := by
      refine List.flatMap_congr fun k' hk' => ?_
      rw [List.filter_filter]
      refine List.filter_congr fun x _ => ?_
      have hne : k' ≠ k := fun he => hn.1 (he ▸ hk')
      by_cases hx : key x = k'
      · simp [hx, hne]
      · simp [hx]
    have hperm := ih hn.2 hrest
    rw [hks] at hperm
    rw [List.flatMap_cons]
    exact (hperm.append_left _).trans (List.filter_append_perm _ _)

/-! ## Loops -/

variable (key : α → κ) (f : Option ν → α → ν)

/-- `for x in l: d[key(x)] = f(d.get(key(x)), x)` -/
def updates (d : List (κ × ν)) (l : List α) : List (κ × ν) :=
  l.foldl (fun d x => set (key x) (f (get (key x) d) x) d) d

/-- What a loop makes of the value under one key. -/
def update (o : Option ν) (l : List α) : Option ν := l.foldl (fun o x => some (f o x)) o

variable {key f}

/-- **Each key by itself.** -/
theorem get_updates (d : List (κ × ν)) (l : List α) (k : κ) :
    get k (updates key f d l) = update f (get k d) (l.filter fun x => key x = k) := by
  induction l generalizing d with
  | nil => rfl
  | cons x l ih =>
    rw [updates, List.foldl_cons, ← updates, ih, get_set, List.filter_cons]
    by_cases hk : k = key x
    · subst hk
      simp [update]
    · simp [hk, Ne.symm hk]

theorem mem_keys_updates {d : List (κ × ν)} {l : List α} {k : κ} :
    k ∈ (updates key f d l).map Prod.fst ↔ k ∈ d.map Prod.fst ∨ ∃ x ∈ l, key x = k := by
  induction l generalizing d with
  | nil => simp [updates]
  | cons x l ih =>
    rw [updates, List.foldl_cons, ← updates, ih, mem_keys_set, List.exists_mem_cons_iff, or_comm
      (a := k = key x), or_assoc, eq_comm (a := k)]

theorem keys_nodup_updates {d : List (κ × ν)} (h : (d.map Prod.fst).Nodup) (l : List α) :
    ((updates key f d l).map Prod.fst).Nodup := by
  induction l generalizing d with
  | nil => exact h
  | cons x l ih => exact ih (keys_nodup_set h)

theorem keys_updates_of_mem {d : List (κ × ν)} {l : List α}
    (h : ∀ x ∈ l, key x ∈ d.map Prod.fst) :
    (updates key f d l).map Prod.fst = d.map Prod.fst := by
  induction l generalizing d with
  | nil => rfl
  | cons x l ih =>
    rw [List.forall_mem_cons] at h
    have hset := keys_set_of_mem (v := f (get (key x) d) x) h.1
    rw [updates, List.foldl_cons, ← updates, ih (by rw [hset]; exact h.2), hset]

theorem updates_eq_self_iff {d : List (κ × ν)} (hn : (d.map Prod.fst).Nodup) {l : List α}
    (h : ∀ x ∈ l, key x ∈ d.map Prod.fst) : updates key f d l = d ↔
      ∀ k, update f (get k d) (l.filter fun x => key x = k) = get k d := by
  simp only [← get_updates]
  exact ⟨fun he k => by rw [he], eq_of_get hn (keys_updates_of_mem h)⟩

theorem updates_append (d : List (κ × ν)) (l l' : List α) :
    updates key f d (l ++ l') = updates key f (updates key f d l) l' := List.foldl_append

theorem keyed_updates {name : ν → κ}
    (h : ∀ o x, (∀ v ∈ o, name v = key x) → name (f o x) = key x) {d : List (κ × ν)}
    (hd : ∀ e ∈ d, name e.2 = e.1) (l : List α) : ∀ e ∈ updates key f d l, name e.2 = e.1 := by
  induction l generalizing d with
  | nil => exact hd
  | cons x l ih =>
    refine ih fun e he => ?_
    rcases mem_set he with rfl | he
    · exact h _ x fun v hv => hd _ (mem_of_get hv)
    · exact hd e he

/-! ## Joins -/

theorem update_some_iff {P : ν → Prop} {Q : α → Prop} (h : ∀ v x, P (f (some v) x) ↔ P v ∨ Q x)
    (v : ν) (l : List α) : (∃ w ∈ update f (some v) l, P w) ↔ P v ∨ ∃ x ∈ l, Q x := by
  induction l generalizing v with
  | nil => simp [update]
  | cons x l ih =>
    rw [update, List.foldl_cons, ← update, ih, h, List.exists_mem_cons_iff, or_assoc]

theorem exists_update_iff {P : ν → Prop} {Q : α → Prop}
    (h : ∀ o x, P (f o x) ↔ (∃ v ∈ o, P v) ∨ Q x) (o : Option ν) (l : List α) :
    (∃ v ∈ update f o l, P v) ↔ (∃ v ∈ o, P v) ∨ ∃ x ∈ l, Q x := by
  have hsome : ∀ v x, P (f (some v) x) ↔ P v ∨ Q x := fun v x => by simp [h]
  cases o with
  | some v =>
    rw [update_some_iff hsome]
    simp
  | none =>
    cases l with
    | nil => simp [update]
    | cons x l =>
      rw [update, List.foldl_cons, ← update, update_some_iff hsome, h, List.exists_mem_cons_iff,
        or_assoc]

/-- **Joins.**  After the loop it holds of the value under a key when it did before, or holds of an
element with the key, in whatever order the elements come. -/
theorem exists_get_updates_iff {P : ν → Prop} {Q : α → Prop}
    (h : ∀ o x, P (f o x) ↔ (∃ v ∈ o, P v) ∨ Q x) (d : List (κ × ν)) (l : List α) (k : κ) :
    (∃ v ∈ get k (updates key f d l), P v) ↔
      (∃ v ∈ get k d, P v) ∨ ∃ x ∈ l, key x = k ∧ Q x := by
  rw [get_updates, exists_update_iff h]
  simp only [List.mem_filter, decide_eq_true_eq, and_assoc]

end Py.Items

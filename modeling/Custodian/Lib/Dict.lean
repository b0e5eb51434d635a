import Mathlib.Data.List.AList
import Mathlib.Data.List.Induction

/-!
# Dictionaries with distinct keys

A dictionary is an association list whose keys are distinct (`AList`).  Added
here: keeping and dropping the entries whose key satisfies a test, and the
agreement of two dictionaries on a set of keys.
-/

namespace Py

abbrev Dict (κ ν : Type) := AList fun _ : κ => ν

namespace Dict

variable {κ ν : Type}

/-- `{k: v for k, v in d.items() if p(k)}` -/
def keepKeys (p : κ → Bool) (d : Dict κ ν) : Dict κ ν :=
  ⟨d.entries.filter fun e => p e.1, d.nodupKeys.sublist List.filter_sublist⟩

/-- Delete every key that satisfies `p`. -/
def dropKeys (p : κ → Bool) (d : Dict κ ν) : Dict κ ν := d.keepKeys fun k => !p k

variable [DecidableEq κ]

/-- `d.update(e)`: the entries of `e` win. -/
def update (d e : Dict κ ν) : Dict κ ν := e ∪ d

theorem lookup_keepKeys (p : κ → Bool) (d : Dict κ ν) (k : κ) :
    (d.keepKeys p).lookup k = if p k then d.lookup k else none := by
  apply Option.ext
  intro v
  have hd : ∀ e : Dict κ ν, e.lookup k = some v ↔ (⟨k, v⟩ : Sigma fun _ : κ => ν) ∈ e.entries :=
    fun e => AList.mem_lookup_iff
  cases hp : p k <;> simp [hd, keepKeys, hp]

theorem lookup_dropKeys (p : κ → Bool) (d : Dict κ ν) (k : κ) :
    (d.dropKeys p).lookup k = if p k then none else d.lookup k := by
  rw [dropKeys, lookup_keepKeys]
  cases p k <;> simp

theorem lookup_update (d e : Dict κ ν) (k : κ) :
    (d.update e).lookup k = (e.lookup k).or (d.lookup k) := by
  rw [update]
  cases he : e.lookup k with
  | none =>
    have hk : k ∉ e := AList.lookup_eq_none.mp he
    rw [AList.lookup_union_right hk, Option.none_or]
  | some v =>
    have hk : k ∈ e := AList.lookup_isSome.mp (by rw [he]; rfl)
    rw [AList.lookup_union_left hk, he, Option.some_or]

theorem lookup_restore (p : κ → Bool) (d e : Dict κ ν) (k : κ) :
    ((d.dropKeys p).update (e.keepKeys p)).lookup k = if p k then e.lookup k else d.lookup k := by
  rw [lookup_update, lookup_dropKeys, lookup_keepKeys]
  cases p k <;> simp

/-- `{k: v for k, v in l}`: of two pairs with one key the later one stays. -/
def ofPairs (l : List (κ × ν)) : Dict κ ν := l.foldl (fun d e => d.insert e.1 e.2) ∅

theorem ofPairs_concat (l : List (κ × ν)) (e : κ × ν) :
    ofPairs (l ++ [e]) = (ofPairs l).insert e.1 e.2 := by
  rw [ofPairs, List.foldl_append]
  rfl

theorem lookup_ofPairs_eq_none (l : List (κ × ν)) (k : κ) :
    (ofPairs l).lookup k = none ↔ ∀ e ∈ l, e.1 ≠ k := by
  induction l using List.reverseRecOn with
  | nil => simp [ofPairs]
  | append_singleton l e ih =>
    rw [ofPairs_concat]
    by_cases hk : k = e.1
    · subst hk
      rw [AList.lookup_insert]
      exact iff_of_false (by simp) fun h => h e (by simp) rfl
    · rw [AList.lookup_insert_ne hk, ih]
      simp [or_imp, forall_and, Ne.symm hk]

theorem lookup_ofPairs (l : List (κ × ν)) (k : κ) :
    (ofPairs l).lookup k = ((l.filter fun e => e.1 = k).map Prod.snd).getLast? := by
  induction l using List.reverseRecOn with
  | nil => rfl
  | append_singleton l e ih =>
    rw [ofPairs_concat, List.filter_append]
    by_cases h : e.1 = k
    · rw [← h, AList.lookup_insert]
      simp
    · rw [AList.lookup_insert_ne (Ne.symm h), ih]
      simp [h]

/-- The last pair with a key is found. -/
theorem lookup_ofPairs_eq_some (l : List (κ × ν)) (k : κ) (v : ν) :
    (ofPairs l).lookup k = some v ↔
      ∃ before after, l = before ++ (k, v) :: after ∧ ∀ e ∈ after, e.1 ≠ k := by
  induction l using List.reverseRecOn with
  | nil => simp [ofPairs]
  | append_singleton l e ih =>
    obtain ⟨k', v'⟩ := e
    rw [ofPairs_concat]
    by_cases hk : k = k'
    · subst hk
      rw [AList.lookup_insert]
      constructor
      · rintro ⟨⟩
        exact ⟨l, [], rfl, by simp⟩
      · rintro ⟨before, after, h, hne⟩
        rcases List.eq_nil_or_concat' after with rfl | ⟨after, e, rfl⟩
        · have he := List.append_inj_right' h rfl
          simp only [List.cons.injEq, Prod.mk.injEq, true_and, and_true] at he
          rw [he]
        · rw [← List.cons_append, ← List.append_assoc] at h
          have he := List.append_inj_right' h rfl
          simp only [List.cons.injEq, and_true] at he
          exact absurd (congrArg Prod.fst he).symm (hne e (by simp))
    · rw [AList.lookup_insert_ne hk, ih]
      constructor
      · rintro ⟨before, after, rfl, hne⟩
        refine ⟨before, after ++ [(k', v')], by simp, fun e he => ?_⟩
        rcases List.mem_append.mp he with he | he
        · exact hne e he
        · rw [List.mem_singleton.mp he]
          exact Ne.symm hk
      · rintro ⟨before, after, h, hne⟩
        rcases List.eq_nil_or_concat' after with rfl | ⟨after, e, rfl⟩
        · have he := List.append_inj_right' h rfl
          simp only [List.cons.injEq, Prod.mk.injEq, and_true] at he
          exact absurd he.1.symm hk
        · rw [← List.cons_append, ← List.append_assoc] at h
          have hl := List.append_inj_left' h rfl
          exact ⟨before, after, hl, fun e' he' => hne e' (by simp [he'])⟩

/-- Two dictionaries hold the same values under the keys of a set. -/
def AgreeOn (s : κ → Prop) (d e : Dict κ ν) : Prop := ∀ k, s k → d.lookup k = e.lookup k

theorem AgreeOn.refl (s : κ → Prop) (d : Dict κ ν) : AgreeOn s d d := fun _ _ => rfl

theorem AgreeOn.trans {s : κ → Prop} {d e f : Dict κ ν} (h : AgreeOn s d e) (h' : AgreeOn s e f) :
    AgreeOn s d f := fun k hk => (h k hk).trans (h' k hk)

end Dict

/-! ## Association lists -/

/-- An association list that gives a key one value finds exactly its pairs. -/
theorem lookup_eq_some_iff {κ ν : Type} [DecidableEq κ] {l : List (κ × ν)}
    (hl : ∀ k v v', (k, v) ∈ l → (k, v') ∈ l → v = v') (k : κ) (v : ν) :
    l.lookup k = some v ↔ (k, v) ∈ l := by
  induction l with
  | nil => simp
  | cons e l ih =>
    obtain ⟨k', v'⟩ := e
    have ih' := ih fun k v v' h h' =>
      hl k v v' (List.mem_cons_of_mem _ h) (List.mem_cons_of_mem _ h')
    by_cases hk : k = k'
    · subst hk
      simp only [List.lookup_cons_self, Option.some.injEq]
      constructor
      · rintro rfl
        exact List.mem_cons_self ..
      · intro h
        exact hl k v' v (List.mem_cons_self ..) h
    · have hb : (k == k') = false := by simpa using hk
      simp [List.lookup_cons, hb, ih', hk]

end Py

import Custodian.Resolver.ValuesFrom

/-!
# Credentials of cached values

Which fetch a lookup of `ValuesFrom` is answered from, over every run with one cache.
-/

namespace Custodian.Resolver

open Py Cache

variable {V σ : Type}

/-! ## Keys -/

/-- The text of a header. -/
def headerText (e : Text ×ₗ Text) : Text :=
  JsonText.array ([(ofLex e).1, (ofLex e).2].map JsonText.string)

theorem selfDelimiting_headerText : JsonText.SelfDelimiting headerText := by
  intro a b x y h
  have harray := JsonText.selfDelimiting_string.array fun s x y hs => by
    cases (List.cons.inj hs).1
  obtain ⟨hab, hxy⟩ := harray _ _ _ _ h
  simp only [List.cons.injEq, and_true] at hab
  exact ⟨ofLex_inj.mp (Prod.ext hab.1 hab.2), hxy⟩

theorem canonical_injective {t : CaseTable} {h h' : Headers}
    (he : canonical t h = canonical t h') : canonicalHeaders t h = canonicalHeaders t h' := by
  have harray := selfDelimiting_headerText.array fun e x y hs => by
    cases (List.cons.inj hs).1
  exact harray.injective he

theorem canonicalHeaders_eq_iff {t : CaseTable} {h h' : Headers} :
    canonicalHeaders t h = canonicalHeaders t h' ↔ SameHeaders t h h' := by
  rw [canonicalHeaders, canonicalHeaders, SameHeaders]
  constructor
  · intro he
    have hperm := (List.perm_insertionSort (· ≤ ·) _).symm.trans
      (he ▸ List.perm_insertionSort (· ≤ ·) _)
    simpa only [List.map_map, Function.comp_def, ofLex_toLex] using (hperm.map ofLex).symm
  · intro hp
    refine List.Perm.eq_of_sortedLE List.sortedLE_insertionSort List.sortedLE_insertionSort ?_
    have hlex := hp.map toLex
    simp only [List.map_map, Function.comp_def] at hlex
    exact (List.perm_insertionSort _ _).trans (hlex.trans (List.perm_insertionSort _ _).symm)

theorem getCacheKey_eq_iff {env : Env V} {uri uri' : Text} {h h' : Headers}
    (hsha : env.sha256 (canonical env.caseTable h) = env.sha256 (canonical env.caseTable h') →
      canonical env.caseTable h = canonical env.caseTable h') :
    getCacheKey env uri h = getCacheKey env uri' h' ↔
      uri = uri' ∧ SameHeaders env.caseTable h h' := by
  cases h with
  | nil =>
    cases h' with
    | nil => simp [getCacheKey, SameHeaders]
    | cons e' h' => simp [getCacheKey, SameHeaders]
  | cons e h =>
    cases h' with
    | nil => simp [getCacheKey, SameHeaders]
    | cons e' h' =>
      rw [getCacheKey, getCacheKey, Key.uriResolver.injEq, Option.some.injEq,
        ← canonicalHeaders_eq_iff]
      · refine and_congr_right fun _ => ⟨fun hd => canonical_injective (hsha hd), fun hc => ?_⟩
        rw [canonical, canonical, hc]
      · simp
      · simp

theorem getCacheKey_of_same {env : Env V} {uri uri' : Text} {h h' : Headers}
    (hsame : uri = uri' ∧ SameHeaders env.caseTable h h') :
    getCacheKey env uri h = getCacheKey env uri' h' := by
  refine (getCacheKey_eq_iff fun _ => ?_).mpr hsame
  rw [canonical, canonical, canonicalHeaders_eq_iff.mpr hsame.2]

/-! ## What the cache holds -/

variable (env : Env V) (c : ValueCache σ Key (Answer V))

/-- The hash tells the headers of these lookups apart. -/
def HashInjective (lookups : List Lookup) : Prop :=
  ∀ l ∈ lookups, ∀ l' ∈ lookups,
    env.sha256 (canonical env.caseTable l.headers) =
        env.sha256 (canonical env.caseTable l'.headers) →
      canonical env.caseTable l.headers = canonical env.caseTable l'.headers

/-- An entry has come from one of the lookups, and from a request that answers it. -/
def Sound (lookups : List Lookup) (a : Answer V) : Key → Prop
  | .uriResolver uri digest => ∃ l ∈ lookups, ∃ f, a.origin = some f ∧
      f.source = .uri uri l.headers ∧ getCacheKey env uri l.headers = .uriResolver uri digest
  | .valueFrom url format expr headers query => ∃ l ∈ lookups,
      valuesKey l.data = .valueFrom url format expr headers query ∧
      ∀ f, a.origin = some f → Isolated env.caseTable l f.source f.scope

/-- Every entry is sound. -/
def AllSound (lookups : List Lookup) (s : σ) : Prop :=
  ∀ t key a, c.get s t key = some a → Sound env lookups a key

variable {env c}

theorem AllSound.save {lookups : List Lookup} {s : σ} (h : AllSound env c lookups s) {t : Nat}
    {key : Key} {a : Answer V} (ha : Sound env lookups a key) :
    AllSound env c lookups (c.save s t key a) := by
  intro t' key' a' hget
  rw [c.get_save] at hget
  split at hget
  · rename_i hk
    split at hget
    · obtain rfl := Option.some.inj hget
      exact hk ▸ ha
    · cases hget
  · exact h t' key' a' hget

theorem AllSound.mono {lookups lookups' : List Lookup} {s : σ} (h : AllSound env c lookups s)
    (hsub : lookups ⊆ lookups') : AllSound env c lookups' s := by
  intro t key a hget
  have ha := h t key a hget
  cases key with
  | uriResolver uri digest =>
    obtain ⟨l, hl, hrest⟩ := ha
    exact ⟨l, hsub hl, hrest⟩
  | valueFrom url format expr headers query =>
    obtain ⟨l, hl, hrest⟩ := ha
    exact ⟨l, hsub hl, hrest⟩

theorem hit_eq_some {w : World σ} {key : Key} {a : Answer V} (h : hit c w key = some a) :
    c.get w.cache w.now key = some a ∧ a.value.isSome :=
  Option.filter_eq_some_iff.mp h

/-- An answer that stays within the credentials of a lookup. -/
def Within (env : Env V) (l : Lookup) (r : Except Exn (Answer V)) : Prop :=
  ∀ a f, r = .ok a → a.origin = some f → Isolated env.caseTable l f.source f.scope

theorem resolve_sound {lookups : List Lookup} {w : World σ} {l : Lookup} (scope : Scope)
    (hl : l ∈ lookups) (hsha : HashInjective env lookups)
    (hw : AllSound env c lookups w.cache) :
    AllSound env c lookups (resolve env c w scope l.data.url l.headers).cache ∧
      Within env l (resolve env c w scope l.data.url l.headers).answer := by
  rw [resolve]
  cases hh : hit c w (getCacheKey env l.data.url l.headers) with
  | some a =>
    refine ⟨hw, fun a' f ha hf => ?_⟩
    obtain rfl := Except.ok.inj ha
    have hsound := hw _ _ _ (hit_eq_some hh).1
    generalize hkey : getCacheKey env l.data.url l.headers = key at hsound
    cases key with
    | valueFrom => unfold getCacheKey at hkey; split at hkey <;> cases hkey
    | uriResolver uri digest =>
      obtain ⟨l', hl', f', hf', hsource, hkey'⟩ := hsound
      obtain rfl := Option.some.inj (hf.symm.trans hf')
      obtain ⟨huri, hsame⟩ := (getCacheKey_eq_iff (hsha l' hl' l hl)).mp (hkey'.trans hkey.symm)
      rw [hsource]
      exact ⟨huri, hsame⟩
  | none =>
    simp only
    cases hr : env.respond ⟨w.step, scope, .uri l.data.url l.headers⟩ with
    | error e => exact ⟨hw, by rintro a f ⟨⟩⟩
    | ok contents =>
      constructor
      · refine hw.save ?_
        have hkey : ∃ digest, getCacheKey env l.data.url l.headers =
            .uriResolver l.data.url digest := by
          unfold getCacheKey
          split <;> exact ⟨_, rfl⟩
        obtain ⟨digest, hkey⟩ := hkey
        rw [hkey]
        exact ⟨l, hl, _, rfl, rfl, hkey⟩
      · intro a f ha hf
        obtain rfl := Except.ok.inj ha
        obtain rfl := Option.some.inj hf
        exact ⟨rfl, List.Perm.refl _⟩

theorem getUriValues_sound {lookups : List Lookup} {w : World σ} {l : Lookup} (hl : l ∈ lookups)
    (hsha : HashInjective env lookups) (hw : AllSound env c lookups w.cache) :
    AllSound env c lookups (getUriValues env c w l).cache ∧
      Within env l (getUriValues env c w l).answer := by
  rw [getUriValues]
  split
  · obtain ⟨hcache, hwithin⟩ := resolve_sound l.scope hl hsha hw
    rw [← Lookup.headers]
    simp only
    cases hr : (resolve env c w l.scope l.data.url l.headers).answer with
    | error e => exact ⟨hcache, by rintro a f ⟨⟩⟩
    | ok contents =>
      refine ⟨hcache, fun a f ha hf => ?_⟩
      simp only at ha
      cases hread : env.read (formatOf l.data) l.data contents.value with
      | error e =>
        rw [hread] at ha
        cases ha
      | ok v =>
        rw [hread] at ha
        obtain rfl := Except.ok.inj ha
        exact hwithin contents f hr hf
  · exact ⟨hw, by rintro a f ⟨⟩⟩

theorem getDdbValues_sound (w : World σ) {l : Lookup} (hd : l.data.url = dynamodb) :
    (getDdbValues env w l).cache = w.cache ∧ Within env l (getDdbValues env w l).answer := by
  rw [getDdbValues]
  split
  · exact ⟨rfl, by rintro a f ⟨⟩⟩
  · split
    · refine ⟨rfl, fun a f ha hf => ?_⟩
      simp only at ha
      cases hr : env.execute ⟨w.step, l.scope, .statement _⟩ l.data with
      | error e =>
        rw [hr] at ha
        cases ha
      | ok v =>
        rw [hr] at ha
        obtain rfl := Except.ok.inj ha
        obtain rfl := Option.some.inj hf
        exact ⟨hd, rfl⟩
    · refine ⟨rfl, fun a f ha hf => ?_⟩
      obtain rfl := Except.ok.inj ha
      cases hf

/-- Lookups of tables in different accounts or regions have different keys. -/
def Apart (l l' : Lookup) : Prop :=
  l.data.url = dynamodb → valuesKey l.data = valuesKey l'.data → l.scope = l'.scope

theorem getValues_sound {lookups : List Lookup} {w : World σ} {l : Lookup} (hl : l ∈ lookups)
    (hsha : HashInjective env lookups) (hapart : ∀ l' ∈ lookups, Apart l' l)
    (hw : AllSound env c lookups w.cache) :
    AllSound env c lookups (getValues env c w l).cache ∧
      Within env l (getValues env c w l).answer := by
  rw [getValues]
  cases hh : hit c w (valuesKey l.data) with
  | some a =>
    refine ⟨hw, fun a' f ha hf => ?_⟩
    obtain rfl := Except.ok.inj ha
    obtain ⟨l', hl', hkey, hisolated⟩ := hw _ _ _ (hit_eq_some hh).1
    have hkeys : valuesKey l'.data = valuesKey l.data := hkey
    have hf := hisolated f hf
    simp only [valuesKey, Key.valueFrom.injEq] at hkey
    cases hs : f.source with
    | uri uri headers =>
      rw [hs] at hf
      exact ⟨hf.1.trans hkey.1, by rw [Lookup.headers, ← hkey.2.2.2.1]; exact hf.2⟩
    | statement query =>
      rw [hs] at hf
      exact ⟨hkey.1 ▸ hf.1, hf.2.trans (hapart l' hl' hf.1 hkeys)⟩
  | none =>
    simp only
    have hinner : AllSound env c lookups (if l.data.url = dynamodb then getDdbValues env w l
        else getUriValues env c w l).cache ∧ Within env l (if l.data.url = dynamodb then
          getDdbValues env w l else getUriValues env c w l).answer := by
      split
      · rename_i hd
        obtain ⟨hcache, hwithin⟩ : _ ∧ Within env l _ := getDdbValues_sound w hd
        exact ⟨hcache ▸ hw, hwithin⟩
      · exact getUriValues_sound hl hsha hw
    generalize (if l.data.url = dynamodb then getDdbValues env w l
      else getUriValues env c w l) = r at hinner
    obtain ⟨hcache, hwithin⟩ := hinner
    cases hr : r.answer with
    | error e => exact ⟨hcache, by rintro a f ⟨⟩⟩
    | ok a =>
      refine ⟨hcache.save ⟨l, hl, rfl, fun f hf => hwithin a f hr hf⟩, fun a' f ha hf => ?_⟩
      exact hwithin a' f (hr.trans ha) hf

/-! ## What is shared -/

/-- The key of the contents that a lookup reads. -/
def contentsKey (env : Env V) (l : Lookup) : Key := getCacheKey env l.data.url l.headers

/-- A value saved at some time is found under the key while it is fresh. -/
def Kept (c : ValueCache σ Key (Answer V)) (s : σ) (since now : Nat) (key : Key) : Prop :=
  ∀ t, now ≤ t → c.fresh since t → ∃ a, c.get s t key = some a ∧ a.value.isSome

theorem Kept.mono {s : σ} {since now now' : Nat} {key : Key} (h : Kept c s since now key)
    (hle : now ≤ now') : Kept c s since now' key :=
  fun t ht => h t (hle.trans ht)

theorem Kept.exists_hit {w : World σ} {since : Nat} {key : Key} (h : Kept c w.cache since w.now key)
    (hf : c.fresh since w.now) : ∃ a, hit c w key = some a := by
  obtain ⟨a, ha, hv⟩ := h w.now le_rfl hf
  exact ⟨a, Option.filter_eq_some_iff.mpr ⟨ha, hv⟩⟩

theorem Kept.save_ne {s : σ} {since now t : Nat} {key key' : Key} {a : Answer V}
    (h : Kept c s since now key) (hne : key ≠ key') : Kept c (c.save s t key' a) since now key := by
  intro t' ht hf
  rw [c.get_save, if_neg hne]
  exact h t' ht hf

theorem kept_save {s : σ} {now : Nat} {key : Key} {a : Answer V} (ha : a.value.isSome) :
    Kept c (c.save s now key a) now now key := by
  intro t _ hf
  exact ⟨a, by rw [c.get_save, if_pos rfl, if_pos hf], ha⟩

theorem Kept.of_miss {w : World σ} {s : σ} {since : Nat} {key : Key}
    (h : Kept c w.cache since w.now key) (hle : since ≤ w.now) (hmiss : hit c w key = none) :
    Kept c s since w.now key := by
  intro t ht hf
  obtain ⟨a, ha⟩ := h.exists_hit (c.fresh_of_le _ _ _ hle ht hf)
  rw [hmiss] at ha
  cases ha

theorem contentsKey_ne_valuesKey (l l' : Lookup) : contentsKey env l ≠ valuesKey l'.data := by
  unfold contentsKey getCacheKey
  split <;> exact fun h => by cases h

theorem resolve_kept {w : World σ} {l l' : Lookup} {since : Nat} {scope : Scope}
    (h : Kept c w.cache since w.now (contentsKey env l')) (hle : since ≤ w.now) :
    Kept c (resolve env c w scope l.data.url l.headers).cache since w.now (contentsKey env l') := by
  rw [resolve]
  cases hh : hit c w (getCacheKey env l.data.url l.headers) with
  | some a => exact h
  | none =>
    simp only
    cases env.respond ⟨w.step, scope, .uri l.data.url l.headers⟩ with
    | error e => exact h
    | ok contents =>
      by_cases hk : contentsKey env l' = contentsKey env l
      · rw [hk] at h ⊢
        exact h.of_miss hle hh
      · exact h.save_ne hk

theorem getValues_cases (env : Env V) (c : ValueCache σ Key (Answer V)) (w : World σ) (l : Lookup) :
    ((getValues env c w l).cache = w.cache ∧ (getValues env c w l).request = none) ∨
    ∃ r : Outcome σ V, (getValues env c w l).request = r.request ∧
      ((getValues env c w l).cache = r.cache ∨
        ∃ a, (getValues env c w l).cache = c.save r.cache w.now (valuesKey l.data) a) ∧
      (r.cache = w.cache ∧ (l.data.url = dynamodb ∨ r.request = none) ∨
        l.data.url ≠ dynamodb ∧
          r.cache = (resolve env c w l.scope l.data.url l.headers).cache ∧
          r.request = (resolve env c w l.scope l.data.url l.headers).request) := by
  rw [getValues]
  cases hit c w (valuesKey l.data) with
  | some a => exact .inl ⟨rfl, rfl⟩
  | none =>
    refine .inr ⟨if l.data.url = dynamodb then getDdbValues env w l
      else getUriValues env c w l, ?_, ?_, ?_⟩
    · simp only
      split <;> rfl
    · simp only
      split
      · exact .inl rfl
      · exact .inr ⟨_, rfl⟩
    · split
      · rename_i hd
        exact .inl ⟨(getDdbValues_sound w hd).1, .inl hd⟩
      · rename_i hd
        rw [getUriValues]
        split
        · rw [← Lookup.headers]
          simp only
          split
          · exact .inr ⟨hd, rfl, rfl⟩
          · exact .inr ⟨hd, rfl, rfl⟩
        · exact .inl ⟨rfl, .inr rfl⟩

theorem getValues_kept {w : World σ} {l l' : Lookup} {since : Nat}
    (h : Kept c w.cache since w.now (contentsKey env l')) (hle : since ≤ w.now) :
    Kept c (getValues env c w l).cache since w.now (contentsKey env l') := by
  obtain ⟨hcache, -⟩ | ⟨r, -, hsave, hr⟩ := getValues_cases env c w l
  · exact hcache ▸ h
  · have hkept : Kept c r.cache since w.now (contentsKey env l') := by
      obtain ⟨hcache, -⟩ | ⟨-, hcache, -⟩ := hr
      · exact hcache ▸ h
      · exact hcache ▸ resolve_kept h hle
    obtain hcache | ⟨a, hcache⟩ := hsave
    · exact hcache ▸ hkept
    · exact hcache ▸ hkept.save_ne (contentsKey_ne_valuesKey l' l)

theorem getValues_keeps {w : World σ} {l : Lookup} {f : Fetch} {v : V}
    (hd : l.data.url ≠ dynamodb)
    (h : (getValues env c w l).request = some (f, .ok (some v))) :
    Kept c (getValues env c w l).cache w.now w.now (contentsKey env l) := by
  obtain ⟨-, hnone⟩ | ⟨r, hrequest, hsave, hr⟩ := getValues_cases env c w l
  · rw [h] at hnone
    cases hnone
  · rw [h] at hrequest
    have hkept : Kept c r.cache w.now w.now (contentsKey env l) := by
      obtain ⟨-, hd' | hnone⟩ | ⟨-, hcache, hreq⟩ := hr
      · exact absurd hd' hd
      · rw [hnone] at hrequest
        cases hrequest
      · rw [← hrequest] at hreq
        rw [hcache]
        revert hreq
        rw [resolve]
        cases hit c w (getCacheKey env l.data.url l.headers) with
        | some a => rintro ⟨⟩
        | none =>
          simp only
          cases env.respond ⟨w.step, l.scope, .uri l.data.url l.headers⟩ with
          | error e => rintro ⟨⟩
          | ok contents =>
            rintro ⟨⟩
            exact kept_save rfl
    obtain hcache | ⟨a, hcache⟩ := hsave
    · exact hcache ▸ hkept
    · exact hcache ▸ hkept.save_ne (contentsKey_ne_valuesKey l l)

theorem request_of_kept {w : World σ} {l : Lookup} {since : Nat} (hd : l.data.url ≠ dynamodb)
    (h : Kept c w.cache since w.now (contentsKey env l)) (hf : c.fresh since w.now) :
    (getValues env c w l).request = none := by
  obtain ⟨-, hnone⟩ | ⟨r, hrequest, -, hr⟩ := getValues_cases env c w l
  · exact hnone
  · rw [hrequest]
    obtain ⟨-, hd' | hnone⟩ | ⟨-, -, hreq⟩ := hr
    · exact absurd hd' hd
    · exact hnone
    · obtain ⟨a, ha⟩ := h.exists_hit hf
      rw [hreq, resolve, show hit c w (getCacheKey env l.data.url l.headers) = some a from ha]

/-! ## Runs -/

/-- What holds after a run. -/
structure Inv (env : Env V) (c : ValueCache σ Key (Answer V)) (lookups : List Lookup)
    (st : World σ × List (Event V)) : Prop where
  sound : AllSound env c lookups st.1.cache
  past : ∀ e ∈ st.2, e.now ≤ st.1.now
  kept : ∀ e ∈ st.2, e.lookup.data.url ≠ dynamodb → (∃ f v, e.request = some (f, .ok (some v))) →
    Kept c st.1.cache e.now st.1.now (contentsKey env e.lookup)
  meets : Meets env c st.2

/-- **One lookup keeps the credentials of all cached values apart.** -/
theorem step_inv {lookups : List Lookup} {st : World σ × List (Event V)} {l : Lookup}
    (hsha : HashInjective env (lookups ++ [l])) (hapart : ∀ l' ∈ lookups, Apart l' l)
    (hst : Inv env c lookups st) : Inv env c (lookups ++ [l]) (step env c st l) := by
  obtain ⟨hsound, hpast, hkept, hisolated, hshared⟩ := hst
  set w : World σ := { st.1 with now := st.1.now + l.wait } with hw
  have hl : l ∈ lookups ++ [l] := List.mem_append_right _ (List.mem_singleton_self l)
  have hself : Apart l l := fun _ _ => rfl
  have hapart' : ∀ l' ∈ lookups ++ [l], Apart l' l := by
    simpa only [List.forall_mem_append, List.forall_mem_singleton] using ⟨hapart, hself⟩
  have hpast' : ∀ e ∈ st.2, e.now ≤ w.now := fun e he => (hpast e he).trans (Nat.le_add_right ..)
  have hkept' : ∀ e ∈ st.2, e.lookup.data.url ≠ dynamodb →
      (∃ f v, e.request = some (f, .ok (some v))) →
      Kept c w.cache e.now w.now (contentsKey env e.lookup) :=
    fun e he hd hr => (hkept e he hd hr).mono (Nat.le_add_right ..)
  obtain ⟨hcache, hwithin⟩ := getValues_sound (w := w) hl hsha hapart'
    (hsound.mono (List.subset_append_left _ _))
  refine ⟨hcache, ?_, ?_, ?_, ?_⟩
  · simp only [step, List.forall_mem_append, List.forall_mem_singleton]
    exact ⟨hpast', le_rfl⟩
  · simp only [step, List.forall_mem_append, List.forall_mem_singleton]
    refine ⟨fun e he hd hr => getValues_kept (hkept' e he hd hr) (hpast' e he), ?_⟩
    rintro hd ⟨f, v, hr⟩
    exact getValues_keeps hd hr
  · simp only [step, List.forall_mem_append, List.forall_mem_singleton]
    exact ⟨hisolated, fun a f => hwithin a f⟩
  · simp only [step, List.pairwise_append, List.pairwise_singleton, List.mem_singleton, forall_eq,
      true_and]
    refine ⟨hshared, fun e he hd hsame hreuse => ?_⟩
    have hkey : contentsKey env e.lookup = contentsKey env l := by
      unfold contentsKey
      exact getCacheKey_of_same hsame
    have hk : Kept c w.cache e.now w.now (contentsKey env l) := hkey ▸ hkept' e he hd hreuse.1
    exact request_of_kept (hsame.1 ▸ hd) hk hreuse.2

/-- **Over every run the answers stay within their credentials and contents are shared, if table
lookups of different regions have different keys.** -/
theorem meets_run (env : Env V) (c : ValueCache σ Key (Answer V)) (lookups : List Lookup)
    (hsha : HashInjective env lookups) (hapart : lookups.Pairwise Apart) :
    Meets env c (run env c lookups).2 := by
  suffices Inv env c lookups (run env c lookups) from this.meets
  induction lookups using List.reverseRecOn with
  | nil =>
    refine ⟨fun t key a h => ?_, by simp [run], by simp [run], by simp [run], by simp [run]⟩
    rw [run, List.foldl_nil, c.get_empty] at h
    cases h
  | append_singleton lookups l ih =>
    rw [List.pairwise_append] at hapart
    obtain ⟨hold, -, hnew⟩ := hapart
    have hsha' : HashInjective env lookups := fun l' hl' l'' hl'' =>
      hsha l' (List.mem_append_left _ hl') l'' (List.mem_append_left _ hl'')
    rw [run, List.foldl_append]
    exact step_inv hsha (fun l' hl' => hnew l' hl' l (List.mem_singleton_self l)) (ih hsha' hold)

/-! ## Samples -/

/-- A network in which a table has one row, the region. -/
def regional : Env Text where
  caseTable := asciiTable
  sha256 := id
  respond _ := .ok (some "[]".toList)
  execute f _ := .ok (some f.scope.region)
  read _ _ contents := .ok contents

def sampleCache : ValueCache (Held Key (Answer Text)) Key (Answer Text) :=
  memoryValues ⟨id, id, fun _ => rfl⟩

/-- A lookup of a table in a region. -/
def tableLookup (region query : Text) : Lookup where
  scope := ⟨"123456789012".toList, region⟩
  data := ⟨dynamodb, none, none, none, some query⟩
  wait := 0

/-- A lookup of a url with headers. -/
def urlLookup (headers : Headers) : Lookup where
  scope := ⟨"123456789012".toList, "us-east-1".toList⟩
  data := ⟨"https://example.com/ids.json".toList, none, none, some headers, none⟩
  wait := 0

/-- Two urls with headers alike, and tables of two regions with different statements. -/
def sampleLookups : List Lookup :=
  [urlLookup [("A".toList, "x".toList), ("b".toList, "y".toList)],
    urlLookup [("B".toList, "y".toList), ("a".toList, "x".toList)],
    tableLookup "us-east-1".toList "select id from east".toList,
    tableLookup "eu-west-1".toList "select id from west".toList]

theorem sampleLookups_meet : Meets regional sampleCache (run regional sampleCache sampleLookups).2 := by
  refine meets_run regional sampleCache sampleLookups (fun _ _ _ _ h => h) ?_
  have hapart : sampleLookups.Pairwise fun l l' => l.data.url = dynamodb →
      valuesKey l.data = valuesKey l'.data → l.scope = l'.scope := by decide
  exact hapart

/-- The second of two regions is answered with the values of the first. -/
theorem region_crossed :
    ((run regional sampleCache
      [tableLookup "us-east-1".toList "select id from t".toList,
        tableLookup "eu-west-1".toList "select id from t".toList]).2.map fun e =>
          (e.lookup.scope.region, e.answer.toOption.bind Answer.value)) =
      [("us-east-1".toList, some "us-east-1".toList),
        ("eu-west-1".toList, some "us-east-1".toList)] ∧
      ¬Meets regional sampleCache (run regional sampleCache
        [tableLookup "us-east-1".toList "select id from t".toList,
          tableLookup "eu-west-1".toList "select id from t".toList]).2 := by
  refine ⟨rfl, fun h => ?_⟩
  have hcross := h.isolated _ (List.mem_cons_of_mem _ List.mem_cons_self) _ _ rfl rfl
  exact absurd (congrArg Scope.region hcross.2) (by decide)

end Custodian.Resolver

import Custodian.Iam.Checker

/-!
# Widening an allowlist

A configuration whose lists contain those of another one reports no statement
that the other one does not report.  The argument goes through the checker
bottom up: a handler flags less (`handler_mono`), a condition is whitelisted
more often (`handleCondition_mono`), a block of conditions too
(`handleConditions_mono`), a principal is refused less often
(`handlePrincipal_mono`), and so a statement violates less often.
-/

namespace Custodian.Widening

open Py Custodian.Checker

variable {ct : CaseTable} {cfg cfg' : CheckerConfig}

/-- `cfg'` allows what `cfg` allows and perhaps more. -/
structure Widens (cfg cfg' : CheckerConfig) : Prop where
  returnAllowed : cfg.returnAllowed = false ∧ cfg'.returnAllowed = false
  checkActions : cfg'.checkActions = cfg.checkActions
  everyoneOnly : cfg'.everyoneOnly = cfg.everyoneOnly
  allowedAccounts : cfg.allowedAccounts ⊆ cfg'.allowedAccounts
  allowedOrgid : cfg.allowedOrgid ⊆ cfg'.allowedOrgid
  allowedOrgUnits : cfg.allowedOrgUnits ⊆ cfg'.allowedOrgUnits
  whitelistPatterns : cfg.whitelistPatterns ⊆ cfg'.whitelistPatterns
  whitelistConditions : cfg.whitelistConditions ⊆ cfg'.whitelistConditions
  allowedVpc : cfg'.allowedVpc = cfg.allowedVpc ∨
    cfg.allowedVpc ≠ [] ∧ cfg'.allowedVpc ≠ [] ∧ cfg.allowedVpc ⊆ cfg'.allowedVpc
  allowedVpce : cfg'.allowedVpce = cfg.allowedVpce ∨
    cfg.allowedVpce ≠ [] ∧ cfg'.allowedVpce ≠ [] ∧ cfg.allowedVpce ⊆ cfg'.allowedVpce

theorem contains_mono {a a' : List Text} (h : a ⊆ a') {t : Text} (ht : a.contains t = true) :
    a'.contains t = true := by
  rw [List.contains_iff_mem] at ht ⊢
  exact h ht

theorem isEmpty_mono {α : Type} {a a' : List α} (h : a ⊆ a') (he : a'.isEmpty = true) :
    a.isEmpty = true := by
  rw [List.isEmpty_iff] at he ⊢
  exact List.subset_nil.mp (he ▸ h)

/-! ## Handlers -/

/-- The second computation flags only what the first one flags. -/
def FlagsLess (x x' : Except Exn Bool) : Prop := x' = .ok true → ∀ b, x = .ok b → b = true

theorem anyOutside_mono {a a' : List Text} (h : a ⊆ a') (values : Json) :
    FlagsLess (anyOutside values a) (anyOutside values a') := by
  intro h' b hb
  simp only [anyOutside, bind_eq_ok, pure_eq_ok] at h' hb
  obtain ⟨as, has, h'⟩ := h'
  obtain ⟨as', has', rfl⟩ := hb
  rw [has, Except.ok.injEq] at has'
  subst has'
  rw [List.any_eq_true] at h' ⊢
  obtain ⟨t, ht, hno⟩ := h'
  refine ⟨t, ht, ?_⟩
  cases hc : a.contains t
  · rfl
  · rw [contains_mono h hc] at hno
    cases hno

theorem unlessEmpty_mono {a a' : List Text} {flagged : Bool} {c : Condition} (h : a ⊆ a')
    (he : flagged = true ∨ (a.isEmpty = true → a'.isEmpty = true)) :
    FlagsLess (unlessEmpty a c flagged) (unlessEmpty a' c flagged) := by
  intro h' b hb
  unfold unlessEmpty at h' hb
  cases ha : a.isEmpty
  · have ha' : a'.isEmpty = false := by
      cases e : a'.isEmpty
      · rfl
      · rw [isEmpty_mono h e] at ha
        cases ha
    rw [ha'] at h'
    rw [ha] at hb
    exact anyOutside_mono h c.values h' b hb
  · rw [ha] at hb
    simp only [↓reduceIte, Except.ok.injEq] at hb
    subst hb
    rcases he with he | he
    · exact he
    · rw [he ha] at h'
      simpa using h'

theorem orgPathAllowed_mono (h : Widens cfg cfg') {path : Text}
    (hp : orgPathAllowed cfg path = true) : orgPathAllowed cfg' path = true := by
  simp only [orgPathAllowed, Bool.or_eq_true, List.any_eq_true] at hp ⊢
  rcases hp with hp | ⟨u, hu, hp⟩
  · exact Or.inl (contains_mono h.allowedOrgid hp)
  · exact Or.inr ⟨u, h.allowedOrgUnits hu, hp⟩

theorem anyPathRefused_mono (h : Widens cfg cfg') (vs : List Json) :
    FlagsLess (anyPathRefused cfg vs) (anyPathRefused cfg' vs) := by
  induction vs with
  | nil => intro h'; simp [anyPathRefused] at h'
  | cons v vs ih =>
    intro h' b hb
    simp only [anyPathRefused, bind_eq_ok] at h' hb
    obtain ⟨t, ht, h'⟩ := h'
    obtain ⟨t', ht', hb⟩ := hb
    rw [ht, Except.ok.injEq] at ht'
    subst ht'
    cases hp : orgPathAllowed cfg t
    · simp only [hp, Bool.false_eq_true, ↓reduceIte, pure_eq_ok] at hb
      exact hb.symm
    · simp only [hp, ↓reduceIte] at hb
      simp only [orgPathAllowed_mono h hp, ↓reduceIte] at h'
      exact ih h' b hb

theorem handleAwsPrincipalorgpaths_mono (h : Widens cfg cfg') (c : Condition) :
    FlagsLess (handleAwsPrincipalorgpaths cfg c) (handleAwsPrincipalorgpaths cfg' c) := by
  intro h' b hb
  unfold handleAwsPrincipalorgpaths at h' hb
  cases he : cfg.allowedOrgid.isEmpty && cfg.allowedOrgUnits.isEmpty
  · have he' : (cfg'.allowedOrgid.isEmpty && cfg'.allowedOrgUnits.isEmpty) = false := by
      rw [Bool.and_eq_false_iff] at he ⊢
      exact he.imp
        (fun e => Bool.eq_false_iff.mpr fun t =>
          Bool.eq_false_iff.mp e (isEmpty_mono h.allowedOrgid t))
        (fun e => Bool.eq_false_iff.mpr fun t =>
          Bool.eq_false_iff.mp e (isEmpty_mono h.allowedOrgUnits t))
    simp only [he, he', Bool.false_eq_true, ↓reduceIte, bind_eq_ok] at h' hb
    obtain ⟨vs, hvs, h'⟩ := h'
    obtain ⟨vs', hvs', hb⟩ := hb
    rw [hvs, Except.ok.injEq] at hvs'
    subst hvs'
    exact anyPathRefused_mono h vs h' b hb
  · simp only [he, ↓reduceIte, Except.ok.injEq] at hb
    exact hb.symm

/-- **Handlers.**  Every handler of the table flags less. -/
theorem handler_mono (h : Widens cfg cfg') {key : Text} {f : Handler}
    (hf : handlerFor key = some f) (c : Condition) : FlagsLess (f cfg c) (f cfg' c) := by
  have hacc := anyOutside_mono h.allowedAccounts c.values
  have hvpc : ∀ {a a' : List Text}, (a' = a ∨ a ≠ [] ∧ a' ≠ [] ∧ a ⊆ a') →
      FlagsLess (unlessEmpty a c false) (unlessEmpty a' c false) := by
    rintro a a' (rfl | ⟨hne, -, hsub⟩)
    · exact unlessEmpty_mono (List.Subset.refl _) (Or.inr id)
    · exact unlessEmpty_mono hsub (Or.inr fun he => absurd (List.isEmpty_iff.mp he) hne)
  simp only [handlerFor] at hf
  split at hf
  · rename_i g hg
    rw [Option.some.injEq] at hf
    subst hf
    -- one case for each entry of the table
    have hmem : ∀ e ∈ handlers, FlagsLess (e.2 cfg c) (e.2 cfg' c) := by
      simp only [handlers, List.forall_mem_cons, List.not_mem_nil, false_implies, implies_true,
        and_true]
      refine ⟨hacc, hacc, hacc, ?_, hvpc h.allowedVpce, hvpc h.allowedVpc,
        unlessEmpty_mono h.allowedOrgid (Or.inl rfl), handleAwsPrincipalorgpaths_mono h c, hacc,
        anyOutside_mono h.allowedOrgid c.values, hacc, hacc⟩
      intro h'
      simp [handleAwsSourceip] at h'
    obtain ⟨l₁, l₂, e, -⟩ := List.lookup_eq_some_iff.mp hg
    exact hmem _ (e ▸ List.mem_append_right _ (List.mem_cons_self ..))
  · rw [Option.map_eq_some_iff] at hf
    obtain ⟨e, -, rfl⟩ := hf
    intro h'
    cases h'

/-! ## Conditions -/

theorem handleCondition_mono (h : Widens cfg cfg') {c : Condition} {r r' : Option Bool}
    (hr : handleCondition ct cfg c = .ok r) (hr' : handleCondition ct cfg' c = .ok r') :
    (r = some true → r' = some true) ∧ (r ≠ none → r' ≠ none) := by
  unfold handleCondition at hr hr'
  cases hop : c.op.isEmpty
  · simp only [hop, Bool.false_eq_true, ↓reduceIte] at hr hr'
    cases hw : (cfg.whitelistConditions.map ct.lower).contains c.key
    · simp only [hw, Bool.false_eq_true, ↓reduceIte] at hr
      cases hw' : (cfg'.whitelistConditions.map ct.lower).contains c.key
      · simp only [hw', Bool.false_eq_true, ↓reduceIte] at hr'
        cases hf : handlerFor c.key with
        | none =>
          simp only [hf, Except.ok.injEq] at hr
          rw [← hr]
          exact ⟨fun e => absurd e (by simp), fun e => absurd rfl e⟩
        | some f =>
          simp only [hf, bind_eq_ok, pure_eq_ok] at hr hr'
          obtain ⟨b, hb, rfl⟩ := hr
          obtain ⟨b', hb', rfl⟩ := hr'
          refine ⟨fun e => ?_, fun _ => by simp⟩
          cases b'
          · rfl
          · rw [handler_mono h hf c hb' b hb] at e
            cases e
      · simp only [hw', ↓reduceIte, Except.ok.injEq] at hr'
        rw [← hr']
        exact ⟨fun _ => rfl, fun _ => by simp⟩
    · have hw' : (cfg'.whitelistConditions.map ct.lower).contains c.key = true :=
        contains_mono (List.map_subset ct.lower h.whitelistConditions) hw
      simp only [hw', ↓reduceIte, Except.ok.injEq] at hr'
      rw [← hr']
      exact ⟨fun _ => rfl, fun _ => by simp⟩
  · simp only [hop, ↓reduceIte, Except.ok.injEq] at hr hr'
    rw [← hr, ← hr']
    exact ⟨id, id⟩

/-- Two lists of results for the same conditions, the second one larger. -/
def ResultsLe : List (Condition × Bool) → List (Condition × Bool) → Prop :=
  List.Forall₂ fun r r' => r.1 = r'.1 ∧ (r.2 = true → r'.2 = true)

theorem conditionResults_mono (h : Widens cfg cfg') {cs : List Condition} :
    ∀ {rs : List (Condition × Bool)} {o : Option (List (Condition × Bool))},
      conditionResults ct cfg cs = .ok (some rs) → conditionResults ct cfg' cs = .ok o →
        ∃ rs', o = some rs' ∧ ResultsLe rs rs' := by
  induction cs with
  | nil =>
    intro rs o hrs ho
    simp only [conditionResults, Except.ok.injEq, Option.some.injEq] at hrs ho
    subst hrs ho
    exact ⟨[], rfl, .nil⟩
  | cons c cs ih =>
    intro rs o hrs ho
    simp only [conditionResults, bind_eq_ok] at hrs ho
    obtain ⟨r, hr, hrs⟩ := hrs
    obtain ⟨r', hr', ho⟩ := ho
    obtain ⟨hle, hnone⟩ := handleCondition_mono h hr hr'
    cases r with
    | none => simp [pure_eq_ok] at hrs
    | some b =>
      cases r' with
      | none => exact absurd rfl (hnone (by simp))
      | some b' =>
        simp only [bind_eq_ok, pure_eq_ok] at hrs ho
        obtain ⟨t, ht, hrs⟩ := hrs
        obtain ⟨t', ht', rfl⟩ := ho
        rw [Option.map_eq_some_iff] at hrs
        obtain ⟨us, rfl, rfl⟩ := hrs
        obtain ⟨us', rfl, hus⟩ := ih ht ht'
        refine ⟨_, rfl, .cons ⟨rfl, fun e => ?_⟩ hus⟩
        simpa using hle (congrArg some e)

theorem all_mono {rs rs' : List (Condition × Bool)} (h : ResultsLe rs rs')
    (ha : rs.all (·.2) = true) : rs'.all (·.2) = true := by
  induction h with
  | nil => rfl
  | cons hr _ ih =>
    simp only [List.all_cons, Bool.and_eq_true] at ha ⊢
    exact ⟨hr.2 ha.1, ih ha.2⟩

theorem any_org_mono {rs rs' : List (Condition × Bool)} (h : ResultsLe rs rs')
    (ha : rs.any (fun r => r.2 && orgKeys.contains r.1.key) = true) :
    rs'.any (fun r => r.2 && orgKeys.contains r.1.key) = true := by
  induction h with
  | nil => cases ha
  | cons hr _ ih =>
    simp only [List.any_cons, Bool.or_eq_true, Bool.and_eq_true] at ha ⊢
    exact ha.imp (fun e => ⟨hr.2 e.1, hr.1 ▸ e.2⟩) ih

theorem valuesForgiven_mono (h : Widens cfg cfg') {vs : List Json} :
    valuesForgiven cfg vs = .ok true → valuesForgiven cfg' vs = .ok true := by
  induction vs with
  | nil => exact id
  | cons v vs ih =>
    simp only [valuesForgiven, bind_eq_ok]
    rintro ⟨t, ht, hv⟩
    refine ⟨t, ht, ?_⟩
    split at hv
    · rename_i hc
      have hc' : (t.hasChar '*' || cfg'.allowedAccounts.contains (account t)) = true := by
        rw [Bool.or_eq_true] at hc ⊢
        exact hc.imp_right (contains_mono h.allowedAccounts)
      rw [if_pos hc']
      exact ih hv
    · cases hv

theorem failuresForgiven_mono (h : Widens cfg cfg') {rs rs' : List (Condition × Bool)}
    (hle : ResultsLe rs rs') :
    failuresForgiven cfg rs = .ok true → failuresForgiven cfg' rs' = .ok true := by
  induction hle with
  | nil => exact id
  | @cons r r' rs rs' hr _ ih =>
    obtain ⟨c, b⟩ := r
    obtain ⟨c', b'⟩ := r'
    obtain ⟨rfl, hb⟩ := hr
    cases b with
    | true =>
      rw [show b' = true from hb rfl]
      simpa only [failuresForgiven] using ih
    | false =>
      intro hf
      have hf' : principalConditions.contains c.key = true ∧
          ∃ vs, c.values.iter = .ok vs ∧ valuesForgiven cfg vs = .ok true ∧
            failuresForgiven cfg rs = .ok true := by
        simp only [failuresForgiven] at hf
        split at hf
        · rename_i hk
          simp only [bind_eq_ok] at hf
          obtain ⟨vs, hvs, v, hv, hf⟩ := hf
          cases v with
          | false => simp [pure_eq_ok] at hf
          | true => exact ⟨hk, vs, hvs, hv, by simpa using hf⟩
        · cases hf
      obtain ⟨hk, vs, hvs, hv, hrest⟩ := hf'
      cases b' with
      | true => simpa only [failuresForgiven] using ih hrest
      | false =>
        simp only [failuresForgiven, hk, ↓reduceIte, hvs, valuesForgiven_mono h hv, bind,
          Except.bind]
        exact ih hrest

theorem combineResults_mono (h : Widens cfg cfg') {rs rs' : List (Condition × Bool)}
    (hle : ResultsLe rs rs') (hr : combineResults cfg rs = .ok true) :
    combineResults cfg' rs' = .ok true := by
  unfold combineResults at hr ⊢
  by_cases hall' : rs'.all (·.2) = true
  · rw [if_pos hall']
  · rw [if_neg fun e => hall' (all_mono hle e)] at hr
    rw [if_neg hall']
    split at hr
    · rename_i horg
      rw [if_pos (any_org_mono hle horg)]
      exact failuresForgiven_mono h hle hr
    · cases hr

/-- **Conditions.**  A block that whitelists a statement still does. -/
theorem handleConditions_mono (h : Widens cfg cfg') {s : Json} {b : Bool}
    (hs : handleConditions ct cfg s = .ok true) (hs' : handleConditions ct cfg' s = .ok b) :
    b = true := by
  simp only [handleConditions, bind_eq_ok] at hs hs'
  obtain ⟨cs, hcs, hs⟩ := hs
  obtain ⟨cs', hcs', hs'⟩ := hs'
  rw [hcs, Except.ok.injEq] at hcs'
  subst hcs'
  cases he : cs.isEmpty
  · simp only [he, Bool.false_eq_true, ↓reduceIte, bind_eq_ok] at hs hs'
    obtain ⟨o, ho, hs⟩ := hs
    obtain ⟨o', ho', hs'⟩ := hs'
    cases o with
    | none => simp [pure_eq_ok] at hs
    | some rs =>
      obtain ⟨rs', rfl, hle⟩ := conditionResults_mono h ho ho'
      simp only at hs hs'
      rw [combineResults_mono h hle hs, Except.ok.injEq] at hs'
      exact hs'.symm
  · simp [he, pure_eq_ok] at hs

/-! ## Principals and statements -/

theorem principalOk_mono (h : Widens cfg cfg') {pid : Json} {b : Bool}
    (hb : principalOk cfg pid = .ok true) (hb' : principalOk cfg' pid = .ok b) : b = true := by
  unfold principalOk at hb hb'
  rw [h.everyoneOnly] at hb'
  cases pid with
  | str p =>
    simp only [Except.ok.injEq, Bool.and_eq_true, Bool.or_eq_true, List.any_eq_true] at hb
    rw [← Except.ok.inj hb']
    simp only [Bool.and_eq_true, Bool.or_eq_true, List.any_eq_true]
    refine ⟨hb.1, hb.2.imp (Or.imp_right ?_) (contains_mono h.allowedAccounts)⟩
    exact fun ⟨q, hq, hm⟩ => ⟨q, h.whitelistPatterns hq, hm⟩
  | _ =>
    cases he : cfg.everyoneOnly
    · simp [he] at hb
    · simp only [he, ↓reduceIte, Except.ok.injEq] at hb'
      exact hb'.symm

/-- **Principals.**  A principal that is refused was refused before. -/
theorem handlePrincipal_mono (h : Widens cfg cfg') {s : Json} {b : Bool}
    (hs : handlePrincipal cfg s = .ok b) (hs' : handlePrincipal cfg' s = .ok true) : b = true := by
  simp only [handlePrincipal, bind_eq_ok] at hs hs'
  obtain ⟨o, ho, hs⟩ := hs
  obtain ⟨o', ho', hs'⟩ := hs'
  rw [ho, Except.ok.injEq] at ho'
  subst ho'
  cases o with
  | none => exact (pure_eq_ok.mp hs).symm
  | some ids =>
    simp only [bind_eq_ok, pure_eq_ok] at hs hs'
    obtain ⟨oks, hoks, rfl⟩ := hs
    obtain ⟨oks', hoks', hno⟩ := hs'
    rw [mapM_eq_ok] at hoks hoks'
    rw [Bool.not_eq_true'] at hno ⊢
    rw [Bool.eq_false_iff] at hno ⊢
    intro hall
    apply hno
    clear hno ho
    induction hoks generalizing oks' with
    | nil =>
      cases hoks'
      rfl
    | cons hx _ ih =>
      cases hoks' with
      | cons hx' hxs' =>
        simp only [List.all_cons, id_eq, Bool.and_eq_true] at hall ⊢
        rw [hall.1] at hx
        exact ⟨principalOk_mono h hx hx', ih _ hxs' hall.2⟩

/-- **Statements.**  A statement that violates the wider configuration violates
the narrower one. -/
theorem handleStatement_mono (h : Widens cfg cfg') {s : Json} {b : Bool}
    (hs : handleStatement ct cfg s = .ok b) (hs' : handleStatement ct cfg' s = .ok true) :
    b = true := by
  simp only [handleStatement, bind_eq_ok] at hs hs'
  obtain ⟨p, hp, e, he, a, ha, hs⟩ := hs
  obtain ⟨p', hp', e', he', a', ha', hs'⟩ := hs'
  have haction : a' = a := by
    have : handleAction cfg' s = handleAction cfg s := by
      have hrec : ∀ as, anyActionChecked cfg' as = anyActionChecked cfg as := by
        intro as
        induction as with
        | nil => rfl
        | cons x as ih => simp only [anyActionChecked, h.checkActions, ih]
      simp only [handleAction, h.checkActions, hrec]
    rw [this, ha, Except.ok.injEq] at ha'
    exact ha'.symm
  rw [he, Except.ok.injEq] at he'
  subst haction he'
  cases htest : p' && e && a'
  · simp [htest, pure_eq_ok] at hs'
  · simp only [htest, ↓reduceIte, bind_eq_ok, pure_eq_ok] at hs'
    obtain ⟨w', hw', hs'⟩ := hs'
    simp only [Bool.and_eq_true] at htest
    obtain ⟨⟨rfl, rfl⟩, rfl⟩ := htest
    have hpt : p = true := handlePrincipal_mono h hp hp'
    subst hpt
    simp only [Bool.and_self, ↓reduceIte, bind_eq_ok, pure_eq_ok] at hs
    obtain ⟨w, hw, rfl⟩ := hs
    cases w
    · rfl
    · rw [handleConditions_mono h hw hw'] at hs'
      cases hs'

/-! ## Policies -/

/-- The predicate of a statement that a run of the checker computes. -/
def violates (ct : CaseTable) (cfg : CheckerConfig) (s : Json) : Bool :=
  match handleStatement ct cfg s with
  | .ok b => b
  | .error _ => false

theorem splitStatements_eq {ss allowed violations : List Json}
    (h : splitStatements ct cfg ss = .ok (allowed, violations)) :
    allowed = ss.filter (fun s => !violates ct cfg s) ∧ violations = ss.filter (violates ct cfg) ∧
      ∀ s ∈ ss, ∃ b, handleStatement ct cfg s = .ok b := by
  induction ss generalizing allowed violations with
  | nil =>
    simp only [splitStatements, Except.ok.injEq, Prod.mk.injEq] at h
    obtain ⟨rfl, rfl⟩ := h
    simp
  | cons s ss ih =>
    simp only [splitStatements, bind_eq_ok, pure_eq_ok, Prod.exists] at h
    obtain ⟨b, hb, a, v, hrest, h⟩ := h
    obtain ⟨rfl, rfl, hok⟩ := ih hrest
    have hv : violates ct cfg s = b := by simp only [violates, hb]
    refine ⟨?_, ?_, ?_⟩
    · cases b <;> simp_all
    · cases b <;> simp_all
    · intro t ht
      rcases List.mem_cons.mp ht with rfl | ht
      · exact ⟨b, hb⟩
      · exact hok t ht

/-! ### No test looks at which statements are returned -/

section ReturnAllowed

variable (b : Bool)

theorem anyActionChecked_returnAllowed (as : List Json) :
    anyActionChecked { cfg with returnAllowed := b } as = anyActionChecked cfg as := by
  induction as with
  | nil => rfl
  | cons a as ih => simp only [anyActionChecked, ih]

theorem anyPathRefused_returnAllowed (vs : List Json) :
    anyPathRefused { cfg with returnAllowed := b } vs = anyPathRefused cfg vs := by
  induction vs with
  | nil => rfl
  | cons v vs ih =>
    have hpath : ∀ t, orgPathAllowed { cfg with returnAllowed := b } t = orgPathAllowed cfg t :=
      fun _ => rfl
    simp only [anyPathRefused, hpath, ih]

theorem valuesForgiven_returnAllowed (vs : List Json) :
    valuesForgiven { cfg with returnAllowed := b } vs = valuesForgiven cfg vs := by
  induction vs with
  | nil => rfl
  | cons v vs ih => simp only [valuesForgiven, ih]

theorem failuresForgiven_returnAllowed (rs : List (Condition × Bool)) :
    failuresForgiven { cfg with returnAllowed := b } rs = failuresForgiven cfg rs := by
  induction rs with
  | nil => rfl
  | cons r rs ih =>
    obtain ⟨c, _ | _⟩ := r
    · simp only [failuresForgiven, valuesForgiven_returnAllowed, ih]
    · simp only [failuresForgiven, ih]

theorem handler_returnAllowed {key : Text} {f : Handler} (hf : handlerFor key = some f)
    (c : Condition) : f { cfg with returnAllowed := b } c = f cfg c := by
  simp only [handlerFor] at hf
  split at hf
  · rename_i g hg
    obtain rfl := Option.some.inj hf
    have hmem : ∀ e ∈ handlers, e.2 { cfg with returnAllowed := b } c = e.2 cfg c := by
      simp only [handlers, List.forall_mem_cons, List.not_mem_nil, false_implies, implies_true,
        and_true]
      refine ⟨rfl, rfl, rfl, rfl, rfl, rfl, rfl, ?_, rfl, rfl, rfl, rfl⟩
      simp only [handleAwsPrincipalorgpaths, anyPathRefused_returnAllowed]
    obtain ⟨l₁, l₂, e, -⟩ := List.lookup_eq_some_iff.mp hg
    exact hmem _ (e ▸ List.mem_append_right _ (List.mem_cons_self ..))
  · rw [Option.map_eq_some_iff] at hf
    obtain ⟨e, -, rfl⟩ := hf
    rfl

theorem conditionResults_returnAllowed (cs : List Condition) :
    conditionResults ct { cfg with returnAllowed := b } cs = conditionResults ct cfg cs := by
  have hcondition : ∀ c, handleCondition ct { cfg with returnAllowed := b } c =
      handleCondition ct cfg c := by
    intro c
    unfold handleCondition
    cases hf : handlerFor c.key with
    | none => rfl
    | some f => simp only [handler_returnAllowed b hf c]
  induction cs with
  | nil => rfl
  | cons c cs ih => simp only [conditionResults, hcondition, ih]

theorem handleStatement_returnAllowed (s : Json) :
    handleStatement ct { cfg with returnAllowed := b } s = handleStatement ct cfg s := by
  have hprincipal : handlePrincipal { cfg with returnAllowed := b } s = handlePrincipal cfg s := rfl
  have haction : handleAction { cfg with returnAllowed := b } s = handleAction cfg s := by
    simp only [handleAction, anyActionChecked_returnAllowed]
  have hconditions : handleConditions ct { cfg with returnAllowed := b } s =
      handleConditions ct cfg s := by
    simp only [handleConditions, conditionResults_returnAllowed, combineResults,
      failuresForgiven_returnAllowed]
  simp only [handleStatement, hprincipal, haction, hconditions]

end ReturnAllowed

theorem check_eq_ok {loads : Text → Except Exn Json} {p : PolicyText} {v : List Json}
    (h : check loads ct cfg p = .ok v) :
    ∃ ss, statements loads p = .ok ss ∧ (∀ s ∈ ss, ∃ b, handleStatement ct cfg s = .ok b) ∧
      v = ss.filter (fun s => violates ct cfg s != cfg.returnAllowed) := by
  simp only [check, bind_eq_ok, pure_eq_ok, Prod.exists] at h
  obtain ⟨ss, hss, allowed, violations, hsplit, rfl⟩ := h
  obtain ⟨rfl, rfl, hok⟩ := splitStatements_eq hsplit
  refine ⟨ss, hss, hok, ?_⟩
  cases cfg.returnAllowed <;> simp

theorem splitStatements_of_ok {ss : List Json}
    (h : ∀ s ∈ ss, ∃ b, handleStatement ct cfg s = .ok b) :
    ∃ allowed violations, splitStatements ct cfg ss = .ok (allowed, violations) := by
  induction ss with
  | nil => exact ⟨[], [], rfl⟩
  | cons s ss ih =>
    obtain ⟨b, hb⟩ := h s List.mem_cons_self
    obtain ⟨a, v, hav⟩ := ih fun t ht => h t (List.mem_cons_of_mem s ht)
    cases b
    · exact ⟨s :: a, v, by simp [splitStatements, hb, hav, bind, Except.bind, pure, Except.pure]⟩
    · exact ⟨a, s :: v, by simp [splitStatements, hb, hav, bind, Except.bind, pure, Except.pure]⟩

theorem check_returnAllowed {loads : Text → Except Exn Json} {p : PolicyText} {v : List Json}
    (h : check loads ct cfg p = .ok v) (b : Bool) :
    ∃ ss, statements loads p = .ok ss ∧
      check loads ct { cfg with returnAllowed := b } p =
        .ok (ss.filter fun s => violates ct cfg s != b) := by
  obtain ⟨ss, hss, hok, -⟩ := check_eq_ok h
  obtain ⟨a, w, hsplit⟩ : ∃ a w, splitStatements ct { cfg with returnAllowed := b } ss =
      .ok (a, w) := splitStatements_of_ok fun s hs => by
    rw [handleStatement_returnAllowed]
    exact hok s hs
  have hcheck : check loads ct { cfg with returnAllowed := b } p = .ok (if b then a else w) := by
    simp [check, hss, hsplit, bind, Except.bind, pure, Except.pure]
  obtain ⟨ss', hss', -, hv⟩ := check_eq_ok hcheck
  rw [hss, Except.ok.injEq] at hss'
  subst hss'
  refine ⟨ss, hss, ?_⟩
  rw [hcheck, hv]
  simp only [violates, handleStatement_returnAllowed]

theorem violates_mono (h : Widens cfg cfg') {s : Json}
    (hs : ∃ b, handleStatement ct cfg s = .ok b) (hv : violates ct cfg' s = true) :
    violates ct cfg s = true := by
  obtain ⟨b, hb⟩ := hs
  unfold violates at hv ⊢
  split at hv
  · rename_i b' hb'
    subst hv
    rw [hb]
    exact handleStatement_mono h hb hb'
  · cases hv

/-- **Widening an allowlist.**  A wider configuration reports no new statement,
and reporting the allowed statements instead gives exactly the others. -/
theorem check_widening {loads : Text → Except Exn Json} {p : PolicyText} {v v' : List Json}
    (h : Widens cfg cfg') (hv : check loads ct cfg p = .ok v)
    (hv' : check loads ct cfg' p = .ok v') :
    v'.Sublist v ∧
      ∃ ss reported, statements loads p = .ok ss ∧ v = ss.filter reported ∧
        check loads ct { cfg with returnAllowed := true } p =
          .ok (ss.filter fun s => !reported s) := by
  obtain ⟨ss, hss, hok, rfl⟩ := check_eq_ok hv
  obtain ⟨ss', hss', -, rfl⟩ := check_eq_ok hv'
  obtain ⟨ss'', hss'', hallowed⟩ := check_returnAllowed hv true
  rw [hss, Except.ok.injEq] at hss' hss''
  subst hss' hss''
  simp only [h.returnAllowed.1, h.returnAllowed.2, Bool.bne_false]
  refine ⟨?_, ss, violates ct cfg, hss, rfl, by simpa using hallowed⟩
  have hsub : ss.filter (violates ct cfg') =
      (ss.filter (violates ct cfg)).filter (violates ct cfg') := by
    rw [List.filter_filter]
    refine List.filter_congr fun s hs => ?_
    cases hs' : violates ct cfg' s
    · rfl
    · rw [violates_mono h (hok s hs) hs']
      rfl
  rw [hsub]
  exact List.filter_sublist

/-- An account is added: of a grant to it and a grant to everyone, the second
is still reported. -/
theorem check_widening_account :
    let grant := fun who : String => Json.obj [("Effect".toList, .str "Allow".toList),
      ("Principal".toList, .obj [("AWS".toList, .str who.toList)])]
    let grants := [grant "arn:aws:iam::123456789012:root", grant "*"]
    let policy := PolicyText.document (.obj [("Statement".toList, .arr grants)])
    let loads := fun _ => .error .typeError
    let narrow : CheckerConfig := {}
    let wide : CheckerConfig := { allowedAccounts := ["123456789012".toList] }
    check loads asciiTable narrow policy = .ok grants ∧
      check loads asciiTable wide policy = .ok [grant "*"] ∧ [grant "*"].Sublist grants ∧
      ∃ ss reported, statements loads policy = .ok ss ∧ grants = ss.filter reported ∧
        check loads asciiTable { narrow with returnAllowed := true } policy =
          .ok (ss.filter fun s => !reported s) := by
  intro grant grants policy loads narrow wide
  have hwidens : Widens narrow wide :=
    ⟨⟨rfl, rfl⟩, rfl, rfl, List.nil_subset _, List.nil_subset _, List.nil_subset _,
      List.nil_subset _, List.nil_subset _, Or.inl rfl, Or.inl rfl⟩
  have hnarrow : check loads asciiTable narrow policy = .ok grants := rfl
  have hwide : check loads asciiTable wide policy = .ok [grant "*"] := rfl
  exact ⟨hnarrow, hwide, check_widening hwidens hnarrow hwide⟩

end Custodian.Widening

import Custodian.Statements.HasStatement

/-!
# Order does not matter

What `has-statement` should keep is unchanged when statements, the items of lists or the
keys of dictionaries change places, in the policy or in the filter.
-/

namespace Custodian.Statements

open Py

/-! ## The same statements in another order -/

/-- Every entry of the one is in the other, where the values of an entry have the same
items and dictionaries the same entries again. -/
def Same (es fs : Entries Strings) : Prop :=
  (Nested.dict es).includedIn within (.dict fs) = true ∧
    (Nested.dict fs).includedIn within (.dict es) = true

def AllSame (ss ts : List (Entries Strings)) : Prop :=
  (∀ s ∈ ss, ∃ t ∈ ts, Same s t) ∧ ∀ t ∈ ts, ∃ s ∈ ss, Same t s

variable {ct : CaseTable}

/-- The same ids, required statements and policy in another order. -/
structure Reordered (ids ids' : List Text) (required required' : List (Statement ct))
    (doc doc' : Document ct) : Prop where
  ids : ∀ id, id ∈ ids ↔ id ∈ ids'
  required : AllSame (required.map Statement.entries) (required'.map Statement.entries)
  statements : AllSame doc.toList doc'.toList

theorem Same.symm {es fs : Entries Strings} (h : Same es fs) : Same fs es := ⟨h.2, h.1⟩

theorem Same.lookup {es fs : Entries Strings} (hes : es.distinct = true)
    (hfs : fs.distinct = true) (h : Same es fs) {k : Text} {v : Value}
    (hv : es.lookup k = some v) :
    ∃ w, fs.lookup k = some w ∧ v.includedIn within w = true ∧ w.includedIn within v = true := by
  obtain ⟨hle, hge⟩ := h
  rw [Nested.includedIn, Entries.allIn_iff hes] at hle
  rw [Nested.includedIn, Entries.allIn_iff hfs] at hge
  obtain ⟨w, hw, hvw⟩ := hle k v hv
  obtain ⟨v', hv', hwv⟩ := hge k w hw
  rw [hv, Option.some.injEq] at hv'
  subst hv'
  exact ⟨w, hw, hvw, hwv⟩

/-! ## Matching -/

theorem read_distinct {key : Text} {v : Value} (h : IsElement ct key v) :
    (read ct key v).distinct = true := by
  cases ha : isActionKey key
  · rw [read_eq ha, Nested.distinct_mapLeaves]
    exact readKeys_distinct h
  · obtain ⟨s, rfl⟩ := h.action ha
    rw [read_action ha]
    rfl

theorem within_of_includedIn {key : Text} {v w : Value} (hv : IsElement ct key v)
    (hw : IsElement ct key w) (h : v.includedIn within w = true) : Within ct key v w = true := by
  cases ha : isActionKey key
  · rw [within_eq ha]
    by_cases hk : key = "Condition".toList
    · rw [readKeys, readKeys, if_pos hk, if_pos hk]
      exact Nested.includedIn_mapKeys (hw.condition hk) h
    · rw [readKeys, readKeys, if_neg hk, if_neg hk]
      exact h
  · obtain ⟨s, rfl⟩ := hv.action ha
    obtain ⟨t, rfl⟩ := hw.action ha
    rw [Nested.includedIn, within, subset_iff] at h
    rw [Within, read_action ha, read_action ha, Nested.includedIn, subset_iff]
    exact List.map_subset ct.lower h

theorem within_trans {key : Text} {u v w : Value} (hu : IsElement ct key u)
    (hv : IsElement ct key v) (huv : Within ct key u v = true) (hvw : Within ct key v w = true) :
    Within ct key u w = true := by
  refine Nested.includedIn_trans ?_ (read_distinct hu) (read_distinct hv) huv hvw
  intro xs ys zs hxy hyz
  rw [subset_iff] at hxy hyz ⊢
  exact List.Subset.trans hxy hyz

theorem partialElements_same {r r' : Entries Strings} (hr : IsStatement ct r)
    (hr' : IsStatement ct r') (h : Same r r') : partialElements r ⊆ partialElements r' := by
  rw [partialElements]
  split
  · exact List.nil_subset _
  · rename_i s hs
    obtain ⟨w, hw, hle, -⟩ := h.lookup hr.distinct hr'.distinct hs
    rw [partialElements, hw]
    cases w with
    | leaf t => exact subset_iff.mp hle
    | dict fs => cases hle
  · rename_i es hs
    obtain ⟨w, hw, hle, -⟩ := h.lookup hr.distinct hr'.distinct hs
    rw [partialElements, hw]
    cases w with
    | leaf t => cases hle
    | dict fs =>
      rw [Nested.includedIn, Entries.allIn_iff (hr.elements.lookup hs).distinct] at hle
      intro k hk
      obtain ⟨v, hv⟩ := Entries.mem_keys.mp hk
      obtain ⟨w, hw, -⟩ := hle k v hv
      exact Entries.mem_keys.mpr ⟨w, hw⟩

theorem matchesStatement_iff {r s : Entries Strings} (hr : IsStatement ct r) :
    matchesStatement ct r s = true ↔ ∀ k v, r.lookup k = some v → k ≠ partialMatchKey →
      ∃ w, s.lookup k = some w ∧ matchesElement ct (partialElements r) k v w = true := by
  have hdistinct : (elements r).distinct = true :=
    Entries.distinct_erase hr.distinct partialMatchKey
  rw [matchesStatement, Entries.forall_iff (f := matchesElement ct (partialElements r))
    (g := everyElement (matchesElement ct (partialElements r))) (fun _ => rfl)
    (fun _ _ _ _ => rfl) hdistinct]
  refine forall₂_congr fun k v => ?_
  rw [elements, Entries.lookup_erase hr.distinct]
  by_cases hk : k = partialMatchKey <;> simp [hk]

theorem matchesStatement_same {r r' s s' : Entries Strings} (hr : IsStatement ct r)
    (hr' : IsStatement ct r') (hs : IsStatement ct s) (hs' : IsStatement ct s')
    (hrr : Same r r') (hss : Same s s') (h : matchesStatement ct r s = true) :
    matchesStatement ct r' s' = true := by
  rw [matchesStatement_iff hr] at h
  rw [matchesStatement_iff hr']
  intro k v' hv' hk
  obtain ⟨v, hv, hv'v, hvv'⟩ := hrr.symm.lookup hr'.distinct hr.distinct hv'
  obtain ⟨w, hw, hmatch⟩ := h k v hv hk
  obtain ⟨w', hw', hww', hw'w⟩ := hss.lookup hs.distinct hs'.distinct hw
  have hev := hr.elements.lookup hv
  have hev' := hr'.elements.lookup hv'
  have hew := hs.elements.lookup hw
  have hew' := hs'.elements.lookup hw'
  refine ⟨w', hw', ?_⟩
  rw [matchesElement, Bool.and_eq_true, Bool.or_eq_true, decide_eq_true_eq] at hmatch ⊢
  constructor
  · have hv'w := within_trans hev' hev (within_of_includedIn hev' hev hv'v) hmatch.1
    exact within_trans hev' hew hv'w (within_of_includedIn hew hew' hww')
  · rcases hmatch.2 with hpartial | hback
    · exact Or.inl (partialElements_same hr hr' hrr hpartial)
    · have hw'v := within_trans hew' hew (within_of_includedIn hew' hew hw'w) hback
      exact Or.inr (within_trans hew' hev hw'v (within_of_includedIn hev hev' hvv'))

/-! ## Formatting -/

section Format

variable {format : Text → Except Exn Text}

/-- The text that formatting writes. -/
def formattedText (format : Text → Except Exn Text) (t : Text) : Text :=
  (formatText format t).toOption.getD t

theorem formattedText_eq {t u : Text} (h : formatText format t = .ok u) :
    formattedText format t = u := by
  rw [formattedText, h]
  rfl

theorem items_of_formatStrings {s t : Strings} (h : formatStrings format s = .ok t) :
    t.items = s.items.map (formattedText format) := by
  cases s with
  | one x =>
    simp only [formatStrings, bind_eq_ok, pure_eq_ok] at h
    obtain ⟨y, hy, rfl⟩ := h
    rw [Strings.items, Strings.items, List.map_singleton, formattedText_eq hy]
  | many xs =>
    simp only [formatStrings, bind_eq_ok, pure_eq_ok] at h
    obtain ⟨ys, hys, rfl⟩ := h
    have hmap : xs.mapM (formatText format) = .ok (xs.map (formattedText format)) := by
      refine mapM_eq_map fun x hx => ?_
      obtain ⟨y, -, hy⟩ := exists_of_forall₂ ((mapM_eq_ok _ _ _).mp hys) hx
      rw [formattedText_eq hy, hy]
    rw [hys, Except.ok.injEq] at hmap
    exact hmap

theorem items_of_formatStringValues {es es' : Entries Strings}
    (h : formatStringValues format es = .ok es') : es'.mapLeaves Strings.items =
      es.mapLeaves fun s => s.items.map (formattedText format) :=
  Entries.mapLeaves_of_mapLeavesM (fun _ _ => items_of_formatStrings) h

theorem includedIn_formatStringValues {es fs es' fs' : Entries Strings}
    (hes : es.distinct = true) (h : (Nested.dict es).includedIn within (.dict fs) = true)
    (hes' : formatStringValues format es = .ok es')
    (hfs' : formatStringValues format fs = .ok fs') :
    (Nested.dict es').includedIn within (.dict fs') = true := by
  have hread := Nested.includedIn_mapLeaves subset Strings.items Strings.items (.dict es')
    (.dict fs')
  rw [Nested.mapLeaves, Nested.mapLeaves, items_of_formatStringValues hes',
    items_of_formatStringValues hfs', ← Nested.mapLeaves, ← Nested.mapLeaves,
    Nested.includedIn_mapLeaves] at hread
  refine hread.symm.trans (Nested.includedIn_mono (fun s t hst => ?_) hes h)
  rw [within, subset_iff] at hst
  exact subset_iff.mpr (List.map_subset _ hst)

theorem formatStringValues_same {es fs es' fs' : Entries Strings} (hes : es.distinct = true)
    (hfs : fs.distinct = true) (h : Same es fs) (hes' : formatStringValues format es = .ok es')
    (hfs' : formatStringValues format fs = .ok fs') : Same es' fs' :=
  ⟨includedIn_formatStringValues hes h.1 hes' hfs',
    includedIn_formatStringValues hfs h.2 hfs' hes'⟩

theorem exists_formatted_same {required required' : List (Statement ct)}
    {rs rs' : List (Entries Strings)}
    (h : ∀ r ∈ required.map Statement.entries, ∃ r' ∈ required'.map Statement.entries, Same r r')
    (hrs : (required.map Statement.entries).mapM (formatStringValues format) = .ok rs)
    (hrs' : (required'.map Statement.entries).mapM (formatStringValues format) = .ok rs') :
    ∀ r ∈ rs, ∃ r' ∈ rs', Same r r' := by
  refine forall_of_mapM_eq_ok hrs fun es hes fs hfs => ?_
  obtain ⟨es', hes', hsame⟩ := h es hes
  obtain ⟨fs', hmem, hfs'⟩ := exists_of_forall₂ ((mapM_eq_ok _ _ _).mp hrs') hes'
  obtain ⟨r, -, rfl⟩ := List.mem_map.mp hes
  obtain ⟨r', -, rfl⟩ := List.mem_map.mp hes'
  exact ⟨fs', hmem, formatStringValues_same r.isStatement.distinct r'.isStatement.distinct hsame
    hfs hfs'⟩

end Format

/-! ## The filter -/

theorem lookup_sid_same {s t : Entries Strings} (hs : IsStatement ct s) (ht : IsStatement ct t)
    (h : Same s t) {id : Text} (hid : s.lookup "Sid".toList = some (.leaf (.one id))) :
    t.lookup "Sid".toList = some (.leaf (.one id)) := by
  obtain ⟨w, hw, hle, -⟩ := h.lookup hs.distinct ht.distinct hid
  obtain ⟨u, rfl⟩ := (ht.elements.lookup hw).sid rfl
  rw [Nested.includedIn, within, subset_iff] at hle
  have hmem := hle (List.mem_singleton_self id)
  rw [Strings.items, List.mem_singleton] at hmem
  rw [hw, hmem]

theorem wanted_of_allSame {ids ids' : List Text} {rs rs' ss ts : List (Entries Strings)}
    (hrs : ∀ r ∈ rs, IsStatement ct r) (hrs' : ∀ r ∈ rs', IsStatement ct r)
    (hss : ∀ s ∈ ss, IsStatement ct s) (hts : ∀ t ∈ ts, IsStatement ct t)
    (hids : ∀ id ∈ ids', id ∈ ids) (hrequired : ∀ r' ∈ rs', ∃ r ∈ rs, Same r' r)
    (hstatements : ∀ s ∈ ss, ∃ t ∈ ts, Same s t) (h : Wanted ct ids rs ss) :
    Wanted ct ids' rs' ts := by
  constructor
  · intro id hid
    obtain ⟨s, hs, hsid⟩ := h.ids id (hids id hid)
    obtain ⟨t, ht, hst⟩ := hstatements s hs
    exact ⟨t, ht, lookup_sid_same (hss s hs) (hts t ht) hst hsid⟩
  · intro r' hr'
    obtain ⟨r, hr, hrr⟩ := hrequired r' hr'
    obtain ⟨s, hs, hmatch⟩ := h.statements r hr
    obtain ⟨t, ht, hst⟩ := hstatements s hs
    exact ⟨t, ht, matchesStatement_same (hrs r hr) (hrs' r' hr') (hss s hs) (hts t ht) hrr.symm hst
      hmatch⟩

theorem wanted_reordered {format : Text → Except Exn Text} {ids ids' : List Text}
    {required required' : List (Statement ct)} {doc doc' : Document ct}
    (h : Reordered ids ids' required required' doc doc') {rs rs' : List (Entries Strings)}
    (hrs : (required.map Statement.entries).mapM (formatStringValues format) = .ok rs)
    (hrs' : (required'.map Statement.entries).mapM (formatStringValues format) = .ok rs') :
    Wanted ct ids rs doc.toList ↔ Wanted ct ids' rs' doc'.toList := by
  have hisrs := isStatement_formatted hrs
  have hisrs' := isStatement_formatted hrs'
  constructor
  · exact wanted_of_allSame hisrs hisrs' doc.isStatement doc'.isStatement
      (fun id hid => (h.ids id).mpr hid) (exists_formatted_same h.required.2 hrs' hrs)
      h.statements.1
  · exact wanted_of_allSame hisrs' hisrs doc'.isStatement doc.isStatement
      (fun id hid => (h.ids id).mp hid) (exists_formatted_same h.required.1 hrs hrs')
      h.statements.2

theorem meets_reordered {format : Text → Except Exn Text} {ids ids' : List Text}
    {required required' : List (Statement ct)} {doc doc' : Document ct}
    (h : Reordered ids ids' required required' doc doc') (hmeets : Meets ct format ids required doc)
    (hmeets' : Meets ct format ids' required' doc') :
    processResource ct format ids (required.map Statement.entries) (some doc.statements) =
      processResource ct format ids' (required'.map Statement.entries) (some doc'.statements) := by
  obtain ⟨rs, kept, hrs, hkept, hwanted⟩ := hmeets
  obtain ⟨rs', kept', hrs', hkept', hwanted'⟩ := hmeets'
  rw [hkept, hkept', Except.ok.injEq, Bool.eq_iff_iff, hwanted, hwanted']
  exact wanted_reordered h hrs hrs'

/-- **The filter keeps what it should exactly when nothing goes wrong**, and then in whichever
order the ids, the statements, their lists and their dictionaries stand. -/
theorem processResource_meets_iff (format : Text → Except Exn Text) (ids : List Text)
    (required : List (Statement ct)) (doc : Document ct) :
    (Meets ct format ids required doc ↔ Handled ct format ids required doc) ∧
      ∀ ids' (required' : List (Statement ct)) (doc' : Document ct),
        Reordered ids ids' required required' doc doc' → Handled ct format ids required doc →
        Handled ct format ids' required' doc' →
        processResource ct format ids (required.map Statement.entries) (some doc.statements) =
          processResource ct format ids' (required'.map Statement.entries)
            (some doc'.statements) := by
  refine ⟨meets_iff_handled format ids required doc, ?_⟩
  intro ids' required' doc' hreordered h h'
  exact meets_reordered hreordered ((meets_iff_handled ..).mpr h) ((meets_iff_handled ..).mpr h')

/-! ## A principal that cannot be merged -/

theorem isElement_plain {key : Text} {v : Value} (hv : v.distinct = true)
    (ha : isActionKey key = false) (hc : key ≠ "Condition".toList) (hs : key ≠ "Sid".toList) :
    IsElement ct key v :=
  ⟨hv, fun h => absurd h (by rw [ha]; exact Bool.false_ne_true), fun h => absurd h hc,
    fun h => absurd h hs⟩

/-- `{"Effect": "Allow", "Principal": "*"}` -/
def everyone : Statement asciiTable where
  entries := .cons "Effect".toList (.leaf (.one "Allow".toList))
    (.cons "Principal".toList (.leaf (.one "*".toList)) .nil)
  isStatement := ⟨by decide, by decide,
    isElement_plain rfl (by decide) (by decide) (by decide),
    isElement_plain rfl (by decide) (by decide) (by decide), trivial⟩

/-- `{"Effect": "Allow", "Principal": {"AWS": "*"}, "PartialMatch": "Principal"}` -/
def anyAccount : Statement asciiTable where
  entries := .cons "Effect".toList (.leaf (.one "Allow".toList))
    (.cons "Principal".toList (.dict (.cons "AWS".toList (.leaf (.one "*".toList)) .nil))
      (.cons "PartialMatch".toList (.leaf (.one "Principal".toList)) .nil))
  isStatement := ⟨by decide, by decide,
    isElement_plain rfl (by decide) (by decide) (by decide),
    isElement_plain (by decide) (by decide) (by decide) (by decide),
    isElement_plain rfl (by decide) (by decide) (by decide), trivial⟩

/-- A required map raises where the policy has a string. -/
theorem principal_map_raises :
    ¬Meets asciiTable (fun t => .ok t) [] [anyAccount] (.list [everyone]) := by
  rintro ⟨rs, kept, -, hkept, -⟩
  have herror : processResource asciiTable (fun t => .ok t) [] [anyAccount.entries]
      (some (Document.list [everyone]).statements) = .error .typeError := by rfl
  rw [List.map_singleton, herror] at hkept
  cases hkept

end Custodian.Statements

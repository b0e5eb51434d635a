import Custodian.Lib.Numeral
import Custodian.Lib.Split
import Mathlib.Data.List.Dedup

/-!
# Texts of port ranges

`PortsRangeHelper` of `c7n_azure/utils.py`, as far as the ports actions use it.
-/

namespace Custodian.PortsRangeHelper

open Py

/-- `PortsRange` -/
structure PortsRange where
  start : Nat
  stop : Nat
  deriving DecidableEq

/-- `int(s)`, which ignores white space around the digits. -/
def readPort (s : Text) : Except Exn Nat := int (strip s)

/-- `_get_port_range` -/
def getPortRange (rangeStr : Text) : Except Exn PortsRange :=
  if rangeStr = ['*'] then .ok ⟨0, 65535⟩
  else match rangeStr.splitOn '-' with
    | [a, b] => do
      let start ← readPort a
      let stop ← readPort b
      pure ⟨start, stop⟩
    | s => do
      let port ← readPort (s.headD [])
      pure ⟨port, port⟩

/-- `_get_string_port_ranges` -/
def getStringPortRanges (ports : Text) : Except Exn (List PortsRange) :=
  ((ports.splitOn ',').filter (· ≠ [])).mapM getPortRange

/-- `_get_rule_port_ranges`, for the two keys of a rule's properties. -/
def getRulePortRanges (destinationPortRange : Option Text)
    (destinationPortRanges : Option (List Text)) : Except Exn (List PortsRange) :=
  match destinationPortRange.filter (· ≠ []) with
  | some rangeStr => [rangeStr].mapM getPortRange
  | none => destinationPortRanges.elim (.error .keyError) fun ranges => ranges.mapM getPortRange

/-- `_port_ranges_to_set` -/
def portRangesToSet (ranges : List PortsRange) : List Nat :=
  (ranges.flatMap fun r => List.range' r.start (r.stop + 1 - r.start)).dedup

/-- The text without a line break at its end, which `$` ignores. -/
def dropNewline (s : Text) : Text := if s.getLast? = some '\n' then s.dropLast else s

/-- `^\d+(-\d+)?(,\d+(-\d+)?)*$` -/
def matchesPorts (s : Text) : Bool :=
  ((dropNewline s).splitOn ',').all fun r =>
    (r.splitOn '-').length ≤ 2 && (r.splitOn '-').all fun n => n ≠ [] && n.all isDigit

/-- `validate_ports_string` -/
def validatePortsString (ports : Text) : Except Exn Bool :=
  if matchesPorts ports then do
    let ranges ← getStringPortRanges ports
    pure (!ranges.any fun r => r.start > r.stop || r.start > 65535 || r.stop > 65535)
  else .ok false

/-- `get_ports_set_from_string` -/
def getPortsSetFromString (ports : Text) : Except Exn (List Nat) := do
  let ranges ← getStringPortRanges ports
  pure (portRangesToSet ranges)

/-- `str(n)` -/
def str (n : Nat) : Text := Nat.toDigits 10 n

/-- The text of a range. -/
def rangeText (x : PortsRange) : Text :=
  if x.start = x.stop then str x.start else str x.start ++ '-' :: str x.stop

/-- The loop of `get_ports_strings_from_list`: `data[first]` and `data[it - 1]` are the bounds of
the range so far, `n` is `it - first`. -/
def collectRanges (start stop n : Nat) : List Nat → List PortsRange
  | [] => [⟨start, stop⟩]
  | x :: data =>
    if (start : Int) = x - n then collectRanges start x (n + 1) data
    else ⟨start, stop⟩ :: collectRanges x x 1 data

/-- `get_ports_strings_from_list` -/
def getPortsStringsFromList : List Nat → List Text
  | [] => []
  | x :: data => (collectRanges x x 1 data).map rangeText

/-! ## What a text of ports denotes -/

/-- A decimal number, white space around it ignored. -/
def IsPort (s : Text) (n : Nat) : Prop :=
  IsNumeral (strip s) n ∧ (strip s).length ≤ maxStrDigits

/-- `*`, one number, or two with a dash between them. -/
def IsPortRange (s : Text) (r : PortsRange) : Prop :=
  (s = ['*'] ∧ r = ⟨0, 65535⟩) ∨ (IsPort s r.start ∧ r.stop = r.start) ∨
    ∃ a b, s = a ++ '-' :: b ∧ IsPort a r.start ∧ IsPort b r.stop

/-- The text denotes a range that holds the port. -/
def Spans (s : Text) (p : Nat) : Prop := ∃ r, IsPortRange s r ∧ r.start ≤ p ∧ p ≤ r.stop

/-- The port is in one of the ranges that commas separate. -/
def Listed (ports : Text) (p : Nat) : Prop := ∃ s ∈ ports.splitOn ',', Spans s p

theorem readPort_eq_ok {s : Text} {n : Nat} : readPort s = .ok n ↔ IsPort s n := int_eq_ok

theorem IsPort.isDigit_or_isSpace {s : Text} {n : Nat} (h : IsPort s n) {c : Char} (hc : c ∈ s) :
    isDigit c = true ∨ isSpace c = true := by
  refine (mem_strip_or_isSpace hc).imp_left fun hc => ?_
  obtain ⟨⟨-, ds, hds, -⟩, -⟩ := h
  obtain ⟨d, -, hd⟩ := exists_of_forall₂ hds hc
  rw [isDigit, hd]
  rfl

theorem IsPort.no_dash {s : Text} {n : Nat} (h : IsPort s n) : '-' ∉ s := fun hc =>
  (h.isDigit_or_isSpace hc).elim (by decide) (by decide)

theorem not_isPort_star {n : Nat} : ¬IsPort ['*'] n := fun h =>
  (h.isDigit_or_isSpace List.mem_cons_self).elim (by decide) (by decide)

theorem not_isPortRange_nil {r : PortsRange} : ¬IsPortRange [] r := by
  rintro (⟨h, -⟩ | ⟨⟨⟨h, -⟩, -⟩, -⟩ | ⟨a, b, h, -⟩)
  · cases h
  · exact h rfl
  · simp at h

theorem IsPortRange.length_splitOn {s : Text} {r : PortsRange} (h : IsPortRange s r) :
    (s.splitOn '-').length ≤ 2 := by
  rcases h with ⟨rfl, -⟩ | ⟨h, -⟩ | ⟨a, b, rfl, ha, hb⟩
  · rw [splitOn_of_not_mem (by decide)]
    decide
  · rw [splitOn_of_not_mem h.no_dash, List.length_singleton]
    decide
  · rw [splitOn_append_cons ha.no_dash, splitOn_of_not_mem hb.no_dash]
    rfl

theorem getPortRange_eq_ok {s : Text} (hs : (s.splitOn '-').length ≤ 2) {r : PortsRange} :
    getPortRange s = .ok r ↔ IsPortRange s r := by
  by_cases hstar : s = ['*']
  · subst hstar
    rw [getPortRange, if_pos rfl, IsPortRange, Except.ok.injEq, eq_comm]
    constructor
    · exact fun h => .inl ⟨rfl, h⟩
    · rintro (⟨-, h⟩ | ⟨h, -⟩ | ⟨a, b, h, -⟩)
      · exact h
      · exact absurd h not_isPort_star
      · have hmem : '-' ∈ ['*'] := h ▸ List.mem_append_right a List.mem_cons_self
        exact absurd hmem (by decide)
  rw [getPortRange, if_neg hstar, IsPortRange, or_iff_right fun h => hstar h.1]
  have hpair : ∀ a b, s.splitOn '-' = [a, b] ↔ s = a ++ '-' :: b ∧ '-' ∉ a ∧ '-' ∉ b := by
    intro a b
    rw [← splitTwo_eq_some, splitTwo]
    constructor
    · intro h
      rw [h]
    · intro h
      split at h
      · rename_i h'
        cases h
        exact h'
      · cases h
  split
  · rename_i a b hab
    obtain ⟨rfl, ha, hb⟩ := (hpair a b).mp hab
    simp only [bind_eq_ok, readPort_eq_ok, pure_eq_ok]
    constructor
    · rintro ⟨start, hstart, stop, hstop, rfl⟩
      exact .inr ⟨a, b, rfl, hstart, hstop⟩
    · rintro (⟨h, -⟩ | ⟨a', b', hab', hstart, hstop⟩)
      · exact absurd (List.mem_append_right a List.mem_cons_self) h.no_dash
      · have h := (hpair a' b').mpr ⟨hab', hstart.no_dash, hstop.no_dash⟩
        rw [hab] at h
        cases h
        exact ⟨_, hstart, _, hstop, rfl⟩
  · rename_i hno
    obtain ⟨x, rest, hx⟩ := List.exists_cons_of_ne_nil (List.splitOn_ne_nil '-' s)
    have hrest : rest = [] := by
      rcases rest with - | ⟨y, - | ⟨z, rest⟩⟩
      · rfl
      · exact absurd hx (hno x y)
      · simp [hx] at hs
    subst hrest
    have hjoin : ['-'].intercalate (s.splitOn '-') = s := List.intercalate_splitOn '-'
    rw [hx, List.intercalate_singleton] at hjoin
    subst hjoin
    have hdash : '-' ∉ x := not_mem_of_mem_splitOn (hx ▸ List.mem_cons_self)
    simp only [hx, List.headD_cons, bind_eq_ok, readPort_eq_ok, pure_eq_ok]
    constructor
    · rintro ⟨port, hport, rfl⟩
      exact .inl ⟨hport, rfl⟩
    · rintro (⟨hstart, hstop⟩ | ⟨a, b, rfl, -⟩)
      · exact ⟨r.start, hstart, congrArg (PortsRange.mk r.start) hstop.symm⟩
      · exact absurd (List.mem_append_right a List.mem_cons_self) hdash

theorem IsPortRange.unique {s : Text} {r r' : PortsRange} (h : IsPortRange s r)
    (h' : IsPortRange s r') : r = r' := by
  have hlen : (s.splitOn '-').length ≤ 2 := h.length_splitOn
  have hr := (getPortRange_eq_ok hlen).mpr h
  rw [(getPortRange_eq_ok hlen).mpr h'] at hr
  exact (Except.ok.inj hr).symm

/-! ## The ports of a text -/

theorem mem_portRangesToSet {ranges : List PortsRange} {p : Nat} :
    p ∈ portRangesToSet ranges ↔ ∃ r ∈ ranges, r.start ≤ p ∧ p ≤ r.stop := by
  simp only [portRangesToSet, List.mem_dedup, List.mem_flatMap, List.mem_range'_1]
  refine exists_congr fun r => and_congr_right fun _ => and_congr_right fun _ => ?_
  omega

theorem mem_of_forall₂ {texts : List Text} {ranges : List PortsRange}
    (h : List.Forall₂ IsPortRange texts ranges) {p : Nat} :
    p ∈ portRangesToSet ranges ↔ ∃ s ∈ texts, Spans s p := by
  rw [mem_portRangesToSet]
  constructor
  · rintro ⟨r, hr, hp⟩
    obtain ⟨s, hs, hsr⟩ := exists_of_forall₂ h.flip hr
    exact ⟨s, hs, r, hsr, hp⟩
  · rintro ⟨s, hs, r, hsr, hp⟩
    obtain ⟨r', hr', hsr'⟩ := exists_of_forall₂ h hs
    exact ⟨r', hr', hsr'.unique hsr ▸ hp⟩

theorem length_splitOn_of_matchesPorts {s : Text} (h : matchesPorts s) :
    ∀ r ∈ s.splitOn ',', (r.splitOn '-').length ≤ 2 := by
  have hparts : ∀ r ∈ (dropNewline s).splitOn ',', (r.splitOn '-').length ≤ 2 := by
    intro r hr
    have hr := List.all_eq_true.mp h r hr
    rw [Bool.and_eq_true] at hr
    exact of_decide_eq_true hr.1
  rw [dropNewline] at hparts
  split at hparts
  · rename_i hlast
    obtain ⟨t, rfl⟩ := List.getLast?_eq_some_iff.mp hlast
    rw [List.dropLast_concat] at hparts
    obtain ⟨parts, last, ht, hs⟩ := splitOn_concat (c := ',') (x := '\n') (by decide) t
    rw [ht, List.forall_mem_append, List.forall_mem_singleton] at hparts
    rw [hs, List.forall_mem_append, List.forall_mem_singleton]
    obtain ⟨ps, l, hl, hl'⟩ := splitOn_concat (c := '-') (x := '\n') (by decide) last
    refine ⟨hparts.1, ?_⟩
    have hlen := hparts.2
    rw [hl] at hlen
    rw [hl']
    simpa using hlen
  · exact hparts

/-- **A text that validation accepts is read as the ports it lists.** -/
theorem mem_getPortsSetFromString {s : Text} (h : validatePortsString s = .ok true) :
    ∃ ports, getPortsSetFromString s = .ok ports ∧ (∀ p, p ∈ ports ↔ Listed s p) ∧
      ∀ p ∈ ports, p ≤ 65535 := by
  rw [validatePortsString] at h
  split at h
  · rename_i hm
    obtain ⟨ranges, hranges, hvalid⟩ := bind_eq_ok.mp h
    have hle : ∀ p ∈ portRangesToSet ranges, p ≤ 65535 := by
      intro p hp
      obtain ⟨r, hr, -, hstop⟩ := mem_portRangesToSet.mp hp
      rw [pure_eq_ok, Bool.not_eq_true', List.any_eq_false] at hvalid
      have hr := hvalid r hr
      simp only [Bool.or_eq_true, decide_eq_true_eq, not_or, Nat.not_lt] at hr
      exact hstop.trans hr.2
    refine ⟨portRangesToSet ranges, by rw [getPortsSetFromString, hranges]; rfl, fun p => ?_, hle⟩
    rw [getStringPortRanges, mapM_eq_ok, forall₂_congr_mem (S := IsPortRange) fun s hs r =>
      getPortRange_eq_ok (length_splitOn_of_matchesPorts hm s (List.mem_of_mem_filter hs))]
      at hranges
    rw [mem_of_forall₂ hranges, Listed]
    refine exists_congr fun t => and_congr_left fun ⟨r, ht, _⟩ => ?_
    rw [List.mem_filter, and_iff_left]
    rw [decide_eq_true_eq]
    rintro rfl
    exact not_isPortRange_nil ht
  · cases h

/-- The texts of a rule's ports, for the two keys of its properties. -/
def portTexts (destinationPortRange : Option Text) (destinationPortRanges : Option (List Text)) :
    List Text :=
  match destinationPortRange.filter (· ≠ []) with
  | some rangeStr => [rangeStr]
  | none => destinationPortRanges.getD []

theorem exists_getRulePortRanges {single : Option Text} {ranges : Option (List Text)}
    (hsome : (single.filter (· ≠ [])).isSome ∨ ranges.isSome)
    (hports : ∀ s ∈ portTexts single ranges, ∃ r, IsPortRange s r) :
    ∃ rs, getRulePortRanges single ranges = .ok rs ∧
      ∀ p, p ∈ portRangesToSet rs ↔ ∃ s ∈ portTexts single ranges, Spans s p := by
  have htexts : getRulePortRanges single ranges = (portTexts single ranges).mapM getPortRange := by
    unfold getRulePortRanges portTexts
    cases hsingle : single.filter (· ≠ []) with
    | some rangeStr => rfl
    | none =>
      rw [hsingle] at hsome
      obtain ⟨texts, htexts⟩ := Option.isSome_iff_exists.mp (hsome.resolve_left (by simp))
      rw [htexts]
      rfl
  have hread : ∀ s ∈ portTexts single ranges, ∀ r, getPortRange s = .ok r ↔ IsPortRange s r := by
    intro s hs r
    obtain ⟨r', hr'⟩ := hports s hs
    exact getPortRange_eq_ok hr'.length_splitOn
  obtain ⟨rs, hrs⟩ := exists_mapM_eq_ok fun s hs =>
    (hports s hs).imp fun r hr => (hread s hs r).mpr hr
  refine ⟨rs, htexts.trans hrs, fun p => mem_of_forall₂ ?_⟩
  exact (forall₂_congr_mem hread).mp ((mapM_eq_ok _ _ _).mp hrs)

theorem getPortsSetFromString_nil :
    getPortsSetFromString [] = .ok [] ∧ ∀ p, ¬Listed [] p := by
  refine ⟨rfl, fun p => ?_⟩
  rintro ⟨s, hs, r, hr, -⟩
  obtain rfl := List.mem_singleton.mp hs
  exact not_isPortRange_nil hr

/-! ## Ports written as texts -/

theorem digitValue_digitChar {d : Nat} (hd : d < 10) : digitValue (Nat.digitChar d) = some d := by
  have h : ∀ d ∈ List.range 10, digitValue (Nat.digitChar d) = some d := by decide
  exact h d (List.mem_range.mpr hd)

theorem isNumeral_str (n : Nat) : IsNumeral (str n) n := by
  induction n using Nat.base_induction 10 (by decide) with
  | single m hm =>
    rw [str, Nat.toDigits_of_lt_base hm]
    refine ⟨by simp, [m], .cons (digitValue_digitChar hm) .nil, by simp⟩
  | digit m k hk hm ih =>
    rw [str, ← Nat.toDigits_append_toDigits (by decide) hm hk, Nat.toDigits_of_lt_base hk]
    obtain ⟨hne, ds, hds, hm'⟩ := ih
    refine ⟨by simp, ds ++ [k], List.rel_append hds (.cons (digitValue_digitChar hk) .nil), ?_⟩
    rw [List.reverse_append, List.reverse_singleton, List.singleton_append, Nat.ofDigits_cons, ← hm']
    omega

theorem isSpace_of_mem_str {n : Nat} {c : Char} (hc : c ∈ str n) : isSpace c = false := by
  have hdigit := Nat.isDigit_of_mem_toDigits (by decide) (by decide) hc
  have htable : ∀ k ∈ List.range 10, isSpace (Char.ofNat (48 + k)) = false := by decide
  simp only [Char.isDigit, ge_iff_le, Bool.and_eq_true, decide_eq_true_eq] at hdigit
  have h48 : 48 ≤ c.toNat := hdigit.1
  have h57 : c.toNat ≤ 57 := hdigit.2
  have h := htable (c.toNat - 48) (List.mem_range.mpr (by omega))
  rwa [Nat.add_sub_cancel' h48, Char.ofNat_toNat] at h

theorem isPort_str {n : Nat} (hn : n ≤ 65535) : IsPort (str n) n := by
  have hlen : (str n).length ≤ 5 := Nat.toDigits_length 10 n 5 (by decide) (by omega)
  have hstrip : strip (str n) = str n := strip_of_edges
    ⟨fun _ hx => isSpace_of_mem_str (List.mem_of_mem_head? hx),
      fun _ hx => isSpace_of_mem_str (List.mem_of_mem_getLast? hx)⟩
  rw [IsPort, hstrip]
  exact ⟨isNumeral_str n, hlen.trans (by decide)⟩

theorem isPortRange_rangeText {x : PortsRange} (h : x.start ≤ 65535) (h' : x.stop ≤ 65535) :
    IsPortRange (rangeText x) x := by
  rw [rangeText]
  split
  · rename_i heq
    exact .inr (.inl ⟨isPort_str h, heq.symm⟩)
  · exact .inr (.inr ⟨_, _, rfl, isPort_str h, isPort_str h'⟩)

theorem mem_collectRanges {start stop n : Nat} (hn : start + n = stop + 1) (hs : start ≤ stop)
    (data : List Nat) (p : Nat) :
    (∃ r ∈ collectRanges start stop n data, r.start ≤ p ∧ p ≤ r.stop) ↔
      (start ≤ p ∧ p ≤ stop) ∨ p ∈ data := by
  induction data generalizing start stop n with
  | nil => simp [collectRanges]
  | cons x data ih =>
    rw [collectRanges, List.mem_cons]
    split
    · rw [ih (by omega) (by omega), ← or_assoc]
      refine or_congr_left ?_
      omega
    · simp only [List.mem_cons, exists_eq_or_imp]
      rw [ih rfl le_rfl]
      refine or_congr_right (or_congr_left ?_)
      omega

theorem le_of_mem_collectRanges {start stop n m : Nat} (h : start ≤ m) (h' : stop ≤ m)
    {data : List Nat} (hdata : ∀ x ∈ data, x ≤ m) :
    ∀ r ∈ collectRanges start stop n data, r.start ≤ m ∧ r.stop ≤ m := by
  induction data generalizing start stop n with
  | nil => simp [collectRanges, h, h']
  | cons x data ih =>
    rw [List.forall_mem_cons] at hdata
    rw [collectRanges]
    split
    · exact ih h hdata.1 hdata.2
    · rw [List.forall_mem_cons]
      exact ⟨⟨h, h'⟩, ih hdata.1 hdata.1 hdata.2⟩

/-- **The texts made of a list of ports cover its ports and no others.** -/
theorem spans_getPortsStringsFromList {data : List Nat} (h : ∀ x ∈ data, x ≤ 65535) (p : Nat) :
    (∃ s ∈ getPortsStringsFromList data, Spans s p) ↔ p ∈ data := by
  cases data with
  | nil => simp [getPortsStringsFromList]
  | cons x data =>
    rw [List.forall_mem_cons] at h
    have htexts : List.Forall₂ IsPortRange ((collectRanges x x 1 data).map rangeText)
        (collectRanges x x 1 data) := by
      rw [List.forall₂_map_left_iff, List.forall₂_same]
      intro r hr
      have hle := le_of_mem_collectRanges h.1 h.1 h.2 r hr
      exact isPortRange_rangeText hle.1 hle.2
    rw [getPortsStringsFromList, ← mem_of_forall₂ htexts, mem_portRangesToSet,
      mem_collectRanges rfl le_rfl, List.mem_cons]
    refine or_congr_left ?_
    omega

theorem collectRanges_ne_nil (start stop n : Nat) (data : List Nat) :
    collectRanges start stop n data ≠ [] := by
  induction data generalizing stop n with
  | nil => simp [collectRanges]
  | cons x data ih =>
    rw [collectRanges]
    split
    · exact ih x (n + 1)
    · simp

theorem getPortsStringsFromList_eq_nil {data : List Nat} :
    getPortsStringsFromList data = [] ↔ data = [] := by
  cases data with
  | nil => simp [getPortsStringsFromList]
  | cons x data => simp [getPortsStringsFromList, collectRanges_ne_nil]

end Custodian.PortsRangeHelper

import Custodian.Azure.PortRanges
import Mathlib.Data.List.Sort

/-!
# Texts of ports and back

`get_ports_strings_from_list` of `c7n_azure/utils.py` writes a list of ports as ranges, and
`get_ports_set_from_string` reads these again.
-/

namespace Custodian.PortsRangeHelper

open Py

/-- `','.join(texts)` -/
def join (texts : List Text) : Text := [','].intercalate texts

/-- `sorted(ports)` -/
def sorted (ports : List Nat) : List Nat := ports.insertionSort (· ≤ ·)

/-- The ranges do not run backwards, and each begins after a gap behind the one before it. -/
structure Apart (ranges : List PortsRange) : Prop where
  start_le_stop : ∀ r ∈ ranges, r.start ≤ r.stop
  gap : ranges.Pairwise fun r r' => r.stop + 1 < r'.start

/-- The texts are those of ranges that lie apart, are valid, and are read as the ports. -/
structure Encodes (data : List Nat) (texts : List Text) : Prop where
  ranges : ∃ ranges, texts = ranges.map rangeText ∧ Apart ranges
  valid : ∀ s ∈ texts, validatePortsString s = .ok true
  decoded : ∃ ports, getPortsSetFromString (join texts) = .ok ports ∧ ∀ p, p ∈ ports ↔ p ∈ data

/-! ## The text of a range -/

theorem isDigit_of_mem_str {n : Nat} {c : Char} (hc : c ∈ str n) : isDigit c = true := by
  obtain ⟨-, ds, hds, -⟩ := isNumeral_str n
  obtain ⟨d, -, hd⟩ := exists_of_forall₂ hds hc
  rw [isDigit, hd]
  rfl

theorem str_ne_nil (n : Nat) : str n ≠ [] := (isNumeral_str n).1

theorem mem_rangeText {x : PortsRange} {c : Char} (hc : c ∈ rangeText x) :
    isDigit c = true ∨ c = '-' := by
  rw [rangeText] at hc
  split at hc
  · exact .inl (isDigit_of_mem_str hc)
  · rcases List.mem_append.mp hc with hc | hc
    · exact .inl (isDigit_of_mem_str hc)
    · rcases List.mem_cons.mp hc with rfl | hc
      · exact .inr rfl
      · exact .inl (isDigit_of_mem_str hc)

theorem comma_not_mem_rangeText (x : PortsRange) : ',' ∉ rangeText x := fun hc =>
  (mem_rangeText hc).elim (by decide) (by decide)

theorem dash_not_mem_str (n : Nat) : '-' ∉ str n := fun hc =>
  absurd (isDigit_of_mem_str hc) (by decide)

theorem rangeText_ne_nil (x : PortsRange) : rangeText x ≠ [] := by
  rw [rangeText]
  split
  · exact str_ne_nil x.start
  · simp

theorem splitOn_rangeText (x : PortsRange) : (rangeText x).splitOn '-' =
    if x.start = x.stop then [str x.start] else [str x.start, str x.stop] := by
  rw [rangeText]
  split
  · exact splitOn_of_not_mem (dash_not_mem_str x.start)
  · rw [splitOn_append_cons (dash_not_mem_str x.start), splitOn_of_not_mem (dash_not_mem_str x.stop)]

theorem dropNewline_rangeText (x : PortsRange) : dropNewline (rangeText x) = rangeText x := by
  refine if_neg fun hlast => ?_
  have hmem := mem_rangeText (List.mem_of_getLast? hlast)
  exact hmem.elim (by decide) (by decide)

theorem matchesPorts_rangeText (x : PortsRange) : matchesPorts (rangeText x) = true := by
  have hstr : ∀ n, ¬str n = [] ∧ ∀ c ∈ str n, isDigit c = true := fun n =>
    ⟨str_ne_nil n, fun c hc => isDigit_of_mem_str hc⟩
  rw [matchesPorts, dropNewline_rangeText, splitOn_of_not_mem (comma_not_mem_rangeText x),
    List.all_cons, List.all_nil, Bool.and_true, splitOn_rangeText]
  split
  · simpa using hstr x.start
  · simpa using ⟨hstr x.start, hstr x.stop⟩

/-! ## Reading joined texts -/

theorem getStringPortRanges_join {ranges : List PortsRange}
    (h : ∀ r ∈ ranges, r.start ≤ 65535 ∧ r.stop ≤ 65535) :
    getStringPortRanges (join (ranges.map rangeText)) = .ok ranges := by
  have hfilter : ((join (ranges.map rangeText)).splitOn ',').filter (· ≠ []) =
      ranges.map rangeText := by
    cases ranges with
    | nil => rfl
    | cons r ranges =>
      rw [join, List.splitOn_intercalate]
      · rw [List.filter_eq_self]
        intro s hs
        obtain ⟨x, -, rfl⟩ := List.mem_map.mp hs
        exact decide_eq_true (rangeText_ne_nil x)
      · intro s hs
        obtain ⟨x, -, rfl⟩ := List.mem_map.mp hs
        exact comma_not_mem_rangeText x
      · simp
  rw [getStringPortRanges, hfilter, mapM_eq_ok, List.forall₂_map_left_iff, List.forall₂_same]
  intro r hr
  have hrange := isPortRange_rangeText (h r hr).1 (h r hr).2
  exact (getPortRange_eq_ok hrange.length_splitOn).mpr hrange

theorem getPortsSetFromString_join {ranges : List PortsRange}
    (h : ∀ r ∈ ranges, r.start ≤ 65535 ∧ r.stop ≤ 65535) :
    getPortsSetFromString (join (ranges.map rangeText)) = .ok (portRangesToSet ranges) := by
  rw [getPortsSetFromString, getStringPortRanges_join h]
  rfl

theorem validatePortsString_rangeText {x : PortsRange} (hle : x.start ≤ x.stop)
    (hmax : x.stop ≤ 65535) : validatePortsString (rangeText x) = .ok true := by
  have hread : getStringPortRanges (join ([x].map rangeText)) = .ok [x] :=
    getStringPortRanges_join (by simp [hmax, hle.trans hmax])
  rw [List.map_singleton, join, List.intercalate_singleton] at hread
  rw [validatePortsString, if_pos (matchesPorts_rangeText x), hread]
  simp [ok_bind, pure, Except.pure, hle, hmax, hle.trans hmax]

/-! ## The ranges of an increasing list -/

theorem start_le_of_mem_collectRanges {start stop n : Nat} (hle : start ≤ stop) {data : List Nat}
    (h : (stop :: data).Pairwise (· < ·)) :
    ∀ r ∈ collectRanges start stop n data, start ≤ r.start := by
  induction data generalizing start stop n with
  | nil => simp [collectRanges]
  | cons x data ih =>
    have hx : stop < x := List.rel_of_pairwise_cons h List.mem_cons_self
    have hdata := (List.pairwise_cons.mp h).2
    rw [collectRanges]
    split
    · exact ih (hle.trans hx.le) hdata
    · rw [List.forall_mem_cons]
      exact ⟨le_rfl, fun r hr => (hle.trans hx.le).trans (ih le_rfl hdata r hr)⟩

theorem apart_collectRanges {start stop n : Nat} (hn : start + n = stop + 1) (hle : start ≤ stop)
    {data : List Nat} (h : (stop :: data).Pairwise (· < ·)) :
    Apart (collectRanges start stop n data) := by
  induction data generalizing start stop n with
  | nil => exact ⟨by simpa [collectRanges] using hle, List.pairwise_singleton _ _⟩
  | cons x data ih =>
    have hx : stop < x := List.rel_of_pairwise_cons h List.mem_cons_self
    have hdata := (List.pairwise_cons.mp h).2
    rw [collectRanges]
    split
    · rename_i hnext
      exact ih (by omega) (by omega) hdata
    · rename_i hnext
      obtain ⟨hrest, hgap⟩ := ih (n := 1) rfl le_rfl hdata
      refine ⟨List.forall_mem_cons.mpr ⟨hle, hrest⟩, List.pairwise_cons.mpr ⟨fun r hr => ?_, hgap⟩⟩
      -- `x` is not the number after `stop`
      have hr := start_le_of_mem_collectRanges le_rfl hdata r hr
      change stop + 1 < r.start
      omega

/-! ## Round trips -/

/-- **From a list.**  The texts of an increasing list of ports. -/
theorem encodes_of_increasing {data : List Nat} (h : data.Pairwise (· < ·))
    (hmax : ∀ p ∈ data, p ≤ 65535) : Encodes data (getPortsStringsFromList data) := by
  cases data with
  | nil =>
    refine ⟨⟨[], rfl, ⟨by simp, .nil⟩⟩, by simp [getPortsStringsFromList], [], rfl, by simp⟩
  | cons x data =>
    rw [List.forall_mem_cons] at hmax
    have hranges := apart_collectRanges (n := 1) rfl le_rfl h
    have hle := le_of_mem_collectRanges (n := 1) hmax.1 hmax.1 hmax.2
    refine ⟨⟨_, rfl, hranges⟩, fun s hs => ?_, _, getPortsSetFromString_join hle, fun p => ?_⟩
    · obtain ⟨r, hr, rfl⟩ := List.mem_map.mp hs
      exact validatePortsString_rangeText (hranges.start_le_stop r hr) (hle r hr).2
    · rw [mem_portRangesToSet, mem_collectRanges rfl le_rfl, List.mem_cons]
      refine or_congr_left ?_
      omega

theorem mem_sorted {ports : List Nat} {p : Nat} : p ∈ sorted ports ↔ p ∈ ports :=
  List.mem_insertionSort _

theorem increasing_sorted {ports : List Nat} (h : ports.Nodup) :
    (sorted ports).Pairwise (· < ·) := by
  have hnodup : (sorted ports).Nodup := (List.perm_insertionSort _ ports).nodup_iff.mpr h
  have hle : (sorted ports).Pairwise (· ≤ ·) := List.pairwise_insertionSort _ ports
  exact hle.imp₂ (fun _ _ hxy hne => lt_of_le_of_ne hxy hne) hnodup

theorem nodup_of_getPortsSetFromString {s : Text} {ports : List Nat}
    (h : getPortsSetFromString s = .ok ports) : ports.Nodup := by
  rw [getPortsSetFromString] at h
  obtain ⟨ranges, -, h⟩ := bind_eq_ok.mp h
  rw [← pure_eq_ok.mp h]
  exact List.nodup_dedup _

/-- **Round trips.**  Increasing lists of ports are written as texts that are read back as the same
ports, and the ports of a text that validation accepts are written and read back. -/
theorem ports_roundTrip :
    (∀ data : List Nat, data.Pairwise (· < ·) → (∀ p ∈ data, p ≤ 65535) →
      Encodes data (getPortsStringsFromList data)) ∧
    ∀ s, validatePortsString s = .ok true → ∃ ports, getPortsSetFromString s = .ok ports ∧
      Encodes ports (getPortsStringsFromList (sorted ports)) := by
  refine ⟨fun data h hmax => encodes_of_increasing h hmax, fun s hs => ?_⟩
  obtain ⟨ports, hports, -, hmax⟩ := mem_getPortsSetFromString hs
  refine ⟨ports, hports, ?_⟩
  obtain ⟨hranges, hvalid, decoded, hdecoded, hmem⟩ := encodes_of_increasing
    (increasing_sorted (nodup_of_getPortsSetFromString hports))
    fun p hp => hmax p (mem_sorted.mp hp)
  exact ⟨hranges, hvalid, decoded, hdecoded, fun p => (hmem p).trans mem_sorted⟩

example : getPortsStringsFromList [10, 12, 13, 14, 20, 21, 22] =
    ["10".toList, "12-14".toList, "20-22".toList] := by decide

end Custodian.PortsRangeHelper

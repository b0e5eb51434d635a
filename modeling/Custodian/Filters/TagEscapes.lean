import Custodian.Lib.Escapes
import Custodian.Lib.Text

/-!
# Escaped tag values

Some clouds restrict the characters of a tag.  `Time.unescape_tag_restrictions` of
`c7n/filters/offhours.py` reads codes such as `u28` for them, one code after the other.
-/

namespace Custodian.TagEscapes

open Py
open Py.Escapes (replace Table)

/-- `TAG_RESTRICTIONS` -/
def tagRestrictions : Text := "()[],;=/-".toList

/-- `hex(ord(c))[2:]` -/
def hex (c : Char) : Text := Nat.toDigits 16 c.toNat

/-- `TAG_RESTRICTIONS_ESCAPE` -/
def tagRestrictionsEscape : List Text := tagRestrictions.map fun c => 'u' :: hex c

/-- `unescape_tag_restrictions` -/
def unescapeTagRestrictions (value : Text) : Text :=
  (tagRestrictionsEscape.zip tagRestrictions).foldl (fun value e => replace e.1 [e.2] value) value

/-- Write every restricted character as its code. -/
def escapeTagRestrictions (v : Text) : Text :=
  v.flatMap fun c => if c ∈ tagRestrictions then 'u' :: hex c else [c]

/-- No code has a `u` but at its beginning, and none has a restricted character. -/
def restrictions : Table Char where
  marker := 'u'
  entries := tagRestrictions.map fun c => (c, hex c)
  char_ne := by decide
  marker_not_mem := by decide
  char_not_mem := by decide
  prefix_free := by decide

theorem unescapeTagRestrictions_eq (value : Text) :
    unescapeTagRestrictions value = restrictions.replaceAll value := by
  have hzip : tagRestrictionsEscape.zip tagRestrictions =
      restrictions.entries.map fun e => (restrictions.code e, e.1) := by decide
  rw [unescapeTagRestrictions, hzip, List.foldl_map, Table.replaceAll]

theorem escapeTagRestrictions_eq (v : Text) :
    escapeTagRestrictions v = restrictions.escape v := by
  refine List.flatMap_congr fun c _ => ?_
  have hfind : ∀ l : Text, ((l.map fun c => (c, hex c)).find? fun e => e.1 = c) =
      if c ∈ l then some (c, hex c) else none := by
    intro l
    induction l with
    | nil => rfl
    | cons d l ih =>
      by_cases hd : d = c
      · simp [hd]
      · simp [hd, Ne.symm hd, ih]
  rw [show restrictions.entries = tagRestrictions.map fun c => (c, hex c) from rfl, hfind]
  split <;> rfl

theorem code_mem (e : Char × Text) (he : e ∈ restrictions.entries) :
    restrictions.code e ∈ tagRestrictionsEscape := by
  obtain ⟨c, hc, rfl⟩ := List.mem_map.mp he
  exact List.mem_map.mpr ⟨c, hc, rfl⟩

/-- **Escaped tags.**  The replacements one after the other are one that replaces all codes at
once, and a value without codes that was escaped is read back as it was. -/
theorem unescapeTagRestrictions_escape (v : Text)
    (h : ∀ code ∈ tagRestrictionsEscape, ¬code <:+: v) :
    unescapeTagRestrictions (escapeTagRestrictions v) = v ∧
      ∀ value, unescapeTagRestrictions value = restrictions.substitute value := by
  refine ⟨?_, fun value => ?_⟩
  · rw [unescapeTagRestrictions_eq, escapeTagRestrictions_eq]
    exact Table.replaceAll_escape fun e he => h _ (code_mem e he)
  · rw [unescapeTagRestrictions_eq, Table.replaceAll_eq_substitute]

/-- A value in which letters stand next to the codes. -/
def schedule : Text := "off=[(m-u,18),(u2u,5)];on=u".toList

theorem schedule_read_back :
    (∀ code ∈ tagRestrictionsEscape, ¬code <:+: schedule) ∧
      unescapeTagRestrictions (escapeTagRestrictions schedule) = schedule :=
  ⟨by decide +kernel, (unescapeTagRestrictions_escape schedule (by decide +kernel)).1⟩

end Custodian.TagEscapes

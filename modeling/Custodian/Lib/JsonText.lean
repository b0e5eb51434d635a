import Custodian.Lib.Text

/-!
# Writing JSON texts

Strings, with every character outside of printable ASCII escaped, and arrays without blanks.
Such texts end where they should: nothing that follows makes two of them alike.
-/

namespace Py.JsonText

/-! ## Characters -/

def hexDigit (n : Nat) : Char := "0123456789abcdef".toList.getD n '0'

/-- `'{:04x}'` -/
def hex4 (n : Nat) : Text :=
  [hexDigit (n / 4096 % 16), hexDigit (n / 256 % 16), hexDigit (n / 16 % 16), hexDigit (n % 16)]

/-- `'\\u{:04x}'` -/
def unit (n : Nat) : Text := '\\' :: 'u' :: hex4 n

/-- The characters with a short escape, and its letter. -/
def shortEscapes : List (Char × Char) :=
  [('"', '"'), ('\\', '\\'), ('\n', 'n'), ('\r', 'r'), ('\t', 't'), (Char.ofNat 12, 'f'),
    (Char.ofNat 8, 'b')]

/-- The character of a string, in ASCII: two units where one is not enough. -/
def escape (c : Char) : Text :=
  match shortEscapes.lookup c with
  | some e => ['\\', e]
  | none =>
    if ' ' ≤ c ∧ c ≤ '~' then [c]
    else if c.toNat < 0x10000 then unit c.toNat
    else unit (0xd800 + (c.toNat - 0x10000) / 1024) ++ unit (0xdc00 + (c.toNat - 0x10000) % 1024)

/-- `json.dumps` of a string -/
def string (s : Text) : Text := '"' :: (s.flatMap escape ++ ['"'])

/-- The items of an array after the first. -/
def further (items : List Text) : Text := items.flatMap fun i => ',' :: i

/-- `json.dumps` of a list, given the texts of its items -/
def array : List Text → Text
  | [] => ['[', ']']
  | i :: items => '[' :: (i ++ further items ++ [']'])

/-! ## Texts that end where they should -/

/-- What follows a text does not make it look like another one. -/
def SelfDelimiting {α : Type} (f : α → Text) : Prop :=
  ∀ a b x y, f a ++ x = f b ++ y → a = b ∧ x = y

theorem SelfDelimiting.injective {α : Type} {f : α → Text} (h : SelfDelimiting f) :
    Function.Injective f :=
  fun a b hab => (h a b [] [] (by rw [hab])).1

theorem hexDigit_inj {m n : Nat} (hm : m < 16) (hn : n < 16) (h : hexDigit m = hexDigit n) :
    m = n := by
  have hall : ∀ m < 16, ∀ n < 16, hexDigit m = hexDigit n → m = n := by decide
  exact hall m hm n hn h

theorem hex4_inj {m n : Nat} (hm : m < 0x10000) (hn : n < 0x10000) (h : hex4 m = hex4 n) :
    m = n := by
  simp only [hex4, List.cons.injEq, and_true] at h
  obtain ⟨h1, h2, h3, h4⟩ := h
  have e1 := hexDigit_inj (Nat.mod_lt _ (by decide)) (Nat.mod_lt _ (by decide)) h1
  have e2 := hexDigit_inj (Nat.mod_lt _ (by decide)) (Nat.mod_lt _ (by decide)) h2
  have e3 := hexDigit_inj (Nat.mod_lt _ (by decide)) (Nat.mod_lt _ (by decide)) h3
  have e4 := hexDigit_inj (Nat.mod_lt _ (by decide)) (Nat.mod_lt _ (by decide)) h4
  omega

theorem unit_append_inj {m n : Nat} (hm : m < 0x10000) (hn : n < 0x10000) {x y : Text}
    (h : unit m ++ x = unit n ++ y) : m = n ∧ x = y := by
  obtain ⟨hu, hxy⟩ := List.append_inj h rfl
  exact ⟨hex4_inj hm hn (List.cons.inj (List.cons.inj hu).2).2, hxy⟩

/-- How a character is written. -/
inductive Form : Char → Text → Prop
  | short (c e : Char) (h : (c, e) ∈ shortEscapes) : Form c ['\\', e]
  | plain (c : Char) (h : c ≠ '\\') (hq : c ≠ '"') : Form c [c]
  | one (c : Char) (h : c.toNat < 0x10000) : Form c (unit c.toNat)
  | two (c : Char) (h : 0x10000 ≤ c.toNat) :
    Form c (unit (0xd800 + (c.toNat - 0x10000) / 1024) ++
      unit (0xdc00 + (c.toNat - 0x10000) % 1024))

theorem mem_of_lookup {c e : Char} (h : shortEscapes.lookup c = some e) : (c, e) ∈ shortEscapes := by
  obtain ⟨l, l', hl, -⟩ := List.lookup_eq_some_iff.mp h
  rw [hl]
  exact List.mem_append_cons_self

theorem form_escape (c : Char) : Form c (escape c) := by
  rw [escape]
  split
  · rename_i e he
    exact .short c e (mem_of_lookup he)
  · rename_i hs
    have hne : c ≠ '\\' ∧ c ≠ '"' := by
      constructor <;> rintro rfl <;> cases hs
    split
    · exact .plain c hne.1 hne.2
    · split
      · exact .one c (by assumption)
      · exact .two c (by omega)

theorem shortEscapes_inj : ∀ p ∈ shortEscapes, ∀ q ∈ shortEscapes, p.2 = q.2 → p.1 = q.1 := by
  decide

theorem shortEscapes_ne_u : ∀ p ∈ shortEscapes, p.2 ≠ 'u' := by
  decide

theorem toNat_valid (c : Char) : c.toNat < 0xd800 ∨ 0xdfff < c.toNat ∧ c.toNat < 0x110000 :=
  c.valid

theorem form_append_inj {c d : Char} {u v x y : Text} (hu : Form c u) (hv : Form d v)
    (h : u ++ x = v ++ y) : c = d ∧ x = y := by
  have hc := toNat_valid c
  have hd := toNat_valid d
  cases hu with
  | short e he =>
    cases hv with
    | short e' he' =>
      simp only [List.cons_append, List.nil_append, List.cons.injEq, true_and] at h
      exact ⟨shortEscapes_inj _ he _ he' h.1, h.2⟩
    | plain hne => exact absurd (List.cons.inj h).1.symm hne
    | one =>
      exact absurd (List.cons.inj (List.cons.inj h).2).1 (shortEscapes_ne_u _ he)
    | two =>
      exact absurd (List.cons.inj (List.cons.inj h).2).1 (shortEscapes_ne_u _ he)
  | plain hne =>
    cases hv with
    | short e' he' => exact absurd (List.cons.inj h).1 hne
    | plain => exact List.cons.inj h
    | one => exact absurd (List.cons.inj h).1 hne
    | two => exact absurd (List.cons.inj h).1 hne
  | one hlt =>
    cases hv with
    | short e' he' =>
      exact absurd (List.cons.inj (List.cons.inj h).2).1.symm (shortEscapes_ne_u _ he')
    | plain hne => exact absurd (List.cons.inj h).1.symm hne
    | one hlt' =>
      obtain ⟨hn, hxy⟩ := unit_append_inj hlt hlt' h
      exact ⟨Char.toNat_inj.mp hn, hxy⟩
    | two hle' =>
      rw [List.append_assoc] at h
      obtain ⟨hn, -⟩ := unit_append_inj hlt (by omega) h
      omega
  | two hle =>
    cases hv with
    | short e' he' =>
      exact absurd (List.cons.inj (List.cons.inj h).2).1.symm (shortEscapes_ne_u _ he')
    | plain hne => exact absurd (List.cons.inj h).1.symm hne
    | one hlt' =>
      rw [List.append_assoc] at h
      obtain ⟨hn, -⟩ := unit_append_inj (by omega) hlt' h
      omega
    | two hle' =>
      rw [List.append_assoc, List.append_assoc] at h
      obtain ⟨hhigh, h⟩ := unit_append_inj (by omega) (by omega) h
      obtain ⟨hlow, hxy⟩ := unit_append_inj (by omega) (by omega) h
      exact ⟨Char.toNat_inj.mp (by omega), hxy⟩

theorem selfDelimiting_escape : SelfDelimiting escape :=
  fun c d _ _ h => form_append_inj (form_escape c) (form_escape d) h

theorem escape_head_ne (c : Char) (x y : Text) : escape c ++ x ≠ '"' :: y := by
  have hc := form_escape c
  generalize escape c = u at hc
  intro h
  cases hc with
  | short e he => cases (List.cons.inj h).1
  | plain hne hq => exact hq (List.cons.inj h).1
  | one => cases (List.cons.inj h).1
  | two => cases (List.cons.inj h).1

/-- A string is read back whatever follows. -/
theorem selfDelimiting_string : SelfDelimiting string := by
  intro s t x y h
  replace h : s.flatMap escape ++ ['"'] ++ x = t.flatMap escape ++ ['"'] ++ y := (List.cons.inj h).2
  induction s generalizing t with
  | nil =>
    cases t with
    | nil => exact ⟨rfl, (List.cons.inj h).2⟩
    | cons d t =>
      simp only [List.flatMap_nil, List.nil_append, List.flatMap_cons, List.append_assoc,
        List.cons_append] at h
      exact (escape_head_ne _ _ _ h.symm).elim
  | cons c s ih =>
    cases t with
    | nil =>
      simp only [List.flatMap_nil, List.nil_append, List.flatMap_cons, List.append_assoc,
        List.cons_append] at h
      exact (escape_head_ne _ _ _ h).elim
    | cons d t =>
      simp only [List.flatMap_cons, List.append_assoc] at h
      obtain ⟨rfl, hrest⟩ := selfDelimiting_escape _ _ _ _ h
      rw [← List.append_assoc, ← List.append_assoc] at hrest
      obtain ⟨rfl, hxy⟩ := ih t hrest
      exact ⟨rfl, hxy⟩

/-- An array is read back if its items are and none looks like its end. -/
theorem SelfDelimiting.array {α : Type} {f : α → Text} (hf : SelfDelimiting f)
    (hend : ∀ a x y, f a ++ x ≠ ']' :: y) : SelfDelimiting fun l : List α => JsonText.array (l.map f) := by
  have hfurther : ∀ (l m : List α) (x y : Text),
      further (l.map f) ++ (']' :: x) = further (m.map f) ++ (']' :: y) → l = m ∧ x = y := by
    intro l
    induction l with
    | nil =>
      intro m x y h
      cases m with
      | nil => exact ⟨rfl, (List.cons.inj h).2⟩
      | cons b m => cases (List.cons.inj h).1
    | cons a l ih =>
      intro m x y h
      cases m with
      | nil => cases (List.cons.inj h).1
      | cons b m =>
        simp only [further, List.map_cons, List.flatMap_cons, List.cons_append, List.append_assoc,
          List.cons.injEq, true_and] at h
        obtain ⟨rfl, hrest⟩ := hf _ _ _ _ h
        obtain ⟨rfl, hxy⟩ := ih m x y hrest
        exact ⟨rfl, hxy⟩
  intro l m x y h
  change JsonText.array (l.map f) ++ x = JsonText.array (m.map f) ++ y at h
  cases l with
  | nil =>
    cases m with
    | nil => exact ⟨rfl, (List.cons.inj (List.cons.inj h).2).2⟩
    | cons b m =>
      simp only [List.map_nil, List.map_cons, JsonText.array, List.cons_append, List.append_assoc,
        List.nil_append, List.cons.injEq, true_and] at h
      exact (hend _ _ _ h.symm).elim
  | cons a l =>
    cases m with
    | nil =>
      simp only [List.map_nil, List.map_cons, JsonText.array, List.cons_append, List.append_assoc,
        List.nil_append, List.cons.injEq, true_and] at h
      exact (hend _ _ _ h).elim
    | cons b m =>
      simp only [List.map_cons, JsonText.array, List.cons_append, List.append_assoc, List.nil_append,
        List.cons.injEq, true_and] at h
      obtain ⟨rfl, hrest⟩ := hf _ _ _ _ h
      obtain ⟨rfl, hxy⟩ := hfurther l m x y hrest
      exact ⟨rfl, hxy⟩

end Py.JsonText

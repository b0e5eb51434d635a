import Mathlib.Data.List.Infix

/-!
# Escape codes

A table gives some characters a code: a marker and a text without the marker.  The codes of a text
are replaced one after the other, each by a replacement that passes over the whole text.
-/

namespace Py.Escapes

variable {α : Type} [DecidableEq α]

/-! ## Replacing -/

/-- Replace the occurrences of `old` from the left, where `skip` characters belong to one that is
replaced already. -/
def replaceFrom (old new : List α) : Nat → List α → List α
  | _, [] => []
  | skip + 1, _ :: s => replaceFrom old new skip s
  | 0, c :: s =>
    if old.isPrefixOf (c :: s) then new ++ replaceFrom old new (old.length - 1) s
    else c :: replaceFrom old new 0 s

/-- `s.replace(old, new)`, where `old` is not empty. -/
def replace (old new s : List α) : List α := replaceFrom old new 0 s

theorem replaceFrom_append (old new a s : List α) :
    replaceFrom old new a.length (a ++ s) = replace old new s := by
  induction a with
  | nil => rfl
  | cons c a ih => exact ih

theorem replace_append {old : List α} (h : old ≠ []) (new s : List α) :
    replace old new (old ++ s) = new ++ replace old new s := by
  cases old with
  | nil => exact absurd rfl h
  | cons c old =>
    have hpre : (c :: old).isPrefixOf (c :: (old ++ s)) = true :=
      List.isPrefixOf_iff_prefix.mpr (List.prefix_append (c :: old) s)
    rw [replace, List.cons_append, replaceFrom, if_pos hpre, List.length_cons,
      Nat.add_sub_cancel, replaceFrom_append]

theorem replace_cons {old : List α} {c : α} {s : List α} (h : ¬old <+: c :: s) (new : List α) :
    replace old new (c :: s) = c :: replace old new s := by
  rw [replace, replaceFrom, if_neg (mt List.isPrefixOf_iff_prefix.mp h), replace]

theorem replace_of_not_mem {m : α} {tail a : List α} (h : m ∉ a) (new s : List α) :
    replace (m :: tail) new (a ++ s) = a ++ replace (m :: tail) new s := by
  induction a with
  | nil => rfl
  | cons c a ih =>
    rw [List.mem_cons, not_or] at h
    rw [List.cons_append, replace_cons (fun hp => h.1 (List.cons_prefix_cons.mp hp).1), ih h.2,
      List.cons_append]

/-! ## Tables -/

/-- Characters with their codes, without the marker that all codes begin with. -/
structure Table (α : Type) where
  marker : α
  entries : List (α × List α)
  char_ne : ∀ e ∈ entries, e.1 ≠ marker
  marker_not_mem : ∀ e ∈ entries, marker ∉ e.2
  char_not_mem : ∀ e ∈ entries, ∀ e' ∈ entries, e.1 ∉ e'.2
  prefix_free : ∀ e ∈ entries, ∀ e' ∈ entries, e.2 <+: e'.2 → e = e'

namespace Table

variable (t : Table α)

def code (e : α × List α) : List α := t.marker :: e.2

/-- Replace the codes one after the other. -/
def replaceAll (s : List α) : List α := t.entries.foldl (fun s e => replace (t.code e) [e.1] s) s

/-- Replace all codes in one pass. -/
def substituteFrom : Nat → List α → List α
  | _, [] => []
  | skip + 1, _ :: s => substituteFrom skip s
  | 0, c :: s =>
    match t.entries.find? fun e => (t.code e).isPrefixOf (c :: s) with
    | some e => e.1 :: substituteFrom e.2.length s
    | none => c :: substituteFrom 0 s

def substitute (s : List α) : List α := t.substituteFrom 0 s

/-- Write every character that has a code as its code. -/
def escape (s : List α) : List α :=
  s.flatMap fun c => (t.entries.find? fun e => e.1 = c).elim [c] t.code

/-! ## Sequences of characters and codes -/

/-- A character that stands for itself, or a code. -/
inductive Token (α : Type) where
  | lit (c : α)
  | esc (e : α × List α)

namespace Token

/-- The character that is meant. -/
def char : Token α → α
  | lit c => c
  | esc e => e.1

/-- Replace the code of an entry by its character. -/
def resolve (e : α × List α) : Token α → Token α
  | lit c => lit c
  | esc e' => if e' = e then lit e.1 else esc e'

end Token

/-- How a token is written. -/
def text : Token α → List α
  | .lit c => [c]
  | .esc e => t.code e

def render (l : List (Token α)) : List α := l.flatMap t.text

omit [DecidableEq α] in
theorem render_cons (x : Token α) (l : List (Token α)) : t.render (x :: l) = t.text x ++ t.render l :=
  List.flatMap_cons

/-- No code begins at a character that stands for itself. -/
def Normal : List (Token α) → Prop
  | [] => True
  | .lit c :: l => (∀ e ∈ t.entries, ¬t.code e <+: c :: t.render l) ∧ Normal l
  | .esc e :: l => e ∈ t.entries ∧ Normal l

variable {t}

omit [DecidableEq α] in
theorem code_eq_of_le {e e' : α × List α} (he : e ∈ t.entries) (he' : e' ∈ t.entries) {s : List α}
    (h : t.code e <+: t.code e' ++ s) (hlen : e.2.length ≤ e'.2.length) : e = e' := by
  rw [code, code, List.cons_append, List.cons_prefix_cons] at h
  exact t.prefix_free e he e' he' (List.prefix_of_prefix_length_le h.2 (List.prefix_append _ _) hlen)

omit [DecidableEq α] in
theorem code_unique {e e' : α × List α} (he : e ∈ t.entries) (he' : e' ∈ t.entries) {s : List α}
    (h : t.code e <+: t.code e' ++ s) : e = e' := by
  rcases Nat.le_total e.2.length e'.2.length with hlen | hlen
  · exact code_eq_of_le he he' h hlen
  · have h' : t.code e' <+: t.code e ++ [] := by
      rw [List.append_nil]
      exact List.prefix_of_prefix_length_le (List.prefix_append _ s) h (by simpa [code] using hlen)
    exact (code_eq_of_le he' he h' hlen).symm

/-- One replacement resolves the codes of its entry. -/
theorem replace_render {e : α × List α} (he : e ∈ t.entries) {l : List (Token α)} (h : t.Normal l) :
    replace (t.code e) [e.1] (t.render l) = t.render (l.map (Token.resolve e)) := by
  induction l with
  | nil => rfl
  | cons x l ih =>
    cases x with
    | lit c =>
      rw [List.map_cons, render_cons, render_cons, ← ih h.2]
      exact replace_cons (h.1 e he) [e.1]
    | esc e' =>
      rw [List.map_cons, render_cons, render_cons, ← ih h.2, Token.resolve]
      by_cases heq : e' = e
      · rw [if_pos heq, heq]
        exact replace_append (List.cons_ne_nil _ _) [e.1] _
      · rw [if_neg heq]
        -- the other code is passed over: it has the marker at its beginning only
        have hhead : ¬t.code e <+: t.marker :: (e'.2 ++ t.render l) :=
          fun hp => heq (code_unique he h.1 hp).symm
        show replace (t.code e) [e.1] (t.marker :: (e'.2 ++ t.render l)) =
          t.marker :: (e'.2 ++ replace (t.code e) [e.1] (t.render l))
        rw [replace_cons hhead]
        exact congrArg _ (replace_of_not_mem (t.marker_not_mem e' h.1) [e.1] _)

/-- A text without markers and characters of the table that begins the resolved text begins the
text itself. -/
theorem prefix_render {e : α × List α} {p : List α} (hm : t.marker ∉ p)
    (hc : e.1 ∉ p) {l : List (Token α)} (h : p <+: t.render (l.map (Token.resolve e))) :
    p <+: t.render l := by
  induction l generalizing p with
  | nil => exact h
  | cons x l ih =>
    cases p with
    | nil => exact List.nil_prefix
    | cons d p =>
      rw [List.mem_cons, not_or] at hm hc
      rw [List.map_cons, render_cons] at h
      rw [render_cons]
      cases x with
      | lit c =>
        obtain ⟨hd, hp⟩ := List.cons_prefix_cons.mp h
        exact List.cons_prefix_cons.mpr ⟨hd, ih hm.2 hc.2 hp⟩
      | esc e' =>
        rw [Token.resolve] at h
        split at h
        · exact absurd (List.cons_prefix_cons.mp h).1.symm hc.1
        · exact absurd (List.cons_prefix_cons.mp h).1.symm hm.1

theorem Normal.resolve {e : α × List α} (he : e ∈ t.entries) {l : List (Token α)} (h : t.Normal l) :
    t.Normal (l.map (Token.resolve e)) := by
  induction l with
  | nil => trivial
  | cons x l ih =>
    cases x with
    | lit c =>
      refine ⟨fun e' he' hp => h.1 e' he' ?_, ih h.2⟩
      obtain ⟨hmark, hp⟩ := List.cons_prefix_cons.mp hp
      exact List.cons_prefix_cons.mpr ⟨hmark,
        prefix_render (t.marker_not_mem e' he') (t.char_not_mem e he e' he') hp⟩
    | esc e' =>
      rw [List.map_cons, Token.resolve]
      split
      · exact ⟨fun e'' _ hp => t.char_ne e he (List.cons_prefix_cons.mp hp).1.symm, ih h.2⟩
      · exact ⟨h.1, ih h.2⟩

theorem foldl_resolve {entries : List (α × List α)} (x : Token α)
    (h : ∀ e, x = .esc e → e ∈ entries) :
    entries.foldl (fun x e => Token.resolve e x) x = .lit x.char := by
  have hlit : ∀ (l : List (α × List α)) (c : α),
      l.foldl (fun x e => Token.resolve e x) (.lit c) = .lit c := by
    intro l c
    induction l with
    | nil => rfl
    | cons e l ih => exact ih
  induction entries with
  | nil =>
    cases x with
    | lit c => rfl
    | esc e => exact absurd (h e rfl) List.not_mem_nil
  | cons e entries ih =>
    cases x with
    | lit c => exact hlit _ c
    | esc e' =>
      rw [List.foldl_cons, Token.resolve]
      split
      · rename_i heq
        rw [hlit, heq, Token.char]
      · rename_i heq
        refine ih fun e'' h'' => ?_
        cases h''
        exact (List.mem_cons.mp (h e' rfl)).resolve_left heq

omit [DecidableEq α] in
theorem Normal.mem {l : List (Token α)} (h : t.Normal l) {e : α × List α} (he : Token.esc e ∈ l) :
    e ∈ t.entries := by
  induction l with
  | nil => cases he
  | cons x l ih =>
    cases x with
    | lit c =>
      rcases List.mem_cons.mp he with he | he
      · cases he
      · exact ih h.2 he
    | esc e' =>
      rcases List.mem_cons.mp he with he | he
      · cases he
        exact h.1
      · exact ih h.2 he

omit [DecidableEq α] in
theorem render_lit (l : List (Token α)) : t.render (l.map fun x => .lit x.char) = l.map Token.char := by
  induction l with
  | nil => rfl
  | cons x l ih => rw [List.map_cons, render_cons, ih]; rfl

/-- **Replacing all codes.**  The replacements together give the characters that are meant. -/
theorem replaceAll_render {l : List (Token α)} (h : t.Normal l) :
    t.replaceAll (t.render l) = l.map Token.char := by
  have hfold : ∀ entries : List (α × List α), (∀ e ∈ entries, e ∈ t.entries) → ∀ l, t.Normal l →
      entries.foldl (fun s e => replace (t.code e) [e.1] s) (t.render l) =
        t.render (l.map fun x => entries.foldl (fun x e => Token.resolve e x) x) := by
    intro entries hentries
    induction entries with
    | nil =>
      intro l _
      simp
    | cons e entries ih =>
      intro l hl
      rw [List.forall_mem_cons] at hentries
      rw [List.foldl_cons, replace_render hentries.1 hl, ih hentries.2 _ (hl.resolve hentries.1),
        List.map_map]
      rfl
  rw [replaceAll, hfold t.entries (fun e he => he) l h, ← render_lit (t := t)]
  congr 1
  refine List.map_congr_left fun x hx => foldl_resolve x ?_
  rintro e rfl
  exact h.mem hx

/-! ## One pass -/

theorem substituteFrom_append (a s : List α) :
    t.substituteFrom a.length (a ++ s) = t.substitute s := by
  induction a with
  | nil => rfl
  | cons c a ih => exact ih

theorem substitute_cons (c : α) (s : List α) : t.substitute (c :: s) =
    match t.entries.find? fun e => (t.code e).isPrefixOf (c :: s) with
    | some e => e.1 :: t.substituteFrom e.2.length s
    | none => c :: t.substitute s := rfl

theorem substitute_render {l : List (Token α)} (h : t.Normal l) :
    t.substitute (t.render l) = l.map Token.char := by
  induction l with
  | nil => rfl
  | cons x l ih =>
    rw [render_cons]
    cases x with
    | lit c =>
      have hnone : (t.entries.find? fun e => (t.code e).isPrefixOf (c :: t.render l)) = none :=
        List.find?_eq_none.mpr fun e he hp => h.1 e he (List.isPrefixOf_iff_prefix.mp hp)
      rw [text, List.singleton_append, substitute_cons, hnone, List.map_cons, ← ih h.2]
      rfl
    | esc e =>
      have hsome : (t.entries.find? fun e' =>
          (t.code e').isPrefixOf (t.marker :: (e.2 ++ t.render l))) = some e := by
        have hself : (t.code e).isPrefixOf (t.marker :: (e.2 ++ t.render l)) = true :=
          List.isPrefixOf_iff_prefix.mpr (List.prefix_append (t.code e) _)
        cases hfind : t.entries.find? fun e' =>
            (t.code e').isPrefixOf (t.marker :: (e.2 ++ t.render l)) with
        | none => exact absurd hself (List.find?_eq_none.mp hfind e h.1)
        | some e' =>
          have hp : (t.code e').isPrefixOf (t.marker :: (e.2 ++ t.render l)) = true := by
            simpa using List.find?_some hfind
          rw [code_unique (List.mem_of_find?_eq_some hfind) h.1 (List.isPrefixOf_iff_prefix.mp hp)]
      rw [text, code, List.cons_append, substitute_cons, hsome, List.map_cons, ← ih h.2]
      exact congrArg _ (substituteFrom_append e.2 _)

/-- Every text is a sequence of characters and codes. -/
theorem exists_normal (t : Table α) (s : List α) : ∃ l, t.Normal l ∧ t.render l = s := by
  induction hn : s.length using Nat.strongRecOn generalizing s with
  | ind n ih =>
    cases s with
    | nil => exact ⟨[], trivial, rfl⟩
    | cons c s =>
      rw [List.length_cons] at hn
      by_cases hcode : ∃ e ∈ t.entries, t.code e <+: c :: s
      · obtain ⟨e, he, rest, hrest⟩ := hcode
        have hlen := congrArg List.length hrest
        simp only [code, List.length_append, List.length_cons] at hlen
        obtain ⟨l, hl, hrender⟩ := ih rest.length (by omega) rest rfl
        exact ⟨.esc e :: l, ⟨he, hl⟩, by rw [render_cons, hrender, text, hrest]⟩
      · obtain ⟨l, hl, hrender⟩ := ih s.length (by omega) s rfl
        refine ⟨.lit c :: l, ⟨fun e he hp => hcode ⟨e, he, hrender ▸ hp⟩, hl⟩, ?_⟩
        rw [render_cons, hrender, text, List.singleton_append]

/-- **One pass.**  Replacing the codes one after the other is replacing all of them at once. -/
theorem replaceAll_eq_substitute (t : Table α) (s : List α) : t.replaceAll s = t.substitute s := by
  obtain ⟨l, hl, rfl⟩ := t.exists_normal s
  rw [replaceAll_render hl, substitute_render hl]

/-! ## Reading back -/

/-- The token that a character is escaped to. -/
def token (t : Table α) (c : α) : Token α :=
  (t.entries.find? fun e => e.1 = c).elim (.lit c) .esc

theorem token_cases (t : Table α) (c : α) : t.token c = .lit c ∨
    ∃ e ∈ t.entries, e.1 = c ∧ t.token c = .esc e := by
  rw [token]
  cases hfind : t.entries.find? fun e => e.1 = c with
  | none => exact Or.inl rfl
  | some e =>
    exact Or.inr ⟨e, List.mem_of_find?_eq_some hfind, by simpa using List.find?_some hfind, rfl⟩

theorem char_token (c : α) : (t.token c).char = c := by
  rcases t.token_cases c with h | ⟨e, -, he, h⟩
  · rw [h, Token.char]
  · rw [h, Token.char, he]

theorem render_token (s : List α) : t.render (s.map t.token) = t.escape s := by
  rw [render, List.flatMap_map, escape]
  refine List.flatMap_congr fun c _ => ?_
  rw [token]
  cases t.entries.find? fun e => e.1 = c <;> rfl

/-- A text without markers that begins an escaped text begins the text that was escaped. -/
theorem prefix_of_prefix_escape {p : List α} (hm : t.marker ∉ p) {s : List α}
    (h : p <+: t.render (s.map t.token)) : p <+: s := by
  induction s generalizing p with
  | nil => exact h
  | cons c s ih =>
    cases p with
    | nil => exact List.nil_prefix
    | cons d p =>
      rw [List.mem_cons, not_or] at hm
      rw [List.map_cons, render_cons] at h
      rcases t.token_cases c with hc | ⟨e, -, -, hc⟩
      · rw [hc] at h
        obtain ⟨hd, hp⟩ := List.cons_prefix_cons.mp h
        exact List.cons_prefix_cons.mpr ⟨hd, ih hm.2 hp⟩
      · rw [hc] at h
        exact absurd (List.cons_prefix_cons.mp h).1.symm hm.1

/-- Escaping makes no code but those of the characters. -/
theorem normal_token {s : List α} (h : ∀ e ∈ t.entries, ¬t.code e <:+: s) :
    t.Normal (s.map t.token) := by
  induction s with
  | nil => trivial
  | cons c s ih =>
    have hs : t.Normal (s.map t.token) :=
      ih fun e he hi => h e he (hi.trans (List.suffix_cons c s).isInfix)
    rw [List.map_cons]
    rcases t.token_cases c with hc | ⟨e, he, -, hc⟩
    · rw [hc]
      refine ⟨fun e he hp => h e he ?_, hs⟩
      obtain ⟨hmark, hp⟩ := List.cons_prefix_cons.mp hp
      exact (List.cons_prefix_cons.mpr
        ⟨hmark, prefix_of_prefix_escape (t.marker_not_mem e he) hp⟩).isInfix
    · rw [hc]
      exact ⟨he, hs⟩

/-- **Reading back.**  A text without codes that was escaped is read back as it was. -/
theorem replaceAll_escape {s : List α} (h : ∀ e ∈ t.entries, ¬t.code e <:+: s) :
    t.replaceAll (t.escape s) = s := by
  rw [← render_token, replaceAll_render (normal_token h), List.map_map]
  exact (List.map_congr_left fun c _ => char_token c).trans (List.map_id s)

end Table

end Py.Escapes

import Custodian.Lib.Dict
import Custodian.Lib.Except
import Custodian.Lib.Text
import Mathlib.Data.List.TakeWhile

/-!
# Format strings

The language's formatter: a template is iterated as literal texts and
replacement fields (`parse`), a field name is a first part and a chain of
attributes and items (`getField`), and `vformat` writes every field with its
own format specification, in which fields are replaced first.
-/

namespace Py.Format

open Py

/-! ## Templates -/

/-- A replacement field as it is written: `{name!conversion:spec}`. -/
structure Field where
  name : Text
  conversion : Option Char
  spec : Text
  deriving DecidableEq, Repr

/-- A literal text and the field that follows it. -/
structure Entry where
  literal : Text
  field : Option Field
  deriving DecidableEq, Repr

/-- What iterating over a template gives, up to its end or an error. -/
inductive Markup where
  | done
  | fail (e : Exn)
  | entry (e : Entry) (rest : Markup)
  deriving DecidableEq, Repr

def valueError : Exn := .raised "ValueError".toList

/-- The name of a field, the character that ends it and the rest; brackets hide both. -/
def scanName : Bool → Text → Except Exn (Text × Char × Text)
  | _, [] => .error valueError
  | true, c :: s => do
    let (name, stop, rest) ← scanName (c ≠ ']') s
    return (c :: name, stop, rest)
  | false, c :: s =>
    if c = '{' then .error valueError
    else if c = '}' ∨ c = ':' ∨ c = '!' then .ok ([], c, s)
    else do
      let (name, stop, rest) ← scanName (c = '[') s
      return (c :: name, stop, rest)

/-- The specification up to the brace that closes the field. -/
def scanSpec : Nat → Text → Except Exn (Text × Text)
  | _, [] => .error valueError
  | opened, '{' :: s => do
    let (spec, rest) ← scanSpec (opened + 1) s
    return ('{' :: spec, rest)
  | 0, '}' :: s => .ok ([], s)
  | opened + 1, '}' :: s => do
    let (spec, rest) ← scanSpec opened s
    return ('}' :: spec, rest)
  | opened, c :: s => do
    let (spec, rest) ← scanSpec opened s
    return (c :: spec, rest)

/-- The conversion after a `!`, and whether a specification follows. -/
def scanConversion : Text → Except Exn (Char × Bool × Text)
  | c :: '}' :: s => .ok (c, false, s)
  | c :: ':' :: s => .ok (c, true, s)
  | _ => .error valueError

/-- A field after its opening brace. -/
def parseField (s : Text) : Except Exn (Field × Text) := do
  let (name, stop, s) ← scanName false s
  if stop = '}' then return (⟨name, none, []⟩, s)
  else if stop = ':' then
    let (spec, s) ← scanSpec 0 s
    return (⟨name, none, spec⟩, s)
  else
    let (c, more, s) ← scanConversion s
    let conversion := if c = '\x00' then none else some c
    if more then
      let (spec, s) ← scanSpec 0 s
      return (⟨name, conversion, spec⟩, s)
    else return (⟨name, conversion, []⟩, s)

def isBrace (c : Char) : Bool := c = '{' || c = '}'

/-- The next entry of a template and the rest; a doubled brace is a literal one. -/
def nextEntry (s : Text) : Except Exn (Entry × Text) :=
  let literal := s.takeWhile fun c => !isBrace c
  match s.dropWhile fun c => !isBrace c with
  | [] => .ok (⟨literal, none⟩, [])
  | [_] => .error valueError
  | c :: d :: rest =>
    if c = d then .ok (⟨literal ++ [c], none⟩, rest)
    else if c = '}' then .error valueError
    else do
      let (field, rest) ← parseField (d :: rest)
      return (⟨literal, some field⟩, rest)

def parseFrom : Nat → Text → Markup
  | 0, _ => .done
  | fuel + 1, s =>
    if s = [] then .done
    else match nextEntry s with
      | .error e => .fail e
      | .ok (e, rest) => .entry e (parseFrom fuel rest)

/-- `formatter.parse(s)` -/
def parse (s : Text) : Markup := parseFrom s.length s

/-! ### Every entry takes characters of the template -/

theorem scanName_length (s : Text) : ∀ (inside : Bool) (r : Text × Char × Text),
    scanName inside s = .ok r → r.2.2.length < s.length := by
  induction s with
  | nil => intro inside r h; cases inside <;> cases h
  | cons c s ih =>
    intro inside r h
    have hcons : ∀ b, (scanName b s >>= fun r => pure (c :: r.1, r.2.1, r.2.2)) = .ok r →
        r.2.2.length < (c :: s).length := by
      intro b hb
      obtain ⟨r', hr', hr⟩ := bind_eq_ok.mp hb
      rw [← pure_eq_ok.mp hr, List.length_cons]
      exact Nat.lt_succ_of_lt (ih b r' hr')
    cases inside with
    | true => exact hcons _ h
    | false =>
      rw [scanName] at h
      split at h
      · cases h
      split at h
      · cases h
        simp
      · exact hcons _ h

theorem scanSpec_length (s : Text) : ∀ (opened : Nat) (r : Text × Text),
    scanSpec opened s = .ok r → r.2.length < s.length := by
  induction s with
  | nil => intro opened r h; cases opened <;> cases h
  | cons c s ih =>
    intro opened r h
    have hcons : ∀ n, (scanSpec n s >>= fun r => pure (c :: r.1, r.2)) = .ok r →
        r.2.length < (c :: s).length := by
      intro n hn
      obtain ⟨r', hr', hr⟩ := bind_eq_ok.mp hn
      rw [← pure_eq_ok.mp hr, List.length_cons]
      exact Nat.lt_succ_of_lt (ih n r' hr')
    by_cases hopen : c = '{'
    · subst hopen
      exact hcons (opened + 1) (by simpa only [scanSpec] using h)
    by_cases hclose : c = '}'
    · subst hclose
      cases opened with
      | zero =>
        cases h
        simp
      | succ n => exact hcons n h
    · exact hcons opened (by rwa [scanSpec] at h <;> simp [hopen, hclose])

theorem scanConversion_length {s : Text} {r : Char × Bool × Text} (h : scanConversion s = .ok r) :
    r.2.2.length < s.length := by
  unfold scanConversion at h
  split at h
  · cases h
    simp only [List.length_cons]
    omega
  · cases h
    simp only [List.length_cons]
    omega
  · cases h

theorem parseField_length {s : Text} {r : Field × Text} (h : parseField s = .ok r) :
    r.2.length < s.length := by
  rw [parseField, bind_eq_ok] at h
  obtain ⟨⟨name, stop, s₁⟩, hname, h⟩ := h
  have h₁ : s₁.length < s.length := scanName_length s _ _ hname
  have hspec : ∀ {n c} {s₂ : Text}, s₂.length ≤ s₁.length →
      (scanSpec 0 s₂ >>= fun r => pure (Field.mk n c r.1, r.2)) = .ok r →
      r.2.length < s.length := by
    intro n c s₂ h₂ hs
    obtain ⟨r', hr', hr⟩ := bind_eq_ok.mp hs
    have h₃ := scanSpec_length s₂ _ _ hr'
    rw [← pure_eq_ok.mp hr]
    show r'.2.length < s.length
    omega
  simp only at h
  split at h
  · rw [← pure_eq_ok.mp h]
    exact h₁
  split at h
  · exact hspec le_rfl h
  · obtain ⟨⟨c, more, s₂⟩, hc, h⟩ := bind_eq_ok.mp h
    have h₂ : s₂.length < s₁.length := scanConversion_length hc
    simp only at h
    split at h
    · exact hspec (Nat.le_of_lt h₂) h
    · rw [← pure_eq_ok.mp h]
      exact Nat.lt_trans h₂ h₁

/-- An entry takes at least one character and is a text, a field or both. -/
theorem nextEntry_length {s : Text} (hs : s ≠ []) {r : Entry × Text} (h : nextEntry s = .ok r) :
    r.2.length < s.length ∧ (r.1.literal ≠ [] ∨ r.1.field ≠ none) := by
  have hsplit := @List.takeWhile_append_dropWhile _ (fun c => !isBrace c) s
  rw [nextEntry] at h
  split at h
  · rename_i hd
    cases h
    rw [hd, List.append_nil] at hsplit
    simp only [hsplit]
    exact ⟨List.length_pos_iff.mpr hs, Or.inl hs⟩
  · cases h
  · rename_i c d rest hd
    have hlen : rest.length + 2 ≤ s.length := by
      have := congrArg List.length hsplit
      simp only [hd, List.length_append, List.length_cons] at this
      omega
    split at h
    · cases h
      exact ⟨by simp only; omega, Or.inl (by simp)⟩
    split at h
    · cases h
    · obtain ⟨r', hr', hr⟩ := bind_eq_ok.mp h
      have hl := parseField_length hr'
      rw [List.length_cons] at hl
      rw [← pure_eq_ok.mp hr]
      exact ⟨by simp only; omega, Or.inr (by simp)⟩

theorem parseFrom_eq (n : Nat) : ∀ s : Text, s.length ≤ n → parseFrom n s = parse s := by
  induction n using Nat.strong_induction_on with
  | _ n ih =>
    intro s hs
    cases n with
    | zero => rw [List.length_eq_zero_iff.mp (Nat.le_zero.mp hs)]; rfl
    | succ n =>
      cases s with
      | nil => rfl
      | cons c s =>
        rw [parse, List.length_cons, parseFrom, parseFrom]
        simp only [reduceCtorEq, if_false]
        cases h : nextEntry (c :: s) with
        | error e => rfl
        | ok r =>
          have hr := (nextEntry_length (by simp) h).1
          rw [List.length_cons] at hr hs
          simp only
          rw [ih n (by omega) r.2 (by omega), ih s.length (by omega) r.2 (by omega)]

/-- **Iterating reads one entry and goes on with the rest.** -/
theorem parse_of_ok {s : Text} (hs : s ≠ []) {e : Entry} {rest : Text}
    (h : nextEntry s = .ok (e, rest)) : parse s = .entry e (parse rest) := by
  have hr := (nextEntry_length hs h).1
  cases s with
  | nil => exact absurd rfl hs
  | cons c s =>
    rw [List.length_cons] at hr
    rw [parse, List.length_cons, parseFrom, if_neg hs]
    simp only [h]
    rw [parseFrom_eq s.length rest (Nat.lt_succ_iff.mp hr)]

theorem parse_of_error {s : Text} (hs : s ≠ []) {e : Exn} (h : nextEntry s = .error e) :
    parse s = .fail e := by
  cases s with
  | nil => exact absurd rfl hs
  | cons c s =>
    rw [parse, List.length_cons, parseFrom, if_neg hs]
    simp only [h]

namespace Markup

/-- The literal texts, one after the other. -/
def literals : Markup → Text
  | .done => []
  | .fail _ => []
  | .entry e rest => e.literal ++ rest.literals

/-- The replacement fields, before an error if there is one. -/
def fields : Markup → List Field
  | .done => []
  | .fail _ => []
  | .entry e rest => e.field.toList ++ rest.fields

/-- No entry is empty. -/
def Solid : Markup → Prop
  | .done => True
  | .fail _ => True
  | .entry e rest => (e.literal ≠ [] ∨ e.field ≠ none) ∧ rest.Solid

end Markup

theorem parse_solid (s : Text) : (parse s).Solid := by
  have h : ∀ n (s : Text), (parseFrom n s).Solid := by
    intro n
    induction n with
    | zero => intro s; trivial
    | succ n ih =>
      intro s
      rw [parseFrom]
      split
      · trivial
      · rename_i hs
        cases h : nextEntry s with
        | error e => trivial
        | ok r => exact ⟨(nextEntry_length hs h).2, ih r.2⟩
  exact h _ s

theorem parse_eq_done {s : Text} : parse s = .done ↔ s = [] := by
  constructor
  · intro h
    by_contra hs
    cases hn : nextEntry s with
    | error e =>
      rw [parse_of_error hs hn] at h
      cases h
    | ok r =>
      rw [parse_of_ok hs hn] at h
      cases h
  · rintro rfl
    rfl

/-! ## Field names -/

/-- What an item is looked up by. -/
inductive Key where
  | index (n : Nat)
  | name (s : Text)
  deriving DecidableEq, Repr

/-- The number a text of decimal digits stands for; too large a one is an error. -/
def getInteger (s : Text) : Except Exn (Option Nat) :=
  let rec go (acc : Nat) : Text → Except Exn (Option Nat)
    | [] => .ok (some acc)
    | c :: s =>
      match digitValue c with
      | none => .ok none
      | some d => if 2 ^ 63 - 1 < 10 * acc + d then .error valueError else go (10 * acc + d) s
  if s = [] then .ok none else go 0 s

def toKey (s : Text) : Except Exn Key := do
  match ← getInteger s with
  | some n => return .index n
  | none => return .name s

def endsPart (c : Char) : Bool := c = '.' || c = '['

/-- The next accessor of a field name (an attribute when the flag is set) and the rest. -/
def nextAccessor : Text → Except Exn (Bool × Text × Text)
  | '.' :: s =>
    let name := s.takeWhile fun c => !endsPart c
    if name = [] then .error valueError
    else .ok (true, name, s.dropWhile fun c => !endsPart c)
  | '[' :: s =>
    let name := s.takeWhile (· ≠ ']')
    match s.dropWhile (· ≠ ']') with
    | [] => .error valueError
    | _ :: rest => if name = [] then .error valueError else .ok (false, name, rest)
  | _ => .error valueError

/-- What a formatter needs of the objects it writes. -/
structure Objects (V : Type) where
  ofText : Text → V
  attr : V → Text → Except Exn V
  item : V → Key → Except Exn V
  format : V → Text → Except Exn Text
  str : V → Text
  repr : V → Except Exn Text
  ascii : V → Except Exn Text

section Formatter

variable {V : Type} (w : Objects V) (args : List V) (kwargs : Dict Text V)

/-- `formatter.get_value(key, args, kwargs)` -/
def getValue : Key → Except Exn V
  | .index n => (args[n]?).elim (.error (.raised "IndexError".toList)) .ok
  | .name s => (kwargs.lookup s).elim (.error .keyError) .ok

/-- `getattr(v, name)` or `v[name]` -/
def access (v : V) (isAttr : Bool) (name : Text) : Except Exn V :=
  if isAttr then w.attr v name
  else do
    let key ← toKey name
    w.item v key

/-- Follow the accessors of a field name. -/
def follow : Nat → V → Text → Except Exn V
  | 0, v, _ => .ok v
  | fuel + 1, v, s =>
    if s = [] then .ok v
    else do
      let (isAttr, name, rest) ← nextAccessor s
      let v ← access w v isAttr name
      follow fuel v rest

/-- `formatter.get_field(name, args, kwargs)` -/
def getField (name : Text) : Except Exn V := do
  let key ← toKey (name.takeWhile fun c => !endsPart c)
  let v ← getValue args kwargs key
  let rest := name.dropWhile fun c => !endsPart c
  follow w rest.length v rest

/-- `formatter.convert_field(v, conversion)` -/
def convertField (v : V) : Option Char → Except Exn V
  | none => .ok v
  | some 's' => .ok (w.ofText (w.str v))
  | some 'r' => do
    let s ← w.repr v
    return w.ofText s
  | some 'a' => do
    let s ← w.ascii v
    return w.ofText s
  | some _ => .error valueError

/-- The name a field is looked up by, and the number the next empty name gets:
none once a name was a number. -/
def fieldName (auto : Option Nat) (name : Text) : Except Exn (Text × Option Nat) :=
  if name = [] then
    match auto with
    | none => .error valueError
    | some n => .ok ((toString n).toList, some (n + 1))
  else if name.all isDigitLike then
    match auto with
    | some (_ + 1) => .error valueError
    | _ => .ok (name, none)
  else .ok (name, auto)

/-- The object of a field after its conversion. -/
def fetch (auto : Option Nat) (f : Field) : Except Exn (V × Option Nat) := do
  let (name, auto) ← fieldName auto f.name
  let v ← getField w args kwargs name
  let v ← convertField w v f.conversion
  return (v, auto)

/-! ## Formatting -/

/-- Write the entries of a template; `expand` replaces the fields of a specification. -/
def render (expand : Text → Option Nat → Except Exn (Text × Option Nat)) :
    Markup → Option Nat → Except Exn (Text × Option Nat)
  | .done, auto => .ok ([], auto)
  | .fail e, _ => .error e
  | .entry e rest, auto =>
    match e.field with
    | none => do
      let (tail, auto) ← render expand rest auto
      return (e.literal ++ tail, auto)
    | some f => do
      let (v, auto) ← fetch w args kwargs auto f
      let (spec, auto) ← expand f.spec auto
      let written ← w.format v spec
      let (tail, auto) ← render expand rest auto
      return (e.literal ++ written ++ tail, auto)

/-- `formatter._vformat(s, args, kwargs, used_args, depth - 1, auto)` -/
def vformat : Nat → Text → Option Nat → Except Exn (Text × Option Nat)
  | 0, _, _ => .error valueError
  | depth + 1, s, auto => render w args kwargs (vformat depth) (parse s) auto

/-- `string.Formatter().format(s, *args, **kwargs)` -/
def format (s : Text) : Except Exn Text := do
  let (written, _) ← vformat w args kwargs 3 s (some 0)
  return written

theorem fetch_keyword {name : Text} {v : V} (hne : name ≠ [])
    (hdigits : name.all isDigitLike = false) (hkey : toKey name = .ok (.name name))
    (hplain : ∀ c ∈ name, endsPart c = false) (hv : kwargs.lookup name = some v)
    (auto : Option Nat) : fetch w args kwargs auto ⟨name, none, []⟩ = .ok (v, auto) := by
  have hname : fieldName auto name = .ok (name, auto) := by
    unfold fieldName
    rw [if_neg hne, if_neg (by rw [hdigits]; exact Bool.false_ne_true)]
  have hfirst : name.takeWhile (fun c => !endsPart c) = name :=
    List.takeWhile_eq_self_iff.mpr fun c hc => by rw [hplain c hc]; rfl
  have hrest : name.dropWhile (fun c => !endsPart c) = [] :=
    List.dropWhile_eq_nil_iff.mpr fun c hc => by rw [hplain c hc]; rfl
  simp only [fetch, hname, getField, hfirst, hkey, hrest, getValue, hv, bind, Except.bind,
    Option.elim, List.length_nil, follow, convertField, pure, Except.pure]

end Formatter

/-! ## A template followed by a field

A template that is written although it is continued with a text `S` that opens
with a field and closes what it opens has no part that reaches into `S`. -/

/-- No field, specification or literal brace of an earlier text can take a part of this one. -/
structure StandsAlone (S : Text) : Prop where
  opens : ∃ d S', S = '{' :: d :: S' ∧ d ≠ '{' ∧ d ≠ '}' ∧ d ≠ ':'
  name : ∀ b r, scanName b S ≠ .ok r
  spec : ∀ n r, scanSpec n S ≠ .ok r
  tail : ∀ r, nextEntry S.tail ≠ .ok r

variable {S : Text}

theorem scanSpec_cons_ne {c : Char} {s : Text} {n : Nat} (hc : isBrace c = false)
    (h : ∀ r, scanSpec n s ≠ .ok r) (r : Text × Text) : scanSpec n (c :: s) ≠ .ok r := by
  simp only [isBrace, Bool.or_eq_false_iff, decide_eq_false_iff_not] at hc
  intro hr
  rw [scanSpec] at hr
  · obtain ⟨r', hr', -⟩ := bind_eq_ok.mp hr
    exact h r' hr'
  all_goals simp [hc]

/-- Nor does it end in a field, which closes what it opens. -/
theorem scanSpec_field_ne {name s : Text} {n : Nat} (hname : ∀ c ∈ name, isBrace c = false)
    (h : ∀ r, scanSpec n s ≠ .ok r) (r : Text × Text) :
    scanSpec n ('{' :: (name ++ '}' :: s)) ≠ .ok r := by
  have hclose : ∀ r, scanSpec (n + 1) ('}' :: s) ≠ .ok r := by
    intro r hr
    rw [scanSpec] at hr
    obtain ⟨r', hr', -⟩ := bind_eq_ok.mp hr
    exact h r' hr'
  have hrest : ∀ r, scanSpec (n + 1) (name ++ '}' :: s) ≠ .ok r := by
    induction name with
    | nil => exact hclose
    | cons c name ih =>
      rw [List.forall_mem_cons] at hname
      exact scanSpec_cons_ne hname.1 (ih hname.2)
  intro hr
  rw [scanSpec] at hr
  obtain ⟨r', hr', -⟩ := bind_eq_ok.mp hr
  exact hrest r' hr'

theorem scanName_append (hS : StandsAlone S) (q : Text) : ∀ b r, scanName b (q ++ S) = .ok r →
    ∃ rest, r.2.2 = rest ++ S ∧ scanName b q = .ok (r.1, r.2.1, rest) := by
  induction q with
  | nil => exact fun b r h => absurd h (hS.name b r)
  | cons c q ih =>
    intro b r h
    have hcons : ∀ b', (scanName b' (q ++ S) >>= fun r => pure (c :: r.1, r.2.1, r.2.2)) = .ok r →
        ∃ rest, r.2.2 = rest ++ S ∧
          (scanName b' q >>= fun r => pure (c :: r.1, r.2.1, r.2.2)) = .ok (r.1, r.2.1, rest) := by
      intro b' h'
      obtain ⟨r', hr', hr⟩ := bind_eq_ok.mp h'
      obtain ⟨rest, hrest, hq⟩ := ih b' r' hr'
      rw [← pure_eq_ok.mp hr, hq]
      exact ⟨rest, hrest, rfl⟩
    cases b with
    | true => exact hcons _ h
    | false =>
      rw [List.cons_append, scanName] at h
      rw [scanName]
      split at h
      · cases h
      · rename_i h₁
        rw [if_neg h₁]
        split at h
        · rename_i h₂
          rw [if_pos h₂]
          cases h
          exact ⟨q, rfl, rfl⟩
        · rename_i h₂
          rw [if_neg h₂]
          exact hcons _ h

theorem scanSpec_append (hS : StandsAlone S) (q : Text) : ∀ n r, scanSpec n (q ++ S) = .ok r →
    ∃ rest, r.2 = rest ++ S ∧ scanSpec n q = .ok (r.1, rest) := by
  induction q with
  | nil => exact fun n r h => absurd h (hS.spec n r)
  | cons c q ih =>
    intro n r h
    have hcons : ∀ k, (scanSpec k (q ++ S) >>= fun r => pure (c :: r.1, r.2)) = .ok r →
        ∃ rest, r.2 = rest ++ S ∧
          (scanSpec k q >>= fun r => pure (c :: r.1, r.2)) = .ok (r.1, rest) := by
      intro k h'
      obtain ⟨r', hr', hr⟩ := bind_eq_ok.mp h'
      obtain ⟨rest, hrest, hq⟩ := ih k r' hr'
      rw [← pure_eq_ok.mp hr, hq]
      exact ⟨rest, hrest, rfl⟩
    by_cases hopen : c = '{'
    · subst hopen
      simp only [List.cons_append, scanSpec] at h ⊢
      exact hcons _ h
    by_cases hclose : c = '}'
    · subst hclose
      cases n with
      | zero =>
        cases h
        exact ⟨q, rfl, rfl⟩
      | succ n =>
        simp only [List.cons_append, scanSpec] at h ⊢
        exact hcons _ h
    · rw [List.cons_append, scanSpec] at h
      · rw [scanSpec]
        · exact hcons _ h
        all_goals simp [hopen, hclose]
      all_goals simp [hopen, hclose]

theorem scanConversion_append (hS : StandsAlone S) (q : Text) {r : Char × Bool × Text}
    (h : scanConversion (q ++ S) = .ok r) :
    ∃ rest, r.2.2 = rest ++ S ∧ scanConversion q = .ok (r.1, r.2.1, rest) := by
  obtain ⟨d, S', rfl, hd⟩ := hS.opens
  rcases q with _ | ⟨c, _ | ⟨d', q⟩⟩
  · unfold scanConversion at h
    split at h <;> simp_all
  · unfold scanConversion at h
    split at h <;> simp_all
  · unfold scanConversion at h ⊢
    split at h
    · rename_i hq
      simp only [List.cons_append, List.cons.injEq] at hq
      obtain ⟨rfl, rfl, rfl⟩ := hq
      cases h
      exact ⟨q, rfl, rfl⟩
    · rename_i hq
      simp only [List.cons_append, List.cons.injEq] at hq
      obtain ⟨rfl, rfl, rfl⟩ := hq
      cases h
      exact ⟨q, rfl, rfl⟩
    · cases h

theorem parseField_append (hS : StandsAlone S) (q : Text) {r : Field × Text}
    (h : parseField (q ++ S) = .ok r) :
    ∃ rest, r.2 = rest ++ S ∧ parseField q = .ok (r.1, rest) := by
  rw [parseField, bind_eq_ok] at h
  obtain ⟨⟨name, stop, s₁⟩, hname, h⟩ := h
  obtain ⟨q₁, rfl, hq₁⟩ := scanName_append hS q _ _ hname
  rw [parseField, hq₁]
  simp only [bind, Except.bind] at h ⊢
  split at h
  · rename_i hstop
    cases h
    exact ⟨q₁, rfl, by rw [if_pos hstop]; rfl⟩
  rename_i hstop
  rw [if_neg hstop]
  split at h
  · rename_i hcolon
    rw [if_pos hcolon]
    obtain ⟨r', hr', hr⟩ := bind_eq_ok.mp h
    obtain ⟨rest, hrest, hq⟩ := scanSpec_append hS q₁ _ _ hr'
    rw [hq]
    cases pure_eq_ok.mp hr
    exact ⟨rest, hrest, rfl⟩
  · rename_i hcolon
    rw [if_neg hcolon]
    obtain ⟨⟨c, more, s₂⟩, hc, h⟩ := bind_eq_ok.mp h
    obtain ⟨q₂, rfl, hq₂⟩ := scanConversion_append hS q₁ hc
    rw [hq₂]
    cases more with
    | true =>
      obtain ⟨r', hr', hr⟩ := bind_eq_ok.mp h
      obtain ⟨rest, hrest, hq⟩ := scanSpec_append hS q₂ _ _ hr'
      cases pure_eq_ok.mp hr
      refine ⟨rest, hrest, ?_⟩
      simp only [hq]
      rfl
    | false =>
      cases pure_eq_ok.mp h
      exact ⟨q₂, rfl, rfl⟩

theorem nextEntry_append (hS : StandsAlone S) {p : Text} {e : Entry} {rest : Text}
    (h : nextEntry (p ++ S) = .ok (e, rest)) :
    (∃ rest', rest = rest' ++ S ∧ nextEntry p = .ok (e, rest')) ∨ rest = S.tail ∨
      ∃ f, nextEntry p = .ok (⟨p, none⟩, []) ∧ e = ⟨p, some f⟩ ∧
        nextEntry S = .ok (⟨[], some f⟩, rest) := by
  obtain ⟨d, S', hS', hd, -, -⟩ := hS.opens
  have hsplit := @List.takeWhile_append_dropWhile _ (fun c => !isBrace c) p
  have hbrace : isBrace '{' = true := by decide
  unfold nextEntry at h ⊢
  cases hdrop : p.dropWhile fun c => !isBrace c with
  | nil =>
    -- the text has no brace: the field of `S` follows it
    rw [hdrop, List.append_nil] at hsplit
    have hall : ∀ c ∈ p, (!isBrace c) = true := List.takeWhile_eq_self_iff.mp hsplit
    rw [List.takeWhile_append_of_pos hall, List.dropWhile_append_of_pos hall, hS'] at h
    simp only [List.takeWhile_cons, List.dropWhile_cons, hbrace, Bool.not_true, if_false,
      Bool.false_eq_true, List.append_nil, Ne.symm hd, show '{' ≠ '}' by decide] at h
    obtain ⟨⟨f, rest'⟩, hf, he⟩ := bind_eq_ok.mp h
    cases pure_eq_ok.mp he
    refine Or.inr (Or.inr ⟨f, by simp only [hsplit], rfl, ?_⟩)
    simp only [hS', List.takeWhile_cons, List.dropWhile_cons, hbrace, Bool.not_true, if_false,
      Bool.false_eq_true, Ne.symm hd, show '{' ≠ '}' by decide, hf]
    rfl
  | cons c p' =>
    have hc : isBrace c = true := by
      have := @List.head_dropWhile_not _ (fun c => !isBrace c) p (by rw [hdrop]; simp)
      simpa [hdrop] using this
    have hmem : ∀ x ∈ p.takeWhile fun c => !isBrace c, (!isBrace x) = true := fun x hx =>
      @List.mem_takeWhile_imp _ (fun c => !isBrace c) _ _ hx
    have htake : (p ++ S).takeWhile (fun c => !isBrace c) = p.takeWhile fun c => !isBrace c := by
      conv_lhs => rw [← hsplit, hdrop]
      rw [List.append_assoc, List.takeWhile_append_of_pos hmem]
      simp [hc]
    have hdrop' : (p ++ S).dropWhile (fun c => !isBrace c) = c :: p' ++ S := by
      conv_lhs => rw [← hsplit, hdrop]
      rw [List.append_assoc, List.dropWhile_append_of_pos hmem]
      simp [hc]
    rw [htake, hdrop'] at h
    cases p' with
    | nil =>
      -- a brace at the end of the text meets the one that opens `S`
      rw [hS'] at h
      simp only [List.cons_append, List.nil_append] at h
      split at h
      · cases h
        exact Or.inr (Or.inl (by rw [hS']; rfl))
      · rename_i hne
        have hclose : c = '}' := by simpa [isBrace, hne] using hc
        rw [if_pos hclose] at h
        cases h
    | cons d' p' =>
      simp only [List.cons_append] at h ⊢
      split at h
      · rename_i heq
        rw [if_pos heq]
        cases h
        exact Or.inl ⟨p', rfl, rfl⟩
      rename_i hne
      rw [if_neg hne]
      split at h
      · cases h
      · rename_i hclose
        rw [if_neg hclose]
        obtain ⟨r, hr, he⟩ := bind_eq_ok.mp h
        obtain ⟨rest', hrest, hq⟩ := parseField_append hS (d' :: p') hr
        cases pure_eq_ok.mp he
        refine Or.inl ⟨rest', hrest, ?_⟩
        rw [hq]
        rfl

/-- **A template that is continued is written as it is alone, and then what follows.** -/
theorem render_append {V : Type} {w : Objects V} {args : List V} {kwargs : Dict Text V}
    {expand : Text → Option Nat → Except Exn (Text × Option Nat)} (hS : StandsAlone S) (n : Nat) :
    ∀ (p : Text) (auto a : Option Nat) (v : Text), p.length ≤ n →
      render w args kwargs expand (parse (p ++ S)) auto = .ok (v, a) →
      ∃ P a' Q, render w args kwargs expand (parse p) auto = .ok (P, a') ∧
        render w args kwargs expand (parse S) a' = .ok (Q, a) ∧ v = P ++ Q := by
  obtain ⟨d, S', hS', -⟩ := hS.opens
  have hSne : S ≠ [] := by
    rw [hS']
    simp
  induction n with
  | zero =>
    intro p auto a v hp h
    rw [List.length_eq_zero_iff.mp (Nat.le_zero.mp hp)] at h ⊢
    exact ⟨[], auto, v, rfl, h, rfl⟩
  | succ n ih =>
    intro p auto a v hp h
    by_cases hne : p = []
    · rw [hne] at h ⊢
      exact ⟨[], auto, v, rfl, h, rfl⟩
    have hne' : p ++ S ≠ [] := by simp [hne]
    cases hn : nextEntry (p ++ S) with
    | error e =>
      rw [parse_of_error hne' hn] at h
      cases h
    | ok r =>
      obtain ⟨e, rest⟩ := r
      rw [parse_of_ok hne' hn] at h
      rcases nextEntry_append hS hn with ⟨rest', rfl, hq⟩ | rfl | ⟨f, hq, rfl, hSf⟩
      · have hlen := (nextEntry_length hne hq).1
        rw [parse_of_ok hne hq]
        have ih' := fun auto v h => ih rest' auto a v (by simp only at hlen; omega) h
        cases hf : e.field with
        | none =>
          simp only [render, hf, bind_eq_ok, pure_eq_ok, Prod.exists, Prod.mk.injEq] at h ⊢
          obtain ⟨tail, a₁, hr, rfl, rfl⟩ := h
          obtain ⟨P, a', Q, hP, hQ, rfl⟩ := ih' _ _ hr
          exact ⟨_, a', Q, ⟨P, a', hP, rfl, rfl⟩, hQ, (List.append_assoc ..).symm⟩
        | some f =>
          simp only [render, hf, bind_eq_ok, pure_eq_ok, Prod.exists, Prod.mk.injEq] at h ⊢
          obtain ⟨u, a₁, hu, x, a₂, hx, written, hw, tail, a₃, hr, rfl, rfl⟩ := h
          obtain ⟨P, a', Q, hP, hQ, rfl⟩ := ih' _ _ hr
          exact ⟨_, a', Q, ⟨u, a₁, hu, x, a₂, hx, written, hw, P, a', hP, rfl, rfl⟩, hQ,
            (List.append_assoc ..).symm⟩
      · -- the brace at the end of the template has taken the one that opens `S`
        have htail : S.tail ≠ [] := by
          rw [hS']
          simp
        cases ht : nextEntry S.tail with
        | ok r => exact absurd ht (hS.tail r)
        | error e' =>
          rw [parse_of_error htail ht] at h
          cases hf : e.field with
          | none =>
            simp only [render, hf, bind_eq_ok, Prod.exists] at h
            obtain ⟨_, _, h, -⟩ := h
            cases h
          | some f =>
            simp only [render, hf, bind_eq_ok, Prod.exists] at h
            obtain ⟨_, _, -, _, _, -, _, -, _, _, h, -⟩ := h
            cases h
      · rw [parse_of_ok hne hq, parse_of_ok hSne hSf]
        simp only [render, bind_eq_ok, pure_eq_ok, Prod.exists, Prod.mk.injEq] at h ⊢
        obtain ⟨u, a₁, hu, x, a₂, hx, written, hw, tail, a₃, hr, rfl, rfl⟩ := h
        exact ⟨p, auto, written ++ tail, ⟨[], auto, rfl, by simp, rfl⟩,
          ⟨u, a₁, hu, x, a₂, hx, written, hw, tail, a₃, hr, by simp, rfl⟩, by simp⟩

end Py.Format

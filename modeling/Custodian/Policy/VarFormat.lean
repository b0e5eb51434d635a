import Custodian.Lib.FormatString

/-!
# The type-preserving formatter

`VarFormat` copies the language's formatter with one change: a template that is
one field without a specification gives the object itself.  The copy expands
the format specifications with the same method, so the change is made there too.
-/

namespace Custodian.VarFormat

open Py Py.Format

/-! ## Objects -/

/-- What a template writes: texts, deferred format strings and other objects. -/
inductive Value (α : Type) where
  | text (s : Text)
  | deferred (data : Text)
  | object (a : α)
  deriving DecidableEq, Repr

/-- The methods of the texts and of the other objects.  An empty specification
formats every object, as documented: a text as itself, the others as `str` does. -/
structure Methods (α : Type) where
  attr : Value α → Text → Except Exn (Value α)
  item : Value α → Key → Except Exn (Value α)
  formatText : Text → Text → Except Exn Text
  formatObject : α → Text → Except Exn Text
  strObject : α → Text
  repr : Value α → Except Exn Text
  ascii : Value α → Except Exn Text
  truthy : α → Bool
  formatText_nil : ∀ s, formatText s [] = .ok s
  formatObject_nil : ∀ a, formatObject a [] = .ok (strObject a)

/-- `DeferredFormatString.__format__` -/
def deferredFormat (data spec : Text) : Text :=
  '{' :: data ++ (if spec = [] then [] else ':' :: spec) ++ ['}']

variable {α : Type}

namespace Value

def isDeferred : Value α → Bool
  | .deferred _ => true
  | _ => false

/-- The truth of a value in a condition. -/
def truthy (m : Methods α) : Value α → Bool
  | .text s => !s.isEmpty
  | .deferred data => !data.isEmpty
  | .object a => m.truthy a

end Value

/-- What the formatter needs of the objects. -/
def Methods.objects (m : Methods α) : Objects (Value α) where
  ofText := .text
  attr := m.attr
  item := m.item
  format v spec :=
    match v with
    | .text s => m.formatText s spec
    | .deferred data => .ok (deferredFormat data spec)
    | .object a => m.formatObject a spec
  str v :=
    match v with
    | .text s => s
    | .deferred data => data
    | .object a => m.strObject a
  repr := m.repr
  ascii := m.ascii

/-! ## The formatter -/

section Formatter

variable (m : Methods α) (args : List (Value α)) (kwargs : Dict Text (Value α))

/-- An element of the result list of `_vformat`. -/
inductive Piece (α : Type) where
  | literal (s : Text)
  | field (v : Value α) (spec : Value α)

/-- `self.format_field(obj, format_spec)`; the specification has to be a text. -/
def formatField (v : Value α) : Value α → Except Exn Text
  | .text spec => m.objects.format v spec
  | _ => .error .typeError

/-- The loop of `_vformat` over the entries of a template. -/
def collect (expand : Text → Option Nat → Except Exn (Value α × Option Nat)) :
    Markup → Option Nat → Except Exn (List (Piece α) × Option Nat)
  | .done, auto => .ok ([], auto)
  | .fail e, _ => .error e
  | .entry e rest, auto =>
    let literal := if e.literal = [] then [] else [Piece.literal e.literal]
    match e.field with
    | none => do
      let (pieces, auto) ← collect expand rest auto
      return (literal ++ pieces, auto)
    | some f => do
      let (v, auto) ← fetch m.objects args kwargs auto f
      let (spec, auto) ← expand f.spec auto
      let (pieces, auto) ← collect expand rest auto
      return (literal ++ .field v spec :: pieces, auto)

/-- The text of a result list. -/
def join : List (Piece α) → Except Exn Text
  | [] => .ok []
  | .literal s :: pieces => do
    let tail ← join pieces
    return s ++ tail
  | .field v spec :: pieces => do
    let written ← formatField m v spec
    let tail ← join pieces
    return written ++ tail

/-- The end of `_vformat`: a single field without a specification is not written. -/
def finish : List (Piece α) → Except Exn (Value α)
  | [.literal s] => .ok (.text s)
  | [.field v spec] =>
    if spec.truthy m || v.isDeferred then do
      let written ← formatField m v spec
      return .text written
    else .ok v
  | pieces => do
    let written ← join m pieces
    return .text written

/-- `VarFormat._vformat(s, args, kwargs, used_args, depth - 1, auto)` -/
def vformat : Nat → Text → Option Nat → Except Exn (Value α × Option Nat)
  | 0, _, _ => .error valueError
  | depth + 1, s, auto => do
    let (pieces, auto) ← collect m args kwargs (vformat depth) (parse s) auto
    let v ← finish m pieces
    return (v, auto)

/-- `VarFormat().format(s, *args, **kwargs)` -/
def varFormat (s : Text) : Except Exn (Value α) := do
  let (v, _) ← vformat m args kwargs 3 s (some 0)
  return v

/-! ## What it is for -/

/-- The object of a template that is one field with no literal text and no
specification. -/
def loneObject (s : Text) : Option (Value α) :=
  match parse s with
  | .entry ⟨[], some f⟩ .done =>
    if f.spec = [] then (fetch m.objects args kwargs (some 0) f).toOption.map Prod.fst else none
  | _ => none

/-- What the original's text becomes: the object itself where the template is
one field with no literal text and no specification, unless it is deferred. -/
def expected (s written : Text) : Value α :=
  match loneObject m args kwargs s with
  | some v => if v.isDeferred then .text written else v
  | none => .text written

end Formatter

/-- Whatever the arguments are, the copy raises when the original does and gives
what is expected otherwise. -/
def Refines (s : Text) : Prop :=
  ∀ (α : Type) (m : Methods α) (args : List (Value α)) (kwargs : Dict Text (Value α)),
    (varFormat m args kwargs s).toOption =
      (format m.objects args kwargs s).toOption.map (expected m args kwargs s)

/-! ## The templates on which it holds -/

/-- A specification that is one unconverted field without a specification of its own. -/
def IsBareField (s : Text) : Prop :=
  ∃ name, parse s = .entry ⟨[], some ⟨name, none, []⟩⟩ .done

/-- The template raises whatever the arguments are. -/
def AlwaysRaises (s : Text) : Prop :=
  ∀ (α : Type) (m : Methods α) (args : List (Value α)) (kwargs : Dict Text (Value α)),
    (format m.objects args kwargs s).toOption = none

/-- No specification is a bare field; and where the template is one unconverted
field with a specification, that specification has a literal text. -/
def IsSafe (s : Text) : Prop :=
  (∀ f ∈ (parse s).fields, ¬ IsBareField f.spec) ∧
    ∀ f, parse s = .entry ⟨[], some f⟩ .done → f.conversion = none → f.spec ≠ [] →
      (parse f.spec).literals ≠ []

/-! ## Where the two formatters agree -/

section Agreement

variable {m : Methods α} {args : List (Value α)} {kwargs : Dict Text (Value α)}

/-- On this specification the copy gives the text that the original gives. -/
def Agrees (expand : Text → Option Nat → Except Exn (Value α × Option Nat))
    (original : Text → Option Nat → Except Exn (Text × Option Nat)) (s : Text) : Prop :=
  ∀ auto v a, expand s auto = .ok (v, a) ↔ ∃ x, v = .text x ∧ original s auto = .ok (x, a)

variable {expand : Text → Option Nat → Except Exn (Value α × Option Nat)}
  {original : Text → Option Nat → Except Exn (Text × Option Nat)}

theorem join_literal (literal : Text) (pieces : List (Piece α)) (s : Text) :
    join m ((if literal = [] then [] else [Piece.literal literal]) ++ pieces) = .ok s ↔
      ∃ tail, join m pieces = .ok tail ∧ s = literal ++ tail := by
  split
  · rename_i h
    simp [h]
  · simp only [List.cons_append, List.nil_append, join, bind_eq_ok, pure_eq_ok]
    simp only [eq_comm]

theorem collect_join_iff {mk : Markup} (h : ∀ f ∈ mk.fields, Agrees expand original f.spec)
    (auto : Option Nat) (s : Text) (a : Option Nat) :
    (∃ pieces, collect m args kwargs expand mk auto = .ok (pieces, a) ∧ join m pieces = .ok s) ↔
      render m.objects args kwargs original mk auto = .ok (s, a) := by
  induction mk generalizing auto s with
  | done => simp [collect, render, join, and_comm, eq_comm]
  | fail e => simp [collect, render]
  | entry e rest ih =>
    obtain ⟨literal, field⟩ := e
    have hrest := ih fun f hf => h f (List.mem_append_right _ hf)
    cases field with
    | none =>
      simp only [collect, render, bind_eq_ok, pure_eq_ok, Prod.exists, Prod.mk.injEq]
      constructor
      · rintro ⟨_, ⟨pieces, a', hc, rfl, rfl⟩, hj⟩
        obtain ⟨tail, ht, rfl⟩ := (join_literal ..).mp hj
        exact ⟨tail, a', (hrest ..).mp ⟨pieces, hc, ht⟩, rfl, rfl⟩
      · rintro ⟨tail, a', hr, rfl, rfl⟩
        obtain ⟨pieces, hc, ht⟩ := (hrest ..).mpr hr
        exact ⟨_, ⟨pieces, a', hc, rfl, rfl⟩, (join_literal ..).mpr ⟨tail, ht, rfl⟩⟩
    | some f =>
      have hf : Agrees expand original f.spec := h f (by simp [Markup.fields])
      simp only [collect, render, bind_eq_ok, pure_eq_ok, Prod.exists, Prod.mk.injEq]
      constructor
      · rintro ⟨_, ⟨v, a₁, hv, spec, a₂, hs, pieces, a', hc, rfl, rfl⟩, hj⟩
        obtain ⟨x, rfl, hx⟩ := (hf ..).mp hs
        obtain ⟨tail, ht, rfl⟩ := (join_literal ..).mp hj
        simp only [join, bind_eq_ok, pure_eq_ok] at ht
        obtain ⟨written, hw, tail', ht', rfl⟩ := ht
        exact ⟨v, a₁, hv, x, a₂, hx, written, hw, tail', a', (hrest ..).mp ⟨pieces, hc, ht'⟩,
          List.append_assoc .., rfl⟩
      · rintro ⟨v, a₁, hv, x, a₂, hx, written, hw, tail, a', hr, rfl, rfl⟩
        obtain ⟨pieces, hc, ht⟩ := (hrest ..).mpr hr
        refine ⟨_, ⟨v, a₁, hv, .text x, a₂, (hf ..).mpr ⟨x, rfl, hx⟩, pieces, a', hc, rfl, rfl⟩, ?_⟩
        refine (join_literal ..).mpr ⟨written ++ tail, ?_, List.append_assoc ..⟩
        simp only [join, bind_eq_ok, pure_eq_ok]
        exact ⟨written, hw, tail, ht, rfl⟩

/-! ### What a rendering that succeeds tells -/

theorem render_fields {mk : Markup} {auto : Option Nat} {r : Text × Option Nat}
    (h : render m.objects args kwargs original mk auto = .ok r) :
    ∀ f ∈ mk.fields, ∃ auto r, original f.spec auto = .ok r := by
  induction mk generalizing auto r with
  | done => simp [Markup.fields]
  | fail e => simp [Markup.fields]
  | entry e rest ih =>
    obtain ⟨literal, field⟩ := e
    cases field with
    | none =>
      rw [render, bind_eq_ok] at h
      obtain ⟨r', hr', -⟩ := h
      simpa [Markup.fields] using ih hr'
    | some f =>
      simp only [render, bind_eq_ok, Prod.exists] at h
      obtain ⟨v, a₁, -, x, a₂, hx, written, -, tail, a', hr, -⟩ := h
      intro g hg
      rcases List.mem_cons.mp hg with rfl | hg
      · exact ⟨a₁, (x, a₂), hx⟩
      · exact ih hr g hg

theorem render_literals {mk : Markup} {auto a : Option Nat}
    (h : render m.objects args kwargs original mk auto = .ok ([], a)) : mk.literals = [] := by
  induction mk generalizing auto a with
  | done => rfl
  | fail e => rfl
  | entry e rest ih =>
    obtain ⟨literal, field⟩ := e
    cases field with
    | none =>
      simp only [render, bind_eq_ok, pure_eq_ok, Prod.exists, Prod.mk.injEq] at h
      obtain ⟨tail, a', hr, ht, -⟩ := h
      obtain ⟨rfl, rfl⟩ := List.append_eq_nil_iff.mp ht
      exact ih hr
    | some f =>
      simp only [render, bind_eq_ok, pure_eq_ok, Prod.exists, Prod.mk.injEq] at h
      obtain ⟨v, a₁, -, x, a₂, -, written, -, tail, a', hr, ht, -⟩ := h
      obtain ⟨hl, rfl⟩ := List.append_eq_nil_iff.mp ht
      rw [Markup.literals, ih hr, (List.append_eq_nil_iff.mp hl).1, List.append_nil]

theorem eq_done_of_render {mk : Markup} (hs : mk.Solid) {auto a : Option Nat}
    (hf : mk.fields = []) (h : render m.objects args kwargs original mk auto = .ok ([], a)) :
    mk = .done := by
  have hl := render_literals h
  cases mk with
  | done => rfl
  | fail e => cases h
  | entry e rest =>
    obtain ⟨literal, field⟩ := e
    rw [Markup.literals, List.append_eq_nil_iff] at hl
    rw [Markup.fields, List.append_eq_nil_iff, Option.toList_eq_nil_iff] at hf
    rcases hs.1 with h' | h'
    · exact absurd hl.1 h'
    · exact absurd hf.1 h'

theorem eq_nil_of_vformat_one {s : Text} {auto a : Option Nat}
    (h : Format.vformat m.objects args kwargs 1 s auto = .ok ([], a)) : s = [] := by
  apply parse_eq_done.mp
  refine eq_done_of_render (parse_solid s) ?_ h
  apply List.eq_nil_iff_forall_not_mem.mpr
  intro f hf
  obtain ⟨auto', r, hr⟩ := render_fields h f hf
  cases hr

/-! ### A single piece -/

theorem collect_eq_nil {mk : Markup} (hs : mk.Solid) {auto a : Option Nat}
    (h : collect m args kwargs expand mk auto = .ok ([], a)) : mk = .done ∧ a = auto := by
  cases mk with
  | done =>
    simp only [collect, Except.ok.injEq, Prod.mk.injEq, true_and] at h
    exact ⟨rfl, h.symm⟩
  | fail e => cases h
  | entry e rest =>
    obtain ⟨literal, field⟩ := e
    cases field with
    | none =>
      simp only [collect, bind_eq_ok, pure_eq_ok, Prod.exists, Prod.mk.injEq] at h
      obtain ⟨pieces, a', -, hp, -⟩ := h
      rw [if_neg (hs.1.resolve_right (by simp))] at hp
      cases hp
    | some f =>
      simp only [collect, bind_eq_ok, pure_eq_ok, Prod.exists, Prod.mk.injEq] at h
      obtain ⟨v, a₁, -, spec, a₂, -, pieces, a', -, hp, -⟩ := h
      simp at hp

theorem collect_eq_field {mk : Markup} (hs : mk.Solid) {auto a : Option Nat} {v spec : Value α}
    (h : collect m args kwargs expand mk auto = .ok ([.field v spec], a)) :
    ∃ f a₁, mk = .entry ⟨[], some f⟩ .done ∧ fetch m.objects args kwargs auto f = .ok (v, a₁) ∧
      expand f.spec a₁ = .ok (spec, a) := by
  cases mk with
  | done => cases h
  | fail e => cases h
  | entry e rest =>
    obtain ⟨literal, field⟩ := e
    cases field with
    | none =>
      simp only [collect, bind_eq_ok, pure_eq_ok, Prod.exists, Prod.mk.injEq] at h
      obtain ⟨pieces, a', -, hp, -⟩ := h
      rw [if_neg (hs.1.resolve_right (by simp))] at hp
      cases hp
    | some f =>
      simp only [collect, bind_eq_ok, pure_eq_ok, Prod.exists, Prod.mk.injEq] at h
      obtain ⟨v', a₁, hv, spec', a₂, hx, pieces, a', hc, hp, rfl⟩ := h
      split at hp
      · rename_i hl
        simp only [List.nil_append, List.cons.injEq, Piece.field.injEq] at hp
        obtain ⟨⟨rfl, rfl⟩, rfl⟩ := hp
        obtain ⟨rfl, rfl⟩ := collect_eq_nil hs.2 hc
        exact ⟨f, a₁, by rw [show literal = [] from hl], hv, hx⟩
      · cases hp

theorem written_eq_ok {x : Except Exn Text} {v : Value α} :
    (do let written ← x; return Value.text written) = .ok v ↔ ∃ s, v = .text s ∧ x = .ok s := by
  cases x with
  | error e => simp [bind, Except.bind]
  | ok s => simp [bind, Except.bind, pure, Except.pure, eq_comm]

theorem join_field (v spec : Value α) : join m [.field v spec] = formatField m v spec := by
  simp only [join]
  cases formatField m v spec with
  | error e => rfl
  | ok s => simp [bind, Except.bind, pure, Except.pure]

theorem finish_iff {pieces : List (Piece α)} (h : ∀ v spec, pieces = [.field v spec] →
      ∃ x, spec = .text x ∧ (x = [] → v.isDeferred = true ∨ ∃ s, v = .text s)) (v : Value α) :
    finish m pieces = .ok v ↔ ∃ x, v = .text x ∧ join m pieces = .ok x := by
  unfold finish
  split
  · simp [join, bind, Except.bind, pure, Except.pure, eq_comm]
  · rename_i u spec
    obtain ⟨x, rfl, hx⟩ := h u spec rfl
    rw [join_field]
    split
    · exact written_eq_ok
    · rename_i hn
      simp only [Value.truthy, Bool.or_eq_true, not_or, Bool.not_eq_true, Bool.not_eq_false',
        List.isEmpty_iff] at hn
      obtain ⟨rfl, hd⟩ := hn
      rcases hx rfl with hd' | ⟨s, rfl⟩
      · rw [hd] at hd'
        cases hd'
      · simp [formatField, Methods.objects, m.formatText_nil, eq_comm]
  · exact written_eq_ok

/-! ### One level of the recursion -/

theorem vformat_nil (d : Nat) (auto : Option Nat) :
    vformat m args kwargs (d + 1) [] auto = .ok (.text [], auto) := rfl

theorem vformat_succ (d : Nat) (s : Text) (auto a : Option Nat) (v : Value α) :
    vformat m args kwargs (d + 1) s auto = .ok (v, a) ↔ ∃ pieces,
      collect m args kwargs (vformat m args kwargs d) (parse s) auto = .ok (pieces, a) ∧
        finish m pieces = .ok v := by
  simp only [vformat, bind_eq_ok, pure_eq_ok, Prod.exists, Prod.mk.injEq]
  constructor
  · rintro ⟨pieces, a', hc, v', hf, rfl, rfl⟩
    exact ⟨pieces, hc, hf⟩
  · rintro ⟨pieces, hc, hf⟩
    exact ⟨pieces, a, hc, v, hf, rfl, rfl⟩

theorem vformat_agrees {d : Nat} {s : Text}
    (hspec : ∀ f ∈ (parse s).fields,
      Agrees (vformat m args kwargs d) (Format.vformat m.objects args kwargs d) f.spec)
    (hlone : ∀ f auto v a₁ a₂, parse s = .entry ⟨[], some f⟩ .done →
      fetch m.objects args kwargs auto f = .ok (v, a₁) →
      Format.vformat m.objects args kwargs d f.spec a₁ = .ok ([], a₂) →
      v.isDeferred = true ∨ ∃ x, v = .text x) :
    Agrees (vformat m args kwargs (d + 1)) (Format.vformat m.objects args kwargs (d + 1)) s := by
  intro auto v a
  rw [vformat_succ]
  have hfin : ∀ pieces,
      collect m args kwargs (vformat m args kwargs d) (parse s) auto = .ok (pieces, a) →
      (finish m pieces = .ok v ↔ ∃ x, v = .text x ∧ join m pieces = .ok x) := by
    intro pieces hc
    apply finish_iff
    rintro u spec rfl
    obtain ⟨f, a₁, hp, hu, hx⟩ := collect_eq_field (parse_solid s) hc
    obtain ⟨x, rfl, hw⟩ := (hspec f (by rw [hp]; simp [Markup.fields]) ..).mp hx
    refine ⟨x, rfl, ?_⟩
    rintro rfl
    exact hlone f auto u a₁ a hp hu hw
  constructor
  · rintro ⟨pieces, hc, hf⟩
    obtain ⟨x, rfl, hj⟩ := (hfin pieces hc).mp hf
    exact ⟨x, rfl, (collect_join_iff hspec ..).mp ⟨pieces, hc, hj⟩⟩
  · rintro ⟨x, rfl, hr⟩
    obtain ⟨pieces, hc, hj⟩ := (collect_join_iff hspec ..).mpr hr
    exact ⟨pieces, hc, (hfin pieces hc).mpr ⟨x, rfl, hj⟩⟩

theorem fetch_converted {f : Field} (hf : f.conversion ≠ none) {auto a : Option Nat} {v : Value α}
    (h : fetch m.objects args kwargs auto f = .ok (v, a)) : ∃ x, v = .text x := by
  simp only [fetch, bind_eq_ok, pure_eq_ok, Prod.exists, Prod.mk.injEq] at h
  obtain ⟨name, a', -, u, -, v', hv, rfl, -⟩ := h
  unfold convertField at hv
  split at hv
  · rename_i hn
    exact absurd hn hf
  · exact ⟨_, (Except.ok.inj hv).symm⟩
  · obtain ⟨x, -, hx⟩ := bind_eq_ok.mp hv
    exact ⟨x, (pure_eq_ok.mp hx).symm⟩
  · obtain ⟨x, -, hx⟩ := bind_eq_ok.mp hv
    exact ⟨x, (pure_eq_ok.mp hx).symm⟩
  · cases hv

theorem vformat_one (s : Text) :
    Agrees (vformat m args kwargs 1) (Format.vformat m.objects args kwargs 1) s := by
  apply vformat_agrees
  · intro f _ auto v a
    simp [vformat, Format.vformat]
  · intro f auto v a₁ a₂ _ _ h
    cases h

/-- **Specifications.**  The copy and the original agree on a specification that is
not a bare field. -/
theorem vformat_spec {s : Text} (hs : ¬ IsBareField s) :
    Agrees (vformat m args kwargs 2) (Format.vformat m.objects args kwargs 2) s := by
  apply vformat_agrees fun f _ => vformat_one f.spec
  intro f auto v a₁ a₂ hp hv hx
  apply Or.inr
  apply fetch_converted (fun hf => hs ⟨f.name, ?_⟩) hv
  obtain ⟨name, conversion, spec⟩ := f
  rw [hp, show conversion = none from hf, show spec = [] from eq_nil_of_vformat_one hx]

end Agreement

/-! ## Safe templates -/

section Safe

variable (m : Methods α) (args : List (Value α)) (kwargs : Dict Text (Value α))

theorem varFormat_lone {s : Text} {f : Field} (hp : parse s = .entry ⟨[], some f⟩ .done)
    (hf : f.spec = []) :
    (varFormat m args kwargs s).toOption =
      (format m.objects args kwargs s).toOption.map (expected m args kwargs s) := by
  have hlone : loneObject m args kwargs s =
      (fetch m.objects args kwargs (some 0) f).toOption.map Prod.fst := by
    simp only [loneObject, hp, hf, if_true]
  have hvar : varFormat m args kwargs s = (fetch m.objects args kwargs (some 0) f >>= fun r =>
      finish m [.field r.1 (.text [])]) := by
    rw [varFormat, vformat, hp]
    simp only [collect, hf, vformat_nil]
    cases fetch m.objects args kwargs (some 0) f with
    | error e => rfl
    | ok r =>
      simp only [bind, Except.bind, pure, Except.pure, if_true, List.nil_append]
      cases finish m [.field r.1 (.text [])] <;> rfl
  have hstd : format m.objects args kwargs s = (fetch m.objects args kwargs (some 0) f >>= fun r =>
      m.objects.format r.1 []) := by
    simp only [format, Format.vformat, hp, render, hf, show parse [] = .done from rfl]
    cases fetch m.objects args kwargs (some 0) f with
    | error e => rfl
    | ok r =>
      simp only [bind, Except.bind, pure, Except.pure]
      cases m.objects.format r.1 [] <;> simp
  rw [hvar, hstd, show expected m args kwargs s = fun written => match loneObject m args kwargs s with
    | some v => if v.isDeferred then .text written else v
    | none => .text written from rfl, hlone]
  cases fetch m.objects args kwargs (some 0) f with
  | error e => rfl
  | ok r =>
    obtain ⟨v, a⟩ := r
    cases v <;> simp [bind, Except.bind, finish, Value.truthy, Value.isDeferred, formatField,
      Methods.objects, m.formatText_nil, m.formatObject_nil, pure, Except.pure, Except.toOption]

theorem varFormat_of_safe {s : Text} (hs : IsSafe s) :
    (varFormat m args kwargs s).toOption =
      (format m.objects args kwargs s).toOption.map (expected m args kwargs s) := by
  by_cases hlone : ∃ f, parse s = .entry ⟨[], some f⟩ .done ∧ f.spec = []
  · obtain ⟨f, hp, hf⟩ := hlone
    exact varFormat_lone m args kwargs hp hf
  have hagree : Agrees (vformat m args kwargs 3) (Format.vformat m.objects args kwargs 3) s := by
    apply vformat_agrees fun f hf => vformat_spec (hs.1 f hf)
    intro f auto v a₁ a₂ hp hv hx
    apply Or.inr
    apply fetch_converted (fun hc => ?_) hv
    exact hs.2 f hp hc (fun hf => hlone ⟨f, hp, hf⟩) (render_literals hx)
  have hexp : expected m args kwargs s = .text := by
    funext written
    have hnone : loneObject m args kwargs s = none := by
      unfold loneObject
      split
      · rename_i f hp
        exact if_neg fun hf => hlone ⟨f, hp, hf⟩
      · rfl
    simp only [expected, hnone]
  rw [hexp, varFormat, format]
  have h := hagree (some 0)
  cases hv : vformat m args kwargs 3 s (some 0) with
  | error e =>
    cases hx : Format.vformat m.objects args kwargs 3 s (some 0) with
    | error e' => rfl
    | ok r =>
      have := (h (.text r.1) r.2).mpr ⟨r.1, rfl, hx⟩
      rw [hv] at this
      cases this
  | ok r =>
    obtain ⟨x, hr, hx⟩ := (h r.1 r.2).mp hv
    rw [hx]
    show some r.1 = some (Value.text x)
    rw [hr]

end Safe

end Custodian.VarFormat

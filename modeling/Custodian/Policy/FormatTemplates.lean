import Custodian.Policy.VarFormat

/-!
# The templates on which the type-preserving formatter keeps its promise

A template that can be written at all can be written with blank objects, which
have every attribute and item and whose text is empty.  On them a specification
that is a bare field is not a text, so the promise fails; elsewhere it holds.
-/

namespace Custodian.VarFormat

open Py Py.Format

/-! ## Blank objects -/

def blank : Value Unit := .object ()

/-- Objects with every attribute and item, written as the empty text. -/
def blankMethods : Methods Unit where
  attr _ _ := .ok blank
  item _ _ := .ok blank
  formatText s _ := .ok s
  formatObject _ _ := .ok []
  strObject _ := []
  repr _ := .ok []
  ascii _ := .ok []
  truthy _ := true
  formatText_nil _ := rfl
  formatObject_nil _ := rfl

/-- A blank object after its conversion. -/
def blankValue (conversion : Option Char) : Value Unit :=
  if conversion = none then blank else .text []

variable {α : Type}

def blankArgs (args : List (Value α)) : List (Value Unit) := args.map fun _ => blank

def blankKwargs (kwargs : Dict Text (Value α)) : Dict Text (Value Unit) :=
  Dict.ofPairs (kwargs.keys.map fun k => (k, blank))

variable {m : Methods α} {args : List (Value α)} {kwargs : Dict Text (Value α)}

theorem lookup_blankKwargs {k : Text} {v : Value Unit} (h : (blankKwargs kwargs).lookup k = some v) :
    v = blank := by
  obtain ⟨before, after, hl, -⟩ := (Dict.lookup_ofPairs_eq_some ..).mp h
  have hm : (k, v) ∈ kwargs.keys.map fun k => (k, blank) := by
    rw [hl]
    simp
  obtain ⟨k', -, hk⟩ := List.mem_map.mp hm
  exact (congrArg Prod.snd hk).symm

theorem getValue_blank_eq {key : Key} {v : Value Unit}
    (h : getValue (blankArgs args) (blankKwargs kwargs) key = .ok v) : v = blank := by
  cases key with
  | index n =>
    rw [getValue, blankArgs, List.getElem?_map] at h
    cases hn : args[n]? with
    | none =>
      rw [hn] at h
      cases h
    | some u =>
      rw [hn] at h
      exact (Except.ok.inj h).symm
  | name k =>
    rw [getValue] at h
    cases hk : (blankKwargs kwargs).lookup k with
    | none =>
      rw [hk] at h
      cases h
    | some u =>
      rw [hk] at h
      rw [← Except.ok.inj h]
      exact lookup_blankKwargs hk

theorem getValue_blank {key : Key} {v : Value α} (h : getValue args kwargs key = .ok v) :
    getValue (blankArgs args) (blankKwargs kwargs) key = .ok blank := by
  cases key with
  | index n =>
    rw [getValue] at h ⊢
    rw [blankArgs, List.getElem?_map]
    cases hn : args[n]? with
    | none =>
      rw [hn] at h
      cases h
    | some u => rfl
  | name k =>
    rw [getValue] at h ⊢
    cases hk : (blankKwargs kwargs).lookup k with
    | some u => rw [lookup_blankKwargs hk]; rfl
    | none =>
      have hne := (Dict.lookup_ofPairs_eq_none ..).mp hk
      have hnone : kwargs.lookup k = none := by
        rw [AList.lookup_eq_none, AList.mem_keys]
        intro hmem
        exact hne _ (List.mem_map.mpr ⟨k, hmem, rfl⟩) rfl
      rw [hnone] at h
      cases h

theorem follow_blank_eq (fuel : Nat) (s : Text) {v : Value Unit}
    (h : follow blankMethods.objects fuel blank s = .ok v) : v = blank := by
  induction fuel generalizing s with
  | zero => exact (Except.ok.inj h).symm
  | succ fuel ih =>
    rw [follow] at h
    split at h
    · exact (Except.ok.inj h).symm
    obtain ⟨⟨isAttr, name, rest⟩, -, h⟩ := bind_eq_ok.mp h
    obtain ⟨u, hu, h⟩ := bind_eq_ok.mp h
    have hb : u = blank := by
      cases isAttr with
      | true => exact (Except.ok.inj hu).symm
      | false =>
        obtain ⟨key, -, hu⟩ := bind_eq_ok.mp hu
        exact (Except.ok.inj hu).symm
    rw [hb] at h
    exact ih rest h

theorem follow_blank (fuel : Nat) {v v' : Value α} {s : Text}
    (h : follow m.objects fuel v s = .ok v') :
    follow blankMethods.objects fuel blank s = .ok blank := by
  induction fuel generalizing v s with
  | zero => rfl
  | succ fuel ih =>
    rw [follow] at h ⊢
    split at h
    · rename_i hs
      rw [if_pos hs]
    · rename_i hs
      rw [if_neg hs]
      obtain ⟨⟨isAttr, name, rest⟩, hn, h⟩ := bind_eq_ok.mp h
      obtain ⟨u, hu, h⟩ := bind_eq_ok.mp h
      refine bind_eq_ok.mpr ⟨(isAttr, name, rest), hn, bind_eq_ok.mpr ⟨blank, ?_, ih h⟩⟩
      cases isAttr with
      | true => rfl
      | false =>
        obtain ⟨key, hk, -⟩ := bind_eq_ok.mp hu
        exact bind_eq_ok.mpr ⟨key, hk, rfl⟩

theorem convertField_blank {conversion : Option Char} {v w : Value α}
    (h : convertField m.objects v conversion = .ok w) :
    convertField blankMethods.objects blank conversion = .ok (blankValue conversion) := by
  unfold convertField at h
  split at h
  · rfl
  · rfl
  · rfl
  · rfl
  · cases h

theorem fetch_blank_eq {f : Field} {auto a : Option Nat} {v : Value Unit}
    (h : fetch blankMethods.objects (blankArgs args) (blankKwargs kwargs) auto f = .ok (v, a)) :
    v = blankValue f.conversion := by
  simp only [fetch, getField, bind_eq_ok, pure_eq_ok, Prod.exists, Prod.mk.injEq] at h
  obtain ⟨name, a', -, u, ⟨key, -, u', hu', hu⟩, v', hv, rfl, -⟩ := h
  rw [getValue_blank_eq hu'] at hu
  rw [follow_blank_eq _ _ hu] at hv
  exact Except.ok.inj (hv.symm.trans (convertField_blank hv))

theorem fetch_blank {f : Field} {auto a : Option Nat} {v : Value α}
    (h : fetch m.objects args kwargs auto f = .ok (v, a)) :
    fetch blankMethods.objects (blankArgs args) (blankKwargs kwargs) auto f =
      .ok (blankValue f.conversion, a) := by
  simp only [fetch, getField, bind_eq_ok, pure_eq_ok, Prod.exists, Prod.mk.injEq] at h ⊢
  obtain ⟨name, a', hn, u, ⟨key, hk, u', hu', hu⟩, v', hv, -, rfl⟩ := h
  exact ⟨name, a', hn, blank, ⟨key, hk, blank, getValue_blank hu', follow_blank _ hu⟩,
    blankValue f.conversion, convertField_blank hv, rfl, rfl⟩

theorem format_blankValue (conversion : Option Char) (spec : Text) :
    blankMethods.objects.format (blankValue conversion) spec = .ok [] := by
  unfold blankValue
  split <;> rfl

/-! ## What can be written can be written with blank objects -/

section Transfer

variable {expand : Text → Option Nat → Except Exn (Value α × Option Nat)}
  {original : Text → Option Nat → Except Exn (Text × Option Nat)}
  {target : Text → Option Nat → Except Exn (Text × Option Nat)}

theorem render_entry_blank {e : Entry} {rest : Markup} {auto a₁ a₂ a : Option Nat} {f : Field}
    {v : Value α} {x : Text} (he : e.field = some f)
    (hv : fetch m.objects args kwargs auto f = .ok (v, a₁)) (hx : target f.spec a₁ = .ok (x, a₂))
    (hr : render blankMethods.objects (blankArgs args) (blankKwargs kwargs) target rest a₂ =
      .ok (rest.literals, a)) :
    render blankMethods.objects (blankArgs args) (blankKwargs kwargs) target (.entry e rest) auto =
      .ok ((Markup.entry e rest).literals, a) := by
  simp only [render, he, bind_eq_ok, pure_eq_ok, Prod.exists, Prod.mk.injEq]
  exact ⟨_, a₁, fetch_blank hv, x, a₂, hx, [], format_blankValue .., _, a, hr, by
    rw [List.append_nil, Markup.literals], rfl⟩

theorem render_blank {mk : Markup} {auto a : Option Nat} {s : Text}
    (h : render m.objects args kwargs original mk auto = .ok (s, a))
    (hspec : ∀ f ∈ mk.fields, ∀ auto x a, original f.spec auto = .ok (x, a) →
      ∃ x', target f.spec auto = .ok (x', a)) :
    render blankMethods.objects (blankArgs args) (blankKwargs kwargs) target mk auto =
      .ok (mk.literals, a) := by
  induction mk generalizing auto s with
  | done =>
    cases h
    rfl
  | fail e => cases h
  | entry e rest ih =>
    have ih' := fun auto s h => @ih auto s h fun f hf => hspec f (List.mem_append_right _ hf)
    obtain ⟨literal, field⟩ := e
    cases field with
    | none =>
      simp only [render, bind_eq_ok, pure_eq_ok, Prod.exists, Prod.mk.injEq] at h ⊢
      obtain ⟨tail, a', hr, -, rfl⟩ := h
      exact ⟨_, a', ih' _ _ hr, rfl, rfl⟩
    | some f =>
      simp only [render, bind_eq_ok, pure_eq_ok, Prod.exists, Prod.mk.injEq] at h
      obtain ⟨v, a₁, hv, x, a₂, hx, written, -, tail, a', hr, -, rfl⟩ := h
      obtain ⟨x', hx'⟩ := hspec f (by simp [Markup.fields]) _ _ _ hx
      exact render_entry_blank rfl hv hx' (ih' _ _ hr)

theorem collect_blank {mk : Markup} {auto a : Option Nat} {pieces : List (Piece α)}
    (h : collect m args kwargs expand mk auto = .ok (pieces, a))
    (hspec : ∀ f ∈ mk.fields, ∀ auto v a, expand f.spec auto = .ok (v, a) →
      ∃ x', target f.spec auto = .ok (x', a)) :
    render blankMethods.objects (blankArgs args) (blankKwargs kwargs) target mk auto =
      .ok (mk.literals, a) := by
  induction mk generalizing auto pieces with
  | done =>
    cases h
    rfl
  | fail e => cases h
  | entry e rest ih =>
    have ih' := fun auto pieces h =>
      @ih auto pieces h fun f hf => hspec f (List.mem_append_right _ hf)
    obtain ⟨literal, field⟩ := e
    cases field with
    | none =>
      simp only [collect, bind_eq_ok, pure_eq_ok, Prod.exists, Prod.mk.injEq] at h
      obtain ⟨tail, a', hr, -, rfl⟩ := h
      simp only [render, bind_eq_ok, pure_eq_ok, Prod.exists, Prod.mk.injEq]
      exact ⟨_, a', ih' _ _ hr, rfl, rfl⟩
    | some f =>
      simp only [collect, bind_eq_ok, pure_eq_ok, Prod.exists, Prod.mk.injEq] at h
      obtain ⟨v, a₁, hv, spec, a₂, hx, tail, a', hr, -, rfl⟩ := h
      obtain ⟨x', hx'⟩ := hspec f (by simp [Markup.fields]) _ _ _ hx
      exact render_entry_blank rfl hv hx' (ih' _ _ hr)

end Transfer

theorem format_blank {d : Nat} {s x : Text} {auto a : Option Nat}
    (h : Format.vformat m.objects args kwargs d s auto = .ok (x, a)) :
    Format.vformat blankMethods.objects (blankArgs args) (blankKwargs kwargs) d s auto =
      .ok ((parse s).literals, a) := by
  induction d generalizing s x auto a with
  | zero => cases h
  | succ d ih => exact render_blank h fun f _ auto x a hx => ⟨_, ih hx⟩

theorem vformat_blank {d : Nat} {s : Text} {v : Value α} {auto a : Option Nat}
    (h : vformat m args kwargs d s auto = .ok (v, a)) :
    Format.vformat blankMethods.objects (blankArgs args) (blankKwargs kwargs) d s auto =
      .ok ((parse s).literals, a) := by
  induction d generalizing s v auto a with
  | zero => cases h
  | succ d ih =>
    obtain ⟨pieces, hc, -⟩ := (vformat_succ ..).mp h
    exact collect_blank hc fun f _ auto v a hx => ⟨_, ih hx⟩

/-! ## A bare field is not a text -/

theorem collect_field_mem {expand : Text → Option Nat → Except Exn (Value α × Option Nat)}
    {mk : Markup} {auto a : Option Nat} {pieces : List (Piece α)}
    (h : collect m args kwargs expand mk auto = .ok (pieces, a)) {f : Field} (hf : f ∈ mk.fields) :
    ∃ v spec auto a, Piece.field v spec ∈ pieces ∧ expand f.spec auto = .ok (spec, a) := by
  induction mk generalizing auto pieces with
  | done => cases hf
  | fail e => cases hf
  | entry e rest ih =>
    obtain ⟨literal, field⟩ := e
    cases field with
    | none =>
      simp only [collect, bind_eq_ok, pure_eq_ok, Prod.exists, Prod.mk.injEq] at h
      obtain ⟨tail, a', hr, rfl, rfl⟩ := h
      obtain ⟨v, spec, auto', a'', hm, hx⟩ := ih hr (by simpa [Markup.fields] using hf)
      exact ⟨v, spec, auto', a'', List.mem_append_right _ hm, hx⟩
    | some g =>
      simp only [collect, bind_eq_ok, pure_eq_ok, Prod.exists, Prod.mk.injEq] at h
      obtain ⟨v, a₁, hv, spec, a₂, hx, tail, a', hr, rfl, rfl⟩ := h
      rcases List.mem_cons.mp hf with rfl | hf
      · exact ⟨v, spec, a₁, a₂, by simp, hx⟩
      · obtain ⟨v', spec', auto', a'', hm, hx'⟩ := ih hr hf
        exact ⟨v', spec', auto', a'', by simp [hm], hx'⟩

theorem join_of_mem {pieces : List (Piece Unit)} {v : Value Unit}
    (h : Piece.field v blank ∈ pieces) (x : Text) : join blankMethods pieces ≠ .ok x := by
  induction pieces generalizing x with
  | nil => cases h
  | cons p pieces ih =>
    intro hj
    rcases List.mem_cons.mp h with rfl | hm
    · cases hj
    · cases p with
      | literal s =>
        rw [join, bind_eq_ok] at hj
        obtain ⟨tail, ht, -⟩ := hj
        exact ih hm tail ht
      | field u spec =>
        simp only [join, bind_eq_ok] at hj
        obtain ⟨written, -, tail, ht, -⟩ := hj
        exact ih hm tail ht

theorem finish_of_mem {pieces : List (Piece Unit)} {v : Value Unit}
    (h : Piece.field v blank ∈ pieces) (r : Value Unit) : finish blankMethods pieces ≠ .ok r := by
  unfold finish
  split
  · simp at h
  · rename_i u spec
    simp only [List.mem_singleton, Piece.field.injEq] at h
    obtain ⟨rfl, rfl⟩ := h
    rintro ⟨⟩
  · intro hr
    obtain ⟨x, -, hx⟩ := written_eq_ok.mp hr
    exact join_of_mem h x hx

theorem vformat_bareField {s : Text} (hs : IsBareField s) {auto a : Option Nat} {v : Value Unit}
    (h : vformat blankMethods (blankArgs args) (blankKwargs kwargs) 2 s auto = .ok (v, a)) :
    v = blank := by
  obtain ⟨name, hp⟩ := hs
  obtain ⟨pieces, hc, hf⟩ := (vformat_succ ..).mp h
  rw [hp] at hc
  simp only [collect, vformat_nil, bind_eq_ok, pure_eq_ok, Prod.exists, Prod.mk.injEq] at hc
  obtain ⟨u, a₁, hu, spec, a₂, hx, tail, a', hr, rfl, rfl⟩ := hc
  cases hx
  cases hr
  rw [fetch_blank_eq hu] at hf
  exact (Except.ok.inj hf).symm

theorem not_bareField_of_ok {s : Text} {auto a : Option Nat} {v : Value Unit}
    (h : vformat blankMethods (blankArgs args) (blankKwargs kwargs) 3 s auto = .ok (v, a)) :
    ∀ f ∈ (parse s).fields, ¬ IsBareField f.spec := by
  intro f hmem hb
  obtain ⟨pieces, hc, hf⟩ := (vformat_succ ..).mp h
  obtain ⟨u, spec, auto', a', hm, hx⟩ := collect_field_mem hc hmem
  rw [vformat_bareField hb hx] at hm
  exact finish_of_mem hm _ hf

theorem vformat_single {s : Text} {f : Field} (hp : parse s = .entry ⟨[], some f⟩ .done)
    (hconv : f.conversion = none) (hlit : (parse f.spec).literals = [])
    (hbare : ¬ IsBareField f.spec) {x : Text} {auto a : Option Nat}
    (h : Format.vformat m.objects args kwargs 3 s auto = .ok (x, a)) :
    vformat blankMethods (blankArgs args) (blankKwargs kwargs) 3 s auto = .ok (blank, a) := by
  rw [Format.vformat, hp] at h
  simp only [render, bind_eq_ok, pure_eq_ok, Prod.exists, Prod.mk.injEq] at h
  obtain ⟨v, a₁, hv, y, a₂, hy, written, -, tail, a', hr, -, rfl⟩ := h
  cases hr
  have hu := fetch_blank hv
  rw [hconv, blankValue, if_pos rfl] at hu
  have hy' := format_blank hy
  rw [hlit] at hy'
  have hspec := (vformat_spec hbare a₁ (.text []) a₂).mpr ⟨[], rfl, hy'⟩
  refine (vformat_succ ..).mpr ⟨[.field blank (.text [])], ?_, rfl⟩
  rw [hp]
  simp only [collect, bind_eq_ok, pure_eq_ok, Prod.exists, Prod.mk.injEq]
  exact ⟨blank, a₁, hu, .text [], a₂, hspec, [], a₂, rfl, rfl, rfl⟩

/-! ## Exactness -/

theorem isSafe_of_refines {s : Text} (href : Refines s) {r : Text × Option Nat}
    (hr : Format.vformat m.objects args kwargs 3 s (some 0) = .ok r) : IsSafe s := by
  have h := href Unit blankMethods (blankArgs args) (blankKwargs kwargs)
  rw [varFormat, format, format_blank hr] at h
  cases hv : vformat blankMethods (blankArgs args) (blankKwargs kwargs) 3 s (some 0) with
  | error e =>
    rw [hv] at h
    cases h
  | ok r' =>
    have hbare := not_bareField_of_ok hv
    refine ⟨hbare, fun f hp hconv hspec hlit => ?_⟩
    have hnone : loneObject blankMethods (blankArgs args) (blankKwargs kwargs) s = none := by
      simp only [loneObject, hp, if_neg hspec]
    rw [vformat_single hp hconv hlit (hbare f (by rw [hp]; simp [Markup.fields])) hr] at h
    have hobj : some blank = some (expected blankMethods (blankArgs args) (blankKwargs kwargs) s
      (parse s).literals) := h
    simp only [expected, hnone] at hobj
    cases hobj

/-- **The type-preserving formatter behaves as the language's own, with its one addition, exactly
on the templates that always raise and on the safe ones.** -/
theorem varFormat_refines_iff (s : Text) : Refines s ↔ AlwaysRaises s ∨ IsSafe s := by
  constructor
  · intro href
    by_cases hraise : AlwaysRaises s
    · exact Or.inl hraise
    simp only [AlwaysRaises, not_forall] at hraise
    obtain ⟨α, m, args, kwargs, hok⟩ := hraise
    cases hx : Format.vformat m.objects args kwargs 3 s (some 0) with
    | error e =>
      rw [format, hx] at hok
      exact absurd rfl hok
    | ok r => exact Or.inr (isSafe_of_refines href hx)
  · rintro (hraise | hsafe)
    · intro α m args kwargs
      rw [hraise]
      cases hv : vformat m args kwargs 3 s (some 0) with
      | error e =>
        rw [varFormat, hv]
        rfl
      | ok r =>
        have h := hraise Unit blankMethods (blankArgs args) (blankKwargs kwargs)
        rw [format, vformat_blank hv] at h
        cases h
    · intro α m args kwargs
      exact varFormat_of_safe m args kwargs hsafe

/-! ## A width given by a number -/

/-- Numbers, which are written with a width. -/
def numbers : Methods Nat where
  attr _ _ := .error .attributeError
  item _ _ := .error .typeError
  formatText s _ := .ok s
  formatObject n spec := do
    let width ← if spec = [] then pure none else getInteger spec
    return (toString n).toList.leftpad (width.getD 0) ' '
  strObject n := (toString n).toList
  repr _ := .error .typeError
  ascii _ := .error .typeError
  truthy n := n ≠ 0
  formatText_nil _ := rfl
  formatObject_nil n := by simp [pure, Except.pure, bind, Except.bind, List.leftpad]

def widthTemplate : Text := "{value:{width}}".toList

def widthKwargs : Dict Text (Value Nat) :=
  Dict.ofPairs [("value".toList, .object 42), ("width".toList, .object 5)]

/-- The stdlib formatter pads the number; the copy raises a `TypeError`. -/
theorem width_differs :
    (varFormat numbers [] widthKwargs widthTemplate = .error .typeError ∧
      format numbers.objects [] widthKwargs widthTemplate = .ok "   42".toList) ∧
    ¬ ∀ s, Refines s := by
  have hvar : varFormat numbers [] widthKwargs widthTemplate = .error .typeError := by
    decide +kernel
  have hstd : format numbers.objects [] widthKwargs widthTemplate = .ok "   42".toList := by
    decide +kernel
  refine ⟨⟨hvar, hstd⟩, fun h => ?_⟩
  have := h widthTemplate Nat numbers [] widthKwargs
  rw [hvar, hstd] at this
  cases this

end Custodian.VarFormat

import Custodian.Lib.Items
import Custodian.Lib.Json

/-!
# Search queries and their pages

`ServiceClient.execute_search_query` of `c7n_gcp/client.py`.  The token of the next page goes into the
body of the request: the one of the caller's arguments, or a new one that no request has.
-/

namespace Custodian.SearchQuery

open Py

/-- `verb_arguments`; the body is shared with the caller. -/
structure VerbArguments where
  body : Option (List (Text × Json))
  others : List (Text × Json)

/-- A page, with the token of the next one. -/
structure Response (γ : Type) where
  content : γ
  nextPageToken : Option Text
  deriving DecidableEq

def pageToken : Text := "pageToken".toList

/-- A token that is set and not empty. -/
def truthy (token : Option Text) : Option Text := token.filter fun t => !t.isEmpty

/-- `req_body['pageToken'] = next_page_token`; without a body it is written to a new dictionary. -/
def VerbArguments.write (args : VerbArguments) (token : Option Text) : VerbArguments :=
  match truthy token, args.body with
  | some t, some body => { args with body := some (Items.set pageToken (.str t) body) }
  | _, _ => args

/-- The page token that a request has. -/
def VerbArguments.requested (args : VerbArguments) : Option Json :=
  args.body.bind (Items.get pageToken)

section

variable {γ : Type}

/-- The loop from a token on, with at most so many requests as the fuel says: the pages it yields and
the arguments after it.  The service answers by the token of the request. -/
def loop (service : Option Json → Response γ) :
    Nat → Option Text → VerbArguments → Option (List (Response γ) × VerbArguments)
  | 0, _, _ => none
  | n + 1, nextPageToken, args =>
    let args := args.write nextPageToken
    let response := service args.requested
    match truthy response.nextPageToken with
    | none => some ([response], args)
    | some t => (loop service n (some t) args).map fun p => (response :: p.1, p.2)

/-- `execute_search_query` -/
def executeSearchQuery (service : Option Json → Response γ) (fuel : Nat) (args : VerbArguments) :
    Option (List (Response γ) × VerbArguments) := loop service fuel none args

/-- The pages from a request on: each one but the last names the token of the next. -/
def Holds (service : Option Json → Response γ) : Option Json → List (Response γ) → Prop
  | _, [] => False
  | request, [page] => service request = page ∧ truthy page.nextPageToken = none
  | request, page :: pages => service request = page ∧
      ∃ t, truthy page.nextPageToken = some t ∧ Holds service (some (.str t)) pages

theorem holds_cons_cons {service : Option Json → Response γ} {request : Option Json}
    {page next : Response γ} {pages : List (Response γ)} :
    Holds service request (page :: next :: pages) ↔ service request = page ∧
      ∃ t, truthy page.nextPageToken = some t ∧ Holds service (some (.str t)) (next :: pages) :=
  Iff.rfl

theorem truthy_of_truthy {token : Option Text} {t : Text} (h : truthy token = some t) :
    truthy (some t) = some t := by
  obtain ⟨rfl, hne⟩ := Option.filter_eq_some_iff.mp h
  exact h

/-! ## The two kinds of arguments -/

theorem write_body {token : Option Text} {t : Text} (h : truthy token = some t)
    (body : List (Text × Json)) (others : List (Text × Json)) :
    VerbArguments.write ⟨some body, others⟩ token =
      ⟨some (Items.set pageToken (.str t) body), others⟩ := by
  rw [VerbArguments.write, h]

theorem requested_set (t : Text) (body others : List (Text × Json)) :
    VerbArguments.requested ⟨some (Items.set pageToken (.str t) body), others⟩ = some (.str t) := by
  rw [VerbArguments.requested, Option.bind_some, Items.get_set, if_pos rfl]

theorem write_none (args : VerbArguments) : args.write none = args := rfl

theorem write_no_body (others : List (Text × Json)) (token : Option Text) :
    VerbArguments.write ⟨none, others⟩ token = ⟨none, others⟩ := by
  rw [VerbArguments.write]
  cases truthy token <;> rfl

theorem loop_body {service : Option Json → Response γ} {pages : List (Response γ)} {t : Text}
    (ht : truthy (some t) = some t) (h : Holds service (some (.str t)) pages)
    (body others : List (Text × Json)) {fuel : Nat} (hfuel : pages.length ≤ fuel) :
    ∃ last, loop service fuel (some t) ⟨some body, others⟩ =
      some (pages, ⟨some (Items.set pageToken (.str last) body), others⟩) := by
  induction pages generalizing t body fuel with
  | nil => cases h
  | cons page pages ih =>
    cases fuel with
    | zero => cases hfuel
    | succ fuel =>
      rw [loop, write_body ht, requested_set]
      cases pages with
      | nil =>
        obtain ⟨rfl, hlast⟩ := h
        exact ⟨t, by rw [hlast]⟩
      | cons next pages =>
        obtain ⟨rfl, t', ht', hrest⟩ := holds_cons_cons.mp h
        obtain ⟨last, hloop⟩ := ih (truthy_of_truthy ht') hrest
          (Items.set pageToken (.str t) body) (Nat.le_of_succ_le_succ hfuel)
        refine ⟨last, ?_⟩
        rw [Items.set_set] at hloop
        simp only [ht', hloop, Option.map_some]

theorem search_body {service : Option Json → Response γ} {pages : List (Response γ)}
    {body others : List (Text × Json)} (hnew : Items.get pageToken body = none)
    (h : Holds service none pages) : ∃ body',
      executeSearchQuery service pages.length ⟨some body, others⟩ =
        some (pages, ⟨some body', others⟩) ∧
      (pages.length = 1 ∧ body' = body ∨
        pages.length ≠ 1 ∧ ∃ last, body' = Items.set pageToken (.str last) body) := by
  cases pages with
  | nil => cases h
  | cons page pages =>
    have hrequest : VerbArguments.requested ⟨some body, others⟩ = none := hnew
    rw [executeSearchQuery, List.length_cons, loop, write_none, hrequest]
    cases pages with
    | nil =>
      obtain ⟨rfl, hlast⟩ := h
      exact ⟨body, by rw [hlast], Or.inl ⟨rfl, rfl⟩⟩
    | cons next pages =>
      obtain ⟨rfl, t, ht, hrest⟩ := holds_cons_cons.mp h
      obtain ⟨last, hloop⟩ := loop_body (truthy_of_truthy ht) hrest body others (Nat.le_refl _)
      refine ⟨Items.set pageToken (.str last) body, ?_, Or.inr ⟨by simp, last, rfl⟩⟩
      simp only [ht, hloop, Option.map_some]

theorem search_no_body {service : Option Json → Response γ} {page next : Response γ}
    {pages : List (Response γ)} (h : Holds service none (page :: next :: pages)) (fuel : Nat)
    (token : Option Text) (others : List (Text × Json)) :
    loop service fuel token ⟨none, others⟩ = none := by
  obtain ⟨hpage, t, ht, -⟩ := holds_cons_cons.mp h
  have hrequest : VerbArguments.requested ⟨none, others⟩ = none := rfl
  induction fuel generalizing token with
  | zero => rfl
  | succ fuel ih =>
    rw [loop, write_no_body, hrequest, hpage]
    simp only [ht, ih, Option.map_none]

theorem loop_fuel {service : Option Json → Response γ} {n m : Nat} {token : Option Text}
    {args : VerbArguments} {p q : List (Response γ) × VerbArguments}
    (hn : loop service n token args = some p) (hm : loop service m token args = some q) : p = q := by
  induction n generalizing m token args p q with
  | zero => cases hn
  | succ n ih =>
    cases m with
    | zero => cases hm
    | succ m =>
      rw [loop] at hn hm
      split at hn
      · rename_i hlast
        rw [hlast] at hm
        exact Option.some.inj (hn.symm.trans hm)
      · rename_i t ht
        rw [ht] at hm
        obtain ⟨p', hp', rfl⟩ := Option.map_eq_some_iff.mp hn
        obtain ⟨q', hq', rfl⟩ := Option.map_eq_some_iff.mp hm
        rw [ih hp' hq']

/-- **Search.**  The pages are returned once and in order, and the arguments left as they were,
when there is one page, and only then. -/
theorem executeSearchQuery_iff {service : Option Json → Response γ} {pages : List (Response γ)}
    {args : VerbArguments} (h : Holds service none pages) (hnew : args.requested = none) :
    (∃ fuel, executeSearchQuery service fuel args = some (pages, args)) ↔ pages.length = 1 := by
  obtain ⟨body, others⟩ := args
  cases body with
  | none =>
    match pages, h with
    | [page], h =>
      obtain ⟨rfl, hlast⟩ := h
      refine iff_of_true ⟨1, ?_⟩ rfl
      rw [executeSearchQuery, loop, write_no_body, hnew]
      simp only [hlast]
    | page :: next :: pages, h =>
      refine iff_of_false ?_ (by simp)
      rintro ⟨fuel, hloop⟩
      rw [executeSearchQuery, search_no_body h] at hloop
      cases hloop
  | some body =>
    obtain ⟨body', hsearch, hbody⟩ := @search_body γ _ _ _ others hnew h
    rcases hbody with ⟨hone, rfl⟩ | ⟨hmany, last, rfl⟩
    · exact iff_of_true ⟨_, hsearch⟩ hone
    · refine iff_of_false ?_ hmany
      rintro ⟨fuel, hloop⟩
      obtain ⟨-, hargs⟩ := Prod.mk.inj (loop_fuel hsearch hloop)
      rw [← hargs, requested_set] at hnew
      cases hnew

end

/-! ## Two pages -/

/-- A service with two pages. -/
def twoPages (token : Option Json) : Response Nat :=
  match token with
  | some _ => ⟨2, none⟩
  | none => ⟨1, some "second".toList⟩

theorem holds_twoPages : Holds twoPages none [⟨1, some "second".toList⟩, ⟨2, none⟩] :=
  ⟨rfl, _, rfl, rfl, rfl⟩

/-- Without a body the second page is never returned. -/
theorem twoPages_not_returned : ¬ ∃ fuel, executeSearchQuery twoPages fuel ⟨none, []⟩ =
    some ([⟨1, some "second".toList⟩, ⟨2, none⟩], ⟨none, []⟩) := by
  rintro ⟨fuel, hloop⟩
  rw [executeSearchQuery, search_no_body holds_twoPages] at hloop
  cases hloop

/-- One page is returned. -/
theorem onePage_returned : Holds (fun _ => (⟨1, none⟩ : Response Nat)) none [⟨1, none⟩] ∧
    VerbArguments.requested ⟨some [], []⟩ = none ∧
    ((∃ fuel, executeSearchQuery (fun _ => (⟨1, none⟩ : Response Nat)) fuel ⟨some [], []⟩ =
      some ([⟨1, none⟩], ⟨some [], []⟩)) ↔ [(⟨1, none⟩ : Response Nat)].length = 1) :=
  ⟨⟨rfl, rfl⟩, rfl, executeSearchQuery_iff ⟨rfl, rfl⟩ rfl⟩

end Custodian.SearchQuery

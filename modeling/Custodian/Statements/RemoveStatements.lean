import Custodian.Lib.Except
import Custodian.Statements.Documents

/-!
# Removing statements

`remove_statements` of `c7n/actions/policy.py` removes the statements of a policy that are named by
their ids, that a filter has matched, or all of them.  It edits the list of the policy.
-/

namespace Custodian.RemoveStatements

open Py
open Documents

/-- `match_ids` -/
inductive MatchIds where
  | all
  | matched
  | ids (names : List Text)

def valueError : Exn := .raised "ValueError".toList

/-- Whether an element of the statements is to be removed. -/
def found (ids : MatchIds) (matched : List Statement) (x : Json) : Except Exn Bool :=
  match ids with
  | .all => .ok true
  | .matched => .ok (matched.any fun t => x.same t.json)
  | .ids names => do
    if ← x.hasKey sidKey then
      let sid ← x.index sidKey
      return names.any fun n => Json.same (.str n) sid
    else return false

/-- `statements.remove(x)`: the first element that is equal. -/
def remove (x : Json) : StatementField → Except Exn StatementField
  | .list ss =>
    if ss.any fun t => t.json.same x then .ok (.list (ss.eraseP fun t => t.json.same x))
    else .error valueError
  | .single _ => .error .attributeError

/-- The statements that are left and those that are found. -/
structure Removal where
  statements : StatementField
  found : List Json

def removeFound (ids : MatchIds) (matched : List Statement) (r : Removal) (x : Json) :
    Except Exn Removal := do
  if ← found ids matched x then
    let statements ← remove x r.statements
    return ⟨statements, r.found ++ [x]⟩
  else return r

/-- `remove_statements`, without its first result, which is none when nothing is found. -/
def removeStatements (ids : MatchIds) (matched : List Statement) (statements : StatementField) :
    Except Exn Removal :=
  statements.elements.foldlM (removeFound ids matched) ⟨statements, []⟩

/-! ## Lists -/

/-- Whether a statement is selected for removal. -/
def selects (ids : MatchIds) (matched : List Statement) (s : Statement) : Bool :=
  match ids with
  | .all => true
  | .matched => matched.any fun t => s.eq t
  | .ids names => s.sid.any fun t => t ∈ names

variable {ids : MatchIds} {matched : List Statement}

theorem found_json (s : Statement) : found ids matched s.json = .ok (selects ids matched s) := by
  cases ids with
  | all => rfl
  | matched => rfl
  | ids names =>
    rw [found, selects, Statement.json, Json.hasKey_obj, Json.index_obj, Statement.get_sid]
    cases s.sid with
    | none => rfl
    | some t =>
      have hany : (names.any fun n => Json.same (.str n) (.str t)) = decide (t ∈ names) := by
        rw [Bool.eq_iff_iff, List.any_eq_true, decide_eq_true_eq]
        simp only [Json.same_str_iff, Json.str.injEq]
        exact ⟨fun ⟨n, hn, h⟩ => h ▸ hn, fun h => ⟨t, h, rfl⟩⟩
      simp only [Option.map_some, Option.isSome_some, Option.elim_some, ok_bind, if_true, hany,
        Option.any_some]
      rfl

theorem selects_congr {s t : Statement} (h : s.eq t = true) :
    selects ids matched s = selects ids matched t := by
  cases ids with
  | all => rfl
  | matched => exact List.any_congr rfl fun u => Json.same_congr_left h u.json
  | ids names => rw [selects, selects, Statement.sid_eq_of_eq h]

theorem remove_json {before after : List Statement} {s : Statement}
    (hbefore : ∀ t ∈ before, selects ids matched t = false) (hs : selects ids matched s = true) :
    remove s.json (.list (before ++ s :: after)) = .ok (.list (before ++ after)) := by
  have hany : ((before ++ s :: after).any fun t => t.json.same s.json) = true :=
    List.any_eq_true.mpr ⟨s, by simp, Statement.eq_refl s⟩
  have hne : ∀ t ∈ before, ¬ t.json.same s.json = true := by
    intro t ht heq
    have hsame : selects ids matched t = selects ids matched s := selects_congr heq
    rw [hbefore t ht, hs] at hsame
    cases hsame
  have herase : (s :: after).eraseP (fun t => t.json.same s.json) = after :=
    List.eraseP_cons_of_pos (Statement.eq_refl s)
  rw [remove, if_pos hany, List.eraseP_append_right _ hne, herase]

/-- **What is left of a list**: the statements that are not selected, in their order. -/
theorem removeStatements_list (ss : List Statement) :
    removeStatements ids matched (.list ss) =
      .ok ⟨.list (ss.filter fun s => !selects ids matched s),
        (ss.filter (selects ids matched)).map Statement.json⟩ := by
  -- the statements that have been read are filtered, the others are all there
  have hloop : ∀ rest read : List Statement,
      (rest.map Statement.json).foldlM (removeFound ids matched)
        ⟨.list ((read.filter fun s => !selects ids matched s) ++ rest),
          (read.filter (selects ids matched)).map Statement.json⟩ =
      .ok ⟨.list ((read ++ rest).filter fun s => !selects ids matched s),
        ((read ++ rest).filter (selects ids matched)).map Statement.json⟩ := by
    intro rest
    induction rest with
    | nil =>
      intro read
      rw [List.map_nil, List.append_nil, List.append_nil]
      rfl
    | cons s rest ih =>
      intro read
      have hread := ih (read ++ [s])
      rw [List.append_assoc, List.singleton_append, List.filter_append, List.filter_append,
        List.map_append] at hread
      rw [List.map_cons, List.foldlM_cons, removeFound, found_json, ok_bind]
      cases hs : selects ids matched s with
      | true =>
        have hbefore : ∀ t ∈ read.filter fun s => !selects ids matched s,
            selects ids matched t = false := by
          intro t ht
          rw [List.mem_filter, Bool.not_eq_true'] at ht
          exact ht.2
        rw [if_pos rfl, remove_json hbefore hs, ok_bind]
        rw [List.filter_cons_of_neg (by simp [hs]), List.filter_cons_of_pos hs, List.filter_nil,
          List.filter_nil, List.append_nil] at hread
        exact hread
      | false =>
        rw [if_neg Bool.false_ne_true]
        rw [List.filter_cons_of_pos (by simp [hs]), List.filter_cons_of_neg (by simp [hs]),
          List.filter_nil, List.filter_nil, List.map_nil, List.append_nil, List.append_assoc] at hread
        exact hread
  exact hloop ss []

/-! ## Single statements -/

/-- **A single statement** is iterated by its keys: all of them cannot be removed, and a key is
looked into for an id when it mentions `Sid`. -/
theorem removeStatements_single (s : Statement) {r : Removal}
    (h : removeStatements ids matched (.single s) = .ok r) : r.statements = .single s := by
  have hloop : ∀ (ks : List Text) (r : Removal), r.statements = .single s →
      ∀ r', (ks.map Json.str).foldlM (removeFound ids matched) r = .ok r' →
        r'.statements = .single s := by
    intro ks
    induction ks with
    | nil =>
      intro r hr r' h
      cases h
      exact hr
    | cons k ks ih =>
      intro r hr r' h
      rw [List.map_cons, List.foldlM_cons, removeFound] at h
      obtain ⟨r'', hstep, hrest⟩ := bind_eq_ok.mp h
      obtain ⟨b, -, hstep⟩ := bind_eq_ok.mp hstep
      cases b with
      | true =>
        obtain ⟨statements, hremove, -⟩ := bind_eq_ok.mp hstep
        rw [hr] at hremove
        cases hremove
      | false =>
        cases hstep
        exact ih r hr r' hrest
  have hkeys : (StatementField.single s).elements = (s.members.map Prod.fst).map Json.str := by
    rw [StatementField.elements, List.map_map]
    rfl
  rw [removeStatements, hkeys] at h
  exact hloop _ _ rfl r h

end Custodian.RemoveStatements

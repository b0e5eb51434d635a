import Custodian.Lib.JsonEq

/-!
# Policy documents

Statements as they are loaded from the text of a policy.  Their equality does not depend on the
order of keys.
-/

namespace Custodian.Documents

open Py

def sidKey : Text := "Sid".toList

def isText : Json → Bool
  | .str _ => true
  | _ => false

/-- A statement: an object with distinct keys and at least one, whose `Sid`, if any, is a text. -/
structure Statement where
  members : List (Text × Json)
  nodup : (members.map Prod.fst).Nodup
  ne_nil : members ≠ []
  isText_sid : (Items.get sidKey members).all isText = true

/-- The value of `Statement` in a policy. -/
inductive StatementField where
  | list (ss : List Statement)
  | single (s : Statement)

namespace Statement

def json (s : Statement) : Json := .obj s.members

/-- `s == t` -/
def eq (s t : Statement) : Bool := Json.same s.json t.json

/-- `s.get('Sid')` -/
def sid (s : Statement) : Option Text :=
  match Items.get sidKey s.members with
  | some (.str t) => some t
  | _ => none

variable {s t u : Statement}

theorem eq_refl (s : Statement) : s.eq s = true := Json.same_refl s.json

theorem eq_iff : s.eq t = true ↔
    ∀ k, (Items.get k s.members).map Json.canon = (Items.get k t.members).map Json.canon :=
  Json.same_obj_iff s.nodup t.nodup

theorem get_sid (s : Statement) : Items.get sidKey s.members = s.sid.map Json.str := by
  have h := s.isText_sid
  rw [sid]
  cases hsid : Items.get sidKey s.members with
  | none => rfl
  | some v =>
    rw [hsid] at h
    cases v with
    | str t => rfl
    | _ => exact absurd h (by simp [isText])

theorem sid_eq_of_eq (h : s.eq t = true) : s.sid = t.sid := by
  have hsid := eq_iff.mp h sidKey
  rw [get_sid, get_sid, Option.map_map, Option.map_map] at hsid
  refine Option.map_injective (fun a b hab => ?_) hsid
  simpa [Json.canon] using hab

/-- A statement with a `Sid` and an effect. -/
def ofEffect (sid effect : Text) : Statement where
  members := [("Sid".toList, .str sid), ("Effect".toList, .str effect)]
  nodup := by simp
  ne_nil := List.cons_ne_nil _ _
  isText_sid := by
    have hget : Items.get sidKey [("Sid".toList, Json.str sid), ("Effect".toList, .str effect)] =
        some (.str sid) := Items.get_cons _ _ _
    rw [hget]
    rfl

end Statement

namespace StatementField

/-- The statements that the policy consists of. -/
def statements : StatementField → List Statement
  | .list ss => ss
  | .single s => [s]

/-- `for s in list(statements)`: the statements of a list, or the keys of a single one. -/
def elements : StatementField → List Json
  | .list ss => ss.map Statement.json
  | .single s => s.members.map fun m => .str m.1

end StatementField

end Custodian.Documents

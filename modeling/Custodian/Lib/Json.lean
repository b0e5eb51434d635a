import Custodian.Lib.Text
import Mathlib.Data.List.Infix
import Mathlib.Data.Rat.Defs

/-! # JSON documents and the operations a dynamic language has on them -/

namespace Py

/-- An object is kept as its list of members, which have distinct keys. -/
inductive Json where
  | null
  | bool (b : Bool)
  | num (q : Rat)
  | str (s : Text)
  | arr (items : List Json)
  | obj (members : List (Text × Json))

namespace Json

/-- The truth of a value in a condition. -/
def truthy : Json → Bool
  | .null => false
  | .bool b => b
  | .num q => q ≠ 0
  | .str s => !s.isEmpty
  | .arr xs => !xs.isEmpty
  | .obj ms => !ms.isEmpty

/-- `for x in j`: items, keys or characters. -/
def iter : Json → Except Exn (List Json)
  | .arr xs => .ok xs
  | .obj ms => .ok (ms.map fun e => .str e.1)
  | .str s => .ok (s.map fun c => .str [c])
  | _ => .error .typeError

/-- The members of a dictionary; other values have no such method. -/
def members : Json → Except Exn (List (Text × Json))
  | .obj ms => .ok ms
  | _ => .error .attributeError

/-- `j.get(key)` -/
def get (j : Json) (key : Text) : Except Exn (Option Json) := do
  let ms ← j.members
  return ms.lookup key

/-- `key in j` for a text key. -/
def hasKey (j : Json) (key : Text) : Except Exn Bool :=
  match j with
  | .obj ms => .ok (ms.lookup key).isSome
  | .str s => .ok (decide (key <:+: s))
  | .arr xs => .ok (xs.any fun x => match x with
      | .str s => s = key
      | _ => false)
  | _ => .error .typeError

/-- `j[key]` for a text key. -/
def index (j : Json) (key : Text) : Except Exn Json :=
  match j with
  | .obj ms => match ms.lookup key with
    | some v => .ok v
    | none => .error .keyError
  | _ => .error .typeError

/-- The text of a string value; `exn` is what the operation raises on others. -/
def text (exn : Exn) : Json → Except Exn Text
  | .str s => .ok s
  | _ => .error exn

/-- A value that can be a member of a set. -/
def hashable : Json → Bool
  | .arr _ => false
  | .obj _ => false
  | _ => true

end Json

end Py

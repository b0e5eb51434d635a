import Custodian.Lib.Text

/-!
# Shell-style wildcards

`fnmatch`: `*` matches any text, `?` any character and `[seq]` one character of
a set.  A pattern is first compiled to a list of items; the compilation of a set
follows `fnmatch.translate`, empty and reversed ranges included.
-/

namespace Py.Glob

/-- One item of a compiled pattern.  A set holds ranges of characters. -/
inductive Item where
  | star
  | any
  | lit (c : Char)
  | set (negated : Bool) (ranges : List (Char × Char))
  deriving DecidableEq, Repr

/-- Split the inside of a set at the hyphens that make a range: a hyphen counts
unless it is among the first `skip` characters. -/
def chunks (cur : Text) : Nat → Text → List Text
  | _, [] => [cur]
  | 0, '-' :: s => cur :: chunks [] 2 s
  | 0, c :: s => chunks (cur ++ [c]) 0 s
  | n + 1, c :: s => chunks (cur ++ [c]) n s

/-- A trailing hyphen belongs to the last chunk. -/
def closeChunks : List Text → List Text
  | [c, []] => [c ++ ['-']]
  | c :: cs => c :: closeChunks cs
  | [] => []

/-- Join neighbours whose range would be reversed, from the right. -/
def dropEmptyRanges : List Text → List Text
  | c :: cs =>
    match dropEmptyRanges cs with
    | d :: ds =>
      match c.getLast?, d with
      | some a, b :: d' => if b < a then (c.dropLast ++ d') :: ds else c :: d :: ds
      | _, _ => c :: d :: ds
    | [] => [c]
  | [] => []

/-- The characters of the chunks and the ranges between neighbours. -/
def rangesOf : List Text → List (Char × Char)
  | c :: d :: cs =>
    c.map (fun a => (a, a)) ++
      (match c.getLast?, d with
        | some a, b :: _ => [(a, b)]
        | _, _ => []) ++ rangesOf (d :: cs)
  | [c] => c.map fun a => (a, a)
  | [] => []

/-- The item of a set with the given inside. -/
def setItem (inside : Text) : Item :=
  let skip := if inside.head? = some '!' then 2 else 1
  let parts := if inside.contains '-' then dropEmptyRanges (closeChunks (chunks [] skip inside))
    else [inside]
  match parts with
  | ('!' :: c) :: cs => if (c :: cs).all List.isEmpty then .any else .set true (rangesOf (c :: cs))
  | cs => .set false (rangesOf cs)

/-- The inside of the set that starts after `[`, and what follows its `]`.  A
bracket directly after `[` or `[!` does not close the set. -/
def splitSet (s : Text) : Option (Text × Text) :=
  let lead := match s with
    | '!' :: ']' :: _ => 2
    | '!' :: _ => 1
    | ']' :: _ => 1
    | _ => 0
  let rest := s.drop lead
  if rest.contains ']' then
    some (s.take lead ++ rest.takeWhile (· ≠ ']'), (rest.dropWhile (· ≠ ']')).tail)
  else none

/-- Compile at most `fuel` characters of a pattern. -/
def compileAux : Nat → Text → List Item
  | 0, _ => []
  | _ + 1, [] => []
  | n + 1, '*' :: s => .star :: compileAux n s
  | n + 1, '?' :: s => .any :: compileAux n s
  | n + 1, '[' :: s =>
    match splitSet s with
    | some (inside, rest) => setItem inside :: compileAux n rest
    | none => .lit '[' :: compileAux n s
  | n + 1, c :: s => .lit c :: compileAux n s

def compile (pattern : Text) : List Item := compileAux pattern.length pattern

/-- Try `k` after every prefix of the text. -/
def matchStar (k : Text → Bool) : Text → Bool
  | [] => k []
  | c :: s => k (c :: s) || matchStar k s

def matchItems : List Item → Text → Bool
  | [], s => s.isEmpty
  | .star :: is, s => matchStar (matchItems is) s
  | .any :: is, _ :: s => matchItems is s
  | .lit c :: is, d :: s => c = d && matchItems is s
  | .set neg rs :: is, d :: s => (neg != rs.any fun r => r.1 ≤ d && d ≤ r.2) && matchItems is s
  | _ :: _, [] => false

/-- `fnmatch.fnmatch(name, pattern)` on a file system that keeps letter case. -/
def fnmatch (name pattern : Text) : Bool := matchItems (compile pattern) name

example : fnmatch "AIDACKCEVSQ6C2EXAMPLE" "AIDA*" = true := by decide
example : fnmatch "b-x" "[!a-c]?x" = false ∧ fnmatch "d-x" "[!a-c]?x" = true := by decide

end Py.Glob

import Custodian.CloudLogging.Parser
import Custodian.Lib.SortedSet

/-!
# Canonical texts of Cloud Logging filters

`_canonicalize_node`, `_canonicalize_field`, `_canonicalize_value` and
`canonicalize_cloud_logging_filter` of `c7n_gcp/utils.py`, and
`LogProjectSinkOverlapFilter._effective_filter` of `c7n_gcp/resources/logging.py`.
-/

namespace Custodian.Canonical

open Py Custodian.Tokenizer Custodian.Parser

/-! ## Fields and values -/

/-- `[^."']` -/
def isSegmentChar (c : Char) : Bool := c ≠ '.' && !isQuote c

/-- The match of `_FIELD_SEGMENT_RE` at the start of a text, empty if there is none. -/
def segmentAt (s : Text) : Text × Text := units isSegmentChar s

/-- `_KEYED_FIELDS` -/
def keyedFields : List Text := ["labels".toList, "jsonpayload".toList, "protopayload".toList]

/-- Whether the sub-fields of a segment are map or struct keys. -/
def isKeyed (ct : CaseTable) (segment : Text) : Bool := keyedFields.contains (ct.lower segment)

/-- `path[:end]` and `path[end:]`, where `end` is that of the first keyed segment,
or of the last segment if none is keyed. -/
def splitFieldFuel (ct : CaseTable) : Nat → Text → Text × Text
  | 0, s => ([], s)
  | _ + 1, [] => ([], [])
  | n + 1, c :: s =>
    let m := segmentAt (c :: s)
    if m.1.isEmpty then
      let p := splitFieldFuel ct n s
      if p.1.isEmpty then ([], c :: s) else (c :: p.1, p.2)
    else if isKeyed ct m.1 then m
    else
      let p := splitFieldFuel ct n m.2
      (m.1 ++ p.1, p.2)

def splitField (ct : CaseTable) (path : Text) : Text × Text :=
  splitFieldFuel ct path.length path

/-- A field path without the case of the built-in names. -/
def lowerPath (ct : CaseTable) (path : Text) : Text :=
  ct.lower (splitField ct path).1 ++ (splitField ct path).2

/-- `_canonicalize_field` -/
def canonicalizeField (ct : CaseTable) (tokens : List Token) : Text :=
  match tokens with
  | [t] => if t.kind = .word then lowerPath ct t.text else renderTokens [t]
  | ts => renderTokens ts

/-- `value[1:-1]` -/
def unquoted (v : Text) : Text := v.tail.dropLast

/-- A value double-quoted where that needs no new escapes. -/
def quoteValue (t : Token) : Text :=
  if t.kind = .string ∧ t.text.head? = some '\'' ∧ '"' ∉ t.text then
    '"' :: (unquoted t.text ++ ['"'])
  else if t.kind = .word ∧ ∀ c ∈ t.text, c ≠ '"' ∧ c ≠ '\'' ∧ c ≠ '\\' then
    '"' :: (t.text ++ ['"'])
  else t.text

/-- `_canonicalize_value` -/
def canonicalizeValue (ct : CaseTable) (t : Token) (lower : Bool) : Text :=
  if lower then ct.lower (quoteValue t) else quoteValue t

/-- `_REGEX_OPERATORS` -/
def regexOperators : List Text := ["=~".toList, "!~".toList]

/-- Comparisons ignore letter case except for regular expressions. -/
def ignoresCase (op : Text) : Bool := !regexOperators.contains op

/-! ## Nodes -/

def joiner : Connective → Text
  | .and => " AND ".toList
  | .or => " OR ".toList

mutual
/-- `_canonicalize_node` -/
def canonicalizeNode (ct : CaseTable) : Node → Text
  | .group k children =>
    match sortedSet (canonicalizeNodes ct children) with
    | [c] => c
    | cs => "(".toList ++ (joiner k).intercalate cs ++ ")".toList
  | .not e => "NOT ".toList ++ canonicalizeNode ct e
  | .all => []
  | .predicate lhs op rhs =>
    canonicalizeField ct lhs ++ " ".toList ++ op ++ " ".toList ++
      canonicalizeValue ct rhs (ignoresCase op)
  | .term ts => renderTokens (ts.map (lowerToken ct))

def canonicalizeNodes (ct : CaseTable) : List Node → List Text
  | [] => []
  | n :: ns => canonicalizeNode ct n :: canonicalizeNodes ct ns
end

/-- `CloudLoggingFilterParser.canonicalize` -/
def canonicalize (ct : CaseTable) (expression : Text) : Except Failure Text := do
  let ast ← parse expression
  return canonicalizeNode ct ast

theorem canonicalizeNodes_eq (ct : CaseTable) (ns : List Node) :
    canonicalizeNodes ct ns = ns.map (canonicalizeNode ct) := by
  induction ns with
  | nil => rfl
  | cons n ns ih => rw [canonicalizeNodes, ih, List.map_cons]

example : canonicalize asciiTable "b OR A=(x 'Y') -c=~D".toList =
    .ok "(((a = \"x\" AND a = \"y\") OR b) AND NOT c =~ \"D\")".toList := by decide +kernel

/-! ## The effective filter of a sink -/

structure Exclusion where
  filter : Option Text := none
  disabled : Bool := false

/-- The parts of a log sink that its effective filter is made of. -/
structure Sink where
  filter : Option Text := none
  exclusions : List Exclusion := []

/-- The filters of the enabled exclusions. -/
def Sink.enabled (sink : Sink) : List Text :=
  (sink.exclusions.filter fun e => !e.disabled).filterMap fun e =>
    e.filter.filter fun f => !f.isEmpty

/-- The key of a sink whose filters all parse.  A filter that is empty once
canonicalized is treated like a missing one. -/
def effectiveKey (ct : CaseTable) (sink : Sink) : Except Failure Text := do
  let routed ← canonicalize ct (sink.filter.getD [])
  let excluded ← sink.enabled.mapM (canonicalize ct)
  let parts := (if routed.isEmpty then [] else ["(".toList ++ routed ++ ")".toList]) ++
    (excluded.filter fun e => !e.isEmpty).map fun e => "NOT (".toList ++ e ++ ")".toList
  let key ← canonicalize ct (" AND ".toList.intercalate parts)
  -- overlap comparison parses the key again
  let _ ← parse key
  return key

/-- `normalize_cloud_logging_filter_spacing` -/
def normalizeSpacing (expression : Text) : Text := renderTokens (tokenize expression)

/-- `_effective_filter` -/
def effectiveFilter (ct : CaseTable) (sink : Sink) (exact : Bool) : Option Text :=
  match effectiveKey ct sink with
  | .ok key => some key
  | .error _ =>
    if exact then
      some (" AND ".toList.intercalate (normalizeSpacing (sink.filter.getD []) ::
        sink.enabled.map fun e => "NOT (".toList ++ normalizeSpacing e ++ ")".toList))
    else none

end Custodian.Canonical

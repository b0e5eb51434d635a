import Custodian.CloudLogging.Tokenizer
import Custodian.Lib.Except

/-!
# The Cloud Logging filter parser

`CloudLoggingFilterParser.parse` of `c7n_gcp/utils.py`.  A stream is the list of
the tokens that are left.  The boolean grammar is shared by whole expressions and
by value lists, so each level takes the parser of its innermost operands.  The
levels call each other on fuel; `parse` starts with enough for every token.
-/

namespace Custodian.Parser

open Py Custodian.Tokenizer

/-! ## Syntax trees -/

inductive Connective where
  | and
  | or
  deriving DecidableEq, Repr

/-- A node of the syntax tree.  The right-hand side of a predicate is one token. -/
inductive Node where
  | all
  | term (tokens : List Token)
  | predicate (lhs : List Token) (op : Text) (rhs : Token)
  | not (expr : Node)
  | group (type : Connective) (children : List Node)

/-- The children that a child contributes to a node of the given type. -/
def spliced (k : Connective) : Node → List Node
  | .group k' children => if k' = k then children else [.group k' children]
  | n => [n]

/-- `_join`: nested nodes of the same type are flattened. -/
def joinNodes (k : Connective) (children : List Node) : Node :=
  match children.flatMap (spliced k) with
  | [n] => n
  | flat => .group k flat

/-! ## Failures -/

/-- A `ValueError` of the parser, or a run that was cut short. -/
inductive Failure where
  | valueError (message : Text)
  | outOfFuel
  deriving DecidableEq

def unableToParse : Text := "Unable to parse full Cloud Logging filter expression"

def unexpectedEnd : Text := "Unexpected end of Cloud Logging filter expression"

def missingParen : Text := "Missing closing parenthesis in filter expression"

def malformedComparison : Text := "Malformed comparison in Cloud Logging filter expression"

def emptyPredicate : Text := "Empty predicate in Cloud Logging filter expression"

/-- The messages of the parser. -/
def messages : List Text :=
  [unableToParse, unexpectedEnd, missingParen, malformedComparison, emptyPredicate]

abbrev Parse (α : Type) := List Token → Except Failure (α × List Token)

/-! ## The boolean grammar -/

def andToken : Token := ⟨.logic, "AND".toList⟩

def orToken : Token := ⟨.logic, "OR".toList⟩

def notToken : Token := ⟨.logic, "NOT".toList⟩

/-- `_expect_closing_paren` -/
def expectClosingParen : List Token → Except Failure (List Token)
  | [] => .error (.valueError missingParen)
  | t :: ts => if t.kind = .rparen then .ok ts else .error (.valueError missingParen)

mutual
/-- `_parse_and` -/
def parseAnd (leaf : Parse Node) : Nat → Parse Node
  | 0, _ => .error .outOfFuel
  | n + 1, ts => do
    let (child, ts) ← parseOr leaf n ts
    let (children, ts) ← andLoop leaf n ts
    return (joinNodes .and (child :: children), ts)

/-- The loop of `_parse_and`: adjacent terms are an implicit AND. -/
def andLoop (leaf : Parse Node) : Nat → Parse (List Node)
  | 0, _ => .error .outOfFuel
  | n + 1, ts =>
    match ts with
    | [] => .ok ([], [])
    | t :: rest =>
      if t.kind = .rparen then .ok ([], t :: rest)
      else do
        let (child, ts) ← parseOr leaf n (if t = andToken then rest else t :: rest)
        let (children, ts) ← andLoop leaf n ts
        return (child :: children, ts)

/-- `_parse_or` -/
def parseOr (leaf : Parse Node) : Nat → Parse Node
  | 0, _ => .error .outOfFuel
  | n + 1, ts => do
    let (child, ts) ← parseNot leaf n ts
    let (children, ts) ← orLoop leaf n ts
    return (joinNodes .or (child :: children), ts)

/-- The loop of `_parse_or`. -/
def orLoop (leaf : Parse Node) : Nat → Parse (List Node)
  | 0, _ => .error .outOfFuel
  | n + 1, ts =>
    match ts with
    | [] => .ok ([], [])
    | t :: rest =>
      if t = orToken then do
        let (child, ts) ← parseNot leaf n rest
        let (children, ts) ← orLoop leaf n ts
        return (child :: children, ts)
      else .ok ([], t :: rest)

/-- `_parse_not` -/
def parseNot (leaf : Parse Node) : Nat → Parse Node
  | 0, _ => .error .outOfFuel
  | n + 1, ts =>
    match ts with
    | [] => parsePrimary leaf n []
    | t :: rest =>
      if t = notToken then do
        let (expr, ts) ← parseNot leaf n rest
        return (.not expr, ts)
      else parsePrimary leaf n (t :: rest)

/-- `_parse_primary` -/
def parsePrimary (leaf : Parse Node) : Nat → Parse Node
  | 0, _ => .error .outOfFuel
  | n + 1, ts =>
    match ts with
    | [] => .error (.valueError unexpectedEnd)
    | t :: rest =>
      if t.kind = .lparen then do
        let (node, ts) ← parseAnd leaf n rest
        let ts ← expectClosingParen ts
        return (node, ts)
      else leaf (t :: rest)
end

/-! ## Predicates -/

/-- The tokens of a function call after its name, up to the parenthesis that
closes the first one. -/
def arguments : Int → Parse (List Token)
  | _, [] => .error (.valueError missingParen)
  | depth, t :: ts =>
    if t.kind = .lparen then do
      let (args, ts) ← arguments (depth + 1) ts
      return (t :: args, ts)
    else if t.kind = .rparen then
      if depth - 1 = 0 then .ok ([t], ts)
      else do
        let (args, ts) ← arguments (depth - 1) ts
        return (t :: args, ts)
    else do
      let (args, ts) ← arguments depth ts
      return (t :: args, ts)

/-- `_parse_operand`: a field path, value, search term or function call. -/
def parseOperand : Parse (List Token)
  | [] => .error (.valueError emptyPredicate)
  | t :: ts =>
    if t.kind = .func then do
      let (args, ts) ← arguments 0 ts
      return (t :: args, ts)
    else if t.kind = .word ∨ t.kind = .string then .ok ([t], ts)
    else .error (.valueError emptyPredicate)

/-- `_parse_value` -/
def parseValue (lhs : List Token) (op : Text) : Parse Node
  | [] => .error (.valueError malformedComparison)
  | t :: ts =>
    if t.kind = .word ∨ t.kind = .string then .ok (.predicate lhs op t, ts)
    else .error (.valueError malformedComparison)

/-- The part of `_parse_predicate` after the operator: a value, or a list of
values to which the field and operator apply. -/
def parseComparison (fuel : Nat) (lhs : List Token) (op : Text) : Parse Node
  | [] => .error (.valueError malformedComparison)
  | t :: ts =>
    if t.kind = .lparen then do
      let (node, ts) ← parseAnd (parseValue lhs op) fuel ts
      let ts ← expectClosingParen ts
      return (node, ts)
    else parseValue lhs op (t :: ts)

/-- `_parse_predicate` -/
def parsePredicate (fuel : Nat) : Parse Node := fun ts => do
  let (lhs, ts) ← parseOperand ts
  match ts with
  | [] => return (.term lhs, [])
  | t :: rest =>
    if t.kind = .op then parseComparison fuel lhs t.text rest
    else return (.term lhs, t :: rest)

/-! ## Expressions -/

/-- Enough fuel for a list of tokens. -/
def enough (ts : List Token) : Nat := 4 * ts.length + 4

/-- `CloudLoggingFilterParser.parse`: an empty filter matches every log entry. -/
def parse (expression : Text) : Except Failure Node :=
  match tokenize expression with
  | [] => .ok .all
  | t :: ts => do
    let (ast, rest) ← parseAnd (parsePredicate (enough (t :: ts))) (enough (t :: ts)) (t :: ts)
    if rest = [] then return ast else .error (.valueError unableToParse)

end Custodian.Parser

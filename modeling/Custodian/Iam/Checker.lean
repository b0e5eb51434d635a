import Custodian.Lib.Except
import Custodian.Lib.Glob
import Custodian.Lib.Json

/-!
# The IAM policy checker

`PolicyChecker` of `c7n/filters/iamaccess.py`: the statements of a resource
policy that grant access to a principal that is not allowed.  A policy is a JSON
document, so every function raises where the source would on a value of another
shape.
-/

namespace Custodian.Checker

open Py

/-- The checker configuration, with the defaults of its properties. -/
structure CheckerConfig where
  returnAllowed : Bool := false
  allowedAccounts : List Text := []
  everyoneOnly : Bool := false
  checkActions : List Text := []
  whitelistConditions : List Text := []
  allowedVpce : List Text := []
  allowedVpc : List Text := []
  allowedOrgid : List Text := []
  allowedOrgUnits : List Text := []
  whitelistPatterns : List Text := []

/-- `_account`: the fifth field of an arn, and any shorter text as it is. -/
def account (arn : Text) : Text :=
  if arn.count ':' < 4 then arn else (arn.splitOn ':').getD 4 []

/-! ## Conditions -/

/-- A normalized condition; `values` is iterated by the handlers. -/
structure Condition where
  op : Text
  key : Text
  values : Json

def conditions : List Text :=
  ["StringEquals".toList, "StringEqualsIgnoreCase".toList, "StringLike".toList,
   "ArnEquals".toList, "ArnLike".toList, "IpAddress".toList, "NotIpAddress".toList]

def setConditions : List Text := ["ForAllValues".toList, "ForAnyValue".toList]

/-- The operators that `normalize_conditions` keeps. -/
def keepsOperator (op : Text) : Bool :=
  conditions.contains op || setConditions.any fun c => op.startsWith c

def normalizeOperator (ct : CaseTable) (op : Text) (block : Json) :
    Except Exn (List Condition) :=
  if keepsOperator op then do
    let ms ← block.members
    return ms.map fun e => ⟨op, ct.lower e.1, match e.2 with
      | .str v => .arr [.str v]
      | v => v⟩
  else .ok []

def normalizeConditions (ct : CaseTable) (s : Json) : Except Exn (List Condition) := do
  if ← s.hasKey "Condition" then
    let block ← s.index "Condition"
    let ms ← block.members
    let cs ← ms.mapM fun e => normalizeOperator ct e.1 e.2
    return cs.flatten
  else return []

/-! ## Condition handlers -/

/-- `_account(v)` as a member of a set; a list also has a `count`, but no hash
and no `split`. -/
def accountOf : Json → Except Exn Text
  | .str t => .ok (account t)
  | .arr items =>
    let colons := items.countP fun x => match x with
      | .str t => t = ":".toList
      | _ => false
    .error (if colons < 4 then .typeError else .attributeError)
  | _ => .error .attributeError

/-- `map(_account, values)` -/
def accounts (values : Json) : Except Exn (List Text) := do
  let vs ← values.iter
  vs.mapM accountOf

/-- `bool(set(map(_account, values)).difference(allowed))` -/
def anyOutside (values : Json) (allowed : List Text) : Except Exn Bool := do
  let as ← accounts values
  return as.any fun a => !allowed.contains a

abbrev Handler := CheckerConfig → Condition → Except Exn Bool

def handleAwsSourceowner : Handler := fun cfg c => anyOutside c.values cfg.allowedAccounts

def handleAwsSourceaccount : Handler := fun cfg c => anyOutside c.values cfg.allowedAccounts

def handleAwsSourcearn : Handler := fun cfg c => anyOutside c.values cfg.allowedAccounts

def handleAwsSourceip : Handler := fun _ _ => .ok false

/-- A handler that does not look at the values while nothing is configured. -/
def unlessEmpty (allowed : List Text) (c : Condition) (flagged : Bool) : Except Exn Bool :=
  if allowed.isEmpty then .ok flagged else anyOutside c.values allowed

def handleAwsSourcevpce : Handler := fun cfg c => unlessEmpty cfg.allowedVpce c false

def handleAwsSourcevpc : Handler := fun cfg c => unlessEmpty cfg.allowedVpc c false

def handleAwsPrincipalorgid : Handler := fun cfg c => unlessEmpty cfg.allowedOrgid c true

/-- `s.strip('/')` -/
def stripSlashes (s : Text) : Text := ((s.dropWhile (· = '/')).reverse.dropWhile (· = '/')).reverse

def orgPathAllowed (cfg : CheckerConfig) (path : Text) : Bool :=
  let segs := path.splitOn '/'
  let orgSeg := segs.headD []
  cfg.allowedOrgid.contains orgSeg ||
    cfg.allowedOrgUnits.any fun unit =>
      let wSegs := (stripSlashes unit).splitOn '/'
      wSegs.headD [] = orgSeg && segs.tail.contains (wSegs.getLastD [])

/-- `any(not self._org_path_allowed(v) for v in values)` stops at the first one. -/
def anyPathRefused (cfg : CheckerConfig) : List Json → Except Exn Bool
  | [] => .ok false
  | v :: vs => do
    let t ← v.text .attributeError
    if orgPathAllowed cfg t then anyPathRefused cfg vs else return true

def handleAwsPrincipalorgpaths : Handler := fun cfg c =>
  if cfg.allowedOrgid.isEmpty && cfg.allowedOrgUnits.isEmpty then .ok true
  else do
    let vs ← c.values.iter
    anyPathRefused cfg vs

def handleAwsPrincipalarn : Handler := fun cfg c => anyOutside c.values cfg.allowedAccounts

def handleAwsResourceorgid : Handler := fun cfg c => anyOutside c.values cfg.allowedOrgid

def handleAwsPrincipalaccount : Handler := fun cfg c => anyOutside c.values cfg.allowedAccounts

def handleS3Dataaccesspointaccount : Handler := fun cfg c =>
  anyOutside c.values cfg.allowedAccounts

/-- The condition handlers by the name that follows `handle_`. -/
def handlers : List (Text × Handler) :=
  [("aws_sourceowner".toList, handleAwsSourceowner),
   ("aws_sourceaccount".toList, handleAwsSourceaccount),
   ("aws_sourcearn".toList, handleAwsSourcearn),
   ("aws_sourceip".toList, handleAwsSourceip),
   ("aws_sourcevpce".toList, handleAwsSourcevpce),
   ("aws_sourcevpc".toList, handleAwsSourcevpc),
   ("aws_principalorgid".toList, handleAwsPrincipalorgid),
   ("aws_principalorgpaths".toList, handleAwsPrincipalorgpaths),
   ("aws_principalarn".toList, handleAwsPrincipalarn),
   ("aws_resourceorgid".toList, handleAwsResourceorgid),
   ("aws_principalaccount".toList, handleAwsPrincipalaccount),
   ("s3_dataaccesspointaccount".toList, handleS3Dataaccesspointaccount)]

/-- Methods of the checker that a condition key can name without being a
handler: most take fewer arguments, and `handle_condition` calls itself. -/
def otherMethods : List (Text × Exn) :=
  [("action".toList, .typeError), ("effect".toList, .typeError),
   ("principal".toList, .typeError), ("statement".toList, .typeError),
   ("conditions".toList, .typeError), ("condition".toList, .recursionError)]

/-- `getattr(self, handler_name, None)` -/
def handlerFor (key : Text) : Option Handler :=
  let name := (key.replaceChar '-' '_').replaceChar ':' '_'
  match handlers.lookup name with
  | some h => some h
  | none => (otherMethods.lookup name).map fun e _ _ => .error e

/-- The result is `none` for a key without a handler. -/
def handleCondition (ct : CaseTable) (cfg : CheckerConfig) (c : Condition) :
    Except Exn (Option Bool) :=
  if c.op.isEmpty then .ok (some false)
  else if (cfg.whitelistConditions.map ct.lower).contains c.key then .ok (some true)
  else match handlerFor c.key with
    | none => .ok none
    | some h => do
      let flagged ← h cfg c
      return some !flagged

/-! ## Combining the conditions of a statement -/

def orgKeys : List Text :=
  ["aws:principalorgid".toList, "aws:resourceorgid".toList, "aws:principalorgpaths".toList]

def principalConditions : List Text :=
  ["aws:principalarn".toList, "aws:principalaccount".toList, "aws:sourceaccount".toList,
   "aws:sourcearn".toList, "s3:dataaccesspointaccount".toList]

/-- The results of the conditions in order, or `none` at the first unknown key. -/
def conditionResults (ct : CaseTable) (cfg : CheckerConfig) :
    List Condition → Except Exn (Option (List (Condition × Bool)))
  | [] => .ok (some [])
  | c :: cs => do
    match ← handleCondition ct cfg c with
    | none => return none
    | some r =>
      let rest ← conditionResults ct cfg cs
      return rest.map ((c, r) :: ·)

/-- Every value of a failed condition names a wildcard or an allowed account.
Its handler has mapped `_account` over the values, so they are texts. -/
def valuesForgiven (cfg : CheckerConfig) : List Json → Except Exn Bool
  | [] => .ok true
  | v :: vs => do
    let t ← v.text .attributeError
    if t.hasChar '*' || cfg.allowedAccounts.contains (account t) then valuesForgiven cfg vs
    else return false

/-- The loop over the failed conditions when an org condition is whitelisted. -/
def failuresForgiven (cfg : CheckerConfig) : List (Condition × Bool) → Except Exn Bool
  | [] => .ok true
  | (_, true) :: rs => failuresForgiven cfg rs
  | (c, false) :: rs =>
    if principalConditions.contains c.key then do
      let vs ← c.values.iter
      if ← valuesForgiven cfg vs then failuresForgiven cfg rs else return false
    else .ok false

/-- A block whitelists when all its conditions do, or when an org condition does
and the others failed on wildcard principals only. -/
def combineResults (cfg : CheckerConfig) (results : List (Condition × Bool)) : Except Exn Bool :=
  if results.all (·.2) then .ok true
  else if results.any fun r => r.2 && orgKeys.contains r.1.key then failuresForgiven cfg results
  else .ok false

def handleConditions (ct : CaseTable) (cfg : CheckerConfig) (s : Json) : Except Exn Bool := do
  let cs ← normalizeConditions ct s
  if cs.isEmpty then return false
  match ← conditionResults ct cfg cs with
  | none => return false
  | some results => combineResults cfg results

/-! ## Statements -/

/-- The first action of the list that one of the checked actions matches. -/
def anyActionChecked (cfg : CheckerConfig) : List Json → Except Exn Bool
  | [] => .ok false
  | a :: as => do
    let t ← a.text .typeError
    if cfg.checkActions.any fun name => Glob.fnmatch name t then return true
    else anyActionChecked cfg as

def handleAction (cfg : CheckerConfig) (s : Json) : Except Exn Bool := do
  if cfg.checkActions.isEmpty then return true
  let actions ← s.get "Action"
  match actions with
  | some (.str a) => anyActionChecked cfg [.str a]
  | some actions => do
    let as ← actions.iter
    anyActionChecked cfg as
  | none => .error .typeError

def handleEffect (s : Json) : Except Exn Bool := do
  let effect ← s.index "Effect"
  match effect with
  | .str e => return e = "Allow".toList
  | _ => return false

/-- The identifiers that one kind of principal lists. -/
def principalIds (p : Json) : Except Exn (List Json) :=
  match p with
  | .str _ => .ok [p]
  | _ => do
    let ids ← p.iter
    if ids.all Json.hashable then return ids else .error .typeError

/-- The identifiers of a statement, service principals left out; `none` when it
names no principal or has `NotPrincipal`. -/
def principalSet (s : Json) : Except Exn (Option (List Json)) := do
  if ← s.hasKey "NotPrincipal" then return none
  let principals := (← s.get "Principal").getD .null
  if !principals.truthy then return none
  let kinds := match principals with
    | .obj ms => ms
    | p => [("AWS".toList, p)]
  let ids ← (kinds.filter fun e => e.1 ≠ "Service".toList).mapM fun e => principalIds e.2
  return some ids.flatten

/-- Whether an identifier is allowed. -/
def principalOk (cfg : CheckerConfig) (pid : Json) : Except Exn Bool :=
  match pid with
  | .str p => .ok (p ≠ "*".toList && (cfg.everyoneOnly ||
      p.startsWith "arn:aws:iam::cloudfront:user" ||
      cfg.whitelistPatterns.any (fun pattern => Glob.fnmatch p pattern) ||
      cfg.allowedAccounts.contains (account p)))
  | _ => if cfg.everyoneOnly then .ok true else .error .attributeError

def handlePrincipal (cfg : CheckerConfig) (s : Json) : Except Exn Bool := do
  match ← principalSet s with
  | none => return true
  | some ids =>
    let oks ← ids.mapM (principalOk cfg)
    return !oks.all id

/-- The three tests are computed before they are combined. -/
def handleStatement (ct : CaseTable) (cfg : CheckerConfig) (s : Json) : Except Exn Bool := do
  let principal ← handlePrincipal cfg s
  let effect ← handleEffect s
  let action ← handleAction cfg s
  if principal && effect && action then
    let whitelisted ← handleConditions ct cfg s
    return !whitelisted
  else return false

/-! ## Policies -/

/-- A policy is given as a document or as its text. -/
inductive PolicyText where
  | text (t : Text)
  | document (j : Json)

/-- The statements of a policy; `loads` is the JSON parser. -/
def statements (loads : Text → Except Exn Json) (p : PolicyText) : Except Exn (List Json) := do
  let policy ← match p with
    | .text t => loads t
    | .document j => .ok j
  match ← policy.get "Statement" with
  | some ss => ss.iter
  | none => return []

/-- Split the statements into those that are allowed and the violations. -/
def splitStatements (ct : CaseTable) (cfg : CheckerConfig) :
    List Json → Except Exn (List Json × List Json)
  | [] => .ok ([], [])
  | s :: ss => do
    let violates ← handleStatement ct cfg s
    let (allowed, violations) ← splitStatements ct cfg ss
    return if violates then (allowed, s :: violations) else (s :: allowed, violations)

def check (loads : Text → Except Exn Json) (ct : CaseTable) (cfg : CheckerConfig)
    (p : PolicyText) : Except Exn (List Json) := do
  let ss ← statements loads p
  let (allowlistStatements, violations) ← splitStatements ct cfg ss
  return if cfg.returnAllowed then allowlistStatements else violations

end Custodian.Checker

import Custodian.Cache.ValueCache
import Custodian.Lib.JsonText
import Mathlib.Data.Char
import Mathlib.Data.List.Lex
import Mathlib.Data.List.Sort
import Mathlib.Data.Prod.Lex

/-!
# Values from a url

`URIResolver` and `ValuesFrom` of `c7n/resolver.py`: values are read from a url or a table, and
kept in two layers of one cache, one for the contents of a url and one for the values.

What the network gives is a parameter.  Every fetch is recorded, and an answer with the fetch that
it has come from.
-/

namespace Custodian.Resolver

open Py Cache

/-! ## Lookups -/

/-- Header names with their values, as they are written. -/
abbrev Headers := List (Text × Text)

inductive Expr where
  | index (n : Int)
  | path (s : Text)
  deriving DecidableEq

/-- `self.data` of `ValuesFrom`, in which the account and the region are filled in. -/
structure Data where
  url : Text
  format : Option Text
  expr : Option Expr
  headers : Option Headers
  query : Option Text
  deriving DecidableEq

/-- The account and the region of the manager. -/
structure Scope where
  accountId : Text
  region : Text
  deriving DecidableEq

/-- A lookup in a policy's account and region, at some time after the one before. -/
structure Lookup where
  scope : Scope
  data : Data
  wait : Nat

/-- What is asked over the network. -/
inductive Source where
  | uri (uri : Text) (headers : Headers)
  | statement (query : Text)

/-- A request over the network: the how manieth lookup has made it, and where. -/
structure Fetch where
  step : Nat
  scope : Scope
  source : Source

/-- A value, `None` included, and the request it has come from. -/
structure Answer (V : Type) where
  origin : Option Fetch
  value : Option V

/-- The keys of both layers. -/
inductive Key where
  | uriResolver (uri : Text) (digest : Option Text)
  | valueFrom (url : Text) (format : Option Text) (expr : Option Expr) (headers : Option Headers)
    (query : Option Text)
  deriving DecidableEq

/-- What the code rests on: the case table, the hash, the network and the reading of contents. -/
structure Env (V : Type) where
  caseTable : CaseTable
  sha256 : Text → Text
  /-- The handler of the scheme of a url. -/
  respond : Fetch → Except Exn (Option V)
  /-- The statement run by the client of the account and region, and its rows read. -/
  execute : Fetch → Data → Except Exn (Option V)
  /-- The reading of contents in a format. -/
  read : Text → Data → Option V → Except Exn (Option V)

/-! ## The two layers -/

variable {V σ : Type}

/-- Header names in lower case with their values, in order. -/
def canonicalHeaders (t : CaseTable) (headers : Headers) : List (Text ×ₗ Text) :=
  (headers.map fun e => toLex (t.lower e.1, e.2)).insertionSort (· ≤ ·)

/-- `json.dumps(sorted((k.lower(), v) for k, v in headers.items()))` -/
def canonical (t : CaseTable) (headers : Headers) : Text :=
  JsonText.array ((canonicalHeaders t headers).map fun e =>
    JsonText.array ([(ofLex e).1, (ofLex e).2].map JsonText.string))

/-- `get_cache_key` -/
def getCacheKey (env : Env V) (uri : Text) (headers : Headers) : Key :=
  match headers with
  | [] => .uriResolver uri none
  | _ => .uriResolver uri (some (env.sha256 (canonical env.caseTable headers)))

/-- The cache, with the number of the lookup and its time. -/
structure World (σ : Type) where
  cache : σ
  step : Nat
  now : Nat

/-- An entry of the cache that holds a value other than `None`. -/
def hit (c : ValueCache σ Key (Answer V)) (w : World σ) (key : Key) : Option (Answer V) :=
  (c.get w.cache w.now key).filter fun a => a.value.isSome

/-- What a lookup gives: its answer, the cache after it and a request if one was made. -/
structure Outcome (σ V : Type) where
  answer : Except Exn (Answer V)
  cache : σ
  request : Option (Fetch × Except Exn (Option V))

/-- `resolve` -/
def resolve (env : Env V) (c : ValueCache σ Key (Answer V)) (w : World σ) (scope : Scope)
    (uri : Text) (headers : Headers) : Outcome σ V :=
  let cacheKey := getCacheKey env uri headers
  match hit c w cacheKey with
  | some a => ⟨.ok a, w.cache, none⟩
  | none =>
    let f : Fetch := ⟨w.step, scope, .uri uri headers⟩
    match env.respond f with
    | .error e => ⟨.error e, w.cache, some (f, .error e)⟩
    | .ok contents =>
      ⟨.ok ⟨some f, contents⟩, c.save w.cache w.now cacheKey ⟨some f, contents⟩,
        some (f, .ok contents)⟩

def supportedFormats : List Text :=
  ["json".toList, "txt".toList, "csv".toList, "csv2dict".toList]

/-- The extension of a path, with its dot: the last component after its last dot, unless there are
only dots before that. -/
def extension (path : Text) : Text :=
  let name := (path.reverse.takeWhile (· ≠ '/')).reverse
  let suffix := (name.reverse.takeWhile (· ≠ '.')).reverse
  let stem := name.take (name.length - suffix.length - 1)
  if name.length = suffix.length ∨ stem.all (· = '.') then [] else '.' :: suffix

/-- The format of a lookup: the given one or the extension of the url. -/
def formatOf (data : Data) : Text :=
  let format := extension data.url
  if format.isEmpty || data.format.any (!·.isEmpty) then data.format.getD [] else format.drop 1

/-- `_get_values`, with `get_contents` -/
def getUriValues (env : Env V) (c : ValueCache σ Key (Answer V)) (w : World σ) (l : Lookup) :
    Outcome σ V :=
  let format := formatOf l.data
  if format ∈ supportedFormats then
    let r := resolve env c w l.scope l.data.url (l.data.headers.getD [])
    match r.answer with
    | .error e => ⟨.error e, r.cache, r.request⟩
    | .ok contents =>
      ⟨(env.read format l.data contents.value).map fun v => ⟨contents.origin, v⟩, r.cache,
        r.request⟩
  else ⟨.error (.raised "ValueError".toList), w.cache, none⟩

/-- `_get_ddb_values` -/
def getDdbValues (env : Env V) (w : World σ) (l : Lookup) : Outcome σ V :=
  match l.data.query with
  | none => ⟨.error .keyError, w.cache, none⟩
  | some query =>
    if Text.startsWith (env.caseTable.lower query) "select".toList then
      let f : Fetch := ⟨w.step, l.scope, .statement query⟩
      let r := env.execute f l.data
      ⟨r.map fun v => ⟨some f, v⟩, w.cache, some (f, r)⟩
    else ⟨.ok ⟨none, none⟩, w.cache, none⟩

/-- The key of `get_values` -/
def valuesKey (data : Data) : Key :=
  .valueFrom data.url data.format data.expr data.headers data.query

def dynamodb : Text := "dynamodb".toList

/-- `get_values` -/
def getValues (env : Env V) (c : ValueCache σ Key (Answer V)) (w : World σ) (l : Lookup) :
    Outcome σ V :=
  match hit c w (valuesKey l.data) with
  | some a => ⟨.ok a, w.cache, none⟩
  | none =>
    let r := if l.data.url = dynamodb then getDdbValues env w l else getUriValues env c w l
    match r.answer with
    | .error e => ⟨.error e, r.cache, r.request⟩
    | .ok a => ⟨.ok a, c.save r.cache w.now (valuesKey l.data) a, r.request⟩

/-! ## Runs -/

/-- A lookup of a run with its time, its answer and its request. -/
structure Event (V : Type) where
  lookup : Lookup
  now : Nat
  answer : Except Exn (Answer V)
  request : Option (Fetch × Except Exn (Option V))

/-- One lookup with the shared cache. -/
def step (env : Env V) (c : ValueCache σ Key (Answer V)) (st : World σ × List (Event V))
    (l : Lookup) : World σ × List (Event V) :=
  let w := { st.1 with now := st.1.now + l.wait }
  let r := getValues env c w l
  (⟨r.cache, w.step + 1, w.now⟩, st.2 ++ [⟨l, w.now, r.answer, r.request⟩])

/-- The lookups of a run, from an empty cache. -/
def run (env : Env V) (c : ValueCache σ Key (Answer V)) (lookups : List Lookup) :
    World σ × List (Event V) :=
  lookups.foldl (step env c) (⟨c.empty, 0, 0⟩, [])

/-- The header maps are the same up to the case of names and the order. -/
def SameHeaders (t : CaseTable) (h h' : Headers) : Prop :=
  (h.map fun e => (t.lower e.1, e.2)).Perm (h'.map fun e => (t.lower e.1, e.2))

/-- The headers of a lookup. -/
def Lookup.headers (l : Lookup) : Headers := l.data.headers.getD []

/-- Both lookups ask for the same uri with the same headers. -/
def SameRequest (t : CaseTable) (l l' : Lookup) : Prop :=
  l.data.url = l'.data.url ∧ SameHeaders t l.headers l'.headers

/-- An answer has not crossed credentials: it has come from a request for the same uri and headers,
or from a statement in the same account and region. -/
def Isolated (t : CaseTable) (l : Lookup) : Source → Scope → Prop
  | .uri uri headers, _ => uri = l.data.url ∧ SameHeaders t headers l.headers
  | .statement _, scope => l.data.url = dynamodb ∧ scope = l.scope

/-- The earlier lookup has got a response that is still fresh for the later one. -/
def Reusable (c : ValueCache σ Key (Answer V)) (e e' : Event V) : Prop :=
  (∃ f v, e.request = some (f, .ok (some v))) ∧ c.fresh e.now e'.now

/-- No answer crosses credentials, and lookups for the same uri and headers share a response. -/
structure Meets (env : Env V) (c : ValueCache σ Key (Answer V)) (events : List (Event V)) :
    Prop where
  isolated : ∀ e ∈ events, ∀ a f, e.answer = .ok a → a.origin = some f →
    Isolated env.caseTable e.lookup f.source f.scope
  shared : events.Pairwise fun e e' => e.lookup.data.url ≠ dynamodb →
    SameRequest env.caseTable e.lookup e'.lookup → Reusable c e e' → e'.request = none

end Custodian.Resolver

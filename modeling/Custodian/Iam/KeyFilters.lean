import Custodian.Filters.Semantics
import Custodian.Lib.LeftFold

/-!
# Filters on the access keys of a user

`merge_annotation` of `c7n/filters/core.py`, and of `c7n/resources/iam.py` the filters `credential`,
on one attribute of the `access_keys` of the credential report, and `access-key`.  They keep a user
that has a matching key, and merge the keys they match into the annotation `c7n:matched-keys` of the
user, by the operator of the block that they stand in.
-/

namespace Custodian.KeyFilters

open Py BoolLogic Custodian.Blocks Custodian.Sweeper Custodian.Semantics

/-! ## Users and keys -/

/-- A value of the credential report, converted. -/
inductive Value where
  | none
  | bool (b : Bool)
  | text (s : Text)
  deriving DecidableEq

/-- `access_keys.` keys of the `credential` filter -/
inductive Attribute where
  | active
  | lastUsedDate
  | lastUsedRegion
  | lastUsedService
  | lastRotated
  deriving DecidableEq

/-- An access key in the credential report. -/
structure ReportKey where
  active : Value
  lastRotated : Value
  lastUsedDate : Value
  lastUsedRegion : Value
  lastUsedService : Value
  deriving DecidableEq

def ReportKey.get (k : ReportKey) : Attribute → Value
  | .active => k.active
  | .lastUsedDate => k.lastUsedDate
  | .lastUsedRegion => k.lastUsedRegion
  | .lastUsedService => k.lastUsedService
  | .lastRotated => k.lastRotated

/-- An access key as it is listed, with the second it was created in. -/
structure AccessKey where
  userName : Text
  accessKeyId : Text
  status : Text
  createDate : Int
  deriving DecidableEq

/-- A matched key, with its `c7n:match-type`. -/
inductive MatchedKey where
  | credential (k : ReportKey)
  | access (k : AccessKey)
  deriving DecidableEq

/-- The values of the entries of a user. -/
inductive Entry where
  | text (s : Text)
  | accessKeys (ks : List AccessKey)
  | matchedKeys (ks : List MatchedKey)
  | credentialReport (info : List ReportKey)
  deriving DecidableEq

/-- The service: the access keys in the report of the users that are in it, and those that are
listed; and the parser of dates. -/
structure Account where
  report : Text → Option (List ReportKey)
  listAccessKeys : Text → List AccessKey
  parseDate : Value → Except Exn Int

def userNameKey : Text := "UserName".toList

def matchedAnnotationKey : Text := "c7n:matched-keys".toList

def accessKeysKey : Text := "c7n:AccessKeys".toList

def credentialReportKey : Text := "c7n:credential-report".toList

/-- `resource_type` of a user: the id is the name. -/
def userModel : ResourceModel Entry where
  id := userNameKey
  search r := (r.lookup (userNameKey.takeWhile (· ≠ '.'))).getD (.text [])
  search_congr _ _ h := by rw [h]

/-- `r['UserName']` -/
def userName (r : Resource Entry) : Except Exn Text :=
  match r.lookup userNameKey with
  | some (.text s) => .ok s
  | _ => .error .keyError

/-- `r.get('c7n:matched-keys')` -/
def matchedKeys (r : Resource Entry) : Option (List MatchedKey) :=
  match r.lookup matchedAnnotationKey with
  | some (.matchedKeys ks) => some ks
  | _ => none

/-! ## Annotations -/

section Merge

variable {K : Type} [DecidableEq K]

def intersectList (a : List K) : Option (List K) → List K
  | none => a
  | some b => a.filter (· ∈ b)

/-- `res.extend(x for x in b if x not in a)` looks at the list that it extends. -/
def unionList (a : List K) (b : Option (List K)) : List K :=
  match b.getD [] with
  | [] => a
  | x :: xs =>
    if a.isEmpty then x :: xs
    else (x :: xs).foldl (fun res y => if y ∈ res then res else res ++ [y]) a

end Merge

inductive BlockType where
  | and
  | or
  | not
  deriving DecidableEq

/-- The list that is merged with what is there. -/
def merge {K : Type} [DecidableEq K] (blockOp : BlockType) (values : List K)
    (old : Option (List K)) : List K :=
  match blockOp with
  | .and | .not => intersectList values old
  | .or => unionList values old

/-! ## Filters -/

/-- The filters on keys, each with the comparison that its value filter makes. -/
inductive KeysFilter where
  | credential (key : Attribute) (test : Value → Bool)
  | accessKey (matchOperator : Op) (test : MatchedKey → Bool)

/-- The filters of a policy.  A filter is an object of its own, told apart by `id`. -/
inductive Node where
  | leaf (id : Nat) (f : KeysFilter)
  | block (type : BlockType) (filters : List Node)

mutual
/-- `iter_filters(block_end=True)`: a block, its filters from the last to the first, and `none` for
the end of the block. -/
def Node.iterFilters : Node → List (Option Node)
  | .leaf id f => [some (.leaf id f)]
  | .block type fs => some (.block type fs) :: (iterLast fs ++ [none])

def iterLast : List Node → List (Option Node)
  | [] => []
  | f :: fs => iterLast fs ++ f.iterFilters
end

/-- The loop of `get_block_parent` over a stack of blocks.  Under them is the manager, for which the
answer is `some none`. -/
def blockParent (self : Nat) : List (Option Node) → List BlockType → Option (Option BlockType)
  | [], _ => none
  | none :: es, stack => blockParent self es stack.tail
  | some (.leaf id _) :: es, stack =>
    if id = self then some stack.head? else blockParent self es stack
  | some (.block type _) :: es, stack => blockParent self es (type :: stack)

/-- `get_block_operator`; the top level operator is `and`. -/
def getBlockOperator (manager : List Node) (self : Nat) : Except Exn BlockType :=
  match blockParent self (manager.flatMap Node.iterFilters) [] with
  | none => .error .attributeError
  | some block => .ok (block.getD .and)

section Process

variable (account : Account) (manager : List Node)

def mergeAnnotation (self : Nat) (r : Resource Entry) (values : List MatchedKey) :
    Except Exn (Resource Entry) := do
  let blockOp ← getBlockOperator manager self
  return r.insert matchedAnnotationKey (.matchedKeys (merge blockOp values (matchedKeys r)))

/-- `CredentialReport.match` for a key `access_keys.<attribute>` -/
def matchInfo (self : Nat) (key : Attribute) (test : Value → Bool) (r : Resource Entry)
    (info : Option (List ReportKey)) : Except Exn (Resource Entry × Bool) :=
  match info with
  | none => .ok (r, false)
  | some accessKeys => do
    let kMatched := (accessKeys.filter fun v => test (v.get key)).map .credential
    let r ← mergeAnnotation manager self r kMatched
    return (r, !kMatched.isEmpty)

/-- The body of the loop of `UserCredentialReport.process` -/
def credentialStep (self : Nat) (key : Attribute) (test : Value → Bool)
    (r : Resource Entry) : Except Exn (Resource Entry × Bool) := do
  let name ← userName r
  let info := account.report name
  let (r, matched) ← matchInfo manager self key test r info
  if matched then
    return (r.insert credentialReportKey (.credentialReport (info.getD [])), true)
  else return (r, false)

/-- `get_user_keys` for the users that have no keys yet -/
def augmentStep (r : Resource Entry) : Except Exn (Resource Entry × Bool) :=
  if (r.lookup accessKeysKey).isSome then .ok (r, true)
  else do
    let name ← userName r
    return (r.insert accessKeysKey (.accessKeys (account.listAccessKeys name)), true)

/-- The body of the second loop of `UserAccessKey.process` -/
def accessKeyStep (self : Nat) (matchOperator : Op) (test : MatchedKey → Bool)
    (r : Resource Entry) : Except Exn (Resource Entry × Bool) := do
  let listed ← match r.lookup accessKeysKey with
    | some (.accessKeys ks) => Except.ok (ks.map MatchedKey.access)
    | _ => .error .keyError
  let keys := match matchedKeys r, matchOperator with
    | some ks, .and => ks
    | _, _ => listed
  let kMatched := keys.filter test
  let r ← mergeAnnotation manager self r kMatched
  return (r, !kMatched.isEmpty)

end Process

/-- A loop over users that writes to each of them and keeps some. -/
def processEach (step : Resource Entry → Except Exn (Resource Entry × Bool)) (h : Heap Entry) :
    List Ref → Except Exn (Heap Entry × List Ref)
  | [] => .ok (h, [])
  | r :: rs => do
    let (d, kept) ← step (h r)
    let (h, out) ← processEach step (Function.update h r d) rs
    return (h, if kept then r :: out else out)

theorem processEach_subset {step : Resource Entry → Except Exn (Resource Entry × Bool)}
    {h h' : Heap Entry} {rs out : List Ref} (hrun : processEach step h rs = .ok (h', out)) :
    ∀ r ∈ out, r ∈ rs := by
  induction rs generalizing h h' out with
  | nil =>
    simp only [processEach, Except.ok.injEq, Prod.mk.injEq] at hrun
    rw [← hrun.2]
    exact fun _ => id
  | cons r rs ih =>
    simp only [processEach, bind_eq_ok, pure_eq_ok, Prod.exists, Prod.mk.injEq] at hrun
    obtain ⟨d, kept, -, h₁, out₁, hrest, -, rfl⟩ := hrun
    intro r' hr'
    cases kept
    · exact List.mem_cons_of_mem _ (ih hrest r' hr')
    · rcases List.mem_cons.mp hr' with rfl | hr'
      · exact List.mem_cons_self
      · exact List.mem_cons_of_mem _ (ih hrest r' hr')

section Trees

variable (account : Account) (manager : List Node)

/-- `process` of a filter on keys. -/
def KeysFilter.process (self : Nat) (h : Heap Entry) (rs : List Ref) :
    KeysFilter → Except Exn (Heap Entry × List Ref)
  | .credential key test => processEach (credentialStep account manager self key test) h rs
  | .accessKey matchOperator test => do
    let (h, _) ← processEach (augmentStep account) h rs
    processEach (accessKeyStep manager self matchOperator test) h rs

def KeysFilter.leafFilter (self : Nat) (f : KeysFilter) : LeafFilter Entry where
  process h rs := f.process account manager self h rs
  selects h rs h' out hrun := by
    cases f with
    | credential key test => exact processEach_subset hrun
    | accessKey matchOperator test =>
      simp only [KeysFilter.process, bind_eq_ok] at hrun
      obtain ⟨p, -, hrun⟩ := hrun
      exact processEach_subset hrun

mutual
/-- The filter that a node is, in a policy with the filters `manager`. -/
def Node.filterTree : Node → FilterTree Entry
  | .leaf id f => .leaf (f.leafFilter account manager id)
  | .block .and fs => .and (filterTrees fs)
  | .block .or fs => .or (filterTrees fs)
  | .block .not fs => .not (filterTrees fs)

def filterTrees : List Node → List (FilterTree Entry)
  | [] => []
  | f :: fs => f.filterTree :: filterTrees fs
end

end Trees

/-! ## Policies of `and` and `or` groups -/

def blockType : Op → BlockType
  | .and => .and
  | .or => .or

mutual
/-- The objects that are made for a filter and its members; `id` is the next one. -/
def parse (id : Nat) : AndOr KeysFilter → Node × Nat
  | .leaf f => (.leaf id f, id + 1)
  | .group op t ts =>
    let first := parse id t
    let rest := parseAll first.2 ts
    (.block (blockType op) (first.1 :: rest.1), rest.2)

def parseAll (id : Nat) : List (AndOr KeysFilter) → List Node × Nat
  | [] => ([], id)
  | t :: ts =>
    let node := parse id t
    let nodes := parseAll node.2 ts
    (node.1 :: nodes.1, nodes.2)
end

/-- The filters of a policy run on users: `ResourceManager.filter_resources`. -/
def filterUsers (account : Account) (order : SetOrder Entry) (filters : List (AndOr KeysFilter))
    (h : Heap Entry) (rs : List Ref) : Except Exn (Heap Entry × List Ref) :=
  let manager := (parseAll 0 filters).1
  filterResources userModel order (filterTrees account manager manager) h rs

/-! ## The operator of a block -/

/-- Induction over a filter with one hypothesis for every member of a block. -/
@[elab_as_elim]
theorem Node.induct {motive : Node → Prop} (leaf : ∀ id f, motive (.leaf id f))
    (block : ∀ type fs, (∀ f ∈ fs, motive f) → motive (.block type fs)) (f : Node) : motive f :=
  @Node.rec motive (fun fs => ∀ f ∈ fs, motive f) leaf block (List.forall_mem_nil _)
    (fun _ _ hf hfs => List.forall_mem_cons.mpr ⟨hf, hfs⟩) f

mutual
/-- The filters on keys of a filter in a block, each with the type of its own block. -/
def Node.blockTypes (type : BlockType) : Node → List (Nat × BlockType)
  | .leaf id _ => [(id, type)]
  | .block type' fs => blockTypesAll type' fs

def blockTypesAll (type : BlockType) : List Node → List (Nat × BlockType)
  | [] => []
  | f :: fs => f.blockTypes type ++ blockTypesAll type fs
end

/-- The objects of a list of filters. -/
def idsAll (fs : List Node) : List Nat := (blockTypesAll .and fs).map Prod.fst

def Node.ids (f : Node) : List Nat := (f.blockTypes .and).map Prod.fst

theorem Node.map_fst_blockTypes (f : Node) (type : BlockType) :
    (f.blockTypes type).map Prod.fst = f.ids := by
  cases f with
  | leaf id g => rfl
  | block type' fs => rfl

theorem map_fst_blockTypesAll (fs : List Node) (type : BlockType) :
    (blockTypesAll type fs).map Prod.fst = idsAll fs := by
  rw [idsAll]
  induction fs with
  | nil => rfl
  | cons f fs ih =>
    rw [blockTypesAll, List.map_append, f.map_fst_blockTypes, ih, blockTypesAll, List.map_append,
      f.map_fst_blockTypes]

theorem idsAll_cons (f : Node) (fs : List Node) : idsAll (f :: fs) = f.ids ++ idsAll fs := by
  rw [idsAll, blockTypesAll, List.map_append, idsAll, Node.ids]

theorem Node.ids_block (type : BlockType) (fs : List Node) :
    (Node.block type fs).ids = idsAll fs := by
  rw [Node.ids, Node.blockTypes, map_fst_blockTypesAll]

theorem blockParent_iterLast_of_notMem {self : Nat} {fs : List Node}
    (h : ∀ f ∈ fs, self ∉ f.ids → ∀ es stack,
      blockParent self (f.iterFilters ++ es) stack = blockParent self es stack)
    (hself : self ∉ idsAll fs) (es : List (Option Node)) (stack : List BlockType) :
    blockParent self (iterLast fs ++ es) stack = blockParent self es stack := by
  induction fs generalizing es with
  | nil => rfl
  | cons f fs ih =>
    obtain ⟨hf, hfs⟩ := List.forall_mem_cons.mp h
    rw [idsAll_cons, List.mem_append, not_or] at hself
    rw [iterLast, List.append_assoc, ih hfs hself.2, hf hself.1]

theorem Node.blockParent_of_notMem {self : Nat} {f : Node} (hself : self ∉ f.ids)
    (es : List (Option Node)) (stack : List BlockType) :
    blockParent self (f.iterFilters ++ es) stack = blockParent self es stack := by
  induction f using Node.induct generalizing es stack with
  | leaf id g =>
    have hne : ¬ id = self := fun he => hself (he ▸ List.mem_singleton_self id)
    rw [Node.iterFilters, List.singleton_append, blockParent, if_neg hne]
  | block type fs ih =>
    rw [Node.ids_block] at hself
    rw [Node.iterFilters, List.cons_append, blockParent, List.append_assoc,
      blockParent_iterLast_of_notMem (fun f hf hs es stack => ih f hf hs es stack) hself,
      List.singleton_append, blockParent, List.tail_cons]

/-- The answer `some none` of the loop means the manager, whose operator is `and`. -/
def Finds (parent : Option (Option BlockType)) (type : BlockType) : Prop :=
  ∃ block, parent = some block ∧ block.getD .and = type

theorem finds_iterLast {self : Nat} {type : BlockType} {fs : List Node} {stack : List BlockType}
    (h : ∀ f ∈ fs, (self, type) ∈ f.blockTypes (stack.head?.getD .and) → f.ids.Nodup →
      ∀ es, Finds (blockParent self (f.iterFilters ++ es) stack) type)
    (hself : (self, type) ∈ blockTypesAll (stack.head?.getD .and) fs) (hnodup : (idsAll fs).Nodup)
    (es : List (Option Node)) : Finds (blockParent self (iterLast fs ++ es) stack) type := by
  induction fs generalizing es with
  | nil => exact absurd hself List.not_mem_nil
  | cons f fs ih =>
    obtain ⟨hf, hfs⟩ := List.forall_mem_cons.mp h
    rw [idsAll_cons, List.nodup_append] at hnodup
    obtain ⟨hnf, hnfs, hdisjoint⟩ := hnodup
    rw [blockTypesAll, List.mem_append] at hself
    rw [iterLast, List.append_assoc]
    rcases hself with hself | hself
    · have hmem : self ∈ f.ids := f.map_fst_blockTypes _ ▸ List.mem_map_of_mem hself
      have hnot : self ∉ idsAll fs := fun hin => hdisjoint self hmem self hin rfl
      rw [blockParent_iterLast_of_notMem (fun f _ => f.blockParent_of_notMem) hnot]
      exact hf hself hnf es
    · exact ih hfs hself hnfs _

theorem Node.finds {self : Nat} {type : BlockType} {f : Node} {stack : List BlockType}
    (hself : (self, type) ∈ f.blockTypes (stack.head?.getD .and)) (hnodup : f.ids.Nodup)
    (es : List (Option Node)) : Finds (blockParent self (f.iterFilters ++ es) stack) type := by
  induction f using Node.induct generalizing es stack with
  | leaf id g =>
    obtain ⟨rfl, rfl⟩ := Prod.mk.inj (List.mem_singleton.mp hself)
    rw [Node.iterFilters, List.singleton_append, blockParent, if_pos rfl]
    exact ⟨_, rfl, rfl⟩
  | block type' fs ih =>
    rw [Node.ids_block] at hnodup
    have hmember : ∀ es', Finds (blockParent self (iterLast fs ++ es') (type' :: stack)) type :=
      finds_iterLast (fun f hf hs hn es => ih f hf hs hn es) (by rwa [Node.blockTypes] at hself)
        hnodup
    rw [Node.iterFilters, List.cons_append, blockParent, List.append_assoc]
    exact hmember _

/-- **The block of a filter.**  In a policy whose filters are distinct objects, each filter on keys
gets the type of the block that it stands in, and `and` at the top level. -/
theorem getBlockOperator_spec {manager : List Node} (hnodup : (idsAll manager).Nodup) {self : Nat}
    {type : BlockType} (hself : (self, type) ∈ blockTypesAll .and manager) :
    getBlockOperator manager self = .ok type := by
  have hfinds : Finds (blockParent self (manager.flatMap Node.iterFilters ++ []) []) type := by
    generalize ([] : List (Option Node)) = es
    induction manager generalizing es with
    | nil => exact absurd hself List.not_mem_nil
    | cons f fs ih =>
      rw [idsAll_cons, List.nodup_append] at hnodup
      obtain ⟨hnf, hnfs, hdisjoint⟩ := hnodup
      rw [blockTypesAll, List.mem_append] at hself
      rw [List.flatMap_cons, List.append_assoc]
      rcases hself with hself | hself
      · exact f.finds hself hnf _
      · have hmem : self ∈ idsAll fs := map_fst_blockTypesAll fs _ ▸ List.mem_map_of_mem hself
        rw [f.blockParent_of_notMem fun hin => hdisjoint self hin self hmem rfl]
        exact ih hnfs hself es
  obtain ⟨block, hblock, rfl⟩ := hfinds
  rw [List.append_nil] at hblock
  rw [getBlockOperator, hblock]

theorem parseAll_ids {ts : List (AndOr KeysFilter)}
    (h : ∀ t ∈ ts, ∀ id, ∃ n, (parse id t).2 = id + n ∧ (parse id t).1.ids = List.range' id n)
    (id : Nat) :
    ∃ n, (parseAll id ts).2 = id + n ∧ idsAll (parseAll id ts).1 = List.range' id n := by
  induction ts generalizing id with
  | nil => exact ⟨0, rfl, rfl⟩
  | cons t ts ih =>
    obtain ⟨ht, hts⟩ := List.forall_mem_cons.mp h
    obtain ⟨n, hnext, hids⟩ := ht id
    obtain ⟨n', hnext', hids'⟩ := ih hts (id + n)
    refine ⟨n + n', ?_, ?_⟩
    · rw [parseAll, hnext, hnext', Nat.add_assoc]
    · rw [parseAll, idsAll_cons, hnext, hids, hids', List.range'_append_1]

theorem parse_ids (t : AndOr KeysFilter) (id : Nat) :
    ∃ n, (parse id t).2 = id + n ∧ (parse id t).1.ids = List.range' id n := by
  induction t using AndOr.induct generalizing id with
  | leaf f => exact ⟨1, rfl, rfl⟩
  | group op t ts iht ihts =>
    have hmembers : ∀ u ∈ t :: ts, ∀ id, ∃ n, (parse id u).2 = id + n ∧
        (parse id u).1.ids = List.range' id n := List.forall_mem_cons.mpr ⟨iht, ihts⟩
    obtain ⟨n, hnext, hids⟩ := parseAll_ids hmembers id
    rw [parseAll] at hnext hids
    exact ⟨n, by rw [parse, hnext], by rw [parse, Node.ids_block, hids]⟩

theorem nodup_ids_parseAll (ts : List (AndOr KeysFilter)) : (idsAll (parseAll 0 ts).1).Nodup := by
  obtain ⟨n, -, hids⟩ := parseAll_ids (fun t (_ : t ∈ ts) => parse_ids t) 0
  rw [hids]
  exact List.nodup_range'

/-! ## One user -/

/-- What a filter looks at for a user: the keys, or those annotated before if there are any. -/
structure Look (K : Type) where
  keys : Option (List K)
  narrow : Bool
  holds : K → Bool

section Run

variable {K : Type} [DecidableEq K]

def Look.matched (l : Look K) (keys : List K) (old : Option (List K)) : List K :=
  (if l.narrow then old.getD keys else keys).filter l.holds

mutual
/-- Whether a filter in a group of `op` keeps the user, and the annotation that it leaves. -/
def run (op : Op) : AndOr (Look K) → Option (List K) → Bool × Option (List K)
  | .leaf l, old =>
    match l.keys with
    | none => (false, old)
    | some ks =>
      (!(l.matched ks old).isEmpty, some (merge (blockType op) (l.matched ks old) old))
  | .group .and t ts, old =>
    let p := if (run .and t old).1 then runEach ts (run .and t old).2 else run .and t old
    (p.1, if p.1 then p.2 else old)
  | .group .or t ts, old =>
    let p := runAny ts (run .or t old).2
    ((run .or t old).1 || p.1, p.2)

/-- One after the other, up to the first that does not keep the user. -/
def runEach : List (AndOr (Look K)) → Option (List K) → Bool × Option (List K)
  | [], old => (true, old)
  | t :: ts, old => if (run .and t old).1 then runEach ts (run .and t old).2 else run .and t old

/-- All of them. -/
def runAny : List (AndOr (Look K)) → Option (List K) → Bool × Option (List K)
  | [], old => (false, old)
  | t :: ts, old =>
    ((run .or t old).1 || (runAny ts (run .or t old).2).1, (runAny ts (run .or t old).2).2)
end

theorem run_and (op : Op) (t : AndOr (Look K)) (ts : List (AndOr (Look K)))
    (old : Option (List K)) : run op (.group .and t ts) old =
      ((runEach (t :: ts) old).1,
        if (runEach (t :: ts) old).1 then (runEach (t :: ts) old).2 else old) := by
  rw [run, runEach]

theorem run_or (op : Op) (t : AndOr (Look K)) (ts : List (AndOr (Look K)))
    (old : Option (List K)) : run op (.group .or t ts) old = runAny (t :: ts) old := by
  rw [run, runAny]

end Run

/-- What a filter looks at for a user of the account. -/
def KeysFilter.look (account : Account) (name : Text) : KeysFilter → Look MatchedKey
  | .credential key test =>
    ⟨(account.report name).map (List.map .credential), false, fun
      | .credential k => test (k.get key)
      | .access _ => false⟩
  | .accessKey matchOperator test =>
    ⟨some ((account.listAccessKeys name).map .access), matchOperator = .and, test⟩

/-! ## The steps on a user -/

/-- A user, whose keys are as they were listed if they are there. -/
structure User (account : Account) (name : Text) (r : Resource Entry) : Prop where
  named : r.lookup userNameKey = some (.text name)
  listed : ∀ v, r.lookup accessKeysKey = some v → v = .accessKeys (account.listAccessKeys name)

/-- A step on a user writes annotations only, and keeps and annotates it as told. -/
structure Steps (account : Account) (name : Text)
    (does : Option (List MatchedKey) → Bool × Option (List MatchedKey))
    (r d : Resource Entry) (kept : Bool) : Prop where
  agree : Dict.AgreeOn (annotationKey · = false) r d
  user : User account name d
  does : does (matchedKeys r) = (kept, matchedKeys d)

variable {account : Account} {name : Text}

theorem userName_of_user {r : Resource Entry} (hr : User account name r) :
    userName r = .ok name := by rw [userName, hr.named]

theorem User.insert {r : Resource Entry} (hr : User account name r) {k : Text} {v : Entry}
    (hname : userNameKey ≠ k)
    (hkeys : k = accessKeysKey → v = .accessKeys (account.listAccessKeys name)) :
    User account name (r.insert k v) := by
  refine ⟨by rw [AList.lookup_insert_ne hname, hr.named], fun w hw => ?_⟩
  by_cases hk : accessKeysKey = k
  · subst hk
    rw [AList.lookup_insert, Option.some.injEq] at hw
    exact hw ▸ hkeys rfl
  · rw [AList.lookup_insert_ne hk] at hw
    exact hr.listed w hw

theorem agreeOn_insert {r : Resource Entry} {k : Text} {v : Entry} (hk : annotationKey k = true) :
    Dict.AgreeOn (annotationKey · = false) r (r.insert k v) := by
  intro k' hk'
  have hne : k' ≠ k := fun he => by simp [he, hk] at hk'
  rw [AList.lookup_insert_ne hne]

theorem matchedKeys_insert (r : Resource Entry) (ks : List MatchedKey) :
    matchedKeys (r.insert matchedAnnotationKey (.matchedKeys ks)) = some ks := by
  rw [matchedKeys, AList.lookup_insert]

theorem matchedKeys_insert_ne (r : Resource Entry) {k : Text} (v : Entry)
    (hk : matchedAnnotationKey ≠ k) : matchedKeys (r.insert k v) = matchedKeys r := by
  rw [matchedKeys, AList.lookup_insert_ne hk, matchedKeys]

variable {manager : List Node} {self : Nat} {op : Op}

theorem mergeAnnotation_eq (hop : getBlockOperator manager self = .ok (blockType op))
    (r : Resource Entry) (values : List MatchedKey) : mergeAnnotation manager self r values =
      .ok (r.insert matchedAnnotationKey
        (.matchedKeys (merge (blockType op) values (matchedKeys r)))) := by
  unfold mergeAnnotation
  rw [hop]
  rfl

theorem Steps.merge {does : Option (List MatchedKey) → Bool × Option (List MatchedKey)}
    {r : Resource Entry} (hr : User account name r) {kept : Bool} {ks : List MatchedKey}
    (hdoes : does (matchedKeys r) = (kept, some ks)) :
    Steps account name does r (r.insert matchedAnnotationKey (.matchedKeys ks)) kept := by
  refine ⟨agreeOn_insert (by decide), hr.insert (by decide) fun he => absurd he (by decide), ?_⟩
  rw [hdoes, matchedKeys_insert]

theorem Steps.report {does : Option (List MatchedKey) → Bool × Option (List MatchedKey)}
    {r d : Resource Entry} {kept : Bool} (hd : Steps account name does r d kept) (v : Entry) :
    Steps account name does r (d.insert credentialReportKey v) kept := by
  refine ⟨hd.agree.trans (agreeOn_insert (by decide)),
    hd.user.insert (by decide) fun he => absurd he (by decide), ?_⟩
  rw [matchedKeys_insert_ne _ _ (by decide), hd.does]

theorem credentialStep_spec (hop : getBlockOperator manager self = .ok (blockType op))
    (key : Attribute) (test : Value → Bool) {r : Resource Entry} (hr : User account name r) :
    ∃ d kept, credentialStep account manager self key test r = .ok (d, kept) ∧
      Steps account name (run op (.leaf ((KeysFilter.credential key test).look account name)))
        r d kept := by
  rw [credentialStep, userName_of_user hr]
  simp only [bind, Except.bind]
  cases hinfo : account.report name with
  | none =>
    refine ⟨r, false, rfl, fun _ _ => rfl, hr, ?_⟩
    rw [run, KeysFilter.look, hinfo]
    rfl
  | some info =>
    have hlook : ((KeysFilter.credential key test).look account name).matched
        (info.map .credential) (matchedKeys r) =
          (info.filter fun v => test (v.get key)).map .credential := by
      rw [Look.matched, KeysFilter.look, if_neg Bool.false_ne_true, List.filter_map]
      rfl
    have hdoes : run op (.leaf ((KeysFilter.credential key test).look account name))
        (matchedKeys r) = (!((info.filter fun v => test (v.get key)).map
          MatchedKey.credential).isEmpty, some (merge (blockType op)
            ((info.filter fun v => test (v.get key)).map .credential) (matchedKeys r))) := by
      rw [← hlook, run, KeysFilter.look, hinfo]
      rfl
    rw [matchInfo, mergeAnnotation_eq hop]
    simp only [bind, Except.bind, pure, Except.pure]
    have hsteps := Steps.merge hr hdoes
    cases hkept : !((info.filter fun v => test (v.get key)).map MatchedKey.credential).isEmpty
    · exact ⟨_, false, rfl, hkept ▸ hsteps⟩
    · exact ⟨_, true, rfl, (hkept ▸ hsteps).report _⟩

theorem augmentStep_spec {r : Resource Entry} (hr : User account name r) :
    ∃ d, augmentStep account r = .ok (d, true) ∧ Dict.AgreeOn (annotationKey · = false) r d ∧
      User account name d ∧ matchedKeys d = matchedKeys r ∧
      d.lookup accessKeysKey = some (.accessKeys (account.listAccessKeys name)) := by
  rw [augmentStep]
  cases hkeys : r.lookup accessKeysKey with
  | none =>
    rw [userName_of_user hr]
    exact ⟨_, rfl, agreeOn_insert (by decide), hr.insert (by decide) fun _ => rfl,
      matchedKeys_insert_ne _ _ (by decide), AList.lookup_insert _⟩
  | some v => exact ⟨r, rfl, fun _ _ => rfl, hr, rfl, by rw [hkeys, hr.listed v hkeys]⟩

theorem accessKeyStep_spec (hop : getBlockOperator manager self = .ok (blockType op))
    (matchOperator : Op) (test : MatchedKey → Bool) {r : Resource Entry}
    (hr : User account name r)
    (hkeys : r.lookup accessKeysKey = some (.accessKeys (account.listAccessKeys name))) :
    ∃ d kept, accessKeyStep manager self matchOperator test r = .ok (d, kept) ∧
      Steps account name
        (run op (.leaf ((KeysFilter.accessKey matchOperator test).look account name)))
        r d kept := by
  have hlook : ((match matchedKeys r, matchOperator with
      | some ks, .and => ks
      | _, _ => (account.listAccessKeys name).map MatchedKey.access).filter test) =
      ((KeysFilter.accessKey matchOperator test).look account name).matched
        ((account.listAccessKeys name).map .access) (matchedKeys r) := by
    rw [Look.matched, KeysFilter.look]
    cases matchOperator <;> cases matchedKeys r <;> rfl
  rw [accessKeyStep, hkeys]
  simp only [bind, Except.bind, pure, Except.pure]
  rw [hlook, mergeAnnotation_eq hop]
  refine ⟨_, _, rfl, Steps.merge hr ?_⟩
  rw [run]
  rfl

/-! ## The filters on all users -/

/-- Distinct users. -/
structure Users (account : Account) (name : Ref → Text) (h : Heap Entry) (rs : List Ref) :
    Prop where
  nodup : rs.Nodup
  apart : ∀ r ∈ rs, ∀ r' ∈ rs, name r' = name r → r' = r
  user : ∀ r ∈ rs, User account (name r) (h r)

/-- From `h` to `h'` the users `rs` were annotated and `out` of them kept, each as told of it alone,
and nothing else was changed. -/
structure Ran (account : Account) (name : Ref → Text)
    (does : Ref → Option (List MatchedKey) → Bool × Option (List MatchedKey))
    (h : Heap Entry) (rs : List Ref) (h' : Heap Entry) (out : List Ref) : Prop where
  frame : Frame userModel h h'
  users : Users account name h' rs
  nodup : out.Nodup
  mem : ∀ r, r ∈ out ↔ r ∈ rs ∧ (does r (matchedKeys (h r))).1 = true
  matched : ∀ r ∈ rs, matchedKeys (h' r) = (does r (matchedKeys (h r))).2
  other : ∀ r ∉ rs, h' r = h r

variable {names : Ref → Text}

theorem idKey_userModel : userModel.idKey = userNameKey := by decide

theorem typeId_user {r : Resource Entry} (hr : User account name r) :
    typeId userModel r = .ok (.text name) := by
  have hplain : '.' ∉ userModel.id := by decide
  have hlookup : r.lookup userModel.id = some (.text name) := hr.named
  rw [typeId, if_neg hplain, hlookup]

theorem Users.identified {h : Heap Entry} {rs : List Ref} (hu : Users account names h rs) :
    Identified userModel h rs := by
  intro r hr
  refine ⟨.text (names r), typeId_user (hu.user r hr), fun r' hr' hid => ?_⟩
  rw [typeId_user (hu.user r' hr'), Except.ok.injEq, Entry.text.injEq] at hid
  exact hu.apart r hr r' hr' hid

theorem Users.subset {h : Heap Entry} {rs out : List Ref} (hu : Users account names h rs)
    (hn : out.Nodup) (hsub : ∀ r ∈ out, r ∈ rs) : Users account names h out :=
  ⟨hn, fun r hr r' hr' => hu.apart r (hsub r hr) r' (hsub r' hr'),
    fun r hr => hu.user r (hsub r hr)⟩

theorem processEach_spec {step : Resource Entry → Except Exn (Resource Entry × Bool)}
    {h : Heap Entry} {rs : List Ref} (hn : rs.Nodup) {d : Ref → Resource Entry} {b : Ref → Bool}
    (hstep : ∀ r ∈ rs, step (h r) = .ok (d r, b r)) :
    ∃ h', processEach step h rs = .ok (h', rs.filter b) ∧ (∀ r ∈ rs, h' r = d r) ∧
      ∀ r ∉ rs, h' r = h r := by
  induction rs generalizing h with
  | nil => exact ⟨h, rfl, List.forall_mem_nil _, fun _ _ => rfl⟩
  | cons r rs ih =>
    obtain ⟨hr, hrs⟩ := List.forall_mem_cons.mp hstep
    obtain ⟨hno, hn⟩ := List.nodup_cons.mp hn
    have hstep' : ∀ r' ∈ rs, step (Function.update h r (d r) r') = .ok (d r', b r') := by
      intro r' hr'
      have hne : r' ≠ r := fun he => hno (he ▸ hr')
      rw [Function.update_of_ne hne]
      exact hrs r' hr'
    obtain ⟨h', hrun, hin, hout⟩ := ih hn hstep'
    refine ⟨h', ?_, List.forall_mem_cons.mpr ⟨?_, hin⟩, fun r' hr' => ?_⟩
    · rw [processEach, hr]
      simp only [bind, Except.bind, hrun, pure, Except.pure, List.filter_cons]
    · rw [hout r hno, Function.update_self]
    · rw [List.mem_cons, not_or] at hr'
      rw [hout r' hr'.2, Function.update_of_ne hr'.1]

theorem ran_of_steps {step : Resource Entry → Except Exn (Resource Entry × Bool)}
    {does : Ref → Option (List MatchedKey) → Bool × Option (List MatchedKey)}
    {h : Heap Entry} {rs : List Ref} (hu : Users account names h rs)
    (hstep : ∀ r ∈ rs, ∃ d kept, step (h r) = .ok (d, kept) ∧
      Steps account (names r) (does r) (h r) d kept) :
    ∃ h' out, processEach step h rs = .ok (h', out) ∧ Ran account names does h rs h' out ∧
      ∀ r ∈ rs, ∃ kept, step (h r) = .ok (h' r, kept) := by
  have hchoice : ∀ r, ∃ p : Resource Entry × Bool, r ∈ rs → step (h r) = .ok p ∧
      Steps account (names r) (does r) (h r) p.1 p.2 := by
    intro r
    by_cases hr : r ∈ rs
    · obtain ⟨d, kept, hs⟩ := hstep r hr
      exact ⟨(d, kept), fun _ => hs⟩
    · exact ⟨(h r, false), fun hin => absurd hin hr⟩
  choose p hp using hchoice
  obtain ⟨h', hrun, hin, hout⟩ := processEach_spec hu.nodup (d := fun r => (p r).1)
    (b := fun r => (p r).2) fun r hr => (hp r hr).1
  refine ⟨h', _, hrun, ⟨?_, ⟨hu.nodup, hu.apart, fun r hr => ?_⟩, hu.nodup.filter _, fun r => ?_,
    fun r hr => ?_, hout⟩, fun r hr => ⟨(p r).2, by rw [hin r hr, (hp r hr).1]⟩⟩
  · intro r k hk
    by_cases hr : r ∈ rs
    · rw [hin r hr]
      refine (hp r hr).2.agree k ?_
      rcases hk with hk | rfl
      · exact hk
      · rw [idKey_userModel]
        decide
    · rw [hout r hr]
  · rw [hin r hr]
    exact (hp r hr).2.user
  · rw [List.mem_filter]
    refine and_congr_right fun hr => ?_
    rw [(hp r hr).2.does]
  · rw [hin r hr, (hp r hr).2.does]

/-- The filters of a kind do with each user what is told of it. -/
def Does (account : Account) (names : Ref → Text) (order : SetOrder Entry) (tree : FilterTree Entry)
    (does : Ref → Option (List MatchedKey) → Bool × Option (List MatchedKey)) : Prop :=
  ∀ h rs, Users account names h rs → ∃ h' out, tree.process userModel order h rs = .ok (h', out) ∧
    Ran account names does h rs h' out

variable {order : SetOrder Entry}

theorem leaf_does (hop : getBlockOperator manager self = .ok (blockType op)) (f : KeysFilter) :
    Does account names order (.leaf (f.leafFilter account manager self))
      fun r => run op (.leaf (f.look account (names r))) := by
  intro h rs hu
  rw [FilterTree.process]
  cases f with
  | credential key test =>
    obtain ⟨h', out, hrun, hran, -⟩ :=
      ran_of_steps hu fun r hr => credentialStep_spec hop key test (hu.user r hr)
    exact ⟨h', out, hrun, hran⟩
  | accessKey matchOperator test =>
    have haugment : ∀ r ∈ rs, ∃ d kept, augmentStep account (h r) = .ok (d, kept) ∧
        Steps account (names r) (fun old => (true, old)) (h r) d kept := by
      intro r hr
      obtain ⟨d, hd, hagree, huser, hmatched, -⟩ := augmentStep_spec (hu.user r hr)
      exact ⟨d, true, hd, hagree, huser, by rw [hmatched]⟩
    obtain ⟨h₁, out₁, hrun₁, hran₁, hstep₁⟩ := ran_of_steps hu haugment
    have hkeys : ∀ r ∈ rs, (h₁ r).lookup accessKeysKey =
        some (.accessKeys (account.listAccessKeys (names r))) := by
      intro r hr
      obtain ⟨d, hd, -, -, -, hlookup⟩ := augmentStep_spec (hu.user r hr)
      obtain ⟨kept, hstep⟩ := hstep₁ r hr
      rw [hd, Except.ok.injEq, Prod.mk.injEq] at hstep
      rw [← hstep.1, hlookup]
    obtain ⟨h₂, out₂, hrun₂, hran₂, -⟩ := ran_of_steps hran₁.users fun r hr =>
      accessKeyStep_spec hop matchOperator test (hran₁.users.user r hr) (hkeys r hr)
    refine ⟨h₂, out₂, ?_, hran₁.frame.trans hran₂.frame, hran₂.users, hran₂.nodup, fun r => ?_,
      fun r hr => ?_, fun r hr => ?_⟩
    · simp only [KeysFilter.leafFilter, KeysFilter.process, hrun₁, bind, Except.bind]
      exact hrun₂
    · rw [hran₂.mem]
      exact and_congr_right fun hr => by rw [hran₁.matched r hr]
    · rw [hran₂.matched r hr, hran₁.matched r hr]
    · rw [hran₂.other r hr, hran₁.other r hr]

/-! ## Blocks -/

theorem Users.of_ran {h₁ h₂ : Heap Entry} {rs out : List Ref} (hu : Users account names h₁ rs)
    (hout : Users account names h₂ out) (hother : ∀ r ∉ out, h₂ r = h₁ r) :
    Users account names h₂ rs := by
  refine ⟨hu.nodup, hu.apart, fun r hr => ?_⟩
  by_cases hin : r ∈ out
  · exact hout.user r hin
  · rw [hother r hin]
    exact hu.user r hr

variable {does₁ does₂ : Ref → Option (List MatchedKey) → Bool × Option (List MatchedKey)}
  {h h₁ h₂ : Heap Entry} {rs out₁ out₂ : List Ref}

theorem Ran.seq (hran₁ : Ran account names does₁ h rs h₁ out₁)
    (hran₂ : Ran account names does₂ h₁ out₁ h₂ out₂) :
    Ran account names (fun r old =>
      if (does₁ r old).1 then does₂ r (does₁ r old).2 else does₁ r old) h rs h₂ out₂ := by
  refine ⟨hran₁.frame.trans hran₂.frame, .of_ran hran₁.users hran₂.users hran₂.other,
    hran₂.nodup, fun r => ?_, fun r hr => ?_, fun r hr => ?_⟩
  · rw [hran₂.mem, hran₁.mem, and_assoc]
    refine and_congr_right fun hr => ?_
    rw [hran₁.matched r hr]
    cases hkept : (does₁ r (matchedKeys (h r))).1 <;> simp [hkept]
  · by_cases hkept : (does₁ r (matchedKeys (h r))).1 = true
    · rw [hran₂.matched r ((hran₁.mem r).mpr ⟨hr, hkept⟩), hran₁.matched r hr, if_pos hkept]
    · rw [hran₂.other r fun hin => hkept ((hran₁.mem r).mp hin).2, hran₁.matched r hr, if_neg hkept]
  · rw [hran₂.other r fun hin => hr ((hran₁.mem r).mp hin).1, hran₁.other r hr]

theorem Ran.nil {does : Ref → Option (List MatchedKey) → Bool × Option (List MatchedKey)}
    (hu : Users account names h []) : Ran account names does h [] h [] :=
  ⟨.refl _ _, hu, List.nodup_nil, fun r => by simp, List.forall_mem_nil _, fun _ _ => rfl⟩

theorem Ran.all (hu : Users account names h rs) :
    Ran account names (fun _ old => (true, old)) h rs h rs :=
  ⟨.refl _ _, hu, hu.nodup, fun r => by simp, fun _ _ => rfl, fun _ _ => rfl⟩

theorem Ran.par (hran₁ : Ran account names does₁ h rs h₁ out₁)
    (hran₂ : Ran account names does₂ h₁ rs h₂ out₂) :
    Ran account names (fun r old =>
      ((does₁ r old).1 || (does₂ r (does₁ r old).2).1, (does₂ r (does₁ r old).2).2)) h rs h₂
      (rs.filter fun r => decide (r ∈ out₁ ∨ r ∈ out₂)) := by
  refine ⟨hran₁.frame.trans hran₂.frame, hran₂.users, hran₂.users.nodup.filter _, fun r => ?_,
    fun r hr => ?_, fun r hr => ?_⟩
  · rw [List.mem_filter, decide_eq_true_eq, Bool.or_eq_true]
    refine and_congr_right fun hr => ?_
    rw [hran₁.mem, hran₂.mem, hran₁.matched r hr]
    simp only [hr, true_and]
  · rw [hran₂.matched r hr, hran₁.matched r hr]
  · rw [hran₂.other r hr, hran₁.other r hr]

variable (order) in
theorem Ran.sweep {s : AnnotationSweeper Entry} (hu : Users account names h rs)
    (hs : AnnotationSweeper.init userModel h rs = .ok s)
    (hran : Ran account names does₁ h rs h₁ out₁) :
    ∃ h₂, s.sweep userModel order h₁ out₁ = .ok h₂ ∧ Ran account names (fun r old =>
      ((does₁ r old).1, if (does₁ r old).1 then (does₁ r old).2 else old)) h rs h₂ out₁ := by
  obtain ⟨h₂, hsweep, hin, hout⟩ := sweep_spec order hs hu.identified hran.frame
    fun r hr => ((hran.mem r).mp hr).1
  refine ⟨h₂, hsweep, frame_of_sweep hran.frame hin hout,
    ⟨hu.nodup, hu.apart, fun r hr => ?_⟩, hran.nodup, hran.mem, fun r hr => ?_, fun r hr => ?_⟩
  · by_cases hkept : r ∈ out₁
    · rw [hout r (Or.inr hkept)]
      exact hran.users.user r hr
    · rw [hin r hr hkept]
      refine ⟨?_, fun v hv => (hu.user r hr).listed v ?_⟩
      · rw [lookup_restored, if_neg (by decide), (hran.users.user r hr).named]
      · rwa [lookup_restored, if_pos (by decide)] at hv
  · by_cases hkept : r ∈ out₁
    · rw [hout r (Or.inr hkept), hran.matched r hr, if_pos ((hran.mem r).mp hkept).2]
    · have hdrop : ¬ (does₁ r (matchedKeys (h r))).1 = true := fun hk =>
        hkept ((hran.mem r).mpr ⟨hr, hk⟩)
      rw [hin r hr hkept, if_neg hdrop, matchedKeys, lookup_restored, if_pos (by decide),
        matchedKeys]
  · rw [hout r (Or.inl hr), hran.other r hr]

/-- The filters of a list, in a block of `and`, or of the policy. -/
def runMembers (account : Account) (names : Ref → Text) (ts : List (AndOr KeysFilter)) (r : Ref) :
    List (AndOr (Look MatchedKey)) := ts.map (AndOr.map (KeysFilter.look account (names r)))

/-- A filter and its members do what `run` says. -/
def Runs (account : Account) (manager : List Node) (names : Ref → Text) (order : SetOrder Entry)
    (t : AndOr KeysFilter) : Prop :=
  ∀ op id, (∀ p ∈ (parse id t).1.blockTypes (blockType op),
      getBlockOperator manager p.1 = .ok p.2) →
    Does account names order ((parse id t).1.filterTree account manager)
      fun r => run op (t.map (KeysFilter.look account (names r)))

theorem andLoop_spec {ts : List (AndOr KeysFilter)}
    (hts : ∀ t ∈ ts, Runs account manager names order t) {id : Nat}
    (hops : ∀ p ∈ blockTypesAll .and (parseAll id ts).1, getBlockOperator manager p.1 = .ok p.2)
    (hu : Users account names h rs) :
    ∃ h' out, andLoop userModel order (filterTrees account manager (parseAll id ts).1) h rs =
      .ok (h', out) ∧
      Ran account names (fun r => runEach (runMembers account names ts r)) h rs h' out := by
  induction ts generalizing id h rs with
  | nil => exact ⟨h, rs, rfl, .all hu⟩
  | cons t ts ih =>
    obtain ⟨ht, hts⟩ := List.forall_mem_cons.mp hts
    rw [parseAll, blockTypesAll] at hops
    obtain ⟨h₁, out₁, hrun₁, hran₁⟩ := ht .and id
      (fun p hp => hops p (List.mem_append_left _ hp)) h rs hu
    have hu₁ : Users account names h₁ out₁ :=
      hran₁.users.subset hran₁.nodup fun r hr => ((hran₁.mem r).mp hr).1
    rw [parseAll, filterTrees, andLoop, hrun₁]
    simp only [bind, Except.bind]
    by_cases hempty : out₁.isEmpty = true
    · rw [if_pos hempty]
      obtain rfl := List.isEmpty_iff.mp hempty
      exact ⟨h₁, [], rfl, hran₁.seq (.nil hu₁)⟩
    · rw [if_neg hempty]
      obtain ⟨h₂, out₂, hrun₂, hran₂⟩ :=
        ih hts (fun p hp => hops p (List.mem_append_right _ hp)) hu₁
      exact ⟨h₂, out₂, hrun₂, hran₁.seq hran₂⟩

theorem filterResources_spec {ts : List (AndOr KeysFilter)}
    (hts : ∀ t ∈ ts, Runs account manager names order t) {id : Nat}
    (hops : ∀ p ∈ blockTypesAll .and (parseAll id ts).1, getBlockOperator manager p.1 = .ok p.2)
    (hu : Users account names h rs) :
    ∃ h' out, filterResources userModel order (filterTrees account manager (parseAll id ts).1) h
      rs = .ok (h', out) ∧
      Ran account names (fun r => runEach (runMembers account names ts r)) h rs h' out := by
  induction ts generalizing id h rs with
  | nil => exact ⟨h, rs, rfl, .all hu⟩
  | cons t ts ih =>
    obtain ⟨ht, hts⟩ := List.forall_mem_cons.mp hts
    rw [parseAll, blockTypesAll] at hops
    rw [parseAll, filterTrees, filterResources]
    by_cases hempty : rs.isEmpty = true
    · rw [if_pos hempty]
      obtain rfl := List.isEmpty_iff.mp hempty
      exact ⟨h, [], rfl, .nil hu⟩
    · obtain ⟨h₁, out₁, hrun₁, hran₁⟩ := ht .and id
        (fun p hp => hops p (List.mem_append_left _ hp)) h rs hu
      obtain ⟨h₂, out₂, hrun₂, hran₂⟩ := ih hts (fun p hp => hops p (List.mem_append_right _ hp))
        (hran₁.users.subset hran₁.nodup fun r hr => ((hran₁.mem r).mp hr).1)
      rw [if_neg hempty, hrun₁]
      exact ⟨h₂, out₂, hrun₂, hran₁.seq hran₂⟩

theorem orLoop_spec {ts : List (AndOr KeysFilter)}
    (hts : ∀ t ∈ ts, Runs account manager names order t) {id : Nat}
    (hops : ∀ p ∈ blockTypesAll .or (parseAll id ts).1, getBlockOperator manager p.1 = .ok p.2)
    (hu : Users account names h rs) (results : List Entry) :
    ∃ h' results' out,
      orLoop userModel order (filterTrees account manager (parseAll id ts).1) h rs results =
        .ok (h', results') ∧
      (∀ i, i ∈ results' ↔ i ∈ results ∨ ∃ r ∈ out, i = .text (names r)) ∧
      Ran account names (fun r => runAny (runMembers account names ts r)) h rs h' out := by
  induction ts generalizing id h results with
  | nil =>
    refine ⟨h, results, [], rfl, fun i => by simp, .refl _ _, hu, List.nodup_nil, fun r => ?_,
      fun _ _ => rfl, fun _ _ => rfl⟩
    simp [runMembers, runAny]
  | cons t ts ih =>
    obtain ⟨ht, hts⟩ := List.forall_mem_cons.mp hts
    rw [parseAll, blockTypesAll] at hops
    obtain ⟨h₁, out₁, hrun₁, hran₁⟩ := ht .or id
      (fun p hp => hops p (List.mem_append_left _ hp)) h rs hu
    have hu₁ : Users account names h₁ out₁ :=
      hran₁.users.subset hran₁.nodup fun r hr => ((hran₁.mem r).mp hr).1
    obtain ⟨is, his⟩ := hu₁.identified.exists_typeIds
    obtain ⟨h₂, results₂, out₂, hrun₂, hmem₂, hran₂⟩ :=
      ih hts (fun p hp => hops p (List.mem_append_right _ hp)) hran₁.users (results ++ is)
    refine ⟨h₂, results₂, _, ?_, fun i => ?_, hran₁.par hran₂⟩
    · rw [parseAll, filterTrees, orLoop, hrun₁]
      simp only [bind, Except.bind, his]
      exact hrun₂
    · have hids : i ∈ is ↔ ∃ r ∈ out₁, i = .text (names r) := by
        rw [mem_typeIds his]
        refine exists_congr fun r => and_congr_right fun hr => ?_
        rw [typeId_user (hu₁.user r hr), Except.ok.injEq, eq_comm]
      rw [hmem₂, List.mem_append, hids, or_assoc]
      refine or_congr_right ?_
      simp only [List.mem_filter, decide_eq_true_eq]
      constructor
      · rintro (⟨r, hr, rfl⟩ | ⟨r, hr, rfl⟩)
        · exact ⟨r, ⟨((hran₁.mem r).mp hr).1, Or.inl hr⟩, rfl⟩
        · exact ⟨r, ⟨((hran₂.mem r).mp hr).1, Or.inr hr⟩, rfl⟩
      · rintro ⟨r, ⟨-, hr | hr⟩, rfl⟩
        · exact Or.inl ⟨r, hr, rfl⟩
        · exact Or.inr ⟨r, hr, rfl⟩

theorem parse_group (id : Nat) (op : Op) (t : AndOr KeysFilter) (ts : List (AndOr KeysFilter)) :
    (parse id (.group op t ts)).1 = .block (blockType op) (parseAll id (t :: ts)).1 := by
  rw [parse, parseAll]

/-- **Every filter works on each user alone.**  A filter does with a user what `run` says, in a
policy where every filter on keys finds the type of its own block. -/
theorem runs (t : AndOr KeysFilter) : Runs account manager names order t := by
  induction t using AndOr.induct with
  | leaf f =>
    intro op id hops
    rw [parse, Node.filterTree]
    exact leaf_does (hops (id, blockType op) (List.mem_singleton_self _)) f
  | group op' t ts iht ihts =>
    intro op id hops h rs hu
    have hmembers : ∀ u ∈ t :: ts, Runs account manager names order u :=
      List.forall_mem_cons.mpr ⟨iht, ihts⟩
    rw [parse_group, Node.blockTypes] at hops
    rw [parse_group]
    cases op' with
    | and =>
      have hdoes : (fun r => run op ((AndOr.group .and t ts).map
          (KeysFilter.look account (names r)))) = fun r old =>
          ((runEach (runMembers account names (t :: ts) r) old).1,
            if (runEach (runMembers account names (t :: ts) r) old).1 then
              (runEach (runMembers account names (t :: ts) r) old).2 else old) := by
        funext r old
        rw [AndOr.map_group, run_and]
        rfl
      obtain ⟨s, hs⟩ := hu.identified.exists_init
      obtain ⟨h₁, out, hloop, hran⟩ := andLoop_spec hmembers hops hu
      obtain ⟨h₂, hsweep, hran₂⟩ := hran.sweep order hu hs
      rw [hdoes]
      refine ⟨h₂, out, ?_, hran₂⟩
      rw [blockType, Node.filterTree, FilterTree.process, hs]
      simp only [bind, Except.bind, hloop, hsweep, pure, Except.pure]
    | or =>
      have hdoes : (fun r => run op ((AndOr.group .or t ts).map
          (KeysFilter.look account (names r)))) =
          fun r => runAny (runMembers account names (t :: ts) r) := by
        funext r old
        rw [AndOr.map_group, run_or]
        rfl
      obtain ⟨rmap, hrmap⟩ := hu.identified.exists_resourceMap
      obtain ⟨h₁, results, out, hloop, hresults, hran⟩ := orLoop_spec hmembers hops hu []
      have hname : ∀ i, i ∈ order.iter results ↔ ∃ r ∈ out, i = .text (names r) := fun i => by
        rw [order.mem, hresults]
        simp
      obtain ⟨out', hlook, hnodup, hmem⟩ := lookupAll_spec (order.iter results) hrmap hu.identified
        fun i hi => by
          obtain ⟨r, hr, rfl⟩ := (hname i).mp hi
          have hin := ((hran.mem r).mp hr).1
          exact ⟨r, hin, typeId_user (hu.user r hin)⟩
      rw [hdoes]
      refine ⟨h₁, out', ?_, hran.frame, hran.users, hnodup (order.nodup _), fun r => ?_,
        hran.matched, hran.other⟩
      · rw [blockType, Node.filterTree, FilterTree.process, hrmap]
        simp only [bind, Except.bind, hloop, hlook, pure, Except.pure]
      · rw [hmem, ← hran.mem]
        constructor
        · rintro ⟨hr, i, hi, hid⟩
          obtain ⟨r', hr', rfl⟩ := (hname i).mp hi
          rw [typeId_user (hu.user r hr), Except.ok.injEq, Entry.text.injEq] at hid
          rwa [hu.apart r' ((hran.mem r').mp hr').1 r hr hid]
        · intro hr
          have hin := ((hran.mem r).mp hr).1
          exact ⟨hin, _, (hname _).mpr ⟨r, hr, rfl⟩, typeId_user (hu.user r hin)⟩

/-- **The filters of a policy work on each user alone.**  On distinct users they run without an
error, keep those that `runEach` keeps, and leave on each user the annotation that it gives. -/
theorem filterUsers_spec (order : SetOrder Entry) (ts : List (AndOr KeysFilter))
    (hu : Users account names h rs) :
    ∃ h' out, filterUsers account order ts h rs = .ok (h', out) ∧
      Ran account names (fun r => runEach (runMembers account names ts r)) h rs h' out :=
  filterResources_spec (fun t _ => runs t)
    (fun _ hp => getBlockOperator_spec (nodup_ids_parseAll ts) hp) hu

end Custodian.KeyFilters

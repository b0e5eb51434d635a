import Custodian.Lib.Dict
import Custodian.Lib.Except
import Custodian.Lib.Text

/-!
# The changes of the policies in a repository

`PolicyRepo`, `PolicyCollection` and `CollectionDelta` of
`tools/c7n_policystream/policystream.py`: a stream of policy changes along a line of commits.

The values of a document, its reading, the differences between two trees and the order of a set
are parameters.
-/

namespace Custodian.PolicyStream

open Py

variable {B V : Type}

/-! ## Policies -/

/-- A policy of a collection, which has read its name, and the file it is from. -/
structure Policy (V : Type) where
  name : V
  data : V
  filePath : Text
  deriving DecidableEq

/-- The policies of a collection; its `pmap` has the last one with each name. -/
abbrev PolicyCollection (V : Type) := List (Policy V)

def assertionError : Exn := .raised "AssertionError".toList

namespace PolicyCollection

variable [DecidableEq V]

def keys (ps : PolicyCollection V) : List V := (ps.map Policy.name).dedup

/-- `self.pmap.get(name)` -/
def getItem (ps : PolicyCollection V) (name : V) : Option (Policy V) :=
  ps.reverse.find? fun p => p.name = name

def add (ps : PolicyCollection V) (p : Policy V) : Except Exn (PolicyCollection V) :=
  if p.name ∈ ps.map Policy.name then .error assertionError else .ok (ps ++ [p])

def remove (ps : PolicyCollection V) (p : Policy V) : Except Exn (PolicyCollection V) :=
  if p.name ∈ ps.map Policy.name then .ok (ps.filter fun ep => ep.name ≠ p.name)
  else .error assertionError

/-- `__setitem__` -/
def setItem (ps : PolicyCollection V) (p : Policy V) : Except Exn (PolicyCollection V) :=
  if p.name ∈ ps.map Policy.name then .ok (ps.map fun ep => if ep.name = p.name then p else ep)
  else .error assertionError

end PolicyCollection

/-- `PolicyChange` without its commit. -/
inductive Change (V : Type) where
  | add (policy : Policy V)
  | remove (policy : Policy V)
  | modified (policy previous : Policy V)
  | moved (policy previous : Policy V)
  deriving DecidableEq

def Change.policy : Change V → Policy V
  | add p => p
  | remove p => p
  | modified p _ => p
  | moved p _ => p

/-! ## Commits -/

/-- The regular files of a tree, in its subdirectories too. -/
structure Tree (B : Type) where
  files : List (Text × B)
  nodup : (files.map Prod.fst).Nodup

namespace Tree

def empty : Tree B := ⟨[], List.nodup_nil⟩

def paths (t : Tree B) : List Text := t.files.map Prod.fst

/-- The entries of the tree itself: files, and the directories of other files. -/
def entries (t : Tree B) : List (Text × Option B) :=
  t.files.map fun e =>
    if '/' ∈ e.1 then (e.1.takeWhile (· ≠ '/'), none) else (e.1, some e.2)

end Tree

structure Commit (B : Type) where
  id : Text
  date : Int
  parents : List (Tree B)
  tree : Tree B

/-- The tree that a commit is compared with: its first parent's or the empty one. -/
def Commit.base (c : Commit B) : Tree B := c.parents.headD .empty

/-- `GIT_DELTA` -/
inductive Status where
  | unmodified
  | added
  | deleted
  | modified
  | renamed
  | copied
  | ignored
  | untracked
  | typechange
  | unreadable
  deriving DecidableEq

structure Delta where
  status : Status
  oldFile : Text
  newFile : Text

/-- What a list of differences says about two trees: every file is listed at most once, added,
deleted or in both trees, and a file that is not listed is the same in both. -/
structure Differences (old new : Tree B) (deltas : List Delta) : Prop where
  nodup : (deltas.map Delta.newFile).Nodup
  status : ∀ d ∈ deltas,
    d.status = .added ∧ d.newFile ∉ old.paths ∧ d.newFile ∈ new.paths ∨
    d.status = .deleted ∧ d.newFile ∈ old.paths ∧ d.newFile ∉ new.paths ∨
    d.status = .modified ∧ d.newFile ∈ old.paths ∧ d.newFile ∈ new.paths
  complete : ∀ f, f ∉ deltas.map Delta.newFile → old.files.lookup f = new.files.lookup f

/-- What the code rests on. -/
structure Env (B V : Type) where
  matcher : Text → Bool
  /-- `yaml.safe_load` -/
  safeLoad : B → Except Exn V
  /-- `v.get(key)` -/
  get : V → Text → Except Exn (Option V)
  /-- `for x in v` -/
  iter : V → Except Exn (List V)
  /-- `v[key]` -/
  index : V → Text → Except Exn V
  hashable : V → Bool
  /-- `repo.diff` -/
  diff : Tree B → Tree B → List Delta
  diff_spec : ∀ old new, Differences old new (diff old new)
  /-- The order in which a set of names is iterated, for the changes of a commit. -/
  setOrder : Commit B → List V → List V
  setOrder_perm : ∀ c names, (setOrder c names).Perm names

/-! ## Reading policy files -/

namespace Env

variable (env : Env B V)

/-- A policy of a document, whose name is read for the `pmap`. -/
def policy (f : Text) (data : V) : Except Exn (Policy V) := do
  let name ← env.index data "name".toList
  if env.hashable name then .ok ⟨name, data, f⟩ else .error .typeError

/-- `PolicyCollection.from_data` -/
def fromData (doc : V) (f : Text) : Except Exn (PolicyCollection V) := do
  match ← env.get doc "policies".toList with
  | none => .ok []
  | some policies => (← env.iter policies).mapM (env.policy f)

/-- `_validate_policies`: a policy without a resource is left out. -/
def validatePolicies : PolicyCollection V → Except Exn (PolicyCollection V)
  | [] => .ok []
  | p :: ps => do
    match env.index p.data "resource".toList with
    | .error .keyError => validatePolicies ps
    | .error e => .error e
    | .ok _ => return p :: (← validatePolicies ps)

def loadPolicies (f : Text) (blob : B) : Except Exn (PolicyCollection V) := do
  env.fromData (← env.safeLoad blob) f

/-- `_policy_file_rev`: a file that cannot be read has no policies. -/
def policyFileRev (f : Text) (t : Tree B) : PolicyCollection V :=
  match t.files.lookup f with
  | none => []
  | some blob =>
    match env.loadPolicies f blob >>= env.validatePolicies with
    | .error _ => []
    | .ok ps => ps

end Env

/-! ## The changes of a commit -/

/-- `policy_files` -/
abbrev Files (V : Type) := Dict Text (PolicyCollection V)

/-- The policies of a file, none if the file is not known. -/
def Files.policies (files : Files V) (f : Text) : PolicyCollection V := (files.lookup f).getD []

/-- `change_policies`, `current_policies` and `removed` -/
structure Gathered (V : Type) where
  change : PolicyCollection V
  current : PolicyCollection V
  removed : List Text

namespace Env

variable [DecidableEq V] (env : Env B V)

/-- What a delta adds to the policies that are compared. -/
def gatherDelta (files : Files V) (c : Commit B) (g : Gathered V) (d : Delta) :
    Except Exn (Gathered V) :=
  let f := d.newFile
  if env.matcher f then
    match d.status with
    | .added | .modified => .ok { g with
        change := g.change ++ env.policyFileRev f c.tree
        current := g.current ++ files.policies f }
    | .deleted =>
      match files.lookup f with
      | some ps => .ok { g with current := g.current ++ ps, removed := g.removed.insert f }
      | none => .ok g
    | .renamed =>
      match files.lookup d.oldFile with
      | some ps => .ok {
          change := g.change ++ env.policyFileRev f c.tree
          current := g.current ++ ps
          removed := g.removed.insert d.oldFile }
      | none => .error .keyError
    | _ => .ok g
  else .ok g

/-- A policy that is in both collections. -/
def extantChange (curr prev : Policy V) : Option (Change V) :=
  if curr.data ≠ prev.data then some (.modified curr prev)
  else if curr.filePath ≠ prev.filePath then some (.moved curr prev)
  else none

/-- `CollectionDelta.delta` -/
def delta (c : Commit B) (prev curr : PolicyCollection V) : List (Change V) :=
  let removed := env.setOrder c (prev.keys.filter (· ∉ curr.keys))
  let added := env.setOrder c (curr.keys.filter (· ∉ prev.keys))
  let extant := env.setOrder c (curr.keys.filter (· ∈ prev.keys))
  removed.filterMap (fun n => (prev.getItem n).map .remove) ++
    added.filterMap (fun n => (curr.getItem n).map .add) ++
    extant.filterMap fun n => do extantChange (← curr.getItem n) (← prev.getItem n)

end Env

namespace Files

variable [DecidableEq V]

/-- `policy_files.setdefault(p.file_path, PolicyCollection()).add(p)` -/
def add (files : Files V) (p : Policy V) : Except Exn (Files V) := do
  return files.insert p.filePath (← (files.policies p.filePath).add p)

/-- `policy_files[p.file_path].remove(p)` -/
def remove (files : Files V) (p : Policy V) : Except Exn (Files V) :=
  match files.lookup p.filePath with
  | none => .error .keyError
  | some ps => do return files.insert p.filePath (← ps.remove p)

/-- `policy_files[p.file_path][p.name] = p` -/
def setItem (files : Files V) (p : Policy V) : Except Exn (Files V) :=
  match files.lookup p.filePath with
  | none => .error .keyError
  | some ps => do return files.insert p.filePath (← ps.setItem p)

/-- The bookkeeping for a policy that takes the place of another. -/
def replace (files : Files V) (p previous : Policy V) : Except Exn (Files V) :=
  if p.filePath ≠ previous.filePath then do
    let files ← files.remove previous
    if p.name ∈ (files.policies p.filePath).map Policy.name then files.setItem p else files.add p
  else files.setItem p

/-- The bookkeeping of `_process_stream_delta` for a change. -/
def apply (files : Files V) : Change V → Except Exn (Files V)
  | .add p => files.add p
  | .remove p => files.remove p
  | .modified p previous => files.replace p previous
  | .moved p previous => files.replace p previous

/-- `_process_stream_delta`: the changes that are yielded and the files in the end. -/
def processStreamDelta (files : Files V) : List (Change V) → List (Change V) × Except Exn (Files V)
  | [] => ([], .ok files)
  | c :: cs =>
    match files.apply c with
    | .error e => ([], .error e)
    | .ok files =>
      let (emitted, r) := processStreamDelta files cs
      (c :: emitted, r)

omit [DecidableEq V] in
/-- `del policy_files[f]` -/
def delete (files : Files V) (f : Text) : Except Exn (Files V) :=
  if f ∈ files then .ok (files.erase f) else .error .keyError

end Files

/-! ## The stream -/

/-- What a stream has yielded, commit by commit, and the files it leaves or what it raises. -/
structure Run (B V : Type) where
  emitted : List (Commit B × List (Change V))
  files : Except Exn (Files V)

/-- The changes in the order they are yielded. -/
def Run.changes (r : Run B V) : List (Commit B × Change V) :=
  r.emitted.flatMap fun e => e.2.map fun change => (e.1, change)

/-- The bounds of `delta_stream`; a limit of zero is no limit. -/
structure Bounds where
  limit : Nat := 65536
  after : Option Int := none
  before : Option Int := none

/-- No limit and no date bounds. -/
def Bounds.unbounded : Bounds := { limit := 0 }

/-- `cdate > after` and `cdate < before`, the commits that are passed over. -/
def Bounds.skips (b : Bounds) (c : Commit B) : Bool :=
  b.after.any (fun after => decide (c.date > after)) ||
    b.before.any (fun before => decide (c.date < before))

/-- The loop over the walk; `commits` are collected already. -/
def collect (b : Bounds) (commits : List (Commit B)) : List (Commit B) → List (Commit B)
  | [] => commits
  | c :: walk =>
    if b.skips c then collect b commits walk
    else if b.limit ≠ 0 ∧ b.limit < (commits ++ [c]).length then commits ++ [c]
    else collect b (commits ++ [c]) walk

namespace Env

variable (env : Env B V)

/-- The policies of an entry are those of the file; a directory has no data. -/
def initializeEntry (files : Files V) (entry : Text × Option B) : Except Exn (Files V) :=
  if env.matcher entry.1 then
    match entry.2 with
    | none => .error .attributeError
    | some blob => do return files.insert entry.1 (← env.loadPolicies entry.1 blob)
  else .ok files

def initializeTree (files : Files V) (t : Tree B) : Except Exn (Files V) :=
  if files.entries.isEmpty then t.entries.foldlM env.initializeEntry files
  else .error assertionError

variable [DecidableEq V]

def processStreamCommit (files : Files V) (c : Commit B) :
    List (Change V) × Except Exn (Files V) :=
  match (env.diff c.base c.tree).foldlM (env.gatherDelta files c) ⟨[], [], []⟩ with
  | .error e => ([], .error e)
  | .ok g =>
    let (emitted, r) := files.processStreamDelta (env.delta c g.current g.change)
    (emitted, do g.removed.foldlM Files.delete (← r))

def streamCommits (files : Files V) : List (Commit B) → Run B V
  | [] => ⟨[], .ok files⟩
  | c :: commits =>
    match env.processStreamCommit files c with
    | (changes, .error e) => ⟨[(c, changes)], .error e⟩
    | (changes, .ok files) =>
      let rest := streamCommits files commits
      ⟨(c, changes) :: rest.emitted, rest.files⟩

/-- `delta_stream` over the commits of a walk. -/
def deltaStream (files : Files V) (walk : List (Commit B)) (b : Bounds) : Run B V :=
  let commits := collect b [] walk
  if b.limit ≠ 0 ∧ b.limit < commits.length then
    match commits[b.limit]? with
    | none => ⟨[], .error (.raised "IndexError".toList)⟩
    | some c =>
      match env.initializeTree files c.tree with
      | .error e => ⟨[], .error e⟩
      | .ok files => env.streamCommits files commits.dropLast
  else env.streamCommits files commits

end Env

/-! ## Histories -/

/-- A line of commits, oldest first, the first of which has the given parents. -/
def Linear (parents : List (Tree B)) : List (Commit B) → Prop
  | [] => True
  | c :: cs => c.parents = parents ∧ Linear [c.tree] cs

/-- The tree that a line of commits ends with. -/
def headTree (history : List (Commit B)) : Tree B := (history.map Commit.tree).getLastD .empty

variable (env : Env B V)

/-- The stream of a new repository object over all commits of a history. -/
def Env.stream [DecidableEq V] (history : List (Commit B)) : Run B V :=
  env.deltaStream ∅ history .unbounded

/-- The valid policies of a file of a tree, if it is a policy file. -/
def Env.filePolicies (f : Text) (t : Tree B) : PolicyCollection V :=
  if env.matcher f then env.policyFileRev f t else []

/-- The valid policies of a tree. -/
def Env.validPolicies (t : Tree B) : PolicyCollection V :=
  t.paths.flatMap fun f => env.filePolicies f t

/-- No two policies of a tree have the same name. -/
def Env.UniqueNames (t : Tree B) : Prop := ((env.validPolicies t).map Policy.name).Nodup

/-- The changes applied in order to a collection. -/
def replay [DecidableEq V] (ps : PolicyCollection V) :
    List (Change V) → Except Exn (PolicyCollection V) :=
  List.foldlM (fun ps change =>
    match change with
    | .add p => ps.add p
    | .remove p => ps.remove p
    | .modified p _ => ps.setItem p
    | .moved p _ => ps.setItem p) ps

end Custodian.PolicyStream

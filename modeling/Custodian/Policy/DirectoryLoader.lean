import Custodian.Lib.FileTree
import Custodian.Lib.Split

/-!
# Loading a directory of policies

`DirectoryLoader.load_directory` of `loader.py`.  The inner function walks a directory,
and for each directory that it comes to it also loads every name in it again, resolved
against the working directory of the process.
-/

namespace Custodian.DirectoryLoader

open Py

variable {C V E R : Type}

/-! ## The disk -/

/-- The files of a machine without links, and the working directory of the process. -/
structure Disk (C : Type) where
  root : Nested C
  distinct : root.distinct = true
  cwd : List Text

/-- `is_hidden` of a name, which `os.path.split` splits into nothing and itself. -/
def isHidden (name : Text) : Bool :=
  [[], name].any fun part => part ≠ ".".toList && Text.startsWith part ".".toList

def formats : List Text := ["yaml".toList, "yml".toList, "json".toList]

/-- `name.rsplit('.', 1)[-1]` -/
def fmt (name : Text) : Text := afterLast '.' name

/-- `os.walk` of an absolute path, with hidden directories pruned. -/
def Disk.walk (disk : Disk C) (path : List Text) : List (Visit C) :=
  match disk.root.find path with
  | some t => t.walk (fun d => !isHidden d) path
  | none => []

/-- `os.path.abspath` of a name. -/
def Disk.abspath (disk : Disk C) (name : Text) : List Text := disk.cwd ++ [name]

/-- A file to be read, by its path. -/
structure File (C : Type) where
  path : List Text
  contents : C

/-- The files of a directory that are read. -/
def policyFiles (v : Visit C) : List (File C) :=
  (v.files.filter fun f => !isHidden f.1 && decide (fmt f.1 ∈ formats)).map fun f =>
    ⟨v.root ++ [f.1], f.2⟩

/-- The directories in a directory that are descended into. -/
def subdirs (v : Visit C) : List Text := v.dirs.filter fun d => !isHidden d

/-! ## Documents -/

/-- What the loader does with the contents of files and with the values that they hold. -/
structure Documents (C V E R : Type) where
  yamlLoad : C → Except Exn V
  jsonLoads : C → Except Exn V
  /-- `_validate`, which gives the errors of a document. -/
  validate : V → Except Exn (List E)
  /-- `v.get(key)` -/
  get : V → Text → Except Exn (Option V)
  truthy : V → Bool
  /-- `v[key]` -/
  index : V → Text → Except Exn V
  /-- `for x in v` -/
  iter : V → Except Exn (List V)
  /-- `self.load_data` of all the policies. -/
  loadData : List V → Except Exn R

/-- How a load can fail. -/
inductive Failure (V E : Type) where
  | recursion
  | unreadable (path : List Text) (e : Exn)
  | invalid (errors : List E)
  | raised (e : Exn)
  | duplicate (name : V)

/-- The files read so far, their documents and the errors in them. -/
structure State (V E : Type) where
  reads : List (List Text)
  rawPolicies : List V
  errors : List E

abbrev Load (V E : Type) := EStateM (Failure V E) (State V E)

namespace Documents

variable (docs : Documents C V E R)

/-- `load_file`: `os.path.splitext` gives the extension after the last dot of the name. -/
def loadFile (path : List Text) (contents : C) : Except Exn V :=
  let name := path.getLastD []
  if '.' ∈ name ∧ afterLast '.' name = "json".toList then docs.jsonLoads contents
  else docs.yamlLoad contents

/-- A computation on the contents of a file. -/
def reading {α : Type} (path : List Text) (x : Except Exn α) : Load V E α := fun s =>
  match x with
  | .ok a => .ok a s
  | .error e => .error (.unreadable path e) s

def check (doValidate : Bool) (data : V) : Except Exn (List E) :=
  if doValidate then docs.validate data else .ok []

/-- The body of the loop over files. -/
def readFile (doValidate : Bool) (f : File C) : Load V E Unit := do
  modify fun s => { s with reads := s.reads ++ [f.path] }
  let data ← reading f.path (docs.loadFile f.path f.contents)
  let errors ← reading f.path (docs.check doValidate data)
  modify fun s =>
    { s with errors := s.errors ++ errors, rawPolicies := s.rawPolicies ++ [data] }

/-- The loop over the directories of a walk, where `load` is the inner function. -/
def loadVisits (disk : Disk C) (recurse doValidate : Bool) (load : List Text → Load V E Unit) :
    List (Visit C) → Load V E Unit
  | [] => pure ()
  | v :: vs => do
    forM (policyFiles v) (docs.readFile doValidate)
    if recurse then
      forM (subdirs v) fun name => load (disk.abspath name)
      loadVisits disk recurse doValidate load vs

/-- `_load`, in a process that nests so many calls. -/
def load (disk : Disk C) (recurse doValidate : Bool) : Nat → List Text → Load V E Unit
  | 0, _ => throw .recursion
  | limit + 1, path =>
    docs.loadVisits disk recurse doValidate (load disk recurse doValidate limit) (disk.walk path)

/-- The policies of a document, if there are any. -/
def policiesOf (doc : V) : Except Exn (List V) := do
  match ← docs.get doc "policies".toList with
  | none => return []
  | some policies =>
    if docs.truthy policies then docs.iter (← docs.index doc "policies".toList) else return []

/-- The loop that looks for a name that was there before. -/
def checkNames [DecidableEq V] (names : List V) : List V → Except (Failure V E) Unit
  | [] => .ok ()
  | p :: ps =>
    match docs.index p "name".toList with
    | .error e => .error (.raised e)
    | .ok name => if name ∈ names then .error (.duplicate name) else checkNames (names ++ [name]) ps

/-- What follows when all files are read. -/
def finish [DecidableEq V] (s : State V E) : Except (Failure V E) R := do
  if s.errors ≠ [] then throw (.invalid s.errors)
  let policies ← (s.rawPolicies.mapM docs.policiesOf).mapError .raised
  docs.checkNames [] policies.flatten
  (docs.loadData policies.flatten).mapError .raised

/-- `load_directory` -/
def loadDirectory [DecidableEq V] (disk : Disk C) (directory : List Text)
    (validate recurse : Bool) (limit : Nat) : Load V E R := do
  docs.load disk recurse validate limit directory
  let s ← MonadState.get
  match docs.finish s with
  | .ok collection => return collection
  | .error e => throw e

end Documents

/-! ## What a load reads -/

/-- The files that a load reads, in order; `none` where it nests too many calls. -/
def plan (disk : Disk C) (recurse : Bool) : Nat → List Text → List (Option (File C))
  | 0, _ => [none]
  | limit + 1, path =>
    if recurse then
      (disk.walk path).flatMap fun v => (policyFiles v).map some ++
        (subdirs v).flatMap fun name => plan disk recurse limit (disk.abspath name)
    else ((disk.walk path).head?.map fun v => (policyFiles v).map some).getD []

namespace Documents

variable (docs : Documents C V E R) {disk : Disk C} {recurse doValidate : Bool}

def perform (doValidate : Bool) : Option (File C) → Load V E Unit
  | none => throw .recursion
  | some f => docs.readFile doValidate f

theorem forM_flatMap {α β : Type} {m : Type → Type} [Monad m] [LawfulMonad m] (xs : List α)
    (f : α → List β) (g : β → m PUnit) :
    forM (xs.flatMap f) g = forM xs fun x => forM (f x) g := by
  induction xs with
  | nil => rfl
  | cons x xs ih => rw [List.flatMap_cons, List.forM_append, List.forM_cons, ih]

theorem loadVisits_eq_perform {load : List Text → Load V E Unit} {limit : Nat}
    (h : ∀ path, load path = forM (plan disk true limit path) (docs.perform doValidate))
    (vs : List (Visit C)) :
    docs.loadVisits disk true doValidate load vs =
      forM (vs.flatMap fun v => (policyFiles v).map some ++
        (subdirs v).flatMap fun name => plan disk true limit (disk.abspath name))
          (docs.perform doValidate) := by
  induction vs with
  | nil => rfl
  | cons v vs ih =>
    rw [loadVisits, ih]
    simp only [List.flatMap_cons, List.forM_append, forM_flatMap, List.forM_map, if_true, h,
      bind_assoc]
    rfl

theorem load_eq_perform (disk : Disk C) (recurse doValidate : Bool) (limit : Nat)
    (path : List Text) :
    docs.load disk recurse doValidate limit path =
      forM (plan disk recurse limit path) (docs.perform doValidate) := by
  induction limit generalizing path with
  | zero => rfl
  | succ limit ih =>
    cases recurse with
    | true => rw [load, loadVisits_eq_perform docs ih, plan, if_pos rfl]
    | false =>
      rw [load, plan, if_neg Bool.false_ne_true]
      cases disk.walk path with
      | nil => rfl
      | cons v vs =>
        rw [loadVisits, if_neg Bool.false_ne_true, List.head?_cons, Option.map_some,
          Option.getD_some, List.forM_map]
        exact bind_pure_unit

theorem bind_of_ok {α β : Type} {x : Load V E α} {k : α → Load V E β} {s s' : State V E} {a : α}
    (h : x s = .ok a s') : (x >>= k) s = k a s' := by
  simp only [bind, EStateM.bind, h]

theorem bind_of_error {α β : Type} {x : Load V E α} {k : α → Load V E β} {s s' : State V E}
    {e : Failure V E} (h : x s = .error e s') : (x >>= k) s = .error e s' := by
  simp only [bind, EStateM.bind, h]

theorem readFile_eq (f : File C) (s : State V E) :
    docs.readFile doValidate f s =
      match docs.loadFile f.path f.contents with
      | .error e => .error (.unreadable f.path e) { s with reads := s.reads ++ [f.path] }
      | .ok data =>
        match docs.check doValidate data with
        | .error e => .error (.unreadable f.path e) { s with reads := s.reads ++ [f.path] }
        | .ok errors =>
          .ok () ⟨s.reads ++ [f.path], s.rawPolicies ++ [data], s.errors ++ errors⟩ := by
  have hread : docs.readFile doValidate f s = EStateM.bind
      (reading f.path (docs.loadFile f.path f.contents))
      (fun data => EStateM.bind (reading f.path (docs.check doValidate data)) fun errors s' =>
        .ok () ⟨s'.reads, s'.rawPolicies ++ [data], s'.errors ++ errors⟩)
      { s with reads := s.reads ++ [f.path] } := rfl
  rw [hread]
  cases docs.loadFile f.path f.contents with
  | error e => rfl
  | ok data =>
    have hcheck : EStateM.bind (reading f.path (.ok data))
        (fun data => EStateM.bind (reading f.path (docs.check doValidate data)) fun errors s' =>
          .ok () ⟨s'.reads, s'.rawPolicies ++ [data], s'.errors ++ errors⟩)
        { s with reads := s.reads ++ [f.path] } =
        EStateM.bind (reading f.path (docs.check doValidate data))
          (fun errors s' => .ok () ⟨s'.reads, s'.rawPolicies ++ [data], s'.errors ++ errors⟩)
          { s with reads := s.reads ++ [f.path] } := rfl
    rw [hcheck]
    simp only []
    cases docs.check doValidate data <;> rfl

/-- A file whose contents are a document that can be checked. -/
def Readable (doValidate : Bool) (f : File C) : Prop :=
  ∃ data errors, docs.loadFile f.path f.contents = .ok data ∧
    docs.check doValidate data = .ok errors

theorem readFile_spec (f : File C) (s : State V E) :
    (∃ data errors, docs.loadFile f.path f.contents = .ok data ∧
      docs.readFile doValidate f s =
        .ok () ⟨s.reads ++ [f.path], s.rawPolicies ++ [data], errors⟩) ∨
    ∃ e s', ¬ docs.Readable doValidate f ∧ s'.reads = s.reads ++ [f.path] ∧
      docs.readFile doValidate f s = .error (.unreadable f.path e) s' := by
  cases hdata : docs.loadFile f.path f.contents with
  | error e =>
    refine Or.inr ⟨e, _, ?_, rfl, by rw [readFile_eq, hdata]⟩
    rintro ⟨data, errors, hload, -⟩
    rw [hdata] at hload
    cases hload
  | ok data =>
    cases herrors : docs.check doValidate data with
    | error e =>
      refine Or.inr ⟨e, { s with reads := s.reads ++ [f.path] }, ?_, rfl, ?_⟩
      · rintro ⟨data', errors, hload, hcheck⟩
        rw [hdata] at hload
        cases hload
        rw [herrors] at hcheck
        cases hcheck
      · simp only [readFile_eq, hdata, herrors]
    | ok errors =>
      exact Or.inl ⟨data, s.errors ++ errors, rfl, by simp only [readFile_eq, hdata, herrors]⟩

theorem perform_spec (doValidate : Bool) (xs : List (Option (File C))) (s : State V E) :
    ∃ fs ds, List.Forall₂ (fun f d => docs.loadFile f.path f.contents = .ok d) fs ds ∧
      ((xs = fs.map some ∧ ∃ errors,
          (forM xs (docs.perform doValidate) : Load V E Unit) s =
            .ok () ⟨s.reads ++ fs.map File.path, s.rawPolicies ++ ds, errors⟩) ∨
        (∃ rest s', xs = fs.map some ++ none :: rest ∧
          s'.reads = s.reads ++ fs.map File.path ∧
          (forM xs (docs.perform doValidate) : Load V E Unit) s = .error .recursion s') ∨
        ∃ f rest e s', xs = fs.map some ++ some f :: rest ∧ ¬ docs.Readable doValidate f ∧
          s'.reads = s.reads ++ (fs.map File.path ++ [f.path]) ∧
          (forM xs (docs.perform doValidate) : Load V E Unit) s =
            .error (.unreadable f.path e) s') := by
  induction xs generalizing s with
  | nil =>
    refine ⟨[], [], .nil, Or.inl ⟨rfl, s.errors, ?_⟩⟩
    simp only [List.map_nil, List.append_nil]
    rfl
  | cons x xs ih =>
    cases x with
    | none =>
      exact ⟨[], [], .nil, Or.inr (Or.inl ⟨xs, s, rfl, by simp, rfl⟩)⟩
    | some f =>
      rw [List.forM_cons]
      rcases docs.readFile_spec f s with ⟨d, errors, hd, hread⟩ | ⟨e, s', hf, hs', hread⟩
      · rw [bind_of_ok (x := docs.perform doValidate (some f)) hread]
        obtain ⟨fs, ds, hfs, hrun⟩ := ih ⟨s.reads ++ [f.path], s.rawPolicies ++ [d], errors⟩
        simp only [List.append_assoc, List.singleton_append] at hrun
        refine ⟨f :: fs, d :: ds, .cons hd hfs, ?_⟩
        rcases hrun with ⟨hxs, hrun⟩ | ⟨rest, s', hxs, hrun⟩ | ⟨g, rest, e, s', hxs, hrun⟩
        · exact Or.inl ⟨by rw [hxs, List.map_cons], hrun⟩
        · exact Or.inr (Or.inl ⟨rest, s', by rw [hxs]; rfl, hrun⟩)
        · exact Or.inr (Or.inr ⟨g, rest, e, s', by rw [hxs]; rfl, hrun⟩)
      · refine ⟨[], [], .nil, Or.inr (Or.inr ⟨f, xs, e, s', rfl, hf, hs', ?_⟩)⟩
        exact bind_of_error hread

end Documents

/-! ## Names in working directories -/

/-- A path below which nothing is read, nor below the names there. -/
inductive Idle (disk : Disk C) : List Text → Prop where
  | intro (path : List Text) (files : ∀ v ∈ disk.walk path, policyFiles v = [])
      (names : ∀ v ∈ disk.walk path, ∀ name ∈ subdirs v, Idle disk (disk.abspath name)) :
      Idle disk path

theorem exists_bound {α : Type} {P : α → Nat → Prop} {xs : List α}
    (h : ∀ x ∈ xs, ∃ n, ∀ m, n ≤ m → P x m) : ∃ n, ∀ m, n ≤ m → ∀ x ∈ xs, P x m := by
  induction xs with
  | nil => exact ⟨0, by simp⟩
  | cons x xs ih =>
    rw [List.forall_mem_cons] at h
    obtain ⟨n, hn⟩ := h.1
    obtain ⟨n', hn'⟩ := ih h.2
    refine ⟨max n n', fun m hm => List.forall_mem_cons.mpr ⟨hn m ?_, hn' m ?_⟩⟩
    · exact le_trans (le_max_left ..) hm
    · exact le_trans (le_max_right ..) hm

theorem plan_of_idle {disk : Disk C} {path : List Text} (h : Idle disk path) :
    ∃ n, ∀ m, n ≤ m → plan disk true m path = [] := by
  induction h with
  | intro path files names ih =>
    have hnames : ∀ name ∈ (disk.walk path).flatMap subdirs,
        ∃ n, ∀ m, n ≤ m → plan disk true m (disk.abspath name) = [] := by
      intro name hname
      obtain ⟨v, hv, hname⟩ := List.mem_flatMap.mp hname
      exact ih v hv name hname
    obtain ⟨n, hn⟩ := exists_bound hnames
    refine ⟨n + 1, fun m hm => ?_⟩
    obtain ⟨m, rfl⟩ : ∃ k, m = k + 1 := ⟨m - 1, by omega⟩
    rw [plan, if_pos rfl, List.flatMap_eq_nil_iff]
    intro v hv
    rw [files v hv, List.map_nil, List.nil_append, List.flatMap_eq_nil_iff]
    exact fun name hname => hn m (by omega) name (List.mem_flatMap.mpr ⟨v, hv, hname⟩)

theorem idle_of_plan {disk : Disk C} (limit : Nat) {path : List Text}
    (h : plan disk true limit path = []) : Idle disk path := by
  induction limit generalizing path with
  | zero => cases h
  | succ limit ih =>
    rw [plan, if_pos rfl, List.flatMap_eq_nil_iff] at h
    refine .intro path (fun v hv => ?_) (fun v hv name hname => ?_)
    · exact List.map_eq_nil_iff.mp (List.append_eq_nil_iff.mp (h v hv)).1
    · exact ih (List.flatMap_eq_nil_iff.mp (List.append_eq_nil_iff.mp (h v hv)).2 name hname)

/-- The names below a directory give nothing to read against the working directory. -/
def Apart (disk : Disk C) (directory : List Text) : Prop :=
  ∀ v ∈ disk.walk directory, ∀ name ∈ subdirs v, Idle disk (disk.abspath name)

/-! ## The files of a directory -/

/-- A policy file of a directory, which is directly in it without recursion. -/
structure IsPolicyFile (disk : Disk C) (recurse : Bool) (directory : List Text) (f : File C) :
    Prop where
  contents : disk.root.find f.path = some (.leaf f.contents)
  below : ∃ rel name, f.path = directory ++ rel ++ [name] ∧ (∀ k ∈ rel, isHidden k = false) ∧
    isHidden name = false ∧ fmt name ∈ formats ∧ (recurse = false → rel = [])

/-- The directories that are looked into for files. -/
def visits (disk : Disk C) (recurse : Bool) (directory : List Text) : List (Visit C) :=
  if recurse then disk.walk directory else (disk.walk directory).head?.toList

def filesIn (disk : Disk C) (recurse : Bool) (directory : List Text) : List (File C) :=
  (visits disk recurse directory).flatMap policyFiles

/-- A directory that is come to, by its path below the given one. -/
structure Comes (disk : Disk C) (directory rel : List Text) (v : Visit C) : Prop where
  kept : ∀ k ∈ rel, isHidden k = false
  visit : ∃ es, disk.root.find (directory ++ rel) = some (.dict es) ∧
    v = ⟨directory ++ rel, es.dirs, es.files⟩

theorem Disk.mem_walk {disk : Disk C} {directory : List Text} {v : Visit C} :
    v ∈ disk.walk directory ↔ ∃ rel, Comes disk directory rel v := by
  unfold Disk.walk
  cases hfind : disk.root.find directory with
  | none =>
    refine ⟨fun hv => absurd hv List.not_mem_nil, fun ⟨rel, hrel⟩ => ?_⟩
    obtain ⟨es, hes, -⟩ := hrel.visit
    rw [Nested.find_append, hfind] at hes
    cases hes
  | some t =>
    simp only [Nested.mem_walk (Nested.distinct_of_find disk.distinct hfind)]
    refine exists_congr fun rel => ?_
    constructor
    · intro h
      obtain ⟨es, hes, hv⟩ := h.visit
      refine ⟨fun k hk => by simpa using h.kept k hk, es, ?_, hv⟩
      rw [Nested.find_append, hfind]
      exact hes
    · intro h
      obtain ⟨es, hes, hv⟩ := h.visit
      rw [Nested.find_append, hfind] at hes
      exact ⟨fun k hk => by simpa using h.kept k hk, es, hes, hv⟩

theorem Disk.head?_walk {disk : Disk C} {directory : List Text} {v : Visit C} :
    (disk.walk directory).head? = some v ↔ Comes disk directory [] v := by
  unfold Disk.walk
  constructor
  · intro hv
    split at hv
    · rename_i t hfind
      cases t with
      | leaf a =>
        rw [Nested.walk] at hv
        cases hv
      | dict es =>
        rw [Nested.walk] at hv
        cases hv
        exact ⟨by simp, es, by rw [List.append_nil]; exact hfind, by rw [List.append_nil]⟩
    · cases hv
  · intro h
    obtain ⟨es, hes, rfl⟩ := h.visit
    rw [List.append_nil] at hes
    simp only [List.append_nil]
    rw [hes]
    simp only [Nested.walk]
    rfl

theorem mem_visits {disk : Disk C} {recurse : Bool} {directory : List Text} {v : Visit C} :
    v ∈ visits disk recurse directory ↔
      ∃ rel, Comes disk directory rel v ∧ (recurse = false → rel = []) := by
  cases recurse with
  | true => simp [visits, Disk.mem_walk]
  | false => simp [visits, Disk.head?_walk]

theorem mem_policyFiles {disk : Disk C} {directory rel : List Text} {v : Visit C}
    (h : Comes disk directory rel v) {f : File C} :
    f ∈ policyFiles v ↔ disk.root.find f.path = some (.leaf f.contents) ∧
      ∃ name, f.path = directory ++ rel ++ [name] ∧ isHidden name = false ∧ fmt name ∈ formats := by
  obtain ⟨es, hes, rfl⟩ := h.visit
  have hdistinct : es.distinct = true := Nested.distinct_of_find disk.distinct hes
  have hfind : ∀ name, disk.root.find (directory ++ rel ++ [name]) = es.lookup name := by
    intro name
    rw [Nested.find_append, hes]
    show (es.lookup name).bind (Nested.find []) = es.lookup name
    cases es.lookup name <;> rfl
  simp only [policyFiles, List.mem_map, List.mem_filter, Bool.and_eq_true, Bool.not_eq_true',
    decide_eq_true_eq]
  constructor
  · rintro ⟨⟨name, a⟩, ⟨hmem, hhidden, hfmt⟩, rfl⟩
    exact ⟨(hfind name).trans ((Entries.mem_files hdistinct).mp hmem), name, rfl, hhidden, hfmt⟩
  · rintro ⟨hleaf, name, hpath, hhidden, hfmt⟩
    rw [hpath, hfind] at hleaf
    obtain ⟨path, contents⟩ := f
    cases hpath
    exact ⟨(name, contents), ⟨(Entries.mem_files hdistinct).mpr hleaf, hhidden, hfmt⟩, rfl⟩

theorem mem_filesIn {disk : Disk C} {recurse : Bool} {directory : List Text} {f : File C} :
    f ∈ filesIn disk recurse directory ↔ IsPolicyFile disk recurse directory f := by
  rw [filesIn, List.mem_flatMap]
  simp only [mem_visits]
  constructor
  · rintro ⟨v, ⟨rel, hv, hrecurse⟩, hf⟩
    obtain ⟨hleaf, name, hpath, hhidden, hfmt⟩ := (mem_policyFiles hv).mp hf
    exact ⟨hleaf, rel, name, hpath, hv.kept, hhidden, hfmt, hrecurse⟩
  · rintro ⟨hleaf, rel, name, hpath, hkept, hhidden, hfmt, hrecurse⟩
    have hparent := hleaf
    rw [hpath, Nested.find_append] at hparent
    obtain ⟨t, ht, hname⟩ := Option.bind_eq_some_iff.mp hparent
    cases t with
    | leaf a => cases hname
    | dict es =>
      have hv : Comes disk directory rel ⟨directory ++ rel, es.dirs, es.files⟩ :=
        ⟨hkept, es, ht, rfl⟩
      exact ⟨_, ⟨rel, hv, hrecurse⟩, (mem_policyFiles hv).mpr ⟨hleaf, name, hpath, hhidden, hfmt⟩⟩

theorem filesIn_sublist (disk : Disk C) (recurse : Bool) (directory : List Text) :
    (filesIn disk recurse directory).Sublist (filesIn disk true directory) := by
  cases recurse with
  | true => exact List.Sublist.refl _
  | false =>
    rw [filesIn, filesIn, visits, visits, if_neg Bool.false_ne_true, if_pos rfl]
    cases disk.walk directory with
    | nil => exact List.Sublist.refl _
    | cons v vs =>
      rw [List.head?_cons, Option.toList_some, List.flatMap_cons, List.flatMap_nil,
        List.flatMap_cons]
      exact (List.Sublist.refl _).append (List.nil_sublist _)

theorem map_path_policyFiles (v : Visit C) :
    (policyFiles v).map File.path = v.paths fun v =>
      (v.files.filter fun f => !isHidden f.1 && decide (fmt f.1 ∈ formats)).map Prod.fst := by
  simp only [policyFiles, Visit.paths, List.map_map]
  rfl

theorem nodup_filesIn (disk : Disk C) (recurse : Bool) (directory : List Text) :
    ((filesIn disk recurse directory).map File.path).Nodup := by
  refine ((filesIn_sublist disk recurse directory).map File.path).nodup ?_
  rw [filesIn, visits, if_pos rfl, List.map_flatMap]
  simp only [map_path_policyFiles]
  unfold Disk.walk
  cases hfind : disk.root.find directory with
  | none => exact List.nodup_nil
  | some t =>
    have ht : t.distinct = true := Nested.distinct_of_find disk.distinct hfind
    refine Nested.nodup_flatMap_walk ht directory fun v hv => ?_
    obtain ⟨rel, hrel⟩ := (Nested.mem_walk ht).mp hv
    obtain ⟨es, hes, rfl⟩ := hrel.visit
    have hkeys := Entries.nodup_keys (Nested.distinct_of_find ht hes)
    exact ((List.filter_sublist.map Prod.fst).trans es.files_keys_sublist).nodup hkeys

/-- A policy file anywhere on the disk. -/
structure Disk.Has (disk : Disk C) (f : File C) : Prop where
  contents : disk.root.find f.path = some (.leaf f.contents)
  named : ∃ dir name, f.path = dir ++ [name] ∧ isHidden name = false ∧ fmt name ∈ formats

theorem Disk.has_of_mem_walk {disk : Disk C} {path : List Text} {v : Visit C}
    (hv : v ∈ disk.walk path) {f : File C} (hf : f ∈ policyFiles v) : disk.Has f := by
  obtain ⟨rel, hrel⟩ := Disk.mem_walk.mp hv
  obtain ⟨hleaf, name, hpath, hhidden, hfmt⟩ := (mem_policyFiles hrel).mp hf
  exact ⟨hleaf, _, name, hpath, hhidden, hfmt⟩

/-! ## Plans of a directory -/

theorem has_of_mem_plan {disk : Disk C} {limit : Nat} {path : List Text} {f : File C}
    (h : some f ∈ plan disk true limit path) : disk.Has f := by
  induction limit generalizing path with
  | zero => simp [plan] at h
  | succ limit ih =>
    rw [plan, if_pos rfl] at h
    obtain ⟨v, hv, h⟩ := List.mem_flatMap.mp h
    rcases List.mem_append.mp h with h | h
    · obtain ⟨g, hg, hgf⟩ := List.mem_map.mp h
      cases hgf
      exact Disk.has_of_mem_walk hv hg
    · obtain ⟨name, -, h⟩ := List.mem_flatMap.mp h
      exact ih h

theorem plan_of_not_recurse (disk : Disk C) (limit : Nat) (directory : List Text) :
    plan disk false (limit + 1) directory = (filesIn disk false directory).map some := by
  rw [plan, if_neg Bool.false_ne_true, filesIn, visits, if_neg Bool.false_ne_true]
  cases disk.walk directory with
  | nil => rfl
  | cons v vs => simp

theorem plan_of_apart {disk : Disk C} {directory : List Text} (h : Apart disk directory) :
    ∃ limit, plan disk true limit directory = (filesIn disk true directory).map some := by
  have hnames : ∀ name ∈ (disk.walk directory).flatMap subdirs,
      ∃ n, ∀ m, n ≤ m → plan disk true m (disk.abspath name) = [] := by
    intro name hname
    obtain ⟨v, hv, hname⟩ := List.mem_flatMap.mp hname
    exact plan_of_idle (h v hv name hname)
  obtain ⟨n, hn⟩ := exists_bound hnames
  refine ⟨n + 1, ?_⟩
  rw [plan, if_pos rfl, filesIn, visits, if_pos rfl, List.map_flatMap]
  refine List.flatMap_congr fun v hv => ?_
  have hnil : ((subdirs v).flatMap fun name => plan disk true n (disk.abspath name)) = [] := by
    rw [List.flatMap_eq_nil_iff]
    exact fun name hname => hn n le_rfl name (List.mem_flatMap.mpr ⟨v, hv, hname⟩)
  rw [hnil, List.append_nil]

theorem apart_of_plan {disk : Disk C} {limit : Nat} {directory : List Text} {fs : List (File C)}
    (hplan : plan disk true limit directory = fs.map some) (hnodup : (fs.map File.path).Nodup)
    (honly : ∀ f ∈ fs, f ∈ filesIn disk true directory) : Apart disk directory := by
  cases limit with
  | zero =>
    cases fs with
    | nil => cases hplan
    | cons f fs => cases hplan
  | succ limit =>
    intro v hv name hname
    apply idle_of_plan limit
    have hperm : (fs.map some).Perm ((filesIn disk true directory).map some ++
        (disk.walk directory).flatMap fun v =>
          (subdirs v).flatMap fun name => plan disk true limit (disk.abspath name)) := by
      rw [← hplan, plan, if_pos rfl, filesIn, visits, if_pos rfl, List.map_flatMap]
      exact (List.flatMap_append_perm _ _ _).symm
    have hdisjoint := List.disjoint_of_nodup_append
      (hperm.nodup_iff.mp ((List.Nodup.of_map _ hnodup).map fun _ _ => Option.some.inj))
    rw [List.eq_nil_iff_forall_not_mem]
    intro x hx
    have hrest : x ∈ (disk.walk directory).flatMap fun v =>
        (subdirs v).flatMap fun name => plan disk true limit (disk.abspath name) :=
      List.mem_flatMap.mpr ⟨v, hv, List.mem_flatMap.mpr ⟨name, hname, hx⟩⟩
    obtain ⟨f, hf, rfl⟩ := List.mem_map.mp
      (hperm.mem_iff.mpr (List.mem_append_right _ hrest))
    exact hdisjoint (List.mem_map_of_mem (honly f hf)) hrest

/-! ## Duplicates -/

theorem exists_of_flatten {α : Type} {xss : List (List α)} {i j : Nat} {a b : α} (hij : i < j)
    (hi : xss.flatten[i]? = some a) (hj : xss.flatten[j]? = some b) :
    ∃ (k l x y : Nat) (xs ys : List α), (k < l ∨ k = l ∧ x < y) ∧ xss[k]? = some xs ∧
      xss[l]? = some ys ∧ xs[x]? = some a ∧ ys[y]? = some b := by
  induction xss generalizing i j with
  | nil => cases hi
  | cons xs xss ih =>
    rw [List.flatten_cons] at hi hj
    by_cases hjs : j < xs.length
    · rw [List.getElem?_append_left (hij.trans hjs)] at hi
      rw [List.getElem?_append_left hjs] at hj
      exact ⟨0, 0, i, j, xs, xs, Or.inr ⟨rfl, hij⟩, rfl, rfl, hi, hj⟩
    · rw [List.getElem?_append_right (not_lt.mp hjs)] at hj
      by_cases his : i < xs.length
      · rw [List.getElem?_append_left his] at hi
        obtain ⟨ys, hys, hb⟩ := List.mem_flatten.mp (List.mem_of_getElem? hj)
        obtain ⟨l, hl⟩ := List.mem_iff_getElem?.mp hys
        obtain ⟨y, hy⟩ := List.mem_iff_getElem?.mp hb
        exact ⟨0, l + 1, i, y, xs, ys, Or.inl (Nat.succ_pos l), rfl, hl, hi, hy⟩
      · rw [List.getElem?_append_right (not_lt.mp his)] at hi
        obtain ⟨k, l, x, y, zs, ys, horder, hk, hl, hx, hy⟩ := ih (by omega) hi hj
        exact ⟨k + 1, l + 1, x, y, zs, ys, by omega, hk, hl, hx, hy⟩

namespace Documents

variable [DecidableEq V] (docs : Documents C V E R)

theorem checkNames_duplicate {names ps : List V} {name : V}
    (h : docs.checkNames names ps = (.error (.duplicate name) : Except (Failure V E) Unit)) :
    ∃ (j : Nat) (q : V), ps[j]? = some q ∧ docs.index q "name".toList = .ok name ∧
      (name ∈ names ∨ ∃ i < j, ∃ p, ps[i]? = some p ∧ docs.index p "name".toList = .ok name) := by
  induction ps generalizing names with
  | nil => cases h
  | cons p ps ih =>
    rw [checkNames] at h
    cases hp : docs.index p "name".toList with
    | error e =>
      simp only [hp] at h
      cases h
    | ok own =>
      simp only [hp] at h
      by_cases hown : own ∈ names
      · rw [if_pos hown] at h
        cases h
        exact ⟨0, p, rfl, hp, Or.inl hown⟩
      · rw [if_neg hown] at h
        obtain ⟨j, q, hj, hq, hbefore⟩ := ih h
        refine ⟨j + 1, q, hj, hq, ?_⟩
        rcases hbefore with hmem | ⟨i, hij, p', hi, hp'⟩
        · rcases List.mem_append.mp hmem with hmem | hmem
          · exact Or.inl hmem
          · rw [List.mem_singleton] at hmem
            exact Or.inr ⟨0, Nat.succ_pos j, p, rfl, hmem ▸ hp⟩
        · exact Or.inr ⟨i + 1, Nat.succ_lt_succ hij, p', hi, hp'⟩

/-- The policy at a place of a file has a name. -/
def Named (f : File C) (i : Nat) (name : V) : Prop :=
  ∃ data policies p, docs.loadFile f.path f.contents = .ok data ∧
    docs.policiesOf data = .ok policies ∧ policies[i]? = some p ∧
      docs.index p "name".toList = .ok name

/-- Two policies in some files have a name. -/
def TwoNamed (fs : File C → Prop) (name : V) : Prop :=
  ∃ f g i j, fs f ∧ fs g ∧ (f.path ≠ g.path ∨ i ≠ j) ∧ docs.Named f i name ∧ docs.Named g j name

theorem mapError_eq_ok {ε ε' α : Type} {g : ε → ε'} {x : Except ε α} {a : α} :
    x.mapError g = .ok a ↔ x = .ok a := by
  cases x <;> simp [Except.mapError]

theorem mapError_eq_error {ε ε' α : Type} {g : ε → ε'} {x : Except ε α} {e : ε'} :
    x.mapError g = .error e ↔ ∃ e', x = .error e' ∧ g e' = e := by
  cases x <;> simp [Except.mapError]

theorem checkNames_error {names ps : List V} {e : Failure V E}
    (h : docs.checkNames names ps = .error e) :
    (∃ exn, e = .raised exn) ∨ ∃ name, e = .duplicate name := by
  induction ps generalizing names with
  | nil => cases h
  | cons p ps ih =>
    rw [checkNames] at h
    split at h
    · cases h
      exact Or.inl ⟨_, rfl⟩
    · split at h
      · cases h
        exact Or.inr ⟨_, rfl⟩
      · exact ih h

theorem finish_cases {s : State V E} {e : Failure V E}
    (h : docs.finish s = (.error e : Except (Failure V E) R)) :
    e = .invalid s.errors ∨ (∃ exn, e = .raised exn) ∨ ∃ name policies, e = .duplicate name ∧
      s.rawPolicies.mapM docs.policiesOf = .ok policies ∧
        docs.checkNames [] policies.flatten = (.error e : Except (Failure V E) Unit) := by
  rw [finish] at h
  split at h
  · cases h
    exact Or.inl rfl
  · rcases bind_eq_error.mp h with h | ⟨policies, hpolicies, h⟩
    · obtain ⟨exn, -, h⟩ := mapError_eq_error.mp h
      exact Or.inr (Or.inl ⟨exn, h.symm⟩)
    · rcases bind_eq_error.mp h with h | ⟨_, -, h⟩
      · rcases docs.checkNames_error h with hexn | ⟨name, rfl⟩
        · exact Or.inr (Or.inl hexn)
        · exact Or.inr (Or.inr ⟨name, policies, rfl, mapError_eq_ok.mp hpolicies, h⟩)
      · obtain ⟨exn, -, h⟩ := mapError_eq_error.mp h
        exact Or.inr (Or.inl ⟨exn, h.symm⟩)

omit [DecidableEq V] in
theorem named_of_getElem? {fs : List (File C)} {ds : List V} {policies : List (List V)}
    (hread : List.Forall₂ (fun f d => docs.loadFile f.path f.contents = .ok d) fs ds)
    (hpolicies : List.Forall₂ (fun d ps => docs.policiesOf d = .ok ps) ds policies) {k x : Nat}
    {ps : List V} {p name : V} (hk : policies[k]? = some ps) (hx : ps[x]? = some p)
    (hname : docs.index p "name".toList = .ok name) : ∃ f, fs[k]? = some f ∧ docs.Named f x name := by
  induction hread generalizing policies k with
  | nil =>
    cases hpolicies
    cases hk
  | cons hd _ ih =>
    cases hpolicies with
    | cons hps hrest =>
      cases k with
      | zero =>
        cases hk
        exact ⟨_, rfl, _, _, p, hd, hps, hx, hname⟩
      | succ k => exact ih hrest hk

theorem finish_duplicate {fs : List (File C)} {s : State V E} {name : V}
    (hread : List.Forall₂ (fun f d => docs.loadFile f.path f.contents = .ok d) fs s.rawPolicies)
    (hnodup : (fs.map File.path).Nodup)
    (h : docs.finish s = (.error (.duplicate name) : Except (Failure V E) R)) :
    docs.TwoNamed (· ∈ fs) name := by
  rcases docs.finish_cases h with h | ⟨exn, h⟩ | ⟨_, policies, -, hpolicies, h⟩
  · cases h
  · cases h
  rw [mapM_eq_ok] at hpolicies
  obtain ⟨j, q, hj, hq, hmem | ⟨i, hij, p, hi, hp⟩⟩ := docs.checkNames_duplicate h
  · cases hmem
  obtain ⟨k, l, x, y, ps, qs, horder, hk, hl, hx, hy⟩ := exists_of_flatten hij hi hj
  obtain ⟨f, hf, hfx⟩ := docs.named_of_getElem? hread hpolicies hk hx hp
  obtain ⟨g, hg, hgy⟩ := docs.named_of_getElem? hread hpolicies hl hy hq
  refine ⟨f, g, x, y, List.mem_of_getElem? hf, List.mem_of_getElem? hg, ?_, hfx, hgy⟩
  rcases horder with hkl | ⟨-, hxy⟩
  · left
    intro hpath
    have hkpath : (fs.map File.path)[k]? = some f.path := by rw [List.getElem?_map, hf]; rfl
    have hlpath : (fs.map File.path)[l]? = some f.path := by
      rw [List.getElem?_map, hg, hpath]
      rfl
    obtain ⟨hlt, -⟩ := List.getElem?_eq_some_iff.mp hkpath
    exact hkl.ne ((List.getElem?_inj hlt hnodup).mp (hkpath.trans hlpath.symm))
  · exact Or.inr hxy.ne

end Documents

/-! ## The result -/

/-- How a run has ended, if with a failure, and its state. -/
def failure {α : Type} : EStateM.Result (Failure V E) (State V E) α → Option (Failure V E)
  | .ok _ _ => none
  | .error e _ => some e

def finalState {α : Type} : EStateM.Result (Failure V E) (State V E) α → State V E
  | .ok _ s => s
  | .error _ s => s

/-- A run that ends, reads each policy file of the directory once and no other, unless it stops
at one that cannot be read, and that finds only true duplicates. -/
structure ReadsOnce [DecidableEq V] (docs : Documents C V E R) (disk : Disk C) (recurse : Bool)
    (directory : List Text) {α : Type} (out : EStateM.Result (Failure V E) (State V E) α) :
    Prop where
  terminates : failure out ≠ some .recursion
  once : (finalState out).reads.Nodup
  only : ∀ path ∈ (finalState out).reads,
    ∃ f, IsPolicyFile disk recurse directory f ∧ f.path = path
  all : (∀ path e, failure out ≠ some (.unreadable path e)) →
    ∀ f, IsPolicyFile disk recurse directory f → f.path ∈ (finalState out).reads
  duplicate : ∀ name, failure out = some (.duplicate name) →
    docs.TwoNamed (IsPolicyFile disk recurse directory) name

/-- Some number of nested calls suffices for a run that reads every file once. -/
def LoadsOnce [DecidableEq V] (docs : Documents C V E R) (disk : Disk C) (directory : List Text)
    (validate recurse : Bool) : Prop :=
  ∃ limit, ReadsOnce docs disk recurse directory
    (docs.loadDirectory disk directory validate recurse limit ⟨[], [], []⟩)

section Result

variable [DecidableEq V] {docs : Documents C V E R} {disk : Disk C} {directory : List Text}
variable {validate recurse : Bool}

theorem loadDirectory_of_ok {limit : Nat} {s s' : State V E}
    (h : docs.load disk recurse validate limit directory s = .ok () s') :
    finalState (docs.loadDirectory disk directory validate recurse limit s) = s' ∧
      ∀ e, failure (docs.loadDirectory disk directory validate recurse limit s) = some e ↔
        docs.finish s' = .error e := by
  have hrun : docs.loadDirectory disk directory validate recurse limit s =
      (match docs.finish s' with
        | .ok collection => pure collection
        | .error e => throw e : Load V E R) s' := Documents.bind_of_ok h
  rw [hrun]
  cases docs.finish s' with
  | ok collection =>
    refine ⟨rfl, fun e => ⟨fun h => ?_, fun h => ?_⟩⟩
    · cases h
    · cases h
  | error e =>
    refine ⟨rfl, fun e' => ⟨fun h => ?_, fun h => ?_⟩⟩
    · cases h
      rfl
    · cases h
      rfl

theorem readsOnce_of_plan {limit : Nat}
    (h : plan disk recurse limit directory = (filesIn disk recurse directory).map some) :
    ReadsOnce docs disk recurse directory
      (docs.loadDirectory disk directory validate recurse limit ⟨[], [], []⟩) := by
  have hnodup := nodup_filesIn disk recurse directory
  have hload := docs.load_eq_perform disk recurse validate limit directory
  rw [h] at hload
  obtain ⟨fs, ds, hread, ⟨hxs, errors, hrun⟩ | ⟨rest, s', hxs, -⟩ |
    ⟨f, rest, e, s', hxs, -, hreads, hrun⟩⟩ := docs.perform_spec validate
      ((filesIn disk recurse directory).map some) ⟨[], [], []⟩
  · -- every file is read
    have hfs : filesIn disk recurse directory = fs :=
      List.map_injective_iff.mpr (fun _ _ => Option.some.inj) hxs
    rw [← hload] at hrun
    simp only [List.nil_append] at hrun
    obtain ⟨hstate, hfailure⟩ := loadDirectory_of_ok hrun
    have hmem : ∀ f, f ∈ fs ↔ IsPolicyFile disk recurse directory f := fun f => by
      rw [← hfs, mem_filesIn]
    rw [hfs] at hnodup
    refine ⟨?_, ?_, ?_, ?_, ?_⟩
    · intro hrec
      rcases docs.finish_cases ((hfailure _).mp hrec) with h | ⟨exn, h⟩ | ⟨name, ps, h, -⟩ <;>
        cases h
    · rw [hstate]
      exact hnodup
    · rw [hstate]
      intro path hpath
      obtain ⟨f, hf, rfl⟩ := List.mem_map.mp hpath
      exact ⟨f, (hmem f).mp hf, rfl⟩
    · rw [hstate]
      exact fun _ f hf => List.mem_map_of_mem ((hmem f).mpr hf)
    · intro name hname
      obtain ⟨f, g, i, j, hf, hg, hne, hfi, hgj⟩ :=
        docs.finish_duplicate hread hnodup ((hfailure _).mp hname)
      exact ⟨f, g, i, j, (hmem f).mp hf, (hmem g).mp hg, hne, hfi, hgj⟩
  · -- no call is one too many
    have hnone : none ∈ (filesIn disk recurse directory).map some := by
      rw [hxs]
      simp
    simp at hnone
  · -- it stops at a file
    rw [← hload] at hrun
    obtain ⟨gs, hs, hfiles, hgs, hhs⟩ := List.map_eq_append_iff.mp hxs
    obtain ⟨f', rest', rfl, hf', -⟩ := List.map_eq_cons_iff.mp hhs
    cases hf'
    have hgs : gs = fs := List.map_injective_iff.mpr (fun _ _ => Option.some.inj) hgs
    rw [hgs] at hfiles
    have hbefore : fs ++ [f] <+: filesIn disk recurse directory :=
      ⟨rest', by rw [hfiles, List.append_assoc, List.singleton_append]⟩
    have hout : docs.loadDirectory disk directory validate recurse limit ⟨[], [], []⟩ =
        .error (.unreadable f.path e) s' := Documents.bind_of_error hrun
    have hreads : s'.reads = (fs ++ [f]).map File.path := by
      rw [hreads, List.map_append]
      rfl
    rw [hout]
    refine ⟨?_, ?_, ?_, ?_, ?_⟩
    · exact fun h => by cases h
    · show s'.reads.Nodup
      rw [hreads]
      exact (hbefore.sublist.map File.path).nodup hnodup
    · intro path hpath
      have hpath : path ∈ s'.reads := hpath
      rw [hreads] at hpath
      obtain ⟨g, hg, rfl⟩ := List.mem_map.mp hpath
      exact ⟨g, mem_filesIn.mp (hbefore.subset hg), rfl⟩
    · exact fun h => absurd rfl (h f.path e)
    · exact fun _ h => by cases h

theorem apart_of_readsOnce {limit : Nat}
    (hreadable : ∀ f, disk.Has f → docs.Readable validate f)
    (h : ReadsOnce docs disk true directory
      (docs.loadDirectory disk directory validate true limit ⟨[], [], []⟩)) :
    Apart disk directory := by
  have hload := docs.load_eq_perform disk true validate limit directory
  obtain ⟨fs, ds, -, ⟨hxs, errors, hrun⟩ | ⟨rest, s', -, -, hrun⟩ |
    ⟨f, rest, e, s', hxs, hf, -⟩⟩ := docs.perform_spec validate
      (plan disk true limit directory) ⟨[], [], []⟩
  · rw [← hload] at hrun
    simp only [List.nil_append] at hrun
    have hstate := (loadDirectory_of_ok hrun).1
    have honce := h.once
    have honly := h.only
    rw [hstate] at honce honly
    refine apart_of_plan hxs honce fun f hf => ?_
    obtain ⟨g, hg, hpath⟩ := honly f.path (List.mem_map_of_mem hf)
    have hplan : some f ∈ plan disk true limit directory := by
      rw [hxs]
      exact List.mem_map_of_mem hf
    have hleaf := (has_of_mem_plan hplan).contents
    rw [← hpath, hg.contents] at hleaf
    have hgf : g = f := by
      cases f
      cases g
      cases hpath
      cases hleaf
      rfl
    exact hgf ▸ mem_filesIn.mpr hg
  · rw [← hload] at hrun
    have hout : docs.loadDirectory disk directory validate true limit ⟨[], [], []⟩ =
        .error .recursion s' := Documents.bind_of_error hrun
    have hterm := h.terminates
    rw [hout] at hterm
    exact absurd rfl hterm
  · have hplan : some f ∈ plan disk true limit directory := by
      rw [hxs]
      simp
    exact absurd (hreadable f (has_of_mem_plan hplan)) hf

end Result

/-! ## A process in the directory itself -/

/-- Documents that are lists of the names of their policies. -/
def sampleDocuments : Documents (List Text) (List Text) Unit Nat where
  yamlLoad names := .ok names
  jsonLoads names := .ok names
  validate _ := .ok []
  get names _ := .ok (some names)
  truthy names := !names.isEmpty
  index v _ := .ok v
  iter names := .ok (names.map fun name => [name])
  loadData policies := .ok policies.length

/-- A directory with a file and a directory with a file, where the process is in it. -/
def sampleDisk : Disk (List Text) where
  root := .dict (.cons "policies".toList (.dict
    (.cons "ec2.yml".toList (.leaf ["old-ami".toList])
      (.cons "aws".toList (.dict (.cons "s3.yml".toList (.leaf ["open-acl".toList]) .nil)) .nil)))
    .nil)
  distinct := by decide +kernel
  cwd := ["policies".toList]

theorem sampleDisk_readable (f : File (List Text)) : sampleDocuments.Readable true f := by
  refine ⟨f.contents, [], ?_, rfl⟩
  unfold Documents.loadFile
  exact ite_self _

/-- The file in the inner directory is read twice, so its policy is taken for two. -/
theorem sampleDisk_duplicate :
    ¬ LoadsOnce sampleDocuments sampleDisk ["policies".toList] true true ∧
      failure (sampleDocuments.loadDirectory sampleDisk ["policies".toList] true true 2
        ⟨[], [], []⟩) = some (.duplicate ["open-acl".toList]) := by
  refine ⟨fun ⟨limit, h⟩ => ?_, by rfl⟩
  have hapart := apart_of_readsOnce (fun f _ => sampleDisk_readable f) h
  have hidle : Idle sampleDisk ["policies".toList, "aws".toList] :=
    hapart ⟨["policies".toList], ["aws".toList], [("ec2.yml".toList, ["old-ami".toList])]⟩
      (List.mem_cons_self ..) "aws".toList (by decide +kernel)
  cases hidle with
  | intro _ files _ =>
    have hnil := files ⟨["policies".toList, "aws".toList], [], [("s3.yml".toList,
      ["open-acl".toList])]⟩ (List.mem_cons_self ..)
    exact absurd (congrArg List.length hnil) (by decide +kernel)

/-- **A directory is loaded once just when the names below it give nothing against the working
directory.**  It always is where they give nothing or without recursion; elsewhere, where every
policy file can be read, some file is read twice, or one that is not in the directory, or the
calls have no end. -/
theorem loadsOnce_iff [DecidableEq V] (docs : Documents C V E R) (disk : Disk C)
    (directory : List Text) (validate recurse : Bool) :
    (recurse = false ∨ Apart disk directory → LoadsOnce docs disk directory validate recurse) ∧
      ((∀ f, disk.Has f → docs.Readable validate f) →
        (LoadsOnce docs disk directory validate recurse ↔
          recurse = false ∨ Apart disk directory)) := by
  have henough : recurse = false ∨ Apart disk directory →
      LoadsOnce docs disk directory validate recurse := by
    rintro (rfl | hapart)
    · exact ⟨1, readsOnce_of_plan (plan_of_not_recurse disk 0 directory)⟩
    · cases recurse with
      | false => exact ⟨1, readsOnce_of_plan (plan_of_not_recurse disk 0 directory)⟩
      | true =>
        obtain ⟨limit, hplan⟩ := plan_of_apart hapart
        exact ⟨limit, readsOnce_of_plan hplan⟩
  refine ⟨henough, fun hreadable => ⟨fun ⟨limit, h⟩ => ?_, henough⟩⟩
  cases recurse with
  | false => exact Or.inl rfl
  | true => exact Or.inr (apart_of_readsOnce hreadable h)

end Custodian.DirectoryLoader

import Custodian.Lib.Except
import Custodian.Lib.Items
import Custodian.Lib.Split
import Mathlib.Data.List.Chain
import Mathlib.Data.List.Perm.Subperm
import Mathlib.Logic.Relation

/-!
# Labels of the folders above a project

`ProjectPropagateLabels` of `tools/c7n_gcp/c7n_gcp/resources/resourcemanager.py` sets on a project
the labels that are configured for the folders above it, by the id of a folder, by its path or by
its name.  The paths are put together from the parents of the folders.
-/

namespace Custodian.PropagateLabels

open Py

/-! ## The service -/

structure Folder where
  name : Text
  parent : Text
  displayName : Text

/-- The `resourceId` of an ancestor or of a parent. -/
structure ResourceId where
  type : Text
  id : Text

/-- The requests to the service: the ancestors of a project, and a folder by its name. -/
structure Service where
  getAncestry : Text → List ResourceId
  getFolder : Text → Except Exn Folder

structure Project (V : Type) where
  projectId : Text
  name : Text
  parent : ResourceId
  labels : Option (List (Text × V))

/-- `folder-labels`: labels by folder. -/
structure FolderLabels (V : Type) where
  items : List (Text × List (Text × V))
  nodup : ∀ e ∈ items, (e.2.map Prod.fst).Nodup

/-- `labels.get(pk, {})` -/
def FolderLabels.get {V : Type} (labels : FolderLabels V) (pk : Text) : List (Text × V) :=
  (Items.get pk labels.items).getD []

/-! ## The hierarchy -/

def isFolder (r : ResourceId) : Bool := r.type = "folder".toList

def folderAncestors (ancestors : List ResourceId) : List Text :=
  (ancestors.filter isFolder).map ResourceId.id

/-- `load_hierarchy`: `parents`. -/
def loadHierarchy (s : Service) (projectIds : List Text) : List (Text × List Text) :=
  Items.ofList (projectIds.map fun p => (p, folderAncestors (s.getAncestry p)))

/-- `folder_ids`, a set. -/
def folderIds (parents : List (Text × List Text)) : List Text := (parents.flatMap Prod.snd).dedup

/-- The name that `Folder.get_resources` asks for. -/
def folderName (rid : Text) : Text :=
  if rid.startsWith "folders/".toList then rid else "folders/".toList ++ rid

/-- `load_folders` -/
def loadFolders (s : Service) (ids : List Text) : Except Exn (List (Text × Folder)) := do
  let fs ← ids.mapM fun rid => s.getFolder (folderName rid)
  return Items.ofList (fs.map fun f => ((splitMax '/' 1 f.name).getLastD [], f))

/-- `get_path_segments`, with the recursion limit. -/
def pathSegments (folders : List (Text × Folder)) : Nat → Text → Except Exn (List Text)
  | 0, _ => .error .recursionError
  | depth + 1, fid => do
    match Items.get fid folders with
    | none => .error .keyError
    | some f =>
      if f.parent.startsWith "folder".toList then
        return (← pathSegments folders depth (afterLast '/' f.parent)) ++ [f.displayName]
      else return [f.displayName]

/-- `'/'.join(segments)` -/
def joinPath (segments : List Text) : Text := ['/'].intercalate segments

/-- `resolve_paths`; the recursion goes no deeper than there are folders. -/
def resolvePaths (folders : List (Text × Folder)) (ids : List Text) :
    Except Exn (List (Text × Text)) := do
  let items ← ids.mapM fun fid => do
    return (fid, joinPath (← pathSegments folders (folders.length + 1) fid))
  return Items.ofList items

/-- What `load_hierarchy` and `load_metadata` leave behind. -/
structure Loaded where
  parents : List (Text × List Text)
  paths : List (Text × Text)

def load (s : Service) (projectIds : List Text) : Except Exn Loaded := do
  let parents := loadHierarchy s projectIds
  let ids := folderIds parents
  let folders ← loadFolders s ids
  return ⟨parents, ← resolvePaths folders ids⟩

/-! ## The labels of a project -/

section Diff

variable {V : Type}

/-- `d[k]` -/
def item {ν : Type} (k : Text) (d : List (Text × ν)) : Except Exn ν :=
  (Items.get k d).elim (.error .keyError) .ok

/-- The labels of a folder, under its three keys. -/
def updateFolder (labels : FolderLabels V) (m : Loaded) (hlabels : List (Text × V)) (p : Text) :
    Except Exn (List (Text × V)) := do
  let path ← item p m.paths
  return [p, path, "folders/".toList ++ p].foldl
    (fun hlabels pk => Items.overwrite hlabels (labels.get pk)) hlabels

/-- `resolve_labels` -/
def resolveLabels (labels : FolderLabels V) (m : Loaded) (projectId : Text) :
    Except Exn (List (Text × V)) := do
  let parents ← item projectId m.parents
  parents.reverse.foldlM (updateFolder labels m) []

/-- What `get_label_params` asks to update. -/
structure Update (V : Type) where
  projectId : Text
  name : Text
  parent : ResourceId
  labels : List (Text × V)

/-- `r.get('labels', {})` -/
def Project.rlabels (r : Project V) : List (Text × V) := r.labels.getD []

def getLabelParams (r : Project V) (labels : List (Text × V)) : Update V :=
  ⟨r.projectId, r.name, r.parent, labels⟩

variable [DecidableEq V]

/-- One turn of the loop of `diff`. -/
def diffProject (labels : FolderLabels V) (m : Loaded) (r : Project V) :
    Except Exn (Option (Update V)) := do
  let hlabels ← resolveLabels labels m r.projectId
  if hlabels.isEmpty then return none
  if hlabels.any fun e => Items.get e.1 r.rlabels ≠ some e.2 then
    return some (getLabelParams r (Items.overwrite r.rlabels hlabels))
  return none

def diff (labels : FolderLabels V) (m : Loaded) (rs : List (Project V)) :
    Except Exn (List (Update V)) := do
  return (← rs.mapM (diffProject labels m)).reduceOption

/-- `process`: the updates that are asked for. -/
def process (s : Service) (labels : FolderLabels V) (rs : List (Project V)) :
    Except Exn (List (Update V)) := do
  diff labels (← load s (rs.map Project.projectId)) rs

end Diff

/-! ## Hierarchies of folders -/

/-- The parent of a folder is a folder. -/
def ParentOf (folder : Text → Option Folder) (i j : Text) : Prop :=
  ∃ f, folder i = some f ∧ f.parent.startsWith "folder".toList = true ∧ afterLast '/' f.parent = j

/-- No folder is above itself. -/
def Acyclic (folder : Text → Option Folder) : Prop :=
  ∀ i, ¬ Relation.TransGen (ParentOf folder) i i

/-- The folder with an id. -/
def folderOf (folders : List Folder) (i : Text) : Option Folder :=
  folders.find? fun f => f.name = "folders/".toList ++ i

/-- The ids of a folder and of those above it, up to one that is not in a folder. -/
inductive Chain (folder : Text → Option Folder) : Text → List Text → Prop
  | root {i : Text} {f : Folder} (hf : folder i = some f)
    (hparent : f.parent.startsWith "folder".toList = false) : Chain folder i [i]
  | step {i j : Text} {ids : List Text} {f : Folder} (hf : folder i = some f)
    (hparent : f.parent = "folders/".toList ++ j) (hids : Chain folder j ids) :
    Chain folder i (i :: ids)

/-- Folders with an id in their names, none above itself, and the ancestors of projects, from the
nearest one on. -/
structure Hierarchy where
  folders : List Folder
  name_eq : ∀ f ∈ folders, ∃ i, f.name = "folders/".toList ++ i ∧ '/' ∉ i
  acyclic : Acyclic (folderOf folders)
  ancestry : Text → List ResourceId
  chain : ∀ p, folderAncestors (ancestry p) = [] ∨
    ∃ i, Chain (folderOf folders) i (folderAncestors (ancestry p))

namespace Hierarchy

def folder (h : Hierarchy) : Text → Option Folder := folderOf h.folders

/-- The service with the folders of a hierarchy. -/
def service (h : Hierarchy) : Service where
  getAncestry := h.ancestry
  getFolder name := match h.folders.find? fun f => f.name = name with
    | none => .error (.raised "HttpError".toList)
    | some f => .ok f

/-- The path to the first of the folders, which are listed from it to the root. -/
def path (h : Hierarchy) (ids : List Text) : Text :=
  joinPath (ids.filterMap fun i => (h.folder i).map Folder.displayName).reverse

variable {V : Type}

/-- The value that a folder gives to a label. -/
def named (labels : FolderLabels V) (i path k : Text) : Option V :=
  (Items.get k (labels.get ("folders/".toList ++ i))).or
    ((Items.get k (labels.get path)).or (Items.get k (labels.get i)))

/-- The value that the nearest of the folders gives to a label. -/
def nearest (h : Hierarchy) (labels : FolderLabels V) (k : Text) : List Text → Option V
  | [] => none
  | i :: ids => (named labels i (h.path (i :: ids)) k).or (nearest h labels k ids)

/-- The value that a project is to have for a label, if a folder above it names the label. -/
def inherited (h : Hierarchy) (labels : FolderLabels V) (r : Project V) (k : Text) : Option V :=
  h.nearest labels k (folderAncestors (h.ancestry r.projectId))

/-- The update of a project: it is there exactly when an inherited label is missing or different,
and sets the inherited labels and keeps the others. -/
structure Sets (h : Hierarchy) (labels : FolderLabels V) (r : Project V) (o : Option (Update V)) :
    Prop where
  isSome_iff : o.isSome ↔ ∃ k v, h.inherited labels r k = some v ∧ Items.get k r.rlabels ≠ some v
  params : ∀ u ∈ o, u = getLabelParams r u.labels
  labels : ∀ u ∈ o, ∀ k, Items.get k u.labels =
    (h.inherited labels r k).or (Items.get k r.rlabels)

/-- A project after its update. -/
def updated (r : Project V) (o : Option (Update V)) : Project V :=
  o.elim r fun u => { r with labels := some u.labels }

/-- Each project gets the labels of the folders above it, and no further update. -/
def Propagates [DecidableEq V] (h : Hierarchy) (labels : FolderLabels V) (rs : List (Project V)) :
    Prop :=
  ∃ plan : Project V → Option (Update V),
    process h.service labels rs = .ok (rs.filterMap plan) ∧ (∀ r ∈ rs, h.Sets labels r (plan r)) ∧
      process h.service labels (rs.map fun r => updated r (plan r)) = .ok []

end Hierarchy

/-! ## The recursion ends -/

section Paths

variable {folders : List (Text × Folder)}

theorem pathSegments_succ (depth : Nat) (fid : Text) :
    pathSegments folders (depth + 1) fid =
      match Items.get fid folders with
      | none => .error .keyError
      | some f =>
        if f.parent.startsWith "folder".toList then
          (pathSegments folders depth (afterLast '/' f.parent)).map (· ++ [f.displayName])
        else .ok [f.displayName] := by
  rw [pathSegments]
  cases Items.get fid folders with
  | none => rfl
  | some f =>
    simp only
    split
    · cases pathSegments folders depth (afterLast '/' f.parent) <;> rfl
    · rfl

theorem exists_walk {depth : Nat} {fid : Text}
    (h : pathSegments folders depth fid = .error .recursionError) :
    ∃ ids : List Text, ids.length = depth ∧ (∀ i ∈ ids.head?, i = fid) ∧
      ids.IsChain (ParentOf fun i => Items.get i folders) ∧ ids ⊆ folders.map Prod.fst := by
  induction depth generalizing fid with
  | zero => exact ⟨[], rfl, by simp, .nil, List.nil_subset _⟩
  | succ depth ih =>
    rw [pathSegments_succ] at h
    split at h
    · cases h
    · next f hf =>
      split at h
      · next hparent =>
        have hrest : pathSegments folders depth (afterLast '/' f.parent) =
            .error .recursionError := by
          cases hp : pathSegments folders depth (afterLast '/' f.parent) with
          | ok segments => rw [hp] at h; cases h
          | error e => rw [hp] at h; exact h
        obtain ⟨ids, hlength, hhead, hchain, hsubset⟩ := ih hrest
        refine ⟨fid :: ids, by rw [List.length_cons, hlength], by simp, ?_, ?_⟩
        · exact hchain.cons fun i hi => ⟨f, hf, hparent, (hhead i hi).symm⟩
        · refine List.cons_subset.mpr ⟨?_, hsubset⟩
          rw [← Items.isSome_get, hf]
          rfl
      · cases h

/-- **The recursion ends** when no folder is above itself. -/
theorem pathSegments_terminates (h : Acyclic fun i => Items.get i folders) {depth : Nat}
    (hdepth : folders.length < depth) (fid : Text) :
    pathSegments folders depth fid ≠ .error .recursionError := by
  intro herror
  obtain ⟨ids, hlength, -, hchain, hsubset⟩ := exists_walk herror
  have hpairwise : ids.Pairwise (Relation.TransGen (ParentOf fun i => Items.get i folders)) :=
    List.isChain_iff_pairwise.mp (hchain.imp fun _ _ hp => .single hp)
  have hnodup : ids.Nodup := by
    refine List.Pairwise.imp (fun {i j} hij => ?_) hpairwise
    rintro rfl
    exact h i hij
  have hle := (hnodup.subperm hsubset).length_le
  rw [List.length_map] at hle
  omega

theorem pathSegments_mono {depth : Nat} {fid : Text}
    (h : pathSegments folders depth fid ≠ .error .recursionError) :
    pathSegments folders (depth + 1) fid = pathSegments folders depth fid := by
  induction depth generalizing fid with
  | zero => exact absurd rfl h
  | succ depth ih =>
    rw [pathSegments_succ] at h
    rw [pathSegments_succ, pathSegments_succ depth]
    split
    · rfl
    · next f hf =>
      split
      · next hparent =>
        rw [hf] at h
        simp only [hparent, if_true] at h
        rw [ih fun herror => h (by rw [herror]; rfl)]
      · rfl

end Paths

/-! ## What is loaded -/

namespace Chain

variable {folder : Text → Option Folder} {i : Text} {ids : List Text}

theorem exists_cons (h : Chain folder i ids) : ∃ rest, ids = i :: rest := by
  cases h with
  | root => exact ⟨[], rfl⟩
  | step => exact ⟨_, rfl⟩

theorem isSome_of_mem (h : Chain folder i ids) : ∀ j ∈ ids, (folder j).isSome := by
  induction h with
  | root hf => simp [hf]
  | step hf _ _ ih =>
    rw [List.forall_mem_cons]
    exact ⟨by rw [hf]; rfl, ih⟩

theorem of_suffix (h : Chain folder i ids) : ∀ {j : Text} {rest : List Text},
    j :: rest <:+ ids → Chain folder j (j :: rest) := by
  induction h with
  | root hf hparent =>
    intro j rest hsuffix
    rw [List.suffix_cons_iff] at hsuffix
    rcases hsuffix with heq | hnil
    · cases heq
      exact .root hf hparent
    · cases List.suffix_nil.mp hnil
  | step hf hparent hids ih =>
    intro j rest hsuffix
    rw [List.suffix_cons_iff] at hsuffix
    rcases hsuffix with heq | hsuffix
    · cases heq
      exact .step hf hparent hids
    · exact ih hsuffix

end Chain

namespace Hierarchy

variable {h : Hierarchy}

theorem folder_name {i : Text} {f : Folder} (hf : h.folder i = some f) :
    f.name = "folders/".toList ++ i ∧ '/' ∉ i := by
  have hname : f.name = "folders/".toList ++ i :=
    of_decide_eq_true (List.find?_some (p := fun f : Folder => decide (f.name = _)) hf)
  obtain ⟨j, hj, hslash⟩ := h.name_eq f (List.mem_of_find?_eq_some hf)
  obtain rfl : i = j := List.append_cancel_left (hname.symm.trans hj)
  exact ⟨hname, hslash⟩

theorem getFolder_eq {i : Text} {f : Folder} (hf : h.folder i = some f) :
    h.service.getFolder (folderName i) = .ok f := by
  have hprefix : i.startsWith "folders/".toList = false := by
    rw [Bool.eq_false_iff]
    intro hprefix
    refine (folder_name hf).2 ?_
    obtain ⟨rest, rfl⟩ := List.isPrefixOf_iff_prefix.mp hprefix
    exact List.mem_append_left _ (by decide)
  have hfind : h.folders.find? (fun f => f.name = "folders/".toList ++ i) = some f := hf
  rw [folderName, hprefix, if_neg Bool.false_ne_true, service]
  simp only [hfind]

/-- The folders that are loaded, by their ids. -/
structure Finds (h : Hierarchy) (ids : List Text) (folders : List (Text × Folder)) : Prop where
  folder : ∀ i f, Items.get i folders = some f → h.folder i = some f
  isSome : ∀ i ∈ ids, (Items.get i folders).isSome

theorem Finds.acyclic {ids : List Text} {folders : List (Text × Folder)} (hfinds : h.Finds ids folders) :
    Acyclic fun i => Items.get i folders := by
  have hmono : ∀ i j, ParentOf (fun i => Items.get i folders) i j → ParentOf h.folder i j := by
    rintro i j ⟨f, hf, hparent⟩
    exact ⟨f, hfinds.folder i f hf, hparent⟩
  exact fun i hi => h.acyclic i (Relation.TransGen.mono hmono i i hi)

theorem mapM_getFolder {ids : List Text} (hids : ∀ i ∈ ids, (h.folder i).isSome) :
    ∃ fs, ids.mapM (fun rid => h.service.getFolder (folderName rid)) = .ok fs ∧
      List.Forall₂ (fun i f => h.folder i = some f) ids fs := by
  induction ids with
  | nil => exact ⟨[], rfl, .nil⟩
  | cons i ids ih =>
    rw [List.forall_mem_cons] at hids
    obtain ⟨f, hf⟩ := Option.isSome_iff_exists.mp hids.1
    obtain ⟨fs, hfs, hforall⟩ := ih hids.2
    refine ⟨f :: fs, ?_, .cons hf hforall⟩
    rw [List.mapM_cons, getFolder_eq hf, ok_bind, hfs]
    rfl

theorem key_eq {i : Text} {f : Folder} (hf : h.folder i = some f) :
    (splitMax '/' 1 f.name).getLastD [] = i := by
  have hsplit : splitMax '/' 1 ("folders".toList ++ '/' :: i) = ["folders".toList, i] :=
    splitMax_append (by decide) i 0
  rw [(folder_name hf).1]
  exact congrArg (fun ps : List Text => ps.getLastD []) hsplit

theorem loadFolders_spec {ids : List Text} (hids : ∀ i ∈ ids, (h.folder i).isSome) :
    ∃ folders, loadFolders h.service ids = .ok folders ∧ h.Finds ids folders := by
  obtain ⟨fs, hfs, hforall⟩ := mapM_getFolder hids
  have hitems : fs.map (fun f => ((splitMax '/' 1 f.name).getLastD [], f)) =
      ids.zip fs := by
    clear hfs hids
    induction hforall with
    | nil => rfl
    | cons hf _ ih => rw [List.map_cons, ih, key_eq hf, List.zip_cons_cons]
  have hkeys : (ids.zip fs).map Prod.fst = ids :=
    List.map_fst_zip hforall.length_eq.le
  have hget : ∀ i, Items.get i (Items.ofList (ids.zip fs)) =
      Items.get i (ids.zip fs).reverse := fun i => Items.lookup_ofList _ i
  refine ⟨Items.ofList (ids.zip fs), by rw [loadFolders, hfs, ok_bind, hitems]; rfl, ?_, ?_⟩
  · intro i f hf
    rw [hget] at hf
    have hmem := List.mem_reverse.mp (Items.mem_of_get hf)
    exact List.forall₂_iff_zip.mp hforall |>.2 hmem
  · intro i hi
    rw [Items.isSome_get, Items.mem_keys_ofList, hkeys]
    exact hi

/-! ## Paths -/

theorem not_mem_slash {i : Text} {chain : List Text} (hchain : Chain h.folder i chain) : '/' ∉ i := by
  obtain ⟨rest, rfl⟩ := hchain.exists_cons
  obtain ⟨f, hf⟩ := Option.isSome_iff_exists.mp (hchain.isSome_of_mem i List.mem_cons_self)
  exact (folder_name hf).2

/-- **The path of a folder** is put together along the chain of folders above it. -/
theorem pathSegments_chain {ids : List Text} {folders : List (Text × Folder)}
    (hfinds : h.Finds ids folders) {i : Text} {chain : List Text} (hchain : Chain h.folder i chain)
    (hsubset : chain ⊆ ids) (depth : Nat) :
    pathSegments folders depth i = .error .recursionError ∨ pathSegments folders depth i =
      .ok (chain.filterMap fun j => (h.folder j).map Folder.displayName).reverse := by
  have hget : ∀ {j : Text} {f : Folder}, j ∈ ids → h.folder j = some f →
      Items.get j folders = some f := by
    intro j f hj hf
    obtain ⟨f', hf'⟩ := Option.isSome_iff_exists.mp (hfinds.isSome j hj)
    rw [hf', ← hfinds.folder j f' hf', hf]
  induction hchain generalizing depth with
  | root hf hparent =>
    cases depth with
    | zero => exact Or.inl rfl
    | succ depth =>
      rw [pathSegments_succ, hget (hsubset List.mem_cons_self) hf,
        List.filterMap_cons_some (by rw [hf]; rfl), List.filterMap_nil]
      simp only [hparent, Bool.false_eq_true, if_false]
      exact Or.inr rfl
  | @step i j chain f hf hparent hids ih =>
    cases depth with
    | zero => exact Or.inl rfl
    | succ depth =>
      obtain ⟨hmem, hrest⟩ := List.cons_subset.mp hsubset
      have hup : f.parent.startsWith "folder".toList = true ∧ afterLast '/' f.parent = j := by
        rw [hparent]
        exact ⟨rfl, afterLast_append "folders".toList (not_mem_slash hids)⟩
      rw [pathSegments_succ, hget hmem hf, List.filterMap_cons_some (by rw [hf]; rfl),
        List.reverse_cons]
      simp only [hup.1, hup.2, if_true]
      rcases ih hrest depth with herror | hok
      · exact Or.inl (by rw [herror]; rfl)
      · exact Or.inr (by rw [hok]; rfl)

/-- What is loaded knows the ancestors of the projects, and the paths of these. -/
structure Knows (h : Hierarchy) (projectIds : List Text) (m : Loaded) : Prop where
  parents : ∀ p ∈ projectIds, Items.get p m.parents = some (folderAncestors (h.ancestry p))
  path : ∀ p ∈ projectIds, ∀ i rest, i :: rest <:+ folderAncestors (h.ancestry p) →
    Items.get i m.paths = some (h.path (i :: rest))

theorem mem_folderIds {projectIds : List Text} {i : Text} :
    i ∈ folderIds (loadHierarchy h.service projectIds) ↔
      ∃ p ∈ projectIds, i ∈ folderAncestors (h.ancestry p) := by
  rw [folderIds, List.mem_dedup, List.mem_flatMap, loadHierarchy]
  constructor
  · rintro ⟨e, he, hi⟩
    obtain ⟨p, hp, rfl⟩ := List.mem_map.mp (Items.mem_of_mem_ofList he)
    exact ⟨p, hp, hi⟩
  · rintro ⟨p, hp, hi⟩
    have hget := Items.get_ofList_map (fun p => folderAncestors (h.service.getAncestry p)) hp
    exact ⟨_, Items.mem_of_get hget, hi⟩

theorem chain_of_suffix {p i : Text} {rest : List Text}
    (hsuffix : i :: rest <:+ folderAncestors (h.ancestry p)) : Chain h.folder i (i :: rest) := by
  rcases h.chain p with hnil | ⟨j, hchain⟩
  · rw [hnil, List.suffix_nil] at hsuffix
    cases hsuffix
  · exact hchain.of_suffix hsuffix

theorem load_spec (h : Hierarchy) (projectIds : List Text) :
    ∃ m, load h.service projectIds = .ok m ∧ h.Knows projectIds m := by
  have hids : ∀ i ∈ folderIds (loadHierarchy h.service projectIds), (h.folder i).isSome := by
    intro i hi
    obtain ⟨p, -, hi⟩ := mem_folderIds.mp hi
    obtain ⟨before, after, hsplit⟩ := List.append_of_mem hi
    exact (chain_of_suffix ⟨before, hsplit.symm⟩).isSome_of_mem i List.mem_cons_self
  obtain ⟨folders, hfolders, hfinds⟩ := loadFolders_spec hids
  -- the path of each folder, whatever project it is above
  have hpath : ∀ p ∈ projectIds, ∀ i rest, i :: rest <:+ folderAncestors (h.ancestry p) →
      (pathSegments folders (folders.length + 1) i).map joinPath = .ok (h.path (i :: rest)) := by
    intro p hp i rest hsuffix
    have hsubset : i :: rest ⊆ folderIds (loadHierarchy h.service projectIds) := fun j hj =>
      mem_folderIds.mpr ⟨p, hp, hsuffix.subset hj⟩
    have hends := pathSegments_terminates hfinds.acyclic (Nat.lt_succ_self _) i
    rw [(pathSegments_chain hfinds (chain_of_suffix hsuffix) hsubset _).resolve_left hends]
    rfl
  let path (i : Text) : Text :=
    ((pathSegments folders (folders.length + 1) i).map joinPath).toOption.getD []
  have hresolve : resolvePaths folders (folderIds (loadHierarchy h.service projectIds)) =
      .ok (Items.ofList ((folderIds (loadHierarchy h.service projectIds)).map
        fun i => (i, path i))) := by
    rw [resolvePaths, mapM_eq_map (g := fun i => (i, path i))]
    · rfl
    · intro i hi
      obtain ⟨p, hp, hi⟩ := mem_folderIds.mp hi
      obtain ⟨before, after, hsplit⟩ := List.append_of_mem hi
      have hok := hpath p hp i after ⟨before, hsplit.symm⟩
      cases hp' : pathSegments folders (folders.length + 1) i with
      | error e =>
        rw [hp'] at hok
        cases hok
      | ok segments =>
        simp only [path, hp']
        rfl
  refine ⟨⟨_, _⟩, by rw [load]; simp only [hfolders, ok_bind, hresolve]; rfl, ?_, ?_⟩
  · exact fun p hp => Items.get_ofList_map (fun p => folderAncestors (h.ancestry p)) hp
  · intro p hp i rest hsuffix
    have hmem : i ∈ folderIds (loadHierarchy h.service projectIds) :=
      mem_folderIds.mpr ⟨p, hp, hsuffix.subset List.mem_cons_self⟩
    have hvalue : path i = h.path (i :: rest) := by
      simp only [path, hpath p hp i rest hsuffix]
      rfl
    rw [Items.get_ofList_map path hmem, hvalue]

/-! ## The labels of a project -/

section Labels

variable {V : Type} {labels : FolderLabels V} {m : Loaded} {projectIds : List Text}

theorem nodup_get (labels : FolderLabels V) (pk : Text) :
    ((labels.get pk).map Prod.fst).Nodup := by
  rw [FolderLabels.get]
  cases hpk : Items.get pk labels.items with
  | none => exact List.nodup_nil
  | some d => exact labels.nodup _ (Items.mem_of_get hpk)

theorem updateFolder_spec (labels : FolderLabels V) {p path : Text} (hpath : Items.get p m.paths = some path)
    {hlabels : List (Text × V)} (hnodup : (hlabels.map Prod.fst).Nodup) :
    ∃ hlabels', updateFolder labels m hlabels p = .ok hlabels' ∧
      (hlabels'.map Prod.fst).Nodup ∧
      ∀ k, Items.get k hlabels' = (named labels p path k).or (Items.get k hlabels) := by
  refine ⟨_, by rw [updateFolder, item, hpath]; rfl, ?_, fun k => ?_⟩
  · exact Items.keys_nodup_overwrite (Items.keys_nodup_overwrite
      (Items.keys_nodup_overwrite hnodup _) _) _
  · rw [List.foldl_cons, List.foldl_cons, List.foldl_cons, List.foldl_nil,
      Items.get_overwrite (nodup_get ..), Items.get_overwrite (nodup_get ..),
      Items.get_overwrite (nodup_get ..), named, Option.or_assoc, Option.or_assoc]

/-- **The nearest folder that names a label** gives its value: the folders set their labels from the
farthest to the nearest. -/
theorem resolveLabels_spec (labels : FolderLabels V) (hknows : h.Knows projectIds m) {p : Text} (hp : p ∈ projectIds) :
    ∃ hlabels, resolveLabels labels m p = .ok hlabels ∧ (hlabels.map Prod.fst).Nodup ∧
      ∀ k, Items.get k hlabels = h.nearest labels k (folderAncestors (h.ancestry p)) := by
  have hsuffix : ∀ ids, ids <:+ folderAncestors (h.ancestry p) →
      ∃ hlabels, ids.reverse.foldlM (updateFolder labels m) [] = .ok hlabels ∧
        (hlabels.map Prod.fst).Nodup ∧ ∀ k, Items.get k hlabels = h.nearest labels k ids := by
    intro ids
    induction ids with
    | nil => exact fun _ => ⟨[], rfl, List.nodup_nil, fun _ => rfl⟩
    | cons i ids ih =>
      intro hids
      obtain ⟨far, hfar, hnodup, hget⟩ := ih ((List.suffix_cons i ids).trans hids)
      obtain ⟨near, hnear, hnodup', hget'⟩ :=
        updateFolder_spec labels (hknows.path p hp i ids hids) hnodup
      refine ⟨near, ?_, hnodup', fun k => by rw [hget', hget, nearest]⟩
      rw [List.reverse_cons, List.foldlM_append, hfar, ok_bind, List.foldlM_cons, hnear]
      rfl
  obtain ⟨hlabels, hok, hspec⟩ := hsuffix _ List.suffix_rfl
  refine ⟨hlabels, ?_, hspec⟩
  rw [resolveLabels, item, hknows.parents p hp]
  exact hok

variable [DecidableEq V]

theorem diffProject_spec (labels : FolderLabels V) (hknows : h.Knows projectIds m) {r : Project V}
    (hr : r.projectId ∈ projectIds) :
    ∃ o, diffProject labels m r = .ok o ∧ h.Sets labels r o := by
  obtain ⟨hlabels, hok, hnodup, hget⟩ := resolveLabels_spec labels hknows hr
  have hany : (hlabels.any fun e => Items.get e.1 r.rlabels ≠ some e.2) = true ↔
      ∃ k v, h.inherited labels r k = some v ∧ Items.get k r.rlabels ≠ some v := by
    rw [List.any_eq_true]
    constructor
    · rintro ⟨⟨k, v⟩, he, hne⟩
      rw [Items.mem_iff_get hnodup, hget] at he
      exact ⟨k, v, he, of_decide_eq_true hne⟩
    · rintro ⟨k, v, hv, hne⟩
      refine ⟨(k, v), ?_, decide_eq_true hne⟩
      rw [Items.mem_iff_get hnodup, hget]
      exact hv
  rw [diffProject, hok, ok_bind]
  cases hdelta : hlabels.any fun e => Items.get e.1 r.rlabels ≠ some e.2 with
  | false =>
    refine ⟨none, by cases hlabels.isEmpty <;> rfl, ?_, by simp, by simp⟩
    rw [← hany, hdelta]
    exact iff_of_false Bool.false_ne_true Bool.false_ne_true
  | true =>
    have hne : hlabels.isEmpty = false := by
      cases hlabels with
      | nil => cases hdelta
      | cons e es => rfl
    refine ⟨some (getLabelParams r (Items.overwrite r.rlabels hlabels)), by rw [hne]; rfl, ?_, ?_, ?_⟩
    · exact iff_of_true rfl (hany.mp hdelta)
    · rintro u hu
      cases hu
      rfl
    · rintro u hu k
      cases hu
      exact (Items.get_overwrite hnodup _ k).trans (by rw [hget]; rfl)

end Labels

/-! ## All projects -/

section Propagates

variable {V : Type} [DecidableEq V] {labels : FolderLabels V} {m : Loaded} {projectIds : List Text}

theorem diffProject_updated (hknows : h.Knows projectIds m) {r : Project V}
    (hr : r.projectId ∈ projectIds) {o : Option (Update V)} (ho : h.Sets labels r o) :
    diffProject labels m (updated r o) = .ok none := by
  have hid : (updated r o).projectId = r.projectId := by cases o <;> rfl
  obtain ⟨o', ho', hsets⟩ := diffProject_spec labels hknows (r := updated r o)
    (hid.symm ▸ hr)
  rw [ho']
  cases ho'' : o' with
  | none => rfl
  | some u' =>
    subst ho''
    obtain ⟨k, v, hv, hne⟩ := hsets.isSome_iff.mp rfl
    have hv' : h.inherited labels r k = some v := by
      rw [inherited, ← hid]
      exact hv
    refine absurd ?_ hne
    cases o with
    | none =>
      by_contra hmissing
      have hsome := ho.isSome_iff.mpr ⟨k, v, hv', hmissing⟩
      cases hsome
    | some u => exact (ho.labels u rfl k).trans (by rw [hv', Option.some_or])

theorem process_eq {rs : List (Project V)} (hm : load h.service (rs.map Project.projectId) = .ok m)
    {plan : Project V → Option (Update V)} (hplan : ∀ r ∈ rs, diffProject labels m r = .ok (plan r)) :
    process h.service labels rs = .ok (rs.filterMap plan) := by
  have hreduce : (rs.map plan).reduceOption = rs.filterMap plan := by
    change List.filterMap id (rs.map plan) = _
    rw [List.filterMap_map]
    rfl
  rw [process, hm, ok_bind, diff, mapM_eq_map hplan, ok_bind, hreduce]
  rfl

end Propagates

end Hierarchy

/-- Folders by their ids, none above itself. -/
structure AcyclicFolders where
  items : List (Text × Folder)
  acyclic : Acyclic fun i => Items.get i items

/-- **The labels of the nearest folders are propagated**, and the resolution of paths ends for
whatever folders without a cycle. -/
theorem propagates {V : Type} [DecidableEq V] (h : Hierarchy) (labels : FolderLabels V)
    (rs : List (Project V)) (folders : AcyclicFolders) (fid : Text) :
    h.Propagates labels rs ∧ ∃ segments, segments ≠ .error .recursionError ∧
      ∀ more, pathSegments folders.items (folders.items.length + 1 + more) fid = segments := by
  constructor
  · obtain ⟨m, hm, hknows⟩ := h.load_spec (rs.map Project.projectId)
    have hmem : ∀ r ∈ rs, r.projectId ∈ rs.map Project.projectId := fun r hr =>
      List.mem_map_of_mem hr
    have hok : ∀ r ∈ rs, diffProject labels m r =
        .ok ((diffProject labels m r).toOption.join) ∧
          h.Sets labels r (diffProject labels m r).toOption.join := by
      intro r hr
      obtain ⟨o, ho, hsets⟩ := Hierarchy.diffProject_spec labels hknows (hmem r hr)
      rw [ho]
      exact ⟨rfl, hsets⟩
    refine ⟨fun r => (diffProject labels m r).toOption.join,
      Hierarchy.process_eq hm fun r hr => (hok r hr).1, fun r hr => (hok r hr).2, ?_⟩
    have hids : (rs.map fun r => Hierarchy.updated r (diffProject labels m r).toOption.join).map
        Project.projectId = rs.map Project.projectId := by
      rw [List.map_map]
      refine List.map_congr_left fun r _ => ?_
      rw [Function.comp_apply]
      cases (diffProject labels m r).toOption.join <;> rfl
    have hdone : process h.service labels
        (rs.map fun r => Hierarchy.updated r (diffProject labels m r).toOption.join) =
          .ok (List.filterMap (fun _ => none)
            (rs.map fun r => Hierarchy.updated r (diffProject labels m r).toOption.join)) := by
      refine Hierarchy.process_eq (by rw [hids]; exact hm) fun r' hr' => ?_
      obtain ⟨r, hr, rfl⟩ := List.mem_map.mp hr'
      exact Hierarchy.diffProject_updated hknows (hmem r hr) (hok r hr).2
    rw [hdone, List.filterMap_none]
  · have hends : ∀ more, pathSegments folders.items (folders.items.length + 1 + more) fid ≠
        .error .recursionError := fun more =>
      pathSegments_terminates folders.acyclic (by omega) fid
    refine ⟨_, hends 0, fun more => ?_⟩
    induction more with
    | zero => rfl
    | succ more ih => rw [← ih, ← pathSegments_mono (hends more)]; rfl

/-! ## An example -/

theorem acyclic_of_rank {folder : Text → Option Folder} (rank : Text → Nat)
    (h : ∀ i f, folder i = some f → f.parent.startsWith "folder".toList = true →
      rank (afterLast '/' f.parent) < rank i) : Acyclic folder := by
  have hlt : ∀ i j, Relation.TransGen (ParentOf folder) i j → rank j < rank i := by
    intro i j hij
    induction hij with
    | single hstep =>
      obtain ⟨f, hf, hparent, rfl⟩ := hstep
      exact h _ f hf hparent
    | tail _ hstep ih =>
      obtain ⟨f, hf, hparent, rfl⟩ := hstep
      exact (h _ f hf hparent).trans ih
  exact fun i hi => (hlt i i hi).false

def dev : Folder := ⟨"folders/1".toList, "organizations/9".toList, "dev".toList⟩

def network : Folder := ⟨"folders/2".toList, "folders/1".toList, "network".toList⟩

/-- A folder `dev` with a folder `network` in it, which all projects are in. -/
def devHierarchy : Hierarchy where
  folders := [dev, network]
  name_eq := by
    intro f hf
    rcases List.mem_pair.mp hf with rfl | rfl
    · exact ⟨['1'], rfl, by decide⟩
    · exact ⟨['2'], rfl, by decide⟩
  acyclic := by
    refine acyclic_of_rank (fun i => if i = ['2'] then 1 else 0) fun i f hf hparent => ?_
    have hmem := List.mem_of_find?_eq_some hf
    have hname : f.name = "folders/".toList ++ i :=
      of_decide_eq_true (List.find?_some (p := fun f : Folder => decide (f.name = _)) hf)
    rcases List.mem_pair.mp hmem with rfl | rfl
    · cases hparent
    · have hid : "folders/".toList ++ ['2'] = "folders/".toList ++ i := hname
      obtain rfl := List.append_cancel_left hid
      decide
  ancestry p := [⟨"project".toList, p⟩, ⟨"folder".toList, ['2']⟩, ⟨"folder".toList, ['1']⟩,
    ⟨"organization".toList, ['9']⟩]
  chain p := Or.inr ⟨['2'], .step (f := network) rfl rfl (.root (f := dev) rfl rfl)⟩

/-- The owner is that of the nearer folder. -/
example : (process devHierarchy.service
    ⟨[("dev".toList, [("env".toList, "dev".toList), ("owner".toList, "dev".toList)]),
      ("dev/network".toList, [("owner".toList, "network".toList)])], by decide⟩
    [⟨"project-a".toList, "a".toList, ⟨"folder".toList, ['2']⟩, none⟩]).map
      (fun us => us.map Update.labels) =
    .ok [[("env".toList, "dev".toList), ("owner".toList, "network".toList)]] := by
  decide +kernel

end Custodian.PropagateLabels

import Custodian.Lib.Except
import Custodian.Lib.Split
import Custodian.Lib.Updates

/-!
# Findings inside modules

`TerraformSource.as_results` of `c7n_left/providers/terraform/provider.py` reports a finding inside
a module on the block that calls the module, which is looked up by a part of the finding's path.
-/

namespace Custodian.ModuleRefs

open Py

/-! ## Paths -/

/-- A name with an optional index, of any text. -/
structure Step where
  name : Text
  index : Option Text := none
  name_plain : '.' ∉ name

/-- `name[index]` -/
def Step.text (s : Step) : Text :=
  s.name ++ s.index.elim [] fun i => "[".toList ++ i ++ "]".toList

/-- The steps of a resource or data source. -/
structure ResourceSteps where
  isData : Bool := false
  type : Text
  name : Step
  type_plain : '.' ∉ type
  not_module : type ≠ "module".toList

/-- The modules that are called, and the resource in the last of them, if it is not
the block of the module itself. -/
structure Path where
  modules : List Step
  resource : Option ResourceSteps := none

def ResourceSteps.parts (r : ResourceSteps) : List Text :=
  (if r.isData then ["data".toList] else []) ++ [r.type, r.name.text]

def moduleParts (modules : List Step) : List Text :=
  modules.flatMap fun m => ["module".toList, m.text]

/-- The path of a block that calls a module. -/
def modulePath (modules : List Step) : Text := ['.'].intercalate (moduleParts modules)

/-- `r["__tfmeta"]["path"]` -/
def Path.text (p : Path) : Text :=
  ['.'].intercalate (moduleParts p.modules ++ p.resource.elim [] ResourceSteps.parts)

/-! ## The source -/

/-- `extract_mod_stack` -/
def extractModStack (mrPath : Text) : List Text :=
  let parts := mrPath.splitOn '.'
  (List.range' 2 (parts.length / 2) 2).map fun step => ['.'].intercalate (parts.take step)

/-- What `__tfmeta` of a module block holds. -/
structure ModuleBlock where
  path : Text
  type : Option Text := none
  srcDir : Option Text := none
  refs : Option (List Text) := none

/-- The module blocks of a graph. -/
structure Graph where
  modules : List ModuleBlock
  srcDir : Text

/-- `graph.get_resources_by_type("module")`: every block is given a type and a directory. -/
def Graph.getModules (g : Graph) : Graph :=
  { g with modules := g.modules.map fun b =>
      { b with type := some (b.type.getD "module".toList), srcDir := some g.srcDir } }

/-- `mod_map`: the place of the last block with a path. -/
def Graph.modMap (g : Graph) : List (Text × Nat) :=
  Items.ofList (g.modules.zipIdx.map fun b => (b.1.path, b.2))

/-- `ancestor["__tfmeta"].setdefault("refs", []).append(path)` -/
def Graph.addRef (g : Graph) (i : Nat) (path : Text) : Graph :=
  { g with modules := g.modules.modify i fun b => { b with refs := some (b.refs.getD [] ++ [path]) } }

/-- `resolve_module_ref`: the place of the block, and the graph with the reference. -/
def resolveModuleRef (path : Text) (g : Graph) : Except Exn (Nat × Graph) :=
  match (extractModStack path).head? with
  | none => .error (.raised "IndexError".toList)
  | some call =>
    match Items.get call g.getModules.modMap with
    | none => .error .keyError
    | some i => .ok (i, g.getModules.addRef i path)

variable {ρ : Type}

/-- A finding: its path, and the rest of the resource. -/
structure Finding (ρ : Type) where
  path : Path
  rest : ρ

/-- What is reported for a finding. -/
inductive Reported (ρ : Type) where
  | resource (r : Finding ρ)
  | module (block : Nat)

/-- The loop of `as_results`. -/
def hoist (g : Graph) : List (Finding ρ) → Except Exn (List (Reported ρ) × Graph)
  | [] => .ok ([], g)
  | r :: rs =>
    if r.path.text.startsWith "module.".toList then do
      let (i, g) ← resolveModuleRef r.path.text g
      let (rest, g) ← hoist g rs
      return (.module i :: rest, g)
    else do
      let (rest, g) ← hoist g rs
      return (.resource r :: rest, g)

/-- `PolicyResourceResult` -/
structure PolicyResourceResult (ρ : Type) where
  resource : Reported ρ
  policy : Text

/-- `TerraformSource.as_results` -/
def asResults (policy : Text) (g : Graph) (resources : List (Finding ρ)) :
    Except Exn (List (PolicyResourceResult ρ) × Graph) := do
  let (reported, g) ← hoist g resources
  return (reported.map fun r => ⟨r, policy⟩, g)

example : extractModStack "module.db.module.db_instance.aws_db_instance.this[0]".toList =
    ["module.db".toList, "module.db.module.db_instance".toList,
      "module.db.module.db_instance.aws_db_instance.this[0]".toList] := by
  decide +kernel

/-! ## The part looked up -/

theorem intercalate_cons (a : Text) (ps : List Text) : ∃ tail, (tail = [] ∨ ∃ s, tail = '.' :: s) ∧
    ['.'].intercalate (a :: ps) = a ++ tail := by
  cases ps with
  | nil => exact ⟨[], Or.inl rfl, by simp⟩
  | cons b ps =>
    exact ⟨'.' :: ['.'].intercalate (b :: ps), Or.inr ⟨_, rfl⟩, by simp [List.intercalate_cons_cons]⟩

theorem dot_mem_text {s : Step} : '.' ∈ s.text ↔ ∃ i ∈ s.index, '.' ∈ i := by
  cases hi : s.index <;> simp [Step.text, hi, s.name_plain]

theorem modulePath_singleton (m : Step) : modulePath [m] = "module".toList ++ '.' :: m.text := by
  simp [modulePath, moduleParts, List.intercalate_cons_cons]

theorem text_of_modules {p : Path} {m : Step} {ms : List Step} (hp : p.modules = m :: ms) :
    ∃ tail, (tail = [] ∨ ∃ s, tail = '.' :: s) ∧
      p.text = "module".toList ++ '.' :: (m.text ++ tail) := by
  obtain ⟨tail, htail, h⟩ := intercalate_cons m.text
    (moduleParts ms ++ p.resource.elim [] ResourceSteps.parts)
  refine ⟨tail, htail, ?_⟩
  have hparts : moduleParts p.modules ++ p.resource.elim [] ResourceSteps.parts =
      "module".toList :: m.text :: (moduleParts ms ++ p.resource.elim [] ResourceSteps.parts) := by
    rw [hp]
    rfl
  rw [Path.text, hparts, List.intercalate_cons_cons, h]
  rfl

theorem startsWith_iff (p : Path) : p.text.startsWith "module.".toList = true ↔ p.modules ≠ [] := by
  constructor
  · intro h hp
    obtain ⟨rest, hrest⟩ := List.isPrefixOf_iff_prefix.mp h
    have hsplit : p.text.splitOn '.' = "module".toList :: rest.splitOn '.' := by
      rw [← hrest]
      exact splitOn_append_cons (a := "module".toList) (by decide) rest
    rw [Path.text, hp] at hsplit
    cases hr : p.resource with
    | none =>
      rw [hr] at hsplit
      cases hsplit
    | some r =>
      obtain ⟨tail, htail⟩ : ∃ tail, ['.'].intercalate (moduleParts [] ++ r.parts) =
          (if r.isData then "data".toList else r.type) ++ '.' :: tail := by
        unfold ResourceSteps.parts
        cases r.isData with
        | true => exact ⟨['.'].intercalate [r.type, r.name.text], rfl⟩
        | false => exact ⟨r.name.text, by simp [moduleParts, List.intercalate_cons_cons]⟩
      rw [hr, Option.elim_some, htail, splitOn_append_cons] at hsplit
      · have hhead := (List.cons.inj hsplit).1
        split at hhead
        · cases hhead
        · exact r.not_module hhead
      · split
        · decide
        · exact r.type_plain
  · intro hp
    obtain ⟨m, ms, hp⟩ := List.exists_cons_of_ne_nil hp
    obtain ⟨tail, -, h⟩ := text_of_modules hp
    rw [h]
    exact List.isPrefixOf_iff_prefix.mpr ⟨m.text ++ tail, rfl⟩

/-- **The part looked up** is the first module step, unless its index has a dot. -/
theorem exists_call {p : Path} {m : Step} {ms : List Step} (hp : p.modules = m :: ms) :
    ∃ first, (extractModStack p.text).head? = some ("module".toList ++ '.' :: first) ∧
      (first = m.text ↔ '.' ∉ m.text) := by
  obtain ⟨tail, htail, h⟩ := text_of_modules hp
  obtain ⟨first, rest, hsplit⟩ := List.exists_cons_of_ne_nil (List.splitOn_ne_nil '.' (m.text ++ tail))
  have hparts : p.text.splitOn '.' = "module".toList :: first :: rest := by
    rw [h, splitOn_append_cons (by decide), hsplit]
  have hlen : 0 < (p.text.splitOn '.').length / 2 := by
    rw [hparts, List.length_cons, List.length_cons]
    omega
  refine ⟨first, ?_, fun he => ?_, fun hdot => ?_⟩
  · obtain ⟨n, hn⟩ := Nat.exists_eq_succ_of_ne_zero (Nat.ne_of_gt hlen)
    simp only [extractModStack]
    rw [hn, List.range'_succ, List.map_cons, List.head?_cons, hparts]
    simp [List.intercalate_cons_cons]
  · rw [← he]
    exact not_mem_of_mem_splitOn (s := m.text ++ tail) (hsplit ▸ List.mem_cons_self)
  · rcases htail with rfl | ⟨s, rfl⟩
    · rw [List.append_nil, splitOn_of_not_mem hdot] at hsplit
      exact (List.cons.inj hsplit).1.symm
    · rw [splitOn_append_cons hdot] at hsplit
      exact (List.cons.inj hsplit).1.symm

/-! ## A run -/

/-- The paths of the blocks, by which they are looked up. -/
def Graph.paths (g : Graph) : List Text := g.modules.map ModuleBlock.path

/-- The references of a block. -/
def Graph.refs (g : Graph) (j : Nat) : List Text :=
  (g.modules[j]?.bind ModuleBlock.refs).getD []

@[simp] theorem paths_getModules (g : Graph) : g.getModules.paths = g.paths := by
  rw [Graph.paths, Graph.getModules, List.map_map]
  rfl

@[simp] theorem paths_addRef (g : Graph) (i : Nat) (path : Text) : (g.addRef i path).paths = g.paths := by
  simp only [Graph.paths, Graph.addRef]
  refine List.ext_getElem? fun j => ?_
  rw [List.getElem?_map, List.getElem?_modify, List.getElem?_map]
  cases g.modules[j]? with
  | none => rfl
  | some b =>
    simp only [Option.map_eq_map, Option.map_some]
    split <;> rfl

theorem refs_getModules (g : Graph) (j : Nat) : g.getModules.refs j = g.refs j := by
  rw [Graph.refs, Graph.refs, Graph.getModules, List.getElem?_map]
  cases g.modules[j]? <;> rfl

theorem refs_addRef {g : Graph} {i : Nat} (hi : i < g.modules.length) (path : Text) (j : Nat) :
    (g.addRef i path).refs j = g.refs j ++ if i = j then [path] else [] := by
  rw [Graph.refs, Graph.refs, Graph.addRef, List.getElem?_modify]
  by_cases hij : i = j
  · subst hij
    simp [List.getElem?_eq_getElem hi]
  · simp [hij]

theorem modMap_eq (g : Graph) :
    g.modMap = Items.ofList (g.paths.zipIdx) := by
  rw [Graph.modMap, Graph.paths, List.zipIdx_map]
  rfl

theorem get_modMap {g : Graph} {call : Text} {i : Nat} (h : Items.get call g.modMap = some i) :
    g.paths[i]? = some call := by
  rw [modMap_eq] at h
  exact List.mem_zipIdx_iff_getElem?.mp (Items.mem_of_mem_ofList (Items.mem_of_get h))

theorem exists_get_modMap {g : Graph} {call : Text} (h : call ∈ g.paths) :
    ∃ i, Items.get call g.modMap = some i := by
  rw [modMap_eq, Items.get, Items.lookup_ofList]
  refine Items.exists_lookup ?_
  rw [List.map_reverse, List.mem_reverse, List.zipIdx_map_fst]
  exact h

/-- What is reported for a finding; it depends on the paths of the blocks only. -/
def reportedFor (g : Graph) (r : Finding ρ) : Option (Reported ρ) :=
  if r.path.modules = [] then some (.resource r)
  else (extractModStack r.path.text).head?.bind fun call =>
    (Items.get call g.modMap).map .module

theorem reportedFor_congr {g g' : Graph} (h : g'.paths = g.paths) (r : Finding ρ) :
    reportedFor g' r = reportedFor g r := by
  rw [reportedFor, reportedFor, modMap_eq, modMap_eq, h]

/-- The findings that are reported on a block. -/
def referring (j : Nat) (resources : List (Finding ρ)) (reported : List (Reported ρ)) : List Text :=
  (resources.zip reported).filterMap fun p => match p.2 with
    | .module i => if i = j then some p.1.path.text else none
    | .resource _ => none

/-- **A run** that raises nothing reports each finding by the paths of the blocks,
keeps these paths, and adds the findings to the references of their blocks. -/
theorem hoist_spec {g g' : Graph} {resources : List (Finding ρ)} {reported : List (Reported ρ)}
    (h : hoist g resources = .ok (reported, g')) :
    List.Forall₂ (fun r x => reportedFor g r = some x) resources reported ∧
      g'.paths = g.paths ∧ ∀ j, g'.refs j = g.refs j ++ referring j resources reported := by
  induction resources generalizing g reported with
  | nil =>
    obtain ⟨rfl, rfl⟩ := Prod.mk.inj (Except.ok.inj h)
    exact ⟨.nil, rfl, fun j => by simp [referring]⟩
  | cons r rs ih =>
    rw [hoist] at h
    split at h
    · rename_i hm
      obtain ⟨⟨i, g''⟩, hresolve, h⟩ := bind_eq_ok.mp h
      obtain ⟨⟨rest, g₃⟩, hrest, h⟩ := bind_eq_ok.mp h
      obtain ⟨rfl, rfl⟩ := Prod.mk.inj (pure_eq_ok.mp h)
      rw [resolveModuleRef] at hresolve
      split at hresolve
      · cases hresolve
      · rename_i call hcall
        split at hresolve
        · cases hresolve
        · rename_i i' hget
          obtain ⟨rfl, rfl⟩ := Prod.mk.inj (Except.ok.inj hresolve)
          obtain ⟨hreported, hpaths, hrefs⟩ := ih hrest
          rw [paths_addRef, paths_getModules] at hpaths
          have hi : i' < g.getModules.modules.length := by
            have hlt := (List.getElem?_eq_some_iff.mp (get_modMap hget)).1
            rwa [Graph.paths, List.length_map] at hlt
          have hcongr (r' : Finding ρ) : reportedFor (g.getModules.addRef i' r.path.text) r' =
              reportedFor g r' := reportedFor_congr (by rw [paths_addRef, paths_getModules]) r'
          refine ⟨.cons ?_ (hreported.imp fun r' x hx => (hcongr r').symm.trans hx), hpaths,
            fun j => ?_⟩
          · rw [reportedFor, if_neg ((startsWith_iff r.path).mp hm), hcall, Option.bind_some,
              modMap_eq, ← paths_getModules, ← modMap_eq, hget, Option.map_some]
          · rw [hrefs j, refs_addRef hi, refs_getModules, List.append_assoc]
            simp only [referring, List.zip_cons_cons, List.filterMap_cons]
            split <;> simp_all
    · rename_i hm
      obtain ⟨⟨rest, g''⟩, hrest, h⟩ := bind_eq_ok.mp h
      obtain ⟨rfl, rfl⟩ := Prod.mk.inj (pure_eq_ok.mp h)
      obtain ⟨hreported, hpaths, hrefs⟩ := ih hrest
      refine ⟨.cons ?_ hreported, hpaths, fun j => ?_⟩
      · rw [reportedFor, if_pos (not_not.mp ((startsWith_iff r.path).not.mp hm))]
      · rw [hrefs j]
        simp [referring]

/-- **A run raises nothing** if every finding in a module finds a block. -/
theorem exists_hoist {g : Graph} {resources : List (Finding ρ)}
    (h : ∀ r ∈ resources, ∃ x, reportedFor g r = some x) : ∃ out, hoist g resources = .ok out := by
  induction resources generalizing g with
  | nil => exact ⟨_, rfl⟩
  | cons r rs ih =>
    obtain ⟨⟨x, hx⟩, hrs⟩ := List.forall_mem_cons.mp h
    rw [hoist]
    split
    · rename_i hm
      rw [reportedFor, if_neg ((startsWith_iff r.path).mp hm)] at hx
      obtain ⟨call, hcall, hx⟩ := Option.bind_eq_some_iff.mp hx
      obtain ⟨i, hget, -⟩ := Option.map_eq_some_iff.mp hx
      rw [modMap_eq, ← paths_getModules, ← modMap_eq] at hget
      have hresolve : resolveModuleRef r.path.text g =
          .ok (i, g.getModules.addRef i r.path.text) := by
        rw [resolveModuleRef, hcall]
        simp only [hget]
      have hcongr (r' : Finding ρ) : reportedFor (g.getModules.addRef i r.path.text) r' =
          reportedFor g r' := reportedFor_congr (by rw [paths_addRef, paths_getModules]) r'
      obtain ⟨out, hout⟩ := ih fun r' hr' => (hcongr r').symm ▸ hrs r' hr'
      simp only [hresolve, hout, ok_bind]
      exact ⟨_, rfl⟩
    · obtain ⟨out, hout⟩ := ih hrs
      rw [hout]
      exact ⟨_, rfl⟩

/-! ## Findings on the calling module -/

/-- The graph holds the blocks of the modules that a path runs through. -/
def Graph.Holds (g : Graph) (p : Path) : Prop :=
  ∀ called, called ≠ [] → called <+: p.modules → modulePath called ∈ g.paths

/-- What should be reported for a finding: the finding itself outside of modules, and
the block that calls the first module otherwise. -/
def Hoisted (g : Graph) (r : Finding ρ) (x : Reported ρ) : Prop :=
  match r.path.modules with
  | [] => x = .resource r
  | m :: _ => ∃ j, x = .module j ∧ g.paths[j]? = some (modulePath [m])

/-- One result for each finding, in order, with the findings added to their blocks. -/
def ReportedAs (g : Graph) (resources : List (Finding ρ)) (reported : List (Reported ρ))
    (g' : Graph) : Prop :=
  List.Forall₂ (Hoisted g) resources reported ∧ g'.paths = g.paths ∧
    ∀ j, g'.refs j = g.refs j ++ referring j resources reported

/-- Whether the first module step of a path has a dot in its index. -/
def dottedIndex (p : Path) : Bool := p.modules.head?.any fun m => m.index.any fun i => '.' ∈ i

theorem reportedFor_hoisted {g : Graph} {r : Finding ρ} {x : Reported ρ}
    (h : reportedFor g r = some x) : Hoisted g r x ↔ dottedIndex r.path = false := by
  rw [reportedFor] at h
  unfold Hoisted dottedIndex
  cases hp : r.path.modules with
  | nil =>
    rw [if_pos hp] at h
    simp [(Option.some.inj h).symm]
  | cons m ms =>
    rw [if_neg (by rw [hp]; simp)] at h
    obtain ⟨first, hcall, hfirst⟩ := exists_call hp
    rw [hcall, Option.bind_some, Option.map_eq_some_iff] at h
    obtain ⟨i, hget, rfl⟩ := h
    have hpath := get_modMap hget
    have hdots : (List.head? (m :: ms)).any (fun m => m.index.any fun i => '.' ∈ i) = false ↔
        '.' ∉ m.text := by
      rw [List.head?_cons, Option.any_some, dot_mem_text]
      cases m.index <;> simp
    rw [hdots, ← hfirst]
    constructor
    · rintro ⟨j, hj, hmodule⟩
      obtain rfl := Reported.module.inj hj
      rw [hpath, modulePath_singleton] at hmodule
      simpa using hmodule
    · rintro rfl
      exact ⟨i, rfl, by rw [hpath, modulePath_singleton]⟩

theorem forall₂_hoisted_iff {g : Graph} {resources : List (Finding ρ)} {reported : List (Reported ρ)}
    (h : List.Forall₂ (fun r x => reportedFor g r = some x) resources reported) :
    List.Forall₂ (Hoisted g) resources reported ↔ ∀ r ∈ resources, dottedIndex r.path = false := by
  induction h with
  | nil => simp
  | cons hx _ ih => rw [List.forall₂_cons, List.forall_mem_cons, reportedFor_hoisted hx, ih]

theorem exists_reportedFor {g : Graph} {r : Finding ρ} (h : g.Holds r.path)
    (hdots : dottedIndex r.path = false) : ∃ x, reportedFor g r = some x := by
  cases hp : r.path.modules with
  | nil => exact ⟨.resource r, if_pos hp⟩
  | cons m ms =>
    obtain ⟨first, hcall, hfirst⟩ := exists_call hp
    have hplain : '.' ∉ m.text := by
      rw [dottedIndex, hp, List.head?_cons, Option.any_some] at hdots
      rw [dot_mem_text]
      rintro ⟨i, hi, hdot⟩
      rw [Option.mem_def.mp hi, Option.any_some, decide_eq_false_iff_not] at hdots
      exact hdots hdot
    have hmem : modulePath [m] ∈ g.paths := by
      refine h [m] (by simp) ?_
      rw [hp]
      exact ⟨ms, rfl⟩
    rw [modulePath_singleton, ← hfirst.mpr hplain] at hmem
    obtain ⟨i, hi⟩ := exists_get_modMap hmem
    refine ⟨.module i, ?_⟩
    rw [reportedFor, if_neg (by rw [hp]; simp), hcall, Option.bind_some, hi]
    rfl

/-- **Findings are reported on the calling modules** exactly if no finding is in a
module whose step has a dot in its index. -/
theorem asResults_reported_iff (policy : Text) (g : Graph) (resources : List (Finding ρ))
    (h : ∀ r ∈ resources, g.Holds r.path) :
    (∃ results g', asResults policy g resources = .ok (results, g') ∧
      (∀ x ∈ results, x.policy = policy) ∧
        ReportedAs g resources (results.map PolicyResourceResult.resource) g') ↔
      ∀ r ∈ resources, dottedIndex r.path = false := by
  have hmap (reported : List (Reported ρ)) : (reported.map fun x => (⟨x, policy⟩ :
      PolicyResourceResult ρ)).map PolicyResourceResult.resource = reported := by
    rw [List.map_map]
    exact List.map_id _
  constructor
  · rintro ⟨results, g', hrun, -, hshown, -⟩
    obtain ⟨⟨reported, g''⟩, hhoist, hrun⟩ := bind_eq_ok.mp hrun
    obtain ⟨rfl, rfl⟩ := Prod.mk.inj (pure_eq_ok.mp hrun)
    rw [hmap] at hshown
    exact (forall₂_hoisted_iff (hoist_spec hhoist).1).mp hshown
  · intro hdots
    obtain ⟨⟨reported, g'⟩, hhoist⟩ := exists_hoist fun r hr => exists_reportedFor (h r hr) (hdots r hr)
    obtain ⟨hreported, hpaths, hrefs⟩ := hoist_spec hhoist
    refine ⟨reported.map fun x => ⟨x, policy⟩, g', by rw [asResults, hhoist]; rfl, ?_, ?_⟩
    · intro x hx
      obtain ⟨y, -, rfl⟩ := List.mem_map.mp hx
      rfl
    · rw [hmap]
      exact ⟨(forall₂_hoisted_iff hreported).mpr hdots, hpaths, hrefs⟩

/-- `module.m[index].aws_vpc.main` -/
def vpcIn (index : Text) : Finding Unit where
  path := ⟨[⟨"m".toList, some index, by decide⟩],
    some ⟨false, "aws_vpc".toList, ⟨"main".toList, none, by decide⟩, by decide, by decide⟩⟩
  rest := ()

/-- A graph with the block `module.m[index]`. -/
def graphOf (index : Text) : Graph :=
  ⟨[{ path := modulePath (vpcIn index).path.modules }], "src".toList⟩

theorem graphOf_holds (index : Text) : (graphOf index).Holds (vpcIn index).path := by
  rintro called hne ⟨rest, hrest⟩
  have hlen := congrArg List.length hrest
  rw [List.length_append] at hlen
  have hpos := List.length_pos_iff.mpr hne
  have hone : (vpcIn index).path.modules.length = 1 := rfl
  obtain rfl : rest = [] := List.length_eq_zero_iff.mp (by omega)
  rw [List.append_nil] at hrest
  rw [hrest]
  exact List.mem_singleton_self _

theorem asResults_reported_iff_first :
    ∃ results g', asResults "p".toList (graphOf "0".toList) [vpcIn "0".toList] = .ok (results, g') ∧
      (∀ x ∈ results, x.policy = "p".toList) ∧ ReportedAs (graphOf "0".toList) [vpcIn "0".toList]
        (results.map PolicyResourceResult.resource) g' :=
  (asResults_reported_iff _ _ _ (List.forall_mem_singleton.mpr (graphOf_holds _))).mpr
    (List.forall_mem_singleton.mpr (by decide))

/-- A key with a dot: the graph holds the block, but it is not found. -/
theorem asResults_dotted_key :
    (graphOf "\"a.b\"".toList).Holds (vpcIn "\"a.b\"".toList).path ∧
      asResults "p".toList (graphOf "\"a.b\"".toList) [vpcIn "\"a.b\"".toList] =
        .error .keyError :=
  ⟨graphOf_holds _, by rfl⟩

end Custodian.ModuleRefs

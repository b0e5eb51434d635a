import Custodian.Gcp.PropagateLabels
import Custodian.Lib.Json

/-!
# Inherited discovery configurations

With `inherited: true`, `ProjectDlpDiscoveryConfigsFilter` of
`tools/c7n_gcp/c7n_gcp/resources/resourcemanager.py` adds to the configurations of a project the
running ones of the folders above it and of the organization, for each type of target the closest.
-/

namespace Custodian.DiscoveryConfigs

open Py
open PropagateLabels (ResourceId folderAncestors isFolder)

/-! ## Configurations -/

/-- A target, a dictionary whose only key is its type. -/
structure Target where
  type : Text
  value : Json

/-- `orgConfig.location` -/
structure Location where
  folderId : Option Text
  organizationId : Option Text

structure Config where
  status : Option Text
  location : Location
  targets : List Target
  others : List (Text × Json)

/-- A place in the hierarchy that configurations are looked for at. -/
inductive Scope where
  | folderId (i : Text)
  | organizationId (i : Text)

def otherCloud : Text := "otherCloudTarget".toList

/-- `location.get(key) == scope_id` -/
def Scope.isAt (s : Scope) (l : Location) : Bool :=
  match s with
  | folderId i => l.folderId = some i
  | organizationId i => l.organizationId = some i

/-- A running configuration of a scope. -/
def Scope.runs (s : Scope) (c : Config) : Bool :=
  c.status = some "RUNNING".toList && s.isAt c.location

/-- `claimed` and `inherited` -/
structure Claims where
  claimed : List Text
  inherited : List Config

/-- The targets of a configuration that the closer ones have left. -/
def Claims.left (st : Claims) (c : Config) : List Target :=
  c.targets.filter fun t => t.type ≠ otherCloud ∧ t.type ∉ st.claimed

/-- One turn of the inner loop. -/
def Claims.step (st : Claims) (e : Scope × Config) : Claims :=
  if e.1.runs e.2 then
    let targets := st.left e.2
    if targets.isEmpty then st
    else ⟨st.claimed ++ targets.map Target.type, st.inherited ++ [{ e.2 with targets := targets }]⟩
  else st

/-- Both loops. -/
def inherit (scopes : List Scope) (configs : List Config) : List Config :=
  let start : Claims := ⟨[], []⟩
  (scopes.foldl (fun st s => configs.foldl (fun st c => Claims.step st (s, c)) st) start).inherited

/-! ## The filter -/

/-- The requests to the service. -/
structure Service where
  getAncestry : Text → List ResourceId
  listConfigs : Text → List Config

structure Resource where
  projectId : Text
  parent : Option ResourceId

/-- `self.ancestors` and `self.org_configs` -/
structure Caches where
  ancestors : List (Text × (List Text × Text))
  orgConfigs : List (Text × List Config)

namespace Service

variable (s : Service)

/-- The folders above the project and its organization, from the service. -/
def fetchAncestors (r : Resource) : Except Exn (List Text × Text) :=
  let ancestry := s.getAncestry r.projectId
  match ancestry.getLast? with
  | none => .error (.raised "IndexError".toList)
  | some last => .ok (folderAncestors ancestry, last.id)

/-- `get_ancestors` -/
def getAncestors (r : Resource) (m : Caches) : Except Exn ((List Text × Option Text) × Caches) :=
  match r.parent with
  | none => .ok (([], none), m)
  | some parent =>
    if parent.type = "organization".toList then .ok (([], some parent.id), m)
    else if isFolder parent then
      match Items.get parent.id m.ancestors with
      | some (folders, org) => .ok ((folders, some org), m)
      | none => do
        let (folders, org) ← s.fetchAncestors r
        return ((folders, some org),
          { m with ancestors := Items.set parent.id (folders, org) m.ancestors })
    else .ok (([], none), m)

/-- `org_configs[org_id]`, listed when it is not there. -/
def listOrgConfigs (org : Text) (m : Caches) : List Config × Caches :=
  match Items.get org m.orgConfigs with
  | some configs => (configs, m)
  | none => (s.listConfigs org,
      { m with orgConfigs := Items.set org (s.listConfigs org) m.orgConfigs })

/-- `get_inherited_configs` -/
def getInheritedConfigs (r : Resource) (m : Caches) : Except Exn (List Config × Caches) := do
  let ((folders, org), m) ← s.getAncestors r m
  match org with
  | none => return ([], m)
  | some org =>
    let (configs, m) := s.listOrgConfigs org m
    return (inherit (folders.map .folderId ++ [.organizationId org]) configs, m)

/-- What the projects of a run inherit, one after the other. -/
def inheritAll : List Resource → Caches → Except Exn (List (List Config) × Caches)
  | [], m => .ok ([], m)
  | r :: rs, m => do
    let (configs, m) ← s.getInheritedConfigs r m
    let (results, m) ← inheritAll rs m
    return (configs :: results, m)

end Service

/-! ## What is to be inherited -/

/-- Projects below folders and organizations: the parent of a project, the folders from a folder up
to the root, and the organization that a folder belongs to. -/
structure Estate where
  parent : Text → Option ResourceId
  above : Text → List Text
  organization : Text → Text
  configs : Text → List Config

namespace Estate

def project (e : Estate) (p : Text) : Resource := ⟨p, e.parent p⟩

/-- The service lists the ancestors of a project from the project up. -/
def service (e : Estate) : Service where
  getAncestry p := ⟨"project".toList, p⟩ ::
    match e.parent p with
    | none => []
    | some parent =>
      if isFolder parent then (e.above parent.id).map (⟨"folder".toList, ·⟩) ++
        [⟨"organization".toList, e.organization parent.id⟩]
      else [parent]
  listConfigs := e.configs

/-- The organization of a project, if any. -/
def organizationOf (e : Estate) (p : Text) : Option Text :=
  (e.parent p).bind fun parent =>
    if parent.type = "organization".toList then some parent.id
    else if isFolder parent then some (e.organization parent.id) else none

/-- The folders above a project, from the nearest one on. -/
def foldersOf (e : Estate) (p : Text) : List Text :=
  (e.parent p).elim [] fun parent => if isFolder parent then e.above parent.id else []

/-- Where configurations for a project are located, from the nearest place on. -/
def scopes (e : Estate) (p : Text) : List Scope :=
  (e.organizationOf p).elim [] fun org =>
    (e.foldersOf p).map Scope.folderId ++ [Scope.organizationId org]

/-- The configurations of the organization. -/
def orgConfigs (e : Estate) (p : Text) : List Config := (e.organizationOf p).elim [] e.configs

end Estate

def HasType (type : Text) (c : Config) : Prop := ∃ t ∈ c.targets, t.type = type

/-- A running configuration of the scope has a target of the type. -/
def Covers (type : Text) (s : Scope) (c : Config) : Prop := s.runs c = true ∧ HasType type c

/-- The targets of a configuration that are of a type. -/
def ofType (type : Text) (c : Config) : List Target := c.targets.filter fun t => t.type = type

/-- The targets of the type all come from one configuration: it is inherited with these targets, and
no other inherited one has any. -/
def OnlyFrom (type : Text) (c : Config) (inherited : List Config) : Prop :=
  ∃ before targets after, inherited = before ++ { c with targets := targets } :: after ∧
    ofType type { c with targets := targets } = ofType type c ∧
    ∀ c' ∈ before ++ after, ¬ HasType type c'

/-- For each type the targets are those of one configuration at the nearest scope that has one. -/
structure Closest (scopes : List Scope) (configs inherited : List Config) : Prop where
  nearest : ∀ type, type ≠ otherCloud → (∃ s ∈ scopes, ∃ c ∈ configs, Covers type s c) →
    ∃ nearer s farther, scopes = nearer ++ s :: farther ∧
      (∀ s' ∈ nearer, ∀ c ∈ configs, ¬ Covers type s' c) ∧
      ∃ c ∈ configs, Covers type s c ∧ OnlyFrom type c inherited
  none : ∀ type, (¬ ∃ s ∈ scopes, ∃ c ∈ configs, Covers type s c) →
    ∀ c ∈ inherited, ¬ HasType type c
  ownCloud : ∀ c ∈ inherited, ¬ HasType otherCloud c
  ne_nil : ∀ c ∈ inherited, c.targets ≠ []

/-! ## What is claimed -/

/-- The scopes and configurations in the order of the loops. -/
def visits (scopes : List Scope) (configs : List Config) : List (Scope × Config) :=
  scopes.flatMap fun s => configs.map fun c => (s, c)

theorem inherit_eq (scopes : List Scope) (configs : List Config) :
    inherit scopes configs = ((visits scopes configs).foldl Claims.step ⟨[], []⟩).inherited := by
  rw [inherit, visits, List.foldl_flatMap]
  simp only [List.foldl_map]

instance (type : Text) (c : Config) : Decidable (HasType type c) :=
  inferInstanceAs (Decidable (∃ t ∈ c.targets, t.type = type))

instance (type : Text) (s : Scope) (c : Config) : Decidable (Covers type s c) :=
  inferInstanceAs (Decidable (_ ∧ _))

/-- The first visit that covers a type. -/
def first (type : Text) (es : List (Scope × Config)) : Option (Scope × Config) :=
  es.find? fun e => Covers type e.1 e.2

theorem first_concat (type : Text) (es : List (Scope × Config)) (e : Scope × Config) :
    first type (es ++ [e]) =
      (first type es).or (if Covers type e.1 e.2 then some e else none) := by
  rw [first, List.find?_append, List.find?_singleton]
  simp only [decide_eq_true_eq]
  rfl

/-- What has been claimed and inherited after some visits. -/
structure Claimed (es : List (Scope × Config)) (st : Claims) : Prop where
  claimed : ∀ type, type ≠ otherCloud → (type ∈ st.claimed ↔ (first type es).isSome)
  some : ∀ type, type ≠ otherCloud → ∀ e, first type es = some e → OnlyFrom type e.2 st.inherited
  none : ∀ type, type ≠ otherCloud → first type es = none → ∀ c ∈ st.inherited, ¬ HasType type c
  ownCloud : ∀ c ∈ st.inherited, ¬ HasType otherCloud c
  ne_nil : ∀ c ∈ st.inherited, c.targets ≠ []

theorem claimed_nil : Claimed [] ⟨[], []⟩ where
  claimed _ _ := by simp [first]
  some _ _ _ h := by cases h
  none _ _ _ _ h := by cases h
  ownCloud _ h := by cases h
  ne_nil _ h := by cases h

variable {es : List (Scope × Config)} {st : Claims} {e : Scope × Config} {type : Text}

theorem hasType_left : HasType type { e.2 with targets := st.left e.2 } ↔
    HasType type e.2 ∧ type ≠ otherCloud ∧ type ∉ st.claimed := by
  constructor
  · rintro ⟨t, ht, rfl⟩
    obtain ⟨hmem, hleft⟩ := List.mem_filter.mp ht
    exact ⟨⟨t, hmem, rfl⟩, of_decide_eq_true hleft⟩
  · rintro ⟨⟨t, ht, rfl⟩, hleft⟩
    exact ⟨t, List.mem_filter.mpr ⟨ht, decide_eq_true hleft⟩, rfl⟩

theorem Claimed.skip (h : Claimed es st)
    (hskip : ∀ type, type ≠ otherCloud → Covers type e.1 e.2 → type ∈ st.claimed) :
    Claimed (es ++ [e]) st := by
  have hfirst : ∀ type, type ≠ otherCloud → first type (es ++ [e]) = first type es := by
    intro type htype
    rw [first_concat]
    cases hes : first type es with
    | some e' => rfl
    | none =>
      rw [Option.none_or, if_neg]
      intro hcovers
      have hsome := (h.claimed type htype).mp (hskip type htype hcovers)
      rw [hes] at hsome
      cases hsome
  exact {
    claimed := fun type htype => by rw [hfirst type htype, h.claimed type htype]
    some := fun type htype e' he' => h.some type htype e' (hfirst type htype ▸ he')
    none := fun type htype hes => h.none type htype (hfirst type htype ▸ hes)
    ownCloud := h.ownCloud
    ne_nil := h.ne_nil }

theorem Claimed.inherit (h : Claimed es st) (hruns : e.1.runs e.2 = true)
    (hne : st.left e.2 ≠ []) :
    Claimed (es ++ [e]) ⟨st.claimed ++ (st.left e.2).map Target.type,
      st.inherited ++ [{ e.2 with targets := st.left e.2 }]⟩ where
  claimed type htype := by
    have hmem : type ∈ (st.left e.2).map Target.type ↔
        HasType type { e.2 with targets := st.left e.2 } := List.mem_map
    rw [List.mem_append, hmem, hasType_left, h.claimed type htype, first_concat]
    by_cases hcovers : Covers type e.1 e.2
    · rw [if_pos hcovers, Option.isSome_or, Option.isSome_some, Bool.or_true]
      refine iff_of_true ?_ rfl
      rw [← h.claimed type htype]
      by_cases hclaimed : type ∈ st.claimed
      · exact Or.inl hclaimed
      · exact Or.inr ⟨hcovers.2, htype, hclaimed⟩
    · rw [if_neg hcovers, Option.or_none]
      exact or_iff_left fun hleft => hcovers ⟨hruns, hleft.1⟩
  some type htype e' he' := by
    rw [first_concat] at he'
    cases hes : first type es with
    | some e₀ =>
      rw [hes, Option.some_or] at he'
      cases he'
      have hclaimed : type ∈ st.claimed := (h.claimed type htype).mpr (by rw [hes]; rfl)
      obtain ⟨before, targets, after, hsplit, htargets, hothers⟩ := h.some type htype _ hes
      refine ⟨before, targets, after ++ [{ e.2 with targets := st.left e.2 }], ?_, htargets, ?_⟩
      · rw [hsplit, List.append_assoc, List.cons_append]
      · rw [← List.append_assoc]
        intro c hc
        rcases List.mem_append.mp hc with hc | hc
        · exact hothers c hc
        · rw [List.mem_singleton.mp hc]
          exact fun htype => (hasType_left.mp htype).2.2 hclaimed
    | none =>
      rw [hes, Option.none_or] at he'
      split at he'
      · cases he'
        refine ⟨st.inherited, st.left e.2, [], rfl, ?_, ?_⟩
        · have hclaimed : type ∉ st.claimed := fun hclaimed => by
            have hsome := (h.claimed type htype).mp hclaimed
            rw [hes] at hsome
            cases hsome
          rw [ofType, ofType, Claims.left, List.filter_filter]
          refine List.filter_congr fun t _ => ?_
          by_cases ht : t.type = type
          · simp [ht, htype, hclaimed]
          · simp [ht]
        · rw [List.append_nil]
          exact h.none type htype hes
      · cases he'
  none type htype hes := by
    rw [first_concat, Option.or_eq_none_iff] at hes
    intro c hc
    rcases List.mem_append.mp hc with hc | hc
    · exact h.none type htype hes.1 c hc
    · rw [List.mem_singleton.mp hc]
      intro hleft
      rw [if_pos ⟨hruns, (hasType_left.mp hleft).1⟩] at hes
      cases hes.2
  ownCloud c hc := by
    rcases List.mem_append.mp hc with hc | hc
    · exact h.ownCloud c hc
    · rw [List.mem_singleton.mp hc]
      exact fun hleft => (hasType_left.mp hleft).2.1 rfl
  ne_nil c hc := by
    rcases List.mem_append.mp hc with hc | hc
    · exact h.ne_nil c hc
    · rw [List.mem_singleton.mp hc]
      exact hne

theorem Claimed.step (h : Claimed es st) (e : Scope × Config) :
    Claimed (es ++ [e]) (st.step e) := by
  rw [Claims.step]
  split
  · next hruns =>
    simp only
    split
    · next hnil =>
      refine h.skip fun type htype hcovers => ?_
      by_contra hclaimed
      obtain ⟨t, ht, -⟩ := hasType_left.mpr ⟨hcovers.2, htype, hclaimed⟩
      rw [List.isEmpty_iff.mp hnil] at ht
      cases ht
    · next hne => exact h.inherit hruns fun hnil => hne (by rw [hnil]; rfl)
  · next hruns => exact h.skip fun type _ hcovers => absurd hcovers.1 hruns

theorem claims (es : List (Scope × Config)) :
    Claimed es (es.foldl Claims.step ⟨[], []⟩) := by
  induction es using List.reverseRecOn with
  | nil => exact claimed_nil
  | append_singleton es e ih =>
    rw [List.foldl_concat]
    exact ih.step e

/-! ## The nearest scope -/

theorem exists_nearest {scopes : List Scope} {configs : List Config} {e : Scope × Config}
    (h : first type (visits scopes configs) = some e) :
    ∃ nearer farther, scopes = nearer ++ e.1 :: farther ∧
      (∀ s ∈ nearer, ∀ c ∈ configs, ¬ Covers type s c) ∧
      e.2 ∈ configs ∧ Covers type e.1 e.2 := by
  induction scopes with
  | nil => cases h
  | cons s scopes ih =>
    rw [first, visits, List.flatMap_cons, List.find?_append] at h
    cases hs : (configs.map fun c => (s, c)).find? fun e => Covers type e.1 e.2 with
    | some e' =>
      rw [hs, Option.some_or] at h
      cases h
      obtain ⟨c, hc, rfl⟩ := List.mem_map.mp (List.mem_of_find?_eq_some hs)
      refine ⟨[], scopes, rfl, ?_, hc, ?_⟩
      · exact fun _ hnil => absurd hnil List.not_mem_nil
      · exact of_decide_eq_true
          (List.find?_some (p := fun e : Scope × Config => decide (Covers type e.1 e.2)) hs)
    | none =>
      rw [hs, Option.none_or] at h
      obtain ⟨nearer, farther, rfl, hnearer, hcovers⟩ := ih h
      refine ⟨s :: nearer, farther, rfl, ?_, hcovers⟩
      rw [List.forall_mem_cons]
      refine ⟨fun c hc hcovers => ?_, hnearer⟩
      exact List.find?_eq_none.mp hs (s, c) (List.mem_map_of_mem hc) (decide_eq_true hcovers)

theorem isSome_first {scopes : List Scope} {configs : List Config} :
    (first type (visits scopes configs)).isSome ↔ ∃ s ∈ scopes, ∃ c ∈ configs, Covers type s c := by
  rw [first, List.find?_isSome]
  simp only [visits, List.mem_flatMap, List.mem_map, decide_eq_true_eq]
  constructor
  · rintro ⟨e, ⟨s, hs, c, hc, rfl⟩, hcovers⟩
    exact ⟨s, hs, c, hc, hcovers⟩
  · rintro ⟨s, hs, c, hc, hcovers⟩
    exact ⟨(s, c), ⟨s, hs, c, hc, rfl⟩, hcovers⟩

/-- **The closest configuration of each type** is what the loops inherit. -/
theorem inherit_spec (scopes : List Scope) (configs : List Config) :
    Closest scopes configs (inherit scopes configs) := by
  have hclaims := claims (visits scopes configs)
  rw [inherit_eq]
  refine ⟨fun type htype hcovered => ?_, fun type huncovered => ?_, hclaims.ownCloud,
    hclaims.ne_nil⟩
  · obtain ⟨e, he⟩ := Option.isSome_iff_exists.mp (isSome_first.mpr hcovered)
    obtain ⟨nearer, farther, hscopes, hnearer, hmem, hcovers⟩ := exists_nearest he
    exact ⟨nearer, e.1, farther, hscopes, hnearer, e.2, hmem, hcovers, hclaims.some type htype e he⟩
  · rw [← isSome_first, Option.not_isSome_iff_eq_none] at huncovered
    by_cases htype : type = otherCloud
    · rw [htype]
      exact hclaims.ownCloud
    · exact hclaims.none type htype huncovered

/-- The folder's configuration leaves the organization's the buckets. -/
example :
    let folder : Config := ⟨some "RUNNING".toList, ⟨some ['1'], none⟩,
      [⟨"bigQueryTarget".toList, .null⟩], []⟩
    let organization : Config := ⟨some "RUNNING".toList, ⟨none, some ['9']⟩,
      [⟨"bigQueryTarget".toList, .null⟩, ⟨"cloudStorageTarget".toList, .null⟩], []⟩
    (inherit [.folderId ['1'], .organizationId ['9']] [organization, folder]).map
      (fun c => c.targets.map Target.type) =
        [["bigQueryTarget".toList], ["cloudStorageTarget".toList]] := by
  decide

/-! ## The caches -/

/-- The caches hold what the service has. -/
structure Caches.Holds (m : Caches) (e : Estate) : Prop where
  ancestors : ∀ f x, Items.get f m.ancestors = some x → x = (e.above f, e.organization f)
  orgConfigs : ∀ org configs, Items.get org m.orgConfigs = some configs → configs = e.configs org

namespace Estate

variable {e : Estate} {m : Caches}

theorem fetchAncestors_eq {p : Text} {parent : ResourceId} (hparent : e.parent p = some parent)
    (hfolder : isFolder parent = true) :
    e.service.fetchAncestors (e.project p) = .ok (e.above parent.id, e.organization parent.id) := by
  have hancestry : e.service.getAncestry p = ⟨"project".toList, p⟩ ::
      ((e.above parent.id).map (⟨"folder".toList, ·⟩) ++
        [⟨"organization".toList, e.organization parent.id⟩]) := by
    simp only [service, hparent, hfolder, if_true]
  have hfolders : ∀ ids : List Text, folderAncestors (ids.map (⟨"folder".toList, ·⟩)) = ids := by
    intro ids
    induction ids with
    | nil => rfl
    | cons i ids ih => exact congrArg (i :: ·) ih
  have hproject : isFolder ⟨"project".toList, p⟩ = false := rfl
  rw [Service.fetchAncestors, project]
  simp only [hancestry, ← List.cons_append, List.getLast?_concat]
  rw [folderAncestors, List.cons_append, List.filter_cons_of_neg (Bool.eq_false_iff.mp hproject), List.filter_append,
    List.map_append]
  refine congrArg Except.ok (Prod.ext ?_ rfl)
  exact (List.append_nil _).trans (hfolders _)

theorem getAncestors_spec (h : m.Holds e) (p : Text) :
    ∃ m', e.service.getAncestors (e.project p) m = .ok ((e.foldersOf p, e.organizationOf p), m') ∧
      m'.Holds e := by
  rw [Service.getAncestors, foldersOf, organizationOf]
  cases hparent : e.parent p with
  | none => exact ⟨m, by rw [project, hparent]; rfl, h⟩
  | some parent =>
    simp only [project, hparent, Option.elim_some, Option.bind_some]
    by_cases horg : parent.type = "organization".toList
    · have hfolder : isFolder parent = false := by
        rw [isFolder, horg]
        rfl
      exact ⟨m, by rw [if_pos horg, if_pos horg, hfolder]; rfl, h⟩
    · rw [if_neg horg, if_neg horg]
      cases hfolder : isFolder parent with
      | false => exact ⟨m, rfl, h⟩
      | true =>
        simp only [if_true]
        cases hcached : Items.get parent.id m.ancestors with
        | some x =>
          obtain rfl := h.ancestors _ _ hcached
          exact ⟨m, rfl, h⟩
        | none =>
          have hfetch := fetchAncestors_eq hparent hfolder
          rw [project, hparent] at hfetch
          simp only [hfetch]
          refine ⟨_, rfl, ?_, h.orgConfigs⟩
          intro f x hx
          rw [Items.get_set] at hx
          split at hx
          · next hf =>
            rw [hf]
            exact (Option.some.inj hx).symm
          · exact h.ancestors f x hx

theorem listOrgConfigs_spec (h : m.Holds e) (org : Text) :
    ∃ m', e.service.listOrgConfigs org m = (e.configs org, m') ∧ m'.Holds e ∧
      Items.get org m'.orgConfigs = some (e.configs org) := by
  rw [Service.listOrgConfigs]
  cases hcached : Items.get org m.orgConfigs with
  | some configs =>
    obtain rfl := h.orgConfigs _ _ hcached
    exact ⟨m, rfl, h, hcached⟩
  | none =>
    refine ⟨_, rfl, ⟨h.ancestors, ?_⟩, by rw [Items.get_set, if_pos rfl]; rfl⟩
    intro org' configs hconfigs
    rw [Items.get_set] at hconfigs
    split at hconfigs
    · next horg =>
      rw [horg]
      exact (Option.some.inj hconfigs).symm
    · exact h.orgConfigs org' configs hconfigs

theorem getInheritedConfigs_spec (h : m.Holds e) (p : Text) :
    ∃ configs m', e.service.getInheritedConfigs (e.project p) m = .ok (configs, m') ∧
      m'.Holds e ∧ Closest (e.scopes p) (e.orgConfigs p) configs := by
  obtain ⟨m₁, hancestors, h₁⟩ := getAncestors_spec h p
  rw [Service.getInheritedConfigs, hancestors, ok_bind, scopes, orgConfigs]
  cases horg : e.organizationOf p with
  | none => exact ⟨[], m₁, rfl, h₁, inherit_spec [] []⟩
  | some org =>
    obtain ⟨m₂, hlist, h₂, -⟩ := listOrgConfigs_spec h₁ org
    simp only [hlist, Option.elim_some]
    exact ⟨_, m₂, rfl, h₂, inherit_spec ..⟩

end Estate

/-- **Inherited configurations are the closest running ones**, for all projects of a run, and the
configurations that were listed stay as they are. -/
theorem inheritsAll_spec (e : Estate) (ps : List Text) :
    ∃ results m, e.service.inheritAll (ps.map e.project) ⟨[], []⟩ = .ok (results, m) ∧
      m.Holds e ∧
      List.Forall₂ (fun p configs => Closest (e.scopes p) (e.orgConfigs p) configs) ps results := by
  have hrun : ∀ m : Caches, m.Holds e → ∃ results m',
      e.service.inheritAll (ps.map e.project) m = .ok (results, m') ∧ m'.Holds e ∧
        List.Forall₂ (fun p configs => Closest (e.scopes p) (e.orgConfigs p) configs) ps results := by
    induction ps with
    | nil => exact fun m h => ⟨[], m, rfl, h, .nil⟩
    | cons p ps ih =>
      intro m h
      obtain ⟨configs, m₁, hone, h₁, hclosest⟩ := Estate.getInheritedConfigs_spec h p
      obtain ⟨results, m₂, hrest, h₂, hall⟩ := ih m₁ h₁
      refine ⟨configs :: results, m₂, ?_, h₂, .cons hclosest hall⟩
      rw [List.map_cons, Service.inheritAll, hone, ok_bind]
      simp only [hrest]
      rfl
  exact hrun ⟨[], []⟩ ⟨fun _ _ hx => (by cases hx), fun _ _ hx => (by cases hx)⟩

end Custodian.DiscoveryConfigs

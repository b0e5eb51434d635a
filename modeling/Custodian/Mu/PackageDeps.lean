import Custodian.Lib.Items
import Custodian.Lib.PostOrder
import Custodian.Lib.Text
import Mathlib.Data.List.TakeWhile

/-!
# Dependencies of a package

`_package_deps` of `c7n/mu.py` collects the names of the packages that a package requires.  It reads
the names from requirement strings, and calls itself for a name that it has not found yet; the name
is added when that call has returned.
-/

namespace Custodian.PackageDeps

open Py
open Relation

/-- What the function works on: `importlib.metadata.requires`, with an empty list for `None`, the
characters that `isalnum` takes, and the names of the packages that are ignored. -/
structure Installation where
  metadata : List (Text × List Text)
  isalnum : Char → Bool
  ignore : List Text
  ignore_plain : ∀ name ∈ ignore, ∀ c ∈ name, (isalnum c || c ∈ ['-', '_', '.']) = true

namespace Installation

variable (env : Installation)

/-- `pkgmd.requires(package)`, or `none` where it raises `PackageNotFoundError`. -/
def requires (package : Text) : Option (List Text) := Items.get package env.metadata

def isNameChar (c : Char) : Bool := env.isalnum c || c ∈ ['-', '_', '.']

end Installation

def extra : Text := "extra".toList

/-- `';' in r and 'extra' in r` -/
def isOptional (r : Text) : Bool := r.contains ';' && decide (extra <:+: r)

def unboundLocalError : Exn := .raised "UnboundLocalError".toList

variable (env : Installation)

/-- `idx` after the loop over the characters, and one more if that is the length; before the first
character of the first requirement it has no value. -/
def nameEnd (idx : Option Nat) (r : Text) : Except Exn Nat := do
  let idx ← match r with
    | [] => idx.elim (.error unboundLocalError) .ok
    | c :: s => .ok (((c :: s).findIdx? fun c => !env.isNameChar c).getD s.length)
  return if idx + 1 = r.length then idx + 1 else idx

/-- The loop over the requirements of a package, which calls `_package_deps`. -/
def requirementsLoop (call : Text → List Text → Except Exn (List Text)) :
    Option Nat → List Text → List Text → Except Exn (List Text)
  | _, [], deps => .ok deps
  | idx, r :: pdeps, deps =>
    -- skip optional deps
    if isOptional r then requirementsLoop call idx pdeps deps
    else do
      let idx ← nameEnd env idx r
      let pkgName := r.take idx
      if pkgName ∈ env.ignore then requirementsLoop call (some idx) pdeps deps
      else if pkgName ∈ deps then requirementsLoop call (some idx) pdeps deps
      else do
        let deps ← call pkgName deps
        requirementsLoop call (some idx) pdeps (deps ++ [pkgName])

/-- `_package_deps(package, deps, ignore)`, with calls nested to a depth at most. -/
def packageDeps : Nat → Text → List Text → Except Exn (List Text)
  | 0, _, _ => .error .recursionError
  | depth + 1, package, deps =>
    match env.requires package with
    | none => .ok deps
    | some pdeps => requirementsLoop env (packageDeps depth) none pdeps deps

/-! ## What is expected -/

/-- The name that a requirement begins with. -/
def named (r : Text) : Text := r.takeWhile env.isNameChar

/-- A package requires another one, neither as an extra nor as one that is ignored. -/
def Requires (p q : Text) : Prop :=
  ∃ pdeps r, env.requires p = some pdeps ∧ r ∈ pdeps ∧ isOptional r = false ∧ named env r = q ∧
    q ∉ env.ignore

/-- The call returns, with what the package requires, directly or not. -/
def Collects (package : Text) : Prop :=
  ∃ depth deps, packageDeps env depth package [] = .ok deps ∧ deps.Nodup ∧
    ∀ q, q ∈ deps ↔ TransGen (Requires env) package q

/-- The first requirement is not empty, and no requirement is a name and one character after it. -/
def Readable (p : Text) : Prop :=
  ∀ pdeps, env.requires p = some pdeps →
    (pdeps.filter fun r => !isOptional r).head? ≠ some [] ∧
      ∀ r ∈ pdeps, isOptional r = false → r.length ≠ (named env r).length + 1

/-! ## Names -/

/-- The name that is read from a requirement. -/
def readName (r : Text) : Text := if r.length = (named env r).length + 1 then r else named env r

theorem nameEnd_eq {idx : Option Nat} {r : Text} (h : idx = none → r ≠ []) :
    ∃ k, nameEnd env idx r = .ok k ∧ r.take k = readName env r := by
  cases r with
  | nil =>
    cases idx with
    | none => exact absurd rfl (h rfl)
    | some k => exact ⟨k, rfl, by simp [readName, named]⟩
  | cons c s =>
    have hnamed : named env (c :: s) =
        (c :: s).take ((c :: s).findIdx fun c => !env.isNameChar c) :=
      List.takeWhile_eq_take_findIdx_not
    have hle : ((c :: s).findIdx fun c => !env.isNameChar c) ≤ (c :: s).length :=
      List.findIdx_le_length
    have hlen : (named env (c :: s)).length = (c :: s).findIdx fun c => !env.isNameChar c := by
      rw [hnamed, List.length_take, Nat.min_eq_left hle]
    refine ⟨_, rfl, ?_⟩
    rw [readName, hlen, List.length_cons]
    cases hidx : (c :: s).findIdx? fun c => !env.isNameChar c with
    | none =>
      -- there are name characters only, and `idx` is that of the last one
      have hall := List.findIdx?_eq_none_iff_findIdx_eq.mp hidx
      rw [List.length_cons] at hall
      rw [hnamed, hall, Option.getD_none, if_pos rfl, if_neg (by omega)]
    | some n =>
      obtain ⟨-, hn⟩ := List.findIdx?_eq_some_iff_findIdx_eq.mp hidx
      rw [hnamed, hn, Option.getD_some]
      by_cases hlast : n + 1 = s.length + 1
      · rw [if_pos hlast, if_pos hlast.symm, hlast, ← List.length_cons, List.take_length]
      · rw [if_neg hlast, if_neg (Ne.symm hlast)]

/-! ## Names of the requirements -/

/-- The names that the loop reads and does not ignore. -/
def names : Option Nat → List Text → Except Exn (List Text)
  | _, [] => .ok []
  | idx, r :: pdeps =>
    if isOptional r then names idx pdeps
    else do
      let idx ← nameEnd env idx r
      let rest ← names (some idx) pdeps
      return if r.take idx ∈ env.ignore then rest else r.take idx :: rest

/-- The names in the requirements that are not skipped. -/
def readNames (pdeps : List Text) : List Text :=
  ((pdeps.filter fun r => !isOptional r).map (readName env)).filter (· ∉ env.ignore)

theorem readNames_cons (r : Text) (pdeps : List Text) : readNames env (r :: pdeps) =
    if isOptional r then readNames env pdeps
    else if readName env r ∈ env.ignore then readNames env pdeps
    else readName env r :: readNames env pdeps := by
  by_cases hopt : isOptional r = true
  · simp [readNames, hopt]
  · by_cases hignore : readName env r ∈ env.ignore <;> simp [readNames, hopt, hignore]

theorem names_eq {idx : Option Nat} {pdeps : List Text}
    (h : idx = none → (pdeps.filter fun r => !isOptional r).head? ≠ some []) :
    names env idx pdeps = .ok (readNames env pdeps) := by
  induction pdeps generalizing idx with
  | nil => rfl
  | cons r pdeps ih =>
    rw [names, readNames_cons]
    by_cases hopt : isOptional r = true
    · rw [if_pos hopt, if_pos hopt]
      rw [List.filter_cons_of_neg (by simp [hopt])] at h
      exact ih h
    · rw [if_neg hopt, if_neg hopt]
      rw [List.filter_cons_of_pos (by simp [hopt])] at h
      have hidx : idx = none → r ≠ [] := fun hn hr => h hn (by rw [hr]; rfl)
      obtain ⟨k, hk, htake⟩ := nameEnd_eq env hidx
      have hrest : names env (some k) pdeps = .ok (readNames env pdeps) := ih fun hn => by cases hn
      simp only [hk, hrest, bind, Except.bind, pure, Except.pure, htake]

theorem names_eq_error {pdeps : List Text}
    (h : (pdeps.filter fun r => !isOptional r).head? = some []) :
    names env none pdeps = .error unboundLocalError := by
  induction pdeps with
  | nil => cases h
  | cons r pdeps ih =>
    rw [names]
    cases hopt : isOptional r with
    | true =>
      rw [List.filter_cons_of_neg (by simp [hopt])] at h
      rw [if_pos rfl]
      exact ih h
    | false =>
      rw [List.filter_cons_of_pos (by simp [hopt])] at h
      cases h
      rfl

/-- **The loop** is that of a search over the names it reads. -/
theorem requirementsLoop_eq (call : Text → List Text → Except Exn (List Text)) (idx : Option Nat)
    (pdeps deps : List Text) :
    requirementsLoop env call idx pdeps deps =
      (names env idx pdeps).bind fun l => PostOrder.visit call l deps := by
  induction pdeps generalizing idx deps with
  | nil => rfl
  | cons r pdeps ih =>
    rw [requirementsLoop, names]
    split
    · exact ih idx deps
    · cases hk : nameEnd env idx r with
      | error e => rfl
      | ok k =>
        have hrest : names env (some k) pdeps = .ok (readNames env pdeps) :=
          names_eq env fun hn => by cases hn
        have hloop : ∀ deps, requirementsLoop env call (some k) pdeps deps =
            PostOrder.visit call (readNames env pdeps) deps := by
          intro deps
          rw [ih, hrest, Except.bind]
        simp only [hrest, bind, Except.bind, pure, Except.pure, hloop]
        split
        · rfl
        · rfl

/-! ## The graph of the packages -/

/-- The names that are read for a package. -/
def next (package : Text) : Except Exn (List Text) :=
  match env.requires package with
  | none => .ok []
  | some pdeps => names env none pdeps

theorem packageDeps_eq (depth : Nat) (package : Text) (deps : List Text) :
    packageDeps env depth package deps =
      PostOrder.collect (next env) .recursionError depth package deps := by
  induction depth generalizing package deps with
  | zero => rfl
  | succ depth ih =>
    have hcall : packageDeps env depth = PostOrder.collect (next env) .recursionError depth :=
      funext fun package => funext fun deps => ih package deps
    rw [packageDeps, PostOrder.collect, next]
    cases env.requires package with
    | none => rfl
    | some pdeps =>
      rw [hcall]
      exact requirementsLoop_eq env _ none pdeps deps

theorem exists_next {p : Text} : (∃ l, next env p = .ok l) ↔
    ∀ pdeps, env.requires p = some pdeps →
      (pdeps.filter fun r => !isOptional r).head? ≠ some [] := by
  rw [next]
  cases env.requires p with
  | none => simp
  | some pdeps =>
    simp only [Option.some.injEq, forall_eq']
    constructor
    · rintro ⟨l, hl⟩ hempty
      rw [names_eq_error env hempty] at hl
      cases hl
    · exact fun h => ⟨_, names_eq env fun _ => h⟩

theorem mem_readNames {pdeps : List Text} {q : Text} : q ∈ readNames env pdeps ↔
    ∃ r ∈ pdeps, isOptional r = false ∧ readName env r = q ∧ q ∉ env.ignore := by
  simp only [readNames, List.mem_filter, List.mem_map, Bool.not_eq_true', decide_eq_true_eq,
    and_assoc]
  constructor
  · rintro ⟨⟨r, hr, hopt, hq⟩, hignore⟩
    exact ⟨r, hr, hopt, hq, hignore⟩
  · rintro ⟨r, hr, hopt, hq, hignore⟩
    exact ⟨⟨r, hr, hopt, hq⟩, hignore⟩

theorem edge_iff {p q : Text} (h : ∃ l, next env p = .ok l) : PostOrder.Edge (next env) p q ↔
    ∃ pdeps r, env.requires p = some pdeps ∧ r ∈ pdeps ∧ isOptional r = false ∧
      readName env r = q ∧ q ∉ env.ignore := by
  have hempty := (exists_next env).mp h
  rw [PostOrder.Edge, next]
  cases hp : env.requires p with
  | none => simp
  | some pdeps =>
    simp only [names_eq env fun _ => hempty pdeps hp, Except.ok.injEq, exists_eq_left',
      mem_readNames, Option.some.injEq, exists_and_left]

theorem edge_iff_requires {p q : Text} (h : Readable env p) :
    PostOrder.Edge (next env) p q ↔ Requires env p q := by
  rw [edge_iff env ((exists_next env).mpr fun pdeps hp => (h pdeps hp).1), Requires]
  refine exists_congr fun pdeps => exists_congr fun r => and_congr_right fun hp =>
    and_congr_right fun hr => and_congr_right fun hopt => ?_
  rw [readName, if_neg ((h pdeps hp).2 r hr hopt)]

theorem finite_reachable (p : Text) :
    {q | ReflTransGen (PostOrder.Edge (next env)) p q}.Finite := by
  refine (List.finite_toSet (p :: (env.metadata.flatMap Prod.snd).map (readName env))).subset ?_
  intro q hq
  rcases ReflTransGen.cases_tail hq with rfl | ⟨r, -, hr⟩
  · exact List.mem_cons_self
  · have hok : ∃ l, next env r = .ok l := hr.imp fun l hl => hl.1
    obtain ⟨pdeps, r', hp, hr', -, hq, -⟩ := (edge_iff env hok).mp hr
    refine List.mem_cons_of_mem _ (List.mem_map.mpr ⟨r', ?_, hq⟩)
    exact List.mem_flatMap.mpr ⟨(r, pdeps), Items.mem_of_get hp, hr'⟩

/-! ## Dependencies -/

theorem not_plain_of_misread {r : Text} (h : r.length = (named env r).length + 1) :
    ¬∀ c ∈ r, env.isNameChar c = true := by
  intro hall
  rw [named, List.takeWhile_eq_self_iff.mpr hall] at h
  omega

theorem plain_of_requires {p q : Text} (h : Requires env p q) :
    ∀ c ∈ q, env.isNameChar c = true := by
  obtain ⟨pdeps, r, -, -, -, rfl, -⟩ := h
  exact fun c hc => List.mem_takeWhile_imp hc

theorem reflTransGen_congr {R S : Text → Text → Prop} {p : Text}
    (h : ∀ q, ReflTransGen R p q → ∀ r, R q r ↔ S q r) {q : Text} :
    ReflTransGen R p q ↔ ReflTransGen S p q := by
  constructor
  · intro hq
    induction hq with
    | refl => exact .refl
    | tail hq hqr ih => exact ih.tail ((h _ hq _).mp hqr)
  · intro hq
    induction hq with
    | refl => exact .refl
    | tail _ hqr ih => exact ih.tail ((h _ ih _).mpr hqr)

theorem transGen_congr {R S : Text → Text → Prop} {p : Text}
    (h : ∀ q, ReflTransGen R p q → ∀ r, R q r ↔ S q r) {q : Text} :
    TransGen R p q ↔ TransGen S p q := by
  rw [TransGen.tail'_iff, TransGen.tail'_iff]
  refine exists_congr fun r => ?_
  rw [← reflTransGen_congr h]
  exact and_congr_right fun hr => h r hr q

theorem edge_iff_of_readable {package : Text}
    (h : ∀ p, ReflTransGen (Requires env) package p → Readable env p) :
    ∀ p, ReflTransGen (Requires env) package p →
      ∀ q, Requires env p q ↔ PostOrder.Edge (next env) p q :=
  fun p hp _ => (edge_iff_requires env (h p hp)).symm

theorem readable_of_collects {package : Text} (h : Collects env package) :
    ∀ p, ReflTransGen (Requires env) package p → Readable env p := by
  obtain ⟨depth, deps, hdeps, -, hmem⟩ := h
  rw [packageDeps_eq] at hdeps
  obtain ⟨hs, hf, -, hsucc, hreach⟩ := PostOrder.collect_spec depth package [] deps .nil hdeps
  intro p hp
  -- the search has been at the package
  have hgraph : ReflTransGen (PostOrder.Edge (next env)) package p := by
    rcases reflTransGen_iff_eq_or_transGen.mp hp with rfl | hp
    · exact .refl
    · exact ((hreach p ((hmem p).mpr hp)).resolve_left List.not_mem_nil).to_reflTransGen
  have hok := hs.ok p hgraph
  refine fun pdeps hpdeps => ⟨(exists_next env).mp hok pdeps hpdeps, fun r hr hopt hlen => ?_⟩
  have hread : readName env r = r := if_pos hlen
  have hplain := not_plain_of_misread env hlen
  have hignore : r ∉ env.ignore := fun hi => hplain (env.ignore_plain r hi)
  have hedge : PostOrder.Edge (next env) p r :=
    (edge_iff env hok).mpr ⟨pdeps, r, hpdeps, hr, hopt, hread, hignore⟩
  have hrdeps : r ∈ deps := hf.reachable hsucc (.tail' hgraph hedge)
  obtain ⟨q, -, hq⟩ := TransGen.tail'_iff.mp ((hmem r).mp hrdeps)
  exact hplain (plain_of_requires env hq)

/-- **Dependencies.**  The call returns with what the package requires exactly if none of these
packages, nor the package itself, requires itself, and all of them are readable. -/
theorem collects_iff (package : Text) : Collects env package ↔
    ∀ p, ReflTransGen (Requires env) package p →
      Readable env p ∧ ¬TransGen (Requires env) p p := by
  constructor
  · intro h p hp
    have hread := readable_of_collects env h
    have hedge := edge_iff_of_readable env hread
    refine ⟨hread p hp, ?_⟩
    obtain ⟨depth, deps, hdeps, -, -⟩ := h
    rw [packageDeps_eq] at hdeps
    have hs := (PostOrder.collect_spec depth package [] deps .nil hdeps).searchable
    have hacyclic := (PostOrder.acc_iff_acyclic (finite_reachable env package)).mp hs.acc p
      ((reflTransGen_congr hedge).mp hp)
    rwa [transGen_congr fun q hq => hedge q (hp.trans hq)]
  · intro h
    have hedge := edge_iff_of_readable env fun p hp => (h p hp).1
    have hback : ∀ p, ReflTransGen (PostOrder.Edge (next env)) package p →
        ReflTransGen (Requires env) package p := fun p hp => (reflTransGen_congr hedge).mpr hp
    have hs : PostOrder.Searchable (next env) package := by
      refine ⟨(PostOrder.acc_iff_acyclic (finite_reachable env package)).mpr fun p hp => ?_,
        fun p hp => (exists_next env).mpr fun pdeps hpdeps =>
          ((h p (hback p hp)).1 pdeps hpdeps).1⟩
      rw [← transGen_congr fun q hq => hedge q ((hback p hp).trans hq)]
      exact (h p (hback p hp)).2
    obtain ⟨depth, deps, hdeps, hnodup, hmem⟩ :=
      (PostOrder.collect_iff Exn.recursionError).mpr hs
    exact ⟨depth, deps, by rw [packageDeps_eq, hdeps], hnodup, fun q => by
      rw [hmem, transGen_congr hedge]⟩

/-! ## Cycles -/

def packageA : Text := "a".toList

def packageB : Text := "b".toList

/-- Two packages that require each other. -/
def eachOther : Installation where
  metadata := [(packageA, ["b>=1.0".toList]), (packageB, ["a".toList])]
  isalnum := Char.isAlphanum
  ignore := []
  ignore_plain name h := by cases h

theorem eachOther_not_collects : ¬Collects eachOther packageA ∧
    ∀ depth, packageDeps eachOther depth packageA [] = .error .recursionError := by
  have hdepth : ∀ depth, packageDeps eachOther depth packageA [] = .error .recursionError ∧
      packageDeps eachOther depth packageB [] = .error .recursionError := by
    intro depth
    induction depth with
    | zero => exact ⟨rfl, rfl⟩
    | succ depth ih =>
      have ha : packageDeps eachOther (depth + 1) packageA [] = (do
          let deps ← packageDeps eachOther depth packageB []
          return deps ++ [packageB]) := by rfl
      have hb : packageDeps eachOther (depth + 1) packageB [] = (do
          let deps ← packageDeps eachOther depth packageA []
          return deps ++ [packageA]) := by rfl
      rw [ha, hb, ih.1, ih.2]
      exact ⟨rfl, rfl⟩
  refine ⟨?_, fun depth => (hdepth depth).1⟩
  rintro ⟨depth, deps, hdeps, -⟩
  rw [(hdepth depth).1] at hdeps
  cases hdeps

end Custodian.PackageDeps

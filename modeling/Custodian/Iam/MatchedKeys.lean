import Custodian.Iam.KeyFilters
import Custodian.Lib.AppendNew

/-!
# The keys that a policy matches and removes

`remove-keys` with `matched: true` removes the keys under `c7n:matched-keys`.  They are read here
against the filters of the policy as one formula about a single key.
-/

namespace Custodian.MatchedKeys

open Py BoolLogic Custodian.Blocks Custodian.Sweeper Custodian.KeyFilters

/-! ## The action -/

/-- `update_access_key(..., Status='Inactive')` or `delete_access_key` -/
inductive KeyCall where
  | deactivate (userName accessKeyId : Text)
  | delete (userName accessKeyId : Text)
  deriving DecidableEq

def KeyCall.userName : KeyCall → Text
  | .deactivate u _ => u
  | .delete u _ => u

def KeyCall.accessKeyId : KeyCall → Text
  | .deactivate _ k => k
  | .delete _ k => k

section Action

variable (account : Account)

/-- `resolve_credential_keys`, with `res` so far. -/
def resolveCredentialKeys (keys : List AccessKey) :
    List MatchedKey → List AccessKey → Except Exn (List AccessKey)
  | [], res => .ok res
  | .credential k :: ms, res => do
    let cDate ← account.parseDate k.lastRotated
    resolveCredentialKeys keys ms <|
      keys.foldl (fun res ak => if cDate = ak.createDate ∧ ak ∉ res then res ++ [ak] else res) res
  | .access k :: ms, res =>
    resolveCredentialKeys keys ms (if k ∈ res then res else res ++ [k])

/-- The keys of a user that are removed, from those that are listed. -/
def keysToRemove (age : Option Int) (matched : Bool) (r : Resource Entry)
    (keys : List AccessKey) : Except Exn (List AccessKey) := do
  let keys ←
    if matched then
      match matchedKeys r with
      | none => Except.error .typeError
      | some mKeys => resolveCredentialKeys account keys mKeys []
    else .ok keys
  return keys.filter fun k => match age with
    | none => true
    | some thresholdDate => k.createDate < thresholdDate

/-- The calls for the keys of a user. -/
def keyCalls (disable : Bool) (r : Resource Entry) (keys : List AccessKey) :
    Except Exn (List KeyCall) :=
  keys.mapM fun k => do
    let name ← userName r
    return if disable then .deactivate name k.accessKeyId else .delete name k.accessKeyId

/-- What a run of the action has done. -/
structure Removal where
  heap : Heap Entry
  calls : List KeyCall
  result : Except Exn Unit

/-- `UserRemoveAccessKey.process`; `age` is the threshold date. -/
def removeKeys (age : Option Int) (disable matched : Bool) : List Ref → Heap Entry → Removal
  | [], h => ⟨h, [], .ok ()⟩
  | r :: rs, h =>
    match augmentStep account (h r) with
    | .error e => ⟨h, [], .error e⟩
    | .ok (d, _) =>
      let h := Function.update h r d
      let listed := match d.lookup accessKeysKey with
        | some (.accessKeys ks) => ks
        | _ => []
      match keysToRemove account age matched d listed >>= keyCalls disable d with
      | .error e => ⟨h, [], .error e⟩
      | .ok calls =>
        let rest := removeKeys age disable matched rs h
        ⟨rest.heap, calls ++ rest.calls, rest.result⟩

end Action

variable {account : Account} {names : Ref → Text}

/-- The access keys that a matched key stands for: a key of the report stands for those that were
created when it was last rotated. -/
def StandsFor (account : Account) (listed : List AccessKey) : MatchedKey → AccessKey → Prop
  | .credential k, ak => ak ∈ listed ∧ account.parseDate k.lastRotated = .ok ak.createDate
  | .access k, ak => k = ak

theorem mem_resolveCredentialKeys {keys : List AccessKey} {ms : List MatchedKey}
    {res ks : List AccessKey} (h : resolveCredentialKeys account keys ms res = .ok ks)
    {ak : AccessKey} (hak : ak ∈ ks) : ak ∈ res ∨ ∃ m ∈ ms, StandsFor account keys m ak := by
  induction ms generalizing res with
  | nil =>
    rw [resolveCredentialKeys, Except.ok.injEq] at h
    exact Or.inl (h ▸ hak)
  | cons m ms ih =>
    cases m with
    | credential k =>
      rw [resolveCredentialKeys, bind_eq_ok] at h
      obtain ⟨cDate, hdate, h⟩ := h
      rcases ih h with hin | ⟨m, hm, hstands⟩
      · rw [foldl_eq_appendNew, mem_appendNew, List.mem_filter, decide_eq_true_iff] at hin
        rcases hin with hres | ⟨hlisted, hcreated⟩
        · exact Or.inl hres
        · exact Or.inr ⟨_, List.mem_cons_self, hlisted, hcreated ▸ hdate⟩
      · exact Or.inr ⟨m, List.mem_cons_of_mem _ hm, hstands⟩
    | access k =>
      rw [resolveCredentialKeys] at h
      rcases ih h with hin | ⟨m, hm, hstands⟩
      · split at hin
        · exact Or.inl hin
        · rcases List.mem_append.mp hin with hin | hin
          · exact Or.inl hin
          · exact Or.inr ⟨_, List.mem_cons_self, (List.mem_singleton.mp hin).symm⟩
      · exact Or.inr ⟨m, List.mem_cons_of_mem _ hm, hstands⟩

theorem mem_calls {age : Option Int} {disable : Bool} {name : Text} {d : Resource Entry}
    (hd : User account name d) {listed : List AccessKey} {calls : List KeyCall}
    (hcalls : keysToRemove account age true d listed >>= keyCalls disable d = .ok calls)
    {c : KeyCall} (hc : c ∈ calls) :
    c.userName = name ∧ ∃ ks, matchedKeys d = some ks ∧ ∃ m ∈ ks, ∃ ak,
      c.accessKeyId = ak.accessKeyId ∧ StandsFor account listed m ak := by
  obtain ⟨keys, hkeys, hcalls⟩ := bind_eq_ok.mp hcalls
  have hcall : ∃ ak ∈ keys, c.userName = name ∧ c.accessKeyId = ak.accessKeyId := by
    refine forall_of_mapM_eq_ok (P := fun c => ∃ ak ∈ keys, c.userName = name ∧
      c.accessKeyId = ak.accessKeyId) hcalls (fun ak hak c hc => ⟨ak, hak, ?_⟩) c hc
    rw [userName_of_user hd] at hc
    simp only [bind, Except.bind, pure_eq_ok] at hc
    subst hc
    cases disable <;> exact ⟨rfl, rfl⟩
  obtain ⟨ak, hak, hname, hid⟩ := hcall
  rw [keysToRemove, if_pos rfl] at hkeys
  cases hmatched : matchedKeys d with
  | none =>
    rw [hmatched] at hkeys
    cases hkeys
  | some ks =>
    rw [hmatched] at hkeys
    obtain ⟨res, hres, hfilter⟩ := bind_eq_ok.mp hkeys
    rw [pure_eq_ok] at hfilter
    have hin : ak ∈ res := List.mem_of_mem_filter (hfilter ▸ hak)
    rcases mem_resolveCredentialKeys hres hin with hnil | ⟨m, hm, hstands⟩
    · exact absurd hnil List.not_mem_nil
    · exact ⟨hname, ks, rfl, m, hm, ak, hid, hstands⟩

/-- **What is removed.**  With `matched: true` every call is about a listed key that a matched key
of its user stands for. -/
theorem mem_removeKeys {age : Option Int} {disable : Bool} {h : Heap Entry} {rs : List Ref}
    (hu : Users account names h rs) {c : KeyCall}
    (hc : c ∈ (removeKeys account age disable true rs h).calls) :
    ∃ r ∈ rs, c.userName = names r ∧ ∃ ks, matchedKeys (h r) = some ks ∧ ∃ m ∈ ks, ∃ ak,
      c.accessKeyId = ak.accessKeyId ∧
        StandsFor account (account.listAccessKeys (names r)) m ak := by
  induction rs generalizing h with
  | nil => exact absurd hc List.not_mem_nil
  | cons r rs ih =>
    have hr := hu.user r List.mem_cons_self
    obtain ⟨hno, hn⟩ := List.nodup_cons.mp hu.nodup
    obtain ⟨d, hd, -, huser, hmatched, hlisted⟩ := augmentStep_spec hr
    simp only [removeKeys, hd, hlisted] at hc
    have hrest : Users account names (Function.update h r d) rs := by
      refine ⟨hn, fun r' hr' r'' hr'' => hu.apart r' (List.mem_cons_of_mem _ hr') r''
        (List.mem_cons_of_mem _ hr''), fun r' hr' => ?_⟩
      have hne : r' ≠ r := fun he => hno (he ▸ hr')
      rw [Function.update_of_ne hne]
      exact hu.user r' (List.mem_cons_of_mem _ hr')
    cases hcalls : keysToRemove account age true d (account.listAccessKeys (names r)) >>=
        keyCalls disable d with
    | error e =>
      rw [hcalls] at hc
      exact absurd hc List.not_mem_nil
    | ok calls =>
      rw [hcalls] at hc
      rcases List.mem_append.mp hc with hc | hc
      · obtain ⟨hname, ks, hks, hm⟩ := mem_calls huser hcalls hc
        exact ⟨r, List.mem_cons_self, hname, ks, hmatched ▸ hks, hm⟩
      · obtain ⟨r', hr', hname, ks, hks, hm⟩ := ih hrest hc
        have hne : r' ≠ r := fun he => hno (he ▸ hr')
        rw [Function.update_of_ne hne] at hks
        exact ⟨r', List.mem_cons_of_mem _ hr', hname, ks, hks, hm⟩

/-! ## Trees of tests on keys -/

section Tests

variable {K : Type} (ks : List K) (narrow : Bool)

/-- A test on the keys of a user, as filters look at them. -/
def test (p : K → Bool) : Look K := ⟨some ks, narrow, p⟩

/-- The operators under which a later filter is merged with what is annotated: filters that look
at annotated keys add nothing to them. -/
def live : Op → Bool
  | .and => true
  | .or => !narrow

/-- The tree as a formula, at one key. -/
def value (k : K) (t : AndOr (K → Bool)) : Bool := (t.map fun p => p k).eval

def valueAll (op : Op) (k : K) (ts : List (AndOr (K → Bool))) : Bool :=
  AndOr.evalAll op (ts.map (AndOr.map fun p => p k))

theorem value_leaf (k : K) (p : K → Bool) : value k (.leaf p) = p k := by
  rw [value, AndOr.map_leaf, AndOr.eval]

theorem value_group (k : K) (op : Op) (t : AndOr (K → Bool)) (ts : List (AndOr (K → Bool))) :
    value k (.group op t ts) = valueAll op k (t :: ts) := by
  rw [value, AndOr.map_group, AndOr.eval, valueAll, List.map_cons, AndOr.evalAll]

theorem valueAll_cons (op : Op) (k : K) (t : AndOr (K → Bool)) (ts : List (AndOr (K → Bool))) :
    valueAll op k (t :: ts) = op.apply (value k t) (valueAll op k ts) := by
  rw [valueAll, List.map_cons, AndOr.evalAll, value, valueAll]

theorem valueAll_singleton (op : Op) (k : K) (t : AndOr (K → Bool)) :
    valueAll op k [t] = value k t := by
  rw [valueAll_cons]
  exact op.apply_unit _

theorem mem_matched {p : K → Bool} {old : Option (List K)} {k : K} :
    k ∈ (test ks narrow p).matched ks old ↔
      (if narrow then k ∈ old.getD ks else k ∈ ks) ∧ p k = true := by
  rw [Look.matched, List.mem_filter, test]
  cases narrow <;> rfl

variable [DecidableEq K]

theorem mem_intersectList {a : List K} {b : Option (List K)} {k : K} :
    k ∈ intersectList a b ↔ k ∈ a ∧ ∀ l, b = some l → k ∈ l := by
  cases b <;> simp [intersectList]

theorem mem_unionList {a : List K} {b : Option (List K)} {k : K} :
    k ∈ unionList a b ↔ k ∈ a ∨ k ∈ b.getD [] := by
  rw [unionList]
  cases hb : b.getD [] with
  | nil => simp
  | cons x xs =>
    cases a with
    | nil => simp
    | cons y ys =>
      have hne : ¬ (y :: ys).isEmpty = true := by simp
      simp only [hne]
      exact mem_appendNew

/-- The tests of a tree. -/
def tests (t : AndOr (K → Bool)) : AndOr (Look K) := t.map (test ks narrow)

omit [DecidableEq K] in
theorem tests_group (op : Op) (t : AndOr (K → Bool)) (ts : List (AndOr (K → Bool))) :
    tests ks narrow (.group op t ts) =
      .group op (tests ks narrow t) (ts.map (tests ks narrow)) := AndOr.map_group _ op t ts

/-- From the keys `old` a filter leaves those with the value, or no key has it. -/
structure NarrowsTo (old : List K) (v : K → Bool) (p : Bool × Option (List K)) : Prop where
  kept : p.1 = true → ∃ l, p.2 = some l ∧ ∀ k, k ∈ l ↔ k ∈ old ∧ v k = true
  dropped : p.1 = false → ∀ k ∈ old, v k = false

/-- To the keys `old` a filter adds those with the value. -/
structure AddsTo (old : Option (List K)) (v : K → Bool) (p : Bool × Option (List K)) : Prop where
  mem : ∀ k, k ∈ p.2.getD [] ↔ k ∈ old.getD [] ∨ k ∈ ks ∧ v k = true
  dropped : p.1 = false → ∀ k ∈ ks, v k = false
  isSome : p.1 = true ∨ old.isSome = true → p.2.isSome = true

variable {ks} {narrow}

theorem runEach_narrows {ts : List (AndOr (K → Bool))}
    (h : ∀ t ∈ ts, ∀ old, (∀ k ∈ old, k ∈ ks) →
      NarrowsTo old (fun k => value k t) (run .and (tests ks narrow t) (some old)))
    {old : List K} (hold : ∀ k ∈ old, k ∈ ks) :
    NarrowsTo old (fun k => valueAll .and k ts)
      (runEach (ts.map (tests ks narrow)) (some old)) := by
  induction ts generalizing old with
  | nil => exact ⟨fun _ => ⟨old, rfl, fun k => by simp [valueAll, AndOr.evalAll, Op.unit]⟩,
      fun hfalse => absurd hfalse (by simp [runEach])⟩
  | cons t ts ih =>
    obtain ⟨ht, hts⟩ := List.forall_mem_cons.mp h
    have hfirst := ht old hold
    rw [List.map_cons, runEach]
    simp only [valueAll_cons, Op.apply]
    cases hkept : (run .and (tests ks narrow t) (some old)).1 with
    | false =>
      rw [if_neg Bool.false_ne_true]
      refine ⟨fun htrue => absurd (hkept.symm.trans htrue) Bool.false_ne_true, fun _ k hk => ?_⟩
      rw [hfirst.dropped hkept k hk, Bool.false_and]
    | true =>
      rw [if_pos rfl]
      obtain ⟨l, hl, hmem⟩ := hfirst.kept hkept
      rw [hl]
      have hrest := ih hts fun k hk => hold k ((hmem k).mp hk).1
      refine ⟨fun htrue => ?_, fun hfalse k hk => ?_⟩
      · obtain ⟨l', hl', hmem'⟩ := hrest.kept htrue
        refine ⟨l', hl', fun k => ?_⟩
        rw [hmem', hmem, Bool.and_eq_true, and_assoc]
      · cases hv : value k t with
        | false => rfl
        | true => exact hrest.dropped hfalse k ((hmem k).mpr ⟨hk, hv⟩)

theorem merge_and (a : List K) (b : Option (List K)) :
    merge (blockType .and) a b = intersectList a b := rfl

theorem merge_or (a : List K) (b : Option (List K)) :
    merge (blockType .or) a b = unionList a b := rfl

theorem run_leaf (q : Op) (p : K → Bool) (old : Option (List K)) :
    run q (tests ks narrow (.leaf p)) old =
      (!((test ks narrow p).matched ks old).isEmpty,
        some (merge (blockType q) ((test ks narrow p).matched ks old) old)) := by
  rw [tests, AndOr.map_leaf, run, test]

omit [DecidableEq K] in
theorem not_mem_of_isEmpty {l : List K} (h : (!l.isEmpty) = false) (k : K) : k ∉ l := by
  rw [Bool.not_eq_false', List.isEmpty_iff] at h
  rw [h]
  exact List.not_mem_nil

/-- **A later member of an `and` group** that joins it leaves the annotated keys it is true of. -/
theorem run_joins_and {t : AndOr (K → Bool)} {q : Op}
    (hjoins : t.joins (live narrow) .and q = true) {old : List K} (hold : ∀ k ∈ old, k ∈ ks) :
    NarrowsTo old (fun k => value k t) (run q (tests ks narrow t) (some old)) := by
  induction t using AndOr.induct generalizing q old with
  | leaf p =>
    rw [AndOr.joins, Bool.and_eq_true, beq_iff_eq] at hjoins
    obtain ⟨rfl, -⟩ := hjoins
    have hmatched : ∀ k ∈ old, k ∈ (test ks narrow p).matched ks (some old) ↔ p k = true := by
      intro k hk
      rw [mem_matched]
      cases narrow <;> simp [hk, hold k hk]
    simp only [run_leaf, value_leaf]
    refine ⟨fun _ => ⟨_, rfl, fun k => ?_⟩, fun hfalse k hk => ?_⟩
    · rw [merge_and, mem_intersectList]
      constructor
      · rintro ⟨hk, hin⟩
        exact ⟨hin old rfl, (hmatched k (hin old rfl)).mp hk⟩
      · rintro ⟨hk, hp⟩
        refine ⟨(hmatched k hk).mpr hp, fun l hl => ?_⟩
        rwa [← Option.some.inj hl]
    · rw [← Bool.not_eq_true, ← hmatched k hk]
      exact not_mem_of_isEmpty hfalse k
  | group q' t ts iht ihts =>
    rw [AndOr.joins_group] at hjoins
    obtain ⟨hq, hall⟩ := hjoins
    obtain ⟨hfirst, hrest⟩ := List.forall_mem_cons.mp hall
    rw [tests_group]
    cases q' with
    | and =>
      have hmembers : ∀ u ∈ t :: ts, ∀ old, (∀ k ∈ old, k ∈ ks) →
          NarrowsTo old (fun k => value k u) (run .and (tests ks narrow u) (some old)) :=
        List.forall_mem_cons.mpr ⟨fun old hold => iht hfirst hold,
          fun u hu old hold => ihts u hu (hrest u hu) hold⟩
      have heach := runEach_narrows hmembers hold
      rw [run_and]
      simp only [value_group]
      refine ⟨fun htrue => ?_, heach.dropped⟩
      rw [List.map_cons] at heach
      obtain ⟨l, hl, hmem⟩ := heach.kept htrue
      exact ⟨l, by rw [if_pos htrue, hl], hmem⟩
    | or =>
      have hsingle : ts = [] := by
        by_contra hne
        exact absurd (hq hne) (by decide)
      subst hsingle
      rw [run_or, List.map_nil, runAny, runAny, Bool.or_false]
      simp only [value_group, valueAll_singleton]
      exact iht hfirst hold

theorem runAny_adds {ts : List (AndOr (K → Bool))}
    (h : ∀ t ∈ ts, ∀ old,
      AddsTo ks old (fun k => value k t) (run .or (tests ks narrow t) old))
    (old : Option (List K)) :
    AddsTo ks old (fun k => valueAll .or k ts) (runAny (ts.map (tests ks narrow)) old) := by
  induction ts generalizing old with
  | nil => exact ⟨fun k => by simp [valueAll, AndOr.evalAll, Op.unit, runAny], fun _ _ _ => rfl,
      fun hsome => hsome.resolve_left Bool.false_ne_true⟩
  | cons t ts ih =>
    obtain ⟨ht, hts⟩ := List.forall_mem_cons.mp h
    have hfirst := ht old
    have hrest := ih hts (run .or (tests ks narrow t) old).2
    rw [List.map_cons, runAny]
    simp only [valueAll_cons, Op.apply]
    refine ⟨fun k => ?_, fun hfalse k hk => ?_, fun hsome => ?_⟩
    · rw [hrest.mem, hfirst.mem, or_assoc, Bool.or_eq_true, and_or_left]
    · rw [Bool.or_eq_false_iff] at hfalse
      rw [hfirst.dropped hfalse.1 k hk, hrest.dropped hfalse.2 k hk, Bool.false_or]
    · rw [Bool.or_eq_true, or_assoc] at hsome
      rcases hsome with hsome | hsome | hsome
      · exact hrest.isSome (Or.inr (hfirst.isSome (Or.inl hsome)))
      · exact hrest.isSome (Or.inl hsome)
      · exact hrest.isSome (Or.inr (hfirst.isSome (Or.inr hsome)))

/-- **A later member of an `or` group** that joins it adds the keys that it is true of. -/
theorem run_joins_or {t : AndOr (K → Bool)} {q : Op}
    (hjoins : t.joins (live narrow) .or q = true) (old : Option (List K)) :
    AddsTo ks old (fun k => value k t) (run q (tests ks narrow t) old) := by
  induction t using AndOr.induct generalizing q old with
  | leaf p =>
    rw [AndOr.joins, Bool.and_eq_true, beq_iff_eq] at hjoins
    obtain ⟨rfl, hlive⟩ := hjoins
    have hnarrow : narrow = false := by simpa [live] using hlive
    subst hnarrow
    have hmatched : ∀ k, k ∈ (test ks false p).matched ks old ↔ k ∈ ks ∧ p k = true := fun k =>
      mem_matched ks false
    simp only [run_leaf, value_leaf]
    refine ⟨fun k => ?_, fun hfalse k hk => ?_, fun _ => rfl⟩
    · rw [Option.getD_some, merge_or, mem_unionList, hmatched, or_comm]
    · rw [← Bool.not_eq_true]
      exact fun hp => not_mem_of_isEmpty hfalse k ((hmatched k).mpr ⟨hk, hp⟩)
  | group q' t ts iht ihts =>
    rw [AndOr.joins_group] at hjoins
    obtain ⟨hq, hall⟩ := hjoins
    obtain ⟨hfirst, hrest⟩ := List.forall_mem_cons.mp hall
    rw [tests_group]
    cases q' with
    | and =>
      have hsingle : ts = [] := by
        by_contra hne
        exact absurd (hq hne) (by decide)
      subst hsingle
      have hadds := iht hfirst old
      rw [run_and, List.map_nil, runEach]
      simp only [value_group, valueAll_singleton]
      cases hkept : (run .and (tests ks narrow t) old).1 with
      | false =>
        simp only [Bool.false_eq_true, ↓reduceIte, hkept]
        refine ⟨fun k => ?_, fun _ => hadds.dropped hkept,
          fun hsome => hsome.resolve_left Bool.false_ne_true⟩
        refine ⟨Or.inl, fun hk => hk.resolve_right ?_⟩
        rintro ⟨hin, hv⟩
        rw [hadds.dropped hkept k hin] at hv
        exact Bool.false_ne_true hv
      | true =>
        simp only [↓reduceIte, runEach]
        exact ⟨hadds.mem, fun hfalse => absurd hfalse.symm Bool.false_ne_true,
          fun _ => hadds.isSome (Or.inl hkept)⟩
    | or =>
      rw [run_or]
      simp only [value_group]
      have hmembers : ∀ u ∈ t :: ts, ∀ old,
          AddsTo ks old (fun k => value k u) (run .or (tests ks narrow u) old) :=
        List.forall_mem_cons.mpr ⟨fun old => iht hfirst old,
          fun u hu old => ihts u hu (hrest u hu) old⟩
      exact runAny_adds hmembers old

/-- What a tree does to a user without an annotation. -/
structure Annotates (v : K → Bool) (ks : List K) (p : Bool × Option (List K)) : Prop where
  narrows : NarrowsTo ks v p
  blank : p.1 = false → p.2.getD [] = []

theorem runEach_starts {t : AndOr (K → Bool)} {ts : List (AndOr (K → Bool))}
    (hfirst : Annotates (fun k => value k t) ks (run .and (tests ks narrow t) none))
    (hjoins : ∀ u ∈ ts, u.joins (live narrow) .and .and = true) :
    NarrowsTo ks (fun k => valueAll .and k (t :: ts))
      (runEach ((t :: ts).map (tests ks narrow)) none) := by
  rw [List.map_cons, runEach]
  simp only [valueAll_cons, Op.apply]
  cases hkept : (run .and (tests ks narrow t) none).1 with
  | false =>
    rw [if_neg Bool.false_ne_true]
    refine ⟨fun htrue => absurd (hkept.symm.trans htrue) Bool.false_ne_true, fun _ k hk => ?_⟩
    rw [hfirst.narrows.dropped hkept k hk, Bool.false_and]
  | true =>
    obtain ⟨l, hl, hmem⟩ := hfirst.narrows.kept hkept
    have hrest : NarrowsTo l (fun k => valueAll .and k ts)
        (runEach (ts.map (tests ks narrow)) (some l)) :=
      runEach_narrows (fun u hu old hold => run_joins_and (hjoins u hu) hold)
        fun k hk => ((hmem k).mp hk).1
    rw [if_pos rfl, hl]
    refine ⟨fun htrue => ?_, fun hfalse k hk => ?_⟩
    · obtain ⟨l', hl', hmem'⟩ := hrest.kept htrue
      refine ⟨l', hl', fun k => ?_⟩
      rw [hmem', hmem, Bool.and_eq_true, and_assoc]
    · cases hv : value k t with
      | false => rfl
      | true => exact hrest.dropped hfalse k ((hmem k).mpr ⟨hk, hv⟩)

omit [DecidableEq K] in
theorem Annotates.mem_getD {v : K → Bool} {p : Bool × Option (List K)} (h : Annotates v ks p)
    (k : K) : k ∈ p.2.getD [] ↔ k ∈ ks ∧ v k = true := by
  cases hkept : p.1 with
  | false =>
    rw [h.blank hkept]
    refine iff_of_false List.not_mem_nil ?_
    rintro ⟨hk, hv⟩
    rw [h.narrows.dropped hkept k hk] at hv
    exact Bool.false_ne_true hv
  | true =>
    obtain ⟨l, hl, hmem⟩ := h.narrows.kept hkept
    rw [hl]
    exact hmem k

theorem leaf_starts (p : K → Bool) (q : Op) :
    Annotates p ks (run q (tests ks narrow (.leaf p)) none) := by
  have hmatched : ∀ k, k ∈ (test ks narrow p).matched ks none ↔ k ∈ ks ∧ p k = true := by
    intro k
    rw [mem_matched]
    cases narrow <;> rfl
  have hmerge : merge (blockType q) ((test ks narrow p).matched ks none) none =
      (test ks narrow p).matched ks none := by cases q <;> rfl
  simp only [run_leaf, hmerge]
  refine ⟨⟨fun _ => ⟨_, rfl, hmatched⟩, fun hfalse k hk => ?_⟩, fun hfalse => ?_⟩
  · rw [← Bool.not_eq_true]
    exact fun hp => not_mem_of_isEmpty hfalse k ((hmatched k).mpr ⟨hk, hp⟩)
  · exact List.eq_nil_iff_forall_not_mem.mpr (not_mem_of_isEmpty hfalse)

theorem runAny_starts {t : AndOr (K → Bool)} {ts : List (AndOr (K → Bool))}
    (hfirst : Annotates (fun k => value k t) ks (run .or (tests ks narrow t) none))
    (hjoins : ∀ u ∈ ts, u.joins (live narrow) .or .or = true) :
    Annotates (fun k => valueAll .or k (t :: ts)) ks
      (runAny ((t :: ts).map (tests ks narrow)) none) := by
  have hrest : AddsTo ks (run .or (tests ks narrow t) none).2 (fun k => valueAll .or k ts)
      (runAny (ts.map (tests ks narrow)) (run .or (tests ks narrow t) none).2) :=
    runAny_adds (fun u hu old => run_joins_or (hjoins u hu) old) _
  have hmem : ∀ k, k ∈ (runAny (ts.map (tests ks narrow))
      (run .or (tests ks narrow t) none).2).2.getD [] ↔
      k ∈ ks ∧ valueAll .or k (t :: ts) = true := by
    intro k
    rw [hrest.mem, hfirst.mem_getD, ← and_or_left, valueAll_cons, Op.apply, Bool.or_eq_true]
  have hdropped : ((run .or (tests ks narrow t) none).1 ||
      (runAny (ts.map (tests ks narrow)) (run .or (tests ks narrow t) none).2).1) = false →
      ∀ k ∈ ks, valueAll .or k (t :: ts) = false := by
    intro hfalse k hk
    rw [Bool.or_eq_false_iff] at hfalse
    rw [valueAll_cons, hfirst.narrows.dropped hfalse.1 k hk, hrest.dropped hfalse.2 k hk]
    rfl
  rw [List.map_cons, runAny]
  refine ⟨⟨fun htrue => ?_, hdropped⟩, fun hfalse => ?_⟩
  · have hsome : (runAny (ts.map (tests ks narrow))
        (run .or (tests ks narrow t) none).2).2.isSome = true := by
      rcases (Bool.or_eq_true _ _).mp htrue with hkept | hkept
      · obtain ⟨l, hl, -⟩ := hfirst.narrows.kept hkept
        exact hrest.isSome (Or.inr (by rw [hl]; rfl))
      · exact hrest.isSome (Or.inl hkept)
    obtain ⟨l, hl⟩ := Option.isSome_iff_exists.mp hsome
    rw [hl] at hmem
    exact ⟨l, hl, hmem⟩
  · refine List.eq_nil_iff_forall_not_mem.mpr fun k hk => ?_
    obtain ⟨hin, hv⟩ := (hmem k).mp hk
    rw [hdropped hfalse k hin] at hv
    exact Bool.false_ne_true hv

/-- **Trees on the left edge.**  Without an annotation before, a tree whose later members join
annotates the keys that it is true of. -/
theorem run_starts {t : AndOr (K → Bool)} {q : Op} (hstarts : t.starts (live narrow) = true) :
    Annotates (fun k => value k t) ks (run q (tests ks narrow t) none) := by
  induction t using AndOr.induct generalizing q with
  | leaf p =>
    simp only [value_leaf]
    exact leaf_starts p q
  | group q' t ts iht _ =>
    rw [AndOr.starts_group] at hstarts
    obtain ⟨hfirst, hjoins⟩ := hstarts
    rw [tests_group]
    simp only [value_group]
    cases q' with
    | and =>
      have heach := runEach_starts (iht hfirst) hjoins
      rw [run_and]
      refine ⟨⟨fun htrue => ?_, heach.dropped⟩, fun hfalse => ?_⟩
      · obtain ⟨l, hl, hmem⟩ := heach.kept htrue
        rw [List.map_cons] at hl
        exact ⟨l, by rw [if_pos htrue, hl], hmem⟩
      · simp only [] at hfalse
        rw [hfalse]
        rfl
    | or =>
      have hany := runAny_starts (iht hfirst) hjoins
      rw [run_or]
      rwa [List.map_cons] at hany

/-! ## Tests that all match one key -/

/-- The annotation `old` has the key `a`, and `b` as told; or there is none. -/
def Tracks (a b : K) : Option (List K) → Option Bool → Prop
  | none, none => True
  | some l, some y => a ∈ l ∧ (b ∈ l ↔ y = true)
  | _, _ => False

variable {a b : K} {p : Bool → K → Bool}

theorem run_fold_leaf (ha : a ∈ ks) (hb : b ∈ ks) (hpa : ∀ x, p x a = true)
    (hpb : ∀ x, p x b = x) (x : Bool) {q : Op} {old : Option (List K)} {y : Option Bool}
    (htracks : Tracks a b old y) :
    ∃ l, run q (tests ks narrow (.leaf (p x))) old = (true, some l) ∧
      Tracks a b (some l) (some (AndOr.fold (live narrow) q (.leaf x) y)) := by
  have hmatched : ∀ k, k ∈ (test ks narrow (p x)).matched ks old ↔
      (if narrow then k ∈ old.getD ks else k ∈ ks) ∧ p x k = true := fun k => mem_matched ks narrow
  have hin : a ∈ (test ks narrow (p x)).matched ks old := by
    rw [hmatched]
    refine ⟨?_, hpa x⟩
    cases old with
    | none => cases narrow <;> exact ha
    | some l =>
      cases y with
      | none => exact htracks.elim
      | some y =>
        cases narrow
        · exact ha
        · exact htracks.1
  have hkept : (!((test ks narrow (p x)).matched ks old).isEmpty) = true := by
    cases hempty : ((test ks narrow (p x)).matched ks old).isEmpty with
    | false => rfl
    | true =>
      rw [List.isEmpty_iff.mp hempty] at hin
      exact absurd hin List.not_mem_nil
  rw [run_leaf, hkept]
  refine ⟨_, rfl, ?_⟩
  cases old with
  | none =>
    cases y with
    | some y => exact htracks.elim
    | none =>
      have hmerge : merge (blockType q) ((test ks narrow (p x)).matched ks none) none =
          (test ks narrow (p x)).matched ks none := by cases q <;> rfl
      rw [hmerge]
      refine ⟨hin, ?_⟩
      rw [hmatched, hpb, AndOr.fold]
      cases narrow <;> simp [hb]
  | some l =>
    cases y with
    | none => exact htracks.elim
    | some y =>
      obtain ⟨hal, hbl⟩ := htracks
      cases q with
      | and =>
        rw [merge_and]
        constructor
        · rw [mem_intersectList]
          refine ⟨hin, fun l' hl' => ?_⟩
          rwa [← Option.some.inj hl']
        · rw [mem_intersectList, hmatched, hpb, AndOr.fold, live, if_pos rfl, Op.apply,
            Bool.and_eq_true, ← hbl]
          cases narrow <;> simp [hb, and_comm]
      | or =>
        rw [merge_or]
        constructor
        · exact mem_unionList.mpr (Or.inr hal)
        · rw [mem_unionList, hmatched, hpb, AndOr.fold, live, Op.apply]
          cases narrow
          · simp [hb, hbl, or_comm]
          · simpa [hbl] using fun hy _ => hy

theorem runEach_fold {ts : List (AndOr Bool)}
    (h : ∀ t ∈ ts, ∀ old y, Tracks a b old y →
      ∃ l, run .and (tests ks narrow (t.map p)) old = (true, some l) ∧
        Tracks a b (some l) (some (t.fold (live narrow) .and y)))
    {l : List K} {y : Bool} (htracks : Tracks a b (some l) (some y)) :
    ∃ l', runEach ((ts.map (AndOr.map p)).map (tests ks narrow)) (some l) = (true, some l') ∧
      Tracks a b (some l') (some (AndOr.foldAll (live narrow) .and ts y)) := by
  induction ts generalizing l y with
  | nil => exact ⟨l, rfl, htracks⟩
  | cons t ts ih =>
    obtain ⟨ht, hts⟩ := List.forall_mem_cons.mp h
    obtain ⟨l₁, hrun₁, htracks₁⟩ := ht _ _ htracks
    obtain ⟨l₂, hrun₂, htracks₂⟩ := ih hts htracks₁
    refine ⟨l₂, ?_, htracks₂⟩
    rw [List.map_cons, List.map_cons, runEach, hrun₁, if_pos rfl, hrun₂]

theorem runAny_fold {ts : List (AndOr Bool)}
    (h : ∀ t ∈ ts, ∀ old y, Tracks a b old y →
      ∃ l, run .or (tests ks narrow (t.map p)) old = (true, some l) ∧
        Tracks a b (some l) (some (t.fold (live narrow) .or y)))
    {l : List K} {y : Bool} (htracks : Tracks a b (some l) (some y)) :
    ∃ l', (runAny ((ts.map (AndOr.map p)).map (tests ks narrow)) (some l)).2 = some l' ∧
      Tracks a b (some l') (some (AndOr.foldAll (live narrow) .or ts y)) := by
  induction ts generalizing l y with
  | nil => exact ⟨l, rfl, htracks⟩
  | cons t ts ih =>
    obtain ⟨ht, hts⟩ := List.forall_mem_cons.mp h
    obtain ⟨l₁, hrun₁, htracks₁⟩ := ht _ _ htracks
    obtain ⟨l₂, hrun₂, htracks₂⟩ := ih hts htracks₁
    refine ⟨l₂, ?_, htracks₂⟩
    rw [List.map_cons, List.map_cons, runAny, hrun₁, hrun₂]

/-- **The annotation is a fold.**  Where all tests are true of one key, every filter keeps the user,
and whether another key is annotated is the fold of what the tests say of it. -/
theorem run_fold (ha : a ∈ ks) (hb : b ∈ ks) (hpa : ∀ x, p x a = true) (hpb : ∀ x, p x b = x)
    (t : AndOr Bool) {q : Op} {old : Option (List K)} {y : Option Bool}
    (htracks : Tracks a b old y) :
    ∃ l, run q (tests ks narrow (t.map p)) old = (true, some l) ∧
      Tracks a b (some l) (some (t.fold (live narrow) q y)) := by
  induction t using AndOr.induct generalizing q old y with
  | leaf x =>
    rw [AndOr.map_leaf]
    exact run_fold_leaf ha hb hpa hpb x htracks
  | group q' t ts iht ihts =>
    obtain ⟨l₁, hrun₁, htracks₁⟩ := iht (q := q') htracks
    rw [AndOr.map_group, tests_group, AndOr.fold]
    cases q' with
    | and =>
      obtain ⟨l₂, hrun₂, htracks₂⟩ :=
        runEach_fold (fun t ht old y htracks => ihts t ht htracks) htracks₁
      refine ⟨l₂, ?_, htracks₂⟩
      rw [run_and, runEach, hrun₁, if_pos rfl, hrun₂, if_pos rfl]
    | or =>
      obtain ⟨l₂, hrun₂, htracks₂⟩ :=
        runAny_fold (fun t ht old y htracks => ihts t ht htracks) htracks₁
      refine ⟨l₂, ?_, htracks₂⟩
      rw [run_or, runAny, hrun₁, hrun₂, Bool.true_or]

theorem runEach_fold_none (ha : a ∈ ks) (hb : b ∈ ks) (hpa : ∀ x, p x a = true)
    (hpb : ∀ x, p x b = x) (q : Op) (t : AndOr Bool) (ts : List (AndOr Bool)) :
    ∃ l, runEach (((t :: ts).map (AndOr.map p)).map (tests ks narrow)) none = (true, some l) ∧
      (b ∈ l ↔ (AndOr.group .and t ts).fold (live narrow) q none = true) := by
  have hfirst : ∃ l, run .and (tests ks narrow (t.map p)) none = (true, some l) ∧
      Tracks a b (some l) (some (t.fold (live narrow) .and none)) :=
    run_fold ha hb hpa hpb t trivial
  obtain ⟨l₁, hrun₁, htracks₁⟩ := hfirst
  obtain ⟨l₂, hrun₂, htracks₂⟩ :=
    runEach_fold (fun t _ old y htracks => run_fold ha hb hpa hpb t htracks) htracks₁
  refine ⟨l₂, ?_, ?_⟩
  · rw [List.map_cons, List.map_cons, runEach, hrun₁, if_pos rfl, hrun₂]
  · rw [AndOr.fold]
    exact htracks₂.2

end Tests

/-! ## Policies -/

/-- The two kinds of trees: `credential` filters, and `access-key` filters with the match operator
`and`. -/
inductive Kind where
  | credential
  | accessKey
  deriving DecidableEq

namespace Kind

def Filter : Kind → Type
  | .credential => Attribute × (Value → Bool)
  | .accessKey => AccessKey → Bool

def keysFilter : (kind : Kind) → kind.Filter → KeysFilter
  | .credential, f => .credential f.1 f.2
  | .accessKey, f => .accessKey .and fun
    | .access k => f k
    | .credential _ => false

/-- What a filter says of one key. -/
def holds : (kind : Kind) → MatchedKey → kind.Filter → Bool
  | .credential, .credential k, f => f.2 (k.get f.1)
  | .accessKey, .access k, f => f k
  | .credential, .access _, _ => false
  | .accessKey, .credential _, _ => false

/-- The keys of a user, if there are any to look at. -/
def keys (account : Account) (name : Text) : Kind → Option (List MatchedKey)
  | .credential => (account.report name).map (List.map .credential)
  | .accessKey => some ((account.listAccessKeys name).map .access)

/-- Whether the filters look at annotated keys first. -/
def narrow : Kind → Bool
  | .credential => false
  | .accessKey => true

theorem look_keysFilter (kind : Kind) (account : Account) (name : Text) (f : kind.Filter) :
    (kind.keysFilter f).look account name =
      ⟨kind.keys account name, kind.narrow, fun k => kind.holds k f⟩ := by
  cases kind with
  | credential =>
    rw [keysFilter, KeysFilter.look, keys, narrow, Look.mk.injEq]
    refine ⟨rfl, rfl, funext fun k => ?_⟩
    cases k <;> rfl
  | accessKey =>
    rw [keysFilter, KeysFilter.look, keys, narrow, Look.mk.injEq]
    refine ⟨rfl, rfl, funext fun k => ?_⟩
    cases k <;> rfl

end Kind

/-- The tree, read as a formula, is true of the key. -/
def Holds (kind : Kind) (t : AndOr kind.Filter) (k : MatchedKey) : Prop :=
  (t.map (kind.holds k)).eval = true

/-- The users that a policy is run on: distinct, and not annotated yet. -/
structure UserSet (account : Account) where
  names : Ref → Text
  heap : Heap Entry
  refs : List Ref
  users : Users account names heap refs
  fresh : ∀ r ∈ refs, matchedKeys (heap r) = none

/-- For all filters in a policy of the given shape, on all users: the filters run; on the users they
keep the annotation names exactly the keys of which the filters, as one formula, are true; and
`remove-keys` only touches listed keys that such a key stands for. -/
def MatchesTree (kind : Kind) (first : AndOr Unit) (rest : List (AndOr Unit)) : Prop :=
  ∀ (t : AndOr kind.Filter) (ts : List (AndOr kind.Filter)), t.shape = first →
    ts.map AndOr.shape = rest → ∀ (account : Account) (order : SetOrder Entry)
    (us : UserSet account), ∃ h' out,
      filterUsers account order ((t :: ts).map (AndOr.map kind.keysFilter)) us.heap us.refs =
        .ok (h', out) ∧
      (∀ r ∈ out, ∃ ks, matchedKeys (h' r) = some ks ∧ ∀ k, k ∈ ks ↔
        k ∈ (kind.keys account (us.names r)).getD [] ∧ Holds kind (.group .and t ts) k) ∧
      ∀ disable, ∀ c ∈ (removeKeys account none disable true out h').calls, ∃ r ∈ out,
        c.userName = us.names r ∧ ∃ ak ∈ account.listAccessKeys (us.names r),
          c.accessKeyId = ak.accessKeyId ∧ ∃ k ∈ (kind.keys account (us.names r)).getD [],
            Holds kind (.group .and t ts) k ∧
            StandsFor account (account.listAccessKeys (us.names r)) k ak

/-- The tests of a filter on single keys. -/
def predicate (kind : Kind) (f : kind.Filter) (k : MatchedKey) : Bool := kind.holds k f

theorem value_predicate {kind : Kind} (t : AndOr kind.Filter) (k : MatchedKey) :
    value k (t.map (predicate kind)) = true ↔ Holds kind t k := by
  rw [value, AndOr.map_map]
  rfl

theorem runMembers_of_keys {kind : Kind} {ts : List (AndOr kind.Filter)} {r : Ref}
    {ks : List MatchedKey} (hkeys : kind.keys account (names r) = some ks) :
    runMembers account names (ts.map (AndOr.map kind.keysFilter)) r =
      (ts.map (AndOr.map (predicate kind))).map (tests ks kind.narrow) := by
  rw [runMembers, List.map_map, List.map_map]
  refine List.map_congr_left fun t _ => ?_
  have hlook : KeysFilter.look account (names r) ∘ kind.keysFilter =
      test ks kind.narrow ∘ predicate kind := by
    funext f
    rw [Function.comp_apply, kind.look_keysFilter, hkeys]
    rfl
  rw [Function.comp_apply, AndOr.map_map, hlook, ← AndOr.map_map]
  rfl

theorem runAny_of_dropped {K : Type} [DecidableEq K] {ts : List (AndOr (Look K))}
    (h : ∀ t ∈ ts, ∀ old, (run .or t old).1 = false) (old : Option (List K)) :
    (runAny ts old).1 = false := by
  induction ts generalizing old with
  | nil => rfl
  | cons t ts ih =>
    obtain ⟨ht, hts⟩ := List.forall_mem_cons.mp h
    rw [runAny, ht, ih hts, Bool.or_false]

theorem run_of_no_keys {kind : Kind} {r : Ref} (hkeys : kind.keys account (names r) = none)
    (t : AndOr kind.Filter) (q : Op) (old : Option (List MatchedKey)) :
    (run q ((t.map kind.keysFilter).map (KeysFilter.look account (names r))) old).1 = false := by
  induction t using AndOr.induct generalizing q old with
  | leaf f => rw [AndOr.map_leaf, AndOr.map_leaf, kind.look_keysFilter, run, hkeys]
  | group op t ts iht ihts =>
    rw [AndOr.map_group, AndOr.map_group]
    cases op with
    | and => rw [run_and, runEach, iht, if_neg Bool.false_ne_true, iht]
    | or =>
      rw [run_or, runAny, iht, Bool.false_or]
      refine runAny_of_dropped (fun u hu old => ?_) _
      obtain ⟨u', hu', rfl⟩ := List.mem_map.mp hu
      obtain ⟨u, hin, rfl⟩ := List.mem_map.mp hu'
      exact ihts u hin .or old

theorem starts_predicate {kind : Kind} {t : AndOr kind.Filter} {ts : List (AndOr kind.Filter)}
    {l : Op → Bool} (h : (AndOr.group .and t.shape (ts.map AndOr.shape)).starts l = true) :
    (t.map (predicate kind)).starts l = true ∧
      ∀ u ∈ ts.map (AndOr.map (predicate kind)), u.joins l .and .and = true := by
  rw [AndOr.starts_group, AndOr.shape, AndOr.starts_map] at h
  rw [AndOr.starts_map]
  refine ⟨h.1, fun u hu => ?_⟩
  obtain ⟨u, hin, rfl⟩ := List.mem_map.mp hu
  rw [AndOr.joins_map, ← AndOr.joins_map l fun _ => ()]
  exact h.2 _ (List.mem_map_of_mem hin)

theorem annotated_of_starts {kind : Kind} {t : AndOr kind.Filter} {ts : List (AndOr kind.Filter)}
    (h : (AndOr.group .and t.shape (ts.map AndOr.shape)).starts (live kind.narrow) = true) {r : Ref}
    (hkept : (runEach (runMembers account names
      ((t :: ts).map (AndOr.map kind.keysFilter)) r) none).1 = true) :
    ∃ ks, (runEach (runMembers account names ((t :: ts).map (AndOr.map kind.keysFilter)) r)
        none).2 = some ks ∧
      ∀ k, k ∈ ks ↔
        k ∈ (kind.keys account (names r)).getD [] ∧ Holds kind (.group .and t ts) k := by
  cases hkeys : kind.keys account (names r) with
  | none =>
    have hdropped := run_of_no_keys hkeys t .and none
    rw [runMembers, List.map_cons, List.map_cons, runEach, hdropped, if_neg Bool.false_ne_true,
      hdropped] at hkept
    exact absurd hkept Bool.false_ne_true
  | some keys =>
    obtain ⟨hstarts, hjoins⟩ := starts_predicate h
    rw [runMembers_of_keys hkeys] at hkept ⊢
    obtain ⟨l, hl, hmem⟩ := (runEach_starts (run_starts hstarts) hjoins).kept hkept
    refine ⟨l, hl, fun k => ?_⟩
    rw [hmem, Option.getD_some, ← value_group, ← AndOr.map_group, value_predicate]

theorem matchesTree_of_starts {kind : Kind} {first : AndOr Unit} {rest : List (AndOr Unit)}
    (h : (AndOr.group .and first rest).starts (live kind.narrow) = true) :
    MatchesTree kind first rest := by
  rintro t ts rfl rfl account order us
  obtain ⟨h', out, hrun, hran⟩ := filterUsers_spec order
    ((t :: ts).map (AndOr.map kind.keysFilter)) us.users
  have hannotated : ∀ r ∈ out, ∃ ks, matchedKeys (h' r) = some ks ∧ ∀ k, k ∈ ks ↔
      k ∈ (kind.keys account (us.names r)).getD [] ∧ Holds kind (.group .and t ts) k := by
    intro r hr
    obtain ⟨hin, hkept⟩ := (hran.mem r).mp hr
    rw [us.fresh r hin] at hkept
    rw [hran.matched r hin, us.fresh r hin]
    exact annotated_of_starts h hkept
  refine ⟨h', out, hrun, hannotated, fun disable c hc => ?_⟩
  have hout : Users account us.names h' out :=
    hran.users.subset hran.nodup fun r hr => ((hran.mem r).mp hr).1
  obtain ⟨r, hr, hname, ks, hks, m, hm, ak, hid, hstands⟩ := mem_removeKeys hout hc
  obtain ⟨ks', hks', hmem⟩ := hannotated r hr
  obtain rfl := Option.some.inj (hks.symm.trans hks')
  obtain ⟨hin, hholds⟩ := (hmem m).mp hm
  refine ⟨r, hr, hname, ak, ?_, hid, m, hin, hholds, hstands⟩
  cases m with
  | credential k => exact hstands.1
  | access k =>
    obtain rfl := hstands
    cases kind with
    | credential =>
      -- a user of the report is annotated with keys of the report only
      rw [Kind.keys] at hin
      cases hreport : account.report (us.names r) with
      | none =>
        rw [hreport] at hin
        exact absurd hin List.not_mem_nil
      | some info =>
        rw [hreport] at hin
        obtain ⟨k', -, hk'⟩ := List.mem_map.mp hin
        cases hk'
    | accessKey =>
      obtain ⟨k', hk', he⟩ := List.mem_map.mp hin
      exact MatchedKey.access.inj he ▸ hk'

/-! ## Where the tree is not met -/

def sampleRow (active : Bool) (rotated service : Text) : ReportKey :=
  ⟨.bool active, .text rotated, .none, .none, .text service⟩

def sampleRows : List ReportKey :=
  [sampleRow true "2020-01-01".toList "s3".toList, sampleRow false "2021-01-01".toList "ec2".toList]

def sampleKeys : List AccessKey :=
  [⟨"alice".toList, "AKIA1".toList, "Active".toList, 1577836800⟩,
    ⟨"alice".toList, "AKIA2".toList, "Inactive".toList, 1609459200⟩]

/-- One user, with an active and an inactive key. -/
def sampleAccount : Account where
  report _ := some sampleRows
  listAccessKeys _ := sampleKeys
  parseDate v := .ok (if v = .text "2020-01-01".toList then 1577836800 else 1609459200)

def sampleUsers : UserSet sampleAccount where
  names _ := "alice".toList
  heap _ := AList.insert userNameKey (.text "alice".toList) ∅
  refs := [0]
  users :=
    { nodup := List.nodup_singleton 0
      apart := fun r hr r' hr' _ =>
        (List.mem_singleton.mp hr').trans (List.mem_singleton.mp hr).symm
      user := fun _ _ => ⟨AList.lookup_insert _, fun v hv => by
        rw [AList.lookup_insert_ne (by decide)] at hv
        cases hv⟩ }
  fresh _ _ := by
    rw [matchedKeys, AList.lookup_insert_ne (by decide)]
    rfl

def sampleFirst : Kind → MatchedKey
  | .credential => .credential (sampleRow true "2020-01-01".toList "s3".toList)
  | .accessKey => .access ⟨"alice".toList, "AKIA1".toList, "Active".toList, 1577836800⟩

def sampleSecond : Kind → MatchedKey
  | .credential => .credential (sampleRow false "2021-01-01".toList "ec2".toList)
  | .accessKey => .access ⟨"alice".toList, "AKIA2".toList, "Inactive".toList, 1609459200⟩

/-- A filter that matches the first key, and the second one if told. -/
def sampleFilter : (kind : Kind) → Bool → kind.Filter
  | .credential, x => (.lastUsedService, fun v => v = .text "s3".toList || x)
  | .accessKey, x => fun k => k.status = "Active".toList || x

theorem predicate_first (kind : Kind) (x : Bool) :
    predicate kind (sampleFilter kind x) (sampleFirst kind) = true := by
  cases kind <;> cases x <;> decide

theorem predicate_second (kind : Kind) (x : Bool) :
    predicate kind (sampleFilter kind x) (sampleSecond kind) = x := by
  cases kind <;> cases x <;> decide

theorem keys_sample (kind : Kind) : kind.keys sampleAccount (sampleUsers.names 0) =
    some [sampleFirst kind, sampleSecond kind] := by cases kind <;> rfl

theorem runEach_sample (kind : Kind) (v : AndOr Bool) (vs : List (AndOr Bool)) :
    ∃ l, runEach (runMembers sampleAccount sampleUsers.names
        (((v :: vs).map (AndOr.map (sampleFilter kind))).map (AndOr.map kind.keysFilter)) 0) none =
        (true, some l) ∧
      (sampleSecond kind ∈ l ↔
        (AndOr.group .and v vs).fold (live kind.narrow) .and none = true) := by
  have hmap : ((v :: vs).map (AndOr.map (sampleFilter kind))).map (AndOr.map (predicate kind)) =
      (v :: vs).map (AndOr.map fun x => predicate kind (sampleFilter kind x)) := by
    rw [List.map_map]
    exact List.map_congr_left fun u _ => AndOr.map_map _ _ u
  rw [runMembers_of_keys (keys_sample kind), hmap]
  exact runEach_fold_none List.mem_cons_self (List.mem_cons_of_mem _ (List.mem_singleton_self _))
    (predicate_first kind) (predicate_second kind) .and v vs

theorem holds_sample (kind : Kind) (t : AndOr Bool) :
    Holds kind (t.map (sampleFilter kind)) (sampleSecond kind) ↔ t.eval = true := by
  have hid : (fun x => predicate kind (sampleFilter kind x) (sampleSecond kind)) = id :=
    funext (predicate_second kind)
  rw [← value_predicate, AndOr.map_map, value, AndOr.map_map]
  change (AndOr.eval (t.map fun x => predicate kind (sampleFilter kind x) (sampleSecond kind)) =
    true) ↔ _
  rw [hid, AndOr.map_id]

theorem starts_of_matchesTree {kind : Kind} {first : AndOr Unit} {rest : List (AndOr Unit)}
    (h : MatchesTree kind first rest) :
    (AndOr.group .and first rest).starts (live kind.narrow) = true := by
  refine @AndOr.starts_of_fold _ .and _ fun v hv => ?_
  cases v with
  | leaf x => cases hv
  | group op v vs =>
    rw [AndOr.shape, AndOr.map_group, AndOr.group.injEq] at hv
    obtain ⟨rfl, hfirst, hrest⟩ := hv
    have hshapes : ((vs.map (AndOr.map (sampleFilter kind))).map AndOr.shape) = rest := by
      rw [← hrest, List.map_map]
      exact List.map_congr_left fun u _ => AndOr.shape_map _ u
    obtain ⟨h', out, hrun, hannotated, -⟩ := h (v.map (sampleFilter kind)) _
      ((AndOr.shape_map _ v).trans hfirst) hshapes sampleAccount .ofInsertion sampleUsers
    obtain ⟨h'', out', hrun', hran⟩ := filterUsers_spec .ofInsertion
      (((v :: vs).map (AndOr.map (sampleFilter kind))).map (AndOr.map kind.keysFilter))
      sampleUsers.users
    rw [← List.map_cons, hrun', Except.ok.injEq, Prod.mk.injEq] at hrun
    obtain ⟨rfl, rfl⟩ := hrun
    obtain ⟨l, hl, hmem⟩ := runEach_sample kind v vs
    have hfresh := sampleUsers.fresh 0 (List.mem_singleton_self 0)
    have hin : 0 ∈ out' := by
      rw [hran.mem, hfresh, hl]
      exact ⟨List.mem_singleton_self 0, rfl⟩
    obtain ⟨ks, hks, hiff⟩ := hannotated 0 hin
    rw [hran.matched 0 (List.mem_singleton_self 0), hfresh, hl, Option.some.injEq] at hks
    subst hks
    rw [Bool.eq_iff_iff, ← hmem, hiff, keys_sample, ← AndOr.map_group, holds_sample]
    exact and_iff_right (List.mem_cons_of_mem _ (List.mem_singleton_self _))

/-- **Which trees are matched.**  The annotation of the users that are kept names exactly the keys
of which the filters, as one formula, are true, and `remove-keys` touches only such keys, whatever
the filters and the users are, if and only if the later members of every group on the left edge of
the tree join it. -/
theorem matchesTree_iff (kind : Kind) (first : AndOr Unit) (rest : List (AndOr Unit)) :
    MatchesTree kind first rest ↔
      (AndOr.group .and first rest).starts (live kind.narrow) = true :=
  ⟨starts_of_matchesTree, matchesTree_of_starts⟩

/-- `access_keys.active` is false. -/
def inactive : Kind.credential.Filter := (.active, fun v => v = .bool false)

/-- `access_keys.last_used_service` is the service. -/
def lastUsed (service : Text) : Kind.credential.Filter :=
  (.lastUsedService, fun v => v = .text service)

/-- The filters `inactive` and `or: [lastUsed s3, lastUsed ec2]` keep the user for the inactive key,
but annotate the active one as well, and `remove-keys` deletes it. -/
theorem sampleUsers_removed :
    let filter := AndOr.leaf inactive
    let group := AndOr.group .or (.leaf (lastUsed "s3".toList)) [.leaf (lastUsed "ec2".toList)]
    ∃ h' out, filterUsers sampleAccount .ofInsertion
        ([filter, group].map (AndOr.map Kind.credential.keysFilter)) sampleUsers.heap
        sampleUsers.refs = .ok (h', out) ∧ out = [0] ∧
      matchedKeys (h' 0) = some [sampleSecond .credential, sampleFirst .credential] ∧
      ¬ Holds .credential (.group .and filter [group]) (sampleFirst .credential) ∧
      (removeKeys sampleAccount none false true out h').calls =
        [.delete "alice".toList "AKIA2".toList, .delete "alice".toList "AKIA1".toList] := by
  refine ⟨_, _, rfl, rfl, ?_, ?_, ?_⟩
  · decide +kernel
  · rw [Holds]
    decide +kernel
  · decide +kernel

end Custodian.MatchedKeys

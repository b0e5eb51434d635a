import Custodian.Lib.Except
import Custodian.Statements.Documents

/-!
# The encryption statement of a bucket policy

`EncryptionEnabledFilter` of `c7n/resources/s3.py` looks for a statement that denies uploads without
encryption.  The statement it compares with takes the `Sid` and the `Resource` of every statement
that has them, and keeps them for the next.
-/

namespace Custodian.EncryptionStatement

open Py
open Documents

/-- A bucket, with its policy if it has one: the statements that are loaded from it. -/
structure Bucket where
  name : Text
  policy : Option StatementField

def resourceKey : Text := "Resource".toList

/-- `ENCRYPTION_STATEMENT_GLOB` -/
def encryptionStatementGlob : List (Text × Json) :=
  [("Effect".toList, .str "Deny".toList),
   ("Principal".toList, .str "*".toList),
   ("Action".toList, .str "s3:PutObject".toList),
   ("Condition".toList, .obj [("StringNotEquals".toList, .obj
     [("s3:x-amz-server-side-encryption".toList,
       .arr [.str "AES256".toList, .str "aws:kms".toList])])])]

/-- `if key in s: encryption_statement[key] = s[key]` -/
def absorbKey (key : Text) (encryption : List (Text × Json)) (s : Json) :
    Except Exn (List (Text × Json)) := do
  if ← s.hasKey key then
    let v ← s.index key
    return Items.set key v encryption
  else return encryption

/-- The statement that `s` is compared with. -/
def absorb (encryption : List (Text × Json)) (s : Json) : Except Exn (List (Text × Json)) := do
  absorbKey resourceKey (← absorbKey sidKey encryption s) s

/-- The loop over the statements, with `check` in the end. -/
def check (encryption : List (Text × Json)) : List Json → Except Exn Bool
  | [] => .ok false
  | s :: ss => do
    let encryption ← absorb encryption s
    if s.same (.obj encryption) then return true else check encryption ss

/-- `process_bucket` -/
def processBucket (b : Bucket) : Except Exn (Option Bucket) :=
  match b.policy with
  | none => .ok (some b)
  | some p => do
    return if ← check encryptionStatementGlob p.elements then none else some b

/-- `process` -/
def process (buckets : List Bucket) : Except Exn (List Bucket) := do
  return (← buckets.mapM processBucket).filterMap id

/-! ## What the filter is for -/

/-- Without its `Sid` and its `Resource` the statement is the one that is required. -/
def required (s : Statement) : Bool :=
  Json.same (.obj (s.members.filter fun m => m.1 ≠ sidKey ∧ m.1 ≠ resourceKey))
    (.obj encryptionStatementGlob)

def hasKey (key : Text) (s : Statement) : Bool := (Items.get key s.members).isSome

/-- Whether a bucket with this policy is left out. -/
def rejects (name : Text) (p : StatementField) : Except Exn Bool :=
  (processBucket ⟨name, some p⟩).map Option.isNone

/-- The bucket is rejected for a statement that is required, and the verdict is the same for all
policies with the same required statements, in any order and among any others. -/
structure Judges (name : Text) (p : StatementField) : Prop where
  verdict : rejects name p = .ok (p.statements.any required)
  stable : ∀ ss : List Statement, (ss.filter required).Perm (p.statements.filter required) →
    rejects name (.list ss) = rejects name p

/-- One required statement, if there is any, has its own `Sid` and `Resource`. -/
def Distinguished (ss : List Statement) : Prop :=
  ss.any required = true →
    ∃ s ∈ ss, required s = true ∧ hasKey sidKey s = true ∧ hasKey resourceKey s = true

/-- The key has another one in it, as a text. -/
def Mentions (k : Text) : Prop := sidKey <:+: k ∨ resourceKey <:+: k

instance (k : Text) : Decidable (Mentions k) := inferInstanceAs (Decidable (_ ∨ _))

/-- A list is distinguished; a single statement is not the required one and has no key that
mentions `Sid` or `Resource`. -/
def Sound : StatementField → Prop
  | .list ss => Distinguished ss
  | .single s => required s = false ∧ ∀ k ∈ s.members.map Prod.fst, ¬ Mentions k

/-! ## What a statement is compared with -/

/-- What the loop compares with: the required statement, maybe with a `Sid` and a `Resource`. -/
structure Template (e : List (Text × Json)) : Prop where
  nodup : (e.map Prod.fst).Nodup
  frame : ∀ k, k ≠ sidKey → k ≠ resourceKey → Items.get k e = Items.get k encryptionStatementGlob

theorem template_glob : Template encryptionStatementGlob :=
  ⟨by decide, fun _ _ _ => rfl⟩

theorem absorbKey_json (key : Text) (e : List (Text × Json)) (s : Statement) :
    absorbKey key e s.json =
      .ok ((Items.get key s.members).elim e fun v => Items.set key v e) := by
  rw [absorbKey, Statement.json, Json.hasKey_obj, Json.index_obj]
  cases Items.get key s.members <;> rfl

/-- The statement that `s` is compared with, once its keys are written. -/
def absorbed (e : List (Text × Json)) (s : Statement) : List (Text × Json) :=
  let e := (Items.get sidKey s.members).elim e fun v => Items.set sidKey v e
  (Items.get resourceKey s.members).elim e fun v => Items.set resourceKey v e

theorem absorb_json (e : List (Text × Json)) (s : Statement) :
    absorb e s.json = .ok (absorbed e s) := by
  rw [absorb, absorbKey_json, ok_bind, absorbKey_json]
  rfl

theorem get_elim_set (key : Text) (v : Option Json) (e : List (Text × Json)) (k : Text) :
    Items.get k (v.elim e fun v => Items.set key v e) =
      if k = key then v.or (Items.get k e) else Items.get k e := by
  cases v with
  | none => exact (ite_self _).symm
  | some v => exact Items.get_set key v e k

theorem sidKey_ne_resourceKey : sidKey ≠ resourceKey := by decide

theorem get_absorbed (e : List (Text × Json)) (s : Statement) (k : Text) :
    Items.get k (absorbed e s) = if k = sidKey ∨ k = resourceKey then
      (Items.get k s.members).or (Items.get k e) else Items.get k e := by
  rw [absorbed, get_elim_set, get_elim_set]
  by_cases hs : k = sidKey
  · subst hs
    rw [if_neg sidKey_ne_resourceKey, if_pos rfl, if_pos (Or.inl rfl)]
  · rw [if_neg hs]
    by_cases hr : k = resourceKey
    · subst hr
      rw [if_pos rfl, if_pos (Or.inr rfl)]
    · rw [if_neg hr, if_neg (not_or_intro hs hr)]

theorem Template.absorbed {e : List (Text × Json)} (he : Template e) (s : Statement) :
    Template (absorbed e s) := by
  have hset : ∀ {e : List (Text × Json)}, (e.map Prod.fst).Nodup → ∀ (key : Text)
      (v : Option Json), ((v.elim e fun v => Items.set key v e).map Prod.fst).Nodup := by
    intro e he key v
    cases v with
    | none => exact he
    | some v => exact Items.keys_nodup_set he
  refine ⟨hset (hset he.nodup _ _) _ _, fun k hs hr => ?_⟩
  rw [get_absorbed, if_neg (not_or_intro hs hr), he.frame k hs hr]

theorem required_iff (s : Statement) : required s = true ↔ ∀ k, k ≠ sidKey → k ≠ resourceKey →
    (Items.get k s.members).map Json.canon =
      (Items.get k encryptionStatementGlob).map Json.canon := by
  have hnodup : ((s.members.filter fun m => m.1 ≠ sidKey ∧ m.1 ≠ resourceKey).map
      Prod.fst).Nodup := s.nodup.sublist (List.filter_sublist.map Prod.fst)
  have hget : ∀ k, Items.get k (s.members.filter fun m => m.1 ≠ sidKey ∧ m.1 ≠ resourceKey) =
      if k ≠ sidKey ∧ k ≠ resourceKey then Items.get k s.members else none := by
    intro k
    rw [Items.get_filter fun k => decide (k ≠ sidKey ∧ k ≠ resourceKey)]
    simp only [decide_eq_true_eq]
  rw [required, Json.same_obj_iff hnodup template_glob.nodup]
  refine forall_congr' fun k => ?_
  rw [hget]
  by_cases hk : k ≠ sidKey ∧ k ≠ resourceKey
  · rw [if_pos hk]
    exact ⟨fun h _ _ => h, fun h => h hk.1 hk.2⟩
  · rw [if_neg hk]
    refine iff_of_true ?_ fun hs hr => absurd ⟨hs, hr⟩ hk
    rcases not_and_or.mp hk with hs | hr
    · rw [not_not.mp hs]
      rfl
    · rw [not_not.mp hr]
      rfl

/-- **The statements that are recognised**: required ones with their own keys, or without the keys
that have been kept. -/
theorem same_absorb_iff {e : List (Text × Json)} (he : Template e) (s : Statement) :
    s.json.same (.obj (absorbed e s)) = true ↔ required s = true ∧
      (hasKey sidKey s = false → Items.get sidKey e = none) ∧
      (hasKey resourceKey s = false → Items.get resourceKey e = none) := by
  have hown : ∀ v w : Option Json, v.map Json.canon = (v.or w).map Json.canon ↔
      (v.isSome = false → w = none) := by
    intro v w
    cases v with
    | none => simp [eq_comm]
    | some v => simp
  rw [Statement.json, Json.same_obj_iff s.nodup (he.absorbed s).nodup, required_iff]
  constructor
  · intro h
    refine ⟨fun k hs hr => ?_, (hown _ _).mp ?_, (hown _ _).mp ?_⟩
    · rw [h k, get_absorbed, if_neg (not_or_intro hs hr), he.frame k hs hr]
    · rw [h sidKey, get_absorbed, if_pos (Or.inl rfl)]
    · rw [h resourceKey, get_absorbed, if_pos (Or.inr rfl)]
  · rintro ⟨hrequired, hsid, hresource⟩ k
    rw [get_absorbed]
    by_cases hk : k = sidKey ∨ k = resourceKey
    · rw [if_pos hk]
      rcases hk with rfl | rfl
      · exact (hown _ _).mpr hsid
      · exact (hown _ _).mpr hresource
    · obtain ⟨hs, hr⟩ := not_or.mp hk
      rw [if_neg hk, hrequired k hs hr, he.frame k hs hr]

/-! ## The loop -/

theorem check_cons (e : List (Text × Json)) (s : Statement) (ss : List Json) :
    check e (s.json :: ss) =
      if s.json.same (.obj (absorbed e s)) then .ok true else check (absorbed e s) ss := by
  rw [check, absorb_json, ok_bind]
  rfl

theorem check_of_not_required {ss : List Statement} (h : ∀ s ∈ ss, required s = false)
    {e : List (Text × Json)} (he : Template e) : check e (ss.map Statement.json) = .ok false := by
  induction ss generalizing e with
  | nil => rfl
  | cons s ss ih =>
    obtain ⟨hs, hss⟩ := List.forall_mem_cons.mp h
    rw [List.map_cons, check_cons, if_neg, ih hss (he.absorbed s)]
    rw [same_absorb_iff he, hs]
    exact fun h => Bool.false_ne_true h.1

theorem check_of_own {ss : List Statement} {t : Statement} (ht : t ∈ ss)
    (hrequired : required t = true) (hsid : hasKey sidKey t = true)
    (hresource : hasKey resourceKey t = true) {e : List (Text × Json)} (he : Template e) :
    check e (ss.map Statement.json) = .ok true := by
  induction ss generalizing e with
  | nil => cases ht
  | cons s ss ih =>
    rw [List.map_cons, check_cons]
    split
    · rfl
    · next hsame =>
      rcases List.mem_cons.mp ht with rfl | ht
      · refine absurd ((same_absorb_iff he t).mpr ⟨hrequired, fun h => ?_, fun h => ?_⟩) hsame
        · rw [hsid] at h
          cases h
        · rw [hresource] at h
          cases h
      · exact ih ht (he.absorbed s)

theorem check_of_kept {ss : List Statement}
    (h : ∀ s ∈ ss, ¬ (required s = true ∧ hasKey sidKey s = true ∧ hasKey resourceKey s = true))
    {e : List (Text × Json)} (he : Template e) (hsid : Items.get sidKey e ≠ none)
    (hresource : Items.get resourceKey e ≠ none) :
    check e (ss.map Statement.json) = .ok false := by
  have hkept : ∀ (s : Statement) (k : Text) {e : List (Text × Json)}, Items.get k e ≠ none →
      Items.get k (absorbed e s) ≠ none := by
    intro s k e hk
    rw [get_absorbed]
    split
    · rw [Ne, Option.or_eq_none_iff]
      exact fun h => hk h.2
    · exact hk
  induction ss generalizing e with
  | nil => rfl
  | cons s ss ih =>
    obtain ⟨hs, hss⟩ := List.forall_mem_cons.mp h
    rw [List.map_cons, check_cons, if_neg, ih hss (he.absorbed s) (hkept s _ hsid)
      (hkept s _ hresource)]
    rw [same_absorb_iff he]
    rintro ⟨hrequired, hs', hr'⟩
    refine hs ⟨hrequired, ?_, ?_⟩
    · exact (Bool.not_eq_false _).mp fun hfalse => hsid (hs' hfalse)
    · exact (Bool.not_eq_false _).mp fun hfalse => hresource (hr' hfalse)

/-! ## A single statement -/

theorem absorbKey_str (key k : Text) (e : List (Text × Json)) :
    absorbKey key e (.str k) = if key <:+: k then .error .typeError else .ok e := by
  rw [absorbKey, Json.hasKey, ok_bind]
  by_cases hk : key <:+: k
  · simp only [hk, decide_true, if_true]
    rfl
  · simp only [hk, decide_false, Bool.false_eq_true, if_false]
    rfl

theorem check_keys (ks : List Text) (e : List (Text × Json)) :
    check e (ks.map .str) =
      if ∃ k ∈ ks, Mentions k then .error .typeError else .ok false := by
  induction ks with
  | nil => rfl
  | cons k ks ih =>
    have hsame : (Json.str k).same (.obj e) = false := by
      rw [Bool.eq_false_iff, Ne, Json.same_str_iff]
      exact nofun
    rw [List.map_cons, check, absorb, absorbKey_str]
    by_cases hs : sidKey <:+: k
    · rw [if_pos hs, if_pos ⟨k, List.mem_cons_self, Or.inl hs⟩]
      rfl
    · rw [if_neg hs, ok_bind, absorbKey_str]
      by_cases hr : resourceKey <:+: k
      · rw [if_pos hr, if_pos ⟨k, List.mem_cons_self, Or.inr hr⟩]
        rfl
      · rw [if_neg hr, ok_bind, hsame, ih]
        have hcons : (∃ k' ∈ k :: ks, Mentions k') ↔ ∃ k' ∈ ks, Mentions k' := by
          rw [List.exists_mem_cons_iff]
          exact or_iff_right (not_or_intro hs hr)
        simp only [hcons, Bool.false_eq_true, if_false]

/-! ## The verdict -/

theorem rejects_eq (name : Text) (p : StatementField) :
    rejects name p = check encryptionStatementGlob p.elements := by
  simp only [rejects, processBucket]
  cases check encryptionStatementGlob p.elements with
  | error e => rfl
  | ok found => cases found <;> rfl

/-- An allowing statement with a `Sid` and a `Resource`. -/
def bystander : Statement where
  members := [("Sid".toList, .str "Read".toList), ("Effect".toList, .str "Allow".toList),
    ("Resource".toList, .str "*".toList)]
  nodup := by decide
  ne_nil := List.cons_ne_nil _ _
  isText_sid := by decide

theorem bystander_not_required : required bystander = false := by decide +kernel

theorem rejects_behind_bystander {name : Text} {ss : List Statement}
    (h : ∀ s ∈ ss, ¬ (required s = true ∧ hasKey sidKey s = true ∧ hasKey resourceKey s = true)) :
    rejects name (.list (bystander :: ss)) = .ok false := by
  have he := template_glob.absorbed bystander
  rw [rejects_eq, StatementField.elements, List.map_cons, check_cons, if_neg]
  · refine check_of_kept h he ?_ ?_
    · rw [get_absorbed, if_pos (Or.inl rfl)]
      exact Option.some_ne_none _
    · rw [get_absorbed, if_pos (Or.inr rfl)]
      exact Option.some_ne_none _
  · rw [same_absorb_iff template_glob, bystander_not_required]
    exact fun h => Bool.false_ne_true h.1

theorem rejects_list_of_none {ss : List Statement} (h : ss.any required = false) (name : Text) :
    rejects name (.list ss) = .ok false := by
  rw [rejects_eq]
  refine check_of_not_required (fun s hs => ?_) template_glob
  rw [List.any_eq_false] at h
  exact Bool.eq_false_iff.mpr (h s hs)

theorem rejects_list_of_own {ss : List Statement} {s : Statement} (hs : s ∈ ss)
    (h : required s = true ∧ hasKey sidKey s = true ∧ hasKey resourceKey s = true) (name : Text) :
    rejects name (.list ss) = .ok true := by
  rw [rejects_eq]
  exact check_of_own hs h.1 h.2.1 h.2.2 template_glob

theorem rejects_single (name : Text) (s : Statement) : rejects name (.single s) =
    if ∃ k ∈ s.members.map Prod.fst, Mentions k then .error .typeError else .ok false := by
  have hkeys : (StatementField.single s).elements = (s.members.map Prod.fst).map .str := by
    rw [StatementField.elements, List.map_map]
    rfl
  rw [rejects_eq, hkeys, check_keys]

theorem any_required_congr {ss ts : List Statement}
    (h : (ss.filter required).Perm (ts.filter required)) :
    ss.any required = ts.any required := by
  have hany : ∀ l : List Statement, l.any required = true ↔ ∃ s, s ∈ l.filter required := by
    intro l
    simp only [List.any_eq_true, List.mem_filter]
  rw [Bool.eq_iff_iff, hany, hany]
  exact exists_congr fun s => h.mem_iff

theorem judges_list_iff (name : Text) (ss : List Statement) :
    Judges name (.list ss) ↔ Distinguished ss := by
  constructor
  · intro h hany
    by_contra hnone
    have hnone : ∀ s ∈ ss,
        ¬ (required s = true ∧ hasKey sidKey s = true ∧ hasKey resourceKey s = true) :=
      fun s hs hown => hnone ⟨s, hs, hown⟩
    have hfilter : (bystander :: ss).filter required = ss.filter required :=
      List.filter_cons_of_neg (by rw [bystander_not_required]; exact Bool.false_ne_true)
    have hstable := h.stable (bystander :: ss) (hfilter ▸ List.Perm.refl _)
    rw [rejects_behind_bystander hnone, h.verdict] at hstable
    exact Bool.false_ne_true ((Except.ok.inj hstable).trans hany)
  · intro h
    have hverdict : ∀ ts : List Statement, (ts.filter required).Perm (ss.filter required) →
        rejects name (.list ts) = .ok (ss.any required) := by
      intro ts hperm
      cases hany : ss.any required with
      | false => exact rejects_list_of_none ((any_required_congr hperm).trans hany) name
      | true =>
        obtain ⟨s, hs, hown⟩ := h hany
        have hmem := hperm.mem_iff.mpr (List.mem_filter.mpr ⟨hs, hown.1⟩)
        exact rejects_list_of_own (List.mem_of_mem_filter hmem) hown name
    exact ⟨hverdict ss (List.Perm.refl _), fun ts hperm => by
      rw [hverdict ts hperm, hverdict ss (List.Perm.refl _)]⟩

theorem judges_single_iff (name : Text) (s : Statement) :
    Judges name (.single s) ↔
      required s = false ∧ ∀ k ∈ s.members.map Prod.fst, ¬ Mentions k := by
  have hany : (StatementField.single s).statements.any required = required s := by
    simp [StatementField.statements]
  constructor
  · intro h
    have hverdict := h.verdict
    rw [rejects_single, hany] at hverdict
    split at hverdict
    · cases hverdict
    · next hnone =>
      exact ⟨(Except.ok.inj hverdict).symm, fun k hk hmentions => hnone ⟨k, hk, hmentions⟩⟩
  · rintro ⟨hrequired, hnone⟩
    have hsingle : rejects name (.single s) = .ok false := by
      rw [rejects_single, if_neg]
      rintro ⟨k, hk, hmentions⟩
      exact hnone k hk hmentions
    refine ⟨by rw [hsingle, hany, hrequired], fun ts hperm => ?_⟩
    rw [hsingle]
    refine rejects_list_of_none ?_ name
    rw [any_required_congr hperm, hany, hrequired]

/-- **no-encryption-statement judges statements one by one** exactly in these policies. -/
theorem judges_iff (name : Text) (p : StatementField) : Judges name p ↔ Sound p := by
  cases p with
  | list ss => exact judges_list_iff name ss
  | single s => exact judges_single_iff name s

/-- The required statement, without a `Sid`. -/
def denyUploads : Statement where
  members := encryptionStatementGlob ++ [("Resource".toList, .str "arn:aws:s3:::b/*".toList)]
  nodup := by decide
  ne_nil := List.cons_ne_nil _ _
  isText_sid := by decide

/-- The required statement is not recognised behind one with a `Sid`. -/
theorem denyUploads_not_judged :
    ¬ Judges "b".toList (.list [bystander, denyUploads]) := by
  intro h
  have hkept : rejects "b".toList (.list [bystander, denyUploads]) = .ok false := by
    decide +kernel
  have hrequired : [bystander, denyUploads].any required = true := by decide +kernel
  have hverdict := h.verdict
  rw [hkept] at hverdict
  exact Bool.false_ne_true ((Except.ok.inj hverdict).trans hrequired)

end Custodian.EncryptionStatement

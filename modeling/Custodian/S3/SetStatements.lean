import Custodian.Lib.Updates
import Custodian.Statements.HasStatement
import Custodian.Statements.RemoveStatements

/-!
# Setting statements

`SetPolicyStatement` of `c7n/resources/s3.py` removes statements from the policy of a bucket and adds
the configured ones, with their texts formatted for the bucket, unless a statement of the bucket is
the same.  The configured statements are told apart by their `Sid` before it is formatted.
-/

namespace Custodian.SetStatements

open Py
open Documents
open Items (erase)
open RemoveStatements (MatchIds Removal selects)
open Statements (formatText)

/-! ## Formatting -/

section Format

variable (format : Text → Except Exn Text)

mutual

/-- `format_string_values` -/
def formatStringValues : Json → Except Exn Json
  | .str t => do return .str (← formatText format t)
  | .arr xs => do return .arr (← formatItems xs)
  | .obj ms => do return .obj (← formatMembers ms)
  | x => .ok x

def formatItems : List Json → Except Exn (List Json)
  | [] => .ok []
  | x :: xs => do
    let y ← formatStringValues x
    let ys ← formatItems xs
    return y :: ys

def formatMembers : List (Text × Json) → Except Exn (List (Text × Json))
  | [] => .ok []
  | (k, x) :: ms => do
    let y ← formatStringValues x
    let ns ← formatMembers ms
    return (k, y) :: ns

end

variable {format}

theorem formatMembers_cons {k : Text} {x : Json} {ms ns : List (Text × Json)} :
    formatMembers format ((k, x) :: ms) = .ok ns ↔ ∃ y ns', formatStringValues format x = .ok y ∧
      formatMembers format ms = .ok ns' ∧ ns = (k, y) :: ns' := by
  rw [formatMembers, bind_eq_ok]
  simp only [bind_eq_ok, pure_eq_ok]
  constructor
  · rintro ⟨y, hy, ns', hns, rfl⟩
    exact ⟨y, ns', hy, hns, rfl⟩
  · rintro ⟨y, ns', hy, hns, rfl⟩
    exact ⟨y, hy, ns', hns, rfl⟩

theorem keys_formatMembers {ms ns : List (Text × Json)} (h : formatMembers format ms = .ok ns) :
    ns.map Prod.fst = ms.map Prod.fst := by
  induction ms generalizing ns with
  | nil =>
    rw [formatMembers, Except.ok.injEq] at h
    rw [← h]
  | cons m ms ih =>
    obtain ⟨y, ns', -, hns, rfl⟩ := formatMembers_cons.mp h
    rw [List.map_cons, List.map_cons, ih hns]

theorem isText_formatMembers {ms ns : List (Text × Json)} (h : formatMembers format ms = .ok ns)
    (k : Text) (hk : (Items.get k ms).all isText = true) : (Items.get k ns).all isText = true := by
  induction ms generalizing ns with
  | nil =>
    rw [formatMembers, Except.ok.injEq] at h
    rw [← h]
    rfl
  | cons m ms ih =>
    obtain ⟨y, ns', hy, hns, rfl⟩ := formatMembers_cons.mp h
    rw [Items.get_cons] at hk ⊢
    split at hk
    · next hkey =>
      rw [if_pos hkey]
      cases hx : m.2 with
      | str t =>
        rw [hx, formatStringValues] at hy
        obtain ⟨u, -, hu⟩ := bind_eq_ok.mp hy
        rw [← pure_eq_ok.mp hu]
        rfl
      | _ =>
        rw [hx] at hk
        cases hk
    · next hkey =>
      rw [if_neg hkey]
      exact ih hns hk

variable (format)

/-- A statement with its texts formatted. -/
def formatStatement (s : Statement) : Except Exn Statement :=
  match h : formatMembers format s.members with
  | .ok ms => .ok
    { members := ms
      nodup := by rw [keys_formatMembers h]; exact s.nodup
      ne_nil := fun hnil => s.ne_nil (List.map_eq_nil_iff.mp
        ((keys_formatMembers h).symm.trans (by rw [hnil, List.map_nil])))
      isText_sid := isText_formatMembers h sidKey s.isText_sid }
  | .error e => .error e

end Format

/-! ## The action -/

/-- The data of a `set-statements` action, with an empty list for `remove` by default.  The schema
requires a `Sid` of every statement, and these are distinct. -/
structure SetPolicyStatement where
  remove : MatchIds
  statements : List Statement
  isSome_sid : ∀ s ∈ statements, s.sid.isSome
  nodup : (statements.map Statement.sid).Nodup

/-- The policy of a bucket. -/
structure Policy where
  others : List (Text × Json)
  statement : StatementField

/-- What `process_bucket` asks of the service. -/
inductive Outcome where
  | skip
  | delete
  | put (p : Policy)

/-- `policy.get('Statement', [])` -/
def statementOf (policy : Option Policy) : StatementField := policy.elim (.list []) Policy.statement

/-- One turn of the loop over the statements of a bucket. -/
def popTarget (targets : List (Text × Statement)) (s : Statement) : List (Text × Statement) :=
  match s.sid with
  | none => targets
  | some k =>
    match Items.get k targets with
    | none => targets
    | some t => if s.eq t then erase k targets else targets

namespace SetPolicyStatement

variable (format : Text → Except Exn Text)

/-- `target_statements`; every configured statement has a `Sid`. -/
def targets (a : SetPolicyStatement) : Except Exn (List (Text × Statement)) :=
  (Items.ofList (a.statements.map fun s => (s.sid.getD [], s))).mapM fun e => do
    return (e.1, ← formatStatement format e.2)

/-- `process_bucket_add`: the statements, and whether some have been added; the keys of a single
statement have no `get`. -/
def processBucketAdd (a : SetPolicyStatement) (field : StatementField) :
    Except Exn (List Statement × Bool) := do
  let targets ← a.targets format
  match field with
  | .list ss =>
    let left := ss.foldl popTarget targets
    if left.isEmpty then return (ss, false)
    return (ss ++ left.map Prod.snd, true)
  | .single _ => .error .attributeError

/-- `process_bucket` -/
def processBucket (a : SetPolicyStatement) (matched : List Statement) (policy : Option Policy) :
    Except Exn Outcome := do
  let r ← RemoveStatements.removeStatements a.remove matched (statementOf policy)
  let (ss, modified) ← a.processBucketAdd format r.statements
  if !modified && r.found.isEmpty then return .skip
  if ss.isEmpty && !r.found.isEmpty && !modified then return .delete
  return .put ⟨policy.elim [] Policy.others, .list ss⟩

end SetPolicyStatement

/-- The policy in force afterwards. -/
def inForce (policy : Option Policy) : Outcome → Option Policy
  | .skip => policy
  | .delete => none
  | .put p => some p

/-! ## What is to be achieved -/

def statementsOf (policy : Option Policy) : List Statement := (statementOf policy).statements

/-- The statements with the `Sid` of a configured one. -/
def withSid (ss : List Statement) (t : Statement) : List Statement :=
  ss.filter fun s => s.sid = t.sid

/-- Exactly one statement has the `Sid` of the configured one, and it has its content. -/
def OccursOnce (ss : List Statement) (t : Statement) : Prop :=
  ∃ u, withSid ss t = [u] ∧ u.eq t = true

/-- Every configured statement is there, the others are those that are not selected for removal,
in their order, and there is no policy without statements. -/
structure Established (a : SetPolicyStatement) (matched : List Statement)
    (before after : Option Policy) (ts : List Statement) : Prop where
  configured : ∀ t ∈ ts, OccursOnce (statementsOf after) t
  others : (statementsOf after).filter (fun s => s.sid ∉ ts.map Statement.sid) =
    (statementsOf before).filter fun s =>
      s.sid ∉ ts.map Statement.sid ∧ selects a.remove matched s = false
  ne_nil : ∀ p ∈ after, p.statement.statements ≠ []

/-- The same statements, in any order. -/
def Rearranged (before after : Option Policy) : Prop :=
  (statementsOf after).Perm (statementsOf before) ∧ after.isSome = before.isSome

/-- The action returns and establishes what is configured, and a second run writes nothing new. -/
def SetPolicyStatement.Converges (format : Text → Except Exn Text) (a : SetPolicyStatement)
    (matched : List Statement) (policy : Option Policy) : Prop :=
  ∃ o ts, a.processBucket format matched policy = .ok o ∧ a.targets format = .ok ts ∧
    Established a matched policy (inForce policy o) (ts.map Prod.snd) ∧
    ∃ o', a.processBucket format matched (inForce policy o) = .ok o' ∧
      Rearranged (inForce policy o) (inForce (inForce policy o) o')

/-! ## What is done -/

/-- Whether a statement of the bucket is the same as a configured one. -/
def present (ss : List Statement) (e : Text × Statement) : Bool :=
  ss.any fun s => s.sid = some e.1 ∧ s.eq e.2 = true

/-- The configured statements that are added. -/
def missing (ss : List Statement) (ts : List (Text × Statement)) : List (Text × Statement) :=
  ts.filter fun e => !present ss e

theorem popTarget_eq {ts : List (Text × Statement)} (h : (ts.map Prod.fst).Nodup) (s : Statement) :
    popTarget ts s = ts.filter fun e => !decide (s.sid = some e.1 ∧ s.eq e.2 = true) := by
  have hself : ∀ {p : Text × Statement → Prop} [DecidablePred p], (∀ e ∈ ts, ¬ p e) →
      ts = ts.filter fun e => !decide (p e) := fun hp =>
    (List.filter_eq_self.mpr fun e he => by rw [decide_eq_false (hp e he)]; rfl).symm
  rw [popTarget]
  cases hs : s.sid with
  | none => exact hself fun e _ hp => by cases hp.1
  | some k =>
    simp only
    cases ht : Items.get k ts with
    | none =>
      refine hself fun e he hp => ?_
      rw [Option.some.inj hp.1, (Items.mem_iff_get h).mp he] at ht
      cases ht
    | some t =>
      have hunique : ∀ e ∈ ts, k = e.1 → e.2 = t := by
        intro e he hk
        rw [hk, (Items.mem_iff_get h).mp he] at ht
        exact Option.some.inj ht
      simp only
      split
      · next heq =>
        refine List.filter_congr fun e he => ?_
        rw [decide_not]
        by_cases hk : k = e.1
        · rw [decide_eq_true hk.symm, decide_eq_true ⟨congrArg some hk, by rwa [hunique e he hk]⟩]
        · rw [decide_eq_false (Ne.symm hk), decide_eq_false fun hp => hk (Option.some.inj hp.1)]
      · next heq =>
        refine hself fun e he hp => heq ?_
        rw [← hunique e he (Option.some.inj hp.1)]
        exact hp.2

theorem foldl_popTarget {ts : List (Text × Statement)} (h : (ts.map Prod.fst).Nodup)
    (ss : List Statement) : ss.foldl popTarget ts = missing ss ts := by
  induction ss generalizing ts with
  | nil => exact (List.filter_eq_self.mpr fun _ _ => rfl).symm
  | cons s ss ih =>
    rw [List.foldl_cons, popTarget_eq h, ih (h.sublist (List.filter_sublist.map Prod.fst)), missing,
      missing, List.filter_filter]
    refine List.filter_congr fun e _ => ?_
    rw [present, present, List.any_cons, Bool.not_or, Bool.and_comm]

namespace SetPolicyStatement

variable {format : Text → Except Exn Text} {a : SetPolicyStatement} {matched ss : List Statement}
  {ts : List (Text × Statement)} {policy : Option Policy}

theorem keys_nodup_targets (h : a.targets format = .ok ts) : (ts.map Prod.fst).Nodup := by
  have hkeys : ts.map Prod.fst =
      (Items.ofList (a.statements.map fun s => (s.sid.getD [], s))).map Prod.fst := by
    rw [targets, mapM_eq_ok] at h
    generalize Items.ofList (a.statements.map fun s => (s.sid.getD [], s)) = es at h
    induction h with
    | nil => rfl
    | cons hstep _ ih =>
      obtain ⟨t, -, ht⟩ := bind_eq_ok.mp hstep
      rw [List.map_cons, List.map_cons, ih, ← pure_eq_ok.mp ht]
  rw [hkeys]
  exact Items.keys_nodup_ofList _

/-- The statements that are not selected for removal. -/
def remaining (a : SetPolicyStatement) (matched ss : List Statement) : List Statement :=
  ss.filter fun s => !selects a.remove matched s

/-- The statements that are there afterwards. -/
def established (a : SetPolicyStatement) (matched ss : List Statement)
    (ts : List (Text × Statement)) : List Statement :=
  a.remaining matched ss ++ (missing (a.remaining matched ss) ts).map Prod.snd

/-- What is done to a policy with a list of statements. -/
def outcome (a : SetPolicyStatement) (matched : List Statement) (policy : Option Policy)
    (ss : List Statement) (ts : List (Text × Statement)) : Outcome :=
  if (missing (a.remaining matched ss) ts).isEmpty &&
    (ss.filter (selects a.remove matched)).isEmpty then .skip
  else if (a.established matched ss ts).isEmpty then .delete
  else .put ⟨policy.elim [] Policy.others, .list (a.established matched ss ts)⟩

theorem isEmpty_established : (a.established matched ss ts).isEmpty =
    ((a.remaining matched ss).isEmpty && (missing (a.remaining matched ss) ts).isEmpty) := by
  rw [established]
  cases a.remaining matched ss with
  | nil => exact List.isEmpty_map ..
  | cons s r => rfl

theorem processBucketAdd_list (h : a.targets format = .ok ts) (ss : List Statement) :
    a.processBucketAdd format (.list ss) =
      .ok (ss ++ (missing ss ts).map Prod.snd, !(missing ss ts).isEmpty) := by
  rw [processBucketAdd, h, ok_bind]
  simp only [foldl_popTarget (keys_nodup_targets h)]
  cases missing ss ts with
  | nil => rw [List.map_nil, List.append_nil]; rfl
  | cons e es => rfl

/-- **What is done** to the policy of a bucket: a single statement makes the action raise. -/
theorem processBucket_eq_ok_iff {o : Outcome} :
    a.processBucket format matched policy = .ok o ↔ ∃ ss ts, statementOf policy = .list ss ∧
      a.targets format = .ok ts ∧ o = a.outcome matched policy ss ts := by
  rw [processBucket]
  cases hfield : statementOf policy with
  | single s =>
    refine iff_of_false (fun h => ?_) (by simp)
    obtain ⟨r, hr, h⟩ := bind_eq_ok.mp h
    obtain ⟨x, hx, -⟩ := bind_eq_ok.mp h
    rw [RemoveStatements.removeStatements_single s hr, processBucketAdd] at hx
    obtain ⟨ts, -, hx⟩ := bind_eq_ok.mp hx
    cases hx
  | list ss =>
    rw [RemoveStatements.removeStatements_list, ok_bind]
    change ((a.processBucketAdd format (.list (a.remaining matched ss))) >>= _) = _ ↔ _
    cases hts : a.targets format with
    | error e =>
      rw [processBucketAdd, hts]
      exact iff_of_false (fun h => by cases h) (by simp)
    | ok ts =>
      rw [processBucketAdd_list hts, ok_bind]
      have hreturn : (if !!(missing (a.remaining matched ss) ts).isEmpty &&
            ((ss.filter (selects a.remove matched)).map Statement.json).isEmpty then pure .skip
          else if (a.established matched ss ts).isEmpty &&
              !((ss.filter (selects a.remove matched)).map Statement.json).isEmpty &&
              !!(missing (a.remaining matched ss) ts).isEmpty then pure .delete
          else pure (.put ⟨policy.elim [] Policy.others, .list (a.established matched ss ts)⟩) :
          Except Exn Outcome) = .ok (a.outcome matched policy ss ts) := by
        rw [List.isEmpty_map, Bool.not_not, outcome, isEmpty_established]
        cases (missing (a.remaining matched ss) ts).isEmpty <;>
          cases (ss.filter (selects a.remove matched)).isEmpty <;>
          cases (a.remaining matched ss).isEmpty <;> rfl
      constructor
      · intro h
        exact ⟨ss, ts, rfl, rfl, Except.ok.inj (h.symm.trans hreturn)⟩
      · rintro ⟨ss', ts', hss, hts', rfl⟩
        cases hss
        cases hts'
        exact hreturn

/-- **The statements afterwards** are those that are not selected, and the ones that are missing. -/
theorem statementOf_inForce (h : statementOf policy = .list ss) :
    statementOf (inForce policy (a.outcome matched policy ss ts)) =
      .list (a.established matched ss ts) := by
  rw [outcome]
  split
  · next hskip =>
    rw [Bool.and_eq_true, List.isEmpty_iff, List.isEmpty_iff, List.filter_eq_nil_iff] at hskip
    have hself : a.remaining matched ss = ss :=
      List.filter_eq_self.mpr fun s hs => by rw [Bool.not_eq_true']; simpa using hskip.2 s hs
    rw [established, hskip.1, hself, List.map_nil, List.append_nil]
    exact h
  · split
    · next hdelete => rw [List.isEmpty_iff.mp hdelete]; rfl
    · rfl

theorem statementsOf_inForce (h : statementOf policy = .list ss) :
    statementsOf (inForce policy (a.outcome matched policy ss ts)) = a.established matched ss ts := by
  rw [statementsOf, statementOf_inForce h]
  rfl

theorem missing_nil (ts : List (Text × Statement)) : missing [] ts = ts :=
  List.filter_eq_self.mpr fun _ _ => rfl

theorem ne_nil_iff (h : statementOf policy = .list ss) :
    (∀ p ∈ inForce policy (a.outcome matched policy ss ts), p.statement.statements ≠ []) ↔
      (policy.isSome → ss = [] → ts ≠ []) := by
  have hsome : ∀ q : Option Policy, (∀ p ∈ q, p.statement.statements ≠ []) ↔
      (q.isSome → statementsOf q ≠ []) := by
    rintro (_ | p) <;> simp [statementsOf, statementOf]
  rw [hsome, statementsOf_inForce h]
  have hempty : ss = [] → ts = [] → a.outcome matched policy ss ts = .skip := by
    rintro rfl rfl
    rfl
  cases ho : a.outcome matched policy ss ts with
  | skip =>
    -- the statements are as before, and no configured one is missing
    have hss : statementsOf (inForce policy .skip) = a.established matched ss ts := by
      rw [← ho, statementsOf_inForce h]
    rw [inForce, statementsOf, h, StatementField.statements] at hss
    rw [inForce, ← hss]
    refine imp_congr_right fun _ => ⟨fun hne hnil => absurd hnil hne, fun hts hnil => hts hnil ?_⟩
    rw [hnil, established, remaining, List.filter_nil, missing_nil, List.nil_append, eq_comm,
      List.map_eq_nil_iff] at hss
    exact hss
  | delete =>
    refine iff_of_true (fun hs => by cases hs) fun _ hss hts => ?_
    rw [hempty hss hts] at ho
    cases ho
  | put p =>
    refine iff_of_true (fun _ hnil => ?_) fun _ hss hts => ?_
    · rw [outcome, hnil] at ho
      split at ho <;> cases ho
    · rw [hempty hss hts] at ho
      cases ho

/-! ## The statements that are not configured -/

theorem filter_established : (a.established matched ss ts).filter
      (fun s => s.sid ∉ (ts.map Prod.snd).map Statement.sid) =
    ss.filter fun s => s.sid ∉ (ts.map Prod.snd).map Statement.sid ∧
      selects a.remove matched s = false := by
  have hmissing : ((missing (a.remaining matched ss) ts).map Prod.snd).filter
      (fun s => s.sid ∉ (ts.map Prod.snd).map Statement.sid) = [] := by
    refine List.filter_eq_nil_iff.mpr fun s hs => ?_
    have hmem : s ∈ ts.map Prod.snd := List.map_subset _ (List.filter_subset_self _) hs
    rw [decide_eq_true_eq, not_not]
    exact List.mem_map_of_mem hmem
  rw [established, List.filter_append, hmissing, List.append_nil, remaining, List.filter_filter]
  refine List.filter_congr fun s _ => ?_
  rw [Bool.decide_and, Bool.decide_eq_false]

/-! ## The configured statements -/

theorem present_iff {ss : List Statement} {e : Text × Statement} : present ss e = true ↔
    e.2.sid = some e.1 ∧ ∃ s ∈ ss, s.sid = e.2.sid ∧ s.eq e.2 = true := by
  rw [present, List.any_eq_true]
  simp only [decide_eq_true_eq]
  constructor
  · rintro ⟨s, hs, hkey, heq⟩
    have hsid := Statement.sid_eq_of_eq heq
    exact ⟨hsid.symm.trans hkey, s, hs, hsid, heq⟩
  · rintro ⟨hkey, s, hs, hsid, heq⟩
    exact ⟨s, hs, hsid.trans hkey, heq⟩

theorem withSid_missing (hsid : (ts.map fun e => e.2.sid).Nodup) {e : Text × Statement}
    (he : e ∈ ts) (ss : List Statement) :
    withSid ((missing ss ts).map Prod.snd) e.2 = if present ss e then [] else [e.2] := by
  have hone : ts.filter (fun e' => e'.2.sid = e.2.sid) = [e] :=
    @Items.filter_key_of_nodup _ _ _ (fun e => e.2.sid) ts hsid e he
  have hswap : (missing ss ts).filter (fun e' => e'.2.sid = e.2.sid) = missing ss [e] := by
    rw [← hone, missing, missing, List.filter_filter, List.filter_filter]
    simp only [Bool.and_comm]
  rw [withSid, List.filter_map]
  change ((missing ss ts).filter fun e' => e'.2.sid = e.2.sid).map Prod.snd = _
  rw [hswap, missing, List.filter_singleton]
  cases present ss e <;> rfl

/-- No statement that is left has the `Sid` of the configured one, or just one does, which is the
same and is found by the `Sid` before it is formatted. -/
def Current (ss : List Statement) (e : Text × Statement) : Prop :=
  withSid ss e.2 = [] ∨ e.2.sid = some e.1 ∧ OccursOnce ss e.2

theorem withSid_established (hsid : (ts.map fun e => e.2.sid).Nodup) {e : Text × Statement}
    (he : e ∈ ts) (ss : List Statement) :
    withSid (ss ++ (missing ss ts).map Prod.snd) e.2 =
      withSid ss e.2 ++ if present ss e then [] else [e.2] := by
  rw [← withSid_missing hsid he]
  exact List.filter_append ..

/-- **A configured statement is there once** exactly when the statements that are left allow it. -/
theorem occursOnce_iff (hsid : (ts.map fun e => e.2.sid).Nodup) {e : Text × Statement}
    (he : e ∈ ts) (ss : List Statement) :
    OccursOnce (ss ++ (missing ss ts).map Prod.snd) e.2 ↔ Current ss e := by
  rw [OccursOnce, withSid_established hsid he]
  constructor
  · rintro ⟨u, hu, heq⟩
    cases hpresent : present ss e with
    | true =>
      rw [hpresent, if_pos rfl, List.append_nil] at hu
      exact Or.inr ⟨(present_iff.mp hpresent).1, u, hu, heq⟩
    | false =>
      rw [hpresent, if_neg Bool.false_ne_true] at hu
      have hsplit : withSid ss e.2 ++ [e.2] = [] ++ [u] := hu
      exact Or.inl (List.append_inj' hsplit rfl).1
  · rintro (hnil | ⟨hkey, u, hu, heq⟩)
    · have hpresent : present ss e = false := by
        rw [Bool.eq_false_iff]
        intro hpresent
        obtain ⟨-, s, hs, hsame, -⟩ := present_iff.mp hpresent
        have hmem : s ∈ withSid ss e.2 := List.mem_filter.mpr ⟨hs, decide_eq_true hsame⟩
        rw [hnil] at hmem
        cases hmem
      rw [hnil, hpresent, if_neg Bool.false_ne_true, List.nil_append]
      exact ⟨e.2, rfl, e.2.eq_refl⟩
    · have hmem : u ∈ withSid ss e.2 := hu ▸ List.mem_singleton_self u
      obtain ⟨hss, hsame⟩ := List.mem_filter.mp hmem
      rw [if_pos (present_iff.mpr ⟨hkey, u, hss, of_decide_eq_true hsame, heq⟩), List.append_nil]
      exact ⟨u, hu, heq⟩

theorem nodup_of_occursOnce (hkeys : (ts.map Prod.fst).Nodup)
    (h : ∀ e ∈ ts, OccursOnce (ss ++ (missing ss ts).map Prod.snd) e.2) :
    (ts.map fun e => e.2.sid).Nodup := by
  refine hkeys.of_map.map_on fun e he e' he' hsame => ?_
  obtain ⟨u, hu, -⟩ := h e he
  have hlength : (withSid ss e.2).length +
      ((missing ss ts).filter fun e' => e'.2.sid = e.2.sid).length = 1 := by
    have hlength := congrArg List.length hu
    rw [withSid, List.filter_append, List.filter_map, List.length_append, List.length_map] at hlength
    exact hlength
  have hleft : ∀ e' ∈ ts, e'.2.sid = e.2.sid → present ss e' = true →
      0 < (withSid ss e.2).length := by
    intro e' _ hsid hpresent
    obtain ⟨-, s, hs, hsame, -⟩ := present_iff.mp hpresent
    exact List.length_pos_of_mem (List.mem_filter.mpr ⟨hs, decide_eq_true (hsame.trans hsid)⟩)
  have hright : ∀ e' ∈ ts, e'.2.sid = e.2.sid → present ss e' = false →
      e' ∈ (missing ss ts).filter fun e' => e'.2.sid = e.2.sid := fun e' he' hsid hpresent =>
    List.mem_filter.mpr ⟨List.mem_filter.mpr ⟨he', by rw [hpresent]; rfl⟩, decide_eq_true hsid⟩
  cases hp : present ss e <;> cases hp' : present ss e'
  · have hmem := hright e he rfl hp
    have hmem' := hright e' he' hsame.symm hp'
    have hpos := List.length_pos_of_mem hmem
    have hone : ((missing ss ts).filter fun e' => e'.2.sid = e.2.sid).length = 1 := by omega
    obtain ⟨x, hx⟩ := List.length_eq_one_iff.mp hone
    rw [hx, List.mem_singleton] at hmem hmem'
    rw [hmem, hmem']
  · have hpos := List.length_pos_of_mem (hright e he rfl hp)
    have hpos' := hleft e' he' hsame.symm hp'
    omega
  · have hpos := List.length_pos_of_mem (hright e' he' hsame.symm hp')
    have hpos' := hleft e he rfl hp
    omega
  · refine List.inj_on_of_nodup_map hkeys he he' (Option.some.inj ?_)
    rw [← (present_iff.mp hp).1, hsame, (present_iff.mp hp').1]

/-! ## A second run -/

theorem remaining_established : a.remaining matched (a.established matched ss ts) =
    a.remaining matched ss ++
      a.remaining matched ((missing (a.remaining matched ss) ts).map Prod.snd) := by
  have hidem : a.remaining matched (a.remaining matched ss) = a.remaining matched ss := by
    rw [remaining, remaining, List.filter_filter]
    simp only [Bool.and_self]
  rw [established, remaining, List.filter_append, ← remaining, hidem, ← remaining]

theorem present_again (hsid : (ts.map fun e => e.2.sid).Nodup) {e : Text × Statement} (he : e ∈ ts) :
    present (a.remaining matched (a.established matched ss ts)) e = true ↔
      present (a.remaining matched ss) e = true ∨
        present (a.remaining matched ss) e = false ∧ selects a.remove matched e.2 = false ∧
          e.2.sid = some e.1 := by
  rw [remaining_established, present, List.any_append, Bool.or_eq_true]
  refine or_congr Iff.rfl ?_
  rw [← present, present_iff]
  constructor
  · rintro ⟨hkey, s, hs, hsame, -⟩
    obtain ⟨hs, hselects⟩ := List.mem_filter.mp hs
    obtain ⟨e', he', rfl⟩ := List.mem_map.mp hs
    obtain ⟨hts, hmissing⟩ := List.mem_filter.mp he'
    obtain rfl := List.inj_on_of_nodup_map hsid hts he hsame
    rw [Bool.not_eq_true'] at hmissing hselects
    exact ⟨hmissing, hselects, hkey⟩
  · rintro ⟨hmissing, hselects, hkey⟩
    refine ⟨hkey, e.2, List.mem_filter.mpr ⟨List.mem_map_of_mem ?_, ?_⟩, rfl, e.2.eq_refl⟩
    · exact List.mem_filter.mpr ⟨he, by rw [hmissing]; rfl⟩
    · rw [hselects]
      rfl

/-- **A second run changes nothing** exactly when the `Sid` of a configured statement that is not
selected for removal is the same before it is formatted. -/
theorem again_perm_iff (hsid : (ts.map fun e => e.2.sid).Nodup)
    (hcurrent : ∀ e ∈ ts, Current (a.remaining matched ss) e) :
    (a.established matched (a.established matched ss ts) ts).Perm (a.established matched ss ts) ↔
      ∀ e ∈ ts, e.2.sid = some e.1 ∨ selects a.remove matched e.2 = true := by
  constructor
  · intro hperm e he
    by_contra hnot
    rw [not_or, Bool.not_eq_true] at hnot
    obtain ⟨hkey, hselects⟩ := hnot
    -- the statement is added by both runs
    have hmissing : present (a.remaining matched ss) e = false := by
      rw [Bool.eq_false_iff]
      exact fun hpresent => hkey (present_iff.mp hpresent).1
    have hagain : present (a.remaining matched (a.established matched ss ts)) e = false := by
      rw [Bool.eq_false_iff]
      exact fun hpresent => hkey (present_iff.mp hpresent).1
    have hadded : e.2 ∈ withSid (a.remaining matched (a.established matched ss ts)) e.2 := by
      rw [remaining_established]
      refine List.mem_filter.mpr ⟨List.mem_append_right _ (List.mem_filter.mpr ⟨?_, ?_⟩), by simp⟩
      · exact List.mem_map_of_mem (List.mem_filter.mpr ⟨he, by rw [hmissing]; rfl⟩)
      · rw [hselects]
        rfl
    obtain ⟨u, hu, -⟩ := (occursOnce_iff hsid he _).mpr (hcurrent e he)
    have hlength := (hperm.filter fun s => s.sid = e.2.sid).length_eq
    have hfirst : (withSid (a.established matched ss ts) e.2).length = 1 := congrArg List.length hu
    have hsecond : (withSid (a.established matched (a.established matched ss ts) ts) e.2).length =
        (withSid (a.remaining matched (a.established matched ss ts)) e.2).length + 1 := by
      rw [established, withSid_established hsid he, hagain, List.length_append]
      rfl
    rw [withSid] at hfirst hsecond
    have hpos := List.length_pos_of_mem hadded
    omega
  · intro hkeep
    -- what is added again is what has been removed of it
    have hagain : missing (a.remaining matched (a.established matched ss ts)) ts =
        (missing (a.remaining matched ss) ts).filter fun e => selects a.remove matched e.2 := by
      rw [missing, missing, List.filter_filter]
      refine List.filter_congr fun e he => ?_
      rw [Bool.eq_iff_iff, Bool.not_eq_true', ← Bool.not_eq_true, present_again hsid he]
      have hkey := (hkeep e he).resolve_right
      rw [Bool.not_eq_true] at hkey
      cases present (a.remaining matched ss) e <;> cases hselects : selects a.remove matched e.2
      · simp [hkey hselects]
      all_goals simp
    rw [established, hagain, remaining_established, List.append_assoc, established]
    refine List.Perm.append_left _ ?_
    have hsplit := (List.filter_append_perm (selects a.remove matched)
      ((missing (a.remaining matched ss) ts).map Prod.snd))
    rw [List.filter_map] at hsplit
    exact List.perm_append_comm.trans hsplit

/-! ## Convergence -/

/-- The condition under which the action converges. -/
structure Suited (a : SetPolicyStatement) (matched : List Statement) (policy : Option Policy)
    (ss : List Statement) (ts : List (Text × Statement)) : Prop where
  nodup : (ts.map fun e => e.2.sid).Nodup
  current : ∀ e ∈ ts, Current (a.remaining matched ss) e
  keeps : ∀ e ∈ ts, e.2.sid = some e.1 ∨ selects a.remove matched e.2 = true
  ne_nil : policy.isSome → ss = [] → ts ≠ []

theorem established_iff (h : statementOf policy = .list ss) :
    Established a matched policy (inForce policy (a.outcome matched policy ss ts))
        (ts.map Prod.snd) ↔
      (∀ e ∈ ts, OccursOnce (a.established matched ss ts) e.2) ∧
        (policy.isSome → ss = [] → ts ≠ []) := by
  have hbefore : statementsOf policy = ss := by rw [statementsOf, h]; rfl
  constructor
  · intro hest
    have hconfigured := hest.configured
    rw [statementsOf_inForce h] at hconfigured
    exact ⟨fun e he => hconfigured e.2 (List.mem_map_of_mem he), (ne_nil_iff h).mp hest.ne_nil⟩
  · rintro ⟨honce, hne⟩
    refine ⟨fun t ht => ?_, ?_, (ne_nil_iff h).mpr hne⟩
    · obtain ⟨e, he, rfl⟩ := List.mem_map.mp ht
      rw [statementsOf_inForce h]
      exact honce e he
    · rw [statementsOf_inForce h, hbefore]
      exact filter_established

theorem isSome_iff {q : Option Policy} (h : ∀ p ∈ q, p.statement.statements ≠ []) :
    q.isSome = true ↔ statementsOf q ≠ [] := by
  cases q with
  | none => simp [statementsOf, statementOf, StatementField.statements]
  | some p => simpa [statementsOf, statementOf] using h p rfl

theorem rearranged_iff (h : statementOf policy = .list ss) {after : Option Policy}
    (hafter : after = inForce policy (a.outcome matched policy ss ts))
    (hne : ∀ p ∈ after, p.statement.statements ≠ []) :
    Rearranged after (inForce after
        (a.outcome matched after (a.established matched ss ts) ts)) ↔
      (a.established matched (a.established matched ss ts) ts).Perm (a.established matched ss ts) := by
  have hstatement : statementOf after = .list (a.established matched ss ts) := by
    rw [hafter]
    exact statementOf_inForce h
  rw [Rearranged, statementsOf_inForce hstatement, statementsOf, hstatement,
    StatementField.statements]
  refine and_iff_left_of_imp fun hperm => ?_
  have hsome := isSome_iff hne
  rw [statementsOf, hstatement, StatementField.statements] at hsome
  have hne' : ∀ p ∈ inForce after (a.outcome matched after (a.established matched ss ts) ts),
      p.statement.statements ≠ [] :=
    (ne_nil_iff hstatement).mpr fun hs hnil => absurd hnil (hsome.mp hs)
  have hagain := isSome_iff hne'
  rw [statementsOf_inForce hstatement] at hagain
  rw [Bool.eq_iff_iff, hagain, hsome, not_iff_not]
  rw [← List.length_eq_zero_iff, hperm.length_eq, List.length_eq_zero_iff]

/-- **set-statements converges** exactly when the policy is not a single statement, the configured
ones can be formatted and have distinct `Sid`s then, no other statement with such a `Sid` is left,
one that is formatted to another `Sid` is removed first, and an empty policy gets a statement. -/
theorem statementsConverge_iff (format : Text → Except Exn Text) (a : SetPolicyStatement)
    (matched : List Statement) (policy : Option Policy) :
    a.Converges format matched policy ↔ ∃ ss ts, statementOf policy = .list ss ∧
      a.targets format = .ok ts ∧ a.Suited matched policy ss ts := by
  constructor
  · rintro ⟨o, ts', ho, hts', hest, o', ho', hagain⟩
    obtain ⟨ss, ts, hss, hts, rfl⟩ := processBucket_eq_ok_iff.mp ho
    obtain rfl : ts = ts' := Except.ok.inj (hts.symm.trans hts')
    obtain ⟨honce, hne⟩ := (established_iff hss).mp hest
    have hsid := nodup_of_occursOnce (keys_nodup_targets hts) honce
    have hcurrent : ∀ e ∈ ts, Current (a.remaining matched ss) e := fun e he =>
      (occursOnce_iff hsid he _).mp (honce e he)
    obtain ⟨ss', ts', hss', hts', rfl⟩ := processBucket_eq_ok_iff.mp ho'
    obtain rfl : ts = ts' := Except.ok.inj (hts.symm.trans hts')
    obtain rfl := StatementField.list.inj ((statementOf_inForce hss).symm.trans hss')
    rw [rearranged_iff hss rfl hest.ne_nil] at hagain
    exact ⟨ss, ts, hss, hts, hsid, hcurrent, (again_perm_iff hsid hcurrent).mp hagain, hne⟩
  · rintro ⟨ss, ts, hss, hts, h⟩
    have hest : Established a matched policy (inForce policy (a.outcome matched policy ss ts))
        (ts.map Prod.snd) := (established_iff hss).mpr
      ⟨fun e he => (occursOnce_iff h.nodup he _).mpr (h.current e he), h.ne_nil⟩
    refine ⟨_, ts, processBucket_eq_ok_iff.mpr ⟨ss, ts, hss, hts, rfl⟩, hts, hest, _,
      processBucket_eq_ok_iff.mpr ⟨_, ts, statementOf_inForce hss, hts, rfl⟩, ?_⟩
    rw [rearranged_iff hss rfl hest.ne_nil]
    exact (again_perm_iff h.nodup h.current).mpr h.keeps

end SetPolicyStatement

/-! ## An older version -/

/-- Nothing is removed, and a statement that denies is to be there. -/
def denyConfigured : SetPolicyStatement where
  remove := .ids []
  statements := [Statement.ofEffect "S".toList "Deny".toList]
  isSome_sid := by decide
  nodup := by simp

/-- The statement of the bucket with the `Sid` of the configured one stays beside it. -/
theorem olderVersion_diverges : ¬ denyConfigured.Converges .ok []
    (some ⟨[], .list [Statement.ofEffect "S".toList "Allow".toList]⟩) := by
  rintro ⟨o, ts, ho, hts, hest, -⟩
  have hts' : denyConfigured.targets .ok =
      .ok [("S".toList, Statement.ofEffect "S".toList "Deny".toList)] := rfl
  rw [hts', Except.ok.injEq] at hts
  obtain ⟨u, hu, -⟩ := hest.configured (Statement.ofEffect "S".toList "Deny".toList) (by simp [← hts])
  have hlength : (denyConfigured.processBucket .ok [] (some ⟨[], .list
      [Statement.ofEffect "S".toList "Allow".toList]⟩)).map (fun o => (withSid (statementsOf (inForce
        (some ⟨[], .list [Statement.ofEffect "S".toList "Allow".toList]⟩) o))
        (Statement.ofEffect "S".toList "Deny".toList)).length) = .ok 2 := by
    decide +kernel
  rw [ho, Except.map, hu] at hlength
  cases hlength

end Custodian.SetStatements

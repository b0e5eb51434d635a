import Custodian.Lib.Updates
import Custodian.Statements.RemoveStatements

/-!
# Modifying a policy

`ModifyPolicyBase` of `c7n/actions/policy.py` removes statements from a policy and adds others.  The
statements are collected in a dictionary: the key of a statement is its `Sid`, or a checksum of the
text that it is written as.  `ModifyPolicyStatement.process` of `c7n/resources/sns.py` writes what
is computed, if something was removed or added.
-/

namespace Custodian.ModifyPolicy

open Py
open Documents
open RemoveStatements (MatchIds Removal selects)

/-- How statements without a `Sid` are told apart: the text of the members in their order, with
`utils.dumps`, and the SHA-224 digest of a text. -/
structure Checksum where
  dumps : List (Text × Json) → Text
  hexdigest : Text → Text

/-- The data of a `modify-policy` action, with an empty list for `remove-statements` by default. -/
structure ModifyPolicyBase where
  addStatements : List Statement
  removeStatements : MatchIds

/-- `statement_id` -/
def Checksum.statementId (c : Checksum) (s : Statement) : Text := c.hexdigest (c.dumps s.members)

/-- `s.get('Sid', statement_id(s))` -/
def Checksum.key (c : Checksum) (s : Statement) : Text := s.sid.getD (c.statementId s)

/-- `{s.get('Sid', statement_id(s)): s for s in statements}` -/
def Checksum.collect (c : Checksum) (ss : List Statement) : List (Text × Statement) :=
  Items.ofList (ss.map fun s => (c.key s, s))

namespace ModifyPolicyBase

/-- `len(statement_ids) == 0` -/
def noIds : MatchIds → Bool
  | .ids names => names.isEmpty
  | _ => false

/-- `ModifyPolicyBase.remove_statements`, which edits the list of the policy. -/
def remove (a : ModifyPolicyBase) (matched : List Statement) (statements : StatementField) :
    Except Exn Removal :=
  if noIds a.removeStatements then .ok ⟨statements, []⟩
  else RemoveStatements.removeStatements a.removeStatements matched statements

/-- `ModifyPolicyBase.add_statements`; the keys of a single statement have no `get`. -/
def add (c : Checksum) (a : ModifyPolicyBase) : StatementField →
    Except Exn (List Statement × Bool)
  | .list ss =>
    let additional := c.collect a.addStatements
    let current := additional.foldl (fun d e => Items.set e.1 e.2 d) (c.collect ss)
    .ok (current.map Prod.snd, !additional.isEmpty)
  | .single _ => .error .attributeError

/-- What is computed for a policy. -/
structure Computed where
  statements : List Statement
  removed : List Json
  added : Bool

/-- The removal and the addition of `process`. -/
def compute (c : Checksum) (a : ModifyPolicyBase) (matched : List Statement)
    (statements : StatementField) : Except Exn Computed := do
  let r ← a.remove matched statements
  let (new, added) ← a.add c r.statements
  return ⟨new, r.found, added⟩

/-- `process` for one resource: the statements that are written, if any. -/
def process (c : Checksum) (a : ModifyPolicyBase) (matched : List Statement)
    (statements : StatementField) : Except Exn (Option (List Statement)) := do
  let r ← a.compute c matched statements
  return if r.removed.isEmpty && !r.added then none else some r.statements

/-! ## What is to be computed -/

/-- The statements that are not selected for removal. -/
def remaining (a : ModifyPolicyBase) (matched : List Statement) (ss : List Statement) :
    List Statement := ss.filter fun s => !selects a.removeStatements matched s

/-- The statement has the non-empty `Sid` of one that is added. -/
def replaced (a : ModifyPolicyBase) (s : Statement) : Bool :=
  s.sid.any fun t => t ≠ [] ∧ a.addStatements.any fun u => u.sid = some t

/-- The statements that are to be kept. -/
def kept (a : ModifyPolicyBase) (matched : List Statement) (ss : List Statement) :
    List Statement := (a.remaining matched ss).filter fun s => !a.replaced s

/-- The same statements in the same order. -/
def Alike (ss ts : List Statement) : Prop := List.Forall₂ (fun s t => s.eq t = true) ss ts

/-- The kept statements in their order, and every added one; a flag that tells whether anything has
changed by adding; and a second run modifies nothing. -/
structure Preserved (c : Checksum) (a : ModifyPolicyBase) (matched : List Statement)
    (ss : List Statement) (r : Computed) : Prop where
  perm : r.statements.Perm (a.kept matched ss ++ a.addStatements)
  sublist : (a.kept matched ss).Sublist r.statements
  added_iff : r.added = true ↔ ¬ Alike r.statements (a.remaining matched ss)
  again : a.process c matched (.list r.statements) = .ok none

def LosesNothing (c : Checksum) (a : ModifyPolicyBase) (matched : List Statement)
    (ss : List Statement) : Prop :=
  ∃ r, a.compute c matched (.list ss) = .ok r ∧ a.Preserved c matched ss r

/-! ## What is computed -/

variable {c : Checksum} {a : ModifyPolicyBase} {matched ss : List Statement}

/-- The statements that are collected, behind those that are left. -/
def collected (c : Checksum) (a : ModifyPolicyBase) (ss : List Statement) :
    List (Text × Statement) :=
  (c.collect a.addStatements).foldl (fun d e => Items.set e.1 e.2 d) (c.collect ss)

theorem remove_list : a.remove matched (.list ss) =
    .ok ⟨.list (a.remaining matched ss),
      (ss.filter (selects a.removeStatements matched)).map Statement.json⟩ := by
  rw [remove]
  split
  · next hnone =>
    have hselects : ∀ s, selects a.removeStatements matched s = false := by
      intro s
      cases hids : a.removeStatements with
      | ids names =>
        rw [hids, noIds, List.isEmpty_iff] at hnone
        rw [selects, hnone]
        cases s.sid <;> simp
      | _ =>
        rw [hids] at hnone
        cases hnone
    rw [remaining, List.filter_eq_self.mpr (fun s _ => by rw [hselects s]; rfl),
      List.filter_eq_nil_iff.mpr (fun s _ => by rw [hselects s]; exact Bool.false_ne_true)]
    rfl
  · exact RemoveStatements.removeStatements_list ss

/-- **What is computed** for a list of statements. -/
theorem compute_list : a.compute c matched (.list ss) =
    .ok ⟨(a.collected c (a.remaining matched ss)).map Prod.snd,
      (ss.filter (selects a.removeStatements matched)).map Statement.json,
      !(c.collect a.addStatements).isEmpty⟩ := by
  rw [compute, remove_list]
  rfl

theorem isEmpty_collect (l : List Statement) : (c.collect l).isEmpty = l.isEmpty := by
  cases l with
  | nil => rfl
  | cons s l =>
    have hmem : c.key s ∈ (c.collect (s :: l)).map Prod.fst := by
      rw [Checksum.collect, Items.mem_keys_ofList]
      exact List.mem_cons_self
    rw [List.isEmpty_cons, List.isEmpty_eq_false_iff]
    intro hnil
    rw [hnil] at hmem
    cases hmem

/-! ## The dictionary of statements -/

theorem map_fst_pairs (l : List Statement) :
    (l.map fun s => (c.key s, s)).map Prod.fst = l.map c.key := by
  rw [List.map_map]
  rfl

theorem map_snd_pairs (l : List Statement) :
    (l.map fun s => (c.key s, s)).map Prod.snd = l := by
  rw [List.map_map]
  exact List.map_id l

theorem collect_of_distinct {l : List Statement} (h : (l.map c.key).Nodup) :
    c.collect l = l.map fun s => (c.key s, s) :=
  Items.ofList_eq_self (by rwa [map_fst_pairs])

theorem filter_collect (p : Text → Bool) (l : List Statement) :
    (c.collect l).filter (fun e => p e.1) = c.collect (l.filter fun s => p (c.key s)) := by
  rw [Checksum.collect, Items.filter_ofList, List.filter_map]
  rfl

theorem mem_keys_collected {k : Text} : k ∈ (a.collected c ss).map Prod.fst ↔
    k ∈ ss.map c.key ∨ k ∈ a.addStatements.map c.key := by
  have hfold : ∀ es d : List (Text × Statement),
      k ∈ (es.foldl (fun d e => Items.set e.1 e.2 d) d).map Prod.fst ↔
        k ∈ d.map Prod.fst ∨ k ∈ es.map Prod.fst := by
    intro es
    induction es with
    | nil => simp
    | cons e es ih =>
      intro d
      rw [List.foldl_cons, ih, Items.mem_keys_set, List.map_cons, List.mem_cons, or_right_comm,
        or_comm]
  rw [collected, hfold, Checksum.collect, Checksum.collect, Items.mem_keys_ofList,
    Items.mem_keys_ofList, map_fst_pairs, map_fst_pairs]

theorem keys_nodup_collected : ((a.collected c ss).map Prod.fst).Nodup := by
  rw [collected]
  exact Items.keys_nodup_overwrite (Items.keys_nodup_ofList _) _

theorem filter_foldl_set {p : Text → Bool} {es : List (Text × Statement)}
    (h : ∀ e ∈ es, p e.1 = false) (d : List (Text × Statement)) :
    (es.foldl (fun d e => Items.set e.1 e.2 d) d).filter (fun e => p e.1) =
      d.filter fun e => p e.1 := by
  induction es generalizing d with
  | nil => rfl
  | cons e es ih =>
    obtain ⟨he, hes⟩ := List.forall_mem_cons.mp h
    rw [List.foldl_cons, ih hes, Items.filter_set, he]
    exact if_neg Bool.false_ne_true

/-! ## When no statement is lost -/

theorem key_mem_of_replaced {s : Statement} (h : a.replaced s = true) :
    c.key s ∈ a.addStatements.map c.key := by
  rw [replaced, Option.any_eq_true] at h
  obtain ⟨t, hs, ht⟩ := h
  simp only [decide_eq_true_eq, List.any_eq_true] at ht
  obtain ⟨-, u, hu, hsid⟩ := ht
  refine List.mem_map.mpr ⟨u, hu, ?_⟩
  rw [Checksum.key, Checksum.key, hs, hsid]
  rfl

theorem mem_keys_remaining {k : Text} :
    k ∈ (a.kept matched ss ++ a.addStatements).map c.key ↔
      k ∈ (a.remaining matched ss).map c.key ∨ k ∈ a.addStatements.map c.key := by
  rw [List.map_append, List.mem_append]
  constructor
  · exact Or.imp_left fun hk => List.map_subset _ (List.filter_subset_self _) hk
  · rintro (hk | hk)
    · obtain ⟨s, hs, rfl⟩ := List.mem_map.mp hk
      cases hreplaced : a.replaced s with
      | true => exact Or.inr (key_mem_of_replaced hreplaced)
      | false =>
        exact Or.inl (List.mem_map_of_mem (List.mem_filter.mpr ⟨hs, by rw [hreplaced]; rfl⟩))
    · exact Or.inr hk

theorem nodup_of_length (h : (a.collected c (a.remaining matched ss)).length =
    (a.kept matched ss ++ a.addStatements).length) :
    ((a.kept matched ss ++ a.addStatements).map c.key).Nodup := by
  have hperm : ((a.collected c (a.remaining matched ss)).map Prod.fst).Perm
      ((a.kept matched ss ++ a.addStatements).map c.key).dedup :=
    (List.perm_ext_iff_of_nodup keys_nodup_collected (List.nodup_dedup _)).mpr fun k => by
      rw [mem_keys_collected, List.mem_dedup, mem_keys_remaining]
  have hlength := hperm.length_eq
  rw [List.length_map, h] at hlength
  rw [← (List.dedup_sublist _).eq_of_length (hlength.symm.trans (List.length_map _).symm)]
  exact List.nodup_dedup _

theorem filter_collected (h : ((a.kept matched ss ++ a.addStatements).map c.key).Nodup) :
    (a.collected c (a.remaining matched ss)).filter
        (fun e => decide (e.1 ∉ a.addStatements.map c.key)) =
      (a.kept matched ss).map fun s => (c.key s, s) := by
  rw [List.map_append, List.nodup_append] at h
  obtain ⟨hkept, -, hdisjoint⟩ := h
  have hfilter : (a.remaining matched ss).filter
      (fun s => decide (c.key s ∉ a.addStatements.map c.key)) = a.kept matched ss := by
    refine List.filter_congr fun s hs => ?_
    cases hreplaced : a.replaced s with
    | true => exact decide_eq_false (not_not.mpr (key_mem_of_replaced hreplaced))
    | false =>
      have hmem : s ∈ a.kept matched ss := List.mem_filter.mpr ⟨hs, by rw [hreplaced]; rfl⟩
      exact decide_eq_true fun hk => hdisjoint _ (List.mem_map_of_mem hmem) _ hk rfl
  rw [collected, filter_foldl_set (p := fun k => decide (k ∉ a.addStatements.map c.key)),
    filter_collect fun k => decide (k ∉ a.addStatements.map c.key), hfilter,
    collect_of_distinct hkept]
  intro e he
  have hk : e.1 ∈ (c.collect a.addStatements).map Prod.fst := List.mem_map_of_mem he
  rw [Checksum.collect, Items.mem_keys_ofList, map_fst_pairs] at hk
  exact decide_eq_false (not_not.mpr hk)

theorem filter_collected_perm (h : (a.addStatements.map c.key).Nodup) :
    ((a.collected c ss).filter
        (fun e => decide (e.1 ∈ a.addStatements.map c.key))).Perm
      (a.addStatements.map fun s => (c.key s, s)) := by
  have hnodup : ((a.addStatements.map fun s => (c.key s, s)).map Prod.fst).Nodup := by
    rwa [map_fst_pairs]
  refine (List.perm_ext_iff_of_nodup (keys_nodup_collected.of_map.filter _) hnodup.of_map).mpr ?_
  rintro ⟨k, s⟩
  rw [List.mem_filter, decide_eq_true_eq, Items.mem_iff_get keys_nodup_collected,
    Items.mem_iff_get hnodup, collected, collect_of_distinct h, ← Items.overwrite,
    Items.get_overwrite hnodup]
  constructor
  · rintro ⟨hget, hk⟩
    rw [← map_fst_pairs, ← Items.isSome_get, Option.isSome_iff_exists] at hk
    obtain ⟨t, ht⟩ := hk
    rw [ht, Option.some_or] at hget
    rw [ht, hget]
  · intro hget
    refine ⟨by rw [hget, Option.some_or], ?_⟩
    rw [← map_fst_pairs, ← Items.isSome_get, hget]
    rfl

/-- **No statement is lost** exactly when no two of those that are kept or added have one key. -/
theorem collected_perm_iff :
    (((a.collected c (a.remaining matched ss)).map Prod.snd).Perm
        (a.kept matched ss ++ a.addStatements) ∧
      (a.kept matched ss).Sublist ((a.collected c (a.remaining matched ss)).map Prod.snd)) ↔
      ((a.kept matched ss ++ a.addStatements).map c.key).Nodup := by
  constructor
  · rintro ⟨hperm, -⟩
    have hlength := hperm.length_eq
    rw [List.length_map] at hlength
    exact nodup_of_length hlength
  · intro h
    have hkept := filter_collected h
    have hadded : (a.addStatements.map c.key).Nodup := by
      rw [List.map_append] at h
      exact h.of_append_right
    constructor
    · have hsplit := (List.filter_append_perm
        (fun e : Text × Statement => decide (e.1 ∈ a.addStatements.map c.key))
        (a.collected c (a.remaining matched ss))).symm
      have hnot : ∀ e : Text × Statement, (!decide (e.1 ∈ a.addStatements.map c.key)) =
          decide (e.1 ∉ a.addStatements.map c.key) := fun e => (decide_not ..).symm
      simp only [hnot, hkept] at hsplit
      have hperm := (hsplit.trans ((filter_collected_perm hadded).append_right _)).map Prod.snd
      rw [List.map_append, map_snd_pairs, map_snd_pairs] at hperm
      exact hperm.trans List.perm_append_comm
    · have hsublist := (List.filter_sublist (l := a.collected c (a.remaining matched ss))
        (p := fun e => decide (e.1 ∉ a.addStatements.map c.key))).map Prod.snd
      rwa [hkept, map_snd_pairs] at hsublist

/-! ## A second run -/

theorem process_list : a.process c matched (.list ss) =
    .ok (if (ss.filter (selects a.removeStatements matched)).isEmpty && a.addStatements.isEmpty
      then none else some ((a.collected c (a.remaining matched ss)).map Prod.snd)) := by
  rw [process, compute_list, ok_bind, isEmpty_collect, List.isEmpty_map, Bool.not_not]
  rfl

theorem process_eq_none_iff : a.process c matched (.list ss) = .ok none ↔
    (∀ s ∈ ss, selects a.removeStatements matched s = false) ∧ a.addStatements = [] := by
  rw [process_list, Except.ok.injEq]
  have hnone : ∀ (b : Bool) (x : List Statement),
      (if b then none else some x) = none ↔ b = true := by
    intro b x
    cases b <;> simp
  rw [hnone, Bool.and_eq_true, List.isEmpty_iff, List.isEmpty_iff, List.filter_eq_nil_iff]
  simp only [Bool.not_eq_true]

theorem collected_of_none (hadd : a.addStatements = []) (h : (ss.map c.key).Nodup) :
    (a.collected c ss).map Prod.snd = ss := by
  rw [collected, hadd, collect_of_distinct h]
  exact map_snd_pairs ss

theorem kept_of_none (hadd : a.addStatements = []) : a.kept matched ss = a.remaining matched ss := by
  refine List.filter_eq_self.mpr fun s _ => ?_
  rw [replaced, hadd]
  cases s.sid <;> simp

/-- **modify-policy loses no statement** and settles exactly when nothing is added and the remaining
statements have distinct keys. -/
theorem losesNothing_iff (c : Checksum) (a : ModifyPolicyBase) (matched ss : List Statement) :
    a.LosesNothing c matched ss ↔
      a.addStatements = [] ∧ ((a.remaining matched ss).map c.key).Nodup := by
  rw [LosesNothing, compute_list]
  constructor
  · rintro ⟨r, hr, h⟩
    obtain rfl := Except.ok.inj hr
    have hadd := (process_eq_none_iff.mp h.again).2
    have hnodup := collected_perm_iff.mp ⟨h.perm, h.sublist⟩
    rw [kept_of_none hadd, hadd, List.append_nil] at hnodup
    exact ⟨hadd, hnodup⟩
  · rintro ⟨hadd, hnodup⟩
    have hkept : ((a.kept matched ss ++ a.addStatements).map c.key).Nodup := by
      rwa [kept_of_none hadd, hadd, List.append_nil]
    obtain ⟨hperm, hsublist⟩ := collected_perm_iff.mpr hkept
    have hlist : (a.collected c (a.remaining matched ss)).map Prod.snd =
        a.remaining matched ss := collected_of_none hadd hnodup
    refine ⟨_, rfl, hperm, hsublist, ?_, ?_⟩
    · rw [isEmpty_collect, hadd, hlist]
      have halike : Alike (a.remaining matched ss) (a.remaining matched ss) :=
        List.forall₂_same.mpr fun s _ => s.eq_refl
      exact iff_of_false (by simp) (not_not.mpr halike)
    · rw [process_eq_none_iff, hlist]
      refine ⟨fun s hs => ?_, hadd⟩
      have hs := (List.mem_filter.mp hs).2
      rwa [Bool.not_eq_true'] at hs

/-! ## A lost statement -/

/-- The text of the effect stands for the checksum. -/
def byEffect : Checksum where
  dumps members :=
    match Items.get "Effect".toList members with
    | some (.str t) => t
    | _ => []
  hexdigest t := t

/-- Nothing is removed and a statement with a new `Sid` is added. -/
def addNew : ModifyPolicyBase := ⟨[Statement.ofEffect "New".toList "Allow".toList], .ids []⟩

/-- Of two statements with an empty `Sid` the first one, which denies, is lost. -/
theorem emptySids_lost : ¬ addNew.LosesNothing byEffect []
    [Statement.ofEffect [] "Deny".toList, Statement.ofEffect [] "Allow".toList] := by
  rintro ⟨r, hr, h⟩
  have hlength := h.perm.length_eq
  have hkept : (addNew.kept [] [Statement.ofEffect [] "Deny".toList,
      Statement.ofEffect [] "Allow".toList]).length = 2 := by
    decide +kernel
  have hcompute : (addNew.compute byEffect [] (.list [Statement.ofEffect [] "Deny".toList,
      Statement.ofEffect [] "Allow".toList])).map (fun r => r.statements.length) = .ok 2 := rfl
  rw [hr, Except.map, Except.ok.injEq] at hcompute
  rw [hcompute, List.length_append, hkept] at hlength
  cases hlength

end ModifyPolicyBase

end Custodian.ModifyPolicy

import Custodian.SecurityGroup.RuleHash

/-!
# Reverting a security group

Applying the difference from the current version of a security group to a previous
one is to reach the previous one.  Tags always do; rules do exactly when the
checksums tell apart what has to change.
-/

namespace Custodian.Revert

open Py Custodian.Diff Custodian.Patch Custodian.RuleHash

/-! ## Tags -/

theorem exists_tagDict {group : SecurityGroup} (h : AwsForm group) :
    ∃ d, tagDict group = .ok d := by
  have hpairs : ∀ t ∈ group.tags.getD [], ∃ e, (do
      let k ← item "Key".toList t
      let v ← item "Value".toList t
      return (k, v)) = Except.ok (ε := Exn) e := by
    intro t ht
    obtain ⟨hk, hv⟩ := h.tags t ht
    obtain ⟨k, hk⟩ := Option.isSome_iff_exists.mp hk
    obtain ⟨v, hv⟩ := Option.isSome_iff_exists.mp hv
    exact ⟨(k, v), by simp only [item, hk, hv]; rfl⟩
  obtain ⟨pairs, hp⟩ := exists_mapM_eq_ok hpairs
  exact ⟨Dict.ofPairs pairs, by rw [tagDict, hp]; rfl⟩

theorem filledDict_eq_none {d : Dict Text Text} : filledDict d = none ↔ ∀ k, d.lookup k = none := by
  have hnil : filledDict d = none ↔ d.entries = [] := by simp [filledDict]
  rw [hnil, List.eq_nil_iff_forall_not_mem]
  constructor
  · intro h k
    refine Option.eq_none_iff_forall_ne_some.mpr fun v hv => ?_
    exact h ⟨k, v⟩ (AList.mem_lookup_iff.mp hv)
  · rintro h ⟨k, v⟩ he
    have hv : d.lookup k = some v := AList.mem_lookup_iff.mpr he
    rw [h k] at hv
    cases hv

theorem items_filledDict (d : Dict Text Text) :
    items (filledDict d) = d.entries.map fun e => (e.1, e.2) := by
  rw [filledDict]
  split
  · rename_i h
    rw [List.isEmpty_iff.mp h]
    rfl
  · rfl

theorem mem_items_filledDict {d : Dict Text Text} {e : Text × Text} :
    e ∈ items (filledDict d) ↔ d.lookup e.1 = some e.2 := by
  rw [items_filledDict, ← Option.mem_def, AList.mem_lookup_iff]
  simp [Prod.ext_iff, Sigma.exists]

theorem effects_delete (g : Text) (d : Dict Text Text) (l : Live) :
    effects ((filledDict d).elim [] fun d => [.deleteTags g d.keys]) l =
      { l with tags := fun k => if k ∈ d then none else l.tags k } := by
  cases hd : filledDict d with
  | none =>
    have hnot : ∀ k, k ∉ d := fun k => AList.lookup_eq_none.mp (filledDict_eq_none.mp hd k)
    simp [hnot]
  | some d' =>
    have hd' : d' = d := by
      rw [filledDict] at hd
      split at hd
      · cases hd
      · exact (Option.some.inj hd).symm
    subst hd'
    simp [Call.effect, AList.mem_keys]

theorem effects_create (g : Text) (tags : List (Text × Text)) (l : Live) :
    effects (if tags.isEmpty then [] else [.createTags g tags]) l =
      { l with tags := fun k => ((Dict.ofPairs tags).lookup k).or (l.tags k) } := by
  cases tags with
  | nil =>
    have hnone : ∀ k : Text, (Dict.ofPairs ([] : List (Text × Text))).lookup k = none :=
      fun k => AList.lookup_empty k
    simp [hnone]
  | cons e tags => simp [Call.effect]

theorem tags_patched (d e : Dict Text Text) (tags : List (Text × Text))
    (h : ∀ p, p ∈ tags ↔ e.lookup p.1 = some p.2 ∧ d.lookup p.1 ≠ some p.2) (k : Text) :
    ((Dict.ofPairs tags).lookup k).or
        (if k ∈ d.keepKeys (fun k => k ∉ e) then none else d.lookup k) = e.lookup k := by
  cases hk : (Dict.ofPairs tags).lookup k with
  | some v =>
    obtain ⟨before, after, rfl, -⟩ := (Dict.lookup_ofPairs_eq_some tags k v).mp hk
    rw [Option.some_or, ((h (k, v)).mp (by simp)).1]
  | none =>
    rw [Dict.lookup_ofPairs_eq_none] at hk
    rw [Option.none_or]
    have hin : k ∈ d.keepKeys (fun k => k ∉ e) ↔ k ∈ d ∧ k ∉ e := by
      rw [← AList.lookup_isSome, Dict.lookup_keepKeys, ← AList.lookup_isSome (s := d)]
      by_cases he : k ∈ e <;> simp [he]
    simp only [hin]
    cases he : e.lookup k with
    | none =>
      have hne : k ∉ e := AList.lookup_eq_none.mp he
      by_cases hd : k ∈ d
      · rw [if_pos ⟨hd, hne⟩]
      · rw [if_neg fun hc => hd hc.1, AList.lookup_eq_none.mpr hd]
    | some v =>
      have hke : k ∈ e := AList.lookup_isSome.mp (by rw [he]; rfl)
      rw [if_neg fun hc => hc.2 hke]
      by_contra hne
      exact hk (k, v) ((h (k, v)).mpr ⟨he, hne⟩) rfl

theorem mem_changed_tags (d e : Dict Text Text) (p : Text × Text) :
    p ∈ items (filledDict (e.keepKeys fun k => k ∉ d)) ++
        items (filledDict (e.keepKeys fun k => k ∈ d ∧ d.lookup k ≠ e.lookup k)) ↔
      e.lookup p.1 = some p.2 ∧ d.lookup p.1 ≠ some p.2 := by
  rw [List.mem_append, mem_items_filledDict, mem_items_filledDict, Dict.lookup_keepKeys,
    Dict.lookup_keepKeys]
  by_cases hd : p.1 ∈ d
  · cases he : e.lookup p.1 with
    | none => simp
    | some v =>
      simp only [hd, not_true_eq_false, decide_false, Bool.false_eq_true, if_false, false_or,
        true_and, reduceCtorEq]
      by_cases hv : v = p.2
      · subst hv
        by_cases hdv : d.lookup p.1 = some p.2 <;> simp [hdv]
      · by_cases hdv : d.lookup p.1 = some v <;> simp [hdv, hv]
  · have hnone : d.lookup p.1 = none := AList.lookup_eq_none.mpr hd
    simp [hd, hnone]

theorem getTagDelta_spec {source target : SecurityGroup} (hs : AwsForm source)
    (ht : AwsForm target) : ∃ delta, getTagDelta source target = .ok delta ∧
      (delta = none ↔ (describe source).tags = (describe target).tags) ∧
      ∀ l : Live, l.tags = (describe source).tags →
        effects (delta.elim [] (processTags source)) l =
          { l with tags := (describe target).tags } := by
  obtain ⟨d, hd⟩ := exists_tagDict hs
  obtain ⟨e, he⟩ := exists_tagDict ht
  have hsource : (describe source).tags = fun k => d.lookup k := by simp only [describe, hd]
  have htarget : (describe target).tags = fun k => e.lookup k := by simp only [describe, he]
  rw [hsource, htarget]
  have hfull : ∀ l : Live, l.tags = (fun k => d.lookup k) →
      effects (processTags source ⟨filledDict (e.keepKeys fun k => k ∉ d),
        filledDict (d.keepKeys fun k => k ∉ e),
        filledDict (e.keepKeys fun k => k ∈ d ∧ d.lookup k ≠ e.lookup k)⟩) l =
        { l with tags := fun k => e.lookup k } := by
    intro l hl
    rw [processTags, effects_append, effects_delete, effects_create, hl]
    have hget := funext fun k => tags_patched d e _ (mem_changed_tags d e) k
    simp only [hget]
  refine ⟨_, by rw [getTagDelta, hd, he]; rfl, ?_⟩
  split
  · rename_i hnone
    simp only [Bool.and_eq_true, Option.isNone_iff_eq_none] at hnone
    have hsame : (fun k => d.lookup k) = fun k => e.lookup k := by
      have hf := hfull ⟨fun k => d.lookup k, fun _ => ∅⟩ rfl
      rw [hnone.1.1, hnone.1.2, hnone.2] at hf
      exact congrArg Live.tags hf
    refine ⟨iff_of_true rfl hsame, fun l hl => ?_⟩
    rw [← hsame, ← hl]
    rfl
  · rename_i hsome
    refine ⟨iff_of_false (by simp) fun hsame => hsome ?_, fun l hl => hfull l hl⟩
    have hk : ∀ k, d.lookup k = e.lookup k := congrFun hsame
    have hmem : ∀ k, k ∈ d ↔ k ∈ e := by
      intro k
      rw [← AList.lookup_isSome, ← AList.lookup_isSome, hk]
    simp only [Bool.and_eq_true, Option.isNone_iff_eq_none, filledDict_eq_none,
      Dict.lookup_keepKeys, hmem, hk]
    refine ⟨⟨fun k => ?_, fun k => ?_⟩, fun k => by simp⟩
    all_goals
      by_cases hke : k ∈ e
      · simp [hke]
      · simp [AList.lookup_eq_none.mpr hke]

/-! ## Rules -/

/-- The change that a list of removed and a list of added rules make up. -/
def ruleDelta (removed added : List Rule) : Option RuleDelta :=
  if (filled removed).isNone && (filled added).isNone then none
  else some ⟨filled removed, filled added⟩

theorem grants_nil : grants [] = ∅ := by
  simp [grants]

theorem ruleDelta_eq_none {removed added : List Rule} :
    ruleDelta removed added = none ↔ removed = [] ∧ added = [] := by
  cases removed <;> cases added <;> simp [ruleDelta, filled]

theorem effects_ruleDelta (d : Direction) (group : SecurityGroup) (removed added : List Rule)
    (l : Live) : effects ((ruleDelta removed added).elim [] (processRules d group)) l =
      ⟨l.tags, Function.update l.grants d ((l.grants d \ grants removed) ∪ grants added)⟩ := by
  cases removed <;> cases added <;>
    simp [ruleDelta, filled, processRules, Call.effect, grants_nil]

theorem getRuleDelta_spec {source target : SecurityGroup} (hs : AwsForm source)
    (ht : AwsForm target) (d : Direction) : ∃ removed added,
      getRuleDelta d source target = .ok (ruleDelta removed added) ∧
      (∀ r, r ∈ removed ↔ Fingerprint.Only computeRuleHash (source.rules d) (target.rules d) r) ∧
      ∀ r, r ∈ added ↔ Fingerprint.Only computeRuleHash (target.rules d) (source.rules d) r := by
  obtain ⟨_, -, hS⟩ := exists_rulesByHash (hs.rules d)
  obtain ⟨_, -, hT⟩ := exists_rulesByHash (ht.rules d)
  refine ⟨_, _, by rw [getRuleDelta, hS, hT]; rfl, ?_, ?_⟩
  · exact mem_rulesOnlyIn (hs.rules d) (ht.rules d) hS hT
  · exact mem_rulesOnlyIn (ht.rules d) (hs.rules d) hT hS

theorem patched_grants {S T removed added : List Rule}
    (hr : ∀ r, r ∈ removed ↔ Fingerprint.Only computeRuleHash S T r)
    (ha : ∀ r, r ∈ added ↔ Fingerprint.Only computeRuleHash T S r) :
    (grants S \ grants removed) ∪ grants added =
      {g | Fingerprint.Patched slot sources computeRuleHash S T g.1 g.2} := by
  ext g
  simp only [grants, Set.mem_union, Set.mem_sdiff, Set.mem_ofPred_eq, Fingerprint.Patched,
    Fingerprint.Holds, hr, ha, not_exists, not_and]

/-! ## Reverting -/

/-- The difference is nothing exactly between versions that are the same, and what it
is otherwise turns the current version into the previous one and no other group. -/
def Reverts (current previous : SecurityGroup) : Prop :=
  ∃ delta, diff current previous = .ok delta ∧
    (delta = none ↔ describe current = describe previous) ∧
    ∀ changes, delta = some changes → ∀ w : Account, w current.groupId = describe current →
      run (applyDelta current changes) w =
        Function.update w current.groupId (describe previous)

/-- The checksums tell the rules that have to change: one that the other version lacks
is the only one under its checksum, or, when it is to go, the rule of the previous
version for its protocol and ports has all its sources. -/
def ChecksumsTell (current previous : SecurityGroup) : Prop :=
  ∀ d, Fingerprint.Told slot sources computeRuleHash (current.rules d) (previous.rules d)

theorem keyed {group : SecurityGroup} (h : AwsForm group) (d : Direction) :
    Fingerprint.Keyed slot sources (group.rules d) :=
  ⟨h.slots d, fun r hr => (h.rules d r hr).granting⟩

theorem mark_congr {current previous : SecurityGroup} (hc : AwsForm current)
    (hp : AwsForm previous) (d : Direction) : ∀ s ∈ current.rules d, ∀ t ∈ previous.rules d,
      Fingerprint.Alike slot sources s t → computeRuleHash s = computeRuleHash t :=
  fun s hs t ht h => computeRuleHash_congr (hc.rules d s hs) (hp.rules d t ht) h.1 h.2

/-- The current version after its rules are patched, with the tags of the previous one. -/
def patched (current previous : SecurityGroup) : Live where
  tags := (describe previous).tags
  grants d := {g | Fingerprint.Patched slot sources computeRuleHash (current.rules d)
    (previous.rules d) g.1 g.2}

theorem patched_eq_iff {current previous : SecurityGroup} (hc : AwsForm current)
    (hp : AwsForm previous) :
    patched current previous = describe previous ↔ ChecksumsTell current previous := by
  have hd : ∀ d, (patched current previous).grants d = (describe previous).grants d ↔
      Fingerprint.Told slot sources computeRuleHash (current.rules d) (previous.rules d) := by
    intro d
    rw [← Fingerprint.patched_iff (keyed hc d) (keyed hp d) (mark_congr hc hp d), Set.ext_iff,
      Prod.forall]
    rfl
  constructor
  · exact fun h d => (hd d).mp (congrFun (congrArg Live.grants h) d)
  · exact fun h => Live.ext rfl (funext fun d => (hd d).mpr (h d))

theorem diff_spec {current previous : SecurityGroup} (hc : AwsForm current)
    (hp : AwsForm previous) : ∃ delta, diff current previous = .ok delta ∧
      (describe current = describe previous → delta = none) ∧
      effects (delta.elim [] (applyDelta current)) (describe current) =
        patched current previous := by
  obtain ⟨tags, htags, htnone, hteffect⟩ := getTagDelta_spec hc hp
  obtain ⟨ri, ai, hi, hri, hai⟩ := getRuleDelta_spec hc hp .ingress
  obtain ⟨re, ae, he, hre, hae⟩ := getRuleDelta_spec hc hp .egress
  have heffect : effects (applyDelta current ⟨tags, ruleDelta ri ai, ruleDelta re ae⟩)
      (describe current) = patched current previous := by
    rw [applyDelta, effects_append, effects_append, hteffect _ rfl, effects_ruleDelta,
      effects_ruleDelta]
    refine Live.ext rfl (funext fun d => ?_)
    cases d with
    | ingress => exact patched_grants hri hai
    | egress => exact patched_grants hre hae
  refine ⟨_, by rw [diff, htags, hi, he]; rfl, fun hsame => ?_, ?_⟩
  · have hgrants : ∀ d, ∀ k x, Fingerprint.Holds slot sources (current.rules d) k x ↔
        Fingerprint.Holds slot sources (previous.rules d) k x := by
      intro d k x
      have hset : grants (current.rules d) = grants (previous.rules d) :=
        congrFun (congrArg Live.grants hsame) d
      exact Set.ext_iff.mp hset (k, x)
    have hgone : ∀ d r, ¬ Fingerprint.Only computeRuleHash (current.rules d) (previous.rules d) r :=
      fun d => Fingerprint.not_only_of_same (keyed hc d) (keyed hp d) (mark_congr hc hp d)
        (hgrants d)
    have hnew : ∀ d r, ¬ Fingerprint.Only computeRuleHash (previous.rules d) (current.rules d) r :=
      fun d => Fingerprint.not_only_of_same (keyed hp d) (keyed hc d) (mark_congr hp hc d)
        fun k x => (hgrants d k x).symm
    have hnil : ∀ {l : List Rule} {P : Rule → Prop}, (∀ r, r ∈ l ↔ P r) → (∀ r, ¬ P r) → l = [] :=
      fun h hP => List.eq_nil_iff_forall_not_mem.mpr fun r hr => hP r ((h r).mp hr)
    have hin : ruleDelta ri ai = none :=
      ruleDelta_eq_none.mpr ⟨hnil hri (hgone .ingress), hnil hai (hnew .ingress)⟩
    have hout : ruleDelta re ae = none :=
      ruleDelta_eq_none.mpr ⟨hnil hre (hgone .egress), hnil hae (hnew .egress)⟩
    rw [htnone.mpr (congrArg Live.tags hsame), hin, hout]
    rfl
  · split
    · rename_i hnone
      simp only [Bool.and_eq_true, Option.isNone_iff_eq_none] at hnone
      rw [hnone.1.1, hnone.1.2, hnone.2] at heffect
      exact heffect
    · exact heffect

/-- **Reverting reaches the previous version exactly when the checksums tell.** -/
theorem applyDelta_reverts (current previous : SecurityGroup) (hc : AwsForm current)
    (hp : AwsForm previous) : Reverts current previous ↔ ChecksumsTell current previous := by
  obtain ⟨delta, hdiff, hsame, heffect⟩ := diff_spec hc hp
  rw [← patched_eq_iff hc hp]
  constructor
  · rintro ⟨delta', hdiff', hnone, hrun⟩
    rw [hdiff] at hdiff'
    cases hdiff'
    cases delta with
    | none =>
      rw [← heffect]
      exact hnone.mp rfl
    | some changes =>
      have hw := hrun changes rfl (fun _ => describe current) rfl
      rw [run_eq_update (group_applyDelta current changes)] at hw
      have hg := congrFun hw current.groupId
      rw [Function.update_self, Function.update_self] at hg
      rw [← heffect, ← hg]
      rfl
  · intro hpatched
    rw [hpatched] at heffect
    refine ⟨delta, hdiff, ⟨fun hnone => ?_, hsame⟩, fun changes hsome w hw => ?_⟩
    · rw [hnone] at heffect
      exact heffect
    · rw [hsome] at heffect
      rw [run_eq_update (group_applyDelta current changes), hw]
      exact congrArg _ heffect

theorem checksumsTell_of_apart {current previous : SecurityGroup} (hc : AwsForm current)
    (hp : AwsForm previous)
    (h : ∀ d, ∀ r ∈ current.rules d ++ previous.rules d,
      ∀ r' ∈ current.rules d ++ previous.rules d,
        computeRuleHash r = computeRuleHash r' → slot r = slot r' ∧ sources r = sources r') :
    ChecksumsTell current previous :=
  fun d => Fingerprint.told_of_apart (keyed hc d) (keyed hp d) (h d)

/-! ## Two ranges with one checksum -/

/-- Ssh from one address range. -/
def sshFrom (cidr : Text) : Rule where
  ipProtocol := some "tcp".toList
  fromPort := some 22
  toPort := some 22
  ipRanges := some [Dict.ofPairs [("CidrIp".toList, cidr)]]

def sshGroup (cidr : Text) : SecurityGroup where
  groupId := "sg-1".toList
  ipPermissions := some [sshFrom cidr]

theorem lists_sshFrom (cidr : Text) :
    Lists (sshFrom cidr) (.ipRanges, "CidrIp".toList) [cidr] :=
  congrArg (fun o => [o]) (AList.lookup_insert ∅)

theorem mem_sources_sshFrom (cidr s : Text) :
    (RuleAttr.ipRanges, s) ∈ sources (sshFrom cidr) ↔ s = cidr := by
  rw [← (lists_sshFrom cidr).mem_sources (by decide), List.mem_singleton]

theorem awsForm_sshGroup {cidr : Text} (h : Ascii cidr) : AwsForm (sshGroup cidr) where
  tags := by simp [sshGroup]
  rules := by
    have hform : RuleForm (sshFrom cidr) := by
      refine ⟨?_, by rintro p ⟨⟩; decide, ⟨(.ipRanges, cidr), (mem_sources_sshFrom cidr cidr).mpr rfl⟩⟩
      intro a ha
      rcases a with ⟨_ | _ | _ | _, ke⟩
      · exact ⟨[], rfl, List.nodup_nil, by simp⟩
      · exact ⟨[], rfl, List.nodup_nil, by simp⟩
      · have hke : ke = "CidrIp".toList :=
          ruleAttrs_key _ ha (.ipRanges, "CidrIp".toList) (by decide) rfl
        subst hke
        exact ⟨[cidr], lists_sshFrom cidr, List.nodup_singleton cidr, by simpa using h⟩
      · exact ⟨[], rfl, List.nodup_nil, by simp⟩
    rintro (_ | _) r hr
    · rw [List.mem_singleton.mp hr]
      exact hform
    · cases hr
  slots := by
    rintro (_ | _)
    · exact List.nodup_singleton _
    · exact List.nodup_nil

/-- Of two versions that open ssh to one range each, reverting closes the one and opens
the other when their checksums differ. -/
theorem applyDelta_reverts_ssh :
    Reverts (sshGroup "10.0.0.0/8".toList) (sshGroup "0.0.0.0/0".toList) := by
  refine (applyDelta_reverts _ _ (awsForm_sshGroup (by decide)) (awsForm_sshGroup (by decide))).mpr
    (checksumsTell_of_apart (awsForm_sshGroup (by decide)) (awsForm_sshGroup (by decide)) ?_)
  have hne : computeRuleHash (sshFrom "10.0.0.0/8".toList) ≠
      computeRuleHash (sshFrom "0.0.0.0/0".toList) := by
    decide +kernel
  rintro (_ | _) r hr r' hr' heq
  · have hcases : ∀ r ∈ (sshGroup "10.0.0.0/8".toList).rules .ingress ++
        (sshGroup "0.0.0.0/0".toList).rules .ingress,
        r = sshFrom "10.0.0.0/8".toList ∨ r = sshFrom "0.0.0.0/0".toList := by
      intro r hr
      simpa [SecurityGroup.rules, sshGroup] using hr
    rcases hcases r hr with rfl | rfl <;> rcases hcases r' hr' with rfl | rfl
    · exact ⟨rfl, rfl⟩
    · exact absurd heq hne
    · exact absurd heq.symm hne
    · exact ⟨rfl, rfl⟩
  · cases hr

/-- Two ranges with one checksum: the versions grant different access and the
difference between them is nothing. -/
theorem colliding_not_reverted :
    AwsForm (sshGroup "10.28.240.102/32".toList) ∧ AwsForm (sshGroup "10.0.120.18/32".toList) ∧
    describe (sshGroup "10.28.240.102/32".toList) ≠ describe (sshGroup "10.0.120.18/32".toList) ∧
    (diff (sshGroup "10.28.240.102/32".toList) (sshGroup "10.0.120.18/32".toList)).map
      Option.isSome = .ok false ∧
    ¬ Reverts (sshGroup "10.28.240.102/32".toList) (sshGroup "10.0.120.18/32".toList) := by
  have hne : describe (sshGroup "10.28.240.102/32".toList) ≠
      describe (sshGroup "10.0.120.18/32".toList) := by
    intro h
    have hg : grants [sshFrom "10.28.240.102/32".toList] =
        grants [sshFrom "10.0.120.18/32".toList] := congrFun (congrArg Live.grants h) .ingress
    have hmem : (slot (sshFrom []), (RuleAttr.ipRanges, "10.28.240.102/32".toList)) ∈
        grants [sshFrom "10.28.240.102/32".toList] :=
      ⟨_, List.mem_singleton_self _, rfl, (mem_sources_sshFrom _ _).mpr rfl⟩
    rw [hg] at hmem
    obtain ⟨r, hr, -, hs⟩ := hmem
    rw [List.mem_singleton.mp hr] at hs
    exact absurd ((mem_sources_sshFrom _ _).mp hs) (by decide)
  have hdiff : (diff (sshGroup "10.28.240.102/32".toList)
      (sshGroup "10.0.120.18/32".toList)).map Option.isSome = .ok false := by
    decide +kernel
  refine ⟨awsForm_sshGroup (by decide), awsForm_sshGroup (by decide), hne, hdiff, ?_⟩
  rintro ⟨delta, hd, hnone, -⟩
  rw [hd] at hdiff
  cases delta with
  | none => exact hne (hnone.mp rfl)
  | some changes => cases hdiff

end Custodian.Revert

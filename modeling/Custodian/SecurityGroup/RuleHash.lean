import Custodian.Lib.Fingerprint
import Custodian.SecurityGroup.Patch

/-!
# The checksum of a rule

Which security groups the service describes, and what the checksum says about
their rules.
-/

namespace Custodian.RuleHash

open Py Custodian.Diff Custodian.Patch

/-! ## Groups as they are described -/

def Ascii (s : Text) : Prop := ∀ c ∈ s, c.toNat < 128

instance (s : Text) : Decidable (Ascii s) := inferInstanceAs (Decidable (∀ c ∈ s, c.toNat < 128))

/-- The entries of a list of sources have these texts under its key. -/
def Lists (rule : Rule) (a : RuleAttr × Text) (vs : List Text) : Prop :=
  ((rule.attr a.1).getD []).map (fun e => e.lookup a.2) = vs.map some

/-- A rule lists distinct sources, and some source. -/
structure RuleForm (rule : Rule) : Prop where
  entries : ∀ a ∈ ruleAttrs, ∃ vs, Lists rule a vs ∧ vs.Nodup ∧ ∀ v ∈ vs, Ascii v
  protocol : ∀ p ∈ rule.ipProtocol, Ascii p
  granting : (sources rule).Nonempty

/-- Every tag has a key and a value, and there is one rule for a protocol and port range. -/
structure AwsForm (group : SecurityGroup) : Prop where
  tags : ∀ t ∈ group.tags.getD [],
    (t.lookup "Key".toList).isSome ∧ (t.lookup "Value".toList).isSome
  rules : ∀ d, ∀ r ∈ group.rules d, RuleForm r
  slots : ∀ d, ((group.rules d).map slot).Nodup

/-! ## Texts -/

theorem Ascii.append {s t : Text} (hs : Ascii s) (ht : Ascii t) : Ascii (s ++ t) := by
  intro c hc
  exact (List.mem_append.mp hc).elim (hs c) (ht c)

theorem Ascii.cons {c : Char} {s : Text} (hc : c.toNat < 128) (hs : Ascii s) :
    Ascii (c :: s) := by
  intro d hd
  rcases List.mem_cons.mp hd with rfl | hd
  · exact hc
  · exact hs d hd

theorem Ascii.flatten {ss : List Text} (h : ∀ s ∈ ss, Ascii s) : Ascii ss.flatten := by
  intro c hc
  obtain ⟨s, hs, hc⟩ := List.mem_flatten.mp hc
  exact h s hs c hc

theorem ascii_toDigits (n : Nat) : Ascii (Nat.toDigits 10 n) := by
  intro c hc
  have hd : c.isDigit := Nat.isDigit_of_mem_toDigits (by decide) (by decide) hc
  simp only [Char.isDigit, Bool.and_eq_true, decide_eq_true_eq] at hd
  have hle : c.toNat ≤ 57 := hd.2
  omega

theorem ascii_decimal (n : Int) : Ascii (decimal n) := by
  cases n with
  | ofNat n => exact ascii_toDigits n
  | negSucc n => exact Ascii.cons (by decide) (ascii_toDigits (n + 1))

theorem ascii_protocolText {p : Option Text} (h : ∀ t ∈ p, Ascii t) : Ascii (protocolText p) := by
  rw [protocolText.eq_def]
  split
  · decide
  · decide
  · exact h _ rfl

theorem exists_encodeAscii {s : Text} (h : Ascii s) : ∃ data, encodeAscii s = .ok data := by
  apply exists_mapM_eq_ok
  intro c hc
  exact ⟨c.toUInt8, if_pos (h c hc)⟩

/-! ## Sources -/

theorem mapM_item {es : List Record} {k : Text} {vs : List Text}
    (h : es.map (fun e => e.lookup k) = vs.map some) : es.mapM (item k) = .ok vs := by
  rw [mapM_eq_ok]
  induction es generalizing vs with
  | nil =>
    cases vs with
    | nil => exact .nil
    | cons v vs => simp at h
  | cons e es ih =>
    cases vs with
    | nil => simp at h
    | cons v vs =>
      simp only [List.map_cons, List.cons.injEq] at h
      exact .cons (by rw [item, h.1]) (ih h.2)

theorem Lists.mem_iff {rule : Rule} {a : RuleAttr × Text} {vs : List Text} (h : Lists rule a vs)
    (v : Text) : v ∈ vs ↔ ∃ e ∈ (rule.attr a.1).getD [], e.lookup a.2 = some v := by
  have hmem : some v ∈ vs.map some ↔ v ∈ vs := by simp
  rw [← hmem, ← h, List.mem_map]

theorem ruleAttrs_key : ∀ a ∈ ruleAttrs, ∀ b ∈ ruleAttrs, a.1 = b.1 → a.2 = b.2 := by
  decide

theorem Lists.mem_sources {rule : Rule} {a : RuleAttr × Text} {vs : List Text}
    (h : Lists rule a vs) (ha : a ∈ ruleAttrs) (v : Text) : v ∈ vs ↔ (a.1, v) ∈ sources rule := by
  rw [h.mem_iff]
  constructor
  · exact fun he => ⟨a.2, ha, he⟩
  · rintro ⟨ke, hke, he⟩
    have hk : ke = a.2 := ruleAttrs_key _ hke a ha rfl
    rwa [hk] at he

theorem sourcesText_eq {rule : Rule} {a : RuleAttr × Text} {vs : List Text}
    (h : Lists rule a vs) : sourcesText (rule.attr a.1) a.2 =
      .ok ((vs.insertionSort atMost).flatMap fun e => e ++ ['-']) := by
  rw [Lists] at h
  cases hr : rule.attr a.1 with
  | none =>
    rw [hr] at h
    have hvs : vs = [] := by simpa using h.symm
    rw [hvs]
    rfl
  | some es =>
    rw [hr] at h
    have hes : es.mapM (item a.2) = .ok vs := mapM_item h
    simp only [sourcesText, hes]
    rfl

theorem ascii_sourcesText {vs : List Text} (h : ∀ v ∈ vs, Ascii v) :
    Ascii ((vs.insertionSort atMost).flatMap fun e => e ++ ['-']) := by
  rw [List.flatMap]
  apply Ascii.flatten
  intro s hs
  obtain ⟨v, hv, rfl⟩ := List.mem_map.mp hs
  have hvs : v ∈ vs := (List.perm_insertionSort atMost vs).mem_iff.mp hv
  exact (h v hvs).append (by decide)

theorem insertionSort_atMost_congr {vs ws : List Text} (h : vs.Perm ws) :
    vs.insertionSort atMost = ws.insertionSort atMost := by
  have htotal : ∀ s t : Text, atMost s t ∨ atMost t s := by
    intro s t
    by_cases hst : s = t
    · exact Or.inl (hst ▸ Text.lt_irrefl s)
    · cases hlt : Text.lt t s with
      | false => exact Or.inl hlt
      | true =>
        refine Or.inr (Bool.eq_false_iff.mpr fun hts => ?_)
        have hss := Text.lt_trans hts hlt
        rw [Text.lt_irrefl] at hss
        cases hss
  have hantisymm : ∀ s t : Text, atMost s t → atMost t s → s = t := by
    intro s t hst hts
    by_contra hne
    have hlt := Text.lt_total hne hts
    rw [atMost] at hst
    rw [hst] at hlt
    cases hlt
  have htrans : ∀ s t u : Text, atMost s t → atMost t u → atMost s u := by
    intro s t u hst htu
    refine Bool.eq_false_iff.mpr fun hus => ?_
    by_cases hne : t = u
    · rw [hne, atMost, hus] at hst
      cases hst
    · have htu' : Text.lt t u = true := Text.lt_total (Ne.symm hne) htu
      have hts := Text.lt_trans htu' hus
      rw [atMost, hts] at hst
      cases hst
  have : Std.Total atMost := ⟨htotal⟩
  have : IsTrans Text atMost := ⟨htrans⟩
  have : Std.Antisymm atMost := ⟨hantisymm⟩
  apply List.Perm.eq_of_pairwise' (r := atMost)
  · exact List.pairwise_insertionSort atMost vs
  · exact List.pairwise_insertionSort atMost ws
  · exact (List.perm_insertionSort atMost vs).trans
      (h.trans (List.perm_insertionSort atMost ws).symm)

/-! ## Checksums -/

theorem exists_ruleText {rule : Rule} (h : RuleForm rule) :
    ∃ buf, ruleText rule = .ok buf ∧ Ascii buf := by
  have hparts : ∀ a ∈ ruleAttrs, ∃ s, sourcesText (rule.attr a.1) a.2 = .ok s ∧ Ascii s := by
    intro a ha
    obtain ⟨vs, hvs, -, hascii⟩ := h.entries a ha
    exact ⟨_, sourcesText_eq hvs, ascii_sourcesText hascii⟩
  obtain ⟨parts, hp⟩ := exists_mapM_eq_ok fun a ha => (hparts a ha).imp fun s hs => hs.1
  have hascii : ∀ s ∈ parts, Ascii s := by
    refine forall_of_mapM_eq_ok hp fun a ha s hs => ?_
    obtain ⟨s', hs', hascii⟩ := hparts a ha
    rw [hs] at hs'
    cases hs'
    exact hascii
  refine ⟨_, by rw [ruleText, hp]; rfl, ?_⟩
  refine Ascii.append (Ascii.append (Ascii.append (ascii_decimal _) ?_) ?_) ?_
  · exact Ascii.cons (by decide) (ascii_decimal _)
  · exact Ascii.cons (by decide) (ascii_protocolText h.protocol)
  · exact Ascii.cons (by decide) (Ascii.flatten hascii)

theorem computeRuleHash_ok {rule : Rule} (h : RuleForm rule) :
    ∃ n, computeRuleHash rule = .ok n := by
  obtain ⟨buf, hbuf, hascii⟩ := exists_ruleText h
  obtain ⟨data, hdata⟩ := exists_encodeAscii hascii
  exact ⟨_, by rw [computeRuleHash, hbuf, Py.bind_eq_ok.mpr ⟨buf, rfl, by rw [hdata]; rfl⟩]⟩

theorem computeRuleHash_congr {rule rule' : Rule} (h : RuleForm rule) (h' : RuleForm rule')
    (hslot : slot rule = slot rule') (hsources : sources rule = sources rule') :
    computeRuleHash rule = computeRuleHash rule' := by
  have hparts : ruleAttrs.mapM (fun a => sourcesText (rule.attr a.1) a.2) =
      ruleAttrs.mapM (fun a => sourcesText (rule'.attr a.1) a.2) := by
    refine mapM_congr fun a ha => ?_
    obtain ⟨vs, hvs, hnd, -⟩ := h.entries a ha
    obtain ⟨ws, hws, hnd', -⟩ := h'.entries a ha
    have hperm : vs.Perm ws := by
      rw [List.perm_ext_iff_of_nodup hnd hnd']
      intro v
      rw [hvs.mem_sources ha, hws.mem_sources ha, hsources]
    rw [sourcesText_eq hvs, sourcesText_eq hws, insertionSort_atMost_congr hperm]
  simp only [slot, Slot.mk.injEq] at hslot
  rw [computeRuleHash, computeRuleHash, ruleText, ruleText, hparts, hslot.1, hslot.2.1, hslot.2.2]

/-! ## Rules by their checksums -/

section Hashes

variable {S T : List Rule}

theorem exists_rulesByHash (h : ∀ r ∈ S, RuleForm r) :
    ∃ hashes : Rule → Nat, (∀ r ∈ S, computeRuleHash r = .ok (hashes r)) ∧
      rulesByHash S = .ok (Dict.ofPairs (S.map fun r => (hashes r, r))) := by
  have hok : ∀ r : Rule, ∃ n, r ∈ S → computeRuleHash r = .ok n := by
    intro r
    by_cases hr : r ∈ S
    · exact (computeRuleHash_ok (h r hr)).imp fun n hn _ => hn
    · exact ⟨0, fun hr' => absurd hr' hr⟩
  choose hashes hh using hok
  refine ⟨hashes, hh, ?_⟩
  have hpairs : (S.mapM fun r => do
      let n ← computeRuleHash r
      return (n, r)) = Except.ok (S.map fun r => (hashes r, r)) := by
    refine mapM_eq_map fun r hr => ?_
    rw [hh r hr]
    rfl
  rw [rulesByHash, hpairs]
  rfl

variable {d e : Dict Nat Rule}

theorem lookup_rulesByHash_some (h : ∀ r ∈ S, RuleForm r) (hd : rulesByHash S = .ok d) (n : Nat)
    (r : Rule) : d.lookup n = some r ↔
      Fingerprint.Last computeRuleHash S r ∧ computeRuleHash r = .ok n := by
  obtain ⟨hashes, hh, hd'⟩ := exists_rulesByHash h
  rw [hd] at hd'
  cases hd'
  rw [Dict.lookup_ofPairs_eq_some]
  constructor
  · rintro ⟨before, after, hS, hne⟩
    obtain ⟨before, tail, rfl, rfl, htail⟩ := List.map_eq_append_iff.mp hS
    obtain ⟨r', after, rfl, hr, rfl⟩ := List.map_eq_cons_iff.mp htail
    cases hr
    have hr : computeRuleHash r = .ok (hashes r) := hh r (by simp)
    refine ⟨⟨before, after, rfl, fun r'' hr'' heq => ?_⟩, hr⟩
    rw [hr, hh r'' (by simp [hr''])] at heq
    exact hne (hashes r'', r'') (List.mem_map_of_mem hr'') (Except.ok.inj heq)
  · rintro ⟨⟨before, after, rfl, hne⟩, hn⟩
    have hr : computeRuleHash r = .ok (hashes r) := hh r (by simp)
    have hrn : hashes r = n := Except.ok.inj (hr.symm.trans hn)
    refine ⟨_, _, by rw [List.map_append, List.map_cons, hrn], fun p hp heq => ?_⟩
    obtain ⟨r', hr', rfl⟩ := List.mem_map.mp hp
    have heq' : hashes r' = n := heq
    exact hne r' hr' (by rw [hn, hh r' (by simp [hr']), heq'])

theorem lookup_rulesByHash_none (h : ∀ r ∈ S, RuleForm r) (hd : rulesByHash S = .ok d) (n : Nat) :
    d.lookup n = none ↔ ∀ r ∈ S, computeRuleHash r ≠ .ok n := by
  obtain ⟨hashes, hh, hd'⟩ := exists_rulesByHash h
  rw [hd] at hd'
  cases hd'
  rw [Dict.lookup_ofPairs_eq_none, List.forall_mem_map]
  refine forall₂_congr fun r hr => ?_
  rw [hh r hr]
  simp

theorem mem_rulesOnlyIn (hS : ∀ r ∈ S, RuleForm r) (hT : ∀ r ∈ T, RuleForm r)
    (hd : rulesByHash S = .ok d) (he : rulesByHash T = .ok e) (r : Rule) :
    r ∈ rulesOnlyIn d e ↔ Fingerprint.Only computeRuleHash S T r := by
  have hmem : r ∈ rulesOnlyIn d e ↔ ∃ n, (n ∈ d ∧ n ∉ e) ∧ d.lookup n = some r := by
    simp [rulesOnlyIn, List.mem_filterMap, List.mem_insertionSort, AList.mem_keys]
  rw [hmem]
  constructor
  · rintro ⟨n, ⟨-, hn⟩, hr⟩
    obtain ⟨hlast, hrn⟩ := (lookup_rulesByHash_some hS hd n r).mp hr
    have hnone := (lookup_rulesByHash_none hT he n).mp (AList.lookup_eq_none.mpr hn)
    exact ⟨hlast, fun t ht => hrn ▸ hnone t ht⟩
  · rintro ⟨hlast, hne⟩
    have hrS : r ∈ S := by
      obtain ⟨before, after, rfl, -⟩ := hlast
      simp
    obtain ⟨n, hn⟩ := computeRuleHash_ok (hS r hrS)
    have hr : d.lookup n = some r := (lookup_rulesByHash_some hS hd n r).mpr ⟨hlast, hn⟩
    refine ⟨n, ⟨AList.lookup_isSome.mp (by rw [hr]; rfl), ?_⟩, hr⟩
    rw [← AList.lookup_eq_none, lookup_rulesByHash_none hT he]
    exact fun t ht => hn ▸ hne t ht

end Hashes

end Custodian.RuleHash

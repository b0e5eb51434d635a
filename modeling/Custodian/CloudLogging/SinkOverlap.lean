import Custodian.CloudLogging.Overlap

/-!
# Overlapping log sinks

`LogProjectSinkOverlapFilter` of `c7n_gcp/resources/logging.py`.  The sinks of a
list are references to objects, so that one object is told from another that
looks the same.
-/

namespace Custodian.SinkOverlap

open Py Py.Items Custodian.Tokenizer Custodian.Parser Custodian.Grammar Custodian.ParserSpec
  Custodian.Canonical Custodian.BoundedDnf Custodian.FilterOverlap

/-! ## The filter -/

/-- What the filter reads of a log sink. -/
structure LogSink extends Sink where
  name : Option Text := none
  destination : Option Text := none
  disabled : Bool := false

/-- The reference of a resource. -/
abbrev Ref := Nat

/-- The results of comparisons, under pairs of filters. -/
abbrev Cache := List ((Text × Text) × Overlap)

/-- `(left, right) if left <= right else (right, left)` -/
def orderedPair (left right : Text) : Text × Text :=
  if Text.lt right left then (right, left) else (left, right)

/-- What `_compare` finds for a pair that is not cached. -/
def comparePair (ct : CaseTable) (left right : Text) : Except Failure Overlap := do
  let pair := orderedPair left right
  let result ← compareFilters ct pair.1 pair.2
  -- identical filters overlap unless the filter provably matches nothing
  return if left = right ∧ result = .possible then .overlap else result

/-- `_compare` -/
def compareCached (ct : CaseTable) (left right : Text) (cache : Cache) :
    Except Failure (Overlap × Cache) :=
  match get (orderedPair left right) cache with
  | some result => .ok (result, cache)
  | none => do
    let result ← comparePair ct left right
    return (result, set (orderedPair left right) result cache)

/-- The results of one filter with those of all groups. -/
def compareGroups (ct : CaseTable) (expression : Text) :
    List (Text × List Ref) → Cache → Except Failure (List (List Ref × Overlap) × Cache)
  | [], cache => .ok ([], cache)
  | (other, peers) :: groups, cache => do
    let (result, cache) ← compareCached ct expression other cache
    let (results, cache) ← compareGroups ct expression groups cache
    return ((peers, result) :: results, cache)

/-- A sink with the sinks it matches, and those it possibly matches. -/
structure Match where
  sink : Ref
  peers : List Ref
  possible : List Ref

/-- The other sinks of the groups with a result. -/
def partners (results : List (List Ref × Overlap)) (result : Overlap) (sink : Ref) : List Ref :=
  (results.filter fun r => r.2 = result).flatMap fun r => r.1.filter fun p => p ≠ sink

/-- What is yielded for the sinks of one group. -/
def groupMatches (results : List (List Ref × Overlap)) (sinks : List Ref) : List Match :=
  (sinks.map fun s => ⟨s, partners results .overlap s, partners results .possible s⟩).filter
    fun m => m.peers ≠ [] ∨ m.possible ≠ []

/-- The loop of `_iter_matches` over the groups of one destination. -/
def iterGroups (ct : CaseTable) (exact : Bool) (relationGroups : List (Text × List Ref)) :
    List (Text × List Ref) → Cache → Except Failure (List Match)
  | [], _ => .ok []
  | (expression, sinks) :: groups, cache => do
    let (results, cache) ←
      if exact then .ok ([(sinks, Overlap.overlap)], cache)
      else compareGroups ct expression relationGroups cache
    let rest ← iterGroups ct exact relationGroups groups cache
    return groupMatches results sinks ++ rest

/-- `_iter_matches` -/
def iterMatches (ct : CaseTable) (exact : Bool) (relationGroups : List (Text × List Ref)) :
    Except Failure (List Match) := iterGroups ct exact relationGroups relationGroups []

section Process

variable (ct : CaseTable) (exact : Bool) (sinks : Ref → LogSink)

/-- A sink that is compared, by its destination and effective filter. -/
structure Candidate where
  sink : Ref
  destination : Option Text
  expression : Text

/-- A sink is compared if it is enabled and has an effective filter. -/
def candidateOf (r : Ref) : Option Candidate :=
  if (sinks r).disabled then none
  else (effectiveFilter ct (sinks r).toSink exact).map fun e => ⟨r, (sinks r).destination, e⟩

def candidates (resources : List Ref) : List Candidate :=
  resources.filterMap (candidateOf ct exact sinks)

/-- `destination_groups[destination][expression].append(sink)` -/
def destinationGroups (resources : List Ref) : List (Option Text × List (Text × List Ref)) :=
  updates Candidate.destination
    (fun groups c => set c.expression ((get c.expression (groups.getD [])).getD [] ++ [c.sink])
      (groups.getD []))
    [] (candidates ct exact sinks resources)

/-- What the loop of `process` yields for all destinations. -/
def matchesOf (resources : List Ref) : Except Failure (List Match) := do
  let ms ← (destinationGroups ct exact sinks resources).mapM fun d => iterMatches ct exact d.2
  return ms.flatten

end Process

/-- The annotations of a sink. -/
structure Annotation where
  matchedSinks : List (Option Text)
  possibleMatchedSinks : List (Option Text)

/-- The names that are written for a match. -/
def Match.annotation (sinks : Ref → LogSink) (m : Match) : Annotation where
  matchedSinks := m.peers.map fun p => (sinks p).name
  possibleMatchedSinks := m.possible.map fun p => (sinks p).name

/-- What `process` writes for some matches. -/
def annotate (sinks : Ref → LogSink) (initial : Ref → Option Annotation) (ms : List Match) :
    Ref → Option Annotation :=
  ms.foldl (fun annotations m => Function.update annotations m.sink (some (m.annotation sinks)))
    initial

/-- `process`: the annotations of the sinks, and the sinks returned. -/
def process (ct : CaseTable) (exact : Bool) (sinks : Ref → LogSink)
    (initial : Ref → Option Annotation) (resources : List Ref) :
    Except Failure ((Ref → Option Annotation) × List Ref) := do
  let ms ← matchesOf ct exact sinks resources
  return (annotate sinks initial ms, ms.map Match.sink)

variable {ct : CaseTable} {exact : Bool} {sinks : Ref → LogSink}

/-! ## Comparing -/

theorem orderedPair_comm (a b : Text) : orderedPair a b = orderedPair b a := by
  unfold orderedPair
  by_cases hab : a = b
  · rw [hab]
  · cases hlt : Text.lt b a with
    | false => simp [Text.lt_total (Ne.symm hab) hlt]
    | true =>
      have hno : Text.lt a b = false := by
        by_contra h
        have hirr := Text.lt_trans hlt (by simpa using h)
        rw [Text.lt_irrefl] at hirr
        cases hirr
      simp [hno]

theorem orderedPair_diagonal (a b : Text) :
    (orderedPair a b).1 = (orderedPair a b).2 ↔ a = b := by
  unfold orderedPair
  split
  · exact eq_comm
  · exact Iff.rfl

theorem comparePair_congr {a b a' b' : Text} (h : orderedPair a b = orderedPair a' b') :
    comparePair ct a b = comparePair ct a' b' := by
  unfold comparePair
  simp only [← orderedPair_diagonal a b, ← orderedPair_diagonal a' b', h]

/-- The text is that of a filter. -/
def Parses (e : Text) : Prop := ∃ n, parse e = .ok n

theorem exists_compareFilters {a b : Text} (ha : Parses a) (hb : Parses b) :
    ∃ r, compareFilters ct a b = .ok r := by
  obtain ⟨n, hn⟩ := ha
  obtain ⟨m, hm⟩ := hb
  unfold compareFilters filterDnf
  simp only [hn, hm, bind, Except.bind, pure, Except.pure]
  split <;> exact ⟨_, rfl⟩

theorem exists_comparePair {a b : Text} (ha : Parses a) (hb : Parses b) :
    ∃ r, comparePair ct a b = .ok r := by
  have hpair : Parses (orderedPair a b).1 ∧ Parses (orderedPair a b).2 := by
    unfold orderedPair
    split
    · exact ⟨hb, ha⟩
    · exact ⟨ha, hb⟩
  obtain ⟨r, hr⟩ := @exists_compareFilters ct _ _ hpair.1 hpair.2
  rw [comparePair, hr]
  exact ⟨_, rfl⟩

theorem parses_effectiveFilter {sink : Sink} {e : Text}
    (h : effectiveFilter ct sink false = some e) : Parses e := by
  unfold effectiveFilter at h
  cases hkey : effectiveKey ct sink with
  | error f =>
    rw [hkey] at h
    cases h
  | ok key =>
    rw [hkey] at h
    obtain rfl := Option.some.inj h
    unfold effectiveKey at hkey
    obtain ⟨routed, -, hkey⟩ := bind_eq_ok.mp hkey
    obtain ⟨excluded, -, hkey⟩ := bind_eq_ok.mp hkey
    obtain ⟨key', -, hkey⟩ := bind_eq_ok.mp hkey
    obtain ⟨n, hn, hkey⟩ := bind_eq_ok.mp hkey
    obtain rfl := pure_eq_ok.mp hkey
    exact ⟨n, hn⟩

/-- What a run finds for two effective filters. -/
def verdict (ct : CaseTable) (exact : Bool) (a b : Text) : Overlap :=
  if exact then if a = b then .overlap else .disjoint
  else match comparePair ct a b with
    | .ok r => r
    | .error _ => .disjoint

theorem verdict_comm (a b : Text) : verdict ct exact a b = verdict ct exact b a := by
  unfold verdict
  rw [comparePair_congr (orderedPair_comm a b)]
  simp only [eq_comm]

/-- Every cached result is that of the comparison. -/
def CacheOk (ct : CaseTable) (cache : Cache) : Prop :=
  ∀ a b r, get (orderedPair a b) cache = some r → comparePair ct a b = .ok r

theorem compareCached_eq {a b : Text} {cache : Cache} (hc : CacheOk ct cache) (ha : Parses a)
    (hb : Parses b) : ∃ cache', compareCached ct a b cache = .ok (verdict ct false a b, cache') ∧
      CacheOk ct cache' := by
  obtain ⟨r, hr⟩ := @exists_comparePair ct _ _ ha hb
  have hverdict : verdict ct false a b = r := by simp [verdict, hr]
  unfold compareCached
  cases hget : get (orderedPair a b) cache with
  | some r' =>
    rw [hc a b r' hget] at hr
    rw [hverdict, Except.ok.inj hr]
    exact ⟨cache, rfl, hc⟩
  | none =>
    refine ⟨set (orderedPair a b) r cache, by simp only [hr, hverdict]; rfl, fun x y s hs => ?_⟩
    rw [get_set] at hs
    split at hs
    · rename_i hpair
      rw [comparePair_congr hpair, hr, Option.some.inj hs]
    · exact hc x y s hs

theorem compareGroups_eq {e : Text} (he : Parses e) {gs : List (Text × List Ref)} {cache : Cache}
    (hc : CacheOk ct cache) (hgs : ∀ g ∈ gs, Parses g.1) :
    ∃ cache', compareGroups ct e gs cache =
        .ok (gs.map fun g => (g.2, verdict ct false e g.1), cache') ∧ CacheOk ct cache' := by
  induction gs generalizing cache with
  | nil => exact ⟨cache, rfl, hc⟩
  | cons g gs ih =>
    obtain ⟨hg, hgs⟩ := List.forall_mem_cons.mp hgs
    obtain ⟨cache', hcompare, hc'⟩ := compareCached_eq hc he hg
    obtain ⟨cache'', hrest, hc''⟩ := ih hc' hgs
    refine ⟨cache'', ?_, hc''⟩
    simp only [compareGroups, hcompare, hrest, bind, Except.bind]
    rfl

/-! ## One destination -/

/-- The results that the sinks of one group are paired by. -/
def resultsOf (ct : CaseTable) (exact : Bool) (gs : List (Text × List Ref)) (g : Text × List Ref) :
    List (List Ref × Overlap) :=
  if exact then [(g.2, .overlap)] else gs.map fun g' => (g'.2, verdict ct false g.1 g'.1)

theorem iterGroups_eq {relationGroups gs : List (Text × List Ref)} {cache : Cache}
    (hc : CacheOk ct cache) (hrel : exact = false → ∀ g ∈ relationGroups, Parses g.1)
    (hgs : exact = false → ∀ g ∈ gs, Parses g.1) :
    iterGroups ct exact relationGroups gs cache =
      .ok (gs.flatMap fun g => groupMatches (resultsOf ct exact relationGroups g) g.2) := by
  induction gs generalizing cache with
  | nil => rfl
  | cons g gs ih =>
    have hrest : exact = false → ∀ g' ∈ gs, Parses g'.1 := fun hex g' hg' =>
      hgs hex g' (List.mem_cons_of_mem g hg')
    rw [List.flatMap_cons]
    cases hex : exact with
    | true =>
      subst hex
      simp only [iterGroups, ih hc hrest, if_pos, bind, Except.bind]
      rfl
    | false =>
      subst hex
      obtain ⟨cache', hcompare, hc'⟩ :=
        compareGroups_eq (hgs rfl g List.mem_cons_self) hc (hrel rfl)
      simp only [iterGroups, hcompare, ih hc' hrest, bind, Except.bind]
      rfl

variable {cs : List Candidate}

/-- The groups of the candidates with one destination. -/
def groupsOf (cs : List Candidate) : List (Text × List Ref) :=
  groupOn Candidate.expression Candidate.sink cs

theorem iterMatches_eq (h : exact = false → ∀ c ∈ cs, Parses c.expression) :
    iterMatches ct exact (groupsOf cs) = .ok ((groupsOf cs).flatMap fun g =>
      groupMatches (resultsOf ct exact (groupsOf cs) g) g.2) := by
  have hgs : exact = false → ∀ g ∈ groupsOf cs, Parses g.1 := by
    intro hex g hg
    obtain ⟨c, hc, he⟩ := mem_keys_groupOn.mp (List.mem_map_of_mem hg)
    exact he ▸ h hex c hc
  exact iterGroups_eq (fun _ _ _ hr => by cases hr) hgs hgs

theorem partners_perm {g : Text × List Ref} (hg : g ∈ groupsOf cs) {result : Overlap}
    (hresult : result ≠ .disjoint) (s : Ref) :
    (partners (resultsOf ct exact (groupsOf cs) g) result s).Perm
      (((cs.filter fun c => verdict ct exact g.1 c.expression = result).map Candidate.sink).filter
        fun p => p ≠ s) := by
  obtain ⟨e, refs⟩ := g
  cases exact with
  | true =>
    obtain ⟨-, rfl⟩ := mem_groupOn.mp hg
    cases result with
    | disjoint => exact absurd rfl hresult
    | overlap => simp [partners, resultsOf, verdict, eq_comm]
    | possible => simp [partners, resultsOf, verdict, ite_eq_iff]
  | false =>
    have hgroups : partners (resultsOf ct false (groupsOf cs) (e, refs)) result s =
        (((groupsOf cs).filter fun g => decide (verdict ct false e g.1 = result)).flatMap
          Prod.snd).filter fun p => p ≠ s := by
      rw [partners, resultsOf, if_neg Bool.false_ne_true, List.filter_map, List.flatMap_map,
        List.filter_flatMap]
      rfl
    rw [hgroups]
    exact (perm_flatMap_groupOn (fun k => decide (verdict ct false e k = result)) cs).filter _

theorem mem_groupMatches {results : List (List Ref × Overlap)} {refs : List Ref} {m : Match} :
    m ∈ groupMatches results refs ↔ m.sink ∈ refs ∧
      m.peers = partners results .overlap m.sink ∧ m.possible = partners results .possible m.sink ∧
        (m.peers ≠ [] ∨ m.possible ≠ []) := by
  unfold groupMatches
  rw [List.mem_filter, List.mem_map, decide_eq_true_iff]
  constructor
  · rintro ⟨⟨s, hs, rfl⟩, h⟩
    exact ⟨hs, rfl, rfl, h⟩
  · obtain ⟨s, peers, possible⟩ := m
    rintro ⟨hs, hpeers, hpossible, h⟩
    refine ⟨⟨s, hs, ?_⟩, h⟩
    rw [Match.mk.injEq]
    exact ⟨rfl, hpeers.symm, hpossible.symm⟩

theorem map_sink_groupMatches (results : List (List Ref × Overlap)) (refs : List Ref) :
    (groupMatches results refs).map Match.sink = refs.filter fun s =>
      partners results .overlap s ≠ [] ∨ partners results .possible s ≠ [] := by
  rw [groupMatches, List.filter_map, List.map_map]
  exact List.map_id _

/-! ## Sinks and their partners -/

/-- Two enabled sinks of one destination, and not one sink twice, have a result. -/
def related (ct : CaseTable) (exact : Bool) (sinks : Ref → LogSink) (result : Overlap)
    (a b : Ref) : Bool :=
  match candidateOf ct exact sinks a, candidateOf ct exact sinks b with
  | some c, some c' => decide (c'.destination = c.destination) &&
      decide (verdict ct exact c.expression c'.expression = result) && decide (b ≠ a)
  | _, _ => false

theorem related_comm (result : Overlap) (a b : Ref) :
    related ct exact sinks result a b = related ct exact sinks result b a := by
  unfold related
  cases candidateOf ct exact sinks a with
  | none => cases candidateOf ct exact sinks b <;> rfl
  | some c =>
    cases candidateOf ct exact sinks b with
    | none => rfl
    | some c' =>
      simp only [verdict_comm c.expression, eq_comm (a := c'.destination), ne_comm (a := b)]

theorem candidateOf_eq_some {r : Ref} {c : Candidate} :
    candidateOf ct exact sinks r = some c ↔ (sinks r).disabled = false ∧
      effectiveFilter ct (sinks r).toSink exact = some c.expression ∧
        c.destination = (sinks r).destination ∧ c.sink = r := by
  unfold candidateOf
  cases (sinks r).disabled
  · rw [if_neg Bool.false_ne_true, Option.map_eq_some_iff]
    constructor
    · rintro ⟨e, he, rfl⟩
      exact ⟨rfl, he, rfl, rfl⟩
    · obtain ⟨r', d, e⟩ := c
      rintro ⟨-, he, hd, hr⟩
      refine ⟨e, he, ?_⟩
      rw [Candidate.mk.injEq]
      exact ⟨hr.symm, hd.symm, rfl⟩
  · simp

theorem of_related {result : Overlap} {a b : Ref} (h : related ct exact sinks result a b = true) :
    (sinks a).disabled = false ∧ (sinks b).disabled = false ∧
      (sinks b).destination = (sinks a).destination ∧ b ≠ a := by
  unfold related at h
  split at h
  · rename_i c c' hc hc'
    obtain ⟨ha, -, hda, -⟩ := candidateOf_eq_some.mp hc
    obtain ⟨hb, -, hdb, -⟩ := candidateOf_eq_some.mp hc'
    simp only [Bool.and_eq_true, decide_eq_true_eq] at h
    exact ⟨ha, hb, by rw [← hda, ← hdb, h.1.1], h.2⟩
  · cases h

/-- The partners of a sink with a result, in the order of the list. -/
def relatedTo (ct : CaseTable) (exact : Bool) (sinks : Ref → LogSink) (resources : List Ref)
    (result : Overlap) (a : Ref) : List Ref :=
  resources.filter fun b => related ct exact sinks result a b

theorem relatedTo_of_none {a : Ref} (h : candidateOf ct exact sinks a = none)
    (resources : List Ref) (result : Overlap) : relatedTo ct exact sinks resources result a = [] := by
  rw [relatedTo, List.filter_eq_nil_iff]
  intro b _
  rw [related, h]
  exact Bool.false_ne_true

/-- The sinks with a partner. -/
def withPartner (ct : CaseTable) (exact : Bool) (sinks : Ref → LogSink) (resources : List Ref) :
    List Ref :=
  resources.filter fun a => decide (relatedTo ct exact sinks resources .overlap a ≠ [] ∨
    relatedTo ct exact sinks resources .possible a ≠ [])

variable {resources : List Ref}

theorem map_sink_filter (P : Candidate → Bool) (resources : List Ref) :
    ((candidates ct exact sinks resources).filter P).map Candidate.sink =
      resources.filter fun r => (candidateOf ct exact sinks r).any P := by
  induction resources with
  | nil => rfl
  | cons r resources ih =>
    rw [candidates] at ih ⊢
    cases hc : candidateOf ct exact sinks r with
    | none => rw [List.filterMap_cons_none hc, ih, List.filter_cons_of_neg (by simp [hc])]
    | some c =>
      have hsink := (candidateOf_eq_some.mp hc).2.2.2
      rw [List.filterMap_cons_some hc, List.filter_cons, List.filter_cons, hc, Option.any_some]
      split <;> simp [ih, hsink]

/-- The candidates of one destination. -/
def candidatesOf (ct : CaseTable) (exact : Bool) (sinks : Ref → LogSink) (resources : List Ref)
    (d : Option Text) : List Candidate :=
  (candidates ct exact sinks resources).filter fun c => c.destination = d

theorem mem_candidatesOf {d : Option Text} {c : Candidate} :
    c ∈ candidatesOf ct exact sinks resources d ↔
      (∃ r ∈ resources, candidateOf ct exact sinks r = some c) ∧ c.destination = d := by
  rw [candidatesOf, candidates, List.mem_filter, List.mem_filterMap, decide_eq_true_iff]

theorem destinationGroups_keys_nodup :
    ((destinationGroups ct exact sinks resources).map Prod.fst).Nodup :=
  keys_nodup_updates (d := []) List.nodup_nil _

theorem mem_destinationGroups {e : Option Text × List (Text × List Ref)}
    (he : e ∈ destinationGroups ct exact sinks resources) :
    e.2 = groupsOf (candidatesOf ct exact sinks resources e.1) := by
  have hget : Items.get e.1 (destinationGroups ct exact sinks resources) = some e.2 :=
    (mem_iff_lookup destinationGroups_keys_nodup).mp he
  rw [destinationGroups, get_updates] at hget
  by_cases hnil : (candidates ct exact sinks resources).filter
      (fun c => c.destination = e.1) = []
  · rw [hnil] at hget
    cases hget
  · rw [update_getD (g := fun groups c =>
      set c.expression ((get c.expression groups).getD [] ++ [c.sink]) groups) _ hnil] at hget
    exact (Option.some.inj hget).symm

theorem partners_related {d : Option Text} {g : Text × List Ref}
    (hg : g ∈ groupsOf (candidatesOf ct exact sinks resources d)) {s : Ref} (hs : s ∈ g.2)
    {result : Overlap} (hresult : result ≠ .disjoint) :
    (partners (resultsOf ct exact (groupsOf (candidatesOf ct exact sinks resources d)) g)
      result s).Perm (relatedTo ct exact sinks resources result s) := by
  refine (partners_perm hg hresult s).trans (List.Perm.of_eq ?_)
  obtain ⟨c, hc, he, hcs⟩ := (mem_group_iff hg).mp hs
  obtain ⟨⟨r, -, hr⟩, hd⟩ := mem_candidatesOf.mp hc
  have hself : candidateOf ct exact sinks s = some c := by
    rw [← hcs, (candidateOf_eq_some.mp hr).2.2.2, hr]
  rw [candidatesOf, List.filter_filter, map_sink_filter, List.filter_filter, relatedTo]
  refine List.filter_congr fun b _ => ?_
  unfold related
  rw [hself]
  cases candidateOf ct exact sinks b with
  | none => simp
  | some c' =>
    simp only [Option.any_some, hd, he]
    rw [Bool.and_comm, Bool.and_comm (decide (c'.destination = d))]

/-- The matches of one destination, where no comparison fails. -/
def groupMatchesOf (ct : CaseTable) (exact : Bool) (gs : List (Text × List Ref)) : List Match :=
  gs.flatMap fun g => groupMatches (resultsOf ct exact gs g) g.2

theorem matchesOf_eq : matchesOf ct exact sinks resources =
    .ok ((destinationGroups ct exact sinks resources).flatMap fun e =>
      groupMatchesOf ct exact e.2) := by
  have hiter : ∀ e ∈ destinationGroups ct exact sinks resources,
      iterMatches ct exact e.2 = .ok (groupMatchesOf ct exact e.2) := by
    intro e he
    rw [mem_destinationGroups he]
    refine iterMatches_eq fun hex c hc => ?_
    subst hex
    obtain ⟨⟨r, -, hr⟩, -⟩ := mem_candidatesOf.mp hc
    exact parses_effectiveFilter (candidateOf_eq_some.mp hr).2.1
  rw [matchesOf, mapM_eq_map hiter, ok_bind, List.flatMap_def]
  rfl

theorem peers_of_mem {ms : List Match} (hms : matchesOf ct exact sinks resources = .ok ms)
    {m : Match} (hm : m ∈ ms) :
    m.peers.Perm (relatedTo ct exact sinks resources .overlap m.sink) ∧
      m.possible.Perm (relatedTo ct exact sinks resources .possible m.sink) := by
  rw [matchesOf_eq] at hms
  obtain rfl := Except.ok.inj hms
  obtain ⟨e, he, hm⟩ := List.mem_flatMap.mp hm
  obtain ⟨g, hg, hm⟩ := List.mem_flatMap.mp hm
  obtain ⟨hsink, hpeers, hpossible, -⟩ := mem_groupMatches.mp hm
  rw [mem_destinationGroups he] at hg hpeers hpossible
  rw [hpeers, hpossible]
  exact ⟨partners_related hg hsink (by decide), partners_related hg hsink (by decide)⟩

/-- Whether a sink has a partner, which does not depend on the group that looks for it. -/
def hasPartner (ct : CaseTable) (exact : Bool) (sinks : Ref → LogSink) (resources : List Ref)
    (s : Ref) : Bool :=
  relatedTo ct exact sinks resources .overlap s ≠ [] ∨
    relatedTo ct exact sinks resources .possible s ≠ []

theorem withPartner_eq : withPartner ct exact sinks resources =
    resources.filter (hasPartner ct exact sinks resources) := rfl

theorem perm_ne_nil_iff {α : Type} {l l' : List α} (h : l.Perm l') : l ≠ [] ↔ l' ≠ [] := by
  rw [← List.length_pos_iff, ← List.length_pos_iff, h.length_eq]

theorem map_sink_groupMatchesOf {e : Option Text × List (Text × List Ref)}
    (he : e ∈ destinationGroups ct exact sinks resources) :
    (groupMatchesOf ct exact e.2).map Match.sink =
      (e.2.flatMap Prod.snd).filter (hasPartner ct exact sinks resources) := by
  rw [mem_destinationGroups he, groupMatchesOf, List.map_flatMap, List.filter_flatMap]
  refine List.flatMap_congr fun g hg => ?_
  rw [map_sink_groupMatches]
  refine List.filter_congr fun s hs => decide_eq_decide.mpr ?_
  exact or_congr (perm_ne_nil_iff (partners_related hg hs (by decide)))
    (perm_ne_nil_iff (partners_related hg hs (by decide)))

theorem perm_flatMap_groups {e : Option Text × List (Text × List Ref)}
    (he : e ∈ destinationGroups ct exact sinks resources) :
    (e.2.flatMap Prod.snd).Perm
      ((candidatesOf ct exact sinks resources e.1).map Candidate.sink) := by
  have hall := @perm_flatMap_groupOn _ _ _ _ Candidate.expression Candidate.sink
    (fun _ => true) (candidatesOf ct exact sinks resources e.1)
  rw [List.filter_true, List.filter_true] at hall
  rw [mem_destinationGroups he]
  exact hall

theorem perm_flatMap_candidatesOf :
    ((destinationGroups ct exact sinks resources).flatMap fun e =>
      candidatesOf ct exact sinks resources e.1).Perm (candidates ct exact sinks resources) := by
  have hkeys := perm_flatMap_filter Candidate.destination
    (@destinationGroups_keys_nodup ct exact sinks resources)
    (l := candidates ct exact sinks resources) fun c hc =>
      mem_keys_updates.mpr (Or.inr ⟨c, hc, rfl⟩)
  rwa [List.flatMap_map] at hkeys

theorem filter_map_sink_candidates :
    ((candidates ct exact sinks resources).map Candidate.sink).filter
      (hasPartner ct exact sinks resources) = withPartner ct exact sinks resources := by
  have hall := @map_sink_filter ct exact sinks (fun _ => true) resources
  rw [List.filter_true] at hall
  rw [hall, List.filter_filter, withPartner_eq]
  refine List.filter_congr fun s _ => ?_
  cases hs : candidateOf ct exact sinks s with
  | none => simp [hasPartner, relatedTo_of_none hs]
  | some c => simp

theorem sinks_of_matches {ms : List Match} (hms : matchesOf ct exact sinks resources = .ok ms) :
    (ms.map Match.sink).Perm (withPartner ct exact sinks resources) := by
  rw [matchesOf_eq] at hms
  obtain rfl := Except.ok.inj hms
  rw [List.map_flatMap, List.flatMap_congr fun e he => map_sink_groupMatchesOf he,
    ← List.filter_flatMap, ← filter_map_sink_candidates]
  refine List.Perm.filter _ ((List.Perm.flatMap_left _ fun e he => perm_flatMap_groups he).trans ?_)
  rw [← List.map_flatMap]
  exact perm_flatMap_candidatesOf.map Candidate.sink

/-! ## Annotations -/

theorem annotate_spec (initial : Ref → Option Annotation) (ms : List Match) (r : Ref) :
    (r ∉ ms.map Match.sink ∧ annotate sinks initial ms r = initial r) ∨
      ∃ m ∈ ms, m.sink = r ∧ annotate sinks initial ms r = some (m.annotation sinks) := by
  induction ms using List.reverseRecOn with
  | nil => exact Or.inl ⟨List.not_mem_nil, rfl⟩
  | append_singleton ms m ih =>
    have hlast : annotate sinks initial (ms ++ [m]) = Function.update (annotate sinks initial ms)
        m.sink (some (m.annotation sinks)) := by
      rw [annotate, List.foldl_append]
      rfl
    rw [hlast]
    by_cases hr : r = m.sink
    · refine Or.inr ⟨m, by simp, hr.symm, ?_⟩
      rw [hr, Function.update_self]
    · rw [Function.update_of_ne hr]
      rcases ih with ⟨hno, heq⟩ | ⟨m', hm', hsink, heq⟩
      · refine Or.inl ⟨?_, heq⟩
        rw [List.map_append, List.mem_append, not_or]
        exact ⟨hno, by simpa using hr⟩
      · exact Or.inr ⟨m', List.mem_append_left _ hm', hsink, heq⟩

theorem mem_names_iff {ms : List Match} (hms : matchesOf ct exact sinks resources = .ok ms)
    {result : Overlap} (hresult : result ≠ .disjoint) {names : Match → List Ref}
    (hnames : ∀ m ∈ ms, (names m).Perm (relatedTo ct exact sinks resources result m.sink))
    {a b : Ref} : (∃ m ∈ ms, m.sink = a ∧ b ∈ names m) ↔
      a ∈ resources ∧ b ∈ resources ∧ related ct exact sinks result a b = true := by
  have hsinks := sinks_of_matches hms
  constructor
  · rintro ⟨m, hm, rfl, hb⟩
    have hrel := List.mem_filter.mp ((hnames m hm).mem_iff.mp hb)
    have hresources := (List.mem_filter.mp (hsinks.mem_iff.mp (List.mem_map_of_mem hm))).1
    exact ⟨hresources, hrel.1, hrel.2⟩
  · rintro ⟨ha, hb, hrel⟩
    have hmem : b ∈ relatedTo ct exact sinks resources result a := List.mem_filter.mpr ⟨hb, hrel⟩
    have hpartner : hasPartner ct exact sinks resources a = true := by
      rw [hasPartner, decide_eq_true_iff]
      cases result with
      | disjoint => exact absurd rfl hresult
      | overlap => exact Or.inl (List.ne_nil_of_mem hmem)
      | possible => exact Or.inr (List.ne_nil_of_mem hmem)
    have hkept : a ∈ withPartner ct exact sinks resources := List.mem_filter.mpr ⟨ha, hpartner⟩
    obtain ⟨m, hm, rfl⟩ := List.mem_map.mp (hsinks.mem_iff.mpr hkept)
    exact ⟨m, hm, rfl, (hnames m hm).mem_iff.mpr hmem⟩

theorem mem_peers_iff {ms : List Match} (hms : matchesOf ct exact sinks resources = .ok ms)
    {a b : Ref} :
    ((∃ m ∈ ms, m.sink = a ∧ b ∈ m.peers) ↔
        a ∈ resources ∧ b ∈ resources ∧ related ct exact sinks .overlap a b = true) ∧
      ((∃ m ∈ ms, m.sink = a ∧ b ∈ m.possible) ↔
        a ∈ resources ∧ b ∈ resources ∧ related ct exact sinks .possible a b = true) :=
  ⟨mem_names_iff hms (by decide) fun _ hm => (peers_of_mem hms hm).1,
    mem_names_iff hms (by decide) fun _ hm => (peers_of_mem hms hm).2⟩

theorem matches_perm {resources' : List Ref} (h : resources.Perm resources') {ms ms' : List Match}
    (hms : matchesOf ct exact sinks resources = .ok ms)
    (hms' : matchesOf ct exact sinks resources' = .ok ms') :
    (ms.map Match.sink).Perm (ms'.map Match.sink) ∧ ∀ m ∈ ms, ∀ m' ∈ ms', m'.sink = m.sink →
      m.peers.Perm m'.peers ∧ m.possible.Perm m'.possible := by
  have hrel (result : Overlap) (a : Ref) : (relatedTo ct exact sinks resources result a).Perm
      (relatedTo ct exact sinks resources' result a) := h.filter _
  have hnil (result : Overlap) (a : Ref) : relatedTo ct exact sinks resources result a ≠ [] ↔
      relatedTo ct exact sinks resources' result a ≠ [] := perm_ne_nil_iff (hrel result a)
  constructor
  · refine (sinks_of_matches hms).trans (.trans ?_ (sinks_of_matches hms').symm)
    have hpartner := h.filter fun a => decide (relatedTo ct exact sinks resources .overlap a ≠ [] ∨
      relatedTo ct exact sinks resources .possible a ≠ [])
    refine hpartner.trans (List.Perm.of_eq (List.filter_congr fun a _ => ?_))
    simp only [hnil]
  · intro m hm m' hm' hsink
    have hp := peers_of_mem hms hm
    have hp' := peers_of_mem hms' hm'
    rw [hsink] at hp'
    exact ⟨hp.1.trans ((hrel _ _).trans hp'.1.symm), hp.2.trans ((hrel _ _).trans hp'.2.symm)⟩

/-- **Sink overlap is symmetric.**  A run raises nothing, returns exactly the sinks
that have a partner and writes the names of the partners of each.  Being matched,
or possibly matched, is a symmetric relation between two enabled sinks of one
destination, and the order of the list does not matter; nor does which filter is
compared with which, nor the order of operands within one. -/
theorem sink_overlap_symmetric (ct : CaseTable) (exact : Bool) (sinks : Ref → LogSink)
    (initial : Ref → Option Annotation) (resources : List Ref) :
    (∃ ms annotations, process ct exact sinks initial resources =
        .ok (annotations, ms.map Match.sink) ∧ matchesOf ct exact sinks resources = .ok ms ∧
      (∀ r, (r ∉ ms.map Match.sink ∧ annotations r = initial r) ∨
        ∃ m ∈ ms, m.sink = r ∧ annotations r = some (m.annotation sinks)) ∧
      (∀ a b, (∃ m ∈ ms, m.sink = a ∧ b ∈ m.peers) ↔ ∃ m ∈ ms, m.sink = b ∧ a ∈ m.peers) ∧
      (∀ a b, (∃ m ∈ ms, m.sink = a ∧ b ∈ m.possible) ↔
        ∃ m ∈ ms, m.sink = b ∧ a ∈ m.possible) ∧
      (∀ m ∈ ms, ∀ b ∈ m.peers ++ m.possible, b ≠ m.sink ∧ (sinks m.sink).disabled = false ∧
        (sinks b).disabled = false ∧ (sinks b).destination = (sinks m.sink).destination) ∧
      (ms.map Match.sink).Perm (resources.filter fun a => resources.any fun b =>
        related ct exact sinks .overlap a b || related ct exact sinks .possible a b) ∧
      ∀ resources', resources.Perm resources' →
        ∃ ms', matchesOf ct exact sinks resources' = .ok ms' ∧
          (ms.map Match.sink).Perm (ms'.map Match.sink) ∧ ∀ m ∈ ms, ∀ m' ∈ ms',
            m'.sink = m.sink → m.peers.Perm m'.peers ∧ m.possible.Perm m'.possible) ∧
    (∀ a b r, compareFilters ct a b = .ok r ↔ compareFilters ct b a = .ok r) ∧
    ∀ a a' b n n', parse a = .ok n → parse a' = .ok n' → Reordered n n' →
      compareFilters ct a b = compareFilters ct a' b := by
  refine ⟨?_, compare_symm, fun a a' b n n' ha ha' h => compare_reordered ha ha' h b⟩
  obtain ⟨ms, hms⟩ : ∃ ms, matchesOf ct exact sinks resources = .ok ms := ⟨_, matchesOf_eq⟩
  refine ⟨ms, annotate sinks initial ms, by rw [process, hms, ok_bind]; rfl, hms,
    annotate_spec initial ms, fun a b => ?_, fun a b => ?_, fun m hm b hb => ?_, ?_,
    fun resources' h => ?_⟩
  · rw [(mem_peers_iff hms).1, (mem_peers_iff hms).1, related_comm, and_left_comm]
  · rw [(mem_peers_iff hms).2, (mem_peers_iff hms).2, related_comm, and_left_comm]
  · have hrel : ∃ result, related ct exact sinks result m.sink b = true := by
      rcases List.mem_append.mp hb with hb | hb
      · exact ⟨_, ((mem_peers_iff hms).1.mp ⟨m, hm, rfl, hb⟩).2.2⟩
      · exact ⟨_, ((mem_peers_iff hms).2.mp ⟨m, hm, rfl, hb⟩).2.2⟩
    obtain ⟨result, hrel⟩ := hrel
    obtain ⟨ha, hb, hd, hne⟩ := of_related hrel
    exact ⟨hne, ha, hb, hd⟩
  · refine (sinks_of_matches hms).trans (List.Perm.of_eq (List.filter_congr fun a _ => ?_))
    rw [Bool.eq_iff_iff, decide_eq_true_iff, List.any_eq_true]
    simp only [relatedTo, ne_eq, List.filter_eq_nil_iff, not_forall, not_not, Bool.or_eq_true,
      and_or_left, exists_or, exists_prop]
  · obtain ⟨ms', hms'⟩ : ∃ ms', matchesOf ct exact sinks resources' = .ok ms' := ⟨_, matchesOf_eq⟩
    exact ⟨ms', hms', matches_perm h hms hms'⟩

/-- A search term of one letter. -/
def letter (c : Char) : Node := .term [⟨.word, [c]⟩]

theorem parse_letters {s : Text} {a b : Char}
    (h : tokenize s = [⟨.word, [a]⟩] ++ orToken :: [⟨.word, [b]⟩]) :
    parse s = .ok (.group .or [letter a, letter b]) := by
  have hleaf (c : Char) : Reads ReadsPredicate .unary [⟨.word, [c]⟩] [letter c] :=
    .leaf (.term (.single (Or.inl rfl)))
  have hread : ReadsTokens (tokenize s) (.group .or [letter a, letter b]) :=
    ⟨[.group .or [letter a, letter b]], h ▸ .andOne (.orCons (hleaf a) (.orOne (hleaf b))), rfl⟩
  rw [parse_of_reads hread, flatten_group]
  simp only [List.map_cons, List.map_nil, letter, flatten_term]
  rfl

theorem sink_overlap_symmetric_swapped :
    parse "a OR b".toList = .ok (.group .or [letter 'a', letter 'b']) ∧
      compareFilters asciiTable "a OR b".toList "c".toList =
        compareFilters asciiTable "b OR a".toList "c".toList := by
  have hab := parse_letters (s := "a OR b".toList) (a := 'a') (b := 'b') (by decide +kernel)
  have hba := parse_letters (s := "b OR a".toList) (a := 'b') (b := 'a') (by decide +kernel)
  exact ⟨hab, (sink_overlap_symmetric asciiTable true (fun _ => {}) (fun _ => none) []).2.2 _ _ _ _ _
    hab hba (.permute (List.Perm.swap _ _ []))⟩

end Custodian.SinkOverlap

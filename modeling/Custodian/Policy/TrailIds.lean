import Custodian.Lib.Items
import Custodian.Lib.Json

/-!
# The ids of a trail event

`CloudWatchEvents.get_trail_ids` of `c7n/cwe.py` finds the resource ids of an api call by the
entries of a policy mode: the name of an entry of `trail_events`, or an event, a source and an
expression.  A name is a shortcut for one call, but the loop asks only whether the event has some
shortcut: any name in the list then answers with the shortcut of the event.
-/

namespace Custodian.TrailIds

open Py

/-! ## Subscriptions -/

/-- An item of `trail_events`; `event` is its key unless it has a member of that name. -/
structure TrailEvent where
  event : Text
  source : Text
  ids : Text

/-- The items whose event is their key. -/
def trailEvent (name source ids : String) : Text × TrailEvent :=
  (name.toList, ⟨name.toList, source.toList, ids.toList⟩)

def trailEvents : List (Text × TrailEvent) :=
  [trailEvent "ConsoleLogin" "signin.amazonaws.com" "userIdentity.arn",
   trailEvent "CreateAutoScalingGroup" "autoscaling.amazonaws.com"
     "requestParameters.autoScalingGroupName",
   trailEvent "UpdateAutoScalingGroup" "autoscaling.amazonaws.com"
     "requestParameters.autoScalingGroupName",
   trailEvent "CreateBucket" "s3.amazonaws.com" "requestParameters.bucketName",
   trailEvent "CreateCluster" "redshift.amazonaws.com" "requestParameters.clusterIdentifier",
   trailEvent "CreateLoadBalancer" "elasticloadbalancing.amazonaws.com"
     "requestParameters.loadBalancerName",
   trailEvent "CreateLoadBalancerPolicy" "elasticloadbalancing.amazonaws.com"
     "requestParameters.loadBalancerName",
   trailEvent "CreateDBInstance" "rds.amazonaws.com" "requestParameters.dBInstanceIdentifier",
   trailEvent "CreateVolume" "ec2.amazonaws.com" "responseElements.volumeId",
   trailEvent "SetLoadBalancerPoliciesOfListener" "elasticloadbalancing.amazonaws.com"
     "requestParameters.loadBalancerName",
   trailEvent "CreateElasticsearchDomain" "es.amazonaws.com" "requestParameters.domainName",
   trailEvent "CreateTable" "dynamodb.amazonaws.com" "requestParameters.tableName",
   ("CreateFunction".toList, ⟨"CreateFunction20150331".toList, "lambda.amazonaws.com".toList,
     "requestParameters.functionName".toList⟩),
   trailEvent "RunInstances" "ec2.amazonaws.com"
     "responseElements.instancesSet.items[].instanceId"]

/-- An entry that is a map; an empty expression does not compile. -/
structure Subscription where
  event : Text
  source : Text
  ids : Text
  ids_ne : ids ≠ []

/-- An item of `events` that the mode's schema and `validate` accept. -/
inductive Entry where
  | shortcut (name : Text) (h : (Items.get name trailEvents).isSome)
  | subscription (e : Subscription)

/-- A trail event, with the members of its detail that are read. -/
structure Event where
  body : Json
  detail : Json
  eventName : Text
  eventSource : Text
  detail_eq : body.index "detail".toList = .ok detail
  eventName_eq : detail.index "eventName".toList = .ok (.str eventName)
  eventSource_eq : detail.index "eventSource".toList = .ok (.str eventSource)

def detailDot : Text := "detail.".toList

/-- An expression, and the value it is evaluated on. -/
inductive Query where
  | onEvent (expression : Text)
  | onDetail (expression : Text)
  deriving DecidableEq, Repr

/-- The expression from the event on. -/
def Query.expression : Query → Text
  | .onEvent e => e
  | .onDetail e => detailDot ++ e

def TrailEvent.query (v : TrailEvent) : Query := .onEvent (detailDot ++ v.ids)

/-- Users may write the expression with or without the detail. -/
def Subscription.query (e : Subscription) : Query :=
  if detailDot.isPrefixOf e.ids then .onEvent e.ids else .onDetail e.ids

/-- The query of an entry whose event and source are the event's. -/
def Entry.queryFor (x : Event) : Entry → Option Query
  | .shortcut name _ => (Items.get name trailEvents).bind fun v =>
    if v.event = x.eventName ∧ v.source = x.eventSource then some v.query else none
  | .subscription e =>
    if e.event = x.eventName ∧ e.source = x.eventSource then some e.query else none

def Entry.isFor (x : Event) (e : Entry) : Bool := (e.queryFor x).isSome

def Entry.isShortcut : Entry → Bool
  | .shortcut _ _ => true
  | .subscription _ => false

/-! ## The loop -/

/-- `CloudWatchEvents.match(event)` -/
def matchEvent (x : Event) : Option TrailEvent := Items.get x.eventName trailEvents

section Search

-- `jmespath_search`, which may raise
variable (search : Text → Json → Except Exn Json)

def Query.run (x : Event) : Query → Except Exn Json
  | .onEvent e => search e x.body
  | .onDetail e => search e x.detail

/-- The loop is left: there are ids, or the search raised. -/
def ends : Except Exn Json → Bool
  | .ok ids => ids.truthy
  | .error _ => true

/-- The loop over the entries; kept is the query that `resource_ids` was found by. -/
def trailQuery (x : Event) : List Entry → Option Query → Option Query
  | [], kept => kept
  | .shortcut _ _ :: rest, kept =>
    -- the name of the entry is not looked at
    match matchEvent x with
    | some v => some v.query
    | none => trailQuery x rest kept
  | .subscription e :: rest, kept =>
    if x.eventName ≠ e.event then trailQuery x rest kept
    else if x.eventSource ≠ e.source then trailQuery x rest kept
    else if ends (e.query.run search x) then some e.query
    else trailQuery x rest (some e.query)

/-- What `resource_ids` is when found by a query; `()` at first. -/
def idsOf (x : Event) : Option Query → Except Exn Json
  | none => .ok (.arr [])
  | some q => q.run search x

def getTrailIds (x : Event) (events : List Entry) : Except Exn Json :=
  idsOf search x (trailQuery search x events none)

/-- The expression used is that of an entry for the event, and the entries for other events may be
anywhere. -/
structure Extracts (x : Event) (events : List Entry) : Prop where
  own : ∀ q, trailQuery search x events none = some q →
    ∃ e ∈ events, (e.queryFor x).map Query.expression = some q.expression
  used : (∃ e ∈ events, e.isFor x = true) → trailQuery search x events none ≠ none
  nothing : (∀ e ∈ events, e.isFor x = false) → getTrailIds search x events = .ok (.arr [])
  anywhere : ∀ others : List Entry, others.Perm events →
    others.filter (Entry.isFor x) = events.filter (Entry.isFor x) →
    getTrailIds search x others = getTrailIds search x events

/-- The first map for the event that finds something, before any name. -/
def firstFound (x : Event) : List Entry → Option Query
  | [] => none
  | .shortcut _ _ :: _ => none
  | .subscription e :: rest =>
    if (Entry.subscription e).isFor x && ends (e.query.run search x) then some e.query
    else firstFound x rest

/-- What the entries for other events do not disturb. -/
def Undisturbed (x : Event) (events : List Entry) : Prop :=
  match matchEvent x with
  | none => (∃ e ∈ events, e.isFor x = true) →
    ∃ e ∈ events, e.isShortcut = false ∧ e.isFor x = true
  | some v => (∀ e ∈ events, e.isShortcut = true → e.isFor x = true) ∨
    ((∃ e ∈ events, (e.queryFor x).map Query.expression = some v.query.expression) ∨
      firstFound search x events ≠ none) ∧
    idsOf search x (some ((firstFound search x (events.filter (Entry.isFor x))).getD v.query)) =
      idsOf search x (some v.query)

/-! ## Entries -/

theorem event_of_lookup {name : Text} {v : TrailEvent} (h : Items.get name trailEvents = some v)
    (hkey : (Items.get v.event trailEvents).isSome) : v.event = name := by
  have hall : ∀ e ∈ trailEvents, (Items.get e.2.event trailEvents).isSome → e.2.event = e.1 := by
    decide
  exact hall (name, v) (Items.mem_of_get h) hkey

theorem queryFor_shortcut {x : Event} {name : Text} {h : (Items.get name trailEvents).isSome}
    {v : TrailEvent} (hv : matchEvent x = some v) (hfor : (Entry.shortcut name h).isFor x = true) :
    (Entry.shortcut name h).queryFor x = some v.query := by
  obtain ⟨w, hw⟩ := Option.isSome_iff_exists.mp h
  rw [Entry.isFor, Entry.queryFor, hw, Option.bind_some] at hfor
  rw [Entry.queryFor, hw, Option.bind_some]
  split at hfor
  case isFalse => simp at hfor
  case isTrue hx =>
    rw [if_pos hx]
    rw [matchEvent, ← hx.1] at hv
    have hname : w.event = name := event_of_lookup hw (by rw [hv]; rfl)
    rw [hname, hw] at hv
    rw [Option.some.inj hv]

theorem subscription_isFor {x : Event} {e : Subscription} :
    (Entry.subscription e).isFor x = true ↔ e.event = x.eventName ∧ e.source = x.eventSource := by
  rw [Entry.isFor, Entry.queryFor]
  split <;> simp [*]

theorem queryFor_subscription {x : Event} {e : Subscription}
    (h : (Entry.subscription e).isFor x = true) :
    (Entry.subscription e).queryFor x = some e.query := by
  rw [Entry.queryFor, if_pos (subscription_isFor.mp h)]

theorem queryFor_isSome {x : Event} {e : Entry} {q : Query} (h : e.queryFor x = some q) :
    e.isFor x = true := by
  rw [Entry.isFor, h]
  rfl

/-! ## The expression that is used -/

theorem trailQuery_shortcut (x : Event) (name : Text) (h : (Items.get name trailEvents).isSome)
    (rest : List Entry) (kept : Option Query) :
    trailQuery search x (.shortcut name h :: rest) kept =
      (matchEvent x).elim (trailQuery search x rest kept) fun v => some v.query := by
  rw [trailQuery]
  cases matchEvent x <;> rfl

theorem trailQuery_subscription (x : Event) (e : Subscription) (rest : List Entry)
    (kept : Option Query) :
    trailQuery search x (.subscription e :: rest) kept =
      if (Entry.subscription e).isFor x then
        if ends (e.query.run search x) then some e.query
        else trailQuery search x rest (some e.query)
      else trailQuery search x rest kept := by
  rw [trailQuery]
  by_cases hfor : (Entry.subscription e).isFor x = true
  · obtain ⟨hevent, hsource⟩ := subscription_isFor.mp hfor
    rw [if_pos hfor, if_neg (by simp [hevent]), if_neg (by simp [hsource])]
  · rw [if_neg hfor]
    rw [subscription_isFor, not_and] at hfor
    by_cases hevent : e.event = x.eventName
    · rw [if_neg (by simp [hevent]), if_pos (fun h => hfor hevent h.symm)]
    · rw [if_pos (fun h => hevent h.symm)]

/-- An entry that the loop passes over. -/
def Entry.Passed (x : Event) (e : Entry) : Prop :=
  if e.isShortcut then matchEvent x = none else e.isFor x = false

theorem trailQuery_of_passed {x : Event} {e : Entry} (h : e.Passed x) (rest : List Entry)
    (kept : Option Query) : trailQuery search x (e :: rest) kept = trailQuery search x rest kept := by
  cases e with
  | shortcut name hname =>
    have hnone : matchEvent x = none := h
    rw [trailQuery_shortcut, hnone, Option.elim_none]
  | subscription e =>
    have hfor : (Entry.subscription e).isFor x = false := h
    rw [trailQuery_subscription, if_neg (by simp [hfor])]

theorem trailQuery_filter {x : Event} {p : Entry → Bool} {events : List Entry}
    (h : ∀ e ∈ events, p e = false → e.Passed x) (kept : Option Query) :
    trailQuery search x (events.filter p) kept = trailQuery search x events kept := by
  induction events generalizing kept with
  | nil => rfl
  | cons e rest ih =>
    rw [List.forall_mem_cons] at h
    cases hp : p e with
    | false =>
      rw [List.filter_cons_of_neg (by simp [hp]), ih h.2, trailQuery_of_passed search (h.1 hp)]
    | true =>
      rw [List.filter_cons_of_pos hp]
      cases e with
      | shortcut name hname => rw [trailQuery_shortcut, trailQuery_shortcut, ih h.2]
      | subscription e => rw [trailQuery_subscription, trailQuery_subscription, ih h.2, ih h.2]

theorem trailQuery_eq {x : Event} {v : TrailEvent} (hv : matchEvent x = some v)
    {events : List Entry} (h : ∃ e ∈ events, e.isShortcut = true) (kept : Option Query) :
    trailQuery search x events kept = some ((firstFound search x events).getD v.query) := by
  induction events generalizing kept with
  | nil => simp at h
  | cons e rest ih =>
    cases e with
    | shortcut name hname => rw [trailQuery_shortcut, hv, Option.elim_some, firstFound]; rfl
    | subscription e =>
      have hrest : ∃ e ∈ rest, e.isShortcut = true := by
        obtain ⟨e', he', hs⟩ := h
        rcases List.mem_cons.mp he' with rfl | he'
        · simp [Entry.isShortcut] at hs
        · exact ⟨e', he', hs⟩
      rw [trailQuery_subscription, firstFound, ih hrest, ih hrest]
      split <;> split <;> simp_all

theorem firstFound_mem {x : Event} {q : Query} {events : List Entry}
    (h : firstFound search x events = some q) : ∃ e ∈ events, e.queryFor x = some q := by
  induction events with
  | nil => simp [firstFound] at h
  | cons e rest ih =>
    cases e with
    | shortcut name hname => simp [firstFound] at h
    | subscription e =>
      rw [firstFound] at h
      split at h
      case isTrue hfound =>
        rw [Bool.and_eq_true] at hfound
        exact ⟨_, List.mem_cons_self, (queryFor_subscription hfound.1).trans h⟩
      case isFalse =>
        obtain ⟨e', he', hq⟩ := ih h
        exact ⟨e', List.mem_cons_of_mem _ he', hq⟩

theorem firstFound_of_others {x : Event} {others : List Entry}
    (h : ∀ e ∈ others, e.isFor x = false) : firstFound search x others = none := by
  cases hq : firstFound search x others with
  | none => rfl
  | some q =>
    obtain ⟨e, he, hfor⟩ := firstFound_mem search hq
    have := queryFor_isSome hfor
    rw [h e he] at this
    cases this

theorem firstFound_append {x : Event} {events others : List Entry}
    (h : ∀ e ∈ others, e.isFor x = false) :
    firstFound search x (events ++ others) = firstFound search x events := by
  induction events with
  | nil => exact firstFound_of_others search h
  | cons e rest ih =>
    cases e with
    | shortcut name hname => rfl
    | subscription e => rw [List.cons_append, firstFound, firstFound, ih]

theorem firstFound_filter {x : Event} {q : Query} {events : List Entry}
    (h : firstFound search x events = some q) :
    firstFound search x (events.filter (Entry.isFor x)) = some q := by
  induction events with
  | nil => exact h
  | cons e rest ih =>
    cases e with
    | shortcut name hname => simp [firstFound] at h
    | subscription e =>
      rw [firstFound] at h
      cases hfor : (Entry.subscription e).isFor x with
      | false =>
        rw [hfor, Bool.false_and, if_neg Bool.false_ne_true] at h
        rw [List.filter_cons_of_neg (by simp [hfor]), ih h]
      | true =>
        rw [List.filter_cons_of_pos hfor, firstFound]
        rw [hfor, Bool.true_and] at h ⊢
        split at h
        case isTrue hends => rw [if_pos hends, h]
        case isFalse hends => rw [if_neg hends, ih h]

theorem trailQuery_mem {x : Event} {q : Query} {events : List Entry} {kept : Option Query}
    (h : trailQuery search x events kept = some q) :
    kept = some q ∨ (∃ e ∈ events, e.isShortcut = false ∧ e.queryFor x = some q) ∨
      ∃ e ∈ events, e.isShortcut = true ∧ ∃ v, matchEvent x = some v ∧ v.query = q := by
  induction events generalizing kept with
  | nil => exact Or.inl h
  | cons e rest ih =>
    have later : ∀ kept', trailQuery search x rest kept' = some q → kept' = some q ∨
        (∃ e' ∈ e :: rest, e'.isShortcut = false ∧ e'.queryFor x = some q) ∨
        ∃ e' ∈ e :: rest, e'.isShortcut = true ∧ ∃ v, matchEvent x = some v ∧ v.query = q := by
      intro kept' h'
      rcases ih h' with hkept | ⟨e', he', hq⟩ | ⟨e', he', hq⟩
      · exact Or.inl hkept
      · exact Or.inr (Or.inl ⟨e', List.mem_cons_of_mem _ he', hq⟩)
      · exact Or.inr (Or.inr ⟨e', List.mem_cons_of_mem _ he', hq⟩)
    cases e with
    | shortcut name hname =>
      rw [trailQuery_shortcut] at h
      cases hv : matchEvent x with
      | none =>
        rw [hv, Option.elim_none] at h
        exact hv ▸ later kept h
      | some v =>
        rw [hv, Option.elim_some] at h
        exact Or.inr (Or.inr ⟨_, List.mem_cons_self, rfl, v, rfl, Option.some.inj h⟩)
    | subscription e =>
      rw [trailQuery_subscription] at h
      split at h
      case isFalse hfor => exact later kept h
      case isTrue hfor =>
        have here : some e.query = some q →
            ∃ e' ∈ Entry.subscription e :: rest, e'.isShortcut = false ∧ e'.queryFor x = some q :=
          fun hq => ⟨_, List.mem_cons_self, rfl, (queryFor_subscription hfor).trans hq⟩
        split at h
        case isTrue hends => exact Or.inr (Or.inl (here h))
        case isFalse hends => exact (later _ h).elim (fun hq => Or.inr (Or.inl (here hq))) Or.inr

theorem trailQuery_ne_none {x : Event} {events : List Entry} {kept : Option Query}
    (h : kept ≠ none ∨ ∃ e ∈ events, e.isShortcut = false ∧ e.isFor x = true) :
    trailQuery search x events kept ≠ none := by
  induction events generalizing kept with
  | nil => simpa [trailQuery] using h
  | cons e rest ih =>
    have later : e.isShortcut = true ∨ e.isFor x = false → trailQuery search x rest kept ≠ none := by
      intro hskip
      apply ih
      rcases h with hkept | ⟨e', he', hplain, hfor⟩
      · exact Or.inl hkept
      · rcases List.mem_cons.mp he' with rfl | he'
        · simp [hplain, hfor] at hskip
        · exact Or.inr ⟨e', he', hplain, hfor⟩
    cases e with
    | shortcut name hname =>
      rw [trailQuery_shortcut]
      cases matchEvent x with
      | none => exact later (Or.inl rfl)
      | some v => exact Option.some_ne_none _
    | subscription e =>
      rw [trailQuery_subscription]
      split
      case isFalse hfor => exact later (Or.inr (by simpa using hfor))
      case isTrue hfor =>
        split
        · exact Option.some_ne_none _
        · exact ih (Or.inl (Option.some_ne_none _))

/-! ## Lists of entries -/

theorem ids_eq_of_passed {x : Event} {events others : List Entry}
    (h : ∀ e ∈ events, e.isFor x = false → e.Passed x) (hperm : others.Perm events)
    (hfilter : others.filter (Entry.isFor x) = events.filter (Entry.isFor x)) :
    getTrailIds search x others = getTrailIds search x events := by
  have hothers : ∀ e ∈ others, e.isFor x = false → e.Passed x :=
    fun e he => h e (hperm.mem_iff.mp he)
  rw [getTrailIds, getTrailIds, ← trailQuery_filter search hothers, hfilter,
    trailQuery_filter search h]

theorem Extracts.of_own {x : Event} {events : List Entry}
    (own : ∀ q, trailQuery search x events none = some q →
      ∃ e ∈ events, (e.queryFor x).map Query.expression = some q.expression)
    (used : (∃ e ∈ events, e.isFor x = true) → trailQuery search x events none ≠ none)
    (anywhere : ∀ others : List Entry, others.Perm events →
      others.filter (Entry.isFor x) = events.filter (Entry.isFor x) →
      getTrailIds search x others = getTrailIds search x events) : Extracts search x events := by
  refine ⟨own, used, fun hnone => ?_, anywhere⟩
  rw [getTrailIds]
  cases hq : trailQuery search x events none with
  | none => rfl
  | some q =>
    obtain ⟨e, he, hexpression⟩ := own q hq
    obtain ⟨q', hq', -⟩ := Option.map_eq_some_iff.mp hexpression
    have hfor := queryFor_isSome hq'
    rw [hnone e he] at hfor
    cases hfor

theorem extracts_iff_of_none {x : Event} (hv : matchEvent x = none) {events : List Entry} :
    Extracts search x events ↔ ((∃ e ∈ events, e.isFor x = true) →
      ∃ e ∈ events, e.isShortcut = false ∧ e.isFor x = true) := by
  have hmem : ∀ q, trailQuery search x events none = some q →
      ∃ e ∈ events, e.isShortcut = false ∧ e.queryFor x = some q := by
    intro q hq
    rcases trailQuery_mem search hq with h | h | ⟨e, he, hs, v, hv', -⟩
    · cases h
    · exact h
    · simp [hv] at hv'
  constructor
  · intro h hfor
    obtain ⟨q, hq⟩ := Option.ne_none_iff_exists'.mp (h.used hfor)
    obtain ⟨e, he, hs, hq'⟩ := hmem q hq
    exact ⟨e, he, hs, queryFor_isSome hq'⟩
  · intro h
    refine Extracts.of_own search ?_ ?_ ?_
    · intro q hq
      obtain ⟨e, he, -, hq'⟩ := hmem q hq
      exact ⟨e, he, by rw [hq']; rfl⟩
    · exact fun hfor => trailQuery_ne_none search (Or.inr (h hfor))
    · intro others
      apply ids_eq_of_passed search
      intro e he hfor
      rw [Entry.Passed]
      split
      · exact hv
      · exact hfor

theorem extracts_of_own_shortcuts {x : Event} {v : TrailEvent} (hv : matchEvent x = some v)
    {events : List Entry} (h : ∀ e ∈ events, e.isShortcut = true → e.isFor x = true) :
    Extracts search x events := by
  refine Extracts.of_own search ?_ ?_ ?_
  · intro q hq
    rcases trailQuery_mem search hq with hnone | ⟨e, he, -, hq'⟩ | ⟨e, he, hs, v', hv', rfl⟩
    · cases hnone
    · exact ⟨e, he, by rw [hq']; rfl⟩
    · refine ⟨e, he, ?_⟩
      cases e with
      | subscription e => cases hs
      | shortcut name hname => rw [queryFor_shortcut hv' (h _ he hs)]; rfl
  · rintro ⟨e, he, hfor⟩
    by_cases hs : ∃ e ∈ events, e.isShortcut = true
    · rw [trailQuery_eq search hv hs]
      exact Option.some_ne_none _
    · have hplain : e.isShortcut = false := by
        cases hse : e.isShortcut with
        | false => rfl
        | true => exact absurd ⟨e, he, hse⟩ hs
      exact trailQuery_ne_none search (Or.inr ⟨e, he, hplain, hfor⟩)
  · intro others
    apply ids_eq_of_passed search
    intro e he hfor
    rw [Entry.Passed]
    split
    case isTrue hs => rw [h e he hs] at hfor; cases hfor
    case isFalse => exact hfor

section Other

variable {x : Event} {v : TrailEvent} (hv : matchEvent x = some v) {events : List Entry}
  {other : Entry} (hother : other ∈ events) (hshortcut : other.isShortcut = true)

include hv hother hshortcut

theorem getTrailIds_of_other {others : List Entry} (hperm : others.Perm events) :
    getTrailIds search x others =
      idsOf search x (some ((firstFound search x others).getD v.query)) := by
  rw [getTrailIds, trailQuery_eq search hv ⟨other, hperm.mem_iff.mpr hother, hshortcut⟩]

theorem idsOf_of_extracts (hnot : other.isFor x = false) (h : Extracts search x events) :
    idsOf search x (some ((firstFound search x (events.filter (Entry.isFor x))).getD v.query)) =
      idsOf search x (some v.query) := by
  -- the other name at the front, and the entries for the event at the front
  obtain ⟨front, back, rfl⟩ := List.append_of_mem hother
  have hfront : getTrailIds search x (other :: (front ++ back)) = idsOf search x (some v.query) := by
    rw [getTrailIds_of_other search hv hother hshortcut List.perm_middle.symm]
    cases other with
    | subscription e => cases hshortcut
    | shortcut name hname => rfl
  have hlast := getTrailIds_of_other search hv hother hshortcut
    (List.filter_append_perm (Entry.isFor x) (front ++ other :: back))
  rw [firstFound_append search fun e he => by simpa using (List.mem_filter.mp he).2] at hlast
  have h1 := h.anywhere _ List.perm_middle.symm (by
    rw [List.filter_cons_of_neg (by simp [hnot]), List.filter_append, List.filter_append,
      List.filter_cons_of_neg (by simp [hnot])])
  have h2 := h.anywhere _ (List.filter_append_perm (Entry.isFor x) _) (by
    rw [List.filter_append, List.filter_filter, List.filter_filter]
    simp)
  rw [← hlast, h2, ← h1, hfront]

theorem extracts_of_idsOf
    (hown : (∃ e ∈ events, (e.queryFor x).map Query.expression = some v.query.expression) ∨
      firstFound search x events ≠ none)
    (hsame : idsOf search x
      (some ((firstFound search x (events.filter (Entry.isFor x))).getD v.query)) =
        idsOf search x (some v.query)) : Extracts search x events := by
  have hquery := trailQuery_eq search hv ⟨other, hother, hshortcut⟩ none
  have hall : ∀ others : List Entry, others.Perm events →
      others.filter (Entry.isFor x) = events.filter (Entry.isFor x) →
      getTrailIds search x others = idsOf search x (some v.query) := by
    intro others hperm hfilter
    rw [getTrailIds_of_other search hv hother hshortcut hperm]
    cases hq : firstFound search x others with
    | none => rfl
    | some q =>
      have hq' := firstFound_filter search hq
      rw [hfilter] at hq'
      rw [hq', Option.getD_some] at hsame
      exact hsame
  refine Extracts.of_own search ?_ ?_ ?_
  · intro q hq
    rw [hquery, Option.some.injEq] at hq
    cases hfound : firstFound search x events with
    | some q' =>
      obtain ⟨e, he, hq'⟩ := firstFound_mem search hfound
      rw [hfound, Option.getD_some] at hq
      exact ⟨e, he, by rw [hq', hq]; rfl⟩
    | none =>
      rw [hfound, Option.getD_none] at hq
      rw [← hq]
      exact hown.resolve_right fun h => h hfound
  · intro _
    rw [hquery]
    exact Option.some_ne_none _
  · intro others hperm hfilter
    rw [hall others hperm hfilter, hall events (List.Perm.refl _) rfl]

end Other

theorem extracts_iff_of_other {x : Event} {v : TrailEvent} (hv : matchEvent x = some v)
    {events : List Entry} {other : Entry} (hother : other ∈ events)
    (hshortcut : other.isShortcut = true) (hnot : other.isFor x = false) :
    Extracts search x events ↔
      ((∃ e ∈ events, (e.queryFor x).map Query.expression = some v.query.expression) ∨
        firstFound search x events ≠ none) ∧
      idsOf search x (some ((firstFound search x (events.filter (Entry.isFor x))).getD v.query)) =
        idsOf search x (some v.query) := by
  constructor
  · intro h
    refine ⟨?_, idsOf_of_extracts search hv hother hshortcut hnot h⟩
    have hquery := trailQuery_eq search hv ⟨other, hother, hshortcut⟩ none
    cases hfound : firstFound search x events with
    | some q => exact Or.inr (Option.some_ne_none q)
    | none =>
      rw [hfound, Option.getD_none] at hquery
      exact Or.inl (h.own _ hquery)
  · rintro ⟨hown, hsame⟩
    exact extracts_of_idsOf search hv hother hshortcut hown hsame

/-- When the ids are those of a subscription that matched. -/
theorem extracts_iff (x : Event) (events : List Entry) :
    Extracts search x events ↔ Undisturbed search x events := by
  rw [Undisturbed]
  cases hv : matchEvent x with
  | none => exact extracts_iff_of_none search hv
  | some v =>
    by_cases h : ∀ e ∈ events, e.isShortcut = true → e.isFor x = true
    · exact iff_of_true (extracts_of_own_shortcuts search hv h) (Or.inl h)
    · push Not at h
      obtain ⟨other, hother, hshortcut, hnot⟩ := h
      rw [extracts_iff_of_other search hv hother hshortcut (Bool.eq_false_iff.mpr hnot)]
      constructor
      · exact Or.inr
      · rintro (h | h)
        · exact absurd (h other hother hshortcut) hnot
        · exact h

end Search

/-! ## A table and a bucket -/

/-- A table is created. -/
def tableDetail : Json :=
  .obj [("eventName".toList, .str "CreateTable".toList),
    ("eventSource".toList, .str "dynamodb.amazonaws.com".toList)]

def tableCreated : Event where
  body := .obj [("detail".toList, tableDetail)]
  detail := tableDetail
  eventName := "CreateTable".toList
  eventSource := "dynamodb.amazonaws.com".toList
  detail_eq := rfl
  eventName_eq := rfl
  eventSource_eq := rfl

/-- A policy for buckets gets the name of the table. -/
theorem bucket_not_extracts : ¬ Extracts (fun e _ => .ok (.str e)) tableCreated
    [.shortcut "CreateBucket".toList (by decide)] := by
  intro h
  have hused : trailQuery (fun e _ => .ok (.str e)) tableCreated
      [.shortcut "CreateBucket".toList (by decide)] none =
      some (.onEvent "detail.requestParameters.tableName".toList) := by decide
  obtain ⟨e, he, hq⟩ := h.own _ hused
  rw [List.mem_singleton] at he
  subst he
  revert hq
  decide

end Custodian.TrailIds

import Custodian.Lib.Except
import Custodian.Lib.Items
import Custodian.Lib.SortedSet

/-!
# Slack messages

`SlackDelivery.get_to_addrs_slack_messages_map` of `slack_delivery.py`, with the groups of
recipients of `EmailDelivery.get_emails_to_resources_map`.  Messages are kept under the address
they are sent to, and a later message under an address replaces an earlier one.
-/

namespace Custodian.Slack

open Py

variable {R : Type}

/-! ## Groups of recipients -/

/-- The addresses that the e-mail handler finds for a queue message. -/
structure EmailHandler (R : Type) where
  /-- `get_ldap_emails_from_resource(sqs_message, resource)` -/
  ldapEmails : R → List Text
  policyToEmails : List Text
  /-- `get_resource_owner_emails_from_resource(sqs_message, resource)` -/
  ownerEmails : R → List Text
  noOwnerTargets : List Text

namespace EmailHandler

variable (self : EmailHandler R)

/-- `tuple(sorted(set(resource_emails)))` -/
def resourceEmails (resource : R) : List Text :=
  let roEmails := self.ownerEmails resource
  let emails := self.ldapEmails resource ++ self.policyToEmails ++ roEmails
  if roEmails.length < 1 ∧ self.noOwnerTargets.length > 0 then
    sortedSet (emails ++ self.noOwnerTargets)
  else
    sortedSet emails

/-- The loop body of `get_emails_to_resources_map`. -/
def addResource (groups : List (List Text × List R)) (resource : R) :
    List (List Text × List R) :=
  let emails := self.resourceEmails resource
  if emails ≠ [] then
    Items.set emails ((Items.get emails groups).getD [] ++ [resource]) groups
  else
    groups

/-- `get_emails_to_resources_map(sqs_message)` -/
def getEmailsToResourcesMap (resources : List R) : List (List Text × List R) :=
  resources.foldl self.addResource []

theorem mem_keys_getEmailsToResourcesMap {resources : List R} {emails : List Text} :
    emails ∈ (self.getEmailsToResourcesMap resources).map Prod.fst ↔
      emails ≠ [] ∧ ∃ r ∈ resources, self.resourceEmails r = emails := by
  induction resources using List.reverseRecOn with
  | nil => simp [getEmailsToResourcesMap]
  | append_singleton resources r ih =>
    rw [getEmailsToResourcesMap, List.foldl_concat, ← getEmailsToResourcesMap, addResource]
    by_cases hr : self.resourceEmails r ≠ []
    · rw [if_pos hr, Items.mem_keys_set, ih]
      constructor
      · rintro (rfl | ⟨hne, r', hr', he⟩)
        · exact ⟨hr, r, List.mem_append_right _ (List.mem_singleton_self r), rfl⟩
        · exact ⟨hne, r', List.mem_append_left _ hr', he⟩
      · rintro ⟨hne, r', hr', he⟩
        rcases List.mem_append.mp hr' with hr' | hr'
        · exact Or.inr ⟨hne, r', hr', he⟩
        · exact Or.inl (List.mem_singleton.mp hr' ▸ he.symm)
    · rw [if_neg hr, ih]
      refine and_congr_right fun hne => ⟨fun ⟨r', hr', he⟩ => ⟨r', by simp [hr'], he⟩, ?_⟩
      rintro ⟨r', hr', he⟩
      rcases List.mem_append.mp hr' with hr' | hr'
      · exact ⟨r', hr', he⟩
      · rw [List.mem_singleton.mp hr'] at he
        exact absurd (he ▸ hne) hr

end EmailHandler

/-! ## Slack users -/

/-- The body of the answer of `users.lookupByEmail`. -/
inductive SlackResponse where
  | user (id : Text) (enterpriseId : Option Text)
  | rateLimited
  | error (name : Text)

/-- The configuration, the cache and the service that a delivery uses. -/
structure SlackDelivery (R : Type) where
  slackToken : Option Text
  slackWebhook : Option Text
  /-- What is cached under an address; an id that this delivery writes is what the service says. -/
  caching : Text → Option Text
  lookupByEmail : Text → SlackResponse
  /-- `parseaddr(target)[1]` is not empty. -/
  parsesAddress : Text → Bool
  emailHandler : EmailHandler R
  /-- The items of `resource["Tags"]`, if there are any. -/
  tags : R → Option (List (Text × Text))

/-- The arguments that a message is rendered with. -/
structure Message (R : Type) where
  slackTarget : Text
  resources : List R
  deriving DecidableEq

namespace SlackDelivery

variable (self : SlackDelivery R)

/-- The id that is found for one address. -/
def userId (address : Text) : Except Exn (Option Text) :=
  match self.caching address with
  | some id => .ok (some id)
  | none =>
    match self.lookupByEmail address with
    | .user id enterpriseId => .ok (some (enterpriseId.getD id))
    -- `response.headers` of a dictionary
    | .rateLimited => .error .attributeError
    | .error name =>
      if name = "invalid_auth".toList then .error (.raised "Exception".toList) else .ok none

/-- `self.retrieve_user_im(email_addresses)` -/
def retrieveUserIm (emailAddresses : List Text) : Except Exn (List (Text × Text)) :=
  match self.slackToken with
  | none => .error .keyError
  | some _ => emailAddresses.foldlM
      (fun found address => do
        match ← self.userId address with
        | some id => pure (Items.set address id found)
        | none => pure found) []

/-- `is_email(target)` -/
def isEmail (target : Text) : Bool :=
  !target.startsWith "slack://".toList && self.parsesAddress target && target.hasChar '@' &&
    target.hasChar '.'

/-! ## Targets -/

/-- What a target asks for. -/
inductive Target where
  | owners
  | hook (url : Text)
  | webhook (url channel : Text)
  | email (address : Text)
  | channel (name : Text)
  | tag (name : Text)
  | other

/-- The tests of the loop over the targets; whether the first resource has tags is asked later. -/
def classify (target : Text) : Target :=
  if target = "slack://owners".toList then .owners
  else if target.startsWith "https://hooks.slack.com/".toList then .hook target
  else
    match target.startsWith "slack://webhook/#".toList,
      self.slackWebhook.filter fun url => decide (url ≠ []) with
    | true, some url => .webhook url (target.drop "slack://webhook/#".length)
    | _, _ =>
      if target.startsWith "slack://".toList ∧ self.isEmail (target.drop "slack://".length) then
        .email (target.drop "slack://".length)
      else if target.startsWith "slack://#".toList then .channel (target.drop "slack://#".length)
      else if target.startsWith "slack://tag/".toList then .tag (target.drop "slack://tag/".length)
      else .other

/-- The value of the first tag of a resource with this name. -/
def ownTag (name : Text) (resource : R) : Option Text :=
  (((self.tags resource).getD []).find? fun item => decide (item.1 = name)).map Prod.snd

/-- The channel that a tag names. -/
def tagChannel (value : Text) : Text :=
  if value.startsWith "#".toList then value else '#' :: value

/-- The loop over the addresses that are resolved. -/
def messagesTo (resources : List R) (resolvedAddrs : List (Text × Text)) :
    List (Text × Message R) :=
  resolvedAddrs.map fun p => (p.1, ⟨p.2, resources⟩)

/-- The messages to one group of owners. -/
def groupMessages (group : List Text × List R) : Except Exn (List (Text × Message R)) := do
  let resolvedAddrs ← self.retrieveUserIm group.1
  pure (messagesTo group.2 resolvedAddrs)

/-- The messages that one target asks for, in their order. -/
def targetMessages (resources : List R) (target : Text) :
    Except Exn (List (Text × Message R)) :=
  match self.classify target with
  | .owners => do
    let messages ←
      (self.emailHandler.getEmailsToResourcesMap resources).mapM self.groupMessages
    pure messages.flatten
  | .hook url => .ok [(url, ⟨url, resources⟩)]
  | .webhook url channel => .ok [(url, ⟨channel, resources⟩)]
  | .email address => do
    let resolvedAddrs ← self.retrieveUserIm [address]
    pure (messagesTo resources resolvedAddrs)
  | .channel name => .ok [(name, ⟨name, resources⟩)]
  | .tag name =>
    match resources with
    | [] => .error (.raised "IndexError".toList)
    | first :: _ =>
      match self.ownTag name first with
      | none => .ok []
      | some value =>
        if self.isEmail value then do
          let ims ← self.retrieveUserIm [value]
          match Items.get value ims with
          | some slackTarget => pure [(value, ⟨slackTarget, resources⟩)]
          | none => .error .keyError
        else
          .ok [(tagChannel value, ⟨tagChannel value, resources⟩)]
  | .other => .ok []

/-- `slack_messages[address] = message` for each of the messages of a target. -/
def setMessages (slackMessages messages : List (Text × Message R)) : List (Text × Message R) :=
  messages.foldl (fun d m => Items.set m.1 m.2 d) slackMessages

/-- `self.get_to_addrs_slack_messages_map(sqs_message)` -/
def getToAddrsSlackMessagesMap (resources : List R) (targets : List Text) :
    Except Exn (List (Text × Message R)) :=
  targets.foldlM
    (fun slackMessages target => do
      let messages ← self.targetMessages resources target
      pure (setMessages slackMessages messages)) []

/-! ## Who is to be told -/

/-- The account of an address. -/
def account (address : Text) : Option Text :=
  match self.userId address with
  | .ok id => id
  | .error _ => none

/-- The recipients to whom a target addresses a resource: where a message is sent, and to whom. -/
def addressed (target : Text) (resource : R) : List (Text × Text) :=
  match self.classify target with
  | .owners => (self.emailHandler.resourceEmails resource).filterMap fun address =>
      (self.account address).map fun id => (address, id)
  | .hook url => [(url, url)]
  | .webhook url channel => [(url, channel)]
  | .email address => ((self.account address).map fun id => (address, id)).toList
  | .channel name => [(name, name)]
  | .tag name =>
    match self.ownTag name resource with
    | none => []
    | some value =>
      if self.isEmail value then ((self.account value).map fun id => (value, id)).toList
      else [(tagChannel value, tagChannel value)]
  | .other => []

/-- The message is for this recipient and about this resource. -/
def Tells (slackTarget : Text) (resource : R) (m : Message R) :
    Prop := m.slackTarget = slackTarget ∧ resource ∈ m.resources

/-- The messages tell every recipient about every resource. -/
def Notifies (resources : List R) (targets : List Text) : Prop :=
  ∃ messages, self.getToAddrsSlackMessagesMap resources targets = .ok messages ∧
    ∀ target ∈ targets, ∀ resource ∈ resources, ∀ p ∈ self.addressed target resource,
      ∃ m, Items.get p.1 messages = some m ∧ Tells p.2 resource m

/-! ## When nothing raises -/

/-- Asking Slack for the address raises nothing. -/
def Reachable (address : Text) : Prop :=
  self.slackToken.isSome = true ∧ ∃ id, self.userId address = .ok id

/-- The target raises nothing: the addresses it asks for are answered; and a tag has resources, and
an address in the tag of the first one has an account. -/
def Answers (resources : List R) (target : Text) : Prop :=
  match self.classify target with
  | .owners => ∀ resource ∈ resources, ∀ address ∈ self.emailHandler.resourceEmails resource,
      self.Reachable address
  | .email address => self.Reachable address
  | .tag name => ∃ first, resources.head? = some first ∧
      ∀ value, self.ownTag name first = some value → self.isEmail value = true →
        self.slackToken.isSome = true ∧ ∃ id, self.userId value = .ok (some id)
  | _ => True

/-- The accounts of some addresses. -/
def accounts (addresses : List Text) : List (Text × Text) :=
  addresses.foldl
    (fun found address =>
      match self.account address with
      | some id => Items.set address id found
      | none => found) []

/-- The messages that a target sends when it raises nothing. -/
def sent (resources : List R) (target : Text) : List (Text × Message R) :=
  match self.classify target with
  | .owners => (self.emailHandler.getEmailsToResourcesMap resources).flatMap fun group =>
      messagesTo group.2 (self.accounts group.1)
  | .hook url => [(url, ⟨url, resources⟩)]
  | .webhook url channel => [(url, ⟨channel, resources⟩)]
  | .email address => messagesTo resources (self.accounts [address])
  | .channel name => [(name, ⟨name, resources⟩)]
  | .tag name =>
    match resources.head?.bind (self.ownTag name) with
    | none => []
    | some value =>
      if self.isEmail value then messagesTo resources (self.accounts [value])
      else [(tagChannel value, ⟨tagChannel value, resources⟩)]
  | .other => []

variable {self}

theorem account_of_ok {address : Text} {id : Option Text} (h : self.userId address = .ok id) :
    self.account address = id := by
  rw [account, h]

theorem retrieveUserIm_eq_ok_iff {addresses : List Text} {found : List (Text × Text)} :
    self.retrieveUserIm addresses = .ok found ↔ self.slackToken.isSome = true ∧
      (∀ address ∈ addresses, ∃ id, self.userId address = .ok id) ∧
        found = self.accounts addresses := by
  unfold retrieveUserIm
  split
  · rename_i htoken
    rw [htoken]
    simp
  · rename_i token htoken
    rw [htoken, accounts]
    simp only [Option.isSome_some, true_and]
    generalize ([] : List (Text × Text)) = start
    induction addresses generalizing start with
    | nil =>
      simp only [List.foldlM_nil, pure_eq_ok, List.foldl_nil]
      exact ⟨fun h => ⟨fun _ h => absurd h List.not_mem_nil, h.symm⟩, fun h => h.2.symm⟩
    | cons address addresses ih =>
      rw [List.foldlM_cons, bind_eq_ok]
      simp only [List.forall_mem_cons, List.foldl_cons]
      constructor
      · rintro ⟨next, hnext, hrest⟩
        obtain ⟨id, hid, hnext⟩ := bind_eq_ok.mp hnext
        obtain ⟨hall, hfound⟩ := (ih next).mp hrest
        refine ⟨⟨⟨id, hid⟩, hall⟩, ?_⟩
        rw [account_of_ok hid, hfound]
        cases id <;> rw [← pure_eq_ok.mp hnext]
      · rintro ⟨⟨⟨id, hid⟩, hall⟩, hfound⟩
        rw [account_of_ok hid] at hfound
        refine ⟨_, bind_eq_ok.mpr ⟨id, hid, ?_⟩, (ih _).mpr ⟨hall, hfound⟩⟩
        cases id <;> rfl

theorem get_accounts_singleton (address : Text) :
    Items.get address (self.accounts [address]) = self.account address := by
  rw [accounts, List.foldl_cons, List.foldl_nil]
  cases self.account address with
  | none => rfl
  | some id => exact (Items.get_set address id [] address).trans (if_pos rfl)

theorem accounts_singleton_of_some {address id : Text} (h : self.account address = some id) :
    self.accounts [address] = [(address, id)] := by
  rw [accounts, List.foldl_cons, List.foldl_nil, h]
  rfl

theorem forall_groups_iff {resources : List R} {p : Text → Prop} :
    (∀ group ∈ self.emailHandler.getEmailsToResourcesMap resources, ∀ address ∈ group.1, p address) ↔
      ∀ resource ∈ resources, ∀ address ∈ self.emailHandler.resourceEmails resource, p address := by
  constructor
  · intro h r hr address haddress
    obtain ⟨group, hgroup, he⟩ := List.mem_map.mp <|
      self.emailHandler.mem_keys_getEmailsToResourcesMap.mpr
        ⟨List.ne_nil_of_mem haddress, r, hr, rfl⟩
    exact h group hgroup address (he ▸ haddress)
  · intro h group hgroup address haddress
    obtain ⟨-, r, hr, he⟩ := (self.emailHandler.mem_keys_getEmailsToResourcesMap).mp
      (List.mem_map_of_mem hgroup)
    exact h r hr address (he ▸ haddress)

theorem exists_mem_group {resources : List R} {group : List Text × List R}
    (h : group ∈ self.emailHandler.getEmailsToResourcesMap resources) :
    ∃ address, address ∈ group.1 :=
  List.exists_mem_of_ne_nil _
    ((self.emailHandler.mem_keys_getEmailsToResourcesMap).mp (List.mem_map_of_mem h)).1

theorem groupMessages_eq_ok_iff {group : List Text × List R} {messages : List (Text × Message R)} :
    self.groupMessages group = .ok messages ↔ self.slackToken.isSome = true ∧
      (∀ address ∈ group.1, ∃ id, self.userId address = .ok id) ∧
        messages = messagesTo group.2 (self.accounts group.1) := by
  unfold groupMessages
  simp only [bind_eq_ok, retrieveUserIm_eq_ok_iff, pure_eq_ok]
  constructor
  · rintro ⟨found, ⟨htoken, hall, rfl⟩, rfl⟩
    exact ⟨htoken, hall, rfl⟩
  · rintro ⟨htoken, hall, rfl⟩
    exact ⟨_, ⟨htoken, hall, rfl⟩, rfl⟩

theorem ownerMessages_eq_ok_iff {resources : List R} {messages : List (List (Text × Message R))} :
    (self.emailHandler.getEmailsToResourcesMap resources).mapM self.groupMessages = .ok messages ↔
    (∀ resource ∈ resources, ∀ address ∈ self.emailHandler.resourceEmails resource,
      self.Reachable address) ∧
      messages = (self.emailHandler.getEmailsToResourcesMap resources).map fun group =>
        messagesTo group.2 (self.accounts group.1) := by
  rw [← forall_groups_iff]
  have hsent : (∀ group ∈ self.emailHandler.getEmailsToResourcesMap resources,
      ∀ address ∈ group.1, self.Reachable address) →
      (self.emailHandler.getEmailsToResourcesMap resources).mapM self.groupMessages =
      .ok ((self.emailHandler.getEmailsToResourcesMap resources).map fun group =>
        messagesTo group.2 (self.accounts group.1)) := by
    refine fun hreach => mapM_eq_map fun group hgroup => groupMessages_eq_ok_iff.mpr ?_
    obtain ⟨address, haddress⟩ := exists_mem_group hgroup
    exact ⟨(hreach group hgroup address haddress).1, fun a ha => (hreach group hgroup a ha).2, rfl⟩
  constructor
  · intro h
    have hreach : ∀ group ∈ self.emailHandler.getEmailsToResourcesMap resources,
        ∀ address ∈ group.1, self.Reachable address := by
      intro group hgroup address haddress
      obtain ⟨_, _, hmessages⟩ := exists_of_forall₂ ((mapM_eq_ok _ _ _).mp h) hgroup
      obtain ⟨htoken, hall, -⟩ := groupMessages_eq_ok_iff.mp hmessages
      exact ⟨htoken, hall address haddress⟩
    rw [hsent hreach] at h
    exact ⟨hreach, (Except.ok.inj h).symm⟩
  · rintro ⟨hreach, rfl⟩
    exact hsent hreach

theorem tagMessage_eq_ok_iff {resources : List R} {value : Text}
    {messages : List (Text × Message R)} :
    (do
      let ims ← self.retrieveUserIm [value]
      match Items.get value ims with
      | some slackTarget => pure [(value, Message.mk slackTarget resources)]
      | none => .error .keyError) = .ok messages ↔
    (self.slackToken.isSome = true ∧ ∃ id, self.userId value = .ok (some id)) ∧
      messages = messagesTo resources (self.accounts [value]) := by
  rw [bind_eq_ok]
  constructor
  · rintro ⟨ims, hims, h⟩
    obtain ⟨htoken, hall, rfl⟩ := retrieveUserIm_eq_ok_iff.mp hims
    obtain ⟨found, hfound⟩ := hall value (List.mem_singleton_self _)
    rw [get_accounts_singleton, account_of_ok hfound] at h
    cases found with
    | none => cases h
    | some id =>
      rw [accounts_singleton_of_some (account_of_ok hfound)]
      exact ⟨⟨htoken, id, hfound⟩, (pure_eq_ok.mp h).symm⟩
  · rintro ⟨⟨htoken, id, hid⟩, rfl⟩
    refine ⟨_, retrieveUserIm_eq_ok_iff.mpr ⟨htoken, fun a ha => ?_, rfl⟩, ?_⟩
    · rw [List.mem_singleton.mp ha]
      exact ⟨some id, hid⟩
    · rw [get_accounts_singleton, account_of_ok hid,
        accounts_singleton_of_some (account_of_ok hid)]
      rfl

/-- **One target.**  It raises nothing exactly when it is answered. -/
theorem targetMessages_eq_ok_iff {resources : List R} {target : Text}
    {messages : List (Text × Message R)} :
    self.targetMessages resources target = .ok messages ↔
      self.Answers resources target ∧ messages = self.sent resources target := by
  unfold targetMessages Answers sent
  cases self.classify target with
  | owners =>
    simp only
    rw [bind_eq_ok]
    constructor
    · rintro ⟨lists, hlists, h⟩
      obtain ⟨hreach, rfl⟩ := ownerMessages_eq_ok_iff.mp hlists
      exact ⟨hreach, (pure_eq_ok.mp h).symm⟩
    · rintro ⟨hreach, rfl⟩
      exact ⟨_, ownerMessages_eq_ok_iff.mpr ⟨hreach, rfl⟩, rfl⟩
  | email address =>
    simp only
    rw [bind_eq_ok]
    constructor
    · rintro ⟨found, hfound, h⟩
      obtain ⟨htoken, hall, rfl⟩ := retrieveUserIm_eq_ok_iff.mp hfound
      exact ⟨⟨htoken, hall address (List.mem_singleton_self _)⟩, (pure_eq_ok.mp h).symm⟩
    · rintro ⟨hreach, rfl⟩
      refine ⟨_, retrieveUserIm_eq_ok_iff.mpr ⟨hreach.1, fun a ha => ?_, rfl⟩, rfl⟩
      rw [List.mem_singleton.mp ha]
      exact hreach.2
  | tag name =>
    cases resources with
    | nil => simp
    | cons first rest =>
      simp only [List.head?_cons, Option.bind_some, Option.some.injEq, exists_eq_left']
      cases self.ownTag name first with
      | none =>
        simp only [reduceCtorEq, false_imp_iff, forall_const, true_and, Except.ok.injEq]
        exact eq_comm
      | some value =>
        simp only [Option.some.injEq, forall_eq']
        by_cases hemail : self.isEmail value = true
        · simp only [hemail, if_true, forall_const]
          exact tagMessage_eq_ok_iff
        · rw [if_neg hemail, if_neg hemail, Except.ok.injEq]
          exact ⟨fun h => ⟨fun h => absurd h hemail, h.symm⟩, fun h => h.2.symm⟩
  | hook | webhook | channel | other =>
    simp only [true_and, Except.ok.injEq]
    exact eq_comm

/-! ## The messages of all targets -/

theorem getToAddrsSlackMessagesMap_eq_ok_iff {resources : List R} {targets : List Text}
    {messages : List (Text × Message R)} :
    self.getToAddrsSlackMessagesMap resources targets = .ok messages ↔
      (∀ target ∈ targets, self.Answers resources target) ∧
        messages = Items.ofList (targets.flatMap (self.sent resources)) := by
  rw [getToAddrsSlackMessagesMap, Items.ofList]
  generalize ([] : List (Text × Message R)) = start
  induction targets generalizing start with
  | nil =>
    simp only [List.foldlM_nil, pure_eq_ok, List.flatMap_nil, List.foldl_nil]
    exact ⟨fun h => ⟨fun _ h => absurd h List.not_mem_nil, h.symm⟩, fun h => h.2.symm⟩
  | cons target targets ih =>
    rw [List.foldlM_cons, bind_eq_ok, List.forall_mem_cons, List.flatMap_cons, List.foldl_append]
    constructor
    · rintro ⟨next, hnext, hrest⟩
      obtain ⟨sends, hsends, hnext⟩ := bind_eq_ok.mp hnext
      obtain ⟨hanswers, rfl⟩ := targetMessages_eq_ok_iff.mp hsends
      obtain ⟨hall, hmessages⟩ := (ih next).mp hrest
      refine ⟨⟨hanswers, hall⟩, ?_⟩
      rw [hmessages, ← pure_eq_ok.mp hnext]
      rfl
    · rintro ⟨⟨hanswers, hall⟩, hmessages⟩
      exact ⟨_, bind_eq_ok.mpr ⟨_, targetMessages_eq_ok_iff.mpr ⟨hanswers, rfl⟩, rfl⟩,
        (ih _).mpr ⟨hall, hmessages⟩⟩

/-- Some message tells the recipient about the resource, and no later one to the same address
leaves it out. -/
def Told (messages : List (Text × Message R)) (p : Text × Text) (resource : R) : Prop :=
  ∃ before m after, messages = before ++ (p.1, m) :: after ∧ Tells p.2 resource m ∧
    ∀ later ∈ after, later.1 = p.1 → Tells p.2 resource later.2

/-- **When no Slack message is lost.**  Every target must be answered, and a later message to an
address must repeat what an earlier one was to tell its recipient. -/
theorem notifies_iff (self : SlackDelivery R) (resources : List R) (targets : List Text) :
    self.Notifies resources targets ↔ (∀ target ∈ targets, self.Answers resources target) ∧
      ∀ target ∈ targets, ∀ resource ∈ resources, ∀ p ∈ self.addressed target resource,
        Told (targets.flatMap (self.sent resources)) p resource := by
  constructor
  · rintro ⟨messages, hmessages, htold⟩
    obtain ⟨hanswers, rfl⟩ := getToAddrsSlackMessagesMap_eq_ok_iff.mp hmessages
    exact ⟨hanswers, fun target ht resource hr p hp =>
      Items.exists_get_ofList_iff.mp (htold target ht resource hr p hp)⟩
  · rintro ⟨hanswers, htold⟩
    exact ⟨_, getToAddrsSlackMessagesMap_eq_ok_iff.mpr ⟨hanswers, rfl⟩,
      fun target ht resource hr p hp =>
        Items.exists_get_ofList_iff.mpr (htold target ht resource hr p hp)⟩

end SlackDelivery

/-! ## Messages that are lost -/

/-- Two volumes of one owner, of which the second has another one too, and one of someone without
an account. -/
def sampleDelivery : SlackDelivery Nat where
  slackToken := some "xoxb".toList
  slackWebhook := some "https://hooks.slack.com/services/T0".toList
  caching _ := none
  lookupByEmail address :=
    if address = "peter@initech.com".toList then .user "U1".toList none
    else if address = "milton@initech.com".toList then .user "U2".toList none
    else .error "users_not_found".toList
  parsesAddress _ := true
  emailHandler :=
    { ldapEmails := fun _ => []
      policyToEmails := []
      ownerEmails := fun r =>
        if r = 1 then ["peter@initech.com".toList]
        else ["peter@initech.com".toList, "milton@initech.com".toList]
      noOwnerTargets := [] }
  tags r :=
    if r = 1 then some [("team".toList, "dba".toList)]
    else if r = 2 then some [("team".toList, "web".toList)]
    else some [("team".toList, "samir@initech.com".toList)]

theorem not_notifies [DecidableEq R] {self : SlackDelivery R} {resources : List R}
    {targets : List Text} (target : Text) (resource : R) (p : Text × Text)
    (messages : List (Text × Message R))
    (hmap : self.getToAddrsSlackMessagesMap resources targets = .ok messages)
    (ht : target ∈ targets) (hr : resource ∈ resources) (hp : p ∈ self.addressed target resource)
    (hlost : ∀ m ∈ Items.get p.1 messages, ¬ (m.slackTarget = p.2 ∧ resource ∈ m.resources)) :
    ¬ self.Notifies resources targets := by
  rintro ⟨messages', hmessages, htold⟩
  rw [hmap] at hmessages
  obtain rfl := Except.ok.inj hmessages
  obtain ⟨m, hm, htells⟩ := htold target ht resource hr p hp
  exact hlost m hm htells

/-- An owner is told about the last of its groups only; of two channels of a webhook the last one
gets a message; the tag of the first resource stands for all; and an address without an account in
a tag raises. -/
theorem sampleDelivery_loses :
    ¬ sampleDelivery.Notifies [1, 2] ["slack://owners".toList] ∧
    ¬ sampleDelivery.Notifies [1] ["slack://webhook/#dba".toList, "slack://webhook/#web".toList] ∧
    ¬ sampleDelivery.Notifies [1, 2] ["slack://tag/team".toList] ∧
    ¬ sampleDelivery.Notifies [3] ["slack://tag/team".toList, "slack://#ops".toList] := by
  refine ⟨?_, ?_, ?_, ?_⟩
  · exact not_notifies "slack://owners".toList 1 ("peter@initech.com".toList, "U1".toList)
      [("peter@initech.com".toList, ⟨"U1".toList, [2]⟩),
        ("milton@initech.com".toList, ⟨"U2".toList, [2]⟩)]
      (by decide +kernel) (by decide) (by decide) (by decide +kernel) (by decide +kernel)
  · exact not_notifies "slack://webhook/#dba".toList 1
      ("https://hooks.slack.com/services/T0".toList, "dba".toList)
      [("https://hooks.slack.com/services/T0".toList, ⟨"web".toList, [1]⟩)]
      (by decide +kernel) (by decide) (by decide) (by decide +kernel) (by decide +kernel)
  · exact not_notifies "slack://tag/team".toList 2 ("#web".toList, "#web".toList)
      [("#dba".toList, ⟨"#dba".toList, [1, 2]⟩)]
      (by decide +kernel) (by decide) (by decide) (by decide +kernel) (by decide +kernel)
  · rintro ⟨messages, hmessages, -⟩
    have hraises : sampleDelivery.getToAddrsSlackMessagesMap [3]
        ["slack://tag/team".toList, "slack://#ops".toList] = .error .keyError := by decide +kernel
    rw [hraises] at hmessages
    cases hmessages

end Custodian.Slack

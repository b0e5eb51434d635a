import Custodian.Lib.AppendNew
import Custodian.Lib.Asked
import Custodian.Lib.Grouping
import Custodian.Lib.SortedSet
import Custodian.Lib.Split
import Custodian.Mailer.LdapLookup

/-!
# Recipients of mails

`EmailDelivery` of `email_delivery.py`: the addresses that a list of targets names, and the groups
of resources with the same recipients.  A recipient is a value that the directory may have given,
so it can be a list.
-/

namespace Custodian.Email

open Py Ldap

variable {R : Type}

/-! ## Messages and configuration -/

/-- The items of a dictionary of texts. -/
abbrev Fields := List (Text × Text)

/-- The tags of a resource, as a list of keys and values or as a dictionary. -/
inductive Tags where
  | list (tags : List Fields)
  | dict (tags : Fields)

structure Action where
  /-- `to` -/
  targets : List Text
  cc : Option (List Text)
  ownerAbsentContact : List Text
  emailLdapUsernameManager : Bool
  resourceLdapLookupUsername : Bool

structure SqsMessage (R : Type) where
  action : Action
  /-- The `userIdentity` of the event, if there is an event. -/
  event : Option Fields
  accountId : Option Text
  resources : List R

/-- The configuration of the mailer, and what it reads of a resource. -/
structure EmailDelivery (R : Type) where
  /-- `is_email(target)` -/
  isEmail : Text → Bool
  emailBaseUrl : Option Text
  orgDomain : Option Text
  contactTags : List Text
  ldapUidTags : List Text
  accountEmails : List (Text × List Text)
  /-- The connection, if there is an `ldap_uri`. -/
  ldapLookup : Option LdapLookup
  tags : R → Option Tags
  labels : R → Option Tags
  userName : R → Option Text
  /-- The order in which a set is iterated. -/
  setOrder : List Text → List Text
  setOrder_perm : ∀ names, (setOrder names).Perm names

/-- A setting that is not empty. -/
def configured (setting : Option Text) : Option Text := setting.filter fun t => decide (t ≠ [])

/-- `fields[key]` -/
def item (key : Text) (fields : Fields) : Except Exn Text :=
  match Items.get key fields with
  | some value => .ok value
  | none => .error .keyError

/-- `tags`, when it is true. -/
def Tags.nonempty : Tags → Option Tags
  | .list [] => none
  | .dict [] => none
  | tags => some tags

/-- The tags as a dictionary. -/
def Tags.asDict : Tags → Except Exn Fields
  | .list tags => do
    let items ← tags.mapM fun tag => do pure (← item "Key".toList tag, ← item "Value".toList tag)
    pure (Items.ofList items)
  | .dict tags => .ok tags

/-- What `split(":", 1)` finds last. -/
def afterFirst (c : Char) (s : Text) : Text :=
  if s.hasChar c then (s.dropWhile (· ≠ c)).tail else s

/-- `get_aws_username_from_event(logger, event)` -/
def getAwsUsernameFromEvent (event : Option Fields) : Except Exn (Option Text) :=
  match event with
  | none => .ok none
  | some [] => .ok none
  | some identity => do
    let type ← item "type".toList identity
    if type = "AssumedRole".toList then
      let arn ← item "arn".toList identity
      let user := afterLast '/' arn
      if user.startsWith "i-".toList ∨ user.startsWith "awslambda".toList then
        pure none
      else
        pure (some (afterFirst ':' user))
    else if type = "IAMUser".toList ∨ type = "WebIdentityUser".toList then
      some <$> item "userName".toList identity
    else if type = "Root".toList then
      pure none
    else
      let principalId ← item "principalId".toList identity
      pure (some (afterFirst ':' principalId))

/-- `tuple(sorted(set(resource_emails)))`; a list among them is not hashable. -/
def sortedRecipients (emails : List Value) : Except Exn (List Text) := do
  let texts ← emails.mapM fun
    | [t] => .ok t
    | _ => .error Exn.typeError
  pure (sortedSet texts)

namespace EmailDelivery

variable (self : EmailDelivery R)

/-! ## Targets -/

/-- The targets that stand for an owner. -/
def symbolicOwners : List Text := ["resource-owner".toList, "event-owner".toList]

/-- `"%s@%s" % (email, self.config["email_base_url"])` -/
def fullEmail (email base : Text) : Text := email ++ "@".toList ++ base

/-- The addresses that one part of a target adds. -/
def partEmails (target part : Text) : List Text :=
  let email := strip part
  if email = [] then []
  else
    (if self.isEmail target then [target] else []) ++
      match configured self.emailBaseUrl with
      | some base =>
        if self.isEmail email = false ∧ self.isEmail (fullEmail email base) then
          [fullEmail email base]
        else []
      | none => []

/-- The addresses that one target adds. -/
def targetEmails (target : Text) : List Text :=
  if target ∈ symbolicOwners then []
  else (target.splitOn ':').flatMap (self.partEmails target)

/-- `self.get_valid_emails_from_list(targets)` -/
def getValidEmailsFromList (targets : List Text) : List Text :=
  appendNew [] (targets.flatMap self.targetEmails)

/-! ## Recipients -/

/-- `get_resource_tag_targets(resource, target_tag_keys)` -/
def getResourceTagTargets (resource : R) (targetTagKeys : List Text) : Except Exn (List Text) :=
  match (self.tags resource).bind Tags.nonempty, self.labels resource with
  | some tags, _ => do
    let tags ← tags.asDict
    pure (targetTagKeys.filterMap fun key => Items.get key tags)
  | none, some labels => do
    let tags ← labels.asDict
    pure (targetTagKeys.filterMap fun key => Items.get key tags)
  | none, none => .ok []

/-- `self.get_account_emails(sqs_message)` -/
def getAccountEmails (message : SqsMessage R) : List Text :=
  if "account-emails".toList ∈ message.action.targets then
    match message.accountId with
    | some accountId =>
      self.getValidEmailsFromList ((Items.get accountId self.accountEmails).getD [])
    | none => self.getValidEmailsFromList []
  else []

section Lookups

variable {m : Type → Type} [Monad m] [MonadExceptOf Exn m]
  (lookup : LdapLookup.Lookup → m (List Value))

/-- `self.get_event_owner_email(targets, event)` -/
def getEventOwnerEmail (targets : List Text) (event : Option Fields) : m (List Value) :=
  if "event-owner".toList ∈ targets then do
    match configured (← MonadExcept.ofExcept (getAwsUsernameFromEvent event)) with
    | some username =>
      if self.isEmail username then
        pure [[username]]
      else if self.ldapLookup.isSome then
        lookup ⟨username, false⟩
      else
        match configured self.orgDomain with
        | some orgDomain => pure [[fullEmail username orgDomain]]
        | none => pure []
    | none => pure []
  else
    pure []

/-- `self.get_ldap_emails_from_resource(sqs_message, resource)` -/
def getLdapEmailsFromResource (action : Action) (resource : R) : m (List Value) :=
  if self.ldapUidTags = [] ∨ self.ldapLookup.isSome = false then
    pure []
  else do
    let tagValues ← MonadExcept.ofExcept (self.getResourceTagTargets resource self.ldapUidTags)
    let manager := action.emailLdapUsernameManager
    let nameEmails ← (
      if action.resourceLdapLookupUsername then
        match self.userName resource with
        | some userName => lookup ⟨userName, manager⟩
        -- `uid.lower()` of `None`
        | none => throw Exn.attributeError
      else
        pure [])
    let tagEmails ← tagValues.mapM fun value => lookup ⟨value, manager⟩
    pure (nameEmails ++ tagEmails.flatten)

/-- `self.get_resource_owner_emails_from_resource(sqs_message, resource)` -/
def getResourceOwnerEmailsFromResource (action : Action) (resource : R) : m (List Value) :=
  if "resource-owner".toList ∈ action.targets then do
    let tagValues ← MonadExcept.ofExcept (self.getResourceTagTargets resource self.contactTags)
    let explicitEmails := self.getValidEmailsFromList tagValues
    let nonEmailIds := self.setOrder
      (appendNew [] (tagValues.filter fun value => decide (value ∉ explicitEmails)))
    if self.ldapLookup.isSome then
      let ldapEmails ← nonEmailIds.mapM fun uid => lookup ⟨uid, false⟩
      pure (explicitEmails.map (fun e => [e]) ++ ldapEmails.flatten)
    else
      match configured self.orgDomain with
      | some orgDomain => pure (explicitEmails.map (fun e => [e]) ++
          nonEmailIds.map fun uid => [fullEmail uid orgDomain])
      | none => pure (explicitEmails.map fun e => [e])
  else
    pure []

/-- `policy_to_emails`, the addresses that every resource has. -/
def policyToEmails (message : SqsMessage R) : m (List Value) := do
  let targets := message.action.targets ++ message.action.cc.getD []
  let eventOwnerEmail ← self.getEventOwnerEmail lookup targets message.event
  pure ((self.getValidEmailsFromList targets).map (fun e => [e]) ++ eventOwnerEmail ++
    (self.getAccountEmails message).map fun e => [e])

/-- `resource_emails` of the loop, sorted. -/
def resourceEmails (message : SqsMessage R) (policyToEmails : List Value) (resource : R) :
    m (List Text) := do
  let noOwnerTargets := self.getValidEmailsFromList message.action.ownerAbsentContact
  let ldapEmails ← self.getLdapEmailsFromResource lookup message.action resource
  let roEmails ← self.getResourceOwnerEmailsFromResource lookup message.action resource
  let emails := ldapEmails ++ policyToEmails ++ roEmails
  if roEmails.length < 1 ∧ noOwnerTargets.length > 0 then
    MonadExcept.ofExcept (sortedRecipients (emails ++ noOwnerTargets.map fun e => [e]))
  else
    MonadExcept.ofExcept (sortedRecipients emails)

/-- `emails_to_resources_map.setdefault(resource_emails, []).append(resource)` -/
def addResource (groups : List (List Text × List R)) (emails : List Text) (resource : R) :
    List (List Text × List R) :=
  if emails ≠ [] then
    Items.set emails ((Items.get emails groups).getD [] ++ [resource]) groups
  else
    groups

/-- `self.get_emails_to_resources_map(sqs_message)` -/
def getEmailsToResourcesMap (message : SqsMessage R) : m (List (List Text × List R)) := do
  let policyToEmails ← self.policyToEmails lookup message
  message.resources.foldlM (fun groups resource => do
    let emails ← self.resourceEmails lookup message policyToEmails resource
    pure (addResource groups emails resource)) []

end Lookups

/-! ## Lookups -/

/-- `self.ldap_lookup.get_email_to_addrs_from_uid(uid, manager)` -/
def cachedLookup (directory : Directory) (l : LdapLookup.Lookup) : LookupM (List Value) :=
  match self.ldapLookup with
  | some ldap => ldap.getEmailToAddrsFromUid directory l.uid l.manager
  | none => throw .attributeError

/-- What the directory has. -/
def directoryLookup (directory : Directory) (l : LdapLookup.Lookup) : Except Exn (List Value) :=
  match self.ldapLookup with
  | some ldap => ldap.addresses directory l.uid l.manager
  | none => .error .attributeError

/-- What the recipients of a resource would be without the other resources. -/
def recipients {m : Type → Type} [Monad m] [MonadExceptOf Exn m]
    (lookup : LdapLookup.Lookup → m (List Value)) (message : SqsMessage R) (resource : R) :
    m (List Text) := do
  let policyToEmails ← self.policyToEmails lookup message
  self.resourceEmails lookup message policyToEmails resource

/-- The sorted set of a resource's own recipients, by what the directory has. -/
def ownRecipients (directory : Directory) (message : SqsMessage R) (resource : R) :
    Except Exn (List Text) :=
  Asked.outcome (self.recipients (Asked.asking (self.directoryLookup directory)) message resource)

/-- The addresses that every resource has, by what the directory has. -/
def policyRecipients (directory : Directory) (message : SqsMessage R) : Except Exn (List Value) :=
  Asked.outcome (self.policyToEmails (Asked.asking (self.directoryLookup directory)) message)

/-- The lookups that are made for a message. -/
def lookups (directory : Directory) (message : SqsMessage R) : List LdapLookup.Lookup :=
  Asked.calls
    (self.getEmailsToResourcesMap (Asked.asking (self.directoryLookup directory)) message)

/-- The lookups for a message are clear of each other and of what is cached. -/
def Undisturbed (directory : Directory) (cache : Cache) (message : SqsMessage R) : Prop :=
  ∀ ldap ∈ self.ldapLookup, ldap.Clear directory cache (self.lookups directory message)

/-! ## What is asked for -/

/-- The parts of a target. -/
def members (target : Text) : List Text :=
  ((target.splitOn ':').map strip).filter fun email => decide (email ≠ [])

/-- The target names another transport, or stands for an owner. -/
def OtherTransport (target : Text) : Prop :=
  target.startsWith "slack://".toList = true ∨ target.startsWith "https://".toList = true ∨
    target.startsWith "arn:".toList = true ∨ target ∈ symbolicOwners

instance (target : Text) : Decidable (OtherTransport target) :=
  inferInstanceAs (Decidable (_ ∨ _ ∨ _ ∨ _))

/-- The address of another member, where a base url is set. -/
def FullOf (email e : Text) : Prop :=
  self.isEmail email = false ∧ ∃ base ∈ configured self.emailBaseUrl, e = fullEmail email base

/-- Some target for mails asks for the address. -/
def Wanted (targets : List Text) (e : Text) : Prop :=
  ∃ target ∈ targets, ¬ OtherTransport target ∧ ∃ email ∈ members target,
    self.isEmail email = true ∧ e = email ∨ self.FullOf email e

/-- The addresses that are found are those that are asked for. -/
def ValidEmails (targets : List Text) : Prop :=
  (self.getValidEmailsFromList targets).Nodup ∧
    ∀ e, e ∈ self.getValidEmailsFromList targets ↔ self.Wanted targets e

/-- The groups are those of the resources with the same recipients. -/
def ExactGroups (directory : Directory) (cache : Cache) (message : SqsMessage R) : Prop :=
  ∃ groups cache', self.getEmailsToResourcesMap (self.cachedLookup directory) message cache =
      .ok groups cache' ∧ (groups.map Prod.fst).Nodup ∧
    ∀ emails resources, (emails, resources) ∈ groups ↔ emails ≠ [] ∧ resources ≠ [] ∧
      resources = message.resources.filter fun r =>
        decide ((self.ownRecipients directory message r).toOption = some emails)

/-- Targets whose addresses are found: no other target is an address as a whole, each address
stands alone, and the base url makes addresses of the other members of targets for mails only. -/
structure Plain (targets : List Text) : Prop where
  whole : ∀ target ∈ targets, target ∉ symbolicOwners → members target ≠ [] →
    self.isEmail target = true → self.Wanted targets target
  alone : ∀ target ∈ targets, ¬ OtherTransport target → ∀ email ∈ members target,
    self.isEmail email = true → email ∈ targets ∧ email ∉ symbolicOwners ∨
      ∃ other ∈ targets, other ∉ symbolicOwners ∧ ∃ part ∈ members other, self.FullOf part email
  full : ∀ target ∈ targets, ¬ OtherTransport target → ∀ email ∈ members target,
    ∀ e, self.FullOf email e → self.isEmail e = true
  foreign : ∀ target ∈ targets, OtherTransport target → target ∉ symbolicOwners →
    ∀ email ∈ members target, ∀ e, self.FullOf email e → self.isEmail e = true →
      self.Wanted targets e

/-- The recipients of every resource are found, by what the directory has. -/
def Answered (directory : Directory) (message : SqsMessage R) : Prop :=
  (∃ emails, self.policyRecipients directory message = .ok emails) ∧
    ∀ r ∈ message.resources, ∃ emails, self.ownRecipients directory message r = .ok emails

variable {self}

/-! ## Addresses of targets -/

theorem mem_partEmails {target part e : Text} : e ∈ self.partEmails target part ↔
    strip part ≠ [] ∧ (self.isEmail target = true ∧ e = target ∨
      self.FullOf (strip part) e ∧ self.isEmail e = true) := by
  rw [partEmails, FullOf]
  by_cases hpart : strip part = []
  · simp [hpart]
  · simp only [hpart, if_false, ne_eq, not_false_eq_true, true_and, List.mem_append]
    refine or_congr ?_ ?_
    · split
      · next h => simp [h]
      · next h => simp [h]
    · cases hbase : configured self.emailBaseUrl with
      | none => simp
      | some base =>
        simp only [Option.mem_def, Option.some.injEq, exists_eq_left']
        split
        · next h =>
          rw [List.mem_singleton]
          exact ⟨fun he => ⟨⟨h.1, he⟩, he ▸ h.2⟩, fun he => he.1.2⟩
        · next h =>
          refine iff_of_false List.not_mem_nil ?_
          rintro ⟨⟨hemail, rfl⟩, hfull⟩
          exact h ⟨hemail, hfull⟩

theorem mem_members {target email : Text} :
    email ∈ members target ↔ email ≠ [] ∧ ∃ part ∈ target.splitOn ':', strip part = email := by
  simp [members, and_comm]

theorem mem_targetEmails {target e : Text} : e ∈ self.targetEmails target ↔
    target ∉ symbolicOwners ∧ (members target ≠ [] ∧ self.isEmail target = true ∧ e = target ∨
      ∃ email ∈ members target, self.FullOf email e ∧ self.isEmail e = true) := by
  rw [targetEmails]
  split
  · next h => exact iff_of_false List.not_mem_nil fun he => he.1 h
  · next h =>
    rw [List.mem_flatMap, and_iff_right h]
    simp only [mem_partEmails]
    constructor
    · rintro ⟨part, hpart, hne, hwhole | hfull⟩
      · exact Or.inl ⟨List.ne_nil_of_mem (mem_members.mpr ⟨hne, part, hpart, rfl⟩), hwhole⟩
      · exact Or.inr ⟨strip part, mem_members.mpr ⟨hne, part, hpart, rfl⟩, hfull⟩
    · rintro (⟨hmembers, hwhole⟩ | ⟨email, hemail, hfull⟩)
      · obtain ⟨email, hemail⟩ := List.exists_mem_of_ne_nil _ hmembers
        obtain ⟨hne, part, hpart, rfl⟩ := mem_members.mp hemail
        exact ⟨part, hpart, hne, Or.inl hwhole⟩
      · obtain ⟨hne, part, hpart, rfl⟩ := mem_members.mp hemail
        exact ⟨part, hpart, hne, Or.inr hfull⟩

theorem mem_getValidEmailsFromList {targets : List Text} {e : Text} :
    e ∈ self.getValidEmailsFromList targets ↔ ∃ target ∈ targets, target ∉ symbolicOwners ∧
      (members target ≠ [] ∧ self.isEmail target = true ∧ e = target ∨
        ∃ email ∈ members target, self.FullOf email e ∧ self.isEmail e = true) := by
  rw [getValidEmailsFromList, mem_appendNew, List.mem_flatMap]
  simp only [List.not_mem_nil, false_or, mem_targetEmails]

theorem members_member {target email : Text} (h : email ∈ members target) :
    members email = [email] := by
  obtain ⟨hne, part, hpart, rfl⟩ := mem_members.mp h
  have hcolon : ':' ∉ strip part := fun hmem =>
    not_mem_of_mem_splitOn hpart (mem_of_mem_strip hmem)
  rw [members, splitOn_of_not_mem hcolon, List.map_singleton,
    strip_of_edges (hasEdges_strip part)]
  simp [hne]

/-- **Targets.**  When the addresses that are found are those that are asked for. -/
theorem validEmails_iff (targets : List Text) : self.ValidEmails targets ↔ self.Plain targets := by
  have hnodup : (self.getValidEmailsFromList targets).Nodup := nodup_appendNew List.nodup_nil _
  rw [ValidEmails, and_iff_right hnodup]
  simp only [mem_getValidEmailsFromList]
  constructor
  · intro h
    constructor
    · intro target htarget hsymbolic hmembers hwhole
      exact (h target).mp ⟨target, htarget, hsymbolic, Or.inl ⟨hmembers, hwhole, rfl⟩⟩
    · intro target htarget hother email hemail haddress
      obtain ⟨found, hfound, hsymbolic, hadded⟩ :=
        (h email).mpr ⟨target, htarget, hother, email, hemail, Or.inl ⟨haddress, rfl⟩⟩
      rcases hadded with ⟨-, -, rfl⟩ | ⟨part, hpart, hfull, -⟩
      · exact Or.inl ⟨hfound, hsymbolic⟩
      · exact Or.inr ⟨found, hfound, hsymbolic, part, hpart, hfull⟩
    · intro target htarget hother email hemail e hfull
      obtain ⟨found, -, -, hadded⟩ :=
        (h e).mpr ⟨target, htarget, hother, email, hemail, Or.inr hfull⟩
      rcases hadded with ⟨-, hwhole, rfl⟩ | ⟨-, -, -, haddress⟩
      · exact hwhole
      · exact haddress
    · intro target htarget _ hsymbolic email hemail e hfull haddress
      exact (h e).mp ⟨target, htarget, hsymbolic, Or.inr ⟨email, hemail, hfull, haddress⟩⟩
  · intro ⟨hwhole, halone, hfull, hforeign⟩ e
    constructor
    · rintro ⟨target, htarget, hsymbolic, ⟨hmembers, haddress, rfl⟩ | ⟨email, hemail, he, haddress⟩⟩
      · exact hwhole e htarget hsymbolic hmembers haddress
      · by_cases hother : OtherTransport target
        · exact hforeign target htarget hother hsymbolic email hemail e he haddress
        · exact ⟨target, htarget, hother, email, hemail, Or.inr he⟩
    · rintro ⟨target, htarget, hother, email, hemail, ⟨haddress, rfl⟩ | he⟩
      · rcases halone target htarget hother e hemail haddress with ⟨he, hsymbolic⟩ |
          ⟨other, hmem, hsymbolic, part, hpart, he⟩
        · refine ⟨e, he, hsymbolic, Or.inl ⟨?_, haddress, rfl⟩⟩
          rw [members_member hemail]
          exact List.cons_ne_nil e []
        · exact ⟨other, hmem, hsymbolic, Or.inr ⟨part, hpart, he, haddress⟩⟩
      · have hsymbolic : target ∉ symbolicOwners := fun hmem =>
          hother (Or.inr (Or.inr (Or.inr hmem)))
        exact ⟨target, htarget, hsymbolic,
          Or.inr ⟨email, hemail, he, hfull target htarget hother email hemail e he⟩⟩

/-! ## Lookups that answer -/

section Follow

open Asked

variable {σ : Type} {Right : List LdapLookup.Lookup → LdapLookup.Lookup → Prop}
  {I : List LdapLookup.Lookup → σ → Prop}
  {lookup : LdapLookup.Lookup → EStateM Exn σ (List Value)}
  {ask : LdapLookup.Lookup → RecordM Exn LdapLookup.Lookup (List Value)}

theorem getEventOwnerEmail_follows (h : ∀ l, Follows Right I (lookup l) (ask l))
    (targets : List Text) (event : Option Fields) : Follows Right I
      (self.getEventOwnerEmail lookup targets event) (self.getEventOwnerEmail ask targets event) := by
  unfold getEventOwnerEmail
  refine Follows.ite (Follows.bind (Follows.ofExcept _) fun username => ?_) (Follows.pure _)
  cases configured username with
  | none => exact Follows.pure _
  | some username =>
    refine Follows.ite (Follows.pure _) (Follows.ite (h _) ?_)
    cases configured self.orgDomain with
    | none => exact Follows.pure _
    | some orgDomain => exact Follows.pure _

theorem getLdapEmailsFromResource_follows (h : ∀ l, Follows Right I (lookup l) (ask l))
    (action : Action) (resource : R) : Follows Right I
      (self.getLdapEmailsFromResource lookup action resource)
      (self.getLdapEmailsFromResource ask action resource) := by
  unfold getLdapEmailsFromResource
  refine Follows.ite (Follows.pure _) (Follows.bind (Follows.ofExcept _) fun tagValues => ?_)
  refine Follows.bind (Follows.ite ?_ (Follows.pure _)) fun nameEmails =>
    Follows.bind (Follows.mapM (fun value => h _) tagValues) fun tagEmails => Follows.pure _
  cases self.userName resource with
  | none => exact Follows.throw _
  | some userName => exact h _

theorem getResourceOwnerEmailsFromResource_follows (h : ∀ l, Follows Right I (lookup l) (ask l))
    (action : Action) (resource : R) : Follows Right I
      (self.getResourceOwnerEmailsFromResource lookup action resource)
      (self.getResourceOwnerEmailsFromResource ask action resource) := by
  unfold getResourceOwnerEmailsFromResource
  refine Follows.ite (Follows.bind (Follows.ofExcept _) fun tagValues => Follows.ite ?_ ?_)
    (Follows.pure _)
  · exact Follows.bind (Follows.mapM (fun uid => h _) _) fun ldapEmails => Follows.pure _
  · cases configured self.orgDomain with
    | none => exact Follows.pure _
    | some orgDomain => exact Follows.pure _

theorem policyToEmails_follows (h : ∀ l, Follows Right I (lookup l) (ask l))
    (message : SqsMessage R) : Follows Right I
      (self.policyToEmails lookup message) (self.policyToEmails ask message) :=
  Follows.bind (getEventOwnerEmail_follows h _ _) fun _ => Follows.pure _

theorem resourceEmails_follows (h : ∀ l, Follows Right I (lookup l) (ask l))
    (message : SqsMessage R) (policyToEmails : List Value) (resource : R) : Follows Right I
      (self.resourceEmails lookup message policyToEmails resource)
      (self.resourceEmails ask message policyToEmails resource) :=
  Follows.bind (getLdapEmailsFromResource_follows h _ _) fun _ =>
    Follows.bind (getResourceOwnerEmailsFromResource_follows h _ _) fun _ =>
      Follows.ite (Follows.ofExcept _) (Follows.ofExcept _)

theorem getEmailsToResourcesMap_follows (h : ∀ l, Follows Right I (lookup l) (ask l))
    (message : SqsMessage R) : Follows Right I
      (self.getEmailsToResourcesMap lookup message) (self.getEmailsToResourcesMap ask message) :=
  Follows.bind (policyToEmails_follows h message) fun _ =>
    Follows.foldlM (fun _ resource => Follows.bind (resourceEmails_follows h message _ resource)
      fun _ => Follows.pure _) [] message.resources

end Follow

section Directory

open Asked

variable (self) (directory : Directory) (cache : Cache)

/-- What some lookups write. -/
def written (ldap : LdapLookup) (done : List LdapLookup.Lookup) : Cache :=
  done.flatMap fun l => ldap.uidRows directory l.uid ++ ldap.managerRows directory l

/-- A lookup that meets what those before it write. -/
def Right (done : List LdapLookup.Lookup) (l : LdapLookup.Lookup) : Prop :=
  ∀ ldap ∈ self.ldapLookup, ldap.Meets directory (cache ++ written directory ldap done) l

/-- Nothing else is cached after some lookups. -/
def Allowed (done : List LdapLookup.Lookup) (rows : Cache) : Prop :=
  ∀ ldap ∈ self.ldapLookup, ∀ row ∈ rows, row ∈ cache ++ written directory ldap done

variable {self directory cache}

theorem atEach_of_clear {ldap : LdapLookup} {rows : Cache} {ls : List LdapLookup.Lookup}
    (h : ldap.Clear directory rows ls) :
    Runs.AtEach (fun done => ldap.Meets directory (rows ++ written directory ldap done)) ls := by
  induction ls generalizing rows with
  | nil => exact Runs.atEach_nil _
  | cons l ls ih =>
    refine Runs.atEach_cons.mpr ⟨?_, (ih h.2).imp fun done l' hl' => ?_⟩
    · rw [written, List.flatMap_nil, List.append_nil]
      exact h.1
    · rw [written, List.flatMap_cons, ← List.append_assoc, ← List.append_assoc]
      exact hl'

/-- **One lookup** returns what the directory has. -/
theorem cachedLookup_follows (l : LdapLookup.Lookup) :
    Follows (self.Right directory cache) (self.Allowed directory cache)
      (self.cachedLookup directory l) (asking (self.directoryLookup directory) l) := by
  refine Follows.call fun done rows hrows hright => ?_
  unfold cachedLookup directoryLookup
  cases hldap : self.ldapLookup with
  | none => exact ⟨rows, rfl, fun ldap h => by simp [hldap] at h⟩
  | some ldap =>
    obtain ⟨toAddrs, rows', hrun, hsame, hrows'⟩ :=
      LdapLookup.lookup_of_meets (hrows ldap hldap) (hright ldap hldap)
    refine ⟨rows', ?_, fun ldap' h row hrow => ?_⟩
    · simp only [hsame]
      exact hrun
    · obtain rfl : ldap = ldap' := Option.some.inj (hldap.symm.trans h)
      rw [written, List.flatMap_append, List.flatMap_singleton, ← List.append_assoc,
        ← List.append_assoc]
      exact hrows' row hrow

/-- **A message.**  Lookups that do not disturb each other give what the directory has. -/
theorem getEmailsToResourcesMap_undisturbed {message : SqsMessage R}
    (h : self.Undisturbed directory cache message) : ∃ cache',
      self.getEmailsToResourcesMap (self.cachedLookup directory) message cache =
        ends (outcome (self.getEmailsToResourcesMap (asking (self.directoryLookup directory))
          message)) cache' := by
  have hlookup : ∀ l, Follows (self.Right directory cache) (self.Allowed directory cache)
      (self.cachedLookup directory l) (asking (self.directoryLookup directory) l) :=
    cachedLookup_follows
  obtain ⟨cache', hrun, -⟩ := (getEmailsToResourcesMap_follows hlookup message).follows [] cache
    (fun ldap _ row hrow => List.mem_append_left _ hrow)
    (fun before l after hl ldap hldap => atEach_of_clear (h ldap hldap) before l after hl)
  exact ⟨cache', hrun⟩

/-! ## Groups -/

variable (self directory) in
/-- The recipients of a resource, given those of all resources, by what the directory has. -/
def recipientsOf (message : SqsMessage R) (emails : List Value) (resource : R) :
    Except Exn (List Text) :=
  outcome (self.resourceEmails (asking (self.directoryLookup directory)) message emails resource)

section Recorded

variable (self directory cache) (message : SqsMessage R)

theorem policyToEmails_recorded :
    Follows (self.Right directory cache) (self.Allowed directory cache)
      (self.policyToEmails (self.cachedLookup directory) message)
      (self.policyToEmails (asking (self.directoryLookup directory)) message) :=
  policyToEmails_follows cachedLookup_follows message

theorem resourceEmails_recorded (emails : List Value) (resource : R) :
    Follows (self.Right directory cache) (self.Allowed directory cache)
      (self.resourceEmails (self.cachedLookup directory) message emails resource)
      (self.resourceEmails (asking (self.directoryLookup directory)) message emails resource) :=
  resourceEmails_follows cachedLookup_follows message emails resource

theorem ownRecipients_eq (resource : R) : self.ownRecipients directory message resource =
    self.policyRecipients directory message >>= fun emails =>
      self.recipientsOf directory message emails resource :=
  Follows.outcome_bind (policyToEmails_recorded self directory [] message).recorded fun emails =>
    (resourceEmails_recorded self directory [] message emails resource).recorded

theorem outcome_getEmailsToResourcesMap :
    outcome (self.getEmailsToResourcesMap (asking (self.directoryLookup directory)) message) =
      self.policyRecipients directory message >>= fun emails =>
        message.resources.foldlM (fun groups resource =>
          self.recipientsOf directory message emails resource >>= fun own =>
            pure (addResource groups own resource)) [] := by
  have hadd (emails : List Value) (groups : List (List Text × List R)) (resource : R) :=
    Follows.bind (resourceEmails_recorded self directory [] message emails resource) fun own =>
      Follows.pure (addResource groups own resource)
  refine (Follows.outcome_bind (policyToEmails_recorded self directory [] message).recorded
    fun emails => (Follows.foldlM (hadd emails) [] message.resources).recorded).trans ?_
  refine congrArg _ (funext fun emails => ?_)
  refine (Follows.outcome_foldlM (fun groups resource =>
    (hadd emails groups resource).recorded) [] message.resources).trans ?_
  refine congrFun (congrFun (congrArg _ (funext₂ fun groups resource => ?_)) _) _
  exact Follows.outcome_bind (resourceEmails_recorded self directory [] message emails
    resource).recorded fun own done => congrArg _ (List.append_nil done).symm

end Recorded

/-- The recipients of a resource, where they are found. -/
def found (own : R → Except Exn (List Text)) (r : R) : List Text := (own r).toOption.getD []

theorem foldl_addResource (own : R → Except Exn (List Text)) (resources : List R) :
    resources.foldl (fun groups r => addResource groups (found own r) r) [] =
      Items.groupOn (found own) id (resources.filter fun r => decide (found own r ≠ [])) := by
  rw [Items.groupOn, Items.updates, List.foldl_filter]
  refine congrFun (congrFun (congrArg _ (funext₂ fun groups r => ?_)) _) _
  by_cases hr : found own r = []
  · simp [addResource, hr]
  · simp [addResource, hr]

theorem foldlM_addResource {own : R → Except Exn (List Text)} {resources : List R}
    {groups : List (List Text × List R)} :
    resources.foldlM (fun groups r => own r >>= fun emails => pure (addResource groups emails r))
        [] = .ok groups ↔
      (∀ r ∈ resources, ∃ emails, own r = .ok emails) ∧
        groups = Items.groupOn (found own) id
          (resources.filter fun r => decide (found own r ≠ [])) := by
  rw [← foldl_addResource]
  refine foldlM_eq_ok_iff fun groups r groups' => ?_
  rw [bind_eq_ok]
  constructor
  · rintro ⟨emails, hown, hgroups⟩
    refine ⟨⟨emails, hown⟩, ?_⟩
    rw [← pure_eq_ok.mp hgroups, found, hown]
    rfl
  · rintro ⟨⟨emails, hown⟩, rfl⟩
    refine ⟨emails, hown, ?_⟩
    rw [found, hown]
    rfl

theorem mem_groups {own : R → Except Exn (List Text)} {resources rs : List R}
    {emails : List Text} : (emails, rs) ∈ Items.groupOn (found own) id
        (resources.filter fun r => decide (found own r ≠ [])) ↔
      emails ≠ [] ∧ rs ≠ [] ∧ rs = resources.filter fun r =>
        decide ((own r).toOption = some emails) := by
  have hfilter (h : emails ≠ []) : ((resources.filter fun r => decide (found own r ≠ [])).filter
      fun r => decide (found own r = emails)) =
        resources.filter fun r => decide ((own r).toOption = some emails) := by
    rw [List.filter_filter]
    refine List.filter_congr fun r _ => ?_
    cases hown : (own r).toOption with
    | none => simp [found, hown, Ne.symm h]
    | some found' =>
      by_cases he : found' = emails <;> simp [found, hown, he, h]
  rw [Items.mem_groupOn, List.map_id]
  constructor
  · rintro ⟨hne, rfl⟩
    obtain ⟨r, hr⟩ := List.exists_mem_of_ne_nil _ hne
    rw [List.mem_filter, List.mem_filter, decide_eq_true_eq, decide_eq_true_eq] at hr
    have hemails : emails ≠ [] := hr.2 ▸ hr.1.2
    exact ⟨hemails, hne, hfilter hemails⟩
  · rintro ⟨hemails, hne, rfl⟩
    exact ⟨hfilter hemails ▸ hne, (hfilter hemails).symm⟩

/-- **Groups.**  When the resources are grouped by their own recipients. -/
theorem exactGroups_iff {message : SqsMessage R} (h : self.Undisturbed directory cache message) :
    self.ExactGroups directory cache message ↔ self.Answered directory message := by
  obtain ⟨cache', hrun⟩ := getEmailsToResourcesMap_undisturbed h
  rw [ExactGroups, Answered, hrun, outcome_getEmailsToResourcesMap]
  cases hpolicy : self.policyRecipients directory message with
  | error e =>
    refine iff_of_false ?_ ?_
    · rintro ⟨groups, cache'', hgroups, -⟩
      cases hgroups
    · rintro ⟨⟨emails, hemails⟩, -⟩
      cases hemails
  | ok emails =>
    have hown : self.ownRecipients directory message =
        self.recipientsOf directory message emails := by
      funext resource
      rw [ownRecipients_eq, hpolicy, ok_bind]
    rw [and_iff_right ⟨emails, rfl⟩, hown, ok_bind]
    constructor
    · rintro ⟨groups, cache'', hgroups, -⟩
      cases hloop : message.resources.foldlM (fun groups resource =>
          self.recipientsOf directory message emails resource >>= fun own =>
            pure (addResource groups own resource)) [] with
      | error e =>
        rw [hloop] at hgroups
        cases hgroups
      | ok groups' => exact (foldlM_addResource.mp hloop).1
    · intro hall
      refine ⟨_, cache', ?_, Items.keys_nodup_groupOn _, fun emails rs => mem_groups⟩
      rw [foldlM_addResource.mpr ⟨hall, rfl⟩]
      rfl

end Directory

theorem plain_of_addresses {targets : List Text} (h : ∀ target ∈ targets,
    ¬ OtherTransport target ∧ members target = [target] ∧ self.isEmail target = true) :
    self.Plain targets := by
  have hsymbolic : ∀ target ∈ targets, target ∉ symbolicOwners := fun target htarget hmem =>
    (h target htarget).1 (Or.inr (Or.inr (Or.inr hmem)))
  constructor
  · intro target htarget _ _ haddress
    obtain ⟨hother, hmembers, -⟩ := h target htarget
    exact ⟨target, htarget, hother, target, hmembers ▸ List.mem_singleton_self target,
      Or.inl ⟨haddress, rfl⟩⟩
  · intro target htarget _ email hemail _
    rw [(h target htarget).2.1, List.mem_singleton] at hemail
    subst hemail
    exact Or.inl ⟨htarget, hsymbolic email htarget⟩
  · intro target htarget _ email hemail e hfull
    rw [(h target htarget).2.1, List.mem_singleton] at hemail
    subst hemail
    rw [FullOf, (h email htarget).2.2] at hfull
    cases hfull.1
  · intro target htarget hother
    exact absurd hother (h target htarget).1

end EmailDelivery

/-- **Recipients.**  The addresses that are found for targets are those that they ask for exactly
when the targets are plain; and, where lookups do not disturb each other, the resources are grouped
by their own recipients exactly when these are found. -/
theorem recipients_exact_iff (self : EmailDelivery R) (targets : List Text) (directory : Directory)
    (cache : Cache) (message : SqsMessage R) (h : self.Undisturbed directory cache message) :
    (self.ValidEmails targets ↔ self.Plain targets) ∧
      (self.ExactGroups directory cache message ↔ self.Answered directory message) :=
  ⟨EmailDelivery.validEmails_iff targets, EmailDelivery.exactGroups_iff h⟩

/-! ## A mailer -/

/-- A mailer with a base url, an owner tag and a directory. -/
def sampleDelivery : EmailDelivery Fields where
  isEmail target :=
    !target.startsWith "slack://".toList && target.hasChar '@' && target.hasChar '.'
  emailBaseUrl := some "example.com".toList
  orgDomain := none
  contactTags := ["owner".toList]
  ldapUidTags := []
  accountEmails := []
  ldapLookup := some (sampleLookup (some .sqlite))
  tags tags := some (.dict tags)
  labels _ := none
  userName _ := none
  setOrder names := names
  setOrder_perm _ := List.Perm.refl _

/-- A message to the owner of one resource. -/
def sampleMessage : SqsMessage Fields where
  action := ⟨["resource-owner".toList], none, [], false, false⟩
  event := none
  accountId := none
  resources := [[("owner".toList, "peter".toList)]]

theorem sampleMessage_undisturbed : sampleDelivery.Undisturbed sampleDirectory [] sampleMessage := by
  intro ldap hldap
  obtain rfl : sampleLookup (some .sqlite) = ldap := Option.some.inj hldap
  have hlookups : sampleDelivery.lookups sampleDirectory sampleMessage = [⟨"peter".toList, false⟩] := by
    rfl
  rw [hlookups]
  exact ⟨⟨_, rfl, fun _ _ => agree_of_rows (by decide +kernel), fun h => by cases h⟩, trivial⟩

theorem recipients_exact_sample : sampleDelivery.ValidEmails ["peter@initech.com".toList] ∧
    sampleDelivery.ExactGroups sampleDirectory [] sampleMessage := by
  have hexact := recipients_exact_iff sampleDelivery ["peter@initech.com".toList] sampleDirectory []
    sampleMessage sampleMessage_undisturbed
  refine ⟨hexact.1.mpr (EmailDelivery.plain_of_addresses ?_), hexact.2.mpr ⟨⟨_, rfl⟩, ?_⟩⟩
  · intro target htarget
    obtain rfl := List.mem_singleton.mp htarget
    decide +kernel
  · intro resource hresource
    obtain rfl := List.mem_singleton.mp hresource
    exact ⟨["peter@example.com".toList, "peter@initech.com".toList], rfl⟩

/-- A Slack channel gets mail at the base url, and for an address with a blank in front the member
that is the address is not found. -/
theorem slackTarget_mailed :
    ¬ sampleDelivery.ValidEmails ["slack://ops".toList] ∧
      sampleDelivery.getValidEmailsFromList ["slack://ops".toList] =
        ["slack@example.com".toList, "//ops@example.com".toList] ∧
    ¬ sampleDelivery.ValidEmails [" peter@initech.com".toList] ∧
      sampleDelivery.getValidEmailsFromList [" peter@initech.com".toList] =
        [" peter@initech.com".toList] := by
  have hslack : sampleDelivery.getValidEmailsFromList ["slack://ops".toList] =
      ["slack@example.com".toList, "//ops@example.com".toList] := by decide +kernel
  have hblank : sampleDelivery.getValidEmailsFromList [" peter@initech.com".toList] =
      [" peter@initech.com".toList] := by decide +kernel
  refine ⟨fun h => ?_, hslack, fun h => ?_, hblank⟩
  · obtain ⟨target, htarget, hother, -⟩ := (h.2 "slack@example.com".toList).mp
      (by rw [hslack]; exact List.mem_cons_self)
    obtain rfl := List.mem_singleton.mp htarget
    exact hother (by decide +kernel)
  · have hmem := (h.2 "peter@initech.com".toList).mpr
      ⟨_, List.mem_singleton_self _, by decide +kernel, "peter@initech.com".toList,
        by decide +kernel, Or.inl ⟨by decide +kernel, rfl⟩⟩
    rw [hblank] at hmem
    revert hmem
    decide +kernel

end Custodian.Email

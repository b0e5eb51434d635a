import Custodian.Lib.Except
import Custodian.Lib.Items
import Custodian.Lib.Text

/-!
# Looking up users in a directory

`LdapLookup` of `ldap_lookup.py` with its caches `LocalSqlite` and `Redis`.  A cache holds metadata
under user ids and under distinguished names; a value that it returns is the one it was given.
-/

namespace Custodian.Ldap

open Py

/-! ## Entries and metadata -/

/-- The value of an attribute: `None`, a text, or a list of several texts. -/
abbrev Value := List Text

/-- `if value:` -/
def truthy : Value → Bool
  | [] => false
  | [t] => t ≠ []
  | _ => true

/-- An entry that a search returns. -/
structure LdapEntry where
  entryDn : Text
  attributes : List (Text × Value)

/-- The metadata of a user. -/
abbrev Metadata := List (Text × Value)

/-- `metadata.get(key, None)` -/
def Metadata.value (key : Text) (metadata : Metadata) : Value := (Items.get key metadata).getD []

/-- `connection.search(base, filter)` on a directory that does not change. -/
abbrev Directory := Value → Text → Except Exn (List LdapEntry)

/-! ## Caches -/

/-- What a cache holds: the rows of a table, or the items of a store. -/
abbrev Cache := List (Text × Metadata)

/-- `LocalSqlite.get(key)` -/
def LocalSqlite.get (key : Text) (rows : Cache) : Option Metadata :=
  match rows.filter fun row => decide (row.1 = key) with
  | [row] => some row.2
  | _ => none

/-- `LocalSqlite.set(key, value)` -/
def LocalSqlite.set (key : Text) (value : Metadata) (rows : Cache) : Cache := rows ++ [(key, value)]

/-- `Redis.get(key)` -/
def Redis.get (key : Text) (store : Cache) : Option Metadata := Items.get key store

/-- `Redis.set(key, value)` -/
def Redis.set (key : Text) (value : Metadata) (store : Cache) : Cache := Items.set key value store

inductive CacheEngine where
  | sqlite
  | redis
  deriving DecidableEq

namespace CacheEngine

def get (key : Text) (cache : Cache) : CacheEngine → Option Metadata
  | sqlite => LocalSqlite.get key cache
  | redis => Redis.get key cache

def set (key : Text) (value : Metadata) (cache : Cache) : CacheEngine → Cache
  | sqlite => LocalSqlite.set key value cache
  | redis => Redis.set key value cache

theorem mem_of_get {engine : CacheEngine} {key : Text} {cache : Cache} {value : Metadata}
    (h : engine.get key cache = some value) : (key, value) ∈ cache := by
  cases engine with
  | sqlite =>
    rw [get, LocalSqlite.get] at h
    split at h
    · rename_i row hrows
      have hmem : row ∈ cache.filter fun row => decide (row.1 = key) := by
        rw [hrows]
        exact List.mem_singleton_self row
      obtain ⟨hmem, hkey⟩ := List.mem_filter.mp hmem
      rwa [← of_decide_eq_true hkey, ← Option.some.inj h]
    · cases h
  | redis => exact Items.mem_of_get h

theorem mem_set {engine : CacheEngine} {key : Text} {value : Metadata} {cache : Cache}
    {row : Text × Metadata} (h : row ∈ engine.set key value cache) :
    row = (key, value) ∨ row ∈ cache := by
  cases engine with
  | sqlite =>
    rcases List.mem_append.mp h with h | h
    · exact Or.inr h
    · exact Or.inl (List.mem_singleton.mp h)
  | redis => exact Items.mem_set h

end CacheEngine

/-! ## Requests -/

/-- The configuration of the lookups. -/
structure LdapLookup where
  baseDn : Text
  emailKey : Text
  managerAttr : Text
  uidKey : Text
  /-- `re.search(self.uid_regex, uid)` -/
  uidRegex : Option (Text → Bool)
  cacheEngine : Option CacheEngine
  escapeFilterChars : Text → Text
  caseTable : CaseTable

/-- What a request does with the cache. -/
abbrev LookupM := EStateM Exn Cache

namespace LdapLookup

variable (self : LdapLookup)

/-- `self.caching.get(key)` -/
def cachingGet (key : Value) : LookupM (Option Metadata) :=
  match self.cacheEngine, key with
  | none, _ => throw .attributeError
  | some engine, [key] => do pure (engine.get key (← get))
  | some _, _ => throw (.raised "InterfaceError".toList)

/-- `self.caching.set(key, value)` -/
def cachingSet (key : Value) (value : Metadata) : LookupM Unit :=
  match self.cacheEngine, key with
  | none, _ => throw .attributeError
  | some engine, [key] => modify fun cache => engine.set key value cache
  | some _, _ => throw (.raised "InterfaceError".toList)

/-- `self.search_ldap(base_dn, ldap_filter, attributes)` -/
def searchLdap (directory : Directory) (baseDn : Value) (ldapFilter : Text) :
    Except Exn (Option LdapEntry) := do
  match ← directory baseDn ldapFilter with
  | [entry] => pure (some entry)
  | _ => pure none

/-- `value.lower()` -/
def lower : Value → Except Exn Value
  | [t] => .ok [self.caseTable.lower t]
  | _ => .error .attributeError

/-- `self.get_dict_from_ldap_object(ldap_user_object)` -/
def getDictFromLdapObject (ldapUserObject : LdapEntry) : Except Exn Metadata := do
  let metadata :=
    Items.set "dn".toList [ldapUserObject.entryDn] (Items.ofList ldapUserObject.attributes)
  let emailKey := Metadata.value self.emailKey metadata
  let uidKey := Metadata.value self.uidKey metadata
  if truthy emailKey = false ∨ truthy uidKey = false then
    pure []
  else
    let metadata := Items.set "self.email_key".toList (← self.lower emailKey) metadata
    pure (Items.set "self.uid_key".toList (← self.lower uidKey) metadata)

/-- `(uid_key=uid)` -/
def uidFilter (uid : Text) : Text :=
  "(".toList ++ self.uidKey ++ "=".toList ++ self.escapeFilterChars uid ++ ")".toList

/-- `(uid_key=*)` -/
def anyFilter : Text := "(".toList ++ self.uidKey ++ "=*)".toList

/-- The uid does not match the pattern that is configured. -/
def refused (uid : Text) : Bool :=
  match self.uidRegex with
  | some search => !search uid
  | none => false

/-- `self.get_metadata_from_uid(uid)` -/
def getMetadataFromUid (directory : Directory) (uid : Text) : LookupM Metadata := do
  let uid := self.caseTable.lower uid
  if self.refused uid then
    pure []
  else
    match ← (if self.cacheEngine.isSome then self.cachingGet [uid] else pure none) with
    | some cacheResult => pure cacheResult
    | none =>
      match ← MonadExcept.ofExcept <| searchLdap directory [self.baseDn] (self.uidFilter uid) with
      | some entry => do
        let metadata ← MonadExcept.ofExcept <| self.getDictFromLdapObject entry
        if self.cacheEngine.isSome then
          let dn := Metadata.value "dn".toList metadata
          if truthy dn then
            self.cachingSet dn metadata
            self.cachingSet [uid] metadata
          else
            self.cachingSet [uid] []
        pure metadata
      | none => do
        if self.cacheEngine.isSome then
          self.cachingSet [uid] []
        pure []

/-- `self.get_metadata_from_dn(user_dn)` -/
def getMetadataFromDn (directory : Directory) (userDn : Value) : LookupM Metadata := do
  match ← (if self.cacheEngine.isSome then self.cachingGet userDn else pure none) with
  | some (item :: items) => pure (item :: items)
  | _ =>
    match ← MonadExcept.ofExcept <| searchLdap directory userDn self.anyFilter with
    | some entry => do
      let metadata ← MonadExcept.ofExcept <| self.getDictFromLdapObject entry
      if self.cacheEngine.isSome then
        self.cachingSet userDn metadata
        match Items.get self.uidKey metadata with
        | some uid => self.cachingSet uid metadata
        | none => throw Exn.keyError
      pure metadata
    | none => do
      self.cachingSet userDn []
      pure []

/-- The value as a list, if there is one. -/
def listed (value : Value) : List Value := if truthy value then [value] else []

/-- `self.get_email_to_addrs_from_uid(uid, manager)` -/
def getEmailToAddrsFromUid (directory : Directory) (uid : Text) (manager : Bool) :
    LookupM (List Value) := do
  let uidMetadata ← self.getMetadataFromUid directory uid
  let toAddrs := listed (Metadata.value self.emailKey uidMetadata)
  if manager then
    let uidManagerDn := Metadata.value self.managerAttr uidMetadata
    if truthy uidManagerDn then
      let uidManager ← self.getMetadataFromDn directory uidManagerDn
      pure (toAddrs ++ listed (Metadata.value "mail".toList uidManager))
    else
      pure toAddrs
  else
    pure toAddrs

/-! ## What the directory says -/

/-- The metadata that the directory has under a uid. -/
def directoryFromUid (directory : Directory) (uid : Text) : Except Exn Metadata :=
  let uid := self.caseTable.lower uid
  if self.refused uid then .ok []
  else do
    match ← searchLdap directory [self.baseDn] (self.uidFilter uid) with
    | some entry => self.getDictFromLdapObject entry
    | none => pure []

/-- The metadata that the directory has under a distinguished name. -/
def directoryFromDn (directory : Directory) (userDn : Value) : Except Exn Metadata := do
  match ← searchLdap directory userDn self.anyFilter with
  | some entry => self.getDictFromLdapObject entry
  | none => pure []

/-- The addresses that the directory has for a uid and its manager. -/
def addresses (directory : Directory) (uid : Text) (manager : Bool) :
    Except Exn (List Value) := do
  let uidMetadata ← self.directoryFromUid directory uid
  let toAddrs := listed (Metadata.value self.emailKey uidMetadata)
  if manager then
    let uidManagerDn := Metadata.value self.managerAttr uidMetadata
    if truthy uidManagerDn then
      let uidManager ← self.directoryFromDn directory uidManagerDn
      pure (toAddrs ++ listed (Metadata.value "mail".toList uidManager))
    else
      pure toAddrs
  else
    pure toAddrs

/-- The call `get_email_to_addrs_from_uid(uid, manager)`. -/
structure Lookup where
  uid : Text
  manager : Bool

/-- What a sequence of lookups returns. -/
def answers (directory : Directory) : Cache → List Lookup → List (Except Exn (List Value))
  | _, [] => []
  | cache, l :: lookups =>
    match self.getEmailToAddrsFromUid directory l.uid l.manager cache with
    | .ok toAddrs cache => .ok toAddrs :: answers directory cache lookups
    | .error e cache => .error e :: answers directory cache lookups

/-- Every lookup returns what the directory has. -/
def Transparent (directory : Directory) (lookups : List Lookup) : Prop :=
  ∀ (n : Nat) (l : Lookup), lookups[n]? = some l → ∃ toAddrs,
    (self.answers directory [] lookups)[n]? = some (.ok toAddrs) ∧
      self.addresses directory l.uid l.manager = .ok toAddrs

/-! ## What a lookup writes -/

/-- The rows that a request for a uid writes. -/
def uidRows (directory : Directory) (uid : Text) : Cache :=
  let key := self.caseTable.lower uid
  if self.refused key then []
  else
    match self.directoryFromUid directory uid with
    | .ok metadata =>
      match Metadata.value "dn".toList metadata with
      | [dn] => if truthy [dn] then [(dn, metadata), (key, metadata)] else [(key, [])]
      | _ => [(key, [])]
    | .error _ => []

/-- The rows that a request for a distinguished name writes. -/
def dnRows (directory : Directory) (userDn : Text) : Cache :=
  match self.directoryFromDn directory [userDn] with
  | .ok metadata =>
    match Items.get self.uidKey metadata with
    | some [uid] => [(userDn, metadata), (uid, metadata)]
    | _ => [(userDn, metadata)]
  | .error _ => []

/-- The rows that a lookup writes for the manager. -/
def managerRows (directory : Directory) (l : Lookup) : Cache :=
  if l.manager then
    match self.directoryFromUid directory l.uid with
    | .ok metadata =>
      match Metadata.value self.managerAttr metadata with
      | [userDn] => if truthy [userDn] then self.dnRows directory userDn else []
      | _ => []
    | .error _ => []
  else []

/-! ## Runs in which lookups do not disturb each other -/

/-- Two metadata have the same values under some keys. -/
def Agree (keys : List Text) (v w : Metadata) : Prop :=
  ∀ k ∈ keys, Metadata.value k v = Metadata.value k w

/-- The keys that a lookup reads of the metadata of a uid. -/
def uidKeys (manager : Bool) : List Text :=
  if manager then [self.emailKey, self.managerAttr] else [self.emailKey]

/-- The entry of a manager can be used: without a cache it must be there; with one, it must not be
without address or uid, its name must be a text, and what was written under it must agree. -/
def ManagerMeets (directory : Directory) (written : Cache) (userDn : Value) : Prop :=
  ∃ found metadata, searchLdap directory userDn self.anyFilter = .ok found ∧
    self.directoryFromDn directory userDn = .ok metadata ∧
      match self.cacheEngine with
      | none => found.isSome = true
      | some _ => (found.isSome = true → metadata ≠ []) ∧ ∃ t, userDn = [t] ∧
          ∀ v, (t, v) ∈ written → v ≠ [] → Agree ["mail".toList] v metadata

/-- The directory answers the lookup, and what earlier lookups wrote under its keys agrees. -/
def Meets (directory : Directory) (written : Cache) (l : Lookup) : Prop :=
  ∃ metadata, self.directoryFromUid directory l.uid = .ok metadata ∧
    (self.cacheEngine ≠ none → self.refused (self.caseTable.lower l.uid) = false →
      ∀ v, (self.caseTable.lower l.uid, v) ∈ written → Agree (self.uidKeys l.manager) v metadata) ∧
    (l.manager = true → truthy (Metadata.value self.managerAttr metadata) = true →
      self.ManagerMeets directory (written ++ self.uidRows directory l.uid)
        (Metadata.value self.managerAttr metadata))

/-- Every lookup of a sequence meets the rows that those before it write. -/
def Clear (directory : Directory) : Cache → List Lookup → Prop
  | _, [] => True
  | written, l :: lookups => self.Meets directory written l ∧
      Clear directory (written ++ self.uidRows directory l.uid ++ self.managerRows directory l)
        lookups

/-! ## Single requests -/

section Steps

variable {α β : Type}

theorem bind_ok {m : LookupM α} {f : α → LookupM β} {c c' : Cache} {a : α} (h : m c = .ok a c') :
    (m >>= f) c = f a c' := by
  simp only [bind, EStateM.bind, h]

theorem ofExcept_ok {x : Except Exn α} {a : α} (h : x = .ok a) (c : Cache) :
    (MonadExcept.ofExcept x : LookupM α) c = .ok a c := by
  rw [h]
  rfl

end Steps

variable {self}

theorem cachingGet_some {engine : CacheEngine} (h : self.cacheEngine = some engine) (key : Text)
    (c : Cache) : self.cachingGet [key] c = .ok (engine.get key c) c := by
  simp only [cachingGet, h]
  rfl

theorem cachingSet_some {engine : CacheEngine} (h : self.cacheEngine = some engine) (key : Text)
    (value : Metadata) (c : Cache) :
    self.cachingSet [key] value c = .ok () (engine.set key value c) := by
  simp only [cachingSet, h]
  rfl

theorem lower_ok {value lowered : Value} (h : self.lower value = .ok lowered) :
    ∃ t t', value = [t] ∧ lowered = [t'] := by
  unfold lower at h
  split at h
  · exact ⟨_, _, rfl, (Except.ok.inj h).symm⟩
  · cases h

theorem getDictFromLdapObject_cases {entry : LdapEntry} {metadata : Metadata}
    (h : self.getDictFromLdapObject entry = .ok metadata) :
    metadata = [] ∨ (Metadata.value "dn".toList metadata = [entry.entryDn] ∧
      ∃ uid, Items.get self.uidKey metadata = some [uid]) := by
  unfold getDictFromLdapObject at h
  simp only at h
  split at h
  · exact Or.inl (Except.ok.inj h).symm
  generalize hmetadata : Items.set "dn".toList [entry.entryDn] (Items.ofList entry.attributes) = found
    at h
  obtain ⟨email, hemail, h⟩ := bind_eq_ok.mp h
  obtain ⟨uid, huid, h⟩ := bind_eq_ok.mp h
  obtain ⟨-, email, -, rfl⟩ := lower_ok hemail
  obtain ⟨t, uid, ht, rfl⟩ := lower_ok huid
  rw [← Except.ok.inj h]
  refine Or.inr ⟨?_, ?_⟩
  · rw [Metadata.value, Items.get_set, if_neg (by decide), Items.get_set, if_neg (by decide),
      ← hmetadata, Items.get_set, if_pos rfl]
    rfl
  · rw [Items.get_set]
    split
    · exact ⟨uid, rfl⟩
    · rw [Items.get_set]
      split
      · exact ⟨email, rfl⟩
      · refine ⟨t, ?_⟩
        rw [Metadata.value] at ht
        cases hget : Items.get self.uidKey found with
        | none =>
          rw [hget] at ht
          cases ht
        | some value =>
          rw [hget] at ht
          exact congrArg some ht

theorem getMetadataFromUid_none (hengine : self.cacheEngine = none) {directory : Directory}
    {uid : Text} {metadata : Metadata} (h : self.directoryFromUid directory uid = .ok metadata)
    (c : Cache) : self.getMetadataFromUid directory uid c = .ok metadata c := by
  unfold directoryFromUid at h
  unfold getMetadataFromUid
  simp only [hengine, Option.isSome_none, Bool.false_eq_true, if_false] at h ⊢
  split at h
  · rename_i hrefused
    rw [if_pos hrefused, ← Except.ok.inj h]
    rfl
  · rename_i hrefused
    obtain ⟨found, hfound, h⟩ := bind_eq_ok.mp h
    rw [if_neg hrefused, pure_bind]
    simp only
    rw [bind_ok (ofExcept_ok hfound c)]
    cases found with
    | none =>
      rw [← pure_eq_ok.mp h]
      rfl
    | some entry => exact bind_ok (ofExcept_ok h c)

theorem getMetadataFromUid_some {engine : CacheEngine} (hengine : self.cacheEngine = some engine)
    {directory : Directory} {uid : Text} {metadata : Metadata}
    (h : self.directoryFromUid directory uid = .ok metadata) {keys : List Text} {c : Cache}
    (hagree : self.refused (self.caseTable.lower uid) = false →
      ∀ v, (self.caseTable.lower uid, v) ∈ c → Agree keys v metadata) :
    ∃ v c', self.getMetadataFromUid directory uid c = .ok v c' ∧ Agree keys v metadata ∧
      ∀ row ∈ c', row ∈ c ∨ row ∈ self.uidRows directory uid := by
  have hrows := h
  unfold directoryFromUid at h
  unfold getMetadataFromUid
  simp only [hengine, Option.isSome_some, if_true] at h ⊢
  by_cases hrefused : self.refused (self.caseTable.lower uid) = true
  · rw [if_pos hrefused] at h ⊢
    rw [← Except.ok.inj h]
    exact ⟨[], c, rfl, fun _ _ => rfl, fun row hrow => Or.inl hrow⟩
  rw [if_neg hrefused] at h ⊢
  rw [bind_ok (cachingGet_some hengine _ c)]
  cases hget : engine.get (self.caseTable.lower uid) c with
  | some v =>
    refine ⟨v, c, rfl, ?_, fun row hrow => Or.inl hrow⟩
    exact hagree (Bool.eq_false_iff.mpr hrefused) v (CacheEngine.mem_of_get hget)
  | none =>
    obtain ⟨found, hfound, h⟩ := bind_eq_ok.mp h
    simp only
    rw [bind_ok (ofExcept_ok hfound c)]
    cases found with
    | none =>
      obtain rfl : [] = metadata := pure_eq_ok.mp h
      refine ⟨[], _, bind_ok (cachingSet_some hengine _ _ c), fun _ _ => rfl, fun row hrow => ?_⟩
      refine (CacheEngine.mem_set hrow).symm.imp_right fun e => ?_
      simp only [uidRows, if_neg hrefused, hrows, e]
      exact List.mem_singleton_self _
    | some entry =>
      simp only
      rw [bind_ok (ofExcept_ok h c)]
      rcases getDictFromLdapObject_cases h with rfl | ⟨hdn, -⟩
      · refine ⟨[], _, bind_ok (cachingSet_some hengine _ _ c), fun _ _ => rfl, fun row hrow => ?_⟩
        refine (CacheEngine.mem_set hrow).symm.imp_right fun e => ?_
        simp only [uidRows, if_neg hrefused, hrows, e]
        exact List.mem_singleton_self _
      · simp only [uidRows, if_neg hrefused, hrows, hdn]
        split
        · rw [bind_ok (cachingSet_some hengine _ _ c)]
          refine ⟨metadata, _, bind_ok (cachingSet_some hengine _ _ _), fun _ _ => rfl,
            fun row hrow => ?_⟩
          rcases CacheEngine.mem_set hrow with rfl | hrow
          · exact Or.inr (List.mem_cons_of_mem _ List.mem_cons_self)
          · rcases CacheEngine.mem_set hrow with rfl | hrow
            · exact Or.inr List.mem_cons_self
            · exact Or.inl hrow
        · refine ⟨metadata, _, bind_ok (cachingSet_some hengine _ _ c), fun _ _ => rfl,
            fun row hrow => ?_⟩
          refine (CacheEngine.mem_set hrow).symm.imp_right fun e => ?_
          rw [e]
          exact List.mem_singleton_self _

theorem getMetadataFromDn_none (hengine : self.cacheEngine = none) {directory : Directory}
    {userDn : Value} {found : Option LdapEntry} {metadata : Metadata}
    (hfound : searchLdap directory userDn self.anyFilter = .ok found) (hsome : found.isSome = true)
    (h : self.directoryFromDn directory userDn = .ok metadata) (c : Cache) :
    self.getMetadataFromDn directory userDn c = .ok metadata c := by
  obtain ⟨entry, rfl⟩ := Option.isSome_iff_exists.mp hsome
  unfold directoryFromDn at h
  rw [hfound] at h
  unfold getMetadataFromDn
  simp only [hengine, Option.isSome_none, Bool.false_eq_true, if_false]
  rw [pure_bind]
  simp only
  rw [bind_ok (ofExcept_ok hfound c)]
  exact bind_ok (ofExcept_ok h c)

theorem getMetadataFromDn_some {engine : CacheEngine} (hengine : self.cacheEngine = some engine)
    {directory : Directory} {userDn : Text} {found : Option LdapEntry} {metadata : Metadata}
    (hfound : searchLdap directory [userDn] self.anyFilter = .ok found)
    (h : self.directoryFromDn directory [userDn] = .ok metadata)
    (hne : found.isSome = true → metadata ≠ []) {keys : List Text} {c : Cache}
    (hagree : ∀ v, (userDn, v) ∈ c → v ≠ [] → Agree keys v metadata) :
    ∃ v c', self.getMetadataFromDn directory [userDn] c = .ok v c' ∧ Agree keys v metadata ∧
      ∀ row ∈ c', row ∈ c ∨ row ∈ self.dnRows directory userDn := by
  have hrows := h
  unfold directoryFromDn at h
  rw [hfound] at h
  unfold getMetadataFromDn
  simp only [hengine, Option.isSome_some, if_true]
  rw [bind_ok (cachingGet_some hengine _ c)]
  rcases hget : engine.get userDn c with _ | _ | ⟨item, items⟩
  case some.cons =>
    exact ⟨_, c, rfl, hagree _ (CacheEngine.mem_of_get hget) (List.cons_ne_nil _ _),
      fun row hrow => Or.inl hrow⟩
  -- nothing is cached, or an empty result, which is not trusted
  all_goals
    simp only
    rw [bind_ok (ofExcept_ok hfound c)]
    cases found with
    | none =>
      obtain rfl : [] = metadata := pure_eq_ok.mp h
      refine ⟨[], _, bind_ok (cachingSet_some hengine _ _ c), fun _ _ => rfl, fun row hrow => ?_⟩
      refine (CacheEngine.mem_set hrow).symm.imp_right fun e => ?_
      simp only [dnRows, hrows, e]
      exact List.mem_singleton_self _
    | some entry =>
      have hdict : self.getDictFromLdapObject entry = .ok metadata := h
      simp only
      rw [bind_ok (ofExcept_ok hdict c), bind_ok (cachingSet_some hengine _ _ c)]
      obtain ⟨-, uid, huid⟩ := (getDictFromLdapObject_cases h).resolve_left (hne rfl)
      simp only [dnRows, hrows, huid]
      refine ⟨metadata, _, bind_ok (cachingSet_some hengine _ _ _), fun _ _ => rfl,
        fun row hrow => ?_⟩
      rcases CacheEngine.mem_set hrow with rfl | hrow
      · exact Or.inr (List.mem_cons_of_mem _ List.mem_cons_self)
      · rcases CacheEngine.mem_set hrow with rfl | hrow
        · exact Or.inr List.mem_cons_self
        · exact Or.inl hrow

/-! ## Sequences of lookups -/

/-- **One lookup.**  It returns what the directory has, and writes its rows at most. -/
theorem lookup_of_meets {directory : Directory} {written c : Cache} {l : Lookup}
    (hwritten : ∀ row ∈ c, row ∈ written) (h : self.Meets directory written l) :
    ∃ toAddrs c', self.getEmailToAddrsFromUid directory l.uid l.manager c = .ok toAddrs c' ∧
      self.addresses directory l.uid l.manager = .ok toAddrs ∧
      ∀ row ∈ c', row ∈ written ++ self.uidRows directory l.uid ++ self.managerRows directory l := by
  obtain ⟨metadata, hmetadata, huid, hmanager⟩ := h
  obtain ⟨v, c₁, hv, hagree, hc₁⟩ : ∃ v c₁, self.getMetadataFromUid directory l.uid c = .ok v c₁ ∧
      Agree (self.uidKeys l.manager) v metadata ∧
        ∀ row ∈ c₁, row ∈ written ++ self.uidRows directory l.uid := by
    cases hengine : self.cacheEngine with
    | none =>
      exact ⟨metadata, c, getMetadataFromUid_none hengine hmetadata c, fun _ _ => rfl,
        fun row hrow => List.mem_append_left _ (hwritten row hrow)⟩
    | some engine =>
      obtain ⟨v, c₁, hv, hagree, hc₁⟩ := getMetadataFromUid_some hengine hmetadata
        fun hrefused v hv => huid (by simp [hengine]) hrefused v (hwritten _ hv)
      exact ⟨v, c₁, hv, hagree, fun row hrow => List.mem_append.mpr
        ((hc₁ row hrow).imp_left (hwritten row))⟩
  have hemail : Metadata.value self.emailKey v = Metadata.value self.emailKey metadata :=
    hagree _ (by rw [uidKeys]; split <;> simp)
  unfold getEmailToAddrsFromUid addresses managerRows
  rw [bind_ok hv, hmetadata, hemail]
  by_cases hflag : l.manager = true
  · have hattr : Metadata.value self.managerAttr v = Metadata.value self.managerAttr metadata :=
      hagree _ (by simp [uidKeys, hflag])
    simp only [hflag, if_true, hattr]
    by_cases htruthy : truthy (Metadata.value self.managerAttr metadata) = true
    · obtain ⟨found, manager, hfound, hdn, hmeets⟩ := hmanager hflag htruthy
      obtain ⟨w, c₂, hw, hmail, hc₂⟩ : ∃ w c₂, self.getMetadataFromDn directory
          (Metadata.value self.managerAttr metadata) c₁ = .ok w c₂ ∧
            Agree ["mail".toList] w manager ∧ ∀ row ∈ c₂, row ∈ c₁ ∨ row ∈
              (match Metadata.value self.managerAttr metadata with
                | [userDn] => if truthy [userDn] = true then self.dnRows directory userDn else []
                | _ => []) := by
        cases hengine : self.cacheEngine with
        | none =>
          rw [hengine] at hmeets
          exact ⟨manager, c₁, getMetadataFromDn_none hengine hfound hmeets hdn c₁, fun _ _ => rfl,
            fun row hrow => Or.inl hrow⟩
        | some engine =>
          rw [hengine] at hmeets
          obtain ⟨hne, t, ht, hagree⟩ := hmeets
          rw [ht] at hfound hdn htruthy ⊢
          simp only [htruthy, if_true]
          exact getMetadataFromDn_some hengine hfound hdn hne fun v hv => hagree v (hc₁ _ hv)
      refine ⟨listed (Metadata.value self.emailKey metadata) ++
        listed (Metadata.value "mail".toList manager), c₂, ?_, ?_, fun row hrow => ?_⟩
      · rw [if_pos htruthy, bind_ok hw, hmail _ (List.mem_singleton_self _)]
        rfl
      · refine bind_eq_ok.mpr ⟨metadata, rfl, ?_⟩
        rw [if_pos htruthy]
        exact bind_eq_ok.mpr ⟨manager, hdn, rfl⟩
      · exact List.mem_append.mpr ((hc₂ row hrow).imp_left (hc₁ row))
    · refine ⟨listed (Metadata.value self.emailKey metadata), c₁, ?_, ?_,
        fun row hrow => List.mem_append_left _ (hc₁ row hrow)⟩
      · rw [if_neg htruthy]
        rfl
      · exact bind_eq_ok.mpr ⟨metadata, rfl, by rw [if_neg htruthy]; rfl⟩
  · simp only [if_neg hflag]
    exact ⟨listed (Metadata.value self.emailKey metadata), c₁, rfl, rfl,
      fun row hrow => List.mem_append_left _ (hc₁ row hrow)⟩

/-- **Every lookup of a clear sequence.** -/
theorem answers_of_clear {directory : Directory} {written c : Cache} {lookups : List Lookup}
    (hwritten : ∀ row ∈ c, row ∈ written) (h : self.Clear directory written lookups) (n : Nat)
    (l : Lookup) (hl : lookups[n]? = some l) : ∃ toAddrs,
      (self.answers directory c lookups)[n]? = some (.ok toAddrs) ∧
        self.addresses directory l.uid l.manager = .ok toAddrs := by
  induction lookups generalizing written c n with
  | nil => cases hl
  | cons l' lookups ih =>
    obtain ⟨hmeets, hclear⟩ := h
    obtain ⟨toAddrs, c', hrun, hsame, hc'⟩ := lookup_of_meets hwritten hmeets
    rw [answers, hrun]
    cases n with
    | zero =>
      obtain rfl : l' = l := Option.some.inj hl
      exact ⟨toAddrs, rfl, hsame⟩
    | succ n => exact ih hc' hclear n hl

end LdapLookup

/-! ## Tables -/

/-- A table after a sequence of sets. -/
def LocalSqlite.after (sets : List (Text × Metadata)) : Cache :=
  sets.foldl (fun rows s => LocalSqlite.set s.1 s.2 rows) []

/-- The value last set under a key. -/
def lastSet (key : Text) (sets : List (Text × Metadata)) : Option Metadata :=
  ((sets.filter fun s => decide (s.1 = key)).getLast?).map Prod.snd

theorem LocalSqlite.after_eq (sets : List (Text × Metadata)) : LocalSqlite.after sets = sets := by
  have hfold : ∀ rows, sets.foldl (fun rows s => LocalSqlite.set s.1 s.2 rows) rows =
      rows ++ sets := by
    induction sets with
    | nil => simp
    | cons s sets ih =>
      intro rows
      rw [List.foldl_cons, ih, LocalSqlite.set, List.append_assoc, List.singleton_append]
  exact hfold []

theorem get_sqlite_iff (sets : List (Text × Metadata)) (key : Text) :
    LocalSqlite.get key (LocalSqlite.after sets) = lastSet key sets ↔
      (sets.filter fun s => decide (s.1 = key)).length ≤ 1 := by
  rw [LocalSqlite.after_eq, LocalSqlite.get, lastSet]
  generalize sets.filter (fun s => decide (s.1 = key)) = rows
  rcases rows with _ | ⟨row, _ | ⟨row', rows⟩⟩
  · simp
  · simp
  · simp [List.getLast?_cons]

/-- **When a cache is transparent.**  A sequence whose lookups are answered and write nothing that
later ones read differently returns what the directory has; and a table returns the value last set
exactly under the keys that were set once at most. -/
theorem transparent_of_clear (self : LdapLookup) (directory : Directory)
    (lookups : List LdapLookup.Lookup) (h : self.Clear directory [] lookups) :
    self.Transparent directory lookups ∧
      ∀ (sets : List (Text × Metadata)) (key : Text),
        LocalSqlite.get key (LocalSqlite.after sets) = lastSet key sets ↔
          (sets.filter fun s => decide (s.1 = key)).length ≤ 1 :=
  ⟨fun n l hl => LdapLookup.answers_of_clear (fun _ hrow => absurd hrow List.not_mem_nil) h n l hl,
    get_sqlite_iff⟩

/-! ## A small directory -/

def peopleDn : Text := "cn=users,dc=initech,dc=com".toList

def lumberghDn : Text := "uid=bill_lumbergh,cn=users,dc=initech,dc=com".toList

def goneDn : Text := "uid=gone,cn=users,dc=initech,dc=com".toList

def bobsDn : Text := "uid=bobs,cn=users,dc=initech,dc=com".toList

/-- A user with a mail address and a manager. -/
def sampleUser (uid mail manager : Text) : LdapEntry :=
  ⟨"uid=".toList ++ uid ++ ",".toList ++ peopleDn,
    [("uid".toList, [uid]), ("mail".toList, [mail]), ("manager".toList, [manager])]⟩

/-- A directory in which one manager does not exist and one has no mail address. -/
def sampleDirectory : Directory := fun base ldapFilter =>
  if base = [peopleDn] ∧ ldapFilter = "(uid=peter)".toList then
    .ok [sampleUser "peter".toList "peter@initech.com".toList lumberghDn]
  else if base = [peopleDn] ∧ ldapFilter = "(uid=milton)".toList then
    .ok [sampleUser "milton".toList "milton@initech.com".toList goneDn]
  else if base = [peopleDn] ∧ ldapFilter = "(uid=tom)".toList then
    .ok [sampleUser "tom".toList "tom@initech.com".toList bobsDn]
  else if base = [lumberghDn] ∧ ldapFilter = "(uid=*)".toList then
    .ok [sampleUser "bill_lumbergh".toList "bill@initech.com".toList []]
  else if base = [bobsDn] ∧ ldapFilter = "(uid=*)".toList then
    .ok [⟨bobsDn, [("uid".toList, ["bobs".toList]), ("mail".toList, [])]⟩]
  else .ok []

def sampleLookup (cacheEngine : Option CacheEngine) : LdapLookup where
  baseDn := peopleDn
  emailKey := "mail".toList
  managerAttr := "manager".toList
  uidKey := "uid".toList
  uidRegex := none
  cacheEngine := cacheEngine
  escapeFilterChars := id
  caseTable := asciiTable

/-- Two lookups of a user and its manager; the second one reads the table. -/
def sampleLookups : List LdapLookup.Lookup := [⟨"peter".toList, true⟩, ⟨"peter".toList, true⟩]

theorem agree_of_rows {rows : Cache} {key : Text} {keys : List Text} {metadata : Metadata}
    (h : ∀ row ∈ rows, row.1 = key → ∀ k ∈ keys,
      Metadata.value k row.2 = Metadata.value k metadata) (v : Metadata) (hv : (key, v) ∈ rows) :
    LdapLookup.Agree keys v metadata :=
  fun k hk => h (key, v) hv rfl k hk

theorem sampleLookups_clear :
    (sampleLookup (some .sqlite)).Clear sampleDirectory [] sampleLookups := by
  refine ⟨⟨_, rfl, fun _ _ => agree_of_rows ?_, fun _ _ => ⟨_, _, rfl, rfl, ?_, _, rfl, ?_⟩⟩,
    ⟨_, rfl, fun _ _ => agree_of_rows ?_, fun _ _ => ⟨_, _, rfl, rfl, ?_, _, rfl, ?_⟩⟩, trivial⟩
  · decide +kernel
  · decide +kernel
  · exact fun v hv _ => agree_of_rows (by decide +kernel) v hv
  · decide +kernel
  · decide +kernel
  · exact fun v hv _ => agree_of_rows (by decide +kernel) v hv

theorem transparent_of_clear_sample :
    (sampleLookup (some .sqlite)).Transparent sampleDirectory sampleLookups :=
  (transparent_of_clear (sampleLookup (some .sqlite)) sampleDirectory sampleLookups
    sampleLookups_clear).1

/-- Without a cache a manager that does not exist raises, with one a manager without an address
does, and a table forgets a key that was set twice. -/
theorem sampleLookup_raises :
    ¬ (sampleLookup none).Transparent sampleDirectory [⟨"milton".toList, true⟩] ∧
      (sampleLookup none).answers sampleDirectory [] [⟨"milton".toList, true⟩] =
        [.error .attributeError] ∧
    ¬ (sampleLookup (some .redis)).Transparent sampleDirectory [⟨"tom".toList, true⟩] ∧
      (sampleLookup (some .redis)).answers sampleDirectory [] [⟨"tom".toList, true⟩] =
        [.error .keyError] ∧
    LocalSqlite.get goneDn (LocalSqlite.after [(goneDn, []), (goneDn, [])]) ≠
      lastSet goneDn [(goneDn, []), (goneDn, [])] := by
  have hnone : (sampleLookup none).answers sampleDirectory [] [⟨"milton".toList, true⟩] =
      [.error .attributeError] := by decide +kernel
  have hredis : (sampleLookup (some .redis)).answers sampleDirectory [] [⟨"tom".toList, true⟩] =
      [.error .keyError] := by decide +kernel
  refine ⟨fun h => ?_, hnone, fun h => ?_, hredis, by decide +kernel⟩
  · obtain ⟨toAddrs, hanswer, -⟩ := h 0 _ rfl
    rw [hnone] at hanswer
    cases hanswer
  · obtain ⟨toAddrs, hanswer, -⟩ := h 0 _ rfl
    rw [hredis] at hanswer
    cases hanswer

end Custodian.Ldap

import Custodian.Lib.Lower
import Custodian.Statements.Values
import Mathlib.Data.List.Count

/-!
# Required statements

`HasStatementFilter` of `c7n/filters/policystatement.py` keeps a resource whose policy
has the required statement ids and, for each required statement, a statement that has
its elements: the same value of an element, or one that includes it where the required
statement lists the element under `PartialMatch`.
-/

namespace Custodian.Statements

open Py

/-! ## The filter -/

section Filter

variable (ct : CaseTable) (format : Text → Except Exn Text)

/-- `str.format` with the standard arguments; without one of them the text stays. -/
def formatText (t : Text) : Except Exn Text :=
  match format t with
  | .ok u => .ok u
  | .error e => if e = .keyError ∨ e = .raised "IndexError".toList then .ok t else .error e

def formatStrings : Strings → Except Exn Strings
  | .one t => do return .one (← formatText format t)
  | .many xs => do return .many (← xs.mapM (formatText format))

/-- `format_string_values` -/
def formatStringValues (es : Entries Strings) : Except Exn (Entries Strings) :=
  es.mapLeavesM (formatStrings format)

/-- `action_resource_case_insensitive` -/
def actionResourceCaseInsensitive : Value → List Text
  | .leaf s => s.items.map ct.lower
  | .dict es => es.keys.map ct.lower

/-- `normalize_condition_keys` -/
def normalizeConditionKeys (v : Value) : Value := v.rekey ct.lower

def normalizeStatementValue (key : Text) (v : Value) : Value :=
  if key = "Condition".toList then normalizeConditionKeys ct v else v

def isActionKey (key : Text) : Bool := key ∈ ["Action".toList, "NotAction".toList]

/-- A value as it is compared: actions have become a set. -/
inductive Operand where
  | value (v : Value)
  | set (xs : List Text)

def operand (key : Text) (v : Value) : Operand :=
  if isActionKey key then
    .set (actionResourceCaseInsensitive ct (normalizeStatementValue ct key v))
  else .value (normalizeStatementValue ct key v)

/-- A partial match normalizes its value a second time. -/
def Operand.again (key : Text) : Operand → Operand
  | .value v => operand ct key v
  | .set xs => .set (xs.map ct.lower)

def Operand.formatted : Operand → Nested (List Text)
  | .value v => formatDictWithSets v
  | .set xs => .leaf xs

/-- What `in` and `issubset` look at: the items of a set or the keys of a dictionary. -/
def Operand.members : Operand → List Text
  | .value (.leaf s) => formatToSet s
  | .value (.dict es) => es.keys
  | .set xs => xs

/-- The exception of merging into a set, or of comparing it without any entry merged. -/
def noDictionary : Entries Strings → Exn
  | .nil => .attributeError
  | .cons .. => .typeError

/-- `__match_partial_statement` -/
def matchPartialStatement (key : Text) (o : Operand) (stmt : Entries Strings) : Except Exn Bool :=
  match stmt.lookup key with
  | none => .ok false
  | some w =>
    match o.again ct key, operand ct key w with
    | .value (.dict b), .value (.dict d) => do
      let merged ← mergeDict d b
      return compareDicts merged d
    | .value (.dict b), _ => .error (noDictionary b)
    | .value (.leaf s), resource => .ok (subset s.items resource.members)
    | .set xs, resource => .ok (subset xs resource.members)

/-- Whether an element of a required statement is counted as found. -/
def elementFound (partialMatch : List Text) (key : Text) (v : Value) (stmt : Entries Strings) :
    Except Exn Bool :=
  match stmt.lookup key with
  | none => .ok false
  | some w =>
    if key ∈ partialMatch then matchPartialStatement ct key (operand ct key v) stmt
    else .ok ((operand ct key v).formatted.eq sameItems (operand ct key w).formatted)

/-- The number of elements that are found. -/
def foundElements (partialMatch : List Text) : Entries Strings → Entries Strings → Except Exn Nat
  | .nil, _ => .ok 0
  | .cons key v es, stmt => do
    let b ← elementFound ct partialMatch key v stmt
    let found ← foundElements partialMatch es stmt
    return if b then found + 1 else found

def partialMatchKey : Text := "PartialMatch".toList

/-- `PartialMatch` of a required statement, as a list. -/
def partialElements (required : Entries Strings) : List Text :=
  match required.lookup partialMatchKey with
  | none => []
  | some (.leaf s) => s.items
  | some (.dict es) => es.keys

/-- A required statement without `PartialMatch`, which is popped. -/
def elements (required : Entries Strings) : Entries Strings := required.erase partialMatchKey

/-- The loop over the statements, up to the first one that matches. -/
def isMatched (required : Entries Strings) : List (Entries Strings) → Except Exn Bool
  | [] => .ok false
  | stmt :: stmts => do
    let found ← foundElements ct (partialElements required) (elements required) stmt
    if found ≠ 0 ∧ found = (elements required).keys.length then return true
    else isMatched required stmts

/-- `__get_matched_statements` -/
def getMatchedStatements (stmts : List (Entries Strings)) :
    List (Entries Strings) → Except Exn (List (Entries Strings))
  | [] => .ok []
  | required :: rs => do
    let b ← isMatched ct required stmts
    let found ← getMatchedStatements stmts rs
    return if b then elements required :: found else found

/-- `Statement` of a policy: one statement or a list of them. -/
inductive StatementList where
  | one (s : Entries Strings)
  | list (ss : List (Entries Strings))

/-- What the loops see: of a single statement its keys, which have no `get`. -/
def StatementList.iter : StatementList → Except Exn (List (Entries Strings))
  | .list ss => .ok ss
  | .one .nil => .ok []
  | .one (.cons ..) => .error .attributeError

/-- The statement ids, in order. -/
def sids (stmts : List (Entries Strings)) : List Text :=
  stmts.filterMap fun s =>
    match s.lookup "Sid".toList with
    | some (.leaf (.one t)) => some t
    | _ => none

/-- `process_resource`: whether a resource with this policy, if any, is kept. -/
def processResource (ids : List Text) (required : List (Entries Strings)) :
    Option StatementList → Except Exn Bool
  | none => .ok false
  | some statements => do
    let stmts ← statements.iter
    -- every statement removes its id once
    let notFound := ids.diff (sids stmts)
    let required ← required.mapM (formatStringValues format)
    let found ← getMatchedStatements ct stmts required
    -- the statements that are found are some of the required ones, in their order
    return notFound.isEmpty && found.length == required.length

end Filter

/-! ## Statements -/

variable {ct : CaseTable}

/-- An element of a statement: dictionaries have distinct keys, in a condition up to letter
case, actions are strings or lists, and an id is a string. -/
structure IsElement (ct : CaseTable) (key : Text) (v : Value) : Prop where
  distinct : v.distinct = true
  action : isActionKey key = true → ∃ s, v = .leaf s
  condition : key = "Condition".toList → (v.mapKeys ct.lower).distinct = true
  sid : key = "Sid".toList → ∃ t, v = .leaf (.one t)

structure IsStatement (ct : CaseTable) (es : Entries Strings) : Prop where
  distinct : es.distinct = true
  effect : "Effect".toList ∈ es.keys
  elements : es.Forall (IsElement ct)

/-- A statement of a policy, or a required one. -/
structure Statement (ct : CaseTable) where
  entries : Entries Strings
  isStatement : IsStatement ct entries

/-- The value of `Statement`. -/
inductive Document (ct : CaseTable) where
  | one (s : Statement ct)
  | list (ss : List (Statement ct))

def Document.toList : Document ct → List (Entries Strings)
  | .one s => [s.entries]
  | .list ss => ss.map Statement.entries

def Document.isList : Document ct → Bool
  | .one _ => false
  | .list _ => true

def Document.statements : Document ct → StatementList
  | .one s => .one s.entries
  | .list ss => .list (ss.map Statement.entries)

/-! ## What should be kept -/

/-- The value of an element with its strings and lists as sets, the actions and the keys
of a condition in lower case. -/
def read (ct : CaseTable) (key : Text) (v : Value) : Nested (List Text) :=
  if isActionKey key then v.mapLeaves fun s => s.items.map ct.lower
  else if key = "Condition".toList then (v.mapKeys ct.lower).mapLeaves Strings.items
  else v.mapLeaves Strings.items

/-- The first value is included in the second one. -/
def Within (ct : CaseTable) (key : Text) (v w : Value) : Bool :=
  (read ct key v).includedIn subset (read ct key w)

/-- A required element matches: the values are equal or, under `PartialMatch`, the required
one is included. -/
def matchesElement (ct : CaseTable) (partialMatch : List Text) (key : Text) (v w : Value) : Bool :=
  Within ct key v w && (key ∈ partialMatch || Within ct key w v)

/-- Every element of a required statement is in a statement and passes a test. -/
def everyElement (p : Text → Value → Value → Bool) : Entries Strings → Entries Strings → Bool
  | .nil, _ => true
  | .cons key v es, stmt => (stmt.lookup key).any (p key v ·) && everyElement p es stmt

/-- Some element of a required statement is in a statement and passes a test. -/
def someElement (p : Text → Value → Value → Bool) : Entries Strings → Entries Strings → Bool
  | .nil, _ => false
  | .cons key v es, stmt => (stmt.lookup key).any (p key v ·) || someElement p es stmt

/-- The statement has the elements of the required one. -/
def matchesStatement (ct : CaseTable) (required stmt : Entries Strings) : Bool :=
  everyElement (matchesElement ct (partialElements required)) (elements required) stmt

/-- Every id occurs and every required statement is matched. -/
structure Wanted (ct : CaseTable) (ids : List Text) (required stmts : List (Entries Strings)) :
    Prop where
  ids : ∀ id ∈ ids, ∃ s ∈ stmts, s.lookup "Sid".toList = some (.leaf (.one id))
  statements : ∀ r ∈ required, ∃ s ∈ stmts, matchesStatement ct r s = true

/-- The filter does not raise and keeps the resource exactly when it should, where the
required statements are those with the arguments written into them. -/
def Meets (ct : CaseTable) (format : Text → Except Exn Text) (ids : List Text)
    (required : List (Statement ct)) (doc : Document ct) : Prop :=
  ∃ rs kept, (required.map Statement.entries).mapM (formatStringValues format) = .ok rs ∧
    processResource ct format ids (required.map Statement.entries) (some doc.statements) =
      .ok kept ∧ (kept = true ↔ Wanted ct ids rs doc.toList)

/-! ## Where the filter goes wrong -/

/-- The keys of a condition in lower case. -/
def readKeys (ct : CaseTable) (key : Text) (v : Value) : Value :=
  if key = "Condition".toList then v.mapKeys ct.lower else v

/-- A dictionary is required under `PartialMatch` that cannot be merged into the value. -/
def clashesAt (ct : CaseTable) (partialMatch : List Text) (key : Text) (v w : Value) : Bool :=
  decide (key ∈ partialMatch) && match readKeys ct key v with
    | .leaf _ => false
    | .dict b => clashes (.dict b) (readKeys ct key w)

/-- A string or list is required under `PartialMatch`, and the value is a dictionary that
has its items as keys. -/
def namesKeys (ct : CaseTable) (partialMatch : List Text) (key : Text) (v w : Value) : Bool :=
  decide (key ∈ partialMatch) && match read ct key v, read ct key w with
    | .leaf xs, .dict es => subset xs es.keys
    | _, _ => false

/-- The statement has the elements of the required one or the keys that they name. -/
def loose (ct : CaseTable) (required stmt : Entries Strings) : Bool :=
  everyElement (fun key v w => matchesElement ct (partialElements required) key v w ||
    namesKeys ct (partialElements required) key v w) (elements required) stmt

/-- Some value clashes before the required statement is matched. -/
def reachesClash (ct : CaseTable) (required : Entries Strings) : List (Entries Strings) → Bool
  | [] => false
  | stmt :: stmts =>
    someElement (clashesAt ct (partialElements required)) (elements required) stmt ||
      !loose ct required stmt && reachesClash ct required stmts

/-- As many statements have an id as it is listed times. -/
def Listed (ids : List Text) (stmts : List (Entries Strings)) : Prop :=
  ∀ id ∈ ids, ids.count id ≤ (sids stmts).count id

/-- For required statements as they are after formatting: no clash, no id that is listed
too often in a policy that is wanted, and no required statement that is matched by keys
only in a policy that is wanted otherwise. -/
structure Sound (ct : CaseTable) (ids : List Text) (rs stmts : List (Entries Strings)) : Prop where
  noClash : ∀ r ∈ rs, reachesClash ct r stmts = false
  listed : Wanted ct ids rs stmts → Listed ids stmts
  byValue : Listed ids stmts → (∀ r ∈ rs, ∃ s ∈ stmts, loose ct r s = true) →
    ∀ r ∈ rs, ∃ s ∈ stmts, matchesStatement ct r s = true

/-- The statements are a list, the required ones can be formatted, and then nothing goes
wrong. -/
structure Handled (ct : CaseTable) (format : Text → Except Exn Text) (ids : List Text)
    (required : List (Statement ct)) (doc : Document ct) : Prop where
  isList : doc.isList = true
  formats : ∃ rs, (required.map Statement.entries).mapM (formatStringValues format) = .ok rs ∧
    Sound ct ids rs doc.toList

/-! ## Elements -/

theorem isActionKey_ne {key : Text} (h : isActionKey key = true) : key ≠ "Condition".toList := by
  rintro rfl
  exact absurd h (by decide)

theorem readKeys_distinct {key : Text} {v : Value} (h : IsElement ct key v) :
    (readKeys ct key v).distinct = true := by
  rw [readKeys]
  split
  · rename_i hk
    exact h.condition hk
  · exact h.distinct

theorem normalizeStatementValue_eq {key : Text} {v : Value} (h : IsElement ct key v) :
    normalizeStatementValue ct key v = readKeys ct key v := by
  rw [normalizeStatementValue, readKeys]
  split
  · rename_i hk
    exact Nested.rekey_eq_mapKeys (h.condition hk)
  · rfl

theorem read_eq {key : Text} (h : isActionKey key = false) (v : Value) :
    read ct key v = (readKeys ct key v).mapLeaves Strings.items := by
  rw [read, h, readKeys]
  split
  · contradiction
  · split <;> rfl

theorem operand_eq {key : Text} (ha : isActionKey key = false) {v : Value}
    (h : IsElement ct key v) : operand ct key v = .value (readKeys ct key v) := by
  rw [operand, ha, if_neg Bool.false_ne_true, normalizeStatementValue_eq h]

theorem again_operand {key : Text} (ha : isActionKey key = false) {v : Value}
    (h : IsElement ct key v) : (operand ct key v).again ct key = .value (readKeys ct key v) := by
  rw [operand_eq ha h, Operand.again, operand, ha, if_neg Bool.false_ne_true,
    normalizeStatementValue, readKeys]
  split
  · rename_i hk
    have hkeys : (v.mapKeys ct.lower).mapKeys ct.lower = v.mapKeys ct.lower :=
      Nested.mapKeys_mapKeys ct.lower_lower v
    rw [normalizeConditionKeys, Nested.rekey_eq_mapKeys (by rw [hkeys]; exact h.condition hk), hkeys]
  · rfl

theorem within_eq {key : Text} (ha : isActionKey key = false) (v w : Value) :
    Within ct key v w = (readKeys ct key v).includedIn within (readKeys ct key w) := by
  rw [Within, read_eq ha, read_eq ha, Nested.includedIn_mapLeaves]
  rfl

theorem matchPartialStatement_spec {key : Text} (ha : isActionKey key = false) {v w : Value}
    (hv : IsElement ct key v) (hw : IsElement ct key w) {stmt : Entries Strings}
    (hs : stmt.lookup key = some w) :
    (clashesAt ct [key] key v w = true →
      ∃ e, matchPartialStatement ct key (operand ct key v) stmt = .error e) ∧
    (clashesAt ct [key] key v w = false →
      matchPartialStatement ct key (operand ct key v) stmt =
        .ok (Within ct key v w || namesKeys ct [key] key v w)) := by
  have hdv := readKeys_distinct hv
  have hdw := readKeys_distinct hw
  simp only [matchPartialStatement, hs, again_operand ha hv, operand_eq ha hw, clashesAt, namesKeys,
    within_eq ha, read_eq ha, List.mem_singleton, decide_true, Bool.true_and]
  generalize readKeys ct key v = v' at hdv
  generalize readKeys ct key w = w' at hdw
  cases v' with
  | leaf s =>
    refine ⟨(fun h => by cases h), fun _ => ?_⟩
    cases w' with
    | leaf s' =>
      simp only [Operand.members, Nested.includedIn, Nested.mapLeaves, Bool.or_false]
      rfl
    | dict d =>
      simp only [Operand.members, Nested.includedIn, Nested.mapLeaves, Bool.false_or,
        Entries.keys_mapLeaves]
  | dict b =>
    cases w' with
    | leaf s' => exact ⟨fun _ => ⟨noDictionary b, rfl⟩, (fun h => by cases h)⟩
    | dict d =>
      obtain ⟨herror, hok⟩ := mergeValue_spec hdv hdw
      simp only [Nested.mapLeaves, Bool.or_false]
      constructor
      · intro h
        obtain ⟨e, he⟩ := herror h
        cases hm : mergeDict d b with
        | error e' => exact ⟨e', rfl⟩
        | ok m =>
          simp only [mergeValue, hm, bind, Except.bind] at he
          cases he
      · intro h
        obtain ⟨x, hx, hiff⟩ := hok h
        simp only [mergeValue, bind_eq_ok, pure_eq_ok] at hx
        obtain ⟨m, hm, rfl⟩ := hx
        have hcompare : compareDicts m d = (Nested.dict b).includedIn within (.dict d) := by
          rw [Bool.eq_iff_iff, ← hiff, compareValue, compareDicts]
        simp only [hm, bind, Except.bind, pure, Except.pure, hcompare]

theorem operand_action (ct : CaseTable) {key : Text} (ha : isActionKey key = true) (s : Strings) :
    operand ct key (.leaf s) = .set (s.items.map ct.lower) ∧
      (operand ct key (.leaf s)).again ct key = .set (s.items.map ct.lower) := by
  have ho : operand ct key (.leaf s) = .set (s.items.map ct.lower) := by
    rw [operand, if_pos ha, normalizeStatementValue, if_neg (isActionKey_ne ha)]
    rfl
  refine ⟨ho, ?_⟩
  rw [ho, Operand.again, List.map_map]
  congr 1
  exact List.map_congr_left fun x _ => ct.lower_lower x

theorem read_action {key : Text} (ha : isActionKey key = true) (s : Strings) :
    read ct key (.leaf s) = .leaf (s.items.map ct.lower) := by
  rw [read, if_pos ha]
  rfl

theorem elementFound_spec (partialMatch : List Text) {key : Text} {v w : Value}
    (hv : IsElement ct key v) (hw : IsElement ct key w) {stmt : Entries Strings}
    (hs : stmt.lookup key = some w) :
    (clashesAt ct partialMatch key v w = true →
      ∃ e, elementFound ct partialMatch key v stmt = .error e) ∧
    (clashesAt ct partialMatch key v w = false →
      elementFound ct partialMatch key v stmt =
        .ok (matchesElement ct partialMatch key v w || namesKeys ct partialMatch key v w)) := by
  simp only [elementFound, hs]
  cases ha : isActionKey key
  · by_cases hp : key ∈ partialMatch
    · have hspec := matchPartialStatement_spec ha hv hw hs
      simp only [clashesAt, namesKeys, List.mem_singleton, decide_true, Bool.true_and] at hspec
      simp only [hp, if_true, clashesAt, matchesElement, namesKeys, decide_true, Bool.true_and,
        Bool.true_or, Bool.and_true]
      exact hspec
    · have heq : (formatDictWithSets (readKeys ct key v)).eq sameItems
          (formatDictWithSets (readKeys ct key w)) = (Within ct key v w && Within ct key w v) := by
        rw [Bool.eq_iff_iff, formatDictWithSets_eq (readKeys_distinct hv) (readKeys_distinct hw),
          Bool.and_eq_true, within_eq ha, within_eq ha]
      simp only [hp, if_false, clashesAt, matchesElement, namesKeys, decide_false, Bool.false_and,
        Bool.false_or, Bool.or_false, operand_eq ha hv, operand_eq ha hw, Operand.formatted, heq]
      exact ⟨(fun h => by cases h), fun _ => trivial⟩
  · obtain ⟨s, rfl⟩ := hv.action ha
    obtain ⟨s', rfl⟩ := hw.action ha
    obtain ⟨ho, hagain⟩ := operand_action ct ha s
    obtain ⟨ho', -⟩ := operand_action ct ha s'
    have hclash : clashesAt ct partialMatch key (.leaf s) (.leaf s') = false := by
      rw [clashesAt, readKeys, if_neg (isActionKey_ne ha), Bool.and_false]
    have hnames : namesKeys ct partialMatch key (.leaf s) (.leaf s') = false := by
      rw [namesKeys, read_action ha, read_action ha, Bool.and_false]
    rw [hclash, hnames, matchesElement, Within, Within, read_action ha, read_action ha, Bool.or_false]
    refine ⟨(fun h => by cases h), fun _ => ?_⟩
    by_cases hp : key ∈ partialMatch
    · simp only [hp, if_true, matchPartialStatement, hs, hagain, ho', Operand.members,
        Nested.includedIn, decide_true, Bool.true_or, Bool.and_true]
    · simp only [hp, if_false, ho, ho', Operand.formatted, Nested.eq, Nested.includedIn, sameItems,
        decide_false, Bool.false_or]

/-! ## Statements -/

theorem foundElements_spec (partialMatch : List Text) {es stmt : Entries Strings}
    (hes : es.Forall (IsElement ct)) (hstmt : stmt.Forall (IsElement ct)) :
    (someElement (clashesAt ct partialMatch) es stmt = true →
      ∃ e, foundElements ct partialMatch es stmt = .error e) ∧
    (someElement (clashesAt ct partialMatch) es stmt = false →
      ∃ n, foundElements ct partialMatch es stmt = .ok n ∧ n ≤ es.keys.length ∧
        (n = es.keys.length ↔ everyElement (fun key v w => matchesElement ct partialMatch key v w ||
          namesKeys ct partialMatch key v w) es stmt = true)) := by
  induction es using Entries.induction with
  | nil =>
    refine ⟨(fun h => by cases h), fun _ => ⟨0, rfl, Nat.le_refl 0, ?_⟩⟩
    simp [everyElement, Entries.keys]
  | cons key v es ih =>
    obtain ⟨herror, hok⟩ := ih hes.2
    have hfirst : ((stmt.lookup key).any (clashesAt ct partialMatch key v ·) = true →
        ∃ e, elementFound ct partialMatch key v stmt = .error e) ∧
        ((stmt.lookup key).any (clashesAt ct partialMatch key v ·) = false →
          elementFound ct partialMatch key v stmt = .ok ((stmt.lookup key).any fun w =>
            matchesElement ct partialMatch key v w || namesKeys ct partialMatch key v w)) := by
      cases hw : stmt.lookup key with
      | none => exact ⟨(fun h => by cases h), fun _ => by rw [elementFound, hw]; rfl⟩
      | some w => exact elementFound_spec partialMatch hes.1 (hstmt.lookup hw) hw
    simp only [someElement, everyElement, foundElements, Bool.or_eq_true, Bool.or_eq_false_iff]
    constructor
    · intro h
      cases hb : elementFound ct partialMatch key v stmt with
      | error e => exact ⟨e, rfl⟩
      | ok b =>
        rcases h with h | h
        · obtain ⟨e, he⟩ := hfirst.1 h
          rw [hb] at he
          cases he
        · obtain ⟨e, he⟩ := herror h
          exact ⟨e, by rw [he]; rfl⟩
    · rintro ⟨hno, hrest⟩
      obtain ⟨n, hn, hle, hall⟩ := hok hrest
      rw [hfirst.2 hno, hn, Bool.and_eq_true, ← hall, Entries.keys, List.length_cons]
      cases (stmt.lookup key).any fun w =>
        matchesElement ct partialMatch key v w || namesKeys ct partialMatch key v w
      · exact ⟨n, rfl, by omega, ⟨fun h => by omega, (fun h => by cases h.1)⟩⟩
      · exact ⟨n + 1, rfl, by omega, ⟨fun h => ⟨rfl, by omega⟩, fun h => by omega⟩⟩

theorem elements_ne_nil {r : Entries Strings} (h : IsStatement ct r) :
    (elements r).keys.length ≠ 0 := by
  intro hlen
  obtain ⟨v, hv⟩ := Entries.mem_keys.mp h.effect
  have hmem : "Effect".toList ∈ (elements r).keys := by
    refine Entries.mem_keys.mpr ⟨v, ?_⟩
    rw [elements, Entries.lookup_erase h.distinct, if_neg (by decide), hv]
  rw [List.eq_nil_of_length_eq_zero hlen] at hmem
  cases hmem

theorem foundElements_loose {r stmt : Entries Strings} (hr : IsStatement ct r)
    (hstmt : IsStatement ct stmt) :
    (someElement (clashesAt ct (partialElements r)) (elements r) stmt = true →
      ∃ e, foundElements ct (partialElements r) (elements r) stmt = .error e) ∧
    (someElement (clashesAt ct (partialElements r)) (elements r) stmt = false →
      ∃ n, foundElements ct (partialElements r) (elements r) stmt = .ok n ∧
        (n ≠ 0 ∧ n = (elements r).keys.length ↔ loose ct r stmt = true)) := by
  have helements : (elements r).Forall (IsElement ct) := hr.elements.erase partialMatchKey
  obtain ⟨herror, hok⟩ := foundElements_spec (partialElements r) helements hstmt.elements
  refine ⟨herror, fun h => ?_⟩
  obtain ⟨n, hn, -, hall⟩ := hok h
  refine ⟨n, hn, ?_⟩
  rw [loose, ← hall]
  have hne := elements_ne_nil hr
  exact ⟨fun h => h.2, fun h => ⟨by omega, h⟩⟩

theorem isMatched_spec {r : Entries Strings} (hr : IsStatement ct r)
    {stmts : List (Entries Strings)} (hstmts : ∀ s ∈ stmts, IsStatement ct s) :
    (reachesClash ct r stmts = true → ∃ e, isMatched ct r stmts = .error e) ∧
    (reachesClash ct r stmts = false →
      isMatched ct r stmts = .ok (stmts.any fun s => loose ct r s)) := by
  induction stmts with
  | nil => exact ⟨(fun h => by cases h), fun _ => rfl⟩
  | cons stmt stmts ih =>
    obtain ⟨hstmt, hrest⟩ := List.forall_mem_cons.mp hstmts
    obtain ⟨herror, hok⟩ := foundElements_loose hr hstmt
    simp only [reachesClash, isMatched, List.any_cons]
    cases hfirst : someElement (clashesAt ct (partialElements r)) (elements r) stmt
    · obtain ⟨n, hn, hall⟩ := hok hfirst
      rw [hn, Bool.false_or]
      simp only [bind, Except.bind]
      by_cases hloose : loose ct r stmt = true
      · rw [if_pos (hall.mpr hloose), hloose]
        exact ⟨(fun h => by cases h), fun _ => rfl⟩
      · rw [if_neg fun h => hloose (hall.mp h), Bool.eq_false_iff.mpr hloose]
        exact ih hrest
    · obtain ⟨e, he⟩ := herror hfirst
      rw [he]
      exact ⟨fun _ => ⟨e, rfl⟩, (fun h => by cases h)⟩

theorem getMatchedStatements_spec {rs stmts : List (Entries Strings)}
    (hrs : ∀ r ∈ rs, IsStatement ct r) (hstmts : ∀ s ∈ stmts, IsStatement ct s) :
    ((∃ r ∈ rs, reachesClash ct r stmts = true) →
      ∃ e, getMatchedStatements ct stmts rs = .error e) ∧
    ((∀ r ∈ rs, reachesClash ct r stmts = false) →
      ∃ found, getMatchedStatements ct stmts rs = .ok found ∧ found.length ≤ rs.length ∧
        (found.length = rs.length ↔ ∀ r ∈ rs, ∃ s ∈ stmts, loose ct r s = true)) := by
  induction rs with
  | nil =>
    refine ⟨?_, fun _ => ⟨[], rfl, Nat.le_refl 0, ?_⟩⟩
    · rintro ⟨r, hr, -⟩
      cases hr
    · simp
  | cons r rs ih =>
    obtain ⟨hr, hrest⟩ := List.forall_mem_cons.mp hrs
    obtain ⟨herror, hok⟩ := isMatched_spec hr hstmts
    simp only [getMatchedStatements, List.forall_mem_cons, List.exists_mem_cons_iff]
    constructor
    · intro h
      cases hb : isMatched ct r stmts with
      | error e => exact ⟨e, rfl⟩
      | ok b =>
        rcases h with h | h
        · obtain ⟨e, he⟩ := herror h
          rw [hb] at he
          cases he
        · obtain ⟨e, he⟩ := (ih hrest).1 h
          exact ⟨e, by rw [he]; rfl⟩
    · rintro ⟨hfirst, hlater⟩
      obtain ⟨found, hfound, hle, hall⟩ := (ih hrest).2 hlater
      rw [hok hfirst, hfound, ← hall, ← List.any_eq_true, List.length_cons]
      cases stmts.any fun s => loose ct r s
      · exact ⟨found, rfl, by omega, ⟨fun h => by omega, (fun h => by cases h.1)⟩⟩
      · exact ⟨elements r :: found, rfl, by rw [List.length_cons]; omega,
          ⟨fun h => ⟨rfl, by rw [List.length_cons] at h; omega⟩,
            fun h => by rw [List.length_cons, h.2]⟩⟩

/-! ## Statement ids -/

theorem mem_sids {id : Text} {stmts : List (Entries Strings)} :
    id ∈ sids stmts ↔ ∃ s ∈ stmts, s.lookup "Sid".toList = some (.leaf (.one id)) := by
  simp only [sids, List.mem_filterMap]
  refine exists_congr fun s => and_congr_right fun _ => ?_
  split
  · rename_i t hs
    rw [hs]
    simp
  · rename_i hs
    exact ⟨(fun h => by cases h), fun h => absurd h (hs id)⟩

theorem diff_sids_isEmpty {ids : List Text} {stmts : List (Entries Strings)} :
    (ids.diff (sids stmts)).isEmpty = true ↔ Listed ids stmts := by
  have hcount : ids.diff (sids stmts) = [] ↔
      ∀ id, (ids.diff (sids stmts)).count id = 0 := by
    simp only [List.count_eq_zero, List.eq_nil_iff_forall_not_mem]
  rw [List.isEmpty_iff, hcount]
  refine forall_congr' fun id => ?_
  rw [List.count_diff, Nat.sub_eq_zero_iff_le]
  refine ⟨fun h _ => h, fun h => ?_⟩
  by_cases hid : id ∈ ids
  · exact h hid
  · rw [List.count_eq_zero.mpr hid]
    exact Nat.zero_le _

theorem Listed.occurs {ids : List Text} {stmts : List (Entries Strings)} (h : Listed ids stmts) :
    ∀ id ∈ ids, ∃ s ∈ stmts, s.lookup "Sid".toList = some (.leaf (.one id)) := by
  intro id hid
  have hpos := Nat.lt_of_lt_of_le (List.count_pos_iff.mpr hid) (h id hid)
  exact mem_sids.mp (List.count_pos_iff.mp hpos)

/-! ## Formatting -/

/-- Whether a value is a string. -/
def Strings.isOne : Strings → Bool
  | .one _ => true
  | .many _ => false

theorem isOne_of_formatStrings {format : Text → Except Exn Text} {s t : Strings}
    (h : formatStrings format s = .ok t) : t.isOne = s.isOne := by
  cases s <;> simp only [formatStrings, bind_eq_ok, pure_eq_ok] at h <;>
    obtain ⟨_, -, rfl⟩ := h <;> rfl

theorem IsElement.of_mapLeaves {key : Text} {v w : Value}
    (h : v.mapLeaves Strings.isOne = w.mapLeaves Strings.isOne) (hv : IsElement ct key v) :
    IsElement ct key w := by
  constructor
  · rw [← Nested.distinct_mapLeaves Strings.isOne, ← h, Nested.distinct_mapLeaves]
    exact hv.distinct
  · intro ha
    obtain ⟨s, rfl⟩ := hv.action ha
    cases w with
    | leaf t => exact ⟨t, rfl⟩
    | dict es => cases h
  · intro hk
    rw [← Nested.distinct_mapLeaves Strings.isOne, ← Nested.mapKeys_mapLeaves, ← h,
      Nested.mapKeys_mapLeaves, Nested.distinct_mapLeaves]
    exact hv.condition hk
  · intro hk
    obtain ⟨t, rfl⟩ := hv.sid hk
    rcases w with s | es
    · cases s with
      | one u => exact ⟨u, rfl⟩
      | many xs => cases h
    · cases h

theorem IsStatement.formatted {format : Text → Except Exn Text} {es fs : Entries Strings}
    (hes : IsStatement ct es) (h : formatStringValues format es = .ok fs) :
    IsStatement ct fs := by
  have hshape : fs.mapLeaves Strings.isOne = es.mapLeaves Strings.isOne :=
    Entries.mapLeaves_of_mapLeavesM (fun _ _ => isOne_of_formatStrings) h
  constructor
  · have hdistinct := Nested.distinct_mapLeaves Strings.isOne (.dict fs)
    rw [Nested.mapLeaves, hshape, ← Nested.mapLeaves, Nested.distinct_mapLeaves] at hdistinct
    exact hdistinct.symm.trans hes.distinct
  · rw [← Entries.keys_mapLeaves Strings.isOne, hshape, Entries.keys_mapLeaves]
    exact hes.effect
  · exact Entries.Forall.of_mapLeaves (p := IsElement ct) (q := IsElement ct)
      (fun _ _ _ => IsElement.of_mapLeaves) hshape.symm hes.elements

theorem isStatement_formatted {format : Text → Except Exn Text} {required : List (Statement ct)}
    {rs : List (Entries Strings)}
    (h : (required.map Statement.entries).mapM (formatStringValues format) = .ok rs) :
    ∀ r ∈ rs, IsStatement ct r :=
  forall_of_mapM_eq_ok h fun es hes fs hfs => by
    obtain ⟨r, -, rfl⟩ := List.mem_map.mp hes
    exact r.isStatement.formatted hfs

/-! ## What the filter keeps -/

theorem loose_of_matchesStatement {r s : Entries Strings} (h : matchesStatement ct r s = true) :
    loose ct r s = true := by
  rw [matchesStatement] at h
  rw [loose]
  generalize elements r = es at h
  induction es using Entries.induction with
  | nil => rfl
  | cons key v es ih =>
    simp only [everyElement, Bool.and_eq_true, Option.any_eq_true] at h ⊢
    obtain ⟨⟨w, hw, hvw⟩, hrest⟩ := h
    exact ⟨⟨w, hw, by rw [hvw, Bool.true_or]⟩, ih hrest⟩

theorem Document.isStatement (doc : Document ct) : ∀ s ∈ doc.toList, IsStatement ct s := by
  intro s hs
  cases doc with
  | one s' =>
    rw [Document.toList, List.mem_singleton] at hs
    exact hs ▸ s'.isStatement
  | list ss =>
    obtain ⟨s', -, rfl⟩ := List.mem_map.mp hs
    exact s'.isStatement

theorem iter_one (s : Statement ct) :
    (Document.one s).statements.iter = .error .attributeError := by
  cases h : s.entries with
  | nil =>
    have heffect := s.isStatement.effect
    rw [h] at heffect
    cases heffect
  | cons k v es => rw [Document.statements, h, StatementList.iter]

theorem processResource_list {format : Text → Except Exn Text} (ids : List Text)
    {required : List (Statement ct)} {rs : List (Entries Strings)}
    (hrs : (required.map Statement.entries).mapM (formatStringValues format) = .ok rs)
    (ss : List (Statement ct)) :
    ((∃ r ∈ rs, reachesClash ct r (ss.map Statement.entries) = true) →
      ∃ e, processResource ct format ids (required.map Statement.entries)
        (some (Document.list ss).statements) = .error e) ∧
    ((∀ r ∈ rs, reachesClash ct r (ss.map Statement.entries) = false) →
      ∃ kept, processResource ct format ids (required.map Statement.entries)
          (some (Document.list ss).statements) = .ok kept ∧
        (kept = true ↔ Listed ids (ss.map Statement.entries) ∧
          ∀ r ∈ rs, ∃ s ∈ ss.map Statement.entries, loose ct r s = true)) := by
  obtain ⟨herror, hok⟩ :=
    getMatchedStatements_spec (isStatement_formatted hrs) (Document.list ss).isStatement
  simp only [processResource, Document.statements, StatementList.iter, hrs, bind, Except.bind]
  constructor
  · intro h
    obtain ⟨e, he⟩ := herror h
    simp only [Document.toList] at he
    exact ⟨e, by rw [he]⟩
  · intro h
    obtain ⟨found, hfound, -, hall⟩ := hok h
    simp only [Document.toList] at hfound hall
    rw [hfound]
    refine ⟨_, rfl, ?_⟩
    rw [Bool.and_eq_true, diff_sids_isEmpty, beq_iff_eq, hall]

theorem meets_iff_handled (format : Text → Except Exn Text) (ids : List Text)
    (required : List (Statement ct)) (doc : Document ct) :
    Meets ct format ids required doc ↔ Handled ct format ids required doc := by
  constructor
  · rintro ⟨rs, kept, hrs, hkept, hwanted⟩
    cases doc with
    | one s =>
      simp only [processResource, iter_one, bind, Except.bind] at hkept
      cases hkept
    | list ss =>
      refine ⟨rfl, rs, hrs, ?_⟩
      obtain ⟨herror, hok⟩ := processResource_list ids hrs ss
      have hno : ∀ r ∈ rs, reachesClash ct r (ss.map Statement.entries) = false := by
        intro r hr
        by_contra hclash
        obtain ⟨e, he⟩ := herror ⟨r, hr, Bool.not_eq_false _ ▸ hclash⟩
        rw [hkept] at he
        cases he
      obtain ⟨kept', hkept', hiff⟩ := hok hno
      rw [hkept, Except.ok.injEq] at hkept'
      subst hkept'
      exact ⟨hno, fun h => (hiff.mp (hwanted.mpr h)).1,
        fun hlisted hloose => (hwanted.mp (hiff.mpr ⟨hlisted, hloose⟩)).statements⟩
  · rintro ⟨hlist, rs, hrs, hsound⟩
    cases doc with
    | one s => cases hlist
    | list ss =>
      obtain ⟨kept, hkept, hiff⟩ := (processResource_list ids hrs ss).2 hsound.noClash
      refine ⟨rs, kept, hrs, hkept, ?_⟩
      rw [hiff]
      constructor
      · rintro ⟨hlisted, hloose⟩
        exact ⟨hlisted.occurs, hsound.byValue hlisted hloose⟩
      · intro h
        refine ⟨hsound.listed h, fun r hr => ?_⟩
        obtain ⟨s, hs, hmatch⟩ := h.statements r hr
        exact ⟨s, hs, loose_of_matchesStatement hmatch⟩

end Custodian.Statements

import Custodian.Lib.Split
import Custodian.Utils.GetRetry
import Mathlib.Data.List.Dedup

/-!
# Tagging without the ids that were rejected

`retry_skip_bad_ids` of `c7n/tags.py` sends a batch of ids to ec2.  A batch with an unusable id
fails as a whole, and the message of the error names that id; the batch is sent again without it.
-/

namespace Custodian.SkipBadIds

open Py
open GetRetry (Failure Answer)

/-! ## Errors -/

def invalid : Text := "Invalid".toList

def notFound : Text := ".NotFound".toList

def malformed : Text := ".Malformed".toList

/-- The text without one newline at its end, which `$` passes over. -/
def withoutNewline (s : Text) : Text := if s.getLast? = some '\n' then s.dropLast else s

/-- `Invalid.+` followed by the suffix; `.` is not a newline. -/
def isInvalid (suffix s : Text) : Bool :=
  let rest := s.drop invalid.length
  let middle := rest.take (rest.length - suffix.length)
  invalid.isPrefixOf s && suffix.isSuffixOf rest && middle ≠ [] && !middle.contains '\n'

/-- `EC2_BAD_RESOURCE_ID.match(code)` -/
def isBadResourceId (code : Text) : Bool :=
  isInvalid notFound (withoutNewline code) || isInvalid malformed (withoutNewline code)

def isQuote (c : Char) : Bool := c = '\'' || c = '"'

/-- `QUOTED_RESOURCE_IDS.findall`, where a quote may be open: what was read since is kept in
reverse. -/
def findQuoted : Option Text → Text → List Text
  | _, [] => []
  | none, c :: s => findQuoted (if isQuote c then some [] else none) s
  | some read, c :: s =>
    if isQuote c then
      -- nothing is between two quotes in a row: the second one opens
      if read = [] then findQuoted (some []) s else read.reverse :: findQuoted none s
    else findQuoted (some (c :: read)) s

def isEdge (c : Char) : Bool := c = ' ' || c = '[' || c = ']'

/-- `rid.strip(" []")` -/
def stripId (s : Text) : Text := ((s.dropWhile isEdge).reverse.dropWhile isEdge).reverse

/-- `extract_bad_resource_ids(e)`; another exception is not caught. -/
def extractBadResourceIds : Failure → List Text
  | .clientError code message =>
    if isBadResourceId code then
      (findQuoted none message).flatMap fun quoted => (quoted.splitOn ',').map stripId
    else []
  | .other _ => []

/-! ## What an error names -/

theorem findQuoted_of_plain {s : Text} (h : ∀ c ∈ s, isQuote c = false) (rest : Text) :
    findQuoted none (s ++ rest) = findQuoted none rest := by
  induction s with
  | nil => rfl
  | cons c s ih =>
    rw [List.forall_mem_cons] at h
    simpa [findQuoted, h.1] using ih h.2

theorem findQuoted_of_open {s : Text} (h : ∀ c ∈ s, isQuote c = false) (read rest : Text) :
    findQuoted (some read) (s ++ rest) = findQuoted (some (s.reverse ++ read)) rest := by
  induction s generalizing read with
  | nil => rfl
  | cons c s ih =>
    rw [List.forall_mem_cons] at h
    simpa [findQuoted, h.1] using ih h.2 (c :: read)

theorem findQuoted_append {plain quoted : Text} {q q' : Char}
    (hplain : ∀ c ∈ plain, isQuote c = false) (hq : isQuote q = true)
    (hquoted : ∀ c ∈ quoted, isQuote c = false) (hne : quoted ≠ []) (hq' : isQuote q' = true)
    (rest : Text) :
    findQuoted none (plain ++ q :: (quoted ++ q' :: rest)) = quoted :: findQuoted none rest := by
  rw [findQuoted_of_plain hplain, findQuoted, if_pos hq, findQuoted_of_open hquoted, findQuoted,
    if_pos hq', if_neg (by simpa using hne), List.append_nil, List.reverse_reverse]

theorem stripId_padded {pad id pad' : Text} (hpad : ∀ c ∈ pad, isEdge c = true)
    (hid : ∀ c ∈ id, isEdge c = false) (hpad' : ∀ c ∈ pad', isEdge c = true) :
    stripId (pad ++ (id ++ pad')) = id := by
  rw [stripId, List.dropWhile_append_of_pos hpad]
  cases id with
  | nil =>
    rw [List.nil_append, List.dropWhile_eq_nil_iff.mpr hpad']
    rfl
  | cons c id =>
    rw [List.cons_append, List.dropWhile_cons_of_neg (by simp [hid c]), ← List.cons_append,
      List.reverse_append, List.dropWhile_append_of_pos (by simpa using hpad'), dropWhile_of_head,
      List.reverse_reverse]
    intro x hx
    exact hid x (List.mem_reverse.mp (List.mem_of_mem_head? hx))

/-- An id between blanks and brackets. -/
structure Padded where
  before : Text
  id : Text
  after : Text
  edges : ∀ c ∈ before ++ after, isEdge c = true
  plain : ∀ c ∈ id, isEdge c = false ∧ isQuote c = false ∧ c ≠ ','

def Padded.text (p : Padded) : Text := p.before ++ (p.id ++ p.after)

theorem Padded.mem_text {p : Padded} {c : Char} (h : c ∈ p.text) : isQuote c = false ∧ c ≠ ',' := by
  have hedge : ∀ c, isEdge c = true → isQuote c = false ∧ c ≠ ',' := by
    intro c hc
    simp only [isEdge, Bool.or_eq_true, decide_eq_true_eq] at hc
    rcases hc with (rfl | rfl) | rfl <;> decide
  simp only [text, List.mem_append] at h
  rcases h with h | h | h
  · exact hedge c (p.edges c (List.mem_append_left _ h))
  · exact (p.plain c h).2
  · exact hedge c (p.edges c (List.mem_append_right _ h))

def padded (before id : String) (edges : ∀ c ∈ before.toList ++ [], isEdge c = true)
    (plain : ∀ c ∈ id.toList, isEdge c = false ∧ isQuote c = false ∧ c ≠ ',') : Padded :=
  ⟨before.toList, id.toList, [], edges, plain⟩

example : extractBadResourceIds (.clientError "InvalidInstanceID.NotFound".toList
    "The instance IDs '[i-1, i-2]' do not exist, nor does \"i-3\"".toList) =
    ["i-1".toList, "i-2".toList, "i-3".toList] := by decide

/-! ## The loop -/

variable {ρ σ : Type}

/-- `set(extract_bad_resource_ids(e)).intersection(resource_ids)` -/
def badIds (e : Failure) (resourceIds : List Text) : List Text :=
  (extractBadResourceIds e).dedup.filter (· ∈ resourceIds)

/-- The body of the loop after a call. -/
def afterCall (resourceIds : List Text) : Answer ρ → Answer (Option ρ) ⊕ List Text
  | .ok response => .inl (.ok (some response))
  | .error e =>
    let bad := badIds e resourceIds
    if bad = [] then .inl (.error e) else .inr (resourceIds.filter (· ∉ bad))

theorem mem_badIds {e : Failure} {resourceIds : List Text} {r : Text} :
    r ∈ badIds e resourceIds ↔ r ∈ extractBadResourceIds e ∧ r ∈ resourceIds := by
  rw [badIds, List.mem_filter, List.mem_dedup, decide_eq_true_eq]

theorem badIds_eq_nil {e : Failure} {resourceIds : List Text} :
    badIds e resourceIds = [] ↔ ∀ r ∈ resourceIds, r ∉ extractBadResourceIds e := by
  rw [List.eq_nil_iff_forall_not_mem]
  exact forall_congr' fun r => by rw [mem_badIds, not_and']

theorem afterCall_eq_inr {resourceIds rest : List Text} {answer : Answer ρ} :
    afterCall resourceIds answer = .inr rest ↔ ∃ e, answer = .error e ∧
      badIds e resourceIds ≠ [] ∧ rest = resourceIds.filter (· ∉ extractBadResourceIds e) := by
  cases answer with
  | ok response => simp [afterCall]
  | error e =>
    -- only ids of the list can be removed from it
    have hfilter : resourceIds.filter (· ∉ badIds e resourceIds) =
        resourceIds.filter (· ∉ extractBadResourceIds e) := by
      refine List.filter_congr fun r hr => ?_
      simp [mem_badIds, hr]
    simp only [afterCall, Except.error.injEq, exists_eq_left', ← hfilter]
    split
    · rename_i hbad
      exact iff_of_false (by rintro ⟨⟩) fun h => h.1 hbad
    · rename_i hbad
      rw [Sum.inr.injEq, and_iff_right hbad, eq_comm]

theorem length_filter_lt {e : Failure} {resourceIds : List Text} (h : badIds e resourceIds ≠ []) :
    (resourceIds.filter (· ∉ extractBadResourceIds e)).length < resourceIds.length := by
  obtain ⟨r, hr⟩ := List.exists_mem_of_ne_nil _ h
  obtain ⟨hnamed, hmem⟩ := mem_badIds.mp hr
  exact List.length_filter_lt_length_iff_exists.mpr ⟨r, hmem, by simpa using hnamed⟩

/-- `while resource_ids: try: return retry(…) except ClientError as e: …` -/
def skipLoop (ρ : Type) : Loop (List Text) (List Text) (Answer ρ) (Answer (Option ρ)) where
  ask resourceIds := if resourceIds = [] then .inl (.ok none) else .inr resourceIds
  next := afterCall
  size := List.length
  size_ask resourceIds q h := by
    split at h
    · cases h
    · exact List.length_pos_of_ne_nil ‹_›
  size_next resourceIds q answer rest _ hnext := by
    obtain ⟨e, -, hbad, rfl⟩ := afterCall_eq_inr.mp hnext
    exact length_filter_lt hbad

/-- `retry_skip_bad_ids`; `call` is what `retry(method, Resources=…, **kw)` comes to. -/
def retrySkipBadIds (call : σ → List Text → Answer ρ × σ) (s : σ) (resourceIds : List Text) :
    Session (List Text) (Answer ρ) (Answer (Option ρ)) σ :=
  (skipLoop ρ).run call s resourceIds

/-! ## What is expected of a run -/

/-- The ids that the error of a call names. -/
def named (c : Call (List Text) (Answer ρ)) : List Text :=
  match c.answer with
  | .ok _ => []
  | .error e => extractBadResourceIds e

/-- The ids that none of these calls has named, in their order. -/
def unnamed (resourceIds : List Text) (calls : List (Call (List Text) (Answer ρ))) : List Text :=
  resourceIds.filter fun r => ∀ c ∈ calls, r ∉ named c

/-- Rejected ids are skipped, no other ones, and no other error is. -/
structure Skips (resourceIds : List Text)
    (run : Session (List Text) (Answer ρ) (Answer (Option ρ)) σ) : Prop where
  bounded : run.calls.length ≤ resourceIds.length
  sent : ∀ before c after, run.calls = before ++ c :: after →
    c.request = unnamed resourceIds before ∧ c.request ≠ []
  returned : ∀ response, run.result = .ok (some response) →
    ∃ before c, run.calls = before ++ [c] ∧ c.answer = .ok response
  drained : run.result = .ok none → unnamed resourceIds run.calls = []
  raised : ∀ e, run.result = .error e → ∃ before c, run.calls = before ++ [c] ∧
    c.answer = .error e ∧ ∀ r ∈ c.request, r ∉ extractBadResourceIds e
  answered : ∀ before c after response, run.calls = before ++ c :: after →
    c.answer = .ok response → after = [] ∧ run.result = .ok (some response)
  reraised : ∀ before c after e, run.calls = before ++ c :: after → c.answer = .error e →
    (∀ r ∈ c.request, r ∉ extractBadResourceIds e) → after = [] ∧ run.result = .error e

/-! ## Rounds -/

theorem ask_eq_inr {resourceIds q : List Text} :
    (skipLoop ρ).ask resourceIds = .inr q ↔ q = resourceIds ∧ resourceIds ≠ [] := by
  by_cases h : resourceIds = [] <;> simp [skipLoop, h, eq_comm]

theorem ask_eq_inl {resourceIds : List Text} {r : Answer (Option ρ)} :
    (skipLoop ρ).ask resourceIds = .inl r ↔ resourceIds = [] ∧ r = .ok none := by
  by_cases h : resourceIds = [] <;> simp [skipLoop, h, eq_comm]

theorem next_eq_inl {resourceIds : List Text} {answer : Answer ρ} {r : Answer (Option ρ)} :
    (skipLoop ρ).next resourceIds answer = .inl r ↔
      (∃ response, answer = .ok response ∧ r = .ok (some response)) ∨
        ∃ e, answer = .error e ∧ r = .error e ∧ ∀ i ∈ resourceIds, i ∉ extractBadResourceIds e := by
  cases answer with
  | ok response => simp [skipLoop, afterCall, eq_comm]
  | error e =>
    by_cases h : badIds e resourceIds = []
    · have hnone : ∀ i ∈ resourceIds, i ∉ extractBadResourceIds e := badIds_eq_nil.mp h
      simp only [skipLoop, afterCall, h, ↓reduceIte, Sum.inl.injEq, reduceCtorEq, false_and,
        exists_false, Except.error.injEq, exists_eq_left', false_or, and_iff_left hnone]
      exact eq_comm
    · have hsome := mt badIds_eq_nil.mpr h
      simp [skipLoop, afterCall, h, hsome]

theorem unnamed_concat (resourceIds : List Text) (calls : List (Call (List Text) (Answer ρ)))
    (c : Call (List Text) (Answer ρ)) :
    unnamed resourceIds (calls ++ [c]) = (unnamed resourceIds calls).filter (· ∉ named c) := by
  rw [unnamed, unnamed, List.filter_filter]
  refine List.filter_congr fun r _ => ?_
  simp [or_imp, forall_and, and_comm]

theorem unnamed_step (resourceIds : List Text) (before : List (Call (List Text) (Answer ρ)))
    (x : List Text) (c : Call (List Text) (Answer ρ)) (x' : List Text)
    (hx : x = unnamed resourceIds before) (hnext : (skipLoop ρ).next x c.answer = .inr x') :
    x' = unnamed resourceIds (before ++ [c]) := by
  obtain ⟨e, he, -, rfl⟩ := afterCall_eq_inr.mp hnext
  rw [unnamed_concat, ← hx, named, he]

section Runs

variable {call : σ → List Text → Answer ρ × σ} {s : σ} {resourceIds : List Text}

theorem unnamed_nil :
    unnamed resourceIds ([] : List (Call (List Text) (Answer ρ))) = resourceIds := by
  simp [unnamed]

theorem retrySkipBadIds_round {before after : List (Call (List Text) (Answer ρ))}
    {c : Call (List Text) (Answer ρ)}
    (hcalls : (retrySkipBadIds call s resourceIds).calls = before ++ c :: after) :
    (c.request = unnamed resourceIds before ∧ c.request ≠ []) ∧
      ((skipLoop ρ).next c.request c.answer = .inl (retrySkipBadIds call s resourceIds).result ∧
          after = [] ∨
        ∃ rest, (skipLoop ρ).next c.request c.answer = .inr rest) := by
  obtain ⟨x, hx, hask, hnext⟩ := ((skipLoop ρ).attempts_run call s resourceIds).round
    (fun before x c x' hx _ hnext => unnamed_step resourceIds before x c x' hx hnext)
    unnamed_nil.symm hcalls
  obtain ⟨rfl, hne⟩ := ask_eq_inr.mp hask
  exact ⟨⟨hx, hne⟩, hnext⟩

variable (call s resourceIds) in
theorem retrySkipBadIds_ends :
    ((retrySkipBadIds call s resourceIds).result = .ok none ∧
      unnamed resourceIds (retrySkipBadIds call s resourceIds).calls = []) ∨
    ∃ before c, (retrySkipBadIds call s resourceIds).calls = before ++ [c] ∧
      ((∃ response, c.answer = .ok response ∧
          (retrySkipBadIds call s resourceIds).result = .ok (some response)) ∨
        ∃ e, c.answer = .error e ∧ (retrySkipBadIds call s resourceIds).result = .error e ∧
          ∀ r ∈ c.request, r ∉ extractBadResourceIds e) := by
  rcases ((skipLoop ρ).attempts_run call s resourceIds).ends
    (fun before x c x' hx _ hnext => unnamed_step resourceIds before x c x' hx hnext)
    unnamed_nil.symm with ⟨x, hx, hask⟩ | ⟨before, c, x, hcalls, -, hask, hnext⟩
  · obtain ⟨rfl, hresult⟩ := ask_eq_inl.mp hask
    exact Or.inl ⟨hresult, hx.symm⟩
  · obtain ⟨rfl, -⟩ := ask_eq_inr.mp hask
    exact Or.inr ⟨before, c, hcalls, next_eq_inl.mp hnext⟩

end Runs

/-- **Rejected ids.**  For every service, the calls are made with what earlier errors have not
named, and the loop ends with the first success, with the first error that names nothing that was
sent, or with an empty list. -/
theorem retrySkipBadIds_skips (call : σ → List Text → Answer ρ × σ) (s : σ)
    (resourceIds : List Text) : Skips resourceIds (retrySkipBadIds call s resourceIds) := by
  have hends := retrySkipBadIds_ends call s resourceIds
  refine
    { bounded := (skipLoop ρ).length_calls_le call s resourceIds
      sent := fun before c after hcalls => (retrySkipBadIds_round hcalls).1
      returned := ?_
      drained := ?_
      raised := ?_
      answered := ?_
      reraised := ?_ }
  · intro response hresult
    rcases hends with ⟨hr, -⟩ | ⟨before, c, hcalls, ⟨response', hanswer, hr⟩ | ⟨e, -, hr, -⟩⟩
    · cases hresult.symm.trans hr
    · cases hresult.symm.trans hr
      exact ⟨before, c, hcalls, hanswer⟩
    · cases hresult.symm.trans hr
  · intro hresult
    rcases hends with ⟨-, hnone⟩ | ⟨before, c, -, ⟨response, -, hr⟩ | ⟨e, -, hr, -⟩⟩
    · exact hnone
    · cases hresult.symm.trans hr
    · cases hresult.symm.trans hr
  · intro e hresult
    rcases hends with ⟨hr, -⟩ | ⟨before, c, hcalls, ⟨response, -, hr⟩ | ⟨e', hanswer, hr, hnone⟩⟩
    · cases hresult.symm.trans hr
    · cases hresult.symm.trans hr
    · cases hresult.symm.trans hr
      exact ⟨before, c, hcalls, hanswer, hnone⟩
  · intro before c after response hcalls hanswer
    rcases (retrySkipBadIds_round hcalls).2 with ⟨hnext, hafter⟩ | ⟨rest, hnext⟩
    · rw [hanswer] at hnext
      exact ⟨hafter, (Sum.inl.inj hnext).symm⟩
    · rw [hanswer] at hnext
      cases hnext
  · intro before c after e hcalls hanswer hnone
    have hlast : (skipLoop ρ).next c.request c.answer = .inl (.error e) :=
      next_eq_inl.mpr (Or.inr ⟨e, hanswer, rfl, hnone⟩)
    rcases (retrySkipBadIds_round hcalls).2 with ⟨hnext, hafter⟩ | ⟨rest, hnext⟩
    · exact ⟨hafter, Sum.inl.inj (hnext.symm.trans hlast)⟩
    · cases hnext.symm.trans hlast

end Custodian.SkipBadIds

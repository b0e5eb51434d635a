import Custodian.Lib.Except
import Mathlib.Data.Fintype.Card
import Mathlib.Data.Set.Finite.Basic
import Mathlib.Logic.Relation

/-!
# Collecting what is reachable, after the search has returned

A search that calls itself for each successor that is not among those found, and adds the successor
when the call has returned.
-/

namespace Py.PostOrder

variable {α ε : Type}

/-! ## Graphs -/

/-- The successors of a node, or what the search raises there. -/
abbrev Graph (α ε : Type) := α → Except ε (List α)

variable (next : Graph α ε)

def Edge (x y : α) : Prop := ∃ l, next x = .ok l ∧ y ∈ l

/-- Nothing raises at the node or after it, and there is no infinite path from it. -/
structure Searchable (x : α) : Prop where
  acc : Acc (fun b a => Edge next a b) x
  ok : ∀ y, Relation.ReflTransGen (Edge next) x y → ∃ l, next y = .ok l

variable {next}

theorem Searchable.of_edge {x y : α} (h : Searchable next x) (hy : Edge next x y) :
    Searchable next y :=
  ⟨h.acc.inv hy, fun z hz => h.ok z (.head hy hz)⟩

theorem searchable_of_next {x : α} {l : List α} (hl : next x = .ok l)
    (h : ∀ y ∈ l, Searchable next y) : Searchable next x := by
  have hedge : ∀ y, Edge next x y → y ∈ l := by
    rintro y ⟨l', hl', hy⟩
    cases hl.symm.trans hl'
    exact hy
  refine ⟨⟨x, fun y hy => (h y (hedge y hy)).acc⟩, fun y hy => ?_⟩
  rcases Relation.ReflTransGen.cases_head hy with rfl | ⟨z, hz, hzy⟩
  · exact ⟨l, hl⟩
  · exact (h z (hedge z hz)).ok y hzy

theorem not_transGen_self {x : α} (h : Acc (fun b a => Edge next a b) x) :
    ¬Relation.TransGen (Edge next) x x := by
  induction h with
  | intro x _ ih =>
    intro hx
    obtain ⟨y, hy, hyx⟩ := Relation.TransGen.head'_iff.mp hx
    exact ih y hy (.tail' hyx hy)

/-- If finitely many nodes are reachable, then there is no infinite path if there is no cycle. -/
theorem acc_iff_acyclic {x : α} (hfin : {y | Relation.ReflTransGen (Edge next) x y}.Finite) :
    Acc (fun b a => Edge next a b) x ↔
      ∀ y, Relation.ReflTransGen (Edge next) x y → ¬Relation.TransGen (Edge next) y y := by
  constructor
  · intro h y hy
    refine not_transGen_self (?_ : Acc (fun b a => Edge next a b) y)
    induction hy with
    | refl => exact h
    | tail _ hyz ih => exact ih.inv hyz
  · intro h
    -- the nodes that are reachable, with the paths among them
    let R := {y // Relation.ReflTransGen (Edge next) x y}
    have hfinite : Finite R := hfin
    let step : R → R → Prop := fun b a => Relation.TransGen (Edge next) a.1 b.1
    have : IsTrans R step := ⟨fun _ _ _ hab hbc => hbc.trans hab⟩
    have : Std.Irrefl step := ⟨fun a ha => h a.1 a.2 ha⟩
    have hwf : WellFounded step := Finite.wellFounded_of_trans_of_irrefl step
    have hacc : ∀ a : R, Acc (fun b a => Edge next a b) a.1 := by
      intro a
      induction a using hwf.induction with
      | _ a ih => exact ⟨a.1, fun b hb => ih ⟨b, a.2.tail hb⟩ (.single hb)⟩
    exact hacc ⟨x, .refl⟩

/-! ## What is found -/

/-- What has been found: once each, with all that is reachable from it. -/
structure Found (next : Graph α ε) (found : List α) : Prop where
  nodup : found.Nodup
  searchable : ∀ y ∈ found, Searchable next y
  closed : ∀ y ∈ found, ∀ z, Edge next y z → z ∈ found

theorem Found.nil : Found next [] := by
  refine ⟨.nil, ?_, ?_⟩ <;> intro y hy <;> cases hy

theorem Found.reachable {found : List α} (h : Found next found) {x y : α}
    (hx : ∀ z, Edge next x z → z ∈ found) (hy : Relation.TransGen (Edge next) x y) : y ∈ found := by
  induction hy with
  | single hy => exact hx _ hy
  | tail _ hyz ih => exact h.closed _ ih _ hyz

theorem Found.concat {found : List α} (h : Found next found) {x : α} (hx : x ∉ found)
    (hs : Searchable next x) (hclosed : ∀ z, Edge next x z → z ∈ found) :
    Found next (found ++ [x]) := by
  refine ⟨?_, ?_, ?_⟩
  · rw [List.nodup_append_comm, List.singleton_append, List.nodup_cons]
    exact ⟨hx, h.nodup⟩
  · intro y hy
    rcases List.mem_append.mp hy with hy | hy
    · exact h.searchable y hy
    · rw [List.mem_singleton.mp hy]
      exact hs
  · intro y hy z hz
    refine List.mem_append_left _ ?_
    rcases List.mem_append.mp hy with hy | hy
    · exact h.closed y hy z hz
    · rw [List.mem_singleton.mp hy] at hz
      exact hclosed z hz

/-- What a call for a node does, when it returns. -/
structure Collected (next : Graph α ε) (x : α) (found found' : List α) : Prop where
  searchable : Searchable next x
  all : Found next found'
  subset : found ⊆ found'
  successors : ∀ y, Edge next x y → y ∈ found'
  reachable : ∀ y ∈ found', y ∈ found ∨ Relation.TransGen (Edge next) x y

/-! ## The search -/

variable [BEq α] [LawfulBEq α]

/-- The loop over the successors. -/
def visit (call : α → List α → Except ε (List α)) : List α → List α → Except ε (List α)
  | [], found => .ok found
  | x :: l, found =>
    if x ∈ found then visit call l found
    else do
      let found ← call x found
      visit call l (found ++ [x])

/-- The search from a node, with calls nested to a depth at most. -/
def collect (next : Graph α ε) (tooDeep : ε) : Nat → α → List α → Except ε (List α)
  | 0, _, _ => .error tooDeep
  | depth + 1, x, found => do visit (collect next tooDeep depth) (← next x) found

/-- The loop finds its nodes and what is reachable from them. -/
theorem visit_spec {call : α → List α → Except ε (List α)}
    (hcall : ∀ x found found', Found next found → call x found = .ok found' →
      Collected next x found found') {l found found' : List α} (hfound : Found next found)
    (h : visit call l found = .ok found') :
    Found next found' ∧ found ⊆ found' ∧ (∀ x ∈ l, x ∈ found') ∧
      ∀ y ∈ found', y ∈ found ∨ ∃ x ∈ l, Relation.ReflTransGen (Edge next) x y := by
  induction l generalizing found with
  | nil =>
    cases h
    exact ⟨hfound, List.Subset.refl _, fun x hx => absurd hx List.not_mem_nil, fun y hy => Or.inl hy⟩
  | cons x l ih =>
    rw [visit] at h
    split at h
    · rename_i hx
      obtain ⟨hf, hsub, hmem, hreach⟩ := ih hfound h
      refine ⟨hf, hsub, List.forall_mem_cons.mpr ⟨hsub hx, hmem⟩, fun y hy => ?_⟩
      exact (hreach y hy).imp_right fun ⟨z, hz, hzy⟩ => ⟨z, List.mem_cons_of_mem _ hz, hzy⟩
    · rename_i hx
      obtain ⟨mid, hmid, h⟩ := bind_eq_ok.mp h
      obtain ⟨hs, hf, hsub, hsucc, hreach⟩ := hcall x found mid hfound hmid
      -- the node is new: it was not found before, and it is on no cycle
      have hnew : x ∉ mid := fun hm => (hreach x hm).elim hx (not_transGen_self hs.acc)
      obtain ⟨hf', hsub', hmem', hreach'⟩ := ih (hf.concat hnew hs hsucc) h
      refine ⟨hf', fun y hy => hsub' (List.mem_append_left _ (hsub hy)),
        List.forall_mem_cons.mpr ⟨hsub' (by simp), hmem'⟩, fun y hy => ?_⟩
      rcases hreach' y hy with hy | ⟨z, hz, hzy⟩
      · rcases List.mem_append.mp hy with hy | hy
        · exact (hreach y hy).imp_right fun hxy => ⟨x, List.mem_cons_self, hxy.to_reflTransGen⟩
        · exact Or.inr ⟨x, List.mem_cons_self, List.mem_singleton.mp hy ▸ .refl⟩
      · exact Or.inr ⟨z, List.mem_cons_of_mem _ hz, hzy⟩

/-- **Soundness.**  A call that returns was for a node without infinite paths, and has found what is
reachable from it. -/
theorem collect_spec {tooDeep : ε} (depth : Nat) (x : α) (found found' : List α)
    (hfound : Found next found) (h : collect next tooDeep depth x found = .ok found') :
    Collected next x found found' := by
  induction depth generalizing x found found' with
  | zero => cases h
  | succ depth ih =>
    obtain ⟨l, hl, h⟩ := bind_eq_ok.mp h
    obtain ⟨hf, hsub, hmem, hreach⟩ := visit_spec ih hfound h
    have hedge : ∀ y, Edge next x y ↔ y ∈ l := by
      refine fun y => ⟨?_, fun hy => ⟨l, hl, hy⟩⟩
      rintro ⟨l', hl', hy⟩
      cases hl.symm.trans hl'
      exact hy
    refine ⟨searchable_of_next hl fun y hy => hf.searchable y (hmem y hy), hf, hsub,
      fun y hy => hmem y ((hedge y).mp hy), fun y hy => ?_⟩
    refine (hreach y hy).imp_right ?_
    rintro ⟨z, hz, hzy⟩
    exact .head' ((hedge z).mpr hz) hzy

/-! ## Depth -/

theorem visit_mono {call call' : α → List α → Except ε (List α)}
    (h : ∀ x found found', call x found = .ok found' → call' x found = .ok found')
    {l found found' : List α} (hv : visit call l found = .ok found') :
    visit call' l found = .ok found' := by
  induction l generalizing found with
  | nil => exact hv
  | cons x l ih =>
    rw [visit] at hv ⊢
    split at hv
    · rw [if_pos ‹_›]
      exact ih hv
    · rw [if_neg ‹_›]
      obtain ⟨mid, hmid, hv⟩ := bind_eq_ok.mp hv
      exact bind_eq_ok.mpr ⟨mid, h _ _ _ hmid, ih hv⟩

theorem collect_mono {tooDeep : ε} {depth depth' : Nat} (hle : depth ≤ depth') {x : α}
    {found found' : List α} (h : collect next tooDeep depth x found = .ok found') :
    collect next tooDeep depth' x found = .ok found' := by
  induction depth generalizing depth' x found found' with
  | zero => cases h
  | succ depth ih =>
    cases depth' with
    | zero => cases hle
    | succ depth' =>
      obtain ⟨l, hl, h⟩ := bind_eq_ok.mp h
      exact bind_eq_ok.mpr ⟨l, hl, visit_mono (fun x found found' =>
        ih (Nat.le_of_succ_le_succ hle)) h⟩

/-- **Termination.**  From a node without infinite paths a call returns, whatever was found. -/
theorem exists_collect (tooDeep : ε) {x : α} (h : Searchable next x) :
    ∃ depth, ∀ found, ∃ found', collect next tooDeep depth x found = .ok found' := by
  induction h.acc with
  | intro x _ ih =>
    obtain ⟨l, hl⟩ := h.ok x .refl
    -- a depth that is enough for all successors
    have hall : ∃ depth, ∀ y ∈ l, ∀ found, ∃ found',
        collect next tooDeep depth y found = .ok found' := by
      have hsub : ∀ y ∈ l, Edge next x y := fun y hy => ⟨l, hl, hy⟩
      clear hl
      induction l with
      | nil => exact ⟨0, fun y hy => absurd hy List.not_mem_nil⟩
      | cons y l ihl =>
        rw [List.forall_mem_cons] at hsub
        obtain ⟨d, hd⟩ := ih y hsub.1 (h.of_edge hsub.1)
        obtain ⟨d', hd'⟩ := ihl hsub.2
        refine ⟨max d d', List.forall_mem_cons.mpr ⟨fun found => ?_, fun z hz found => ?_⟩⟩
        · exact (hd found).imp fun _ hc => collect_mono (le_max_left d d') hc
        · exact (hd' z hz found).imp fun _ hc => collect_mono (le_max_right d d') hc
    obtain ⟨depth, hdepth⟩ := hall
    refine ⟨depth + 1, fun found => ?_⟩
    have hvisit : ∃ found', visit (collect next tooDeep depth) l found = .ok found' := by
      clear hl
      induction l generalizing found with
      | nil => exact ⟨found, rfl⟩
      | cons y l ihl =>
        rw [List.forall_mem_cons] at hdepth
        rw [visit]
        split
        · exact ihl hdepth.2 found
        · obtain ⟨mid, hmid⟩ := hdepth.1 found
          obtain ⟨found', hfound'⟩ := ihl hdepth.2 (mid ++ [y])
          exact ⟨found', bind_eq_ok.mpr ⟨mid, hmid, hfound'⟩⟩
    obtain ⟨found', hfound'⟩ := hvisit
    exact ⟨found', bind_eq_ok.mpr ⟨l, hl, hfound'⟩⟩

/-- **Searching.**  A search that starts with nothing found returns if and only if there is no
infinite path, and then it has found what is reachable, once each. -/
theorem collect_iff (tooDeep : ε) {x : α} :
    (∃ depth found, collect next tooDeep depth x [] = .ok found ∧ found.Nodup ∧
      ∀ y, y ∈ found ↔ Relation.TransGen (Edge next) x y) ↔ Searchable next x := by
  constructor
  · rintro ⟨depth, found, h, -⟩
    exact (collect_spec depth x [] found .nil h).searchable
  · intro h
    obtain ⟨depth, hdepth⟩ := exists_collect tooDeep h
    obtain ⟨found, hfound⟩ := hdepth []
    obtain ⟨-, hf, -, hsucc, hreach⟩ := collect_spec depth x [] found .nil hfound
    exact ⟨depth, found, hfound, hf.nodup, fun y =>
      ⟨fun hy => (hreach y hy).resolve_left List.not_mem_nil, hf.reachable hsucc⟩⟩

end Py.PostOrder

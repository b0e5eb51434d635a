import Custodian.Lib.Items
import Custodian.Lib.Numeral

/-!
# Sizes that are saved and restored

`Resize` of `c7n/resources/asg.py`.  A resize saves the sizes that a group has to a tag and then sets
new ones; a later one sets the sizes that a tag names.
-/

namespace Custodian.Resize

open Py

/-! ## Groups -/

/-- `asg_params` -/
inductive Param where
  | minSize
  | maxSize
  | desiredCapacity
  deriving DecidableEq

def Param.name : Param → Text
  | .minSize => "MinSize".toList
  | .maxSize => "MaxSize".toList
  | .desiredCapacity => "DesiredCapacity".toList

def asgParams : List Param := [.minSize, .maxSize, .desiredCapacity]

/-- The sizes of a group, which are numbers of 32 bits. -/
structure Sizes where
  minSize : Nat
  maxSize : Nat
  desiredCapacity : Nat
  ordered : minSize ≤ desiredCapacity ∧ desiredCapacity ≤ maxSize
  fits : maxSize < 2 ^ 31

def Sizes.get (s : Sizes) : Param → Nat
  | .minSize => s.minSize
  | .maxSize => s.maxSize
  | .desiredCapacity => s.desiredCapacity

/-- A group with its tags, which have distinct keys, and the number of its instances. -/
structure Asg where
  tags : List (Text × Text)
  instances : Nat
  sizes : Sizes
  distinct : (tags.map Prod.fst).Nodup

/-- `update` -/
abbrev Update := List (Param × Int)

/-- The service, which sets the sizes that an update names, may change others with them, and may
refuse an update. -/
structure Service where
  update : Sizes → Update → Except Exn Sizes
  sets : ∀ s u s', update s u = .ok s' → ∀ p n, Items.get p u = some n → (s'.get p : Int) = n
  same : ∀ s u, (∀ p n, Items.get p u = some n → (s.get p : Int) = n) → update s u = .ok s
  full : ∀ s u s', (∀ p, Items.get p u = some (s'.get p : Int)) → update s u = .ok s'

/-- The order in which a set of texts is listed. -/
structure Order where
  list : List Text → List Text
  perm : ∀ l, (list l).Perm l

/-! ## The action -/

inductive DesiredSize where
  | current
  | fixed (n : Nat)
  deriving DecidableEq

structure Data where
  minSize : Option Nat
  maxSize : Option Nat
  desiredSize : Option DesiredSize
  /-- `desired_size`, the previous name -/
  desired_size : Option DesiredSize
  saveOptionsTag : Option Text
  restoreOptionsTag : Option Text

/-- `desired-size`, or else `desired_size`. -/
def Data.desired (d : Data) : Option DesiredSize := d.desiredSize.or d.desired_size

/-- One field of a saved value. -/
def restoreField (update : Update) (field : Text) : Except Exn Update :=
  match field.splitOn '=' with
  | [param, value] =>
    match asgParams.find? fun p => p.name = param with
    | some p => (intText value).map fun n => Items.set p n update
    | none => .ok update
  | _ => .error (.raised "ValueError".toList)

/-- The sizes that a tag names, if the group has it. -/
def restoreUpdate (tag : Text) (a : Asg) : Except Exn Update :=
  match Items.get tag (Items.ofList a.tags) with
  | some value => (value.splitOn ';').foldlM restoreField []
  | none => .ok []

/-- The sizes by the configuration. -/
def resizeUpdate (d : Data) (a : Asg) : Update :=
  let update : Update := match d.minSize with
    | some n => Items.set Param.minSize (n : Int) []
    | none => []
  let update : Update := match d.maxSize with
    | some n => Items.set Param.maxSize (n : Int) update
    | none => update
  match d.desired with
  | some .current =>
    let update : Update :=
      Items.set Param.desiredCapacity ((min a.instances a.sizes.desiredCapacity : Nat) : Int) update
    if (Items.get Param.minSize update).isNone then
      Items.set Param.minSize ((min a.instances a.sizes.minSize : Nat) : Int) update
    else update
  | some (.fixed n) => Items.set Param.desiredCapacity (n : Int) update
  | none => update

def updateOf (d : Data) (a : Asg) : Except Exn Update :=
  match d.restoreOptionsTag with
  | some tag => restoreUpdate tag a
  | none => .ok (resizeUpdate d a)

/-- `'%s=%d' % (param, a[param])` -/
def field (s : Sizes) (p : Param) : Text := p.name ++ '=' :: Nat.toDigits 10 (s.get p)

/-- The value of the tag that the sizes are saved to; the fields are a set. -/
def savedValue (order : Order) (s : Sizes) : Text :=
  [';'].intercalate (order.list (asgParams.map (field s)))

/-- `create_or_update_tags`, when sizes are to be saved. -/
def saved (d : Data) (order : Order) (a : Asg) : Asg :=
  match d.saveOptionsTag with
  | some tag => { a with
      tags := Items.set tag (savedValue order a.sizes) a.tags
      distinct := Items.keys_nodup_set a.distinct }
  | none => a

/-- `process` for one group: the group after it, and whether it raises. -/
def process (service : Service) (d : Data) (order : Order) (a : Asg) : Asg × Except Exn Unit :=
  match updateOf d a with
  | .error e => (a, .error e)
  | .ok [] => (a, .ok ())
  | .ok update =>
    let a := saved d order a
    match service.update a.sizes update with
    | .ok s => ({ a with sizes := s }, .ok ())
    | .error e => (a, .error e)

/-- Runs of one configuration, each on the group as the one before leaves it. -/
def runs (service : Service) (d : Data) (orders : List Order) (a : Asg) : Asg :=
  orders.foldl (fun a order => (process service d order a).1) a

/-! ## Saved values -/

theorem get_lt (s : Sizes) (p : Param) : s.get p < 2 ^ 31 := by
  have hfits := s.fits
  have hordered := s.ordered
  cases p <;> simp only [Sizes.get] <;> omega

theorem length_digits_le (s : Sizes) (p : Param) :
    (Nat.toDigits 10 (s.get p)).length ≤ maxStrDigits := by
  have hten : (Nat.toDigits 10 (s.get p)).length ≤ 10 := by
    rw [Nat.length_toDigits_le_iff (by decide) (by decide)]
    exact Nat.lt_trans (get_lt s p) (by decide)
  exact Nat.le_trans hten (by decide)

theorem not_mem_digits {c : Char} (hc : c.isDigit = false) (n : Nat) : c ∉ Nat.toDigits 10 n := by
  intro h
  rw [Nat.isDigit_of_mem_toDigits (by decide) (by decide) h] at hc
  cases hc

theorem not_mem_field (s : Sizes) (p : Param) : ';' ∉ field s p := by
  have hname : ';' ∉ p.name := by cases p <;> decide
  rw [field, List.mem_append, List.mem_cons, not_or, not_or]
  exact ⟨hname, by decide, not_mem_digits (by decide) _⟩

theorem splitOn_field (s : Sizes) (p : Param) :
    (field s p).splitOn '=' = [p.name, Nat.toDigits 10 (s.get p)] := by
  have hname : '=' ∉ p.name := by cases p <;> decide
  rw [field, splitOn_append_cons hname, splitOn_of_not_mem (not_mem_digits (by decide) _)]

theorem field_inj {s : Sizes} {p q : Param} (h : field s p = field s q) : p = q := by
  have hsplit := congrArg (List.splitOn '=') h
  rw [splitOn_field, splitOn_field] at hsplit
  have hname : p.name = q.name := (List.cons.inj hsplit).1
  cases p <;> cases q <;> first | rfl | exact absurd hname (by decide)

theorem restoreField_field (s : Sizes) (p : Param) (update : Update) :
    restoreField update (field s p) = .ok (Items.set p (s.get p : Int) update) := by
  have hfind : (asgParams.find? fun q => q.name = p.name) = some p := by cases p <;> rfl
  rw [restoreField, splitOn_field]
  simp only [hfind, intText_toDigits (length_digits_le s p)]
  rfl

theorem foldlM_restoreField (s : Sizes) {fields : List Text} (h : ∀ f ∈ fields, ∃ p, f = field s p)
    (update : Update) : ∃ update', fields.foldlM restoreField update = .ok update' ∧
      ∀ p, Items.get p update' =
        if field s p ∈ fields then some (s.get p : Int) else Items.get p update := by
  induction fields generalizing update with
  | nil => exact ⟨update, rfl, fun p => (if_neg List.not_mem_nil).symm⟩
  | cons f fields ih =>
    rw [List.forall_mem_cons] at h
    obtain ⟨⟨q, rfl⟩, hfields⟩ := h
    obtain ⟨update', hfold, hget⟩ := ih hfields (Items.set q (s.get q : Int) update)
    refine ⟨update', ?_, fun p => ?_⟩
    · rw [List.foldlM_cons, restoreField_field]
      exact hfold
    · rw [hget, Items.get_set]
      by_cases hp : field s p ∈ fields
      · rw [if_pos hp, if_pos (List.mem_cons_of_mem _ hp)]
      · by_cases hq : p = q
        · rw [if_neg hp, if_pos hq, hq, if_pos List.mem_cons_self]
        · have hne : field s p ∉ field s q :: fields := by
            rw [List.mem_cons, not_or]
            exact ⟨fun e => hq (field_inj e), hp⟩
          rw [if_neg hp, if_neg hq, if_neg hne]

/-- **Round trip.**  Whatever the order of the fields, the sizes that are saved are read back. -/
theorem restore_savedValue {tag : Text} {order : Order} {s : Sizes} {a : Asg}
    (h : Items.get tag a.tags = some (savedValue order s)) :
    ∃ update, restoreUpdate tag a = .ok update ∧ ∀ p, Items.get p update = some (s.get p : Int) := by
  have hperm := order.perm (asgParams.map (field s))
  have hsplit : (savedValue order s).splitOn ';' = order.list (asgParams.map (field s)) := by
    refine List.splitOn_intercalate _ ?_ fun hnil => ?_
    · intro f hf
      obtain ⟨p, -, rfl⟩ := List.mem_map.mp (hperm.subset hf)
      exact not_mem_field s p
    · rw [hnil] at hperm
      exact absurd hperm.length_eq (by simp [asgParams])
  obtain ⟨update, hfold, hget⟩ := @foldlM_restoreField s
    (order.list (asgParams.map (field s))) (fun f hf => by
      obtain ⟨p, -, rfl⟩ := List.mem_map.mp (hperm.subset hf)
      exact ⟨p, rfl⟩) []
  refine ⟨update, ?_, fun p => ?_⟩
  · rw [restoreUpdate, Items.get_ofList_of_nodup a.distinct, h]
    simp only [hsplit, hfold]
  · have hall : p ∈ asgParams := by cases p <;> decide
    rw [hget, if_pos (hperm.mem_iff.mpr (List.mem_map_of_mem hall))]

theorem process_restore (service : Service) {r : Data} {tag : Text}
    (hr : r.restoreOptionsTag = some tag) (order : Order) {saving : Order} {s : Sizes} {a : Asg}
    (h : Items.get tag a.tags = some (savedValue saving s)) :
    (process service r order a).1.sizes = s := by
  obtain ⟨update, hrestore, hget⟩ := restore_savedValue h
  have hne : update ≠ [] := by
    rintro rfl
    cases hget .minSize
  obtain ⟨e, rest, rfl⟩ := List.exists_cons_of_ne_nil hne
  rw [process, updateOf, hr]
  simp only [hrestore, service.full _ _ s hget]

/-! ## Saving runs -/

/-- A configuration that saves the sizes and sets some of them to fixed ones. -/
structure Saves (d : Data) (tag : Text) : Prop where
  save : d.saveOptionsTag = some tag
  restore : d.restoreOptionsTag = none
  fixed : d.desired ≠ some .current
  given : d.minSize.isSome = true ∨ d.maxSize.isSome = true ∨ d.desired.isSome = true

/-- The sizes after the update of a configuration. -/
def resized (service : Service) (d : Data) (a : Asg) : Sizes :=
  match service.update a.sizes (resizeUpdate d a) with
  | .ok s => s
  | .error _ => a.sizes

section Saving

variable {service : Service} {d : Data} {tag : Text}

theorem Saves.update_eq (h : Saves d tag) (a b : Asg) : resizeUpdate d a = resizeUpdate d b := by
  rw [resizeUpdate, resizeUpdate]
  cases hd : d.desired with
  | none => rfl
  | some desired =>
    cases desired with
    | current => exact absurd hd h.fixed
    | fixed n => rfl

theorem Saves.update_ne_nil (h : Saves d tag) (a : Asg) : resizeUpdate d a ≠ [] := by
  have hgiven := h.given
  have hfixed := h.fixed
  rw [resizeUpdate]
  cases hmin : d.minSize <;> cases hmax : d.maxSize <;> cases hd : d.desired with
  | none => simp_all [Items.set]
  | some desired =>
    cases desired with
    | current => exact absurd hd hfixed
    | fixed n => simp [Items.set]

theorem Saves.process_eq (h : Saves d tag) (order : Order) (a : Asg) :
    Items.get tag (process service d order a).1.tags = some (savedValue order a.sizes) ∧
      (process service d order a).1.sizes = resized service d a := by
  obtain ⟨e, rest, hupdate⟩ := List.exists_cons_of_ne_nil (h.update_ne_nil a)
  have hsaved : Items.get tag (saved d order a).tags = some (savedValue order a.sizes) := by
    rw [saved, h.save]
    exact (Items.get_set tag _ a.tags tag).trans (if_pos rfl)
  have hsizes : (saved d order a).sizes = a.sizes := by
    rw [saved, h.save]
  rw [process, updateOf, h.restore, resized, hupdate]
  simp only [hsizes]
  cases service.update a.sizes (e :: rest) with
  | ok s => exact ⟨hsaved, rfl⟩
  | error e => exact ⟨hsaved, hsizes⟩

theorem Saves.resized_eq (h : Saves d tag) {a b : Asg} (hb : b.sizes = resized service d a) :
    resized service d b = resized service d a := by
  rw [resized, hb, h.update_eq b a, resized]
  cases hu : service.update a.sizes (resizeUpdate d a) with
  | ok s => simp only [service.same s _ (service.sets _ _ _ hu)]
  | error e => simp only [hu]

theorem Saves.runs_eq (h : Saves d tag) (orders : List Order) (order : Order) (a : Asg) :
    Items.get tag (runs service d (orders ++ [order]) a).tags =
        some (savedValue order (if orders = [] then a.sizes else resized service d a)) ∧
      (runs service d (orders ++ [order]) a).sizes = resized service d a := by
  induction orders using List.reverseRecOn generalizing order with
  | nil => exact h.process_eq order a
  | append_singleton orders last ih =>
    obtain ⟨-, hsizes⟩ := ih last
    obtain ⟨htag, hnext⟩ := @Saves.process_eq service d tag h order
      (runs service d (orders ++ [last]) a)
    have hstep : runs service d (orders ++ [last] ++ [order]) a =
        (process service d order (runs service d (orders ++ [last]) a)).1 := by
      rw [runs, List.foldl_append]
      rfl
    rw [hstep, htag, hnext, hsizes, if_neg (by simp)]
    exact ⟨rfl, h.resized_eq hsizes⟩

end Saving

/-! ## The current size -/

/-- A size after an update: what the update names, or else what the group has. -/
def requested (s : Sizes) (update : Update) (p : Param) : Int :=
  (Items.get p update).getD (s.get p)

/-- `MinSize <= DesiredCapacity <= MaxSize` -/
def InOrder (size : Param → Int) : Prop :=
  size .minSize ≤ size .desiredCapacity ∧ size .desiredCapacity ≤ size .maxSize

/-- A configuration with the current size alone. -/
structure CurrentAlone (d : Data) : Prop where
  desired : d.desired = some .current
  minSize : d.minSize = none
  maxSize : d.maxSize = none
  restore : d.restoreOptionsTag = none

theorem CurrentAlone.inOrder {d : Data} (h : CurrentAlone d) {a : Asg} {update : Update}
    (hu : updateOf d a = .ok update) : InOrder (requested a.sizes update) := by
  have hordered := a.sizes.ordered
  have hupdate : resizeUpdate d a =
      [(.desiredCapacity, ((min a.instances a.sizes.desiredCapacity : Nat) : Int)),
        (.minSize, ((min a.instances a.sizes.minSize : Nat) : Int))] := by
    rw [resizeUpdate, h.desired, h.minSize, h.maxSize]
    rfl
  rw [updateOf, h.restore, hupdate] at hu
  cases hu
  change ((min a.instances a.sizes.minSize : Nat) : Int) ≤
      ((min a.instances a.sizes.desiredCapacity : Nat) : Int) ∧
    ((min a.instances a.sizes.desiredCapacity : Nat) : Int) ≤ (a.sizes.maxSize : Int)
  omega

/-! ## Saving and restoring -/

/-- **Restoring.**  After some saving runs a restoring one sets the first sizes back, when there was
one saving run or the resize changes nothing, and only then; and a resize to the current size alone
requests sizes in their order. -/
theorem saved_restored_iff (service : Service) {d r : Data} {tag : Text} (hd : Saves d tag)
    (hr : r.restoreOptionsTag = some tag) (a : Asg) {orders : List Order} (hn : orders ≠ [])
    (order : Order) :
    ((process service r order (runs service d orders a)).1.sizes = a.sizes ↔
        orders.length = 1 ∨ resized service d a = a.sizes) ∧
      ∀ c, CurrentAlone c → ∀ b update, updateOf c b = .ok update →
        InOrder (requested b.sizes update) := by
  refine ⟨?_, fun c hc b update hu => hc.inOrder hu⟩
  obtain ⟨before, last, rfl⟩ := List.eq_nil_or_concat' orders |>.resolve_left hn
  rw [process_restore service hr order (hd.runs_eq before last a).1]
  by_cases hbefore : before = []
  · simp [hbefore]
  · have hlength : (before ++ [last]).length ≠ 1 := by
      simpa using hbefore
    rw [if_neg hbefore, or_iff_right hlength]

/-! ## A group at night -/

/-- Sizes that are in their order, or else a refusal. -/
def sizesOf (n : Param → Int) : Except Exn Sizes :=
  if h : (0 ≤ n .minSize ∧ n .minSize ≤ n .desiredCapacity) ∧
      n .desiredCapacity ≤ n .maxSize ∧ n .maxSize < 2 ^ 31 then
    .ok ⟨(n .minSize).toNat, (n .maxSize).toNat, (n .desiredCapacity).toNat, by omega, by omega⟩
  else .error (.raised "ValidationError".toList)

theorem sizesOf_eq_ok_iff {n : Param → Int} {s' : Sizes} :
    sizesOf n = .ok s' ↔ ∀ p, (s'.get p : Int) = n p := by
  rw [sizesOf]
  split
  · rename_i h
    rw [Except.ok.injEq]
    constructor
    · rintro rfl p
      cases p <;> exact Int.toNat_of_nonneg (by omega)
    · obtain ⟨least, most, desired, hordered, hfits⟩ := s'
      intro hs
      have hleast : (least : Int) = n .minSize := hs .minSize
      have hmost : (most : Int) = n .maxSize := hs .maxSize
      have hdesired : (desired : Int) = n .desiredCapacity := hs .desiredCapacity
      rw [Sizes.mk.injEq]
      omega
  · rename_i h
    refine iff_of_false (fun e => by cases e) fun hs => h ?_
    have hordered := s'.ordered
    have hfits := s'.fits
    have hleast : (s'.minSize : Int) = n .minSize := hs .minSize
    have hmost : (s'.maxSize : Int) = n .maxSize := hs .maxSize
    have hdesired : (s'.desiredCapacity : Int) = n .desiredCapacity := hs .desiredCapacity
    omega

/-- A service that sets what is named and changes nothing else. -/
def plain : Service where
  update s u := sizesOf (requested s u)
  sets s u s' h p n hp := by
    rw [sizesOf_eq_ok_iff.mp h p, requested, hp, Option.getD_some]
  same s u h := sizesOf_eq_ok_iff.mpr fun p => by
    rw [requested]
    cases hp : Items.get p u with
    | none => rfl
    | some n => exact h p n hp
  full s u s' h := sizesOf_eq_ok_iff.mpr fun p => by
    rw [requested, h p, Option.getD_some]

/-- The sizes at night. -/
def off : Data where
  minSize := some 0
  maxSize := none
  desiredSize := some (.fixed 0)
  desired_size := none
  saveOptionsTag := some "OffHoursPrevious".toList
  restoreOptionsTag := none

/-- The sizes of the day. -/
def on : Data where
  minSize := none
  maxSize := none
  desiredSize := none
  desired_size := none
  saveOptionsTag := none
  restoreOptionsTag := some "OffHoursPrevious".toList

def web : Asg where
  tags := []
  instances := 3
  sizes := ⟨2, 4, 3, by decide, by decide⟩
  distinct := by decide

def inOrder : Order := ⟨id, List.Perm.refl⟩

theorem saves_off : Saves off "OffHoursPrevious".toList :=
  ⟨rfl, rfl, by decide, Or.inl rfl⟩

theorem web_restored : Saves off "OffHoursPrevious".toList ∧ [inOrder] ≠ [] ∧
    ((process plain on inOrder (runs plain off [inOrder] web)).1.sizes = web.sizes ↔
        [inOrder].length = 1 ∨ resized plain off web = web.sizes) ∧
      ∀ c, CurrentAlone c → ∀ b update, updateOf c b = .ok update →
        InOrder (requested b.sizes update) :=
  ⟨saves_off, by simp, saved_restored_iff plain saves_off rfl web (by simp) inOrder⟩

/-- A second run at night saves the sizes of the night. -/
theorem web_not_restored :
    (process plain on inOrder (runs plain off [inOrder, inOrder] web)).1.sizes ≠ web.sizes := by
  intro h
  have htag := (@Saves.runs_eq plain off _ saves_off [inOrder] inOrder web).1
  have hsizes := process_restore plain (r := on) rfl inOrder htag
  have hdesired := congrArg Sizes.desiredCapacity (hsizes.symm.trans h)
  exact absurd hdesired (by decide)

end Custodian.Resize

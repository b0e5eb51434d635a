import Custodian.Lib.Double
import Custodian.Lib.Lower
import Mathlib.Algebra.Order.Archimedean.Basic

/-!
# Resource limits

`MaxResourceLimit` of `c7n/query.py`, with the `max-resources` and `max-resources-percent` that the
schema of `c7n/schema.py` accepts: a policy that selects more resources than its limits allow is
stopped.
-/

namespace Custodian.ResourceLimit

open Py Clock Double

/-! ## Numbers -/

/-- A number of a policy file; infinite ones are not accepted. -/
inductive Number where
  | int (n : Int)
  | float (x : ℚ)
  | nan
  deriving DecidableEq

namespace Number

def value : Number → Option ℚ
  | .int n => some n
  | .float x => some x
  | .nan => none

/-- `n < q`, which no number is that is not one. -/
def lt (n : Number) (q : ℚ) : Bool := n.value.any (· < q)

/-- `n > q` -/
def gt (n : Number) (q : ℚ) : Bool := n.value.any (q < ·)

def truthy (n : Number) : Bool := n.value ≠ some 0

/-- `isinstance(n, int)` -/
def isInt : Number → Bool
  | .int _ => true
  | _ => false

end Number

/-! ## Settings -/

inductive Op where
  | or
  | and
  deriving DecidableEq

def Op.text : Op → Text
  | .or => "or".toList
  | .and => "and".toList

/-- `max-resources-properties` -/
structure Limits where
  amount : Option Number := none
  op : Option Op := none
  percent : Option Number := none

/-- `max-resources` -/
inductive MaxResources where
  | count (n : Number)
  | limits (l : Limits)

/-- What a policy says of its limits. -/
structure Policy where
  name : Text
  maxResources : Option MaxResources := none
  maxResourcesPercent : Option Number := none

/-- An `integer` of the schema: also a float without a fraction. -/
def isInteger : Number → Bool
  | .int _ => true
  | .float x => x.den = 1
  | .nan => false

/-- `{'type': 'integer', 'minimum': 1}` -/
def isAmount (n : Number) : Bool := isInteger n && !n.lt 1

/-- `{'type': 'number', 'minimum': 0, 'maximum': 100}` -/
def isPercent (n : Number) : Bool := !n.lt 0 && !n.gt 100

def MaxResources.isAccepted : MaxResources → Bool
  | .count n => isAmount n
  | .limits l => l.amount.all isAmount && l.percent.all isPercent

/-- The schema accepts the limits. -/
def Policy.isAccepted (p : Policy) : Bool :=
  p.maxResources.all MaxResources.isAccepted && p.maxResourcesPercent.all isPercent

/-! ## The check -/

/-- `ResourceLimitExceeded`; its `limit_type` is set to the limit. -/
structure ResourceLimitExceeded where
  msg : Text
  limitType : Option Number
  limit : Option Number
  selectionCount : Nat
  populationCount : Nat

structure MaxResourceLimit where
  p : Policy
  op : Text
  selectionCount : Nat
  populationCount : Nat
  amount : Option Number := none
  percentageAmount : Option Number := none
  percent : Option Number := none

/-- `population_count * (percent / 100.0)`; a count is a length, which no double overflows at. -/
def percentageOf (population : Nat) : Number → Number
  | .int n => .float (nearest (nearest population * nearest (nearest n / 100)))
  | .float x => .float (nearest (nearest population * nearest (x / 100)))
  | .nan => .nan

def truthy (n : Option Number) : Bool := n.any Number.truthy

/-- `count > n` -/
def exceeds (count : Nat) (n : Option Number) : Bool := n.any fun n => n.lt count

section Check

variable (t : CaseTable) (env : Text) (str : Option Number → Text)

namespace MaxResourceLimit

/-- The end of `_parse_policy`. -/
def setPercentageAmount (m : MaxResourceLimit) : MaxResourceLimit :=
  match m.percent with
  | some n =>
    if n.truthy then { m with percentageAmount := some (percentageOf m.populationCount n) } else m
  | none => m

def parsePolicy (m : MaxResourceLimit) : MaxResourceLimit :=
  let m := match m.p.maxResources with
    | some (.limits l) =>
      { m with op := t.lower ((l.op.map Op.text).getD env), percent := l.percent, amount := l.amount }
    | _ => m
  let m := match m.p.maxResources with
    | some (.count n) => if n.isInt then { m with amount := some n } else m
    | _ => m
  let m := match m.p.maxResourcesPercent with
    | some n => { m with percent := some n }
    | none => m
  m.setPercentageAmount

/-- `__init__`; `env` is `C7N_MAXRES_OP`. -/
def init (p : Policy) (selection population : Nat) : MaxResourceLimit :=
  parsePolicy t env { p, op := env, selectionCount := selection, populationCount := population }

variable (m : MaxResourceLimit)

def digits (n : Nat) : Text := Nat.toDigits 10 n

def resourceLimitExceeded (msg : Text) (limit : Option Number) : ResourceLimitExceeded where
  msg := "policy:".toList ++ m.p.name ++ " exceeded resource-limit:".toList ++ msg
  limitType := limit
  limit := limit
  selectionCount := m.selectionCount
  populationCount := m.populationCount

def bothExceeded : ResourceLimitExceeded :=
  m.resourceLimitExceeded (str m.amount ++ " and percentage-limit:".toList ++ str m.percent ++
    "% found:".toList ++ digits m.selectionCount ++ " total:".toList ++
    digits m.populationCount) m.amount

def amountExceeded : ResourceLimitExceeded :=
  m.resourceLimitExceeded (str m.amount ++ " found:".toList ++ digits m.selectionCount ++
    " total: ".toList ++ digits m.populationCount) m.amount

def percentExceeded : ResourceLimitExceeded :=
  m.resourceLimitExceeded (str m.percent ++ "% found:".toList ++ digits m.selectionCount ++
    " total:".toList ++ digits m.populationCount) m.percent

def checkResourceLimits : Except ResourceLimitExceeded Unit := do
  if truthy m.percentageAmount && truthy m.amount then
    if exceeds m.selectionCount m.amount && exceeds m.selectionCount m.percentageAmount &&
        m.op = Op.and.text then
      .error (m.bothExceeded str)
  if truthy m.amount then
    if exceeds m.selectionCount m.amount && m.op ≠ Op.and.text then
      .error (m.amountExceeded str)
  if truthy m.percentageAmount then
    if exceeds m.selectionCount m.percentageAmount && m.op ≠ Op.and.text then
      .error (m.percentExceeded str)

end MaxResourceLimit

/-- `check_resource_limit` of a policy with these counts. -/
def checkResourceLimit (p : Policy) (selection population : Nat) :
    Except ResourceLimitExceeded Unit :=
  (MaxResourceLimit.init t env p selection population).checkResourceLimits str

end Check

/-! ## What is read -/

namespace Policy

variable (t : CaseTable) (env : Text) (p : Policy)

/-- The operator that is read. -/
def readOp : Text :=
  match p.maxResources with
  | some (.limits l) => t.lower ((l.op.map Op.text).getD env)
  | _ => env

/-- The amount that is read: a plain one if it is written as an integer. -/
def readAmount : Option Number :=
  match p.maxResources with
  | some (.count n) => if n.isInt then some n else none
  | some (.limits l) => l.amount
  | none => none

/-- The percentage that is read: of two, the plain one. -/
def readPercent : Option Number :=
  match p.maxResourcesPercent, p.maxResources with
  | some n, _ => some n
  | none, some (.limits l) => l.percent
  | none, _ => none

/-- The amounts that are configured. -/
def amounts : List Number :=
  match p.maxResources with
  | some (.count n) => [n]
  | some (.limits l) => l.amount.toList
  | none => []

/-- The percentages that are configured. -/
def percents : List Number :=
  (match p.maxResources with
  | some (.limits l) => l.percent.toList
  | _ => []) ++ p.maxResourcesPercent.toList

/-- An amount that is not read. -/
def unreadAmount : Option Number :=
  match p.maxResources with
  | some (.count n) => if n.isInt then none else some n
  | _ => none

/-- A percentage that is not read. -/
def unreadPercent : Option Number :=
  match p.maxResourcesPercent, p.maxResources with
  | some _, some (.limits l) => l.percent
  | _, _ => none

theorem amounts_eq : p.amounts = p.unreadAmount.toList ++ p.readAmount.toList := by
  rw [amounts, unreadAmount, readAmount]
  rcases p.maxResources with _ | (n | l)
  · rfl
  · cases hn : n.isInt <;> simp [hn]
  · rfl

theorem percents_eq : p.percents = p.unreadPercent.toList ++ p.readPercent.toList := by
  rw [percents, unreadPercent, readPercent]
  rcases p.maxResources with _ | (n | l) <;> cases p.maxResourcesPercent
  case some.limits.none => simp
  all_goals rfl

theorem mem_amounts {a : Number} (h : a ∈ p.readAmount) : a ∈ p.amounts := by
  rw [amounts_eq, List.mem_append, Option.mem_toList, Option.mem_toList]
  exact .inr h

theorem mem_percents {n : Number} (h : n ∈ p.readPercent) : n ∈ p.percents := by
  rw [percents_eq, List.mem_append, Option.mem_toList, Option.mem_toList]
  exact .inr h

end Policy

theorem readOp_of_op (t : CaseTable) (env : Text) {p : Policy} {l : Limits} {op : Op}
    (hp : p.maxResources = some (.limits l)) (hop : l.op = some op) :
    p.readOp t env = op.text := by
  have hascii : ∀ d ∈ op.text, d ≠ 'Σ' ∧ d.toNat < 128 ∧ asciiLower d = d := by
    cases op <;> decide
  rw [Policy.readOp, hp]
  simp only [hop, Option.map_some, Option.getD_some]
  refine t.lower_eq_self fun d hd => ?_
  obtain ⟨hsigma, hlt, hlower⟩ := hascii d hd
  exact ⟨hsigma, by rw [t.ascii d hlt, hlower]⟩

/-! ## What is accepted -/

theorem isAmount_value {n : Number} (h : isAmount n) : ∃ v, n.value = some v ∧ 1 ≤ v := by
  rw [isAmount, Bool.and_eq_true, Bool.not_eq_true'] at h
  obtain ⟨hint, hlt⟩ := h
  cases n with
  | int n => exact ⟨n, rfl, by simpa [Number.lt, Number.value] using hlt⟩
  | float x => exact ⟨x, rfl, by simpa [Number.lt, Number.value] using hlt⟩
  | nan => cases hint

theorem isPercent_value {n : Number} (h : isPercent n) {v : ℚ} (hv : n.value = some v) :
    0 ≤ v ∧ v ≤ 100 := by
  rw [isPercent, Bool.and_eq_true, Bool.not_eq_true', Bool.not_eq_true'] at h
  simpa [Number.lt, Number.gt, hv] using h

theorem isAmount_of_mem {p : Policy} (h : p.isAccepted) : ∀ n ∈ p.amounts, isAmount n := by
  rw [Policy.isAccepted, Bool.and_eq_true] at h
  rw [Policy.amounts]
  rcases hmax : p.maxResources with _ | (n | l)
  · exact fun n hn => absurd hn List.not_mem_nil
  · rw [hmax, Option.all_some, MaxResources.isAccepted] at h
    simpa using h.1
  · rw [hmax, Option.all_some, MaxResources.isAccepted, Bool.and_eq_true] at h
    intro n hn
    rw [Option.mem_toList] at hn
    simpa [hn] using h.1.1

theorem isPercent_of_mem {p : Policy} (h : p.isAccepted) : ∀ n ∈ p.percents, isPercent n := by
  rw [Policy.isAccepted, Bool.and_eq_true] at h
  intro n hn
  rw [Policy.percents, List.mem_append] at hn
  rcases hn with hn | hn
  · rcases hmax : p.maxResources with _ | (k | l) <;> rw [hmax] at hn
    · cases hn
    · cases hn
    · rw [hmax, Option.all_some, MaxResources.isAccepted, Bool.and_eq_true] at h
      rw [Option.mem_toList] at hn
      simpa [hn] using h.1.2
  · rw [Option.mem_toList] at hn
    simpa [hn] using h.2

theorem setPercentageAmount_eq {m : MaxResourceLimit} (h : m.percentageAmount = none) :
    m.setPercentageAmount = { m with
      percentageAmount := (m.percent.filter Number.truthy).map (percentageOf m.populationCount) } := by
  obtain ⟨p, op, selection, population, amount, _, percent⟩ := m
  subst h
  cases percent with
  | none => rfl
  | some n => cases hn : n.truthy <;> simp [MaxResourceLimit.setPercentageAmount, hn]

theorem init_eq (t : CaseTable) (env : Text) (p : Policy) (selection population : Nat) :
    MaxResourceLimit.init t env p selection population =
      { p, op := p.readOp t env, selectionCount := selection, populationCount := population,
        amount := p.readAmount, percent := p.readPercent,
        percentageAmount := (p.readPercent.filter Number.truthy).map (percentageOf population) } := by
  obtain ⟨name, maxResources, maxResourcesPercent⟩ := p
  rw [MaxResourceLimit.init, MaxResourceLimit.parsePolicy]
  rcases maxResources with _ | (n | l) <;> cases maxResourcesPercent
  case some.count.none | some.count.some =>
    cases hn : n.isInt <;> simp [hn, setPercentageAmount_eq, Policy.readOp, Policy.readAmount,
      Policy.readPercent]
  all_goals simp [setPercentageAmount_eq, Policy.readOp, Policy.readAmount, Policy.readPercent]

/-- **The check.**  With the operator that asks for both limits it raises if both are exceeded, and
else if one is; a limit that is zero is none. -/
theorem exists_error_iff (str : Option Number → Text) (m : MaxResourceLimit) :
    (∃ e, m.checkResourceLimits str = .error e) ↔
      if m.op = Op.and.text then
        (truthy m.amount ∧ exceeds m.selectionCount m.amount) ∧
          truthy m.percentageAmount ∧ exceeds m.selectionCount m.percentageAmount
      else
        (truthy m.amount ∧ exceeds m.selectionCount m.amount) ∨
          truthy m.percentageAmount ∧ exceeds m.selectionCount m.percentageAmount := by
  rw [MaxResourceLimit.checkResourceLimits]
  by_cases hop : m.op = Op.and.text
  · cases truthy m.amount <;> cases truthy m.percentageAmount <;>
      cases exceeds m.selectionCount m.amount <;>
      cases exceeds m.selectionCount m.percentageAmount <;>
      simp [hop, bind, Except.bind, pure, Except.pure]
  · cases truthy m.amount <;> cases truthy m.percentageAmount <;>
      cases exceeds m.selectionCount m.amount <;>
      cases exceeds m.selectionCount m.percentageAmount <;>
      simp [hop, bind, Except.bind, pure, Except.pure]

/-! ## Percentages -/

/-- The percentage of a population, in doubles. -/
def percentageAmount (v : ℚ) (population : Nat) : ℚ :=
  nearest (nearest population * nearest (v / 100))

/-- Less than twenty-nine of a hundred. -/
example : percentageAmount 29 100 < 29 := by decide +kernel

/-- A percentage up to this one is rounded to zero when it is divided by a hundred. -/
def vanishing : ℚ := 100 * 2 ^ (-1075 : ℤ)

theorem percentageAmount_ne_zero_iff {v : ℚ} (hv : 0 ≤ v) {population : Nat} :
    percentageAmount v population ≠ 0 ↔ vanishing < v ∧ 0 < population := by
  have hhundredth : nearest (v / 100) = 0 ↔ v ≤ vanishing := by
    rw [nearest_eq_zero_iff (div_nonneg hv (by norm_num)), div_le_iff₀' (by norm_num), vanishing]
  constructor
  · intro hne
    constructor
    · by_contra! hle
      rw [percentageAmount, hhundredth.mpr hle, mul_zero] at hne
      exact hne nearest_zero
    · rw [Nat.pos_iff_ne_zero]
      rintro rfl
      rw [percentageAmount, Nat.cast_zero, nearest_zero, zero_mul] at hne
      exact hne nearest_zero
  · rintro ⟨hv', hpop⟩ hzero
    have hone : (1 : ℚ) ≤ nearest population := by
      simpa using zpow_le_nearest (k := 0) (by norm_num) (by rw [zpow_zero]; exact_mod_cast hpop)
    have hpos : 0 < nearest (v / 100) :=
      (nearest_nonneg (div_nonneg hv (by norm_num))).lt_of_ne'
        fun h => hv'.not_ge (hhundredth.mp h)
    have hleast := zpow_le_of_nearest_pos hpos
    have hprod : nearest (v / 100) ≤ nearest population * nearest (v / 100) :=
      le_mul_of_one_le_left hpos.le hone
    have hsmall : nearest population * nearest (v / 100) ≤ 2 ^ (-1075 : ℤ) :=
      (nearest_eq_zero_iff (hpos.le.trans hprod)).mp hzero
    have hlt : (2 : ℚ) ^ (-1075 : ℤ) < 2 ^ (-1074 : ℤ) :=
      zpow_lt_zpow_right₀ (by norm_num) (by norm_num)
    linarith

theorem percentageOf_value {n : Number} (h : isPercent n) (population : Nat) :
    (percentageOf population n).value = n.value.map (percentageAmount · population) := by
  cases n with
  | int n =>
    rw [isPercent, Bool.and_eq_true, Bool.not_eq_true', Bool.not_eq_true'] at h
    have hn : 0 ≤ n ∧ n ≤ 100 := by
      rw [Number.lt, Number.gt, Number.value, Option.any_some, Option.any_some,
        decide_eq_false_iff_not, decide_eq_false_iff_not, not_lt, not_lt] at h
      exact_mod_cast h
    have hself : nearest (n : ℚ) = n := nearest_intCast (by rw [abs_le]; omega)
    simp [percentageOf, Number.value, percentageAmount, hself]
  | float x => rfl
  | nan => rfl

/-! ## What raises -/

section Raises

variable (t : CaseTable) (env : Text) (str : Option Number → Text) (p : Policy)
  (selection population : Nat)

def Raises : Prop := ∃ e, checkResourceLimit t env str p selection population = .error e

/-- More is selected than an amount. -/
def ExceedsAmount (n : Number) : Prop := ∃ v ∈ n.value, v < selection

/-- More is selected than a percentage of the population. -/
def ExceedsPercent (n : Number) : Prop := ∃ v ∈ n.value, v * population < 100 * selection

/-- More is selected than the percentage in doubles, which is not zero. -/
def Trips (n : Number) : Prop :=
  ∃ v ∈ n.value, vanishing < v ∧ 0 < population ∧ percentageAmount v population < selection

theorem trips_iff {n : Number} (h : isPercent n) :
    (truthy (((some n).filter Number.truthy).map (percentageOf population)) ∧
      exceeds selection (((some n).filter Number.truthy).map (percentageOf population))) ↔
      Trips selection population n := by
  have hvalue := percentageOf_value h population
  rw [Trips]
  cases hv : n.value with
  | none =>
    rw [hv] at hvalue
    have htruthy : n.truthy = true := by simp [Number.truthy, hv]
    simp [Option.filter, htruthy, exceeds, Number.lt, hvalue]
  | some v =>
    obtain ⟨hnonneg, -⟩ := isPercent_value h hv
    rw [hv] at hvalue
    have hne : percentageAmount v population ≠ 0 ↔ vanishing < v ∧ 0 < population :=
      percentageAmount_ne_zero_iff hnonneg
    by_cases hzero : v = 0
    · have htruthy : n.truthy = false := by simp [Number.truthy, hv, hzero]
      have hvanish : ¬vanishing < v := by
        rw [hzero, vanishing]
        exact (mul_pos (by norm_num) (zpow_pos' _)).not_gt
      simp [Option.filter, htruthy, truthy, hvanish]
    · have htruthy : n.truthy = true := by simp [Number.truthy, hv, hzero]
      have hiff : (percentageOf population n).truthy = true ↔ percentageAmount v population ≠ 0 := by
        simp [Number.truthy, hvalue]
      have hlt : (percentageOf population n).lt selection = true ↔
          percentageAmount v population < selection := by
        simp [Number.lt, hvalue]
      rw [Option.filter_some, if_pos htruthy, Option.map_some, truthy, exceeds, Option.any_some,
        Option.any_some, hiff, hlt, hne, and_assoc]
      simp

variable {p}

theorem raises_iff (h : p.isAccepted) : Raises t env str p selection population ↔
    if p.readOp t env = Op.and.text then
      (∃ n ∈ p.readAmount, ExceedsAmount selection n) ∧
        ∃ n ∈ p.readPercent, Trips selection population n
    else
      (∃ n ∈ p.readAmount, ExceedsAmount selection n) ∨
        ∃ n ∈ p.readPercent, Trips selection population n := by
  have hamount : (truthy p.readAmount ∧ exceeds selection p.readAmount) ↔
      ∃ n ∈ p.readAmount, ExceedsAmount selection n := by
    cases hread : p.readAmount with
    | none => simp [truthy]
    | some n =>
      obtain ⟨v, hv, hone⟩ := isAmount_value (isAmount_of_mem h n (p.mem_amounts hread))
      have hne : v ≠ 0 := by linarith
      simp [truthy, exceeds, Number.truthy, Number.lt, ExceedsAmount, hv, hne]
  have hpercent : (truthy ((p.readPercent.filter Number.truthy).map (percentageOf population)) ∧
      exceeds selection ((p.readPercent.filter Number.truthy).map (percentageOf population))) ↔
      ∃ n ∈ p.readPercent, Trips selection population n := by
    cases hread : p.readPercent with
    | none => simp [truthy]
    | some n =>
      simpa using trips_iff selection population
        (isPercent_of_mem h n (p.mem_percents hread))
  rw [Raises, checkResourceLimit, init_eq, exists_error_iff, hamount, hpercent]

/-! ## Limits without effect -/

/-- The policy is stopped at some counts. -/
def HasEffect (p : Policy) : Prop := ∃ selection population, Raises t env str p selection population

/-- A percentage that is not rounded to zero. -/
def Counts (n : Number) : Prop := ∃ v ∈ n.value, vanishing < v

/-- **Effect.**  Limits have one if an amount is read, or a percentage that is not rounded to zero;
both, if both are to be exceeded. -/
theorem hasEffect_iff (h : p.isAccepted) : HasEffect t env str p ↔
    if p.readOp t env = Op.and.text then
      p.readAmount.isSome ∧ ∃ n ∈ p.readPercent, Counts n
    else
      p.readAmount.isSome ∨ ∃ n ∈ p.readPercent, Counts n := by
  have hamount : ∀ {a}, a ∈ p.readAmount → ∃ low, ∀ selection ≥ low, ExceedsAmount selection a := by
    intro a ha
    obtain ⟨v, hv, -⟩ := isAmount_value (isAmount_of_mem h a (p.mem_amounts ha))
    obtain ⟨low, hlow⟩ := exists_nat_gt v
    exact ⟨low, fun selection hs => ⟨v, hv, hlow.trans_le (by exact_mod_cast hs)⟩⟩
  have hpercent : ∀ {n}, Counts n → ∃ low, ∀ selection ≥ low, Trips selection 1 n := by
    rintro n ⟨v, hv, hcounts⟩
    obtain ⟨low, hlow⟩ := exists_nat_gt (percentageAmount v 1)
    exact ⟨low, fun selection hs =>
      ⟨v, hv, hcounts, one_pos, hlow.trans_le (by exact_mod_cast hs)⟩⟩
  have hcounts : ∀ {selection population n}, Trips selection population n → Counts n :=
    fun ⟨v, hv, hcounts, _⟩ => ⟨v, hv, hcounts⟩
  simp only [HasEffect, raises_iff t env str _ _ h]
  split
  · constructor
    · rintro ⟨selection, population, ⟨a, ha, -⟩, n, hn, htrips⟩
      exact ⟨Option.isSome_of_mem ha, n, hn, hcounts htrips⟩
    · rintro ⟨hsome, n, hn, hcount⟩
      obtain ⟨a, ha⟩ := Option.isSome_iff_exists.mp hsome
      obtain ⟨low₁, h₁⟩ := hamount ha
      obtain ⟨low₂, h₂⟩ := hpercent hcount
      exact ⟨max low₁ low₂, 1, ⟨a, ha, h₁ _ (le_max_left ..)⟩, n, hn, h₂ _ (le_max_right ..)⟩
  · constructor
    · rintro ⟨selection, population, ⟨a, ha, -⟩ | ⟨n, hn, htrips⟩⟩
      · exact .inl (Option.isSome_of_mem ha)
      · exact .inr ⟨n, hn, hcounts htrips⟩
    · rintro (hsome | ⟨n, hn, hcount⟩)
      · obtain ⟨a, ha⟩ := Option.isSome_iff_exists.mp hsome
        obtain ⟨low, hlow⟩ := hamount ha
        exact ⟨low, 1, .inl ⟨a, ha, hlow _ le_rfl⟩⟩
      · obtain ⟨low, hlow⟩ := hpercent hcount
        exact ⟨low, 1, .inr ⟨n, hn, hlow _ le_rfl⟩⟩

/-! ## Limits that are exceeded -/

variable (p)

def SetsLimit : Prop := p.amounts ≠ [] ∨ p.percents ≠ []

/-- The configured limits are exceeded, all at once or one of them. -/
def Tripped : Prop :=
  SetsLimit p ∧
    if p.readOp t env = Op.and.text then
      (∀ n ∈ p.amounts, ExceedsAmount selection n) ∧
        ∀ n ∈ p.percents, ExceedsPercent selection population n
    else
      (∃ n ∈ p.amounts, ExceedsAmount selection n) ∨
        ∃ n ∈ p.percents, ExceedsPercent selection population n

/-- The check raises just if the limits are exceeded, and limits have an effect. -/
def Meets : Prop :=
  (Raises t env str p selection population ↔ Tripped t env p selection population) ∧
    (SetsLimit p → HasEffect t env str p)

/-- Rounding does not carry a percentage of a population past the selection; where there is none,
nothing more is selected than the percentage. -/
def ReadsRight (n : Number) : Prop :=
  ∀ v ∈ n.value, if vanishing < v ∧ 0 < population then
    (percentageAmount v population < selection ↔ v * population < 100 * selection)
  else 100 * selection ≤ v * population

/-- A limit that is not read is exceeded. -/
def UnreadExceeded : Prop :=
  (∃ n ∈ p.unreadAmount, ExceedsAmount selection n) ∨
    ∃ n ∈ p.unreadPercent, ExceedsPercent selection population n

/-- Limits that are read suffice. -/
def MeetsWhen : Prop :=
  ¬SetsLimit p ∨
    if p.readOp t env = Op.and.text then
      ∃ a ∈ p.readAmount, ∃ n ∈ p.readPercent, Counts n ∧
        (ExceedsAmount selection a →
          ((∀ k ∈ p.unreadPercent, ExceedsPercent selection population k) →
            ReadsRight selection population n) ∧
          ((∃ k ∈ p.unreadPercent, ¬ExceedsPercent selection population k) →
            ¬Trips selection population n))
    else
      (p.readAmount.isSome ∨ ∃ n ∈ p.readPercent, Counts n) ∧
        ((∃ a ∈ p.readAmount, ExceedsAmount selection a) ∨
          (¬UnreadExceeded p selection population →
            ∀ n ∈ p.readPercent, ReadsRight selection population n) ∧
          (UnreadExceeded p selection population →
            ∃ n ∈ p.readPercent, Trips selection population n))

variable {p}

theorem readsRight_iff {n : Number} : ReadsRight selection population n ↔
    (Trips selection population n ↔ ExceedsPercent selection population n) := by
  rw [ReadsRight, Trips, ExceedsPercent]
  cases n.value with
  | none => simp
  | some v =>
    simp only [Option.mem_def, Option.some.injEq, forall_eq', exists_eq_left']
    rw [← and_assoc]
    split
    · rename_i hcounts
      rw [and_iff_right hcounts]
    · rename_i hnone
      have hnot : ¬((vanishing < v ∧ 0 < population) ∧ percentageAmount v population < selection) :=
        fun h => hnone h.1
      rw [iff_false_left hnot, not_lt]

theorem unreadAmount_eq_none {a : Number} (h : p.readAmount = some a) : p.unreadAmount = none := by
  rw [Policy.readAmount] at h
  rw [Policy.unreadAmount]
  split at h
  · rename_i n hmax
    rw [hmax]
    split at h
    · exact if_pos ‹_›
    · cases h
  · rename_i l hmax
    rw [hmax]
  · cases h

theorem and_iff {a n : Number} (ha : p.readAmount = some a) (hn : p.readPercent = some n) :
    (ExceedsAmount selection a ∧ Trips selection population n ↔
      (∀ k ∈ p.amounts, ExceedsAmount selection k) ∧
        ∀ k ∈ p.percents, ExceedsPercent selection population k) ↔
    (ExceedsAmount selection a →
      ((∀ k ∈ p.unreadPercent, ExceedsPercent selection population k) →
        ReadsRight selection population n) ∧
      ((∃ k ∈ p.unreadPercent, ¬ExceedsPercent selection population k) →
        ¬Trips selection population n)) := by
  have hamounts : (∀ k ∈ p.amounts, ExceedsAmount selection k) ↔ ExceedsAmount selection a := by
    simp [p.amounts_eq, unreadAmount_eq_none ha, ha]
  have hpercents : (∀ k ∈ p.percents, ExceedsPercent selection population k) ↔
      (∀ k ∈ p.unreadPercent, ExceedsPercent selection population k) ∧
        ExceedsPercent selection population n := by
    simp [p.percents_eq, hn, or_imp, forall_and]
  have hother : (∃ k ∈ p.unreadPercent, ¬ExceedsPercent selection population k) ↔
      ¬∀ k ∈ p.unreadPercent, ExceedsPercent selection population k := by
    push Not
    rfl
  rw [hamounts, hpercents, hother, readsRight_iff, and_congr_right_iff]
  refine imp_congr_right fun _ => ?_
  by_cases hunread : ∀ k ∈ p.unreadPercent, ExceedsPercent selection population k
  · simp only [eq_true hunread, true_and, true_implies, not_true_eq_false, false_implies, and_true]
  · simp only [eq_false hunread, false_and, iff_false, not_false_eq_true, true_implies,
      false_implies, true_and]

theorem or_iff :
    ((∃ a ∈ p.readAmount, ExceedsAmount selection a) ∨
        (∃ n ∈ p.readPercent, Trips selection population n) ↔
      (∃ a ∈ p.amounts, ExceedsAmount selection a) ∨
        ∃ n ∈ p.percents, ExceedsPercent selection population n) ↔
    (∃ a ∈ p.readAmount, ExceedsAmount selection a) ∨
      (¬UnreadExceeded p selection population →
        ∀ n ∈ p.readPercent, ReadsRight selection population n) ∧
      (UnreadExceeded p selection population →
        ∃ n ∈ p.readPercent, Trips selection population n) := by
  have hamounts : (∃ a ∈ p.amounts, ExceedsAmount selection a) ↔
      (∃ a ∈ p.unreadAmount, ExceedsAmount selection a) ∨
        ∃ a ∈ p.readAmount, ExceedsAmount selection a := by
    simp [p.amounts_eq, or_and_right, exists_or]
  have hpercents : (∃ n ∈ p.percents, ExceedsPercent selection population n) ↔
      (∃ n ∈ p.unreadPercent, ExceedsPercent selection population n) ∨
        ∃ n ∈ p.readPercent, ExceedsPercent selection population n := by
    simp [p.percents_eq, or_and_right, exists_or]
  have hright : (∀ n ∈ p.readPercent, ReadsRight selection population n) ↔
      ((∃ n ∈ p.readPercent, Trips selection population n) ↔
        ∃ n ∈ p.readPercent, ExceedsPercent selection population n) := by
    simp only [readsRight_iff]
    cases p.readPercent <;> simp
  rw [hamounts, hpercents, hright, UnreadExceeded]
  by_cases hread : ∃ a ∈ p.readAmount, ExceedsAmount selection a
  · simp only [hread, true_or, or_true]
  · by_cases hunread : (∃ a ∈ p.unreadAmount, ExceedsAmount selection a) ∨
        ∃ n ∈ p.unreadPercent, ExceedsPercent selection population n
    · simp only [hread, false_or, or_false, ← or_assoc]
      simp only [hunread, true_or, iff_true, not_true_eq_false, false_implies, true_and,
        true_implies]
    · simp only [hread, false_or, or_false, ← or_assoc]
      simp only [hunread, false_or, not_false_eq_true, true_implies, false_implies, and_true]

theorem not_raises_of_not_setsLimit (h : p.isAccepted) (hsets : ¬SetsLimit p) :
    ¬Raises t env str p selection population := by
  rw [SetsLimit, not_or, not_not, not_not] at hsets
  have hamount : p.readAmount = none :=
    Option.eq_none_iff_forall_not_mem.mpr fun a ha => by simpa [hsets.1] using p.mem_amounts ha
  have hpercent : p.readPercent = none :=
    Option.eq_none_iff_forall_not_mem.mpr fun n hn => by simpa [hsets.2] using p.mem_percents hn
  rw [raises_iff t env str selection population h, hamount, hpercent]
  simp

/-- **Resource limits.** -/
theorem meets_iff (h : p.isAccepted) :
    Meets t env str p selection population ↔ MeetsWhen t env p selection population := by
  rw [Meets, MeetsWhen, Tripped]
  by_cases hsets : SetsLimit p
  · rw [raises_iff t env str selection population h, hasEffect_iff t env str h]
    simp only [hsets, true_and, not_true_eq_false, false_or, true_implies]
    split
    · constructor
      · rintro ⟨hiff, hsome, n, hn, hcounts⟩
        obtain ⟨a, ha⟩ := Option.isSome_iff_exists.mp hsome
        refine ⟨a, ha, n, hn, hcounts, (and_iff selection population ha hn).mp ?_⟩
        simpa [ha, Option.mem_def.mp hn] using hiff
      · rintro ⟨a, ha, n, hn, hcounts, hright⟩
        refine ⟨?_, Option.isSome_of_mem ha, n, hn, hcounts⟩
        simpa [Option.mem_def.mp ha, Option.mem_def.mp hn] using
          (and_iff selection population ha hn).mpr hright
    · rw [or_iff, and_comm]
  · simp [hsets, not_raises_of_not_setsLimit t env str selection population h hsets]

end Raises

/-- An amount and a percentage that are to be exceeded at once. -/
def amountAndPercent : Policy where
  name := "ecs-cluster-resource-count".toList
  maxResources := some (.limits { amount := some (.int 1), percent := some (.int 10), op := some .and })

theorem meets_iff_amountAndPercent :
    Meets asciiTable "or".toList (fun _ => []) amountAndPercent 2 2 ↔
      MeetsWhen asciiTable "or".toList amountAndPercent 2 2 :=
  meets_iff _ _ _ _ _ (by decide)

/-- An amount alone, with the operator for two limits. -/
def amountAlone : Policy where
  name := "ecs-cluster-resource-count".toList
  maxResources := some (.limits { amount := some (.int 1), op := some .and })

/-- It is exceeded, and the policy is not stopped. -/
theorem amountAlone_not_stopped : amountAlone.isAccepted ∧
    Tripped asciiTable "or".toList amountAlone 100 100 ∧
    ¬Raises asciiTable "or".toList (fun _ => []) amountAlone 100 100 ∧
    ¬Meets asciiTable "or".toList (fun _ => []) amountAlone 100 100 := by
  have hop : amountAlone.readOp asciiTable "or".toList = Op.and.text := readOp_of_op _ _ rfl rfl
  have hamounts : amountAlone.amounts = [.int 1] := rfl
  have htripped : Tripped asciiTable "or".toList amountAlone 100 100 := by
    refine ⟨.inl (by rw [hamounts]; exact List.cons_ne_nil _ _), ?_⟩
    rw [if_pos hop, hamounts]
    refine ⟨?_, fun n hn => absurd hn List.not_mem_nil⟩
    rintro n (_ | ⟨_, hn⟩)
    · exact ⟨1, rfl, by norm_num⟩
    · cases hn
  have hraises : ¬Raises asciiTable "or".toList (fun _ => []) amountAlone 100 100 := by
    rw [raises_iff _ _ _ _ _ (by decide), if_pos hop]
    rintro ⟨-, n, hn, -⟩
    cases hn
  exact ⟨by decide, htripped, hraises, fun hmeets => hraises (hmeets.1.mpr htripped)⟩

end Custodian.ResourceLimit

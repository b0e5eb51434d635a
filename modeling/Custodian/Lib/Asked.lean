import Custodian.Lib.Runs

/-!
# Programs that ask a service

A program asks a service with a state, such as a cache.  Beside it stands the same program asking
a service that always gives the same answers, which records what it is asked for.
-/

namespace Py.Asked

open Runs

variable {ε σ ι α β γ : Type}

/-- What a run ends with, and the state it leaves. -/
def ends (r : Except ε α) (s : σ) : EStateM.Result ε σ α :=
  match r with
  | .ok a => .ok a s
  | .error e => .error e s

/-- The result of a run without its state. -/
def result : EStateM.Result ε σ α → Except ε α
  | .ok a _ => .ok a
  | .error e _ => .error e

/-- The state that a run leaves. -/
def left : EStateM.Result ε σ α → σ
  | .ok _ s => s
  | .error _ s => s

@[simp] theorem result_ends (r : Except ε α) (s : σ) : result (ends r s) = r := by
  cases r <;> rfl

@[simp] theorem left_ends (r : Except ε α) (s : σ) : left (ends r s) = s := by
  cases r <;> rfl

/-- A program that records its calls. -/
abbrev RecordM (ε ι : Type) := EStateM ε (List ι)

/-- A call that always has the same answer. -/
def asking (answer : ι → Except ε α) (i : ι) : RecordM ε ι α := fun calls =>
  ends (answer i) (calls ++ [i])

/-- What a recorded program returns. -/
def outcome (y : RecordM ε ι α) : Except ε α := result (y [])

/-- The calls of a recorded program. -/
def calls (y : RecordM ε ι α) : List ι := left (y [])

theorem AtEach.of_append {P : List ι → ι → Prop} {l l' : List ι} (h : AtEach P (l ++ l')) :
    AtEach P l ∧ AtEach (fun before => P (l ++ before)) l' := by
  constructor
  · intro before x after hl
    exact h before x (after ++ l') (by rw [hl]; simp)
  · intro before x after hl
    exact h (l ++ before) x after (by rw [hl]; simp)

/-- The program `x` asks the service for what `y` asks for.  It returns what `y` does if the calls
are right for the state, where `I` says what the state is after some calls. -/
structure Follows (Right : List ι → ι → Prop) (I : List ι → σ → Prop) (x : EStateM ε σ α)
    (y : RecordM ε ι α) : Prop where
  recorded : ∀ done, y done = ends (outcome y) (done ++ calls y)
  follows : ∀ done s, I done s → AtEach (fun before => Right (done ++ before)) (calls y) →
    ∃ s', x s = ends (outcome y) s' ∧ I (done ++ calls y) s'

namespace Follows

variable {Right : List ι → ι → Prop} {I : List ι → σ → Prop}

theorem ofExcept (r : Except ε α) : Follows Right I
    (MonadExcept.ofExcept r : EStateM ε σ α) (MonadExcept.ofExcept r : RecordM ε ι α) := by
  have hrun : ∀ {τ : Type} (s : τ), (MonadExcept.ofExcept r : EStateM ε τ α) s = ends r s := by
    intro τ s
    cases r <;> rfl
  have hcalls : calls (MonadExcept.ofExcept r : RecordM ε ι α) = [] := by rw [calls, hrun, left_ends]
  have houtcome : outcome (MonadExcept.ofExcept r : RecordM ε ι α) = r := by
    rw [outcome, hrun, result_ends]
  constructor
  · intro done
    rw [hcalls, houtcome, List.append_nil]
    exact hrun done
  · intro done s hs _
    rw [hcalls, houtcome, List.append_nil]
    exact ⟨s, hrun s, hs⟩

theorem pure (a : α) : Follows Right I (Pure.pure a : EStateM ε σ α) (Pure.pure a : RecordM ε ι α) :=
  Follows.ofExcept (.ok a)

theorem throw (e : ε) : Follows Right I (MonadExcept.throw e : EStateM ε σ α)
    (MonadExcept.throw e : RecordM ε ι α) :=
  Follows.ofExcept (.error e)

theorem call {answer : ι → Except ε α} {i : ι} {x : EStateM ε σ α}
    (h : ∀ done s, I done s → Right done i → ∃ s', x s = ends (answer i) s' ∧ I (done ++ [i]) s') :
    Follows Right I x (asking answer i) := by
  have hcalls : calls (asking answer i) = [i] := left_ends _ _
  have houtcome : outcome (asking answer i) = answer i := result_ends _ _
  constructor
  · intro done
    rw [hcalls, houtcome]
    rfl
  · intro done s hs hright
    rw [hcalls] at hright ⊢
    rw [houtcome]
    refine h done s hs ?_
    have hfirst := (atEach_cons.mp hright).1
    rwa [List.append_nil] at hfirst

/-! ## Sequences -/

theorem bind_ok {x : EStateM ε σ α} {a : α} {s s' : σ} (h : x s = .ok a s')
    (f : α → EStateM ε σ β) : (x >>= f) s = f a s' := by
  simp only [Bind.bind, EStateM.bind, h]

theorem bind_error {x : EStateM ε σ α} {e : ε} {s s' : σ} (h : x s = .error e s')
    (f : α → EStateM ε σ β) : (x >>= f) s = .error e s' := by
  simp only [Bind.bind, EStateM.bind, h]

theorem outcome_bind {y : RecordM ε ι α} {g : α → RecordM ε ι β}
    (hy : ∀ done, y done = ends (outcome y) (done ++ calls y))
    (hg : ∀ a done, g a done = ends (outcome (g a)) (done ++ calls (g a))) :
    outcome (y >>= g) = outcome y >>= fun a => outcome (g a) := by
  have hrun := hy []
  cases hr : outcome y with
  | ok a =>
    rw [hr] at hrun
    rw [outcome, bind_ok hrun g, hg a, result_ends]
    rfl
  | error e =>
    rw [hr] at hrun
    rw [outcome, bind_error hrun g]
    rfl

theorem bind {x : EStateM ε σ α} {f : α → EStateM ε σ β} {y : RecordM ε ι α}
    {g : α → RecordM ε ι β} (hx : Follows Right I x y) (hf : ∀ a, Follows Right I (f a) (g a)) :
    Follows Right I (x >>= f) (y >>= g) := by
  have houtcome := outcome_bind hx.recorded fun a => (hf a).recorded
  have hrecorded := hx.recorded
  have hfollows := hx.follows
  cases hy : outcome y with
  | error e =>
    rw [hy] at houtcome hrecorded hfollows
    have hcalls : calls (y >>= g) = calls y := by
      rw [calls, bind_error (hrecorded []) g]
      rfl
    constructor
    · intro done
      rw [houtcome, hcalls]
      exact bind_error (hrecorded done) g
    · intro done s hs hright
      rw [hcalls] at hright ⊢
      obtain ⟨s', hs', hI⟩ := hfollows done s hs hright
      rw [houtcome]
      exact ⟨s', bind_error hs' f, hI⟩
  | ok a =>
    rw [hy] at houtcome hrecorded hfollows
    have hcalls : calls (y >>= g) = calls y ++ calls (g a) := by
      rw [calls, bind_ok (hrecorded []) g, (hf a).recorded, left_ends, List.nil_append]
    rw [ok_bind] at houtcome
    constructor
    · intro done
      rw [bind_ok (hrecorded done) g, houtcome, hcalls, ← List.append_assoc]
      exact (hf a).recorded _
    · intro done s hs hright
      rw [hcalls] at hright ⊢
      obtain ⟨hfirst, hthen⟩ := AtEach.of_append hright
      obtain ⟨s', hs', hI⟩ := hfollows done s hs hfirst
      obtain ⟨s'', hs'', hI'⟩ := (hf a).follows (done ++ calls y) s' hI
        (hthen.imp fun before i h => by rwa [List.append_assoc])
      refine ⟨s'', ?_, by rwa [← List.append_assoc]⟩
      rw [bind_ok hs' f, houtcome, ← hs'']

theorem ite {c : Prop} [Decidable c] {x x' : EStateM ε σ α} {y y' : RecordM ε ι α}
    (h : Follows Right I x y) (h' : Follows Right I x' y') :
    Follows Right I (if c then x else x') (if c then y else y') := by
  split
  · exact h
  · exact h'

theorem mapM {f : γ → EStateM ε σ β} {g : γ → RecordM ε ι β} (h : ∀ a, Follows Right I (f a) (g a))
    (l : List γ) : Follows Right I (l.mapM f) (l.mapM g) := by
  induction l with
  | nil => exact Follows.pure []
  | cons a l ih =>
    rw [List.mapM_cons, List.mapM_cons]
    exact Follows.bind (h a) fun b => Follows.bind ih fun bs => Follows.pure (b :: bs)

theorem foldlM {f : β → γ → EStateM ε σ β} {g : β → γ → RecordM ε ι β}
    (h : ∀ b a, Follows Right I (f b a) (g b a)) (b : β) (l : List γ) :
    Follows Right I (l.foldlM f b) (l.foldlM g b) := by
  induction l generalizing b with
  | nil => exact Follows.pure b
  | cons a l ih =>
    rw [List.foldlM_cons, List.foldlM_cons]
    exact Follows.bind (h b a) ih

theorem outcome_foldlM {g : β → γ → RecordM ε ι β}
    (h : ∀ b a done, g b a done = ends (outcome (g b a)) (done ++ calls (g b a))) (b : β)
    (l : List γ) : outcome (l.foldlM g b) = l.foldlM (fun b a => outcome (g b a)) b := by
  have hfollows : ∀ b a, Follows (fun _ _ => False) (fun (_ : List ι) (_ : Unit) => False)
      (fun s => ends (outcome (g b a)) s) (g b a) := fun b a => ⟨h b a, fun _ _ hs => hs.elim⟩
  have hrecorded : ∀ (l : List γ) (b : β) (done : List ι), l.foldlM g b done =
      ends (outcome (l.foldlM g b)) (done ++ calls (l.foldlM g b)) := fun l b =>
    (foldlM hfollows b l).recorded
  induction l generalizing b with
  | nil => rfl
  | cons a l ih =>
    rw [List.foldlM_cons, List.foldlM_cons, outcome_bind (h b a) fun b => hrecorded l b]
    exact congrArg _ (funext ih)

end Follows

end Py.Asked

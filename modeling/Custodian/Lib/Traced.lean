import Mathlib.Data.List.Basic

/-!
# Programs of calls that may fail

A program makes calls on the state of a service.  A call that fails raises and leaves the state as
it is, and the states after all calls are kept.
-/

namespace Py.Traced

variable {W ε α β : Type}

/-- The state of the service, and the states after the calls so far. -/
structure Trace (W : Type) where
  world : W
  history : List W

/-- A program that makes calls. -/
abbrev TraceM (ε W : Type) := EStateM ε (Trace W)

/-- One call, which fails where its effect is not defined. -/
def call (e : ε) (effect : W → Option (α × W)) : TraceM ε W α := fun t =>
  match effect t.world with
  | some (a, w) => .ok a ⟨w, t.history ++ [w]⟩
  | none => .error e ⟨t.world, t.history ++ [t.world]⟩

/-- All states that were passed, and the last one, are in `S`. -/
structure Passed (S : W → Prop) (t : Trace W) : Prop where
  world : S t.world
  history : ∀ w ∈ t.history, S w

theorem Passed.concat {S : W → Prop} {t : Trace W} (h : Passed S t) {w : W} (hw : S w) :
    Passed S ⟨w, t.history ++ [w]⟩ := by
  refine ⟨hw, fun w' hw' => ?_⟩
  rcases List.mem_append.mp hw' with hw' | hw'
  · exact h.history w' hw'
  · exact List.mem_singleton.mp hw' ▸ hw

/-- Run from `P`, the program ends in `Q` or raises in `E`, and every state it passes is in `S`. -/
def Triple (S P : W → Prop) (m : TraceM ε W α) (Q : α → W → Prop) (E : ε → W → Prop) : Prop :=
  ∀ t : Trace W, P t.world → Passed S t →
    match m t with
    | .ok a t' => Q a t'.world ∧ Passed S t'
    | .error e t' => E e t'.world ∧ Passed S t'

namespace Triple

variable {S P P' : W → Prop} {E F : ε → W → Prop}

theorem pure {a : α} {Q : α → W → Prop} (h : ∀ w, P w → S w → Q a w) :
    Triple S P (pure a : TraceM ε W α) Q E := fun t hP hS => ⟨h t.world hP hS.world, hS⟩

theorem throw {e : ε} {Q : α → W → Prop} (h : ∀ w, P w → S w → E e w) :
    Triple S P (throw e : TraceM ε W α) Q E := fun t hP hS => ⟨h t.world hP hS.world, hS⟩

theorem call {e : ε} {effect : W → Option (α × W)} {Q : α → W → Prop}
    (hok : ∀ w a w', P w → S w → effect w = some (a, w') → Q a w' ∧ S w')
    (hfail : ∀ w, P w → S w → effect w = none → E e w) :
    Triple S P (call e effect) Q E := by
  intro t hP hS
  unfold Traced.call
  cases heffect : effect t.world with
  | none => exact ⟨hfail t.world hP hS.world heffect, hS.concat hS.world⟩
  | some p =>
    obtain ⟨hQ, hS'⟩ := hok t.world p.1 p.2 hP hS.world heffect
    exact ⟨hQ, hS.concat hS'⟩

theorem bind {m : TraceM ε W α} {f : α → TraceM ε W β} {Q : α → W → Prop} {R : β → W → Prop}
    (hm : Triple S P m Q E) (hf : ∀ a, Triple S (Q a) (f a) R E) : Triple S P (m >>= f) R E := by
  intro t hP hS
  have h := hm t hP hS
  simp only [Bind.bind, EStateM.bind]
  cases hrun : m t with
  | ok a t' =>
    rw [hrun] at h
    exact hf a t' h.1 h.2
  | error e t' =>
    rw [hrun] at h
    exact h

theorem conseq {m : TraceM ε W α} {Q Q' : α → W → Prop} (h : Triple S P' m Q' F)
    (hP : ∀ w, P w → S w → P' w) (hQ : ∀ a w, Q' a w → S w → Q a w)
    (hE : ∀ e w, F e w → S w → E e w) : Triple S P m Q E := by
  intro t ht hS
  have h := h t (hP t.world ht hS.world) hS
  cases hrun : m t with
  | ok a t' =>
    rw [hrun] at h
    exact ⟨hQ a t'.world h.1 h.2.world, h.2⟩
  | error e t' =>
    rw [hrun] at h
    exact ⟨hE e t'.world h.1 h.2.world, h.2⟩

theorem of_false {m : TraceM ε W α} {Q : α → W → Prop} (h : ∀ w, ¬ P w) : Triple S P m Q E :=
  fun t hP => absurd hP (h t.world)

theorem assume {m : TraceM ε W α} {Q : α → W → Prop} {φ : Prop} (h : φ → Triple S P m Q E) :
    Triple S (fun w => φ ∧ P w) m Q E := fun t hP hS => h hP.1 t hP.2 hS

theorem tryCatch {m : TraceM ε W α} {handle : ε → TraceM ε W α} {Q : α → W → Prop}
    (hm : Triple S P m Q F) (hhandle : ∀ e, Triple S (F e) (handle e) Q E) :
    Triple S P (tryCatch m handle) Q E := by
  intro t hP hS
  have h := hm t hP hS
  simp only [MonadExcept.tryCatch, tryCatchThe, MonadExceptOf.tryCatch, EStateM.tryCatch]
  cases hrun : m t with
  | ok a t' =>
    rw [hrun] at h
    exact h
  | error e t' =>
    rw [hrun] at h
    exact hhandle e t' h.1 h.2

/-- A loop keeps an invariant on the elements that are done. -/
theorem forM {f : α → TraceM ε W Unit} {xs : List α} (I : List α → W → Prop)
    (hf : ∀ done x rest, xs = done ++ x :: rest →
      Triple S (I done) (f x) (fun _ => I (done ++ [x])) E) :
    Triple S (I []) (xs.forM f) (fun _ => I xs) E := by
  have hloop : ∀ rest done, xs = done ++ rest →
      Triple S (I done) (rest.forM f) (fun _ => I xs) E := by
    intro rest
    induction rest with
    | nil =>
      intro done hxs
      rw [List.append_nil] at hxs
      exact pure fun w hw _ => hxs ▸ hw
    | cons x rest ih =>
      intro done hxs
      exact bind (hf done x rest hxs) fun _ => ih (done ++ [x]) (by simp [hxs])
  exact hloop xs [] rfl

/-- A loop that collects results keeps an invariant on the elements that are done and on theirs. -/
theorem mapM {f : α → TraceM ε W β} {xs : List α} (I : List α → List β → W → Prop)
    (hf : ∀ done x rest ys, xs = done ++ x :: rest →
      Triple S (I done ys) (f x) (fun y => I (done ++ [x]) (ys ++ [y])) E) :
    Triple S (I [] []) (xs.mapM f) (fun ys => I xs ys) E := by
  have hloop : ∀ rest done ys, xs = done ++ rest →
      Triple S (I done ys) (rest.mapM f) (fun zs => I xs (ys ++ zs)) E := by
    intro rest
    induction rest with
    | nil =>
      intro done ys hxs
      rw [List.append_nil] at hxs
      rw [List.mapM_nil]
      refine pure fun w hw _ => ?_
      rw [List.append_nil]
      exact hxs ▸ hw
    | cons x rest ih =>
      intro done ys hxs
      rw [List.mapM_cons]
      refine bind (hf done x rest ys hxs) fun y => bind (ih (done ++ [x]) (ys ++ [y])
        (by simp [hxs])) fun zs => pure fun w hw _ => ?_
      rw [List.append_assoc, List.singleton_append] at hw
      exact hw
  exact conseq (hloop xs [] [] rfl) (fun _ hw _ => hw)
    (fun _ _ hw _ => by rwa [List.nil_append] at hw) fun _ _ hw _ => hw

end Triple

end Py.Traced

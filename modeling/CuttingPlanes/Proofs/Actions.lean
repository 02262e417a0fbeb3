/-!
# Runs of actions

How a sequence of two actions runs, given how the first one does, and two forms of a
postcondition. The total form says that the action ends well, with a value and a state
as stated. An invariant is kept by the action however it ends.
-/

namespace CuttingPlanes.Actions

variable {ε σ α β : Type} {act : EStateM ε σ α} {next : α → EStateM ε σ β} {s t : σ}

theorem bind_of_ok {a : α} (h : act s = .ok a t) : (act >>= next) s = next a t := by
  show EStateM.bind act next s = next a t
  simp only [EStateM.bind, h]

theorem bind_of_error {e : ε} (h : act s = .error e t) : (act >>= next) s = .error e t := by
  show EStateM.bind act next s = .error e t
  simp only [EStateM.bind, h]

theorem exists_of_run_bind_eq_ok {b : β} {u : σ} (h : (act >>= next) s = .ok b u) :
    ∃ a t, act s = .ok a t ∧ next a t = .ok b u := by
  cases hact : act s with
  | error e t =>
    rw [bind_of_error hact] at h
    cases h
  | ok a t =>
    rw [bind_of_ok hact] at h
    exact ⟨a, t, rfl, h⟩

theorem eq_ok_of_adaptExcept {ε' : Type} {f : ε → ε'} {a : α}
    (h : EStateM.adaptExcept f act s = .ok a t) : act s = .ok a t := by
  simp only [EStateM.adaptExcept] at h
  split at h <;> cases h
  assumption

theorem exists_of_bind_eq_ok {x : Except ε α} {f : α → Except ε β} {b : β}
    (h : (x >>= f) = .ok b) : ∃ a, x = .ok a ∧ f a = .ok b := by
  cases x with
  | error e => cases h
  | ok a => exact ⟨a, rfl, h⟩

theorem ok_bind (a : α) (f : α → Except ε β) : (Except.ok a >>= f) = f a := rfl

/-- The action ends well from a state, with a value and a state that satisfy `Q`. -/
def Succeeds (act : EStateM ε σ α) (s : σ) (Q : α → σ → Prop) : Prop :=
  ∃ a t, act s = .ok a t ∧ Q a t

namespace Succeeds

variable {P : α → σ → Prop} {Q : β → σ → Prop}

theorem of_eq {a : α} (h : act s = .ok a t) (hP : P a t) : Succeeds act s P := ⟨a, t, h, hP⟩

theorem pure {a : α} (h : P a s) : Succeeds (Pure.pure a : EStateM ε σ α) s P := ⟨a, s, rfl, h⟩

theorem mono {R : α → σ → Prop} (h : Succeeds act s P) (hPR : ∀ a t, P a t → R a t) :
    Succeeds act s R := by
  obtain ⟨a, t, heq, hP⟩ := h
  exact ⟨a, t, heq, hPR a t hP⟩

theorem bind (h : Succeeds act s P) (hnext : ∀ a t, P a t → Succeeds (next a) t Q) :
    Succeeds (act >>= next) s Q := by
  obtain ⟨a, t, heq, hP⟩ := h
  obtain ⟨b, u, hb, hQ⟩ := hnext a t hP
  exact ⟨b, u, (bind_of_ok heq).trans hb, hQ⟩

end Succeeds

/-- However the action ends, it leaves a state that satisfies `P`. -/
def Leaves (act : EStateM ε σ α) (s : σ) (P : σ → Prop) : Prop :=
  match act s with
  | .ok _ t => P t
  | .error _ t => P t

section Leaves

variable {P : σ → Prop}

theorem leaves_of_ok {a : α} (h : act s = .ok a t) : Leaves act s P ↔ P t := by
  simp only [Leaves, h]

theorem leaves_of_error {e : ε} (h : act s = .error e t) : Leaves act s P ↔ P t := by
  simp only [Leaves, h]

theorem Succeeds.leaves {Q : α → σ → Prop} (h : Succeeds act s Q) (hP : ∀ a t, Q a t → P t) :
    Leaves act s P := by
  obtain ⟨a, t, hrun, ha⟩ := h
  exact (leaves_of_ok hrun).mpr (hP a t ha)

end Leaves

/-- The action leaves the states that satisfy `P` only for such states. -/
def Preserves (act : EStateM ε σ α) (P : σ → Prop) : Prop := ∀ s, P s → Leaves act s P

namespace Preserves

variable {P : σ → Prop}

theorem pure (a : α) : Preserves (Pure.pure a : EStateM ε σ α) P := fun _ h => h

theorem bind (h : Preserves act P) (hnext : ∀ a, Preserves (next a) P) :
    Preserves (act >>= next) P := by
  intro s hs
  have hact := h s hs
  cases hrun : act s with
  | ok a t =>
    have ht := hnext a t ((leaves_of_ok hrun).mp hact)
    simpa only [Leaves, bind_of_ok hrun] using ht
  | error e t =>
    rw [leaves_of_error (bind_of_error hrun)]
    exact (leaves_of_error hrun).mp hact

end Preserves

end CuttingPlanes.Actions

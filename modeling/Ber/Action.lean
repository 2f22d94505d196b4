import Ber.Failure

/-!
# Ber.Action — actions that change a state and may fail

Everything that reads is an action on a state: it yields a value or fails, and leaves the state
changed in either case. Two ways to build actions from others are used throughout: an action on a
part of the state acts on the whole (`Action.on`), and a change may be made after an action, whether
it fails or not (`Action.afterwards`). Outcomes can be compared, so that runs can be tested.
-/

namespace Ber

/-- An action on a state. A failure keeps the state as it was left. -/
abbrev Action (σ α : Type) := EStateM Failure σ α

namespace Action

variable {σ τ α : Type}

/-- Acts on a part of the state. -/
@[inline] def on (part : σ → τ) (put : τ → σ → σ) (action : Action τ α) : Action σ α := fun state =>
  match action (part state) with
  | .ok value changed => .ok value (put changed state)
  | .error failure changed => .error failure (put changed state)

/-- Changes the state after an action, also if it fails. -/
@[inline] def afterwards (change : σ → σ) (action : Action σ α) : Action σ α := fun state =>
  match action state with
  | .ok value state => .ok value (change state)
  | .error failure state => .error failure (change state)

/-- The state that an outcome leaves. -/
def final : EStateM.Result Failure σ α → σ
  | .ok _ state | .error _ state => state

instance decidableEqResult [DecidableEq σ] [DecidableEq α] :
    DecidableEq (EStateM.Result Failure σ α)
  | .ok a s, .ok b t => decidable_of_iff (a = b ∧ s = t) (by simp)
  | .error failure s, .error failure' t => decidable_of_iff (failure = failure' ∧ s = t) (by simp)
  | .ok .., .error .. => isFalse nofun
  | .error .., .ok .. => isFalse nofun

/-- An action keeps a property of the state, also if it fails. -/
def Keeps (P : σ → Prop) (action : Action σ α) : Prop :=
  ∀ state, P state → P (final (action state))

/-! ## When actions succeed -/

variable {β : Type}

/-- Returning a value changes nothing. -/
@[simp] theorem pure_eq_ok {a b : α} {s t : σ} :
    (pure a : Action σ α) s = .ok b t ↔ a = b ∧ s = t := by
  simp [pure, EStateM.pure]

/-- A sequence succeeds if its first action does and the rest does from there. -/
theorem bind_eq_ok {action : Action σ α} {rest : α → Action σ β} {s t : σ} {b : β} :
    (action >>= rest) s = .ok b t ↔ ∃ a m, action s = .ok a m ∧ rest a m = .ok b t := by
  constructor
  · intro h
    cases hrun : action s with
    | ok a m =>
      refine ⟨a, m, rfl, ?_⟩
      simpa [bind, EStateM.bind, hrun] using h
    | error failure m => simp [bind, EStateM.bind, hrun] at h
  · rintro ⟨a, m, hrun, h⟩
    simpa [bind, EStateM.bind, hrun] using h

/-- Sequences agree if what follows agrees where the first action leads. -/
theorem bind_congr {action : Action σ α} {rest other : α → Action σ β} {s : σ}
    (h : ∀ a m, action s = .ok a m → rest a m = other a m) :
    (action >>= rest) s = (action >>= other) s := by
  simp only [bind, EStateM.bind]
  cases hrun : action s with
  | ok a m => exact h a m hrun
  | error failure m => rfl

/-- A change afterwards does not decide whether an action succeeds. -/
theorem afterwards_eq_ok {change : σ → σ} {action : Action σ α} {s t : σ} {a : α} :
    afterwards change action s = .ok a t ↔ ∃ m, action s = .ok a m ∧ change m = t := by
  unfold afterwards
  cases action s with
  | ok b m =>
    constructor
    · intro h
      cases h
      exact ⟨m, rfl, rfl⟩
    · rintro ⟨n, hrun, rfl⟩
      cases hrun
      rfl
  | error failure m => simp

end Action
end Ber

import Mathlib.Data.List.Basic

/-!
# Schedules of a step function that can block

A step is `none` when the party whose turn it is has to wait. A schedule is a list of
turns that can all be taken, so a state in which no step can be taken is stuck. What
every step keeps holds after every schedule, and a measure that every step lowers
bounds the length of all schedules.
-/

namespace AvalancheParallel.Schedules

universe u v
variable {σ : Type u} {α : Type v} (step : σ → α → Option σ)

/-- The state after the turns of the schedule; `none` if one of them cannot be taken. -/
def run : σ → List α → Option σ
  | state, [] => some state
  | state, action :: rest =>
    match step state action with
    | none => none
    | some next => run next rest

/-- No turn can be taken. -/
def Stuck (state : σ) : Prop := ∀ action, step state action = none

/-- A schedule that runs to its end has taken its first step. -/
theorem run_cons {state after : σ} {action : α} {rest : List α}
    (reached : run step state (action :: rest) = some after) :
    ∃ next, step state action = some next ∧ run step next rest = some after := by
  rw [run] at reached
  split at reached
  · cases reached
  · rename_i next taken
    exact ⟨next, taken, reached⟩

/-- What every step keeps holds after every schedule. -/
theorem run_invariant (invariant : σ → Prop)
    (preserved : ∀ state action next, invariant state → step state action = some next →
      invariant next)
    {state after : σ} {actions : List α} (initial : invariant state)
    (reached : run step state actions = some after) : invariant after := by
  induction actions generalizing state with
  | nil =>
    obtain rfl := Option.some.inj reached
    exact initial
  | cons action rest inductionHypothesis =>
    obtain ⟨next, taken, later⟩ := run_cons step reached
    exact inductionHypothesis (preserved state action next initial taken) later

/-- A schedule is no longer than what its steps take from a measure. -/
theorem run_bounded (invariant : σ → Prop) (measure : σ → ℕ)
    (preserved : ∀ state action next, invariant state → step state action = some next →
      invariant next)
    (lowered : ∀ state action next, invariant state → step state action = some next →
      measure next < measure state)
    {state after : σ} {actions : List α} (initial : invariant state)
    (reached : run step state actions = some after) :
    actions.length + measure after ≤ measure state := by
  induction actions generalizing state with
  | nil =>
    obtain rfl := Option.some.inj reached
    simp
  | cons action rest inductionHypothesis =>
    obtain ⟨next, taken, later⟩ := run_cons step reached
    have shorter := inductionHypothesis (preserved state action next initial taken) later
    have lower := lowered state action next initial taken
    rw [List.length_cons]
    omega

end AvalancheParallel.Schedules

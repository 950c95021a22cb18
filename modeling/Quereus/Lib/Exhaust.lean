import Mathlib.Order.Basic

/-! # Loops that end when nothing changes

A step says what to do next, or that there is nothing left to do. A loop that
repeats it as often as a measure allows ends because there is nothing left.
-/

namespace Exhaust

variable {σ : Type*} {step : σ → Option σ}

/-- Repeat a step until it has nothing to do, at most so many times. -/
def exhaust (step : σ → Option σ) : Nat → σ → σ
  | 0, state => state
  | count + 1, state =>
    match step state with
    | none => state
    | some next => exhaust step count next

theorem exhaust_invariant (invariant : σ → Prop)
    (keeps : ∀ state next, step state = some next → invariant state → invariant next) {count : Nat}
    {state : σ} (start : invariant state) : invariant (exhaust step count state) := by
  induction count generalizing state with
  | zero => exact start
  | succ count ih =>
    unfold exhaust
    cases stepped : step state with
    | none => exact start
    | some next => exact ih (keeps state next stepped start)

/-- If the measure allows for it, nothing is left to do. -/
theorem step_exhaust (measure : σ → Nat)
    (decreases : ∀ state next, step state = some next → measure next < measure state) {count : Nat}
    {state : σ} (enough : measure state ≤ count) : step (exhaust step count state) = none := by
  induction count generalizing state with
  | zero =>
    cases stepped : step state with
    | none => exact stepped
    | some next => exact absurd (decreases state next stepped) (by omega)
  | succ count ih =>
    unfold exhaust
    cases stepped : step state with
    | none => exact stepped
    | some next =>
      have lower := decreases state next stepped
      exact ih (by omega)

end Exhaust

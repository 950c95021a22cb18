import Mathlib.Data.List.Forall2

/-! # Actions that may fail

An action changes a state and may fail; what it did before it failed stays done. The
rules say what holds of the state after an action that went well and after one
that failed.
-/

namespace Fallible

/-- The state after an action, and the failure if there was one. -/
abbrev Outcome (σ ε : Type*) := σ × Option ε

variable {σ ε α : Type*}

def done (state : σ) : Outcome σ ε :=
  (state, none)

def andThen (outcome : Outcome σ ε) (next : σ → Outcome σ ε) : Outcome σ ε :=
  match outcome.2 with
  | none => next outcome.1
  | some _ => outcome

/-- Run an action on the state a failure has left, and fail all the same. -/
def onFailure (outcome : Outcome σ ε) (cleanup : σ → σ) : Outcome σ ε :=
  match outcome.2 with
  | none => outcome
  | some failure => (cleanup outcome.1, some failure)

/-- Run an action for each of some elements, up to the first that fails. -/
def each (action : α → σ → Outcome σ ε) : List α → σ → Outcome σ ε
  | [], state => done state
  | element :: rest, state => andThen (action element state) (each action rest)

/-- Run an action for each of some elements, whether it fails or not. -/
def eachSettled (action : α → σ → Outcome σ ε) (elements : List α) (state : σ) : σ :=
  elements.foldl (fun state element => (action element state).1) state

/-- What holds of the state if all went well, and what holds of it after a failure. -/
def Meets (outcome : Outcome σ ε) (well failed : σ → Prop) : Prop :=
  match outcome.2 with
  | none => well outcome.1
  | some _ => failed outcome.1

variable {outcome : Outcome σ ε} {well failed : σ → Prop} (middle : σ → Prop)

theorem meets_done {state : σ} (holds : well state) :
    Meets (done state : Outcome σ ε) well failed :=
  holds

theorem Meets.imp {well' failed' : σ → Prop} (meets : Meets outcome well failed)
    (whenWell : ∀ state, well state → well' state)
    (whenFailed : ∀ state, failed state → failed' state) :
    Meets outcome well' failed' := by
  obtain ⟨state, failure⟩ := outcome
  cases failure with
  | none => exact whenWell state meets
  | some _ => exact whenFailed state meets

/-- What holds whether all went well or not. -/
theorem Meets.state (meets : Meets outcome well well) : well outcome.1 := by
  obtain ⟨state, failure⟩ := outcome
  cases failure <;> exact meets

theorem meets_of_state (holds : well outcome.1) : Meets outcome well well := by
  obtain ⟨state, failure⟩ := outcome
  cases failure <;> exact holds

theorem meets_andThen {next : σ → Outcome σ ε} (first : Meets outcome middle failed)
    (second : ∀ state, middle state → Meets (next state) well failed) :
    Meets (andThen outcome next) well failed := by
  obtain ⟨state, failure⟩ := outcome
  cases failure with
  | none => exact second state first
  | some _ => exact first

theorem meets_onFailure {cleanup : σ → σ} (meets : Meets outcome well middle)
    (cleaned : ∀ state, middle state → failed (cleanup state)) :
    Meets (onFailure outcome cleanup) well failed := by
  obtain ⟨state, failure⟩ := outcome
  cases failure with
  | none => exact meets
  | some _ => exact cleaned state meets

variable (invariant : List α → σ → Prop) {elements : List α}

/-- The rule for loops: the invariant speaks of the elements that are still to come. -/
theorem meets_each {action : α → σ → Outcome σ ε}
    (step : ∀ element rest state, invariant (element :: rest) state →
      Meets (action element state) (invariant rest) failed) {state : σ}
    (start : invariant elements state) :
    Meets (each action elements state) (invariant []) failed := by
  induction elements generalizing state with
  | nil => exact start
  | cons element rest ih => exact meets_andThen _ (step element rest state start) fun _ => ih

theorem eachSettled_invariant {action : α → σ → Outcome σ ε}
    (step : ∀ element rest state, invariant (element :: rest) state →
      invariant rest (action element state).1) {state : σ} (start : invariant elements state) :
    invariant [] (eachSettled action elements state) := by
  induction elements generalizing state with
  | nil => exact start
  | cons element rest ih => exact ih (step element rest state start)

/-- All elements have a result exactly when each has its own. -/
theorem mapM_eq_some_iff {β : Type*} {result : α → Option β} {results : List β} :
    elements.mapM result = some results ↔
      List.Forall₂ (fun element found => result element = some found) elements results := by
  induction elements generalizing results with
  | nil => cases results <;> simp
  | cons element rest ih =>
    rw [List.mapM_cons]
    cases results with
    | nil => cases result element <;> cases rest.mapM result <;> simp
    | cons first others =>
      rw [List.forall₂_cons, ← ih]
      cases result element <;> cases rest.mapM result <;> simp

theorem exists_of_mem_left {β : Type*} {R : α → β → Prop} {results : List β}
    (related : List.Forall₂ R elements results) {element : α} (member : element ∈ elements) :
    ∃ found ∈ results, R element found := by
  induction related with
  | nil => cases member
  | cons first _ ih =>
    obtain rfl | inside := List.mem_cons.mp member
    · exact ⟨_, List.mem_cons_self, first⟩
    · obtain ⟨found, listed, holds⟩ := ih inside
      exact ⟨found, List.mem_cons_of_mem _ listed, holds⟩

/-- Two lists that may be missing, one behind the other. -/
theorem append_eq_some {first second : Option (List α)} {whole : List α}
    (isWhole : (do return (← first) ++ (← second)) = some whole) :
    ∃ left right, first = some left ∧ second = some right ∧ left ++ right = whole := by
  cases first <;> cases second <;> cases isWhole
  exact ⟨_, _, rfl, rfl, rfl⟩

theorem bind_eq_ok_iff {α β : Type} {first : Except ε α} {next : α → Except ε β} {result : β} :
    first >>= next = .ok result ↔ ∃ value, first = .ok value ∧ next value = .ok result := by
  cases first <;> simp [bind, Except.bind]

/-- The rule for folds that may stop: the invariant speaks of the elements still to come. -/
theorem foldlM_invariant {step : σ → α → Option σ}
    (keeps : ∀ element rest state next, step state element = some next →
      invariant (element :: rest) state →
      invariant rest next) {state last : σ} (folded : elements.foldlM step state = some last)
    (start : invariant elements state) : invariant [] last := by
  induction elements generalizing state with
  | nil =>
    cases folded
    exact start
  | cons element rest ih =>
    obtain ⟨next, isNext, others⟩ := Option.bind_eq_some_iff.mp folded
    exact ih others (keeps element rest state next isNext start)

end Fallible

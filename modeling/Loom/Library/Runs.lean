import Mathlib.Algebra.Order.Ring.Int
import Mathlib.Tactic.Common

/-
  Runs of a transition system given by a step function.

  `step state action` is the state after `action`, or `none` where the action
  is not enabled. `Reaches` is every state of a run whose steps all meet a
  condition on the state before them; `run` executes a list of actions and
  fails where one of them is not enabled or not allowed.
-/

namespace Loom.Runs

variable {σ α : Type*}

/-- The states of the runs from `start` whose steps are all `allowed`. -/
inductive Reaches (step : σ → α → Option σ) (allowed : σ → α → Bool) (start : σ) : σ → Prop
  | start : Reaches step allowed start start
  | next {state state' : σ} {action : α} : Reaches step allowed start state →
      allowed state action = true → step state action = some state' →
      Reaches step allowed start state'

/-- Every enabled action is allowed. -/
def always : σ → α → Bool := fun _ _ => true

def run (step : σ → α → Option σ) (allowed : σ → α → Bool) : σ → List α → Option σ
  | state, [] => some state
  | state, action :: rest =>
    if allowed state action then
      match step state action with
      | none => none
      | some state' => run step allowed state' rest
    else none

section
variable {step : σ → α → Option σ} {allowed wider : σ → α → Bool} {start state : σ}

/-- The invariant rule: initial, and kept by every allowed step. -/
theorem Reaches.invariant (holds : σ → Prop) (hstart : holds start)
    (hstep : ∀ {state state' : σ} {action : α}, holds state → allowed state action = true →
      step state action = some state' → holds state')
    (h : Reaches step allowed start state) : holds state := by
  induction h with
  | start => exact hstart
  | next _ hallowed hnext ih => exact hstep ih hallowed hnext

variable {actions : List α}

/-- What an executed list of actions ends in is reached, from any state that is. -/
theorem Reaches.append_run {last : σ} (h : Reaches step allowed start state)
    (hrun : run step allowed state actions = some last) : Reaches step allowed start last := by
  induction actions generalizing state with
  | nil =>
    simp only [run, Option.some.injEq] at hrun; exact hrun ▸ h
  | cons action rest ih =>
    by_cases hallowed : allowed state action = true
    · cases hnext : step state action with
      | none => simp [run, hnext] at hrun
      | some state' =>
        simp only [run, hallowed, hnext] at hrun
        exact ih (.next h hallowed hnext) hrun
    · simp [run, hallowed] at hrun

theorem reaches_of_run (hrun : run step allowed start actions = some state) :
    Reaches step allowed start state := Reaches.append_run .start hrun

/-- An executed run whose last state passes a test. -/
theorem reaches_with (test : σ → Bool)
    (hrun : (run step allowed start actions).map test = some true) :
    ∃ state, Reaches step allowed start state ∧ test state = true := by
  obtain ⟨state, hstate, htest⟩ := Option.map_eq_some_iff.mp hrun
  exact ⟨state, reaches_of_run hstate, htest⟩

end

/-! ## What a list of actions shows -/

section
variable {τ ε ω : Type*}

/-- The answers to a list of actions, up to the first failure. -/
def observe (step : σ → α → Except ε (σ × ω)) : σ → List α → List (Except ε ω)
  | _, [] => []
  | state, action :: rest =>
    match step state action with
    | .error error => [.error error]
    | .ok (state', answer) => .ok answer :: observe step state' rest

/-- Two steps that fail alike, or answer alike and end in related states. -/
inductive Matches (related : σ → τ → Prop) :
    Except ε (σ × ω) → Except ε (τ × ω) → Prop
  | failed (error : ε) : Matches related (.error error) (.error error)
  | answered {state : σ} {other : τ} (answer : ω) : related state other →
      Matches related (.ok (state, answer)) (.ok (other, answer))

theorem observe_eq {step : σ → α → Except ε (σ × ω)} {abstract : τ → α → Except ε (τ × ω)}
    (related : σ → τ → Prop) (hstep : ∀ {state other}, related state other → ∀ action,
      Matches related (step state action) (abstract other action))
    {state : σ} {other : τ} (h : related state other) (actions : List α) :
    observe step state actions = observe abstract other actions := by
  induction actions generalizing state other with
  | nil => rfl
  | cons action rest ih =>
    have hmatches := hstep h action
    unfold observe
    generalize step state action = first at hmatches ⊢
    generalize abstract other action = second at hmatches ⊢
    cases hmatches with
    | failed error => rfl
    | answered answer hnext => exact congrArg (.ok answer :: ·) (ih hnext)

end

end Loom.Runs

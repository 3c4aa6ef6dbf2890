import Loom.Library.Decimal
import Loom.Library.Results
import Mathlib.Data.List.Basic

/-
  Deployment attempts, their transitions, and the ledger that records them.

  The ledger is a table of events in the order of their sequence numbers; a
  client reads it as the text the database tool prints, one event a line, and
  `recorded` replays the whole of it before anything is taken from it.

  Correspondence (state.loom, store.loom ↔ Lean), where names differ:
    `advance`, `effective` ↔ `advanced`, `advance`, `effective`
    `policy_number`, `from_policy` and of the state ↔ `policyNumber`, `fromPolicy`, ...
  A text is the list of its bytes: 9 separates the columns, 10 ends a line.
-/

namespace Loom.Deployment

open Decimal

inductive FailurePolicy where
  | stop
  | rollback
  deriving DecidableEq

inductive DeploymentState where
  | notDeployed
  | started
  | failed
  | complete
  | rollbackStarted
  | rollbackFailed
  | rollbackComplete
  | assumedComplete
  | cancelled
  deriving DecidableEq

inductive Transition where
  | begins
  | fail
  | finish
  | beginRollback
  | failRollback
  | finishRollback
  | resume
  | assumeComplete
  | cancel
  deriving DecidableEq

structure Attempt where
  id : Text
  fromBasis : Text
  toBasis : Text
  planDigest : Text
  policy : FailurePolicy
  state : DeploymentState
  deriving DecidableEq

def advanced (attempt : Attempt) (event : Transition) : Except String DeploymentState :=
  match attempt.state, event with
  | .notDeployed, .begins => .ok .started
  | .notDeployed, .assumeComplete => .ok .assumedComplete
  | .notDeployed, .cancel => .ok .cancelled
  | .notDeployed, _ => .error "deployment has not started"
  | .started, .fail => .ok .failed
  | .started, .finish => .ok .complete
  | .started, _ => .error "started deployment has an unknown outcome"
  | .failed, .beginRollback => .ok .rollbackStarted
  | .failed, .resume =>
    if attempt.policy = .rollback then
      .error "rollback policy does not permit continuing a failed deployment"
    else .ok .started
  | .failed, _ => .error "failed deployment needs its declared recovery policy"
  | .complete, .beginRollback => .ok .rollbackStarted
  | .complete, _ => .error "completed deployment needs a new attempt or rollback"
  | .rollbackStarted, .failRollback => .ok .rollbackFailed
  | .rollbackStarted, .finishRollback => .ok .rollbackComplete
  | .rollbackStarted, _ => .error "rollback is still in progress"
  | .rollbackFailed, .beginRollback => .ok .rollbackStarted
  | .rollbackFailed, _ => .error "failed rollback needs explicit retry"
  | .rollbackComplete, _ => .error "rolled-back attempt is closed"
  | .assumedComplete, _ => .error "assumed historical completion is not an observed operation"
  | .cancelled, _ => .error "cancelled deployment plan is closed"

def advance (attempt : Attempt) (event : Transition) : Except String Attempt := do
  let next ← advanced attempt event
  .ok { attempt with state := next }

inductive BasisEvidence where
  | none
  | observed (basis : Text)
  | assumed (basis : Text)
  deriving DecidableEq

/-- The basis an attempt establishes: by completion, rollback or assumption. -/
def effective (attempt : Attempt) : BasisEvidence :=
  match attempt.state with
  | .complete => .observed attempt.toBasis
  | .rollbackComplete => .observed attempt.fromBasis
  | .assumedComplete => .assumed attempt.toBasis
  | _ => .none

structure Stored where
  sequence : Int
  attempt : Attempt
  evidence : BasisEvidence
  deriving DecidableEq

def identifier (value : Text) : Bool :=
  !value.isEmpty && value.length ≤ 128 && value.all fun part =>
    (part ≥ 97 && part ≤ 122) || (part ≥ 48 && part ≤ 57) || part == 95

def digest (value : Text) : Bool :=
  value.length == 64 && value.all fun part =>
    (part ≥ 48 && part ≤ 57) || (part ≥ 97 && part ≤ 102)

def valid (attempt : Attempt) : Bool :=
  identifier attempt.id && (attempt.fromBasis == [] || digest attempt.fromBasis) &&
    digest attempt.toBasis && (attempt.planDigest == [] || digest attempt.planDigest)

def policyNumber : FailurePolicy → Int
  | .stop => 0
  | .rollback => 1

def stateNumber : DeploymentState → Int
  | .notDeployed => 0
  | .started => 1
  | .failed => 2
  | .complete => 3
  | .rollbackStarted => 4
  | .rollbackFailed => 5
  | .rollbackComplete => 6
  | .assumedComplete => 7
  | .cancelled => 8

def fromPolicy (value : Int) : Except String FailurePolicy :=
  if value = 0 then .ok .stop
  else if value = 1 then .ok .rollback
  else .error "invalid stored failure policy"

def fromState (value : Int) : Except String DeploymentState :=
  if value = 0 then .ok .notDeployed
  else if value = 1 then .ok .started
  else if value = 2 then .ok .failed
  else if value = 3 then .ok .complete
  else if value = 4 then .ok .rollbackStarted
  else if value = 5 then .ok .rollbackFailed
  else if value = 6 then .ok .rollbackComplete
  else if value = 7 then .ok .assumedComplete
  else if value = 8 then .ok .cancelled
  else .error "invalid stored deployment state"

def integer (value : Text) : Except String Int :=
  match parse value with
  | .ok number => .ok number
  | .error _ => .error "invalid stored deployment sequence"

def storedLine (line : Text) : Except String Stored :=
  match line.splitOn 9 with
  | [sequenceText, id, fromBasis, toBasis, planDigest, policyText, stateText] => do
    let sequence ← integer sequenceText
    let policy ← fromPolicy (← integer policyText)
    let state ← fromState (← integer stateText)
    let attempt : Attempt := ⟨id, fromBasis, toBasis, planDigest, policy, state⟩
    if sequence ≤ 0 ∨ ¬valid attempt then .error "invalid stored deployment record"
    else .ok ⟨sequence, attempt, .none⟩
  | _ => .error "invalid stored deployment record"

def sameAttemptPlan (before after : Attempt) : Bool :=
  before.id == after.id && before.fromBasis == after.fromBasis &&
    before.toBasis == after.toBasis && before.planDigest == after.planDigest &&
    before.policy == after.policy

def nextState (before after : Attempt) : Bool :=
  sameAttemptPlan before after &&
    match before.state with
    | .notDeployed => after.state == .started || after.state == .assumedComplete ||
        after.state == .cancelled
    | .started => after.state == .failed || after.state == .complete
    | .failed => after.state == .rollbackStarted ||
        (before.policy == .stop && after.state == .started)
    | .complete => after.state == .rollbackStarted
    | .rollbackStarted => after.state == .rollbackFailed || after.state == .rollbackComplete
    | .rollbackFailed => after.state == .rollbackStarted
    | _ => false

def newAttempt (before : Stored) (after : Attempt) : Bool :=
  after.state == .notDeployed &&
    match before.evidence with
    | .observed basis => basis == after.fromBasis
    | .assumed basis => basis == after.fromBasis
    | .none => (before.attempt.state == .notDeployed || before.attempt.state == .cancelled) &&
        before.attempt.fromBasis == [] && after.fromBasis == []

/-- The event after another one: a prepared or withdrawn plan keeps the basis
established before it. -/
def storedAfter (before after : Stored) : Except String Stored :=
  let current : Stored :=
    { after with
      evidence :=
        if after.attempt.state = .notDeployed ∨ after.attempt.state = .cancelled then
          before.evidence
        else effective after.attempt }
  if after.sequence ≤ before.sequence then .error "deployment event order is invalid"
  else if after.attempt.id = before.attempt.id then
    if nextState before.attempt after.attempt then .ok current
    else .error "deployment event transition is invalid"
  else if newAttempt before after.attempt then .ok current
  else .error "deployment attempt sequence is invalid"

/-- The loop over the lines after the first: the event before, the identities
introduced and the last event of the attempt asked for. -/
def recordedRest (id : Text) (previous : Stored) (seen : List Text) (selected : Option Stored) :
    List Text → Except String (Stored × Option Stored)
  | [] => .ok (previous, selected)
  | line :: rest =>
    if line ≠ [] then do
      let parsed ← storedLine line
      let current ← storedAfter previous parsed
      let selected := if current.attempt.id = id then some current else selected
      if current.attempt.id ≠ previous.attempt.id then
        if current.attempt.id ∈ seen then .error "deployment attempt identity was already used"
        else recordedRest id current (seen ++ [current.attempt.id]) selected rest
      else recordedRest id current seen selected rest
    else if rest ≠ [] then .error "deployment ledger contains an empty event"
    else recordedRest id previous seen selected rest

/-- Replay what the tool prints of the ledger: the last event, or the last one
of the attempt asked for. -/
def recorded (output id : Text) : Except String (Option Stored) :=
  match output.splitOn 10 with
  | [] => .ok none
  | first :: rest =>
    if first = [] then .ok none
    else do
      let previous ← storedLine first
      if previous.attempt.state ≠ .notDeployed ∨ previous.attempt.fromBasis ≠ [] then
        .error "invalid initial deployment event"
      else
        let selected := if previous.attempt.id = id then some previous else none
        let (last, selected) ← recordedRest id previous [previous.attempt.id] selected rest
        .ok (if id = [] then some last else selected)

end Loom.Deployment

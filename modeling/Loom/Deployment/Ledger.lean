import Loom.Deployment.Replay
import Loom.Library.Runs
import Mathlib.Logic.Function.Basic

/-
  Clients that share one deployment ledger.

  Every operation of store.loom is a few queries to the database, and what
  another client does may fall between any two of them. A `Place` is where a
  client stands between two queries; `step` lets one client run its next one.

  Correspondence (store.loom ↔ Lean), where names differ:
    `register` ↔ `register`, `readRegister`, then `append`
    `replace_unstarted_attempt` ↔ `replace`, `checkReplacement`, then `append`
    `record_event` ↔ `recordEvent`, then `append`
    `assume_historical` ↔ `historical`, then `importBoth`
  An operation that fails leaves its client idle and the ledger as it was.
  `initialize` creates the table where it is missing, which no reader can tell
  from an empty one.
-/

namespace Loom.Deployment

open Decimal Results Runs

/-! ## Queries -/

/-- IFNULL(MAX(sequence),0). -/
def maxSequence (ledger : List Entry) : Int :=
  ledger.foldl (fun greatest entry => max greatest entry.sequence) 0

/-- The row AUTOINCREMENT makes of `attempt`. -/
def nextEntry (ledger : List Entry) (attempt : Attempt) : Entry :=
  ⟨maxSequence ledger + 1, attempt⟩

/-- The guarded insert. The greatest rowid has no successor, where the tool fails. -/
def append (ledger : List Entry) (expected : Int) (attempt : Attempt) :
    Except String (List Entry) :=
  if maxSequence ledger = expected ∧ maxSequence ledger + 1 < 2 ^ 63 then
    .ok (ledger ++ [nextEntry ledger attempt])
  else .error "deployment record changed concurrently"

def identityUsed (ledger : List Entry) (id : Text) : Bool :=
  ledger.any fun entry => entry.attempt.id == id

def latest (ledger : List Entry) : Except String (Option Stored) :=
  recorded (output ledger) []

/-- What `assume_historical` inserts, in one transaction that fails on a ledger
with any row. -/
def insertBoth (ledger : List Entry) (attempt assumed : Attempt) :
    Except String (List Entry) :=
  if ledger = [] then
    let first := ledger ++ [nextEntry ledger attempt]
    .ok (first ++ [nextEntry first assumed])
  else .error "deployment ledger is not empty"

/-! ## Clients -/

inductive Operation where
  | register
  | replace
  | recordEvent
  deriving DecidableEq

inductive Place where
  | idle
  /-- `identity_used` has answered no, `latest` has not been read. -/
  | registering (attempt : Attempt)
  /-- `latest` has been read, `identity_used` has not been asked. -/
  | replacing (expected : Int) (attempt : Attempt)
  | appending (operation : Operation) (expected : Int) (attempt : Attempt)
  | importing (attempt assumed : Attempt)
  deriving DecidableEq

def register (ledger : List Entry) (attempt : Attempt) : Except String Place :=
  if ¬valid attempt ∨ attempt.state ≠ .notDeployed then
    .error "deployment attempt needs validated identities and a failure policy"
  else if identityUsed ledger attempt.id then
    .error "deployment attempt identity was already used"
  else .ok (.registering attempt)

def registerExpected (found : Option Stored) (attempt : Attempt) : Except String Int :=
  match found with
  | none =>
    if attempt.fromBasis ≠ [] then .error "first deployment has no observed starting basis"
    else .ok 0
  | some previous =>
    if previous.attempt.id = attempt.id then
      .error "deployment attempt identity was already used"
    else if previous.attempt.state = .notDeployed then
      .error "current deployment plan has not started; replace it explicitly"
    else
      match previous.evidence with
      | .observed basis =>
        if basis ≠ attempt.fromBasis then .error "starting basis differs from effective deployment"
        else .ok previous.sequence
      | .assumed basis =>
        if basis ≠ attempt.fromBasis then .error "starting basis differs from assumed deployment"
        else .ok previous.sequence
      | .none =>
        if ¬newAttempt previous attempt then .error "previous deployment outcome is unresolved"
        else .ok previous.sequence

def readRegister (ledger : List Entry) (attempt : Attempt) : Except String Place := do
  let expected ← registerExpected (← latest ledger) attempt
  .ok (.appending .register expected attempt)

def replace (ledger : List Entry) (id : Text) (attempt : Attempt) : Except String Place :=
  if ¬valid attempt ∨ attempt.state ≠ .notDeployed then
    .error "deployment attempt needs validated identities and a failure policy"
  else do
    match ← latest ledger with
    | none => .error "no deployment attempt is registered"
    | some previous =>
      if previous.attempt.id ≠ id ∨ previous.attempt.state ≠ .notDeployed then
        .error "replacement requires the current unstarted deployment plan"
      else if ¬newAttempt previous attempt then
        .error "replacement starting basis differs from effective deployment"
      else .ok (.replacing previous.sequence attempt)

def checkReplacement (ledger : List Entry) (expected : Int) (attempt : Attempt) :
    Except String Place :=
  if identityUsed ledger attempt.id then .error "deployment attempt identity was already used"
  else .ok (.appending .replace expected attempt)

def recordEvent (ledger : List Entry) (id : Text) (event : Transition) : Except String Place :=
  if ¬identifier id then .error "invalid deployment identity"
  else do
    match ← latest ledger with
    | none => .error "no deployment attempt is registered"
    | some previous =>
      if previous.attempt.id ≠ id then .error "deployment attempt is not current"
      else do
        let next ← advance previous.attempt event
        .ok (.appending .recordEvent previous.sequence next)

def prepare (id fromBasis toBasis : Text) (policy : FailurePolicy) : Except String Attempt :=
  if id = [] ∨ toBasis = [] ∨ fromBasis = toBasis then
    .error "deployment needs an identity and a new target basis"
  else .ok ⟨id, fromBasis, toBasis, [], policy, .notDeployed⟩

def historical (ledger : List Entry) (id basis : Text) : Except String Place :=
  if ¬identifier id ∨ ¬digest basis then
    .error "historical deployment needs a valid identity and basis"
  else do
    match ← latest ledger with
    | some _ => .error "historical import needs an empty deployment ledger"
    | none => do
      let attempt ← prepare id [] basis .stop
      let assumed ← advance attempt .assumeComplete
      .ok (.importing attempt assumed)

structure System (ι : Type) where
  ledger : List Entry
  place : ι → Place

/-- The empty ledger, with nobody at work. -/
def System.empty (ι : Type) : System ι := ⟨[], fun _ => .idle⟩

inductive Event (ι : Type) where
  | register (client : ι) (attempt : Attempt)
  | readRegister (client : ι)
  | replace (client : ι) (id : Text) (attempt : Attempt)
  | checkReplacement (client : ι)
  | recordEvent (client : ι) (id : Text) (event : Transition)
  | append (client : ι)
  | historical (client : ι) (id basis : Text)
  | importBoth (client : ι)

variable {ι : Type} [DecidableEq ι]

/-- A query that only reads: its client goes on, or gives up. -/
def System.went (s : System ι) (client : ι) : Except String Place → System ι
  | .ok place => { s with place := Function.update s.place client place }
  | .error _ => { s with place := Function.update s.place client .idle }

/-- A query that writes: its client is done either way. -/
def System.wrote (s : System ι) (client : ι) : Except String (List Entry) → System ι
  | .ok ledger => ⟨ledger, Function.update s.place client .idle⟩
  | .error _ => { s with place := Function.update s.place client .idle }

def step (s : System ι) : Event ι → Option (System ι)
  | .register client attempt =>
    match s.place client with
    | .idle => some (s.went client (register s.ledger attempt))
    | _ => none
  | .readRegister client =>
    match s.place client with
    | .registering attempt => some (s.went client (readRegister s.ledger attempt))
    | _ => none
  | .replace client id attempt =>
    match s.place client with
    | .idle => some (s.went client (replace s.ledger id attempt))
    | _ => none
  | .checkReplacement client =>
    match s.place client with
    | .replacing expected attempt =>
      some (s.went client (checkReplacement s.ledger expected attempt))
    | _ => none
  | .recordEvent client id event =>
    match s.place client with
    | .idle => some (s.went client (recordEvent s.ledger id event))
    | _ => none
  | .append client =>
    match s.place client with
    | .appending _ expected attempt => some (s.wrote client (append s.ledger expected attempt))
    | _ => none
  | .historical client id basis =>
    match s.place client with
    | .idle => some (s.went client (historical s.ledger id basis))
    | _ => none
  | .importBoth client =>
    match s.place client with
    | .importing attempt assumed => some (s.wrote client (insertBoth s.ledger attempt assumed))
    | _ => none

end Loom.Deployment

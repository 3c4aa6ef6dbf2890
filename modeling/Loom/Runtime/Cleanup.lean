import Loom.Library.Runs

/-
  Lexical cleanup and fault boundaries of the native runtime.

  One thread runs generated code: it registers and removes cleanups, enters and
  leaves root frames, opens fault boundaries, and faults or is cancelled at any
  of these points. A fault drains the registrations above the current boundary
  by calling their callbacks, which are generated code again.

  Correspondence (cleanup.rs ↔ Lean), where names differ:
    `Cleanup`, `Boundary`, `OwnedFault`, `Failure` ↔ `Registration`, `Boundary`, `Fault`, `Failure`
    `HEAD`, `super::ROOTS` ↔ `stack`, `roots`, the chains from there, newest first
    `BOUNDARY`, `TEST_NAME`, `FIRST_FAULT` ↔ `boundaries`, `testName`, `firstFault`
    `loom_rt_cleanup_push`, `_pop` ↔ `cleanupPush`, `cleanupPop`
    `catch_fault_inner` ↔ `catchFaultInner`, and `caught` after the unwind
    `propagate_cancel` ↔ mode `cancelling`
    `super::fatal` ↔ mode `fatal`
  A pointer is a number. What a callback does is not fixed: any event may come
  next while the thread runs generated code.
-/

namespace Loom.Cleanup

open Runs

abbrev Pointer := Nat
abbrev Bytes := List UInt8

structure Fault where
  message : Bytes
  testName : Option Bytes
  deriving DecidableEq

inductive Failure where
  | fault (fault : Fault)
  | cancelled
  deriving DecidableEq

/-- Whether the boundary is one of `catch_worker`, or one of `catch_fault`, from
where a cancellation goes on to the next boundary. -/
inductive Catcher where
  | fault
  | worker
  deriving DecidableEq

/-- A record of the chain. `serial` counts the pushes: an address is used again
once its registration is over. -/
structure Registration where
  record : Pointer
  callback : Pointer
  captures : Pointer
  serial : Nat
  deriving DecidableEq

/-- Generated code called from inside `unwind_boundary`. -/
inductive Running where
  | hook
  | callback
  deriving DecidableEq

/-- A boundary with the local variables of its `catch_fault_inner`, and what
its drains are running. `id`, `entered` and `mark` say which boundary it is, the
chain it was opened on, and how many pushes there were by then. -/
structure Boundary where
  cleanup : Option Pointer
  roots : List Pointer
  first : Option Fault
  cancelled : Bool
  beforeDrain : Option (Pointer × Pointer)
  catcher : Catcher
  testName : Option Bytes
  firstFault : Option Fault
  running : List Running
  id : Nat
  entered : List Registration
  mark : Nat
  deriving DecidableEq

inductive Mode where
  /-- Generated code runs. -/
  | running
  /-- `drain_to` is at the head of its loop, above the current boundary. -/
  | draining
  /-- The private unwind travels to the current boundary. -/
  | unwinding
  /-- `propagate_cancel` has a cancellation to pass on. -/
  | cancelling
  /-- `drain_to` without a boundary, with the diagnostic to report. -/
  | terminating (first : Fault)
  | exited (report : Fault)
  | fatal (message : String)
  deriving DecidableEq

/-- What has happened, for the properties. A boundary is named by its number;
a fault without a boundary has none. -/
inductive Entry where
  | pushed (serial : Nat)
  | popped (serial : Nat)
  | invoked (serial : Nat)
  | entered (id : Nat) (stack : List Registration) (roots : List Pointer)
  | faulted (id : Option Nat) (fault : Fault)
  | cancelled (id : Nat)
  | left (id : Nat) (result : Option Failure) (stack : List Registration) (roots : List Pointer)
  deriving DecidableEq

structure State where
  stack : List Registration
  roots : List Pointer
  testName : Option Bytes
  firstFault : Option Fault
  boundaries : List Boundary
  /-- The diagnostics of the calls of `fault` whose callbacks run without a boundary. -/
  base : List Fault
  collecting : Bool
  mode : Mode
  pushes : Nat
  catches : Nat
  log : List Entry
  deriving DecidableEq

def State.initial : State :=
  { stack := [], roots := [], testName := none, firstFault := none, boundaries := [], base := [],
    collecting := false, mode := .running, pushes := 0, catches := 0, log := [] }

def State.fatal (s : State) (message : String) : State := { s with mode := .fatal message }

/-- The record a chain starts with; null where it is empty. -/
def head (stack : List Registration) : Option Pointer := stack.head?.map Registration.record

def cleanupPush (s : State) (record callback captures : Pointer) : State :=
  { s with
    stack := ⟨record, callback, captures, s.pushes⟩ :: s.stack
    pushes := s.pushes + 1
    log := .pushed s.pushes :: s.log }

/-- The walk along `previous` up to `record`: its registration, and the chain without it. -/
def unlink (record : Pointer) : List Registration → Option (Registration × List Registration)
  | [] => none
  | previous :: rest =>
    if previous.record = record then some (previous, rest)
    else (unlink record rest).map fun found => (found.1, previous :: found.2)

def cleanupPop (s : State) (record : Pointer) : State :=
  match unlink record s.stack with
  | some (found, kept) => { s with stack := kept, log := .popped found.serial :: s.log }
  | none => s.fatal "invalid cleanup registration order"

def rootsEnter (s : State) (frame : Pointer) : State := { s with roots := frame :: s.roots }

def rootsLeave (s : State) (frame : Pointer) : State :=
  match s.roots with
  | top :: rest =>
    if top = frame then { s with roots := rest } else s.fatal "invalid GC root frame order"
  | [] => s.fatal "invalid GC root frame order"

def catchFaultInner (s : State) (catcher : Catcher) (beforeDrain : Option (Pointer × Pointer)) :
    State :=
  if s.collecting then s.fatal "fault boundary during GC tracing"
  else
    { s with
      boundaries :=
        { cleanup := head s.stack, roots := s.roots, first := none, cancelled := false,
          beforeDrain := beforeDrain, catcher := catcher, testName := s.testName,
          firstFault := s.firstFault, running := [], id := s.catches, entered := s.stack,
          mark := s.pushes } :: s.boundaries
      firstFault := none
      catches := s.catches + 1
      log := .entered s.catches s.stack s.roots :: s.log }

/-- The current boundary is left; `unwound` says that the private unwind arrived. -/
def caught (s : State) (boundary : Boundary) (outer : List Boundary) (unwound : Bool) : State :=
  let s :=
    { s with
      boundaries := outer, testName := boundary.testName, firstFault := boundary.firstFault }
  let leave (result : Option Failure) (mode : Mode) : State :=
    { s with mode := mode, log := .left boundary.id result s.stack s.roots :: s.log }
  if unwound ∧ boundary.first = none ∧ ¬boundary.cancelled then
    s.fatal "unexpected Rust panic at fault boundary"
  else if head s.stack ≠ boundary.cleanup ∨ s.roots ≠ boundary.roots then
    s.fatal "unbalanced fault boundary registrations"
  else if unwound then
    match boundary.first with
    | some fault => leave (some (.fault fault)) .running
    | none =>
      leave (some .cancelled) (if boundary.catcher = .worker then .running else .cancelling)
  else if boundary.first ≠ none ∨ boundary.cancelled then
    s.fatal "fault escaped its resume boundary"
  else leave none .running

/-- One turn of the loop, and what follows it in `unwind_boundary`. -/
def drainTo (s : State) (boundary : Boundary) (outer : List Boundary) : State :=
  if head s.stack = boundary.cleanup then
    if s.collecting then s.fatal "runtime fault during GC tracing"
    else { s with roots := boundary.roots, mode := .unwinding }
  else
    match s.stack with
    | [] => s.fatal "missing cleanup boundary"
    | record :: rest =>
      { s with
        stack := rest
        boundaries := { boundary with running := .callback :: boundary.running } :: outer
        mode := .running
        log := .invoked record.serial :: s.log }

/-- The same without a boundary, and the exit that follows it. -/
def drainAll (s : State) (first : Fault) : State :=
  match s.stack with
  | [] => { s with mode := .exited first }
  | record :: rest =>
    { s with
      stack := rest, base := first :: s.base, mode := .running,
      log := .invoked record.serial :: s.log }

/-- The hook is taken before it runs. -/
def unwindBoundary (s : State) (boundary : Boundary) (outer : List Boundary) : State :=
  match boundary.beforeDrain with
  | some _ =>
    { s with
      boundaries :=
        { boundary with beforeDrain := none, running := .hook :: boundary.running } :: outer
      mode := .running }
  | none => { s with boundaries := boundary :: outer, mode := .draining }

def cancel (s : State) : State :=
  match s.boundaries with
  | [] => s.fatal "worker cancellation without a boundary"
  | boundary :: outer =>
    unwindBoundary { s with log := .cancelled boundary.id :: s.log }
      { boundary with cancelled := true } outer

def fault (s : State) (message : Bytes) : State :=
  let raised : Fault := ⟨message, s.testName⟩
  match s.boundaries with
  | boundary :: outer =>
    unwindBoundary { s with log := .faulted (some boundary.id) raised :: s.log }
      { boundary with first := some (boundary.first.getD raised) } outer
  | [] =>
    let first := s.firstFault.getD raised
    { s with
      firstFault := some first, mode := .terminating first,
      log := .faulted none raised :: s.log }

/-- The generated code of the current activation returns: a callback or the hook
to its drain, the body of a boundary to `catch_fault_inner`. -/
def returns (s : State) : Option State :=
  match s.boundaries with
  | boundary :: outer =>
    match boundary.running with
    | [] => some (caught s boundary outer false)
    | _ :: rest =>
      some { s with boundaries := { boundary with running := rest } :: outer, mode := .draining }
  | [] =>
    match s.base with
    | [] => none
    | first :: rest => some { s with base := rest, mode := .terminating first }

inductive Event where
  | push (record callback captures : Pointer)
  | pop (record : Pointer)
  | enterRoots (frame : Pointer)
  | leaveRoots (frame : Pointer)
  | testEnter (name : Bytes)
  | testLeave
  | startTracing
  | stopTracing
  | catchFault (catcher : Catcher) (beforeDrain : Option (Pointer × Pointer))
  | fault (message : Bytes)
  | cancel
  /-- A Rust panic that is not the private unwind. -/
  | panic
  | returns
  /-- The runtime's own next move, where it is not generated code that runs. -/
  | advance

def userStep (s : State) : Event → Option State
  | .push record callback captures => some (cleanupPush s record callback captures)
  | .pop record => some (cleanupPop s record)
  | .enterRoots frame => some (rootsEnter s frame)
  | .leaveRoots frame => some (rootsLeave s frame)
  | .testEnter name => some { s with testName := some name }
  | .testLeave => some { s with testName := none }
  | .startTracing => some { s with collecting := true }
  | .stopTracing => some { s with collecting := false }
  | .catchFault catcher beforeDrain => some (catchFaultInner s catcher beforeDrain)
  | .fault message => some (fault s message)
  | .cancel => some (cancel s)
  | .panic =>
    match s.boundaries with
    | [] => none
    | _ :: _ => some (s.fatal "unexpected Rust panic at fault boundary")
  | .returns => returns s
  | .advance => none

def runtimeStep (s : State) : Option State :=
  match s.mode, s.boundaries with
  | .draining, boundary :: outer => some (drainTo s boundary outer)
  | .unwinding, boundary :: outer => some (caught s boundary outer true)
  | .cancelling, _ => some (cancel s)
  | .terminating first, _ => some (drainAll s first)
  | _, _ => none

def step (s : State) (event : Event) : Option State :=
  match s.mode, event with
  | .running, event => userStep s event
  | _, .advance => runtimeStep s
  | _, _ => none

/-! ## Balanced programs -/

/-- Pushes before the current boundary was opened. -/
def mark (s : State) : Nat :=
  match s.boundaries with
  | boundary :: _ => boundary.mark
  | [] => 0

/-- Root frames from before the current boundary was opened. -/
def rootMark (s : State) : Nat :=
  match s.boundaries with
  | boundary :: _ => boundary.roots.length
  | [] => 0

/-- What generated code promises: a pushed record is inactive, a popped one was
pushed inside the current boundary and is active, root frames nest, a body
returns with its own registrations and frames removed, only a worker is
cancelled, and nothing but the tracer runs while the collector traces. -/
def balanced (s : State) (event : Event) : Bool :=
  match event with
  | .stopTracing => s.collecting
  | .push record _ _ => !s.collecting && s.stack.all fun active => active.record != record
  | .pop record =>
    !s.collecting && s.stack.any fun active => active.record == record && mark s ≤ active.serial
  | .leaveRoots frame => !s.collecting && s.roots.head? == some frame && rootMark s < s.roots.length
  | .cancel => !s.collecting && s.boundaries.any fun boundary => boundary.catcher == .worker
  | .returns =>
    !s.collecting &&
      match s.boundaries with
      | boundary :: _ => boundary.running != [] ||
          (s.stack.all fun active => active.serial < boundary.mark) &&
            s.roots.length == boundary.roots.length
      | [] => true
  | .panic => false
  | _ => !s.collecting

end Loom.Cleanup

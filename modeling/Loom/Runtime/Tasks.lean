import Loom.Library.Faults
import Loom.Library.Runs
import Loom.Library.Tables
import Mathlib.Data.List.Basic
import Mathlib.Data.List.Sort

/-
  The task scheduler of the native runtime.

  Tasks form a tree: a task owns those it creates until they are adopted by a
  callee, returned to the consumer of a result, released, or cancelled. One
  activation runs at a time; what it does between two suspensions is generated
  code, whose task operations are the events here. `drive` resumes queued tasks
  and takes the notifications of external waits.

  Correspondence (tasks.rs, tasks_observation.rs, tasks_outcomes.rs ↔ Lean):
    `Task`, `State`, `ExternalWait`, `Observation` ↔ `Task`, `Status`, `ExternalWait`, `Observation`
    `Core` ↔ `Core`, a map from identities to tasks
    `edit`, an error of it, `fatal` and panics ↔ `Outcome`, `.fault`, `.fatal`
    `loom_rt_task_create`, `_adopt`, `_return`, ... ↔ `create`, `adopt`, `returnTask`, ...
    `cancel_tree`, `cancel_descendants` ↔ mode `cancelling`, one turn of the loop a step
    `validate_return`, `finish_resume`, `drive` ↔ `validateReturn`, `finishResume`, `next`
    `poll`, one notification ↔ `notify`
  A cleanup callback is what it raises, if anything: it cannot use Task
  operations. A failure is its diagnostic. Left out: jobs on other threads (a task
  here has no `operation` and no `computation`), the frame roots (so what `drive`,
  `cancel_tree`, `drain_cleanups`, `resume_task`, `task_peek_result`, `task_result`
  and `task_release` assert of `roots()`), a reactor that fails to cancel (fatal in
  `cancel_wait`) and one out of memory at a registration (fatal in `wait_fault`).
-/

namespace Loom.Tasks

open Faults Runs Tables

/-! ## Data -/

/-- `serial` counts the registrations. -/
structure Cleanup where
  site : Int
  callback : Option String
  serial : Nat
  deriving DecidableEq

inductive Status where
  | queued
  | running
  | waiting (child : Nat)
  | observing
  | externalWaiting
  | completed (order : Nat)
  | faulted (failure : String) (order : Nat)
  | cancelled (order : Nat)
  deriving DecidableEq

def Status.terminalOrder : Status → Option Nat
  | .completed order => some order
  | .faulted _ order => some order
  | .cancelled order => some order
  | _ => none

structure WaitSource where
  kind : Nat
  interests : Nat
  handle : Nat
  deadline : Nat
  deriving DecidableEq

structure ExternalWait where
  source : WaitSource
  registration : Nat
  ready : Bool
  deriving DecidableEq

structure Observation where
  members : List (Nat × Int)
  ready : List (Nat × Nat)
  selectedFault : Option Nat
  selectedIndex : Option Int
  deriving DecidableEq

def Observation.default : Observation := ⟨[], [], none, none⟩

structure Task where
  parent : Option Nat
  children : List Nat
  returned : Nat
  returnedToParent : Bool
  resultExtracted : Bool
  cleanups : List Cleanup
  waiter : Option Nat
  observation : Option Observation
  state : Status
  external : Option ExternalWait
  creation : String
  deriving DecidableEq

/-- The scheduler's state. The last five fields are not in the source: the
reactor's next registration, the registered cleanups, those that have run, those
popped or handed over, and the children whose cancellation the current
activation has begun and not yet released. -/
structure Core where
  tasks : Nat → Option Task
  ready : List Nat
  current : Option Nat
  root : Option Nat
  next : Nat
  pending : Nat
  registrations : Nat
  pushes : Nat
  ran : List Nat
  retired : List Nat
  begun : List Nat

def Core.empty : Core := ⟨fun _ => none, [], none, none, 0, 0, 0, 0, [], [], []⟩

/-- What an operation leaves, and the fault it raises from there. -/
abbrev Raised := Core × Option String

def Core.put (core : Core) (id : Nat) (task : Task) : Core :=
  { core with tasks := Tables.put core.tasks id task }

/-- An index into the map, or an `unwrap` of a lookup. -/
def Core.task (core : Core) (id : Nat) : Outcome Task := found (core.tasks id) "missing task"

/-- A BTreeSet is the list of its elements in order. -/
def insertChild (children : List Nat) (child : Nat) : List Nat :=
  children.orderedInsert (· ≤ ·) child

def insertReady (ready : List (Nat × Nat)) (entry : Nat × Nat) : List (Nat × Nat) :=
  ready.orderedInsert (fun a b => a.1 < b.1 ∨ a.1 = b.1 ∧ a.2 ≤ b.2) entry

def isMember (group : Observation) (child : Nat) : Bool :=
  group.members.any fun member => member.1 == child

def contains (parent : Task) (child : Nat) : Bool :=
  match parent.observation with
  | some group => isMember group child
  | none => false

/-! ## Shared steps -/

def parentOf (core : Core) (child : Nat) : Outcome (Nat × Task × Task) := do
  let parent ← present core.current "task operation outside a resume"
  let task ← present (core.tasks child) "task already consumed"
  require (task.parent = some parent) "task belongs to another parent"
  let caller ← core.task parent
  .ok (parent, caller, task)

def currentTask (core : Core) (message : String) : Outcome (Nat × Task) := do
  let id ← present core.current message
  let task ← core.task id
  .ok (id, task)

def nextStamp (core : Core) : Outcome (Core × Nat) :=
  if core.next + 1 < 2 ^ 64 then .ok ({ core with next := core.next + 1 }, core.next + 1)
  else .error (.fatal "task identities exhausted")

/-- `cancel_wait`: what the task and the count of pending waits become. -/
def cancelWait (core : Core) (id : Nat) (task : Task) : Core :=
  match task.external with
  | none => core
  | some wait =>
    { core.put id { task with external := none } with
      pending := if wait.ready then core.pending else core.pending - 1 }

/-- The first diagnostic of the callbacks, the newest registration first. -/
def firstFailure (creation : String) : Option String → List Cleanup → Option String
  | first, [] => first
  | some first, _ :: rest => firstFailure creation (some first) rest
  | none, cleanup :: rest =>
    firstFailure creation (cleanup.callback.map fun message =>
      if creation = "" then message else message ++ "\n" ++ creation) rest

def drainCleanups (core : Core) (id : Nat) (task : Task) (first : Option String) :
    Core × Option String :=
  ({ core.put id { task with cleanups := [] } with
      ran := task.cleanups.map Cleanup.serial ++ core.ran },
    firstFailure task.creation first task.cleanups)

def removeMember (group : Observation) (child : Nat) (order : Option Nat) : Observation :=
  { group with
    members := group.members.filter fun member => member.1 != child
    selectedFault := if group.selectedFault = some child then none else group.selectedFault
    ready :=
      match order with
      | some order => group.ready.filter fun entry => entry != (order, child)
      | none => group.ready }

/-- `observation::remove`. -/
def forget (core : Core) (child : Nat) (task : Task) : Outcome Core :=
  match task.parent with
  | none => .ok core
  | some parent => do
    let caller ← core.task parent
    match caller.observation with
    | none => .ok core
    | some group =>
      .ok (core.put parent
        { caller with observation := some (removeMember group child task.state.terminalOrder) })

def reparent (core : Core) (child previous next : Nat) : Outcome Core := do
  let old ← core.task previous
  assertion (old.children.contains child)
  let core := core.put previous { old with children := old.children.erase child }
  let new ← core.task next
  assertion (!new.children.contains child)
  let core := core.put next { new with children := insertChild new.children child }
  let task ← core.task child
  .ok (core.put child { task with parent := some next, returnedToParent := false })

/-- A task leaves the map, and the children of its parent. -/
def unlink (core : Core) (id : Nat) (task : Task) : Outcome Core :=
  let core := { core with
    tasks := drop core.tasks id, begun := core.begun.filter fun other => other != id }
  match task.parent with
  | none => .ok core
  | some parent => do
    let owner ← core.task parent
    .ok (core.put parent { owner with children := owner.children.erase id })

/-- The turn of `cancel_tree` that removes an expanded task. -/
def retire (core : Core) (id : Nat) (first : Option String) : Outcome (Core × Option String) := do
  let task ← core.task id
  let core := cancelWait core id task
  let task ← core.task id
  let (core, first) := drainCleanups core id task first
  let task ← core.task id
  let core ← forget core id task
  let core ← unlink core id task
  .ok (core, first)

/-! ## Creation and transfer -/

def newTask (parent : Option Nat) (creation : String) : Task :=
  { parent := parent, children := [], returned := 0, returnedToParent := false,
    resultExtracted := false, cleanups := [], waiter := none, observation := none,
    state := .queued, external := none, creation := creation }

def create (core : Core) (creation : String) : Outcome Core :=
  match core.current with
  | some parent => do
    let caller ← core.task parent
    require (caller.state = .running) "task created after a pending await"
    let (core, id) ← nextStamp core
    let core := core.put id (newTask (some parent) creation)
    let caller ← core.task parent
    let core := core.put parent { caller with children := insertChild caller.children id }
    .ok { core with ready := core.ready ++ [id] }
  | none => do
    require core.root.isNone "async entry constructor must create one root task"
    let (core, id) ← nextStamp core
    let core := core.put id (newTask none creation)
    .ok { core with root := some id, ready := core.ready ++ [id] }

def adopt (core : Core) (callee child : Nat) : Outcome Core := do
  let (current, caller, target) ← parentOf core callee
  let (_, _, task) ← parentOf core child
  require (caller.state = .running && caller.external.isNone)
    "task transfer requires a running caller"
  require (callee != child) "task cannot adopt itself"
  require (target.state = .queued && target.waiter.isNone && task.waiter.isNone &&
    !task.returnedToParent) "task adoption requires a queued callee and unawaited child"
  reparent core child current callee

def returnTask (core : Core) (child : Nat) : Outcome Core := do
  let (current, caller, task) ← parentOf core child
  require caller.parent.isSome "async entry cannot return a Task"
  require (caller.state = .running && caller.external.isNone)
    "task return requires a running producer"
  require (!task.returnedToParent && task.waiter.isNone)
    "task return requires a distinct unawaited child"
  let core := core.put child { task with returnedToParent := true }
  .ok (core.put current { caller with returned := caller.returned + 1 })

/-! ## Waiting for a child -/

def await (core : Core) (child : Nat) : Outcome Core := do
  let (parent, caller, task) ← parentOf core child
  require (!contains caller child) "select an observed task before awaiting it"
  require caller.external.isNone "task already has an external wait"
  require (caller.state = .running || caller.state = .waiting child)
    "task already awaits another child"
  require (!task.returnedToParent) "cannot await a returned task before extraction"
  require (task.waiter.isNone || task.waiter = some parent) "task already has a waiter"
  let core := core.put child { task with waiter := some parent }
  match task.state.terminalOrder with
  | some _ => .ok core
  | none => .ok (core.put parent { caller with state := .waiting child })

/-- The loop that hands the returned children of a result over. -/
def extractReturned (core : Core) (child parent : Nat) : List Nat → Outcome Raised
  | [] => .ok (core, none)
  | returned :: rest => do
    let result ← core.task returned
    if result.parent = some child && result.waiter.isNone && result.returnedToParent then do
      let core ← reparent core returned child parent
      extractReturned core child parent rest
    else .ok (core, some "task result is not an unawaited child")

/-- The end of an extraction. -/
def takeResult (core : Core) (child : Nat) : Outcome Raised := do
  let task ← core.task child
  .ok ({ core.put child { task with resultExtracted := true, cleanups := [] } with
    retired := task.cleanups.map Cleanup.serial ++ core.retired }, none)

/-- `loom_rt_task_result`; a fault of the child is raised in the caller. -/
def result (core : Core) (child : Nat) : Outcome Raised := do
  let (parent, _, task) ← parentOf core child
  require (task.waiter = some parent) "task result requires await"
  match task.state with
  | .completed _ => do
    require (!task.resultExtracted) "task result already extracted"
    if task.returned = 0 then takeResult core child
    else do
      require (task.children.length = task.returned) "task result already extracted"
      let (core, failure) ← extractReturned core child parent task.children
      match failure with
      | none => takeResult core child
      | some message => .ok (core, some message)
  | .faulted failure _ => .ok (core, some failure)
  | _ => .error (.fault "task result is not ready")

def release (core : Core) (child : Nat) : Outcome Core := do
  let (parent, _, task) ← parentOf core child
  require (task.waiter = some parent && task.state.terminalOrder.isSome)
    "task release requires a terminal awaited result"
  require task.children.isEmpty "task release requires extracting its Task result"
  require task.cleanups.isEmpty "task release requires extracting its resource result"
  unlink core child task

/-! ## Cleanups -/

def cleanupPush (core : Core) (site : Int) (callback : Option String) : Outcome Core := do
  let (id, task) ← currentTask core "task cleanup outside a resume"
  require (0 ≤ site && task.state = .running) "invalid task cleanup registration"
  .ok { core.put id { task with cleanups := ⟨site, callback, core.pushes⟩ :: task.cleanups } with
    pushes := core.pushes + 1 }

def resultCleanupPush (core : Core) (callback : Option String) : Outcome Core := do
  let (id, task) ← currentTask core "task result cleanup outside a resume"
  require (task.state = .running) "invalid task result cleanup registration"
  .ok { core.put id { task with cleanups := ⟨-1, callback, core.pushes⟩ :: task.cleanups } with
    pushes := core.pushes + 1 }

def cleanupPop (core : Core) (site : Int) : Outcome Core := do
  let (id, task) ← currentTask core "task cleanup outside a resume"
  require (0 ≤ site && task.state = .running) "invalid task cleanup registration order"
  let found ← present (task.cleanups.find? fun cleanup => cleanup.site = site)
    "invalid task cleanup registration order"
  .ok { core.put id { task with cleanups := task.cleanups.erase found } with
    retired := found.serial :: core.retired }

/-! ## Observation -/

/-- Registration in the group of the parent; a finished child is notified at once. -/
def register (group : Observation) (child : Nat) (index : Int) (task : Task) :
    Outcome Observation := do
  assertion (!isMember group child)
  let group := { group with members := (child, index) :: group.members }
  match task.state.terminalOrder with
  | some order => do
    assertion (!group.ready.contains (order, child))
    .ok { group with ready := insertReady group.ready (order, child) }
  | none => .ok group

def observe (core : Core) (child : Nat) (index : Int) : Outcome Core := do
  let (parent, caller, task) ← parentOf core child
  require (0 ≤ index && caller.state = .running)
    "task observation requires a running parent and nonnegative index"
  require (!task.returnedToParent && task.waiter.isNone)
    "task observation requires an unawaited child"
  let core := core.put child { task with waiter := some parent }
  let group ← register (caller.observation.getD .default) child index task
  .ok (core.put parent { caller with observation := some group })

def waitNext (core : Core) : Outcome Core := do
  let (id, task) ← currentTask core "task observation outside a resume"
  require ((task.state = .running || task.state = .observing) && task.external.isNone)
    "task already has another wait"
  let group ← present task.observation "no observed tasks"
  require (!group.members.isEmpty) "no observed tasks"
  .ok (core.put id { task with state := if group.ready.isEmpty then .observing else .running })

/-- The first notification, its child and the group without it. -/
def popNotification (core : Core) (message : String) :
    Outcome (Nat × Task × Observation × Nat × Int) := do
  let (id, task) ← currentTask core "task observation outside a resume"
  require (task.state = .running) message
  let group ← present task.observation "no observed tasks"
  match group.ready with
  | [] => .error (.fault message)
  | (_, child) :: rest =>
    match group.members.find? fun member => member.1 == child with
    | none => .error (.fatal "registered completion")
    | some (_, index) =>
      let group :=
        { group with ready := rest, members := group.members.filter fun member => member.1 != child }
      .ok (id, task, group, child, index)

def nextResult (core : Core) : Outcome Core := do
  let (id, task, group, child, _) ← popNotification core "task observation result is not ready"
  let core := core.put id
    { task with observation := some { group with selectedFault := none, selectedIndex := none } }
  let selected ← core.task child
  .ok (core.put child { selected with waiter := none })

/-- The status read by a selection: the identity of a fault. -/
def selectedFault (task : Task) (child : Nat) : Outcome (Option Nat) :=
  match task.state with
  | .completed _ => .ok none
  | .faulted _ _ => .ok (some child)
  | .cancelled _ => .ok none
  | _ => .error (.fatal "registered terminal completion")

def nextTerminalResult (core : Core) : Outcome Core := do
  let (id, task, group, child, index) ← popNotification core "task terminal result is not ready"
  let selected ← core.task child
  let fault ← selectedFault selected child
  let core := core.put id
    { task with observation := some { group with selectedFault := fault, selectedIndex := some index } }
  let selected ← core.task child
  .ok (core.put child { selected with waiter := none })

def nextTerminalIndex (core : Core) : Outcome Core := do
  let (id, task) ← currentTask core "task observation outside a resume"
  require (task.state = .running) "task terminal index is not ready"
  let group ← present task.observation "task terminal index is not ready"
  let _ ← present group.selectedIndex "task terminal index is not ready"
  .ok (core.put id { task with observation := some { group with selectedIndex := none } })

def nextTerminalFailure (core : Core) : Outcome Raised := do
  let (id, task) ← currentTask core "task observation outside a resume"
  require (task.state = .running) "task fault data requires a running observer"
  let group ← present task.observation "no observed tasks"
  let child ← present group.selectedFault "no selected observed fault"
  let core := core.put id { task with observation := some { group with selectedFault := none } }
  let selected ← core.task child
  match selected.state with
  | .faulted _ _ => .ok (core, none)
  | _ => .ok (core, some "selected observed task is not faulted")

/-! ## External waits -/

/-- `wait_source`; `registered` is whether the reactor could register the wait. -/
def waitSource (core : Core) (source : WaitSource) (registered : Bool) : Outcome Core := do
  let (id, task) ← currentTask core "task wait outside a resume"
  require (task.state = .running || task.state = .externalWaiting) "task already awaits a child"
  match task.external with
  | some wait => do
    require (wait.source = source) "task already has another external wait"
    if wait.ready then .ok (core.put id { task with external := none, state := .running })
    else .ok core
  | none =>
    if registered then
      .ok { core.put id
            { task with
              external := some ⟨source, core.registrations, false⟩, state := .externalWaiting } with
        pending := core.pending + 1
        registrations := core.registrations + 1 }
    else .error (.fault "task wait failed")

/-- The part of `provider_completion` for a completion that is ready. -/
def providerReady (core : Core) (completionKind identity : Nat) : Outcome Core := do
  let (id, task) ← currentTask core "provider wait outside a resume"
  require (task.state = .running || task.state = .externalWaiting) "task already awaits a child"
  require (task.external.all fun wait =>
    wait.source.kind == completionKind && wait.source.handle == identity)
    "task already has another external wait"
  let core := cancelWait core id task
  let task ← core.task id
  .ok (core.put id { task with state := .running })

/-- One notification in `poll`; a stale one is skipped. -/
def notify (core : Core) (owner registration : Nat) : Core :=
  match core.tasks owner with
  | none => core
  | some task =>
    match task.external with
    | none => core
    | some wait =>
      if task.state = .externalWaiting ∧ wait.registration = registration ∧ ¬wait.ready then
        { core.put owner { task with external := some { wait with ready := true }, state := .queued } with
          pending := core.pending - 1
          ready := core.ready ++ [owner] }
      else core

/-! ## Ends of an activation -/

def validateReturn (task : Task) (status : Int) : Except String Unit :=
  if status = 0 then
    if task.state = .running ∧ task.children.length = task.returned ∧ task.external = none ∧
        (task.cleanups.all fun cleanup => cleanup.site = -1) then .ok ()
    else .error "task completed with outstanding children or wait"
  else if status = 1 then
    match task.state with
    | .waiting _ =>
      if task.external = none ∧ task.returned = 0 then .ok ()
      else .error "invalid task resume state"
    | .observing =>
      if task.external = none ∧ task.returned = 0 then .ok ()
      else .error "invalid task resume state"
    | .externalWaiting =>
      if task.returned = 0 ∧ (task.external.any fun wait => !wait.ready) then .ok ()
      else .error "invalid task resume state"
    | _ => .error "invalid task resume state"
  else .error "invalid task resume state"

/-- The waiter of a task that has become terminal; `priority` for a fault. -/
def wake (core : Core) (id : Nat) (task : Task) (priority : Bool) : Outcome Core :=
  let push (ready : List Nat) (parent : Nat) : List Nat :=
    if priority then parent :: ready else ready ++ [parent]
  match task.waiter, task.state.terminalOrder with
  | some parent, some order => do
    let owner ← core.task parent
    match owner.observation.filter fun group => isMember group id with
    | some group => do
      assertion (!group.ready.contains (order, id))
      let owner :=
        { owner with observation := some { group with ready := insertReady group.ready (order, id) } }
      if owner.state = .observing then
        .ok { core.put parent { owner with state := .queued } with ready := push core.ready parent }
      else .ok (core.put parent owner)
    | none =>
      if owner.state = .waiting id then
        .ok { core.put parent { owner with state := .queued } with ready := push core.ready parent }
      else .error (.fatal "invalid task waiter state")
  | _, _ => .ok core

/-- `finish_resume` once the task is terminal. -/
def finishTerminal (core : Core) (id : Nat) (failure : Option String) : Outcome Core := do
  let (core, order) ← nextStamp core
  let task ← core.task id
  let state : Status :=
    match failure with
    | none => .completed order
    | some message =>
      .faulted (if task.creation = "" then message else message ++ "\n" ++ task.creation) order
  let task := { task with state := state }
  wake (core.put id task) id task failure.isSome

/-- `finish_resume` for a failed activation, after the hook and its cancellations. -/
def finishFaulted (core : Core) (id : Nat) (failure : String) : Outcome Core := do
  let task ← core.task id
  let core := cancelWait core id task
  let core := { core with current := none }
  let task ← core.task id
  let (core, first) := drainCleanups core id task (some failure)
  finishTerminal core id first

/-- The end of `loom_rt_task_cancel_begin`, once the descendants are gone. -/
def finishCancel (core : Core) (child : Nat) (first : Option String) : Outcome Core := do
  let task ← core.task child
  let core := cancelWait core child task
  let task ← core.task child
  let (core, first) := drainCleanups core child task first
  let (core, order) ← nextStamp core
  let task ← core.task child
  let state : Status :=
    match first with
    | some failure => .faulted failure order
    | none => .cancelled order
  .ok { core.put child { task with state := state } with begun := child :: core.begun }

/-! ## The machine -/

/-- What a cancellation is part of. -/
inductive After where
  /-- `loom_rt_task_drain` -/
  | drained (suppress : Bool)
  /-- `loom_rt_task_cancel_begin` of a child -/
  | cancelled (child : Nat)
  /-- the hook before the drain of a failed activation -/
  | faulted (id : Nat) (failure : String)
  /-- the end of `drive`, or of the constructor, with a failure -/
  | stopped (root : Nat)
  deriving DecidableEq

inductive Mode where
  | constructing
  | driving
  | resumed
  | cancelling (pending : List (Nat × Bool)) (first : Option String) (after : After)
  | finished (failure : Option String)
  | fatal (message : String)
  deriving DecidableEq

structure System where
  core : Core
  mode : Mode

def System.start : System := ⟨.empty, .constructing⟩

/-- A fault of the generated code that runs. -/
def raise (s : System) (message : String) : System :=
  match s.mode with
  | .constructing =>
    match s.core.root with
    | some root => ⟨s.core, .cancelling [(root, false)] (some message) (.stopped root)⟩
    | none => ⟨{ s.core with ready := [] }, .finished (some message)⟩
  | _ =>
    match s.core.current with
    | some id => ⟨s.core, .cancelling [] none (.faulted id message)⟩
    | none => ⟨s.core, .fatal "faulting task activation"⟩

/-- What an operation of the generated code leads to. -/
def conclude (s : System) : Outcome Raised → System
  | .ok (core, none) => ⟨core, s.mode⟩
  | .ok (core, some message) => raise ⟨core, s.mode⟩ message
  | .error (.fault message) => raise s message
  | .error (.fatal message) => ⟨s.core, .fatal message⟩

/-- What a step of the scheduler leads to; it raises no faults. -/
def settle (s : System) : Outcome System → System
  | .ok s => s
  | .error (.fault message) => ⟨s.core, .fatal message⟩
  | .error (.fatal message) => ⟨s.core, .fatal message⟩

/-- The checks of `loom_rt_task_drain`. -/
def checkDrain (core : Core) (child : Nat) : Outcome Unit := do
  let (_, caller, task) ← parentOf core child
  require (caller.state = .running && !task.returnedToParent)
    "task drain requires a running parent and its unconsumed child"

def drain (s : System) (child : Nat) (suppress : Bool) : System :=
  match checkDrain s.core child with
  | .ok () => ⟨s.core, .cancelling [(child, false)] none (.drained suppress)⟩
  | .error (.fault message) => raise s message
  | .error (.fatal message) => ⟨s.core, .fatal message⟩

/-- The checks of `loom_rt_task_cancel_begin`, and whether the child is terminal. -/
def checkCancel (core : Core) (child : Nat) : Outcome (Core × Bool) := do
  let (current, caller, task) ← parentOf core child
  require (caller.state = .running && caller.external.isNone && !task.returnedToParent &&
    (task.waiter.isNone || task.waiter = some current))
    "task cancellation requires a running parent and its unconsumed child"
  let core ← forget core child task
  let task ← core.task child
  .ok (core.put child { task with waiter := some current }, task.state.terminalOrder.isSome)

/-- `loom_rt_task_cancel_begin` up to the cancellation of the descendants. -/
def cancelBegin (s : System) (child : Nat) : System :=
  match checkCancel s.core child with
  | .ok (core, true) => ⟨core, s.mode⟩
  | .ok (core, false) => ⟨core, .cancelling [] none (.cancelled child)⟩
  | .error (.fault message) => raise s message
  | .error (.fatal message) => ⟨s.core, .fatal message⟩

/-- A resume returns its status. -/
def returns (s : System) (status : Int) : System :=
  settle s do
    let id ← found s.core.current "missing task"
    let task ← s.core.task id
    match validateReturn task status with
    | .error message => .ok (raise s message)
    | .ok () =>
      let core := { s.core with current := none }
      if status = 0 then do
        let core ← finishTerminal core id none
        .ok ⟨core, .driving⟩
      else .ok ⟨core, .driving⟩

/-- The first live entry of the queue, and what is behind it. -/
def popLive (tasks : Nat → Option Task) : List Nat → Option (Nat × Task × List Nat)
  | [] => none
  | id :: rest =>
    match tasks id with
    | some task => some (id, task, rest)
    | none => popLive tasks rest

/-- The root is terminal. -/
def finish (core : Core) (root : Nat) (task : Task) (failure : Option String) : Outcome System := do
  assertion (task.children.isEmpty)
  assertion (decide (∀ id < core.next + 1, id ≠ root → core.tasks id = none))
  assertion (core.pending = 0)
  .ok ⟨{ core with
    tasks := drop core.tasks root, root := none, ready := [],
    retired := task.cleanups.map Cleanup.serial ++ core.retired }, .finished failure⟩

/-- A queued task is resumed, or a wait begins. -/
def resume (core : Core) : Outcome System :=
  match popLive core.tasks core.ready with
  | some (id, task, rest) =>
    if task.state = .queued then
      .ok ⟨{ core.put id { task with state := .running } with ready := rest, current := some id },
        .resumed⟩
    else .error (.fatal "invalid ready task state")
  | none =>
    if core.pending = 0 then .error (.fatal "task wait has no runnable dependency")
    else .ok ⟨{ core with ready := [] }, .driving⟩

/-- One turn of `drive` after its polls. -/
def next (s : System) : System :=
  settle s do
    let root ← found s.core.root "missing task"
    let task ← s.core.task root
    match task.state with
    | .completed _ => finish s.core root task none
    | .faulted failure _ => finish s.core root task (some failure)
    | _ => resume s.core

/-- What follows a cancellation. -/
def conclusion (core : Core) (first : Option String) : After → Outcome System
  | .drained suppress =>
    match first, suppress with
    | some failure, false => .ok (raise ⟨core, .resumed⟩ failure)
    | _, _ => .ok ⟨core, .resumed⟩
  | .stopped _ => .ok ⟨{ core with root := none, ready := [] }, .finished first⟩
  | .cancelled child => do
    let task ← core.task child
    match task.children with
    | other :: _ => .ok ⟨core, .cancelling [(other, false)] first (.cancelled child)⟩
    | [] => do
      let core ← finishCancel core child first
      .ok ⟨core, .resumed⟩
  | .faulted id failure => do
    let task ← core.task id
    match task.children with
    | other :: _ => .ok ⟨core, .cancelling [(other, false)] first (.faulted id failure)⟩
    | [] => do
      let core ← finishFaulted core id failure
      .ok ⟨core, .driving⟩

/-- One turn of a cancellation, or what follows it. -/
def advance (s : System) (pending : List (Nat × Bool)) (first : Option String) (after : After) :
    System :=
  settle s <|
    match pending with
    | (id, false) :: rest => do
      let task ← s.core.task id
      let children := task.children.reverse.map fun child => (child, false)
      .ok ⟨s.core, .cancelling (children ++ (id, true) :: rest) first after⟩
    | (id, true) :: rest => do
      let (core, first) ← retire s.core id first
      .ok ⟨core, .cancelling rest first after⟩
    | [] => conclusion s.core first after

/-- A task operation of the generated code. -/
inductive Operation where
  | create (creation : String)
  | adopt (callee child : Nat)
  | returnTask (child : Nat)
  | await (child : Nat)
  | result (child : Nat)
  | release (child : Nat)
  | cleanupPush (site : Int) (callback : Option String)
  | resultCleanupPush (callback : Option String)
  | cleanupPop (site : Int)
  | observe (child : Nat) (index : Int)
  | waitNext
  | nextResult
  | nextTerminalResult
  | nextTerminalIndex
  | nextTerminalFailure
  | waitSource (source : WaitSource) (registered : Bool)
  | providerReady (completionKind identity : Nat)
  deriving DecidableEq

def quietly (outcome : Outcome Core) : Outcome Raised := do
  let core ← outcome
  .ok (core, none)

def perform (core : Core) : Operation → Outcome Raised
  | .create creation => quietly (create core creation)
  | .adopt callee child => quietly (adopt core callee child)
  | .returnTask child => quietly (returnTask core child)
  | .await child => quietly (await core child)
  | .result child => result core child
  | .release child => quietly (release core child)
  | .cleanupPush site callback => quietly (cleanupPush core site callback)
  | .resultCleanupPush callback => quietly (resultCleanupPush core callback)
  | .cleanupPop site => quietly (cleanupPop core site)
  | .observe child index => quietly (observe core child index)
  | .waitNext => quietly (waitNext core)
  | .nextResult => quietly (nextResult core)
  | .nextTerminalResult => quietly (nextTerminalResult core)
  | .nextTerminalIndex => quietly (nextTerminalIndex core)
  | .nextTerminalFailure => nextTerminalFailure core
  | .waitSource source registered => quietly (waitSource core source registered)
  | .providerReady completionKind identity => quietly (providerReady core completionKind identity)

inductive Event where
  | operation (operation : Operation)
  | drain (child : Nat) (suppress : Bool)
  | cancelBegin (child : Nat)
  /-- The generated code faults. -/
  | fault (message : String)
  /-- The constructor returns a task. -/
  | constructed (root : Nat)
  /-- A resume returns its status. -/
  | returns (status : Int)
  | notify (owner registration : Nat)
  | pollFails (message : String)
  | next
  | advance
  deriving DecidableEq

def step (s : System) (event : Event) : Option System :=
  match s.mode with
  | .constructing =>
    match event with
    | .operation operation => some (conclude s (perform s.core operation))
    | .drain child suppress => some (drain s child suppress)
    | .cancelBegin child => some (cancelBegin s child)
    | .fault message => some (raise s message)
    | .constructed root =>
      if s.core.root = some root then some ⟨s.core, .driving⟩
      else some (raise s "async entry constructor returned a different task")
    | _ => none
  | .resumed =>
    match event with
    | .operation operation => some (conclude s (perform s.core operation))
    | .drain child suppress => some (drain s child suppress)
    | .cancelBegin child => some (cancelBegin s child)
    | .fault message => some (raise s message)
    | .returns status => some (returns s status)
    | _ => none
  | .driving =>
    match event with
    | .notify owner registration => some ⟨notify s.core owner registration, .driving⟩
    | .pollFails message =>
      match s.core.root with
      | some root => some ⟨s.core, .cancelling [(root, false)] (some message) (.stopped root)⟩
      | none => none
    | .next => some (next s)
    | _ => none
  | .cancelling pending first after =>
    match event with
    | .advance => some (advance s pending first after)
    | _ => none
  | _ => none

end Loom.Tasks

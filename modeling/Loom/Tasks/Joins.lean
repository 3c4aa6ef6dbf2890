import Mathlib.Data.List.Perm.Basic
import Mathlib.Logic.Function.Basic

/-
  Joining tasks: `settled`, `all`, `any` and `race`.

  A join registers every task under the number of a slot, and the runtime tells it which
  slot has come to an end. The slots of a list of tasks are in reversed order, those of a
  tuple are not.

  Correspondence (joins.loom, join_storage.loom ↔ Lean), where names differ:
    `watch`, its loop ↔ `watch`, `watchFrom`
    `drain`, its loop ↔ `drain`, `drainFrom`
    `collect`, its loop ↔ `collect`, `collectFrom`, `collectTerminal`
    `settled`, `all` of a list ↔ `settled`, `all`
    `all` of a tuple, its loop ↔ `allTuple`, `allTupleFrom`, `tupleTerminal`
    `settled` of a tuple ↔ `settledTuple`
    `first`, its loop ↔ `first`, `firstFrom`
    the loops over the ends of tasks ↔ `eachTerminal`, with what they do at each
    `std.resource.generate` ↔ `generate`, `generateFrom`
    `fault_text`, `task_drain`, `task_observe`, `task_next_terminal`, `task_next_event`,
      `task_ready_outcome`, `task_ready_result`, `task_outcome`, `await`
      ↔ `faultText`, `taskDrain`, …
  A tuple is the list of its tasks, whatever their types. A loop that takes elements from
  the end of a list goes over the reversed list. The pair versions of `any` and `race` are
  those of a list of two.

  The world says how each task ends, and which fault draining it raises, if any: draining
  runs the cleanups of the task. The runtime holds the slots in the order in which their
  tasks end. What it keeps of a join is in `Runtime`; `used` records every task that the
  join has extracted a result of or drained.
-/

namespace Loom.Joins

inductive Outcome (V : Type) where
  | completed (value : V)
  | faulted (message : String)
  | cancelled
  deriving DecidableEq

inductive TaskTerminal where
  | completed
  | faulted (message : String)
  | cancelled
  deriving DecidableEq

inductive Fault where
  | text (message : String)
  /-- `take_slot` found a slot that was emptied before -/
  | emptySlot
  /-- an index outside of a list, no slot to wait for, or a result that is not there -/
  | broken
  deriving DecidableEq

inductive Use where
  | extracted | drained
  deriving DecidableEq

/-- How the tasks behave: `cleanup` is the fault that draining a task raises. -/
structure World (τ V : Type) where
  outcome : τ → Outcome V
  cleanup : τ → Option String

structure Runtime (τ : Type) where
  /-- the task that is registered for a slot, until its end is reported -/
  members : Nat → Option τ
  /-- the slots whose ends are to be reported, in that order -/
  order : List Nat
  used : List (τ × Use)

/-- A computation of a join, which ends with a value or a fault. -/
def Join (τ α : Type) := Runtime τ → Except Fault α × Runtime τ

instance {τ : Type} : Monad (Join τ) where
  pure value := fun state => (.ok value, state)
  bind program next := fun state =>
    match program state with
    | (.ok value, state) => next value state
    | (.error fault, state) => (.error fault, state)

variable {τ V α β : Type}

/-! ## Intrinsics -/

def raise (fault : Fault) : Join τ α := fun state => (.error fault, state)

def faultText (message : String) : Join τ α := raise (.text message)

def consume (task : τ) (use : Use) : Join τ Unit := fun state =>
  (.ok (), { state with used := state.used ++ [(task, use)] })

/-- A fault of the task's own was reported before; what is raised is that of a cleanup. -/
def taskDrain (world : World τ V) (task : τ) (suppress : Bool) : Join τ Unit := do
  consume task .drained
  match world.cleanup task with
  | none => return ()
  | some message => if suppress then return () else faultText message

def taskObserve (task : τ) (index : Nat) : Join τ τ := fun state =>
  (.ok task, { state with members := Function.update state.members index (some task) })

def Outcome.terminal : Outcome V → TaskTerminal
  | .completed _ => .completed
  | .faulted message => .faulted message
  | .cancelled => .cancelled

def taskNextEvent (world : World τ V) : Join τ (Nat × TaskTerminal) := fun state =>
  match state.order with
  | [] => (.error .broken, state)
  | index :: order =>
    match state.members index with
    | none => (.error .broken, state)
    | some task =>
      (.ok (index, (world.outcome task).terminal),
        { state with members := Function.update state.members index none, order := order })

def taskNextTerminal (world : World τ V) : Join τ TaskTerminal := do
  let (_, terminal) ← taskNextEvent world
  return terminal

def taskReadyOutcome (world : World τ V) (task : τ) : Join τ (Outcome V) := do
  consume task .extracted
  return world.outcome task

def taskReadyResult (world : World τ V) (task : τ) : Join τ V := do
  consume task .extracted
  match world.outcome task with
  | .completed value => return value
  | _ => raise .broken

/-- `task_outcome(task).await` -/
def taskOutcome (world : World τ V) (task : τ) : Join τ (Outcome V) := do
  consume task .extracted
  return world.outcome task

/-- `task.await` -/
def taskAwait (world : World τ V) (task : τ) : Join τ V := do
  consume task .extracted
  match world.outcome task with
  | .completed value => return value
  | .faulted message => faultText message
  | .cancelled => raise .broken

/-! ## Slots -/

structure Batch (τ : Type) where
  slots : List (Option τ)
  count : Nat

/-- The loop of `watch`, over the reversed list. -/
def watchFrom : List τ → List (Option τ) → Nat → Join τ (Batch τ)
  | [], slots, count => return { slots := slots, count := count }
  | task :: rest, slots, count => do
    let task ← taskObserve task count
    watchFrom rest (slots ++ [some task]) (count + 1)

def watch (tasks : List τ) : Join τ (Batch τ) := watchFrom tasks.reverse [] 0

def takeSlot (slots : List (Option α)) (index : Nat) : Join τ (α × List (Option α)) :=
  match slots[index]? with
  | none => raise .broken
  | some none => raise .emptySlot
  | some (some value) => return (value, slots.set index none)

/-- The loop of `drain`, over the reversed list. -/
def drainFrom (world : World τ V) (suppress : Bool) : List (Option τ) → Join τ Unit
  | [] => return ()
  | none :: rest => drainFrom world suppress rest
  | some task :: rest => do
    taskDrain world task suppress
    drainFrom world suppress rest

def drain (world : World τ V) (slots : List (Option τ)) (suppress : Bool) : Join τ Unit :=
  drainFrom world suppress slots.reverse

/-- A loop over the ends of `remaining` tasks, without their slots. -/
def eachTerminal (world : World τ V) (handle : TaskTerminal → Join τ Unit) : Nat → Join τ Unit
  | 0 => return ()
  | remaining + 1 => do
    let terminal ← taskNextTerminal world
    handle terminal
    eachTerminal world handle remaining

/-! ## Lists: all of them -/

/-- What `collect` makes of one end. -/
def collectTerminal (world : World τ V) (slots : List (Option τ)) (failFast : Bool) :
    TaskTerminal → Join τ Unit
  | .completed => return ()
  | .faulted message =>
    if failFast then do
      drain world slots true
      faultText message
    else return ()
  | .cancelled =>
    if failFast then do
      drain world slots false
      faultText "task was cancelled"
    else return ()

def collectFrom (world : World τ V) (slots : List (Option τ)) (failFast : Bool) :
    Nat → Join τ Unit :=
  eachTerminal world (collectTerminal world slots failFast)

def collect (world : World τ V) (tasks : List τ) (failFast : Bool) : Join τ (Batch τ) := do
  let batch ← watch tasks
  collectFrom world batch.slots failFast batch.count
  return batch

/-- The loop of `generate`, from `index` on. -/
def generateFrom (next : Nat → β → Join τ (α × β)) : Nat → Nat → β → List α →
    Join τ (List α × β)
  | 0, _, state, values => return (values, state)
  | remaining + 1, index, state, values => do
    let (value, state) ← next index state
    generateFrom next remaining (index + 1) state (values ++ [value])

def generate (count : Nat) (state : β) (next : Nat → β → Join τ (α × β))
    (finish : β → Join τ Unit) : Join τ (List α) := do
  let (values, state) ← generateFrom next count 0 state []
  finish state
  return values

/-- The closure that `settled` and `all` make their elements with. -/
def takeNext (count : Nat) (extract : τ → Join τ α) (index : Nat) (pending : List (Option τ)) :
    Join τ (α × List (Option τ)) := do
  let (task, rest) ← takeSlot pending (count - 1 - index)
  let value ← extract task
  return (value, rest)

def settled (world : World τ V) (tasks : List τ) : Join τ (List (Outcome V)) := do
  let batch ← collect world tasks false
  generate batch.count batch.slots (takeNext batch.count (taskReadyOutcome world))
    (fun pending => drain world pending false)

def all (world : World τ V) (tasks : List τ) : Join τ (List V) := do
  let batch ← collect world tasks true
  generate batch.count batch.slots (takeNext batch.count (taskReadyResult world))
    (fun pending => drain world pending false)

/-! ## Tuples -/

def tupleValues (world : World τ V) : List τ → Join τ (List V)
  | [] => return []
  | task :: rest => do
    let value ← taskAwait world task
    let values ← tupleValues world rest
    return value :: values

def drainTuple (world : World τ V) (suppress : Bool) : List τ → Join τ Unit
  | [] => return ()
  | task :: rest => do
    taskDrain world task suppress
    drainTuple world suppress rest

/-- `comptime map task in tasks` with `task_observe`, and the count that it leaves. -/
def observeTuple : List τ → Nat → Join τ (List τ × Nat)
  | [], count => return ([], count)
  | task :: rest, count => do
    let task ← taskObserve task count
    let (observed, count) ← observeTuple rest (count + 1)
    return (task :: observed, count)

def tupleTerminal (world : World τ V) (observed : List τ) : TaskTerminal → Join τ Unit
  | .completed => return ()
  | .faulted message => do
    drainTuple world true observed
    faultText message
  | .cancelled => do
    drainTuple world false observed
    faultText "task was cancelled"

def allTupleFrom (world : World τ V) (observed : List τ) : Nat → Join τ Unit :=
  eachTerminal world (tupleTerminal world observed)

def allTuple (world : World τ V) (tasks : List τ) : Join τ (List V) := do
  let (observed, count) ← observeTuple tasks 0
  allTupleFrom world observed count
  tupleValues world observed

def settledTuple (world : World τ V) : List τ → Join τ (List (Outcome V))
  | [] => return []
  | task :: rest => do
    let outcome ← taskOutcome world task
    let outcomes ← settledTuple world rest
    return outcome :: outcomes

/-! ## Lists: one of them -/

def firstFrom (world : World τ V) (successOnly : Bool) :
    Nat → List (Option τ) → String → Bool → Join τ τ
  | 0, pending, failure, _ => do
    drain world pending false
    faultText failure
  | remaining + 1, pending, failure, failed => do
    let (index, terminal) ← taskNextEvent world
    let (task, rest) ← takeSlot pending index
    match terminal with
    | .completed => do
      drain world rest false
      return task
    | .faulted message =>
      if !successOnly then do
        drain world rest true
        return task
      else do
        taskDrain world task true
        firstFrom world successOnly remaining rest (if failed then failure else message) true
    | .cancelled =>
      if !successOnly then do
        drain world rest false
        return task
      else do
        taskDrain world task false
        firstFrom world successOnly remaining rest failure failed

def first (world : World τ V) (tasks : List τ) (successOnly : Bool) : Join τ τ := do
  let batch ← watch tasks
  if batch.count = 0 then faultText "any/race requires at least one task"
  else firstFrom world successOnly batch.count batch.slots "no task completed successfully" false

def any (world : World τ V) (tasks : List τ) : Join τ V := do
  let winner ← first world tasks true
  taskAwait world winner

def race (world : World τ V) (tasks : List τ) : Join τ (Outcome V) := do
  let winner ← first world tasks false
  taskOutcome world winner

/-- A join that starts with nothing registered: its result, and the tasks it has used. -/
def run (program : Join τ α) (order : List Nat) : Except Fault α × List (τ × Use) :=
  let ended := program { members := fun _ => none, order := order, used := [] }
  (ended.1, ended.2.used)

end Loom.Joins

import Loom.Library.Runs
import Loom.Library.Slots
import Mathlib.Data.List.Sort
import Mathlib.Logic.Function.Basic

/-
  The wait reactor: one-shot registrations of timers, readiness and external
  completions, each ended by one notification or one cancellation.

  Every operation locks the core once and is one step. What the operating
  system answers (whether waking the waiter and changing the native interest
  succeed, which readiness it reports, the time) is part of the event. `none`
  is a panic: an index or an `unwrap` that fails.

  Correspondence (Rust ↔ Lean), where names differ:
    `Core::{slots, free}`, `Core::{insert, remove, active}` ↔ `Slots.Table` and its operations
    `Core::{finish, fire_timers, poll_key}` ↔ `Core.finish`, `fireTimers`, `pollKey`
    `Reactor::{register, cancel, revoke_readiness}` ↔ `register`, `cancel`, `revokeReadiness`
    `Reactor::{notify_completion, readiness, pop_ready}` ↔ `notifyCompletion`, `readiness`, `popReady`
  `Reactor::wait` is a sequence of `fireTimers` and `readiness` steps. The
  free stack is kept with its top first, the timers in the order of the map.
  A failed change of the native interest that cannot be undone is fatal and
  has no event; a descriptor is one of unix.
-/

namespace Loom.Runtime.Reactor

open Slots Function

def kindTimer : UInt32 := 1
def kindReadiness : UInt32 := 2
def kindCompletion : UInt32 := 3
def readable : UInt32 := 1
def writable : UInt32 := 2
def timer : UInt32 := 4
def completion : UInt32 := 8
def error : UInt32 := 16

structure WaitSource where
  kind : UInt32
  interests : UInt32
  handle : Nat
  deadlineNs : Nat
  deriving DecidableEq

structure Registration where
  key : Nat
  generation : Nat
  deriving DecidableEq

structure ReadyNotification where
  registration : Registration
  owner : Nat
  events : UInt32
  osError : Int
  deriving DecidableEq

structure Active where
  source : WaitSource
  owner : Nat
  deriving DecidableEq

structure Handle where
  eventKey : Nat := 0
  read : Option Registration := none
  write : Option Registration := none
  deriving DecidableEq

/-- An entry of the timer map, under its deadline and the registration's key. -/
structure Timer where
  deadline : Nat
  registration : Registration
  deriving DecidableEq

structure Core where
  table : Table Active
  timers : List Timer
  handles : Nat → Option Handle
  pollKeys : Nat → Option Nat
  nextPollKey : Nat
  ready : List ReadyNotification

inductive Failure where
  | invalidSource
  | overlappingReadiness
  | generationExhausted
  | pollingExhausted
  | invalidDescriptor
  | invalidEvents
  | notCompletion
  /-- The operating system refused to wake the waiter or to change interest. -/
  | native
  deriving DecidableEq

/-- What the poller reports of one native source. -/
structure Event where
  key : Nat
  readable : Bool
  writable : Bool
  interrupt : Bool

namespace Core

def new : Core := ⟨Slots.empty, [], fun _ => none, fun _ => none, 0, []⟩

def active (core : Core) (registration : Registration) : Option Active :=
  lookup core.table registration.key registration.generation

def insert (core : Core) (source : WaitSource) (owner : Nat) : Option (Registration × Core) :=
  (Slots.insert (2 ^ 64) core.table ⟨source, owner⟩).map fun ((key, generation), table) =>
    (⟨key, generation⟩, { core with table := table })

def remove (core : Core) (registration : Registration) : Option (Active × Core) :=
  (Slots.remove core.table registration.key).map fun (active, table) =>
    (active, { core with table := table })

def finish (core : Core) (registration : Registration) (events : UInt32) (osError : Int) :
    Option Core :=
  (core.remove registration).map fun (active, removed) =>
    { removed with ready := removed.ready ++ [⟨registration, active.owner, events, osError⟩] }

/-- Finish registrations in order, each with the events found for it then. -/
def finishAll (events : Core → Registration → Option UInt32) : List Registration → Core →
    Option Core
  | [], core => some core
  | registration :: rest, core =>
    match events core registration with
    | none => none
    | some found =>
      match core.finish registration found 0 with
      | none => none
      | some finished => finishAll events rest finished

def timerBefore (a b : Timer) : Prop :=
  a.deadline < b.deadline ∨ a.deadline = b.deadline ∧ a.registration.key ≤ b.registration.key

instance : DecidableRel timerBefore := fun _ _ => inferInstanceAs (Decidable (_ ∨ _))

instance : Std.Total timerBefore := ⟨fun a b => by unfold timerBefore; omega⟩

instance : IsTrans Timer timerBefore := ⟨fun a b c => by unfold timerBefore; omega⟩

def isEntry (deadline key : Nat) (entry : Timer) : Bool :=
  entry.deadline = deadline && entry.registration.key = key

def insertTimer (core : Core) (deadline : Nat) (registration : Registration) : Core :=
  let others := core.timers.filter fun entry => !isEntry deadline registration.key entry
  { core with timers := others.orderedInsert timerBefore ⟨deadline, registration⟩ }

def removeTimer (core : Core) (deadline key : Nat) : Core :=
  { core with timers := core.timers.filter fun entry => !isEntry deadline key entry }

/-- Pop and finish the first timer while it is due. -/
def fireTimers (core : Core) (now : Nat) : Option Core :=
  let due := core.timers.takeWhile fun entry => entry.deadline ≤ now
  let later := core.timers.dropWhile fun entry => entry.deadline ≤ now
  finishAll (fun _ _ => some timer) (due.map (·.registration)) { core with timers := later }

def pollKey (core : Core) : Option Core :=
  if core.nextPollKey + 1 < 2 ^ 64 - 1 then
    some { core with nextPollKey := core.nextPollKey + 1 }
  else none

end Core

/-- The handle with a finished registration taken out of both directions. -/
def Handle.without (handle : Handle) (registration : Registration) : Handle :=
  { handle with
    read := if handle.read = some registration then none else handle.read
    write := if handle.write = some registration then none else handle.write }

/-- The poll keys once those of a replaced handle are forgotten. -/
def forget (pollKeys : Nat → Option Nat) (previous : Option Handle) : Nat → Option Nat :=
  match previous with
  | some handle => update pollKeys handle.eventKey none
  | none => pollKeys

/-- Change the native interest, and with it the handle. An interest that was
not changed is restored, and the handle stays. -/
def updateHandle (core : Core) (source : Nat) (next : Handle) (accepted : Bool) :
    Except Failure Unit × Core :=
  let previous := core.handles source
  if 2 ^ 31 ≤ source then (.error .invalidDescriptor, core)
  else if next.read = none ∧ next.write = none then
    if accepted then
      (.ok (), { core with pollKeys := forget core.pollKeys previous
                           handles := update core.handles source none })
    else (.error .native, core)
  else
    match core.pollKey with
    | none => (.error .pollingExhausted, core)
    | some numbered =>
      if accepted then
        (.ok (), { numbered with
          pollKeys := update (forget core.pollKeys previous) numbered.nextPollKey (some source)
          handles := update core.handles source
            (some { next with eventKey := numbered.nextPollKey }) })
      else (.error .native, numbered)

def validSource (source : WaitSource) : Bool :=
  if source.kind = kindTimer ∨ source.kind = kindCompletion then source.interests = 0
  else source.kind = kindReadiness && source.interests != 0 &&
    source.interests &&& ~~~(readable ||| writable) == 0

/-- One of the directions asked for is already waited for. -/
def overlaps (source : WaitSource) (handle : Handle) : Bool :=
  (source.interests &&& readable != 0 && handle.read.isSome) ||
    (source.interests &&& writable != 0 && handle.write.isSome)

/-- The handle with a registration entered in the directions it asks for. -/
def Handle.enter (handle : Handle) (source : WaitSource) (registration : Registration) : Handle :=
  { handle with
    read := if source.interests &&& readable != 0 then some registration else handle.read
    write := if source.interests &&& writable != 0 then some registration else handle.write }

def register (core : Core) (source : WaitSource) (owner : Nat) (notified accepted : Bool) :
    Option (Except Failure Registration × Core) :=
  let handle := (core.handles source.handle).getD {}
  if !validSource source then some (.error .invalidSource, core)
  else if source.kind = kindReadiness ∧ overlaps source handle then
    some (.error .overlappingReadiness, core)
  else if !notified then some (.error .native, core)
  else
    match core.insert source owner with
    | none => some (.error .generationExhausted, core)
    | some (registration, inserted) =>
      if source.kind = kindReadiness then
        match updateHandle inserted source.handle (handle.enter source registration) accepted with
        | (.error failure, failed) =>
          (failed.remove registration).map fun (_, removed) => (.error failure, removed)
        | (.ok (), updated) => some (.ok registration, updated)
      else if source.kind = kindTimer then
        some (.ok registration, inserted.insertTimer source.deadlineNs registration)
      else some (.ok registration, inserted)

def cancel (core : Core) (registration : Registration) (notified accepted : Bool) :
    Option (Except Failure Bool × Core) :=
  match core.active registration with
  | none => some (.ok false, core)
  | some active =>
    if !notified then some (.error .native, core)
    else if active.source.kind = kindReadiness then
      match core.handles active.source.handle with
      | none => none
      | some handle =>
        match updateHandle core active.source.handle (handle.without registration) accepted with
        | (.error failure, failed) => some (.error failure, failed)
        | (.ok (), updated) => (updated.remove registration).map fun (_, removed) => (.ok true, removed)
    else if active.source.kind = kindTimer then
      ((core.removeTimer active.source.deadlineNs registration.key).remove registration).map
        fun (_, removed) => (.ok true, removed)
    else (core.remove registration).map fun (_, removed) => (.ok true, removed)

/-- The registrations completed on the two directions, one in both once. -/
def completedOnce (read write : Option Registration) : List Registration :=
  read.toList ++ if write = read then [] else write.toList

def revokeReadiness (core : Core) (source : Nat) (notified accepted : Bool) :
    Option (Except Failure Unit × Core) :=
  match core.handles source with
  | none => some (.ok (), core)
  | some handle =>
    if !notified then some (.error .native, core)
    else
      match updateHandle core source {} accepted with
      | (.error failure, failed) => some (.error failure, failed)
      | (.ok (), updated) =>
        (updated.finishAll (fun _ _ => some error) (completedOnce handle.read handle.write)).map
          fun finished => (.ok (), finished)

def notifyCompletion (core : Core) (registration : Registration) (events : UInt32)
    (osError : Int) (notified : Bool) : Option (Except Failure Bool × Core) :=
  if events = 0 ∨ events &&& ~~~(readable ||| writable ||| completion ||| error) ≠ 0 then
    some (.error .invalidEvents, core)
  else
    match core.active registration with
    | none => some (.ok false, core)
    | some active =>
      if active.source.kind ≠ kindCompletion then some (.error .notCompletion, core)
      else
        (core.finish registration (events ||| if osError ≠ 0 then error else 0) osError).map
          fun finished => (if notified then .ok true else .error .native, finished)

def reported (event : Event) : UInt32 :=
  (if event.readable then readable else 0) ||| (if event.writable then writable else 0) |||
    if event.interrupt then error else 0

/-- The directions of a handle that a report takes. -/
def Handle.taken (handle : Handle) (events : UInt32) : Option Registration × Option Registration :=
  (if events &&& (readable ||| error) != 0 then handle.read else none,
    if events &&& (writable ||| error) != 0 then handle.write else none)

/-- What is left in the handle; a registration interested in both directions
completes once. -/
def Handle.left (handle : Handle) (events : UInt32) : Handle :=
  let (read, write) := handle.taken events
  let left : Handle :=
    { handle with
      read := if events &&& (readable ||| error) != 0 then none else handle.read
      write := if events &&& (writable ||| error) != 0 then none else handle.write }
  match read.or write with
  | some registration => left.without registration
  | none => left

/-- A report for an interest that was replaced is ignored. -/
def readiness (core : Core) (event : Event) (accepted : Bool) :
    Option (Except Failure Unit × Core) :=
  match core.pollKeys event.key with
  | none => some (.ok (), core)
  | some source =>
    match core.handles source with
    | none => none
    | some handle =>
      let events := reported event
      match updateHandle core source (handle.left events) accepted with
      | (.error failure, failed) => some (.error failure, failed)
      | (.ok (), updated) =>
        (updated.finishAll
          (fun core registration => (core.active registration).map fun active =>
            events &&& (active.source.interests ||| error))
          (completedOnce (handle.taken events).1 (handle.taken events).2)).map
          fun finished => (.ok (), finished)

def popReady (core : Core) : Option ReadyNotification × Core :=
  match core.ready with
  | [] => (none, core)
  | notification :: rest => (some notification, { core with ready := rest })

/-- The reactor and what it has answered: the registrations it gave out with
their owners, the cancellations that succeeded and the notifications taken. -/
structure System where
  core : Core
  issued : List (Registration × Nat)
  cancelled : List Registration
  delivered : List ReadyNotification

def start : System := ⟨Core.new, [], [], []⟩

inductive Step where
  | register (source : WaitSource) (owner : Nat) (notified accepted : Bool)
  | cancel (registration : Registration) (notified accepted : Bool)
  | revokeReadiness (source : Nat) (notified accepted : Bool)
  | notifyCompletion (registration : Registration) (events : UInt32) (osError : Int)
      (notified : Bool)
  | readiness (event : Event) (accepted : Bool)
  | fireTimers (now : Nat)
  | popReady

def step (s : System) : Step → Option System
  | .register source owner notified accepted =>
    match register s.core source owner notified accepted with
    | none => none
    | some (.error _, core) => some { s with core := core }
    | some (.ok registration, core) =>
      some { s with core := core, issued := (registration, owner) :: s.issued }
  | .cancel registration notified accepted =>
    match cancel s.core registration notified accepted with
    | none => none
    | some (.ok true, core) =>
      some { s with core := core, cancelled := registration :: s.cancelled }
    | some (_, core) => some { s with core := core }
  | .revokeReadiness source notified accepted =>
    (revokeReadiness s.core source notified accepted).map fun (_, core) => { s with core := core }
  | .notifyCompletion registration events osError notified =>
    (notifyCompletion s.core registration events osError notified).map
      fun (_, core) => { s with core := core }
  | .readiness event accepted =>
    (readiness s.core event accepted).map fun (_, core) => { s with core := core }
  | .fireTimers now => (s.core.fireTimers now).map fun core => { s with core := core }
  | .popReady =>
    match popReady s.core with
    | (none, _) => some s
    | (some notification, core) =>
      some { s with core := core, delivered := notification :: s.delivered }

end Loom.Runtime.Reactor

import Loom.Library.Runs
import Mathlib.Logic.Function.Basic
import Mathlib.Data.List.Pairwise

/-
  A worker job between the pool that runs it and the task that owns it.

  Every section that holds the job's mutex is one step, and so is every access
  to an atomic flag of its control. Pool threads may pick the job up any number
  of times; the owner's thread waits for it, takes its result or cancels it, in
  any order its task calls the runtime.

  Correspondence (Rust ↔ Lean), where names differ:
    `parallel::State`, `Exit` ↔ `JobState`, `Exit`
    `Job`, `Control` ↔ `Job`
    `Job::run`, `Control::run` ↔ `claim`, `enter`, `check`, `call`, `finish`, `store`,
      `notify`
    `Job::take`, `Job::complete` ↔ `Job.take`, `Job.settled`
    `Job::complete_before_cancel` ↔ `Job.request`, then `Job.decide`
    `Job::cancel_and_drain` ↔ the same, then `drain`
    `loom_rt_task_wait_worker` ↔ `waitWorker`
    `loom_rt_task_worker_result` ↔ `workerResult`
    `tasks_parallel::complete_before_cancel` ↔ `completeBeforeCancel`, then `decide`
    `Owner::{cancel_wait, cancel_operation}` ↔ `cancelOperation`, then `decide` and `drain`
  The run starts where the task has submitted the job. A task that has given up
  its computation has no other way to reach this job, and one that submits again
  submits another job. Faults of the task itself change nothing here: what they
  lead to is a `cancelOperation`. Attaching to the heap, the frame's contents
  and `Control::waiting` decide when a thread proceeds, not what it does.
-/

namespace Loom.Runtime.Workers

open Runs Function List

inductive Exit where
  | cancelled
  | fault (message : List UInt8) (testName : Option (List UInt8))
  deriving DecidableEq

inductive JobState (φ : Type*) where
  | queued (frame : φ)
  | running
  | complete (result : Except Exit φ)
  | taken

/-- A job with the flags of its `Control`. -/
structure Job (φ : Type*) where
  state : JobState φ
  started : Bool
  requested : Bool
  registration : Nat

/-- Where a pool thread is in `Job::run`. -/
inductive Phase (φ : Type*) where
  | idle
  | claimed (frame : φ)
  /-- Inside `Control::run`, before its checkpoint. -/
  | entered (frame : φ)
  /-- Past the checkpoint: the callback is what comes next. -/
  | passed (frame : φ)
  | calling (frame : φ)
  | returned (result : Except Exit φ)
  | stored

structure External where
  registration : Nat
  ready : Bool
  deriving DecidableEq

inductive Status where
  | running
  | externalWaiting
  | queued
  deriving DecidableEq

/-- What the task record holds of the job. -/
structure Task where
  computation : Bool
  external : Option External
  status : Status
  deriving DecidableEq

/-- Where the owner's thread is in a cancellation. -/
inductive Owner where
  | free
  /-- In `tasks_parallel::complete_before_cancel`, the request made. -/
  | preserving
  /-- It returned `false`: descendants are cancelled before the task is. -/
  | refused
  /-- In `cancel_and_drain`, the request made. -/
  | cancelling
  /-- Its `complete_before_cancel` returned `true`. -/
  | draining
  deriving DecidableEq

/-- What an observer sees of the job: the callback begins, a cancellation
returns, a result is taken. -/
inductive Effect where
  | began
  | cancelled
  | took
  deriving DecidableEq

structure State (ι φ : Type*) where
  job : Job φ
  phase : ι → Phase φ
  /-- The reactor has been told of the job's completion. -/
  notified : Bool
  /-- The next registration of the reactor. -/
  next : Nat
  task : Task
  owner : Owner
  fatal : Option String
  log : List Effect

inductive Event (ι : Type*) where
  | claim (thread : ι)
  | enter (thread : ι)
  | check (thread : ι)
  | call (thread : ι)
  | finish (thread : ι) (exit : Option Exit)
  | store (thread : ι)
  | notify (thread : ι) (failed : Bool)
  | poll
  | resume
  | waitWorker
  | workerResult
  | completeBeforeCancel
  | cancelOperation
  | decide
  | drain
  deriving DecidableEq

section
variable {φ : Type*}

/-! ## The job -/

/-- `Job::complete`. -/
def Job.settled (job : Job φ) : Bool :=
  match job.state with
  | .complete _ => true
  | _ => false

/-- `Job::take`: what it raises, if anything, or the text of its `fatal`. -/
def Job.take (job : Job φ) : Except String (Option (List UInt8 × Option (List UInt8))) × Job φ :=
  (match job.state with
    | .complete (.ok _) => .ok none
    | .complete (.error (.fault message testName)) => .ok (some (message, testName))
    | _ => .error "worker result is not complete",
    { job with state := .taken })

/-- `Control::cancel`. -/
def Job.request (job : Job φ) : Job φ := { job with requested := true }

/-- The locked section of `complete_before_cancel`, which waits for a job that
is running. -/
def Job.decide (job : Job φ) : Option (Bool × Job φ) :=
  match job.state with
  | .running => none
  | .complete (.ok _) | .complete (.error (.fault _ _)) => some (true, job)
  | .queued _ | .complete (.error .cancelled) | .taken =>
    some (false, { job with state := .taken })

end

section
variable {ι φ : Type*} [DecidableEq ι]

/-! ## The pool -/

def State.move (s : State ι φ) (thread : ι) (phase : Phase φ) : State ι φ :=
  { s with phase := update s.phase thread phase }

def State.assign (s : State ι φ) (state : JobState φ) : State ι φ :=
  { s with job := { s.job with state := state } }

def State.note (s : State ι φ) (effect : Effect) : State ι φ :=
  { s with log := s.log ++ [effect] }

/-- The first section of `Job::run`: a job that is not queued is left alone. -/
def claim (s : State ι φ) (thread : ι) : Option (State ι φ) :=
  match s.phase thread, s.job.state with
  | .idle, .queued frame => some ((s.assign .running).move thread (.claimed frame))
  | .idle, _ => some s
  | _, _ => none

/-- `started.swap(true)`. A pool thread runs one job at a time, so it has no
other control installed. -/
def enter (s : State ι φ) (thread : ι) : Option (State ι φ) :=
  match s.phase thread with
  | .claimed frame =>
    if s.job.started then
      some { s with fatal := some "worker control requires one unnested activation" }
    else some ({ s with job := { s.job with started := true } }.move thread (.entered frame))
  | _ => none

/-- The checkpoint before the callback: a request unwinds instead. -/
def check (s : State ι φ) (thread : ι) : Option (State ι φ) :=
  match s.phase thread with
  | .entered frame =>
    if s.job.requested then some (s.move thread (.returned (.error .cancelled)))
    else some (s.move thread (.passed frame))
  | _ => none

def call (s : State ι φ) (thread : ι) : Option (State ι φ) :=
  match s.phase thread with
  | .passed frame => some ((s.move thread (.calling frame)).note .began)
  | _ => none

/-- The callback returns, faults, or unwinds at a checkpoint of its own, which
it does only when it sees a request. -/
def finish (s : State ι φ) (thread : ι) (exit : Option Exit) : Option (State ι φ) :=
  match s.phase thread, exit with
  | .calling frame, none => some (s.move thread (.returned (.ok frame)))
  | .calling _, some (.fault message testName) =>
    some (s.move thread (.returned (.error (.fault message testName))))
  | .calling _, some .cancelled =>
    if s.job.requested then some (s.move thread (.returned (.error .cancelled))) else none
  | _, _ => none

def store (s : State ι φ) (thread : ι) : Option (State ι φ) :=
  match s.phase thread with
  | .returned result => some ((s.assign (.complete result)).move thread .stored)
  | _ => none

def notify (s : State ι φ) (thread : ι) (failed : Bool) : Option (State ι φ) :=
  match s.phase thread with
  | .stored =>
    if failed then some { s with fatal := some "failed to notify worker completion" }
    else some ({ s with notified := true }.move thread .idle)
  | _ => none

/-! ## The owner -/

/-- `Owner::poll`, as far as it concerns the task: a notification of the job
makes the wait registered under its identity ready. -/
def poll (s : State ι φ) : Option (State ι φ) :=
  match s.owner, s.task.external with
  | .free, some wait =>
    if s.notified ∧ s.task.status = .externalWaiting ∧
        wait.registration = s.job.registration ∧ wait.ready = false then
      some { s with task := { s.task with external := some { wait with ready := true }
                                          status := .queued } }
    else some s
  | .free, none => some s
  | _, _ => none

/-- The scheduler resumes a queued task. -/
def resume (s : State ι φ) : Option (State ι φ) :=
  match s.owner, s.task.status with
  | .free, .queued => some { s with task := { s.task with status := .running } }
  | _, _ => none

/-- `wait_source` with the source of a worker wait. -/
def waitSource (s : State ι φ) : State ι φ :=
  if s.task.status = .queued then s
  else
    match s.task.external with
    | some wait =>
      if wait.ready then { s with task := { s.task with external := none, status := .running } }
      else s
    | none =>
      { s with task := { s.task with external := some ⟨s.next, false⟩
                                     status := .externalWaiting }
               next := s.next + 1 }

/-- Without a computation the call submits another job. -/
def waitWorker (s : State ι φ) : Option (State ι φ) :=
  match s.owner with
  | .free =>
    if s.task.computation then
      if s.job.settled then
        some { s with task := { s.task with external := none, status := .running } }
      else some (waitSource s)
    else none
  | _ => none

/-- `loom_rt_task_worker_result`: its two errors leave everything as it is. -/
def workerResult (s : State ι φ) : Option (State ι φ) :=
  match s.owner with
  | .free =>
    if s.task.status = .running ∧ s.task.external = none ∧ s.task.computation = true then
      let given := { s with task := { s.task with computation := false }, job := s.job.take.2 }
      match s.job.take.1 with
      | .ok _ => some (given.note .took)
      | .error text => some { given with fatal := some text }
    else some s
  | _ => none

def completeBeforeCancel (s : State ι φ) : Option (State ι φ) :=
  match s.owner with
  | .free =>
    if s.task.computation then some { s with job := s.job.request, owner := .preserving }
    else some s
  | _ => none

/-- `cancel_wait`, then the request of `cancel_operation`. -/
def cancelOperation (s : State ι φ) : Option (State ι φ) :=
  match s.owner with
  | .free | .refused =>
    if s.task.computation then
      some { s with task := { s.task with computation := false, external := none }
                    job := s.job.request
                    owner := .cancelling }
    else some { s with task := { s.task with external := none }, owner := .free }
  | _ => none

/-- `complete_before_cancel` returns, to either of its callers. -/
def decide (s : State ι φ) : Option (State ι φ) :=
  match s.owner, s.job.decide with
  | .preserving, some (true, job) =>
    some ({ s with job := job, task := { s.task with status := .running }
                   owner := .free }.note .cancelled)
  | .preserving, some (false, job) =>
    some ({ s with job := job, owner := .refused }.note .cancelled)
  | .cancelling, some (true, job) =>
    some ({ s with job := job, owner := .draining }.note .cancelled)
  | .cancelling, some (false, job) =>
    some ({ s with job := job, owner := .free }.note .cancelled)
  | _, _ => none

def drain (s : State ι φ) : Option (State ι φ) :=
  match s.owner with
  | .draining => some ({ s.assign .taken with owner := .free }.note .took)
  | _ => none

/-- Nothing follows a `fatal`. -/
def step (s : State ι φ) (event : Event ι) : Option (State ι φ) :=
  match s.fatal with
  | some _ => none
  | none =>
    match event with
    | .claim thread => claim s thread
    | .enter thread => enter s thread
    | .check thread => check s thread
    | .call thread => call s thread
    | .finish thread exit => finish s thread exit
    | .store thread => store s thread
    | .notify thread failed => notify s thread failed
    | .poll => poll s
    | .resume => resume s
    | .waitWorker => waitWorker s
    | .workerResult => workerResult s
    | .completeBeforeCancel => completeBeforeCancel s
    | .cancelOperation => cancelOperation s
    | .decide => decide s
    | .drain => drain s

/-- The task has just submitted the job and waits for it. -/
def start (frame : φ) (registration : Nat) : State ι φ where
  job := { state := .queued frame, started := false, requested := false
           registration := registration }
  phase _ := .idle
  notified := false
  next := registration + 1
  task := { computation := true, external := some ⟨registration, false⟩
            status := .externalWaiting }
  owner := .free
  fatal := none
  log := []

end

/-! ## The pool's side of the invariant -/

/-- Between claiming the job and publishing its result. -/
def Phase.holds {φ : Type*} : Phase φ → Bool
  | .claimed _ | .entered _ | .passed _ | .calling _ | .returned _ => true
  | _ => false

/-- The callback may still be about to begin. -/
def Phase.pending {φ : Type*} : Phase φ → Bool
  | .claimed _ | .entered _ | .passed _ => true
  | _ => false

/-- Nothing will run any more: the result is published or given up. -/
def JobState.over {φ : Type*} : JobState φ → Bool
  | .complete _ | .taken => true
  | _ => false

/-- A published result that a cancellation preserves. -/
def JobState.kept {φ : Type*} : JobState φ → Bool
  | .complete (.ok _) | .complete (.error (.fault _ _)) => true
  | _ => false

section
variable {ι φ : Type*}

structure Pool (job : Job φ) (phase : ι → Phase φ) (notified : Bool) : Prop where
  alone : ∀ {t u}, (phase t).holds = true → (phase u).holds = true → t = u
  running : ∀ {t}, (phase t).holds = true → job.state = .running
  unstarted : ∀ {frame}, job.state = .queued frame → job.started = false
  claimed : ∀ {t frame}, phase t = .claimed frame → job.started = false
  asked : ∀ {t}, phase t = .returned (.error .cancelled) → job.requested = true
  cancelled : job.state = .complete (.error .cancelled) → job.requested = true
  stored : ∀ {t}, phase t = .stored → job.state.over = true
  notified : notified = true → job.state.over = true

/-- What the log says of the callback and of the result. -/
structure Logged (job : Job φ) (phase : ι → Phase φ) (log : List Effect) : Prop where
  begun : .began ∈ log → (∀ frame, job.state ≠ .queued frame) ∧ ∀ t, (phase t).pending = false
  once : log.count .began ≤ 1
  returned : .cancelled ∈ log → job.state.over = true
  after : log.Pairwise (fun earlier later => earlier = .cancelled → later ≠ .began)
  took : .took ∈ log → job.state = .taken
  single : log.count .took ≤ 1

/-- The owner's side: what each point of its protocol knows of the job. -/
def Owned (job : Job φ) (task : Task) : Owner → Prop
  | .free => task.computation = true → job.state ≠ .taken ∧
      (job.requested = true → job.state.kept = true) ∧
      (task.external = none → job.state.over = true) ∧
      ∀ wait, task.external = some wait → wait.ready = true → job.state.over = true
  | .preserving => task.computation = true ∧ job.requested = true
  | .refused => job.state = .taken
  | .cancelling => task.computation = false
  | .draining => task.computation = false ∧ job.state.kept = true

structure Sound (s : State ι φ) : Prop where
  pool : Pool s.job s.phase s.notified
  logged : Logged s.job s.phase s.log
  owned : Owned s.job s.task s.owner
  fatal : s.fatal = none ∨ s.fatal = some "failed to notify worker completion"

variable {job : Job φ} {phase : ι → Phase φ} {notified : Bool} {log : List Effect}

variable {state : JobState φ}

theorem JobState.over_of_kept (h : state.kept = true) : state.over = true := by
  cases state with
  | complete result => rfl
  | queued frame => cases h
  | running => cases h
  | taken => rfl

theorem JobState.over_of_complete {result : Except Exit φ} (h : state = .complete result) :
    state.over = true := by
  rw [h]; rfl

theorem JobState.complete_of_kept (h : state.kept = true) : ∃ result, state = .complete result := by
  cases state with
  | complete result => exact ⟨result, rfl⟩
  | queued frame => cases h
  | running => cases h
  | taken => cases h

theorem Job.settled_iff : job.settled = true ↔ ∃ result, job.state = .complete result := by
  unfold Job.settled
  cases job.state <;> simp

theorem Phase.holds_of_pending {p : Phase φ} (h : p.pending = true) : p.holds = true := by
  cases p with
  | claimed | entered | passed => rfl
  | idle | calling | returned | stored => cases h

theorem Pool.idle (h : Pool job phase notified) (hstate : job.state ≠ .running) (t : ι) :
    (phase t).holds = false := by
  apply Bool.eq_false_iff.mpr
  intro hholds; exact hstate (h.running hholds)

/-- A request is seen by whoever reads the flag, and changes nothing else. -/
theorem Pool.request (h : Pool job phase notified) : Pool job.request phase notified where
  alone := h.alone
  running := h.running
  unstarted := h.unstarted
  claimed := h.claimed
  asked _ := rfl
  cancelled _ := rfl
  stored := h.stored
  notified := h.notified

/-- The result is taken, or the job given up, where no thread holds it. -/
theorem Pool.take (h : Pool job phase notified) (hstate : job.state ≠ .running) :
    Pool { job with state := .taken } phase notified where
  alone := h.alone
  running {t} ht := by rw [h.idle hstate t] at ht; cases ht
  unstarted hqueued := by cases hqueued
  claimed := h.claimed
  asked := h.asked
  cancelled hcancelled := by cases hcancelled
  stored _ := rfl
  notified _ := rfl

section
variable [DecidableEq ι]

variable {t : ι}

/-- A thread that goes on in `Job::run`, or leaves it. -/
theorem Pool.move (h : Pool job phase notified) {p : Phase φ}
    (hholds : p.holds = true → (phase t).holds = true) (hclaimed : ∀ frame, p ≠ .claimed frame)
    (hasked : p = .returned (.error .cancelled) → job.requested = true)
    (hstored : p = .stored → job.state.over = true) : Pool job (update phase t p) notified := by
  have hkeep : ∀ u, (update phase t p u).holds = true → (phase u).holds = true := by
    intro u hu
    by_cases hut : u = t
    · subst hut
      rw [update_self] at hu; exact hholds hu
    · rwa [update_of_ne hut] at hu
  refine ⟨?_, ?_, h.unstarted, ?_, ?_, h.cancelled, ?_, h.notified⟩
  · intro u v hu hv; exact h.alone (hkeep u hu) (hkeep v hv)
  · intro u hu; exact h.running (hkeep u hu)
  · intro u frame hu
    by_cases hut : u = t
    · subst hut
      rw [update_self] at hu; exact absurd hu (hclaimed frame)
    · rw [update_of_ne hut] at hu; exact h.claimed hu
  · intro u hu
    by_cases hut : u = t
    · subst hut
      rw [update_self] at hu; exact hasked hu
    · rw [update_of_ne hut] at hu; exact h.asked hu
  · intro u hu
    by_cases hut : u = t
    · subst hut
      rw [update_self] at hu; exact hstored hu
    · rw [update_of_ne hut] at hu; exact h.stored hu

/-- Only one thread finds the job queued, and then nobody holds it. -/
theorem Pool.claim (h : Pool job phase notified) {frame : φ} (hqueued : job.state = .queued frame) :
    Pool { job with state := .running } (update phase t (.claimed frame)) notified := by
  have hidle : ∀ u, (phase u).holds = false := by
    apply h.idle
    simp [hqueued]
  have hown : ∀ {u}, (update phase t (.claimed frame) u).holds = true → u = t := by
    intro u hu
    by_contra hut
    rw [update_of_ne hut, hidle u] at hu
    cases hu
  have hover : ∀ {result : Prop}, job.state.over = true → result := by
    intro result hover
    rw [hqueued] at hover
    cases hover
  refine ⟨?_, ?_, ?_, ?_, ?_, ?_, ?_, ?_⟩
  · intro u v hu hv
    rw [hown hu, hown hv]
  · intro u _; rfl
  · intro other hother
    cases hother
  · intro u other _; exact h.unstarted hqueued
  · intro u hu
    have hut := hown (u := u) (by rw [hu]; rfl)
    rw [hut, update_self] at hu
    cases hu
  · intro hcancelled
    cases hcancelled
  · intro u hu
    by_cases hut : u = t
    · rw [hut, update_self] at hu
      cases hu
    · rw [update_of_ne hut] at hu; exact hover (h.stored hu)
  · intro hnotified; exact hover (h.notified hnotified)

theorem Pool.enter (h : Pool job phase notified) {frame : φ} (ht : phase t = .claimed frame) :
    Pool { job with started := true } (update phase t (.entered frame)) notified := by
  have hholds : (phase t).holds = true := by rw [ht]; rfl
  have hmoved : Pool job (update phase t (.entered frame)) notified := by
    apply h.move
    · intro _; exact hholds
    · simp
    · simp
    · simp
  refine ⟨hmoved.alone, hmoved.running, ?_, ?_, hmoved.asked, hmoved.cancelled, hmoved.stored,
    hmoved.notified⟩
  · intro other hother
    -- the job is running while a thread holds it
    have hrunning : job.state = .running := h.running hholds
    cases hrunning.symm.trans hother
  · intro u other hu
    -- a second claimed thread would be this one
    have hut : u = t := by
      by_contra hne
      rw [update_of_ne hne] at hu; exact hne (h.alone (by rw [hu]; rfl) hholds)
    rw [hut, update_self] at hu
    cases hu

theorem Pool.store (h : Pool job phase notified) {result : Except Exit φ}
    (ht : phase t = .returned result) :
    Pool { job with state := .complete result } (update phase t .stored) notified := by
  have hholds : (phase t).holds = true := by rw [ht]; rfl
  have hnone : ∀ u, (update phase t .stored u).holds = false := by
    intro u
    by_cases hut : u = t
    · rw [hut, update_self]; rfl
    · rw [update_of_ne hut]
      apply Bool.eq_false_iff.mpr
      intro hu; exact hut (h.alone hu hholds)
  refine ⟨?_, ?_, ?_, ?_, ?_, ?_, ?_, ?_⟩
  · intro u v hu _
    rw [hnone u] at hu
    cases hu
  · intro u hu
    rw [hnone u] at hu
    cases hu
  · intro frame hqueued
    cases hqueued
  · intro u frame hu
    have hidle := hnone u
    rw [hu] at hidle
    cases hidle
  · intro u hu
    have hidle := hnone u
    rw [hu] at hidle
    cases hidle
  · intro hcancelled
    apply h.asked (t := t)
    rw [ht]; exact congrArg Phase.returned (JobState.complete.inj hcancelled)
  · intro u _; rfl
  · intro _; rfl

end

/-! ## What the log says -/

theorem Logged.move [DecidableEq ι] (h : Logged job phase log) {t : ι} {p : Phase φ}
    (hpending : p.pending = true → (phase t).pending = true) :
    Logged job (update phase t p) log := by
  refine ⟨?_, h.once, h.returned, h.after, h.took, h.single⟩
  intro hbegan
  obtain ⟨hstate, hphase⟩ := h.begun hbegan
  refine ⟨hstate, ?_⟩
  intro u
  by_cases hut : u = t
  · subst hut
    rw [update_self]
    apply Bool.eq_false_iff.mpr
    intro hp
    rw [hphase u] at hpending
    cases hpending hp
  · rw [update_of_ne hut]; exact hphase u

/-- The job's state moves on: not back to the queue, not back to running once
it is over, and never on from `Taken`. -/
theorem Logged.assign (h : Logged job phase log) (hqueued : ∀ frame, state ≠ .queued frame)
    (hover : job.state.over = true → state.over = true)
    (htaken : job.state = .taken → state = .taken) :
    Logged { job with state := state } phase log where
  begun hbegan := ⟨hqueued, (h.begun hbegan).2⟩
  once := h.once
  returned hreturned := hover (h.returned hreturned)
  after := h.after
  took htook := htaken (h.took htook)
  single := h.single

theorem Logged.request (h : Logged job phase log) : Logged job.request phase log where
  begun := h.begun
  once := h.once
  returned := h.returned
  after := h.after
  took := h.took
  single := h.single

/-- The callback begins: it has not before, and no cancellation has returned
while the job is running. -/
theorem Logged.began [DecidableEq ι] (h : Logged job phase log)
    (hpool : Pool job phase notified) {t : ι} {frame : φ} (ht : phase t = .passed frame) :
    Logged job (update phase t (.calling frame)) (log ++ [.began]) := by
  have hrunning : job.state = .running := hpool.running (t := t) (by rw [ht]; rfl)
  have hpending : (phase t).pending = true := by rw [ht]; rfl
  have hfirst : Effect.began ∉ log := by
    intro hbegan
    rw [(h.begun hbegan).2 t] at hpending
    cases hpending
  have hopen : Effect.cancelled ∉ log := by
    intro hcancelled
    have hover := h.returned hcancelled
    rw [hrunning] at hover
    cases hover
  refine ⟨?_, ?_, ?_, ?_, ?_, ?_⟩
  · intro _
    refine ⟨by simp [hrunning], ?_⟩
    intro u
    by_cases hut : u = t
    · rw [hut, update_self]; rfl
    · rw [update_of_ne hut]
      apply Bool.eq_false_iff.mpr
      intro hu
      exact hut (hpool.alone (Phase.holds_of_pending hu) (Phase.holds_of_pending hpending))
  · rw [count_append, count_eq_zero_of_not_mem hfirst]; simp
  · simpa using h.returned
  · rw [pairwise_append]
    refine ⟨h.after, pairwise_singleton _ _, ?_⟩
    intro earlier hearlier later _ hcancelled
    rw [hcancelled] at hearlier; exact absurd hearlier hopen
  · simpa using h.took
  · simpa using h.single

theorem Logged.cancelled (h : Logged job phase log) (hover : job.state.over = true) :
    Logged job phase (log ++ [.cancelled]) where
  begun hbegan := h.begun (by simpa using hbegan)
  once := by simpa using h.once
  returned _ := hover
  after := by
    rw [pairwise_append]
    refine ⟨h.after, pairwise_singleton _ _, ?_⟩
    intro earlier _ later hlater _; simp [mem_singleton.mp hlater]
  took htook := h.took (by simpa using htook)
  single := by simpa using h.single

/-- A result that is there has not been taken before. -/
theorem Logged.taken (h : Logged job phase log) {result : Except Exit φ}
    (hcomplete : job.state = .complete result) :
    Logged { job with state := .taken } phase (log ++ [.took]) := by
  have hfirst : Effect.took ∉ log := by
    intro htook
    rw [h.took htook] at hcomplete
    cases hcomplete
  refine ⟨?_, ?_, ?_, ?_, ?_, ?_⟩
  · intro hbegan; exact ⟨by simp, (h.begun (by simpa using hbegan)).2⟩
  · simpa using h.once
  · intro _; rfl
  · rw [pairwise_append]
    refine ⟨h.after, pairwise_singleton _ _, ?_⟩
    intro earlier _ later hlater _; simp [mem_singleton.mp hlater]
  · intro _; rfl
  · rw [count_append, count_eq_zero_of_not_mem hfirst]; simp

/-! ## What the owner knows -/

/-- The pool moves the job on: the owner never sees it go back. -/
theorem Owned.advance {task : Task} {owner : Owner} (h : Owned job task owner) {job' : Job φ}
    (hrequested : job'.requested = job.requested)
    (htaken : job'.state = .taken ↔ job.state = .taken)
    (hover : job.state.over = true → job'.state.over = true)
    (hkept : job.state.kept = true → job'.state.kept = true) : Owned job' task owner := by
  cases owner with
  | free =>
    intro hcomputation
    obtain ⟨hlive, hasked, hunwaited, hready⟩ := h hcomputation
    refine ⟨?_, ?_, ?_, ?_⟩
    · rwa [Ne, htaken]
    · intro hrequest
      rw [hrequested] at hrequest; exact hkept (hasked hrequest)
    · intro hexternal; exact hover (hunwaited hexternal)
    · intro wait hexternal hwait; exact hover (hready wait hexternal hwait)
  | preserving => exact ⟨h.1, hrequested.trans h.2⟩
  | refused => exact htaken.mpr h
  | cancelling => exact h
  | draining => exact ⟨h.1, hkept h.2⟩

/-- A result the owner may ask for is one that `take` does not refuse. -/
theorem Job.take_of_kept (h : job.state.kept = true) : ∃ raised, job.take.1 = .ok raised := by
  unfold Job.take
  cases hstate : job.state with
  | complete result =>
    cases result with
    | ok frame => exact ⟨_, rfl⟩
    | error exit =>
      cases exit with
      | cancelled =>
        rw [hstate] at h
        cases h
      | fault message testName => exact ⟨_, rfl⟩
  | queued frame =>
    rw [hstate] at h
    cases h
  | running =>
    rw [hstate] at h
    cases h
  | taken =>
    rw [hstate] at h
    cases h

/-- An unrequested job that is over and not taken was not cancelled. -/
theorem Pool.kept (h : Pool job phase notified) (hover : job.state.over = true)
    (hlive : job.state ≠ .taken) (hasked : job.requested = true → job.state.kept = true) :
    job.state.kept = true := by
  cases hstate : job.state with
  | complete result =>
    cases result with
    | ok frame => rfl
    | error exit =>
      cases exit with
      | cancelled =>
        rw [← hstate]; exact hasked (h.cancelled hstate)
      | fault message testName => rfl
  | queued frame =>
    rw [hstate] at hover
    cases hover
  | running =>
    rw [hstate] at hover
    cases hover
  | taken => exact absurd hstate hlive

/-- `complete_before_cancel` says whether the result is kept, waits while the
job runs, and gives up what it does not keep. -/
theorem Job.decide_cases {kept : Bool} {job' : Job φ} (h : job.decide = some (kept, job')) :
    job.state ≠ .running ∧
      ((kept = true ∧ job.state.kept = true ∧ job' = job) ∨
        (kept = false ∧ job' = { job with state := .taken })) := by
  unfold Job.decide at h
  split at h
  · cases h
  all_goals
    next hstate =>
      cases h
      simp [hstate, JobState.kept]

end

section
variable {ι φ : Type*} [DecidableEq ι] {s s' : State ι φ}

/-! ## One step -/

variable {t : ι} {registration : Nat} {frame : φ}

section
variable (h : Sound s)
include h

theorem Sound.claim (hstep : claim s t = some s') : Sound s' := by
  unfold Workers.claim at hstep
  split at hstep
  · next frame ht hqueued =>
    cases hstep
    refine ⟨h.pool.claim hqueued, ?_, ?_, h.fatal⟩
    · -- the log is that of a job nobody has called yet
      have hfirst : Effect.began ∉ s.log := fun hbegan => (h.logged.begun hbegan).1 frame hqueued
      have hassigned : Logged { s.job with state := .running } s.phase s.log := by
        apply h.logged.assign
        · simp
        · simp [hqueued, JobState.over]
        · simp [hqueued]
      exact ⟨fun hbegan => absurd hbegan hfirst, hassigned.once, hassigned.returned,
        hassigned.after, hassigned.took, hassigned.single⟩
    · apply h.owned.advance
      · rfl
      · simp [State.assign, State.move, hqueued]
      · simp [hqueued, JobState.over]
      · simp [hqueued, JobState.kept]
  · cases hstep
    exact h
  · cases hstep

theorem Sound.enter (hstep : enter s t = some s') : Sound s' := by
  unfold Workers.enter at hstep
  split at hstep
  · next frame ht =>
    rw [h.pool.claimed ht] at hstep
    cases hstep
    refine ⟨h.pool.enter ht, ?_, ?_, h.fatal⟩
    · have hmoved : Logged s.job (update s.phase t (.entered frame)) s.log := by
        apply h.logged.move
        intro _
        rw [ht]; rfl
      exact ⟨hmoved.begun, hmoved.once, hmoved.returned, hmoved.after, hmoved.took, hmoved.single⟩
    · exact h.owned.advance rfl Iff.rfl id id
  · cases hstep

/-- A thread that holds the job goes on without a change to the job. -/
theorem Sound.move {p : Phase φ} (hholds : (s.phase t).holds = true)
    (hclaimed : ∀ frame, p ≠ .claimed frame) (hstored : p ≠ .stored)
    (hasked : p = .returned (.error .cancelled) → s.job.requested = true)
    (hpending : p.pending = true → (s.phase t).pending = true) : Sound (s.move t p) where
  pool := h.pool.move (fun _ => hholds) hclaimed hasked (fun hp => absurd hp hstored)
  logged := h.logged.move hpending
  owned := h.owned
  fatal := h.fatal

theorem Sound.check (hstep : check s t = some s') : Sound s' := by
  unfold Workers.check at hstep
  split at hstep
  · next frame ht =>
    have hholds : (s.phase t).holds = true := by rw [ht]; rfl
    split at hstep
    · next hrequested =>
      cases hstep
      apply h.move hholds <;> simp [hrequested, Phase.pending]
    · cases hstep
      apply h.move hholds <;> simp [ht, Phase.pending]
  · cases hstep

theorem Sound.call (hstep : call s t = some s') : Sound s' := by
  unfold Workers.call at hstep
  split at hstep
  · next frame ht =>
    cases hstep
    have hholds : (s.phase t).holds = true := by rw [ht]; rfl
    have hmoved : Sound (s.move t (.calling frame)) := by
      apply h.move hholds <;> simp [Phase.pending]
    exact ⟨hmoved.pool, h.logged.began h.pool ht, h.owned, h.fatal⟩
  · cases hstep

theorem Sound.finish {exit : Option Exit} (hstep : finish s t exit = some s') : Sound s' := by
  unfold Workers.finish at hstep
  split at hstep
  · next frame ht =>
    cases hstep
    have hholds : (s.phase t).holds = true := by rw [ht]; rfl
    apply h.move hholds <;> simp [Phase.pending]
  · next frame message testName ht =>
    cases hstep
    have hholds : (s.phase t).holds = true := by rw [ht]; rfl
    apply h.move hholds <;> simp [Phase.pending]
  · next frame ht =>
    have hholds : (s.phase t).holds = true := by rw [ht]; rfl
    split at hstep
    · next hrequested =>
      cases hstep
      apply h.move hholds <;> simp [hrequested, Phase.pending]
    · cases hstep
  · cases hstep

theorem Sound.store (hstep : store s t = some s') : Sound s' := by
  unfold Workers.store at hstep
  split at hstep
  · next result ht =>
    cases hstep
    have hrunning : s.job.state = .running := h.pool.running (t := t) (by rw [ht]; rfl)
    refine ⟨h.pool.store ht, ?_, ?_, h.fatal⟩
    · have hassigned : Logged { s.job with state := .complete result } s.phase s.log := by
        apply h.logged.assign
        · simp
        · intro _; rfl
        · simp [hrunning]
      apply hassigned.move
      simp [Phase.pending]
    · apply h.owned.advance
      · rfl
      · simp [State.assign, State.move, hrunning]
      · intro _; rfl
      · simp [hrunning, JobState.kept]
  · cases hstep

theorem Sound.notify {failed : Bool} (hstep : notify s t failed = some s') : Sound s' := by
  unfold Workers.notify at hstep
  split at hstep
  · next ht =>
    split at hstep
    · cases hstep
      exact ⟨h.pool, h.logged, h.owned, .inr rfl⟩
    · cases hstep
      have hmoved : Pool s.job (update s.phase t .idle) s.notified := by
        apply h.pool.move <;> simp [Phase.holds]
      refine ⟨?_, ?_, h.owned, h.fatal⟩
      · exact ⟨hmoved.alone, hmoved.running, hmoved.unstarted, hmoved.claimed, hmoved.asked,
          hmoved.cancelled, hmoved.stored, fun _ => h.pool.stored ht⟩
      · apply h.logged.move
        simp [Phase.pending]
  · cases hstep

omit [DecidableEq ι] in
/-- The owner's thread changes its own record only. -/
theorem Sound.retask (task : Task) (next : Nat) (howned : Owned s.job task s.owner) :
    Sound { s with task := task, next := next } where
  pool := h.pool
  logged := h.logged
  owned := howned
  fatal := h.fatal

omit [DecidableEq ι] in
/-- While the owner is free, what it knows of a task that still computes. -/
theorem Sound.computing (hfree : s.owner = .free) (hcomputation : s.task.computation = true) :
    s.job.state ≠ .taken ∧ (s.job.requested = true → s.job.state.kept = true) ∧
      (s.task.external = none → s.job.state.over = true) ∧
      ∀ wait, s.task.external = some wait → wait.ready = true → s.job.state.over = true := by
  have howned := h.owned
  rw [hfree] at howned; exact howned hcomputation

omit [DecidableEq ι] in
theorem Sound.poll (hstep : poll s = some s') : Sound s' := by
  unfold Workers.poll at hstep
  split at hstep
  · next wait hfree hexternal =>
    split at hstep
    · next hready =>
      cases hstep
      apply h.retask _ s.next
      rw [hfree]
      intro hcomputation
      obtain ⟨hlive, hasked, _, _⟩ := h.computing hfree hcomputation
      -- only the job's own thread notifies, after it has published
      have hover : s.job.state.over = true := h.pool.notified hready.1
      exact ⟨hlive, hasked, fun _ => hover, fun _ _ _ => hover⟩
    · cases hstep
      exact h
  · cases hstep
    exact h
  · cases hstep

omit [DecidableEq ι] in
theorem Sound.resume (hstep : resume s = some s') : Sound s' := by
  unfold Workers.resume at hstep
  split at hstep
  · next hfree _ =>
    cases hstep
    apply h.retask _ s.next
    rw [hfree]; exact h.computing hfree
  · cases hstep

omit [DecidableEq ι] in
theorem Sound.waitSource (hfree : s.owner = .free) : Sound (waitSource s) := by
  unfold Workers.waitSource
  split
  · exact h
  · split
    · next wait hexternal =>
      split
      · next hready =>
        apply h.retask _ s.next
        rw [hfree]
        intro hcomputation
        obtain ⟨hlive, hasked, _, hwaited⟩ := h.computing hfree hcomputation
        have hover : s.job.state.over = true := hwaited wait hexternal hready
        exact ⟨hlive, hasked, fun _ => hover, fun _ _ _ => hover⟩
      · exact h
    · next hexternal =>
      apply h.retask _ (s.next + 1)
      rw [hfree]
      intro hcomputation
      obtain ⟨hlive, hasked, hunwaited, _⟩ := h.computing hfree hcomputation
      have hover : s.job.state.over = true := hunwaited hexternal
      exact ⟨hlive, hasked, fun _ => hover, fun _ _ _ => hover⟩

omit [DecidableEq ι] in
theorem Sound.waitWorker (hstep : waitWorker s = some s') : Sound s' := by
  unfold Workers.waitWorker at hstep
  split at hstep
  · next hfree =>
    split at hstep
    · split at hstep
      · next hsettled =>
        cases hstep
        obtain ⟨result, hcomplete⟩ := Job.settled_iff.mp hsettled
        apply h.retask _ s.next
        rw [hfree]
        intro hcomputation
        obtain ⟨hlive, hasked, _, _⟩ := h.computing hfree hcomputation
        have hover := JobState.over_of_complete hcomplete
        exact ⟨hlive, hasked, fun _ => hover, fun _ _ _ => hover⟩
      · cases hstep
        exact h.waitSource hfree
    · cases hstep
  · cases hstep

omit [DecidableEq ι] in
/-- The task has no wait on the job, so the job is over, and nobody but this
owner has taken it or asked to cancel it: `take` finds a result. -/
theorem Sound.workerResult (hstep : workerResult s = some s') : Sound s' := by
  unfold Workers.workerResult at hstep
  split at hstep
  · next hfree =>
    split at hstep
    · next hready =>
      obtain ⟨_, hexternal, hcomputation⟩ := hready
      obtain ⟨hlive, hasked, hunwaited, _⟩ := h.computing hfree hcomputation
      have hkept : s.job.state.kept = true := h.pool.kept (hunwaited hexternal) hlive hasked
      obtain ⟨result, hcomplete⟩ := JobState.complete_of_kept hkept
      obtain ⟨raised, htake⟩ := Job.take_of_kept hkept
      rw [htake] at hstep
      cases hstep
      refine ⟨h.pool.take (by simp [hcomplete]), h.logged.taken hcomplete, ?_, h.fatal⟩
      rw [hfree]
      intro hcomputing
      cases hcomputing
    · cases hstep
      exact h
  · cases hstep

omit [DecidableEq ι] in
theorem Sound.completeBeforeCancel (hstep : completeBeforeCancel s = some s') : Sound s' := by
  unfold Workers.completeBeforeCancel at hstep
  split at hstep
  · split at hstep
    · next hcomputation =>
      cases hstep
      exact ⟨h.pool.request, h.logged.request, ⟨hcomputation, rfl⟩, h.fatal⟩
    · cases hstep
      exact h
  · cases hstep

omit [DecidableEq ι] in
theorem Sound.cancelOperation (hstep : cancelOperation s = some s') : Sound s' := by
  unfold Workers.cancelOperation at hstep
  split at hstep
  case h_3 => cases hstep
  all_goals
    split at hstep
    · cases hstep
      exact ⟨h.pool.request, h.logged.request, rfl, h.fatal⟩
    · next hnone =>
      cases hstep
      exact ⟨h.pool, h.logged, fun hcomputation => absurd hcomputation hnone, h.fatal⟩

omit [DecidableEq ι] in
/-- What `complete_before_cancel` leaves of the job, for either caller. -/
theorem Sound.decided {kept : Bool} {job : Job φ} (hdecide : s.job.decide = some (kept, job)) :
    Pool job s.phase s.notified ∧ Logged job s.phase (s.log ++ [.cancelled]) ∧
      (kept = true → job = s.job ∧ s.job.state.kept = true) ∧
      (kept = false → job.state = .taken) := by
  obtain ⟨hstate, ⟨hkept, hpreserved, hjob⟩ | ⟨hkept, hjob⟩⟩ := Job.decide_cases hdecide
  · subst hjob hkept
    exact ⟨h.pool, h.logged.cancelled (JobState.over_of_kept hpreserved),
      fun _ => ⟨rfl, hpreserved⟩, nofun⟩
  · subst hjob hkept
    have hassigned : Logged { s.job with state := .taken } s.phase s.log := by
      apply h.logged.assign
      · simp
      · intro _; rfl
      · intro _; rfl
    refine ⟨h.pool.take hstate, hassigned.cancelled rfl, ?_, fun _ => rfl⟩
    intro htrue
    cases htrue

omit [DecidableEq ι] in
theorem Sound.decide (hstep : decide s = some s') : Sound s' := by
  unfold Workers.decide at hstep
  split at hstep
  · next job hpreserving hdecide =>
    cases hstep
    obtain ⟨hpool, hlogged, hkept, _⟩ := h.decided hdecide
    obtain ⟨hjob, hpreserved⟩ := hkept rfl
    refine ⟨hpool, hlogged, ?_, h.fatal⟩
    intro _
    have hover : job.state.over = true := JobState.over_of_kept (hjob ▸ hpreserved)
    have hlive : job.state ≠ .taken := by
      intro htaken
      rw [← hjob, htaken] at hpreserved
      cases hpreserved
    exact ⟨hlive, fun _ => hjob ▸ hpreserved, fun _ => hover, fun _ _ _ => hover⟩
  · next job hpreserving hdecide =>
    cases hstep
    obtain ⟨hpool, hlogged, _, hrefused⟩ := h.decided hdecide
    exact ⟨hpool, hlogged, hrefused rfl, h.fatal⟩
  · next job hcancelling hdecide =>
    cases hstep
    have howned := h.owned
    rw [hcancelling] at howned
    obtain ⟨hpool, hlogged, hkept, _⟩ := h.decided hdecide
    obtain ⟨hjob, hpreserved⟩ := hkept rfl
    exact ⟨hpool, hlogged, ⟨howned, hjob ▸ hpreserved⟩, h.fatal⟩
  · next job hcancelling hdecide =>
    cases hstep
    have howned := h.owned
    rw [hcancelling] at howned
    obtain ⟨hpool, hlogged, _, _⟩ := h.decided hdecide
    refine ⟨hpool, hlogged, ?_, h.fatal⟩
    intro hcomputation
    cases howned.symm.trans hcomputation
  · cases hstep

omit [DecidableEq ι] in
theorem Sound.drain (hstep : drain s = some s') : Sound s' := by
  unfold Workers.drain at hstep
  split at hstep
  · next hdraining =>
    cases hstep
    have howned := h.owned
    rw [hdraining] at howned
    obtain ⟨hcomputation, hkept⟩ := howned
    obtain ⟨result, hcomplete⟩ := JobState.complete_of_kept hkept
    refine ⟨h.pool.take (by simp [hcomplete]), h.logged.taken hcomplete, ?_, h.fatal⟩
    intro hcomputing
    cases hcomputation.symm.trans hcomputing
  · cases hstep

theorem Sound.step {event : Event ι} (hstep : step s event = some s') : Sound s' := by
  unfold Workers.step at hstep
  split at hstep
  · cases hstep
  · cases event with
    | claim t => exact h.claim hstep
    | enter t => exact h.enter hstep
    | check t => exact h.check hstep
    | call t => exact h.call hstep
    | finish t exit => exact h.finish hstep
    | store t => exact h.store hstep
    | notify t failed => exact h.notify hstep
    | poll => exact h.poll hstep
    | resume => exact h.resume hstep
    | waitWorker => exact h.waitWorker hstep
    | workerResult => exact h.workerResult hstep
    | completeBeforeCancel => exact h.completeBeforeCancel hstep
    | cancelOperation => exact h.cancelOperation hstep
    | decide => exact h.decide hstep
    | drain => exact h.drain hstep

end

/-! ## A whole run -/

omit [DecidableEq ι] in
theorem start_sound (frame : φ) (registration : Nat) :
    Sound (start frame registration : State ι φ) := by
  refine ⟨⟨?_, ?_, ?_, ?_, ?_, ?_, ?_, ?_⟩, ⟨?_, ?_, ?_, ?_, ?_, ?_⟩, ?_, .inl rfl⟩ <;>
    simp [start, Phase.holds, Owned]

theorem sound_of_reaches (h : Reaches step always (start frame registration) s) : Sound s :=
  h.invariant Sound (start_sound frame registration) (fun hsound _ hstep => hsound.step hstep)

/-- The callback runs at most once, never after a cancellation has returned; its
result is taken at most once, and `take` never finds one missing. -/
theorem worker_once {frame : φ} {registration : Nat}
    (h : Reaches step always (start frame registration) s) :
    s.log.count .began ≤ 1 ∧
      s.log.Pairwise (fun earlier later => earlier = .cancelled → later ≠ .began) ∧
      s.log.count .took ≤ 1 ∧ s.fatal ≠ some "worker result is not complete" := by
  have hsound := sound_of_reaches h
  refine ⟨hsound.logged.once, hsound.logged.after, hsound.logged.single, ?_⟩
  rcases hsound.fatal with hnone | hnotify
  · rw [hnone]; simp
  · rw [hnotify]; decide

/-- A cancellation while the callback runs: it ends before the request is
returned, its result is kept, and the resumed task takes it. A second thread
that picks the job up finds nothing to do. -/
theorem worker_once_kept :
    ∃ s : State (Fin 2) Nat, Reaches step always (start 5 0) s ∧
      (s.log = [.began, .cancelled, .took] ∧ s.fatal = none) ∧
      s.log.count .began ≤ 1 ∧
      s.log.Pairwise (fun earlier later => earlier = .cancelled → later ≠ .began) ∧
      s.log.count .took ≤ 1 ∧ s.fatal ≠ some "worker result is not complete" := by
  have hrun : (run step always (start 5 0 : State (Fin 2) Nat)
      [.claim 0, .enter 0, .check 0, .call 0, .claim 1, .completeBeforeCancel, .finish 0 none,
        .store 0, .decide, .notify 0 false, .waitWorker, .workerResult, .poll]).map
      (fun s => Decidable.decide (s.log = [.began, .cancelled, .took] ∧ s.fatal = none)) =
        some true := by decide
  obtain ⟨s, hs, htest⟩ := reaches_with _ hrun
  exact ⟨s, hs, of_decide_eq_true htest, worker_once hs⟩

end

end Loom.Runtime.Workers

import Loom.Runtime.TaskCancellation
import Mathlib.Algebra.BigOperators.Group.Finset.Piecewise

/-
  Runs of the scheduler.

  A run starts before the constructor of the entry and takes the events of the
  generated code, of the reactor and of the scheduler in any order the modes
  allow. It is `promised` where the generated code keeps its part: it releases
  no child it observes, it releases a child whose cancellation it began before
  it returns, it asks for the data of a fault while the child is there, and
  there are fewer than 2 ^ 64 stamps.
-/

namespace Loom.Tasks

open Faults Tables Forests Runs List Option

/-- What the generated code keeps to. -/
def promised (s : System) (event : Event) : Bool :=
  decide (s.core.next + 1 < 2 ^ 64) &&
    match event with
    | .operation operation => promisedOperation s.core operation
    | .returns _ => s.core.begun.isEmpty
    | _ => true

/-! ## Steps without faults -/

section
variable {core : Core} {id : Nat}

theorem faultless_task : Faultless (core.task id) := faultless_found

theorem faultless_nextStamp : Faultless (nextStamp core) := by
  unfold nextStamp
  split
  · exact faultless_ok
  · exact faultless_fatal

variable {task : Task}

theorem faultless_wake {priority : Bool} : Faultless (wake core id task priority) := by
  unfold wake
  cases task.waiter with
  | none => exact faultless_ok
  | some parent =>
    cases task.state.terminalOrder with
    | none => exact faultless_ok
    | some order =>
      refine faultless_bind faultless_task (fun owner => ?_)
      cases owner.observation.filter fun group => isMember group id with
      | some group =>
        refine faultless_bind faultless_assertion (fun _ => ?_)
        dsimp only
        split
        · exact faultless_ok
        · exact faultless_ok
      | none =>
        dsimp only
        split
        · exact faultless_ok
        · exact faultless_fatal

theorem faultless_finishTerminal {failure : Option String} :
    Faultless (finishTerminal core id failure) :=
  faultless_bind faultless_nextStamp fun _ => faultless_bind faultless_task fun _ => faultless_wake

theorem faultless_finishFaulted {failure : String} : Faultless (finishFaulted core id failure) :=
  faultless_bind faultless_task fun _ => faultless_bind faultless_task fun _ =>
    faultless_finishTerminal

theorem faultless_finishCancel {first : Option String} : Faultless (finishCancel core id first) :=
  faultless_bind faultless_task fun _ => faultless_bind faultless_task fun _ =>
    faultless_bind faultless_nextStamp fun _ => faultless_bind faultless_task fun _ => faultless_ok

theorem faultless_forget : Faultless (forget core id task) := by
  unfold forget
  split
  · exact faultless_ok
  · refine faultless_bind faultless_task (fun owner => ?_)
    split
    · exact faultless_ok
    · exact faultless_ok

theorem faultless_unlink : Faultless (unlink core id task) := by
  unfold unlink
  split
  · exact faultless_ok
  · exact faultless_bind faultless_task fun _ => faultless_ok

theorem faultless_retire {first : Option String} : Faultless (retire core id first) :=
  faultless_bind faultless_task fun _ => faultless_bind faultless_task fun _ =>
    faultless_bind faultless_task fun _ => faultless_bind faultless_forget fun _ =>
      faultless_bind faultless_unlink fun _ => faultless_ok

end

/-! ## The invariant of a run -/

/-- The generated code runs: before the entry task is there, or in a resume. -/
def Acting (s : System) : Prop :=
  Calm s.core ∧ (s.mode = .constructing ∧ s.core.current = none ∨
    s.mode = .resumed ∧ s.core.current ≠ none ∧ s.core.root ≠ none)

/-- No task is left, and nothing is waited for. -/
structure Ceased (core : Core) : Prop where
  gone : ∀ id, core.tasks id = none
  pending : core.pending = 0
  paid : Paid (view Task.cleanups core.tasks) core.next core.pushes core.ran core.retired

def Holds (s : System) : Prop :=
  match s.mode with
  | .constructing => Acting s
  | .driving => Calm s.core ∧ s.core.current = none ∧ s.core.root ≠ none
  | .resumed => Acting s
  | .cancelling pending _ after => Cancelling s.core pending after
  | .finished _ => Ceased s.core
  | .fatal _ => False

section
variable {s : System} {core : Core}

theorem Acting.holds (h : Acting s) : Holds s := by
  unfold Holds
  obtain ⟨hcalm, ⟨hmode, hcurrent⟩ | ⟨hmode, hrest⟩⟩ := h
  · rw [hmode]; exact ⟨hcalm, .inl ⟨hmode, hcurrent⟩⟩
  · rw [hmode]; exact ⟨hcalm, .inr ⟨hmode, hrest⟩⟩

theorem Acting.after (h : Acting s) (hkept : Kept s.core core) : Acting ⟨core, s.mode⟩ := by
  refine ⟨hkept.calm, h.2.imp ?_ ?_⟩
  · intro hbefore; exact ⟨hbefore.1, hkept.current.trans hbefore.2⟩
  · intro hresumed
    obtain ⟨hmode, hcurrent, hroot⟩ := hresumed
    refine ⟨hmode, ?_, ?_⟩
    · rw [hkept.current]; exact hcurrent
    · rw [hkept.root hroot]; exact hroot

variable {root id : Nat} {task : Task}

theorem Sound.stop (h : Calm core) (hcurrent : core.current = none) (hroot : core.root = some root) :
    Cancelling core [(root, false)] (.stopped root) := by
  obtain ⟨top, htop, hnone⟩ := h.tops.rooted hroot id
  obtain ⟨task, htask, hsame⟩ := view_eq_some.mp htop
  refine ⟨?_, ?_, ?_, ⟨hcurrent, hroot, .inr (by simp)⟩⟩
  · have hwide : Sound core (Spared [(root, false)] (.stopped root)) none False :=
      h.excuse (fun _ hfalse => absurd hfalse id)
    obtain ⟨htops, hrooted, hclosed, hleaf⟩ := hwide.tops
    exact ⟨hwide.forest, hwide.queue, hwide.issued, hwide.begun, hwide.waits, hwide.externals,
      hwide.stamps, hwide.paid, hwide.currents, htops, fun _ hnot => absurd trivial hnot, hclosed,
      hleaf⟩
  · simp [hroot]
  · refine Traversal.start (view_some htask) ?_
    rw [← hsame] at hnone; exact hnone

theorem Sound.fault (h : Calm core) (hcurrent : core.current = some id) (hroot : core.root ≠ none)
    (message : String) : Cancelling core [] (.faulted id message) :=
  ⟨h.excuse (fun _ hfalse => absurd hfalse (fun h => h)), hroot, traversal_nil, hcurrent⟩

theorem Sound.barren {exempt : Nat → Prop} {target : Option Nat} {stopped : Prop}
    (h : Sound core exempt target stopped)
    (hroot : ∀ {id task}, core.root = some id → core.tasks id = some task → False) (id : Nat) :
    core.tasks id = none := by
  by_contra hlive
  obtain ⟨task, htask⟩ := ne_none_iff_exists'.mp hlive
  obtain ⟨top, node, htop, hnone, _⟩ := h.forest.top_of_live (view_some htask)
  obtain ⟨task', htask', hsame⟩ := view_eq_some.mp htop
  have hparent : task'.parent = none := by
    rw [← hsame] at hnone; exact hnone
  exact hroot (h.tops.top (view_some htask') hparent) htask'

theorem Sound.quiet_end {exempt : Nat → Prop} {target : Option Nat} {stopped : Prop}
    (h : Sound core exempt target stopped) (hgone : ∀ id, core.tasks id = none) :
    core.pending = 0 := by
  rw [h.externals.pending]
  by_contra hcount
  obtain ⟨id, _, parking, hid, _⟩ := exists_of_tally hcount
  obtain ⟨peer, hpeer, _⟩ := view_eq_some.mp hid
  exact absurd ((hgone id).symm.trans hpeer) (by simp)

theorem Acting.raise (h : Acting s) (message : String) : Holds (raise s message) := by
  obtain ⟨hcalm, ⟨hmode, hcurrent⟩ | ⟨hmode, hcurrent, hroot⟩⟩ := h
  · simp only [Tasks.raise, hmode]
    cases hroot : s.core.root with
    | some root => exact hcalm.stop hcurrent hroot
    | none =>
      have hgone := hcalm.barren (fun hsome _ => absurd (hroot.symm.trans hsome) (by simp))
      exact ⟨hgone, hcalm.quiet_end hgone, hcalm.paid⟩
  · simp only [Tasks.raise, hmode]
    cases hid : s.core.current with
    | some id => exact hcalm.fault hid hroot message
    | none => exact absurd hid hcurrent

/-! ## The steps of the generated code -/

theorem Acting.conclude (h : Acting s) {outcome : Outcome Raised}
    (hsafe : Safe (fun raised => Kept s.core raised.1) outcome) : Holds (conclude s outcome) := by
  cases outcome with
  | ok raised =>
    obtain ⟨core, failure⟩ := raised
    cases failure with
    | none => exact (h.after hsafe).holds
    | some message => exact (h.after hsafe).raise message
  | error stop =>
    cases stop with
    | fault message => exact h.raise message
    | fatal => exact absurd hsafe (fun h => h)

theorem safe_checkDrain (h : Calm core) (child : Nat) :
    Safe (fun _ => ∃ parent caller task, Family core child parent caller task ∧
      caller.state = .running) (checkDrain core child) := by
  refine safe_parentOf h ?_
  intro parent caller task hfamily
  refine safe_check ?_
  intro hcheck
  simp only [Bool.and_eq_true, decide_eq_true_eq] at hcheck
  exact ⟨parent, caller, task, hfamily, hcheck.1⟩

theorem Acting.drain (h : Acting s) (child : Nat) (suppress : Bool) :
    Holds (drain s child suppress) := by
  have hsafe := safe_checkDrain h.1 child
  unfold Tasks.drain
  cases hcheck : checkDrain s.core child with
  | ok =>
    rw [hcheck] at hsafe
    obtain ⟨parent, caller, task, hfamily, hrunning⟩ := hsafe
    obtain ⟨hcalm, ⟨_, hnone⟩ | ⟨_, _, hroot⟩⟩ := h
    · exact absurd (hnone.symm.trans hfamily.current) (by simp)
    · refine ⟨hcalm.excuse (fun _ hfalse => absurd hfalse (fun h => h)), hroot, ?_,
        ⟨parent, caller, hfamily.current, hfamily.owner, hrunning⟩⟩
      exact Traversal.start (view_some hfamily.held) (hfamily.above.trans hfamily.current.symm)
  | error stop =>
    rw [hcheck] at hsafe
    cases stop with
    | fault message => exact h.raise message
    | fatal => exact absurd hsafe (fun h => h)

theorem Acting.cancelBegin (h : Acting s) (child : Nat) : Holds (cancelBegin s child) := by
  have hsafe := safe_checkCancel h.1 child
  unfold Tasks.cancelBegin
  cases hcheck : checkCancel s.core child with
  | ok checked =>
    rw [hcheck] at hsafe
    obtain ⟨core, terminal⟩ := checked
    obtain ⟨hcurrent, hroot, _, hdone, hclaim⟩ := hsafe
    cases terminal with
    | true => exact (h.after ⟨hdone rfl, hcurrent, fun _ => hroot⟩).holds
    | false =>
      obtain ⟨hsound, parent, caller, task, hclaimed, hopen⟩ := hclaim rfl
      obtain ⟨_, ⟨_, hnone⟩ | ⟨_, _, hrooted⟩⟩ := h
      · have hacting := hclaimed.family.current
        rw [hcurrent, hnone] at hacting; simp at hacting
      · refine ⟨hsound.excuse (fun _ hfalse => absurd hfalse (fun h => h)), ?_, traversal_nil,
          ⟨parent, caller, task, hclaimed, hopen⟩⟩
        rw [hroot]; exact hrooted
  | error stop =>
    rw [hcheck] at hsafe
    cases stop with
    | fault message => exact h.raise message
    | fatal => exact absurd hsafe (fun h => h)

/-! ## The steps of the scheduler -/

theorem Sound.leave (h : Calm core) (hcurrent : core.current = some id)
    (hid : core.tasks id = some task) (hstop : task.state ≠ .running) (hnone : core.begun = []) :
    Calm { core with current := none } := by
  refine ⟨h.forest, h.queue, h.issued, ?_, h.waits, h.externals, h.stamps, h.paid, ?_, h.tops⟩
  · rw [hnone]; exact begun_nil
  · refine h.currents.leave ?_ hcurrent
    rw [view_some hid, ne_eq, some.injEq]; exact hstop

theorem validateReturn_zero (h : validateReturn task 0 = .ok ()) :
    task.state = .running ∧ task.children.length = task.returned ∧ task.external = none := by
  unfold validateReturn at h
  simp only [if_true] at h
  split at h
  · rename_i hcheck
    exact ⟨hcheck.1, hcheck.2.1, hcheck.2.2.1⟩
  · cases h

/-- A task that returns without a result waits for something. -/
theorem validateReturn_waits {status : Int} (h : validateReturn task status = .ok ())
    (hstatus : status ≠ 0) : task.state ≠ .running := by
  intro hrunning
  simp only [validateReturn, hstatus, if_false, hrunning] at h
  split at h <;> cases h

theorem Acting.returns (h : Acting s) (hmode : s.mode = .resumed) (hroom : s.core.next + 1 < 2 ^ 64)
    (hnone : s.core.begun = []) (status : Int) : Holds (returns s status) := by
  have hraise := h.raise
  obtain ⟨hcalm, ⟨hbefore, _⟩ | ⟨_, hcurrent, hroot⟩⟩ := h
  · exact absurd (hbefore.symm.trans hmode) (by simp)
  obtain ⟨id, hid⟩ := ne_none_iff_exists'.mp hcurrent
  obtain ⟨task, htask, _⟩ := hcalm.acting hid
  have hlive : s.core.task id = .ok task := by
    unfold Core.task
    rw [htask]; rfl
  have hfound : found s.core.current "missing task" = .ok id := by
    rw [hid]; rfl
  unfold Tasks.returns
  rw [hfound]
  show Holds (settle s (s.core.task id >>= _))
  rw [hlive]
  dsimp only [bind, Except.bind]
  cases hvalid : validateReturn task status with
  | error message => exact hraise message
  | ok =>
    by_cases hzero : status = 0
    · simp only [hzero]
      rw [hzero] at hvalid
      obtain ⟨hrunning, hreturned, hexternal⟩ := validateReturn_zero hvalid
      have hleaf : task.parent = none → task.children = [] := by
        intro htop
        have hclosed : task.returned = 0 := hcalm.tops.closed (view_some htask) htop
        exact length_eq_zero_iff.mp (hreturned.trans hclosed)
      have hsafe := safe_finishTerminal hcalm hid htask hnone hexternal hleaf
        (fun hwait => absurd (hrunning.symm.trans hwait) (by simp)) (fun _ hfalse => hfalse.elim)
        (fun h => h) hroom none
      obtain ⟨core, hcore, hended⟩ := hsafe.returns faultless_finishTerminal
      rw [hcore]
      refine ⟨hended.calm, hended.current, ?_⟩
      show core.root ≠ none
      rw [hended.root]; exact hroot
    · simp only [hzero]
      exact ⟨hcalm.leave hid htask (validateReturn_waits hvalid hzero) hnone, rfl, hroot⟩

theorem begun_of_idle (h : Calm core) (hcurrent : core.current = none) : core.begun = [] := by
  apply eq_nil_iff_forall_not_mem.mpr
  intro id hmem
  obtain ⟨_, _, _, _, _, _, _, hsome, _⟩ := h.begun _ hmem
  exact absurd (hcurrent.symm.trans hsome) (by simp)

/-- What a notification may find. -/
theorem holds_notify (h : Calm core) (hcurrent : core.current = none) (hroot : core.root ≠ none)
    (owner registration : Nat) : Holds ⟨notify core owner registration, .driving⟩ := by
  cases howner : core.tasks owner with
  | none =>
    simp only [notify, howner]; exact ⟨h, hcurrent, hroot⟩
  | some task =>
    cases hexternal : task.external with
    | none =>
      simp only [notify, howner, hexternal]; exact ⟨h, hcurrent, hroot⟩
    | some wait =>
      simp only [notify, howner, hexternal]
      by_cases hcheck : task.state = .externalWaiting ∧ wait.registration = registration ∧
          ¬wait.ready
      · rw [if_pos hcheck]
        obtain ⟨hstate, _, hready⟩ := hcheck
        have hlive : view Task.state core.tasks owner = some .externalWaiting := by
          rw [view_some howner, hstate]
        have hfree : owner ∉ core.ready := by
          refine h.queue.notMem hlive (by simp) ?_
          rw [begun_of_idle h hcurrent]; exact not_mem_nil
        have hparking : unready task.parking = 1 := by
          unfold unready Task.parking; simp [hexternal, hready]
        have hpending := h.externals.le_pending (view_some howner) (h.limit howner)
        refine ⟨h.rest howner (.inr (.inr hstate)) (.inl rfl) ?_ ?_ ?_ ?_ ?_ (.inl rfl), hcurrent,
          hroot⟩
        · exact h.queue.push hfree (perm_append_singleton _ _)
        · simp
        · simp [unready]
        · show core.pending - 1 + unready task.parking = core.pending + 0
          omega
        · refine h.currents.put (by simp) ?_
          intro hself; exact absurd (hcurrent.symm.trans hself) (by simp)
      · rw [if_neg hcheck]; exact ⟨h, hcurrent, hroot⟩

theorem popLive_some {tasks : Nat → Option Task} {ready : List Nat} {rest : List Nat}
    (h : popLive tasks ready = some (id, task, rest)) :
    ∃ dead, ready = dead ++ id :: rest ∧ tasks id = some task ∧ ∀ other ∈ dead, tasks other = none := by
  induction ready with
  | nil => cases h
  | cons first ready ih =>
    unfold popLive at h
    cases hfirst : tasks first with
    | some found =>
      rw [hfirst] at h
      simp only [some.injEq, Prod.mk.injEq] at h
      obtain ⟨hid, htask, hrest⟩ := h
      refine ⟨[], ?_, ?_, by simp⟩
      · rw [hid, hrest]; rfl
      · rw [← hid, hfirst, htask]
    | none =>
      rw [hfirst] at h
      obtain ⟨dead, hready, hid, hdead⟩ := ih h
      refine ⟨first :: dead, ?_, hid, ?_⟩
      · rw [hready]; rfl
      · intro other hmem
        obtain hsame | hin := mem_cons.mp hmem
        · rw [hsame]; exact hfirst
        · exact hdead other hin

theorem popLive_none {tasks : Nat → Option Task} {ready : List Nat}
    (h : popLive tasks ready = none) : ∀ other ∈ ready, tasks other = none := by
  induction ready with
  | nil => simp
  | cons first ready ih =>
    unfold popLive at h
    cases hfirst : tasks first with
    | some found =>
      rw [hfirst] at h
      cases h
    | none =>
      rw [hfirst] at h
      intro other hmem
      obtain hsame | hin := mem_cons.mp hmem
      · rw [hsame]; exact hfirst
      · exact ih h other hin

/-- With no task to resume some task is parked: of those not finished, the
deepest waits for no task. -/
theorem resumes (h : Calm core) (hcurrent : core.current = none)
    (hroot : core.tasks root = some task) (hopen : task.state.terminalOrder = none)
    (hdead : ∀ id ∈ core.ready, core.tasks id = none) : core.pending ≠ 0 := by
  obtain ⟨last, ⟨found, hfound, hlast⟩, hdeepest⟩ := h.forest.deepest
    (fun id => ∃ task, core.tasks id = some task ∧ task.state.terminalOrder = none)
    (Finset.range (core.next + 1))
    (fun id hid => by
      obtain ⟨task, htask, _⟩ := hid
      exact Finset.mem_range.mpr (Nat.lt_succ_of_le (h.limit htask)))
    ⟨task, hroot, hopen⟩
  have hbond : view Task.bond core.tasks last = some found.bond := view_some hfound
  cases hstate : found.state with
  | queued =>
    have honce : core.ready.count last = 1 := by
      refine h.queue.queued ?_
      rw [view_some hfound, hstate]
    have hmem : last ∈ core.ready := count_pos_iff.mp (by omega)
    exact absurd ((hdead last hmem).symm.trans hfound) (by simp)
  | running =>
    have hrun : core.current = some last := by
      refine h.currents.running ?_
      rw [view_some hfound, hstate]
    exact absurd (hcurrent.symm.trans hrun) (by simp)
  | waiting child =>
    obtain ⟨_, bond, hchild, hparent, _, hlive⟩ := h.waits.waiting hbond hstate (fun h => h)
    obtain ⟨task', htask', hsame⟩ := view_eq_some.mp hchild
    rw [← hsame] at hparent hlive
    exact absurd ⟨task', htask', hlive⟩ (hdeepest (view_some htask') hparent)
  | observing =>
    obtain ⟨hready, hmembers⟩ := h.waits.observing hbond hstate (fun h => h)
    obtain ⟨child, hchild⟩ := exists_mem_of_ne_nil _ hmembers
    obtain ⟨bond, hmember, hwaiter⟩ := h.waits.member hbond hchild
    have hparent := h.waits.waiter hmember hwaiter
    obtain ⟨task', htask', hsame⟩ := view_eq_some.mp hmember
    rw [← hsame] at hparent
    cases horder : task'.state.terminalOrder with
    | none => exact absurd ⟨task', htask', horder⟩ (hdeepest (view_some htask') hparent)
    | some order =>
      have hnotified : (order, child) ∈ found.bond.ready :=
        (h.waits.notified hbond).mpr ⟨hchild, task'.bond, view_some htask', horder⟩
      rw [hready] at hnotified; simp at hnotified
  | externalWaiting =>
    have hparked : unready found.parking = 1 :=
      h.externals.waits (view_some hfound) hstate (fun h => h)
    have hpending := h.externals.le_pending (view_some hfound) (h.limit hfound)
    omega
  | completed => exact absurd hlast (by rw [hstate]; simp [Status.terminalOrder])
  | faulted => exact absurd hlast (by rw [hstate]; simp [Status.terminalOrder])
  | cancelled => exact absurd hlast (by rw [hstate]; simp [Status.terminalOrder])

/-- The queue has a task to resume, or something is still to come. -/
theorem holds_resume (h : Calm core) (hcurrent : core.current = none)
    (hrooted : core.root = some root) (hroot : core.tasks root = some task)
    (hopen : task.state.terminalOrder = none) : ∃ s', resume core = .ok s' ∧ Holds s' := by
  unfold resume
  cases hpop : popLive core.tasks core.ready with
  | some entry =>
    obtain ⟨id, popped, rest⟩ := entry
    obtain ⟨dead, hready, hid, hdead⟩ := popLive_some hpop
    have hnone := begun_of_idle h hcurrent
    have hstate : popped.state = .queued := by
      by_contra hother
      have hmem := h.queue.only (view_some hid) hother (by rw [hready]; simp)
      rw [hnone] at hmem; simp at hmem
    simp only [hstate]
    have hqueue := h.queue
    rw [hready] at hqueue
    have hsettled : unready popped.parking ≠ 1 := by
      intro hparked
      have hparking : popped.state = .externalWaiting := h.externals.parked (view_some hid) hparked
      exact absurd (hstate.symm.trans hparking) (by simp)
    have hsound : Calm { core with
        tasks := put core.tasks id { popped with state := .running, external := popped.external },
        ready := rest, current := some id, pending := core.pending,
        registrations := core.registrations } := by
      refine h.rest hid (.inl hstate) (.inr (.inl rfl)) ?_ ?_ ?_ rfl
        (Currents.resume (hcurrent ▸ h.currents)) (.inr hnone)
      · refine hqueue.pop ?_ ?_ (by simp)
        · intro other hmem; exact view_none (hdead other hmem)
        · rw [view_some hid, hstate]
      · intro other hmem
        rw [hready]; simp [hmem]
      · constructor
        · intro hparked; exact absurd hparked hsettled
        · intro hfalse; simp at hfalse
    refine ⟨_, rfl, hsound, .inr ⟨rfl, nofun, ?_⟩⟩
    show core.root ≠ none
    rw [hrooted]; simp
  | none =>
    have hdead := popLive_none hpop
    have hpending := resumes h hcurrent hroot hopen hdead
    simp only [hpending]
    refine ⟨_, rfl, ⟨h.forest, ?_, ?_, h.begun, h.waits, h.externals, h.stamps, h.paid, h.currents,
      h.tops⟩, hcurrent, ?_⟩
    · refine h.queue.clear ?_
      intro other hmem; exact view_none (hdead other hmem)
    · exact ⟨h.issued.live, by simp⟩
    · rw [hrooted]; simp

/-- A terminal root is the only task left, and nothing is pending. -/
theorem holds_finish (h : Calm core) (hrooted : core.root = some root)
    (hroot : core.tasks root = some task) (hparent : task.parent = none)
    (hterminal : task.state.terminalOrder ≠ none) (failure : Option String) :
    ∃ s', finish core root task failure = .ok s' ∧ Holds s' := by
  have hleaf : task.children = [] := (h.tops.leaf (view_some hroot) hparent hterminal).1
  have honly : ∀ id, id ≠ root → core.tasks id = none := by
    intro id hne
    by_contra hlive
    obtain ⟨task', htask'⟩ := ne_none_iff_exists'.mp hlive
    refine hne (h.forest.only_top (view_some hroot) hleaf ?_ (view_some htask'))
    intro other node hother hnone
    obtain ⟨peer, hpeer, hsame⟩ := view_eq_some.mp hother
    have htop : core.root = some other := by
      refine h.tops.top (view_some hpeer) ?_
      rw [← hsame] at hnone; exact hnone
    exact some.inj (htop.symm.trans hrooted)
  have hpending : core.pending = 0 := by
    rw [h.externals.pending]
    by_contra hcount
    obtain ⟨id, _, parking, hid, hunready⟩ := exists_of_tally hcount
    obtain ⟨peer, hpeer, hsame⟩ := view_eq_some.mp hid
    have hroot' : id = root := by
      by_contra hne
      exact absurd ((honly id hne).symm.trans hpeer) (by simp)
    rw [hroot', hroot, some.injEq] at hpeer
    have hexternal := h.externals.settled (view_some hroot) hterminal
    apply hunready
    rw [← hsame, ← hpeer]
    unfold unready
    rw [hexternal]; rfl
  unfold finish
  have hchildren : assertion task.children.isEmpty = .ok () := by
    rw [hleaf]; rfl
  have hothers : assertion (decide (∀ id < core.next + 1, id ≠ root → core.tasks id = none)) =
      .ok () := by
    rw [decide_eq_true (fun id _ hne => honly id hne)]; rfl
  have hwaits : assertion (decide (core.pending = 0)) = .ok () := by
    rw [decide_eq_true hpending]; rfl
  rw [hchildren, hothers, hwaits]
  refine ⟨_, rfl, ?_, hpending, ?_⟩
  · intro id
    show drop core.tasks root id = none
    by_cases hsame : id = root
    · rw [hsame, drop_self]
    · rw [drop_of_ne hsame, honly id hsame]
  · show Paid (view Task.cleanups (drop core.tasks root)) core.next core.pushes core.ran
      (task.cleanups.map Cleanup.serial ++ core.retired)
    rw [view_drop]
    refine h.paid.drop (view_some hroot) (h.limit hroot) ?_
    intro serial
    rw [count_append]
    unfold Task.owed; omega

theorem holds_next (h : Calm s.core) (hcurrent : s.core.current = none)
    (hroot : s.core.root ≠ none) : Holds (next s) := by
  obtain ⟨root, hrooted⟩ := ne_none_iff_exists'.mp hroot
  obtain ⟨top, htop, hnone⟩ := h.tops.rooted hrooted id
  obtain ⟨task, htask, hsame⟩ := view_eq_some.mp htop
  have hparent : task.parent = none := by
    rw [← hsame] at hnone; exact hnone
  have hfound : found s.core.root "missing task" = .ok root := by
    rw [hrooted]; rfl
  have hlive : s.core.task root = .ok task := by
    unfold Core.task
    rw [htask]; rfl
  have hstep : ∀ {outcome : Outcome System}, (∃ s', outcome = .ok s' ∧ Holds s') →
      Holds (settle s outcome) := by
    intro outcome hdone
    obtain ⟨s', hok, hholds⟩ := hdone
    rw [hok]; exact hholds
  unfold next
  rw [hfound]
  show Holds (settle s (s.core.task root >>= _))
  rw [hlive]
  apply hstep
  dsimp only [bind, Except.bind]
  have hends : ∀ state, task.state = state → state.terminalOrder ≠ none → ∀ failure,
      ∃ s', finish s.core root task failure = .ok s' ∧ Holds s' := by
    intro state hstate hterminal failure
    rw [← hstate] at hterminal
    exact holds_finish h hrooted htask hparent hterminal failure
  have hgoes : ∀ state, task.state = state → state.terminalOrder = none →
      ∃ s', resume s.core = .ok s' ∧ Holds s' := by
    intro state hstate hopen
    rw [← hstate] at hopen; exact holds_resume h hcurrent hrooted htask hopen
  cases hstate : task.state with
  | completed => exact hends _ hstate (by simp [Status.terminalOrder]) _
  | faulted => exact hends _ hstate (by simp [Status.terminalOrder]) _
  | cancelled order =>
    have hterminal : task.state.terminalOrder ≠ none := by
      rw [hstate]; simp [Status.terminalOrder]
    exact absurd hstate ((h.tops.leaf (view_some htask) hparent hterminal).2 order)
  | queued => exact hgoes _ hstate rfl
  | running => exact hgoes _ hstate rfl
  | waiting => exact hgoes _ hstate rfl
  | observing => exact hgoes _ hstate rfl
  | externalWaiting => exact hgoes _ hstate rfl

end

/-! ## Turns of a cancellation -/

/-- The task that is ended after its children. -/
def After.ends : After → Option Nat
  | .drained _ => none
  | .cancelled child => some child
  | .faulted id _ => some id
  | .stopped _ => none

/-- The turns left, while the stack lasts. -/
def load (core : Core) (pending : List (Nat × Bool)) : Nat :=
  2 * effort (view Task.links core.tasks) (core.next + 1) pending + if pending = [] then 1 else 0

/-- The cancellation goes on: the next turn, from what has been done. -/
structure Turns (core : Core) (pending : List (Nat × Bool)) (after : After) (core' : Core)
    (pending' : List (Nat × Bool)) : Prop where
  felled : Felled core pending core' pending'
  next : core'.next = core.next
  closer : load core' pending' < load core pending

/-- The cancellation is over: its stack is empty, and the task to end has no children. -/
structure Concludes (core : Core) (pending : List (Nat × Bool)) (after : After) (s' : System) :
    Prop where
  empty : pending = []
  leaf : ∀ {id task}, after.ends = some id → core.tasks id = some task → task.children = []
  only : ∀ {id}, core.tasks id = none → s'.core.tasks id = none
  more : ∀ serial ∈ core.ran, serial ∈ s'.core.ran
  ended : ∀ {id task}, after.ends = some id → core.tasks id = some task →
    (∃ task', s'.core.tasks id = some task' ∧ task'.state.terminalOrder ≠ none) ∧
      ∀ cleanup ∈ task.cleanups, cleanup.serial ∈ s'.core.ran
  again : ∀ {pending' first' after'}, s'.mode = .cancelling pending' first' after' →
    s'.core = core ∧ pending' = [] ∧ (∃ suppress, after = .drained suppress) ∧
      ∃ id failure, after' = .faulted id failure

section
variable {s : System} {core : Core} {pending rest : List (Nat × Bool)} {after : After}
  {first : Option String}

theorem Cancelling.calm (h : Cancelling core [] after) (hends : after.ends = none)
    (hstops : after.stops = False) : Calm core := by
  have hsound := h.sound
  have htarget : after.target = none := by
    cases after <;> first | rfl | exact absurd hends (by simp [After.ends])
  rw [htarget, hstops] at hsound
  refine hsound.excuse ?_
  intro other _ _ hspared
  cases after with
  | drained =>
    obtain hmem | hcovers := hspared
    · simp at hmem
    · exact hcovers
  | stopped => exact (hstops ▸ trivial : False)
  | cancelled => exact absurd hends (by simp [After.ends])
  | faulted => exact absurd hends (by simp [After.ends])

/-- Another child of the task to end is taken. -/
theorem Cancelling.descend (h : Cancelling core [] after) {id other : Nat} {task : Task}
    (hends : after.ends = some id) (hid : core.tasks id = some task) (hmem : other ∈ task.children) :
    Cancelling core [(other, false)] after := by
  obtain ⟨child, hchild, hparent⟩ := h.sound.child hid hmem
  refine ⟨h.sound.excuse ?_, h.root, Traversal.start (view_some hchild) ?_, ?_⟩
  · intro _ _ _ hspared
    refine hspared.imp_left ?_
    intro hnone; simp at hnone
  · have hbase : after.base core = some id := by
      cases after <;> first | exact hends | exact absurd hends (by simp [After.ends])
    rw [hbase]; exact hparent
  · have hstage := h.stage
    cases after with
    | stopped => exact absurd hends (by simp [After.ends])
    | _ => exact hstage

theorem Cancelling.only_self (h : Cancelling core [] after) {id : Nat}
    (hends : after.ends = some id) (other : Nat) (hspared : Spared [] after other) : other = id := by
  obtain hmem | hcovers := hspared
  · simp at hmem
  · cases after with
    | cancelled child => exact hcovers.trans (some.inj hends)
    | faulted child => exact hcovers.trans (some.inj hends)
    | drained => exact absurd hends (by simp [After.ends])
    | stopped => exact absurd hends (by simp [After.ends])

theorem Cancelling.conclude (h : Cancelling core [] after) (hroom : core.next + 1 < 2 ^ 64)
    (first : Option String) :
    ∃ s', conclusion core first after = .ok s' ∧ Holds s' ∧
      (s'.core = core ∧ (∃ other, s'.mode = .cancelling [(other, false)] first after) ∨
        Concludes core [] after s') := by
  have hstage := h.stage
  cases after with
  | drained suppress =>
    obtain ⟨id, task, hcurrent, htask, _⟩ := hstage
    have hacting : Acting ⟨core, .resumed⟩ := by
      refine ⟨h.calm rfl rfl, .inr ⟨rfl, ?_, h.root⟩⟩
      simp [hcurrent]
    have hquiet : Concludes core [] (.drained suppress) ⟨core, .resumed⟩ :=
      ⟨rfl, by simp [After.ends], fun hnone => hnone, fun _ hmem => hmem, by simp [After.ends],
        by simp⟩
    cases first with
    | none => exact ⟨_, rfl, hacting.holds, .inr hquiet⟩
    | some failure =>
      cases suppress with
      | true => exact ⟨_, rfl, hacting.holds, .inr hquiet⟩
      | false =>
        have hraised : raise ⟨core, .resumed⟩ failure =
            ⟨core, .cancelling [] none (.faulted id failure)⟩ := by
          simp [raise, hcurrent]
        refine ⟨_, rfl, hacting.raise failure, .inr ?_⟩
        rw [hraised]
        refine ⟨rfl, by simp [After.ends], fun hnone => hnone, fun _ hmem => hmem,
          by simp [After.ends], ?_⟩
        intro pending' first' after' hmode
        cases hmode
        exact ⟨rfl, rfl, ⟨_, rfl⟩, _, _, rfl⟩
  | stopped root =>
    obtain ⟨_, hrooted, hgone⟩ := hstage
    have hnone : core.tasks root = none := by
      obtain hnone | hmem := hgone
      · exact hnone
      · simp at hmem
    have hall := h.sound.barren (fun hid htask => by
      rw [some.inj (hid.symm.trans hrooted), hnone] at htask
      simp at htask)
    exact ⟨_, rfl, ⟨hall, h.sound.quiet_end hall, h.sound.paid⟩,
      .inr ⟨rfl, by simp [After.ends], fun h => h, fun _ h => h, by simp [After.ends], by simp⟩⟩
  | cancelled child =>
    obtain ⟨parent, caller, task, hclaimed, hopen⟩ := hstage
    have hlive : core.task child = .ok task := by
      unfold Core.task
      rw [hclaimed.family.held]; rfl
    dsimp only [conclusion]
    rw [hlive]
    dsimp only [bind, Except.bind]
    cases hchildren : task.children with
    | cons other others =>
      refine ⟨_, rfl, h.descend rfl hclaimed.family.held ?_, .inl ⟨rfl, other, rfl⟩⟩
      rw [hchildren]; exact .head _
    | nil =>
      have hsafe := safe_finishCancel h.sound hclaimed.family hclaimed.running hopen hclaimed.waiter
        hclaimed.free (.inr rfl) hchildren (h.only_self rfl) (fun h => h) hroom first
      obtain ⟨core', hcore, hcalm, hcurrent, hroot, honly, hran, hself⟩ :=
        hsafe.returns faultless_finishCancel
      simp only [hcore]
      refine ⟨_, rfl, ?_, .inr ⟨rfl, ?_, honly, ?_, ?_, by simp⟩⟩
      · refine Acting.holds ⟨hcalm, .inr ⟨rfl, ?_, ?_⟩⟩
        · simp [hcurrent, hclaimed.family.current]
        · rw [hroot]; exact h.root
      · intro id found hends hfound
        rw [show child = id from some.inj hends] at hclaimed
        rw [hclaimed.family.held, some.injEq] at hfound
        rw [← hfound]; exact hchildren
      · intro serial hmem
        rw [hran]; exact mem_append_right _ hmem
      · intro id found hends hfound
        rw [← show child = id from some.inj hends] at hfound ⊢
        rw [hclaimed.family.held, some.injEq] at hfound
        refine ⟨hself, ?_⟩
        intro cleanup hmem
        rw [hran, hfound]; exact mem_append_left _ (mem_map_of_mem hmem)
  | faulted id failure =>
    have hcurrent : core.current = some id := hstage
    obtain ⟨task, htask, _⟩ := h.sound.acting hcurrent
    have hlive : core.task id = .ok task := by
      unfold Core.task
      rw [htask]; rfl
    dsimp only [conclusion]
    rw [hlive]
    dsimp only [bind, Except.bind]
    cases hchildren : task.children with
    | cons other others =>
      refine ⟨_, rfl, h.descend rfl htask ?_, .inl ⟨rfl, other, rfl⟩⟩
      rw [hchildren]; exact .head _
    | nil =>
      have hnone : core.begun = [] := by
        have hbegun := h.sound.begun
        rw [hcurrent] at hbegun
        refine hbegun.eq_nil ?_
        intro other seen hseen; exact h.sound.childless htask hchildren hseen
      have hsafe := safe_finishFaulted h.sound hcurrent htask (.inr rfl) hnone hchildren
        (h.only_self rfl) (fun h => h) hroom failure
      obtain ⟨core', hcore, hcalm, hidle, hroot, honly, hran, hself⟩ :=
        hsafe.returns faultless_finishFaulted
      simp only [hcore]
      refine ⟨_, rfl, ⟨hcalm, hidle, ?_⟩, .inr ⟨rfl, ?_, honly, ?_, ?_, by simp⟩⟩
      · rw [hroot]; exact h.root
      · intro other found hends hfound
        rw [show id = other from some.inj hends] at htask
        rw [htask, some.injEq] at hfound
        rw [← hfound]; exact hchildren
      · intro serial hmem
        rw [hran]; exact mem_append_right _ hmem
      · intro other found hends hfound
        rw [← show id = other from some.inj hends] at hfound ⊢
        rw [htask, some.injEq] at hfound
        refine ⟨hself, ?_⟩
        intro cleanup hmem
        rw [hran, hfound]; exact mem_append_left _ (mem_map_of_mem hmem)

theorem load_descend {other : Nat} : load core [(other, false)] < load core [] := by
  have hsame : effort (view Task.links core.tasks) (core.next + 1) [(other, false)] =
      effort (view Task.links core.tasks) (core.next + 1) [] := by
    simp [effort]
  simp [load, hsame]

theorem load_lt {core' : Core} {pending' : List (Nat × Bool)} (hcons : pending ≠ [])
    (h : effort (view Task.links core'.tasks) (core'.next + 1) pending' <
      effort (view Task.links core.tasks) (core.next + 1) pending) :
    load core' pending' < load core pending := by
  unfold load
  split <;> omega

/-- One turn: a task is expanded, a task is removed, or the cancellation is over. -/
theorem Cancelling.advance (h : Cancelling core pending after) (hroom : core.next + 1 < 2 ^ 64)
    (first : Option String) {mode : Mode} {s' : System}
    (hstep : advance ⟨core, mode⟩ pending first after = s') :
    Holds s' ∧ ((∃ pending' first', s'.mode = .cancelling pending' first' after ∧
        Turns core pending after s'.core pending') ∨ Concludes core pending after s') := by
  unfold Tasks.advance at hstep
  cases pending with
  | nil =>
    obtain ⟨last, hok, hholds, hcases⟩ := h.conclude hroom first
    rw [hok] at hstep
    have hlast : last = s' := hstep
    rw [← hlast]
    refine ⟨hholds, hcases.imp_left ?_⟩
    intro hgoes
    obtain ⟨hcore, other, hmode⟩ := hgoes
    have hsame : Felled core [] core [] := Felled.rfl'
    refine ⟨_, _, hmode, ?_⟩
    rw [hcore]
    exact ⟨⟨hsame.kept, hsame.spent, by simp, hsame.more⟩, rfl, load_descend⟩
  | cons entry rest =>
    obtain ⟨id, expanded⟩ := entry
    obtain ⟨task, hid, _⟩ := h.top
    have hlive : core.task id = .ok task := by
      unfold Core.task
      rw [hid]; rfl
    have hlimit : id < core.next + 1 := Nat.lt_succ_of_le (h.sound.limit hid)
    cases expanded with
    | false =>
      dsimp only at hstep
      rw [hlive] at hstep
      rw [← hstep]
      exact ⟨h.expand hid, .inl ⟨_, _, rfl, felled_expand, rfl,
        load_lt (by simp) (effort_expand h.traversal (view_some hid) hlimit)⟩⟩
    | true =>
      obtain ⟨retired, hok, hnext, hremoved⟩ := (h.retire hid first).returns faultless_retire
      dsimp only at hstep
      rw [hok] at hstep
      rw [← hstep]
      refine ⟨hnext, .inl ⟨_, _, rfl, hremoved.felled hid, hremoved.next, load_lt (by simp) ?_⟩⟩
      show effort (view Task.links retired.1.tasks) (retired.1.next + 1) rest < _
      rw [hremoved.next]
      refine effort_remove (view_some hid) hlimit (view_none hremoved.gone) ?_
      intro other hother
      cases hlost : core.tasks other with
      | some => simp [view, hlost]
      | none => simp [view, hremoved.only hlost] at hother

end

/-! ## Runs -/

section
variable {s s' : System}

theorem promised_room {event : Event} (h : promised s event = true) :
    s.core.next + 1 < 2 ^ 64 := by
  unfold promised at h
  rw [Bool.and_eq_true] at h; exact of_decide_eq_true h.1

theorem Acting.perform (h : Acting s) {operation : Operation}
    (hpromised : promised s (.operation operation) = true) :
    Holds (Tasks.conclude s (Tasks.perform s.core operation)) := by
  have hroom := promised_room hpromised
  unfold promised at hpromised
  rw [Bool.and_eq_true] at hpromised
  exact h.conclude (safe_perform h.1 hroom hpromised.2)

theorem holds_step {event : Event} (h : Holds s) (hpromised : promised s event = true)
    (hstep : step s event = some s') : Holds s' := by
  have hroom := promised_room hpromised
  unfold step at hstep
  cases hmode : s.mode with
  | constructing =>
    have hacting : Acting s := by
      unfold Holds at h
      rw [hmode] at h; exact h
    rw [hmode] at hstep
    cases event with
    | operation operation =>
      cases hstep
      exact hacting.perform hpromised
    | drain child suppress =>
      cases hstep
      exact hacting.drain child suppress
    | cancelBegin child =>
      cases hstep
      exact hacting.cancelBegin child
    | fault message =>
      cases hstep
      exact hacting.raise message
    | constructed root =>
      dsimp only at hstep
      split at hstep
      · rename_i hroot
        cases hstep
        obtain ⟨hcalm, ⟨_, hcurrent⟩ | ⟨hother, _⟩⟩ := hacting
        · exact ⟨hcalm, hcurrent, by rw [hroot]; simp⟩
        · exact absurd (hmode.symm.trans hother) (by simp)
      · cases hstep
        exact hacting.raise _
    | _ => cases hstep
  | resumed =>
    have hacting : Acting s := by
      unfold Holds at h
      rw [hmode] at h; exact h
    rw [hmode] at hstep
    cases event with
    | operation operation =>
      cases hstep
      exact hacting.perform hpromised
    | drain child suppress =>
      cases hstep
      exact hacting.drain child suppress
    | cancelBegin child =>
      cases hstep
      exact hacting.cancelBegin child
    | fault message =>
      cases hstep
      exact hacting.raise message
    | returns status =>
      cases hstep
      unfold promised at hpromised
      rw [Bool.and_eq_true] at hpromised
      exact hacting.returns hmode hroom (isEmpty_iff.mp hpromised.2) status
    | _ => cases hstep
  | driving =>
    unfold Holds at h
    rw [hmode] at h hstep
    obtain ⟨hcalm, hcurrent, hroot⟩ := h
    cases event with
    | notify owner registration =>
      cases hstep
      exact holds_notify hcalm hcurrent hroot owner registration
    | pollFails message =>
      obtain ⟨root, hrooted⟩ := ne_none_iff_exists'.mp hroot
      simp only [hrooted] at hstep
      cases hstep
      exact hcalm.stop hcurrent hrooted
    | next =>
      cases hstep
      exact holds_next hcalm hcurrent hroot
    | _ => cases hstep
  | cancelling pending first after =>
    unfold Holds at h
    rw [hmode] at h hstep
    cases event with
    | advance =>
      have hnext : Tasks.advance ⟨s.core, s.mode⟩ pending first after = s' := some.inj hstep
      exact (h.advance hroom first hnext).1
    | _ => cases hstep
  | finished =>
    rw [hmode] at hstep
    cases hstep
  | fatal =>
    rw [hmode] at hstep
    cases hstep

theorem holds_start : Holds System.start := by
  refine Acting.holds ⟨⟨forest_empty, ?_, ?_, begun_nil, ?_, ?_, ?_, ?_, ?_, ?_⟩, .inl ⟨rfl, rfl⟩⟩
  · exact ⟨nofun, nofun⟩
  · exact ⟨nofun, nofun⟩
  · exact ⟨nofun, nofun, nofun, nofun, nofun, nofun, nofun⟩
  · exact ⟨nofun, nofun, nofun, tally_empty.symm⟩
  · exact ⟨nofun, nofun⟩
  · intro serial
    show 0 + 0 + tally (Task.owed serial) (fun _ => none) 1 = _
    rfl
  · exact ⟨nofun, nofun⟩
  · exact ⟨nofun, nofun, nofun, nofun⟩

theorem holds_reached (h : Reaches step promised System.start s) : Holds s :=
  h.invariant Holds holds_start holds_step

end

/-! ## What holds of the tasks -/

/-- A cancellation is removing or ending the task. -/
def Leaving (s : System) (id : Nat) : Prop :=
  ∃ pending first after, s.mode = .cancelling pending first after ∧ Spared pending after id

/-- `loom_rt_task_cancel_begin` is working on the task. -/
def Claiming (s : System) (id : Nat) : Prop :=
  ∃ pending first, s.mode = .cancelling pending first (.cancelled id)

/-- A registered external wait that is not ready. -/
def outstanding (entry : Option Task) : Bool :=
  match entry with
  | some task => task.external.any fun wait => !wait.ready
  | none => false

/-- What holds of the scheduler in every state. -/
structure Scheduled (s : System) : Prop where
  safe : ∀ message, s.mode ≠ .fatal message
  forest : Forest (view Task.links s.core.tasks)
  issued : ∀ {id task}, s.core.tasks id = some task → id ≤ s.core.next
  queued : ∀ {id task}, s.core.tasks id = some task → task.state = .queued →
    s.core.ready.count id = 1
  others : ∀ {id task}, s.core.tasks id = some task → task.state ≠ .queued → id ∈ s.core.ready →
    id ∈ s.core.begun ∧ task.state.terminalOrder ≠ none
  pending : s.core.pending =
    ((Finset.range (s.core.next + 1)).filter fun id => outstanding (s.core.tasks id)).card
  distinct : ∀ {id other task task' order}, s.core.tasks id = some task →
    s.core.tasks other = some task' → task.state.terminalOrder = some order →
    task'.state.terminalOrder = some order → id = other
  /-- A task that waits for a child is the waiter of that child, which is not finished. -/
  waiting : ∀ {id task child}, s.core.tasks id = some task → task.state = .waiting child →
    ¬Leaving s id → ∃ task', s.core.tasks child = some task' ∧ task'.parent = some id ∧
      task'.waiter = some id ∧ task'.state.terminalOrder = none
  /-- The waiter of an unfinished task is its parent, and waits for it or observes it. -/
  waiter : ∀ {id task parent}, s.core.tasks id = some task → task.waiter = some parent →
    task.parent = some parent ∧ (task.state.terminalOrder = none → ¬Claiming s id →
      ∃ owner, s.core.tasks parent = some owner ∧
        (owner.state = .waiting id ∨ contains owner id = true))
  /-- An observer is the waiter of what it observes, and has a notification of each that is
  finished. -/
  observed : ∀ {id task child}, s.core.tasks id = some task → contains task child = true →
    ∃ task', s.core.tasks child = some task' ∧ task'.waiter = some id ∧
      ∀ order, task'.state.terminalOrder = some order →
        (order, child) ∈ (task.observation.getD .default).ready
  observing : ∀ {id task}, s.core.tasks id = some task → task.state = .observing →
    ¬Leaving s id → (task.observation.getD .default).ready = [] ∧
      ∃ child, contains task child = true
  parked : ∀ {id task}, s.core.tasks id = some task → task.state = .externalWaiting →
    ¬Leaving s id → outstanding (some task) = true
  /-- A registered cleanup has run, was taken without running, or is still registered. -/
  cleanups : ∀ serial, s.core.ran.count serial + s.core.retired.count serial +
    tally (Task.owed serial) (view Task.cleanups s.core.tasks) (s.core.next + 1) =
      if serial < s.core.pushes then 1 else 0
  /-- While the root is not finished, a task can be resumed or a wait is pending. -/
  progress : s.mode = .driving → ∀ {root task}, s.core.root = some root →
    s.core.tasks root = some task → task.state.terminalOrder = none →
    s.core.pending ≠ 0 ∨ ∃ id ∈ s.core.ready, ∃ task', s.core.tasks id = some task' ∧
      task'.state = .queued

section
variable {s s' : System} {core : Core}

theorem unready_outstanding (entry : Option Task) :
    weight unready (entry.map Task.parking) = if outstanding entry then 1 else 0 := by
  cases entry <;> rfl

theorem tally_outstanding (tasks : Nat → Option Task) (limit : Nat) :
    tally unready (view Task.parking tasks) limit =
      ((Finset.range limit).filter fun id => outstanding (tasks id)).card := by
  rw [Finset.card_filter]
  apply Finset.sum_congr rfl
  intro id _; exact unready_outstanding (tasks id)

theorem Sound.scheduled {exempt : Nat → Prop} {target : Option Nat} {stopped : Prop}
    (h : Sound s.core exempt target stopped) (hsafe : ∀ message, s.mode ≠ .fatal message)
    (hleaving : ∀ id, exempt id → Leaving s id) (hclaiming : ∀ id, target = some id → Claiming s id)
    (hcalm : s.mode = .driving → Calm s.core ∧ s.core.current = none) : Scheduled s := by
  refine ⟨hsafe, h.forest, h.limit, ?_, ?_, ?_, ?_, ?_, ?_, ?_, ?_, ?_, h.paid, ?_⟩
  · intro id task hid hstate
    refine h.queue.queued ?_
    rw [view_some hid, hstate]
  · intro id task hid hstate hmem
    have hbegun := h.queue.only (view_some hid) hstate hmem
    exact ⟨hbegun, (h.begunWaiter hid hbegun).2⟩
  · rw [h.externals.pending, tally_outstanding]
  · intro id other task task' order hid hother horder horder'
    exact h.stamps.distinct (view_some hid) (view_some hother) horder horder'
  · intro id task child hid hstate hnot
    obtain ⟨_, bond, hbond, hparent, hwaiter, hopen⟩ :=
      h.waits.waiting (view_some hid) hstate (fun hexempt => hnot (hleaving id hexempt))
    obtain ⟨task', htask', hsame⟩ := view_eq_some.mp hbond
    rw [← hsame] at hparent hwaiter hopen
    exact ⟨task', htask', hparent, hwaiter, hopen⟩
  · intro id task parent hid hwaiter
    refine ⟨h.waits.waiter (view_some hid) hwaiter, ?_⟩
    intro hopen hnot
    obtain ⟨bond, hbond, hcases⟩ := h.waits.asked (view_some hid) hwaiter hopen
      (fun htarget => hnot (hclaiming id htarget))
    obtain ⟨owner, howner, hsame⟩ := view_eq_some.mp hbond
    rw [← hsame] at hcases
    exact ⟨owner, howner, hcases.imp_right contains_iff.mpr⟩
  · intro id task child hid hmem
    have hmember := contains_iff.mp hmem
    obtain ⟨bond, hbond, hwaiter⟩ := h.waits.member (view_some hid) hmember
    obtain ⟨task', htask', hsame⟩ := view_eq_some.mp hbond
    rw [← hsame] at hwaiter
    refine ⟨task', htask', hwaiter, ?_⟩
    intro order horder
    exact (h.waits.notified (view_some hid)).mpr
      ⟨hmember, task'.bond, view_some htask', horder⟩
  · intro id task hid hstate hnot
    obtain ⟨hready, hmembers⟩ :=
      h.waits.observing (view_some hid) hstate (fun hexempt => hnot (hleaving id hexempt))
    obtain ⟨child, hchild⟩ := exists_mem_of_ne_nil _ hmembers
    exact ⟨hready, child, contains_iff.mpr hchild⟩
  · intro id task hid hstate hnot
    have hunready := h.externals.waits (view_some hid) hstate
      (fun hexempt => hnot (hleaving id hexempt))
    have hweight := unready_outstanding (some task)
    rw [show weight unready (Option.map Task.parking (some task)) = 1 from hunready] at hweight
    by_contra hnone
    rw [if_neg hnone] at hweight; simp at hweight
  · intro hmode root task _ hroot hopen
    obtain ⟨hall, hcurrent⟩ := hcalm hmode
    by_cases hdead : ∀ id ∈ s.core.ready, s.core.tasks id = none
    · exact .inl (resumes hall hcurrent hroot hopen hdead)
    · right
      push Not at hdead
      obtain ⟨id, hmem, hlive⟩ := hdead
      obtain ⟨task', htask'⟩ := ne_none_iff_exists'.mp hlive
      refine ⟨id, hmem, task', htask', ?_⟩
      by_contra hother
      have hbegun := hall.queue.only (view_some htask') hother hmem
      rw [begun_of_idle hall hcurrent] at hbegun; simp at hbegun

theorem Ceased.scheduled (h : Ceased s.core) {failure : Option String}
    (hmode : s.mode = .finished failure) : Scheduled s := by
  have hnone : ∀ {id : Nat} {task : Task}, s.core.tasks id = some task → False := by
    intro id task hid; exact absurd ((h.gone id).symm.trans hid) (by simp)
  have hempty : s.core.tasks = fun _ => none := funext h.gone
  refine ⟨by simp [hmode], ?_, fun hid => (hnone hid).elim, fun hid => (hnone hid).elim,
    fun hid => (hnone hid).elim, ?_, fun hid => (hnone hid).elim, fun hid => (hnone hid).elim,
    fun hid => (hnone hid).elim, fun hid => (hnone hid).elim, fun hid => (hnone hid).elim,
    fun hid => (hnone hid).elim, h.paid, by simp [hmode]⟩
  · rw [hempty]; exact forest_empty
  · rw [h.pending, hempty]; simp [outstanding]

theorem Holds.scheduled (h : Holds s) : Scheduled s := by
  unfold Holds at h
  cases hmode : s.mode with
  | constructing =>
    rw [hmode] at h
    exact h.1.scheduled (by simp [hmode]) (fun _ hfalse => hfalse.elim) nofun (by simp [hmode])
  | resumed =>
    rw [hmode] at h
    exact h.1.scheduled (by simp [hmode]) (fun _ hfalse => hfalse.elim) nofun (by simp [hmode])
  | driving =>
    rw [hmode] at h
    exact h.1.scheduled (by simp [hmode]) (fun _ hfalse => hfalse.elim) nofun
      (fun _ => ⟨h.1, h.2.1⟩)
  | cancelling pending first after =>
    rw [hmode] at h
    refine h.sound.scheduled (by simp [hmode]) (fun id hspared => ⟨_, _, _, hmode, hspared⟩) ?_
      (by simp [hmode])
    intro id htarget
    cases after with
    | cancelled child => exact ⟨_, _, by rw [hmode, some.inj htarget]⟩
    | _ => exact absurd htarget (by simp [After.target])
  | finished failure =>
    rw [hmode] at h; exact h.scheduled hmode
  | fatal =>
    rw [hmode] at h; exact h.elim

end

/-! ## A whole cancellation -/

/-- The tasks a cancellation is for: those below an entry of its stack, and those
strictly below the task that is ended. -/
def Doomed (core : Core) (pending : List (Nat × Bool)) (after : After) (id : Nat) : Prop :=
  (∃ top ∈ pending.map Prod.fst, Below (view Task.links core.tasks) top id) ∨
    ∃ top, after.ends = some top ∧ id ≠ top ∧ Below (view Task.links core.tasks) top id

def Idle (s : System) : Prop := ∀ pending first after, s.mode ≠ .cancelling pending first after

/-- Only the cancellation goes on. -/
def cancels (s : System) (event : Event) : Bool := decide (event = .advance) && promised s event

/-- The tasks are gone, the one that is ended is finished, and their cleanups have run. -/
structure Cleared (core : Core) (pending : List (Nat × Bool)) (after : After) (s' : System) :
    Prop where
  gone : ∀ {id}, Doomed core pending after id → s'.core.tasks id = none
  ended : ∀ {id}, after.ends = some id → Idle s' ∧
    ∃ task, s'.core.tasks id = some task ∧ task.state.terminalOrder ≠ none
  ran : ∀ {id task}, Doomed core pending after id ∨ after.ends = some id →
    core.tasks id = some task → ∀ cleanup ∈ task.cleanups, cleanup.serial ∈ s'.core.ran

section
variable {s s' s'' : System} {core : Core} {pending : List (Nat × Bool)} {after : After}
  {first : Option String}

/-- A turn creates no task, and takes back no cleanup. -/
theorem turn_monotone
    (hcases : (∃ pending' first', s'.mode = .cancelling pending' first' after ∧
      Turns core pending after s'.core pending') ∨ Concludes core pending after s') :
    (∀ {id}, core.tasks id = none → s'.core.tasks id = none) ∧
      ∀ serial ∈ core.ran, serial ∈ s'.core.ran := by
  obtain ⟨_, _, _, hturns⟩ | hends := hcases
  · refine ⟨?_, hturns.felled.more⟩
    intro id hnone
    by_contra hlive
    obtain ⟨task', htask'⟩ := ne_none_iff_exists'.mp hlive
    obtain ⟨task, htask, _⟩ := hturns.felled.kept htask'
    exact absurd (hnone.symm.trans htask) (by simp)
  · exact ⟨hends.only, hends.more⟩

/-- The end of a cancellation, from its beginning. -/
theorem Concludes.cleared {core' : Core} {pending' : List (Nat × Bool)}
    (hends : Concludes core' pending' after s') (hfelled : Felled core pending core' pending')
    (h : Cancelling core' pending' after) : Cleared core pending after s' := by
  have hempty := hends.empty
  rw [hempty] at hfelled h
  -- the task to end is there until the end, with the cleanups it had
  have hself : ∀ {id}, after.ends = some id → ∃ task', core'.tasks id = some task' := by
    intro id hsome
    have hstage := h.stage
    cases after with
    | drained => exact absurd hsome (by simp [After.ends])
    | stopped => exact absurd hsome (by simp [After.ends])
    | cancelled child =>
      obtain ⟨_, _, task, hclaimed, _⟩ := hstage
      rw [← show child = id from some.inj hsome]
      exact ⟨task, hclaimed.family.held⟩
    | faulted child =>
      rw [← show child = id from some.inj hsome]
      obtain ⟨task, htask, _⟩ := h.sound.acting hstage
      exact ⟨task, htask⟩
  have hgone : ∀ {id}, Doomed core pending after id → core'.tasks id = none := by
    intro id hdoomed
    obtain ⟨top, hmem, hbelow⟩ | ⟨top, hsome, hne, hbelow⟩ := hdoomed
    · exact hfelled.cleared h.sound.forest hmem hbelow
    · by_contra hlive
      obtain ⟨task', htask'⟩ := ne_none_iff_exists'.mp hlive
      obtain ⟨owner, howner⟩ := hself hsome
      have hleft := hfelled.below h.sound.forest hbelow htask'
      exact hne (hleft.eq_of_leaf h.sound.forest (view_some howner) (hends.leaf hsome howner))
  refine ⟨fun hdoomed => hends.only (hgone hdoomed), ?_, ?_⟩
  · intro id hsome
    obtain ⟨task, htask⟩ := hself hsome
    refine ⟨?_, (hends.ended hsome htask).1⟩
    intro pending'' first'' after'' hmode
    obtain ⟨_, _, ⟨suppress, hdrained⟩, _⟩ := hends.again hmode
    rw [hdrained] at hsome; exact absurd hsome (by simp [After.ends])
  · intro id task hcases hid cleanup hmem
    obtain hdoomed | hsome := hcases
    · exact hends.more _ (hfelled.spent hid (hgone hdoomed) cleanup hmem)
    · obtain ⟨task', htask'⟩ := hself hsome
      obtain ⟨found, hfound, _, howed⟩ := hfelled.kept htask'
      rw [hid, some.injEq] at hfound
      rw [hfound, ← howed] at hmem
      exact (hends.ended hsome htask').2 cleanup hmem

theorem cancels_advance {event : Event} (h : cancels s event = true) :
    event = .advance ∧ promised s event = true := by
  unfold cancels at h
  rw [Bool.and_eq_true] at h; exact ⟨of_decide_eq_true h.1, h.2⟩

/-- During a cancellation, what has been done since it began; later, what it did. -/
theorem cancellation_so_far (hmode : s.mode = .cancelling pending first after) (hholds : Holds s)
    (h : Reaches step cancels s s') :
    Holds s' ∧ ((∃ pending' first', s'.mode = .cancelling pending' first' after ∧
      Felled s.core pending s'.core pending') ∨ Cleared s.core pending after s') := by
  refine h.invariant (fun s' => Holds s' ∧ ((∃ pending' first',
    s'.mode = .cancelling pending' first' after ∧ Felled s.core pending s'.core pending') ∨
      Cleared s.core pending after s')) ⟨hholds, .inl ⟨_, _, hmode, Felled.rfl'⟩⟩ ?_
  intro state state' event hstate hcancels hstep
  obtain ⟨hevent, hpromised⟩ := cancels_advance hcancels
  have hroom := promised_room hpromised
  refine ⟨holds_step hstate.1 hpromised hstep, ?_⟩
  have hnow : ∀ {pending' first' after'}, state.mode = .cancelling pending' first' after' →
      Cancelling state.core pending' after' ∧
      ((∃ pending'' first'', state'.mode = .cancelling pending'' first'' after' ∧
        Turns state.core pending' after' state'.core pending'') ∨
        Concludes state.core pending' after' state') := by
    intro pending' first' after' hnow
    have hcancelling : Cancelling state.core pending' after' := by
      have hold := hstate.1
      unfold Holds at hold
      rw [hnow] at hold; exact hold
    refine ⟨hcancelling, ?_⟩
    unfold step at hstep
    rw [hnow, hevent] at hstep
    have hnext : Tasks.advance ⟨state.core, state.mode⟩ pending' first' after' = state' := by
      simpa using hstep
    exact (hcancelling.advance hroom first' hnext).2
  obtain ⟨pending', first', hgoes, hfelled⟩ | hcleared := hstate.2
  · obtain ⟨hcancelling, ⟨pending'', first'', hmode', hturns⟩ | hends⟩ := hnow hgoes
    · exact .inl ⟨pending'', first'', hmode', hfelled.trans hturns.felled⟩
    · exact .inr (hends.cleared hfelled hcancelling)
  · right
    cases hcase : state.mode with
    | cancelling pending' first' after' =>
      obtain ⟨honly, hmore⟩ := turn_monotone (hnow hcase).2
      refine ⟨fun hdoomed => honly (hcleared.gone hdoomed), ?_, ?_⟩
      · intro id hsome; exact absurd hcase ((hcleared.ended hsome).1 _ _ _)
      · intro id task hcases' hid cleanup hmem
        exact hmore _ (hcleared.ran hcases' hid cleanup hmem)
    | _ =>
      unfold step at hstep
      rw [hcase, hevent] at hstep
      cases hstep

/-- What is left to do: the load, and the fault of a drain after it. -/
def remaining (core : Core) (pending : List (Nat × Bool)) : After → Nat
  | .drained _ => load core pending + 1
  | _ => load core pending

theorem cancellation_ends (hmode : s.mode = .cancelling pending first after) (hholds : Holds s)
    (hroom : s.core.next + 1 < 2 ^ 64) : ∃ s', Reaches step cancels s s' ∧ Idle s' := by
  have hgoes : ∀ left : Nat, ∀ {state : System} {pending' : List (Nat × Bool)}
      {first' : Option String} {after' : After}, Reaches step cancels s state →
      state.mode = .cancelling pending' first' after' → Holds state →
      state.core.next + 1 < 2 ^ 64 → remaining state.core pending' after' = left →
      ∃ s', Reaches step cancels s s' ∧ Idle s' := by
    intro left
    induction left using Nat.strong_induction_on with
    | _ left ih =>
      intro state pending' first' after' hreach hnow hstate hstill hleft
      have hcancelling : Cancelling state.core pending' after' := by
        have hold := hstate
        unfold Holds at hold
        rw [hnow] at hold; exact hold
      have hadvance := hcancelling.advance hstill first'
        (show Tasks.advance ⟨state.core, state.mode⟩ pending' first' after' =
          Tasks.advance state pending' first' after' from rfl)
      have hcancels : cancels state .advance = true := by
        simp only [cancels, promised, decide_eq_true hstill]; rfl
      have hstep : step state .advance = some (Tasks.advance state pending' first' after') := by
        unfold step
        rw [hnow]
      have hreach' := Reaches.next hreach hcancels hstep
      obtain ⟨hholds', ⟨pending'', first'', hmode', hturns⟩ | hends⟩ := hadvance
      · refine ih _ ?_ hreach' hmode' hholds' (by rw [hturns.next]; exact hstill) rfl
        have hcloser := hturns.closer
        rw [← hleft]
        cases after' <;> simp only [remaining] <;> omega
      · by_cases hidle : Idle (Tasks.advance state pending' first' after')
        · exact ⟨_, hreach', hidle⟩
        · unfold Idle at hidle
          push Not at hidle
          obtain ⟨pending'', first'', after'', hmode'⟩ := hidle
          obtain ⟨hcore, hempty, ⟨suppress, hdrained⟩, id, failure, hfaulted⟩ := hends.again hmode'
          refine ih _ ?_ hreach' hmode' hholds' (by rw [hcore]; exact hstill) rfl
          rw [← hleft, hcore, hempty, hends.empty, hdrained, hfaulted]
          exact Nat.lt_succ_self _
  exact hgoes _ .start hmode hholds hroom rfl

theorem Holds.paid (h : Holds s) : ∀ serial, s.core.ran.count serial ≤ 1 := by
  intro serial
  have haccount := h.scheduled.cleanups serial
  split at haccount <;> omega

end

/-! ## The scheduler -/

/-- A cancellation ends, and then what it was for is gone or finished; each of the
cleanups there has run once. -/
structure Clears (s : System) (pending : List (Nat × Bool)) (after : After) : Prop where
  ends : ∃ s', Reaches step cancels s s' ∧ Idle s'
  gone : ∀ {s' id}, Reaches step cancels s s' → Idle s' → Doomed s.core pending after id →
    s'.core.tasks id = none
  ended : ∀ {s' id}, Reaches step cancels s s' → Idle s' → after.ends = some id →
    ∃ task, s'.core.tasks id = some task ∧ task.state.terminalOrder ≠ none
  once : ∀ {s' id task}, Reaches step cancels s s' → Idle s' →
    Doomed s.core pending after id ∨ after.ends = some id → s.core.tasks id = some task →
    ∀ cleanup ∈ task.cleanups, s'.core.ran.count cleanup.serial = 1

theorem Holds.clears {s : System} {pending : List (Nat × Bool)} {after : After}
    {first : Option String} (h : Holds s) (hmode : s.mode = .cancelling pending first after)
    (hroom : s.core.next + 1 < 2 ^ 64) : Clears s pending after := by
  have hcleared : ∀ {s'}, Reaches step cancels s s' → Idle s' → Cleared s.core pending after s' := by
    intro s' hreach hidle
    obtain ⟨_, ⟨_, _, hgoes, _⟩ | hdone⟩ := cancellation_so_far hmode h hreach
    · exact absurd hgoes (hidle _ _ _)
    · exact hdone
  refine ⟨cancellation_ends hmode h hroom, fun hreach hidle => (hcleared hreach hidle).gone,
    fun hreach hidle hends => ((hcleared hreach hidle).ended hends).2, ?_⟩
  intro s' id task hreach hidle hcases hid cleanup hmem
  have hran := (hcleared hreach hidle).ran hcases hid cleanup hmem
  have hmost := (cancellation_so_far hmode h hreach).1.paid cleanup.serial
  have hleast := count_pos_iff.mpr hran
  omega

/-- In every state of a promised run the scheduler's links, queue, waits and accounts
agree, and a cancellation that is going on clears what it is for. -/
theorem scheduler_consistent {s : System} (h : Reaches step promised System.start s) :
    Scheduled s ∧ ∀ pending first after, s.mode = .cancelling pending first after →
      s.core.next + 1 < 2 ^ 64 → Clears s pending after :=
  ⟨(holds_reached h).scheduled, fun _ _ _ hmode hroom => (holds_reached h).clears hmode hroom⟩

/-- A child with a cleanup and a child of its own is cancelled by the entry task. -/
theorem scheduler_consistent_cancelled : ∃ s, Scheduled s ∧ Clears s [] (.cancelled 2) ∧
    (s.core.tasks 3).isSome = true := by
  have hrun : (run step promised System.start [.operation (.create ""), .constructed 1, .next,
      .operation (.create ""), .operation (.waitSource ⟨0, 0, 0, 0⟩ true), .returns 1, .next,
      .operation (.cleanupPush 0 none), .operation (.create ""),
      .operation (.waitSource ⟨0, 0, 0, 0⟩ true), .returns 1, .notify 1 0, .next,
      .operation (.waitSource ⟨0, 0, 0, 0⟩ true), .returns 1, .next,
      .operation (.waitSource ⟨0, 0, 0, 0⟩ true), .cancelBegin 2]).map (fun s : System =>
        decide (s.mode = .cancelling [] none (.cancelled 2)) && (s.core.tasks 3).isSome &&
          decide (s.core.next < 4)) = some true := by
    decide
  obtain ⟨s, hreach, htest⟩ := reaches_with _ hrun
  simp only [Bool.and_eq_true, decide_eq_true_eq] at htest
  obtain ⟨⟨hmode, hgrandchild⟩, hnext⟩ := htest
  obtain ⟨hscheduled, hclears⟩ := scheduler_consistent hreach
  exact ⟨s, hscheduled, hclears _ _ _ hmode (by omega), hgrandchild⟩

/-- Outside the promise: a child is cancelled while it is queued and not released, and its
entry in the queue stops the scheduler. -/
theorem scheduler_stops : ¬∀ s, Reaches step always System.start s → Scheduled s := by
  have hrun : (run step always System.start [.operation (.create ""), .constructed 1, .next,
      .operation (.create ""), .cancelBegin 2, .advance, .operation (.create ""),
      .operation (.await 4), .returns 1, .next]).map (fun s : System =>
        decide (s.mode = .fatal "invalid ready task state")) = some true := by
    decide
  intro hall
  obtain ⟨s, hreach, htest⟩ := reaches_with _ hrun
  exact (hall s hreach).safe _ (of_decide_eq_true htest)

end Loom.Tasks

import Loom.Runtime.TaskOperations

/-
  The ends of tasks keep the invariant: a task that finishes and wakes its
  waiter, a child whose cancellation is done, a task that a cancellation removes.
-/

namespace Loom.Tasks

open Faults Tables Forests

section
variable {core : Core} {exempt exempt' : Nat → Prop} {target : Option Nat} {stopped : Prop}
  {id parent : Nat} {task owner : Task}

/-- Only live tasks need an exemption. -/
theorem Sound.excuse (h : Sound core exempt target stopped)
    (hless : ∀ {other task}, core.tasks other = some task → exempt other → exempt' other) :
    Sound core exempt' target stopped := by
  obtain ⟨hforest, hqueue, hissued, hbegun, hwaits, hexternals, hstamps, hpaid, hcurrents, htops⟩ := h
  refine ⟨hforest, hqueue, hissued, hbegun, ?_, ?_, hstamps, hpaid, hcurrents, htops⟩
  · refine ⟨?_, hwaits.waiter, hwaits.asked, hwaits.member, hwaits.notified, hwaits.unique, ?_⟩
    · intro other bond child hother hstate hnot
      obtain ⟨task, htask, _⟩ := view_eq_some.mp hother
      exact hwaits.waiting hother hstate (fun hin => hnot (hless htask hin))
    · intro other bond hother hstate hnot
      obtain ⟨task, htask, _⟩ := view_eq_some.mp hother
      exact hwaits.observing hother hstate (fun hin => hnot (hless htask hin))
  · refine ⟨hexternals.parked, ?_, hexternals.settled, hexternals.pending⟩
    intro other parking hother hstate hnot
    obtain ⟨task, htask, _⟩ := view_eq_some.mp hother
    exact hexternals.waits hother hstate (fun hin => hnot (hless htask hin))

/-! ## A task finishes -/

variable {state : Status}

theorem Sound.finishAlone (h : Sound core exempt target stopped) (hid : core.tasks id = some task)
    (horder : state.terminalOrder = some (core.next + 1)) (hexternal : task.external = none)
    (hleaf : task.parent = none → task.children = [] ∧ ∀ order, state ≠ .cancelled order)
    {current : Option Nat} {begun : List Nat}
    (hqueue : Queue (put (view Task.state core.tasks) id state) core.ready begun)
    (hbegun : Begun (put (view Task.bond core.tasks) id { task.bond with state := state }) current
      begun) (hwaits : Waits (put (view Task.bond core.tasks) id { task.bond with state := state })
      (fun _ => False) none)
    (hcurrents : Currents (put (view Task.state core.tasks) id state) current)
    (hless : ∀ other, exempt other → other = id) (hstopped : ¬stopped) : Calm { core with
      tasks := put core.tasks id { task with state := state }, next := core.next + 1,
      current := current, begun := begun } := by
  have hlive : state ≠ .externalWaiting := by
    intro hsame
    rw [hsame] at horder; exact absurd horder (by simp [Status.terminalOrder])
  have hparking : unready ({ task with state := state } : Task).parking = 0 := by
    rw [hexternal]; rfl
  refine ⟨?_, ?_, ?_, ?_, ?_, ?_, ?_, ?_, ?_, ?_⟩
  · rw [view_put_same hid (by rfl)]; exact h.forest
  · rw [view_put]; exact hqueue
  · rw [view_put]
    exact (h.issued.put (view_some hid) (fun _ hmem => .inl hmem)).succ
  · rw [view_put]; exact hbegun
  · rw [view_put]; exact hwaits
  · rw [view_put]
    refine Externals.put (h.externals.succ (view_none h.fresh)) (view_some hid)
      (Nat.le_succ_of_le (h.limit hid)) ?_ ?_ ?_ ?_ ?_
    · rw [hparking]; simp
    · intro hsame _; exact absurd hsame hlive
    · intro _; exact hexternal
    · have hnone : unready task.parking = 0 := by
        unfold Task.parking
        rw [hexternal]; rfl
      rw [hparking, hnone]
    · intro other hexempt; exact .inr (hless other hexempt)
  · rw [view_put]; exact h.stamps.finish horder
  · rw [view_put_same hid (by rfl)]; exact h.paid.succ (view_none h.fresh)
  · rw [view_put]; exact hcurrents
  · rw [view_put]
    have hedit : Tops (put (view Task.top core.tasks) id ({ task with state := state } : Task).top)
        core.root stopped :=
      h.tops.put (view_some hid) (by rfl) (h.closed hid) (fun hnone _ => hleaf hnone)
    exact ⟨hedit.top, fun hroot _ => hedit.rooted hroot hstopped, hedit.closed, hedit.leaf⟩

/-- How the parent of a finished task goes on: as it was, or queued. -/
def Wakes (core : Core) (parent : Nat) (owner owner' : Task) (ready : List Nat) : Prop :=
  owner'.state = owner.state ∧ ready = core.ready ∨
    owner'.state = .queued ∧ ready.Perm (parent :: core.ready) ∧
      (owner.state = .observing ∨ ∃ child, owner.state = .waiting child)

/-- A finished task whose parent waits for it or observes it. -/
theorem Sound.finishWaking (h : Sound core exempt target stopped) (hid : core.tasks id = some task)
    (hcurrent : core.current = some id) (hnone : core.begun = [])
    (horder : state.terminalOrder = some (core.next + 1)) (hexternal : task.external = none)
    (howner : core.tasks parent = some owner) (hne : parent ≠ id)
    (hparent : task.parent = some parent) {owner' : Task} {ready : List Nat}
    (hlinks : owner'.links = owner.links) (hcleanups : owner'.cleanups = owner.cleanups)
    (hsame : owner'.external = owner.external) (hreturned : owner'.returned = owner.returned)
    (hwakes : Wakes core parent owner owner' ready)
    (hwaits : Waits (put (put (view Task.bond core.tasks) id { task.bond with state := state })
      parent owner'.bond) (fun _ => False) none) (hless : ∀ other, exempt other → other = id)
    (hstopped : ¬stopped) : Calm { core with
      tasks := put (put core.tasks id { task with state := state }) parent owner',
      next := core.next + 1, current := none, ready := ready } := by
  obtain ⟨hqueued, hopen⟩ := h.acts hcurrent hid
  have hstate : state ≠ .queued ∧ state ≠ .running ∧ state ≠ .externalWaiting := by
    refine ⟨?_, ?_, ?_⟩ <;> intro hsame <;> rw [hsame] at horder <;>
      exact absurd horder (by simp [Status.terminalOrder])
  have howner' : put core.tasks id { task with state := state } parent = some owner := by
    rw [put_of_ne hne, howner]
  have hstates : view Task.state (put (put core.tasks id { task with state := state }) parent
      owner') = put (put (view Task.state core.tasks) id state) parent owner'.state := by
    rw [view_put, view_put]
  have hview : put (view Task.state core.tasks) id state parent = some owner.state :=
    (put_of_ne hne).trans (view_some howner)
  have hup : owner'.parent = owner.parent := congrArg Node.parent hlinks
  have hchildren : owner'.children = owner.children := congrArg Node.children hlinks
  -- the parent is where it was, or was not in the queue and is now
  have hfinished : Queue (put (view Task.state core.tasks) id state) core.ready core.begun :=
    h.queue.restate (view_some hid) hqueued hstate.1
  have hqueue : Queue (put (put (view Task.state core.tasks) id state) parent owner'.state) ready
      core.begun := by
    obtain ⟨hold, hready⟩ | ⟨hold, hready, hwas⟩ := hwakes
    · rw [hold, put_eq_self hview, hready]; exact hfinished
    · rw [hold]
      refine hfinished.push ?_ hready
      have hlive : owner.state ≠ .queued := by
        intro hbad
        obtain hobserve | ⟨child, hwait⟩ := hwas
        · rw [hbad] at hobserve; simp at hobserve
        · rw [hbad] at hwait; simp at hwait
      exact h.queue.notMem (view_some howner) hlive (by rw [hnone]; simp)
  have hlisted : ∀ other ∈ ready, other ∈ core.ready ∨ other = parent := by
    intro other hmem
    obtain ⟨_, hready⟩ | ⟨_, hready, _⟩ := hwakes
    · exact .inl (hready ▸ hmem)
    · obtain hsame | hin := List.mem_cons.mp (hready.mem_iff.mp hmem)
      · exact .inr hsame
      · exact .inl hin
  refine ⟨?_, ?_, ?_, ?_, ?_, ?_, ?_, ?_, ?_, ?_⟩
  · rw [view_put_same howner' hlinks, view_put_same hid (by rfl)]
    exact h.forest
  · rw [hstates]; exact hqueue
  · rw [hstates]
    exact ((h.issued.put (view_some hid) (fun _ hmem => .inl hmem)).put hview hlisted).succ
  · rw [hnone]; exact begun_nil
  · rw [view_put, view_put]; exact hwaits
  · rw [view_put, view_put]
    have hidle : ∀ parking : Parking, parking.external = none → unready parking = 0 := by
      intro parking hext
      unfold unready
      rw [hext]; rfl
    have hone : Externals (put (view Task.parking core.tasks) id
        ({ task with state := state } : Task).parking) (fun _ => False) core.pending
        (core.next + 1) := by
      refine Externals.put (h.externals.succ (view_none h.fresh)) (view_some hid)
        (Nat.le_succ_of_le (h.limit hid)) ?_ ?_ ?_ ?_ ?_
      · rw [hidle _ hexternal]; simp
      · intro hsame' _; exact absurd hsame' hstate.2.2
      · intro _; exact hexternal
      · rw [hidle _ hexternal, hidle _ hexternal]
      · intro other hexempt; exact .inr (hless other hexempt)
    have hcount : unready owner'.parking = unready owner.parking := by
      unfold unready Task.parking
      rw [hsame]
    have hparent' : put (view Task.parking core.tasks) id
        ({ task with state := state } : Task).parking parent = some owner.parking :=
      (put_of_ne hne).trans (view_some howner)
    obtain ⟨hold, _⟩ | ⟨hold, _, hwas⟩ := hwakes
    · have hpark : owner'.parking = owner.parking := by
        unfold Task.parking
        rw [hold, hsame]
      rw [hpark]; exact hone.same hparent'
    · have hzero : unready owner.parking ≠ 1 := by
        intro hunready
        have hext := h.externals.parked (view_some howner) hunready
        obtain hobserve | ⟨child, hwait⟩ := hwas
        · exact absurd (hobserve.symm.trans hext) (by simp)
        · exact absurd (hwait.symm.trans hext) (by simp)
      refine hone.put hparent' (Nat.le_succ_of_le (h.limit howner)) ?_ ?_ ?_ ?_
        (fun _ hexempt => .inl hexempt)
      · intro hunready; exact absurd (hcount ▸ hunready) hzero
      · intro hext _; exact absurd (hold.symm.trans hext) (by simp)
      · intro hend
        exact absurd (show owner'.state.terminalOrder = none by rw [hold]; rfl) hend
      · rw [hcount]
  · rw [hstates]
    obtain ⟨hold, _⟩ | ⟨hold, _⟩ := hwakes
    · rw [hold, put_eq_self hview]; exact h.stamps.finish horder
    · rw [hold]; exact (h.stamps.finish horder).restate rfl
  · rw [view_put_same howner' hcleanups, view_put_same hid (by rfl)]
    exact h.paid.succ (view_none h.fresh)
  · rw [hstates]
    refine ⟨?_, fun hsome => absurd hsome (by simp)⟩
    intro other hother
    have hrunning := @Currents.running _ _ h.currents other
    have hself := @Currents.running _ _ h.currents parent
    obtain ⟨hold, _⟩ | ⟨hold, _⟩ := hwakes <;> grind
  · rw [view_put, view_put]
    have hone : Tops (put (view Task.top core.tasks) id ({ task with state := state } : Task).top)
        core.root stopped := by
      refine h.tops.put (view_some hid) (by rfl) ?_ ?_
      · intro hbad; exact absurd (hparent.symm.trans hbad) (by simp)
      · intro hbad; exact absurd (hparent.symm.trans hbad) (by simp)
    have htwo : Tops (put (put (view Task.top core.tasks) id
        ({ task with state := state } : Task).top) parent owner'.top) core.root stopped := by
      refine hone.put ((put_of_ne hne).trans (view_some howner)) ?_ ?_ ?_
      · show owner'.parent = none ↔ owner.parent = none
        rw [hup]
      · intro hbad
        show owner'.returned = 0
        rw [hreturned]; exact h.closed howner (hup.symm.trans hbad)
      · intro hbad hend
        show owner'.children = [] ∧ ∀ order, owner'.state ≠ .cancelled order
        rw [hchildren]
        obtain ⟨hold, _⟩ | ⟨hold, _⟩ := hwakes
        · have hend' : owner.state.terminalOrder ≠ none := by
            rw [← hold]; exact hend
          rw [hold]; exact h.leaf howner (hup.symm.trans hbad) hend'
        · exact absurd (show owner'.state.terminalOrder = none by rw [hold]; rfl) hend
    exact ⟨htwo.top, fun hroot _ => htwo.rooted hroot hstopped, htwo.closed, htwo.leaf⟩

/-- The parent that a live task names waits for it or observes it. -/
theorem Sound.asked (h : Sound core exempt none stopped) (hid : core.tasks id = some task)
    (hopen : task.state.terminalOrder = none) (hwaiter : task.waiter = some parent) :
    task.parent = some parent ∧ parent ≠ id ∧ ∃ owner, core.tasks parent = some owner ∧
      (owner.state = .waiting id ∨ id ∈ owner.bond.members) := by
  have hparent : task.parent = some parent := h.waits.waiter (view_some hid) hwaiter
  obtain ⟨bond, hbond, hcases⟩ := h.waits.asked (view_some hid) hwaiter hopen (by simp)
  obtain ⟨owner, howner, hsame⟩ := view_eq_some.mp hbond
  rw [← hsame] at hcases
  exact ⟨hparent, (h.parent hid hparent).1.symm, owner, howner, hcases⟩

/-- What a finished task leaves behind. -/
structure Ended (core core' : Core) (id : Nat) : Prop where
  calm : Calm core'
  current : core'.current = none
  root : core'.root = core.root
  only : ∀ {other}, core.tasks other = none → core'.tasks other = none
  ran : core'.ran = core.ran
  self : ∃ task, core'.tasks id = some task ∧ task.state.terminalOrder ≠ none

section
variable (h : Sound core exempt none stopped) (hcurrent : core.current = some id)
  (hid : core.tasks id = some task) (hnone : core.begun = []) (hexternal : task.external = none)
  (hleaf : task.parent = none → task.children = [])
  (hlets : Lets (view Task.bond core.tasks) id task.bond)
  (hless : ∀ other, exempt other → other = id) (hstopped : ¬stopped)
include h hcurrent hid hnone hexternal hleaf hlets hless hstopped

/-- The current task takes the next stamp and wakes whoever waits for it. -/
theorem safe_wake (horder : state.terminalOrder = some (core.next + 1))
    (hkept : ∀ order, state ≠ .cancelled order) {priority : Bool} {finished : Task}
    (hfinished : finished = { task with state := state }) :
    Safe (fun core' => Ended core core' id)
      (wake ({ core with current := none, next := core.next + 1 }.put id finished)
        id finished priority) := by
  obtain ⟨hqueued, hopen⟩ := h.acts hcurrent hid
  have hterminal : state.terminalOrder ≠ none := by
    rw [horder]; simp
  have hrunning : state ≠ .queued ∧ state ≠ .running := by
    constructor <;> intro hsame <;> rw [hsame] at horder <;>
      exact absurd horder (by simp [Status.terminalOrder])
  have hasks : finished.waiter = task.waiter := by rw [hfinished]
  have hstamp : finished.state.terminalOrder = some (core.next + 1) := by
    rw [hfinished]; exact horder
  have hthere : ∀ {other : Nat} {seen : Task}, core.tasks other = none →
      put core.tasks id seen other = none := put_none hid
  unfold wake
  cases hwaiter : finished.waiter with
  | none =>
    rw [hwaiter] at hasks
    rw [hfinished]
    refine ⟨h.finishAlone hid horder hexternal (fun hnone => ⟨hleaf hnone, hkept⟩) ?_ ?_ ?_ ?_
      hless hstopped, rfl, rfl, hthere,
      rfl, _, put_self, hterminal⟩
    · exact h.queue.restate (view_some hid) hqueued hrunning.1
    · rw [hnone]; exact begun_nil
    · refine h.waits.finish (view_some hid) hlets ?_ hterminal
        (fun other hexempt => .inr (hless other hexempt)) (.inl rfl)
      intro other seen hother
      have hnobody : ∀ {bond : Bond}, view Task.bond core.tasks id = some bond →
          bond.waiter ≠ some other := by
        intro bond hbond
        rw [eq_of_view hid hbond]
        show task.waiter ≠ some other
        rw [← hasks]; simp
      constructor
      · intro hmem
        obtain ⟨bond, hbond, hask⟩ := h.waits.member hother hmem
        exact hnobody hbond hask
      · intro hne hwait
        obtain ⟨_, bond, hbond, _, hask, _⟩ :=
          h.waits.waiting hother hwait (fun hexempt => hne (hless other hexempt))
        exact hnobody hbond hask
    · refine ⟨?_, fun hsome => absurd hsome (by simp)⟩
      intro other hother
      have hrun := @Currents.running _ _ h.currents other
      grind
  | some parent =>
    rw [hwaiter] at hasks
    obtain ⟨hparent, hne, owner, howner, hcases⟩ := h.asked hid hopen hasks.symm
    simp only [hstamp]
    rw [hfinished]
    refine safe_found ((put_of_ne hne).trans howner) ?_
    by_cases hmember : id ∈ owner.bond.members
    · cases hobservation : owner.observation with
      | none =>
        rw [bond_members, hobservation] at hmember
        exact absurd hmember (by simp [Observation.default])
      | some group =>
        have hin : isMember group id = true := by
          rw [isMember_iff]
          rw [bond_members, hobservation] at hmember; exact hmember
        have hnodup : group.ready.Nodup := by
          have hunique := h.waits.unique (view_some howner)
          rw [bond_ready, hobservation] at hunique; exact hunique
        have hfree : (core.next + 1, id) ∉ group.ready := by
          intro hmem
          have hready : (core.next + 1, id) ∈ owner.bond.ready := by
            rw [bond_ready, hobservation]; exact hmem
          obtain ⟨_, bond, hbond, hfinished⟩ := (h.waits.notified (view_some howner)).mp hready
          rw [eq_of_view hid hbond] at hfinished
          exact absurd (hopen.symm.trans hfinished) (by simp)
        simp only [Option.filter_some, hin]
        refine safe_assertion (by simpa using hfree) ?_
        have hentry : ∀ entry, entry ∈ insertReady group.ready (core.next + 1, id) ↔
            entry ∈ owner.bond.ready ∨ entry = (core.next + 1, id) := by
          intro entry
          rw [mem_insertReady, bond_ready, hobservation]; exact or_comm
        have hwaits : ∀ state', (owner.state = .observing ∧ state' = .queued ∨
            owner.state ≠ .observing ∧ state' = owner.state) → Waits
              (put (put (view Task.bond core.tasks) id { task.bond with state := state }) parent
                { owner.bond with
                  state := state', ready := insertReady group.ready (core.next + 1, id) })
              (fun _ => False) none :=
          fun state' hstate' => h.waits.finishObserved (view_some hid) hopen hlets hparent
            hne.symm (view_some howner) hmember horder (nodup_insertReady hnodup hfree) hentry
            hstate' hless
        by_cases hobserving : owner.state = .observing
        · simp only [hobserving]
          refine ⟨h.finishWaking hid hcurrent hnone horder hexternal howner hne hparent (by rfl)
            (by rfl) (by rfl) (by rfl) (.inr ⟨rfl, ?_, .inl hobserving⟩) ?_ hless hstopped, rfl, rfl,
            fun hother => put_none ((put_of_ne hne).trans howner) (hthere hother), rfl, _,
            (put_of_ne hne.symm).trans put_self, hterminal⟩
          · cases priority
            · exact List.perm_append_singleton _ _
            · exact List.Perm.refl _
          · have hthis := hwaits .queued (.inl ⟨hobserving, rfl⟩)
            simp only [Task.bond, hobservation] at hthis ⊢; exact hthis
        · simp only [hobserving]
          refine ⟨h.finishWaking hid hcurrent hnone horder hexternal howner hne hparent (by rfl)
            (by rfl) (by rfl) (by rfl) (.inl ⟨rfl, rfl⟩) ?_ hless hstopped, rfl, rfl,
            fun hother => put_none ((put_of_ne hne).trans howner) (hthere hother), rfl, _,
            (put_of_ne hne.symm).trans put_self, hterminal⟩
          have hthis := hwaits owner.state (.inr ⟨hobserving, rfl⟩)
          simp only [Task.bond, hobservation] at hthis ⊢; exact hthis
    · have hwait : owner.state = .waiting id := by
        obtain hwait | hmem := hcases
        · exact hwait
        · exact absurd hmem hmember
      have hnot : (owner.observation.filter fun group => isMember group id) = none := by
        cases hobservation : owner.observation with
        | none => rfl
        | some group =>
          rw [bond_members, hobservation, Option.getD_some, ← isMember_iff] at hmember
          simp [hmember]
      simp only [hnot, hwait]
      refine ⟨h.finishWaking hid hcurrent hnone horder hexternal howner hne hparent (by rfl)
        (by rfl) (by rfl) (by rfl) (.inr ⟨rfl, ?_, .inr ⟨id, hwait⟩⟩) ?_ hless hstopped, rfl, rfl,
        fun hother => put_none ((put_of_ne hne).trans howner) (hthere hother), rfl, _,
            (put_of_ne hne.symm).trans put_self, hterminal⟩
      · cases priority
        · exact List.perm_append_singleton _ _
        · exact List.Perm.refl _
      · exact h.waits.finishAwaited (view_some hid) hopen hlets hparent hne.symm (view_some howner)
          hwait hmember hterminal hless

theorem safe_finishTerminal (hroom : core.next + 1 < 2 ^ 64) (failure : Option String) :
    Safe (fun core' => Ended core core' id) (finishTerminal { core with current := none } id failure) := by
  refine safe_nextStamp (show { core with current := none }.next + 1 < 2 ^ 64 from hroom) ?_
  refine safe_found hid ?_
  cases failure with
  | none =>
    exact safe_wake h hcurrent hid hnone hexternal hleaf hlets hless hstopped rfl (by simp) rfl
  | some message =>
    exact safe_wake h hcurrent hid hnone hexternal hleaf hlets hless hstopped rfl (by simp) rfl

end

/-! ## A cancellation works on a task -/

theorem Sound.runCleanups (h : Sound core exempt target stopped) (hid : core.tasks id = some task)
    (first : Option String) : Sound (drainCleanups core id task first).1 exempt target stopped := by
  refine h.account hid (by rfl) (by rfl) (by rfl) (by rfl) rfl ?_
  intro serial
  show List.count serial (task.cleanups.map Cleanup.serial ++ core.ran) +
      core.retired.count serial + 0 + _ = core.ran.count serial + core.retired.count serial + _ +
    if serial < core.pushes then 1 else 0
  rw [List.count_append]
  unfold Task.owed; omega

theorem Sound.dropWait (h : Sound core exempt target stopped) (hid : core.tasks id = some task)
    (hexempt : exempt id) : Sound (cancelWait core id task) exempt target stopped := by
  unfold cancelWait
  cases hexternal : task.external with
  | none => exact h
  | some wait =>
    have hparking : unready task.parking = if wait.ready then 0 else 1 := by
      unfold Task.parking
      rw [hexternal, unready_some]
    have hpos := h.externals.le_pending (view_some hid) (h.limit hid)
    have hbond : view Task.bond core.tasks id = some task.bond := view_some hid
    have howed : view Task.cleanups core.tasks id = some task.cleanups := view_some hid
    refine h.amend hid (by rfl) (by rfl) ?_ ?_ ?_ ?_ (h.tops.closed (view_some hid))
    · show Begun (put (view Task.bond core.tasks) id task.bond) core.current core.begun
      rw [put_eq_self hbond]; exact h.begun
    · show Waits (put (view Task.bond core.tasks) id task.bond) exempt target
      rw [put_eq_self hbond]; exact h.waits
    · refine h.externals.put (view_some hid) (h.limit hid) ?_ ?_ (fun _ => rfl) ?_
        (fun _ hin => .inl hin)
      · intro hunready
        exact absurd hunready (by simp [Task.parking, unready_none])
      · intro _ hnot; exact absurd hexempt hnot
      · show _ = _ + unready ⟨task.state, none⟩
        rw [unready_none]
        split <;> simp_all
    · exact h.paid.same howed

theorem cancelWait_self (hid : core.tasks id = some task) :
    (cancelWait core id task).tasks id = some { task with external := none } := by
  unfold cancelWait
  cases hexternal : task.external with
  | none =>
    rw [hid]
    rw [← hexternal]
  | some wait => exact put_self

/-- What a cancellation changes in the task it works on, before the task goes. -/
structure Emptied (core core' : Core) (id : Nat) (task : Task) : Prop where
  self : core'.tasks id = some { task with external := none, cleanups := [] }
  others : ∀ {other}, other ≠ id → core'.tasks other = core.tasks other
  ready : core'.ready = core.ready
  current : core'.current = core.current
  root : core'.root = core.root
  next : core'.next = core.next
  begun : core'.begun = core.begun
  ran : core'.ran = task.cleanups.map Cleanup.serial ++ core.ran

theorem Sound.empty (h : Sound core exempt target stopped) (hid : core.tasks id = some task)
    (hexempt : exempt id) (first : Option String) :
    Sound (drainCleanups (cancelWait core id task) id { task with external := none } first).1
        exempt target stopped ∧
      Emptied core (drainCleanups (cancelWait core id task) id { task with external := none }
        first).1 id task := by
  refine ⟨(h.dropWait hid hexempt).runCleanups (cancelWait_self hid) first, ?_⟩
  unfold drainCleanups cancelWait
  cases hexternal : task.external with
  | none =>
    exact ⟨put_self, fun hne => put_of_ne hne, rfl, rfl, rfl, rfl, rfl, rfl⟩
  | some wait =>
    exact ⟨put_self, fun hne => (put_of_ne hne).trans (put_of_ne hne), rfl, rfl, rfl, rfl, rfl, rfl⟩

/-- What the removal of a task leaves of the others, and the cleanups that have run. -/
structure Removed (core core' : Core) (id : Nat) (cleanups : List Cleanup) : Prop where
  gone : core'.tasks id = none
  kept : ∀ {other task}, other ≠ id → core.tasks other = some task →
    ∃ task', core'.tasks other = some task' ∧ task'.parent = task.parent ∧
      task'.state = task.state ∧ task'.waiter = task.waiter ∧ task'.cleanups = task.cleanups ∧
      (∀ child ∈ task'.children, child ∈ task.children ∧ child ≠ id) ∧
      ∀ child ∈ task'.bond.members, child ∈ task.bond.members
  only : ∀ {other}, core.tasks other = none → core'.tasks other = none
  current : core'.current = core.current
  root : core'.root = core.root
  next : core'.next = core.next
  ran : core'.ran = cleanups.map Cleanup.serial ++ core.ran

section
variable (h : Sound core exempt target stopped) (hid : core.tasks id = some task)
include h hid

theorem Sound.fell (hparent : task.parent = none) (hleaf : task.children = [])
    (hcurrent : core.current ≠ some id) (hready : unready task.parking = 0)
    (howed : task.cleanups = []) (hstopped : stopped) : Sound { core with
      tasks := drop core.tasks id, begun := core.begun.filter fun other => other != id }
      exempt target stopped := by
  have hnode : view Task.links core.tasks id = some ⟨none, []⟩ := by
    rw [view_some hid, Task.links, hparent, hleaf]
  refine ⟨?_, ?_, ?_, ?_, ?_, ?_, ?_, ?_, ?_, ?_⟩
  · rw [view_drop]; exact h.forest.fell hnode
  · rw [view_drop]; exact h.queue.drop
  · rw [view_drop]; exact h.issued.drop
  · rw [view_drop]; exact h.begun.drop hcurrent
  · rw [view_drop]
    exact h.waits.fell (view_some hid) (h.childless hid hleaf) hparent
  · rw [view_drop]; exact h.externals.drop (view_some hid) (h.limit hid) hready
  · rw [view_drop]; exact h.stamps.drop
  · rw [view_drop]
    refine h.paid.drop (view_some hid) (h.limit hid) ?_
    intro serial
    rw [howed]; rfl
  · rw [view_drop]; exact h.currents.drop hcurrent
  · rw [view_drop]; exact h.tops.drop (fun _ => hstopped)

/-- A group without a member; only the notification of that member is taken out. -/
theorem removeMember_bond (howner : core.tasks parent = some owner) {group : Observation}
    (hgroup : owner.observation = some group) :
    (removeMember group id task.state.terminalOrder).ready.Nodup ∧
      (∀ child, child ∈ (removeMember group id task.state.terminalOrder).members.map Prod.fst ↔
        child ∈ owner.bond.members ∧ child ≠ id) ∧
      ∀ order child, (order, child) ∈ (removeMember group id task.state.terminalOrder).ready ↔
        (order, child) ∈ owner.bond.ready ∧ child ≠ id := by
  have hnodup : group.ready.Nodup := by
    have hunique := h.waits.unique (view_some howner)
    rw [bond_ready, hgroup] at hunique; exact hunique
  have hstamp : ∀ order, (order, id) ∈ group.ready → task.state.terminalOrder = some order := by
    intro order hmem
    have hready : (order, id) ∈ owner.bond.ready := by
      rw [bond_ready, hgroup]; exact hmem
    obtain ⟨_, bond, hbond, hfinished⟩ := (h.waits.notified (view_some howner)).mp hready
    rw [eq_of_view hid hbond] at hfinished; exact hfinished
  refine ⟨?_, ?_, ?_⟩
  · cases task.state.terminalOrder with
    | none => exact hnodup
    | some order => exact hnodup.filter _
  · rw [bond_members]
    simp only [removeMember, List.mem_map, List.mem_filter]; grind
  · intro order child
    rw [bond_ready]
    have hthis := hstamp order
    unfold removeMember
    cases hterminal : task.state.terminalOrder with
    | none =>
      rw [hterminal] at hthis; grind
    | some stamp =>
      grind

variable (hleaf : task.children = []) (hcurrent : core.current ≠ some id)
  (hstopped : task.parent = none → stopped)
  (hidle : ∀ {parent owner}, task.parent = some parent → core.tasks parent = some owner →
    owner.state = .waiting id ∨ owner.state = .observing → exempt parent)
include hleaf hcurrent hstopped hidle

/-- A childless task without debts is forgotten by its parent and removed. -/
theorem safe_unlink (hexternal : task.external = none) (howed : task.cleanups = []) :
    Safe (fun core' => Sound core' exempt target stopped ∧ Removed core core' id [])
      (forget core id task >>= fun core' => unlink core' id task) := by
  have hready : unready task.parking = 0 := by
    unfold Task.parking
    rw [hexternal, unready_none]
  cases hparent : task.parent with
  | none =>
    simp only [forget, unlink, hparent]
    refine ⟨h.fell hid hparent hleaf hcurrent hready howed (hstopped hparent), ?_⟩
    refine ⟨drop_self, ?_, ?_, rfl, rfl, rfl, rfl⟩
    case refine_2 =>
      intro other hnone; grind
    intro other peer hne hother
    refine ⟨peer, (drop_of_ne hne).trans hother, rfl, rfl, rfl, rfl, ?_, fun _ hmem => hmem⟩
    intro child hchild
    refine ⟨hchild, ?_⟩
    intro hsame
    obtain ⟨task', htask', hup⟩ := h.child hother hchild
    rw [hsame, hid, Option.some.injEq] at htask'
    rw [← htask', hparent] at hup; simp at hup
  | some parent =>
    obtain ⟨hne, owner, howner, hmem⟩ := h.parent hid hparent
    -- whatever becomes of the group, the owner is the same but for it and for the child
    have hlast : ∀ owner' : Task, owner'.links = ⟨owner.parent, owner.children.erase id⟩ →
        owner'.state = owner.state → owner'.parking = owner.parking →
        owner'.cleanups = owner.cleanups → owner'.returned = owner.returned →
        owner'.waiter = owner.waiter → owner'.bond.ready.Nodup →
        (∀ child, child ∈ owner'.bond.members ↔ child ∈ owner.bond.members ∧ child ≠ id) →
        (∀ order child, (order, child) ∈ owner'.bond.ready ↔
          (order, child) ∈ owner.bond.ready ∧ child ≠ id) → Sound { core with
          tasks := put (drop core.tasks id) parent owner',
          begun := core.begun.filter fun other => other != id } exempt target stopped ∧
        Removed core { core with
          tasks := put (drop core.tasks id) parent owner',
          begun := core.begun.filter fun other => other != id } id [] := by
      intro owner' hlinks hstate hparking hcleanups hreturned hwaiter hnodup hmembers hnotified
      have hchildren : owner'.children = owner.children.erase id := congrArg Node.children hlinks
      constructor
      · refine h.prune hid hparent howner hleaf hlinks hstate hparking hcleanups hreturned hwaiter
          (fun other hin => ((hmembers other).mp hin).1) hcurrent hready howed ?_
        have hbond : owner'.bond = { owner.bond with
            members := owner'.bond.members, ready := owner'.bond.ready } := by
          have hup : owner'.parent = owner.parent := congrArg Node.parent hlinks
          unfold Task.bond
          rw [hup, hwaiter, hstate]
        rw [hbond]
        refine h.waits.retire (view_some hid) (h.childless hid hleaf) hparent (view_some howner) hne
          ?_ hnodup hmembers hnotified ?_
        · intro hwait; exact hidle hparent howner (.inl hwait)
        · intro hobserve hnot
          exact absurd (hidle hparent howner (.inr hobserve)) hnot
      · refine ⟨(put_of_ne hne).trans drop_self, ?_, ?_, rfl, rfl, rfl, rfl⟩
        case refine_2 =>
          intro other hnone; grind
        intro other peer hother hpeer
        by_cases hsame : other = parent
        · rw [hsame, howner, Option.some.injEq] at hpeer
          rw [hsame, ← hpeer]
          refine ⟨owner', put_self, congrArg Node.parent hlinks, hstate, hwaiter, hcleanups, ?_,
            fun child hin => ((hmembers child).mp hin).1⟩
          intro child hchild
          rw [hchildren] at hchild
          obtain ⟨hchildne, hin⟩ := (h.forest.nodup (view_some howner)).mem_erase_iff.mp hchild
          exact ⟨hin, hchildne⟩
        · refine ⟨peer, ?_, rfl, rfl, rfl, rfl, ?_, fun _ hin => hin⟩
          · show put (drop core.tasks id) parent owner' other = some peer
            rw [put_of_ne hsame, drop_of_ne hother, hpeer]
          · intro child hchild
            refine ⟨hchild, ?_⟩
            intro hself
            obtain ⟨task', htask', hup⟩ := h.child hpeer hchild
            rw [hself, hid, Option.some.injEq] at htask'
            rw [← htask', hparent, Option.some.injEq] at hup
            exact hsame hup.symm
    simp only [forget, unlink, hparent]
    refine safe_bind (fun core' => ∃ owner', core' = core.put parent owner' ∧
      (owner' = owner ∧ owner.observation = none ∨ ∃ group, owner.observation = some group ∧
        owner' = { owner with
          observation := some (removeMember group id task.state.terminalOrder) })) ?_ ?_
    · refine safe_found howner ?_
      cases hobservation : owner.observation with
      | none =>
        refine ⟨owner, ?_, .inl ⟨rfl, rfl⟩⟩
        show core = { core with tasks := put core.tasks parent owner }
        rw [put_eq_self howner]
      | some group => exact ⟨_, rfl, .inr ⟨group, rfl, rfl⟩⟩
    · intro core' hforgot
      obtain ⟨owner', hcore, hcases⟩ := hforgot
      have htasks : ∀ owner'' : Task, put (drop (put core.tasks parent owner') id) parent owner'' =
          put (drop core.tasks id) parent owner'' := by
        intro owner''
        rw [drop_put_of_ne hne.symm, put_put]
      rw [hcore]
      refine safe_found ((drop_of_ne hne.symm).trans put_self) ?_
      show Sound { core with
          tasks := put (drop (put core.tasks parent owner') id) parent _,
          begun := _ } exempt target stopped ∧ Removed core { core with
          tasks := put (drop (put core.tasks parent owner') id) parent _, begun := _ } id []
      rw [htasks]
      obtain ⟨hsame, hnone⟩ | ⟨group, hgroup, hsame⟩ := hcases
      · rw [hsame]
        have hunique : owner.bond.ready.Nodup := h.waits.unique (view_some howner)
        refine hlast _ rfl rfl rfl rfl rfl rfl ?_ ?_ ?_
        · exact hunique
        · intro child
          show child ∈ owner.bond.members ↔ _
          rw [bond_members, hnone]; simp [Observation.default]
        · intro order child
          show (order, child) ∈ owner.bond.ready ↔ _
          rw [bond_ready, hnone]; simp [Observation.default]
      · rw [hsame]
        obtain ⟨hnodup, hmembers, hnotified⟩ := removeMember_bond h hid howner hgroup
        exact hlast _ rfl rfl rfl rfl rfl rfl hnodup hmembers hnotified

/-- One turn of a cancellation: the top of the stack is emptied and removed. -/
theorem safe_retire (hexempt : exempt id) (first : Option String) :
    Safe (fun retired => Sound retired.1 exempt target stopped ∧
        Removed core retired.1 id task.cleanups) (retire core id first) := by
  obtain ⟨hsound, hemptied⟩ := h.empty hid hexempt first
  refine safe_found hid ?_
  refine safe_found (cancelWait_self hid) ?_
  refine safe_found hemptied.self ?_
  have hunlink := safe_unlink hsound hemptied.self hleaf
    (by rw [hemptied.current]; exact hcurrent) hstopped ?_ rfl rfl
  · rw [← bind_assoc]
    refine safe_bind _ hunlink ?_
    intro core' hdone
    obtain ⟨hsound', hremoved⟩ := hdone
    refine ⟨hsound', hremoved.gone, ?_, ?_, hremoved.current.trans hemptied.current,
      hremoved.root.trans hemptied.root, hremoved.next.trans hemptied.next,
      hremoved.ran.trans hemptied.ran⟩
    · intro other peer hne hpeer
      exact hremoved.kept hne ((hemptied.others hne).trans hpeer)
    · intro other hnone
      by_cases hother : other = id
      · rw [hother]; exact hremoved.gone
      · exact hremoved.only ((hemptied.others hother).trans hnone)
  · intro parent owner hparent howner hwait
    have hne : parent ≠ id := (h.parent hid hparent).1.symm
    rw [hemptied.others hne] at howner; exact hidle hparent howner hwait

end

/-- The hook and the end of a failed activation, once its children are gone. -/
theorem safe_finishFaulted (h : Sound core exempt none stopped) (hcurrent : core.current = some id)
    (hid : core.tasks id = some task) (hexempt : exempt id) (hnone : core.begun = [])
    (hleaf : task.children = []) (hless : ∀ other, exempt other → other = id)
    (hstopped : ¬stopped) (hroom : core.next + 1 < 2 ^ 64) (failure : String) :
    Safe (fun core' => Calm core' ∧ core'.current = none ∧ core'.root = core.root ∧
        (∀ {other}, core.tasks other = none → core'.tasks other = none) ∧
        core'.ran = task.cleanups.map Cleanup.serial ++ core.ran ∧
        ∃ task', core'.tasks id = some task' ∧ task'.state.terminalOrder ≠ none)
      (finishFaulted core id failure) := by
  obtain ⟨hsound, hemptied⟩ := h.empty hid hexempt (some failure)
  have hlets : Lets (view Task.bond (drainCleanups (cancelWait core id task) id
      { task with external := none } (some failure)).1.tasks) id
      ({ task with external := none, cleanups := [] } : Task).bond := by
    intro child seen _ hseen; exact hsound.childless hemptied.self hleaf hseen
  have hfinish := safe_finishTerminal hsound (hemptied.current.trans hcurrent) hemptied.self
    (hemptied.begun.trans hnone) rfl (fun _ => hleaf) hlets hless hstopped
    (by rw [hemptied.next]; exact hroom)
    (drainCleanups (cancelWait core id task) id { task with external := none } (some failure)).2
  refine safe_found hid ?_
  refine safe_found (cancelWait_self hid) ?_
  refine hfinish.imp ?_
  intro core' hended
  refine ⟨hended.calm, hended.current, hended.root.trans hemptied.root, ?_,
    hended.ran.trans hemptied.ran, hended.self⟩
  intro other hnone
  have hne : other ≠ id := by
    intro hsame
    rw [hsame, hid] at hnone; simp at hnone
  exact hended.only ((hemptied.others hne).trans hnone)

/-- A cancelled child is finished, and held by the task that cancelled it. -/
theorem Sound.settle {child : Nat} (h : Sound core exempt (some child) stopped)
    (hcurrent : core.current = some parent) (howner : core.tasks parent = some owner)
    (hrunning : owner.state = .running) (hid : core.tasks child = some task)
    (hparent : task.parent = some parent) (hwaiter : task.waiter = some parent)
    (hopen : task.state.terminalOrder = none) (hnot : child ∉ owner.bond.members)
    (hexternal : task.external = none) (hleaf : task.children = [])
    (hless : ∀ other, exempt other → other = child) (hstopped : ¬stopped)
    (horder : state.terminalOrder = some (core.next + 1)) : Calm { core with
      tasks := put core.tasks child { task with state := state }, next := core.next + 1,
      begun := child :: core.begun } := by
  have hne : child ≠ parent := (h.parent hid hparent).1
  have hterminal : state.terminalOrder ≠ none := by
    rw [horder]; simp
  have hlive : state ≠ .queued ∧ state ≠ .running := by
    constructor <;> intro hsame <;> rw [hsame] at hterminal <;> exact hterminal rfl
  refine h.finishAlone hid horder hexternal
    (fun hnone => absurd (hparent.symm.trans hnone) (by simp)) (h.queue.cancel hlive.1) ?_ ?_ ?_
    hless hstopped
  · have hput : Begun (put (view Task.bond core.tasks) child { task.bond with state := state })
        core.current core.begun :=
      h.begun.put (view_some hid) (fun hmem => absurd hmem (h.notBegun hid hopen))
        (fun _ hmem => .inl hmem)
    exact hput.cons put_self hterminal hparent hwaiter hcurrent
      ((put_of_ne hne.symm).trans (view_some howner)) hnot
  · refine h.waits.finish (view_some hid) ?_ ?_ hterminal
      (fun other hexempt => .inr (hless other hexempt)) (.inr rfl)
    · intro other seen _ hseen; exact h.childless hid hleaf hseen
    · intro other seen hother
      have honly : ∀ {bond : Bond}, view Task.bond core.tasks child = some bond →
          bond.waiter = some other → other = parent := by
        intro bond hbond hask
        rw [eq_of_view hid hbond] at hask
        exact (Option.some.inj (hwaiter.symm.trans hask)).symm
      constructor
      · intro hmem
        obtain ⟨bond, hbond, hask⟩ := h.waits.member hother hmem
        rw [honly hbond hask] at hother
        exact hnot (eq_of_view howner hother ▸ hmem)
      · intro hdiff hwait
        obtain ⟨_, bond, hbond, _, hask, _⟩ :=
          h.waits.waiting hother hwait (fun hexempt => hdiff (hless other hexempt))
        rw [honly hbond hask] at hother
        rw [eq_of_view howner hother] at hwait
        exact absurd (hrunning.symm.trans hwait) (by simp)
  · refine h.currents.put (fun hsame => absurd hsame hlive.2) ?_
    intro hself
    exact absurd (Option.some.inj (hcurrent.symm.trans hself)).symm hne

theorem safe_finishCancel {child : Nat} {caller : Task}
    (h : Sound core exempt (some child) stopped) (hfamily : Family core child parent caller task)
    (hrunning : caller.state = .running) (hopen : task.state.terminalOrder = none)
    (hwaiter : task.waiter = some parent) (hnot : child ∉ caller.bond.members)
    (hexempt : exempt child) (hleaf : task.children = [])
    (hless : ∀ other, exempt other → other = child) (hstopped : ¬stopped)
    (hroom : core.next + 1 < 2 ^ 64) (first : Option String) :
    Safe (fun core' => Calm core' ∧ core'.current = core.current ∧ core'.root = core.root ∧
        (∀ {other}, core.tasks other = none → core'.tasks other = none) ∧
        core'.ran = task.cleanups.map Cleanup.serial ++ core.ran ∧
        ∃ task', core'.tasks child = some task' ∧ task'.state.terminalOrder ≠ none)
      (finishCancel core child first) := by
  obtain ⟨hsound, hemptied⟩ := h.empty hfamily.held hexempt first
  have hcurrent := hemptied.current.trans hfamily.current
  have howner := (hemptied.others hfamily.ne.symm).trans hfamily.owner
  have hroom' : (drainCleanups (cancelWait core child task) child { task with external := none }
      first).1.next + 1 < 2 ^ 64 := by
    rw [hemptied.next]; exact hroom
  refine safe_found hfamily.held ?_
  refine safe_found (cancelWait_self hfamily.held) ?_
  refine safe_nextStamp hroom' ?_
  refine safe_found hemptied.self ?_
  refine ⟨?_, hemptied.current, hemptied.root, ?_, hemptied.ran, _, put_self, ?_⟩
  · refine hsound.settle hcurrent howner hrunning hemptied.self hfamily.above hwaiter hopen hnot rfl
      hleaf hless hstopped ?_
    split <;> rfl
  · intro other hnone
    have hne : other ≠ child := by
      intro hsame
      rw [hsame, hfamily.held] at hnone; simp at hnone
    exact (put_of_ne hne).trans ((hemptied.others hne).trans hnone)
  · split <;> simp [Status.terminalOrder]

/-! ## A cancellation begins -/

/-- The child of a running task whose cancellation begins. -/
structure Claimed (core : Core) (child parent : Nat) (caller task : Task) : Prop where
  family : Family core child parent caller task
  running : caller.state = .running
  waiter : task.waiter = some parent
  free : child ∉ caller.bond.members

/-- A finished child is left as it is; the other children are taken over. -/
theorem safe_checkCancel (h : Calm core) (child : Nat) :
    Safe (fun checked => checked.1.current = core.current ∧ checked.1.root = core.root ∧
      checked.1.next = core.next ∧ (checked.2 = true → Calm checked.1) ∧
      (checked.2 = false → Sound checked.1 (fun _ => False) (some child) False ∧
        ∃ parent caller task, Claimed checked.1 child parent caller task ∧
          task.state.terminalOrder = none)) (checkCancel core child) := by
  refine safe_parentOf h ?_
  intro parent caller task hfamily
  refine safe_require ?_
  intro hcheck
  simp only [Bool.and_eq_true, decide_eq_true_eq] at hcheck
  obtain ⟨⟨⟨hrunning, _⟩, _⟩, hwaiter⟩ := hcheck
  have hopen : caller.state.terminalOrder = none := by
    rw [hrunning]; rfl
  -- the group of the caller without the child
  have hclaim : ∀ caller' : Task, Alike caller caller' → caller'.waiter = caller.waiter →
      caller'.bond.ready.Nodup →
      (∀ other, other ∈ caller'.bond.members ↔ other ∈ caller.bond.members ∧ other ≠ child) →
      (∀ order other, (order, other) ∈ caller'.bond.ready ↔
        (order, other) ∈ caller.bond.ready ∧ other ≠ child) →
      ∀ target, (target = some child ∨ task.state.terminalOrder ≠ none) → Sound { core with
        tasks := put (put core.tasks parent caller') child { task with waiter := some parent } }
        (fun _ => False) target False := by
    intro caller' halike hsame hnodup hmembers hready target htarget
    have hbond : caller'.bond = { caller.bond with
        members := caller'.bond.members, ready := caller'.bond.ready } := by
      have hup : caller'.parent = caller.parent := congrArg Node.parent halike.links
      unfold Task.bond
      rw [hup, hsame, halike.state]
    refine h.pair hfamily.owner hfamily.held hfamily.ne halike (by constructor <;> rfl) ?_ ?_
    · refine Begun.put (h.begun.put (view_some hfamily.owner)
        (fun hmem => absurd hmem (h.notBegun hfamily.owner hopen)) ?_)
        ((put_of_ne hfamily.ne).trans (view_some hfamily.held)) ?_ (fun _ hmem => .inl hmem)
      · intro other hmem; exact .inl ((hmembers other).mp hmem).1
      · intro hmem
        have hask := h.begunWaiter hfamily.held hmem
        exact ⟨rfl, hfamily.above.symm.trans hask.1.symm, hask.2⟩
    · rw [hbond]
      exact h.waits.forget (view_some hfamily.held) hfamily.above (view_some hfamily.owner)
        hfamily.ne hrunning hnodup hmembers hready htarget
  have hdone : ∀ caller' : Task, Alike caller caller' → caller'.waiter = caller.waiter →
      caller'.bond.ready.Nodup →
      (∀ other, other ∈ caller'.bond.members ↔ other ∈ caller.bond.members ∧ other ≠ child) →
      (∀ order other, (order, other) ∈ caller'.bond.ready ↔
        (order, other) ∈ caller.bond.ready ∧ other ≠ child) →
      (task.state.terminalOrder.isSome = true → Calm { core with
        tasks := put (put core.tasks parent caller') child { task with waiter := some parent } }) ∧
      (task.state.terminalOrder.isSome = false → Sound { core with
          tasks := put (put core.tasks parent caller') child { task with waiter := some parent } }
          (fun _ => False) (some child) False ∧ ∃ parent' caller'' task', Claimed { core with
            tasks := put (put core.tasks parent caller') child { task with waiter := some parent } }
            child parent' caller'' task' ∧ task'.state.terminalOrder = none) := by
    intro caller' halike hsame hnodup hmembers hready
    have hthis := hclaim caller' halike hsame hnodup hmembers hready
    constructor
    · intro hterminal
      refine hthis none (.inr ?_)
      intro hnone
      rw [hnone] at hterminal; simp at hterminal
    · intro hlive
      refine ⟨hthis (some child) (.inl rfl), parent, caller', { task with waiter := some parent },
        ⟨⟨hfamily.current, (put_of_ne hfamily.ne.symm).trans put_self, put_self, hfamily.above,
          hfamily.ne⟩, halike.state.trans hrunning, rfl, ?_⟩, by simpa using hlive⟩
      intro hmem; exact ((hmembers child).mp hmem).2 rfl
  refine safe_bind (fun core' => ∃ caller', core' = core.put parent caller' ∧
    (caller' = caller ∧ caller.observation = none ∨ ∃ group, caller.observation = some group ∧
      caller' = { caller with
        observation := some (removeMember group child task.state.terminalOrder) })) ?_ ?_
  · simp only [forget, hfamily.above]
    refine safe_found hfamily.owner ?_
    cases hobservation : caller.observation with
    | none =>
      refine ⟨caller, ?_, .inl ⟨rfl, rfl⟩⟩
      show core = { core with tasks := put core.tasks parent caller }
      rw [put_eq_self hfamily.owner]
    | some group => exact ⟨_, rfl, .inr ⟨group, rfl, rfl⟩⟩
  · intro core' hforgot
    obtain ⟨caller', hcore, hcases⟩ := hforgot
    rw [hcore]
    refine safe_found ((put_of_ne hfamily.ne).trans hfamily.held) ?_
    obtain ⟨hsame, hnone⟩ | ⟨group, hgroup, hsame⟩ := hcases
    · have hunique : caller.bond.ready.Nodup := h.waits.unique (view_some hfamily.owner)
      refine ⟨rfl, rfl, rfl, hdone caller' (by rw [hsame]; constructor <;> rfl) (by rw [hsame])
        (by rw [hsame]; exact hunique) ?_ ?_⟩
      · rw [hsame, bond_members, hnone]; simp [Observation.default]
      · rw [hsame, bond_ready, hnone]; simp [Observation.default]
    · obtain ⟨hnodup, hmembers, hnotified⟩ := removeMember_bond h hfamily.held hfamily.owner hgroup
      refine ⟨rfl, rfl, rfl, hdone caller' (by rw [hsame]; constructor <;> rfl) (by rw [hsame])
        (by rw [hsame]; exact hnodup) ?_ ?_⟩
      · intro other
        rw [hsame]; exact hmembers other
      · intro order other
        rw [hsame]; exact hnotified order other

end

end Loom.Tasks

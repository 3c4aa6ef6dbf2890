import Loom.Runtime.TaskWaits

/-
  Edits of the task map keep the invariant.

  Each lemma is about one kind of edit, whoever makes it: a note on a task that
  nothing depends on, cleanups that come and go, a live task in another state, a
  task and its waiter, a leaf that is removed. The operations of the generated
  code and the scheduler's own steps are made of these.
-/

namespace Loom.Tasks

open Faults Tables Forests

section
variable {core core' : Core} {exempt : Nat → Prop} {target : Option Nat} {stopped : Prop} {id : Nat}
  {task task' : Task}

theorem Sound.limit (h : Sound core exempt target stopped) (hid : core.tasks id = some task) :
    id ≤ core.next := h.issued.live (view_some hid)

theorem Sound.fresh (h : Sound core exempt target stopped) : core.tasks (core.next + 1) = none := by
  have hview := h.issued.fresh
  cases hentry : core.tasks (core.next + 1) with
  | none => rfl
  | some task => simp [view, hentry] at hview

theorem Sound.closed (h : Sound core exempt target stopped) (hid : core.tasks id = some task) :
    task.parent = none → task.returned = 0 := h.tops.closed (view_some hid)

theorem Sound.leaf (h : Sound core exempt target stopped) (hid : core.tasks id = some task) :
    task.parent = none → task.top.Ends := h.tops.leaf (view_some hid)

theorem Sound.parent (h : Sound core exempt target stopped) {parent : Nat}
    (hid : core.tasks id = some task) (hparent : task.parent = some parent) :
    id ≠ parent ∧ ∃ owner, core.tasks parent = some owner ∧ id ∈ owner.children := by
  refine ⟨h.forest.ne_parent (view_some hid) hparent, ?_⟩
  obtain ⟨node, hnode, hmem⟩ := h.forest.held (view_some hid) hparent
  obtain ⟨owner, howner, hsame⟩ := view_eq_some.mp hnode
  exact ⟨owner, howner, by rw [← hsame] at hmem; exact hmem⟩

theorem Sound.child (h : Sound core exempt target stopped) {child : Nat} (hid : core.tasks id = some task)
    (hchild : child ∈ task.children) :
    ∃ task', core.tasks child = some task' ∧ task'.parent = some id := by
  obtain ⟨node, hnode, hparent⟩ := h.forest.listed (view_some hid) hchild
  obtain ⟨task', htask', hsame⟩ := view_eq_some.mp hnode
  exact ⟨task', htask', by rw [← hsame] at hparent; exact hparent⟩

/-! ## Edits that only some groups see -/

variable {pending : Nat}

theorem Sound.still (h : Sound core exempt target stopped) (tasks : Nat → Option Task)
    {pushes : Nat} {ran retired : List Nat} {target' : Option Nat}
    (hstates : view Task.state tasks = view Task.state core.tasks)
    (hforest : Forest (view Task.links tasks))
    (hbegun : Begun (view Task.bond tasks) core.current core.begun)
    (hwaits : Waits (view Task.bond tasks) exempt target')
    (hexternals : Externals (view Task.parking tasks) exempt pending core.next)
    (hpaid : Paid (view Task.cleanups tasks) core.next pushes ran retired)
    (htops : Tops (view Task.top tasks) core.root stopped) : Sound { core with
      tasks := tasks, pending := pending, pushes := pushes, ran := ran, retired := retired }
      exempt target' stopped := by
  refine ⟨hforest, ?_, ?_, hbegun, hwaits, hexternals, ?_, hpaid, ?_, htops⟩
  · rw [hstates]; exact h.queue
  · rw [hstates]; exact h.issued
  · rw [hstates]; exact h.stamps
  · rw [hstates]; exact h.currents

section
variable (h : Sound core exempt target stopped) (hid : core.tasks id = some task)
  (hlinks : task'.links = task.links)
include h hid hlinks

/-- An edit of one task that keeps its place in the tree and its state. -/
theorem Sound.amend (hstate : task'.state = task.state) {pushes : Nat} {ran retired : List Nat}
    {target' : Option Nat}
    (hbegun : Begun (put (view Task.bond core.tasks) id task'.bond) core.current core.begun)
    (hwaits : Waits (put (view Task.bond core.tasks) id task'.bond) exempt target')
    (hexternals : Externals (put (view Task.parking core.tasks) id task'.parking) exempt pending core.next)
    (hpaid : Paid (put (view Task.cleanups core.tasks) id task'.cleanups) core.next pushes ran retired)
    (hreturned : task'.parent = none → task'.returned = 0) : Sound { core.put id task' with
      pending := pending, pushes := pushes, ran := ran, retired := retired } exempt target' stopped := by
  have hparent : task'.parent = task.parent := congrArg Node.parent hlinks
  have hchildren : task'.children = task.children := congrArg Node.children hlinks
  refine h.still (put core.tasks id task') (view_put_same hid hstate) ?_ ?_ ?_ ?_ ?_ ?_
  · rw [view_put_same hid hlinks]; exact h.forest
  · rw [view_put]; exact hbegun
  · rw [view_put]; exact hwaits
  · rw [view_put]; exact hexternals
  · rw [view_put]; exact hpaid
  · rw [view_put]
    refine h.tops.put (view_some hid) (by rw [Task.top, Task.top, hparent]) hreturned ?_
    intro hnone hterminal
    show task'.children = [] ∧ ∀ order, task'.state ≠ .cancelled order
    have hopen : task.state.terminalOrder ≠ none := by
      rw [← hstate]; exact hterminal
    rw [hchildren, hstate]
    exact h.leaf hid (hparent.symm.trans hnone) hopen

/-- An edit of what no other task and no count depends on. -/
theorem Sound.quiet (hbond : task'.bond = task.bond) (hparking : task'.parking = task.parking)
    (hcleanups : task'.cleanups = task.cleanups)
    (hreturned : task'.parent = none → task'.returned = 0) :
    Sound (core.put id task') exempt target stopped := by
  refine h.amend hid hlinks (congrArg Bond.state hbond) ?_ ?_ ?_ ?_ hreturned
  · rw [hbond, put_eq_self (view_some hid)]; exact h.begun
  · rw [hbond, put_eq_self (view_some hid)]; exact h.waits
  · rw [hparking, put_eq_self (view_some hid)]; exact h.externals
  · rw [hcleanups, put_eq_self (view_some hid)]; exact h.paid

theorem Sound.account (hbond : task'.bond = task.bond) (hparking : task'.parking = task.parking)
    (hreturned : task'.returned = task.returned) {cleanups : List Cleanup}
    (hcleanups : task'.cleanups = cleanups) {pushes : Nat} {ran retired : List Nat}
    (hmoved : ∀ serial, ran.count serial + retired.count serial + Task.owed serial cleanups +
      (if serial < core.pushes then 1 else 0) =
      core.ran.count serial + core.retired.count serial + Task.owed serial task.cleanups +
      if serial < pushes then 1 else 0) :
    Sound { core.put id task' with pushes := pushes, ran := ran, retired := retired }
      exempt target stopped := by
  refine h.amend hid hlinks (congrArg Bond.state hbond) ?_ ?_ ?_ ?_ ?_
  · rw [hbond, put_eq_self (view_some hid)]; exact h.begun
  · rw [hbond, put_eq_self (view_some hid)]; exact h.waits
  · rw [hparking, put_eq_self (view_some hid)]; exact h.externals
  · rw [hcleanups]; exact h.paid.put (view_some hid) (h.limit hid) hmoved
  · intro hparent
    rw [hreturned]
    exact h.closed hid ((congrArg Node.parent hlinks).symm.trans hparent)

end

/-- An edit that changes the state of one live task to another live one. -/
theorem Sound.relabel (h : Sound core exempt target stopped) (hid : core.tasks id = some task)
    (state : Status) (hopen : state.terminalOrder = none) {tasks : Nat → Option Task}
    {ready : List Nat} {current : Option Nat} {registrations : Nat}
    (hlinks : view Task.links tasks = view Task.links core.tasks)
    (hstates : view Task.state tasks = put (view Task.state core.tasks) id state)
    (hcleanups : view Task.cleanups tasks = view Task.cleanups core.tasks)
    (htops : view Task.top tasks = put (view Task.top core.tasks) id { task.top with state := state })
    (hqueue : Queue (put (view Task.state core.tasks) id state) ready core.begun)
    (hready : ∀ other ∈ ready, other ∈ core.ready ∨ other = id)
    (hbegun : Begun (view Task.bond tasks) current core.begun)
    (hwaits : Waits (view Task.bond tasks) exempt target)
    (hexternals : Externals (view Task.parking tasks) exempt pending core.next)
    (hcurrents : Currents (put (view Task.state core.tasks) id state) current) : Sound { core with
      tasks := tasks, ready := ready, current := current, pending := pending,
      registrations := registrations } exempt target stopped := by
  refine ⟨?_, ?_, ?_, hbegun, hwaits, hexternals, ?_, ?_, ?_, ?_⟩
  · rw [hlinks]; exact h.forest
  · rw [hstates]; exact hqueue
  · rw [hstates]; exact h.issued.put (view_some hid) hready
  · rw [hstates]; exact h.stamps.restate hopen
  · rw [hcleanups]; exact h.paid
  · rw [hstates]; exact hcurrents
  · rw [htops]
    exact h.tops.put (view_some hid) Iff.rfl (h.closed hid) (fun _ hterminal => absurd hopen hterminal)

/-- Two versions of a task that differ in what they wait for and observe only. -/
structure Alike (task task' : Task) : Prop where
  links : task'.links = task.links
  state : task'.state = task.state
  parking : task'.parking = task.parking
  cleanups : task'.cleanups = task.cleanups
  top : task'.top = task.top

theorem Sound.pair (h : Sound core exempt target stopped) {other : Nat} {peer peer' : Task}
    (hid : core.tasks id = some task) (hpeer : core.tasks other = some peer) (hne : other ≠ id)
    (halike : Alike task task') (hlike : Alike peer peer') {target' : Option Nat}
    (hbegun : Begun (put (put (view Task.bond core.tasks) id task'.bond) other peer'.bond)
      core.current core.begun)
    (hwaits : Waits (put (put (view Task.bond core.tasks) id task'.bond) other peer'.bond)
      exempt target') :
    Sound { core with tasks := put (put core.tasks id task') other peer' } exempt target' stopped := by
  have hpeer' : put core.tasks id task' other = some peer := by rw [put_of_ne hne, hpeer]
  refine h.still _ ?_ ?_ ?_ ?_ ?_ ?_ ?_
  · rw [view_put_same hpeer' hlike.state, view_put_same hid halike.state]
  · rw [view_put_same hpeer' hlike.links, view_put_same hid halike.links]
    exact h.forest
  · rw [view_put, view_put]; exact hbegun
  · rw [view_put, view_put]; exact hwaits
  · rw [view_put_same hpeer' hlike.parking, view_put_same hid halike.parking]
    exact h.externals
  · rw [view_put_same hpeer' hlike.cleanups, view_put_same hid halike.cleanups]
    exact h.paid
  · rw [view_put_same hpeer' hlike.top, view_put_same hid halike.top]
    exact h.tops

variable (h : Sound core exempt target stopped)
include h

theorem Sound.notBegun (hid : core.tasks id = some task) (hopen : task.state.terminalOrder = none) :
    id ∉ core.begun := by
  intro hmem
  obtain ⟨bond, _, _, hbond, hterminal, _⟩ := h.begun _ hmem
  exact hterminal (eq_of_view hid hbond ▸ hopen)

theorem Sound.begunWaiter (hid : core.tasks id = some task) (hmem : id ∈ core.begun) :
    task.waiter = task.parent ∧ task.state.terminalOrder ≠ none := by
  obtain ⟨bond, parent, _, hbond, hterminal, hparent, hwaiter, _⟩ := h.begun _ hmem
  rw [eq_of_view hid hbond] at hterminal hparent hwaiter
  exact ⟨hwaiter.trans hparent.symm, hterminal⟩

theorem Sound.prune {parent : Nat} {owner owner' : Task} (hid : core.tasks id = some task)
    (hparent : task.parent = some parent) (howner : core.tasks parent = some owner)
    (hleaf : task.children = []) (hlinks : owner'.links = ⟨owner.parent, owner.children.erase id⟩)
    (hstate : owner'.state = owner.state) (hparking : owner'.parking = owner.parking)
    (hcleanups : owner'.cleanups = owner.cleanups) (hreturned : owner'.returned = owner.returned)
    (hwaiter : owner'.waiter = owner.waiter)
    (hmembers : ∀ other ∈ owner'.bond.members, other ∈ owner.bond.members)
    (hcurrent : core.current ≠ some id) (hready : unready task.parking = 0)
    (howed : task.cleanups = [])
    (hwaits : Waits (put (drop (view Task.bond core.tasks) id) parent owner'.bond) exempt target) :
    Sound { core with
      tasks := put (drop core.tasks id) parent owner',
      begun := core.begun.filter fun other => other != id } exempt target stopped := by
  have hne : id ≠ parent := (h.parent hid hparent).1
  have howner' : drop core.tasks id parent = some owner := by rw [drop_of_ne hne.symm, howner]
  have hstates : view Task.state (put (drop core.tasks id) parent owner') =
      drop (view Task.state core.tasks) id := by
    rw [view_put_same howner' hstate, view_drop]
  have hnode : view Task.links core.tasks id = some ⟨some parent, []⟩ := by
    rw [view_some hid, Task.links, hparent, hleaf]
  have hup : owner'.parent = owner.parent := congrArg Node.parent hlinks
  have hchildren : owner'.children = owner.children.erase id := congrArg Node.children hlinks
  refine ⟨?_, ?_, ?_, ?_, ?_, ?_, ?_, ?_, ?_, ?_⟩
  · rw [view_put, view_drop, hlinks]
    exact h.forest.prune hnode (view_some howner)
  · rw [hstates]; exact h.queue.drop
  · rw [hstates]; exact h.issued.drop
  · rw [view_put, view_drop]
    refine (h.begun.drop hcurrent).put ((drop_of_ne hne.symm).trans (view_some howner)) ?_
      (fun other hmem => .inl (hmembers other hmem))
    intro hmem
    have hask := h.begunWaiter howner (List.mem_of_mem_filter hmem)
    refine ⟨hup, hwaiter, ?_⟩
    show owner'.state.terminalOrder ≠ none
    rw [hstate]; exact hask.2
  · rw [view_put, view_drop]; exact hwaits
  · rw [view_put_same howner' hparking, view_drop]
    exact h.externals.drop (view_some hid) (h.limit hid) hready
  · rw [hstates]; exact h.stamps.drop
  · rw [view_put_same howner' hcleanups, view_drop]
    refine h.paid.drop (view_some hid) (h.limit hid) ?_
    intro serial
    rw [howed]; rfl
  · rw [hstates]; exact h.currents.drop hcurrent
  · rw [view_put, view_drop]
    have hroot : core.root = some id → stopped := by
      intro hroot
      by_contra hnot
      obtain ⟨top, htop, hnone⟩ := h.tops.rooted hroot hnot
      rw [eq_of_view hid htop] at hnone; exact absurd (hparent.symm.trans hnone) (by simp)
    refine (h.tops.drop hroot).put ((drop_of_ne hne.symm).trans (view_some howner)) ?_ ?_ ?_
    · show owner'.parent = none ↔ owner.parent = none
      rw [hup]
    · intro hnone
      show owner'.returned = 0
      rw [hreturned]; exact h.closed howner (hup.symm.trans hnone)
    · intro hnone hterminal
      show owner'.children = [] ∧ ∀ order, owner'.state ≠ .cancelled order
      have hopen : owner.state.terminalOrder ≠ none := by
        rw [← hstate]; exact hterminal
      obtain ⟨hnil, hkept⟩ := h.leaf howner (hup.symm.trans hnone) hopen
      rw [hchildren, show owner.children = [] from hnil, hstate]
      exact ⟨rfl, hkept⟩

/-- The external wait and the state of one task change, between states that wait for no task. -/
theorem Sound.rest (hid : core.tasks id = some task) {state : Status}
    {external : Option ExternalWait} {ready : List Nat} {current : Option Nat} {registrations : Nat}
    (hwas : task.state = .queued ∨ task.state = .running ∨ task.state = .externalWaiting)
    (hnow : state = .queued ∨ state = .running ∨ state = .externalWaiting)
    (hqueue : Queue (put (view Task.state core.tasks) id state) ready core.begun)
    (hready : ∀ other ∈ ready, other ∈ core.ready ∨ other = id)
    (hwait : unready ⟨state, external⟩ = 1 ↔ state = .externalWaiting)
    (hpending : pending + unready task.parking = core.pending + unready ⟨state, external⟩)
    (hcurrents : Currents (put (view Task.state core.tasks) id state) current)
    (hbegun : current = core.current ∨ core.begun = []) : Sound { core with
      tasks := put core.tasks id { task with state := state, external := external },
      ready := ready, current := current, pending := pending, registrations := registrations }
      exempt target stopped := by
  have hopen : state.terminalOrder = none := by grind [Status.terminalOrder]
  have hopen' : task.state.terminalOrder = none := by grind [Status.terminalOrder]
  refine h.relabel hid state hopen ?_ ?_ ?_ ?_ hqueue hready ?_ ?_ ?_ hcurrents
  · exact view_put_same hid rfl
  · exact view_put
  · exact view_put_same hid rfl
  · exact view_put
  · obtain hsame | hnone := hbegun
    · rw [view_put, hsame]
      exact h.begun.put (view_some hid) (fun hmem => absurd hmem (h.notBegun hid hopen'))
        (fun _ hmem => .inl hmem)
    · rw [hnone]; exact begun_nil
  · rw [view_put]; exact h.waits.restate (view_some hid) hwas hnow
  · rw [view_put]
    refine h.externals.put (view_some hid) (h.limit hid) hwait.mp ?_ ?_ hpending
      (fun _ hexempt => .inl hexempt)
    · intro hstate _; exact hwait.mpr hstate
    · intro hterminal; exact absurd hopen hterminal

end

end Loom.Tasks

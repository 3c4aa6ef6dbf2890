import Loom.Library.Traversal
import Loom.Runtime.Tasks

/-
  What holds of the scheduler between its steps.

  The invariant is a group of statements, each about the few fields of a task
  that it needs: the tree about parents and children, the queue about states,
  the waits about waiters, observed members and states, the count of pending
  waits about external waits, the stamps about states again, and the accounts
  of cleanups. An edit of the task map is an edit of each of these views, and
  every group has its own lemmas for the edits it meets.

  Tasks that a cancellation has reached are `exempt` from the promises about
  what they wait for: they are never resumed.
-/

namespace Loom.Tasks

open Tables Forests

/-! ## Views of a task -/

def Task.links (task : Task) : Node Nat := ⟨task.parent, task.children⟩

/-- What a task shares with the one that waits for it. -/
structure Bond where
  parent : Option Nat
  waiter : Option Nat
  state : Status
  members : List Nat
  ready : List (Nat × Nat)

def Task.bond (task : Task) : Bond :=
  ⟨task.parent, task.waiter, task.state, (task.observation.getD .default).members.map Prod.fst,
    (task.observation.getD .default).ready⟩

/-- The external wait of a task, and whether the task is parked on it. -/
structure Parking where
  state : Status
  external : Option ExternalWait

def Task.parking (task : Task) : Parking := ⟨task.state, task.external⟩

/-- What makes a task the root, and what lets the root finish. -/
structure Top where
  parent : Option Nat
  children : List Nat
  returned : Nat
  state : Status

def Task.top (task : Task) : Top := ⟨task.parent, task.children, task.returned, task.state⟩

def Task.owed (serial : Nat) (cleanups : List Cleanup) : Nat :=
  (cleanups.map Cleanup.serial).count serial

def unready (parking : Parking) : Nat :=
  if parking.external.any fun wait => !wait.ready then 1 else 0

theorem contains_iff {task : Task} {child : Nat} :
    contains task child = true ↔ child ∈ task.bond.members := by
  unfold contains isMember Task.bond
  cases task.observation with
  | none => simp [Observation.default]
  | some group => simp

/-! ## The groups of the invariant -/

/-- A queued task is in the queue once; the others there are finished. -/
structure Queue (states : Nat → Option Status) (ready begun : List Nat) : Prop where
  queued : ∀ {id}, states id = some .queued → ready.count id = 1
  only : ∀ {id state}, states id = some state → state ≠ .queued → id ∈ ready → id ∈ begun

/-- Identities in use have been issued. -/
structure Issued (states : Nat → Option Status) (ready : List Nat) (limit : Nat) : Prop where
  live : ∀ {id state}, states id = some state → id ≤ limit
  listed : ∀ {id}, id ∈ ready → id ≤ limit

/-- A child whose cancellation the current activation has begun is finished and
held by it. -/
def Begun (bonds : Nat → Option Bond) (current : Option Nat) (begun : List Nat) : Prop :=
  ∀ id ∈ begun, ∃ bond parent owner, bonds id = some bond ∧
    bond.state.terminalOrder ≠ none ∧ bond.parent = some parent ∧ bond.waiter = some parent ∧
    current = some parent ∧ bonds parent = some owner ∧ id ∉ owner.members

/-- A task is there, finished with the given stamp. -/
def FinishedAt (bonds : Nat → Option Bond) (id order : Nat) : Prop :=
  ∃ bond, bonds id = some bond ∧ bond.state.terminalOrder = some order

/-- Waiters and what they wait for agree. -/
structure Waits (bonds : Nat → Option Bond) (exempt : Nat → Prop) (target : Option Nat) :
    Prop where
  waiting : ∀ {id bond child}, bonds id = some bond → bond.state = .waiting child → ¬exempt id →
    child ∉ bond.members ∧ ∃ bond', bonds child = some bond' ∧ bond'.parent = some id ∧
      bond'.waiter = some id ∧ bond'.state.terminalOrder = none
  waiter : ∀ {id bond parent}, bonds id = some bond → bond.waiter = some parent →
    bond.parent = some parent
  asked : ∀ {id bond parent}, bonds id = some bond → bond.waiter = some parent →
    bond.state.terminalOrder = none → target ≠ some id →
    ∃ owner, bonds parent = some owner ∧ (owner.state = .waiting id ∨ id ∈ owner.members)
  member : ∀ {id bond child}, bonds id = some bond → child ∈ bond.members →
    ∃ bond', bonds child = some bond' ∧ bond'.waiter = some id
  notified : ∀ {id bond child order}, bonds id = some bond →
    ((order, child) ∈ bond.ready ↔ child ∈ bond.members ∧ FinishedAt bonds child order)
  unique : ∀ {id bond}, bonds id = some bond → bond.ready.Nodup
  observing : ∀ {id bond}, bonds id = some bond → bond.state = .observing → ¬exempt id →
    bond.ready = [] ∧ bond.members ≠ []

/-- A task is parked on an external wait exactly while the wait is not ready. -/
structure Externals (parkings : Nat → Option Parking) (exempt : Nat → Prop)
    (pending limit : Nat) : Prop where
  parked : ∀ {id parking}, parkings id = some parking → unready parking = 1 →
    parking.state = .externalWaiting
  waits : ∀ {id parking}, parkings id = some parking → parking.state = .externalWaiting →
    ¬exempt id → unready parking = 1
  settled : ∀ {id parking}, parkings id = some parking →
    parking.state.terminalOrder ≠ none → parking.external = none
  pending : pending = tally unready parkings (limit + 1)

structure Stamps (states : Nat → Option Status) (limit : Nat) : Prop where
  bounded : ∀ {id state order}, states id = some state → state.terminalOrder = some order →
    order ≤ limit
  distinct : ∀ {id other state state' order}, states id = some state →
    states other = some state' → state.terminalOrder = some order →
    state'.terminalOrder = some order → id = other

/-- Every registered cleanup is owed by one task, or has run once, or was taken
from its task without running. -/
def Paid (cleanups : Nat → Option (List Cleanup)) (limit pushes : Nat) (ran retired : List Nat) :
    Prop :=
  ∀ serial, ran.count serial + retired.count serial +
    tally (Task.owed serial) cleanups (limit + 1) = if serial < pushes then 1 else 0

/-- One task runs at a time, the current one. -/
structure Currents (states : Nat → Option Status) (current : Option Nat) : Prop where
  running : ∀ {id}, states id = some .running → current = some id
  acting : ∀ {id}, current = some id →
    ∃ state, states id = some state ∧ state ≠ .queued ∧ state.terminalOrder = none

/-- A root that has finished has no children left, and was not cancelled. -/
def Top.Ends (top : Top) : Prop :=
  top.state.terminalOrder ≠ none → top.children = [] ∧ ∀ order, top.state ≠ .cancelled order

/-- The root is the only task without a parent, and there until everything stops. -/
structure Tops (tops : Nat → Option Top) (root : Option Nat) (stopped : Prop) : Prop where
  top : ∀ {id top}, tops id = some top → top.parent = none → root = some id
  rooted : ∀ {id}, root = some id → ¬stopped → ∃ top, tops id = some top ∧ top.parent = none
  closed : ∀ {id top}, tops id = some top → top.parent = none → top.returned = 0
  leaf : ∀ {id top}, tops id = some top → top.parent = none → top.Ends

structure Sound (core : Core) (exempt : Nat → Prop) (target : Option Nat) (stopped : Prop) :
    Prop where
  forest : Forest (view Task.links core.tasks)
  queue : Queue (view Task.state core.tasks) core.ready core.begun
  issued : Issued (view Task.state core.tasks) core.ready core.next
  begun : Begun (view Task.bond core.tasks) core.current core.begun
  waits : Waits (view Task.bond core.tasks) exempt target
  externals : Externals (view Task.parking core.tasks) exempt core.pending core.next
  stamps : Stamps (view Task.state core.tasks) core.next
  paid : Paid (view Task.cleanups core.tasks) core.next core.pushes core.ran core.retired
  currents : Currents (view Task.state core.tasks) core.current
  tops : Tops (view Task.top core.tasks) core.root stopped

/-- No task is being cancelled. -/
abbrev Calm (core : Core) : Prop := Sound core (fun _ => False) none False

/-! ## The queue -/

section
variable {states : Nat → Option Status} {ready ready' begun : List Nat} {id limit : Nat}
  {state state' : Status}

/-- A task that is not queued changes to another state that is not queued. -/
theorem Queue.restate (h : Queue states ready begun) (hid : states id = some state)
    (hstate : state ≠ .queued) (hstate' : state' ≠ .queued) :
    Queue (put states id state') ready begun := by
  refine ⟨?_, ?_⟩
  · intro other hother
    have hold := @h.queued other
    grind
  · intro other seen hother hseen hmem
    have hold := @h.only other seen
    have hself := @h.only id state
    grind

theorem Queue.notMem (h : Queue states ready begun) (hid : states id = some state)
    (hstate : state ≠ .queued) (hbegun : id ∉ begun) : id ∉ ready :=
  fun hmem => hbegun (h.only hid hstate hmem)

theorem Queue.push (h : Queue states ready begun) (hnot : id ∉ ready)
    (hpush : ready'.Perm (id :: ready)) : Queue (put states id .queued) ready' begun := by
  refine ⟨?_, ?_⟩
  · intro other hother
    have hold := @h.queued other
    grind
  · intro other state hother hstate hmem
    have hold := @h.only other state
    grind

/-- A child is finished by a cancellation wherever it was. -/
theorem Queue.cancel (h : Queue states ready begun) (hstate' : state' ≠ .queued) :
    Queue (put states id state') ready (id :: begun) := by
  refine ⟨?_, ?_⟩
  · intro other hother
    have hold := @h.queued other
    grind
  · intro other seen hother hseen hmem
    have hold := @h.only other seen
    grind

theorem Queue.drop (h : Queue states ready begun) :
    Queue (drop states id) ready (begun.filter fun other => other != id) := by
  refine ⟨?_, ?_⟩
  · intro other hother
    have hold := @h.queued other
    grind
  · intro other state hother hstate hmem
    have hold := @h.only other state
    grind

theorem Queue.pop (h : Queue states (ready ++ id :: ready') begun)
    (hdead : ∀ other ∈ ready, states other = none) (hid : states id = some .queued)
    (hstate' : state' ≠ .queued) : Queue (put states id state') ready' begun := by
  have honce := h.queued hid
  refine ⟨?_, ?_⟩
  · intro other hother
    have hold := @h.queued other
    grind
  · intro other state hother hstate hmem
    have hold := @h.only other state
    grind

theorem Queue.clear (h : Queue states ready begun)
    (hdead : ∀ other ∈ ready, states other = none) : Queue states [] begun := by
  refine ⟨?_, ?_⟩
  · intro other hother
    have hold := @h.queued other
    grind
  · intro other state _ _ hmem; simp at hmem

/-! ## Identities and stamps -/

theorem Issued.put (h : Issued states ready limit) (hid : states id = some state)
    (hready : ∀ other ∈ ready', other ∈ ready ∨ other = id) :
    Issued (put states id state') ready' limit := by
  have hlive := h.live hid
  refine ⟨?_, ?_⟩
  · intro other seen hother
    have hold := @h.live other seen
    grind
  · intro other hother
    have hold := @h.listed other
    grind

theorem Issued.create (h : Issued states ready limit) :
    Issued (Tables.put states (limit + 1) state') (ready ++ [limit + 1]) (limit + 1) := by
  refine ⟨?_, ?_⟩
  · intro other seen hother
    have hold := @h.live other seen
    grind
  · intro other hother
    have hold := @h.listed other
    grind

theorem Issued.drop (h : Issued states ready limit) : Issued (drop states id) ready limit := by
  refine ⟨?_, h.listed⟩
  intro other seen hother
  have hold := @h.live other seen
  grind

theorem Issued.succ (h : Issued states ready limit) : Issued states ready (limit + 1) :=
  ⟨fun hid => Nat.le_succ_of_le (h.live hid), fun hid => Nat.le_succ_of_le (h.listed hid)⟩

theorem Issued.fresh (h : Issued states ready limit) : states (limit + 1) = none := by
  by_contra hlive
  obtain ⟨state, hstate⟩ := Option.ne_none_iff_exists'.mp hlive
  exact absurd (h.live hstate) (Nat.not_succ_le_self limit)

theorem Stamps.restate (h : Stamps states limit) (hnone : state'.terminalOrder = none) :
    Stamps (put states id state') limit := by
  refine ⟨?_, ?_⟩
  · intro other seen order hother horder
    have hold := @h.bounded other seen order
    grind
  · intro one other seen seen' order hone hother horder horder'
    have hold := @h.distinct one other seen seen' order
    grind

theorem Stamps.succ (h : Stamps states limit) : Stamps states (limit + 1) :=
  ⟨fun hid horder => Nat.le_succ_of_le (h.bounded hid horder), h.distinct⟩

theorem Stamps.finish (h : Stamps states limit) (horder : state'.terminalOrder = some (limit + 1)) :
    Stamps (put states id state') (limit + 1) := by
  refine ⟨?_, ?_⟩
  · intro other seen order hother hseen
    have hold := @h.bounded other seen order
    grind
  · intro one other seen seen' order hone hother hseen hseen'
    have hold := @h.distinct one other seen seen' order
    have hbound := @h.bounded one seen order
    have hbound' := @h.bounded other seen' order
    grind

theorem Stamps.drop (h : Stamps states limit) : Stamps (drop states id) limit := by
  refine ⟨?_, ?_⟩
  · intro other seen order hother horder
    have hold := @h.bounded other seen order
    grind
  · intro one other seen seen' order hone hother horder horder'
    have hold := @h.distinct one other seen seen' order
    grind

end

/-! ## Children under cancellation -/

section
variable {bonds : Nat → Option Bond} {current : Option Nat} {begun : List Nat} {id : Nat}
  {bond bond' : Bond}

theorem begun_nil : Begun bonds current [] := by
  intro id hmem; simp at hmem

/-- An edit that leaves a child under cancellation what it is, and observes none. -/
theorem Begun.put (h : Begun bonds current begun) (hid : bonds id = some bond)
    (hkeep : id ∈ begun → bond'.parent = bond.parent ∧ bond'.waiter = bond.waiter ∧
      bond'.state.terminalOrder ≠ none)
    (hmembers : ∀ child ∈ bond'.members, child ∈ bond.members ∨ child ∉ begun) :
    Begun (put bonds id bond') current begun := by
  intro other hother
  obtain ⟨seen, parent, owner, hseen, hterminal, hparent, hwaiter, hcurrent, howner, hnot⟩ :=
    h _ hother
  refine ⟨if other = id then bond' else seen, parent, if parent = id then bond' else owner, ?_⟩
  grind

theorem Begun.create (h : Begun bonds current begun) (hnew : bonds id = none) :
    Begun (Tables.put bonds id bond) current begun := by
  intro other hother
  obtain ⟨seen, parent, owner, hseen, hterminal, hparent, hwaiter, hcurrent, howner, hnot⟩ :=
    h _ hother
  grind

theorem Begun.drop (h : Begun bonds current begun) (hid : current ≠ some id) :
    Begun (drop bonds id) current (begun.filter fun other => other != id) := by
  intro other hother
  have hmem : other ∈ begun ∧ other ≠ id := by simpa using hother
  obtain ⟨seen, parent, owner, hseen, hterminal, hparent, hwaiter, hcurrent, howner, hnot⟩ :=
    h _ hmem.1
  grind

theorem Begun.cons (h : Begun bonds current begun) {parent : Nat} {owner : Bond}
    (hid : bonds id = some bond) (hterminal : bond.state.terminalOrder ≠ none)
    (hparent : bond.parent = some parent) (hwaiter : bond.waiter = some parent)
    (hcurrent : current = some parent) (howner : bonds parent = some owner)
    (hnot : id ∉ owner.members) : Begun bonds current (id :: begun) := by
  intro other hother
  obtain hsame | hmem := List.mem_cons.mp hother
  · rw [hsame]
    exact ⟨bond, parent, owner, hid, hterminal, hparent, hwaiter, hcurrent, howner, hnot⟩
  · exact h _ hmem

/-- A task without children holds nothing under cancellation. -/
theorem Begun.eq_nil (h : Begun bonds (some id) begun)
    (hleaf : ∀ {other seen}, bonds other = some seen → seen.parent ≠ some id) : begun = [] := by
  apply List.eq_nil_iff_forall_not_mem.mpr
  intro other hother
  obtain ⟨seen, parent, _, hseen, _, hparent, _, hcurrent, _⟩ := h _ hother
  exact hleaf hseen (hcurrent ▸ hparent)

end

/-! ## External waits -/

section
variable {parkings : Nat → Option Parking} {exempt exempt' : Nat → Prop}
  {pending pending' limit id : Nat} {parking parking' : Parking}

section
variable (h : Externals parkings exempt pending limit)
include h

theorem Externals.put (hid : parkings id = some parking) (hlimit : id ≤ limit)
    (hparked : unready parking' = 1 → parking'.state = .externalWaiting)
    (hwaits : parking'.state = .externalWaiting → ¬exempt' id → unready parking' = 1)
    (hsettled : parking'.state.terminalOrder ≠ none → parking'.external = none)
    (hpending : pending' + unready parking = pending + unready parking')
    (hless : ∀ other, exempt other → exempt' other ∨ other = id) :
    Externals (put parkings id parking') exempt' pending' limit := by
  obtain ⟨hold, hwait, hnone, hcount⟩ := h
  refine ⟨?_, ?_, ?_, ?_⟩
  · intro other seen hother; grind
  · intro other seen hother; grind
  · intro other seen hother hterminal; grind
  · have hedit := tally_put unready parking' hid (show id < limit + 1 by omega)
    omega

theorem Externals.same (hid : parkings id = some parking) :
    Externals (Tables.put parkings id parking) exempt pending limit := by
  rw [put_eq_self hid]; exact h

theorem Externals.create (hnew : parkings (limit + 1) = none) :
    Externals (Tables.put parkings (limit + 1) ⟨.queued, none⟩) exempt pending (limit + 1) := by
  obtain ⟨hold, hwait, hnone, hcount⟩ := h
  refine ⟨?_, ?_, ?_, ?_⟩
  · intro other seen hother; grind [unready]
  · intro other seen hother; grind
  · intro other seen hother hterminal; grind
  · rw [tally_insert unready _ hnew (Nat.lt_add_one _), tally_succ unready hnew, hcount]
    rfl

theorem Externals.succ (hnew : parkings (limit + 1) = none) :
    Externals parkings exempt pending (limit + 1) :=
  ⟨h.parked, h.waits, h.settled, h.pending.trans (tally_succ unready hnew).symm⟩

end

theorem Externals.drop (h : Externals parkings exempt pending limit)
    (hid : parkings id = some parking) (hlimit : id ≤ limit) (hready : unready parking = 0) :
    Externals (drop parkings id) exempt pending limit := by
  obtain ⟨hold, hwait, hnone, hcount⟩ := h
  refine ⟨?_, ?_, ?_, ?_⟩
  · intro other seen hother; grind
  · intro other seen hother; grind
  · intro other seen hother hterminal; grind
  · have hedit := tally_drop unready hid (show id < limit + 1 by omega)
    omega

theorem Externals.le_pending (h : Externals parkings exempt pending limit)
    (hid : parkings id = some parking) (hlimit : id ≤ limit) : unready parking ≤ pending := by
  rw [h.pending]; exact le_tally unready hid (show id < limit + 1 by omega)

end

/-! ## Cleanups -/

section
variable {cleanups : Nat → Option (List Cleanup)} {limit pushes pushes' id : Nat}
  {ran ran' retired retired' : List Nat} {owed owed' : List Cleanup}

section
variable (h : Paid cleanups limit pushes ran retired)
include h

theorem Paid.put (hid : cleanups id = some owed) (hlimit : id ≤ limit)
    (hmoved : ∀ serial, ran'.count serial + retired'.count serial + Task.owed serial owed' +
      (if serial < pushes then 1 else 0) =
      ran.count serial + retired.count serial + Task.owed serial owed +
      if serial < pushes' then 1 else 0) :
    Paid (put cleanups id owed') limit pushes' ran' retired' := by
  intro serial
  have hold := h serial
  have hthis := hmoved serial
  have hedit := tally_put (Task.owed serial) owed' hid (show id < limit + 1 by omega)
  omega

theorem Paid.same (hid : cleanups id = some owed) :
    Paid (Tables.put cleanups id owed) limit pushes ran retired := by
  rw [put_eq_self hid]; exact h

theorem Paid.create (hnew : cleanups (limit + 1) = none) :
    Paid (Tables.put cleanups (limit + 1) []) (limit + 1) pushes ran retired := by
  intro serial
  rw [tally_insert _ _ hnew (Nat.lt_add_one _), tally_succ _ hnew]
  exact h serial

theorem Paid.succ (hnew : cleanups (limit + 1) = none) :
    Paid cleanups (limit + 1) pushes ran retired := by
  intro serial
  rw [tally_succ _ hnew]; exact h serial

end

theorem Paid.drop (h : Paid cleanups limit pushes ran retired) (hid : cleanups id = some owed)
    (hlimit : id ≤ limit) (hmoved : ∀ serial, ran'.count serial + retired'.count serial =
      ran.count serial + retired.count serial + Task.owed serial owed) :
    Paid (drop cleanups id) limit pushes ran' retired' := by
  intro serial
  have hold := h serial
  have hthis := hmoved serial
  have hedit := tally_drop (Task.owed serial) hid (show id < limit + 1 by omega)
  omega

end

/-! ## The current task and the root -/

section
variable {states : Nat → Option Status} {current : Option Nat} {id : Nat} {state state' : Status}

theorem Currents.put (h : Currents states current)
    (hrunning : state' = .running → current = some id)
    (hacting : current = some id → state' ≠ .queued ∧ state'.terminalOrder = none) :
    Currents (put states id state') current := by
  refine ⟨?_, ?_⟩
  · intro other hother
    have hthis := @h.running other
    grind
  · intro other hother
    have hthis := @h.acting other hother
    grind

theorem Currents.drop (h : Currents states current) (hid : current ≠ some id) :
    Currents (drop states id) current := by
  refine ⟨?_, ?_⟩
  · intro other hother
    have hthis := @h.running other
    grind
  · intro other hother
    have hthis := @h.acting other hother
    grind

theorem Currents.leave (h : Currents states current) (hstop : states id ≠ some .running)
    (hid : current = some id) : Currents states none := by
  refine ⟨?_, nofun⟩
  intro other hother
  have hthis := h.running hother
  grind

theorem Currents.resume (h : Currents states none) :
    Currents (Tables.put states id .running) (some id) := by
  refine ⟨?_, ?_⟩
  · intro other hother
    have hthis := @h.running other
    grind
  · intro other hother
    rw [Option.some.injEq] at hother
    exact ⟨.running, by rw [hother, put_self], by simp, rfl⟩

end

section
variable {tops : Nat → Option Top} {root : Option Nat} {stopped : Prop} {id : Nat}
  {top top' : Top}

/-- An edit that keeps the parent, or gives another. -/
theorem Tops.put (h : Tops tops root stopped) (hid : tops id = some top)
    (hparent : top'.parent = none ↔ top.parent = none)
    (hclosed : top'.parent = none → top'.returned = 0) (hleaf : top'.parent = none → top'.Ends) :
    Tops (put tops id top') root stopped := by
  cases h
  constructor
  all_goals grind

theorem Tops.create (h : Tops tops root stopped) (hnew : tops id = none)
    (hparent : top.parent ≠ none) : Tops (Tables.put tops id top) root stopped := by
  cases h
  constructor
  all_goals grind

theorem Tops.plant (h : Tops tops none stopped) :
    Tops (Tables.put tops id ⟨none, [], 0, .queued⟩) (some id) stopped := by
  have hnone : ∀ {other seen}, tops other = some seen → seen.parent ≠ none := by
    intro other seen hother hparent
    exact absurd (h.top hother hparent) (by simp)
  have hends : Top.Ends ⟨none, [], 0, .queued⟩ := fun hterminal => absurd rfl hterminal
  refine ⟨?_, ?_, ?_, ?_⟩
  · intro other seen hother; grind
  · intro other hroot _
    rw [Option.some.injEq] at hroot
    exact ⟨⟨none, [], 0, .queued⟩, by rw [hroot, put_self], rfl⟩
  · intro other seen hother; grind
  · intro other seen hother; grind

theorem Tops.drop (h : Tops tops root stopped) (hid : root = some id → stopped) :
    Tops (drop tops id) root stopped := by
  cases h
  constructor
  all_goals grind

end

end Loom.Tasks

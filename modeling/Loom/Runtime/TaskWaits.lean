import Loom.Runtime.TaskInvariant

/-
  Waiters, observed children and what they wait for.

  `Waits` ties the two ends together: a task waits for a live child that names
  it, a child that names a waiter is waited for or observed, a notification is
  there exactly for the finished members. One lemma for each edit the scheduler
  makes: a child asked for or observed, a notification taken, a task finished,
  removed or taken over by a cancellation.
-/

namespace Loom.Tasks

open Tables

section
variable {bonds : Nat → Option Bond} {exempt exempt' : Nat → Prop} {target : Option Nat}
  {id parent child : Nat} {bond owner : Bond} {state : Status}

theorem finishedAt_put {bond' : Bond} (hid : bonds id = some bond)
    (hsame : bond'.state.terminalOrder = bond.state.terminalOrder) :
    FinishedAt (put bonds id bond') = FinishedAt bonds := by
  funext child order
  unfold FinishedAt
  by_cases hchild : child = id
  · grind
  · rw [put_of_ne hchild]

theorem finishedAt_create (hnew : bonds id = none) (hopen : bond.state.terminalOrder = none) :
    FinishedAt (put bonds id bond) = FinishedAt bonds := by
  funext child order
  unfold FinishedAt
  by_cases hchild : child = id
  · grind
  · rw [put_of_ne hchild]

variable {order : Nat} {ready : List (Nat × Nat)} {members : List Nat}

theorem finishedAt_finish {bond' : Bond} : FinishedAt (put bonds id bond') child order ↔
      (child = id ∧ bond'.state.terminalOrder = some order) ∨
        (child ≠ id ∧ FinishedAt bonds child order) := by
  unfold FinishedAt
  by_cases hchild : child = id
  · rw [hchild]; simp
  · rw [put_of_ne hchild]; simp [hchild]

theorem FinishedAt.eq {order' : Nat} (h : FinishedAt bonds id order)
    (h' : FinishedAt bonds id order') : order = order' := by
  obtain ⟨bond, hid, horder⟩ := h
  obtain ⟨bond', hid', horder'⟩ := h'
  grind

theorem Waits.create (h : Waits bonds exempt target) (hnew : bonds id = none)
    (upper : Option Nat) : Waits (put bonds id ⟨upper, none, .queued, [], []⟩) exempt target := by
  cases h
  constructor
  case notified =>
    rw [finishedAt_create hnew rfl]; grind
  all_goals grind

section
variable (h : Waits bonds exempt target) (hid : bonds id = some bond)
include h hid

/-- A task that waits for no other task changes to such a state. -/
theorem Waits.restate
    (hwas : bond.state = .queued ∨ bond.state = .running ∨ bond.state = .externalWaiting)
    (hnow : state = .queued ∨ state = .running ∨ state = .externalWaiting) :
    Waits (put bonds id { bond with state := state }) exempt target := by
  have hopen : bond.state.terminalOrder = none := by grind [Status.terminalOrder]
  have hnew : state.terminalOrder = none := by grind [Status.terminalOrder]
  cases h
  constructor
  case notified =>
    rw [finishedAt_put hid]
    · grind
    · exact hnew.trans hopen.symm
  all_goals grind

theorem Waits.move (hwaiter : bond.waiter = none) (upper : Option Nat) :
    Waits (put bonds id { bond with parent := upper }) exempt target := by
  cases h
  constructor
  case notified =>
    rw [finishedAt_put hid]
    · grind
    · exact rfl
  all_goals grind

theorem Waits.askFinished (hparent : bond.parent = some parent)
    (hwaiter : bond.waiter = none ∨ bond.waiter = some parent)
    (hterminal : bond.state.terminalOrder ≠ none) :
    Waits (put bonds id { bond with waiter := some parent }) exempt target := by
  cases h
  constructor
  case notified =>
    rw [finishedAt_put hid]
    · grind
    · exact rfl
  all_goals grind

theorem Waits.ask (hparent : bond.parent = some parent) (howner : bonds parent = some owner)
    (hne : id ≠ parent) (hnot : id ∉ owner.members)
    (hstate : owner.state = .running ∨ owner.state = .waiting id)
    (hwaiter : bond.waiter = none ∨ bond.waiter = some parent)
    (hopen : bond.state.terminalOrder = none) :
    Waits (put (put bonds id { bond with waiter := some parent }) parent
      { owner with state := .waiting id }) exempt target := by
  have hrun : owner.state.terminalOrder = none := by grind [Status.terminalOrder]
  have howner' : put bonds id { bond with waiter := some parent } parent = some owner := by
    rw [put_of_ne hne.symm, howner]
  cases h
  constructor
  case notified =>
    rw [finishedAt_put howner', finishedAt_put hid]
    · grind
    · exact rfl
    · exact hrun.symm
  all_goals grind [Status.terminalOrder]

theorem Waits.park (hstate : bond.state = .running ∨ bond.state = .observing)
    (hready : bond.ready = []) (hmembers : bond.members ≠ []) :
    Waits (put bonds id { bond with state := .observing }) exempt target := by
  have hopen : bond.state.terminalOrder = none := by grind [Status.terminalOrder]
  cases h
  constructor
  case notified =>
    rw [finishedAt_put hid]
    · grind
    · exact hopen.symm
  all_goals grind [Status.terminalOrder]

/-- A running task observes an unawaited child; a finished one is notified at once. -/
theorem Waits.observe (hparent : bond.parent = some parent) (howner : bonds parent = some owner)
    (hne : id ≠ parent) (hwaiter : bond.waiter = none) (hstate : owner.state = .running)
    (hnodup : ready.Nodup)
    (hready : ∀ order child, (order, child) ∈ ready ↔
      (order, child) ∈ owner.ready ∨ child = id ∧ FinishedAt bonds id order) :
    Waits (put (put bonds id { bond with waiter := some parent }) parent
      { owner with members := id :: owner.members, ready := ready }) exempt target := by
  have howner' : put bonds id { bond with waiter := some parent } parent = some owner := by
    rw [put_of_ne hne.symm, howner]
  cases h
  constructor
  case notified =>
    rw [finishedAt_put howner', finishedAt_put hid]
    · grind
    · exact rfl
    · exact rfl
  all_goals grind

end

theorem Waits.select (h : Waits bonds exempt target) (howner : bonds parent = some owner)
    (hstate : owner.state = .running) {rest : List (Nat × Nat)}
    (hready : owner.ready = (order, id) :: rest)
    (hmembers : ∀ child, child ∈ members ↔ child ∈ owner.members ∧ child ≠ id)
    (hid : bonds id = some bond) (hne : id ≠ parent) :
    Waits (put (put bonds parent { owner with members := members, ready := rest }) id
      { bond with waiter := none }) exempt target := by
  have hentry : ∀ other child, (other, child) ∈ owner.ready ↔
      child ∈ owner.members ∧ FinishedAt bonds child other := fun other child => h.notified howner
  obtain ⟨hin, hfinished⟩ := (hentry order id).mp (hready ▸ (.head _))
  have hnodup := h.unique howner
  have hrest : ∀ other child, (other, child) ∈ rest ↔
      child ∈ owner.members ∧ FinishedAt bonds child other ∧ child ≠ id := by
    intro other child
    have honce := fun hother : FinishedAt bonds id other => hfinished.eq hother
    grind
  have hid' : put bonds parent { owner with members := members, ready := rest } id = some bond := by
    rw [put_of_ne hne, hid]
  cases h
  constructor
  case notified =>
    rw [finishedAt_put hid', finishedAt_put howner]
    · grind
    · exact rfl
    · exact rfl
  all_goals grind

/-- What a finishing task waited for is no longer waited for. -/
def Lets (bonds : Nat → Option Bond) (id : Nat) (bond : Bond) : Prop :=
  ∀ {child seen}, bond.state = .waiting child → bonds child = some seen → seen.parent ≠ some id

theorem Waits.finish (h : Waits bonds exempt target) (hid : bonds id = some bond)
    (hlets : Lets bonds id bond)
    (hfree : ∀ {other seen}, bonds other = some seen → id ∉ seen.members ∧
      (other ≠ id → seen.state = .waiting id → exempt' other)) (hstate : state.terminalOrder ≠ none)
    (hless : ∀ other, exempt other → exempt' other ∨ other = id)
    (htarget : target = none ∨ target = some id) :
    Waits (put bonds id { bond with state := state }) exempt' none := by
  have hwait' : ∀ other, state ≠ .waiting other := by
    intro other hsame
    rw [hsame] at hstate; exact hstate rfl
  have hobserve : state ≠ .observing := by
    intro hsame
    rw [hsame] at hstate; exact hstate rfl
  have hnew (child order : Nat) :=
    @finishedAt_finish bonds id child order { bond with state := state }
  have hasked := @h.asked
  cases h
  constructor
  case asked =>
    intro other seen parent hother hask hopen' _
    by_cases hsame : other = id
    · grind
    · have hseen : bonds other = some seen := by grind
      obtain ⟨owner, howner, hcases⟩ := hasked hseen hask hopen' (by grind)
      by_cases hself : parent = id
      · have hnot := @hlets other seen
        exact ⟨{ bond with state := state }, by grind, by grind⟩
      · exact ⟨owner, by grind, hcases⟩
  all_goals grind

section
variable (h : Waits bonds exempt none) (hid : bonds id = some bond)
  (hopen : bond.state.terminalOrder = none) (hlets : Lets bonds id bond)
  (hparent : bond.parent = some parent) (hne : id ≠ parent) (howner : bonds parent = some owner)
include h hid hopen hlets hparent hne howner

/-- A task its parent waits for finishes: the parent is queued. -/
theorem Waits.finishAwaited (hwait : owner.state = .waiting id) (hnot : id ∉ owner.members)
    (hstate : state.terminalOrder ≠ none) (hless : ∀ other, exempt other → other = id) :
    Waits (put (put bonds id { bond with state := state }) parent
      { owner with state := .queued }) (fun _ => False) none := by
  unfold Lets at hlets
  have howner' : put bonds id { bond with state := state } parent = some owner := by
    rw [put_of_ne hne.symm, howner]
  have hnew (child order : Nat) :=
    @finishedAt_finish bonds id child order { bond with state := state }
  have hrun : owner.state.terminalOrder = none := by rw [hwait]; rfl
  cases h
  constructor
  case notified =>
    rw [finishedAt_put howner']
    · grind
    · exact hrun.symm
  all_goals grind [Status.terminalOrder]

/-- An observed task finishes: its parent is notified, and queued if it waits for that. -/
theorem Waits.finishObserved (hin : id ∈ owner.members) (horder : state.terminalOrder = some order)
    (hnodup : ready.Nodup)
    (hready : ∀ entry, entry ∈ ready ↔ entry ∈ owner.ready ∨ entry = (order, id)) {state' : Status}
    (hstate' : owner.state = .observing ∧ state' = .queued ∨ owner.state ≠ .observing ∧ state' = owner.state)
    (hless : ∀ other, exempt other → other = id) :
    Waits (put (put bonds id { bond with state := state }) parent
      { owner with state := state', ready := ready }) (fun _ => False) none := by
  unfold Lets at hlets
  have howner' : put bonds id { bond with state := state } parent = some owner := by
    rw [put_of_ne hne.symm, howner]
  have hnew (child order : Nat) :=
    @finishedAt_finish bonds id child order { bond with state := state }
  have hnone : ∀ order, ¬FinishedAt bonds id order := by
    intro other hfinished
    obtain ⟨seen, hseen, hother⟩ := hfinished
    grind
  have hkeep : state'.terminalOrder = owner.state.terminalOrder := by
    grind [Status.terminalOrder]
  cases h
  constructor
  case notified =>
    intro other seen child order' hother
    rw [finishedAt_put howner']
    · by_cases hself : other = parent
      · grind
      · by_cases hsame : other = id
        · grind
        · grind
    · exact hkeep
  all_goals grind [Status.terminalOrder]

end

section
variable (h : Waits bonds exempt target) (hid : bonds id = some bond)
  (hleaf : ∀ {other seen}, bonds other = some seen → seen.parent ≠ some id)
include h hid hleaf

/-- A task without children is removed, and forgotten by its parent. -/
theorem Waits.retire (hparent : bond.parent = some parent) (howner : bonds parent = some owner)
    (hne : id ≠ parent) (hwait : owner.state = .waiting id → exempt parent) (hnodup : ready.Nodup)
    (hmembers : ∀ child, child ∈ members ↔ child ∈ owner.members ∧ child ≠ id)
    (hready : ∀ order child, (order, child) ∈ ready ↔ (order, child) ∈ owner.ready ∧ child ≠ id)
    (hobserve : owner.state = .observing → ¬exempt parent → ready = [] ∧ members ≠ []) :
    Waits (put (drop bonds id) parent { owner with members := members, ready := ready })
      exempt target := by
  have hfinished : ∀ child order, child ≠ id → (FinishedAt (put (drop bonds id) parent
      { owner with members := members, ready := ready }) child order ↔
        FinishedAt bonds child order) := by
    unfold FinishedAt; grind
  cases h
  constructor
  all_goals grind

theorem Waits.fell (hparent : bond.parent = none) : Waits (drop bonds id) exempt target := by
  have hfinished : ∀ child order, child ≠ id →
      (FinishedAt (drop bonds id) child order ↔ FinishedAt bonds child order) := by
    intro child order hchild
    unfold FinishedAt
    rw [drop_of_ne hchild]
  cases h
  constructor
  all_goals grind

end

/-- A child is taken over by the cancellation its running parent begins. -/
theorem Waits.forget (h : Waits bonds exempt none) (hid : bonds id = some bond)
    (hparent : bond.parent = some parent) (howner : bonds parent = some owner) (hne : id ≠ parent)
    (hstate : owner.state = .running) (hnodup : ready.Nodup)
    (hmembers : ∀ child, child ∈ members ↔ child ∈ owner.members ∧ child ≠ id)
    (hready : ∀ order child, (order, child) ∈ ready ↔ (order, child) ∈ owner.ready ∧ child ≠ id)
    (htarget : target = some id ∨ bond.state.terminalOrder ≠ none) :
    Waits (put (put bonds parent { owner with members := members, ready := ready }) id
      { bond with waiter := some parent }) exempt target := by
  have hid' : put bonds parent { owner with members := members, ready := ready } id =
      some bond := by
    rw [put_of_ne hne, hid]
  cases h
  constructor
  case notified =>
    rw [finishedAt_put hid', finishedAt_put howner]
    · grind
    · exact rfl
    · exact rfl
  all_goals grind

end

end Loom.Tasks

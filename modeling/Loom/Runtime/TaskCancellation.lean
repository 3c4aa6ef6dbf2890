import Loom.Runtime.TaskEnds

/-
  A cancellation removes the tasks below its base, children before parents.
-/

namespace Loom.Tasks

open Faults Tables Forests Option List

/-! ## What a cancellation is part of -/

/-- The tasks that what follows the cancellation will end. -/
def After.covers : After → Nat → Prop
  | .drained _, _ => False
  | .cancelled child, id => id = child
  | .faulted other _, id => id = other
  | .stopped _, _ => True

def After.target : After → Option Nat
  | .cancelled child => some child
  | _ => none

def After.stops : After → Prop
  | .stopped _ => True
  | _ => False

/-- The task above the subtrees that are removed. -/
def After.base (core : Core) : After → Option Nat
  | .drained _ => core.current
  | .cancelled child => some child
  | .faulted id _ => some id
  | .stopped _ => none

/-- Tasks that are being removed or ended are never resumed. -/
def Spared (pending : List (Nat × Bool)) (after : After) (id : Nat) : Prop :=
  (id, true) ∈ pending ∨ after.covers id

/-- What the place where the cancellation began promises. -/
def Stage (core : Core) (pending : List (Nat × Bool)) : After → Prop
  | .drained _ => ∃ id task, core.current = some id ∧ core.tasks id = some task ∧
      task.state = .running
  | .cancelled child => ∃ parent caller task, Claimed core child parent caller task ∧
      task.state.terminalOrder = none
  | .faulted id _ => core.current = some id
  | .stopped root => core.current = none ∧ core.root = some root ∧
      (core.tasks root = none ∨ root ∈ pending.map Prod.fst)

structure Cancelling (core : Core) (pending : List (Nat × Bool)) (after : After) : Prop where
  sound : Sound core (Spared pending after) after.target after.stops
  root : core.root ≠ none
  traversal : Traversal (view Task.links core.tasks) (after.base core) pending
  stage : Stage core pending after

section
variable {core core' : Core} {pending rest : List (Nat × Bool)} {after : After} {id : Nat}
  {task : Task}

variable {expanded : Bool}

theorem Cancelling.top (h : Cancelling core ((id, expanded) :: rest) after) :
    ∃ task, core.tasks id = some task ∧ task.parent = holder (after.base core) rest := by
  obtain ⟨⟨node, hnode, hparent⟩, _⟩ := h.traversal.stacked
  obtain ⟨task, htask, hsame⟩ := view_eq_some.mp hnode
  exact ⟨task, htask, by rw [← hsame] at hparent; exact hparent⟩

theorem Cancelling.expand (h : Cancelling core ((id, false) :: rest) after)
    (hid : core.tasks id = some task) :
    Cancelling core ((task.children.reverse.map fun child => (child, false)) ++ (id, true) :: rest)
      after := by
  refine ⟨h.sound.excuse ?_, h.root, h.traversal.expand h.sound.forest (view_some hid)
    (reverse_perm _), ?_⟩
  · intro other _ _ hexempt
    refine hexempt.imp_left ?_
    intro hmem
    obtain hsame | hin := mem_cons.mp hmem
    · simp at hsame
    · exact mem_append_right _ (.tail _ hin)
  · have hstage := h.stage
    cases after with
    | stopped root =>
      refine ⟨hstage.1, hstage.2.1, hstage.2.2.imp_right ?_⟩
      intro hmem
      rw [map_append, mem_append]; exact .inr hmem
    | _ => exact hstage

/-- The task that runs is not one of those that are removed. -/
theorem Cancelling.notCurrent (h : Cancelling core ((id, expanded) :: rest) after) :
    core.current ≠ some id := by
  obtain ⟨rank, hrank⟩ := h.sound.forest.ranked
  have hmem : id ∈ ((id, expanded) :: rest).map Prod.fst := by simp
  have hstage := h.stage
  have hstacked := h.traversal.stacked
  intro hcurrent
  cases after with
  | drained =>
    rw [show After.base core (.drained _) = some id from hcurrent] at hstacked
    exact absurd (hstacked.rank hrank hmem) (lt_irrefl _)
  | cancelled child =>
    obtain ⟨parent, caller, task, hclaimed, _⟩ := hstage
    have hless := hstacked.rank hrank hmem
    have hup := hrank (view_some hclaimed.family.held) hclaimed.family.above
    have hsame := some.inj (hcurrent.symm.trans hclaimed.family.current)
    rw [hsame] at hless; exact absurd (hless.trans hup) (lt_irrefl _)
  | faulted other =>
    have hsame : id = other := some.inj (hcurrent.symm.trans hstage)
    rw [← hsame] at hstacked
    exact absurd (hstacked.rank hrank hmem) (lt_irrefl _)
  | stopped => exact absurd (hstage.1.symm.trans hcurrent) (by simp)

/-- A parent of an expanded top expects nothing any more. -/
theorem Cancelling.idle (h : Cancelling core ((id, expanded) :: rest) after)
    (hid : core.tasks id = some task) {parent : Nat} {owner : Task}
    (hparent : task.parent = some parent) (howner : core.tasks parent = some owner)
    (hwait : owner.state = .waiting id ∨ owner.state = .observing) :
    Spared ((id, expanded) :: rest) after parent := by
  obtain ⟨found, hfound, hholder⟩ := h.top
  rw [hid, some.injEq] at hfound
  rw [← hfound, hparent] at hholder
  obtain hbase | ⟨other, hother, hmem⟩ := holder_eq (after.base core) rest
  · have hstage := h.stage
    rw [hbase] at hholder
    cases after with
    | drained =>
      obtain ⟨running, task', hcurrent, htask', hstate⟩ := hstage
      have hsame := some.inj (hholder.trans hcurrent)
      rw [hsame, htask', some.injEq] at howner
      rw [← howner, hstate] at hwait; simp at hwait
    | cancelled child => exact .inr (some.inj hholder)
    | faulted other => exact .inr (some.inj hholder)
    | stopped => exact .inr trivial
  · rw [hother, some.injEq] at hholder; exact .inl (.tail _ (hholder ▸ hmem))

theorem Cancelling.retire (h : Cancelling core ((id, true) :: rest) after)
    (hid : core.tasks id = some task) (first : Option String) :
    Safe (fun retired => Cancelling retired.1 rest after ∧
        Removed core retired.1 id task.cleanups) (retire core id first) := by
  obtain ⟨found, hfound, hholder⟩ := h.top
  rw [hid, some.injEq] at hfound
  rw [← hfound] at hholder
  have hstops : task.parent = none → after.stops := by
    intro hnone
    rw [hnone] at hholder
    obtain hbase | ⟨_, hother, _⟩ := holder_eq (after.base core) rest
    · rw [hbase] at hholder
      have hstage := h.stage
      cases after with
      | drained =>
        obtain ⟨_, _, hcurrent, _⟩ := hstage
        exact absurd (hholder.trans hcurrent) (by simp)
      | cancelled => exact absurd hholder (by simp [After.base])
      | faulted => exact absurd hholder (by simp [After.base])
      | stopped => exact trivial
    · rw [hother] at hholder; simp at hholder
  refine (safe_retire h.sound hid (h.traversal.leaf h.sound.forest (view_some hid)) h.notCurrent
    hstops (h.idle hid) (.inl (.head _)) first).imp ?_
  intro retired hdone
  obtain ⟨hsound, hremoved⟩ := hdone
  refine ⟨⟨?_, ?_, ?_, ?_⟩, hremoved⟩
  · refine hsound.excuse ?_
    intro other task' hother hexempt
    refine hexempt.imp_left ?_
    intro hmem
    obtain hsame | hin := mem_cons.mp hmem
    · rw [Prod.mk.injEq] at hsame
      rw [hsame.1, hremoved.gone] at hother; simp at hother
    · exact hin
  · rw [hremoved.root]; exact h.root
  · have hbase : after.base retired.1 = after.base core := by
      cases after with
      | drained => exact hremoved.current
      | _ => rfl
    rw [hbase]
    refine h.traversal.remove ?_
    intro other node hne hother
    obtain ⟨task', htask', hsame⟩ := view_eq_some.mp hother
    obtain ⟨task'', htask'', hup, _, _, _, hchildren, _⟩ := hremoved.kept hne htask'
    rw [← hsame]; exact ⟨_, view_some htask'', hup, hchildren⟩
  · have hstage := h.stage
    have hnot := h.notCurrent
    cases after with
    | drained =>
      obtain ⟨running, task', hcurrent, htask', hstate⟩ := hstage
      have hne : running ≠ id := fun hsame => hnot (hsame ▸ hcurrent)
      obtain ⟨task'', htask'', _, hsame, _⟩ := hremoved.kept hne htask'
      exact ⟨running, task'', hremoved.current.trans hcurrent, htask'', hsame.trans hstate⟩
    | cancelled child =>
      obtain ⟨parent, caller, kept, hclaimed, hopen⟩ := hstage
      have hne : parent ≠ id := fun hsame => hnot (hsame ▸ hclaimed.family.current)
      have hchild : child ≠ id := by
        obtain ⟨rank, hrank⟩ := h.sound.forest.ranked
        have hless := h.traversal.stacked.rank hrank (show id ∈ _ by simp)
        intro hsame
        rw [hsame] at hless; exact absurd hless (lt_irrefl _)
      obtain ⟨caller', hcaller, _, hcalls, _, _, _, hmembers⟩ :=
        hremoved.kept hne hclaimed.family.owner
      obtain ⟨kept', hkept, hup, hstate, hwaiter, _⟩ := hremoved.kept hchild hclaimed.family.held
      refine ⟨parent, caller', kept', ⟨⟨hremoved.current.trans hclaimed.family.current, hcaller,
        hkept, hup.trans hclaimed.family.above, hclaimed.family.ne⟩, hcalls.trans hclaimed.running,
        hwaiter.trans hclaimed.waiter, fun hmem => hclaimed.free (hmembers child hmem)⟩, ?_⟩
      rw [hstate]; exact hopen
    | faulted other => exact hremoved.current.trans hstage
    | stopped root =>
      refine ⟨hremoved.current.trans hstage.1, hremoved.root.trans hstage.2.1, ?_⟩
      obtain hgone | hmem := hstage.2.2
      · exact .inl (hremoved.only hgone)
      · obtain hsame | hin := mem_cons.mp hmem
        · exact .inl (by rw [show root = id from hsame]; exact hremoved.gone)
        · exact .inr hin

end

/-! ## What a cancellation has done -/

/-- From `core` on, with `pending` on the stack, to `core'`. -/
structure Felled (core : Core) (pending : List (Nat × Bool)) (core' : Core)
    (pending' : List (Nat × Bool)) : Prop where
  kept : ∀ {id task'}, core'.tasks id = some task' →
    ∃ task, core.tasks id = some task ∧ task'.parent = task.parent ∧
      task'.cleanups = task.cleanups
  spent : ∀ {id task}, core.tasks id = some task → core'.tasks id = none →
    ∀ cleanup ∈ task.cleanups, cleanup.serial ∈ core'.ran
  listed : ∀ id ∈ pending.map Prod.fst, core'.tasks id = none ∨ id ∈ pending'.map Prod.fst
  more : ∀ serial ∈ core.ran, serial ∈ core'.ran

section
variable {core core' core'' : Core} {pending pending' pending'' rest : List (Nat × Bool)}
  {id top : Nat} {task : Task}

theorem Felled.rfl' : Felled core pending core pending := by
  refine ⟨fun hid => ⟨_, hid, rfl, rfl⟩, ?_, fun _ hmem => .inr hmem, fun _ hmem => hmem⟩
  intro id task hid hnone
  rw [hid] at hnone; simp at hnone

theorem Felled.trans (h : Felled core pending core' pending')
    (h' : Felled core' pending' core'' pending'') : Felled core pending core'' pending'' := by
  refine ⟨?_, ?_, ?_, fun serial hmem => h'.more _ (h.more _ hmem)⟩
  · intro id task'' hid
    obtain ⟨task', htask', hup', howed'⟩ := h'.kept hid
    obtain ⟨task, htask, hup, howed⟩ := h.kept htask'
    exact ⟨task, htask, hup'.trans hup, howed'.trans howed⟩
  · intro id task hid hnone cleanup hmem
    cases hlive : core'.tasks id with
    | none => exact h'.more _ (h.spent hid hlive cleanup hmem)
    | some task' =>
      obtain ⟨found, hfound, _, howed⟩ := h.kept hlive
      rw [hid, some.injEq] at hfound
      rw [← hfound] at howed; exact h'.spent hlive hnone cleanup (howed ▸ hmem)
  · intro id hmem
    obtain hgone | hin := h.listed id hmem
    · left
      by_contra hlive
      obtain ⟨task'', htask''⟩ := ne_none_iff_exists'.mp hlive
      obtain ⟨task', htask', _⟩ := h'.kept htask''
      exact absurd (hgone.symm.trans htask') (by simp)
    · exact h'.listed id hin

theorem felled_expand {children : List Nat} : Felled core ((id, false) :: rest) core
      ((children.map fun child => (child, false)) ++ (id, true) :: rest) := by
  have hsame : Felled core ((id, false) :: rest) core ((id, false) :: rest) := Felled.rfl'
  refine ⟨hsame.kept, hsame.spent, ?_, hsame.more⟩
  intro other hmem
  right
  rw [map_append, mem_append]; exact .inr hmem

theorem Removed.felled (h : Removed core core' id task.cleanups) (hid : core.tasks id = some task) :
    Felled core ((id, true) :: rest) core' rest := by
  refine ⟨?_, ?_, ?_, ?_⟩
  · intro other task' hother
    have hne : other ≠ id := by
      intro hsame
      rw [hsame, h.gone] at hother; simp at hother
    cases hlive : core.tasks other with
    | none => exact absurd ((h.only hlive).symm.trans hother) (by simp)
    | some peer =>
      obtain ⟨found, hfound, hup, _, _, howed, _⟩ := h.kept hne hlive
      rw [hother, some.injEq] at hfound
      rw [hfound]; exact ⟨peer, rfl, hup, howed⟩
  · intro other peer hother hnone cleanup hmem
    by_cases hsame : other = id
    · rw [hsame, hid, some.injEq] at hother
      rw [h.ran, hother]
      exact mem_append_left _ (mem_map_of_mem hmem)
    · obtain ⟨found, hfound, _⟩ := h.kept hsame hother
      exact absurd (hnone.symm.trans hfound) (by simp)
  · intro other hmem
    obtain hsame | hin := mem_cons.mp hmem
    · exact .inl (by rw [show other = id from hsame]; exact h.gone)
    · exact .inr hin
  · intro serial hmem
    rw [h.ran]; exact mem_append_right _ hmem

theorem Felled.below (h : Felled core pending core' pending')
    (hforest : Forest (view Task.links core'.tasks))
    (hbelow : Below (view Task.links core.tasks) top id) {task' : Task}
    (hid : core'.tasks id = some task') : Below (view Task.links core'.tasks) top id := by
  induction hbelow generalizing task' with
  | self => exact .self
  | @child parent id node _ hnode hparent ih =>
    obtain ⟨task, htask, hup, _⟩ := h.kept hid
    rw [view_some htask, some.injEq] at hnode
    have hlink : task'.parent = some parent := by
      rw [hup]
      rw [← hnode] at hparent; exact hparent
    obtain ⟨owner, howner, _⟩ := hforest.held (view_some hid) hlink
    obtain ⟨owner', howner', _⟩ := view_eq_some.mp howner
    exact .child (ih howner') (view_some hid) hlink

theorem below_live (hforest : Forest (view Task.links core.tasks))
    (hbelow : Below (view Task.links core.tasks) top id) (hid : core.tasks id = some task) :
    ∃ task', core.tasks top = some task' := by
  induction hbelow generalizing task with
  | self => exact ⟨task, hid⟩
  | child _ hnode hparent ih =>
    obtain ⟨owner, howner, _⟩ := hforest.held hnode hparent
    obtain ⟨owner', howner', _⟩ := view_eq_some.mp howner
    exact ih howner'

/-- Nothing is left below what was on the stack once the stack is empty. -/
theorem Felled.cleared (h : Felled core pending core' [])
    (hforest : Forest (view Task.links core'.tasks)) (htop : top ∈ pending.map Prod.fst)
    (hbelow : Below (view Task.links core.tasks) top id) : core'.tasks id = none := by
  by_contra hlive
  obtain ⟨task', htask'⟩ := ne_none_iff_exists'.mp hlive
  obtain ⟨owner, howner⟩ := below_live hforest (h.below hforest hbelow htask') htask'
  obtain hgone | hmem := h.listed top htop
  · exact absurd (hgone.symm.trans howner) (by simp)
  · simp at hmem

end

end Loom.Tasks

import Loom.Runtime.TaskEdits

/-
  The task operations of the generated code keep the invariant.

  `Kept` is what every operation of the running task promises: the invariant
  without exemptions, the same current task, the same root. Each operation has
  one lemma, which follows its checks and ends in the edit it makes; none of
  them stops the program.
-/

namespace Loom.Tasks

open Faults Tables Forests List Bool

/-- What an operation leaves behind. -/
structure Kept (core core' : Core) : Prop where
  calm : Calm core'
  current : core'.current = core.current
  root : core.root ≠ none → core'.root = core.root

section
variable {core core' : Core}

theorem Kept.rfl' (h : Calm core) : Kept core core := ⟨h, rfl, fun _ => rfl⟩

theorem Kept.trans {core'' : Core} (h : Kept core core') (h' : Kept core' core'') :
    Kept core core'' := by
  refine ⟨h'.calm, h'.current.trans h.current, ?_⟩
  intro hroot
  have hsame := h.root hroot
  rw [h'.root (by rw [hsame]; exact hroot), hsame]

end

/-! ## Families -/

structure Family (core : Core) (child parent : Nat) (caller task : Task) : Prop where
  current : core.current = some parent
  owner : core.tasks parent = some caller
  held : core.tasks child = some task
  above : task.parent = some parent
  ne : child ≠ parent

section
variable {core core' : Core} {id other : Nat} {task : Task} {α : Type}

theorem Sound.acting {exempt : Nat → Prop} {target : Option Nat} {stopped : Prop}
    (h : Sound core exempt target stopped) (hid : core.current = some id) :
    ∃ task, core.tasks id = some task ∧ task.state ≠ .queued ∧ task.state.terminalOrder = none := by
  obtain ⟨state, hstate, hqueued, hopen⟩ := h.currents.acting hid
  obtain ⟨task, htask, hsame⟩ := view_eq_some.mp hstate
  exact ⟨task, htask, by rw [hsame]; exact hqueued, by rw [hsame]; exact hopen⟩

theorem Sound.acts {exempt : Nat → Prop} {target : Option Nat} {stopped : Prop}
    (h : Sound core exempt target stopped) (hcurrent : core.current = some id)
    (hid : core.tasks id = some task) : task.state ≠ .queued ∧ task.state.terminalOrder = none := by
  obtain ⟨acting, hacting, hfacts⟩ := h.acting hcurrent
  rw [hid, Option.some.injEq] at hacting
  exact hacting ▸ hfacts

theorem safe_parentOf (h : Calm core) {f : Nat × Task × Task → Outcome α} {after : α → Prop}
    (hf : ∀ parent caller task, Family core other parent caller task →
      Safe after (f (parent, caller, task))) : Safe after (parentOf core other >>= f) := by
  refine safe_bind (fun family => Family core other family.1 family.2.1 family.2.2) ?_
    (fun family hfamily => hf _ _ _ hfamily)
  refine safe_present ?_
  intro parent hcurrent
  refine safe_present ?_
  intro task htask
  refine safe_require ?_
  intro hparent
  obtain ⟨hne, owner, howner, _⟩ := h.parent htask (of_decide_eq_true hparent)
  exact safe_found howner ⟨hcurrent, howner, htask, of_decide_eq_true hparent, hne⟩

theorem safe_currentTask (h : Calm core) {message : String} {f : Nat × Task → Outcome α}
    {after : α → Prop} (hf : ∀ id task, core.current = some id → core.tasks id = some task →
      Safe after (f (id, task))) : Safe after (currentTask core message >>= f) := by
  refine safe_bind (fun entry => core.current = some entry.1 ∧
    core.tasks entry.1 = some entry.2) ?_ (fun entry hentry => hf _ _ hentry.1 hentry.2)
  refine safe_present ?_
  intro id hcurrent
  obtain ⟨task, htask, _⟩ := h.acting hcurrent
  exact safe_found htask ⟨hcurrent, htask⟩

end

/-! ## Marks and cleanups -/

section
variable {core : Core} {child id : Nat}

theorem safe_returnTask (h : Calm core) : Safe (Kept core) (returnTask core child) := by
  refine safe_parentOf h ?_
  intro parent caller task hfamily
  refine safe_require ?_
  intro hup
  refine safe_require ?_
  intro _
  refine safe_require ?_
  intro _
  have hchild : Calm (core.put child { task with returnedToParent := true }) :=
    h.quiet hfamily.held rfl rfl rfl rfl (h.tops.closed (view_some hfamily.held))
  have howner : (core.put child { task with returnedToParent := true }).tasks parent =
      some caller := by
    show put core.tasks child _ parent = some caller
    rw [put_of_ne hfamily.ne.symm, hfamily.owner]
  refine ⟨hchild.quiet howner rfl rfl rfl rfl ?_, rfl, fun _ => rfl⟩
  intro hnone
  rw [show caller.parent = none from hnone] at hup; simp at hup

theorem safe_nextTerminalIndex (h : Calm core) : Safe (Kept core) (nextTerminalIndex core) := by
  refine safe_currentTask h ?_
  intro id task _ hid
  refine safe_require ?_
  intro _
  refine safe_present ?_
  intro group hgroup
  refine safe_present ?_
  intro _ _
  refine ⟨h.quiet hid rfl ?_ rfl rfl (h.tops.closed (view_some hid)), rfl,
    fun _ => rfl⟩
  unfold Task.bond
  rw [hgroup]; rfl

/-- The selected fault of the running task is that of a task that is still there. -/
def Selectable (core : Core) : Prop :=
  ∀ {id task group selected}, core.current = some id → core.tasks id = some task →
    task.observation = some group → group.selectedFault = some selected →
    ∃ task', core.tasks selected = some task'

theorem safe_nextTerminalFailure (h : Calm core) (hlive : Selectable core) :
    Safe (fun raised => Kept core raised.1) (nextTerminalFailure core) := by
  refine safe_currentTask h ?_
  intro id task hcurrent hid
  refine safe_require ?_
  intro _
  refine safe_present ?_
  intro group hgroup
  refine safe_present ?_
  intro selected hselected
  have hkept : Kept core (core.put id
      { task with observation := some { group with selectedFault := none } }) := by
    refine ⟨h.quiet hid rfl ?_ rfl rfl (h.tops.closed (view_some hid)), rfl,
      fun _ => rfl⟩
    unfold Task.bond
    rw [hgroup]; rfl
  obtain ⟨found, hfound⟩ := hlive hcurrent hid hgroup hselected
  have hstill : ∃ task', (core.put id
      { task with observation := some { group with selectedFault := none } }).tasks selected =
      some task' := by
    by_cases hsame : selected = id
    · exact ⟨_, by rw [hsame]; exact put_self⟩
    · exact ⟨found, (put_of_ne hsame).trans hfound⟩
  obtain ⟨task', htask'⟩ := hstill
  refine safe_found htask' ?_
  cases task'.state <;> exact hkept

theorem owed_push (serial pushes : Nat) (site : Int) (callback : Option String)
    (cleanups : List Cleanup) :
    Task.owed serial (⟨site, callback, pushes⟩ :: cleanups) + (if serial < pushes then 1 else 0) =
      Task.owed serial cleanups + if serial < pushes + 1 then 1 else 0 := by
  unfold Task.owed; grind

theorem safe_cleanupPush (h : Calm core) {site : Int} {callback : Option String} :
    Safe (Kept core) (cleanupPush core site callback) := by
  refine safe_currentTask h ?_
  intro id task _ hid
  refine safe_require ?_
  intro _
  refine ⟨h.account hid (by rfl) (by rfl) (by rfl) (by rfl) rfl ?_, rfl, fun _ => rfl⟩
  intro serial
  have hpush := owed_push serial core.pushes site callback task.cleanups
  show core.ran.count serial + core.retired.count serial +
    Task.owed serial (_ :: task.cleanups) + _ = _
  omega

theorem safe_resultCleanupPush (h : Calm core) {callback : Option String} :
    Safe (Kept core) (resultCleanupPush core callback) := by
  refine safe_currentTask h ?_
  intro id task _ hid
  refine safe_require ?_
  intro _
  refine ⟨h.account hid (by rfl) (by rfl) (by rfl) (by rfl) rfl ?_, rfl, fun _ => rfl⟩
  intro serial
  have hpush := owed_push serial core.pushes (-1) callback task.cleanups
  show core.ran.count serial + core.retired.count serial +
    Task.owed serial (_ :: task.cleanups) + _ = _
  omega

theorem safe_cleanupPop (h : Calm core) {site : Int} : Safe (Kept core) (cleanupPop core site) := by
  refine safe_currentTask h ?_
  intro id task _ hid
  refine safe_require ?_
  intro _
  refine safe_present ?_
  intro found hfound
  refine ⟨h.account hid (by rfl) (by rfl) (by rfl) (by rfl) rfl ?_, rfl, fun _ => rfl⟩
  intro serial
  have hperm : (task.cleanups.map Cleanup.serial).Perm
      (found.serial :: (task.cleanups.erase found).map Cleanup.serial) :=
    (perm_cons_erase (mem_of_find?_eq_some hfound)).map Cleanup.serial
  have hcount := hperm.count_eq serial
  rw [count_cons] at hcount
  show core.ran.count serial + List.count serial (found.serial :: core.retired) +
    Task.owed serial (task.cleanups.erase found) + _ =
      _ + if serial < core.pushes then 1 else 0
  rw [count_cons]
  unfold Task.owed; omega

/-- The end of an extraction takes the cleanups of the result. -/
theorem safe_takeResult (h : Calm core) {task : Task} (hid : core.tasks id = some task) :
    Safe (fun raised => Kept core raised.1) (takeResult core id) := by
  refine safe_found hid ?_
  refine ⟨h.account hid (by rfl) (by rfl) (by rfl) (by rfl) rfl ?_, rfl, fun _ => rfl⟩
  intro serial
  show core.ran.count serial +
    List.count serial (task.cleanups.map Cleanup.serial ++ core.retired) + 0 + _ =
      _ + if serial < core.pushes then 1 else 0
  rw [count_append]
  unfold Task.owed; omega

end

/-! ## New tasks -/

section
variable {core : Core} {creation : String}

/-- What all new tasks have in common, whatever the tree becomes. -/
theorem Sound.create (h : Calm core) (parent root : Option Nat) {tasks : Nat → Option Task}
    (hforest : Forest (view Task.links tasks))
    (hstates : view Task.state tasks = put (view Task.state core.tasks) (core.next + 1) .queued)
    (hbonds : view Task.bond tasks =
      put (view Task.bond core.tasks) (core.next + 1) ⟨parent, none, .queued, [], []⟩)
    (hparkings : view Task.parking tasks =
      put (view Task.parking core.tasks) (core.next + 1) ⟨.queued, none⟩)
    (hcleanups : view Task.cleanups tasks = put (view Task.cleanups core.tasks) (core.next + 1) [])
    (htops : Tops (view Task.top tasks) root False) : Calm { core with
      next := core.next + 1, tasks := tasks, root := root,
      ready := core.ready ++ [core.next + 1] } := by
  have hfresh := h.fresh
  have hnot : core.next + 1 ∉ core.ready := by
    intro hmem; exact absurd (h.issued.listed hmem) (Nat.not_succ_le_self _)
  refine ⟨hforest, ?_, ?_, ?_, ?_, ?_, ?_, ?_, ?_, htops⟩
  · rw [hstates]; exact h.queue.push hnot (perm_append_singleton _ _)
  · rw [hstates]; exact h.issued.create
  · rw [hbonds]; exact h.begun.create (view_none hfresh)
  · rw [hbonds]; exact h.waits.create (view_none hfresh) parent
  · rw [hparkings]; exact h.externals.create (view_none hfresh)
  · rw [hstates]; exact h.stamps.succ.restate rfl
  · rw [hcleanups]; exact h.paid.create (view_none hfresh)
  · rw [hstates]
    refine h.currents.put nofun ?_
    intro hcurrent
    obtain ⟨task, htask, _⟩ := h.acting hcurrent
    rw [hfresh] at htask; simp at htask

theorem mem_insertChild {children : List Nat} {id child : Nat} :
    child ∈ insertChild children id ↔ child = id ∨ child ∈ children := mem_orderedInsert _

theorem nodup_insertChild {children : List Nat} {id : Nat} (h : children.Nodup)
    (hnot : id ∉ children) : (insertChild children id).Nodup :=
  (perm_orderedInsert _ id children).nodup_iff.mpr (nodup_cons.mpr ⟨hnot, h⟩)

theorem Sound.spawned (h : Calm core) {parent : Nat} {caller task : Task}
    (howner : core.tasks parent = some caller) :
    put core.tasks (core.next + 1) task parent = some caller := by
  rw [put_of_ne, howner]
  intro hsame
  rw [hsame, h.fresh] at howner; simp at howner

theorem Sound.spawn (h : Calm core) {parent : Nat} {caller : Task}
    (hcurrent : core.current = some parent) (howner : core.tasks parent = some caller) :
    Calm { core with
      next := core.next + 1,
      tasks := put (put core.tasks (core.next + 1) (newTask (some parent) creation)) parent
        { caller with children := insertChild caller.children (core.next + 1) },
      ready := core.ready ++ [core.next + 1] } := by
  have hfresh := h.fresh
  have howner' : put core.tasks (core.next + 1) (newTask (some parent) creation) parent =
      some caller := h.spawned howner
  have hnot : core.next + 1 ∉ caller.children := by
    intro hmem
    obtain ⟨_, hlive, _⟩ := h.child howner hmem
    rw [hfresh] at hlive; simp at hlive
  refine h.create (some parent) core.root ?_ ?_ ?_ ?_ ?_ ?_
  · rw [view_put, view_put]
    exact h.forest.graft (view_none hfresh) (view_some howner)
      (nodup_insertChild (h.forest.nodup (view_some howner)) hnot) (fun _ => mem_insertChild)
  · rw [view_put_same howner' (by rfl), view_put]; rfl
  · rw [view_put_same howner' (by rfl), view_put]; rfl
  · rw [view_put_same howner' (by rfl), view_put]; rfl
  · rw [view_put_same howner' (by rfl), view_put]; rfl
  · rw [view_put]
    have hgrown : Tops (view Task.top (put core.tasks (core.next + 1)
        (newTask (some parent) creation))) core.root False := by
      rw [view_put]
      exact h.tops.create (view_none hfresh) (by simp [Task.top, newTask])
    refine hgrown.put (view_some howner') (by rfl) ?_ ?_
    · exact h.closed howner
    · intro _ hterminal; exact absurd (h.acts hcurrent howner).2 hterminal

theorem Sound.plant (h : Calm core) (hroot : core.root = none) : Calm { core with
      next := core.next + 1, tasks := put core.tasks (core.next + 1) (newTask none creation),
      root := some (core.next + 1), ready := core.ready ++ [core.next + 1] } := by
  have hfresh := h.fresh
  refine h.create none (some (core.next + 1)) ?_ ?_ ?_ ?_ ?_ ?_
  · rw [view_put]; exact h.forest.insert (view_none hfresh)
  · rw [view_put]; rfl
  · rw [view_put]; rfl
  · rw [view_put]; rfl
  · rw [view_put]; rfl
  · rw [view_put]
    have hnone : Tops (view Task.top core.tasks) none False := hroot ▸ h.tops
    exact hnone.plant

theorem safe_nextStamp {α : Type} (hroom : core.next + 1 < 2 ^ 64) {f : Core × Nat → Outcome α}
    {after : α → Prop} (hf : Safe after (f ({ core with next := core.next + 1 }, core.next + 1))) :
    Safe after (nextStamp core >>= f) := by
  unfold nextStamp
  rw [if_pos hroom]; exact hf

theorem safe_create (h : Calm core) (hroom : core.next + 1 < 2 ^ 64) :
    Safe (Kept core) (create core creation) := by
  unfold create
  cases hcurrent : core.current with
  | none =>
    refine safe_require ?_
    intro hroot
    have hnone := Option.isNone_iff_eq_none.mp hroot
    refine safe_nextStamp hroom ?_
    exact ⟨h.plant hnone, rfl, fun hsome => absurd hnone hsome⟩
  | some parent =>
    obtain ⟨caller, howner, _⟩ := h.acting hcurrent
    refine safe_found howner ?_
    refine safe_require ?_
    intro _
    refine safe_nextStamp hroom ?_
    refine safe_found (h.spawned howner) ?_
    exact ⟨h.spawn hcurrent howner, rfl, fun _ => rfl⟩

end

/-! ## Transfers -/

section
variable {core : Core} {child parent next : Nat} {task old new : Task}

/-- An unawaited subtree changes its parent. -/
theorem Sound.move (h : Calm core) (hid : core.tasks child = some task)
    (hparent : task.parent = some parent) (hold : core.tasks parent = some old)
    (hnext : core.tasks next = some new) (hne : next ≠ parent) (hchild : child ≠ next)
    (houtside : ¬Below (view Task.links core.tasks) child next) (hwaiter : task.waiter = none)
    (hopen : new.state.terminalOrder = none) (hnot : child ∉ new.children) :
    Calm (((core.put parent { old with children := old.children.erase child }).put next
      { new with children := insertChild new.children child }).put child
      { task with parent := some next, returnedToParent := false }) := by
  have hchildparent : child ≠ parent := (h.parent hid hparent).1
  have hnext' : put core.tasks parent { old with children := old.children.erase child } next =
      some new := by rw [put_of_ne hne, hnext]
  have hid' : put (put core.tasks parent { old with children := old.children.erase child }) next
      { new with children := insertChild new.children child } child = some task := by
    rw [put_of_ne hchild, put_of_ne hchildparent, hid]
  have hbonds : view Task.bond (put (put (put core.tasks parent
      { old with children := old.children.erase child }) next
      { new with children := insertChild new.children child }) child
      { task with parent := some next, returnedToParent := false }) =
      put (view Task.bond core.tasks) child { task.bond with parent := some next } := by
    rw [view_put, view_put_same hnext' (by rfl), view_put_same hold (by rfl)]
    rfl
  refine h.still (put (put (put core.tasks parent _) next _) child _) ?_ ?_ ?_ ?_ ?_ ?_ ?_
  · rw [view_put_same hid' (by rfl), view_put_same hnext' (by rfl), view_put_same hold (by rfl)]
  · rw [view_put, view_put, view_put]
    exact h.forest.move (view_some hid) hparent (view_some hold) (view_some hnext) houtside hne
      (nodup_insertChild (h.forest.nodup (view_some hnext)) hnot) (fun _ => mem_insertChild)
  · rw [hbonds]
    refine h.begun.put (view_some hid) ?_ (fun other hmem => .inl hmem)
    intro hbegun
    obtain ⟨seen, up, _, hseen, _, _, hask, _⟩ := h.begun _ hbegun
    rw [eq_of_view hid hseen] at hask; exact absurd (hwaiter.symm.trans hask) (by simp)
  · rw [hbonds]; exact h.waits.move (view_some hid) hwaiter (some next)
  · rw [view_put_same hid' (by rfl), view_put_same hnext' (by rfl), view_put_same hold (by rfl)]
    exact h.externals
  · rw [view_put_same hid' (by rfl), view_put_same hnext' (by rfl), view_put_same hold (by rfl)]
    exact h.paid
  · have hone : Tops (view Task.top (put core.tasks parent
        { old with children := old.children.erase child })) core.root False := by
      rw [view_put]
      refine h.tops.put (view_some hold) (by rfl) (h.closed hold) ?_
      intro hnone hterminal
      obtain ⟨hnil, hkept⟩ := h.leaf hold hnone hterminal
      rw [show old.children = [] from hnil]; exact ⟨rfl, hkept⟩
    have htwo : Tops (view Task.top (put (put core.tasks parent
        { old with children := old.children.erase child }) next
        { new with children := insertChild new.children child })) core.root False := by
      rw [view_put]
      exact hone.put (view_some hnext') (by rfl) (h.closed hnext)
        (fun _ hterminal => absurd hopen hterminal)
    rw [view_put]
    refine htwo.put (view_some hid') ?_ nofun nofun
    show some next = none ↔ task.parent = none
    rw [hparent]; simp

/-- The transfer itself: both of its assertions hold. -/
theorem safe_reparent (h : Calm core) (hid : core.tasks child = some task)
    (hparent : task.parent = some parent) (hnext : core.tasks next = some new)
    (hne : next ≠ parent) (houtside : ¬Below (view Task.links core.tasks) child next)
    (hwaiter : task.waiter = none) (hopen : new.state.terminalOrder = none) :
    Safe (fun core' => Kept core core' ∧ ∀ other t, core.tasks other = some t →
      ∃ t', core'.tasks other = some t' ∧ (other ≠ child → t'.parent = t.parent))
      (reparent core child parent next) := by
  obtain ⟨hchildparent, old, hold, hmem⟩ := h.parent hid hparent
  have hchild : child ≠ next := by
    intro hsame
    exact houtside (hsame ▸ Below.self)
  have hnot : child ∉ new.children := by
    intro hin
    obtain ⟨task', htask', hup⟩ := h.child hnext hin
    rw [hid, Option.some.injEq] at htask'
    rw [← htask', hparent, Option.some.injEq] at hup
    exact hne hup.symm
  refine safe_found hold ?_
  refine safe_assertion (by simpa using hmem) ?_
  refine safe_found ((put_of_ne hne).trans hnext) ?_
  refine safe_assertion (by simpa using hnot) ?_
  refine safe_found (((put_of_ne hchild).trans (put_of_ne hchildparent)).trans hid) ?_
  refine ⟨⟨h.move hid hparent hold hnext hne hchild houtside hwaiter hopen hnot, rfl,
    fun _ => rfl⟩, ?_⟩
  intro other t hother
  show ∃ t', put (put (put core.tasks _ _) _ _) _ _ other = some t' ∧ _
  by_cases hself : other = child
  · rw [hself, put_self]
    exact ⟨_, rfl, fun hdiff => absurd rfl hdiff⟩
  · rw [put_of_ne hself]
    by_cases hup : other = next
    · rw [hup, hnext, Option.some.injEq] at hother
      rw [hup, put_self, ← hother]
      exact ⟨_, rfl, fun _ => rfl⟩
    · rw [put_of_ne hup]
      by_cases hfrom : other = parent
      · rw [hfrom, hold, Option.some.injEq] at hother
        rw [hfrom, put_self, ← hother]
        exact ⟨_, rfl, fun _ => rfl⟩
      · rw [put_of_ne hfrom]
        exact ⟨t, hother, fun _ => rfl⟩

theorem safe_adopt (h : Calm core) : Safe (Kept core) (adopt core next child) := by
  refine safe_parentOf h ?_
  intro current caller target hcallee
  refine safe_parentOf h ?_
  intro current' caller' task hchild
  have hsame : current' = current := by
    have hboth := hchild.current.symm.trans hcallee.current
    exact Option.some.inj hboth
  rw [hsame] at hchild
  refine safe_require ?_
  intro _
  refine safe_require ?_
  intro hdistinct
  refine safe_require ?_
  intro hfree
  simp only [and_eq_true, decide_eq_true_eq, Option.isNone_iff_eq_none,
    bne_iff_ne] at hdistinct hfree
  have houtside : ¬Below (view Task.links core.tasks) child next :=
    not_below_sibling h.forest (view_some hchild.held) hchild.above (view_some hcallee.held)
      hcallee.above hdistinct
  have hopen : target.state.terminalOrder = none := by
    rw [hfree.1.1.1]; rfl
  have hmoved := safe_reparent h hchild.held hchild.above hcallee.held hcallee.ne houtside
    hfree.1.2 hopen
  exact hmoved.imp (fun _ hkept => hkept.1)

/-- The returned children of a result go to the consumer one by one. -/
theorem safe_extractReturned {children : List Nat} (h : Calm core)
    (hcurrent : core.current = some parent)
    (hid : core.tasks child = some task) (hup : task.parent = some parent)
    (hchildren : ∀ other ∈ children, ∃ t, core.tasks other = some t) :
    Safe (fun raised => Kept core raised.1 ∧ ∃ t, raised.1.tasks child = some t)
      (extractReturned core child parent children) := by
  induction children generalizing core task with
  | nil => exact ⟨Kept.rfl' h, task, hid⟩
  | cons returned rest ih =>
    obtain ⟨result, hresult⟩ := hchildren returned (.head _)
    refine safe_found hresult ?_
    by_cases hcheck : (decide (result.parent = some child) && result.waiter.isNone &&
        result.returnedToParent) = true
    · rw [if_pos hcheck]
      simp only [and_eq_true, decide_eq_true_eq, Option.isNone_iff_eq_none] at hcheck
      obtain ⟨owner, howner, _, hopen⟩ := h.acting hcurrent
      have hne : parent ≠ child := (h.parent hid hup).1.symm
      have houtside : ¬Below (view Task.links core.tasks) returned parent := by
        intro hbelow
        obtain ⟨rank, hrank⟩ := h.forest.ranked
        have hdown := hbelow.rank hrank
        have hone := hrank (view_some hid) hup
        have htwo := hrank (view_some hresult) hcheck.1.1
        omega
      refine safe_bind _ (safe_reparent h hresult hcheck.1.1 howner hne houtside hcheck.1.2 hopen) ?_
      intro core' hmoved
      obtain ⟨hkept, hlive⟩ := hmoved
      obtain ⟨task', htask', hsame⟩ := hlive child task hid
      have hreturned : child ≠ returned := (h.parent hresult hcheck.1.1).1.symm
      have hrest := ih hkept.calm (hkept.current.trans hcurrent) htask'
        ((hsame hreturned).trans hup) ?_
      · exact hrest.imp (fun raised hlast => ⟨hkept.trans hlast.1, hlast.2⟩)
      · intro other hother
        obtain ⟨t, ht⟩ := hchildren other (.tail _ hother)
        obtain ⟨t', ht', _⟩ := hlive other t ht
        exact ⟨t', ht'⟩
    · rw [if_neg hcheck]; exact ⟨Kept.rfl' h, task, hid⟩

theorem safe_result (h : Calm core) :
    Safe (fun raised => Kept core raised.1) (result core child) := by
  refine safe_parentOf h ?_
  intro current caller task hfamily
  refine safe_require ?_
  intro _
  cases hstate : task.state with
  | completed order =>
    refine safe_require ?_
    intro _
    by_cases hreturned : task.returned = 0
    · simp only [hreturned]; exact safe_takeResult h hfamily.held
    · simp only [hreturned]
      refine safe_require ?_
      intro _
      refine safe_bind _ (safe_extractReturned h hfamily.current hfamily.held hfamily.above ?_) ?_
      · intro other hother
        obtain ⟨t, ht, _⟩ := h.child hfamily.held hother
        exact ⟨t, ht⟩
      · intro raised hraised
        obtain ⟨core', failure⟩ := raised
        obtain ⟨hkept, t, ht⟩ := hraised
        cases failure with
        | none => exact (safe_takeResult hkept.calm ht).imp (fun _ hlast => hkept.trans hlast)
        | some message => exact hkept
  | faulted failure order => exact Kept.rfl' h
  | _ => exact safe_fault

end

/-! ## Waiting for a child -/

section
variable {core : Core} {child parent : Nat} {caller task : Task}

theorem Sound.await (h : Calm core) (hfamily : Family core child parent caller task)
    (hnot : contains caller child = false) (hexternal : caller.external = none)
    (hstate : caller.state = .running ∨ caller.state = .waiting child)
    (hwaiter : task.waiter = none ∨ task.waiter = some parent)
    (hopen : task.state.terminalOrder = none) : Calm { core with
      tasks := put (put core.tasks child { task with waiter := some parent }) parent
        { caller with state := .waiting child } } := by
  have hopen' : caller.state.terminalOrder = none := by grind [Status.terminalOrder]
  have howner : put core.tasks child { task with waiter := some parent } parent = some caller := by
    rw [put_of_ne hfamily.ne.symm, hfamily.owner]
  have hmembers : child ∉ caller.bond.members := by
    rw [← contains_iff, hnot]; simp
  refine h.relabel hfamily.owner (.waiting child) rfl ?_ ?_ ?_ ?_ ?_ (fun _ hmem => .inl hmem)
    ?_ ?_ ?_ ?_
  · rw [view_put_same howner (by rfl), view_put_same hfamily.held (by rfl)]
  · rw [view_put, view_put_same hfamily.held (by rfl)]
  · rw [view_put_same howner (by rfl), view_put_same hfamily.held (by rfl)]
  · rw [view_put, view_put_same hfamily.held (by rfl)]; rfl
  · exact h.queue.restate (view_some hfamily.owner) (by grind) (by simp)
  · rw [view_put, view_put]
    refine Begun.put (h.begun.put (view_some hfamily.held) ?_ (fun _ hmem => .inl hmem))
      ((put_of_ne hfamily.ne.symm).trans (view_some hfamily.owner)) ?_ (fun _ hmem => .inl hmem)
    · intro hmem; exact absurd hmem (h.notBegun hfamily.held hopen)
    · intro hmem; exact absurd hmem (h.notBegun hfamily.owner hopen')
  · rw [view_put, view_put]
    exact h.waits.ask (view_some hfamily.held) hfamily.above (view_some hfamily.owner) hfamily.ne
      hmembers hstate hwaiter hopen
  · rw [view_put, view_put_same hfamily.held (by rfl)]
    refine h.externals.put (view_some hfamily.owner) (h.limit hfamily.owner) ?_ ?_ ?_ ?_
      (fun _ hexempt => .inl hexempt)
    · simp [Task.parking, unready, hexternal]
    · simp [Task.parking]
    · intro _; exact hexternal
    · simp [Task.parking, unready, hexternal]
  · refine h.currents.put (by simp) ?_
    intro _; exact ⟨by simp, rfl⟩

theorem safe_await (h : Calm core) : Safe (Kept core) (await core child) := by
  refine safe_parentOf h ?_
  intro parent caller task hfamily
  refine safe_require ?_
  intro hnot
  refine safe_require ?_
  intro hexternal
  refine safe_require ?_
  intro hstate
  refine safe_require ?_
  intro _
  refine safe_require ?_
  intro hwaiter
  simp only [not_eq_true', Option.isNone_iff_eq_none, or_eq_true, decide_eq_true_eq]
    at hnot hexternal hstate hwaiter
  cases horder : task.state.terminalOrder with
  | none =>
    exact ⟨h.await hfamily hnot hexternal hstate hwaiter horder, rfl, fun _ => rfl⟩
  | some order =>
    have hterminal : task.state.terminalOrder ≠ none := by
      rw [horder]; simp
    refine ⟨h.amend hfamily.held (by rfl) (by rfl) ?_ ?_ ?_ ?_ ?_, rfl, fun _ => rfl⟩
    · refine h.begun.put (view_some hfamily.held) ?_ (fun _ hmem => .inl hmem)
      intro hmem
      have hask := h.begunWaiter hfamily.held hmem
      exact ⟨rfl, hfamily.above.symm.trans hask.1.symm, hask.2⟩
    · exact h.waits.askFinished (view_some hfamily.held) hfamily.above hwaiter hterminal
    · have hview : view Task.parking core.tasks child = some task.parking := view_some hfamily.held
      exact h.externals.same hview
    · have hview : view Task.cleanups core.tasks child = some task.cleanups := view_some hfamily.held
      exact h.paid.same hview
    · intro hnone; exact absurd (hfamily.above.symm.trans hnone) (by simp)

end

/-! ## Observation -/

section
variable {core : Core} {child parent id : Nat} {caller task : Task} {group : Observation}

theorem isMember_iff : isMember group child = true ↔ child ∈ group.members.map Prod.fst := by
  simp [isMember]

theorem mem_insertReady {ready : List (Nat × Nat)} {entry other : Nat × Nat} :
    other ∈ insertReady ready entry ↔ other = entry ∨ other ∈ ready := mem_orderedInsert _

theorem nodup_insertReady {ready : List (Nat × Nat)} {entry : Nat × Nat} (h : ready.Nodup)
    (hnot : entry ∉ ready) : (insertReady ready entry).Nodup :=
  (perm_orderedInsert _ entry ready).nodup_iff.mpr (nodup_cons.mpr ⟨hnot, h⟩)

theorem bond_members (task : Task) :
    task.bond.members = (task.observation.getD .default).members.map Prod.fst := rfl

theorem bond_ready (task : Task) : task.bond.ready = (task.observation.getD .default).ready := rfl

theorem Sound.notMember (h : Calm core) (howner : core.tasks parent = some caller)
    (hid : core.tasks child = some task) (hwaiter : task.waiter = none) :
    child ∉ caller.bond.members := by
  intro hmem
  obtain ⟨bond, hbond, hask⟩ := h.waits.member (view_some howner) hmem
  rw [eq_of_view hid hbond] at hask; exact absurd (hwaiter.symm.trans hask) (by simp)

/-- What the registration makes of the group. -/
theorem safe_register (h : Calm core) (hfamily : Family core child parent caller task)
    (hwaiter : task.waiter = none) {index : Int} :
    Safe (fun group => group.members = (child, index) :: (caller.observation.getD .default).members ∧
      group.ready.Nodup ∧ ∀ order other, (order, other) ∈ group.ready ↔
        (order, other) ∈ caller.bond.ready ∨
          other = child ∧ FinishedAt (view Task.bond core.tasks) child order)
      (register (caller.observation.getD .default) child index task) := by
  have hnot := h.notMember hfamily.owner hfamily.held hwaiter
  have hnodup : caller.bond.ready.Nodup := h.waits.unique (view_some hfamily.owner)
  have hfinished : ∀ order, FinishedAt (view Task.bond core.tasks) child order ↔
      task.state.terminalOrder = some order := by
    unfold FinishedAt
    rw [view_some hfamily.held]; simp [Task.bond]
  refine safe_assertion ?_ ?_
  · rw [not_eq_true', ← not_eq_true, isMember_iff]; exact hnot
  · cases horder : task.state.terminalOrder with
    | none =>
      refine ⟨rfl, hnodup, ?_⟩
      intro order other
      rw [hfinished, horder]; simp [bond_ready]
    | some order =>
      have hfree : (order, child) ∉ caller.bond.ready := by
        intro hmem
        exact hnot ((h.waits.notified (view_some hfamily.owner)).mp hmem).1
      refine safe_assertion (by simpa [bond_ready] using hfree) ?_
      refine ⟨rfl, nodup_insertReady hnodup hfree, ?_⟩
      intro other child'
      rw [mem_insertReady]; grind [bond_ready]

theorem safe_observe (h : Calm core) {index : Int} :
    Safe (Kept core) (observe core child index) := by
  refine safe_parentOf h ?_
  intro parent caller task hfamily
  refine safe_require ?_
  intro hstate
  refine safe_require ?_
  intro hfree
  simp only [and_eq_true, decide_eq_true_eq, Option.isNone_iff_eq_none]
    at hstate hfree
  refine safe_bind _ (safe_register h hfamily hfree.2) ?_
  intro group hgroup
  obtain ⟨hmembers, hnodup, hready⟩ := hgroup
  have hbond : ({ caller with observation := some group } : Task).bond =
      { caller.bond with members := child :: caller.bond.members, ready := group.ready } := by
    unfold Task.bond
    rw [Option.getD_some, hmembers]; rfl
  have hopen : caller.state.terminalOrder = none := by
    rw [hstate.2]; rfl
  have hnot : child ∉ core.begun := by
    intro hmem
    have hask := (h.begunWaiter hfamily.held hmem).1
    rw [hfree.2, hfamily.above] at hask; simp at hask
  refine ⟨h.pair hfamily.held hfamily.owner hfamily.ne.symm (by constructor <;> rfl)
    (by constructor <;> rfl) ?_ ?_, rfl, fun _ => rfl⟩
  · rw [hbond]
    refine Begun.put (h.begun.put (view_some hfamily.held) (fun hmem => absurd hmem hnot)
      (fun _ hmem => .inl hmem)) ((put_of_ne hfamily.ne.symm).trans (view_some hfamily.owner))
      (fun hmem => absurd hmem (h.notBegun hfamily.owner hopen)) ?_
    intro other hmem
    obtain hsame | hmem := mem_cons.mp hmem
    · exact .inr (hsame ▸ hnot)
    · exact .inl hmem
  · rw [hbond]
    exact h.waits.observe (view_some hfamily.held) hfamily.above (view_some hfamily.owner)
      hfamily.ne hfree.2 hstate.2 hnodup hready

theorem safe_waitNext (h : Calm core) : Safe (Kept core) (waitNext core) := by
  refine safe_currentTask h ?_
  intro id task hcurrent hid
  refine safe_require ?_
  intro hstate
  refine safe_present ?_
  intro group hgroup
  refine safe_require ?_
  intro hmembers
  simp only [and_eq_true, or_eq_true, decide_eq_true_eq, Option.isNone_iff_eq_none]
    at hstate
  obtain ⟨hstate, hexternal⟩ := hstate
  have hopen : task.state.terminalOrder = none := by grind [Status.terminalOrder]
  have hobserved : task.bond.members ≠ [] := by
    rw [bond_members, hgroup]
    simpa using hmembers
  by_cases hready : group.ready.isEmpty = true
  · simp only [hready]
    have hnone : task.bond.ready = [] := by
      rw [bond_ready, hgroup]
      simpa using hready
    refine ⟨h.relabel hid .observing rfl (view_put_same hid rfl) view_put (view_put_same hid rfl)
      view_put ?_ (fun _ hmem => .inl hmem) ?_ ?_ ?_ ?_, rfl, fun _ => rfl⟩
    · exact h.queue.restate (view_some hid) (by grind) (by simp)
    · rw [view_put]
      exact h.begun.put (view_some hid) (fun hmem => absurd hmem (h.notBegun hid hopen))
        (fun _ hmem => .inl hmem)
    · rw [view_put]; exact h.waits.park (view_some hid) hstate hnone hobserved
    · rw [view_put]
      refine h.externals.put (view_some hid) (h.limit hid) ?_ ?_ ?_ ?_
        (fun _ hexempt => .inl hexempt)
      · simp [Task.parking, unready, hexternal]
      · simp [Task.parking]
      · intro _; exact hexternal
      · simp [Task.parking, unready, hexternal]
    · refine h.currents.put (by simp) ?_
      intro _; exact ⟨by simp, rfl⟩
  · have hrunning : task.state = .running := by
      obtain hrun | hobserve := hstate
      · exact hrun
      · have hnone := (h.waits.observing (view_some hid) hobserve (fun hexempt => hexempt)).1
        rw [bond_ready, hgroup] at hnone
        exact absurd (by simpa using hnone) hready
    simp only [hready, if_false, false_eq_true]
    have hsame : ({ task with state := .running } : Task) = task := by rw [← hrunning]
    refine ⟨?_, rfl, fun _ => rfl⟩
    rw [hsame]
    exact h.quiet hid rfl rfl rfl rfl (h.closed hid)

/-- What a selection takes from the group of the running task. -/
structure Picked (core : Core) (id : Nat) (task : Task) (group : Observation) (child : Nat) :
    Prop where
  current : core.current = some id
  held : core.tasks id = some task
  running : task.state = .running
  ready : ∃ order, task.bond.ready = (order, child) :: group.ready
  members : ∀ other, other ∈ group.members.map Prod.fst ↔ other ∈ task.bond.members ∧ other ≠ child

theorem safe_popNotification (h : Calm core) {message : String} {α : Type}
    {f : Nat × Task × Observation × Nat × Int → Outcome α} {after : α → Prop}
    (hf : ∀ id task group child index, Picked core id task group child →
      Safe after (f (id, task, group, child, index))) :
    Safe after (popNotification core message >>= f) := by
  refine safe_bind (fun picked => Picked core picked.1 picked.2.1 picked.2.2.1 picked.2.2.2.1) ?_
    (fun picked hpicked => hf _ _ _ _ _ hpicked)
  refine safe_currentTask h ?_
  intro id task hcurrent hid
  refine safe_require ?_
  intro hstate
  refine safe_present ?_
  intro group hgroup
  cases hready : group.ready with
  | nil => exact safe_fault
  | cons entry rest =>
    obtain ⟨order, child⟩ := entry
    have hbond : task.bond.ready = (order, child) :: rest := by
      rw [bond_ready, hgroup]; exact hready
    have hmem := ((h.waits.notified (view_some hid)).mp (hbond ▸ mem_cons_self)).1
    rw [bond_members, hgroup] at hmem
    cases hfind : group.members.find? fun member => member.1 == child with
    | none =>
      obtain ⟨member, hin, hsame⟩ := mem_map.mp hmem
      have hnot := List.find?_eq_none.mp hfind member hin
      exact absurd hsame (by simpa using hnot)
    | some member =>
      simp only [hfind]
      refine ⟨hcurrent, hid, by simpa using hstate, ⟨order, hbond⟩, ?_⟩
      rw [bond_members]
      simp only [mem_map, mem_filter]; grind

theorem Sound.pick (h : Calm core) (hpicked : Picked core id task group child) {selected : Task}
    (hid : core.tasks child = some selected) {group' : Observation}
    (hmembers : group'.members = group.members) (hready : group'.ready = group.ready) :
    Calm { core with
      tasks := put (put core.tasks id { task with observation := some group' }) child
        { selected with waiter := none } } := by
  obtain ⟨order, hfirst⟩ := hpicked.ready
  obtain ⟨hin, bond, hbond, horder⟩ :=
    (h.waits.notified (view_some hpicked.held)).mp (hfirst ▸ mem_cons_self)
  rw [view_some hid, Option.some.injEq] at hbond
  have hne : child ≠ id := by
    intro hsame
    rw [hsame, hpicked.held, Option.some.injEq] at hid
    rw [← hbond, ← hid] at horder
    rw [show task.bond.state = .running from hpicked.running] at horder
    exact absurd horder (by simp [Status.terminalOrder])
  have hopen : task.state.terminalOrder = none := by
    rw [hpicked.running]; rfl
  have hgroup : ({ task with observation := some group' } : Task).bond =
      { task.bond with members := group.members.map Prod.fst, ready := group.ready } := by
    unfold Task.bond
    rw [Option.getD_some, hmembers, hready]
  have hnot : child ∉ core.begun := by
    intro hmem
    obtain ⟨seen, up, owner, hseen, _, hup, hask, hcurrent, howner, hfree⟩ := h.begun _ hmem
    rw [hpicked.current, Option.some.injEq] at hcurrent
    rw [← hcurrent, view_some hpicked.held, Option.some.injEq] at howner
    exact hfree (howner ▸ hin)
  refine h.pair hpicked.held hid hne (by constructor <;> rfl) (by constructor <;> rfl) ?_ ?_
  · rw [hgroup]
    refine Begun.put (h.begun.put (view_some hpicked.held)
      (fun hmem => absurd hmem (h.notBegun hpicked.held hopen)) ?_)
      ((put_of_ne hne).trans (view_some hid)) (fun hmem => absurd hmem hnot)
      (fun _ hmem => .inl hmem)
    intro other hmem; exact .inl ((hpicked.members other).mp hmem).1
  · rw [hgroup]
    exact h.waits.select (view_some hpicked.held) hpicked.running hfirst hpicked.members
      (view_some hid) hne

theorem Picked.selected (hpicked : Picked core id task group child) (h : Calm core) :
    child ≠ id ∧ ∃ selected, core.tasks child = some selected ∧
      selected.state.terminalOrder ≠ none := by
  obtain ⟨order, hfirst⟩ := hpicked.ready
  obtain ⟨hin, bond, hbond, horder⟩ :=
    (h.waits.notified (view_some hpicked.held)).mp (hfirst ▸ mem_cons_self)
  obtain ⟨selected, hselected, hsame⟩ := view_eq_some.mp hbond
  have hterminal : selected.state.terminalOrder = some order := by
    rw [← hsame] at horder; exact horder
  refine ⟨?_, selected, hselected, by rw [hterminal]; simp⟩
  intro hself
  rw [hself, hpicked.held, Option.some.injEq] at hselected
  rw [← hselected, hpicked.running] at hterminal
  exact absurd hterminal (by simp [Status.terminalOrder])

theorem safe_nextResult (h : Calm core) : Safe (Kept core) (nextResult core) := by
  refine safe_popNotification h ?_
  intro id task group child index hpicked
  obtain ⟨hne, selected, hselected, _⟩ := hpicked.selected h
  refine safe_found ((put_of_ne hne).trans hselected) ?_
  exact ⟨h.pick hpicked hselected (by rfl) (by rfl), rfl, fun _ => rfl⟩

theorem safe_nextTerminalResult (h : Calm core) : Safe (Kept core) (nextTerminalResult core) := by
  refine safe_popNotification h ?_
  intro id task group child index hpicked
  obtain ⟨hne, selected, hselected, hterminal⟩ := hpicked.selected h
  refine safe_found hselected ?_
  refine safe_bind (fun _ => True) ?_ ?_
  · unfold selectedFault
    cases hstate : selected.state <;>
      first | exact trivial | exact absurd (by rw [hstate]; rfl) hterminal
  · intro fault _
    refine safe_found ((put_of_ne hne).trans hselected) ?_
    exact ⟨h.pick hpicked hselected (by rfl) (by rfl), rfl, fun _ => rfl⟩

end

/-! ## Release -/

section
variable {core : Core} {child : Nat}

theorem Sound.childless {exempt : Nat → Prop} {target : Option Nat} {stopped : Prop} {id : Nat} {task : Task}
    (h : Sound core exempt target stopped) (hid : core.tasks id = some task) (hleaf : task.children = []) :
    ∀ {other bond}, view Task.bond core.tasks other = some bond → bond.parent ≠ some id := by
  intro other bond hother hparent
  obtain ⟨peer, hpeer, hsame⟩ := view_eq_some.mp hother
  rw [← hsame] at hparent
  obtain ⟨_, owner, howner, hmem⟩ := h.parent hpeer hparent
  rw [hid, Option.some.injEq] at howner
  rw [← howner, hleaf] at hmem; simp at hmem

theorem safe_release (h : Calm core)
    (hfree : ∀ {parent caller}, core.current = some parent → core.tasks parent = some caller →
      contains caller child = false) : Safe (Kept core) (release core child) := by
  refine safe_parentOf h ?_
  intro parent caller task hfamily
  refine safe_require ?_
  intro hawaited
  refine safe_require ?_
  intro hleaf
  refine safe_require ?_
  intro howed
  simp only [and_eq_true, List.isEmpty_iff] at hawaited hleaf howed
  have hterminal : task.state.terminalOrder ≠ none := by
    have hsome := hawaited.2
    intro hnone
    rw [hnone] at hsome; simp at hsome
  have hnot : child ∉ caller.bond.members := by
    rw [← contains_iff, hfree hfamily.current hfamily.owner]; simp
  have howner : drop core.tasks child parent = some caller := by
    rw [drop_of_ne hfamily.ne.symm, hfamily.owner]
  simp only [unlink, hfamily.above]
  refine safe_found howner ?_
  refine ⟨h.prune hfamily.held hfamily.above hfamily.owner hleaf (by rfl) (by rfl) (by rfl) (by rfl)
    (by rfl) (by rfl) (fun _ hmem => hmem) ?_ ?_ howed ?_, rfl, fun _ => rfl⟩
  · intro hcurrent
    exact hterminal (h.acts hcurrent hfamily.held).2
  · unfold unready
    rw [h.externals.settled (view_some hfamily.held) hterminal]; rfl
  · refine h.waits.retire (view_some hfamily.held) (h.childless hfamily.held hleaf) hfamily.above
      (view_some hfamily.owner) hfamily.ne ?_ (h.waits.unique (view_some hfamily.owner)) ?_ ?_ ?_
    · intro hwait
      obtain ⟨_, bond, hbond, _, _, hopen⟩ :=
        h.waits.waiting (view_some hfamily.owner) hwait (fun hexempt => hexempt)
      rw [eq_of_view hfamily.held hbond] at hopen; exact hterminal hopen
    · intro other
      constructor
      · intro hmem; exact ⟨hmem, fun hsame => hnot (hsame ▸ hmem)⟩
      · exact fun hmem => hmem.1
    · intro order other
      constructor
      · intro hmem
        refine ⟨hmem, fun hsame => hnot ?_⟩
        have hin := ((h.waits.notified (view_some hfamily.owner)).mp hmem).1
        exact hsame ▸ hin
      · exact fun hmem => hmem.1
    · intro hobserve _
      exact h.waits.observing (view_some hfamily.owner) hobserve (fun hexempt => hexempt)

end

/-! ## External waits -/

section
variable {core : Core}

theorem unready_none {state : Status} : unready ⟨state, none⟩ = 0 := rfl

theorem unready_some {state : Status} {wait : ExternalWait} :
    unready ⟨state, some wait⟩ = if wait.ready then 0 else 1 := by
  unfold unready
  rw [Option.any_some]
  cases wait.ready <;> rfl

theorem safe_waitSource (h : Calm core) {source : WaitSource} {registered : Bool} :
    Safe (Kept core) (waitSource core source registered) := by
  refine safe_currentTask h ?_
  intro id task hcurrent hid
  refine safe_require ?_
  intro hstate
  simp only [or_eq_true, decide_eq_true_eq] at hstate
  cases hexternal : task.external with
  | some wait =>
    refine safe_require ?_
    intro _
    cases hready : wait.ready with
    | true =>
      refine ⟨h.rest hid (.inr hstate) (.inr (.inl rfl)) ?_ (fun _ hmem => .inl hmem) ?_ ?_ ?_
        (.inl rfl), rfl, fun _ => rfl⟩
      · exact h.queue.restate (view_some hid) (by grind) (by simp)
      · simp [unready_none]
      · unfold Task.parking
        rw [hexternal, unready_some, hready]; rfl
      · exact h.currents.put (fun _ => hcurrent) (fun _ => ⟨by simp, rfl⟩)
    | false => exact Kept.rfl' h
  | none =>
    cases registered with
    | false => exact safe_fault
    | true =>
      refine ⟨h.rest hid (.inr hstate) (.inr (.inr rfl)) ?_ (fun _ hmem => .inl hmem) ?_ ?_ ?_
        (.inl rfl), rfl, fun _ => rfl⟩
      · exact h.queue.restate (view_some hid) (by grind) (by simp)
      · simp [unready_some]
      · unfold Task.parking
        rw [hexternal]; rfl
      · exact h.currents.put (by simp) (fun _ => ⟨by simp, rfl⟩)

theorem safe_providerReady (h : Calm core) {completionKind identity : Nat} :
    Safe (Kept core) (providerReady core completionKind identity) := by
  refine safe_currentTask h ?_
  intro id task hcurrent hid
  refine safe_require ?_
  intro hstate
  refine safe_require ?_
  intro _
  simp only [or_eq_true, decide_eq_true_eq] at hstate
  have hrest : ∀ pending, pending + unready task.parking = core.pending → Calm { core with
      tasks := put core.tasks id { task with state := .running, external := none },
      pending := pending } := by
    intro pending hpending
    refine h.rest hid (.inr hstate) (.inr (.inl rfl)) ?_ (fun _ hmem => .inl hmem) ?_ hpending ?_
      (.inl rfl)
    · exact h.queue.restate (view_some hid) (by grind) (by simp)
    · simp [unready_none]
    · exact h.currents.put (fun _ => hcurrent) (fun _ => ⟨by simp, rfl⟩)
  unfold cancelWait
  cases hexternal : task.external with
  | none =>
    refine safe_found hid ?_
    have hthis := hrest core.pending (by simp [Task.parking, hexternal, unready_none])
    rw [← hexternal] at hthis; exact ⟨hthis, rfl, fun _ => rfl⟩
  | some wait =>
    refine safe_found put_self ?_
    have hpos := h.externals.le_pending (view_some hid) (h.limit hid)
    have hparking : unready task.parking = if wait.ready then 0 else 1 := by
      unfold Task.parking
      rw [hexternal, unready_some]
    have hthis := hrest (if wait.ready then core.pending else core.pending - 1) (by
      split <;> simp_all)
    refine ⟨?_, rfl, fun _ => rfl⟩
    rw [← put_put] at hthis; exact hthis

end

/-! ## All operations -/

/-- What the generated code promises for an operation. -/
def promisedOperation (core : Core) : Operation → Bool
  | .release child =>
    match core.current.bind core.tasks with
    | some caller => !contains caller child
    | none => true
  | .nextTerminalFailure =>
    match (core.current.bind core.tasks).bind Task.observation with
    | some group => group.selectedFault.all fun selected => (core.tasks selected).isSome
    | none => true
  | _ => true

theorem safe_quietly {core : Core} {outcome : Outcome Core} (h : Safe (Kept core) outcome) :
    Safe (fun raised => Kept core raised.1) (quietly outcome) :=
  safe_bind (Kept core) h (fun _ hkept => hkept)

theorem safe_perform {core : Core} {operation : Operation} (h : Calm core)
    (hroom : core.next + 1 < 2 ^ 64) (hpromised : promisedOperation core operation = true) :
    Safe (fun raised => Kept core raised.1) (perform core operation) := by
  cases operation with
  | create => exact safe_quietly (safe_create h hroom)
  | adopt => exact safe_quietly (safe_adopt h)
  | returnTask => exact safe_quietly (safe_returnTask h)
  | await => exact safe_quietly (safe_await h)
  | result => exact safe_result h
  | release child =>
    refine safe_quietly (safe_release h ?_)
    intro parent caller hcurrent howner
    simp only [promisedOperation, hcurrent, Option.bind_some, howner] at hpromised
    simpa using hpromised
  | cleanupPush => exact safe_quietly (safe_cleanupPush h)
  | resultCleanupPush => exact safe_quietly (safe_resultCleanupPush h)
  | cleanupPop => exact safe_quietly (safe_cleanupPop h)
  | observe => exact safe_quietly (safe_observe h)
  | waitNext => exact safe_quietly (safe_waitNext h)
  | nextResult => exact safe_quietly (safe_nextResult h)
  | nextTerminalResult => exact safe_quietly (safe_nextTerminalResult h)
  | nextTerminalIndex => exact safe_quietly (safe_nextTerminalIndex h)
  | nextTerminalFailure =>
    refine safe_nextTerminalFailure h ?_
    intro id task group selected hcurrent hid hgroup hselected
    simp only [promisedOperation, hcurrent, Option.bind_some, hid, hgroup, hselected] at hpromised
    exact Option.isSome_iff_exists.mp hpromised
  | waitSource => exact safe_quietly (safe_waitSource h)
  | providerReady => exact safe_quietly (safe_providerReady h)

end Loom.Tasks

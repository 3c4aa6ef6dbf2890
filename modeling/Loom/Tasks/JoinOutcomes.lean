import Loom.Tasks.JoinRuns

/-
  What the joins return, for every order in which the tasks end.

  The order is one of all slots, each of them once. Draining a task runs its cleanups, and
  a fault that they raise is not suppressed everywhere: not for the siblings of a task that
  has completed or was cancelled, and not for a cancelled task that `any` passes over. The
  join ends with the first such fault then.
-/

namespace Loom.Joins

open List

variable {τ V α β : Type} {world : World τ V}

/-! ## Which tasks are left -/

/-- The tasks that are not taken, as they are drained. -/
def left (registered : List τ) (gone : List Nat) : List τ :=
  (pending registered gone).reverse.filterMap id

theorem filterMap_range (registered : List τ) :
    (range registered.length).filterMap (fun slot => registered[slot]?) = registered := by
  induction registered using reverseRecOn with
  | nil => rfl
  | append_singleton registered task ih =>
    have hfront : (range registered.length).filterMap
        (fun slot => (registered ++ [task])[slot]?) =
        (range registered.length).filterMap (fun slot => registered[slot]?) := by
      apply filterMap_congr
      intro slot hslot; exact getElem?_append_left (mem_range.mp hslot)
    rw [length_append, length_singleton, range_succ, filterMap_append, hfront,
      ih]
    simp

variable {order : List Nat} {registered : List τ} {gone later done : List Nat} {after : Runtime τ}
  {tasks : List τ} {fault : Fault} {used : List (τ × Use)} {slot remaining : Nat} {task : τ}
  {observed : List τ} {message : String} {values : List V}

theorem arrivals_perm (h : order.Perm (range registered.length)) :
    (arrivals registered order).Perm registered :=
  calc (arrivals registered order).Perm
        ((range registered.length).filterMap fun slot => registered[slot]?) := h.filterMap _
    _ = registered := filterMap_range registered

/-- The tasks left are those whose ends come later. -/
theorem left_perm (h : (gone ++ later).Perm (range registered.length)) :
    (left registered gone).Perm (arrivals registered later) := by
  have hnodup : (gone ++ later).Nodup := h.nodup_iff.mpr nodup_range
  have hnew : ∀ slot ∈ later, slot ∉ gone := fun slot hlater hgone =>
    (nodup_append.mp hnodup).2.2 slot hgone slot hlater rfl
  have hgone : gone.filterMap (fun slot => if slot ∈ gone then none else registered[slot]?) = [] := by
    apply filterMap_eq_nil_iff.mpr
    intro slot hslot; exact if_pos hslot
  have hlater : later.filterMap (fun slot => if slot ∈ gone then none else registered[slot]?) =
      arrivals registered later := by
    apply filterMap_congr
    intro slot hslot; exact if_neg (hnew slot hslot)
  calc (left registered gone).Perm ((pending registered gone).filterMap id) :=
        (reverse_perm _).filterMap id
    _ = (range registered.length).filterMap
          (fun slot => if slot ∈ gone then none else registered[slot]?) := by
        rw [pending, filterMap_map]; rfl
    _ |>.Perm ((gone ++ later).filterMap
          (fun slot => if slot ∈ gone then none else registered[slot]?)) := h.symm.filterMap _
    _ = arrivals registered later := by
        rw [filterMap_append, hgone, hlater, nil_append]

theorem left_all (h : order.Perm (range registered.length)) : left registered order = [] := by
  have hperm : (left registered order).Perm (arrivals registered []) := by
    apply left_perm
    rwa [append_nil]
  exact perm_nil.mp hperm

/-- What an order of all slots says about its parts. -/
theorem slot_lt (h : later.Perm (range registered.length)) :
    ∀ slot ∈ later, slot < registered.length :=
  fun _ hslot => mem_range.mp (h.mem_iff.mp hslot)

theorem order_parts (h : (done ++ later).Perm (range registered.length)) :
    (done ++ later).Nodup ∧ (∀ slot ∈ done, slot < registered.length) ∧
      done.length + later.length = registered.length := by
  refine ⟨h.nodup_iff.mpr nodup_range, fun slot hslot => ?_, by simpa using h.length_eq⟩
  exact slot_lt h slot (mem_append_left later hslot)

/-! ## Results -/

theorem run_eq {program : Join τ α} {result : Except Fault α}
    (h : program (start order) = (result, after)) : run program order = (result, after.used) := by
  show ((program (start order)).1, (program (start order)).2.used) = _
  rw [h]

/-- How a join ends that has drained some tasks: with the fault that one of them raised, or
    with its result, for which it uses `more` tasks. -/
def drainedThen (ended : Option String × List τ) (result : Except Fault α)
    (more : List (τ × Use)) : Except Fault α × List (τ × Use) :=
  match ended.1 with
  | none => (result, ended.2.map drained ++ more)
  | some message => (.error (.text message), ended.2.map drained)

theorem drain_pending (registered : List τ) (gone : List Nat) (suppress : Bool)
    (state : Runtime τ) : drain world (pending registered gone) suppress state =
      (ending (draining world suppress (left registered gone)).1 (.ok ()),
        state.using ((draining world suppress (left registered gone)).2.map drained)) :=
  drainFrom_run suppress (pending registered gone).reverse state

/-- Draining, and a value after it if nothing is raised. -/
theorem ending_pure {program : Join τ Unit} {state : Runtime τ} {fault : Option String} (value : α)
    (h : program state = (ending fault (.ok ()), after)) :
    (program >>= fun _ => pure value) state = (ending fault (.ok value), after) := by
  cases fault with
  | none => exact bind_ok h
  | some message => exact bind_error h

/-! ## All of a list -/

def Completes (world : World τ V) (task : τ) : Prop := ∃ value, world.outcome task = .completed value

theorem values_of_completes (h : ∀ task ∈ tasks, Completes world task) :
    ∃ values : List V, tasks.map world.outcome = values.map .completed := by
  induction tasks with
  | nil => exact ⟨[], rfl⟩
  | cons task rest ih =>
    obtain ⟨value, hvalue⟩ := h task (.head _)
    obtain ⟨values, hvalues⟩ := ih fun other hother => h other (.tail task hother)
    exact ⟨value :: values, by simp [hvalue, hvalues]⟩

theorem eachTerminal_stop {handle : TaskTerminal → Join τ Unit}
    (htask : registered[slot]? = some task) (hnew : slot ∉ gone)
    (hfault : handle (world.outcome task).terminal
      (watching registered (gone ++ [slot]) later used) = (.error fault, after)) :
    eachTerminal world handle (remaining + 1) (watching registered gone (slot :: later) used) =
      (.error fault, after) := by
  rw [eachTerminal, bind_ok (taskNextTerminal_run htask hnew), bind_error hfault]

/-- A loop over all ends comes to the first that it stops at. -/
theorem eachTerminal_first {handle : TaskTerminal → Join τ Unit}
    (h : (done ++ slot :: later).Perm (range registered.length))
    (hnothing : ∀ task ∈ arrivals registered done, ∀ state,
      handle (world.outcome task).terminal state = (.ok (), state))
    (htask : registered[slot]? = some task) (hfault : handle (world.outcome task).terminal
      (watching registered (done ++ [slot]) later []) = (.error fault, after)) :
    eachTerminal world handle registered.length (watching registered [] (done ++ slot :: later) []) =
      (.error fault, after) := by
  obtain ⟨hnodup, hslots, hlength⟩ := order_parts h
  have hnew : slot ∉ done := fresh_slot hnodup
  have hdone : ([] ++ done).Nodup := (nodup_append.mp hnodup).1
  rw [← hlength, eachTerminal_run hslots hdone hnothing]
  exact eachTerminal_stop htask hnew hfault

/-- A loop over all ends that stops at none of them. -/
theorem eachTerminal_all {handle : TaskTerminal → Join τ Unit} {registered : List τ}
    {order : List Nat} (h : order.Perm (range registered.length))
    (hnothing : ∀ task ∈ arrivals registered order, ∀ state,
      handle (world.outcome task).terminal state = (.ok (), state)) :
    eachTerminal world handle registered.length (watching registered [] order []) =
      (.ok (), watching registered order [] []) := by
  have hparts : (order ++ []).Perm (range registered.length) := by rwa [append_nil]
  obtain ⟨hnodup, hslots, hlength⟩ := order_parts hparts
  have hloop := @eachTerminal_run _ _ world handle registered [] order [] [] 0 hslots
    (by simpa using hnodup) hnothing
  rw [append_nil] at hloop
  rw [← hlength]; exact hloop

theorem collectTerminal_settled {slots : List (Option τ)} (terminal : TaskTerminal)
    (state : Runtime τ) : collectTerminal world slots false terminal state = (.ok (), state) := by
  cases terminal <;> rfl

/-- `collect` where nothing stops it: every task is held, and none is used yet. -/
theorem collect_all {tasks : List τ} {order : List Nat} {failFast : Bool}
    (h : order.Perm (range tasks.reverse.length))
    (hnothing : ∀ task ∈ tasks, ∀ state, collectTerminal world (pending tasks.reverse []) failFast
      (world.outcome task).terminal state = (.ok (), state)) :
    collect world tasks failFast (start order) =
      (.ok { slots := pending tasks.reverse [], count := tasks.length },
        watching tasks.reverse order [] []) := by
  have hloop := eachTerminal_all h fun task htask =>
    hnothing task (mem_reverse.mp ((arrivals_perm h).mem_iff.mp htask))
  rw [length_reverse] at hloop
  rw [collect, bind_ok (watch_run tasks order)]
  dsimp only [collectFrom]
  rw [bind_ok hloop]; rfl

theorem left_nil (tasks : List τ) : left tasks.reverse [] = tasks := by
  rw [left, pending_nil, ← map_reverse]; simp

/-- The tasks that are held by their slots are drained as those of a tuple are. -/
theorem collectTerminal_eq (tasks : List τ) :
    collectTerminal world (pending tasks.reverse []) true = tupleTerminal world tasks := by
  have hdrain : ∀ suppress, drain world (pending tasks.reverse []) suppress =
      drainTuple world suppress tasks := by
    intro suppress
    funext state
    rw [drain, drainFrom_eq]
    exact congrArg (fun rest => drainTuple world suppress rest state) (left_nil tasks)
  funext terminal
  cases terminal <;> simp [collectTerminal, tupleTerminal, hdrain]

theorem tupleTerminal_completed (h : Completes world task) (state : Runtime τ) :
    tupleTerminal world observed (world.outcome task).terminal state = (.ok (), state) := by
  obtain ⟨value, hvalue⟩ := h
  rw [hvalue]; rfl

theorem tupleTerminal_faulted (h : world.outcome task = .faulted message) (state : Runtime τ) :
    tupleTerminal world observed (world.outcome task).terminal state =
      (.error (.text message), state.using (observed.map drained)) := by
  have hdrain := @drainTuple_run _ _ world true observed state
  rw [draining_suppressed] at hdrain
  rw [h]; exact bind_ok hdrain

/-- What is raised for a cancelled task, unless a cleanup raises something before. -/
theorem tupleTerminal_cancelled (h : world.outcome task = .cancelled) (state : Runtime τ) :
    tupleTerminal world observed (world.outcome task).terminal state =
      (.error (.text ((draining world false observed).1.getD "task was cancelled")),
        state.using ((draining world false observed).2.map drained)) := by
  have hdrain := @drainTuple_run _ _ world false observed state
  rw [h]
  cases hraised : (draining world false observed).1 with
  | none =>
    rw [hraised] at hdrain; exact bind_ok hdrain
  | some message =>
    rw [hraised] at hdrain; exact bind_error hdrain

theorem drainedThen_error (ended : Option String × List τ) (message : String) :
    drainedThen ended (.error (.text message) : Except Fault α) [] =
      (.error (.text (ended.1.getD message)), ended.2.map drained) := by
  obtain ⟨raised, tasks⟩ := ended
  cases raised <;> simp [drainedThen]

theorem settled_run (world : World τ V) (h : order.Perm (range tasks.reverse.length)) :
    run (settled world tasks) order = (.ok (tasks.map world.outcome), tasks.map extracted) := by
  have hcollect := @collect_all _ _ world tasks order false h fun task _ =>
    collectTerminal_settled (world.outcome task).terminal
  have hrun : settled world tasks (start order) = (.ok (tasks.map world.outcome),
      (watching tasks.reverse order [] []).using (tasks.map extracted)) := by
    rw [settled, bind_ok hcollect]
    exact generate_run (extracts_outcomes tasks) _
  simpa using run_eq hrun

theorem completes_of_values (h : tasks.map world.outcome = values.map .completed) :
    ∀ task ∈ tasks, Completes world task := by
  intro task htask
  have hmem : world.outcome task ∈ values.map Outcome.completed := by
    rw [← h]; exact mem_map_of_mem htask
  obtain ⟨value, -, hvalue⟩ := mem_map.mp hmem
  exact ⟨value, hvalue.symm⟩

theorem all_completed (h : order.Perm (range tasks.reverse.length))
    (hvalues : tasks.map world.outcome = values.map .completed) :
    run (all world tasks) order = (.ok values, tasks.map extracted) := by
  have hcollect := @collect_all _ _ world tasks order true h fun task htask => by
    rw [collectTerminal_eq]
    exact tupleTerminal_completed (completes_of_values hvalues task htask)
  have hrun : all world tasks (start order) = (.ok values,
      (watching tasks.reverse order [] []).using (tasks.map extracted)) := by
    rw [all, bind_ok hcollect]; exact generate_run (extracts_values hvalues) _
  simpa using run_eq hrun

section
variable (h : (done ++ slot :: later).Perm (range tasks.reverse.length))
  (hdone : ∀ task ∈ arrivals tasks.reverse done, Completes world task)
  (htask : tasks.reverse[slot]? = some task)
include h hdone htask

theorem all_stop
    (hfault : tupleTerminal world tasks (world.outcome task).terminal
      (watching tasks.reverse (done ++ [slot]) later []) = (.error fault, after)) :
    run (all world tasks) (done ++ slot :: later) = (.error fault, after.used) := by
  have hloop := eachTerminal_first h
    (fun task htask => tupleTerminal_completed (hdone task htask)) htask hfault
  rw [length_reverse] at hloop
  have hcollect : collect world tasks true (start (done ++ slot :: later)) =
      (.error fault, after) := by
    rw [collect, bind_ok (watch_run tasks _)]
    dsimp only [collectFrom]
    rw [collectTerminal_eq, bind_error hloop]
  have hrun : all world tasks (start (done ++ slot :: later)) = (.error fault, after) := by
    rw [all, bind_error hcollect]
  exact run_eq hrun

theorem all_faulted (hfault : world.outcome task = .faulted message) :
    run (all world tasks) (done ++ slot :: later) =
      (.error (.text message), tasks.map drained) :=
  all_stop h hdone htask (tupleTerminal_faulted hfault _)

theorem all_cancelled (hcancel : world.outcome task = .cancelled) :
    run (all world tasks) (done ++ slot :: later) =
      drainedThen (draining world false tasks) (.error (.text "task was cancelled")) [] := by
  rw [drainedThen_error]
  exact all_stop h hdone htask (tupleTerminal_cancelled hcancel _)

end

/-! ## All of a tuple -/

theorem tupleValues_run (h : tasks.map world.outcome = values.map .completed) (state : Runtime τ) :
    tupleValues world tasks state = (.ok values, state.using (tasks.map extracted)) := by
  induction tasks generalizing values state with
  | nil =>
    obtain rfl : values = [] := map_eq_nil_iff.mp h.symm
    simp [tupleValues, pure_run]
  | cons task rest ih =>
    cases values with
    | nil => simp at h
    | cons value values =>
      obtain ⟨hvalue, hrest⟩ := by simpa using h
      rw [tupleValues, bind_ok (taskAwait_run hvalue), bind_ok (ih hrest _)]
      simp [pure_run]

theorem settledTuple_run (tasks : List τ) (state : Runtime τ) :
    settledTuple world tasks state =
      (.ok (tasks.map world.outcome), state.using (tasks.map extracted)) := by
  induction tasks generalizing state with
  | nil => simp [settledTuple, pure_run]
  | cons task rest ih =>
    rw [settledTuple, bind_ok (taskOutcome_run task), bind_ok (ih _)]
    simp [pure_run]

theorem observeTuple_start (tasks : List τ) (order : List Nat) :
    observeTuple tasks 0 (start order) =
      (.ok (tasks, tasks.length), watching tasks [] order []) := by
  have h := observeTuple_run tasks [] order []
  rw [start_eq]
  simpa using h

theorem allTuple_completed (h : order.Perm (range tasks.length))
    (hvalues : tasks.map world.outcome = values.map .completed) :
    run (allTuple world tasks) order = (.ok values, tasks.map extracted) := by
  have hloop := @eachTerminal_all _ _ world (tupleTerminal world tasks) tasks order h
    fun task htask => tupleTerminal_completed
      (completes_of_values hvalues task ((arrivals_perm h).mem_iff.mp htask))
  have hrun : allTuple world tasks (start order) = (.ok values,
      (watching tasks order [] []).using (tasks.map extracted)) := by
    rw [allTuple, bind_ok (observeTuple_start tasks order)]
    dsimp only [allTupleFrom]
    rw [bind_ok hloop]; exact tupleValues_run hvalues _
  simpa using run_eq hrun

section
variable (h : (done ++ slot :: later).Perm (range tasks.length))
  (hdone : ∀ task ∈ arrivals tasks done, Completes world task) (htask : tasks[slot]? = some task)
include h hdone htask

theorem allTuple_stop
    (hfault : tupleTerminal world tasks (world.outcome task).terminal
      (watching tasks (done ++ [slot]) later []) = (.error fault, after)) :
    run (allTuple world tasks) (done ++ slot :: later) = (.error fault, after.used) := by
  have hloop := eachTerminal_first h
    (fun task htask => tupleTerminal_completed (hdone task htask)) htask hfault
  have hrun : allTuple world tasks (start (done ++ slot :: later)) = (.error fault, after) := by
    rw [allTuple, bind_ok (observeTuple_start tasks _)]
    dsimp only [allTupleFrom]
    rw [bind_error hloop]
  exact run_eq hrun

theorem allTuple_faulted (hfault : world.outcome task = .faulted message) :
    run (allTuple world tasks) (done ++ slot :: later) =
      (.error (.text message), tasks.map drained) :=
  allTuple_stop h hdone htask (tupleTerminal_faulted hfault _)

theorem allTuple_cancelled (hcancel : world.outcome task = .cancelled) :
    run (allTuple world tasks) (done ++ slot :: later) =
      drainedThen (draining world false tasks) (.error (.text "task was cancelled")) [] := by
  rw [drainedThen_error]
  exact allTuple_stop h hdone htask (tupleTerminal_cancelled hcancel _)

end

/-! ## One of a list -/

/-- A task that `any` passes over, without a fault of its own. -/
def Passed (world : World τ V) (task : τ) : Prop :=
  (∃ message, world.outcome task = .faulted message) ∨
    world.outcome task = .cancelled ∧ world.cleanup task = none

/-- The variables `failure` and `failed` of `first` after one more task. -/
def note (world : World τ V) (noted : String × Bool) (task : τ) : String × Bool :=
  match world.outcome task with
  | .faulted message => (if noted.2 then noted.1 else message, true)
  | _ => noted

def firstMessage (world : World τ V) (tasks : List τ) : Option String :=
  tasks.findSome? fun task =>
    match world.outcome task with
    | .faulted message => some message
    | _ => none

theorem foldl_note_failed (tasks : List τ) (failure : String) :
    tasks.foldl (note world) (failure, true) = (failure, true) := by
  induction tasks with
  | nil => rfl
  | cons task rest ih =>
    rw [foldl_cons, note]
    cases world.outcome task <;> exact ih

theorem foldl_note (tasks : List τ) (failure : String) :
    (tasks.foldl (note world) (failure, false)).1 = (firstMessage world tasks).getD failure := by
  induction tasks with
  | nil => rfl
  | cons task rest ih =>
    rw [foldl_cons, note, firstMessage, findSome?_cons]
    cases world.outcome task with
    | faulted message => exact congrArg Prod.fst (foldl_note_failed rest message)
    | completed value => exact ih
    | cancelled => exact ih

theorem firstFrom_step {noted : String × Bool} (htask : registered[slot]? = some task)
    (hnew : slot ∉ gone) (hpass : Passed world task) :
    firstFrom world true (remaining + 1) (pending registered gone) noted.1 noted.2
        (watching registered gone (slot :: later) used) =
      firstFrom world true remaining (pending registered (gone ++ [slot]))
        (note world noted task).1 (note world noted task).2
        (watching registered (gone ++ [slot]) later (used ++ [drained task])) := by
  rw [firstFrom, bind_ok (taskNextEvent_run htask hnew)]
  dsimp only
  rw [bind_ok (takeSlot_pending htask hnew)]
  rcases hpass with ⟨message, hfault⟩ | ⟨hcancel, hquiet⟩
  · have hdrain : taskDrain world task true (watching registered (gone ++ [slot]) later used) =
        (.ok (), watching registered (gone ++ [slot]) later (used ++ [drained task])) :=
      taskDrain_run task true
    simp only [hfault, note]; exact bind_ok hdrain
  · have hdrain : taskDrain world task false (watching registered (gone ++ [slot]) later used) =
        (.ok (), watching registered (gone ++ [slot]) later (used ++ [drained task])) := by
      rw [taskDrain_run, hquiet]; rfl
    simp only [hcancel, note]; exact bind_ok hdrain

theorem firstFrom_passed {registered : List τ} {gone done later : List Nat}
    {used : List (τ × Use)} {remaining : Nat} {noted : String × Bool}
    (hslots : ∀ slot ∈ done, slot < registered.length) (hnodup : (gone ++ done).Nodup)
    (hpass : ∀ task ∈ arrivals registered done, Passed world task) :
    firstFrom world true (done.length + remaining) (pending registered gone) noted.1 noted.2
        (watching registered gone (done ++ later) used) =
      firstFrom world true remaining (pending registered (gone ++ done))
        ((arrivals registered done).foldl (note world) noted).1
        ((arrivals registered done).foldl (note world) noted).2
        (watching registered (gone ++ done) later
          (used ++ (arrivals registered done).map drained)) := by
  induction done generalizing gone used noted with
  | nil => simp [arrivals]
  | cons slot done ih =>
    have hlt : slot < registered.length := hslots slot (.head _)
    have htask : registered[slot]? = some registered[slot] := getElem?_eq_getElem hlt
    have hnew : slot ∉ gone := fresh_slot hnodup
    rw [arrivals_cons htask] at hpass ⊢
    rw [length_cons, Nat.add_right_comm, cons_append,
      firstFrom_step htask hnew (hpass _ (.head _))]
    have hrest := @ih (gone ++ [slot]) (used ++ [drained registered[slot]])
      (note world noted registered[slot])
      (fun other hother => hslots other (.tail slot hother)) (by simpa using hnodup)
      (fun task htask => hpass task (.tail _ htask))
    simpa using hrest
/-- The end that decides: of a task that completes, or of any task in a race. Only the
    siblings of a task that faulted are drained quietly. -/
theorem firstFrom_decided {registered : List τ} {gone later : List Nat} {used : List (τ × Use)}
    {slot remaining : Nat} {task : τ} {failure : String} {successOnly failed suppress : Bool}
    (htask : registered[slot]? = some task) (hnew : slot ∉ gone)
    (hdecides : Completes world task ∧ suppress = false ∨ successOnly = false ∧
      ((∃ message, world.outcome task = .faulted message) ∧ suppress = true ∨
        world.outcome task = .cancelled ∧ suppress = false)) :
    firstFrom world successOnly (remaining + 1) (pending registered gone) failure failed
        (watching registered gone (slot :: later) used) =
      (ending (draining world suppress (left registered (gone ++ [slot]))).1 (.ok task),
        watching registered (gone ++ [slot]) later
          (used ++ (draining world suppress (left registered (gone ++ [slot]))).2.map drained)) := by
  have hdrain := @drain_pending _ _ world registered (gone ++ [slot]) suppress
    (watching registered (gone ++ [slot]) later used)
  rw [firstFrom, bind_ok (taskNextEvent_run htask hnew)]
  dsimp only
  rw [bind_ok (takeSlot_pending htask hnew)]
  rcases hdecides with ⟨⟨value, hvalue⟩, rfl⟩ | ⟨rfl, ⟨⟨message, hfault⟩, rfl⟩ | ⟨hcancel, rfl⟩⟩
  · simp only [hvalue]; exact ending_pure task hdrain
  · simp only [hfault, Outcome.terminal]
    rw [draining_suppressed] at hdrain ⊢; exact bind_ok hdrain
  · simp only [hcancel]; exact ending_pure task hdrain

/-- A cancelled task whose cleanup faults ends `any`. -/
theorem firstFrom_cleanup {failure : String} {failed : Bool} (htask : registered[slot]? = some task)
    (hnew : slot ∉ gone) (hcancel : world.outcome task = .cancelled)
    (hcleanup : world.cleanup task = some message) :
    firstFrom world true (remaining + 1) (pending registered gone) failure failed
        (watching registered gone (slot :: later) used) =
      (.error (.text message),
        watching registered (gone ++ [slot]) later (used ++ [drained task])) := by
  have hdrain : taskDrain world task false (watching registered (gone ++ [slot]) later used) =
      (.error (.text message),
        watching registered (gone ++ [slot]) later (used ++ [drained task])) := by
    rw [taskDrain_run, hcleanup]; rfl
  rw [firstFrom, bind_ok (taskNextEvent_run htask hnew)]
  dsimp only
  rw [bind_ok (takeSlot_pending htask hnew)]
  simp only [hcancel]; exact bind_error hdrain

theorem first_run {successOnly : Bool} (h : tasks ≠ []) :
    first world tasks successOnly (start order) =
      firstFrom world successOnly tasks.length (pending tasks.reverse [])
        "no task completed successfully" false (watching tasks.reverse [] order []) := by
  have hcount : ¬tasks.length = 0 := fun hzero => h (length_eq_zero_iff.mp hzero)
  rw [first, bind_ok (watch_run tasks order)]
  dsimp only
  rw [if_neg hcount]

theorem first_empty (successOnly : Bool) (order : List Nat) :
    first world ([] : List τ) successOnly (start order) =
      (.error (.text "any/race requires at least one task"), start order) := by
  rw [first, bind_ok (watch_run [] order)]; simp [faultText, raise, start_eq]

/-- `any` and `race` where they come to the end that decides. -/
theorem first_decided {program : τ → Join τ α} {tasks : List τ} {successOnly suppress : Bool}
    {done later : List Nat} {slot : Nat} {task : τ} {value : α}
    (h : (done ++ slot :: later).Perm (range tasks.reverse.length))
    (hpass : (∀ task ∈ arrivals tasks.reverse done, Passed world task) ∧ successOnly = true ∨
      done = [])
    (htask : tasks.reverse[slot]? = some task)
    (hdecides : Completes world task ∧ suppress = false ∨ successOnly = false ∧
      ((∃ message, world.outcome task = .faulted message) ∧ suppress = true ∨
        world.outcome task = .cancelled ∧ suppress = false))
    (hprogram : ∀ state, program task state = (.ok value, state.using [extracted task])) :
    run (first world tasks successOnly >>= program) (done ++ slot :: later) =
      let ended := drainedThen (draining world suppress (left tasks.reverse (done ++ [slot])))
        (.ok value) [extracted task]
      (ended.1, (arrivals tasks.reverse done).map drained ++ ended.2) := by
  obtain ⟨hnodup, hslots, hlength⟩ := order_parts h
  have hnew : slot ∉ done := fresh_slot hnodup
  have hdone : ([] ++ done).Nodup := (nodup_append.mp hnodup).1
  have hsome : tasks ≠ [] := by
    rintro rfl
    simp at htask
  rw [length_reverse] at hlength
  have hfirst : first world tasks successOnly (start (done ++ slot :: later)) =
      (ending (draining world suppress (left tasks.reverse (done ++ [slot]))).1 (.ok task),
        watching tasks.reverse (done ++ [slot]) later ((arrivals tasks.reverse done).map drained ++
          (draining world suppress (left tasks.reverse (done ++ [slot]))).2.map drained)) := by
    rw [first_run hsome, ← hlength]
    rcases hpass with ⟨hpass, rfl⟩ | rfl
    · have hloop := @firstFrom_passed _ _ world tasks.reverse [] done (slot :: later) []
        (later.length + 1) ("no task completed successfully", false) hslots hdone hpass
      exact hloop.trans (firstFrom_decided htask (by simpa using hnew) hdecides)
    · have hloop := @firstFrom_decided _ _ world tasks.reverse [] later [] slot later.length task
        "no task completed successfully" successOnly false suppress htask (by simp) hdecides
      simpa [arrivals] using hloop
  have hrun : run (first world tasks successOnly >>= program) (done ++ slot :: later) =
      (((first world tasks successOnly >>= program) (start (done ++ slot :: later))).1,
        ((first world tasks successOnly >>= program) (start (done ++ slot :: later))).2.used) := rfl
  rw [hrun]
  cases hraised : (draining world suppress (left tasks.reverse (done ++ [slot]))).1 with
  | none =>
    rw [hraised] at hfirst
    rw [bind_ok hfirst, hprogram]; simp [drainedThen, hraised]
  | some message =>
    rw [hraised] at hfirst
    rw [bind_error hfirst]; simp [drainedThen, hraised]
theorem any_empty (order : List Nat) : run (any world ([] : List τ)) order =
    (.error (.text "any/race requires at least one task"), []) :=
  run_eq (bind_error (first_empty true order))

theorem race_empty (order : List Nat) : run (race world ([] : List τ)) order =
    (.error (.text "any/race requires at least one task"), []) :=
  run_eq (bind_error (first_empty false order))

section
variable (h : (done ++ slot :: later).Perm (range tasks.reverse.length))
  (hpass : ∀ task ∈ arrivals tasks.reverse done, Passed world task)
  (htask : tasks.reverse[slot]? = some task)
include h hpass htask

theorem any_completed {value : V} (hvalue : world.outcome task = .completed value) :
    run (any world tasks) (done ++ slot :: later) =
      let ended := drainedThen (draining world false (left tasks.reverse (done ++ [slot])))
        (.ok value) [extracted task]
      (ended.1, (arrivals tasks.reverse done).map drained ++ ended.2) :=
  first_decided h (Or.inl ⟨hpass, rfl⟩) htask (Or.inl ⟨⟨value, hvalue⟩, rfl⟩)
    fun _ => taskAwait_run hvalue

theorem any_cleanup (hcancel : world.outcome task = .cancelled)
    (hcleanup : world.cleanup task = some message) :
    run (any world tasks) (done ++ slot :: later) =
      (.error (.text message), (arrivals tasks.reverse done).map drained ++ [drained task]) := by
  obtain ⟨hnodup, hslots, hlength⟩ := order_parts h
  have hnew : slot ∉ done := fresh_slot hnodup
  have hsome : tasks ≠ [] := by
    rintro rfl
    simp at htask
  rw [length_reverse] at hlength
  have hloop := @firstFrom_passed _ _ world tasks.reverse [] done (slot :: later) []
    (later.length + 1) ("no task completed successfully", false) hslots
    (nodup_append.mp hnodup).1 hpass
  have hfirst : first world tasks true (start (done ++ slot :: later)) = (.error (.text message),
      watching tasks.reverse (done ++ [slot]) later
        ((arrivals tasks.reverse done).map drained ++ [drained task])) := by
    rw [first_run hsome, ← hlength]
    exact hloop.trans (firstFrom_cleanup htask (by simpa using hnew) hcancel hcleanup)
  exact run_eq (bind_error hfirst)

end

theorem any_none (h : order.Perm (range tasks.reverse.length)) (hsome : tasks ≠ [])
    (hpass : ∀ task ∈ arrivals tasks.reverse order, Passed world task) :
    run (any world tasks) order =
      (.error (.text ((firstMessage world (arrivals tasks.reverse order)).getD
        "no task completed successfully")), (arrivals tasks.reverse order).map drained) := by
  have hparts : (order ++ []).Perm (range tasks.reverse.length) := by rwa [append_nil]
  obtain ⟨hnodup, hslots, hlength⟩ := order_parts hparts
  rw [append_nil] at hnodup
  rw [length_reverse] at hlength
  have hloop := @firstFrom_passed _ _ world tasks.reverse [] order [] [] 0
    ("no task completed successfully", false) hslots hnodup hpass
  have hdrain : drain world (pending tasks.reverse order) false
      (watching tasks.reverse order [] ((arrivals tasks.reverse order).map drained)) =
      (.ok (), watching tasks.reverse order [] ((arrivals tasks.reverse order).map drained)) := by
    rw [drain_pending, left_all h]; simp [draining, ending]
  have hfirst : first world tasks true (start order) =
      (.error (.text ((firstMessage world (arrivals tasks.reverse order)).getD
        "no task completed successfully")),
        watching tasks.reverse order [] ((arrivals tasks.reverse order).map drained)) := by
    rw [append_nil] at hloop
    rw [first_run hsome, ← hlength]
    refine hloop.trans ?_
    rw [← foldl_note]; exact bind_ok hdrain
  exact run_eq (bind_error hfirst)

/-- Whether the cleanups of its siblings leave the fault of a winner alone. -/
def Outcome.isFault : Outcome V → Bool
  | .faulted _ => true
  | _ => false

theorem race_decided (h : (slot :: later).Perm (range tasks.reverse.length))
    (htask : tasks.reverse[slot]? = some task) :
    run (race world tasks) (slot :: later) =
      drainedThen (draining world (world.outcome task).isFault (left tasks.reverse [slot]))
        (.ok (world.outcome task)) [extracted task] := by
  have hdecides : Completes world task ∧ (world.outcome task).isFault = false ∨
      false = false ∧ ((∃ message, world.outcome task = .faulted message) ∧
        (world.outcome task).isFault = true ∨
        world.outcome task = .cancelled ∧ (world.outcome task).isFault = false) := by
    cases houtcome : world.outcome task with
    | completed value => exact Or.inl ⟨⟨value, houtcome⟩, rfl⟩
    | faulted message => exact Or.inr ⟨rfl, Or.inl ⟨⟨message, rfl⟩, rfl⟩⟩
    | cancelled => exact Or.inr ⟨rfl, Or.inr ⟨rfl, rfl⟩⟩
  exact @first_decided _ _ _ world (taskOutcome world) tasks false _ [] later slot task
    (world.outcome task) h (Or.inr rfl) htask hdecides fun _ => taskOutcome_run task

/-! ## Every task once -/

/-- How a join ends: no slot is found empty, and every task is used once, unless the cleanup
    of one that was drained has ended the join before. -/
structure Tidy (world : World τ V) (tasks : List τ) (ended : Except Fault α × List (τ × Use)) :
    Prop where
  full : ended.1 ≠ .error .emptySlot
  whole : ended.1 ≠ .error .broken
  once : (ended.2.map Prod.fst).Perm tasks ∨
    (∃ unused, (ended.2.map Prod.fst ++ unused).Perm tasks) ∧
      ∃ task ∈ tasks, ∃ message, world.cleanup task = some message ∧
        ended.1 = .error (.text message)

theorem map_fst_extracted (tasks : List τ) : (tasks.map extracted).map Prod.fst = tasks := by
  rw [map_map]; exact map_id tasks

theorem map_fst_drained (tasks : List τ) : (tasks.map drained).map Prod.fst = tasks := by
  rw [map_map]; exact map_id tasks

theorem Tidy.of_ok {value : α} (h : (used.map Prod.fst).Perm tasks) :
    Tidy world tasks (.ok value, used) :=
  ⟨nofun, nofun, Or.inl h⟩

theorem Tidy.of_text (h : (used.map Prod.fst).Perm tasks) :
    Tidy world tasks ((.error (.text message) : Except Fault α), used) :=
  ⟨nofun, nofun, Or.inl h⟩

/-- A join that drains `rest` after it has used some tasks, and uses `more` if it can. -/
theorem Tidy.of_drainedThen {tasks before rest : List τ} {result : Except Fault α}
    {more : List (τ × Use)} {suppress : Bool} (hfull : result ≠ .error .emptySlot)
    (hwhole : result ≠ .error .broken) (h : (before ++ rest ++ more.map Prod.fst).Perm tasks) :
    Tidy world tasks
      ((drainedThen (draining world suppress rest) result more).1,
        before.map drained ++ (drainedThen (draining world suppress rest) result more).2) := by
  rcases @draining_cases _ _ world suppress rest with
    hall | ⟨task, htask, message, hmessage, hfault, hsub⟩
  · rw [hall]
    refine ⟨hfull, hwhole, Or.inl ?_⟩
    have hmap : ((before.map drained ++ (rest.map drained ++ more)).map Prod.fst) =
        before ++ rest ++ more.map Prod.fst := by
      simp only [map_append, map_fst_drained, append_assoc]
    exact (List.Perm.of_eq hmap).trans h
  · have hended : drainedThen (draining world suppress rest) result more =
        (.error (.text message), (draining world suppress rest).2.map drained) := by
      simp [drainedThen, hfault]
    rw [hended]
    refine ⟨nofun, nofun, Or.inr ⟨?_, task, ?_, message, hmessage, rfl⟩⟩
    · obtain ⟨unused, hunused⟩ := hsub.exists_perm_append
      refine ⟨unused ++ more.map Prod.fst, ?_⟩
      have hmap : (before.map drained ++ (draining world suppress rest).2.map drained).map Prod.fst =
          before ++ (draining world suppress rest).2 := by
        simp only [map_append, map_fst_drained]
      rw [hmap]
      have hparts : (before ++ (draining world suppress rest).2 ++ (unused ++ more.map Prod.fst)).Perm
          (before ++ rest ++ more.map Prod.fst) := by
        simp only [append_assoc]
        exact List.Perm.append_left before (by
          rw [← append_assoc]
          exact hunused.symm.append_right _)
      exact hparts.trans h
    · exact h.mem_iff.mp (by simp [htask])

/-- An order either has the property at every end, or there is a first end without it. -/
theorem split_first (holds : τ → Prop) (hslots : ∀ slot ∈ order, slot < registered.length) :
    (∀ task ∈ arrivals registered order, holds task) ∨
      ∃ done slot later task, order = done ++ slot :: later ∧ registered[slot]? = some task ∧
        (∀ task ∈ arrivals registered done, holds task) ∧ ¬ holds task := by
  induction order with
  | nil => exact Or.inl (by simp [arrivals])
  | cons slot order ih =>
    have hlt : slot < registered.length := hslots slot (.head _)
    have htask : registered[slot]? = some registered[slot] := getElem?_eq_getElem hlt
    by_cases hholds : holds registered[slot]
    · rcases ih fun other hother => hslots other (.tail slot hother) with
        hall | ⟨done, other, later, task, rfl, hother, hdone, hnot⟩
      · left
        rw [arrivals_cons htask]; exact forall_mem_cons.mpr ⟨hholds, hall⟩
      · refine Or.inr ⟨slot :: done, other, later, task, rfl, hother, ?_, hnot⟩
        rw [arrivals_cons htask]; exact forall_mem_cons.mpr ⟨hholds, hdone⟩
    · exact Or.inr ⟨[], slot, order, registered[slot], rfl, htask, by simp [arrivals], hholds⟩

/-- The tasks before an end, the one that ends there, and those that are left. -/
theorem parts_perm {tasks : List τ} {done later : List Nat} {slot : Nat} {task : τ}
    (h : (done ++ slot :: later).Perm (range tasks.reverse.length))
    (htask : tasks.reverse[slot]? = some task) :
    (arrivals tasks.reverse done ++ left tasks.reverse (done ++ [slot]) ++ [task]).Perm tasks := by
  have hleft : (left tasks.reverse (done ++ [slot])).Perm (arrivals tasks.reverse later) := by
    apply left_perm
    simpa using h
  calc (arrivals tasks.reverse done ++ left tasks.reverse (done ++ [slot]) ++ [task]).Perm
        (arrivals tasks.reverse done ++ arrivals tasks.reverse later ++ [task]) :=
        (hleft.append_left _).append_right _
    _ |>.Perm (arrivals tasks.reverse done ++ task :: arrivals tasks.reverse later) := by
        rw [append_assoc]
        exact List.Perm.append_left _ (perm_append_singleton task _)
    _ = arrivals tasks.reverse (done ++ slot :: later) := by
        rw [arrivals_append, arrivals_cons htask]
    _ |>.Perm tasks.reverse := arrivals_perm h
    _ |>.Perm tasks := reverse_perm tasks
theorem all_tidy (h : order.Perm (range tasks.reverse.length)) :
    Tidy world tasks (run (all world tasks) order) := by
  rcases split_first (Completes world) (slot_lt h) with
    hall | ⟨done, slot, later, task, rfl, htask, hdone, hnot⟩
  · obtain ⟨values, hvalues⟩ := values_of_completes fun task htask =>
      hall task ((arrivals_perm h).mem_iff.mpr (mem_reverse.mpr htask))
    rw [all_completed h hvalues]
    exact Tidy.of_ok (List.Perm.of_eq (map_fst_extracted tasks))
  · cases houtcome : world.outcome task with
    | completed value => exact absurd ⟨value, houtcome⟩ hnot
    | faulted message =>
      rw [all_faulted h hdone htask houtcome]
      exact Tidy.of_text (List.Perm.of_eq (map_fst_drained tasks))
    | cancelled =>
      rw [all_cancelled h hdone htask houtcome]
      exact @Tidy.of_drainedThen _ _ _ world tasks [] tasks _ [] false nofun nofun (by simp)

theorem allTuple_tidy (h : order.Perm (range tasks.length)) :
    Tidy world tasks (run (allTuple world tasks) order) := by
  rcases split_first (Completes world) (slot_lt h) with
    hall | ⟨done, slot, later, task, rfl, htask, hdone, hnot⟩
  · obtain ⟨values, hvalues⟩ := values_of_completes fun task htask =>
      hall task ((arrivals_perm h).mem_iff.mpr htask)
    rw [allTuple_completed h hvalues]
    exact Tidy.of_ok (List.Perm.of_eq (map_fst_extracted tasks))
  · cases houtcome : world.outcome task with
    | completed value => exact absurd ⟨value, houtcome⟩ hnot
    | faulted message =>
      rw [allTuple_faulted h hdone htask houtcome]
      exact Tidy.of_text (List.Perm.of_eq (map_fst_drained tasks))
    | cancelled =>
      rw [allTuple_cancelled h hdone htask houtcome]
      exact @Tidy.of_drainedThen _ _ _ world tasks [] tasks _ [] false nofun nofun (by simp)

theorem any_tidy (h : order.Perm (range tasks.reverse.length)) :
    Tidy world tasks (run (any world tasks) order) := by
  by_cases hsome : tasks = []
  · subst hsome; exact Tidy.of_text .nil
  rcases split_first (Passed world) (slot_lt h) with
    hall | ⟨done, slot, later, task, rfl, htask, hdone, hnot⟩
  · rw [any_none h hsome hall]
    apply Tidy.of_text
    rw [map_fst_drained]; exact (arrivals_perm h).trans (reverse_perm tasks)
  · cases houtcome : world.outcome task with
    | completed value =>
      rw [any_completed h hdone htask houtcome]
      exact Tidy.of_drainedThen nofun nofun (parts_perm h htask)
    | faulted message => exact absurd (Or.inl ⟨message, houtcome⟩) hnot
    | cancelled =>
      cases hcleanup : world.cleanup task with
      | none => exact absurd (Or.inr ⟨houtcome, hcleanup⟩) hnot
      | some message =>
        rw [any_cleanup h hdone htask houtcome hcleanup]
        refine ⟨nofun, nofun, Or.inr ⟨⟨left tasks.reverse (done ++ [slot]), ?_⟩, task, ?_, message,
          hcleanup, rfl⟩⟩
        · have hmap : ((arrivals tasks.reverse done).map drained ++ [drained task]).map Prod.fst =
              arrivals tasks.reverse done ++ [task] := by
            rw [map_append, map_fst_drained]; rfl
          rw [hmap, append_assoc]
          refine List.Perm.trans ?_ (parts_perm h htask)
          rw [append_assoc]; exact List.Perm.append_left _ perm_append_comm
        · exact mem_reverse.mp (mem_of_getElem? htask)

theorem race_tidy (h : order.Perm (range tasks.reverse.length)) :
    Tidy world tasks (run (race world tasks) order) := by
  cases order with
  | nil =>
    obtain rfl : tasks = [] := by
      have hlength := h.length_eq
      simpa [eq_comm] using hlength
    exact Tidy.of_text .nil
  | cons slot later =>
    have htask := getElem?_eq_getElem (slot_lt h slot (.head _))
    rw [race_decided h htask]
    have hparts := @parts_perm _ tasks [] later slot _ h htask
    exact @Tidy.of_drainedThen _ _ _ world tasks [] _ _ _ _ nofun nofun hparts

/-! ## All joins -/

/-- What the joins of some tasks return and which tasks they use, in order, if the tasks end
    in the order of their slots given by `order`. -/
structure Joined (world : World τ V) (tasks : List τ) (order : List Nat) : Prop where
  settled : run (settled world tasks) order = (.ok (tasks.map world.outcome), tasks.map extracted)
  settledTuple : run (settledTuple world tasks) order =
    (.ok (tasks.map world.outcome), tasks.map extracted)
  all_completed : ∀ values, tasks.map world.outcome = values.map .completed →
    run (all world tasks) order = (.ok values, tasks.map extracted) ∧
      run (allTuple world tasks) order = (.ok values, tasks.map extracted)
  all_stopped : ∀ done slot later task, order = done ++ slot :: later →
    (∀ task ∈ arrivals tasks.reverse done, Completes world task) →
    tasks.reverse[slot]? = some task →
    (∀ message, world.outcome task = .faulted message →
      run (all world tasks) order = (.error (.text message), tasks.map drained)) ∧
    (world.outcome task = .cancelled → run (all world tasks) order =
      drainedThen (draining world false tasks) (.error (.text "task was cancelled")) [])
  tuple_stopped : ∀ done slot later task, order = done ++ slot :: later →
    (∀ task ∈ arrivals tasks done, Completes world task) → tasks[slot]? = some task →
    (∀ message, world.outcome task = .faulted message →
      run (allTuple world tasks) order = (.error (.text message), tasks.map drained)) ∧
    (world.outcome task = .cancelled → run (allTuple world tasks) order =
      drainedThen (draining world false tasks) (.error (.text "task was cancelled")) [])
  any_completed : ∀ done slot later task value, order = done ++ slot :: later →
    (∀ task ∈ arrivals tasks.reverse done, Passed world task) →
    tasks.reverse[slot]? = some task → world.outcome task = .completed value →
    run (any world tasks) order =
      let ended := drainedThen (draining world false (left tasks.reverse (done ++ [slot])))
        (.ok value) [extracted task]
      (ended.1, (arrivals tasks.reverse done).map drained ++ ended.2)
  any_cleanup : ∀ done slot later task message, order = done ++ slot :: later →
    (∀ task ∈ arrivals tasks.reverse done, Passed world task) →
    tasks.reverse[slot]? = some task → world.outcome task = .cancelled →
    world.cleanup task = some message → run (any world tasks) order =
      (.error (.text message), (arrivals tasks.reverse done).map drained ++ [drained task])
  any_none : tasks ≠ [] → (∀ task ∈ tasks, Passed world task) → run (any world tasks) order =
    (.error (.text ((firstMessage world (arrivals tasks.reverse order)).getD
      "no task completed successfully")), (arrivals tasks.reverse order).map drained)
  race_decided : ∀ slot later task, order = slot :: later → tasks.reverse[slot]? = some task →
    run (race world tasks) order =
      drainedThen (draining world (world.outcome task).isFault (left tasks.reverse [slot]))
        (.ok (world.outcome task)) [extracted task]
  empty : tasks = [] →
    run (any world tasks) order = (.error (.text "any/race requires at least one task"), []) ∧
      run (race world tasks) order = (.error (.text "any/race requires at least one task"), [])
  tidy : Tidy world tasks (run (Joins.settled world tasks) order) ∧
    Tidy world tasks (run (Joins.settledTuple world tasks) order) ∧
    Tidy world tasks (run (all world tasks) order) ∧
    Tidy world tasks (run (allTuple world tasks) order) ∧
    Tidy world tasks (run (any world tasks) order) ∧
    Tidy world tasks (run (race world tasks) order)

theorem task_joins (world : World τ V) (tasks : List τ) (order : List Nat)
    (h : order.Perm (range tasks.length)) : Joined world tasks order := by
  have hreverse : order.Perm (range tasks.reverse.length) := by rwa [length_reverse]
  have hsettled := settled_run world hreverse
  have htuple : run (Joins.settledTuple world tasks) order =
      (.ok (tasks.map world.outcome), tasks.map extracted) :=
    run_eq (settledTuple_run tasks (start order))
  exact {
    settled := hsettled
    settledTuple := htuple
    all_completed := fun values hvalues =>
      ⟨Joins.all_completed hreverse hvalues, allTuple_completed h hvalues⟩
    all_stopped := by
      rintro done slot later task rfl hdone htask
      exact ⟨fun _ hfault => all_faulted hreverse hdone htask hfault,
        fun hcancel => all_cancelled hreverse hdone htask hcancel⟩
    tuple_stopped := by
      rintro done slot later task rfl hdone htask
      exact ⟨fun _ hfault => allTuple_faulted h hdone htask hfault,
        fun hcancel => allTuple_cancelled h hdone htask hcancel⟩
    any_completed := by
      rintro done slot later task value rfl hpass htask hvalue
      exact Joins.any_completed hreverse hpass htask hvalue
    any_cleanup := by
      rintro done slot later task message rfl hpass htask hcancel hcleanup
      exact Joins.any_cleanup hreverse hpass htask hcancel hcleanup
    any_none := fun hsome hpass => Joins.any_none hreverse hsome fun task htask =>
      hpass task (mem_reverse.mp ((arrivals_perm hreverse).mem_iff.mp htask))
    race_decided := by
      rintro slot later task rfl htask
      exact Joins.race_decided hreverse htask
    empty := by
      rintro rfl
      exact ⟨any_empty order, race_empty order⟩
    tidy := by
      rw [hsettled, htuple]
      exact ⟨Tidy.of_ok (List.Perm.of_eq (map_fst_extracted tasks)),
        Tidy.of_ok (List.Perm.of_eq (map_fst_extracted tasks)), all_tidy hreverse,
        allTuple_tidy h, any_tidy hreverse, race_tidy hreverse⟩ }

/-- Two tasks: one whose cleanup faults, and one that completes. -/
def noisy : World Nat Nat where
  outcome task := if task = 0 then .cancelled else .completed 7
  cleanup task := if task = 0 then some "cleanup failed" else none

theorem task_joins_noisy : Joined noisy [0, 1] [0, 1] :=
  task_joins noisy [0, 1] [0, 1] (by decide)

/-- The task in slot 0 completes first, and the other one is drained for it. -/
theorem any_cleanup_fault :
    ¬ ∀ (world : World Nat Nat) (tasks order done later : List Nat) (slot task value : Nat),
      order.Perm (range tasks.length) → order = done ++ slot :: later →
      (∀ task ∈ arrivals tasks.reverse done, ¬ Completes world task) →
      tasks.reverse[slot]? = some task → world.outcome task = .completed value →
      (run (any world tasks) order).1 = .ok value := by
  intro h
  have hvalue := h noisy [0, 1] [0, 1] [] [1] 0 1 7 (by decide) rfl (by simp [arrivals]) rfl rfl
  have hfault : (run (any noisy [0, 1]) [0, 1]).1 = .error (.text "cleanup failed") := by
    decide
  rw [hvalue] at hfault
  cases hfault

end Loom.Joins

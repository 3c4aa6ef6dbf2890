import Mathlib.Data.List.Forall2
import Mathlib.Data.List.Range
import Mathlib.Data.List.Perm.Subperm
import Loom.Tasks.Joins

/-
  What the parts of a join do, over any order in which tasks end.

  `registered` lists the tasks by their slots. After the ends of the slots `gone` were
  reported, the runtime is `watching` the others, and a join that takes the task of every
  end that it sees holds the `pending` ones.
-/

namespace Loom.Joins

open List

variable {τ V α β : Type} {world : World τ V} {state after : Runtime τ}

/-! ## Computations -/

theorem pure_run (value : α) (state : Runtime τ) :
    (pure value : Join τ α) state = (.ok value, state) := rfl

theorem bind_ok {program : Join τ α} {next : α → Join τ β} {value : α}
    (h : program state = (.ok value, after)) : (program >>= next) state = next value after := by
  simp only [bind]
  rw [h]

theorem bind_error {program : Join τ α} {next : α → Join τ β} {fault : Fault}
    (h : program state = (.error fault, after)) :
    (program >>= next) state = (.error fault, after) := by
  simp only [bind]
  rw [h]

theorem bind_congr {program : Join τ α} {first second : α → Join τ β}
    (h : ∀ value state, first value state = second value state) :
    (program >>= first) state = (program >>= second) state := by
  have hsame : first = second := by
    funext value state
    exact h value state
  rw [hsame]

/-- The state after some handles were consumed. -/
def Runtime.using (state : Runtime τ) (used : List (τ × Use)) : Runtime τ :=
  { state with used := state.used ++ used }

@[simp] theorem Runtime.using_nil (state : Runtime τ) : state.using [] = state := by
  simp [Runtime.using]

@[simp] theorem Runtime.using_using (state : Runtime τ) (first second : List (τ × Use)) :
    (state.using first).using second = state.using (first ++ second) := by
  simp [Runtime.using]

def extracted (task : τ) : τ × Use := (task, .extracted)

def drained (task : τ) : τ × Use := (task, .drained)

theorem taskOutcome_run (task : τ) : taskOutcome world task state =
    (.ok (world.outcome task), state.using [extracted task]) := rfl

theorem taskReadyOutcome_run (task : τ) : taskReadyOutcome world task state =
    (.ok (world.outcome task), state.using [extracted task]) := rfl

variable {task : τ} {gone : List Nat} {registered : List τ} {slot : Nat} {later : List Nat}

theorem taskReadyResult_run {value : V} (h : world.outcome task = .completed value) :
    taskReadyResult world task state = (.ok value, state.using [extracted task]) := by
  rw [taskReadyResult, h]; rfl

theorem taskAwait_run {value : V} (h : world.outcome task = .completed value) :
    taskAwait world task state = (.ok value, state.using [extracted task]) := by
  rw [taskAwait, h]; rfl

/-! ## Draining -/

/-- The tasks that are drained up to the first that raises a fault, and that fault. -/
def draining (world : World τ V) (suppress : Bool) : List τ → Option String × List τ
  | [] => (none, [])
  | task :: rest =>
    match if suppress then none else world.cleanup task with
    | some message => (some message, [task])
    | none =>
      let (fault, others) := draining world suppress rest
      (fault, task :: others)

/-- How a computation ends that drains first. -/
def ending (fault : Option String) (result : Except Fault α) : Except Fault α :=
  match fault with
  | none => result
  | some message => .error (.text message)

theorem taskDrain_run (task : τ) (suppress : Bool) : taskDrain world task suppress state =
    (ending (if suppress then none else world.cleanup task) (.ok ()),
      state.using [drained task]) := by
  rw [taskDrain]
  cases world.cleanup task with
  | none => cases suppress <;> rfl
  | some message => cases suppress <;> rfl

theorem drainTuple_run (suppress : Bool) (tasks : List τ) (state : Runtime τ) :
    drainTuple world suppress tasks state = (ending (draining world suppress tasks).1 (.ok ()),
        state.using ((draining world suppress tasks).2.map drained)) := by
  induction tasks generalizing state with
  | nil => simp [drainTuple, draining, ending, pure_run]
  | cons task rest ih =>
    rw [drainTuple]
    cases hraised : (if suppress then none else world.cleanup task) with
    | some message =>
      have hfault : taskDrain world task suppress state =
          (.error (.text message), state.using [drained task]) := by
        rw [taskDrain_run, hraised]; rfl
      rw [bind_error hfault]; simp [draining, hraised, ending]
    | none =>
      have hok : taskDrain world task suppress state = (.ok (), state.using [drained task]) := by
        rw [taskDrain_run, hraised]; rfl
      rw [bind_ok hok, ih]; simp [draining, hraised]

theorem drainFrom_eq (suppress : Bool) (slots : List (Option τ)) (state : Runtime τ) :
    drainFrom world suppress slots state =
      drainTuple world suppress (slots.filterMap id) state := by
  induction slots generalizing state with
  | nil => rfl
  | cons slot rest ih =>
    cases slot with
    | none => exact ih state
    | some task =>
      exact bind_congr fun _ => ih

theorem drainFrom_run (suppress : Bool) (slots : List (Option τ)) (state : Runtime τ) :
    drainFrom world suppress slots state =
      (ending (draining world suppress (slots.filterMap id)).1 (.ok ()),
        state.using ((draining world suppress (slots.filterMap id)).2.map drained)) := by
  rw [drainFrom_eq, drainTuple_run]

theorem draining_suppressed (tasks : List τ) : draining world true tasks = (none, tasks) := by
  induction tasks with
  | nil => rfl
  | cons task rest ih => simp [draining, ih]

/-- Nothing is drained twice, and what is left out comes after a fault. -/
theorem draining_cases (suppress : Bool) (tasks : List τ) :
    draining world suppress tasks = (none, tasks) ∨
      ∃ task ∈ tasks, ∃ message, world.cleanup task = some message ∧
        (draining world suppress tasks).1 = some message ∧
        (draining world suppress tasks).2.Sublist tasks := by
  induction tasks with
  | nil => exact Or.inl rfl
  | cons task rest ih =>
    rw [draining]
    cases hraised : (if suppress then none else world.cleanup task) with
    | some message =>
      have hmessage : world.cleanup task = some message := by
        cases suppress <;> simp_all
      exact Or.inr ⟨task, .head _, message, hmessage, rfl, by simp⟩
    | none =>
      rcases ih with hall | ⟨other, hother, message, hmessage, hfault, hsub⟩
      · exact Or.inl (by simp [hall])
      · exact Or.inr ⟨other, .tail task hother, message, hmessage, hfault, hsub.cons_cons task⟩

/-! ## Slots -/

/-- The runtime while the ends of the slots `gone` are reported. -/
def watching (registered : List τ) (gone order : List Nat) (used : List (τ × Use)) : Runtime τ where
  members slot := if slot ∈ gone then none else registered[slot]?
  order := order
  used := used

/-- The slots of a join that has taken those `gone`. -/
def pending (registered : List τ) (gone : List Nat) : List (Option τ) :=
  (range registered.length).map fun slot => if slot ∈ gone then none else registered[slot]?

@[simp] theorem watching_using (registered : List τ) (gone order : List Nat)
    (used more : List (τ × Use)) : (watching registered gone order used).using more =
      watching registered gone order (used ++ more) := rfl

theorem pending_getElem? (h : slot < registered.length) : (pending registered gone)[slot]? =
      some (if slot ∈ gone then none else registered[slot]?) := by
  simp [pending, h]

@[simp] theorem watching_used (registered : List τ) (gone order : List Nat)
    (used : List (τ × Use)) : (watching registered gone order used).used = used := rfl

theorem pending_nil (registered : List τ) : pending registered [] = registered.map some := by
  apply ext_getElem?
  intro slot
  by_cases hslot : slot < registered.length
  · simp [pending, hslot]
  · simp [pending, hslot]

theorem taskNextEvent_eq (horder : state.order = slot :: later)
    (hmember : state.members slot = some task) :
    taskNextEvent world state = (.ok (slot, (world.outcome task).terminal),
      { state with members := Function.update state.members slot none, order := later }) := by
  simp [taskNextEvent, horder, hmember]

theorem taskNextEvent_run {used : List (τ × Use)} (htask : registered[slot]? = some task)
    (hnew : slot ∉ gone) : taskNextEvent world (watching registered gone (slot :: later) used) =
      (.ok (slot, (world.outcome task).terminal),
        watching registered (gone ++ [slot]) later used) := by
  have hmembers : Function.update (watching registered gone (slot :: later) used).members slot none =
      (watching registered (gone ++ [slot]) later used).members := by
    funext other
    by_cases hother : other = slot
    · simp [watching, hother]
    · simp [watching, hother]
  have hmember : (watching registered gone (slot :: later) used).members slot = some task := by
    simp [watching, hnew, htask]
  rw [taskNextEvent_eq rfl hmember, hmembers]; rfl

theorem takeSlot_pending (htask : registered[slot]? = some task) (hnew : slot ∉ gone) :
    takeSlot (pending registered gone) slot state =
      (.ok (task, pending registered (gone ++ [slot])), state) := by
  have hlt : slot < registered.length := (List.getElem?_eq_some_iff.mp htask).1
  have hget : (pending registered gone)[slot]? = some (some task) := by
    rw [pending_getElem? hlt, if_neg hnew, htask]
  have hset : (pending registered gone).set slot none = pending registered (gone ++ [slot]) := by
    apply ext_getElem?
    intro other
    by_cases hother : slot = other
    · subst hother
      have hlength : slot < (pending registered gone).length := by simpa [pending] using hlt
      rw [getElem?_set_self hlength, pending_getElem? hlt, if_pos (by simp)]
    · have hne : other ≠ slot := fun h => hother h.symm
      rw [getElem?_set_ne hother]
      by_cases hin : other < registered.length
      · rw [pending_getElem? hin, pending_getElem? hin]; simp [hne]
      · simp [pending, hin]
  rw [takeSlot, hget]
  simp only [hset]; rfl

/-! ## Registration -/

theorem taskObserve_run (task : τ) (registered : List τ) (order : List Nat)
    (used : List (τ × Use)) :
    taskObserve task registered.length (watching registered [] order used) =
      (.ok task, watching (registered ++ [task]) [] order used) := by
  have hmembers : Function.update (watching registered [] order used).members registered.length
      (some task) = (watching (registered ++ [task]) [] order used).members := by
    funext slot
    by_cases hslot : slot = registered.length
    · simp [watching, hslot]
    · by_cases hlt : slot < registered.length
      · simp [watching, hslot, getElem?_append_left hlt]
      · have hold : registered[slot]? = none := getElem?_eq_none (by omega)
        have hnew : (registered ++ [task])[slot]? = none :=
          getElem?_eq_none (by rw [length_append, length_singleton]; omega)
        simp only [watching, Function.update_of_ne hslot, not_mem_nil, if_false, hold, hnew]
  rw [taskObserve, hmembers]; rfl

theorem watchFrom_run (rest registered : List τ) (order : List Nat) (used : List (τ × Use)) :
    watchFrom rest (registered.map some) registered.length (watching registered [] order used) =
      (.ok { slots := (registered ++ rest).map some, count := (registered ++ rest).length },
        watching (registered ++ rest) [] order used) := by
  induction rest generalizing registered with
  | nil => simp [watchFrom, pure_run]
  | cons task rest ih =>
    rw [watchFrom, bind_ok (taskObserve_run task registered order used)]
    have hnext := ih (registered ++ [task])
    simpa using hnext

/-- The state in which a join starts. -/
def start (order : List Nat) : Runtime τ := { members := fun _ => none, order := order, used := [] }

theorem start_eq (order : List Nat) : (start order : Runtime τ) = watching [] [] order [] := by
  simp [start, watching]

theorem watch_run (tasks : List τ) (order : List Nat) : watch tasks (start order) =
    (.ok { slots := pending tasks.reverse [], count := tasks.length },
      watching tasks.reverse [] order []) := by
  have h := watchFrom_run tasks.reverse [] order []
  rw [watch, start_eq, pending_nil]
  simpa using h

theorem observeTuple_run (rest registered : List τ) (order : List Nat) (used : List (τ × Use)) :
    observeTuple rest registered.length (watching registered [] order used) =
      (.ok (rest, (registered ++ rest).length), watching (registered ++ rest) [] order used) := by
  induction rest generalizing registered with
  | nil => simp [observeTuple, pure_run]
  | cons task rest ih =>
    rw [observeTuple, bind_ok (taskObserve_run task registered order used)]
    have hnext := ih (registered ++ [task])
    rw [length_append, length_singleton] at hnext
    rw [bind_ok hnext]; simp [pure_run]

/-! ## Loops over ends -/

/-- The tasks of some slots, in the order of the slots. -/
def arrivals (registered : List τ) (slots : List Nat) : List τ :=
  slots.filterMap fun slot => registered[slot]?

theorem arrivals_cons {slots : List Nat} (h : registered[slot]? = some task) :
    arrivals registered (slot :: slots) = task :: arrivals registered slots := filterMap_cons_some h

theorem arrivals_append (registered : List τ) (first second : List Nat) :
    arrivals registered (first ++ second) =
      arrivals registered first ++ arrivals registered second := filterMap_append

theorem fresh_slot (h : (gone ++ slot :: later).Nodup) : slot ∉ gone := fun hslot =>
  (nodup_append.mp h).2.2 slot hslot slot (.head _) rfl

theorem taskNextTerminal_run {used : List (τ × Use)} (htask : registered[slot]? = some task)
    (hnew : slot ∉ gone) : taskNextTerminal world (watching registered gone (slot :: later) used) =
      (.ok (world.outcome task).terminal, watching registered (gone ++ [slot]) later used) := by
  rw [taskNextTerminal, bind_ok (taskNextEvent_run htask hnew)]; rfl

/-- A loop passes over the ends that it has nothing to do at. -/
theorem eachTerminal_run {handle : TaskTerminal → Join τ Unit} {registered : List τ}
    {gone done later : List Nat} {used : List (τ × Use)} {remaining : Nat}
    (hslots : ∀ slot ∈ done, slot < registered.length) (hnodup : (gone ++ done).Nodup)
    (hnothing : ∀ task ∈ arrivals registered done, ∀ state,
      handle (world.outcome task).terminal state = (.ok (), state)) :
    eachTerminal world handle (done.length + remaining)
        (watching registered gone (done ++ later) used) =
      eachTerminal world handle remaining (watching registered (gone ++ done) later used) := by
  induction done generalizing gone with
  | nil => simp
  | cons slot done ih =>
    have hlt : slot < registered.length := hslots slot (.head _)
    have htask : registered[slot]? = some registered[slot] := getElem?_eq_getElem hlt
    have hnew : slot ∉ gone := fresh_slot hnodup
    rw [arrivals_cons htask] at hnothing
    rw [length_cons, Nat.add_right_comm, eachTerminal, cons_append,
      bind_ok (taskNextTerminal_run htask hnew), bind_ok (hnothing registered[slot] (.head _) _)]
    have hrest := @ih (gone ++ [slot])
      (fun other hother => hslots other (.tail slot hother)) (by simpa using hnodup)
      (fun task htask => hnothing task (.tail _ htask))
    simpa using hrest

/-! ## Construction -/

theorem takeNext_run {extract : τ → Join τ α} {value : α} {front rest : List τ}
    (h : extract task state = (.ok value, after)) :
    takeNext (front ++ task :: rest).length extract front.length
        ((task :: rest).reverse.map some ++ replicate front.length none) state =
      (.ok (value, rest.reverse.map some ++ replicate (front.length + 1) none), after) := by
  have hindex : (front ++ task :: rest).length - 1 - front.length = rest.reverse.length := by
    simp
  have hslots : (task :: rest).reverse.map some ++ replicate front.length none =
      rest.reverse.map some ++ some task :: replicate front.length none := by simp
  have hget : (rest.reverse.map some ++ some task :: replicate front.length none)[
      rest.reverse.length]? = some (some task) := by
    simp
  have htake : takeSlot ((task :: rest).reverse.map some ++ replicate front.length none)
      ((front ++ task :: rest).length - 1 - front.length) state =
      (.ok (task, rest.reverse.map some ++ replicate (front.length + 1) none), state) := by
    rw [takeSlot, hindex, hslots]; simp [replicate_succ, pure_run]
  rw [takeNext, bind_ok htake]
  dsimp only
  rw [bind_ok h]; rfl

/-- Extracting the tasks one by one gives the values. -/
def Extracts (extract : τ → Join τ α) : List τ → List α → Prop :=
  List.Forall₂ fun task value =>
    ∀ state, extract task state = (.ok value, state.using [extracted task])

theorem generateFrom_run {extract : τ → Join τ α} {front rest : List τ} {values : List α}
    (h : Extracts extract rest values) (made : List α) (state : Runtime τ) :
    generateFrom (takeNext (front ++ rest).length extract) rest.length front.length
        (rest.reverse.map some ++ replicate front.length none) made state =
      (.ok (made ++ values, replicate (front ++ rest).length none),
        state.using (rest.map extracted)) := by
  induction h generalizing front made state with
  | nil => simp [generateFrom, pure_run]
  | @cons task value rest values hvalue _ ih =>
    rw [length_cons, generateFrom, bind_ok (takeNext_run (hvalue state))]
    have hrest := @ih (front ++ [task]) (made ++ [value]) (state.using [extracted task])
    simpa using hrest

/-- The elements are made in input order, and no task is left to drain. -/
theorem generate_run {extract : τ → Join τ α} {tasks : List τ} {values : List α}
    (h : Extracts extract tasks values) (state : Runtime τ) :
    generate tasks.length (pending tasks.reverse []) (takeNext tasks.length extract)
        (fun pending => drain world pending false) state =
      (.ok values, state.using (tasks.map extracted)) := by
  have hvalues := @generateFrom_run _ _ extract [] tasks values h [] state
  have hnone : (replicate tasks.length (none : Option τ)).reverse.filterMap id = [] := by
    simp
  rw [generate, pending_nil]
  simp only [length_nil, replicate_zero, append_nil, nil_append] at hvalues
  rw [bind_ok hvalues]
  have hdrain : drain world (replicate tasks.length (none : Option τ)) false
      (state.using (tasks.map extracted)) = (.ok (), state.using (tasks.map extracted)) := by
    rw [drain, drainFrom_run]; simp [draining, ending]
  dsimp only
  rw [bind_ok hdrain]; rfl

theorem extracts_outcomes (tasks : List τ) :
    Extracts (taskReadyOutcome world) tasks (tasks.map world.outcome) := by
  induction tasks with
  | nil => exact .nil
  | cons task rest ih => exact .cons (fun _ => taskReadyOutcome_run task) ih

theorem extracts_values {tasks : List τ} {values : List V}
    (h : tasks.map world.outcome = values.map .completed) :
    Extracts (taskReadyResult world) tasks values := by
  induction tasks generalizing values with
  | nil =>
    obtain rfl : values = [] := map_eq_nil_iff.mp h.symm
    exact .nil
  | cons task rest ih =>
    cases values with
    | nil => simp at h
    | cons value values =>
      obtain ⟨hvalue, hrest⟩ := by simpa using h
      exact .cons (fun _ => taskReadyResult_run hvalue) (ih hrest)

end Loom.Joins

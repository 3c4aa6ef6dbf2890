import Loom.Lowering.Flows

/-
  The frame of a coroutine and the code that resumes it.

  A local that is live where the coroutine may suspend gets a field of the
  frame; so do the parameters and the locals that cleanups capture. A pending
  answer stores the live locals of its state and the state's number; a resumed
  coroutine loads every local that has a field and dispatches on the number.

  Correspondence (lowering/lowering.loom, lowering/emit.loom ↔ Lean), where names differ:
    `needed`, `spills`, `saved` in `async_function` ↔ `needed`, `spills`, `saved`
    `field`, `store`, `returned`, `dispatch_to`, `branching` ↔ the same in camel case
    the loops of `pending` and `emitted` over the spills ↔ `fieldsFrom`, `stores`, `loads`
    the loops over arms and states ↔ `selectArms`, `dispatching`
-/

namespace Loom.Lowering

open List Function

open IncrementalCache (ExprKind)

variable {count : Nat}

/-! ## The frame -/

/-- The locals that get a field: what cleanups capture, the parameters, and what
is live where the coroutine may suspend. Local 0 is the frame itself. -/
def needed (states : List State) (captures : List Bool) (params : Nat)
    (analysis : List (Flow count)) : Flags count := fun slot =>
  captures.getD slot false || (1 ≤ slot.val && slot.val ≤ params) ||
    (1 ≤ slot.val && (states.zip analysis).any fun place =>
      place.1.exit.suspends && place.2.live slot)

/-- Number the fields from `next` on; a local without one has `-1`. -/
def spillsFrom (next : Int) : List Bool → List Int
  | [] => []
  | true :: rest => next :: spillsFrom (next + 1) rest
  | false :: rest => -1 :: spillsFrom next rest

/-- The result and the program counter come first. -/
def spills (states : List State) (captures : List Bool) (params : Nat)
    (analysis : List (Flow count)) : List Int :=
  spillsFrom 2 (ofFn (needed states captures params analysis))

/-- What cleanups capture lives in the frame only: it is neither stored nor
loaded. -/
def saved : List Bool → List Int → List Int
  | true :: captures, _ :: spills => -1 :: saved captures spills
  | false :: captures, field :: spills => field :: saved captures spills
  | [], spills => spills
  | _ :: _, [] => []

/-! ## The code -/

/-- The locals from an index on that have a field and pass the test, each after
its field. -/
def fieldsFrom (keep : Int → Bool) : Int → List Int → List (Int × Int)
  | _, [] => []
  | index, field :: rest =>
    if 0 ≤ field && keep index then (field, index) :: fieldsFrom keep (index + 1) rest
    else fieldsFrom keep (index + 1) rest

def Graph.typeOf (graph : Graph) (id : Int) : Int := ((fetch graph.locals id).map Local.ty).getD 0

def localRead (graph : Graph) (id : Int) : Expr := node .localRead (graph.typeOf id) id []

def field (graph : Graph) (ty index : Int) : Expr := node .field ty index [localRead graph 0]

def store (graph : Graph) (index : Int) (value : Expr) : Expr :=
  node .frameStore 0 index [localRead graph 0, value]

def returned (status : Int) : Expr := nonfall (node .returns 0 (-1) [integer status])

def dispatchTo (pc target : Int) : Expr :=
  block [node .assign 0 pc [integer target], nonfall (node .continues 0 (-1) [])] 0 false

def branching (condition yes no : Expr) : Expr :=
  nonfall (node .ifElse 0 (-1) [condition, yes, no])

/-- Whether a local is live in a state. -/
def liveIn (analysis : List (Flow count)) (id : Nat) (index : Int) : Bool :=
  match analysis[id]?, slot? count index with
  | some flow, some slot => flow.live slot
  | _, _ => false

/-- What a pending answer stores: a field and the local that goes into it. -/
def stores (fields : List Int) (analysis : List (Flow count)) (id : Nat) : List (Int × Int) :=
  fieldsFrom (liveIn analysis id) 1 (fields.drop 1)

/-- What a resumed coroutine loads. -/
def loads (fields : List Int) : List (Int × Int) := fieldsFrom (fun _ => true) 1 (fields.drop 1)

/-- Store a local in its field, and load it again. -/
def storing (graph : Graph) (place : Int × Int) : Expr :=
  store graph place.1 (localRead graph place.2)

def loading (graph : Graph) (place : Int × Int) : Expr :=
  node .letIn 0 place.2 [field graph (graph.typeOf place.2) place.1]

def pending (graph : Graph) (id : Nat) (spills : List Int) (analysis : List (Flow count)) : Expr :=
  block ((stores spills analysis id).map (storing graph) ++
    [store graph 1 (integer id), returned 1]) 0 false

def selectArms (pc : Int) : List Arm → List Edge → Option (List Arm)
  | [], _ => pure []
  | .mk variant bindings whole _ :: arms, edge :: edges => do
    let others ← selectArms pc arms edges
    pure (.mk variant bindings whole [dispatchTo pc edge.target] :: others)
  | _ :: _, [] => none

def ending (graph : Graph) (id : Nat) (current : State) (pc : Int) (spills : List Int)
    (analysis : List (Flow count)) (callbackType : Int) (resultCallbacks : List Int) :
    Option Expr :=
  match current.exit with
  | .unreachable =>
    pure (block [node .assert 0 (-1) [boolean false], returned 0] 0 false)
  | .jump => do
    let target ← current.edges[0]?
    pure (dispatchTo pc target.target)
  | .branch => do
    let yes ← current.edges[0]?
    let no ← current.edges[1]?
    pure (branching current.value (dispatchTo pc yes.target) (dispatchTo pc no.target))
  | .select => do
    let arms ← selectArms pc current.arms current.edges
    pure (.mk .matchArms 0 "" (-1) [current.value] arms false)
  | .wait => do
    let after ← current.edges[0]?
    pure (branching (operation "task_await" 2 [current.value]) (dispatchTo pc after.target)
      (pending graph id spills analysis))
  | .park => do
    let after ← current.edges[0]?
    pure (branching current.value (dispatchTo pc after.target) (pending graph id spills analysis))
  | .complete =>
    let result :=
      if graph.result = 0 then node .discard 0 (-1) [current.value]
      else store graph 0 current.value
    let callbacks := resultCallbacks.map fun callback =>
      operation "task_result_cleanup_push" 0 [node .functionRef callbackType callback []]
    pure (block (result :: callbacks ++ [returned 0]) 0 false)

def dispatching (graph : Graph) (pc : Int) (spills : List Int) (analysis : List (Flow count))
    (callbackType : Int) (resultCallbacks : List Int) : Nat → List State → Option (List Expr)
  | _, [] => pure []
  | id, current :: rest => do
    let last ← ending graph id current pc spills analysis callbackType resultCallbacks
    let others ← dispatching graph pc spills analysis callbackType resultCallbacks (id + 1) rest
    let condition := labeled (node .binary 2 (-1) [localRead graph pc, integer id]) "=="
    pure (node .ifElse 0 (-1) [condition, block (current.code ++ [last]) 0 false] :: others)

/-- The graph with one more local, for the program counter. -/
def Graph.counted (graph : Graph) : Graph := { graph with locals := graph.locals ++ [⟨1⟩] }

/-- The function that starts and resumes the coroutine. -/
def emitted (graph : Graph) (spills : List Int) (analysis : List (Flow count))
    (callbackType : Int) (resultCallbacks : List Int) : Option Expr := do
  let pc : Int := graph.locals.length
  let dispatch ←
    dispatching graph.counted pc spills analysis callbackType resultCallbacks 0 graph.states
  let invalid := labeled (node .assert 0 (-1) [boolean false]) "invalid coroutine state"
  pure (block (node .letIn 0 pc [field graph.counted 1 1] ::
    (loads spills).map (loading graph.counted) ++
      [node .whileLoop 0 (-1) [boolean true, block (dispatch ++ [invalid, returned 0]) 0 false],
        returned 0]) 1 false)

/-! ## Fields of their own -/

theorem mem_fieldsFrom {keep : Int → Bool} {start : Int} {fields : List Int} {place : Int × Int} :
    place ∈ fieldsFrom keep start fields ↔
      start ≤ place.2 ∧ fields[(place.2 - start).toNat]? = some place.1 ∧ 0 ≤ place.1 ∧
        keep place.2 = true := by
  induction fields generalizing start with
  | nil => simp [fieldsFrom]
  | cons first rest ih =>
    have hfields : place ∈ fieldsFrom keep start (first :: rest) ↔
        (place = (first, start) ∧ 0 ≤ first ∧ keep start = true) ∨
          place ∈ fieldsFrom keep (start + 1) rest := by
      rw [fieldsFrom]
      split
      case isTrue hkept => simp_all
      case isFalse hskipped => simp_all
    rw [hfields, ih]
    obtain ⟨field, slot⟩ := place
    by_cases hslot : slot = start
    · subst hslot
      have hlater : ¬slot + 1 ≤ slot := by omega
      simp only [Prod.mk.injEq, and_true, hlater, false_and, or_false, le_refl, true_and, Int.sub_self,
        Int.toNat_zero, getElem?_cons_zero, Option.some.injEq]
      constructor
      · rintro ⟨rfl, hfield, hkeep⟩
        exact ⟨rfl, hfield, hkeep⟩
      · rintro ⟨rfl, hfield, hkeep⟩
        exact ⟨rfl, hfield, hkeep⟩
    · simp only [Prod.mk.injEq, hslot, and_false, false_and, false_or]
      constructor
      · rintro ⟨hle, hget, hrest⟩
        have hindex : (slot - start).toNat = (slot - (start + 1)).toNat + 1 := by omega
        exact ⟨by omega, by rw [hindex, getElem?_cons_succ, hget], hrest⟩
      · rintro ⟨hle, hget, hrest⟩
        have hindex : (slot - start).toNat = (slot - (start + 1)).toNat + 1 := by omega
        rw [hindex] at hget; exact ⟨by omega, hget, hrest⟩

variable {next : Int} {needs : List Bool} {index : Nat} {slot : Int}

/-- A local that is needed gets the field after those of the needed locals
before it. -/
theorem spillsFrom_get : (spillsFrom next needs)[index]? = (needs[index]?).map fun needed =>
      if needed then next + ((needs.take index).count true : Nat) else -1 := by
  induction needs generalizing next index with
  | nil => simp [spillsFrom]
  | cons first rest ih =>
    cases index with
    | zero => cases first <;> simp [spillsFrom]
    | succ index =>
      cases first with
      | false => simp [spillsFrom, ih]
      | true =>
        simp only [spillsFrom, getElem?_cons_succ, ih, take_succ_cons, count_cons_self]
        congr 1
        funext needed
        split
        · rw [Int.natCast_add, Int.natCast_one, Int.add_assoc, Int.add_comm 1]
        · rfl

theorem count_take_lt {later : Nat} (hneeded : needs[index]? = some true) (hlt : index < later) :
    (needs.take index).count true < (needs.take later).count true := by
  have hsplit : needs.take (index + 1) = needs.take index ++ [true] := by
    rw [take_add_one, hneeded]; rfl
  have hsub : (needs.take (index + 1)).Sublist (needs.take later) :=
    take_sublist_take_left hlt
  calc (needs.take index).count true
      < (needs.take (index + 1)).count true := by rw [hsplit]; simp
    _ ≤ (needs.take later).count true := hsub.count_le true

theorem spillsFrom_field {field : Int} (hget : (spillsFrom next needs)[index]? = some field)
    (hfield : 0 ≤ field) :
    needs[index]? = some true ∧ field = next + ((needs.take index).count true : Nat) := by
  rw [spillsFrom_get] at hget
  obtain ⟨needed, hneeded, hvalue⟩ := Option.map_eq_some_iff.mp hget
  cases needed with
  | true => exact ⟨hneeded, by simpa using hvalue.symm⟩
  | false =>
    have hminus : field = -1 := by simpa using hvalue.symm
    omega

/-- Two locals never share a field. -/
theorem spillsFrom_injective {field : Int} {other : Nat} (hfield : 0 ≤ field)
    (hindex : (spillsFrom next needs)[index]? = some field)
    (hother : (spillsFrom next needs)[other]? = some field) : index = other := by
  obtain ⟨hneeded, hfirst⟩ := spillsFrom_field hindex hfield
  obtain ⟨hneeded', hsecond⟩ := spillsFrom_field hother hfield
  rcases Nat.lt_trichotomy index other with hlt | rfl | hlt
  · have hcount := count_take_lt hneeded hlt
    omega
  · rfl
  · have hcount := count_take_lt hneeded' hlt
    omega

theorem saved_get {captures : List Bool} {spills : List Int} :
    (saved captures spills)[index]? =
      (spills[index]?).map fun field => if captures.getD index false then -1 else field := by
  induction captures generalizing spills index with
  | nil => cases spills <;> simp [saved]
  | cons captured rest ih =>
    cases spills with
    | nil => cases captured <;> simp [saved]
    | cons field spills => cases captured <;> cases index <;> simp [saved, ih]

/-! ## Stored and loaded again -/

def putAll {V : Type} (writes : List (Int × V)) (slots : Int → V) : Int → V :=
  writes.foldl (fun slots write => update slots write.1 write.2) slots

theorem putAll_other {V : Type} {writes : List (Int × V)} {slots : Int → V} {key : Int}
    (hother : ∀ value, (key, value) ∉ writes) : putAll writes slots key = slots key := by
  induction writes generalizing slots with
  | nil => rfl
  | cons write rest ih =>
    rw [putAll, foldl_cons, ← putAll, ih fun value hmem => hother value (.tail _ hmem)]
    refine update_of_ne (fun hsame => hother write.2 ?_) ..
    rw [hsame]; exact .head _

theorem putAll_get {V : Type} {writes : List (Int × V)} {slots : Int → V} {key : Int} {value : V}
    (hmem : (key, value) ∈ writes) (honly : ∀ other, (key, other) ∈ writes → other = value) :
    putAll writes slots key = value := by
  induction writes generalizing slots with
  | nil => simp at hmem
  | cons write rest ih =>
    rw [putAll, foldl_cons, ← putAll]
    by_cases hlater : (key, value) ∈ rest
    · exact ih hlater fun other hother => honly other (.tail _ hother)
    · have hfirst : write = (key, value) := by simpa [hlater, eq_comm] using hmem
      rw [putAll_other, hfirst, update_self]
      intro other hother
      obtain rfl := honly other (.tail _ hother)
      exact hlater hother

/-- The frame a pending answer leaves behind. -/
def suspended {V : Type} (writes : List (Int × Int)) (pc : V) (locals frame : Int → V) : Int → V :=
  update (putAll (writes.map fun place => (place.1, locals place.2)) frame) 1 pc

/-- The locals a resumed coroutine starts with. -/
def resumed {V : Type} (reads : List (Int × Int)) (frame unset : Int → V) : Int → V :=
  putAll (reads.map fun place => (place.2, frame place.1)) unset

/-- The fields are those of the frame, less what is left to the cleanups. -/
structure Laid (base fields : List Int) : Prop where
  kept : ∀ {index : Nat} {field : Int}, fields[index]? = some field → 0 ≤ field →
    base[index]? = some field
  later : ∀ {index : Nat} {field : Int}, base[index]? = some field → 0 ≤ field → 2 ≤ field
  apart : ∀ {index other : Nat} {field : Int}, 0 ≤ field → base[index]? = some field →
    base[other]? = some field → index = other

theorem drop_get {fields : List Int} (hslot : 1 ≤ slot) :
    (fields.drop 1)[(slot - 1).toNat]? = fields[slot.toNat]? := by
  have hindex : 1 + (slot - 1).toNat = slot.toNat := by omega
  rw [getElem?_drop, hindex]

theorem mem_loads {fields : List Int} {field : Int} :
    (field, slot) ∈ loads fields ↔ 1 ≤ slot ∧ fields[slot.toNat]? = some field ∧ 0 ≤ field := by
  simp only [loads, mem_fieldsFrom, and_true]
  exact and_congr_right fun hslot => by rw [drop_get hslot]

theorem mem_stores {fields : List Int} {analysis : List (Flow count)} {id : Nat} {field : Int} :
    (field, slot) ∈ stores fields analysis id ↔
      (field, slot) ∈ loads fields ∧ liveIn analysis id slot = true := by
  simp only [stores, mem_fieldsFrom, mem_loads, and_assoc]
  exact and_congr_right fun hslot => by rw [drop_get hslot]

variable {V : Type} {base fields : List Int} {analysis : List (Flow count)} {id : Nat}

/-- Nothing else is stored in the field of a local, and it is not that of the
state's number. -/
theorem stores_suspended (hlaid : Laid base fields) {field : Int}
    (hstore : (field, slot) ∈ stores fields analysis id) (pc : V) (locals frame : Int → V) :
    suspended (stores fields analysis id) pc locals frame field = locals slot := by
  obtain ⟨hslot, hfield, hlow⟩ := mem_loads.mp (mem_stores.mp hstore).1
  have hbase := hlaid.kept hfield hlow
  have hpc : field ≠ 1 := by
    have htwo := hlaid.later hbase hlow
    omega
  rw [suspended, update_of_ne hpc]
  refine putAll_get (mem_map.mpr ⟨(field, slot), hstore, rfl⟩) fun value hmem => ?_
  obtain ⟨⟨other, place⟩, hother, hsame⟩ := mem_map.mp hmem
  cases hsame
  obtain ⟨hplace, hfound, _⟩ := mem_loads.mp (mem_stores.mp hother).1
  have happ := hlaid.apart hlow (hlaid.kept hfound hlow) hbase
  rw [show place = slot by omega]

/-- What a local held when its state gave up the thread is what the resumed
coroutine loads into it. -/
theorem stores_resumed (hlaid : Laid base fields) {field : Int}
    (hstore : (field, slot) ∈ stores fields analysis id) (pc : V) (locals frame unset : Int → V) :
    resumed (loads fields) (suspended (stores fields analysis id) pc locals frame) unset slot =
      locals slot := by
  obtain ⟨hload, _⟩ := mem_stores.mp hstore
  rw [← stores_suspended hlaid hstore pc locals frame]
  -- only the local's own field is loaded into it
  refine putAll_get (mem_map.mpr ⟨(field, slot), hload, rfl⟩) fun value hmem => ?_
  obtain ⟨⟨other, place⟩, hother, hsame⟩ := mem_map.mp hmem
  cases hsame
  have hfield := (mem_loads.mp hload).2.1.symm.trans (mem_loads.mp hother).2.1
  rw [Option.some.inj hfield]

/-! ## The fields of a lowered coroutine -/

section Frame

variable {states : List State} {captures : List Bool} {params : Nat}

theorem laid_spills : Laid (spills states captures params analysis)
    (spills states captures params analysis) where
  kept hfield _ := hfield
  later hfield hlow := by
    have hvalue := (spillsFrom_field hfield hlow).2
    omega
  apart hlow hindex hother := spillsFrom_injective hlow hindex hother

theorem laid_saved : Laid (spills states captures params analysis)
    (saved captures (spills states captures params analysis)) where
  kept hfield hlow := by
    rw [saved_get] at hfield
    obtain ⟨field, hbase, hsaved⟩ := Option.map_eq_some_iff.mp hfield
    split at hsaved
    case isTrue => omega
    case isFalse => rw [hbase, hsaved]
  later := laid_spills.later
  apart := laid_spills.apart

theorem live_field (captures : List Bool) (params : Nat) {index : Nat} {source : State}
    {flow : Flow count} (hsource : states[index]? = some source) (hsuspends : source.exit.suspends = true)
    (hflow : analysis[index]? = some flow) {slot : Fin count} (hslot : 1 ≤ slot.val)
    (hlive : flow.live slot = true) :
    ∃ field, 2 ≤ field ∧ (spills states captures params analysis)[slot.val]? = some field := by
  have hneeded : needed states captures params analysis slot = true := by
    have hplace : (source, flow) ∈ states.zip analysis := by
      apply mem_of_getElem?
      rw [getElem?_zip_eq_some]; exact ⟨hsource, hflow⟩
    have hany : ((states.zip analysis).any fun place =>
        place.1.exit.suspends && place.2.live slot) = true :=
      any_eq_true.mpr ⟨(source, flow), hplace, by rw [hsuspends, hlive]; rfl⟩
    rw [needed, hany]; simp [hslot]
  have hget : (ofFn (needed states captures params analysis))[slot.val]? = some true := by
    rw [List.getElem?_ofFn, dif_pos slot.isLt, hneeded]
  refine ⟨2 + (((ofFn (needed states captures params analysis)).take slot.val).count true : Nat),
    by omega, ?_⟩
  rw [spills, spillsFrom_get, hget]; rfl

end Frame

/-! ## The code of a lowered coroutine -/

variable {graph : Graph}

/-- A state that waits or parks goes along its edge, or answers pending for its
own number. -/
theorem ending_suspends {current : State} {pc callbackType : Int} {resultCallbacks : List Int}
    (hshaped : current.shaped = true) (hsuspends : current.exit.suspends = true) :
    ∃ ready target, ending graph id current pc fields analysis callbackType resultCallbacks =
      some (branching ready (dispatchTo pc target) (pending graph id fields analysis)) := by
  have hone : (current.exit = .wait ∨ current.exit = .park) ∧ ∃ edge, current.edges = [edge] := by
    rcases hexit : current.exit
    case wait | park =>
      simp only [State.shaped, hexit, decide_eq_true_eq] at hshaped
      obtain ⟨edge, hedges, _⟩ := map_eq_singleton_iff.mp hshaped
      exact ⟨by simp, edge, hedges⟩
    all_goals simp [Exit.suspends, hexit] at hsuspends
  obtain ⟨hexit | hexit, edge, hedges⟩ := hone
  · exact ⟨_, edge.target, by simp only [ending, hexit, hedges]; rfl⟩
  · exact ⟨_, edge.target, by simp only [ending, hexit, hedges]; rfl⟩

theorem selectArms_some (pc : Int) {arms : List Arm} {edges : List Edge}
    (hbindings : edges.map Edge.bindings = arms.map Arm.bound) :
    ∃ selected, selectArms pc arms edges = some selected := by
  induction arms generalizing edges with
  | nil => exact ⟨[], rfl⟩
  | cons arm arms ih =>
    obtain ⟨variant, bindings, whole, body⟩ := arm
    obtain _ | ⟨edge, edges⟩ := edges
    · simp at hbindings
    · rw [map_cons, map_cons, cons.injEq] at hbindings
      obtain ⟨others, hothers⟩ := ih hbindings.2
      exact ⟨_, by rw [selectArms, hothers]; rfl⟩

theorem ending_some {current : State} (hshaped : current.shaped = true) (pc callbackType : Int)
    (resultCallbacks : List Int) (id : Nat) :
    ∃ last, ending graph id current pc fields analysis callbackType resultCallbacks = some last := by
  cases hexit : current.exit with
  | unreachable | complete => exact ⟨_, by simp only [ending, hexit]; rfl⟩
  | wait | park =>
    obtain ⟨_, _, hending⟩ := ending_suspends hshaped (by simp [Exit.suspends, hexit])
    exact ⟨_, hending⟩
  | jump =>
    simp only [State.shaped, hexit, decide_eq_true_eq] at hshaped
    obtain ⟨edge, hedges, _⟩ := map_eq_singleton_iff.mp hshaped
    exact ⟨_, by simp only [ending, hexit, hedges]; rfl⟩
  | branch =>
    simp only [State.shaped, hexit, decide_eq_true_eq] at hshaped
    obtain ⟨yes, rest, hedges, _, hrest⟩ := map_eq_cons_iff.mp hshaped
    obtain ⟨no, hno, _⟩ := map_eq_singleton_iff.mp hrest
    exact ⟨_, by simp only [ending, hexit, hedges, hno]; rfl⟩
  | select =>
    simp only [State.shaped, hexit, decide_eq_true_eq] at hshaped
    obtain ⟨arms, harms⟩ := selectArms_some pc hshaped
    exact ⟨_, by simp only [ending, hexit, harms]; rfl⟩

theorem dispatching_some {states : List State} (hshaped : ∀ state ∈ states, state.shaped = true)
    (pc callbackType : Int) (resultCallbacks : List Int) (first : Nat) :
    ∃ dispatch, dispatching graph pc fields analysis callbackType resultCallbacks first states =
      some dispatch := by
  induction states generalizing first with
  | nil => exact ⟨[], rfl⟩
  | cons current rest ih =>
    rw [forall_mem_cons] at hshaped
    obtain ⟨last, hlast⟩ : ∃ last, ending graph first current pc fields analysis callbackType
        resultCallbacks = some last := ending_some hshaped.1 ..
    obtain ⟨others, hothers⟩ := ih hshaped.2 (first + 1)
    exact ⟨_, by simp only [dispatching, hlast, hothers]; rfl⟩

/-- The emitted function loads every local that has a field before it
dispatches. -/
theorem emitted_loads (hlowered : graph.Lowered) (fields : List Int) (analysis : List (Flow count))
    (callbackType : Int) (resultCallbacks : List Int) :
    ∃ body counter rest, emitted graph fields analysis callbackType resultCallbacks = some body ∧
      body.children = counter :: (loads fields).map (loading graph.counted) ++ rest := by
  obtain ⟨dispatch, hdispatch⟩ : ∃ dispatch, dispatching graph.counted graph.locals.length fields
      analysis callbackType resultCallbacks 0 graph.states = some dispatch :=
    dispatching_some (fun state hstate => (hlowered state hstate).shaped) ..
  have hemitted : ∃ rest, emitted graph fields analysis callbackType resultCallbacks =
      some (block (node .letIn 0 graph.locals.length [field graph.counted 1 1] ::
        (loads fields).map (loading graph.counted) ++ rest) 1 false) :=
    ⟨_, by simp only [emitted, hdispatch]; rfl⟩
  obtain ⟨rest, hemitted⟩ := hemitted
  exact ⟨_, _, rest, hemitted, rfl⟩

end Loom.Lowering

import Loom.Lowering.ReadPaths
import Loom.Lowering.Spills

/-
  Runs of a state graph across its suspensions.

  A run goes through the code and the value of a state, takes one of its edges,
  binding what the edge's arm binds, and goes on in the next state. A state that
  waits or parks may suspend instead. What it holds in locals is lost then, up
  to what is live in the state; and it starts over when it is resumed.

  Correspondence (lowering/emit.loom ↔ Lean):
    the code of a state and its ending ↔ `State.paths`, `State.leads`
    `pending` and the return to the same `pc` ↔ `Run.suspends`
    the rest of `ending` ↔ `Run.follows`
-/

namespace Loom.Lowering

open Liveness List Option

def State.paths (source : State) : Paths Int :=
  andThen (allPaths source.code) source.value.paths

/-- The edges a state may take, with the locals its ending binds on the way: an
arm of a selection binds what it names, nothing else binds. -/
def State.leads (source : State) (edge : Edge) (bound : List Int) : Prop :=
  if source.exit = .select then
    ∃ (index : Nat) (arm : Arm), source.edges[index]? = some edge ∧
      source.arms[index]? = some arm ∧ bound = arm.bound
  else edge ∈ source.edges ∧ bound = []

/-- A run from the start of a state. It may stop anywhere, so the beginnings of
endless runs are runs. -/
inductive Run (graph : Graph) (analysis : List (Flow graph.locals.length)) :
    Nat → Trace Int → Prop where
  | stops (index : Nat) : Run graph analysis index []
  | ends {index : Nat} {source : State} {trace : Trace Int} {outcome : Outcome} :
      graph.states[index]? = some source → source.paths trace outcome →
      Run graph analysis index trace
  | follows {index : Nat} {source : State} {edge : Edge} {bound : List Int}
      {head writes tail : Trace Int} :
      graph.states[index]? = some source → source.paths head .normal → source.leads edge bound →
      binding bound writes .normal → Run graph analysis edge.target.toNat tail →
      Run graph analysis index (head ++ (writes ++ tail))
  | suspends {index : Nat} {source : State} {flow : Flow graph.locals.length}
      {head tail : Trace Int} :
      graph.states[index]? = some source → source.exit.suspends = true →
      source.paths head .normal → analysis[index]? = some flow → Run graph analysis index tail →
      Run graph analysis index (head ++ .safepoint (marked flow.live) :: tail)

/-! ## One state -/

theorem binding_assigns (uses defined : Finset Int) (ids : List Int) :
    Assigns uses defined (binding ids) (defined ∪ (ids.filter (0 ≤ ·)).toFinset) := by
  induction ids generalizing defined with
  | nil => simpa [binding] using assigns_skip
  | cons id rest ih =>
    rw [binding]
    by_cases hid : 0 ≤ id
    · rw [if_pos hid, filter_cons_of_pos (by simpa using hid), toFinset_cons]
      refine (assigns_andThen (assigns_write id) (ih _)).narrow ?_
      rw [Finset.union_insert, Finset.insert_union]
    · rw [if_neg hid, filter_cons_of_neg (by simpa using hid)]
      exact assigns_andThen assigns_skip (ih defined)

variable {source : State}

/-- An edge binds what `flows` takes it to bind. -/
theorem State.leads_bindings {edge : Edge} {bound : List Int} (hshaped : source.shaped = true)
    (hleads : source.leads edge bound) : edge ∈ source.edges ∧ edge.bindings = bound := by
  cases hexit : source.exit with
  | select =>
    rw [State.leads, if_pos hexit] at hleads
    obtain ⟨index, arm, hedge, harm, rfl⟩ := hleads
    simp only [State.shaped, hexit, decide_eq_true_eq] at hshaped
    have hsame : (source.edges.map Edge.bindings)[index]? = (source.arms.map Arm.bound)[index]? := by
      rw [hshaped]
    rw [getElem?_map, getElem?_map, hedge, harm] at hsame
    exact ⟨mem_of_getElem? hedge, some.inj hsame⟩
  | unreachable | complete =>
    rw [State.leads, if_neg (by simp [hexit])] at hleads
    simp only [State.shaped, hexit, List.isEmpty_iff] at hshaped
    simp [hshaped] at hleads
  | jump | branch | wait | park =>
    rw [State.leads, if_neg (by simp [hexit])] at hleads
    obtain ⟨hedge, rfl⟩ := hleads
    have hbindings : edge.bindings ∈ source.edges.map Edge.bindings := mem_map_of_mem hedge
    simp only [State.shaped, hexit, decide_eq_true_eq] at hshaped
    rw [hshaped] at hbindings; exact ⟨hedge, by simpa using hbindings⟩

/-- The walk over a state's code and value covers its paths. -/
theorem summary_assigns {count : Nat} {flow : Flow count}
    (hsummary : summary count source = some flow) :
    Assigns (marked flow.uses) ∅ source.paths (marked flow.definitions) := by
  obtain ⟨middle, hcode, hsummary⟩ := bind_eq_some_iff.mp hsummary
  obtain ⟨marks, hvalue, hdone⟩ := bind_eq_some_iff.mp hsummary
  cases hdone
  have hwalks := (readsAll_walks hcode).andThen (reads_walks hvalue)
  have hassigns := hwalks.assigns _ (Finset.Subset.refl _)
  rwa [marked_flags] at hassigns

/-! ## The run -/

variable {graph : Graph} {analysis : List (Flow graph.locals.length)}

section Solved

variable {index : Nat} {source : State} {flow : Flow graph.locals.length}

theorem Solution.assigns (hsolution : Solution graph analysis index source flow) :
    Assigns (marked flow.uses) ∅ source.paths (marked flow.definitions) := by
  obtain ⟨start, hsummary, hgrows⟩ := hsolution.summarized
  rw [hgrows.uses, hgrows.definitions]; exact summary_assigns hsummary

theorem Solution.uses_live (hsolution : Solution graph analysis index source flow) :
    marked flow.uses ⊆ marked flow.live := by
  obtain ⟨outgoing, _, hlive⟩ := hsolution.solved
  apply marked_mono
  intro slot hslot
  rw [hlive, Flow.transfer, hslot, Bool.true_or]

/-- What is live behind the edges is live in the state, unless it writes it. -/
theorem transfer_live {outgoing : Flags graph.locals.length}
    (hlive : flow.live = flow.transfer outgoing) :
    marked outgoing \ marked flow.definitions ⊆ marked flow.live := by
  intro slot hslot
  obtain ⟨hmem, hkept⟩ := Finset.mem_sdiff.mp hslot
  obtain ⟨place, hvalue, rfl⟩ := mem_marked.mp hmem
  rw [marked_val, Bool.not_eq_true] at hkept
  rw [marked_val, hlive, Flow.transfer, hvalue, hkept]; simp

end Solved

/-- Crossing an edge: what the target needs and the edge does not bind is live
behind the edges. -/
theorem needs_crossing {edge : Edge} {bound : List Int} {outgoing : Flags graph.locals.length}
    {target : Flow graph.locals.length} {writes tail : Trace Int}
    (hgather : gather analysis source.edges (flags graph.locals.length) = some outgoing)
    (hedge : edge ∈ source.edges) (hbound : edge.bindings = bound)
    (htarget : fetch analysis edge.target = some target) (hbinding : binding bound writes .normal)
    (hneeds : needs tail ⊆ marked target.live) (hsafe : Safe tail) :
    needs (writes ++ tail) ⊆ marked outgoing ∧ Safe (writes ++ tail) := by
  have haccounts := binding_assigns ∅ ∅ bound writes .normal hbinding
  obtain ⟨hbefore, hwhole⟩ := haccounts.safe hneeds hsafe
  refine ⟨fun slot hslot => ?_, hwhole⟩
  have hslot := hbefore hslot
  rw [Finset.empty_union, Finset.mem_sdiff] at hslot
  obtain ⟨hmem, hunbound⟩ := hslot
  obtain ⟨place, hvalue, rfl⟩ := mem_marked.mp hmem
  rw [marked_val, gather_iff hgather]
  refine .inr ⟨edge, hedge, target, htarget, hvalue, fun hnamed => hunbound ?_⟩
  rw [hbound] at hnamed
  simpa using hnamed

variable {index : Nat}

theorem run_needs (hlowered : graph.Lowered)
    (hsolved : ∀ index source, graph.states[index]? = some source →
      ∃ flow, Solution graph analysis index source flow) {trace : Trace Int}
    (hrun : Run graph analysis index trace) :
    (∀ flow, analysis[index]? = some flow → needs trace ⊆ marked flow.live) ∧ Safe trace := by
  induction hrun with
  | stops index => exact ⟨fun _ _ => Finset.empty_subset _, safe_nil⟩
  | @ends index source trace outcome hsource hpath =>
    obtain ⟨flow, hsolution⟩ := hsolved index source hsource
    have haccounts := hsolution.assigns trace outcome hpath
    constructor
    · intro other hother
      obtain rfl := some.inj (hsolution.found.symm.trans hother)
      have huses : needs trace ⊆ marked flow.uses := by simpa using haccounts.needed
      exact huses.trans hsolution.uses_live
    · simpa using safe_append haccounts.plain safe_nil
  | @follows index source edge bound head writes tail hsource hpath hleads hbinding _ ih =>
    obtain ⟨flow, hsolution⟩ := hsolved index source hsource
    obtain ⟨outgoing, hgather, hlive⟩ := hsolution.solved
    have hstate := hlowered source (mem_of_getElem? hsource)
    obtain ⟨hedge, hbound⟩ := State.leads_bindings hstate.shaped hleads
    obtain ⟨hlow, hhigh⟩ := hstate.targets edge hedge
    -- the target is a state too, and the rest of the run needs what is live in it
    obtain ⟨target, hfound⟩ := hsolved edge.target.toNat _ (getElem?_eq_getElem (by omega))
    have htarget : fetch analysis edge.target = some target := by
      rw [fetch, if_pos hlow, hfound.found]
    obtain ⟨hneeds, hsafe⟩ := needs_crossing hgather hedge hbound htarget hbinding
      (ih.1 target hfound.found) ih.2
    obtain ⟨hbefore, hwhole⟩ := (hsolution.assigns head .normal hpath).safe hneeds hsafe
    refine ⟨fun other hother => ?_, hwhole⟩
    obtain rfl := some.inj (hsolution.found.symm.trans hother)
    exact hbefore.trans (Finset.union_subset hsolution.uses_live (transfer_live hlive))
  | @suspends index source flow head tail hsource _ hpath hflow _ ih =>
    obtain ⟨other, hsolution⟩ := hsolved index source hsource
    obtain rfl := some.inj (hsolution.found.symm.trans hflow)
    -- the run goes on in the same state, with what is live there restored
    have hkept := ih.1 other hflow
    have hneeds : needs (.safepoint (marked other.live) :: tail) ⊆ marked other.live := hkept
    have hsafe : Safe (.safepoint (marked other.live) :: tail) := safe_cons.mpr ⟨hkept, ih.2⟩
    obtain ⟨hbefore, hwhole⟩ := (hsolution.assigns head .normal hpath).safe hneeds hsafe
    refine ⟨fun flow hother => ?_, hwhole⟩
    obtain rfl := some.inj (hflow.symm.trans hother)
    exact hbefore.trans (Finset.union_subset hsolution.uses_live Finset.sdiff_subset)

/-! ## What a suspension keeps -/

/-- A local is stored by the pending answer of a state, loaded by the resumed
coroutine, and then holds what it held. -/
def Spilled (graph : Graph) (analysis : List (Flow graph.locals.length)) (index : Nat)
    (fields : List Int) (slot : Int) : Prop :=
  ∃ field,
    storing graph.counted (field, slot) ∈
      (pending graph.counted index fields analysis).children ∧
    (∀ callbackType resultCallbacks, ∃ body,
      emitted graph fields analysis callbackType resultCallbacks = some body ∧
        loading graph.counted (field, slot) ∈ body.children) ∧
    ∀ (V : Type) (pc : V) (locals frame unset : Int → V),
      resumed (loads fields) (suspended (stores fields analysis index) pc locals frame) unset slot =
        locals slot

theorem spilled_of_stores (hlowered : graph.Lowered) {base fields : List Int} {slot field : Int}
    (hlaid : Laid base fields) (hstore : (field, slot) ∈ stores fields analysis index) :
    Spilled graph analysis index fields slot := by
  obtain ⟨hload, _⟩ := mem_stores.mp hstore
  refine ⟨field, ?_, fun callbackType resultCallbacks => ?_, fun V => stores_resumed hlaid hstore⟩
  · exact mem_append_left _ (mem_map_of_mem hstore)
  · obtain ⟨body, counter, rest, hemitted, hchildren⟩ :=
      emitted_loads hlowered fields analysis callbackType resultCallbacks
    refine ⟨body, hemitted, ?_⟩
    rw [hchildren]
    exact mem_append_left _ (.tail _ (mem_map_of_mem hload))

/-- What is live where the coroutine may suspend is spilled, unless cleanups
capture it. -/
theorem live_spilled (hlowered : graph.Lowered) {flow : Flow graph.locals.length}
    (hsource : graph.states[index]? = some source) (hsuspends : source.exit.suspends = true)
    (hflow : analysis[index]? = some flow) (captures : List Bool) (params : Nat) {slot : Int}
    (hlive : slot ∈ marked flow.live) (hslot : 1 ≤ slot) :
    let base := spills graph.states captures params analysis
    Spilled graph analysis index base slot ∧ (captures.getD slot.toNat false = false →
        Spilled graph analysis index (saved captures base) slot) := by
  obtain ⟨place, hvalue, rfl⟩ := mem_marked.mp hlive
  have hliveIn : liveIn analysis index place = true := by
    obtain ⟨other, hother⟩ := slot?_isSome (by omega) (by omega : (place : Int) < graph.locals.length)
    obtain rfl : other = place := Fin.ext (Int.ofNat.inj (slot?_val hother))
    simp [liveIn, hflow, hother, hvalue]
  obtain ⟨field, hfield, hget⟩ :=
    live_field captures params hsource hsuspends hflow (by omega) hvalue
  have hlow : 0 ≤ field := by omega
  constructor
  · have hload := mem_loads.mpr ⟨hslot, hget, hlow⟩
    exact spilled_of_stores hlowered laid_spills (mem_stores.mpr ⟨hload, hliveIn⟩)
  · intro hcaptured
    have hkept : (saved captures (spills graph.states captures params analysis))[place.val]? =
        some field := by
      rw [saved_get, hget, map_some, if_neg (by simpa using hcaptured)]
    have hload := mem_loads.mpr ⟨hslot, hkept, hlow⟩
    exact spilled_of_stores hlowered laid_saved (mem_stores.mpr ⟨hload, hliveIn⟩)

/-- The analysis ends; on every run, whatever is read after a suspension before
it is written is live in the state that is resumed; and what is live there is
stored and loaded again, unless it stays in the frame for the cleanups. -/
theorem flows_sufficient {graph : Graph} (hlowered : graph.Lowered) :
    ∃ analysis : List (Flow graph.locals.length),
      (∀ rounds, graph.states.length * graph.locals.length < rounds →
        flows graph rounds = some analysis) ∧
      (∀ index trace, Run graph analysis index trace → Safe trace) ∧
      ∀ index source, graph.states[index]? = some source → source.exit.suspends = true →
        ∃ flow, analysis[index]? = some flow ∧
          (∀ trace, Run graph analysis index trace → needs trace ⊆ marked flow.live) ∧
          ∀ captures params, ∀ slot ∈ marked flow.live, 1 ≤ slot →
            let base := spills graph.states captures params analysis
            Spilled graph analysis index base slot ∧ (captures.getD slot.toNat false = false →
                Spilled graph analysis index (saved captures base) slot) := by
  obtain ⟨analysis, hflows, hsolved⟩ := flows_settles hlowered
  refine ⟨analysis, hflows, fun index trace hrun => (run_needs hlowered hsolved hrun).2, ?_⟩
  intro index source hsource hsuspends
  obtain ⟨flow, hsolution⟩ := hsolved index source hsource
  refine ⟨flow, hsolution.found, fun trace hrun => ?_, fun captures params slot hlive hslot => ?_⟩
  · exact (run_needs hlowered hsolved hrun).1 flow hsolution.found
  · exact live_spilled hlowered hsource hsuspends hsolution.found captures params hlive hslot

section Polling

open IncrementalCache (ExprKind)

/-- A loop that waits once in every turn and adds up the answers: local 1 is the
sum, local 2 the task. -/
def polling : Graph where
  locals := [⟨7⟩, ⟨1⟩, ⟨8⟩]
  result := 1
  states := [
    ⟨[node .letIn 0 1 [integer 0]], .jump, empty, [⟨1, []⟩], []⟩,
    ⟨[], .branch, labeled (node .binary 2 (-1) [node .localRead 1 1 [], integer 9]) "<",
      [⟨2, []⟩, ⟨5, []⟩], []⟩,
    ⟨[node .letIn 0 2 [node .call 8 0 []]], .jump, empty, [⟨3, []⟩], []⟩,
    ⟨[], .wait, node .localRead 8 2 [], [⟨4, []⟩], []⟩,
    ⟨[node .assign 0 1 [labeled (node .binary 1 (-1) [node .localRead 1 1 [],
        operation "task_result" 1 [node .localRead 8 2 []]]) "+"]], .jump, empty, [⟨1, []⟩], []⟩,
    ⟨[], .complete, node .localRead 1 1 [], [], []⟩]

theorem polling_lowered : polling.Lowered := by
  intro state hstate
  simp only [polling, mem_cons, not_mem_nil, or_false] at hstate
  rcases hstate with rfl | rfl | rfl | rfl | rfl | rfl
  all_goals constructor <;> decide

-- while it waits, the sum and the task are live; before the loop nothing is
example : (flows polling 19).map (fun analysis => analysis.map fun flow => ofFn flow.live) =
    some [[false, false, false], [false, true, false], [false, true, false], [false, true, true],
      [false, true, true], [false, true, false]] := by decide

/-- In the polling loop nothing that is read later is lost at a suspension. -/
theorem flows_sufficient_polling : ∃ analysis, flows polling 19 = some analysis ∧
      (∀ index trace, Run polling analysis index trace → Safe trace) ∧
      ∃ flow, analysis[3]? = some flow ∧
        ∀ trace, Run polling analysis 3 trace → needs trace ⊆ marked flow.live := by
  obtain ⟨analysis, hflows, hsafe, hkept⟩ := flows_sufficient polling_lowered
  obtain ⟨flow, hflow, hneeds, _⟩ := hkept 3 _ rfl rfl
  exact ⟨analysis, hflows 19 (by decide), hsafe, flow, hflow, hneeds⟩

end Polling

end Loom.Lowering

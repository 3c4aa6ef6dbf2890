import Loom.Lowering.Reads
import Mathlib.Data.Finset.Card
import Mathlib.Data.Fintype.Card
import Mathlib.Data.Finset.Prod
import Mathlib.Order.BooleanAlgebra.Basic

/-
  The live locals of every state.

  Each round goes over the states from the last to the first and recomputes a
  state's live flags from those its edges lead to, in place, so that a later
  state of the round sees what an earlier one has just stored. The rounds stop
  after one that changed nothing.

  What is proved: `flows_settles`. The flags only ever rise, so no more rounds
  than there are flags change anything; and what the last round leaves is a
  solution: a state's live locals are those it uses, and those live along some
  edge that it neither defines nor binds on the way.

  Correspondence (lowering/liveness.loom ↔ Lean), where names differ:
    the first loop of `flows` ↔ `summaries`, `summary`
    the loops over edges and bindings ↔ `gather`, `unbind`, `clear`
    one turn of the inner loop ↔ `refresh`
    one round ↔ `sweep`
    `while changed` ↔ `settle`, with a bound on the rounds
-/

namespace Loom.Lowering

open List

structure Flow (count : Nat) where
  uses : Flags count
  definitions : Flags count
  live : Flags count

variable {count : Nat}

/-- What a state reads and writes, before anything is known to be live. -/
def summary (count : Nat) (source : State) : Option (Flow count) := do
  let marks ← readsAll source.code ⟨flags count, flags count⟩
  let marks ← reads source.value marks
  pure { uses := marks.uses, definitions := marks.definitions, live := flags count }

def clear (id : Int) (live : Flags count) : Option (Flags count) :=
  if 0 ≤ id then live.set id false else pure live

def summaries (count : Nat) : List State → Option (List (Flow count))
  | [] => pure []
  | source :: rest => do
    let flow ← summary count source
    let others ← summaries count rest
    pure (flow :: others)

def unbind : List Int → Flags count → Option (Flags count)
  | [], live => pure live
  | id :: rest, live => do
    let live ← clear id live
    unbind rest live

/-- An element of a list, as far as the index names one. -/
def fetch {α : Type} (values : List α) (index : Int) : Option α :=
  if 0 ≤ index then values[index.toNat]? else none

def gather (analysis : List (Flow count)) : List Edge → Flags count → Option (Flags count)
  | [], outgoing => pure outgoing
  | edge :: rest, outgoing => do
    let target ← fetch analysis edge.target
    let live ← unbind edge.bindings target.live
    gather analysis rest fun slot => outgoing slot || live slot

def Flow.transfer (flow : Flow count) (outgoing : Flags count) : Flags count :=
  fun slot => flow.uses slot || (outgoing slot && !flow.definitions slot)

/-- Recompute one state, and say whether that changed it. -/
def refresh (states : List State) (analysis : List (Flow count)) (index : Nat) :
    Option (List (Flow count) × Bool) := do
  let current ← analysis[index]?
  let source ← states[index]?
  let outgoing ← gather analysis source.edges (flags count)
  pure (analysis.set index { current with live := current.transfer outgoing },
    decide (current.transfer outgoing ≠ current.live))

/-- The states below an index, from the last to the first. -/
def sweep (states : List State) : Nat → List (Flow count) → Option (List (Flow count) × Bool)
  | 0, analysis => pure (analysis, false)
  | index + 1, analysis => do
    let (analysis, moved) ← refresh states analysis index
    let (analysis, changed) ← sweep states index analysis
    pure (analysis, moved || changed)

def settle (states : List State) : Nat → List (Flow count) → Option (List (Flow count))
  | 0, _ => none
  | rounds + 1, analysis => do
    let (analysis, changed) ← sweep states states.length analysis
    if changed then settle states rounds analysis else pure analysis

def flows (graph : Graph) (rounds : Nat) : Option (List (Flow graph.locals.length)) := do
  let analysis ← summaries graph.locals.length graph.states
  settle graph.states rounds analysis

/-! ## One state -/

theorem clear_iff {id : Int} {live later : Flags count} (hclear : clear id live = some later)
    (slot : Fin count) : later slot = true ↔ live slot = true ∧ (slot : Int) ≠ id := by
  rw [clear] at hclear
  split at hclear
  case isTrue =>
    obtain ⟨bound, hbound, rfl⟩ := Option.map_eq_some_iff.mp hclear
    rw [← slot?_val hbound]
    by_cases hsame : slot = bound
    · simp [hsame]
    · have hother : (slot : Int) ≠ bound := fun heq => hsame (Fin.ext (Int.ofNat.inj heq))
      simp [Function.update_of_ne hsame, hother]
  case isFalse hnegative =>
    cases hclear
    have hother : (slot : Int) ≠ id := fun heq => hnegative (by omega)
    simp [hother]

theorem unbind_iff {ids : List Int} {live later : Flags count} (hunbind : unbind ids live = some later)
    (slot : Fin count) : later slot = true ↔ live slot = true ∧ (slot : Int) ∉ ids := by
  induction ids generalizing live with
  | nil =>
    cases hunbind
    simp
  | cons id rest ih =>
    obtain ⟨middle, hfirst, hrest⟩ := Option.bind_eq_some_iff.mp hunbind
    rw [ih hrest, clear_iff hfirst, mem_cons, not_or, and_assoc]

theorem clear_some {id : Int} (live : Flags count) (hbound : id < count) :
    ∃ later, clear id live = some later := by
  rw [clear]
  split
  case isTrue hlow => exact live.set_some false hlow hbound
  case isFalse => exact ⟨live, rfl⟩

theorem unbind_some {ids : List Int} (live : Flags count) (hbounds : ∀ id ∈ ids, id < count) :
    ∃ later, unbind ids live = some later := by
  induction ids generalizing live with
  | nil => exact ⟨live, rfl⟩
  | cons id rest ih =>
    rw [forall_mem_cons] at hbounds
    obtain ⟨middle, hmiddle⟩ := clear_some live hbounds.1
    obtain ⟨later, hlater⟩ := ih middle hbounds.2
    exact ⟨later, by rw [unbind, hmiddle]; exact hlater⟩

variable {outgoing : Flags count} {edges : List Edge} {source : State} {index : Nat}

/-- A local is live behind the edges if it is at the end of one that does not
bind it. -/
theorem gather_iff {analysis : List (Flow count)} {start : Flags count}
    (hgather : gather analysis edges start = some outgoing) (slot : Fin count) :
    outgoing slot = true ↔ start slot = true ∨ ∃ edge ∈ edges, ∃ flow,
      fetch analysis edge.target = some flow ∧ flow.live slot = true ∧ (slot : Int) ∉ edge.bindings := by
  induction edges generalizing start with
  | nil =>
    cases hgather
    simp
  | cons edge rest ih =>
    obtain ⟨target, htarget, hgather⟩ := Option.bind_eq_some_iff.mp hgather
    obtain ⟨live, hlive, hrest⟩ := Option.bind_eq_some_iff.mp hgather
    rw [ih hrest, Bool.or_eq_true, unbind_iff hlive, or_assoc]; simp [htarget]

theorem gather_some {analysis : List (Flow count)} (start : Flags count)
    (htargets : ∀ edge ∈ edges, 0 ≤ edge.target ∧ edge.target < analysis.length)
    (hbindings : ∀ edge ∈ edges, ∀ id ∈ edge.bindings, id < count) :
    ∃ outgoing, gather analysis edges start = some outgoing := by
  induction edges generalizing start with
  | nil => exact ⟨start, rfl⟩
  | cons edge rest ih =>
    rw [forall_mem_cons] at htargets hbindings
    obtain ⟨⟨hlow, hhigh⟩, htargets⟩ := htargets
    have hinside : edge.target.toNat < analysis.length := by omega
    have htarget : fetch analysis edge.target = some analysis[edge.target.toNat] := by
      rw [fetch, if_pos hlow, getElem?_eq_getElem hinside]
    obtain ⟨live, hlive⟩ := unbind_some analysis[edge.target.toNat].live hbindings.1
    obtain ⟨outgoing, houtgoing⟩ := ih (fun slot => start slot || live slot) htargets hbindings.2
    refine ⟨outgoing, ?_⟩
    rw [gather, htarget, Option.bind_eq_bind, Option.bind_some, hlive]
    exact houtgoing

theorem summary_some
    (hformed : ∀ value ∈ source.value :: source.code, value.wellFormed count = true) :
    ∃ flow, summary count source = some flow := by
  rw [forall_mem_cons] at hformed
  obtain ⟨middle, hcode⟩ := readsAll_some ⟨flags count, flags count⟩ (allWellFormed_iff.mpr hformed.2)
  obtain ⟨marks, hvalue⟩ := reads_some middle hformed.1
  exact ⟨_, by simp only [summary, hcode, hvalue, Option.bind_eq_bind, Option.bind_some]; rfl⟩

theorem summary_live {flow : Flow count} (hsummary : summary count source = some flow) :
    flow.live = flags count := by
  obtain ⟨middle, _, hsummary⟩ := Option.bind_eq_some_iff.mp hsummary
  obtain ⟨marks, _, hdone⟩ := Option.bind_eq_some_iff.mp hsummary
  cases hdone
  rfl

theorem summaries_some {states : List State}
    (hsome : ∀ source ∈ states, ∃ flow, summary count source = some flow) :
    ∃ analysis, summaries count states = some analysis := by
  induction states with
  | nil => exact ⟨[], rfl⟩
  | cons source rest ih =>
    rw [forall_mem_cons] at hsome
    obtain ⟨⟨flow, hflow⟩, hrest⟩ := hsome
    obtain ⟨others, hothers⟩ := ih hrest
    exact ⟨flow :: others, by simp only [summaries, hflow, hothers]; rfl⟩

theorem summaries_get {states : List State} {analysis : List (Flow count)}
    (hsummaries : summaries count states = some analysis) :
    analysis.length = states.length ∧ ∀ {index : Nat} {source : State}, states[index]? = some source →
      ∃ flow, analysis[index]? = some flow ∧ summary count source = some flow := by
  induction states generalizing analysis with
  | nil =>
    cases hsummaries
    exact ⟨rfl, by simp⟩
  | cons first rest ih =>
    obtain ⟨flow, hflow, hsummaries⟩ := Option.bind_eq_some_iff.mp hsummaries
    obtain ⟨others, hothers, hdone⟩ := Option.bind_eq_some_iff.mp hsummaries
    cases hdone
    obtain ⟨hlength, hget⟩ := ih hothers
    refine ⟨by rw [length_cons, length_cons, hlength], ?_⟩
    intro index source hsource
    cases index with
    | zero =>
      cases hsource
      exact ⟨flow, rfl, hflow⟩
    | succ index => exact hget hsource

/-! ## One round -/

/-- The edges lead to states and bind locals. -/
def Closed (count : Nat) (states : List State) : Prop :=
  ∀ state ∈ states, ∀ edge ∈ state.edges,
    (0 ≤ edge.target ∧ edge.target < states.length) ∧ ∀ id ∈ edge.bindings, id < count

/-- The same state, with no fewer live locals. -/
structure Flow.Grows (flow later : Flow count) : Prop where
  uses : later.uses = flow.uses
  definitions : later.definitions = flow.definitions
  live : flow.live ≤ later.live

/-- The live flags of an analysis, each with its state. -/
def lit (analysis : List (Flow count)) : Finset (Nat × Fin count) :=
  (Finset.range analysis.length ×ˢ Finset.univ).filter fun place =>
    (analysis[place.1]?).any fun flow => flow.live place.2

theorem mem_lit {analysis : List (Flow count)} {slot : Fin count} :
    (index, slot) ∈ lit analysis ↔
      ∃ flow, analysis[index]? = some flow ∧ flow.live slot = true := by
  rw [lit, Finset.mem_filter, Option.any_eq_true]
  refine ⟨fun hplace => hplace.2, fun hplace => ⟨?_, hplace⟩⟩
  obtain ⟨flow, hflow, _⟩ := hplace
  obtain ⟨hinside, _⟩ := List.getElem?_eq_some_iff.mp hflow
  simp [hinside]

theorem card_lit_le (analysis : List (Flow count)) :
    (lit analysis).card ≤ analysis.length * count := by
  calc (lit analysis).card
      ≤ (Finset.range analysis.length ×ˢ (Finset.univ : Finset (Fin count))).card :=
        Finset.card_filter_le _ _
    _ = analysis.length * count := by
        rw [Finset.card_product, Finset.card_range, Finset.card_univ, Fintype.card_fin]

/-- From one analysis to a later one, with whether anything moved. -/
structure Advances (analysis later : List (Flow count)) (moved : Bool) : Prop where
  length : later.length = analysis.length
  grows : ∀ {index : Nat} {flow : Flow count}, analysis[index]? = some flow →
    ∃ more, later[index]? = some more ∧ flow.Grows more
  strict : moved = true → ∃ place ∈ lit later, place ∉ lit analysis
  same : moved = false → later = analysis

variable {analysis middle later : List (Flow count)}

theorem Flow.Grows.trans {flow second third : Flow count} (hfirst : flow.Grows second)
    (hsecond : second.Grows third) : flow.Grows third :=
  ⟨hsecond.uses.trans hfirst.uses, hsecond.definitions.trans hfirst.definitions,
    hfirst.live.trans hsecond.live⟩

theorem Advances.refl (analysis : List (Flow count)) : Advances analysis analysis false where
  length := rfl
  grows {_ flow} hflow := ⟨flow, hflow, rfl, rfl, le_refl _⟩
  strict := by simp
  same _ := rfl

variable {moved : Bool}

theorem Advances.lit_subset (hadvances : Advances analysis later moved) :
    lit analysis ⊆ lit later := by
  rintro ⟨index, slot⟩ hplace
  obtain ⟨flow, hflow, hlive⟩ := mem_lit.mp hplace
  obtain ⟨more, hmore, hgrows⟩ := hadvances.grows hflow
  exact mem_lit.mpr ⟨more, hmore, hgrows.live slot hlive⟩

theorem Advances.trans {changed : Bool} (hfirst : Advances analysis middle moved)
    (hsecond : Advances middle later changed) : Advances analysis later (moved || changed) where
  length := hsecond.length.trans hfirst.length
  grows hflow := by
    obtain ⟨more, hmore, hgrows⟩ := hfirst.grows hflow
    obtain ⟨most, hmost, hgrows'⟩ := hsecond.grows hmore
    exact ⟨most, hmost, hgrows.trans hgrows'⟩
  strict hmoved := by
    rcases Bool.or_eq_true_iff.mp hmoved with hmoved | hchanged
    · obtain ⟨place, hnew, hold⟩ := hfirst.strict hmoved
      exact ⟨place, hsecond.lit_subset hnew, hold⟩
    · obtain ⟨place, hnew, hold⟩ := hsecond.strict hchanged
      exact ⟨place, hnew, fun hmem => hold (hfirst.lit_subset hmem)⟩
  same hsame := by
    obtain ⟨hmoved, hchanged⟩ := Bool.or_eq_false_iff.mp hsame
    rw [hsecond.same hchanged, hfirst.same hmoved]

theorem Advances.card_lt (hadvances : Advances analysis later true) :
    (lit analysis).card < (lit later).card := by
  obtain ⟨place, hnew, hold⟩ := hadvances.strict rfl
  apply Finset.card_lt_card
  rw [Finset.ssubset_iff_of_subset hadvances.lit_subset]
  exact ⟨place, hnew, hold⟩

/-- One flow for each state, and recomputing any of them loses nothing. -/
structure Rising (states : List State) (analysis : List (Flow count)) : Prop where
  length : analysis.length = states.length
  rises : ∀ {index : Nat} {flow : Flow count} {source : State} {outgoing : Flags count},
    analysis[index]? = some flow → states[index]? = some source →
      gather analysis source.edges (flags count) = some outgoing →
        flow.live ≤ flow.transfer outgoing

variable {states : List State}

theorem Rising.gathers (hrising : Rising states analysis) (hclosed : Closed count states)
    (hsource : states[index]? = some source) :
    ∃ outgoing, gather analysis source.edges (flags count) = some outgoing := by
  have hmem := mem_of_getElem? hsource
  refine gather_some _ (fun edge hedge => ?_) fun edge hedge => (hclosed source hmem edge hedge).2
  rw [hrising.length]; exact (hclosed source hmem edge hedge).1

/-- More behind the targets is no less behind the edges. -/
theorem Advances.gather_le (hadvances : Advances analysis later moved) {more : Flags count}
    (hgather : gather analysis edges (flags count) = some outgoing)
    (hlater : gather later edges (flags count) = some more) : outgoing ≤ more := by
  intro slot hslot
  rw [gather_iff hgather] at hslot
  rw [gather_iff hlater]
  refine hslot.imp_right fun ⟨edge, hedge, flow, hflow, hlive, hunbound⟩ => ?_
  rw [fetch] at hflow
  split at hflow
  case isTrue hlow =>
    obtain ⟨grown, hgrown, hgrows⟩ := hadvances.grows hflow
    exact ⟨edge, hedge, grown, by rw [fetch, if_pos hlow, hgrown], hgrows.live slot hlive, hunbound⟩
  case isFalse => cases hflow

theorem transfer_mono (flow : Flow count) {more : Flags count} (hle : outgoing ≤ more) :
    flow.transfer outgoing ≤ flow.transfer more := by
  intro slot hslot
  simp only [Flow.transfer, Bool.or_eq_true, Bool.and_eq_true] at hslot ⊢
  exact hslot.imp_right fun ⟨houtgoing, hkept⟩ => ⟨hle slot houtgoing, hkept⟩

/-- Storing a state that has grown. -/
theorem advances_set {current fresh : Flow count} (hcurrent : analysis[index]? = some current)
    (hgrows : current.Grows fresh) :
    Advances analysis (analysis.set index fresh) (decide (fresh.live ≠ current.live)) where
  length := length_set
  grows {other flow} hflow := by
    obtain ⟨hinside, _⟩ := List.getElem?_eq_some_iff.mp hcurrent
    by_cases hsame : index = other
    · subst hsame
      obtain rfl := Option.some.inj (hcurrent.symm.trans hflow)
      exact ⟨fresh, getElem?_set_self hinside, hgrows⟩
    · exact ⟨flow, by rwa [getElem?_set_ne hsame], rfl, rfl, le_refl _⟩
  strict hmoved := by
    obtain ⟨hinside, _⟩ := List.getElem?_eq_some_iff.mp hcurrent
    obtain ⟨slot, hslot⟩ := Function.ne_iff.mp (of_decide_eq_true hmoved)
    -- the flag that differs can only have risen
    have hold : current.live slot = false := by
      by_contra hlive
      rw [Bool.not_eq_false] at hlive
      exact hslot ((hgrows.live slot hlive).trans hlive.symm)
    have hnew : fresh.live slot = true := by
      rw [hold] at hslot; exact Bool.eq_true_of_not_eq_false hslot
    refine ⟨(index, slot), mem_lit.mpr ⟨fresh, getElem?_set_self hinside, hnew⟩, fun hmem => ?_⟩
    obtain ⟨flow, hflow, hlive⟩ := mem_lit.mp hmem
    obtain rfl := Option.some.inj (hcurrent.symm.trans hflow)
    rw [hold] at hlive
    cases hlive
  same hmoved := by
    have hlive := not_not.mp (of_decide_eq_false hmoved)
    obtain ⟨hinside, hvalue⟩ := List.getElem?_eq_some_iff.mp hcurrent
    have hsame : fresh = analysis[index] := by
      rw [hvalue]
      obtain ⟨uses, definitions, live⟩ := fresh
      obtain ⟨rfl, rfl, _⟩ := hgrows
      obtain rfl := hlive
      rfl
    rw [hsame, set_getElem_self]

/-- The step of the induction: one state is recomputed, and all still rise. -/
theorem refresh_advances (hclosed : Closed count states) (hrising : Rising states analysis)
    (hindex : index < states.length) :
    ∃ later moved, refresh states analysis index = some (later, moved) ∧
      Advances analysis later moved ∧ Rising states later := by
  have hsource : states[index]? = some states[index] := getElem?_eq_getElem hindex
  have hinside : index < analysis.length := by rw [hrising.length]; exact hindex
  obtain ⟨current, hcurrent⟩ : ∃ current, analysis[index]? = some current :=
    ⟨_, getElem?_eq_getElem hinside⟩
  obtain ⟨outgoing, hgather⟩ := hrising.gathers hclosed hsource
  have hle := hrising.rises hcurrent hsource hgather
  have hgrows : current.Grows { current with live := current.transfer outgoing } := ⟨rfl, rfl, hle⟩
  have hadvances := advances_set hcurrent hgrows
  refine ⟨_, _, ?_, hadvances, ?_⟩
  · simp only [refresh, hcurrent, hsource, hgather, Option.bind_eq_bind, Option.bind_some]
    rfl
  refine ⟨hadvances.length.trans hrising.length, ?_⟩
  intro other flow source more hflow hother hmore
  by_cases hsame : index = other
  · -- the state itself, from which the others have only gained
    subst hsame
    rw [getElem?_set_self hinside] at hflow
    cases hflow
    obtain rfl := Option.some.inj (hsource.symm.trans hother)
    exact transfer_mono current (hadvances.gather_le hgather hmore)
  · rw [getElem?_set_ne hsame] at hflow
    obtain ⟨less, hless⟩ := hrising.gathers hclosed hother
    calc flow.live
        ≤ flow.transfer less := hrising.rises hflow hother hless
      _ ≤ flow.transfer more := transfer_mono flow (hadvances.gather_le hless hmore)

/-- The states below an index, one after the other. -/
theorem sweep_advances (hclosed : Closed count states) {bound : Nat} (hbound : bound ≤ states.length)
    (hrising : Rising states analysis) :
    ∃ later moved, sweep states bound analysis = some (later, moved) ∧
      Advances analysis later moved ∧ Rising states later := by
  induction bound generalizing analysis with
  | zero => exact ⟨analysis, false, rfl, Advances.refl analysis, hrising⟩
  | succ index ih =>
    obtain ⟨middle, moved, hrefresh, hfirst, hmiddle⟩ := refresh_advances hclosed hrising hbound
    obtain ⟨later, changed, hsweep, hrest, hlater⟩ := ih (by omega) hmiddle
    refine ⟨later, moved || changed, ?_, hfirst.trans hrest, hlater⟩
    simp only [sweep, hrefresh, hsweep, Option.bind_eq_bind, Option.bind_some]
    rfl

/-- A state is a solution if recomputing it gives what it holds. -/
def Solves (states : List State) (analysis : List (Flow count)) (index : Nat) : Prop :=
  refresh states analysis index = some (analysis, false)

/-- A round that changed nothing has recomputed every state. -/
theorem sweep_solves (hclosed : Closed count states) {bound : Nat} (hbound : bound ≤ states.length)
    (hrising : Rising states analysis) (hsweep : sweep states bound analysis = some (later, false)) :
    ∀ index < bound, Solves states analysis index := by
  induction bound generalizing analysis with
  | zero => simp
  | succ last ih =>
    obtain ⟨middle, moved, hrefresh, hfirst, hmiddle⟩ := refresh_advances hclosed hrising hbound
    obtain ⟨final, changed, hrest, _, _⟩ := sweep_advances hclosed (by omega : last ≤ _) hmiddle
    simp only [sweep, hrefresh, hrest, Option.bind_eq_bind, Option.bind_some, Option.pure_def,
      Option.some.injEq, Prod.mk.injEq, Bool.or_eq_false_iff] at hsweep
    obtain ⟨rfl, rfl, rfl⟩ := hsweep
    obtain rfl := hfirst.same rfl
    intro index hindex
    rcases Nat.lt_succ_iff_lt_or_eq.mp hindex with hlt | rfl
    · exact ih (by omega) hrising hrest index hlt
    · exact hrefresh

/-! ## All rounds -/

theorem settle_more {rounds : Nat} (hsettle : settle states rounds analysis = some later) :
    settle states (rounds + 1) analysis = some later := by
  induction rounds generalizing analysis with
  | zero => cases hsettle
  | succ rounds ih =>
    rw [settle] at hsettle ⊢
    obtain ⟨⟨middle, changed⟩, hsweep, hrest⟩ := Option.bind_eq_some_iff.mp hsettle
    rw [hsweep, Option.bind_eq_bind]
    cases changed with
    | false => exact hrest
    | true => exact ih hrest

/-- The run of the induction: every round but the last sets another flag. -/
theorem settle_some (hclosed : Closed count states) {rounds : Nat}
    (hrising : Rising states analysis)
    (hrounds : states.length * count < rounds + (lit analysis).card) :
    ∃ later, settle states rounds analysis = some later ∧ Rising states later ∧
      (∃ moved, Advances analysis later moved) ∧ ∀ index < states.length, Solves states later index := by
  induction rounds generalizing analysis with
  | zero =>
    have hcard := card_lit_le analysis
    rw [hrising.length] at hcard; omega
  | succ rounds ih =>
    obtain ⟨middle, moved, hsweep, hadvances, hmiddle⟩ := sweep_advances hclosed (le_refl _) hrising
    rw [settle, hsweep, Option.bind_eq_bind]
    cases moved with
    | false =>
      have hsolves := sweep_solves hclosed (le_refl _) hrising hsweep
      obtain rfl := hadvances.same rfl
      exact ⟨middle, rfl, hrising, ⟨false, hadvances⟩, hsolves⟩
    | true =>
      have hcard := hadvances.card_lt
      obtain ⟨later, hlater, hrising, ⟨changed, hrest⟩, hsolves⟩ := ih hmiddle (by omega)
      exact ⟨later, hlater, hrising, ⟨_, hadvances.trans hrest⟩, hsolves⟩

/-- What a state's flags are once the rounds have stopped. -/
structure Solution (graph : Graph) (analysis : List (Flow graph.locals.length)) (index : Nat)
    (source : State) (flow : Flow graph.locals.length) : Prop where
  found : analysis[index]? = some flow
  summarized : ∃ start, summary graph.locals.length source = some start ∧ start.Grows flow
  solved : ∃ outgoing, gather analysis source.edges (flags graph.locals.length) = some outgoing ∧
    flow.live = flow.transfer outgoing

theorem Solves.live {index : Nat} {source : State} {flow : Flow count}
    (hsolves : Solves states analysis index) (hsource : states[index]? = some source)
    (hflow : analysis[index]? = some flow) :
    ∃ outgoing, gather analysis source.edges (flags count) = some outgoing ∧
      flow.live = flow.transfer outgoing := by
  simp only [Solves, refresh, hflow, hsource, Option.bind_eq_bind, Option.bind_some] at hsolves
  obtain ⟨outgoing, hgather, hdone⟩ := Option.bind_eq_some_iff.mp hsolves
  obtain ⟨-, hsame⟩ := Prod.mk.inj (Option.some.inj hdone)
  exact ⟨outgoing, hgather, (not_not.mp (of_decide_eq_false hsame)).symm⟩

/-- At most as many rounds change something as there are flags; then the
analysis is done, and every state is solved. -/
theorem flows_settles {graph : Graph} (hlowered : graph.Lowered) :
    ∃ analysis, (∀ rounds, graph.states.length * graph.locals.length < rounds →
        flows graph rounds = some analysis) ∧
      ∀ index source, graph.states[index]? = some source →
        ∃ flow, Solution graph analysis index source flow := by
  have hclosed : Closed graph.locals.length graph.states := fun state hstate edge hedge =>
    ⟨(hlowered state hstate).targets edge hedge, (hlowered state hstate).bindings edge hedge⟩
  obtain ⟨start, hstart⟩ := summaries_some fun state hstate =>
    summary_some (hlowered state hstate).wellFormed
  obtain ⟨hlength, hsummary⟩ := summaries_get hstart
  -- at first nothing is live, and recomputing that can only add to it
  have hrising : Rising graph.states start := by
    refine ⟨hlength, ?_⟩
    intro index flow source outgoing hflow hsource _ slot hslot
    obtain ⟨other, hother, hsummarized⟩ := hsummary hsource
    obtain rfl := Option.some.inj (hother.symm.trans hflow)
    rw [summary_live hsummarized] at hslot
    cases hslot
  have hrounds : graph.states.length * graph.locals.length <
      graph.states.length * graph.locals.length + 1 + (lit start).card := by omega
  obtain ⟨analysis, hsettle, _, ⟨moved, hadvances⟩, hsolves⟩ := settle_some hclosed hrising hrounds
  refine ⟨analysis, fun rounds hrounds => ?_, fun index source hsource => ?_⟩
  · rw [flows, hstart, Option.bind_eq_bind]
    exact Nat.le_induction hsettle (fun _ _ => settle_more) rounds hrounds
  · obtain ⟨flow, hflow, hsummarized⟩ := hsummary hsource
    obtain ⟨later, hlater, hgrows⟩ := hadvances.grows hflow
    obtain ⟨hinside, _⟩ := List.getElem?_eq_some_iff.mp hsource
    exact ⟨later, hlater, ⟨flow, hsummarized, hgrows⟩, (hsolves index hinside).live hsource hlater⟩

end Loom.Lowering

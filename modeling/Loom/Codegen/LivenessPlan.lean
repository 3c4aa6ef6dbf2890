import Loom.Codegen.Checked
import Loom.Library.Settling
import Mathlib.Data.Finset.Range
import Mathlib.Data.Finset.SDiff

/-
  The GC liveness planner: a backward walk over a checked body that records
  which locals may be retired where, and which must be restored after a safe
  point.

  The maps keyed by addresses are functions of names. A visit overwrites what
  an earlier round of an enclosing loop recorded, as in the source. The loop
  over a `while` takes a number of rounds, and `none` means that it ran out.

  Correspondence (rust ↔ Lean), where names differ:
    `Plan::expression` ↔ `planExpression`, `planOperands`, `planArms`
    `Plan::block` ↔ `planBlock`, `planStatements`, `planStatement`
-/

namespace Loom.Codegen

open Settling

abbrev Live := Finset Nat

/-- What is live at the end of the enclosing loop and at its head. -/
abbrev Targets := Option (Live × Live)

def exits (targets : Targets) : Live := (targets.map Prod.fst).getD ∅

def heads (targets : Targets) : Live := (targets.map Prod.snd).getD ∅

structure Plan where
  entries : Nat → Option Live
  retired : Nat → Option Live
  expressions : Nat → Option Live
  restores : Nat → Option Live
  pinned : Live

def Plan.enter (plan : Plan) (id : Nat) (dead : Live) : Plan :=
  { plan with entries := Function.update plan.entries id (some dead) }

def Plan.retire (plan : Plan) (id : Nat) (dead : Live) : Plan :=
  { plan with retired := Function.update plan.retired id (some dead) }

def Plan.expressionRetirement (plan : Plan) (id : Nat) (dead : Live) : Plan :=
  { plan with
    expressions := Function.update plan.expressions id (if dead = ∅ then none else some dead) }

def Plan.restore (plan : Plan) (collections : Collections) (value : Expr) (live : Live) : Plan :=
  if mayAllocate collections value then
    { plan with restores := Function.update plan.restores value.id (some live) }
  else plan

/-- What the walk over a part leaves behind: the slots live before it, the
slots it defines, and the plan so far. -/
structure Planned where
  live : Live
  definitions : Live
  plan : Plan

/-- The walk over the arms of a match: what is live before them, whether one
of them collects, and what each needs at its entry. -/
structure Branches where
  live : Live
  collecting : Bool
  incoming : List (Nat × Live × Bool)
  definitions : Live
  plan : Plan

/-- Record what the arms retire at their entries: what another arm needs. -/
def Plan.enterAll (branches : Live) : List (Nat × Live × Bool) → Plan → Plan
  | [], plan => plan
  | (id, before, collects) :: rest, plan =>
      enterAll branches rest (plan.enter id ((branches \ before).filter fun _ => collects))

/-- Record what a statement's completion retires. -/
def Planned.finish (planned : Planned) (id : Nat) (after : Live) (collection : Bool)
    (definitions : Live) : Planned where
  live := planned.live
  definitions := definitions ∪ planned.definitions
  plan := planned.plan.retire id
    ((planned.live ∪ planned.definitions).filter fun slot => collection ∧ slot ∉ after)

mutual
def planExpression (rounds : Nat) (collections : Collections) :
    Expr → Live → Targets → Live → Bool → Plan → Option Planned
  | .literal id value, live, _, definitions, _, plan =>
      some ⟨live, definitions, plan.restore collections (.literal id value) live⟩
  | .local id ty slot, live, _, definitions, future, plan =>
      let plan := plan.restore collections (.local id ty slot) live
      let retire := future && slot ∉ live && !ty.isScalar
      some ⟨insert slot live, definitions,
        plan.expressionRetirement id (if retire then {slot} else ∅)⟩
  | .field id receiver index, live, targets, definitions, future, plan =>
      let plan := plan.restore collections (.field id receiver index) live
      let dead : Live :=
        match fieldLocal receiver with
        | some slot => if future && slot ∉ live then {slot} else ∅
        | none => ∅
      planExpression rounds collections receiver live targets definitions future
        (plan.expressionRetirement id dead)
  | .operation id operation operands, live, targets, definitions, future, plan =>
      planOperands rounds collections operands live targets definitions
        (future || operation.collects collections)
        (plan.restore collections (.operation id operation operands) live)
  | .shortCircuit id left right, live, targets, definitions, future, plan => do
      let plan := plan.restore collections (.shortCircuit id left right) live
      let second ← planExpression rounds collections right live targets definitions future plan
      let plan := second.plan.expressionRetirement id ((second.live \ live).filter fun _ => future)
      planExpression rounds collections left (second.live ∪ live) targets second.definitions
        (future || mayAllocate collections right) plan
  | .block id body, live, targets, definitions, future, plan =>
      planBlock rounds collections body live targets definitions future
        (plan.restore collections (.block id body) live)
  | .conditional id condition thenBody none, live, targets, definitions, future, plan => do
      let plan := plan.restore collections (.conditional id condition thenBody none) live
      let yes ← planBlock rounds collections thenBody live targets definitions future plan
      let branches := yes.live ∪ live
      let plan := yes.plan.expressionRetirement id ((branches \ live).filter fun _ => future)
      let collects := future || blockAllocates collections thenBody
      let plan := plan.enter thenBody.id ((branches \ yes.live).filter fun _ => collects)
      planExpression rounds collections condition branches targets yes.definitions collects plan
  | .conditional id condition thenBody (some elseBody), live, targets, definitions, future, plan =>
    do
      let plan := plan.restore collections (.conditional id condition thenBody (some elseBody)) live
      let yes ← planBlock rounds collections thenBody live targets definitions future plan
      let no ← planBlock rounds collections elseBody live targets yes.definitions future yes.plan
      let branches := yes.live ∪ no.live
      let plan := no.plan.expressionRetirement id ((branches \ live).filter fun _ => future)
      let collects := future || blockAllocates collections thenBody
      let plan := plan.enter thenBody.id ((branches \ yes.live).filter fun _ => collects)
      let plan := plan.enter elseBody.id
        ((branches \ no.live).filter fun _ => future || blockAllocates collections elseBody)
      planExpression rounds collections condition branches targets no.definitions
        (collects || blockAllocates collections elseBody) plan
  | .matching id value arms, live, targets, definitions, future, plan => do
      let plan := plan.restore collections (.matching id value arms) live
      let branches ← planArms rounds collections arms live targets definitions future plan
      planExpression rounds collections value branches.live targets branches.definitions
        (future || branches.collecting) (branches.plan.enterAll branches.live branches.incoming)

/-- The operands of an operation, from the last to the first. -/
def planOperands (rounds : Nat) (collections : Collections) :
    List Expr → Live → Targets → Live → Bool → Plan → Option Planned
  | [], live, _, definitions, _, plan => some ⟨live, definitions, plan⟩
  | value :: rest, live, targets, definitions, future, plan => do
      let later ← planOperands rounds collections rest live targets definitions future plan
      planExpression rounds collections value later.live targets later.definitions
        (future || anyAllocates collections rest) later.plan

def planArms (rounds : Nat) (collections : Collections) :
    List Arm → Live → Targets → Live → Bool → Plan → Option Branches
  | [], _, _, definitions, _, plan => some ⟨∅, false, [], definitions, plan⟩
  | .mk variant bindings whole body :: rest, live, targets, definitions, future, plan => do
      let before ← planBlock rounds collections body live targets definitions future plan
      let stored := (Arm.mk variant bindings whole body).stored.toFinset
      let collects := future || blockAllocates collections body
      let others ← planArms rounds collections rest live targets (before.definitions ∪ stored)
        future before.plan
      some {
        -- the bindings are stored before the body is entered
        live := (before.live \ stored) ∪ others.live
        collecting := collects || others.collecting
        incoming := (body.id, before.live, collects) :: others.incoming
        definitions := others.definitions
        plan := others.plan }

def planBlock (rounds : Nat) (collections : Collections) :
    Block → Live → Targets → Live → Bool → Plan → Option Planned
  | .mk _ statements none, live, targets, definitions, future, plan => do
      let (planned, _) ← planStatements rounds collections statements live targets definitions
        future plan
      some planned
  | .mk _ statements (some tail), live, targets, definitions, future, plan => do
      let last ← planExpression rounds collections tail live targets definitions future plan
      let (planned, _) ← planStatements rounds collections statements last.live targets
        last.definitions (future || mayAllocate collections tail) last.plan
      some planned

/-- The statements of a block, from the last to the first. -/
def planStatements (rounds : Nat) (collections : Collections) :
    List Stmt → Live → Targets → Live → Bool → Plan → Option (Planned × Bool)
  | [], live, _, definitions, future, plan => some (⟨live, definitions, plan⟩, future)
  | statement :: rest, live, targets, definitions, future, plan => do
      let (later, future) ← planStatements rounds collections rest live targets definitions future
        plan
      planStatement rounds collections statement later.live targets later.definitions future
        later.plan

def planStatement (rounds : Nat) (collections : Collections) :
    Stmt → Live → Targets → Live → Bool → Plan → Option (Planned × Bool)
  | .assign id slot value, live, targets, definitions, future, plan => do
      let planned ← planExpression rounds collections value (live.erase slot) targets {slot} future
        plan
      some (planned.finish id live future definitions, future || mayAllocate collections value)
  | .evaluate id value, live, targets, definitions, future, plan => do
      let planned ← planExpression rounds collections value live targets ∅ future plan
      some (planned.finish id live future definitions, future || mayAllocate collections value)
  | .return id none, live, _, definitions, future, plan =>
      some (Planned.finish ⟨∅, ∅, plan⟩ id live future definitions, false)
  | .return id (some value), live, targets, definitions, future, plan => do
      let planned ← planExpression rounds collections value ∅ targets ∅ false plan
      some (planned.finish id live future definitions, mayAllocate collections value)
  | .while id condition body, live, targets, definitions, future, plan => do
      let collects :=
        future || mayAllocate collections condition || blockAllocates collections body
      let (head, before, written, plan) ← settle (fun head (written, plan) => do
        let inner ← planBlock rounds collections body head (some (live, head)) written collects plan
        let outer ← planExpression rounds collections condition (live ∪ inner.live) targets
          inner.definitions collects inner.plan
        some (outer.live, inner.live, outer.definitions, outer.plan)) rounds ∅ (∅, plan)
      let plan := plan.enter body.id ((head \ before).filter fun _ => collects)
      some (Planned.finish ⟨head, written, plan⟩ id live future definitions, collects)
  | .break id, live, targets, definitions, future, plan =>
      some (Planned.finish ⟨exits targets, ∅, plan⟩ id live future definitions, true)
  | .continue id, live, targets, definitions, future, plan =>
      some (Planned.finish ⟨heads targets, ∅, plan⟩ id live future definitions, true)
  -- these bodies run on their own; what they capture is pinned
  | .cleanup id body, live, _, definitions, future, plan =>
      some (Planned.finish ⟨live, ∅, plan⟩ id live future definitions,
        future || blockAllocates collections body)
  | .defer id, live, _, definitions, future, plan =>
      some (Planned.finish ⟨live, ∅, plan⟩ id live future definitions, future)
end

def Plan.new (rounds : Nat) (block : Block) (parameters : Nat) (pinned : Live)
    (collections : Collections) : Option Plan := do
  let empty : Plan :=
    { entries := fun _ => none, retired := fun _ => none, expressions := fun _ => none
      restores := fun _ => none, pinned := pinned }
  let before ← planBlock rounds collections block ∅ none ∅ collections.shared empty
  some (before.plan.enter block.id ((Finset.range parameters).filter fun id =>
    blockAllocates collections block ∧ id ∉ before.live))

end Loom.Codegen

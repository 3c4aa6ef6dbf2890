import Mathlib.Logic.Function.Basic
import Loom.Library.Threaded
import Loom.Checking.Patterns

/-
  The decision of a match, from the matrix of its arms.

  A row holds the patterns still to be tested, one for each decision local, and
  the bindings already decided. `Decision` keeps the shapes of expression that
  `pattern_decision` builds. Recursion depth is counted downwards: `room` is
  64 less the depth, and there is no step where no room is left.

  Correspondence (loom ↔ Lean), where names differ:
    `pattern_step`, `pattern_local` ↔ `patternStep`, `patternLocals`
    `pattern_guards.guard_view` ↔ `guardView`, and the locals a
      guard reads in `Decision.run`
    `pattern_guards.guarded_leaf` ↔ `guardedLeaf`
    `pattern_decision` ↔ `patternLevel`, `patternDecision`
    `nested_match` ↔ `nestedMatch` (its arms checked)
-/

namespace Loom.Checking.Matching

/-! ## Expressions and decisions -/

/-- A decision local and its type. -/
structure Slot where
  index : Nat
  ty : Nat

/-- The expressions that bindings and receivers are made of. -/
inductive Expr where
  | slot (source : Slot)
  | field (ty index : Nat) (receiver : Expr)
  | coerce (ty : Nat) (value : Expr)
  /-- a record or tuple; each field is initialised by its own node -/
  | record (ty : Nat) (fields : List Expr)
  | variant (ty tag : Nat) (payload : List Expr)

def Expr.ty : Expr → Nat
  | .slot source => source.ty
  | .field ty _ _ => ty
  | .coerce ty _ => ty
  | .record ty _ => ty
  | .variant ty _ _ => ty

/-- `let name = value` -/
structure Let where
  name : Nat
  value : Expr

mutual
inductive Decision where
  /-- the body of an arm -/
  | body (arm : Nat)
  | block (lets : List Let) (rest : Decision)
  /-- if the guard of the arm, reading these bindings ahead of their transfer -/
  | guarded (arm : Nat) (transfers : List Let) (yes no : Decision)
  | matching (receiver : Expr) (arms : List DecisionArm)
  /-- if the operand equals the literal -/
  | equals (operand : Expr) (key : Literal) (yes no : Decision)

inductive DecisionArm where
  | mk (tag : Nat) (bindings : List Slot) (body : Decision)
end

/-! ## Planning -/

inductive MatchError where
  | exhausted
  | nonExhaustive
  | unreachable (arm : Nat)
  deriving DecidableEq

def MatchError.message : MatchError → String
  | .exhausted => "pattern decision budget exhausted"
  | .nonExhaustive => "non-exhaustive match"
  | .unreachable _ => "unreachable match arm"

/-- What planning changes: the steps left, the arms in use, and how many
locals the function has. -/
structure PatternPlan where
  budget : Nat
  used : List Bool
  locals : Nat
  bounded : budget ≤ 4096

abbrev Planner := Threaded PatternPlan MatchError

def patternStep (room : Nat) : Planner Unit := do
  let plan ← get
  if room = 0 ∨ plan.budget = 0 then
    throw .exhausted
  else
    set { plan with budget := plan.budget - 1, bounded := Nat.le_trans (Nat.sub_le _ 1) plan.bounded }

def freshSlots : Nat → List Nat → List Slot
  | _, [] => []
  | index, ty :: types => ⟨index, ty⟩ :: freshSlots (index + 1) types

/-- New locals of the given types. -/
def patternLocals (types : List Nat) : Planner (List Slot) := do
  let plan ← get
  set { plan with locals := plan.locals + types.length }
  return freshSlots plan.locals types

structure PatternRow where
  patterns : List CheckedPattern
  bindings : List Let
  guard : Option Guard
  arm : Nat

/-- The constructor a column is specialised to; `remainder` is the rest of a
scalar domain. -/
inductive Head where
  | product
  | variant (tag : Nat)
  | literal (key : Literal)
  | remainder
  deriving DecidableEq

section Planning

variable (env : Environment) (borrowed : Bool)

mutual
/-- Whole bindings are deferred until a row is selected. If a containing value
was decomposed along this path, rebuild it from the payloads. -/
def patternReplace (index : Nat) (replacement : Expr) : Expr → Nat → Planner Expr
  | .slot source, room => do
      patternStep room
      return if source.index = index then replacement else .slot source
  | .field ty position receiver, room => do
      patternStep room
      return .field ty position (← patternReplace index replacement receiver (room - 1))
  | .coerce ty value, room => do
      patternStep room
      return .coerce ty (← patternReplace index replacement value (room - 1))
  | .record ty fields, room => do
      patternStep room
      return .record ty (← replaceFields index replacement fields (room - 1))
  | .variant ty tag payload, room => do
      patternStep room
      return .variant ty tag (← replacePayload index replacement payload (room - 1))

/-- Under each initialiser of a record. -/
def replaceFields (index : Nat) (replacement : Expr) : List Expr → Nat → Planner (List Expr)
  | [], _ => return []
  | value :: values, room => do
      patternStep room
      let value ← patternReplace index replacement value (room - 1)
      return value :: (← replaceFields index replacement values room)

def replacePayload (index : Nat) (replacement : Expr) : List Expr → Nat → Planner (List Expr)
  | [], _ => return []
  | value :: values, room => do
      let value ← patternReplace index replacement value room
      return value :: (← replacePayload index replacement values room)
end

/-- `pattern_replace` over the bindings of a row; a borrowed subject is never
decomposed. -/
def replaceBindings (index : Nat) (replacement : Expr) : List Let → Nat → Planner (List Let)
  | [], _ => return []
  | binding :: bindings, room =>
      if borrowed then
        return binding :: bindings
      else do
        patternStep room
        let value ← patternReplace index replacement binding.value (room - 1)
        return ⟨binding.name, value⟩ :: (← replaceBindings index replacement bindings room)

def Head.selects (head : Head) : CheckedPattern → Bool
  | .wildcard _ => true
  | .literal key => head = .literal key
  | .product _ => head = .product
  | .variant tag _ => head = .variant tag

def CheckedPattern.irrefutable : CheckedPattern → Bool
  | .wildcard _ => true
  | _ => false

/-- The columns a pattern becomes once its constructor is known. -/
def expand (fields : List Slot) : CheckedPattern → List CheckedPattern
  | .wildcard _ => fields.map fun _ => .wildcard none
  | .literal _ => []
  | .product children => children
  | .variant _ children => children

/-- What a binding pattern binds the whole value to. -/
def wholeBinding (value : Expr) : CheckedPattern → List Let
  | .wildcard (some name) => [⟨name, value⟩]
  | _ => []

/-- The list with the element at a column replaced by others. -/
def patternSlots {α : Type} (values : List α) (column : Nat) (fields : List α) : List α :=
  values.take column ++ fields ++ values.drop (column + 1)

def patternRows (column : Nat) (head : Head) (value : Slot) (fields : List Slot) (rebuilt : Expr)
    (room : Nat) : List PatternRow → Planner (List PatternRow)
  | [] => return []
  | row :: rows => do
      patternStep room
      let pattern := row.patterns.getD column (.wildcard none)
      if head.selects pattern then
        let bindings ← replaceBindings borrowed value.index rebuilt row.bindings (room - 1)
        let selected : PatternRow :=
          { row with
            patterns := patternSlots row.patterns column (expand fields pattern)
            bindings := bindings ++ wholeBinding rebuilt pattern }
        return selected :: (← patternRows column head value fields rebuilt room rows)
      else
        patternRows column head value fields rebuilt room rows

/-- The bindings of a row whose remaining columns are irrefutable; its arm is
now in use. -/
def patternBindings (row : PatternRow) (values : List Slot) : Planner (List Let) := do
  let plan ← get
  set { plan with used := plan.used.set row.arm true }
  return row.bindings ++
    (List.zipWith (fun pattern value => wholeBinding (.slot value) pattern) row.patterns values).flatten

mutual
/-- The walk that lets a guard read bindings ahead of their transfer. -/
def guardView : Guard → Nat → Planner Unit
  | .node children, room => do
      patternStep room
      guardViews children (room - 1)

def guardViews : List Guard → Nat → Planner Unit
  | [], _ => return ()
  | guard :: guards, room => do
      guardView guard room
      guardViews guards room
end

/-- A failed guard must leave candidate tasks to the next arm: bindings that
may hold a task are made only once the guard has succeeded. -/
def guardedLeaf (row : PatternRow) (guard : Guard) (bindings : List Let) (fallback : Decision)
    (room : Nat) : Planner Decision := do
  let before := bindings.filter fun binding => !env.taskValue binding.value.ty
  let transfers := bindings.filter fun binding => env.taskValue binding.value.ty
  if transfers.isEmpty then
    return .block before (.guarded row.arm transfers (.block transfers (.body row.arm)) fallback)
  else do
    guardView guard room
    return .block before (.guarded row.arm transfers (.block transfers (.body row.arm)) fallback)

/-- The literal keys of a column, in the order they first occur. -/
def literalKeys (column room : Nat) : List PatternRow → List Literal → Planner (List Literal)
  | [], keys => return keys
  | row :: rows, keys => do
      patternStep room
      match row.patterns.getD column (.wildcard none) with
      | .literal key => do
          keys.forM fun _ => patternStep room
          literalKeys column room rows (if key ∈ keys then keys else keys ++ [key])
      | _ => literalKeys column room rows keys

/-- The tests of the keys in order, each before the next. -/
def literalTests (rows : List PatternRow) (values : List Slot) (column : Nat) (value : Slot)
    (operand : Expr) (room : Nat) (decide : List PatternRow → List Slot → Planner Decision)
    (fallback : Decision) : List Literal → Planner Decision
  | [] => return fallback
  | key :: keys => do
      let no ← literalTests rows values column value operand room decide fallback keys
      let selected ← patternRows borrowed column (.literal key) value [] (.slot value) room rows
      let yes ← decide selected (patternSlots values column [])
      return .equals operand key yes no

/-- Bool has exactly two cases. Every other scalar has a remainder domain,
including NaN for Float; finite literal lists cannot discharge it. -/
def literalDecision (rows : List PatternRow) (values : List Slot) (column : Nat) (value : Slot)
    (room : Nat) (decide : List PatternRow → List Slot → Planner Decision) : Planner Decision := do
  let boolean := env.shape (env.base value.ty) = .bool
  let keys ← if boolean then pure [.boolean true] else literalKeys column room rows []
  let head := if boolean then .literal (.boolean false) else .remainder
  let fallback ← patternRows borrowed column head value [] (.slot value) (room - 1) rows
  let body ← decide fallback (patternSlots values column [])
  literalTests borrowed rows values column value (.coerce (env.base value.ty) (.slot value))
    (room - 1) decide body keys

def variantArms (rows : List PatternRow) (values : List Slot) (column : Nat) (value : Slot)
    (reconstruct : Bool) (room : Nat) (decide : List PatternRow → List Slot → Planner Decision) :
    Nat → List (List Nat) → Planner (List DecisionArm)
  | _, [] => return []
  | tag, types :: variants => do
      let fields ← patternLocals types
      let rebuilt : Expr :=
        if reconstruct then .variant (env.base value.ty) tag (fields.map .slot) else .slot value
      let selected ← patternRows borrowed column (.variant tag) value fields rebuilt room rows
      let body ← decide selected (patternSlots values column fields)
      return .mk tag fields body ::
        (← variantArms rows values column value reconstruct room decide (tag + 1) variants)

/-- The initialisers of the fields of a product, from `index` on. -/
def projections (receiver : Expr) : Nat → List Slot → List Let
  | _, [] => []
  | index, slot :: slots =>
      ⟨slot.index, .field slot.ty index receiver⟩ :: projections receiver (index + 1) slots

def productBlock (rows : List PatternRow) (values : List Slot) (column : Nat) (value : Slot)
    (receiver : Expr) (reconstruct : Bool) (room : Nat)
    (decide : List PatternRow → List Slot → Planner Decision) (types : List Nat) :
    Planner Decision := do
  let fields ← patternLocals types
  let rebuilt : Expr :=
    if reconstruct then .record (env.base value.ty) (fields.map .slot) else .slot value
  let selected ← patternRows borrowed column .product value fields rebuilt room rows
  let body ← decide selected (patternSlots values column fields)
  return .block (projections receiver 0 fields) body

/-- Split a column on the constructors of its type. -/
def patternSplit (room : Nat) (next deeper : List PatternRow → List Slot → Planner Decision)
    (rows : List PatternRow) (values : List Slot) (column : Nat) (value : Slot) :
    CheckedPattern → Planner Decision
  | .literal _ => literalDecision env borrowed rows values column value (room - 1) deeper
  | _ =>
      let base := env.base value.ty
      let receiver : Expr := if base = value.ty then .slot value else .coerce base (.slot value)
      let reconstruct := !borrowed && base = value.ty
      match env.shape base with
      | .product types =>
          productBlock env borrowed rows values column value receiver reconstruct (room - 1) next types
      | .enum variants =>
          if variants.isEmpty then
            throw .nonExhaustive
          else do
            let arms ← variantArms env borrowed rows values column value reconstruct (room - 1) next 0
              variants
            return .matching receiver arms
      | _ => throw .nonExhaustive

/-- The row is taken: its arm runs, or its guard decides between that and the
rows that follow. -/
def patternLeaf (room : Nat) (next : List PatternRow → List Slot → Planner Decision)
    (first : PatternRow) (rest : List PatternRow) (values : List Slot) : Planner Decision := do
  let bindings ← patternBindings first values
  match first.guard with
  | none => return .block bindings (.body first.arm)
  | some guard => do
      let fallback ← next rest values
      guardedLeaf env first guard bindings fallback (room - 1)

/-- One level of the decision. `next` decides one level further down and
`deeper` two levels. The first row wins when all its remaining columns are
irrefutable. Otherwise split one of that row's constructor columns. -/
def patternLevel (room : Nat) (next deeper : List PatternRow → List Slot → Planner Decision)
    (rows : List PatternRow) (values : List Slot) : Planner Decision := do
  patternStep room
  match rows with
  | [] => throw .nonExhaustive
  | first :: rest =>
      let column := first.patterns.findIdx (!·.irrefutable)
      match first.patterns[column]?, values[column]? with
      | some pattern, some value =>
          patternSplit env borrowed room next deeper rows values column value pattern
      | _, _ => patternLeaf env room next first rest values

def patternDecision : Nat → List PatternRow → List Slot → Planner Decision
  | 0, _, _ => throw .exhausted
  | 1, rows, values =>
      patternLevel env borrowed 1 (fun _ _ => throw .exhausted) (fun _ _ => throw .exhausted)
        rows values
  | room + 2, rows, values =>
      patternLevel env borrowed (room + 2) (patternDecision (room + 1)) (patternDecision room)
        rows values

end Planning

def matchRows : Nat → List Arm → List PatternRow
  | _, [] => []
  | index, arm :: arms =>
      { patterns := [arm.pattern], bindings := [], guard := arm.guard, arm := index } ::
        matchRows (index + 1) arms

/-- A planned match: the local that saves the subject, and the decision. -/
structure NestedMatch where
  saved : Slot
  decision : Decision

/-- Decide a match over a subject of type `ty` in a function that has `locals`
locals once the arms have been checked. -/
def nestedMatch (env : Environment) (borrowed : Bool) (ty : Nat) (arms : List Arm)
    (locals : Nat) : Except MatchError NestedMatch := do
  let plan : PatternPlan :=
    { budget := 4096, used := arms.map fun _ => false, locals := locals + 1, bounded := Nat.le_refl _ }
  let saved : Slot := ⟨locals, ty⟩
  let (decision, plan) ← patternDecision env borrowed 64 (matchRows 0 arms) [saved] plan
  match plan.used.findIdx? (!·) with
  | some arm => throw (.unreachable arm)
  | none => return ⟨saved, decision⟩

/-! ## Running a decision -/

mutual
/-- The value of an expression, if it has one. -/
def Expr.eval (locals : Locals) : Expr → Option Value
  | .slot source => locals source.index
  | .field _ index receiver =>
      match Expr.eval locals receiver with
      | some (.product fields) => fields[index]?
      | _ => none
  | .coerce _ value => Expr.eval locals value
  | .record _ fields => (Expr.evalAll locals fields).map .product
  | .variant _ tag payload => (Expr.evalAll locals payload).map (.variant tag)

def Expr.evalAll (locals : Locals) : List Expr → Option (List Value)
  | [] => some []
  | value :: values =>
      match Expr.eval locals value, Expr.evalAll locals values with
      | some first, some rest => some (first :: rest)
      | _, _ => none
end

def enter : Locals → List Let → Locals
  | locals, [] => locals
  | locals, binding :: bindings =>
      enter (Function.update locals binding.name (binding.value.eval locals)) bindings

/-- The locals of a match arm hold the payload. -/
def receive : Locals → List Slot → List Value → Locals
  | locals, slot :: slots, value :: values =>
      receive (Function.update locals slot.index (some value)) slots values
  | locals, _, _ => locals

/-- The locals in the scope of an arm. -/
def restrict (scope : List Nat) (locals : Locals) : Locals :=
  fun name => if name ∈ scope then locals name else none

section Running

variable {m : Type → Type} [Monad m] {β : Type}
variable (scope : Nat → List Nat) (guard : Nat → Locals → m Bool) (body : Nat → Locals → m β)
variable (stuck : m β)

mutual
/-- Run a decision. The body and the guard of an arm read the locals of its
pattern; `stuck` is a match no arm of the decision takes. -/
def Decision.run : Decision → Locals → m β
  | .body arm, locals => body arm (restrict (scope arm) locals)
  | .block lets rest, locals => Decision.run rest (enter locals lets)
  | .guarded arm transfers yes no, locals => do
      if ← guard arm (restrict (scope arm) (enter locals transfers)) then
        Decision.run yes locals
      else
        Decision.run no locals
  | .matching receiver arms, locals =>
      match receiver.eval locals with
      | some (.variant tag payload) => Decision.runArms arms tag payload locals
      | _ => stuck
  | .equals operand key yes no, locals =>
      match operand.eval locals with
      | some value => if key.equals value then Decision.run yes locals else Decision.run no locals
      | none => stuck

def Decision.runArms : List DecisionArm → Nat → List Value → Locals → m β
  | [], _, _, _ => stuck
  | .mk other bindings rest :: arms, tag, payload, locals =>
      if other = tag then
        Decision.run rest (receive locals bindings payload)
      else
        Decision.runArms arms tag payload locals
end

/-- Run a match on a subject: save it, then decide. The scope of an arm is what
its pattern binds. -/
def NestedMatch.run (planned : NestedMatch) (arms : List Arm) (outer : Locals) (value : Value) :
    m β :=
  planned.decision.run (fun arm => (arms.map (·.pattern.names)).getD arm []) guard body stuck
    (Function.update outer planned.saved.index (some value))

end Running

end Loom.Checking.Matching

import Loom.Checking.IncrementalCodec

/-
  State graphs of lowered coroutines.

  An async body is cut at its suspensions into states. A state runs the values
  in its code, then the value its exit asks for, and leaves along one of its
  edges; a state that waits or parks may also give up its thread, and starts
  over when it is resumed.

  Correspondence (typed/model.loom, lowering/model.loom ↔ Lean), where names differ:
    `Expr`, `Arm`, `Local` ↔ the same; spans and what of a local is not a type left out
    `Exit`, `Edge`, `State`, `Graph` ↔ the same; the graph's functions and types left out
    `node`, `changed`, `labeled`, … , `operation` ↔ the same
    what `finish` and `selection` build ↔ `State.shaped`
    the children that each kind has ↔ `Expr.wellFormed`
-/

namespace Loom.Lowering

open IncrementalCache (ExprKind)

/-! ## Checked values -/

mutual

inductive Expr where
  | mk (kind : ExprKind) (ty : Int) (text : String) (index : Int) (children : List Expr)
      (arms : List Arm) (falls : Bool)

inductive Arm where
  | mk (variant : Int) (bindings : List Int) (whole : Int) (body : List Expr)

end

def Expr.kind : Expr → ExprKind
  | .mk kind _ _ _ _ _ _ => kind

def Expr.children : Expr → List Expr
  | .mk _ _ _ _ children _ _ => children

/-- The locals an arm binds: the fields it names, and the whole value. -/
def Arm.bound : Arm → List Int
  | .mk _ bindings whole _ => if 0 ≤ whole then bindings ++ [whole] else bindings

def node (kind : ExprKind) (ty index : Int) (children : List Expr) : Expr :=
  .mk kind ty "" index children [] true

def changed (value : Expr) (text : String) (children : List Expr) (falls : Bool) : Expr :=
  match value with
  | .mk kind ty _ index _ arms _ => .mk kind ty text index children arms falls

def labeled (value : Expr) (text : String) : Expr :=
  match value with
  | .mk kind ty _ index children arms falls => .mk kind ty text index children arms falls

def nonfall (value : Expr) : Expr :=
  match value with
  | .mk kind ty text index children arms _ => .mk kind ty text index children arms false

def empty : Expr := node .block 0 (-1) []

def integer (value : Int) : Expr := labeled (node .integer 1 (-1) []) (toString value)

def boolean (value : Bool) : Expr :=
  labeled (node .bool 2 (-1) []) (if value then "true" else "false")

def block (values : List Expr) (ty : Int) (falls : Bool) : Expr :=
  changed (node .block ty (-1) values) "" values falls

def operation (name : String) (ty : Int) (values : List Expr) : Expr :=
  labeled (node .intrinsic ty (-1) values) name

/-! ## Graphs -/

inductive Exit where
  | unreachable | jump | branch | select | wait | park | complete
  deriving DecidableEq

/-- The exits at which a coroutine may give up its thread. -/
def Exit.suspends (exit : Exit) : Bool := exit = .wait || exit = .park

structure Edge where
  target : Int
  bindings : List Int

structure State where
  code : List Expr
  exit : Exit
  value : Expr
  edges : List Edge
  arms : List Arm

structure Local where
  ty : Int

structure Graph where
  states : List State
  locals : List Local
  result : Int

/-! ## What the lowering builds -/

/-- Whether the second operand may stay unevaluated. -/
def shortCircuits (kind : ExprKind) (text : String) : Bool :=
  kind = .binary && (text = "&&" || text = "||")

/-- The index of a value that reads or writes a local names one of `count`
locals, and the values that are not simply run in order have their children.
Awaits and suspensions are gone. -/
def wellShaped (count : Nat) (kind : ExprKind) (text : String) (index : Int)
    (children : List Expr) : Bool :=
  if kind = .localRead || kind = .letIn || kind = .assign then 0 ≤ index && index < count
  else if kind = .ifElse then children.length = 2 || children.length = 3
  else if shortCircuits kind text || kind = .whileLoop then children.length = 2
  else if kind = .defer || kind = .cleanup then children.length = 1
  else kind ≠ .await && kind ≠ .suspend

mutual

def Expr.wellFormed (count : Nat) : Expr → Bool
  | .mk kind _ text index children arms _ =>
    wellShaped count kind text index children && allWellFormed count children &&
      armsWellFormed count arms

def allWellFormed (count : Nat) : List Expr → Bool
  | [] => true
  | value :: rest => value.wellFormed count && allWellFormed count rest

def armsWellFormed (count : Nat) : List Arm → Bool
  | [] => true
  | .mk _ bindings whole body :: rest =>
    bindings.all (fun id => id < count) && whole < count && allWellFormed count body &&
      armsWellFormed count rest

end

theorem allWellFormed_iff {count : Nat} {values : List Expr} :
    allWellFormed count values = true ↔ ∀ value ∈ values, value.wellFormed count = true := by
  induction values with
  | nil => simp [allWellFormed]
  | cons value rest ih => simp [allWellFormed, ih]

mutual

/-- Whether the value leaves the state that runs it. A cleanup body has its own
control boundary. -/
def Expr.leaves : Expr → Bool
  | .mk kind _ _ _ children arms _ =>
    if kind = .returns || kind = .breaks || kind = .continues then true
    else if kind = .defer || kind = .cleanup then false
    else anyLeaves children || armsLeave arms

def anyLeaves : List Expr → Bool
  | [] => false
  | value :: rest => value.leaves || anyLeaves rest

def armsLeave : List Arm → Bool
  | [] => false
  | .mk _ _ _ body :: rest => anyLeaves body || armsLeave rest

end

/-- The edges each exit has, with what they bind. -/
def State.shaped (state : State) : Bool :=
  match state.exit with
  | .unreachable | .complete => state.edges.isEmpty
  | .jump | .wait | .park => state.edges.map Edge.bindings = [[]]
  | .branch => state.edges.map Edge.bindings = [[], []]
  | .select => state.edges.map Edge.bindings = state.arms.map Arm.bound

structure State.Lowered (graph : Graph) (state : State) : Prop where
  wellFormed : ∀ value ∈ state.value :: state.code, value.wellFormed graph.locals.length = true
  stays : ∀ value ∈ state.value :: state.code, value.leaves = false
  shaped : state.shaped = true
  targets : ∀ edge ∈ state.edges, 0 ≤ edge.target ∧ edge.target < graph.states.length
  bindings : ∀ edge ∈ state.edges, ∀ id ∈ edge.bindings, id < graph.locals.length

def Graph.Lowered (graph : Graph) : Prop := ∀ state ∈ graph.states, state.Lowered graph

end Loom.Lowering

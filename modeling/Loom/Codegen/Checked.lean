import Mathlib.Data.Finset.Basic

/-
  Checked bodies as the native code generator walks them, and the question
  whether evaluating a part of one may collect.

  Every expression, statement and block carries a name in place of its
  address. The expressions that only evaluate their operands from left to right
  and then perform an operation are one constructor; `Operation` keeps their
  kinds, and the operands are in evaluation order (the frame of a frame store
  before the value, a callee before its arguments). Of the binary operations
  only `&&` and `||` do not evaluate both operands.

  Correspondence (rust ↔ Lean), where names differ:
    `checked::Expr`, `Block`, `Stmt`, `MatchArm` ↔ `Expr`, `Block`, `Stmt`, `Arm`
    `StmtKind::Let`, `StmtKind::Assign` ↔ `Stmt.assign`
    `StmtKind::Assert`, `Discard`, `Expr` ↔ `Stmt.evaluate`
-/

namespace Loom.Codegen

inductive Ty where
  | int | float | bool | text | bytes | unit
  | list (element : Nat)
  | dyn (interface : Nat)
  | function (signature : Nat)
  | data (declaration : Nat)
  | parameter (index : Nat)
  deriving DecidableEq

/-- Whether values of the type hold no managed reference. -/
def Ty.isScalar : Ty → Bool
  | .unit | .int | .bool | .float => true
  | _ => false

inductive Literal where
  | int | float | bool | text | bytes | functionRef
  deriving DecidableEq

inductive Operation where
  | unary | coerce | closure | dynBox | binary
  | call (target : Nat)
  | primitive (operation : Nat)
  | list | variant | indirectCall | dynCall | record | frameNew | frameStore
  deriving DecidableEq

mutual
inductive Expr where
  | literal (id : Nat) (value : Literal)
  | local (id : Nat) (ty : Ty) (slot : Nat)
  | field (id : Nat) (receiver : Expr) (index : Nat)
  | operation (id : Nat) (operation : Operation) (operands : List Expr)
  /-- `&&` and `||` -/
  | shortCircuit (id : Nat) (left right : Expr)
  | block (id : Nat) (body : Block)
  | conditional (id : Nat) (condition : Expr) (thenBody : Block) (elseBody : Option Block)
  | matching (id : Nat) (value : Expr) (arms : List Arm)

inductive Arm where
  | mk (variant : Option Nat) (bindings : List (Option Nat)) (whole : Option Nat) (body : Block)

inductive Block where
  | mk (id : Nat) (statements : List Stmt) (tail : Option Expr)

inductive Stmt where
  | assign (id : Nat) (slot : Nat) (value : Expr)
  | evaluate (id : Nat) (value : Expr)
  | return (id : Nat) (value : Option Expr)
  | while (id : Nat) (condition : Expr) (body : Block)
  | break (id : Nat)
  | continue (id : Nat)
  | cleanup (id : Nat) (body : Block)
  | defer (id : Nat)
end

def Expr.id : Expr → Nat
  | .literal id _ | .local id _ _ | .field id _ _ | .operation id _ _ | .shortCircuit id _ _
  | .block id _ | .conditional id _ _ _ | .matching id _ _ => id

def Stmt.id : Stmt → Nat
  | .assign id _ _ | .evaluate id _ | .return id _ | .while id _ _ | .break id | .continue id
  | .cleanup id _ | .defer id => id

def Block.id : Block → Nat
  | .mk id _ _ => id

def Arm.body : Arm → Block
  | .mk _ _ _ body => body

/-- The slots an arm stores before its body: the whole value, then the parts. -/
def Arm.stored : Arm → List Nat
  | .mk _ bindings whole _ => (whole :: bindings).filterMap fun binding => binding

/-- The local a chain of field projections starts from. -/
def fieldLocal : Expr → Option Nat
  | .local _ _ slot => some slot
  | .field _ receiver _ => fieldLocal receiver
  | _ => none

/-! ## Allocation -/

/-- What the generator knows about the program: the functions that allocate,
the runtime operations that do, and whether the heap is shared. -/
structure Collections where
  allocating : Nat → Bool
  allocates : Nat → Bool
  shared : Bool

/-- Whether the operation itself, after its operands, may allocate. -/
def Operation.collects (collections : Collections) : Operation → Bool
  | .dynBox | .dynCall | .list | .indirectCall | .frameNew => true
  | .call target => collections.allocating target
  | .primitive operation => collections.allocates operation
  | .unary | .coerce | .closure | .binary | .variant | .record | .frameStore => false

mutual
def mayAllocate (collections : Collections) : Expr → Bool
  | .literal _ value => collections.shared || value = .bytes
  | .local _ _ _ => collections.shared
  | .field _ receiver _ => collections.shared || mayAllocate collections receiver
  | .operation _ operation operands =>
      collections.shared || operation.collects collections ||
        anyAllocates collections operands
  | .shortCircuit _ left right =>
      collections.shared || mayAllocate collections left || mayAllocate collections right
  | .block _ body => collections.shared || blockAllocates collections body
  | .conditional _ condition thenBody none =>
      collections.shared || mayAllocate collections condition ||
        blockAllocates collections thenBody
  | .conditional _ condition thenBody (some elseBody) =>
      collections.shared || mayAllocate collections condition ||
        blockAllocates collections thenBody || blockAllocates collections elseBody
  | .matching _ value arms =>
      collections.shared || mayAllocate collections value || armsAllocate collections arms

def anyAllocates (collections : Collections) : List Expr → Bool
  | [] => false
  | value :: rest => mayAllocate collections value || anyAllocates collections rest

def armsAllocate (collections : Collections) : List Arm → Bool
  | [] => false
  | .mk _ _ _ body :: rest => blockAllocates collections body || armsAllocate collections rest

def blockAllocates (collections : Collections) : Block → Bool
  | .mk _ statements none => statementsAllocate collections statements
  | .mk _ statements (some tail) =>
      statementsAllocate collections statements || mayAllocate collections tail

def statementsAllocate (collections : Collections) : List Stmt → Bool
  | [] => false
  | statement :: rest =>
      statementAllocates collections statement || statementsAllocate collections rest

def statementAllocates (collections : Collections) : Stmt → Bool
  | .assign _ _ value | .evaluate _ value | .return _ (some value) =>
      mayAllocate collections value
  | .while _ condition body =>
      mayAllocate collections condition || blockAllocates collections body
  | .cleanup _ body => blockAllocates collections body
  | .return _ none | .break _ | .continue _ | .defer _ => false
end

/-! ## The slots and the names of a body -/

mutual
/-- The slots an expression may read. -/
def slots : Expr → Finset Nat
  | .literal _ _ => ∅
  | .local _ _ slot => {slot}
  | .field _ receiver _ => slots receiver
  | .operation _ _ operands => operandSlots operands
  | .shortCircuit _ left right => slots left ∪ slots right
  | .block _ body => blockSlots body
  | .conditional _ condition thenBody none => slots condition ∪ blockSlots thenBody
  | .conditional _ condition thenBody (some elseBody) =>
      slots condition ∪ blockSlots thenBody ∪ blockSlots elseBody
  | .matching _ value arms => slots value ∪ armSlots arms

def operandSlots : List Expr → Finset Nat
  | [] => ∅
  | value :: rest => slots value ∪ operandSlots rest

def armSlots : List Arm → Finset Nat
  | [] => ∅
  | .mk _ _ _ body :: rest => blockSlots body ∪ armSlots rest

def blockSlots : Block → Finset Nat
  | .mk _ statements none => statementSlots statements
  | .mk _ statements (some tail) => statementSlots statements ∪ slots tail

def statementSlots : List Stmt → Finset Nat
  | [] => ∅
  | statement :: rest => stmtSlots statement ∪ statementSlots rest

def stmtSlots : Stmt → Finset Nat
  | .assign _ _ value | .evaluate _ value | .return _ (some value) => slots value
  | .while _ condition body => slots condition ∪ blockSlots body
  | .cleanup _ _ | .return _ none | .break _ | .continue _ | .defer _ => ∅
end

/-- What the planner may record about a name. -/
inductive Role where
  | retiring | value | entered | body | statement
  deriving DecidableEq

mutual
/-- The named parts of an expression with their roles: the expressions after
which slots are retired, the other expressions, the blocks at whose entry slots
are retired, the other blocks, and the statements. -/
def nodes : Expr → List (Nat × Role)
  | .literal id _ => [(id, .value)]
  | .local id _ _ => [(id, .retiring)]
  | .field id receiver _ => (id, .retiring) :: nodes receiver
  | .operation id _ operands => (id, .value) :: operandNodes operands
  | .shortCircuit id left right => (id, .retiring) :: (nodes left ++ nodes right)
  | .block id body => (id, .value) :: (body.id, .body) :: blockNodes body
  | .conditional id condition thenBody none =>
      (id, .retiring) :: (nodes condition ++ (thenBody.id, .entered) :: blockNodes thenBody)
  | .conditional id condition thenBody (some elseBody) =>
      (id, .retiring) :: (nodes condition ++ ((thenBody.id, .entered) :: blockNodes thenBody ++
        (elseBody.id, .entered) :: blockNodes elseBody))
  | .matching id value arms => (id, .value) :: (nodes value ++ (armEntries arms ++ armNodes arms))

def operandNodes : List Expr → List (Nat × Role)
  | [] => []
  | value :: rest => nodes value ++ operandNodes rest

def armEntries : List Arm → List (Nat × Role)
  | [] => []
  | .mk _ _ _ body :: rest => (body.id, .entered) :: armEntries rest

/-- The parts inside the bodies of the arms. -/
def armNodes : List Arm → List (Nat × Role)
  | [] => []
  | .mk _ _ _ body :: rest => blockNodes body ++ armNodes rest

/-- The parts inside a block; the role of the block itself is its context's. -/
def blockNodes : Block → List (Nat × Role)
  | .mk _ statements none => statementNodes statements
  | .mk _ statements (some tail) => statementNodes statements ++ nodes tail

def statementNodes : List Stmt → List (Nat × Role)
  | [] => []
  | statement :: rest => stmtNodes statement ++ statementNodes rest

def stmtNodes : Stmt → List (Nat × Role)
  | .assign id _ value | .evaluate id value | .return id (some value) =>
      (id, .statement) :: nodes value
  | .while id condition body =>
      (id, .statement) :: (nodes condition ++ (body.id, .entered) :: blockNodes body)
  | .cleanup id _ | .return id none | .break id | .continue id | .defer id => [(id, .statement)]
end

/-- A function body whose parts have different names. -/
structure Body where
  block : Block
  distinct : (((block.id, Role.entered) :: blockNodes block).map Prod.fst).Nodup

end Loom.Codegen

import Loom.Codegen.LivenessPlan
import Loom.Library.Liveness

/-
  The execution paths through a checked body, with the plan's sets at the
  places where generated code consults them.

  Operands are evaluated from left to right and a condition, an arm or the
  number of iterations may turn out any way. An expression's own operation is a
  safe point when it may allocate; it restores what the plan says. Pinned
  locals, which the generator never clears and always restores, get no
  exemption here, and cleanups run on their own.

  Correspondence (rust ↔ Lean):
    `FunctionEmitter::block_inner` ↔ `entering`, `blockPaths`, `statementPaths`, `stmtPaths`
    `FunctionEmitter::expr`, `expr_inner` ↔ `expressionPaths`
    `FunctionEmitter::operands` ↔ `operandPaths`
    `FunctionEmitter::match_expr` ↔ `armPaths`
    `FunctionEmitter::local_field_address` ↔ the first branch of a field's paths
-/

namespace Loom.Codegen

open Liveness

/-- Retire what one of the plan's maps holds under a name. -/
def retiring (map : Nat → Option Live) (id : Nat) : Paths Nat :=
  emit (.retire ((map id).getD ∅))

/-- The safe point of an expression's own operation. -/
def collecting (collections : Collections) (plan : Plan) (value : Expr) : Paths Nat :=
  if mayAllocate collections value then
    emit (.safepoint ((plan.restores value.id).getD ∅))
  else skip

/-- A block, whose entry retires what the plan says. -/
def entering (plan : Plan) (body : Block) (paths : Paths Nat) : Paths Nat :=
  andThen (retiring plan.entries body.id) paths

def storing (slots : List Nat) (rest : Paths Nat) : Paths Nat :=
  slots.foldr (fun slot paths => andThen (emit (.write slot)) paths) rest

mutual
def expressionPaths (collections : Collections) (plan : Plan) : Expr → Paths Nat
  | .literal id value =>
      andThen (collecting collections plan (.literal id value)) (retiring plan.expressions id)
  | .local id _ slot => andThen (emit (.read slot)) (retiring plan.expressions id)
  | .field id receiver index =>
      let computed := andThen (expressionPaths collections plan receiver)
        (collecting collections plan (.field id receiver index))
      let loaded :=
        match fieldLocal receiver with
        -- a field of a stack local is loaded without evaluating the receiver
        | some slot => either (emit (.read slot)) computed
        | none => computed
      andThen loaded (retiring plan.expressions id)
  | .operation id operation operands =>
      andThen (operandPaths collections plan operands)
        (andThen (collecting collections plan (.operation id operation operands))
          (retiring plan.expressions id))
  | .shortCircuit id left right =>
      andThen (expressionPaths collections plan left)
        (andThen (either skip (expressionPaths collections plan right))
          (retiring plan.expressions id))
  | .block id body =>
      andThen (entering plan body (blockPaths collections plan body))
        (retiring plan.expressions id)
  | .conditional id condition thenBody none =>
      andThen (expressionPaths collections plan condition)
        (andThen (either (entering plan thenBody (blockPaths collections plan thenBody)) skip)
          (retiring plan.expressions id))
  | .conditional id condition thenBody (some elseBody) =>
      andThen (expressionPaths collections plan condition)
        (andThen (either (entering plan thenBody (blockPaths collections plan thenBody))
          (entering plan elseBody (blockPaths collections plan elseBody)))
          (retiring plan.expressions id))
  | .matching id value arms =>
      andThen (expressionPaths collections plan value)
        (andThen (armPaths collections plan arms) (retiring plan.expressions id))

def operandPaths (collections : Collections) (plan : Plan) : List Expr → Paths Nat
  | [] => skip
  | value :: rest =>
      andThen (expressionPaths collections plan value) (operandPaths collections plan rest)

def armPaths (collections : Collections) (plan : Plan) : List Arm → Paths Nat
  | [] => fun _ _ => False
  | .mk variant bindings whole body :: rest =>
      either (storing (Arm.mk variant bindings whole body).stored
          (entering plan body (blockPaths collections plan body)))
        (armPaths collections plan rest)

def blockPaths (collections : Collections) (plan : Plan) : Block → Paths Nat
  | .mk _ statements none => statementPaths collections plan statements
  | .mk _ statements (some tail) =>
      andThen (statementPaths collections plan statements) (expressionPaths collections plan tail)

def statementPaths (collections : Collections) (plan : Plan) : List Stmt → Paths Nat
  | [] => skip
  | statement :: rest =>
      andThen (stmtPaths collections plan statement) (statementPaths collections plan rest)

def stmtPaths (collections : Collections) (plan : Plan) : Stmt → Paths Nat
  | .assign id slot value =>
      andThen (andThen (expressionPaths collections plan value) (emit (.write slot)))
        (retiring plan.retired id)
  | .evaluate id value =>
      andThen (expressionPaths collections plan value) (retiring plan.retired id)
  | .return _ none => leave .returns
  | .return _ (some value) => andThen (expressionPaths collections plan value) (leave .returns)
  | .while id condition body =>
      andThen (Loop (expressionPaths collections plan condition)
          (entering plan body (blockPaths collections plan body)))
        (retiring plan.retired id)
  | .break _ => leave .breaks
  | .continue _ => leave .continues
  | .cleanup id _ | .defer id => retiring plan.retired id
end

end Loom.Codegen

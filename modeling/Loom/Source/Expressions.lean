import Loom.Library.Decimal
import Loom.Library.Fuelled
import Loom.Library.Utf8

/-
  The parser of expressions, over the tokens of a file.

  A binary operator has a rank; `expr` reads an operand and goes on while the next operator
  ranks no lower than asked for, and reads the right operand one rank higher. A prefix
  operator takes an operand that no binary operator joins.

  Correspondence (loom ↔ Lean), where names differ:
    `at`, `word`, `next`, `newlines`, `expect` ↔ `atKind`, `word`, `next'`, `newlines`, `expect`
    `reserved`, `name`, `ellipsis`, `path` ↔ the same, the loop of `path` is `pathFrom`
    `item`, `sequence`, `parenthesized` ↔ the same, their loops `sequenceFrom`, `tupleFrom`
    `expr` and its loop, `prefix`, `fields` ↔ `expr`, `exprFrom`, `prefixExpr`, `fields`
    `named_expr`, its record loop ↔ `namedExpr`, `constructFrom`
  A cursor is the list of the tokens that are left: the last one is `Eof`, and the code goes
  on only from a token of another kind. The spans of nodes are left out. `Grammar` holds what
  reads statements (blocks, `if`, `match`, functions and `comptime`), whatever it does.
-/

namespace Loom.Expressions

open Utf8 Nat List

/-! ## Tokens and nodes -/

inductive Kind where
  | name | number | text | lParen | rParen | lBrace | rBrace | lBracket | rBracket | comma | dot
  | question | assign | arrow | plus | minus | star | slash | percent | eq | ne | lt | le | gt | ge
  | and | or | not | newline | eof | float | bitAnd | bitOr | bitXor | bitNot | shl | shr
  | semicolon | dollar
  deriving DecidableEq

structure Span where
  start : Nat
  stop : Nat
  deriving DecidableEq

/-- The kind of a token and its text. -/
structure Lexeme where
  kind : Kind
  value : String
  deriving DecidableEq

structure Token extends Lexeme where
  span : Span
  deriving DecidableEq

inductive NodeKind where
  | integer | float | text | bool | name | unary | binary | implements | tuple | tupleType | list
  | spread | select | index | invoke | methodCall | call | apply | construct | field | try | await
  | old | macroCall | macroInput | arguments | typeArguments | typeParameters | parameters
  | parameter | typePack | comptime | type | dynType | functionType | returnType | associatedType
  | other (name : String)
  deriving DecidableEq

inductive Node where
  | mk (kind : NodeKind) (value : String) (children : List Node)

def Node.kind : Node → NodeKind
  | .mk kind _ _ => kind

def Node.value : Node → String
  | .mk _ value _ => value

def Node.children : Node → List Node
  | .mk _ _ children => children

abbrev Cursor := List Token

structure Step where
  rest : Cursor
  node : Node

structure Diagnostic where
  span : Span
  message : String

inductive Stop where
  | exhausted
  | diagnostic (value : Diagnostic)

abbrev Parsed := Except Stop Step

inductive Items where
  | types | names | arguments | genericArguments | parameters | bindings
  deriving DecidableEq

/-! ## Reading tokens -/

def token (cursor : Cursor) : Token := cursor.headD ⟨⟨.eof, ""⟩, ⟨0, 0⟩⟩

def atKind (cursor : Cursor) (kind : Kind) : Bool := (token cursor).kind = kind

def word (cursor : Cursor) (value : String) : Bool :=
  atKind cursor .name && (token cursor).value = value

def next' (cursor : Cursor) : Cursor := cursor.tail

def newlines : Cursor → Cursor
  | [] => []
  | first :: rest => if first.kind = .newline then newlines rest else first :: rest

def error {α : Type} (cursor : Cursor) (message : String) : Except Stop α :=
  .error (.diagnostic ⟨(token cursor).span, message⟩)

def expect (cursor : Cursor) (kind : Kind) (label : String) : Except Stop Cursor :=
  if atKind cursor kind then .ok (next' cursor) else error cursor ("expected " ++ label)

def done (rest : Cursor) (kind : NodeKind) (value : String) (children : List Node) : Step :=
  { rest := rest, node := .mk kind value children }

def reserved (value : String) : Bool :=
  value ∈ ["fn", "pub", "intrinsic", "type", "where", "record", "enum", "match", "test", "import",
    "let", "var", "return", "assert", "discard", "while", "break", "continue", "async", "await",
    "if", "else", "requires", "ensures", "true", "false", "comptime", "defer", "scoped", "concept",
    "impl", "for", "implements", "dyn", "old"]

def name (cursor : Cursor) : Parsed :=
  if !atKind cursor .name || reserved (token cursor).value then error cursor "expected a name"
  else .ok (done (next' cursor) .name (token cursor).value [])

/-- Whether one token ends where another starts. -/
def joined (left right : Cursor) : Bool := (token left).span.stop = (token right).span.start

def ellipsis (cursor : Cursor) : Bool :=
  atKind cursor .dot && atKind (next' cursor) .dot && atKind (next' (next' cursor)) .dot &&
    joined cursor (next' cursor) && joined (next' cursor) (next' (next' cursor))

/-- The loop of `path`: every part takes two tokens. -/
def pathFrom : Nat → Cursor → String → Parsed
  | 0, _, _ => .error .exhausted
  | left + 1, rest, value =>
    if atKind rest .dot && !ellipsis rest && !atKind (next' rest) .number &&
        !word (next' rest) "await" then do
      let part ← name (next' rest)
      pathFrom left part.rest (value ++ ("." ++ part.node.value))
    else .ok (done rest .name value [])

def path (cursor : Cursor) : Parsed := do
  let first ← name cursor
  pathFrom (first.rest.length + 1) first.rest first.node.value

/-! ## Operators and literals -/

def precedence : Kind → Int
  | .or => 1
  | .and => 2
  | .eq | .ne => 3
  | .lt | .le | .gt | .ge => 4
  | .bitOr => 5
  | .bitXor => 6
  | .bitAnd => 7
  | .shl | .shr => 8
  | .plus | .minus => 9
  | .star | .slash | .percent => 10
  | _ => -1

def operator : Kind → String
  | .or => "||"
  | .and => "&&"
  | .eq => "=="
  | .ne => "!="
  | .lt => "<"
  | .le => "<="
  | .gt => ">"
  | .ge => ">="
  | .plus => "+"
  | .minus => "-"
  | .star => "*"
  | .slash => "/"
  | .percent => "%"
  | .bitAnd => "&"
  | .bitOr => "|"
  | .bitXor => "^"
  | .bitNot => "~"
  | .shl => "<<"
  | .shr => ">>"
  | _ => "!"

/-- The loop of `inIntRange`: the first difference decides. -/
def within : List UInt8 → List UInt8 → Bool
  | digit :: rest, maximum :: others =>
    if digit < maximum then true else if digit > maximum then false else within rest others
  | _, _ => true

def inIntRange (value : String) (negative : Bool) : Bool :=
  let digits := (bytes value).dropWhile (· = 48)
  if digits.length < 19 then true
  else if 19 < digits.length then false
  else within digits (bytes (if negative then "9223372036854775808" else "9223372036854775807"))

/-! ## The parser -/

/-- What reads statements. -/
structure Grammar where
  functionExpression : Nat → Cursor → Parsed
  comptimeExpr : Nat → Cursor → Parsed
  ifExpr : Nat → Cursor → Parsed
  matchExpr : Nat → Cursor → Parsed
  block : Nat → Cursor → Parsed

def opening (kind : Kind) : String := if kind = .lParen then "'('" else "'['"

def closing (kind : Kind) : String := if kind = .rParen then "')'" else "']'"

def spread (value : Step) : Step :=
  done (next' (next' (next' value.rest))) .spread "" [value.node]

def bracketArguments (node : Node) : Node := .mk .arguments "" node.children

mutual

def typeRef (g : Grammar) : Nat → Cursor → Parsed
  | 0, _ => .error .exhausted
  | fuel + 1, cursor =>
    if word cursor "type" then .ok (done (next' cursor) .type "type" [])
    else if word cursor "comptime" then g.comptimeExpr fuel cursor
    else if word cursor "fn" then functionType g fuel cursor
    else if atKind cursor .lParen then parenthesized g fuel cursor .types .tupleType
    else do
      let dynamic := word cursor "dyn"
      let named ← path (if dynamic then next' cursor else cursor)
      let args ← if dynamic && atKind named.rest .lBracket then
          sequence g fuel named.rest .lBracket .rBracket .typeArguments .bindings true
        else typeArgs g fuel named.rest
      .ok (done args.rest (if dynamic then .dynType else .type) named.node.value
        args.node.children)

def functionType (g : Grammar) : Nat → Cursor → Parsed
  | 0, _ => .error .exhausted
  | fuel + 1, cursor => do
    let params ← sequence g fuel (next' cursor) .lParen .rParen .parameters .types false
    let rest := params.rest
    if atKind rest .lParen || word rest "fn" || word rest "dyn" || word rest "type" ||
        word rest "comptime" || (atKind rest .name && !reserved (token rest).value) then
      let returned ← typeRef g fuel rest
      if returned.node.value = "Unit" then error rest "omit the Unit return annotation"
      else
        let output := Node.mk .returnType "" [returned.node]
        .ok (done returned.rest .functionType "" [params.node, output])
    else .ok (done rest .functionType "" [params.node, .mk .returnType "" []])

def typeArgs (g : Grammar) : Nat → Cursor → Parsed
  | 0, _ => .error .exhausted
  | fuel + 1, cursor =>
    if atKind cursor .lBracket then
      sequence g fuel cursor .lBracket .rBracket .typeArguments .types true
    else .ok (done cursor .typeArguments "" [])

def expressionArgs (g : Grammar) : Nat → Cursor → Parsed
  | 0, _ => .error .exhausted
  | fuel + 1, cursor =>
    if atKind cursor .lBracket then
      sequence g fuel cursor .lBracket .rBracket .typeArguments .genericArguments true
    else .ok (done cursor .typeArguments "" [])

def typeParameters (g : Grammar) : Nat → Cursor → Parsed
  | 0, _ => .error .exhausted
  | fuel + 1, cursor =>
    if atKind cursor .lBracket then
      sequence g fuel cursor .lBracket .rBracket .typeParameters .names true
    else .ok (done cursor .typeParameters "" [])

def typeBinding (g : Grammar) : Nat → Cursor → Parsed
  | 0, _ => .error .exhausted
  | fuel + 1, cursor => do
    let named ← name cursor
    let params ← typeParameters g fuel named.rest
    let ty ← typeRef g fuel (← expect params.rest .assign "'=' after the associated type name")
    .ok (done ty.rest .associatedType named.node.value
      (ty.node :: if params.node.children.isEmpty then [] else [params.node]))

/-- The loop of `typeParameter` over the bounds, which `+` separates. -/
def boundsFrom (g : Grammar) : Nat → Cursor → List Node → Except Stop (Cursor × List Node)
  | 0, _, _ => .error .exhausted
  | fuel + 1, rest, bounds => do
    let bound ← typeRef g fuel rest
    if atKind bound.rest .plus then
      boundsFrom g fuel (newlines (next' bound.rest)) (bounds ++ [bound.node])
    else .ok (bound.rest, bounds ++ [bound.node])

def typeParameter (g : Grammar) : Nat → Cursor → Parsed
  | 0, _ => .error .exhausted
  | fuel + 1, cursor => do
    let named ← name cursor
    let pack := ellipsis named.rest
    let rest := if pack then next' (next' (next' named.rest)) else named.rest
    let kind : NodeKind := if pack then .typePack else .name
    if atKind rest .name && !reserved (token rest).value then
      let (after, bounds) ← boundsFrom g fuel rest []
      .ok (done after kind named.node.value bounds)
    else .ok (done rest kind named.node.value [])

def parameter (g : Grammar) : Nat → Cursor → Parsed
  | 0, _ => .error .exhausted
  | fuel + 1, cursor => do
    let compileTime := word cursor "comptime"
    let named ← name (if compileTime then next' cursor else cursor)
    let ty ← item g fuel named.rest .types
    .ok (done ty.rest .parameter named.node.value
      (ty.node :: if compileTime then [.mk .comptime "" []] else []))

def item (g : Grammar) : Nat → Cursor → Items → Parsed
  | 0, _, _ => .error .exhausted
  | fuel + 1, cursor, mode =>
    match mode with
    | .types => do
      let value ← typeRef g fuel cursor
      .ok (if ellipsis value.rest then spread value else value)
    | .genericArguments =>
      let closed := newlines (next' cursor)
      if atKind cursor .lParen && atKind closed .rParen && ellipsis (next' closed) then
        .ok (spread (done (next' closed) .tupleType "" []))
      else item g fuel cursor .arguments
    | .names => typeParameter g fuel cursor
    | .arguments => do
      let value ← expr g fuel cursor 0 true true
      .ok (if ellipsis value.rest then spread value else value)
    | .parameters => parameter g fuel cursor
    | .bindings => typeBinding g fuel cursor

/-- The loop of `parenthesized` over the elements that follow a comma. -/
def tupleFrom (g : Grammar) : Nat → Cursor → Items → NodeKind → List Node → Parsed
  | 0, _, _, _, _ => .error .exhausted
  | fuel + 1, rest, mode, kind, children =>
    if atKind rest .comma then
      let after := newlines (next' rest)
      if !atKind after .rParen then do
        let value ← item g fuel after mode
        tupleFrom g fuel (newlines value.rest) mode kind (children ++ [value.node])
      else tupleFrom g fuel after mode kind children
    else do
      let rest ← expect rest .rParen "')'"
      .ok (done rest kind "" children)

def parenthesized (g : Grammar) : Nat → Cursor → Items → NodeKind → Parsed
  | 0, _, _, _ => .error .exhausted
  | fuel + 1, cursor, mode, kind =>
    let start := newlines (next' cursor)
    if atKind start .rParen then
      if mode = .types && ellipsis (next' start) then .ok (done (next' start) kind "" [])
      else error start "empty tuples are not supported"
    else do
      let first ← item g fuel start mode
      let rest := newlines first.rest
      if !atKind rest .comma then
        let rest ← expect rest .rParen "')'"
        if first.node.kind = .spread then .ok (done rest kind "" [first.node])
        else .ok { rest := rest, node := first.node }
      else tupleFrom g fuel rest mode kind [first.node]

/-- The loop of `sequence` over the items. -/
def sequenceFrom (g : Grammar) : Nat → Cursor → Kind → Items → List Node →
    Except Stop (Cursor × List Node)
  | 0, _, _, _, _ => .error .exhausted
  | fuel + 1, rest, close, mode, children => do
    let value ← item g fuel rest mode
    let rest := newlines value.rest
    let children := children ++ [value.node]
    if atKind rest .comma then
      let rest := newlines (next' rest)
      if atKind rest close then .ok (rest, children)
      else sequenceFrom g fuel rest close mode children
    else .ok (rest, children)

def sequence (g : Grammar) : Nat → Cursor → Kind → Kind → NodeKind → Items → Bool → Parsed
  | 0, _, _, _, _, _, _ => .error .exhausted
  | fuel + 1, cursor, start, close, kind, mode, nonempty => do
    let rest := newlines (← expect cursor start (opening start))
    let (rest, children) ←
      if nonempty || !atKind rest close then sequenceFrom g fuel rest close mode []
      else .ok (rest, [])
    let rest ← expect rest close (closing close)
    .ok (done rest kind "" children)

/-- The loop of `namedExpr` over the fields of a record construction. -/
def constructFrom (g : Grammar) : Nat → Cursor → String → List Node → Parsed
  | 0, _, _, _ => .error .exhausted
  | fuel + 1, rest, value, children =>
    if atKind rest .rBrace then .ok (done (next' rest) .construct value children)
    else if atKind rest .dot then
      let second := next' rest
      if !atKind second .dot || !joined rest second then
        error rest "expected '..' before a record base"
      else do
        let base ← expr g fuel (next' second) 0 false true
        let children := children ++ [.mk .spread "" [base.node]]
        let rest := newlines base.rest
        let rest := if atKind rest .comma then newlines (next' rest) else rest
        let rest ← expect rest .rBrace "'\x7d' after the final record base"
        .ok (done rest .construct value children)
    else do
      let field ← name rest
      let start ← expect field.rest .assign "'=' after the field name"
      let member ← expr g fuel start 0 false true
      let rest := member.rest
      let rest := if atKind rest .comma then next' rest else rest
      constructFrom g fuel (newlines rest) value
        (children ++ [.mk .field field.node.value [member.node]])

def namedExpr (g : Grammar) : Nat → Cursor → Bool → Parsed
  | 0, _, _ => .error .exhausted
  | fuel + 1, cursor, records => do
    let named ← path cursor
    let types ← expressionArgs g fuel named.rest
    let rest := types.rest
    if atKind rest .not then
      if !types.node.children.isEmpty then
        error rest
          "macro inputs infer their types; generators have no explicit type arguments"
      else
        let args ← sequence g fuel (next' rest) .lParen .rParen .arguments .arguments false
        .ok (done args.rest .macroCall named.node.value [args.node])
    else if atKind rest .lParen then
      let args ← sequence g fuel rest .lParen .rParen .arguments .arguments false
      .ok (done args.rest .call named.node.value [types.node, args.node])
    else if records && atKind rest .lBrace then
      constructFrom g fuel (newlines (next' rest)) named.node.value [types.node]
    else if !types.node.children.isEmpty then
      .ok (done rest .apply "" [named.node, bracketArguments types.node])
    else .ok named

/-- A `.` and what follows it: `await`, a position or a name. -/
def select (g : Grammar) : Nat → Step → Parsed
  | 0, _ => .error .exhausted
  | fuel + 1, parsed =>
    let after := next' parsed.rest
    if word after "await" then
      if atKind (next' after) .lParen then
        error (next' after) "await is a postfix keyword, not a method"
      else .ok (done (next' after) .await "" [parsed.node])
    else if atKind after .number then
      .ok (done (next' after) .select (token after).value [parsed.node])
    else do
      let field ← name after
      let types ← expressionArgs g fuel field.rest
      if atKind types.rest .lParen then
        let args ← sequence g fuel types.rest .lParen .rParen .arguments .arguments false
        .ok (done args.rest .methodCall field.node.value [parsed.node, types.node, args.node])
      else
        let selected := done field.rest .select field.node.value [parsed.node]
        if !types.node.children.isEmpty then
          .ok (done types.rest .index "" [selected.node, bracketArguments types.node])
        else .ok selected

/-- The loop over what follows an operand directly. -/
def fields (g : Grammar) : Nat → Step → Parsed
  | 0, _ => .error .exhausted
  | fuel + 1, parsed =>
    let rest := parsed.rest
    if ellipsis rest then .ok parsed
    else if atKind rest .dot then do
      let selected ← select g fuel parsed
      fields g fuel selected
    else if atKind rest .question then fields g fuel (done (next' rest) .try "" [parsed.node])
    else if atKind rest .lParen then do
      let args ← sequence g fuel rest .lParen .rParen .arguments .arguments false
      fields g fuel (done args.rest .invoke "" [parsed.node, args.node])
    else if atKind rest .lBracket then do
      let args ← sequence g fuel rest .lBracket .rBracket .arguments .arguments true
      fields g fuel (done args.rest .index "" [parsed.node, args.node])
    else .ok parsed

/-- `prefix`: an operand with what follows it. -/
def prefixExpr (g : Grammar) : Nat → Cursor → Bool → Bool → Parsed
  | 0, _, _, _ => .error .exhausted
  | fuel + 1, cursor, multiline, records =>
    if !records && word cursor "fn" then
      -- a control-flow header leaves its block, so a function type is tried first
      match typeRef g fuel cursor with
      | .ok value => fields g fuel value
      | .error .exhausted => .error .exhausted
      | .error (.diagnostic _) => do
        let value ← g.functionExpression fuel cursor
        fields g fuel value
    else if word cursor "fn" || word cursor "async" then do
      let value ← g.functionExpression fuel cursor
      fields g fuel value
    else if word cursor "dyn" || word cursor "type" then do
      let value ← typeRef g fuel cursor
      fields g fuel value
    else if word cursor "comptime" then do
      let value ← g.comptimeExpr fuel cursor
      fields g fuel value
    else if word cursor "old" then do
      let args ← sequence g fuel (next' cursor) .lParen .rParen .arguments .arguments false
      match args.node.children with
      | [value] => fields g fuel (done args.rest .old "" [value])
      | _ => error cursor "old requires one expression"
    else if word cursor "if" then do
      let value ← g.ifExpr fuel cursor
      fields g fuel value
    else if word cursor "match" then do
      let value ← g.matchExpr fuel cursor
      fields g fuel value
    else
      let current := token cursor
      match current.kind with
      | .dollar =>
        let position := next' cursor
        if !atKind position .number || !joined cursor position ||
            !inIntRange (token position).value false then
          error cursor "expected a positional macro input such as $0"
        else fields g fuel (done (next' position) .macroInput (token position).value [])
      | .number =>
        if !inIntRange current.value false then
          error cursor "integer literal is outside the Int range"
        else fields g fuel (done (next' cursor) .integer current.value [])
      | .float => fields g fuel (done (next' cursor) .float current.value [])
      | .text => fields g fuel (done (next' cursor) .text current.value [])
      | .name =>
        if current.value = "true" ∨ current.value = "false" then
          fields g fuel (done (next' cursor) .bool current.value [])
        else if current.value = "Unit" then error cursor "omit explicit Unit expressions"
        else if !reserved current.value then do
          let value ← namedExpr g fuel cursor records
          fields g fuel value
        else error cursor "expected an expression"
      | .minus | .not | .bitNot =>
        let rest := newlines (next' cursor)
        let after := next' rest
        -- a negative literal is folded, unless something is applied to the number first
        if current.kind = .minus && atKind rest .number && !atKind after .dot &&
            !atKind after .question && !atKind after .lBracket && !atKind after .lParen then
          if !inIntRange (token rest).value true then
            error rest "integer literal is outside the Int range"
          else fields g fuel (done after .integer ("-" ++ (token rest).value) [])
        else do
          let value ← expr g fuel rest 11 multiline records
          fields g fuel (done value.rest .unary (operator current.kind) [value.node])
      | .lParen => do
        let value ← parenthesized g fuel cursor .arguments .tuple
        fields g fuel value
      | .lBracket => do
        let value ← sequence g fuel cursor .lBracket .rBracket .list .arguments false
        fields g fuel value
      | .lBrace => do
        let value ← g.block fuel cursor
        fields g fuel value
      | _ => error cursor "expected an expression"

/-- The loop of `expr`: what is parsed is the left operand of the next operator. -/
def exprFrom (g : Grammar) : Nat → Step → Int → Bool → Bool → Parsed
  | 0, _, _, _, _ => .error .exhausted
  | fuel + 1, parsed, minimum, multiline, records =>
    let rest := if multiline then newlines parsed.rest else parsed.rest
    let membership := word rest "implements"
    let rank := if membership then 3 else precedence (token rest).kind
    if rank < minimum then .ok { rest := rest, node := parsed.node }
    else if membership then do
      let conceptType ← typeRef g fuel (newlines (next' rest))
      exprFrom g fuel (done conceptType.rest .implements "" [parsed.node, conceptType.node])
        minimum multiline records
    else do
      let right ← expr g fuel (next' rest) (rank + 1) multiline records
      exprFrom g fuel
        (done right.rest .binary (operator (token rest).kind) [parsed.node, right.node])
        minimum multiline records

def expr (g : Grammar) : Nat → Cursor → Int → Bool → Bool → Parsed
  | 0, _, _, _, _ => .error .exhausted
  | fuel + 1, cursor, minimum, multiline, records => do
    let parsed ← prefixExpr g fuel (newlines cursor) multiline records
    exprFrom g fuel parsed minimum multiline records

end

/-! ## What stands at a cursor -/

@[simp] theorem token_cons (first : Token) (rest : Cursor) : token (first :: rest) = first := rfl

@[simp] theorem next'_cons (first : Token) (rest : Cursor) : next' (first :: rest) = rest := rfl

@[simp] theorem atKind_cons (first : Token) (rest : Cursor) (kind : Kind) :
    atKind (first :: rest) kind = decide (first.kind = kind) := rfl

variable {cursor : Cursor}

theorem word_of_kind (value : String) (h : (token cursor).kind ≠ .name) :
    word cursor value = false := by
  simp [word, atKind, h]

theorem word_of_value {value : String} (h : (token cursor).value ≠ value) :
    word cursor value = false := by
  simp [word, h]

theorem newlines_eq (h : (token cursor).kind ≠ .newline) : newlines cursor = cursor := by
  cases cursor with
  | nil => rfl
  | cons first rest => exact if_neg h

theorem newlines_kind (cursor : Cursor) : (token (newlines cursor)).kind ≠ .newline := by
  induction cursor with
  | nil => exact nofun
  | cons first rest ih =>
    rw [newlines]
    split
    · exact ih
    · assumption

theorem newlines_idem (cursor : Cursor) : newlines (newlines cursor) = newlines cursor :=
  newlines_eq (newlines_kind cursor)

theorem ellipsis_eq (h : (token cursor).kind ≠ .dot) : ellipsis cursor = false := by
  simp [ellipsis, atKind, h]

/-! ## The range of `Int` -/

/-- Bytes of decimal digits. -/
def Digital (digits : List UInt8) : Prop := ∀ digit ∈ digits, 48 ≤ digit.toNat ∧ digit.toNat ≤ 57

/-- The number that some digits continue. -/
def numberFrom (start : Nat) (digits : List UInt8) : Nat :=
  Decimal.continued start (digits.map fun digit => digit.toNat - 48)

theorem numberFrom_cons (start : Nat) (digit : UInt8) (rest : List UInt8) :
    numberFrom start (digit :: rest) = numberFrom (10 * start + (digit.toNat - 48)) rest := by
  rw [numberFrom, map_cons, Decimal.continued_cons, numberFrom]

/-- What comes later cannot make up for a difference in front. -/
theorem numberFrom_lt {first second : Nat} (h : first < second) :
    ∀ {left right : List UInt8}, left.length = right.length → Digital left →
      numberFrom first left < numberFrom second right := by
  intro left
  induction left generalizing first second with
  | nil =>
    intro right hlength _
    rw [eq_nil_of_length_eq_zero hlength.symm]; exact h
  | cons digit rest ih =>
    intro right hlength hleft
    obtain ⟨other, others, rfl⟩ := exists_cons_of_length_eq_add_one hlength.symm
    have hdigit := hleft digit (.head _)
    rw [numberFrom_cons, numberFrom_cons]
    refine ih (by omega) (succ.inj hlength) ?_
    exact fun byte hbyte => hleft byte (.tail digit hbyte)

theorem within_iff : ∀ {left right : List UInt8} (start : Nat), left.length = right.length →
    Digital left → Digital right →
    (within left right = true ↔ numberFrom start left ≤ numberFrom start right) := by
  intro left
  induction left with
  | nil =>
    intro right start hlength _ _
    rw [eq_nil_of_length_eq_zero hlength.symm]; simp [within]
  | cons digit rest ih =>
    intro right start hlength hleft hright
    obtain ⟨other, others, rfl⟩ := exists_cons_of_length_eq_add_one hlength.symm
    have hrest : rest.length = others.length := succ.inj hlength
    have hdigit := hleft digit (.head _)
    have hother := hright other (.head _)
    have hleft' : Digital rest := fun byte hbyte => hleft byte (.tail digit hbyte)
    have hright' : Digital others := fun byte hbyte =>
      hright byte (.tail other hbyte)
    rw [within, numberFrom_cons, numberFrom_cons]
    by_cases hlt : digit < other
    · rw [if_pos hlt]
      have hbytes : digit.toNat < other.toNat := UInt8.lt_iff_toNat_lt.mp hlt
      exact iff_of_true rfl (le_of_lt (numberFrom_lt (by omega) hrest hleft'))
    · rw [if_neg hlt]
      have hle : other.toNat ≤ digit.toNat := by
        rw [UInt8.lt_iff_toNat_lt] at hlt; omega
      by_cases hgt : digit > other
      · rw [if_pos hgt]
        have hbytes : other.toNat < digit.toNat := UInt8.lt_iff_toNat_lt.mp hgt
        exact iff_of_false nofun (Nat.not_le_of_lt (numberFrom_lt (by omega) hrest.symm hright'))
      · have hsame : digit.toNat = other.toNat := by
          rw [gt_iff_lt, UInt8.lt_iff_toNat_lt] at hgt; omega
        rw [if_neg hgt, hsame]; exact ih _ hrest hleft' hright'

/-- Every digit that follows multiplies by ten. -/
theorem numberFrom_bounds {digits : List UInt8} (h : Digital digits) (start : Nat) :
    start * 10 ^ digits.length ≤ numberFrom start digits ∧
      numberFrom start digits < (start + 1) * 10 ^ digits.length := by
  induction digits generalizing start with
  | nil =>
    rw [length_nil, pow_zero, mul_one, mul_one]
    exact ⟨le_refl start, lt_succ_self start⟩
  | cons digit rest ih =>
    have hdigit := h digit (.head _)
    obtain ⟨hlow, hhigh⟩ := ih (fun byte hbyte => h byte (.tail digit hbyte))
      (10 * start + (digit.toNat - 48))
    rw [length_cons, pow_succ']
    constructor
    · calc start * (10 * 10 ^ rest.length) = 10 * start * 10 ^ rest.length := by ring
        _ ≤ (10 * start + (digit.toNat - 48)) * 10 ^ rest.length :=
            mul_le_mul_right _ (le_add_right _ _)
        _ ≤ _ := hlow
    · calc numberFrom (10 * start + (digit.toNat - 48)) rest
          < (10 * start + (digit.toNat - 48) + 1) * 10 ^ rest.length := hhigh
        _ ≤ (10 * start + 10) * 10 ^ rest.length := mul_le_mul_right _ (by omega)
        _ = (start + 1) * (10 * 10 ^ rest.length) := by ring

theorem numberFrom_dropWhile (digits : List UInt8) :
    numberFrom 0 (digits.dropWhile (· = 48)) = numberFrom 0 digits := by
  induction digits with
  | nil => rfl
  | cons digit rest ih =>
    by_cases hzero : digit = 48
    · rw [dropWhile_cons_of_pos (by simp [hzero]), ih, hzero]; rfl
    · rw [dropWhile_cons_of_neg (by simp [hzero])]

/-- The largest number after `-`, and without it. -/
def intLimit (negative : Bool) : Nat := if negative then 2 ^ 63 else 2 ^ 63 - 1

theorem limit_digits (negative : Bool) :
    let limit := bytes (if negative then "9223372036854775808" else "9223372036854775807")
    limit.length = 19 ∧ Digital limit ∧ numberFrom 0 limit = intLimit negative := by
  unfold Digital
  cases negative with
  | false => dsimp only; set_option maxRecDepth 4000 in decide
  | true => dsimp only; set_option maxRecDepth 4000 in decide

theorem inIntRange_iff {value : String} (h : Digital (bytes value)) (negative : Bool) :
    inIntRange value negative = true ↔ numberFrom 0 (bytes value) ≤ intLimit negative := by
  have hlimit : intLimit negative = 2 ^ 63 ∨ intLimit negative = 2 ^ 63 - 1 := by
    unfold intLimit
    split
    · exact .inl rfl
    · exact .inr rfl
  have hdigits : Digital ((bytes value).dropWhile (· = 48)) :=
    fun digit hdigit => h digit ((dropWhile_sublist _).subset hdigit)
  unfold inIntRange
  rw [← numberFrom_dropWhile]
  cases hrest : (bytes value).dropWhile (· = 48) with
  | nil =>
    exact iff_of_true rfl (zero_le _)
  | cons first rest =>
    rw [hrest] at hdigits
    obtain ⟨hfirst, hbyte⟩ := hdigits first (.head _)
    have hnonzero : first.toNat ≠ 48 := by
      intro hzero
      have hhead := head?_dropWhile_not (fun digit => decide (digit = 48)) (bytes value)
      rw [hrest] at hhead
      have hne : first ≠ 48 := by simpa using hhead
      exact hne (UInt8.toNat_inj.mp hzero)
    have hbounds := numberFrom_bounds hdigits 0
    have htail := numberFrom_bounds (fun byte hmem =>
      hdigits byte (.tail first hmem)) (10 * 0 + (first.toNat - 48))
    by_cases hshort : (first :: rest).length < 19
    · rw [if_pos hshort]
      have hpow : 10 ^ (first :: rest).length ≤ 10 ^ 18 :=
        Nat.pow_le_pow_right (by decide) (by omega)
      exact iff_of_true rfl (by omega)
    · rw [if_neg hshort]
      by_cases hlong : 19 < (first :: rest).length
      · rw [if_pos hlong]
        have hpow : 10 ^ 19 ≤ 10 ^ rest.length :=
          Nat.pow_le_pow_right (by decide) (by simpa using hlong)
        have hlead : 1 * 10 ^ rest.length ≤ (10 * 0 + (first.toNat - 48)) * 10 ^ rest.length :=
          mul_le_mul_right _ (by omega)
        rw [numberFrom_cons]; exact iff_of_false nofun (by omega)
      · rw [if_neg hlong]
        obtain ⟨hlength, hdigital, hnumber⟩ := limit_digits negative
        rw [within_iff 0 (by omega) hdigits hdigital, hnumber]

end Loom.Expressions

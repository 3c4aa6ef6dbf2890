import Loom.Library.Decimal
import Loom.Library.Framed
import Loom.Library.Machine

/-
  The codec of the incremental-check cache.

  Every value is a sequence of counted fields: the decimal number of the bytes, a
  newline, the bytes. Numbers are written in decimal without a temporary text.

  Correspondence (incremental_codec.loom, incremental_codec_tags.loom, model.loom ↔ Lean), where names differ:
    `Span`, `Local` ↔ the same; an `Int` is a `Number`
    an output that is pushed to ↔ `Write`: what is pushed
    `CacheReader` ↔ `Read`: its text and its cursor
    `cache_expression_tag`, `cache_expression_kind` ↔ places in `ExprKind.all`
    `cache_decimal`, its loops ↔ `cacheDecimal`, `divisorFor`, `decimalDigits`
    `cache_int`, its loop ↔ `cacheInt`, `sizeFor`
    `cache_text`, `cache_bool`, … , `cache_function` ↔ the same in camel case
    `cache_field`, `cache_read_int`, … ↔ the same in camel case
    an expression at a depth ↔ one with the room that is left below it
  The readers share empty lists where the counts are zero; the values are the same.
-/

namespace Loom.IncrementalCache

open Utf8 Texts Framed Machine

/-! ## Checked syntax -/

/-- A 64-bit integer. -/
abbrev Number := { value : Int // Fits value }

structure Span where
  start : Number
  stop : Number
  deriving DecidableEq

inductive ExprKind where
  | integer | bool | text | localRead | unary | binary | call | intrinsic | record | field | variant
  | block | letIn | assign | returns | assert | discard | whileLoop | ifElse | matchArms | coerce
  | deferred | float | dynBox | dynCall | functionRef | indirectCall | breaks | continues | list
  | defer | cleanup | taskCall | await | frameNew | frameStore | suspend | bytes | resourceDrain
  | typeValue | closureEnvironment
  deriving DecidableEq

/-- The kinds in the order of their declaration. -/
def ExprKind.all : List ExprKind :=
  [.integer, .bool, .text, .localRead, .unary, .binary, .call, .intrinsic, .record, .field,
    .variant, .block, .letIn, .assign, .returns, .assert, .discard, .whileLoop, .ifElse, .matchArms,
    .coerce, .deferred, .float, .dynBox, .dynCall, .functionRef, .indirectCall, .breaks, .continues,
    .list, .defer, .cleanup, .taskCall, .await, .frameNew, .frameStore, .suspend, .bytes,
    .resourceDrain, .typeValue, .closureEnvironment]

structure Local where
  name : String
  ty : Number
  mutable : Bool
  isScoped : Bool

mutual

inductive Expr where
  | node (kind : ExprKind) (ty : Number) (span : Span) (text : String) (index : Number)
      (children : List Expr) (arms : List Arm) (falls : Bool)

inductive Arm where
  | arm (variant : Number) (bindings : List Number) (whole : Number) (body : List Expr)

end

structure Function where
  isAsync : Bool
  symbol : Number
  arguments : List Number
  params : List Number
  result : Number
  locals : List Local
  preconditions : List Expr
  postconditions : List Expr
  resultCleanup : List Expr
  resultLocal : Number
  body : Expr
  runtimeName : String
  span : Span

/-! ## Writing -/

/-- The loop that finds the divisor of the leading digit. -/
def divisorFor : Nat → Int → Int → Except Stop Int
  | 0, _, _ => .error .fault
  | bound + 1, number, divisor =>
    if number.tdiv divisor ≤ -10 then do
      let divisor ← orFault (mul divisor 10)
      divisorFor bound number divisor
    else return divisor

/-- The loop that pushes the digits. -/
def decimalDigits : Nat → Int → Int → Write
  | 0, _, _ => .error .fault
  | bound + 1, number, divisor =>
    if divisor > 0 then do
      let digit ← orFault (sub 48 (number.tdiv divisor))
      let others ← decimalDigits bound (number.tmod divisor) (divisor.tdiv 10)
      return UInt8.ofNat digit.toNat :: others
    else return []

/-- More turns than a 64-bit integer has digits. -/
def turns : Nat := 20

/-- Numbers are made negative, so that the least one has a place. -/
def cacheDecimal (value : Int) : Write := do
  let number := if value > 0 then -value else value
  let divisor ← divisorFor turns number 1
  let digits ← decimalDigits turns number divisor
  return (if value < 0 then [45] else []) ++ digits

/-- The loop that counts the bytes of a number. -/
def sizeFor : Nat → Int → Int → Except Stop Int
  | 0, _, _ => .error .fault
  | bound + 1, number, size =>
    if number ≤ -10 ∨ number ≥ 10 then do
      let size ← orFault (add size 1)
      sizeFor bound (number.tdiv 10) size
    else return size

def cacheInt (value : Int) : Write := do
  let size ← sizeFor turns value (if value < 0 then 2 else 1)
  let prefixed ← cacheDecimal size
  let digits ← cacheDecimal value
  return prefixed ++ 10 :: digits

def cacheText (value : String) : Write := do
  let size ← cacheDecimal (length value)
  return size ++ 10 :: bytes value

def cacheBool (value : Bool) : Write := cacheInt (if value then 1 else 0)

def cacheSpan (value : Span) : Write := writeAll [cacheInt value.start, cacheInt value.stop]

/-- A count, and so many values. -/
def cacheList {α : Type} (write : α → Write) (values : List α) : Write :=
  writeAll [cacheInt values.length, writeAll (values.map write)]

def cacheInts (values : List Number) : Write :=
  cacheList (fun value : Number => cacheInt value.val) values

def ExprKind.tag (kind : ExprKind) : Int := ExprKind.all.idxOf kind

/-- An arm, with what writes the expressions of its body. -/
def cacheArm (write : Expr → Write) : Arm → Write
  | .arm variant bindings whole body =>
    writeAll [cacheInt variant, cacheInts bindings, cacheInt whole, cacheList write body]

def cacheExpression : Nat → Expr → Write
  | 0, _ => fail "cache expression depth exceeded"
  | room + 1, .node kind ty span text index children arms falls =>
    writeAll [cacheInt kind.tag, cacheInt ty, cacheSpan span, cacheText text, cacheInt index,
      cacheBool falls, cacheList (cacheExpression room) children,
      cacheList (cacheArm (cacheExpression room)) arms]

/-- The levels of an expression at depth 0. -/
def levels : Nat := 257

def cacheLocal (value : Local) : Write :=
  writeAll [cacheText value.name, cacheInt value.ty, cacheBool value.mutable,
    cacheBool value.isScoped]

def cacheFunction (value : Function) : Write :=
  writeAll [cacheBool value.isAsync, cacheInt value.symbol, cacheInts value.arguments,
    cacheInts value.params, cacheInt value.result, cacheList cacheLocal value.locals,
    cacheList (cacheExpression levels) value.preconditions,
    cacheList (cacheExpression levels) value.postconditions,
    cacheList (cacheExpression levels) value.resultCleanup, cacheInt value.resultLocal,
    cacheExpression levels value.body, cacheText value.runtimeName, cacheSpan value.span]

/-! ## Reading -/

/-- `std.int.parse` of a range of bytes. -/
def parseRange (text : String) (start stop : Nat) : Except Decimal.ParseError Int :=
  Decimal.parse ((((bytes text).drop start).take (stop - start)).map UInt8.toNat)

/-- Where the bytes of the next field are; the cursor moves behind them. -/
def cacheField : Read (Nat × Nat) := fun text start =>
  let stop := start + (((bytes text).drop start).takeWhile (· != 10)).length
  match parseRange text start stop with
  | .error _ => fail "invalid cache field size"
  | .ok size =>
    if size < 0 ∨ stop ≥ length text ∨ size > (length text : Int) - stop - 1 then
      fail "truncated cache field"
    else .ok ((stop + 1, stop + 1 + size.toNat), stop + 1 + size.toNat)

def cacheReadText : Read String := do
  let span ← cacheField
  if span.1 = span.2 then return ""
  else fun text cursor => do
    let value ← slice text span.1 span.2
    return (value, cursor)

theorem parse_fits {value : Decimal.Text} {number : Int} (h : Decimal.parse value = .ok number) :
    Fits number := by
  obtain ⟨-, -, hle, rfl⟩ := Decimal.parse_eq_ok.mp h
  exact Decimal.fits_signed.mpr hle

def cacheReadInt : Read Number := do
  let span ← cacheField
  fun text cursor =>
    match h : parseRange text span.1 span.2 with
    | .ok value => .ok (⟨value, parse_fits h⟩, cursor)
    | .error _ => fail "invalid cache number"

def cacheReadCount : Read Nat := do
  let count ← cacheReadInt
  fun text cursor =>
    if count.val < 0 ∨ count.val > (length text : Int) - cursor then fail "invalid cache count"
    else .ok (count.val.toNat, cursor)

def cacheReadBool : Read Bool := do
  let value ← cacheReadInt
  if value.val < 0 ∨ value.val > 1 then fun _ _ => fail "invalid cache flag"
  else return value.val == 1

def cacheReadSpan : Read Span := do
  let start ← cacheReadInt
  let stop ← cacheReadInt
  return ⟨start, stop⟩

def cacheReadList {α : Type} (read : Read α) : Read (List α) := do
  let count ← cacheReadCount
  readList read count

def cacheReadInts : Read (List Number) := cacheReadList cacheReadInt

/-- The kind of a tag: a place in a list of kinds. -/
def kindOf {α : Type} (kinds : List α) (message : String) (tag : Number) : Read α := fun _ cursor =>
  if tag.val < 0 then fail message
  else
    match kinds[tag.val.toNat]? with
    | some kind => .ok (kind, cursor)
    | none => fail message

def cacheExpressionKind : Number → Read ExprKind :=
  kindOf ExprKind.all "unknown cached expression kind"

def cacheReadArm (read : Read Expr) : Read Arm := do
  let variant ← cacheReadInt
  let bindings ← cacheReadInts
  let whole ← cacheReadInt
  let body ← cacheReadList read
  return .arm variant bindings whole body

def cacheReadExpression : Nat → Read Expr
  | 0 => fun _ _ => fail "cache expression depth exceeded"
  | room + 1 => do
    let tag ← cacheReadInt
    let kind ← cacheExpressionKind tag
    let ty ← cacheReadInt
    let span ← cacheReadSpan
    let text ← cacheReadText
    let slot ← cacheReadInt
    let falls ← cacheReadBool
    let children ← cacheReadList (cacheReadExpression room)
    let arms ← cacheReadList (cacheReadArm (cacheReadExpression room))
    return .node kind ty span text slot children arms falls

def cacheReadLocal : Read Local := do
  let name ← cacheReadText
  let ty ← cacheReadInt
  let mutable ← cacheReadBool
  let isScoped ← cacheReadBool
  return ⟨name, ty, mutable, isScoped⟩

def cacheReadFunction : Read Function := do
  let isAsync ← cacheReadBool
  let symbol ← cacheReadInt
  let arguments ← cacheReadInts
  let params ← cacheReadInts
  let returnType ← cacheReadInt
  let locals ← cacheReadList cacheReadLocal
  let preconditions ← cacheReadList (cacheReadExpression levels)
  let postconditions ← cacheReadList (cacheReadExpression levels)
  let resultCleanup ← cacheReadList (cacheReadExpression levels)
  let resultLocal ← cacheReadInt
  let body ← cacheReadExpression levels
  let runtimeName ← cacheReadText
  let span ← cacheReadSpan
  return ⟨isAsync, symbol, arguments, params, returnType, locals, preconditions, postconditions,
    resultCleanup, resultLocal, body, runtimeName, span⟩

end Loom.IncrementalCache

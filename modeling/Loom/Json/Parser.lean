import Loom.Library.Utf8

/-
  The parser of JSON texts.

  Correspondence (json/json.loom ↔ Lean), where names differ:
    an input and an offset ↔ `Place`: the offset and the bytes from there
    `matches`, `hex_four` ↔ `startsWith`, `hexFour`
    `value` at a depth ↔ `value` with the room that is left below it
  The loops over characters, items and fields have a bound: the number of bytes
  that are left. A fault of the program is `Stop.fault`.
-/

namespace Loom.Json

open Utf8

/-- Numbers keep their spelling. -/
inductive Value where
  | null
  | boolean (flag : Bool)
  | number (raw : String)
  | string (text : String)
  | array (items : List Value)
  | object (fields : List (String × Value))

/-- Induction with a hypothesis for every item and for the value of every field. -/
@[elab_as_elim, induction_eliminator]
theorem Value.induct {motive : Value → Prop} (null : motive .null)
    (boolean : ∀ flag, motive (.boolean flag)) (number : ∀ raw, motive (.number raw))
    (string : ∀ text, motive (.string text))
    (array : ∀ items, (∀ item ∈ items, motive item) → motive (.array items))
    (object : ∀ fields, (∀ field ∈ fields, motive field.2) → motive (.object fields))
    (value : Value) : motive value := by
  refine @Value.rec motive (fun items => ∀ item ∈ items, motive item)
    (fun fields => ∀ field ∈ fields, motive field.2) (fun field => motive field.2)
    null boolean number string array object nofun ?_ nofun ?_ ?_ value
  · intro item rest hitem hrest other hother
    obtain hsame | hmem := List.mem_cons.mp hother
    · exact hsame ▸ hitem
    · exact hrest other hmem
  · intro field rest hfield hrest other hother
    obtain hsame | hmem := List.mem_cons.mp hother
    · exact hsame ▸ hfield
    · exact hrest other hmem
  · exact fun _ _ hvalue => hvalue

structure ParseError where
  offset : Nat
  message : String
  deriving DecidableEq

/-- How a parse ends that gives nothing. -/
inductive Stop where
  | error (failed : ParseError)
  | fault
  deriving DecidableEq

/-- A position in a text, as its offset and the bytes from there on. -/
structure Place where
  offset : Nat
  rest : List UInt8

def Place.skip (place : Place) (count : Nat) : Place :=
  ⟨place.offset + count, place.rest.drop count⟩

def error {α : Type} (offset : Nat) (message : String) : Except Stop α :=
  .error (.error ⟨offset, message⟩)

/-- Bytes that are no text are a fault. -/
def toText (output : List UInt8) : Except Stop String :=
  match decode output with
  | some text => .ok text
  | none => .error .fault

/-! ## Bytes -/

def digit (value : UInt8) : Bool := 48 ≤ value.toNat && value.toNat ≤ 57

def space (value : UInt8) : Bool := value = 32 || value = 9 || value = 10 || value = 13

def whitespaceFrom : Nat → List UInt8 → Place
  | offset, [] => ⟨offset, []⟩
  | offset, byte :: rest =>
    if space byte then whitespaceFrom (offset + 1) rest else ⟨offset, byte :: rest⟩

def whitespace (start : Place) : Place := whitespaceFrom start.offset start.rest

/-- `matches`: whether the expected bytes come next. -/
def startsWith (place : Place) (expected : List UInt8) : Bool := expected.isPrefixOf place.rest

/-! ## Strings -/

def hex (value : UInt8) : Option Nat :=
  if digit value then some (value.toNat - 48)
  else if 65 ≤ value.toNat ∧ value.toNat ≤ 70 then some (value.toNat - 55)
  else if 97 ≤ value.toNat ∧ value.toNat ≤ 102 then some (value.toNat - 87)
  else none

/-- The loop over hexadecimal digits. -/
def hexDigits : Nat → Nat → List UInt8 → Nat → Except Stop Nat
  | 0, _, _, value => .ok value
  | _ + 1, _, [], _ => .error .fault
  | count + 1, offset, byte :: rest, value =>
    match hex byte with
    | none => error offset "invalid Unicode escape"
    | some part => hexDigits count (offset + 1) rest (value * 16 + part)

def hexFour (start : Place) : Except Stop Nat :=
  if start.rest.length < 4 then error start.offset "incomplete Unicode escape"
  else hexDigits 4 start.offset start.rest 0

def codepointBytes (value : Nat) : List UInt8 :=
  if value < 128 then [.ofNat value]
  else if value < 2048 then [.ofNat (192 + value / 64), .ofNat (128 + value % 64)]
  else if value < 65536 then
    [.ofNat (224 + value / 4096), .ofNat (128 + value / 64 % 64), .ofNat (128 + value % 64)]
  else
    [.ofNat (240 + value / 262144), .ofNat (128 + value / 4096 % 64),
      .ofNat (128 + value / 64 % 64), .ofNat (128 + value % 64)]

/-- A surrogate is no code point: the contract faults. -/
def fromCodepoint (value : Nat) : Except Stop String :=
  if value ≤ 1114111 ∧ (value < 55296 ∨ 57343 < value) then toText (codepointBytes value)
  else .error .fault

/-- An escaped code point, from behind its `u`. -/
def unicode (start : Place) : Except Stop (List UInt8 × Place) := do
  let first ← hexFour start
  let index := start.skip 4
  if 55296 ≤ first ∧ first ≤ 56319 then
    if !startsWith index [92, 117] then error index.offset "missing low surrogate"
    else do
      let second ← hexFour (index.skip 2)
      if second < 56320 ∨ 57343 < second then error (index.offset + 2) "invalid low surrogate"
      else do
        let text ← fromCodepoint (65536 + (first - 55296) * 1024 + second - 56320)
        .ok (bytes text, index.skip 6)
  else if 56320 ≤ first ∧ first ≤ 57343 then
    error (index.offset - 4) "unexpected low surrogate"
  else do
    let text ← fromCodepoint first
    .ok (bytes text, index)

def simpleEscape (escaped : UInt8) : Option UInt8 :=
  if escaped = 34 ∨ escaped = 92 ∨ escaped = 47 then some escaped
  else if escaped = 98 then some 8
  else if escaped = 102 then some 12
  else if escaped = 110 then some 10
  else if escaped = 114 then some 13
  else if escaped = 116 then some 9
  else none

/-- The loop of `string`. -/
def characters : Nat → Place → List UInt8 → Except Stop (String × Place)
  | 0, index, _ => error index.offset "unterminated string"
  | bound + 1, index, output =>
    match index.rest with
    | [] => error index.offset "unterminated string"
    | current :: _ =>
      if current = 34 then do
        let text ← toText output
        .ok (text, index.skip 1)
      else if current.toNat < 32 then error index.offset "unescaped control character"
      else if current ≠ 92 then characters bound (index.skip 1) (output ++ [current])
      else
        let index := index.skip 1
        match index.rest with
        | [] => error index.offset "incomplete string escape"
        | escaped :: _ =>
          if escaped = 117 then do
            let decoded ← unicode (index.skip 1)
            characters bound decoded.2 (output ++ decoded.1)
          else
            match simpleEscape escaped with
            | none => error index.offset "invalid string escape"
            | some decoded => characters bound (index.skip 1) (output ++ [decoded])

/-- A string, from its opening quote. -/
def string (start : Place) : Except Stop (String × Place) := characters start.rest.length (start.skip 1) []

/-! ## Numbers -/

/-- The loop over digits. -/
def digitsFrom : Nat → List UInt8 → Place
  | offset, [] => ⟨offset, []⟩
  | offset, byte :: rest =>
    if digit byte then digitsFrom (offset + 1) rest else ⟨offset, byte :: rest⟩

def digits (start : Place) : Place := digitsFrom start.offset start.rest

/-- The digits in front of the fraction. -/
def integerEnd (index : Place) : Except Stop Place :=
  match index.rest with
  | [] => error index.offset "expected number digit"
  | first :: rest =>
    if first = 48 then
      if rest.head?.any digit then error (index.offset + 1) "leading zero in number"
      else .ok (index.skip 1)
    else if first.toNat < 49 ∨ 57 < first.toNat then error index.offset "expected number digit"
    else .ok (digits index)

def fractionEnd (index : Place) : Except Stop Place :=
  if index.rest.head? = some 46 then
    let index := index.skip 1
    if !index.rest.head?.any digit then error index.offset "expected fraction digit"
    else .ok (digits index)
  else .ok index

def exponentEnd (index : Place) : Except Stop Place :=
  if index.rest.head? = some 101 ∨ index.rest.head? = some 69 then
    let index := index.skip 1
    let index :=
      if index.rest.head? = some 43 ∨ index.rest.head? = some 45 then index.skip 1 else index
    if !index.rest.head?.any digit then error index.offset "expected exponent digit"
    else .ok (digits index)
  else .ok index

def numberEnd (start : Place) : Except Stop Place := do
  let index := if start.rest.head? = some 45 then start.skip 1 else start
  let index ← integerEnd index
  let index ← fractionEnd index
  exponentEnd index

/-! ## Values -/

def arrayItems (value : Place → Except Stop (Value × Place)) :
    Nat → List Value → Place → Except Stop (Value × Place)
  | 0, _, _ => .error .fault
  | bound + 1, items, next => do
    let item ← value next
    let items := items ++ [item.1]
    let next := whitespace item.2
    match next.rest with
    | [] => error next.offset "unterminated array"
    | current :: _ =>
      if current = 93 then .ok (.array items, next.skip 1)
      else if current ≠ 44 then error next.offset "expected array separator"
      else arrayItems value bound items (next.skip 1)

def objectFields (value : Place → Except Stop (Value × Place)) :
    Nat → List (String × Value) → List String → Place → Except Stop (Value × Place)
  | 0, _, _, _ => .error .fault
  | bound + 1, fields, seen, next =>
    if next.rest.head? ≠ some 34 then error next.offset "expected object key"
    else do
      let key ← string next
      if key.1 ∈ seen then error next.offset "duplicate object key"
      else do
        let seen := seen ++ [key.1]
        let next := whitespace key.2
        if next.rest.head? ≠ some 58 then error next.offset "expected key/value separator"
        else do
          let item ← value (next.skip 1)
          let fields := fields ++ [(key.1, item.1)]
          let next := whitespace item.2
          match next.rest with
          | [] => error next.offset "unterminated object"
          | current :: _ =>
            if current = 125 then .ok (.object fields, next.skip 1)
            else if current ≠ 44 then error next.offset "expected object separator"
            else objectFields value bound fields seen (whitespace (next.skip 1))

/-- The number of containers around a value is limited. -/
def maximumDepth : Nat := 64

/-- A value, with the room that is left for containers. -/
def value : Nat → Place → Except Stop (Value × Place)
  | room, start =>
    let index := whitespace start
    match index.rest with
    | [] => error index.offset "expected JSON value"
    | current :: _ =>
      if current = 34 then do
        let parsed ← string index
        .ok (.string parsed.1, parsed.2)
      else if current = 91 then
        match room with
        | 0 => error index.offset "JSON nesting depth exceeded"
        | room + 1 =>
          let next := whitespace (index.skip 1)
          if next.rest.head? = some 93 then .ok (.array [], next.skip 1)
          else arrayItems (value room) (next.rest.length + 1) [] next
      else if current = 123 then
        match room with
        | 0 => error index.offset "JSON nesting depth exceeded"
        | room + 1 =>
          let next := whitespace (index.skip 1)
          if next.rest.head? = some 125 then .ok (.object [], next.skip 1)
          else objectFields (value room) (next.rest.length + 1) [] [] next
      else if startsWith index (bytes "null") then .ok (.null, index.skip 4)
      else if startsWith index (bytes "true") then .ok (.boolean true, index.skip 4)
      else if startsWith index (bytes "false") then .ok (.boolean false, index.skip 5)
      else if current = 45 ∨ digit current then do
        let stop ← numberEnd index
        let raw ← toText (index.rest.take (stop.offset - index.offset))
        .ok (.number raw, stop)
      else error index.offset "expected JSON value"

def parse (input : String) : Except Stop Value := do
  let parsed ← value maximumDepth ⟨0, bytes input⟩
  let stop := whitespace parsed.2
  if stop.rest ≠ [] then error stop.offset "unexpected trailing input"
  else .ok parsed.1

end Loom.Json

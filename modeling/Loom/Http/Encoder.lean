import Loom.Http.Reader
import Loom.Library.Decimal

/-
  Writing HTTP/1.1 messages: at once, and with a body that is produced as it goes.

  An output and the octets left of its budget are passed along as a pair. A status
  is a natural, as negative ones are refused first. A sink answers a buffer by what
  it was given before; a run of the writer says what it gave to the sink.

  Correspondence (net/http ↔ Lean):
    encode.loom: `snapshot`, `emit_line`, `emit_fields`, `hexadecimal`,
    `empty_framing`, `encode_message`, `request_fields`, `encode_request`,
    `response_fields`, `encode_response` ↔ the same names
    outgoing.loom: `RequestMetadata`, `WriteError`, `Outgoing`, `WriterState`,
    `request_writer`, `outgoing`, `outgoing_chunk`, `output_chunk`,
    `write_request`, `write_message` ↔ the same names
-/

namespace Loom.Http

/-- `to_text` of an integer that is not negative. -/
def decimal (value : Nat) : Bytes := (Decimal.toText value).map UInt8.ofNat

/-- `byte` of "0123456789abcdef". -/
def hexOctet (digit : Nat) : UInt8 := (text "0123456789abcdef").getD digit 0

/-- The digits are made from the last one on, and turned round. -/
def hexadecimal (value : Nat) : Bytes := (Nat.digits 16 value).reverse.map hexOctet

/-! ## Lines and fields -/

def emitLine (maximum : Limits) (value : Bytes) :
    Bytes × Nat → Except ProtocolError (Bytes × Nat)
  | (output, budget) =>
    if maximum.lineBytes < value.length ∨ budget < 2 ∨ budget - 2 < value.length then .error .limit
    else .ok (output ++ value ++ [13, 10], budget - value.length - 2)

def fieldLine (entry : Header) : Bytes := entry.name ++ text ": " ++ entry.value

def emitFields (maximum : Limits) :
    List Header → Bytes × Nat → Except ProtocolError (Bytes × Nat)
  | [], state => .ok state
  | entry :: rest, state => do emitFields maximum rest (← emitLine maximum (fieldLine entry) state)

/-- The loop of `snapshot`, with what is left of the budget. -/
def snapshotFrom (maximum : Limits) : Nat → List Header → Except ProtocolError (List Header)
  | _, [] => .ok []
  | remaining, entry :: rest =>
    let size := entry.value.length
    let nameSize := entry.name.length
    if maximum.lineBytes < size ∨ maximum.lineBytes - size < 2 ∨
        maximum.lineBytes - size - 2 < nameSize then .error .limit
    else
      let lineSize := nameSize + size + 2
      if remaining < 2 ∨ remaining - 2 < lineSize then .error .limit
      else if !validToken entry.name || !validField entry.value then .error .syntaxError
      else do
        let entry ← field (entry.name ++ text ":" ++ entry.value)
        let rest ← snapshotFrom maximum (remaining - lineSize - 2) rest
        .ok (entry :: rest)

def snapshot (headers : List Header) (maximum : Limits) : Except ProtocolError (List Header) :=
  snapshotFrom maximum maximum.metadataBytes headers

/-! ## Messages at once -/

def decimalOctet (value : UInt8) : Bool := 48 ≤ value && value ≤ 57

/-- The loop of `empty_framing`. Both headers in one entry are impossible. -/
def emptyFramingFrom (forbidden : Bool) :
    Nat → Nat → List Header → Except ProtocolError Bool
  | lengths, transfers, [] =>
    if 1 < lengths + transfers ∨ forbidden ∧ lengths + transfers ≠ 0 then .error .framing
    else .ok true
  | lengths, transfers, entry :: rest =>
    if named entry.name (text "content-length") then
      if entry.value.isEmpty || !entry.value.all decimalOctet then .error .framing
      else emptyFramingFrom forbidden (lengths + 1) transfers rest
    else if named entry.name (text "transfer-encoding") then
      if !validToken entry.value || !named entry.value (text "chunked") then .error .unsupported
      else emptyFramingFrom forbidden lengths (transfers + 1) rest
    else emptyFramingFrom forbidden lengths transfers rest

def emptyFraming (headers : List Header) (forbidden : Bool) : Except ProtocolError Bool :=
  emptyFramingFrom forbidden 0 0 headers

def emitChunk (maximum : Limits) (content : Bytes) (state : Bytes × Nat) :
    Except ProtocolError (Bytes × Nat) :=
  if 0 < content.length then do
    let (output, budget) ← emitLine maximum (hexadecimal content.length) state
    emitLine maximum [] (output ++ content, budget)
  else .ok state

/-- The terminating section of a chunked body. -/
def emitLast (maximum : Limits) (trailers : List Header) (state : Bytes × Nat) :
    Except ProtocolError (Bytes × Nat) := do
  let state ← emitLine maximum (text "0") state
  let state ← emitFields maximum trailers state
  emitLine maximum [] state

/-- A header that is added, as it is written out in the source. -/
def emitAdded (maximum : Limits) (added : Bool) (value : Bytes) (state : Bytes × Nat) :
    Except ProtocolError (Bytes × Nat) :=
  if added then emitLine maximum value state else .ok state

def encodeMessage (start : Bytes) (headers : List Header) (content : Bytes) (suffix : List Header)
    (maximum : Limits) (empty : Bool) : Except ProtocolError Bytes := do
  let trailers ← snapshot suffix maximum
  if maximum.bodyBytes < content.length then .error .limit
  else
    let state ← emitLine maximum start ([], maximum.metadataBytes)
    let state ← emitFields maximum headers state
    if empty then
      if content.length ≠ 0 ∨ trailers.length ≠ 0 then .error .framing
      else
        let (output, _) ← emitLine maximum [] state
        .ok output
    else
      let shape ← framing headers maximum.bodyBytes
      if shape.chunked then
        if trailers.any fun entry => !trailer entry then .error .framing
        else
          let state ← emitLine maximum [] state
          let state ← emitChunk maximum content state
          let (output, _) ← emitLast maximum trailers state
          .ok output
      else if trailers.length ≠ 0 ∨ shape.size.any (· ≠ content.length) then .error .framing
      else
        let state ← emitAdded maximum shape.size.isNone
          (text "Content-Length: " ++ decimal content.length) state
        let (output, _) ← emitLine maximum [] state
        .ok (output ++ content)

def requestFields (method target : Text) (fields : List Header) (maximum : Limits) :
    Except ProtocolError (Bytes × List Header) := do
  let start := method ++ text " " ++ target ++ text " HTTP/1.1"
  let _ ← requestLine start
  let headers ← snapshot fields maximum
  if hosts headers ≠ 1 then .error .framing else .ok (start, headers)

def encodeRequest (value : Request) (maximum : Limits) : Except ProtocolError Bytes := do
  let (start, headers) ← requestFields value.method value.target value.headers maximum
  encodeMessage start headers value.body value.trailers maximum false

def responseFields (status : Nat) (reason : Bytes) (fields : List Header) (method : Text)
    (maximum : Limits) : Except ProtocolError (Bytes × List Header) := do
  if status < 100 ∨ 999 < status then .error .syntaxError
  else
    let start := text "HTTP/1.1 " ++ decimal status ++ text " " ++ reason
    let _ ← statusLine start
    let headers ← snapshot fields maximum
    if noBody method status then
      let _ ← emptyFraming headers (status < 200 || status == 204 || tunnel method status)
      .ok (start, headers)
    else .ok (start, headers)

def encodeResponse (value : Response) (method : Text) (maximum : Limits) :
    Except ProtocolError Bytes := do
  let (start, headers) ← responseFields value.status value.reason value.headers method maximum
  encodeMessage start headers value.body value.trailers maximum (noBody method value.status)

/-! ## Messages with a produced body -/

structure RequestMetadata where
  method : Text
  target : Text
  headers : List Header
  trailers : List Header

inductive WriteError (E F : Type) where
  | input (error : E)
  | sink (error : F)
  | protocol (error : ProtocolError)
  | count (expected : Nat) (actual : Int)
  deriving DecidableEq

structure Outgoing where
  head : Bytes
  tail : Bytes
  shape : Framing
  budget : Nat
  limits : Limits
  empty : Bool

structure WriterState where
  output : Outgoing
  started : Bool

def outgoingShape (headers : List Header) (maximum : Limits) (empty : Bool) :
    Except ProtocolError Framing :=
  if empty then .ok ⟨some 0, false⟩ else framing headers maximum.bodyBytes

def outgoingTail (trailers : List Header) (maximum : Limits) (chunked : Bool) (budget : Nat) :
    Except ProtocolError (Bytes × Nat) :=
  if chunked then emitLast maximum trailers ([], budget) else .ok ([], budget)

/-- The terminating section is emitted before there is any body. -/
def outgoing (start : Bytes) (headers trailers : List Header) (maximum : Limits) (empty : Bool) :
    Except ProtocolError Outgoing := do
  let shape ← outgoingShape headers maximum empty
  let chunked := shape.chunked || shape.size.isNone
  let suffix ← snapshot trailers maximum
  if suffix.any fun entry => !chunked || !trailer entry then .error .framing
  else
    let state ← emitLine maximum start ([], maximum.metadataBytes)
    let state ← emitFields maximum headers state
    let state ← emitAdded maximum (!shape.chunked && shape.size.isNone)
      (text "Transfer-Encoding: chunked") state
    let (head, budget) ← emitLine maximum [] state
    let (tail, budget) ← outgoingTail suffix maximum chunked budget
    .ok ⟨head, tail, { shape with chunked }, budget, maximum, empty⟩

def requestWriter (value : RequestMetadata) (maximum : Limits) :
    Except ProtocolError WriterState := do
  let (start, headers) ← requestFields value.method value.target value.headers maximum
  let output ← outgoing start headers value.trailers maximum false
  .ok ⟨output, false⟩

/-- What is written for a piece of the body, and what is left of the budget. -/
def outgoingChunk (output : Outgoing) (budget : Nat) (value : Bytes) :
    Except ProtocolError (Bytes × Nat) :=
  if !output.shape.chunked then .ok (value, budget)
  else do
    let (wire, budget) ← emitLine output.limits (hexadecimal value.length) ([], budget)
    emitLine output.limits [] (wire ++ value, budget)

section
variable {S E F : Type} (bytes : S → Except E Bytes) (sink : List Bytes → Bytes → Except F Int)

/-- The new count, and all that was given to the sink. -/
def outputChunk (wire : Bytes) (count : Nat) (given : List Bytes) :
    Except (WriteError E F) Nat × List Bytes :=
  let expected := wire.length
  if 9223372036854775807 - count < expected then (.error (.protocol .limit), given)
  else
    match sink given wire with
    | .error error => (.error (.sink error), given ++ [wire])
    | .ok actual =>
      if actual ≠ expected then (.error (.count expected actual), given ++ [wire])
      else (.ok (count + expected), given ++ [wire])

def writeBody (output : Outgoing) : Nat → Nat → Nat → List S → List Bytes →
    Except (WriteError E F) (Nat × Nat) × List Bytes
  | total, _, count, [], given => (.ok (count, total), given)
  | total, budget, count, item :: rest, given =>
    match bytes item with
    | .error error => (.error (.input error), given)
    | .ok payload =>
      let size := payload.length
      if output.limits.bodyBytes - total < size then (.error (.protocol .limit), given)
      else if output.shape.size.any (· - total < size) then (.error (.protocol .framing), given)
      -- Empty producer buffers are not a chunked message terminator.
      else if size = 0 then writeBody output total budget count rest given
      else
        match outgoingChunk output budget payload with
        | .error error => (.error (.protocol error), given)
        | .ok (wire, budget) =>
          match outputChunk sink wire count given with
          | (.error error, given) => (.error error, given)
          | (.ok count, given) => writeBody output (total + size) budget count rest given

/-- What `write_message` does once it has started. -/
def writeStarted (output : Outgoing) (source : List S) :
    Except (WriteError E F) Nat × List Bytes :=
  match outputChunk sink output.head 0 [] with
  | (.error error, given) => (.error error, given)
  | (.ok count, given) =>
    if output.empty then (.ok count, given)
    else
      match writeBody bytes sink output 0 output.budget count source given with
      | (.error error, given) => (.error error, given)
      | (.ok (count, total), given) =>
        if output.shape.size.any (total ≠ ·) then (.error (.protocol .truncated), given)
        else if output.shape.chunked then outputChunk sink output.tail count given
        else (.ok count, given)

def writeMessage (state : WriterState) (source : List S) :
    (Except (WriteError E F) Nat × List Bytes) × WriterState :=
  if state.started then ((.error (.protocol .closed), []), state)
  else (writeStarted bytes sink state.output source, { state with started := true })

def writeRequest (value : RequestMetadata) (source : List S) (maximum : Limits) :
    Except (WriteError E F) Nat × List Bytes :=
  match requestWriter value maximum with
  | .error error => (.error (.protocol error), [])
  | .ok writer => (writeMessage bytes sink writer source).1

end

end Loom.Http

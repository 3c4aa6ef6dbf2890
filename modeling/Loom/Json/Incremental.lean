import Loom.Json.Writer

/-
  The incremental decoder of JSON documents.

  Correspondence (json/incremental.loom ↔ Lean), where names differ:
    `JsonPhase`, `JsonFrame`, `JsonToken`, `DecoderState` ↔ the types of these names
    `state.frames` ↔ a list with the innermost frame in front
    `Set[Text]` ↔ the list of the keys that are in it
    `json_accept`, `json_token`, `json_expected_value`,
    `json_scan`, `json_failed` ↔ `jsonAccept` … `jsonFailed`
    `json_finished` ↔ `jsonFinished`, with `jsonLast`
    `json_structure` ↔ `jsonStructure`, with `jsonSeparator`
    `json_byte` ↔ `jsonByte`, with `jsonOutside` and `jsonBegins`
    `feed` of a range, `feed` ↔ `feedRange`, `feed`: the result and the state that is kept
-/

namespace Loom.Json

open Utf8 Results List

inductive JsonPhase where
  | first
  | value
  | key
  | colon
  | separator
  deriving DecidableEq

inductive JsonFrame where
  | array (items : List Value) (phase : JsonPhase)
  | object (fields : List (String × Value)) (keys : List String) (key : String) (phase : JsonPhase)

inductive JsonToken where
  | none
  | string
  | escape
  | scalar
  deriving DecidableEq

structure DecoderState where
  offset : Nat
  start : Nat
  mode : JsonToken
  token : List UInt8
  frames : List JsonFrame
  root : Option Value
  failure : Option ParseError
  finished : Bool

def decoder : DecoderState :=
  { offset := 0, start := 0, mode := .none, token := [], frames := [], root := none,
    failure := none, finished := false }

/-- A complete value goes to where the innermost frame is. -/
def jsonAccept (state : DecoderState) (value : Value) : Except Stop DecoderState :=
  match state.frames with
  | [] =>
    match state.root with
    | some _ => error state.offset "unexpected trailing input"
    | none => .ok { state with root := some value }
  | .array items phase :: outer =>
    if phase ≠ .first ∧ phase ≠ .value then error state.offset "expected array separator"
    else .ok { state with frames := .array (items ++ [value]) .separator :: outer }
  | .object fields keys key phase :: outer =>
    if phase = .first ∨ phase = .key then
      match value with
      | .string name =>
        if name ∈ keys then error state.start "duplicate object key"
        else .ok { state with frames := .object fields (keys ++ [name]) name .colon :: outer }
      | _ => error state.start "expected object key"
    else if phase = .value then
      .ok { state with frames := .object (fields ++ [(key, value)]) keys "" .separator :: outer }
    else error state.offset "expected object separator"

/-- The end of a token: the whole parser reads it. -/
def jsonToken (state : DecoderState) : Except Stop DecoderState :=
  match decode state.token with
  | none => error state.start "invalid UTF-8 in JSON token"
  | some text =>
    match parse text with
    | .error (.error failed) => error (state.start + failed.offset) failed.message
    | .error .fault => .error .fault
    | .ok value => jsonAccept { state with token := [], mode := .none } value

def jsonExpectedValue (state : DecoderState) : Except Stop Unit :=
  match state.frames with
  | [] =>
    match state.root with
    | none => .ok ()
    | some _ => error state.offset "unexpected trailing input"
  | .array _ phase :: _ =>
    if phase ≠ .first ∧ phase ≠ .value then error state.offset "expected array separator"
    else .ok ()
  | .object _ _ _ phase :: _ =>
    if phase ≠ .value then error state.offset "expected object value" else .ok ()

/-- A comma or a colon, with the innermost frame. -/
def jsonSeparator (state : DecoderState) (current : UInt8) (outer : List JsonFrame) :
    JsonFrame → Except Stop DecoderState
  | .array items phase =>
    if current ≠ 44 ∨ phase ≠ .separator then error state.offset "expected array separator"
    else .ok { state with frames := .array items .value :: outer }
  | .object fields keys key phase =>
    if current = 58 ∧ phase = .colon then
      .ok { state with frames := .object fields keys key .value :: outer }
    else if current = 44 ∧ phase = .separator then
      .ok { state with frames := .object fields keys "" .key :: outer }
    else error state.offset "expected object separator"

def jsonStructure (state : DecoderState) (current : UInt8) : Except Stop DecoderState :=
  if current = 91 ∨ current = 123 then do
    jsonExpectedValue state
    if 64 ≤ state.frames.length then error state.offset "JSON nesting depth exceeded"
    else
      let frame := if current = 91 then .array [] .first else .object [] [] "" .first
      .ok { state with frames := frame :: state.frames }
  else
    match state.frames with
    | [] => error state.offset "unexpected JSON separator"
    | frame :: outer =>
      if current = 93 ∨ current = 125 then
        match frame with
        | .array items phase =>
          if current ≠ 93 ∨ (phase ≠ .first ∧ phase ≠ .separator) then
            error state.offset "expected array value or closing bracket"
          else jsonAccept { state with frames := outer } (.array items)
        | .object fields _ _ phase =>
          if current ≠ 125 ∨ (phase ≠ .first ∧ phase ≠ .separator) then
            error state.offset "expected object field or closing brace"
          else jsonAccept { state with frames := outer } (.object fields)
      else jsonSeparator state current outer frame

def structural (current : UInt8) : Bool :=
  current = 91 || current = 93 || current = 123 || current = 125 || current = 44 || current = 58

/-- Whether a token may begin: a key has to, where a key is expected. -/
def jsonBegins (state : DecoderState) (current : UInt8) : Except Stop Unit :=
  match state.frames with
  | .object _ _ _ phase :: _ =>
    if phase = .first ∨ phase = .key then
      if current ≠ 34 then error state.offset "expected object key" else .ok ()
    else jsonExpectedValue state
  | _ => jsonExpectedValue state

/-- A byte outside of a token. -/
def jsonOutside (state : DecoderState) (current : UInt8) : Except Stop DecoderState :=
  if space current then .ok state
  else if structural current then jsonStructure state current
  else do
    jsonBegins state current
    .ok { state with
      start := state.offset
      mode := if current = 34 then .string else .scalar
      token := state.token ++ [current] }

def jsonByte (state : DecoderState) (current : UInt8) : Except Stop DecoderState :=
  if state.mode = .scalar then
    if !space current && !structural current && current ≠ 34 then
      .ok { state with token := state.token ++ [current] }
    else do
      let state ← jsonToken state
      jsonOutside state current
  else jsonOutside state current

/-- The loop of `json_scan`, which carries the mode and the token. -/
def scanFrom (previous : DecoderState) :
    Nat → JsonToken → List UInt8 → List UInt8 → Except Stop DecoderState
  | count, mode, token, [] =>
    .ok { previous with offset := previous.offset + count, mode := mode, token := token }
  | count, mode, token, current :: rest =>
    if mode = .escape then scanFrom previous (count + 1) .string (token ++ [current]) rest
    else if mode = .string then
      if current = 92 then scanFrom previous (count + 1) .escape (token ++ [current]) rest
      else if current = 34 then do
        let state ← jsonToken { previous with
          offset := previous.offset + count, mode := .string, token := token ++ [current] }
        .ok { state with offset := state.offset + 1 }
      else scanFrom previous (count + 1) mode (token ++ [current]) rest
    else scanFrom previous (count + 1) mode (token ++ [current]) rest

def jsonScan (previous : DecoderState) (span : List UInt8) : Except Stop DecoderState :=
  scanFrom previous 0 previous.mode previous.token span

def jsonFailed (previous : DecoderState) (failed : ParseError) : DecoderState :=
  { previous with failure := some failed, finished := true, frames := [], token := [], root := none }

/-- What is kept where a call ends early. A fault of the program leaves the state as it is. -/
def stopped (previous : DecoderState) : Stop → DecoderState
  | .error failed => jsonFailed previous failed
  | .fault => previous

/-- The loop of `feed`. Every round takes at least one byte. -/
def feedLoop : Nat → DecoderState → List UInt8 → Except Stop Unit × DecoderState
  | _, state, [] => (.ok (), state)
  | 0, state, _ :: _ => (.error .fault, state)
  | bound + 1, state, current :: rest =>
    if state.mode ≠ .string ∧ state.mode ≠ .escape then
      match jsonByte state current with
      | .ok next => feedLoop bound { next with offset := next.offset + 1 } rest
      | .error stop => (.error stop, stopped state stop)
    else
      match jsonScan state (current :: rest) with
      | .ok next => feedLoop bound next ((current :: rest).drop (next.offset - state.offset))
      | .error stop => (.error stop, stopped state stop)

def feedRange (state : DecoderState) (chunk : List UInt8) (start stop : Nat) :
    Except Stop Nat × DecoderState :=
  match state.failure with
  | some failed => (.error (.error failed), state)
  | none =>
    if state.finished then (error state.offset "JSON decoder is finished", state)
    else
      match feedLoop (stop - start) state ((chunk.take stop).drop start) with
      | (.ok (), state) => (.ok (stop - start), state)
      | (.error failed, state) => (.error failed, state)

def feed (state : DecoderState) (chunk : List UInt8) : Except Stop Nat × DecoderState :=
  feedRange state chunk 0 chunk.length

/-- The state behind the last token. -/
def jsonLast (previous : DecoderState) : Except Stop DecoderState :=
  if previous.mode ≠ .none then jsonToken previous else .ok previous

def jsonFinished (previous : DecoderState) : Except Stop Value := do
  let state ← jsonLast previous
  if state.frames ≠ [] then error state.offset "unterminated JSON container"
  else
    match state.root with
    | some value => .ok value
    | none => error state.offset "expected JSON value"

def finish (state : DecoderState) : Except Stop Value × DecoderState :=
  match state.failure with
  | some failed => (.error (.error failed), state)
  | none =>
    if state.finished then (error state.offset "JSON decoder is finished", state)
    else
      let outcome := jsonFinished state
      let state := { state with finished := true, frames := [], token := [], root := none }
      match outcome with
      | .error (.error failed) => (outcome, { state with failure := some failed })
      | _ => (outcome, state)

/-- A document in chunks: every chunk is fed, then the decoder is finished. -/
def decodeChunks : DecoderState → List (List UInt8) → Except Stop Value
  | state, [] => (finish state).1
  | state, chunk :: more =>
    match feed state chunk with
    | (.ok _, state) => decodeChunks state more
    | (.error stop, _) => .error stop

/-! ## One byte after the other -/

/-- A byte inside a string: a closing quote ends the token. -/
def scanByte (state : DecoderState) (current : UInt8) : Except Stop DecoderState :=
  if state.mode = .escape then
    .ok { state with
      offset := state.offset + 1, mode := .string, token := state.token ++ [current] }
  else if current = 92 then
    .ok { state with
      offset := state.offset + 1, mode := .escape, token := state.token ++ [current] }
  else if current = 34 then do
    let next ← jsonToken { state with token := state.token ++ [current] }
    .ok { next with offset := next.offset + 1 }
  else .ok { state with offset := state.offset + 1, token := state.token ++ [current] }

def stepByte (state : DecoderState) (current : UInt8) : Except Stop DecoderState :=
  if state.mode ≠ .string ∧ state.mode ≠ .escape then do
    let next ← jsonByte state current
    .ok { next with offset := next.offset + 1 }
  else scanByte state current

def drive : DecoderState → List UInt8 → Except Stop DecoderState
  | state, [] => .ok state
  | state, current :: rest => do
    let next ← stepByte state current
    drive next rest

section
variable {state : DecoderState} {current : UInt8}

theorem stepByte_outside (h : state.mode ≠ .string ∧ state.mode ≠ .escape) (current : UInt8) :
    stepByte state current = (do
      let next ← jsonByte state current
      .ok { next with offset := next.offset + 1 }) :=
  if_pos h

theorem stepByte_escape (h : state.mode = .escape) (current : UInt8) :
    stepByte state current = .ok { state with
      offset := state.offset + 1, mode := .string, token := state.token ++ [current] } := by
  rw [stepByte, if_neg (fun hout => hout.2 h), scanByte, if_pos h]

theorem stepByte_string (h : state.mode = .string) (current : UInt8) :
    stepByte state current =
      if current = 92 then
        .ok { state with
          offset := state.offset + 1, mode := .escape, token := state.token ++ [current] }
      else if current = 34 then do
        let next ← jsonToken { state with token := state.token ++ [current] }
        .ok { next with offset := next.offset + 1 }
      else .ok { state with offset := state.offset + 1, token := state.token ++ [current] } := by
  rw [stepByte, if_neg (fun hout => hout.1 h), scanByte, if_neg (by rw [h]; decide)]

end

theorem drive_append (state : DecoderState) (part rest : List UInt8) :
    drive state (part ++ rest) = (do let next ← drive state part; drive next rest) := by
  induction part generalizing state with
  | nil => rfl
  | cons current part ih =>
    rw [cons_append, drive, drive]
    cases stepByte state current with
    | error stop => rfl
    | ok next => exact ih next

theorem drive_ok {state next : DecoderState} {part : List UInt8} (h : drive state part = .ok next)
    (rest : List UInt8) : drive state (part ++ rest) = drive next rest := by
  rw [drive_append, h, ok_bind]

/-! ## What the steps leave alone -/

/-- The parts of a state that no token changes. -/
structure Alike (state next : DecoderState) : Prop where
  offset : next.offset = state.offset
  failure : next.failure = state.failure
  finished : next.finished = state.finished

section
variable {state next : DecoderState}

theorem jsonAccept_eq {value : Value} (h : jsonAccept state value = .ok next) :
    ∃ frames root, next = { state with frames := frames, root := root } := by
  unfold jsonAccept at h
  split at h
  · split at h
    · cases h
    · cases h
      exact ⟨_, _, rfl⟩
  · split at h
    · cases h
    · cases h
      exact ⟨_, _, rfl⟩
  · split at h
    · split at h
      · split at h
        · cases h
        · cases h
          exact ⟨_, _, rfl⟩
      · cases h
    · split at h
      · cases h
        exact ⟨_, _, rfl⟩
      · cases h

theorem jsonToken_eq_ok :
    jsonToken state = .ok next ↔
      ∃ text value, bytes text = state.token ∧ parse text = .ok value ∧
        jsonAccept { state with token := [], mode := .none } value = .ok next := by
  unfold jsonToken
  split
  · next hnone =>
    refine ⟨nofun, ?_⟩
    intro ⟨text, value, htext, _⟩
    rw [← htext, decode_bytes] at hnone
    cases hnone
  · next text hsome =>
    have htext := decode_eq_some.mp hsome
    have hsame : ∀ {other}, bytes other = state.token → other = text :=
      fun h => bytes_injective (h.trans htext.symm)
    split
    · next hparse =>
      refine ⟨nofun, ?_⟩
      intro ⟨other, value, hother, hvalue, _⟩
      rw [hsame hother, hparse] at hvalue
      cases hvalue
    · next hparse =>
      refine ⟨nofun, ?_⟩
      intro ⟨other, value, hother, hvalue, _⟩
      rw [hsame hother, hparse] at hvalue
      cases hvalue
    · next value hparse =>
      refine ⟨fun h => ⟨text, value, htext, hparse, h⟩, ?_⟩
      intro ⟨other, value', hother, hvalue, haccept⟩
      rw [hsame hother, hparse] at hvalue
      cases hvalue
      exact haccept

theorem jsonToken_alike (h : jsonToken state = .ok next) : Alike state next := by
  obtain ⟨_, _, _, _, haccept⟩ := jsonToken_eq_ok.mp h
  obtain ⟨_, _, rfl⟩ := jsonAccept_eq haccept
  exact ⟨rfl, rfl, rfl⟩

variable {current : UInt8}

theorem jsonSeparator_eq {outer : List JsonFrame} {frame : JsonFrame}
    (h : jsonSeparator state current outer frame = .ok next) :
    ∃ frames root, next = { state with frames := frames, root := root } := by
  unfold jsonSeparator at h
  split at h
  · split at h
    · cases h
    · cases h
      exact ⟨_, _, rfl⟩
  · split at h
    · cases h
      exact ⟨_, _, rfl⟩
    · split at h
      · cases h
        exact ⟨_, _, rfl⟩
      · cases h

theorem jsonStructure_eq (h : jsonStructure state current = .ok next) :
    ∃ frames root, next = { state with frames := frames, root := root } := by
  have hpopped : ∀ {outer value}, jsonAccept { state with frames := outer } value = .ok next →
      ∃ frames root, next = { state with frames := frames, root := root } := by
    intro outer value haccept
    obtain ⟨frames, root, rfl⟩ := jsonAccept_eq haccept
    exact ⟨frames, root, rfl⟩
  unfold jsonStructure at h
  split at h
  · obtain ⟨_, _, h⟩ := bind_eq_ok.mp h
    split at h
    · cases h
    · cases h
      exact ⟨_, _, rfl⟩
  · split at h
    · cases h
    · split at h
      · split at h
        · split at h
          · cases h
          · exact hpopped h
        · split at h
          · cases h
          · exact hpopped h
      · exact jsonSeparator_eq h

theorem jsonOutside_alike (h : jsonOutside state current = .ok next) : Alike state next := by
  unfold jsonOutside at h
  split at h
  · cases h
    exact ⟨rfl, rfl, rfl⟩
  · split at h
    · obtain ⟨_, _, rfl⟩ := jsonStructure_eq h
      exact ⟨rfl, rfl, rfl⟩
    · obtain ⟨_, _, h⟩ := bind_eq_ok.mp h
      cases h
      exact ⟨rfl, rfl, rfl⟩

theorem jsonByte_alike (h : jsonByte state current = .ok next) : Alike state next := by
  unfold jsonByte at h
  split at h
  · split at h
    · cases h
      exact ⟨rfl, rfl, rfl⟩
    · obtain ⟨middle, htoken, h⟩ := bind_eq_ok.mp h
      have hfront := jsonToken_alike htoken
      have hback := jsonOutside_alike h
      exact ⟨hback.offset.trans hfront.offset, hback.failure.trans hfront.failure,
        hback.finished.trans hfront.finished⟩
  · exact jsonOutside_alike h

/-- Every step moves the offset by one byte. -/
structure Moved (count : Nat) (state next : DecoderState) : Prop where
  offset : next.offset = state.offset + count
  failure : next.failure = state.failure
  finished : next.finished = state.finished

theorem Alike.moved (h : Alike state next) : Moved 1 state { next with offset := next.offset + 1 } :=
  ⟨congrArg (· + 1) h.offset, h.failure, h.finished⟩

theorem stepByte_moved (h : stepByte state current = .ok next) : Moved 1 state next := by
  unfold stepByte at h
  split at h
  · obtain ⟨middle, hbyte, h⟩ := bind_eq_ok.mp h
    cases h
    exact (jsonByte_alike hbyte).moved
  · unfold scanByte at h
    split at h
    · cases h
      exact ⟨rfl, rfl, rfl⟩
    · split at h
      · cases h
        exact ⟨rfl, rfl, rfl⟩
      · split at h
        · obtain ⟨middle, htoken, h⟩ := bind_eq_ok.mp h
          cases h
          have halike := jsonToken_alike htoken
          exact ⟨congrArg (· + 1) halike.offset, halike.failure, halike.finished⟩
        · cases h
          exact ⟨rfl, rfl, rfl⟩

theorem drive_moved {part : List UInt8} (h : drive state part = .ok next) :
    Moved part.length state next := by
  induction part generalizing state with
  | nil =>
    cases h
    exact ⟨rfl, rfl, rfl⟩
  | cons current part ih =>
    obtain ⟨middle, hstep, hrest⟩ := bind_eq_ok.mp h
    have hfront := stepByte_moved hstep
    have hback := ih hrest
    refine ⟨?_, hback.failure.trans hfront.failure, hback.finished.trans hfront.finished⟩
    rw [hback.offset, hfront.offset, length_cons]; omega

end

/-! ## Spans of a string -/

/-- The state in the middle of a span. -/
def scanned (previous : DecoderState) (count : Nat) (mode : JsonToken) (token : List UInt8) :
    DecoderState :=
  { previous with offset := previous.offset + count, mode := mode, token := token }

section
variable {previous next : DecoderState} {count : Nat} {mode : JsonToken}
variable {token rest : List UInt8}

/-- A span is read as its bytes are, up to the closing quote. -/
theorem scanFrom_drive (hmode : mode = .string ∨ mode = .escape) :
    (∀ {next}, scanFrom previous count mode token rest = .ok next →
      ∃ part left, rest = part ++ left ∧ (rest ≠ [] → part ≠ []) ∧
        drive (scanned previous count mode token) part = .ok next) ∧
    (∀ {stop}, scanFrom previous count mode token rest = .error stop →
      drive (scanned previous count mode token) rest = .error stop) := by
  induction rest generalizing count mode token with
  | nil =>
    refine ⟨?_, nofun⟩
    intro next h
    cases h
    exact ⟨[], [], rfl, fun hnone => absurd rfl hnone, rfl⟩
  | cons current rest ih =>
    -- One more byte of the span: the loop and the steps go on from the same state.
    have hmore : ∀ {after : JsonToken}, (after = .string ∨ after = .escape) →
        scanFrom previous count mode token (current :: rest) =
          scanFrom previous (count + 1) after (token ++ [current]) rest →
        stepByte (scanned previous count mode token) current =
          .ok (scanned previous (count + 1) after (token ++ [current])) →
        (∀ {next}, scanFrom previous count mode token (current :: rest) = .ok next →
          ∃ part left, current :: rest = part ++ left ∧ (current :: rest ≠ [] → part ≠ []) ∧
            drive (scanned previous count mode token) part = .ok next) ∧
        (∀ {stop}, scanFrom previous count mode token (current :: rest) = .error stop →
          drive (scanned previous count mode token) (current :: rest) = .error stop) := by
      intro after hafter hloop hstep
      obtain ⟨hok, herror⟩ := ih hafter
      rw [hloop]
      refine ⟨?_, ?_⟩
      · intro next h
        obtain ⟨part, left, hrest, _, hdrive⟩ := hok h
        refine ⟨current :: part, left, by rw [hrest]; rfl, nofun, ?_⟩
        rw [drive, hstep]; exact hdrive
      · intro stop h
        rw [drive, hstep]; exact herror h
    by_cases hescape : mode = .escape
    · exact hmore (.inl rfl) (by rw [scanFrom, if_pos hescape]) (stepByte_escape hescape current)
    · obtain rfl : mode = .string := hmode.resolve_right hescape
      have hstep := @stepByte_string (scanned previous count .string token) rfl current
      by_cases hslash : current = 92
      · rw [if_pos hslash] at hstep
        exact hmore (.inr rfl) (by rw [scanFrom, if_neg hescape, if_pos rfl, if_pos hslash]) hstep
      · by_cases hquote : current = 34
        · rw [if_neg hslash, if_pos hquote] at hstep
          have hloop : scanFrom previous count .string token (current :: rest) =
              stepByte (scanned previous count .string token) current := by
            rw [scanFrom, if_neg hslash, if_pos hquote, hstep]; rfl
          rw [hloop]
          refine ⟨?_, ?_⟩
          · intro next h
            refine ⟨[current], rest, rfl, nofun, ?_⟩
            rw [drive, h]; rfl
          · intro stop h
            rw [drive, h]; rfl
        · rw [if_neg hslash, if_neg hquote] at hstep
          exact hmore (.inl rfl)
            (by rw [scanFrom, if_neg hescape, if_pos rfl, if_neg hslash, if_neg hquote]) hstep

end

/-! ## Chunks -/

/-- One call of `feed` takes its bytes one after the other. -/
theorem feedLoop_drive {bound : Nat} {state : DecoderState} {rest : List UInt8}
    (hbound : rest.length ≤ bound) :
    (∀ {next}, drive state rest = .ok next → feedLoop bound state rest = (.ok (), next)) ∧
    (∀ {stop}, drive state rest = .error stop → (feedLoop bound state rest).1 = .error stop) := by
  induction bound generalizing state rest with
  | zero =>
    obtain rfl : rest = [] := eq_nil_of_length_eq_zero (by omega)
    refine ⟨?_, nofun⟩
    intro next h
    cases h
    rfl
  | succ bound ih =>
    cases rest with
    | nil =>
      refine ⟨?_, nofun⟩
      intro next h
      cases h
      rfl
    | cons current rest =>
      rw [length_cons] at hbound
      by_cases hmode : state.mode ≠ .string ∧ state.mode ≠ .escape
      · rw [feedLoop, if_pos hmode, drive, stepByte_outside hmode]
        cases jsonByte state current with
        | error stop =>
          refine ⟨nofun, ?_⟩
          intro other h
          have hsame : (Except.error stop : Except Stop DecoderState) = .error other := h
          cases hsame
          rfl
        | ok next =>
          exact ih (by omega)
      · have hinside : state.mode = .string ∨ state.mode = .escape := by
          cases hcase : state.mode <;> simp_all
        obtain ⟨hok, herror⟩ := @scanFrom_drive state 0 state.mode state.token (current :: rest)
          hinside
        rw [feedLoop, if_neg hmode]
        cases hscan : jsonScan state (current :: rest) with
        | error stop =>
          have hdrive : drive state (current :: rest) = .error stop := herror hscan
          rw [hdrive]
          refine ⟨nofun, ?_⟩
          intro other h
          cases h
          rfl
        | ok next =>
          obtain ⟨part, left, hrest, hpart, hdrive⟩ := hok hscan
          have hdrive : drive state part = .ok next := hdrive
          have hmoved := drive_moved hdrive
          have hlength := congrArg length hrest
          rw [length_append, length_cons] at hlength
          have hsome : part.length ≠ 0 := by simpa using hpart nofun
          have hleft : (current :: rest).drop (next.offset - state.offset) = left := by
            rw [hmoved.offset, Nat.add_sub_cancel_left, hrest, drop_left]
          dsimp only
          rw [hleft, hrest, drive_ok hdrive]; exact ih (by omega)

/-- A decoder that has not failed and is not finished. -/
structure Running (state : DecoderState) : Prop where
  failure : state.failure = none
  finished : state.finished = false

theorem running_decoder : Running decoder := ⟨rfl, rfl⟩

section
variable {state next : DecoderState}

theorem Moved.running {count : Nat} (h : Moved count state next) (hrunning : Running state) :
    Running next :=
  ⟨h.failure.trans hrunning.failure, h.finished.trans hrunning.finished⟩

theorem finish_running (h : Running state) : (finish state).1 = jsonFinished state := by
  unfold finish
  rw [h.failure, h.finished]
  cases jsonFinished state with
  | ok value => rfl
  | error stop => cases stop <;> rfl

theorem feedRange_step {chunk : List UInt8} {start stop : Nat} (h : Running state)
    (hstop : stop ≤ chunk.length) :
    (∀ {next}, drive state ((chunk.take stop).drop start) = .ok next →
      feedRange state chunk start stop = (.ok (stop - start), next)) ∧
    (∀ {reason}, drive state ((chunk.take stop).drop start) = .error reason →
      (feedRange state chunk start stop).1 = .error reason) := by
  have hlength : ((chunk.take stop).drop start).length ≤ stop - start := by
    rw [length_drop, length_take]; omega
  obtain ⟨hok, herror⟩ := @feedLoop_drive _ state _ hlength
  unfold feedRange
  rw [h.failure, h.finished]
  refine ⟨?_, ?_⟩
  · intro next hdrive
    rw [hok hdrive]; rfl
  · intro reason hdrive
    have hloop := herror hdrive
    show (match feedLoop (stop - start) state ((chunk.take stop).drop start) with
      | (.ok (), state) => ((.ok (stop - start) : Except Stop Nat), state)
      | (.error failed, state) => (.error failed, state)).1 = .error reason
    split
    · next hcase =>
      rw [hcase] at hloop
      cases hloop
    · next hcase =>
      rw [hcase] at hloop
      cases hloop
      rfl

theorem feed_step {chunk : List UInt8} (h : Running state) :
    (∀ {next}, drive state chunk = .ok next → feed state chunk = (.ok chunk.length, next)) ∧
    (∀ {reason}, drive state chunk = .error reason → (feed state chunk).1 = .error reason) := by
  have hwhole : (chunk.take chunk.length).drop 0 = chunk := by simp
  have hstep := @feedRange_step state chunk 0 chunk.length h (Nat.le_refl _)
  rw [hwhole] at hstep; exact hstep

/-- The outcome of a document does not depend on the cuts. -/
theorem decodeChunks_eq {chunks : List (List UInt8)} (h : Running state) :
    decodeChunks state chunks =
      (do let next ← drive state chunks.flatten; jsonFinished next) := by
  induction chunks generalizing state with
  | nil => exact finish_running h
  | cons chunk more ih =>
    obtain ⟨hok, herror⟩ := @feed_step state chunk h
    rw [flatten_cons, drive_append, decodeChunks]
    cases hdrive : drive state chunk with
    | ok next =>
      rw [hok hdrive]; exact ih ((drive_moved hdrive).running h)
    | error reason =>
      have hfeed := herror hdrive
      split
      · next hcase =>
        rw [hcase] at hfeed
        cases hfeed
      · next hcase =>
        rw [hcase] at hfeed
        cases hfeed
        rfl

end

end Loom.Json

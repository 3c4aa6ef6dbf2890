import Loom.Http.Grammar

/-
  Reading HTTP/1.1 messages from a stream of chunks.

  A reader is a cursor into the current chunk, and what the source still gives. A
  program over it keeps the reader when it fails, as the cursor is shared; the octet
  budget of a message and the progress of its body are passed along, because after a
  failure nothing reads them again. Reads are made one after another, and a `defer`
  is what follows a call, whatever the call gives. Cancellation is left out.

  Correspondence (net/http ↔ Lean):
    reader.loom: `Cursor`, `Reader`, `State`, `retire`, `begin`, `line`,
    `required_line`, `fields`, `collected_body`,
    `read_request`, `read_response` ↔ the same names
    `available` ↔ `refill`, `available`
    the loop over a chunk in `line` ↔ `scan`
    bodies.loom: `BodyPhase`, `Progress`, `Body`, `BodyState`, `new_body`,
    `body_done`, `body_failed`, `body_next`, `next`,
    `trailers`, `dispose` ↔ the same names
    incoming.loom: `open_request`, `open_response` ↔ the same names
-/

namespace Loom.Http

open Prod

inductive ReadError (E : Type) where
  | input (error : E)
  | protocol (error : ProtocolError)
  deriving DecidableEq, Repr

structure Request where
  method : Text
  target : Text
  headers : List Header
  body : Bytes
  trailers : List Header
  deriving DecidableEq, Repr

structure Response where
  status : Nat
  reason : Bytes
  headers : List Header
  body : Bytes
  trailers : List Header
  deriving DecidableEq, Repr

structure Cursor where
  chunk : Bytes
  position : Nat
  eof : Bool
  retired : Bool
  busy : Bool

structure Reader (S E : Type) where
  source : List S
  bytes : S → Except E Bytes
  limits : Limits
  cursor : Cursor

/-- Programs over a reader, which they leave in some state also when they fail. -/
abbrev Reading (S E α : Type) := ExceptT (ReadError E) (StateM (Reader S E)) α

section
variable {S E α : Type}

def reader (source : List S) (bytes : S → Except E Bytes) (maximum : Limits) : Reader S E :=
  ⟨source, bytes, maximum, ⟨[], 0, false, false, false⟩⟩

/-! ## The cursor -/

def Cursor.retire (cursor : Cursor) : Cursor :=
  { cursor with chunk := [], position := 0, retired := true, busy := false }

def Reader.setCursor (input : Reader S E) (cursor : Cursor) : Reader S E := { input with cursor }

def modifyCursor (change : Cursor → Cursor) : Reading S E Unit := fun input =>
  (.ok (), input.setCursor (change input.cursor))

def retire : Reading S E Unit := modifyCursor Cursor.retire

/-- The lease of the reader ends. -/
def release : Reading S E Unit := modifyCursor fun cursor => { cursor with busy := false }

def failed (error : ProtocolError) : Reading S E α := fun input =>
  (.error (.protocol error), input)

def protocol (value : Except ProtocolError α) : Reading S E α := fun input =>
  match value with
  | .ok value => (.ok value, input)
  | .error error => (.error (.protocol error), input)

def begin : Reading S E Unit := fun input =>
  if input.cursor.busy then (.error (.protocol .busy), input)
  else if input.cursor.retired then (.error (.protocol .closed), input)
  else (.ok (), input.setCursor { input.cursor with busy := true })

/-- `defer` of an action for the case that the rest fails. -/
def deferFailure (action : Reading S E Unit) (rest : Reading S E α) : Reading S E α := fun input =>
  match rest input with
  | (.ok value, input) => (.ok value, input)
  | (.error error, input) => (.error error, (action input).2)

/-- The loop of `available`. -/
def refill (bytes : S → Except E Bytes) :
    Cursor → List S → Except (ReadError E) Bool × Cursor × List S
  | cursor, [] =>
    if cursor.position ≠ cursor.chunk.length then (.ok true, cursor, [])
    else if cursor.eof then (.ok false, cursor, [])
    else (.ok false, { cursor with chunk := [], position := 0, eof := true }, [])
  | cursor, item :: rest =>
    if cursor.position ≠ cursor.chunk.length then (.ok true, cursor, item :: rest)
    else if cursor.eof then (.ok false, cursor, item :: rest)
    else
      match bytes item with
      | .error error => (.error (.input error), cursor, rest)
      | .ok chunk => refill bytes { cursor with chunk, position := 0 } rest

def available : Reading S E Bool := fun input =>
  let (result, cursor, source) := refill input.bytes input.cursor input.source
  (result, { input with cursor, source })

/-! ## Lines -/

/-- How the loop over what is left of a chunk ends. -/
inductive Scanned where
  | line (budget : Nat) (output : Bytes) (rest : Bytes)
  | more (budget : Nat) (carriage : Bool) (output : Bytes)
  | failed (error : ProtocolError)

def scan (maximum : Nat) : Nat → Bool → Bytes → Bytes → Scanned
  | budget, carriage, output, [] => .more budget carriage output
  | budget, carriage, output, next :: rest =>
    if budget = 0 then .failed .limit
    else if carriage then
      if next ≠ 10 then .failed .syntaxError else .line (budget - 1) output rest
    else if next = 13 then scan maximum (budget - 1) true output rest
    else if next = 10 then .failed .syntaxError
    else if output.length = maximum then .failed .limit
    else scan maximum (budget - 1) carriage (output ++ [next]) rest

theorem refill_shorter {bytes : S → Except E Bytes} {cursor left : Cursor} {source rest : List S}
    (h : refill bytes cursor source = (.ok true, left, rest)) :
    cursor.position ≠ cursor.chunk.length ∧ rest.length = source.length ∨
      rest.length < source.length := by
  fun_induction refill bytes cursor source with
  | case1 cursor hposition =>
    obtain ⟨-, -, rfl⟩ := mk.injEq .. ▸ h
    exact .inl ⟨hposition, rfl⟩
  | case4 cursor item rest' hposition =>
    obtain ⟨-, -, rfl⟩ := mk.injEq .. ▸ h
    exact .inl ⟨hposition, rfl⟩
  | case7 cursor item rest' _ _ chunk _ ih =>
    obtain ⟨-, hlength⟩ | hlength := ih h <;> simp only [List.length_cons] <;> omega
  | _ => simp at h

/-- The loop of `line`, with what it gives, the cursor and what the source still has. -/
def lineLoop (bytes : S → Except E Bytes) (maximum : Nat) (budget : Nat) (carriage : Bool)
    (output : Bytes) (cursor : Cursor) (source : List S) :
    Except (ReadError E) (Option Bytes × Nat) × Cursor × List S :=
  match _h : refill bytes cursor source with
  | (.error error, current, rest) => (.error error, current, rest)
  | (.ok false, current, rest) =>
    if carriage || !output.isEmpty then (.error (.protocol .truncated), current, rest)
    else (.ok (none, budget), current, rest)
  | (.ok true, current, rest) =>
    match scan maximum budget carriage output (current.chunk.drop current.position) with
    | .failed error => (.error (.protocol error), current, rest)
    | .line budget output left =>
      (.ok (some output, budget), { current with position := current.chunk.length - left.length },
        rest)
    | .more budget carriage output =>
      lineLoop bytes maximum budget carriage output
        { current with position := current.chunk.length } rest
termination_by (source.length, if cursor.position = cursor.chunk.length then 0 else 1)
decreasing_by
  obtain ⟨hposition, hlength⟩ | hlength := refill_shorter _h
  · simp only [hlength, hposition, ↓reduceIte]
    exact Prod.Lex.right _ Nat.one_pos
  · exact Prod.Lex.left _ _ hlength

def line (budget : Nat) : Reading S E (Option Bytes × Nat) := fun input =>
  let (result, cursor, source) :=
    lineLoop input.bytes input.limits.lineBytes budget false [] input.cursor input.source
  (result, { input with cursor, source })

def requiredLine (budget : Nat) : Reading S E (Bytes × Nat) := fun input =>
  match line budget input with
  | (.error error, input) => (.error error, input)
  | (.ok (some value, left), input) => (.ok (value, left), input)
  | (.ok (none, _), input) => (.error (.protocol .truncated), input)

/-- A line takes at least an octet from the budget, and a part of one takes none back. -/
theorem scan_budget (maximum budget : Nat) (carriage : Bool) (output chunk : Bytes) :
    match scan maximum budget carriage output chunk with
    | .line left _ _ => left < budget
    | .more left _ _ => left ≤ budget
    | .failed _ => True := by
  induction chunk generalizing budget carriage output with
  | nil => exact le_rfl
  | cons next rest ih =>
    -- The octet is taken, and the rest only takes more.
    have htaken (carriage : Bool) (output : Bytes) (hbudget : budget ≠ 0) :
        match scan maximum (budget - 1) carriage output rest with
        | .line left _ _ => left < budget
        | .more left _ _ => left ≤ budget
        | .failed _ => True := by
      have hrest := ih (budget - 1) carriage output
      split <;> simp_all only [] <;> omega
    unfold scan
    by_cases hbudget : budget = 0
    · simp [hbudget]
    · split_ifs
      · trivial
      · exact Nat.sub_lt (Nat.pos_of_ne_zero hbudget) Nat.one_pos
      · exact htaken true output hbudget
      · trivial
      · trivial
      · exact htaken carriage (output ++ [next]) hbudget

variable {budget left : Nat} {input after : Reader S E}

theorem lineLoop_budget {bytes : S → Except E Bytes} {maximum : Nat} {carriage : Bool}
    {output result : Bytes} {cursor after : Cursor} {source rest : List S}
    (h : lineLoop bytes maximum budget carriage output cursor source =
      (.ok (some result, left), after, rest)) : left < budget := by
  fun_induction lineLoop bytes maximum budget carriage output cursor source with
  | case5 budget carriage output _ _ current _ _ found line rest hscan =>
    have hbudget := scan_budget maximum budget carriage output (current.chunk.drop current.position)
    rw [hscan] at hbudget
    obtain ⟨-, rfl⟩ := mk.inj (Except.ok.inj (mk.inj h).1)
    exact hbudget
  | case6 budget carriage output _ _ current _ _ found after' output' hscan ih =>
    have hbudget := scan_budget maximum budget carriage output (current.chunk.drop current.position)
    rw [hscan] at hbudget; exact Nat.lt_of_lt_of_le (ih h) hbudget
  | _ => simp at h

theorem line_budget {value : Bytes} (h : line budget input = (.ok (some value, left), after)) :
    left < budget := by
  obtain ⟨hresult, -⟩ := mk.inj h
  exact lineLoop_budget (Prod.ext hresult rfl)

theorem requiredLine_budget {value : Bytes}
    (h : requiredLine budget input = (.ok (value, left), after)) : left < budget := by
  unfold requiredLine at h
  split at h
  · cases (mk.inj h).1
  · rename_i hline
    obtain ⟨hresult, -⟩ := mk.inj h
    obtain ⟨-, rfl⟩ := mk.inj (Except.ok.inj hresult)
    exact line_budget hline
  · cases (mk.inj h).1

/-! ## Fields -/

/-- The loop of `fields`. Every line takes octets from the budget. -/
def fieldsLoop (trailers : Bool) (budget : Nat) (output : List Header) :
    Reading S E (List Header × Nat) := fun input =>
  match _h : requiredLine budget input with
  | (.error error, input) => (.error error, input)
  | (.ok (next, left), input) =>
    if next.isEmpty then (.ok (output, left), input)
    else
      match field next with
      | .error error => (.error (.protocol error), input)
      | .ok entry =>
        if trailers && !trailer entry then (.error (.protocol .framing), input)
        else fieldsLoop trailers left (output ++ [entry]) input
termination_by budget
decreasing_by exact requiredLine_budget _h

theorem fieldsLoop_error {trailers : Bool} {output : List Header} {error : ReadError E}
    (h : requiredLine budget input = (.error error, after)) :
    fieldsLoop trailers budget output input = (.error error, after) := by
  rw [fieldsLoop]
  split
  · rename_i h'
    rw [h] at h'
    obtain ⟨hresult, rfl⟩ := mk.inj h'
    rw [Except.error.inj hresult]
  · rename_i h'
    rw [h] at h'
    cases (mk.inj h').1

theorem fieldsLoop_ok {trailers : Bool} {output : List Header} {next : Bytes}
    (h : requiredLine budget input = (.ok (next, left), after)) :
    fieldsLoop trailers budget output input =
      if next.isEmpty then (.ok (output, left), after)
      else
        match field next with
        | .error error => (.error (.protocol error), after)
        | .ok entry =>
          if trailers && !trailer entry then (.error (.protocol .framing), after)
          else fieldsLoop trailers left (output ++ [entry]) after := by
  rw [fieldsLoop]
  split
  · rename_i h'
    rw [h] at h'
    cases (mk.inj h').1
  · rename_i h'
    rw [h] at h'
    obtain ⟨hresult, rfl⟩ := mk.inj h'
    cases hresult
    rfl

def fields (budget : Nat) (trailers : Bool) : Reading S E (List Header × Nat) :=
  fieldsLoop trailers budget []

/-! ## Bodies -/

inductive BodyPhase where
  | fixed
  | size
  | data
  | terminator
  | end
  | done
  | failed
  deriving DecidableEq

/-- `remaining` is -1 until the end of the input, which no branch reads. -/
structure Progress where
  phase : BodyPhase
  remaining : Nat
  total : Nat
  pulling : Bool
  trailers : List Header

structure Body where
  maximum : Nat
  budget : Nat
  progress : Progress

def newBody (shape : Framing) (budget maximum : Nat) (request : Bool) : Reading S E Body := do
  let phase :=
    if shape.chunked then BodyPhase.size
    else
      match shape.size with
      | none => if request then BodyPhase.done else BodyPhase.end
      | some size => if size = 0 then BodyPhase.done else BodyPhase.fixed
  if phase = .done then release
  pure ⟨maximum, budget, ⟨phase, shape.size.getD 0, 0, false, []⟩⟩

def bodyDone (body : Body) (trailers : List Header) : Body :=
  { body with progress := { body.progress with phase := .done, trailers } }

def bodyFailed (body : Body) : Body :=
  { body with progress := { body.progress with phase := .failed, pulling := false, trailers := [] } }

/-- The branch of `body_next` that gives data: `Fixed`, `Data` and `End`. -/
def bodyData (body : Body) : Reading S E (Option Bytes × Body) := do
  let current := body.progress
  if !(← available) then
    if current.phase ≠ .end then failed .truncated
    else pure (none, bodyDone body [])
  else fun input =>
    let cursor := input.cursor
    let buffered := min (cursor.chunk.length - cursor.position) body.maximum
    let count := if current.phase = .end then buffered else min buffered current.remaining
    if input.limits.bodyBytes - current.total < count then (.error (.protocol .limit), input)
    else
      let output := (cursor.chunk.drop cursor.position).take count
      let remaining := current.remaining - count
      let progress := { current with remaining, total := current.total + count }
      let body := { body with progress }
      let body :=
        if current.phase = .end ∨ remaining ≠ 0 then body
        else if current.phase = .fixed then bodyDone body []
        else { body with progress := { progress with phase := .terminator } }
      (.ok (some output, body), input.setCursor { cursor with position := cursor.position + count })

/-- The branch of `Size`: another chunk, or the trailers. -/
def bodySize (body : Body) : Reading S E (Option Bytes × Body) := do
  let (next, budget) ← requiredLine body.budget
  let limits := (← get).limits
  let size ← protocol (chunkSize next (limits.bodyBytes - body.progress.total))
  if size = 0 then
    let (trailers, budget) ← fields budget true
    pure (none, bodyDone { body with budget } trailers)
  else
    bodyData { body with
      budget
      progress := { body.progress with phase := .data, remaining := size } }

def bodyTerminator (body : Body) : Reading S E (Option Bytes × Body) := do
  let (next, budget) ← requiredLine body.budget
  if !next.isEmpty then failed .syntaxError
  else bodySize { body with budget, progress := { body.progress with phase := .size } }

def bodyNext (body : Body) : Reading S E (Option Bytes × Body) :=
  match body.progress.phase with
  | .size => bodySize body
  | .terminator => bodyTerminator body
  | .done | .failed => pure (none, body)
  | .fixed | .data | .end => bodyData body

/-- `Stream::next` of a body: nothing, or what it gives, and the body afterwards. -/
def next (body : Body) (input : Reader S E) :
    Option (Except (ReadError E) Bytes) × Body × Reader S E :=
  let current := body.progress
  if current.pulling then (some (.error (.protocol .busy)), body, input)
  else if current.phase = .done ∨ current.phase = .failed then (none, body, input)
  else
    let body := { body with progress := { current with pulling := true } }
    match bodyNext body input with
    | (.ok (value, body), input) =>
      let input :=
        if body.progress.phase = .done then input.setCursor { input.cursor with busy := false }
        else input
      let body := { body with progress := { body.progress with pulling := false } }
      (value.map .ok, body, input)
    | (.error error, input) =>
      (some (.error error), bodyFailed body, input.setCursor input.cursor.retire)

def trailers (body : Body) : Except ProtocolError (List Header) :=
  match body.progress.phase with
  | .done => .ok body.progress.trailers
  | .failed => .error .closed
  | _ => .error .busy

/-- The end of the scope of a body. -/
def dispose (body : Body) : Reading S E Unit :=
  if body.progress.phase = .done ∨ body.progress.phase = .failed then pure () else retire

/-- The loop of `collected_body`, for as many turns as `fuel`; then the body, which
the scope of the message disposes of. -/
def collectedLoop : Nat → Bytes → Body → Reader S E →
    Except (ReadError E) (Bytes × List Header) × Body × Reader S E
  | 0, output, body, input => (.ok (output, []), body, input)
  | fuel + 1, output, body, input =>
    match next body input with
    | (none, body, input) =>
      match trailers body with
      | .ok trailers => (.ok (output, trailers), body, input)
      | .error error => (.error (.protocol error), body, input)
    | (some (.error error), body, input) => (.error error, body, input)
    | (some (.ok value), body, input) => collectedLoop fuel (output ++ value) body input

/-- The octets that are not read yet, if no item of the source is an error. -/
def Reader.unread (input : Reader S E) : Nat :=
  input.cursor.chunk.length - input.cursor.position +
    (input.source.map fun item => (input.bytes item).toOption.elim 0 List.length).sum

/-- Every turn but the last takes octets, so there are no more turns than octets. -/
def collectedBody (body : Body) : Reading S E (Bytes × List Header) := fun input =>
  let (result, body, input) := collectedLoop (input.unread + 1) [] body input
  (result, (dispose body input).2)

/-! ## Messages -/

structure IncomingRequest where
  method : Text
  target : Text
  headers : List Header
  body : Body

structure IncomingResponse where
  status : Nat
  reason : Bytes
  headers : List Header
  body : Body

def firstLine (budget : Nat) : Reading S E (Option Bytes × Nat) := fun input =>
  match _h : line budget input with
  | (.error error, input) => (.error error, input)
  | (.ok (none, left), input) => (.ok (none, left), input)
  | (.ok (some value, left), input) =>
    if value.isEmpty then firstLine left input else (.ok (some value, left), input)
termination_by budget
decreasing_by exact line_budget _h

theorem firstLine_eq (budget : Nat) (input : Reader S E) :
    firstLine budget input =
      match line budget input with
      | (.error error, input) => (.error error, input)
      | (.ok (none, left), input) => (.ok (none, left), input)
      | (.ok (some value, left), input) =>
        if value.isEmpty then firstLine left input else (.ok (some value, left), input) := by
  rw [firstLine]
  split <;> simp_all only []

def hosts (headers : List Header) : Nat :=
  headers.countP fun entry => named entry.name (text "host")

def openRequestLeased (chunkBytes : Nat) : Reading S E (Option IncomingRequest) := do
  let limits := (← get).limits
  match ← firstLine limits.metadataBytes with
  | (none, _) =>
    release
    pure none
  | (some value, budget) =>
    let (method, target) ← protocol (requestLine value)
    let (headers, budget) ← fields budget false
    if hosts headers ≠ 1 then failed .framing
    else
      let shape ← protocol (framing headers limits.bodyBytes)
      let body ← newBody shape budget chunkBytes true
      pure (some ⟨method, target, headers, body⟩)

def openRequest (chunkBytes : Nat) : Reading S E (Option IncomingRequest) := do
  begin
  deferFailure retire (openRequestLeased chunkBytes)

def responseShape (method : Text) (status : Nat) (headers : List Header) (maximum : Nat) :
    Except ProtocolError Framing :=
  if noBody method status then .ok ⟨some 0, false⟩ else framing headers maximum

/-- A tunnel is the end of HTTP on the connection. -/
def retireTunnel (method : Text) (status : Nat) : Reading S E Unit :=
  if tunnel method status then modifyCursor fun cursor => { cursor with retired := true }
  else pure ()

def openResponseLeased (method : Text) (chunkBytes : Nat) :
    Reading S E (Option IncomingResponse) := do
  let limits := (← get).limits
  match ← line limits.metadataBytes with
  | (none, _) =>
    release
    pure none
  | (some value, budget) =>
    let (status, reason) ← protocol (statusLine value)
    let (headers, budget) ← fields budget false
    let shape ← protocol (responseShape method status headers limits.bodyBytes)
    retireTunnel method status
    let body ← newBody shape budget chunkBytes false
    pure (some ⟨status, reason, headers, body⟩)

def openResponse (method : Text) (chunkBytes : Nat) : Reading S E (Option IncomingResponse) := do
  begin
  deferFailure retire (openResponseLeased method chunkBytes)

/-- The source reads with `chunkBytes` 16384. -/
def readRequest (chunkBytes : Nat) : Reading S E (Option Request) := do
  match ← openRequest chunkBytes with
  | none => pure none
  | some ⟨method, target, headers, body⟩ =>
    let (contents, trailers) ← collectedBody body
    pure (some ⟨method, target, headers, contents, trailers⟩)

def readResponse (method : Text) (chunkBytes : Nat) : Reading S E (Option Response) := do
  match ← openResponse method chunkBytes with
  | none => pure none
  | some ⟨status, reason, headers, body⟩ =>
    let (contents, trailers) ← collectedBody body
    pure (some ⟨status, reason, headers, contents, trailers⟩)

def results (read : Nat → Reading S E α) : Nat → Nat → Reader S E →
    List (Except (ReadError E) α)
  | _, 0, _ => []
  | index, count + 1, input =>
    (read index input).1 :: results read (index + 1) count (read index input).2

end

end Loom.Http

import Loom.Library.Streams
import Loom.Library.Utf8

/-
  Lines of text from chunks of bytes.

  `lines` adapts a stream of chunks. A pull scans what is left of the current
  chunk, holding one carriage return back until the next byte decides about it,
  and pulls the source when the chunk is used up.

  Correspondence (stream/lines/lines.loom ↔ Lean), where names differ:
    `Cursor`, `State` ↔ `Cursor`, `State`; the source is its items
    `retire`, `failed`, `decoded` ↔ `retired`, `failed`, `decoded`
    the loop over a chunk ↔ `scan`
  The maximum is an `Int` that the constructors require not to be negative.
-/

namespace Loom.Lines

open Utf8 Streams List

/-! ## The source -/

inductive LineError (E : Type) where
  | input (error : E)
  | tooLong (maximum : Nat)
  | utf8
  deriving DecidableEq

structure Cursor where
  chunk : List UInt8
  position : Nat
  output : List UInt8
  carriage : Bool
  ended : Bool

structure State (S E : Type) where
  source : List S
  bytes : S → Except E (List UInt8)
  maximum : Nat
  cursor : Cursor

section
variable {S E : Type}

def cursor : Cursor := ⟨[], 0, [], false, false⟩

def lines (source : List S) (bytes : S → Except E (List UInt8)) (maximum : Nat) : State S E :=
  ⟨source, bytes, maximum, cursor⟩

def retired : Cursor := ⟨[], 0, [], false, true⟩

/-- What a pull gives, and the cursor it leaves. -/
abbrev Pulled (E : Type) := Option (Except (LineError E) String) × Cursor

def failed (error : LineError E) : Pulled E := (some (.error error), retired)

def decoded (left : Cursor) (output : List UInt8) : Pulled E :=
  match decode output with
  | some value => (some (.ok value), left)
  | none => failed .utf8

/-- How the loop over a chunk ends. -/
inductive Scan where
  | line (position : Nat) (output : List UInt8)
  | tooLong
  | spent (position : Nat) (output : List UInt8) (carriage : Bool)

/-- The loop over what is left of a chunk. -/
def scan (maximum : Nat) : List UInt8 → Nat → List UInt8 → Bool → Scan
  | [], position, output, carriage => .spent position output carriage
  | byte :: rest, position, output, carriage =>
    if byte = 10 then .line (position + 1) output
    else if carriage ∧ output.length = maximum then .tooLong
    else
      let output := if carriage then output ++ [13] else output
      if byte = 13 then scan maximum rest (position + 1) output true
      else if output.length = maximum then .tooLong
      else scan maximum rest (position + 1) (output ++ [byte]) false

/-- The loop of `next`: over the chunk, and over what the source still gives. -/
def loop (bytes : S → Except E (List UInt8)) (maximum : Nat) (source : List S)
    (current : Cursor) : Pulled E × List S :=
  match scan maximum (current.chunk.drop current.position) current.position current.output
      current.carriage with
  | .line position output =>
    (decoded { current with position := position, output := [], carriage := false } output, source)
  | .tooLong => (failed (.tooLong maximum), source)
  | .spent _ output carriage =>
    match source with
    | [] =>
      if carriage ∧ output.length = maximum then (failed (.tooLong maximum), [])
      else
        let output := if carriage then output ++ [13] else output
        if output.length = 0 then ((none, retired), []) else (decoded retired output, [])
    | item :: rest =>
      match bytes item with
      | .error error => (failed (.input error), rest)
      | .ok chunk => loop bytes maximum rest ⟨chunk, 0, output, carriage, current.ended⟩

def next (state : State S E) : Option (Except (LineError E) String) × State S E :=
  if state.cursor.ended then (none, state)
  else
    let pulled := loop state.bytes state.maximum state.source state.cursor
    (pulled.1.1, { state with source := pulled.2, cursor := pulled.1.2 })

end

/-! ## The split of a whole input -/

/-- A line without the carriage return at its end. -/
def strip (content : List UInt8) : List UInt8 :=
  if content.getLast? = some 13 then content.dropLast else content

def text {E : Type} (content : List UInt8) : Except (LineError E) String :=
  match decode content with
  | some value => .ok value
  | none => .error .utf8

def line {E : Type} (maximum : Nat) (content : List UInt8) : Except (LineError E) String :=
  if maximum < content.length then .error (.tooLong maximum) else text content

/-- The lines of an input: each in front of a line feed, without the carriage return
before it, and the bytes behind the last line feed as they are. The first line that
is too long or not UTF-8 is the last item. -/
def reference {E : Type} (maximum : Nat) (input : List UInt8) : List (Except (LineError E) String) :=
  let split := segments 10 input
  untilError (split.1.map (fun content => line maximum (strip content)) ++
    if split.2 = [] then [] else [line maximum split.2])

section
variable {E : Type} {maximum : Nat}

variable {content : List UInt8} {state : List UInt8 × Bool}

theorem reference_line (h : 10 ∉ content) (rest : List UInt8) :
    reference (E := E) maximum (content ++ 10 :: rest) =
      match line maximum (strip content) with
      | .ok value => .ok value :: reference maximum rest
      | .error error => [.error error] := by
  unfold reference
  rw [segments_cons h]
  simp only [map_cons]
  cases line (E := E) maximum (strip content) with
  | ok value => rfl
  | error error => rfl

theorem reference_last (h : 10 ∉ content) :
    reference (E := E) maximum content = if content = [] then [] else [line maximum content] := by
  unfold reference
  rw [segments_last h]
  simp only
  split
  · rfl
  · cases line (E := E) maximum content with
    | ok value => rfl
    | error error => rfl

theorem strip_length (content : List UInt8) : content.length ≤ (strip content).length + 1 := by
  unfold strip
  split
  · rw [length_dropLast]; omega
  · omega

theorem length_strip (content : List UInt8) : (strip content).length ≤ content.length := by
  unfold strip
  split
  · rw [length_dropLast]; omega
  · exact Nat.le_refl _

theorem strip_append (h : maximum < (strip content).length) (more : List UInt8) :
    maximum < (strip (content ++ more)).length := by
  have hlength := length_strip content
  cases more with
  | nil =>
    rw [append_nil]; exact h
  | cons byte more =>
    have hloss := strip_length (content ++ byte :: more)
    rw [length_append, length_cons] at hloss; omega

theorem line_tooLong (h : maximum < content.length) :
    line (E := E) maximum content = .error (.tooLong maximum) := by
  rw [line, if_pos h]

/-- Once a line is too long, no more bytes change that. -/
theorem reference_tooLong (h : 10 ∉ content) (hlong : maximum < (strip content).length)
    (input : List UInt8) :
    reference (E := E) maximum (content ++ input) = [.error (.tooLong maximum)] := by
  obtain hnone | ⟨more, rest, hmore, hinput⟩ := exists_segment 10 input
  · have hall : 10 ∉ content ++ input := by simp [h, hnone]
    have hlonger := strip_append hlong input
    have hlength : maximum < (content ++ input).length :=
      Nat.lt_of_lt_of_le hlonger (length_strip _)
    have hsome : content ++ input ≠ [] := by
      intro hnil
      rw [hnil] at hlength; simp at hlength
    rw [reference_last hall, if_neg hsome, line_tooLong hlength]
  · have hall : 10 ∉ content ++ more := by simp [h, hmore]
    rw [hinput, ← append_assoc, reference_line hall, line_tooLong (strip_append hlong more)]

/-! ## The scan, byte by byte -/

/-- The loop over a chunk as a machine: its state is the output and whether a carriage
return is held back. -/
def machine (E : Type) (maximum : Nat) :
    Machine UInt8 (List UInt8 × Bool) (Except (LineError E) String) where
  feed state byte :=
    if byte = 10 then
      match text state.1 with
      | .ok value => .item (.ok value) ([], false)
      | .error error => .stop (.error error)
    else if state.2 ∧ state.1.length = maximum then .stop (.error (.tooLong maximum))
    else
      let output := if state.2 then state.1 ++ [13] else state.1
      if byte = 13 then .more (output, true)
      else if output.length = maximum then .stop (.error (.tooLong maximum))
      else .more (output ++ [byte], false)
  close state :=
    if state.2 ∧ state.1.length = maximum then some (.error (.tooLong maximum))
    else
      let output := if state.2 then state.1 ++ [13] else state.1
      if output.length = 0 then none else some (text output)

/-- The bytes of the line that are held. -/
def held (state : List UInt8 × Bool) : List UInt8 :=
  if state.2 then state.1 ++ [13] else state.1

/-- What holds between two bytes. -/
structure Held (maximum : Nat) (state : List UInt8 × Bool) : Prop where
  fits : state.1.length ≤ maximum
  unbroken : 10 ∉ state.1
  bare : state.2 = false → state.1.getLast? ≠ some 13

theorem strip_held (h : Held maximum state) : strip (held state) = state.1 := by
  unfold held strip
  cases hcarriage : state.2 with
  | true => simp
  | false => simp [h.bare hcarriage]

theorem Held.no_feed (h : Held maximum state) : 10 ∉ held state := by
  unfold held
  split
  · simp [h.unbroken]
  · exact h.unbroken

theorem line_fits (h : content.length ≤ maximum) :
    line (E := E) maximum content = text content := by
  rw [line, if_neg (by omega)]

theorem feed_feed (state : List UInt8 × Bool) :
    (machine E maximum).feed state 10 =
      match text state.1 with
      | .ok value => .item (.ok value) ([], false)
      | .error error => .stop (.error error) :=
  rfl

theorem feed_byte (state : List UInt8 × Bool) {byte : UInt8} (h : byte ≠ 10) :
    (machine E maximum).feed state byte =
      if state.2 ∧ state.1.length = maximum then .stop (.error (.tooLong maximum))
      else if byte = 13 then .more (held state, true)
      else if (held state).length = maximum then .stop (.error (.tooLong maximum))
      else .more (held state ++ [byte], false) := by
  show (if byte = 10 then _ else _) = _
  rw [if_neg h]; rfl

theorem close_eq_reference (h : Held maximum state) :
    ((machine E maximum).close state).toList = reference maximum (held state) := by
  obtain ⟨output, carriage⟩ := state
  have hfits : output.length ≤ maximum := h.fits
  rw [reference_last h.no_feed]
  cases carriage with
  | true =>
    simp only [machine, held, if_true, true_and]
    by_cases hfull : output.length = maximum
    · rw [if_pos hfull, if_neg (by simp), line_tooLong (by simp; omega)]; rfl
    · rw [if_neg hfull, if_neg (by simp), if_neg (by simp), line_fits (by simp; omega)]
      rfl
  | false =>
    simp only [machine, held, Bool.false_eq_true, if_false, length_eq_zero_iff]
    by_cases hempty : output = []
    · rw [if_pos hempty, if_pos hempty]; rfl
    · rw [if_neg hempty, if_neg hempty, line_fits hfits]; rfl

theorem Held.push {state : List UInt8 × Bool} (h : Held maximum state) {byte : UInt8}
    (hbyte : byte ≠ 10) : 10 ∉ held state ++ [byte] := by
  simp [h.no_feed, Ne.symm hbyte]

theorem Held.length_le (h : Held maximum state) (hroom : ¬(state.2 ∧ state.1.length = maximum)) :
    (held state).length ≤ maximum := by
  have hfits := h.fits
  unfold held
  split
  · next hcarriage =>
    have hless : state.1.length ≠ maximum := fun hfull => hroom ⟨hcarriage, hfull⟩
    rw [length_append, length_singleton]; omega
  · exact hfits

/-- Fed byte by byte, the scan gives the lines of the whole input. -/
theorem outputs_eq_reference (h : Held maximum state) (input : List UInt8) :
    (machine E maximum).outputs state input = reference maximum (held state ++ input) := by
  induction input generalizing state with
  | nil =>
    rw [append_nil]; exact close_eq_reference h
  | cons byte input ih =>
    rw [Machine.outputs]
    by_cases hfeed : byte = 10
    · -- the line is complete
      have hstart : Held maximum ([], false) := ⟨Nat.zero_le _, not_mem_nil, by simp⟩
      rw [hfeed, feed_feed, reference_line h.no_feed, strip_held h, line_fits h.fits]
      cases htext : text (E := E) state.1 with
      | ok value => exact congrArg _ (ih hstart)
      | error error => rfl
    · have hsplit : held state ++ byte :: input = (held state ++ [byte]) ++ input := by simp
      rw [feed_byte state hfeed, hsplit]
      by_cases hroom : state.2 ∧ state.1.length = maximum
      · -- no room for the held carriage return
        rw [if_pos hroom, reference_tooLong (h.push hfeed)]
        have hloss := strip_length (held state ++ [byte])
        have hheld : held state = state.1 ++ [13] := if_pos hroom.1
        rw [hheld] at hloss ⊢
        simp only [length_append, length_singleton] at hloss; omega
      rw [if_neg hroom]
      have hfits := h.length_le hroom
      by_cases hreturn : byte = 13
      · rw [hreturn]
        have hnext : Held maximum (held state, true) := ⟨hfits, h.no_feed, by simp⟩
        exact ih hnext
      rw [if_neg hreturn]
      by_cases hfull : (held state).length = maximum
      · rw [if_pos hfull, reference_tooLong (h.push hfeed)]
        simp [strip, hreturn, hfull]
      · rw [if_neg hfull]
        have hnext : Held maximum (held state ++ [byte], false) := by
          refine ⟨?_, h.push hfeed, by simp [hreturn]⟩
          rw [length_append, length_singleton]; omega
        exact ih hnext

/-! ## Pulls -/

/-- What the machine makes of the end of the loop over a chunk. -/
def scanned (maximum : Nat) (chunk : List UInt8) :
    Scan → Scanned UInt8 (List UInt8 × Bool) (Except (LineError E) String)
  | .line position output =>
    match text output with
    | .ok value => .item (.ok value) ([], false) (chunk.drop position)
    | .error error => .stop (.error error)
  | .tooLong => .stop (.error (.tooLong maximum))
  | .spent _ output carriage => .more (output, carriage)

theorem scan_eq (chunk : List UInt8) {source : List UInt8} {position : Nat}
    (hsource : chunk.drop position = source) (output : List UInt8) (carriage : Bool) :
    (machine E maximum).scan (output, carriage) source =
      scanned maximum chunk (scan maximum source position output carriage) := by
  induction source generalizing position output carriage with
  | nil => rfl
  | cons byte rest ih =>
    have hrest : chunk.drop (position + 1) = rest := by
      rw [← tail_drop, hsource, tail_cons]
    rw [Machine.scan, scan]
    by_cases hfeed : byte = 10
    · rw [if_pos hfeed, hfeed, feed_feed, scanned, hrest]
      cases text (E := E) output with
      | ok value => rfl
      | error error => rfl
    rw [if_neg hfeed, feed_byte _ hfeed]
    by_cases hroom : carriage = true ∧ output.length = maximum
    · rw [if_pos hroom, if_pos hroom]; rfl
    rw [if_neg hroom, if_neg hroom]
    by_cases hreturn : byte = 13
    · rw [if_pos hreturn, if_pos hreturn]; exact ih hrest _ _
    rw [if_neg hreturn, if_neg hreturn]
    show _ = scanned maximum chunk (if (held (output, carriage)).length = maximum then .tooLong
      else scan maximum rest (position + 1) (held (output, carriage) ++ [byte]) false)
    by_cases hfull : (held (output, carriage)).length = maximum
    · rw [if_pos hfull, if_pos hfull]; rfl
    · rw [if_neg hfull, if_neg hfull]; exact ih hrest _ _

section
variable {S : Type} {bytes : S → Except E (List UInt8)} {contents : S → List UInt8}

/-- What is left of a stream between two pulls. -/
def Remains (contents : S → List UInt8) (maximum : Nat) (state : State S E)
    (items : List (Except (LineError E) String)) : Prop :=
  state.bytes = (fun item => .ok (contents item)) ∧ state.maximum = maximum ∧
    (state.cursor.ended ∧ items = [] ∨
      ¬state.cursor.ended ∧
        items = (machine E maximum).outputs (state.cursor.output, state.cursor.carriage)
          (state.cursor.chunk.drop state.cursor.position ++ state.source.flatMap contents))

/-- A line that is complete, or the error that ends the stream. -/
theorem decoded_eq (left : Cursor) (output : List UInt8) :
    decoded (E := E) left output =
      match text output with
      | .ok value => (some (.ok value), left)
      | .error error => failed error := by
  unfold decoded text
  cases decode output with
  | some value => rfl
  | none => rfl

/-- The loop gives the head of what the machine gives. -/
theorem loop_spec (source : List S) {current : Cursor} (h : current.ended = false) :
    let pulled := loop (fun item => .ok (contents item)) maximum source current
    let items := (machine E maximum).outputs (current.output, current.carriage)
      (current.chunk.drop current.position ++ source.flatMap contents)
    pulled.1.1 = items.head? ∧
      Remains contents maximum
        ⟨pulled.2, fun item => .ok (contents item), maximum, pulled.1.2⟩ items.tail := by
  have hretired : ∀ left : List S, Remains (E := E) contents maximum
      ⟨left, fun item => .ok (contents item), maximum, retired⟩ [] :=
    fun left => ⟨rfl, rfl, .inl ⟨rfl, rfl⟩⟩
  induction source generalizing current with
  | nil =>
    rw [loop, Machine.outputs_append, scan_eq current.chunk rfl]
    cases scan maximum (current.chunk.drop current.position) current.position current.output
      current.carriage with
    | line position output =>
      dsimp only [scanned]
      rw [decoded_eq]
      cases text (E := E) output with
      | ok value => exact ⟨rfl, rfl, rfl, .inr ⟨by simp [h], rfl⟩⟩
      | error error => exact ⟨rfl, hretired []⟩
    | tooLong => exact ⟨rfl, hretired []⟩
    | spent position output carriage =>
      -- the end of the source
      show _ = ((machine E maximum).close (output, carriage)).toList.head? ∧
        Remains contents maximum _ ((machine E maximum).close (output, carriage)).toList.tail
      dsimp only [machine]
      by_cases hroom : carriage = true ∧ output.length = maximum
      · rw [if_pos hroom, if_pos hroom]; exact ⟨rfl, hretired []⟩
      rw [if_neg hroom, if_neg hroom]
      generalize (if carriage = true then output ++ [13] else output) = last
      by_cases hempty : last.length = 0
      · rw [if_pos hempty, if_pos hempty]; exact ⟨rfl, hretired []⟩
      rw [if_neg hempty, if_neg hempty, decoded_eq]
      cases text (E := E) last with
      | ok value => exact ⟨rfl, hretired []⟩
      | error error => exact ⟨rfl, hretired []⟩
  | cons item rest ih =>
    rw [loop, Machine.outputs_append, scan_eq current.chunk rfl]
    cases scan maximum (current.chunk.drop current.position) current.position current.output
      current.carriage with
    | line position output =>
      dsimp only [scanned]
      rw [decoded_eq]
      cases text (E := E) output with
      | ok value => exact ⟨rfl, rfl, rfl, .inr ⟨by simp [h], rfl⟩⟩
      | error error => exact ⟨rfl, hretired _⟩
    | tooLong => exact ⟨rfl, hretired _⟩
    | spent position output carriage =>
      exact @ih ⟨contents item, 0, output, carriage, current.ended⟩ h

/-- `lines` gives the lines of the whole input, however it is cut in chunks, and
nothing behind the last line or the first error. -/
theorem lines_reference (source : List S) (contents : S → List UInt8) (maximum count : Nat) :
    call next (lines (E := E) source (fun item => .ok (contents item)) maximum) count =
      (reference maximum (source.flatMap contents))[count]? := by
  have hstart : Held maximum ([], false) := ⟨Nat.zero_le _, not_mem_nil, by simp⟩
  have hitems := outputs_eq_reference (E := E) hstart (source.flatMap contents)
  refine call_eq (Remains contents maximum) ?_ ⟨rfl, rfl, .inr ⟨by simp [lines, cursor], ?_⟩⟩ count
  · intro state items h
    obtain ⟨hbytes, hmaximum, ⟨hended, hitems⟩ | ⟨hended, hitems⟩⟩ := h
    · rw [next, if_pos hended, hitems]
      exact ⟨rfl, hbytes, hmaximum, .inl ⟨hended, rfl⟩⟩
    · obtain ⟨source, bytes, limit, current⟩ := state
      rw [next, if_neg hended, hbytes, hmaximum, hitems]
      exact loop_spec source (by simpa using hended)
  · exact hitems.symm

example :
    (List.range 4).map (call next (lines (E := Unit) [[97, 13], [], [10, 13], [98, 10, 195]]
      Except.ok 2)) =
      [some (.ok "a"), some (.ok "\rb"), some (.error .utf8), none] := by
  decide

end

end

end Loom.Lines

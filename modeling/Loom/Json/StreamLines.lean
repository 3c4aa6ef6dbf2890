import Loom.Json.Faultless
import Loom.Json.IncrementalComplete
import Loom.Library.Streams

/-
  A stream of JSON documents, one on every line.

  `lines` adapts a stream of chunks. A pull feeds the incremental decoder with what
  is left of the chunk, up to a line feed, and pulls the source when the chunk is
  used up. The line feed is fed to the decoder as well, as a space.

  Correspondence (json/stream/lines.loom ↔ Lean):
    `LineError`, `LineCursor`, `Lines` ↔ `LineError`, `LineCursor`, `State`; the source is
      its items
    `line_failed`, `line_finished` ↔ `lineFailed`, `lineFinished`
    the loop to the line feed ↔ `lineEnd`
    the chunk, in the loop of `next` ↔ `round`
    `next` ↔ `loop`, `next`
-/

namespace Loom.JsonLines

open Utf8 Streams Results Json List Machine

/-! ## The source -/

/-- A fault of the program is apart: no pull reaches it. -/
inductive LineError (E : Type) where
  | input (error : E)
  | syntaxError (line : Nat) (failed : ParseError)
  | fault

structure LineCursor where
  chunk : List UInt8
  position : Nat
  document : DecoderState
  line : Nat
  started : Bool
  ended : Bool

structure State (S E : Type) where
  source : List S
  bytes : S → Except E (List UInt8)
  cursor : LineCursor

section
variable {S E : Type}

def lineCursor : LineCursor := ⟨[], 0, decoder, 1, false, false⟩

def lines (source : List S) (bytes : S → Except E (List UInt8)) : State S E :=
  ⟨source, bytes, lineCursor⟩

/-- What a pull gives, and the cursor it leaves. -/
abbrev Pulled (E : Type) := Option (Except (LineError E) Value) × LineCursor

def failure (line : Nat) : Stop → LineError E
  | .error failed => .syntaxError line failed
  | .fault => .fault

def lineFailed (cursor : LineCursor) (stop : Stop) : Pulled E :=
  (some (.error (failure cursor.line stop)), { cursor with chunk := [], ended := true })

def lineFinished (cursor : LineCursor) : Pulled E :=
  match finish cursor.document with
  | (.ok value, _) =>
    (some (.ok value),
      { cursor with document := decoder, line := cursor.line + 1, started := false })
  | (.error stop, document) => lineFailed { cursor with document := document } stop

/-- The position behind the next line feed, or behind the chunk. -/
def lineEnd : List UInt8 → Nat → Nat × Bool
  | [], position => (position, false)
  | byte :: rest, position =>
    if byte = 10 then (position + 1, true) else lineEnd rest (position + 1)

/-- How a round over the chunk ends. -/
inductive Round (E : Type) where
  | done (pulled : Pulled E)
  | spent (left : LineCursor)

def round (current : LineCursor) : Round E :=
  if current.position < current.chunk.length then
    let found := lineEnd (current.chunk.drop current.position) current.position
    let left := { current with position := found.1, started := true }
    match feedRange current.document current.chunk current.position found.1 with
    | (.error stop, document) => .done (lineFailed { left with document := document } stop)
    | (.ok _, document) =>
      if found.2 then .done (lineFinished { left with document := document })
      else .spent { left with document := document }
  else .spent current

/-- The loop of `next`: over the chunk, and over what the source still gives. -/
def loop (bytes : S → Except E (List UInt8)) (source : List S) (current : LineCursor) :
    Pulled E × List S :=
  match round current with
  | .done pulled => (pulled, source)
  | .spent left =>
    match source with
    | [] =>
      if left.started then (lineFinished { left with ended := true }, [])
      else ((none, { left with ended := true }), [])
    | item :: rest =>
      match bytes item with
      | .error error => ((some (.error (.input error)), { left with ended := true }), rest)
      | .ok chunk => loop bytes rest { left with chunk := chunk, position := 0, ended := false }

def next (state : State S E) : Option (Except (LineError E) Value) × State S E :=
  if state.cursor.ended then (none, state)
  else
    let pulled := loop state.bytes state.source state.cursor
    (pulled.1.1, { state with source := pulled.2, cursor := pulled.1.2 })

end

/-! ## The split of a whole input -/

/-- A line without the line feed that is behind it, or behind the last one nothing. -/
structure Line where
  content : List UInt8
  terminated : Bool

/-- What the decoder is fed for a line. -/
def Line.fed (line : Line) : List UInt8 :=
  if line.terminated then line.content ++ [10] else line.content

/-- The lines of an input: in front of every line feed, and behind the last if anything is. -/
def contentsOf (input : List UInt8) : List Line :=
  let split := segments 10 input
  split.1.map (⟨·, true⟩) ++ if split.2 = [] then [] else [⟨split.2, false⟩]

/-- What is given for lines from a number on: the value that the whole parser gives for the
text of a line, or an error with the number of the line, which is then the last. The error is
the one that the decoder of chunks gives for the bytes of the line. -/
inductive Yields {E : Type} : Nat → List Line → List (Except (LineError E) Value) → Prop where
  | done {number} : Yields number [] []
  | value {number line more parsed items} (text : String) : bytes text = line.content →
      parse text = .ok parsed → Yields (number + 1) more items →
      Yields number (line :: more) (.ok parsed :: items)
  | error {number line more failed} :
      (∀ text parsed, bytes text = line.content → parse text ≠ .ok parsed) →
      decodeChunks decoder [line.fed] = .error (.error failed) →
      Yields number (line :: more) [.error (.syntaxError number failed)]

variable {content : List UInt8}

theorem contentsOf_cons (h : 10 ∉ content) (rest : List UInt8) :
    contentsOf (content ++ 10 :: rest) = ⟨content, true⟩ :: contentsOf rest := by
  unfold contentsOf
  rw [segments_cons h]; rfl

theorem contentsOf_last (h : 10 ∉ content) :
    contentsOf content = if content = [] then [] else [⟨content, false⟩] := by
  unfold contentsOf
  rw [segments_last h]; rfl

/-- Bytes without a line feed are in front of the first of the lines. -/
theorem contentsOf_first {front : List UInt8} (h : 10 ∉ front) (hsome : front ≠ [])
    (rest : List UInt8) :
    ∃ line more, contentsOf (front ++ rest) = line :: more ∧ ∃ back, line.fed = front ++ back := by
  obtain hnone | ⟨segment, behind, hsegment, rfl⟩ := exists_segment 10 rest
  · have hall : 10 ∉ front ++ rest := by simp [h, hnone]
    refine ⟨⟨front ++ rest, false⟩, [], ?_, rest, rfl⟩
    rw [contentsOf_last hall, if_neg (by simp [hsome])]
  · have hall : 10 ∉ front ++ segment := by simp [h, hsegment]
    refine ⟨⟨front ++ segment, true⟩, contentsOf behind, ?_, segment ++ [10], append_assoc _ _ _⟩
    rw [← append_assoc, contentsOf_cons hall]

/-! ## The line feed -/

theorem numberByte_space {byte : UInt8} (h : numberByte byte = true) : space byte = false := by
  have hbyte := scalar_number h
  simp only [scalarByte, Bool.and_eq_true, Bool.not_eq_true'] at hbyte
  exact hbyte.1.1

/-- A value ends in a byte that is not a space. -/
theorem derives_last {room : Nat} {taken : List UInt8} {parsed : Value}
    (h : Derives room taken (.value parsed)) :
    ∃ front last, taken = front ++ [last] ∧ space last = false := by
  cases h with
  | null => exact ⟨[110, 117, 108], 108, bytes_null, rfl⟩
  | true => exact ⟨[116, 114, 117], 101, bytes_true, rfl⟩
  | false => exact ⟨[102, 97, 108, 115], 101, bytes_false, rfl⟩
  | @number _ raw hnumeral =>
    obtain ⟨first, more, htaken, _⟩ := hnumeral.first
    have hsome : bytes raw ≠ [] := by simp [htaken]
    refine ⟨(bytes raw).dropLast, (bytes raw).getLast hsome,
      (dropLast_append_getLast hsome).symm, ?_⟩
    exact numberByte_space (hnumeral.bytes _ (getLast_mem hsome))
  | string hquoted =>
    obtain ⟨written, rfl, _, _⟩ := hquoted
    exact ⟨34 :: written, 34, rfl, rfl⟩
  | @emptyArray _ before _ => exact ⟨91 :: before, 93, rfl, rfl⟩
  | @array _ inner _ _ => exact ⟨91 :: inner, 93, rfl, rfl⟩
  | @emptyObject _ before _ => exact ⟨123 :: before, 125, rfl, rfl⟩
  | @object _ inner _ _ _ => exact ⟨123 :: inner, 125, rfl, rfl⟩

theorem document_feed {parsed : Value} :
    Document (content ++ [10]) parsed ↔ Document content parsed := by
  constructor
  · intro ⟨before, inner, ending, hwritten, hbefore, hderives, hafter⟩
    obtain ⟨front, last, rfl, hlast⟩ := derives_last hderives
    obtain rfl | ⟨behind, byte, rfl⟩ := eq_nil_or_concat ending
    · -- the line feed would be the last byte of the value
      rw [append_nil, ← append_assoc] at hwritten
      obtain ⟨_, hsame⟩ := append_inj' hwritten rfl
      rw [← singleton_inj.mp hsame] at hlast
      cases hlast
    · rw [concat_eq_append] at hwritten hafter
      have hsplit : before ++ (front ++ [last] ++ (behind ++ [byte])) =
          before ++ (front ++ [last] ++ behind) ++ [byte] := by simp
      rw [hsplit] at hwritten
      obtain ⟨hcontent, _⟩ := append_inj' hwritten rfl
      exact ⟨before, front ++ [last], behind, hcontent, hbefore, hderives,
        (spaces_append.mp hafter).1⟩
  · intro ⟨before, inner, ending, hcontent, hbefore, hderives, hafter⟩
    refine ⟨before, inner, ending ++ [10], ?_, hbefore, hderives,
      spaces_append.mpr ⟨hafter, by simp [Spaces]⟩⟩
    rw [hcontent]; simp [append_assoc]

theorem Line.document_fed (line : Line) {parsed : Value} :
    Document line.fed parsed ↔ Document line.content parsed := by
  rw [Line.fed]
  split
  · exact document_feed
  · rfl

theorem decodeChunks_one (written : List UInt8) : decodeChunks decoder [written] =
    (do let next ← drive decoder written; jsonFinished next) := by
  rw [decodeChunks_eq running_decoder, flatten_singleton]

theorem decodeChunks_drive {written back : List UInt8} {stop : Stop}
    (h : drive decoder written = .error stop) :
    decodeChunks decoder [written ++ back] = .error stop := by
  rw [decodeChunks_one, drive_append, h]; rfl

theorem decodeChunks_faultless (written : List UInt8) :
    Faultless (decodeChunks decoder [written]) := by
  rw [decodeChunks_one]
  exact (drive_faultless _ _).bind fun _ _ => jsonFinished_faultless _

/-! ## Lines, byte by byte -/

structure LineState where
  document : DecoderState
  line : Nat
  started : Bool

/-- The rounds over the chunks as a machine. -/
def machine (E : Type) : Machine UInt8 LineState (Except (LineError E) Value) where
  feed state byte :=
    match stepByte state.document byte with
    | .error stop => .stop (.error (failure state.line stop))
    | .ok document =>
      if byte = 10 then
        match jsonFinished document with
        | .ok value => .item (.ok value) ⟨decoder, state.line + 1, false⟩
        | .error stop => .stop (.error (failure state.line stop))
      else .more ⟨document, state.line, true⟩
  close state :=
    if state.started then
      match jsonFinished state.document with
      | .ok value => some (.ok value)
      | .error stop => some (.error (failure state.line stop))
    else none

section
variable {E : Type} {state : LineState} {document : DecoderState} {byte : UInt8} {stop : Stop}

theorem feed_stop (h : stepByte state.document byte = .error stop) :
    (machine E).feed state byte = .stop (.error (failure state.line stop)) := by
  simp [machine, h]

theorem feed_more (h : stepByte state.document byte = .ok document) (hbyte : byte ≠ 10) :
    (machine E).feed state byte = .more ⟨document, state.line, true⟩ := by
  simp [machine, h, if_neg hbyte]

theorem feed_line (h : stepByte state.document 10 = .ok document) :
    (machine E).feed state 10 =
      match jsonFinished document with
      | .ok value => .item (.ok value) ⟨decoder, state.line + 1, false⟩
      | .error stop => .stop (.error (failure state.line stop)) := by
  simp [machine, h]

theorem yields_value {number : Nat} {line : Line} {more : List Line} {parsed : Value}
    {items : List (Except (LineError E) Value)}
    (h : decodeChunks decoder [line.fed] = .ok parsed) (hitems : Yields (number + 1) more items) :
    Yields number (line :: more) (.ok parsed :: items) := by
  rw [decodeChunks_iff, flatten_singleton, line.document_fed] at h
  obtain ⟨text, htext⟩ := document_valid h
  rw [← htext] at h
  exact .value text htext (parse_complete h) hitems

/-- A line that the decoder refuses is no text with a value, and the error is no fault. -/
theorem yields_error {number : Nat} {line : Line} {more : List Line}
    (h : decodeChunks decoder [line.fed] = .error stop) :
    Yields number (line :: more) [.error (failure (E := E) number stop)] := by
  cases stop with
  | fault => exact absurd h (decodeChunks_faultless _)
  | error failed =>
    refine .error (fun text parsed htext hparse => ?_) h
    have hdocument : Document line.fed parsed := by
      rw [line.document_fed, ← htext]; exact parse_sound hparse
    rw [← flatten_singleton (l := line.fed), ← decodeChunks_iff, h] at hdocument
    cases hdocument

/-- The bytes of the line so far. -/
structure Fronts (front : List UInt8) (state : LineState) : Prop where
  drive : drive decoder front = .ok state.document
  unbroken : 10 ∉ front
  started : state.started = true ↔ front ≠ []

theorem fronts_start (line : Nat) : Fronts [] ⟨decoder, line, false⟩ :=
  ⟨rfl, not_mem_nil, by simp⟩

theorem outputs_yields {front : List UInt8} (h : Fronts front state) (input : List UInt8) :
    Yields state.line (contentsOf (front ++ input)) ((machine E).outputs state input) := by
  induction input generalizing front state with
  | nil =>
    rw [append_nil, contentsOf_last h.unbroken, outputs]
    have hdecode : decodeChunks decoder [front] = jsonFinished state.document := by
      rw [decodeChunks_one, h.drive, ok_bind]
    dsimp only [machine]
    by_cases hstarted : state.started = true
    · rw [if_pos hstarted, if_neg (h.started.mp hstarted)]
      cases hfinished : jsonFinished state.document with
      | ok parsed => exact yields_value (hdecode.trans hfinished) .done
      | error stop => exact yields_error (hdecode.trans hfinished)
    · have hnone : front = [] := by
        by_contra hsome
        exact hstarted (h.started.mpr hsome)
      rw [if_neg hstarted, if_pos hnone]; exact .done
  | cons byte input ih =>
    rw [outputs]
    by_cases hbyte : byte = 10
    · -- the line is complete
      rw [hbyte, contentsOf_cons h.unbroken]
      have hdecode : decodeChunks decoder [front ++ [10]] =
          (do let next ← stepByte state.document 10; jsonFinished next) := by
        rw [decodeChunks_one, drive_ok h.drive, drive]
        cases stepByte state.document 10 <;> rfl
      cases hstep : stepByte state.document 10 with
      | error stop =>
        rw [feed_stop hstep]
        rw [hstep] at hdecode; exact yields_error hdecode
      | ok document =>
        rw [feed_line hstep]
        rw [hstep, ok_bind] at hdecode
        cases hfinished : jsonFinished document with
        | ok parsed =>
          exact yields_value (hdecode.trans hfinished) (ih (fronts_start (state.line + 1)))
        | error stop => exact yields_error (hdecode.trans hfinished)
    · have hall : 10 ∉ front ++ [byte] := by simp [h.unbroken, Ne.symm hbyte]
      have hsplit : front ++ byte :: input = front ++ [byte] ++ input := by simp
      rw [hsplit]
      cases hstep : stepByte state.document byte with
      | error stop =>
        rw [feed_stop hstep]
        have hdrive : drive decoder (front ++ [byte]) = .error stop := by
          rw [drive_ok h.drive, drive, hstep]; rfl
        obtain ⟨line, more, hfirst, back, hfed⟩ := contentsOf_first hall (by simp) input
        rw [hfirst]
        exact yields_error (by rw [hfed]; exact decodeChunks_drive hdrive)
      | ok document =>
        rw [feed_more hstep hbyte]
        have hdrive : drive decoder (front ++ [byte]) = .ok document := by
          rw [drive_ok h.drive, drive, hstep]; rfl
        exact @ih ⟨document, state.line, true⟩ _ ⟨hdrive, hall, by simp⟩

end

/-! ## Pulls -/

section
variable {E : Type} {state : LineState} {part : List UInt8}

theorem scan_part (h : 10 ∉ part) :
    (machine E).scan state part =
      match drive state.document part with
      | .ok document => .more ⟨document, state.line, state.started || !part.isEmpty⟩
      | .error stop => .stop (.error (failure state.line stop)) := by
  induction part generalizing state with
  | nil => simp [scan, drive]
  | cons byte part ih =>
    have hbyte : byte ≠ 10 := fun hsame => h (by simp [hsame])
    have hpart : 10 ∉ part := fun hmem => h (.tail _ hmem)
    rw [drive]
    cases hstep : stepByte state.document byte with
    | error stop => rw [scan_stop (feed_stop hstep)]; rfl
    | ok document =>
      rw [scan_more (feed_more hstep hbyte), ih hpart, ok_bind]; simp

theorem scan_feed (h : 10 ∉ part) (rest : List UInt8) :
    (machine E).scan state (part ++ 10 :: rest) =
      match drive state.document (part ++ [10]) with
      | .ok document =>
        match jsonFinished document with
        | .ok value => .item (.ok value) ⟨decoder, state.line + 1, false⟩ rest
        | .error stop => .stop (.error (failure state.line stop))
      | .error stop => .stop (.error (failure state.line stop)) := by
  induction part generalizing state with
  | nil =>
    rw [nil_append, nil_append, drive]
    cases hstep : stepByte state.document 10 with
    | error stop => rw [scan_stop (feed_stop hstep)]; rfl
    | ok document =>
      have hfeed := @feed_line E _ _ hstep
      rw [ok_bind, drive]
      dsimp only
      cases hfinished : jsonFinished document with
      | ok value =>
        rw [hfinished] at hfeed
        rw [scan_item hfeed]
      | error stop =>
        rw [hfinished] at hfeed
        rw [scan_stop hfeed]
  | cons byte part ih =>
    have hbyte : byte ≠ 10 := fun hsame => h (by simp [hsame])
    have hpart : 10 ∉ part := fun hmem => h (.tail _ hmem)
    rw [cons_append, cons_append, drive]
    cases hstep : stepByte state.document byte with
    | error stop => rw [scan_stop (feed_stop hstep)]; rfl
    | ok document => rw [scan_more (feed_more hstep hbyte), ih hpart, ok_bind]

/-- The loop to the line feed splits the chunk. -/
theorem lineEnd_spec (rest : List UInt8) (position : Nat) :
    (∃ part more, 10 ∉ part ∧ rest = part ++ 10 :: more ∧
      lineEnd rest position = (position + (part ++ [10]).length, true)) ∨
    10 ∉ rest ∧ lineEnd rest position = (position + rest.length, false) := by
  induction rest generalizing position with
  | nil => exact .inr ⟨not_mem_nil, rfl⟩
  | cons byte rest ih =>
    rw [lineEnd]
    by_cases hbyte : byte = 10
    · rw [hbyte]; exact .inl ⟨[], rest, not_mem_nil, rfl, rfl⟩
    · rw [if_neg hbyte]
      obtain ⟨part, more, hpart, hrest, hend⟩ | ⟨hnone, hend⟩ := ih (position + 1)
      · refine .inl ⟨byte :: part, more, by simp [hpart, Ne.symm hbyte], by rw [hrest]; rfl, ?_⟩
        rw [hend, cons_append, length_cons]
        congr 1
        omega
      · refine .inr ⟨by simp [hnone, Ne.symm hbyte], ?_⟩
        rw [hend, length_cons]
        congr 1
        omega

/-- What a round gives, against the scan of what is left of the chunk. -/
inductive Rounded (current : LineCursor) :
    Round E → Scanned UInt8 LineState (Except (LineError E) Value) → Prop where
  | item {value left} : left.ended = current.ended → Running left.document →
      Rounded current (.done (some (.ok value), left))
        (.item (.ok value) ⟨left.document, left.line, left.started⟩
          (left.chunk.drop left.position))
  | stop {error left} : left.ended = true →
      Rounded current (.done (some (.error error), left)) (.stop (.error error))
  | more {left} : left.ended = current.ended → Running left.document →
      Rounded current (.spent left) (.more ⟨left.document, left.line, left.started⟩)

theorem lineFinished_eq {cursor : LineCursor} (h : Running cursor.document) :
    (∀ {value}, jsonFinished cursor.document = .ok value →
      lineFinished (E := E) cursor = (some (.ok value),
        { cursor with document := decoder, line := cursor.line + 1, started := false })) ∧
    (∀ {stop}, jsonFinished cursor.document = .error stop →
      ∃ left, lineFinished (E := E) cursor =
        (some (.error (failure cursor.line stop)), left) ∧ left.ended = true) := by
  have hfinish := finish_running h
  unfold lineFinished
  cases hcase : finish cursor.document with
  | mk outcome document =>
    rw [hcase] at hfinish
    refine ⟨?_, ?_⟩
    · intro value hvalue
      have houtcome : outcome = .ok value := hfinish.trans hvalue
      rw [houtcome]
    · intro stop hstop
      have houtcome : outcome = .error stop := hfinish.trans hstop
      rw [houtcome]; exact ⟨_, rfl, rfl⟩

theorem drop_take {chunk part more : List UInt8} {position : Nat}
    (h : chunk.drop position = part ++ more) :
    (chunk.take (position + part.length)).drop position = part := by
  rw [List.drop_take, h, Nat.add_sub_cancel_left, List.take_left]

theorem round_spec {current : LineCursor} (h : Running current.document) :
    Rounded (E := E) current (round current)
      ((machine E).scan ⟨current.document, current.line, current.started⟩
        (current.chunk.drop current.position)) := by
  unfold round
  by_cases hsize : current.position < current.chunk.length
  swap
  · rw [if_neg hsize, drop_eq_nil_of_le (Nat.le_of_not_lt hsize)]
    exact .more rfl h
  rw [if_pos hsize]
  have hlength := length_drop (i := current.position) (l := current.chunk)
  obtain ⟨part, more, hpart, hrest, hend⟩ | ⟨hnone, hend⟩ :=
    lineEnd_spec (current.chunk.drop current.position) current.position
  · -- up to a line feed
    have hspan : current.chunk.drop current.position = part ++ [10] ++ more := by
      rw [hrest]; simp
    have hbound : current.position + (part ++ [10]).length ≤ current.chunk.length := by
      rw [hspan, length_append] at hlength; omega
    obtain ⟨hok, herror⟩ := feedRange_step h hbound
    rw [drop_take hspan] at hok herror
    rw [hend, hrest, scan_feed hpart]
    dsimp only
    cases hdrive : drive current.document (part ++ [10]) with
    | ok document =>
      rw [hok hdrive]
      dsimp only
      have hrunning := (drive_moved hdrive).running h
      obtain ⟨hvalue, hrefused⟩ := @lineFinished_eq E
        { current with
          position := current.position + (part ++ [10]).length, started := true,
          document := document } hrunning
      cases hfinished : jsonFinished document with
      | ok value =>
        have hleft : current.chunk.drop (current.position + (part ++ [10]).length) = more := by
          rw [← drop_drop, hspan, drop_left]
        rw [hvalue hfinished]
        rw [← hleft]; exact .item rfl running_decoder
      | error stop =>
        obtain ⟨left, hleft, hended⟩ := hrefused hfinished
        rw [hleft]; exact .stop hended
    | error stop =>
      have hfeed := herror hdrive
      split
      · next hcase =>
        rw [hcase] at hfeed
        cases hfeed
        exact .stop rfl
      · next hcase =>
        rw [hcase] at hfeed
        cases hfeed
  · -- the chunk is used up
    have hspan : current.chunk.drop current.position =
        current.chunk.drop current.position ++ [] := by simp
    have hbound : current.position + (current.chunk.drop current.position).length ≤
        current.chunk.length := by
      omega
    obtain ⟨hok, herror⟩ := feedRange_step h hbound
    rw [drop_take hspan] at hok herror
    have hsome : (current.chunk.drop current.position).isEmpty = false := by
      rw [isEmpty_eq_false_iff, ← length_pos_iff]; omega
    rw [hend, scan_part hnone]
    dsimp only
    cases hdrive : drive current.document (current.chunk.drop current.position) with
    | ok document =>
      rw [hok hdrive, hsome]
      dsimp only
      rw [Bool.not_false, Bool.or_true]
      exact .more rfl ((drive_moved hdrive).running h)
    | error stop =>
      have hfeed := herror hdrive
      split
      · next hcase =>
        rw [hcase] at hfeed
        cases hfeed
        exact .stop rfl
      · next hcase =>
        rw [hcase] at hfeed
        cases hfeed

end

/-! ## Streams -/

section
variable {S E : Type} {contents : S → List UInt8}

/-- What is left of a stream between two pulls. -/
def Remains (contents : S → List UInt8) (state : State S E)
    (items : List (Except (LineError E) Value)) : Prop :=
  state.bytes = (fun item => .ok (contents item)) ∧
    (state.cursor.ended ∧ items = [] ∨
      ¬state.cursor.ended ∧ Running state.cursor.document ∧
        items = (machine E).outputs
          ⟨state.cursor.document, state.cursor.line, state.cursor.started⟩
          (state.cursor.chunk.drop state.cursor.position ++ state.source.flatMap contents))

/-- The loop gives the head of what the machine gives. -/
theorem loop_spec (source : List S) {current : LineCursor} (h : current.ended = false)
    (hrunning : Running current.document) :
    let pulled := loop (fun item => .ok (contents item)) source current
    let items := (machine E).outputs ⟨current.document, current.line, current.started⟩
      (current.chunk.drop current.position ++ source.flatMap contents)
    pulled.1.1 = items.head? ∧
      Remains contents ⟨pulled.2, fun item => .ok (contents item), pulled.1.2⟩ items.tail := by
  have hended : ∀ (left : List S) {cursor : LineCursor}, cursor.ended = true →
      Remains (E := E) contents ⟨left, fun item => .ok (contents item), cursor⟩ [] :=
    fun _ _ hcursor => ⟨rfl, .inl ⟨hcursor, rfl⟩⟩
  have hopen : ∀ {cursor : LineCursor}, cursor.ended = current.ended → ¬cursor.ended = true := by
    intro cursor hcursor
    rw [hcursor, h]; decide
  induction source generalizing current with
  | nil =>
    have hround := @round_spec E current hrunning
    rw [loop, outputs_append]
    generalize (machine E).scan _ _ = left at hround ⊢
    generalize round current = rounded at hround ⊢
    cases hround with
    | @item value left hleft hdocument => exact ⟨rfl, rfl, .inr ⟨hopen hleft, hdocument, rfl⟩⟩
    | stop hleft => exact ⟨rfl, hended [] hleft⟩
    | @more left hleft hdocument =>
      -- the end of the source
      obtain ⟨hvalue, hrefused⟩ := @lineFinished_eq E { left with ended := true } hdocument
      show _ = ((machine E).close ⟨left.document, left.line, left.started⟩).toList.head? ∧
        Remains contents _ ((machine E).close ⟨left.document, left.line, left.started⟩).toList.tail
      dsimp only [machine]
      by_cases hstarted : left.started = true
      · rw [if_pos hstarted, if_pos hstarted]
        cases hfinished : jsonFinished left.document with
        | ok value =>
          rw [hvalue hfinished]; exact ⟨rfl, hended [] rfl⟩
        | error stop =>
          obtain ⟨last, hlast, hlastEnded⟩ := hrefused hfinished
          rw [hlast]; exact ⟨rfl, hended [] hlastEnded⟩
      · rw [if_neg hstarted, if_neg hstarted]; exact ⟨rfl, hended [] rfl⟩
  | cons item rest ih =>
    have hround := @round_spec E current hrunning
    rw [loop, outputs_append]
    generalize (machine E).scan _ _ = left at hround ⊢
    generalize round current = rounded at hround ⊢
    cases hround with
    | @item value left hleft hdocument => exact ⟨rfl, rfl, .inr ⟨hopen hleft, hdocument, rfl⟩⟩
    | stop hleft => exact ⟨rfl, hended _ hleft⟩
    | @more left hleft hdocument =>
      exact @ih { left with chunk := contents item, position := 0, ended := false } rfl hdocument
        (fun hcursor => by rw [hcursor]; exact Bool.false_ne_true)

variable {state : State S E}

theorem next_spec {items : List (Except (LineError E) Value)} (h : Remains contents state items) :
    (next state).1 = items.head? ∧ Remains contents (next state).2 items.tail := by
  obtain ⟨hbytes, ⟨hended, hitems⟩ | ⟨hended, hrunning, hitems⟩⟩ := h
  · rw [next, if_pos hended, hitems]; exact ⟨rfl, hbytes, .inl ⟨hended, rfl⟩⟩
  · obtain ⟨source, bytes, current⟩ := state
    rw [next, if_neg hended, hbytes, hitems]
    exact loop_spec source (by simpa using hended) hrunning

/-- An error is the last item, also when it comes from the source. -/
theorem loop_ended {bytes : S → Except E (List UInt8)} {error : LineError E} (source : List S)
    {current : LineCursor} (h : (loop bytes source current).1.1 = some (.error error)) :
    (loop bytes source current).1.2.ended = true := by
  have hfinished : ∀ {cursor : LineCursor},
      (lineFinished (E := E) cursor).1 = some (.error error) →
      (lineFinished (E := E) cursor).2.ended = true := by
    intro cursor hcursor
    unfold lineFinished at hcursor ⊢
    split at hcursor
    · cases hcursor
    · rfl
  have hround : ∀ {cursor : LineCursor} {pulled : Pulled E}, round cursor = .done pulled →
      pulled.1 = some (.error error) → pulled.2.ended = true := by
    intro cursor pulled hcursor hpulled
    unfold round at hcursor
    split at hcursor
    · dsimp only at hcursor
      split at hcursor
      · cases hcursor
        rfl
      · split at hcursor
        · cases hcursor
          exact hfinished hpulled
        · cases hcursor
    · cases hcursor
  induction source generalizing current with
  | nil =>
    rw [loop] at h ⊢
    cases hcase : round (E := E) current with
    | done pulled =>
      rw [hcase] at h; exact hround hcase h
    | spent left =>
      rw [hcase] at h
      dsimp only at h ⊢
      split at h
      · next hstarted =>
        rw [if_pos hstarted]; exact hfinished h
      · cases h
  | cons item rest ih =>
    rw [loop] at h ⊢
    cases hcase : round (E := E) current with
    | done pulled =>
      rw [hcase] at h; exact hround hcase h
    | spent left =>
      rw [hcase] at h
      dsimp only at h ⊢
      cases hitem : bytes item with
      | ok chunk =>
        rw [hitem] at h; exact ih h
      | error failed => rfl

theorem call_ended (h : state.cursor.ended = true) (count : Nat) :
    call next state count = none := by
  induction count with
  | zero => rw [call, next, if_pos h]
  | succ count ih => rw [call, next, if_pos h, ih]

theorem call_terminal {error : LineError E} {count : Nat}
    (h : call next state count = some (.error error)) (more : Nat) :
    call next state (count + 1 + more) = none := by
  induction count generalizing state with
  | zero =>
    have hnext : (next state).1 = some (.error error) := h
    have hended : (next state).2.cursor.ended = true := by
      unfold next at hnext ⊢
      split at hnext
      · cases hnext
      · next hopen =>
        rw [if_neg hopen]; exact loop_ended _ hnext
    rw [Nat.add_comm]; exact call_ended hended more
  | succ count ih =>
    have hrest : call next (next state).2 count = some (.error error) := h
    have hmore := ih hrest
    have hsum : count + 1 + 1 + more = count + 1 + more + 1 := by omega
    rw [hsum]; exact hmore

end

/-- `lines` gives the value of every line, and at the first that is no JSON text an error with
its number, the one of the decoder of chunks; it gives this for the bytes, however they are cut
in chunks. Nothing comes behind an error. -/
theorem lines_yields (E : Type) :
    ∃ items : List UInt8 → List (Except (LineError E) Value),
      (∀ input, Yields 1 (contentsOf input) (items input)) ∧
      (∀ {S : Type} (source : List S) (contents : S → List UInt8) (count : Nat),
        call next (lines source (fun item => .ok (contents item))) count =
          (items (source.flatMap contents))[count]?) ∧
      ∀ {S : Type} (source : List S) (bytes : S → Except E (List UInt8)) (count more : Nat)
        (error : LineError E), call next (lines source bytes) count = some (.error error) →
        call next (lines source bytes) (count + 1 + more) = none := by
  refine ⟨(machine E).outputs ⟨decoder, 1, false⟩, ?_, ?_, ?_⟩
  · intro input; exact outputs_yields (fronts_start 1) input
  · intro S source contents count
    refine call_eq (Remains contents) next_spec
      ⟨rfl, .inr ⟨by simp [lines, lineCursor], running_decoder, rfl⟩⟩ count
  · intro S source bytes count more error h; exact call_terminal h more

/-- The error of a line need not be the one that the whole parser gives for it. -/
theorem lines_other_error :
    (call next (lines (E := Unit) [[93]] Except.ok) 0 =
      some (.error (.syntaxError 1 ⟨0, "unexpected JSON separator"⟩))) ∧
    bytes "]" = [93] ∧ parse "]" = .error (.error ⟨0, "expected JSON value"⟩) := by
  have hbytes : bytes "]" = [93] := by decide
  refine ⟨rfl, hbytes, ?_⟩
  have hvalue : value maximumDepth ⟨0, [93]⟩ = error 0 "expected JSON value" := by
    unfold value; rfl
  rw [parse, hbytes, hvalue]; rfl

end Loom.JsonLines

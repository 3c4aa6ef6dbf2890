import Loom.Json.Writer
import Loom.Library.Streams

/-
  The encoder: JSON texts in chunks of bytes.

  The encoder keeps a stack of frames, each a part of the text that is still to be
  written. A pull takes steps at the top of the stack until the chunk is full or
  the stack is empty; a step never writes past the limit.

  Correspondence (json/output.loom ↔ Lean):
    `EncodeFrame`, `EncoderState` ↔ `EncodeFrame`, `EncoderState`; the top of the
      stack is the head of the list
    a string at −1 ↔ a string at `none`
    `json_encode_raw`, `json_encode_string`, `json_encode_step`
      ↔ `encodeRaw`, `encodeString`, `encodeStep`
    `json_value_next` ↔ `valueNext`, with its loop `encodeLoop`
  The loop has a bound: the weight of the frames, which each step lowers.
-/

namespace Loom.Json

open Utf8 Results Streams List Nat

/-! ## The source -/

inductive EncodeFrame where
  | value (value : Value) (depth : Nat)
  | raw (text : String) (position : Nat)
  | string (text : String) (position : Option Nat)
  | array (items : List Value) (index depth : Nat)
  | object (fields : List (String × Value)) (seen : List String) (index depth : Nat)
  | byte (value : UInt8)

structure EncoderState where
  frames : List EncodeFrame
  limit : Nat
  finished : Bool

def encoder (input : Value) (chunkSize : Nat) : EncoderState := ⟨[.value input 0], chunkSize, false⟩

/-- The loop of `json_encode_raw`: where it stops, and the output. -/
def rawFrom (limit : Nat) : List UInt8 → Nat → List UInt8 → Nat × List UInt8
  | [], index, output => (index, output)
  | byte :: rest, index, output =>
    if output.length < limit then rawFrom limit rest (index + 1) (output ++ [byte])
    else (index, output)

def encodeRaw (frames : List EncodeFrame) (output : List UInt8) (input : String) (start limit : Nat) :
    List EncodeFrame × List UInt8 :=
  let stop := rawFrom limit ((bytes input).drop start) start output
  (if stop.1 < (bytes input).length then .raw input stop.1 :: frames else frames, stop.2)

/-- The loop of `json_encode_string`: where it stops, the output, and the byte to be
escaped that it stops behind. -/
def stringFrom (limit : Nat) : List UInt8 → Nat → List UInt8 → Nat × List UInt8 × Option UInt8
  | [], index, output => (index, output, none)
  | current :: rest, index, output =>
    if output.length < limit then
      if current = 34 ∨ current = 92 ∨ current.toNat < 32 then (index + 1, output, some current)
      else stringFrom limit rest (index + 1) (output ++ [current])
    else (index, output, none)

def encodeString (frames : List EncodeFrame) (output : List UInt8) (input : String)
    (start : Option Nat) (limit : Nat) : Except WriteStop (List EncodeFrame × List UInt8) :=
  let output := if start = none then output ++ [34] else output
  let index := start.getD 0
  let stop := stringFrom limit ((bytes input).drop index) index output
  match stop.2.2 with
  | some current =>
    match decode (writeStringByte current) with
    | some escaped =>
      .ok (.raw escaped 0 :: .string input (some stop.1) :: frames, stop.2.1)
    | none => .error .fault
  | none =>
    if stop.1 < (bytes input).length then .ok (.string input (some stop.1) :: frames, stop.2.1)
    else if stop.2.1.length < limit then .ok (frames, stop.2.1 ++ [34])
    else .ok (.byte 34 :: frames, stop.2.1)

/-- A step: whether there was a frame, the frames that are left, and the output. -/
def encodeStep (frames : List EncodeFrame) (output : List UInt8) (limit : Nat) :
    Except WriteStop (Bool × List EncodeFrame × List UInt8) :=
  match frames with
  | [] => .ok (false, [], output)
  | .byte value :: frames => .ok (true, frames, output ++ [value])
  | .raw text position :: frames => .ok (true, encodeRaw frames output text position limit)
  | .string text position :: frames => do
    let left ← encodeString frames output text position limit
    .ok (true, left)
  | .value input depth :: frames =>
    match input with
    | .null => .ok (true, .raw "null" 0 :: frames, output)
    | .boolean flag => .ok (true, .raw (if flag then "true" else "false") 0 :: frames, output)
    | .number raw =>
      match numberEnd ⟨0, bytes raw⟩ with
      | .ok stop =>
        if stop.offset ≠ (bytes raw).length then .error (.error .invalidNumber)
        else .ok (true, .raw raw 0 :: frames, output)
      | .error _ => .error (.error .invalidNumber)
    | .string text => .ok (true, .string text none :: frames, output)
    | .array items =>
      if maximumDepth ≤ depth then .error (.error .depthExceeded)
      else .ok (true, .array items 0 depth :: frames, output ++ [91])
    | .object fields =>
      if maximumDepth ≤ depth then .error (.error .depthExceeded)
      else .ok (true, .object fields [] 0 depth :: frames, output ++ [123])
  | .array items index depth :: frames =>
    if index = items.length then .ok (true, frames, output ++ [93])
    else
      match items[index]? with
      | none => .error .fault
      | some item =>
        .ok (true, .value item (depth + 1) :: .array items (index + 1) depth :: frames,
          output ++ separator index)
  | .object fields seen index depth :: frames =>
    if index = fields.length then .ok (true, frames, output ++ [125])
    else
      match fields[index]? with
      | none => .error .fault
      | some (key, item) =>
        if key ∈ seen then .error (.error .duplicateKey)
        else
          .ok (true, .string key none :: .byte 58 :: .value item (depth + 1) ::
            .object fields (seen ++ [key]) (index + 1) depth :: frames, output ++ separator index)

/-! ### The weight of frames -/

mutual

def valueWeight : Value → Nat
  | .null => 6
  | .boolean _ => 7
  | .number raw => (bytes raw).length + 2
  | .string text => 8 * (bytes text).length + 4
  | .array items => itemsWeight items + 2
  | .object fields => fieldsWeight fields + 2

def itemsWeight : List Value → Nat
  | [] => 0
  | item :: rest => valueWeight item + itemsWeight rest + 1

def fieldsWeight : List (String × Value) → Nat
  | [] => 0
  | (key, item) :: rest => 8 * (bytes key).length + valueWeight item + fieldsWeight rest + 5

end

def frameWeight : EncodeFrame → Nat
  | .value input _ => valueWeight input
  | .raw text position => ((bytes text).length - position) + 1
  | .string text none => 8 * (bytes text).length + 3
  | .string text (some position) => 8 * ((bytes text).length - position) + 2
  | .array items index _ => itemsWeight (items.drop index) + 1
  | .object fields _ index _ => fieldsWeight (fields.drop index) + 1
  | .byte _ => 1

def weight (frames : List EncodeFrame) : Nat := (frames.map frameWeight).sum

/-! ### Pulls -/

/-- The loop of `json_value_next`: whether it ended with the frames, the frames that
are left, and the output. -/
def encodeLoop (limit : Nat) : Nat → List EncodeFrame → List UInt8 →
    Except WriteStop (Bool × List EncodeFrame × List UInt8)
  | 0, _, _ => .error .fault
  | bound + 1, frames, output =>
    if output.length < limit then do
      let stepped ← encodeStep frames output limit
      if stepped.1 then encodeLoop limit bound stepped.2.1 stepped.2.2
      else .ok (true, [], output)
    else .ok (false, frames, output)

def valueNext (state : EncoderState) : Option (Except WriteStop (List UInt8)) × EncoderState :=
  if state.finished then (none, state)
  else
    match encodeLoop state.limit (weight state.frames + 1) state.frames [] with
    | .error stop => (some (.error stop), { state with frames := [], finished := true })
    | .ok (finished, frames, output) =>
      (if output.length = 0 then none else some (.ok output),
        { state with frames := frames, finished := finished })

/-! ## What is pending -/

def pendingFrame : EncodeFrame → Except WriteError (List UInt8)
  | .value input depth => writeValue input depth
  | .raw text position => .ok ((bytes text).drop position)
  | .string text none => .ok (writeString text)
  | .string text (some position) => .ok (writeCharacters ((bytes text).drop position) ++ [34])
  | .array items index depth => do
    let inner ← writeItems (items.drop index) index depth
    .ok (inner ++ [93])
  | .object fields seen index depth => do
    let inner ← writeFields (fields.drop index) seen index depth
    .ok (inner ++ [125])
  | .byte value => .ok [value]

/-- The bytes that are still to be written, or the error that writing ends in. -/
def pending : List EncodeFrame → Except WriteError (List UInt8)
  | [] => .ok []
  | frame :: frames => do
    let written ← pendingFrame frame
    let more ← pending frames
    .ok (written ++ more)

/-- What is pending behind bytes that are written. -/
def after (written : List UInt8) (more : Except WriteError (List UInt8)) :
    Except WriteError (List UInt8) :=
  more.map (written ++ ·)

@[simp] theorem after_ok (written more : List UInt8) : after written (.ok more) = .ok (written ++ more) :=
  rfl

theorem after_nil (more : Except WriteError (List UInt8)) : after [] more = more := by
  cases more <;> rfl

theorem after_after (written more : List UInt8) (rest : Except WriteError (List UInt8)) :
    after written (after more rest) = after (written ++ more) rest := by
  cases rest with
  | error => rfl
  | ok rest => simp

theorem pending_append (frames rest : List EncodeFrame) :
    pending (frames ++ rest) = (do
      let written ← pending frames
      let more ← pending rest
      .ok (written ++ more)) := by
  induction frames with
  | nil =>
    rw [nil_append, pending]
    cases pending rest <;> rfl
  | cons frame frames ih =>
    rw [cons_append, pending, pending, ih]
    cases pendingFrame frame with
    | error => rfl
    | ok written =>
      cases pending frames with
      | error => rfl
      | ok more =>
        cases pending rest with
        | error => rfl
        | ok last => simp [ok_bind, append_assoc]

/-- A frame that is replaced by others, once some bytes are written. -/
theorem pending_replace {frame : EncodeFrame} {written : List UInt8} {frames : List EncodeFrame}
    (h : pendingFrame frame = after written (pending frames)) (rest : List EncodeFrame) :
    pending (frame :: rest) = after written (pending (frames ++ rest)) := by
  rw [pending, h, pending_append]
  cases pending frames with
  | error => rfl
  | ok more =>
    cases pending rest with
    | error => rfl
    | ok last => simp [bind, Except.bind]

theorem pending_single (frame : EncodeFrame) : pending [frame] = pendingFrame frame := by
  rw [pending]
  cases pendingFrame frame with
  | error => rfl
  | ok written =>
    rw [ok_bind, pending, ok_bind, append_nil]

theorem pending_error {frame : EncodeFrame} {failed : WriteError}
    (h : pendingFrame frame = .error failed) (rest : List EncodeFrame) :
    pending (frame :: rest) = .error failed := by
  rw [pending, h]; rfl

/-! ## Steps -/

/-- An index never passes the items it counts. -/
def Placed : EncodeFrame → Prop
  | .array items index _ => index ≤ items.length
  | .object fields _ index _ => index ≤ fields.length
  | _ => True

/-- A step that goes on: it writes bytes within the limit and replaces the top frame. -/
structure Advances (frame : EncodeFrame) (output : List UInt8) (limit : Nat)
    (frames : List EncodeFrame) (output' : List UInt8) : Prop where
  written : ∃ written, output' = output ++ written ∧
    pendingFrame frame = after written (pending frames)
  fits : output'.length ≤ limit
  placed : ∀ frame ∈ frames, Placed frame
  lighter : weight frames < frameWeight frame

section
variable {limit : Nat} {output : List UInt8}

theorem rawFrom_spec (source : List UInt8) (index : Nat) (output : List UInt8)
    (hfits : output.length ≤ limit) :
    let count := min source.length (limit - output.length)
    rawFrom limit source index output = (index + count, output ++ source.take count) := by
  induction source generalizing index output with
  | nil => simp [rawFrom]
  | cons byte rest ih =>
    rw [rawFrom]
    by_cases hroom : output.length < limit
    · have hcount : min (byte :: rest).length (limit - output.length) =
          min rest.length (limit - (output ++ [byte]).length) + 1 := by
        simp only [length_cons, length_append, length_nil]; omega
      have hrest := ih (index + 1) (output ++ [byte]) (by simp; omega)
      dsimp only at hrest ⊢
      rw [if_pos hroom, hrest, hcount]
      simp; omega
    · have hcount : min (byte :: rest).length (limit - output.length) = 0 := by omega
      rw [if_neg hroom, hcount]; simp

/-- The loop over a string stops behind a byte that is escaped, at the end of the
string, or when the output is full. -/
theorem stringFrom_spec (source : List UInt8) (index : Nat) (output : List UInt8)
    (hfits : output.length ≤ limit) :
    ∃ plain rest, source = plain ++ rest ∧
      (∀ more, writeCharacters (plain ++ more) = plain ++ writeCharacters more) ∧
      (output ++ plain).length ≤ limit ∧
      ((∃ current more, rest = current :: more ∧ Escaped current ∧
        stringFrom limit source index output =
          (index + plain.length + 1, output ++ plain, some current)) ∨
      (rest = [] ∨ (output ++ plain).length = limit) ∧
        stringFrom limit source index output = (index + plain.length, output ++ plain, none)) := by
  induction source generalizing index output with
  | nil => exact ⟨[], [], rfl, fun _ => rfl, by simpa using hfits, .inr ⟨.inl rfl, by simp [stringFrom]⟩⟩
  | cons current source ih =>
    rw [stringFrom]
    by_cases hroom : output.length < limit
    · rw [if_pos hroom]
      by_cases hescaped : Escaped current
      · refine ⟨[], current :: source, rfl, fun _ => rfl, by simpa using hfits,
          .inl ⟨current, source, rfl, hescaped, ?_⟩⟩
        refine (if_pos hescaped).trans ?_
        simp
      · obtain ⟨plain, rest, rfl, hplain, hlength, hstop⟩ :=
          ih (index + 1) (output ++ [current]) (by simp; omega)
        have hstep : (if current = 34 ∨ current = 92 ∨ current.toNat < 32 then
            (index + 1, output, some current)
            else stringFrom limit (plain ++ rest) (index + 1) (output ++ [current])) =
            stringFrom limit (plain ++ rest) (index + 1) (output ++ [current]) := if_neg hescaped
        have hcount : index + 1 + plain.length = index + (current :: plain).length := by
          rw [length_cons]; omega
        have houtput : output ++ [current] ++ plain = output ++ current :: plain := by simp
        rw [houtput, hcount] at hstop
        rw [houtput] at hlength
        refine ⟨current :: plain, rest, rfl, ?_, hlength, ?_⟩
        · intro more
          rw [cons_append, writeCharacters_plain hescaped, hplain]; rfl
        · rw [hstep]; exact hstop
    · rw [if_neg hroom]
      refine ⟨[], current :: source, rfl, fun _ => rfl, by simpa using hfits,
        .inr ⟨.inr ?_, by simp⟩⟩
      rw [append_nil]; omega

theorem weight_cons (frame : EncodeFrame) (frames : List EncodeFrame) :
    weight (frame :: frames) = frameWeight frame + weight frames := rfl

theorem weight_nil : weight [] = 0 := rfl

theorem weight_append (frames rest : List EncodeFrame) :
    weight (frames ++ rest) = weight frames + weight rest := by
  simp [weight]

theorem encodeRaw_spec (frames : List EncodeFrame) (text : String) (position : Nat)
    (hroom : output.length < limit) :
    ∃ front output', encodeRaw frames output text position limit = (front ++ frames, output') ∧
      Advances (.raw text position) output limit front output' := by
  have hstop := rawFrom_spec ((bytes text).drop position) position output (le_of_lt hroom)
  generalize hcount : min ((bytes text).drop position).length (limit - output.length) = count at hstop
  rw [length_drop] at hcount
  have hlength : (((bytes text).drop position).take count).length = count := by
    rw [length_take, length_drop]; omega
  have hwritten : (bytes text).drop position =
      ((bytes text).drop position).take count ++ (bytes text).drop (position + count) := by
    rw [← drop_drop, take_append_drop]
  unfold encodeRaw
  rw [hstop]
  dsimp only
  by_cases hmore : position + count < (bytes text).length
  · rw [if_pos hmore]
    refine ⟨[.raw text (position + count)], _, rfl, ⟨_, rfl, ?_⟩, ?_, ?_, ?_⟩
    · rw [pending_single, pendingFrame, pendingFrame, after_ok, ← hwritten]
    · rw [length_append]; omega
    · intro frame hframe
      rw [mem_singleton.mp hframe]; trivial
    · rw [weight_cons, weight_nil, frameWeight, frameWeight]; omega
  · rw [if_neg hmore]
    have hnone : (bytes text).drop (position + count) = [] := by
      rw [drop_eq_nil_iff]; omega
    refine ⟨[], _, rfl, ⟨_, rfl, ?_⟩, ?_, nofun, ?_⟩
    · rw [hnone, append_nil] at hwritten
      rw [pending, pendingFrame, after_ok, append_nil, ← hwritten]
    · rw [length_append]; omega
    · rw [weight_nil, frameWeight]; omega

theorem writeStringByte_length (current : UInt8) : (writeStringByte current).length ≤ 6 := by
  unfold writeStringByte
  split
  · simp
  split
  · simp
  · simp

theorem string_weight (text : String) (start : Option Nat) :
    8 * ((bytes text).length - start.getD 0) + 2 + (if start = none then 1 else 0) =
      frameWeight (.string text start) := by
  cases start with
  | none => simp [frameWeight]
  | some position => simp [frameWeight]

theorem encodeString_spec (frames : List EncodeFrame) (text : String) (start : Option Nat)
    (hroom : output.length < limit) :
    ∃ front output', encodeString frames output text start limit = .ok (front ++ frames, output') ∧
      Advances (.string text start) output limit front output' := by
  obtain ⟨opened, hopened, hfits, hpending, hlength⟩ : ∃ opened,
      (if start = none then output ++ [34] else output) = output ++ opened ∧
      (output ++ opened).length ≤ limit ∧
      pendingFrame (.string text start) =
        .ok (opened ++ (writeCharacters ((bytes text).drop (start.getD 0)) ++ [34])) ∧
      opened.length = if start = none then 1 else 0 := by
    cases start with
    | none =>
      refine ⟨[34], rfl, ?_, rfl, rfl⟩
      rw [length_append, length_singleton]; omega
    | some position => exact ⟨[], by simp, by simp; omega, rfl, by simp⟩
  have hweight := string_weight text start
  unfold encodeString
  dsimp only
  rw [hopened]
  generalize start.getD 0 = index at hpending hweight ⊢
  obtain ⟨plain, rest, hsource, hplain, hfull, hstop⟩ :=
    stringFrom_spec ((bytes text).drop index) index (output ++ opened) hfits
  have hcount := congrArg List.length hsource
  rw [length_drop, length_append] at hcount
  have hrest : (bytes text).drop (index + plain.length) = rest := by
    rw [← drop_drop, hsource, drop_left]
  rw [hsource, hplain] at hpending
  obtain ⟨current, more, rfl, hescaped, hstop⟩ | ⟨hend, hstop⟩ := hstop
  · -- a byte that is escaped
    obtain ⟨escaped, hdecode, hbytes⟩ := exists_decode (writeStringByte_valid hescaped.ascii)
    have hmore : (bytes text).drop (index + plain.length + 1) = more := by
      rw [← drop_drop, hrest]; rfl
    rw [hstop]
    dsimp only
    rw [hdecode]
    refine ⟨[.raw escaped 0, .string text (some (index + plain.length + 1))], _, rfl,
      ⟨opened ++ plain, by rw [append_assoc], ?_⟩, hfull, ?_, ?_⟩
    · rw [hpending, pending, pendingFrame, pending_single, pendingFrame, hmore, hbytes, ok_bind,
        ok_bind, writeCharacters_escaped hescaped]
      simp
    · intro frame hframe
      simp only [mem_cons, not_mem_nil, or_false] at hframe
      obtain rfl | rfl := hframe
      · trivial
      · trivial
    · have hshort := writeStringByte_length current
      rw [length_cons] at hcount
      rw [weight_cons, weight_cons, weight_nil, frameWeight, frameWeight, hbytes]
      omega
  · rw [hstop]
    dsimp only
    by_cases hmore : index + plain.length < (bytes text).length
    · -- the output is full
      have hlimit : (output ++ opened ++ plain).length = limit := by
        obtain rfl | hlimit := hend
        · rw [length_nil] at hcount; omega
        · exact hlimit
      rw [if_pos hmore]
      refine ⟨[.string text (some (index + plain.length))], _, rfl,
        ⟨opened ++ plain, by rw [append_assoc], ?_⟩, hfull, ?_, ?_⟩
      · rw [hpending, pending_single, pendingFrame, hrest]; simp
      · intro frame hframe
        rw [mem_singleton.mp hframe]; trivial
      · rw [length_append, length_append] at hlimit
        rw [weight_cons, weight_nil, frameWeight]; omega
    rw [if_neg hmore]
    have hnil : rest = [] := by
      rw [← hrest, drop_eq_nil_iff]; omega
    rw [hnil] at hpending
    by_cases hquote : (output ++ opened ++ plain).length < limit
    · rw [if_pos hquote]
      refine ⟨[], _, rfl, ⟨opened ++ plain ++ [34], by simp, ?_⟩, ?_, nofun, ?_⟩
      · rw [hpending, pending]; simp [writeCharacters]
      · rw [length_append, length_singleton]; omega
      · rw [weight_nil]; omega
    · rw [if_neg hquote]
      refine ⟨[.byte 34], _, rfl, ⟨opened ++ plain, by rw [append_assoc], ?_⟩, hfull, ?_, ?_⟩
      · rw [hpending, pending_single, pendingFrame]; simp [writeCharacters]
      · intro frame hframe
        rw [mem_singleton.mp hframe]; trivial
      · rw [weight_cons, weight_nil, frameWeight]; omega

variable {frame : EncodeFrame} {index depth : Nat} {item : Value} {state : EncoderState}

/-- A frame that is replaced without a loop. -/
theorem advances_of {frames : List EncodeFrame} {written : List UInt8}
    (hroom : output.length < limit) (hwritten : written.length ≤ 1)
    (hpending : pendingFrame frame = after written (pending frames))
    (hplaced : ∀ frame ∈ frames, Placed frame) (hlighter : weight frames < frameWeight frame) :
    Advances frame output limit frames (output ++ written) := by
  refine ⟨⟨written, rfl, hpending⟩, ?_, hplaced, hlighter⟩
  rw [length_append]; omega

/-- A frame that is only taken apart. -/
theorem advances_into {frame' : EncodeFrame} (hroom : output.length < limit)
    (hpending : pendingFrame frame = pendingFrame frame') (hplaced : Placed frame')
    (hlighter : frameWeight frame' < frameWeight frame) :
    Advances frame output limit [frame'] output := by
  refine ⟨⟨[], by simp, ?_⟩, le_of_lt hroom, ?_, hlighter⟩
  · rw [after_nil, pending_single, hpending]
  · intro other hother
    rw [mem_singleton.mp hother]; exact hplaced

theorem separator_length (index : Nat) : (separator index).length ≤ 1 := by
  unfold separator
  split <;> simp

theorem pending_items {items : List Value} (hitem : items[index]? = some item) :
    pendingFrame (.array items index depth) = after (separator index)
      (pending [.value item (depth + 1), .array items (index + 1) depth]) := by
  obtain ⟨hindex, hget⟩ := List.getElem?_eq_some_iff.mp hitem
  rw [pendingFrame, drop_eq_getElem_cons hindex, hget, writeItems, pending, pendingFrame,
    pending_single, pendingFrame]
  cases writeValue item (depth + 1) with
  | error => rfl
  | ok written =>
    cases writeItems (items.drop (index + 1)) (index + 1) depth with
    | error => rfl
    | ok more => simp [ok_bind]

section
variable {fields : List (String × Value)} {seen : List String} {key : String}
  (hfield : fields[index]? = some (key, item))
include hfield

theorem pending_fields (hfresh : key ∉ seen) :
    pendingFrame (.object fields seen index depth) = after (separator index)
      (pending [.string key none, .byte 58, .value item (depth + 1),
        .object fields (seen ++ [key]) (index + 1) depth]) := by
  obtain ⟨hindex, hget⟩ := List.getElem?_eq_some_iff.mp hfield
  rw [pendingFrame, drop_eq_getElem_cons hindex, hget, writeFields, if_neg hfresh, pending,
    pendingFrame, pending, pendingFrame, pending, pendingFrame, pending_single, pendingFrame]
  cases writeValue item (depth + 1) with
  | error => rfl
  | ok written =>
    cases writeFields (fields.drop (index + 1)) (seen ++ [key]) (index + 1) depth with
    | error => rfl
    | ok more => simp [ok_bind]

theorem pending_duplicate (hseen : key ∈ seen) :
    pendingFrame (.object fields seen index depth) = .error .duplicateKey := by
  obtain ⟨hindex, hget⟩ := List.getElem?_eq_some_iff.mp hfield
  rw [pendingFrame, drop_eq_getElem_cons hindex, hget, writeFields, if_pos hseen]
  rfl

end

/-- A step writes what is pending, or fails as the writer does. -/
theorem encodeStep_spec (frames : List EncodeFrame) (hplaced : Placed frame)
    (hroom : output.length < limit) :
    (∃ front output', encodeStep (frame :: frames) output limit =
        .ok (true, front ++ frames, output') ∧ Advances frame output limit front output') ∨
      ∃ failed, encodeStep (frame :: frames) output limit = .error (.error failed) ∧
        pendingFrame frame = .error failed := by
  cases frame with
  | byte value => exact .inl ⟨[], _, rfl, advances_of hroom (by simp) rfl nofun zero_lt_one⟩
  | raw text position =>
    obtain ⟨front, output', hraw, hadvances⟩ := encodeRaw_spec frames text position hroom
    refine .inl ⟨front, output', ?_, hadvances⟩
    rw [encodeStep, hraw]
  | string text position =>
    obtain ⟨front, output', hstring, hadvances⟩ := encodeString_spec frames text position hroom
    refine .inl ⟨front, output', ?_, hadvances⟩
    rw [encodeStep, hstring]; rfl
  | value input depth =>
    cases input with
    | null =>
      refine .inl ⟨[.raw "null" 0], output, rfl, advances_into hroom ?_ trivial ?_⟩
      · rw [pendingFrame, writeValue, pendingFrame, drop_zero]
      · have hless : frameWeight (.raw "null" 0) < 6 := by decide
        exact hless
    | boolean flag =>
      refine .inl ⟨[.raw (if flag then "true" else "false") 0], output, rfl,
        advances_into hroom ?_ trivial ?_⟩
      · cases flag <;> rfl
      · have hless : ∀ flag : Bool, frameWeight (.raw (if flag then "true" else "false") 0) < 7 := by
          decide
        exact hless flag
    | number raw =>
      have hwrite : pendingFrame (.value (.number raw) depth) = writeValue (.number raw) depth := rfl
      rw [writeValue] at hwrite
      cases hstop : numberEnd ⟨0, bytes raw⟩ with
      | error stop =>
        rw [hstop] at hwrite
        refine .inr ⟨.invalidNumber, ?_, hwrite⟩
        simp [encodeStep, hstop]
      | ok stop =>
        rw [hstop] at hwrite
        dsimp only at hwrite
        by_cases hlength : stop.offset ≠ (bytes raw).length
        · rw [if_pos hlength] at hwrite
          refine .inr ⟨.invalidNumber, ?_, hwrite⟩
          simp only [encodeStep, hstop]
          rw [if_pos hlength]
        · rw [if_neg hlength] at hwrite
          refine .inl ⟨[.raw raw 0], output, ?_, advances_into hroom ?_ trivial ?_⟩
          · simp only [encodeStep, hstop]
            rw [if_neg hlength]; rfl
          · rw [hwrite, pendingFrame, drop_zero]
          · rw [frameWeight, frameWeight, valueWeight]; omega
    | string text =>
      refine .inl ⟨[.string text none], output, rfl, advances_into hroom ?_ trivial ?_⟩
      · rw [pendingFrame, writeValue, pendingFrame]
      · rw [frameWeight, frameWeight, valueWeight]; omega
    | array items =>
      by_cases hdepth : maximumDepth ≤ depth
      · refine .inr ⟨.depthExceeded, ?_, ?_⟩
        · simp only [encodeStep]
          rw [if_pos hdepth]
        · rw [pendingFrame, writeValue, if_pos hdepth]
      · refine .inl ⟨[.array items 0 depth], output ++ [91], ?_, ?_⟩
        · simp only [encodeStep]
          rw [if_neg hdepth]; rfl
        · refine advances_of hroom (by simp) ?_ (by simp [Placed]) ?_
          · rw [pendingFrame, writeValue, if_neg hdepth, pending_single, pendingFrame, drop_zero]
            cases writeItems items 0 depth <;> rfl
          · rw [weight_cons, weight_nil, frameWeight, frameWeight, valueWeight, drop_zero]
            omega
    | object fields =>
      by_cases hdepth : maximumDepth ≤ depth
      · refine .inr ⟨.depthExceeded, ?_, ?_⟩
        · simp only [encodeStep]
          rw [if_pos hdepth]
        · rw [pendingFrame, writeValue, if_pos hdepth]
      · refine .inl ⟨[.object fields [] 0 depth], output ++ [123], ?_, ?_⟩
        · simp only [encodeStep]
          rw [if_neg hdepth]; rfl
        · refine advances_of hroom (by simp) ?_ (by simp [Placed]) ?_
          · rw [pendingFrame, writeValue, if_neg hdepth, pending_single, pendingFrame, drop_zero]
            cases writeFields fields [] 0 depth <;> rfl
          · rw [weight_cons, weight_nil, frameWeight, frameWeight, valueWeight, drop_zero]
            omega
  | array items index depth =>
    left
    by_cases hend : index = items.length
    · refine ⟨[], output ++ [93], ?_, advances_of hroom (by simp) ?_ nofun ?_⟩
      · rw [encodeStep, if_pos hend]; rfl
      · rw [pendingFrame, hend, drop_length]; rfl
      · rw [weight_nil, frameWeight]; omega
    · have hindex : index < items.length := lt_of_le_of_ne hplaced hend
      have hitem : items[index]? = some items[index] := List.getElem?_eq_getElem hindex
      refine ⟨[.value items[index] (depth + 1), .array items (index + 1) depth], _, ?_,
        advances_of hroom (separator_length index) (pending_items hitem) ?_ ?_⟩
      · rw [encodeStep, if_neg hend, hitem]; rfl
      · intro frame hframe
        simp only [mem_cons, not_mem_nil, or_false] at hframe
        obtain rfl | rfl := hframe
        · trivial
        · exact hindex
      · rw [weight_cons, weight_cons, weight_nil, frameWeight, frameWeight, frameWeight,
          drop_eq_getElem_cons hindex, itemsWeight]
        omega
  | object fields seen index depth =>
    by_cases hend : index = fields.length
    · refine .inl ⟨[], output ++ [125], ?_, advances_of hroom (by simp) ?_ nofun ?_⟩
      · rw [encodeStep, if_pos hend]; rfl
      · rw [pendingFrame, hend, drop_length]; rfl
      · rw [weight_nil, frameWeight]; omega
    · have hindex : index < fields.length := lt_of_le_of_ne hplaced hend
      obtain ⟨⟨key, item⟩, hget⟩ : ∃ field, fields[index] = field := ⟨_, rfl⟩
      have hfield : fields[index]? = some (key, item) := by
        rw [List.getElem?_eq_getElem hindex, hget]
      by_cases hseen : key ∈ seen
      · refine .inr ⟨.duplicateKey, ?_, pending_duplicate hfield hseen⟩
        rw [encodeStep, if_neg hend, hfield]; exact if_pos hseen
      · refine .inl ⟨[.string key none, .byte 58, .value item (depth + 1),
          .object fields (seen ++ [key]) (index + 1) depth], _, ?_,
          advances_of hroom (separator_length index) (pending_fields hfield hseen) ?_ ?_⟩
        · rw [encodeStep, if_neg hend, hfield]; exact if_neg hseen
        · intro frame hframe
          simp only [mem_cons, not_mem_nil, or_false] at hframe
          obtain rfl | rfl | rfl | rfl := hframe
          · trivial
          · trivial
          · trivial
          · exact hindex
        · simp only [weight_cons, weight_nil, frameWeight, drop_eq_getElem_cons hindex, hget,
            fieldsWeight]
          omega

/-! ## Pulls -/

/-- A pull fills its chunk, unless the text ends, or writing fails. -/
theorem encodeLoop_spec (bound : Nat) (output : List UInt8) {frames : List EncodeFrame}
    (hplaced : ∀ frame ∈ frames, Placed frame) (hfits : output.length ≤ limit)
    (hbound : weight frames < bound) :
    match encodeLoop limit bound frames output with
    | .ok (true, frames', output') => frames' = [] ∧ output'.length < limit ∧
      ∃ written, output' = output ++ written ∧ pending frames = .ok written
    | .ok (false, frames', output') => output'.length = limit ∧ (∀ frame ∈ frames', Placed frame) ∧
      weight frames' ≤ weight frames ∧ (output.length < limit → weight frames' < weight frames) ∧
      ∃ written, output' = output ++ written ∧ pending frames = after written (pending frames')
    | .error (.error failed) => pending frames = .error failed
    | .error .fault => False := by
  induction bound generalizing frames output with
  | zero => exact absurd hbound (not_lt_zero _)
  | succ bound ih =>
    rw [encodeLoop]
    by_cases hroom : output.length < limit
    · rw [if_pos hroom]
      cases frames with
      | nil =>
        exact ⟨rfl, hroom, [], by simp, rfl⟩
      | cons frame frames =>
        have hframes : ∀ other ∈ frames, Placed other :=
          fun other hother => hplaced other (.tail _ hother)
        obtain ⟨front, output', hstep, hadvances⟩ | ⟨failed, hstep, hfailed⟩ :=
          encodeStep_spec frames (hplaced frame (.head _)) hroom
        · obtain ⟨⟨written, houtput, hpending⟩, hlimit, hfront, hlighter⟩ := hadvances
          have hreplace := pending_replace hpending frames
          have hless : weight (front ++ frames) < weight (frame :: frames) := by
            rw [weight_append, weight_cons]; omega
          have hplaced' : ∀ other ∈ front ++ frames, Placed other := by
            intro other hother
            obtain hmem | hmem := mem_append.mp hother
            · exact hfront other hmem
            · exact hframes other hmem
          have hrest := ih output' hplaced' hlimit (lt_of_lt_of_le hless (le_of_lt_succ hbound))
          rw [hstep, ok_bind]
          cases hloop : encodeLoop limit bound (front ++ frames) output' with
          | error stop =>
            rw [hloop] at hrest
            cases stop with
            | error failed => exact hreplace.trans (by rw [hrest]; rfl)
            | fault => exact hrest
          | ok left =>
            obtain ⟨finished, frames', last⟩ := left
            rw [hloop] at hrest
            cases finished with
            | true =>
              obtain ⟨hnil, hshort, more, hlast, hmore⟩ := hrest
              refine ⟨hnil, hshort, written ++ more, ?_, ?_⟩
              · rw [hlast, houtput, append_assoc]
              · rw [hreplace, hmore, after_ok]
            | false =>
              obtain ⟨hfull, hplaced', hlighter', _, more, hlast, hmore⟩ := hrest
              have hless' := lt_of_le_of_lt hlighter' hless
              refine ⟨hfull, hplaced', le_of_lt hless', fun _ => hless', written ++ more, ?_, ?_⟩
              · rw [hlast, houtput, append_assoc]
              · rw [hreplace, hmore, after_after]
        · rw [hstep]; exact pending_error hfailed frames
    · rw [if_neg hroom]
      exact ⟨by omega, hplaced, le_refl _, fun h => absurd h hroom, [], by simp,
        (after_nil _).symm⟩

theorem call_finished (h : state.finished = true) (count : Nat) :
    call valueNext state count = none := by
  have hnext : valueNext state = (none, state) := by rw [valueNext, if_pos h]
  induction count with
  | zero => rw [call, hnext]
  | succ count ih => rw [call, hnext, ih]

/-- The chunks of a stream: each but the last is full, and the last is not empty. -/
structure Sliced (limit : Nat) (chunks : List (List UInt8)) : Prop where
  full : ∀ chunk ∈ chunks.dropLast, chunk.length = limit
  fits : ∀ chunk ∈ chunks, 0 < chunk.length ∧ chunk.length ≤ limit

/-- What the pulls from a state give. -/
def Gives (state : EncoderState) (items : List (Except WriteStop (List UInt8))) : Prop :=
  ∀ count, call valueNext state count = items[count]?

theorem Gives.cons {state : EncoderState} {item : Except WriteStop (List UInt8)}
    {items : List (Except WriteStop (List UInt8))} (hitem : (valueNext state).1 = some item)
    (h : Gives (valueNext state).2 items) : Gives state (item :: items) := by
  intro count
  cases count with
  | zero => exact hitem
  | succ count => exact h count

theorem gives_nil (hnone : (valueNext state).1 = none) (h : (valueNext state).2.finished = true) :
    Gives state [] := by
  intro count
  cases count with
  | zero => exact hnone
  | succ count => exact call_finished h count

theorem gives_one {item : Except WriteStop (List UInt8)} (hitem : (valueNext state).1 = some item)
    (h : (valueNext state).2.finished = true) : Gives state [item] :=
  .cons hitem fun count => by rw [call_finished h]; rfl

theorem gives_pending {state : EncoderState} (hlimit : 0 < state.limit)
    (hplaced : ∀ frame ∈ state.frames, Placed frame) (hopen : state.finished = false) :
    match pending state.frames with
    | .ok output => ∃ chunks, Gives state (chunks.map .ok) ∧ chunks.flatten = output ∧
      Sliced state.limit chunks
    | .error failed => ∃ chunks : List (List UInt8),
      Gives state (chunks.map .ok ++ [.error (.error failed)]) ∧
      ∀ chunk ∈ chunks, chunk.length = state.limit := by
  induction hweight : weight state.frames using Nat.strongRecOn generalizing state with
  | _ measure ih =>
    have hloop := encodeLoop_spec (weight state.frames + 1) [] hplaced
      (zero_le state.limit) (lt_succ_self _)
    cases hcase : encodeLoop state.limit (weight state.frames + 1) state.frames [] with
    | error stop =>
      have hnext : valueNext state =
          (some (.error stop), { state with frames := [], finished := true }) := by
        rw [valueNext, hopen, hcase]; rfl
      rw [hcase] at hloop
      cases stop with
      | fault => exact absurd hloop id
      | error failed =>
        have hpending : pending state.frames = .error failed := hloop
        rw [hpending]
        exact ⟨[], gives_one (by rw [hnext]) (by rw [hnext]), nofun⟩
    | ok left =>
      obtain ⟨finished, frames, output⟩ := left
      have hnext : valueNext state = (if output.length = 0 then none else some (.ok output),
          { state with frames := frames, finished := finished }) := by
        rw [valueNext, hopen, hcase]; rfl
      rw [hcase] at hloop
      cases finished with
      | true =>
        obtain ⟨_, hshort, written, hwritten, hpending⟩ := hloop
        have hsame : output = written := hwritten
        rw [hpending, ← hsame]
        by_cases hempty : output.length = 0
        · rw [if_pos hempty] at hnext
          refine ⟨[], gives_nil (by rw [hnext]) (by rw [hnext]), ?_, nofun, nofun⟩
          exact (length_eq_zero_iff.mp hempty).symm
        · rw [if_neg hempty] at hnext
          refine ⟨[output], gives_one (by rw [hnext]) (by rw [hnext]), by simp, nofun, ?_⟩
          intro chunk hchunk
          rw [mem_singleton.mp hchunk]; omega
      | false =>
        obtain ⟨hfull, hplaced', _, hlighter, written, hwritten, hpending⟩ := hloop
        have hsame : output = written := hwritten
        rw [if_neg (by omega)] at hnext
        have hstate : (valueNext state).2 = { state with frames := frames, finished := false } := by
          rw [hnext]
        have hitem : (valueNext state).1 = some (.ok output) := by rw [hnext]
        have hrest := @ih (weight frames) (hweight ▸ hlighter hlimit)
          { state with frames := frames, finished := false } hlimit hplaced' rfl rfl
        rw [hpending, ← hsame]
        cases hmore : pending frames with
        | error failed =>
          rw [hmore] at hrest
          obtain ⟨chunks, hgives, hlength⟩ := hrest
          refine ⟨output :: chunks, .cons hitem (hstate ▸ hgives), ?_⟩
          intro chunk hchunk
          obtain hhead | htail := mem_cons.mp hchunk
          · rw [hhead]; exact hfull
          · exact hlength chunk htail
        | ok more =>
          rw [hmore] at hrest
          obtain ⟨chunks, hgives, hflat, hsliced⟩ := hrest
          refine ⟨output :: chunks, .cons hitem (hstate ▸ hgives), ?_, ?_, ?_⟩
          · rw [flatten_cons, hflat]
          · intro chunk hchunk
            cases chunks with
            | nil => exact absurd hchunk not_mem_nil
            | cons next chunks =>
              obtain hhead | htail := mem_cons.mp hchunk
              · rw [hhead]; exact hfull
              · exact hsliced.full chunk htail
          · intro chunk hchunk
            obtain hhead | htail := mem_cons.mp hchunk
            · rw [hhead]; omega
            · exact hsliced.fits chunk htail

end

/-- The chunks of an encoder are the bytes of `stringify`, cut at the chunk size, and
nothing behind them; when `stringify` fails, full chunks and then its error, and nothing
behind that. -/
theorem encoder_stringify (input : Value) {chunkSize : Nat} (hsize : 0 < chunkSize) :
    match stringify input with
    | .ok text => ∃ chunks,
      (∀ count, call valueNext (encoder input chunkSize) count = (chunks.map .ok)[count]?) ∧
      chunks.flatten = bytes text ∧ Sliced chunkSize chunks
    | .error stop => ∃ chunks : List (List UInt8),
      (∀ count, call valueNext (encoder input chunkSize) count =
        (chunks.map .ok ++ [.error stop])[count]?) ∧
      ∀ chunk ∈ chunks, chunk.length = chunkSize := by
  have hplaced : ∀ frame ∈ (encoder input chunkSize).frames, Placed frame := by
    intro frame hframe
    rw [mem_singleton.mp hframe]; trivial
  have hgives := @gives_pending (encoder input chunkSize) hsize hplaced rfl
  have hpending : pending (encoder input chunkSize).frames = writeValue input 0 :=
    pending_single (.value input 0)
  rw [hpending] at hgives
  cases hwrite : writeValue input 0 with
  | error failed =>
    rw [hwrite] at hgives
    have hstop : stringify input = .error (.error failed) := by rw [stringify, hwrite]
    rw [hstop]; exact hgives
  | ok output =>
    rw [hwrite] at hgives
    obtain ⟨text, htext⟩ := derives_valid (writeValue_derives input (zero_add _) hwrite)
    have hstop : stringify input = .ok text := stringify_eq_ok.mpr (htext ▸ hwrite)
    rw [hstop]
    dsimp only
    rw [htext]; exact hgives

/-- A string whose escape is cut by a chunk. -/
theorem encoder_stringify_cut :
    0 < 3 ∧ stringify (.string "a\x07") = .ok "\"a\\u0007\"" ∧ ∃ chunks,
      (∀ count, call valueNext (encoder (.string "a\x07") 3) count = (chunks.map .ok)[count]?) ∧
      chunks.flatten = bytes "\"a\\u0007\"" ∧ Sliced 3 chunks := by
  have hwrite : stringify (.string "a\x07") = .ok "\"a\\u0007\"" := by decide
  have hchunks := encoder_stringify (.string "a\x07") (show 0 < 3 by decide)
  exact ⟨by decide, hwrite, hchunks⟩

end Loom.Json

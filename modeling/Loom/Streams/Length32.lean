import Loom.Library.Streams

/-
  Frames of bytes from chunks of bytes.

  A frame is four big-endian length bytes and that many payload bytes. `frames`
  adapts a stream of chunks: a pull reads header and payload from what is left of
  the current chunk, and pulls the source when the chunk is used up.

  Correspondence (stream/length32/length32.loom ↔ Lean), where names differ:
    `Cursor`, `State` ↔ `Cursor`, `State`; the source is its items
    the loop over a header ↔ `header`
    one turn in a chunk ↔ `turn`; the turns in it ↔ `turns`
  A chunk has at most as many turns as bytes, so their number bounds `turns`.
-/

namespace Loom.Length32

open Streams List Machine

/-! ## The source -/

inductive FrameError (E : Type) where
  | input (error : E)
  | tooLarge (size : Nat)
  | truncatedHeader (count : Nat)
  | truncatedPayload (announced count : Nat)
  deriving DecidableEq

inductive EncodeError where
  | tooLarge (size : Nat)
  deriving DecidableEq

structure Cursor where
  chunk : List UInt8
  position : Nat
  headerBytes : Nat
  announced : Nat
  payload : List UInt8
  ended : Bool

structure State (S E : Type) where
  source : List S
  bytes : S → Except E (List UInt8)
  maximum : Nat
  cursor : Cursor

section
variable {S E : Type}

def cursor : Cursor := ⟨[], 0, 0, 0, [], false⟩

def frames (source : List S) (bytes : S → Except E (List UInt8)) (maximum : Nat) : State S E :=
  ⟨source, bytes, maximum, cursor⟩

/-- What a pull gives, and the cursor it leaves. -/
abbrev Pulled (E : Type) := Option (Except (FrameError E) (List UInt8)) × Cursor

def failed (current : Cursor) (error : FrameError E) : Pulled E :=
  (some (.error error), { current with chunk := [], payload := [], ended := true })

def ready (current : Cursor) : Pulled E :=
  (some (.ok current.payload), { current with headerBytes := 0, announced := 0, payload := [] })

/-- The loop over the header: the position, the number of header bytes and the
length announced so far. -/
def header : List UInt8 → Nat → Nat → Nat → Nat × Nat × Nat
  | [], position, count, announced => (position, count, announced)
  | byte :: rest, position, count, announced =>
    if count < 4 then header rest (position + 1) (count + 1) (announced * 256 + byte.toNat)
    else (position, count, announced)

/-- How a turn of the loop of `next` ends. -/
inductive Turn (E : Type) where
  | gives (pulled : Pulled E)
  | goes (current : Cursor)

/-- A turn of the loop of `next` in a chunk that is not used up. -/
def turn (maximum : Nat) (current : Cursor) : Turn E :=
  let size := current.chunk.length
  if current.headerBytes < 4 then
    let read := header (current.chunk.drop current.position) current.position current.headerBytes
      current.announced
    let moved := { current with position := read.1, headerBytes := read.2.1, announced := read.2.2 }
    if read.2.1 = 4 then
      if maximum < read.2.2 then .gives (failed moved (.tooLarge read.2.2))
      else if read.2.2 = 0 then .gives (ready moved)
      else .goes moved
    else .goes moved
  else
    let remaining := current.announced - current.payload.length
    let available := size - current.position
    let count := if remaining < available then remaining else available
    let payload := current.payload ++ (current.chunk.drop current.position).take count
    let moved := { current with position := current.position + count, payload := payload }
    if payload.length = current.announced then .gives (ready moved) else .goes moved

/-- The turns in a chunk, until it is used up. -/
def turns (maximum : Nat) : Nat → Cursor → Turn E
  | 0, current => .goes current
  | bound + 1, current =>
    if current.position < current.chunk.length then
      match turn maximum current with
      | .gives pulled => .gives pulled
      | .goes moved => turns maximum bound moved
    else .goes current

/-- The loop of `next`: the turns in a chunk, and what the source still gives. -/
def loop (bytes : S → Except E (List UInt8)) (maximum : Nat) (source : List S)
    (current : Cursor) : Pulled E × List S :=
  match turns maximum (current.chunk.length - current.position) current with
  | .gives pulled => (pulled, source)
  | .goes current =>
    let retired := { current with chunk := [], payload := [], ended := true }
    match source with
    | [] =>
      if current.headerBytes = 0 then ((none, retired), [])
      else if current.headerBytes < 4 then
        (failed retired (.truncatedHeader current.headerBytes), [])
      else (failed retired (.truncatedPayload current.announced current.payload.length), [])
    | item :: rest =>
      match bytes item with
      | .error error => (failed retired (.input error), rest)
      | .ok chunk =>
        loop bytes maximum rest { current with chunk := chunk, position := 0, ended := false }

def next (state : State S E) : Option (Except (FrameError E) (List UInt8)) × State S E :=
  if state.cursor.ended then (none, state)
  else
    let pulled := loop state.bytes state.maximum state.source state.cursor
    (pulled.1.1, { state with source := pulled.2, cursor := pulled.1.2 })

end

def encode (payload : List UInt8) (maximum : Nat) : Except EncodeError (List UInt8) :=
  let size := payload.length
  if maximum < size then .error (.tooLarge size)
  else
    .ok ([.ofNat (size / 16777216), .ofNat (size / 65536 % 256), .ofNat (size / 256 % 256),
      .ofNat (size % 256)] ++ payload)

/-! ## Frames of a whole input -/

/-- The length that header bytes announce. -/
def announce (bytes : List UInt8) : Nat := bytes.foldl (fun size byte => size * 256 + byte.toNat) 0

/-- The items behind the last complete frame: an end that is none. -/
inductive Ends {E : Type} (maximum : Nat) :
    List UInt8 → List (Except (FrameError E) (List UInt8)) → Prop where
  | clean : Ends maximum [] []
  | header (input : List UInt8) : 0 < input.length → input.length < 4 →
      Ends maximum input [.error (.truncatedHeader input.length)]
  | tooLarge (head rest : List UInt8) : head.length = 4 → maximum < announce head →
      Ends maximum (head ++ rest) [.error (.tooLarge (announce head))]
  | payload (head rest : List UInt8) : head.length = 4 → announce head ≤ maximum →
      rest.length < announce head →
      Ends maximum (head ++ rest) [.error (.truncatedPayload (announce head) rest.length)]

section
variable {E : Type} {maximum : Nat}

theorem announce_header {size : Nat} (h : size < 4294967296) :
    announce [.ofNat (size / 16777216), .ofNat (size / 65536 % 256), .ofNat (size / 256 % 256),
      .ofNat (size % 256)] = size := by
  simp only [announce, foldl_cons, foldl_nil, UInt8.toNat_ofNat']; omega

/-- The bytes of a size are the only header that announces it. -/
theorem header_announce (a b c d : UInt8) :
    let size := announce [a, b, c, d]
    [a, b, c, d] = [.ofNat (size / 16777216), .ofNat (size / 65536 % 256),
      .ofNat (size / 256 % 256), .ofNat (size % 256)] := by
  have ha := a.toNat_lt
  have hb := b.toNat_lt
  have hc := c.toNat_lt
  have hd := d.toNat_lt
  intro size
  have hsize : size = ((a.toNat * 256 + b.toNat) * 256 + c.toNat) * 256 + d.toNat := by
    simp [size, announce]
  simp only [cons.injEq, and_true]
  refine ⟨?_, ?_, ?_, ?_⟩ <;>
    (apply UInt8.toNat_inj.mp; rw [UInt8.toNat_ofNat']; omega)

/-! ## The reader, byte by byte -/

/-- The header bytes read, the length announced and the payload read. -/
abbrev Reading := Nat × Nat × List UInt8

def begin : Reading := (0, 0, [])

/-- The loop of `next` as a machine. -/
def machine (E : Type) (maximum : Nat) :
    Machine UInt8 Reading (Except (FrameError E) (List UInt8)) where
  feed state byte :=
    if state.1 < 4 then
      let announced := state.2.1 * 256 + byte.toNat
      if state.1 + 1 = 4 then
        if maximum < announced then .stop (.error (.tooLarge announced))
        else if announced = 0 then .item (.ok state.2.2) begin
        else .more (4, announced, state.2.2)
      else .more (state.1 + 1, announced, state.2.2)
    else
      let payload := state.2.2 ++ [byte]
      if payload.length = state.2.1 then .item (.ok payload) begin
      else .more (state.1, state.2.1, payload)
  close state :=
    if state.1 = 0 then none
    else if state.1 < 4 then some (.error (.truncatedHeader state.1))
    else some (.error (.truncatedPayload state.2.1 state.2.2.length))

section
variable (E maximum) (count announced : Nat) (payload : List UInt8) (byte : UInt8)

theorem feed_header (h : count + 1 < 4) :
    (machine E maximum).feed (count, announced, payload) byte =
      .more (count + 1, announced * 256 + byte.toNat, payload) := by
  show (if count < 4 then _ else _) = _
  rw [if_pos (by omega), if_neg (by omega)]

theorem feed_announced :
    (machine E maximum).feed (3, announced, payload) byte =
      if maximum < announced * 256 + byte.toNat then
        .stop (.error (.tooLarge (announced * 256 + byte.toNat)))
      else if announced * 256 + byte.toNat = 0 then .item (.ok payload) begin
      else .more (4, announced * 256 + byte.toNat, payload) :=
  rfl

theorem feed_payload :
    (machine E maximum).feed (4, announced, payload) byte =
      if payload.length + 1 = announced then .item (.ok (payload ++ [byte])) begin
      else .more (4, announced, payload ++ [byte]) := by
  simp [machine]

end

theorem outputs_payload (announced : Nat) {payload : List UInt8} (h : payload.length < announced)
    (input : List UInt8) :
    (machine E maximum).outputs (4, announced, payload) input =
      if payload.length + input.length < announced then
        [.error (.truncatedPayload announced (payload.length + input.length))]
      else
        .ok (payload ++ input.take (announced - payload.length)) ::
          (machine E maximum).outputs begin (input.drop (announced - payload.length)) := by
  induction input generalizing payload with
  | nil =>
    rw [if_pos (by simpa using h)]; rfl
  | cons byte input ih =>
    have hfeed := feed_payload E maximum announced payload byte
    by_cases hlast : payload.length + 1 = announced
    · rw [if_pos hlast] at hfeed
      rw [outputs_item hfeed, if_neg (by simp; omega)]
      have hone : announced - payload.length = 1 := by omega
      rw [hone]; rfl
    · rw [if_neg hlast] at hfeed
      rw [outputs_more hfeed, ih (by simp; omega)]
      have hcount : announced - payload.length = announced - (payload ++ [byte]).length + 1 := by
        simp; omega
      have hlength : (payload ++ [byte]).length + input.length =
          payload.length + (byte :: input).length := by
        simp; omega
      rw [hcount, append_assoc, hlength]; rfl

theorem outputs_header (a b c d : UInt8) (rest : List UInt8) :
    (machine E maximum).outputs begin (a :: b :: c :: d :: rest) =
      if maximum < announce [a, b, c, d] then [.error (.tooLarge (announce [a, b, c, d]))]
      else if announce [a, b, c, d] = 0 then .ok [] :: (machine E maximum).outputs begin rest
      else (machine E maximum).outputs (4, announce [a, b, c, d], []) rest := by
  have hfirst := feed_header E maximum 0 0 [] a (by decide)
  have hsecond := feed_header E maximum 1 (announce [a]) [] b (by decide)
  have hthird := feed_header E maximum 2 (announce [a, b]) [] c (by decide)
  have hlast := feed_announced E maximum (announce [a, b, c]) [] d
  show (machine E maximum).outputs (3, announce [a, b, c], []) (d :: rest) = _
  by_cases hlarge : maximum < announce [a, b, c, d]
  · rw [if_pos hlarge]; exact outputs_stop (hlast.trans (if_pos hlarge))
  rw [if_neg hlarge]
  by_cases hzero : announce [a, b, c, d] = 0
  · rw [if_pos hzero]
    exact outputs_item (hlast.trans ((if_neg hlarge).trans (if_pos hzero)))
  · rw [if_neg hzero]
    exact outputs_more (hlast.trans ((if_neg hlarge).trans (if_neg hzero)))

theorem outputs_encode (hmaximum : maximum ≤ 4294967295) {payload encoding : List UInt8}
    (h : encode payload maximum = .ok encoding) (rest : List UInt8) :
    (machine E maximum).outputs begin (encoding ++ rest) =
      .ok payload :: (machine E maximum).outputs begin rest := by
  unfold encode at h
  by_cases hlarge : maximum < payload.length
  · rw [if_pos hlarge] at h
    cases h
  rw [if_neg hlarge, Except.ok.injEq] at h
  have hsize := announce_header (show payload.length < 4294967296 by omega)
  rw [← h]
  simp only [cons_append]
  rw [outputs_header, hsize, if_neg hlarge]
  by_cases hempty : payload.length = 0
  · rw [length_eq_zero_iff.mp hempty]; rfl
  · rw [if_neg hempty, outputs_payload _ (by simp; omega)]; simp

theorem outputs_frames (hmaximum : maximum ≤ 4294967295) {payloads encodings : List (List UInt8)}
    (h : payloads.map (encode · maximum) = encodings.map .ok) (rest : List UInt8) :
    (machine E maximum).outputs begin (encodings.flatten ++ rest) =
      payloads.map .ok ++ (machine E maximum).outputs begin rest := by
  induction payloads generalizing encodings with
  | nil =>
    rw [map_nil, eq_comm, map_eq_nil_iff] at h
    rw [h]; rfl
  | cons payload payloads ih =>
    cases encodings with
    | nil => simp at h
    | cons encoding encodings =>
      rw [map_cons, map_cons, cons.injEq] at h
      rw [flatten_cons, append_assoc, outputs_encode hmaximum h.1, ih h.2]; rfl

theorem exists_frame (maximum : Nat) (input : List UInt8) :
    (∃ payload encoding rest, encode payload maximum = .ok encoding ∧
      input = encoding ++ rest ∧ rest.length < input.length) ∨
      ∃ items, Ends (E := E) maximum input items := by
  match input with
  | [] => exact .inr ⟨_, .clean⟩
  | [_] | [_, _] | [_, _, _] => exact .inr ⟨_, .header _ (by simp) (by simp)⟩
  | a :: b :: c :: d :: rest =>
    by_cases hlarge : maximum < announce [a, b, c, d]
    · exact .inr ⟨_, .tooLarge [a, b, c, d] rest rfl hlarge⟩
    by_cases hshort : rest.length < announce [a, b, c, d]
    · exact .inr ⟨_, .payload [a, b, c, d] rest rfl (by omega) hshort⟩
    · left
      have hlength : (rest.take (announce [a, b, c, d])).length = announce [a, b, c, d] := by
        rw [length_take]; omega
      refine ⟨rest.take (announce [a, b, c, d]), [a, b, c, d] ++ rest.take (announce [a, b, c, d]),
        rest.drop (announce [a, b, c, d]), ?_, ?_, ?_⟩
      · unfold encode
        rw [hlength, if_neg hlarge, ← header_announce]
      · simp
      · simp; omega

theorem outputs_ends {input : List UInt8} {items : List (Except (FrameError E) (List UInt8))}
    (h : Ends maximum input items) : (machine E maximum).outputs begin input = items := by
  cases h with
  | clean => rfl
  | header _ hsome hshort =>
    match input with
    | [] => simp at hsome
    | [_] | [_, _] | [_, _, _] => rfl
    | _ :: _ :: _ :: _ :: _ => exact absurd hshort (by simp)
  | tooLarge head rest hhead hlarge =>
    match head with
    | [a, b, c, d] => exact (outputs_header a b c d rest).trans (if_pos hlarge)
  | payload head rest hhead hfits hshort =>
    match head with
    | [a, b, c, d] =>
      refine (outputs_header a b c d rest).trans ?_
      rw [if_neg (by omega), if_neg (by omega), outputs_payload _ (by simp; omega),
        if_pos (by simpa using hshort)]
      simp

theorem exists_frames (maximum : Nat) (input : List UInt8) :
    ∃ (payloads encodings : List (List UInt8)) (rest : List UInt8)
        (items : List (Except (FrameError E) (List UInt8))),
      payloads.map (encode · maximum) = encodings.map .ok ∧ input = encodings.flatten ++ rest ∧
        Ends (E := E) maximum rest items := by
  induction hlength : input.length using Nat.strongRecOn generalizing input with
  | _ length ih =>
    obtain ⟨payload, encoding, rest, hencode, hinput, hless⟩ | ⟨items, hends⟩ :=
      exists_frame (E := E) maximum input
    · obtain ⟨payloads, encodings, last, items, hframes, hrest, hends⟩ :=
        ih rest.length (hlength ▸ hless) rest rfl
      refine ⟨payload :: payloads, encoding :: encodings, last, items, ?_, ?_, hends⟩
      · rw [map_cons, map_cons, hencode, hframes]
      · rw [hinput, hrest, flatten_cons, append_assoc]
    · exact ⟨[], [], input, items, rfl, rfl, hends⟩

/-! ## Turns -/

def reading (current : Cursor) : Reading :=
  (current.headerBytes, current.announced, current.payload)

/-- What holds of a cursor in front of a turn. -/
structure Ready (current : Cursor) : Prop where
  header : current.headerBytes ≤ 4
  bare : current.headerBytes < 4 → current.payload = []
  room : current.headerBytes = 4 → current.payload.length < current.announced

theorem header_full (source : List UInt8) (position announced : Nat) :
    header source position 4 announced = (position, 4, announced) := by
  cases source with
  | nil => rfl
  | cons byte rest => rfl

/-- What the loop over the header leaves to the machine. -/
theorem scan_header (E : Type) (maximum : Nat) (chunk : List UInt8) {source : List UInt8}
    (position : Nat) {count : Nat} (hsource : chunk.drop position = source) (hcount : count < 4)
    (announced : Nat) :
    let read := header source position count announced
    (machine E maximum).scan (count, announced, []) source =
      if read.2.1 = 4 then
        if maximum < read.2.2 then .stop (.error (.tooLarge read.2.2))
        else if read.2.2 = 0 then .item (.ok []) begin (chunk.drop read.1)
        else (machine E maximum).scan (4, read.2.2, []) (chunk.drop read.1)
      else (machine E maximum).scan (read.2.1, read.2.2, []) (chunk.drop read.1) := by
  induction source generalizing position count announced with
  | nil =>
    dsimp only [header]
    rw [if_neg (by omega), hsource]
  | cons byte rest ih =>
    have hrest : chunk.drop (position + 1) = rest := by
      rw [← tail_drop, hsource, tail_cons]
    by_cases hlast : count = 3
    · have hread : header (byte :: rest) position 3 announced =
          (position + 1, 4, announced * 256 + byte.toNat) := header_full rest _ _
      have hfeed := feed_announced E maximum announced [] byte
      rw [hlast, hread]
      dsimp only
      rw [hrest]
      by_cases hlarge : maximum < announced * 256 + byte.toNat
      · rw [if_pos hlarge] at hfeed ⊢; exact scan_stop hfeed
      rw [if_neg hlarge] at hfeed ⊢
      by_cases hzero : announced * 256 + byte.toNat = 0
      · rw [if_pos hzero] at hfeed ⊢; exact scan_item hfeed
      · rw [if_neg hzero] at hfeed ⊢; exact scan_more hfeed
    · have hmore : count + 1 < 4 := by omega
      have hread : header (byte :: rest) position count announced =
          header rest (position + 1) (count + 1) (announced * 256 + byte.toNat) := by
        rw [header, if_pos hcount]
      rw [hread, scan_more (feed_header E maximum count announced [] byte hmore)]
      exact ih (position + 1) hrest hmore _

theorem header_count (source : List UInt8) (position : Nat) {count : Nat} (h : count ≤ 4)
    (announced : Nat) :
    let read := header source position count announced
    read.2.1 ≤ 4 ∧ position ≤ read.1 ∧ (count < 4 → source ≠ [] → position < read.1) := by
  induction source generalizing position count announced with
  | nil => exact ⟨h, Nat.le_refl _, fun _ hsome => absurd rfl hsome⟩
  | cons byte rest ih =>
    rw [header]
    by_cases hmore : count < 4
    · rw [if_pos hmore]
      obtain ⟨hfour, hposition, _⟩ := ih (position + 1) (show count + 1 ≤ 4 from hmore)
        (announced * 256 + byte.toNat)
      exact ⟨hfour, by omega, fun _ _ => by omega⟩
    · rw [if_neg hmore]
      exact ⟨h, Nat.le_refl _, fun hless _ => absurd hless hmore⟩

/-- What the loop over the payload leaves to the machine. -/
theorem scan_payload (E : Type) (maximum : Nat) (source : List UInt8) {announced : Nat}
    (payload : List UInt8) (h : payload.length < announced) :
    let count := min (announced - payload.length) source.length
    let more := payload ++ source.take count
    (machine E maximum).scan (4, announced, payload) source =
      if more.length = announced then .item (.ok more) begin (source.drop count)
      else .more (4, announced, more) := by
  induction source generalizing payload with
  | nil =>
    dsimp only
    rw [if_neg (by simp; omega)]; simp [scan]
  | cons byte rest ih =>
    have hfeed := feed_payload E maximum announced payload byte
    by_cases hlast : payload.length + 1 = announced
    · rw [if_pos hlast] at hfeed
      have hone : min (announced - payload.length) (byte :: rest).length = 1 := by
        rw [length_cons]; omega
      dsimp only
      rw [scan_item hfeed, hone, if_pos (by simpa using hlast)]; rfl
    · rw [if_neg hlast] at hfeed
      have hmore := ih (payload ++ [byte]) (by simp; omega)
      have hcount : min (announced - payload.length) (byte :: rest).length =
          min (announced - (payload ++ [byte]).length) rest.length + 1 := by
        rw [length_append, length_cons, length_singleton]; omega
      dsimp only at hmore ⊢
      rw [scan_more hfeed, hcount, hmore,
        append_assoc]
      rfl

def Cursor.left (current : Cursor) : List UInt8 := current.chunk.drop current.position

/-- What a pull that ends in a chunk leaves, and what the machine makes of the chunk. -/
inductive Given (result : Scanned UInt8 Reading (Except (FrameError E) (List UInt8))) :
    Pulled E → Prop where
  | item {value left} : left.ended = false → reading left = begin →
      result = .item (.ok value) begin left.left → Given result (some (.ok value), left)
  | stop {error left} : left.ended = true → result = .stop (.error error) →
      Given result (some (.error error), left)

variable {current : Cursor}

theorem turn_spec (E : Type) (maximum : Nat) (hready : Ready current)
    (hended : current.ended = false) (hleft : current.position < current.chunk.length) :
    match turn maximum current with
    | .gives pulled => Given ((machine E maximum).scan (reading current) current.left) pulled
    | .goes moved => Ready moved ∧ moved.ended = false ∧ moved.chunk = current.chunk ∧
        current.position < moved.position ∧
        (machine E maximum).scan (reading current) current.left =
          (machine E maximum).scan (reading moved) moved.left := by
  have hsome : current.chunk.drop current.position ≠ [] := by simp; omega
  unfold turn
  by_cases hheader : current.headerBytes < 4
  · have hscan := scan_header E maximum current.chunk current.position rfl hheader
      current.announced
    obtain ⟨hfour, _, hmoved⟩ := header_count (current.chunk.drop current.position)
      current.position hready.header current.announced
    specialize hmoved hheader hsome
    have hbare := hready.bare hheader
    have hreading : reading current = (current.headerBytes, current.announced, []) := by
      rw [reading, hbare]
    rw [if_pos hheader, hreading, Cursor.left]
    generalize header (current.chunk.drop current.position) current.position current.headerBytes
      current.announced = read at hscan hfour hmoved ⊢
    rw [hscan]
    by_cases hlast : read.2.1 = 4
    · rw [if_pos hlast, if_pos hlast]
      by_cases hlarge : maximum < read.2.2
      · rw [if_pos hlarge, if_pos hlarge]; exact .stop rfl rfl
      rw [if_neg hlarge, if_neg hlarge]
      by_cases hzero : read.2.2 = 0
      · rw [if_pos hzero, if_pos hzero]
        refine .item hended rfl ?_
        rw [hbare]; rfl
      · rw [if_neg hzero, if_neg hzero]
        refine ⟨⟨hfour, fun _ => hbare, fun _ => ?_⟩, hended, rfl, hmoved, ?_⟩
        · rw [hbare]; exact Nat.pos_of_ne_zero hzero
        · rw [hbare, hlast]; rfl
    · rw [if_neg hlast, if_neg hlast]
      refine ⟨⟨hfour, fun _ => hbare, fun hfull => absurd hfull hlast⟩, hended, rfl, hmoved, ?_⟩
      rw [hbare]; rfl
  · have hfull : current.headerBytes = 4 := by
      have hfour := hready.header
      omega
    have hroom := hready.room hfull
    have hscan := scan_payload E maximum current.left current.payload hroom
    have hcount : (if current.announced - current.payload.length <
          current.chunk.length - current.position then
          current.announced - current.payload.length
        else current.chunk.length - current.position) =
        min (current.announced - current.payload.length) current.left.length := by
      rw [Cursor.left, length_drop]
      split <;> omega
    have hreading : reading current = (4, current.announced, current.payload) := by
      rw [reading, hfull]
    dsimp only at hscan ⊢
    rw [if_neg hheader, hcount, hreading, hscan]
    have hlength : 0 < current.left.length := by
      rw [Cursor.left, length_drop]; omega
    have htaken : (current.left.take (min (current.announced - current.payload.length)
        current.left.length)).length =
        min (current.announced - current.payload.length) current.left.length := by
      rw [length_take]; omega
    rw [← Cursor.left]
    generalize hamount : min (current.announced - current.payload.length) current.left.length =
      count at htaken ⊢
    by_cases hdone : (current.payload ++ current.left.take count).length = current.announced
    · rw [if_pos hdone, if_pos hdone]
      refine .item hended rfl ?_
      rw [Cursor.left, Cursor.left, drop_drop]
    · rw [if_neg hdone, if_neg hdone]
      have hmore : (current.payload ++ current.left.take count).length < current.announced := by
        rw [length_append] at hdone ⊢; omega
      have hspent : current.left.drop count = [] := by
        rw [length_append] at hmore
        rw [drop_eq_nil_iff]; omega
      refine ⟨⟨hready.header, fun hless => absurd hless hheader, fun _ => hmore⟩, hended, rfl, ?_, ?_⟩
      · show current.position < current.position + count
        omega
      · have hleft' : current.chunk.drop (current.position + count) = [] := by
          rw [← drop_drop]; exact hspent
        rw [Cursor.left, Cursor.left, hleft', hfull]; rfl

theorem turns_eq (E : Type) (maximum : Nat) {bound : Nat} (hready : Ready current)
    (hended : current.ended = false) (hbound : current.chunk.length ≤ current.position + bound) :
    match turns maximum bound current with
    | .gives pulled => Given ((machine E maximum).scan (reading current) current.left) pulled
    | .goes moved => Ready moved ∧
        (machine E maximum).scan (reading current) current.left = .more (reading moved) := by
  have hspent : ∀ {last : Cursor}, last.chunk.length ≤ last.position →
      (machine E maximum).scan (reading last) last.left = .more (reading last) := by
    intro last hlast
    rw [Cursor.left, drop_eq_nil_iff.mpr hlast]; rfl
  induction bound generalizing current with
  | zero => exact ⟨hready, hspent hbound⟩
  | succ bound ih =>
    rw [turns]
    by_cases hleft : current.position < current.chunk.length
    · rw [if_pos hleft]
      have hturn := turn_spec E maximum hready hended hleft
      cases hcase : turn (E := E) maximum current with
      | gives pulled =>
        rw [hcase] at hturn; exact hturn
      | goes moved =>
        rw [hcase] at hturn
        obtain ⟨hready', hended', hchunk, hmoved, hscan⟩ := hturn
        rw [hscan]
        refine ih hready' hended' ?_
        rw [hchunk]; omega
    · rw [if_neg hleft]; exact ⟨hready, hspent (by omega)⟩

theorem turns_left (E : Type) (maximum : Nat) (hready : Ready current)
    (hended : current.ended = false) :
    match turns maximum (current.chunk.length - current.position) current with
    | .gives pulled => Given ((machine E maximum).scan (reading current) current.left) pulled
    | .goes moved => Ready moved ∧
        (machine E maximum).scan (reading current) current.left = .more (reading moved) :=
  turns_eq E maximum hready hended (by omega)

/-! ## Pulls -/

section
variable {S : Type} {contents : S → List UInt8}

/-- What is left of a stream between two pulls. -/
def Remains (contents : S → List UInt8) (maximum : Nat) (state : State S E)
    (items : List (Except (FrameError E) (List UInt8))) : Prop :=
  state.bytes = (fun item => .ok (contents item)) ∧ state.maximum = maximum ∧
    (state.cursor.ended = true ∧ items = [] ∨
      state.cursor.ended = false ∧ Ready state.cursor ∧
        items = (machine E maximum).outputs (reading state.cursor)
          (state.cursor.left ++ state.source.flatMap contents))

variable {current : Cursor}

theorem ready_begin (h : reading current = begin) : Ready current := by
  obtain ⟨chunk, position, headerBytes, announced, payload, ended⟩ := current
  obtain ⟨rfl, rfl, rfl⟩ : headerBytes = 0 ∧ announced = 0 ∧ payload = [] := by
    simpa [reading, begin] using h
  exact ⟨by simp, fun _ => rfl, by simp⟩

theorem remains_ended (source : List S) (h : current.ended = true) :
    Remains (E := E) contents maximum
      ⟨source, fun item => .ok (contents item), maximum, current⟩ [] :=
  ⟨rfl, rfl, .inl ⟨h, rfl⟩⟩

/-- A pull that ends in a chunk. -/
theorem Given.spec {result : Scanned UInt8 Reading (Except (FrameError E) (List UInt8))}
    {pulled : Pulled E} (h : Given result pulled) (source : List S) :
    let items := (machine E maximum).resume (source.flatMap contents) result
    pulled.1 = items.head? ∧
      Remains contents maximum
        ⟨source, fun item => .ok (contents item), maximum, pulled.2⟩ items.tail := by
  cases h with
  | item hended hreading hresult =>
    rw [hresult]
    exact ⟨rfl, rfl, rfl, .inr ⟨hended, ready_begin hreading, by rw [hreading]; rfl⟩⟩
  | stop hended hresult =>
    rw [hresult]; exact ⟨rfl, remains_ended source hended⟩

/-- The loop gives the head of what the machine gives. -/
theorem loop_spec (source : List S) (hready : Ready current) (hended : current.ended = false) :
    let pulled := loop (fun item => .ok (contents item)) maximum source current
    let items := (machine E maximum).outputs (reading current)
      (current.left ++ source.flatMap contents)
    pulled.1.1 = items.head? ∧
      Remains contents maximum
        ⟨pulled.2, fun item => .ok (contents item), maximum, pulled.1.2⟩ items.tail := by
  induction source generalizing current with
  | nil =>
    have hturns := turns_left E maximum hready hended
    rw [loop, outputs_append]
    cases hcase : turns (E := E) maximum (current.chunk.length - current.position) current with
    | gives pulled =>
      rw [hcase] at hturns; exact hturns.spec _
    | goes moved =>
      rw [hcase] at hturns
      obtain ⟨hready', hscan⟩ := hturns
      rw [hscan]
      show _ = ((machine E maximum).close (reading moved)).toList.head? ∧
        Remains contents maximum _ ((machine E maximum).close (reading moved)).toList.tail
      dsimp only [machine, reading]
      by_cases hnone : moved.headerBytes = 0
      · rw [if_pos hnone, if_pos hnone]; exact ⟨rfl, remains_ended [] rfl⟩
      rw [if_neg hnone, if_neg hnone]
      by_cases hheader : moved.headerBytes < 4
      · rw [if_pos hheader, if_pos hheader]; exact ⟨rfl, remains_ended [] rfl⟩
      · rw [if_neg hheader, if_neg hheader]; exact ⟨rfl, remains_ended [] rfl⟩
  | cons item rest ih =>
    have hturns := turns_left E maximum hready hended
    rw [loop, outputs_append]
    cases hcase : turns (E := E) maximum (current.chunk.length - current.position) current with
    | gives pulled =>
      rw [hcase] at hturns; exact hturns.spec _
    | goes moved =>
      rw [hcase] at hturns
      obtain ⟨hready', hscan⟩ := hturns
      rw [hscan]
      have hnext : Ready { moved with chunk := contents item, position := 0, ended := false } :=
        ⟨hready'.header, hready'.bare, hready'.room⟩
      exact ih hnext rfl

end

/-- `frames` gives what the machine gives for the whole input. -/
theorem call_frames {S : Type} (source : List S) (contents : S → List UInt8) (count : Nat) :
    call next (frames (E := E) source (fun item => .ok (contents item)) maximum) count =
      ((machine E maximum).outputs begin (source.flatMap contents))[count]? := by
  refine call_eq (Remains contents maximum) ?_
    ⟨rfl, rfl, .inr ⟨rfl, ready_begin rfl, by simp [frames, cursor, Cursor.left, reading, begin]⟩⟩
    count
  intro state items h
  obtain ⟨hbytes, hmaximum, ⟨hended, hitems⟩ | ⟨hended, hready, hitems⟩⟩ := h
  · rw [next, if_pos hended, hitems]
    exact ⟨rfl, hbytes, hmaximum, .inl ⟨hended, rfl⟩⟩
  · obtain ⟨source, bytes, limit, current⟩ := state
    rw [next, if_neg (by rw [hended]; exact Bool.false_ne_true), hbytes, hmaximum, hitems]
    exact loop_spec source hready hended

end

/-- Frames are read back in order and the input ends there, however it is cut in
chunks; of any other input the payloads of the complete frames at its start are read,
then the error of the end that is none, and nothing more. -/
theorem frames_spec {S E : Type} {maximum : Nat} (hmaximum : maximum ≤ 4294967295)
    (source : List S) (contents : S → List UInt8) :
    let decoded := call next (frames (E := E) source (fun item => .ok (contents item)) maximum)
    (∀ payloads encodings : List (List UInt8),
      payloads.map (encode · maximum) = encodings.map .ok →
      source.flatMap contents = encodings.flatten →
      ∀ count, decoded count = (payloads.map .ok)[count]?) ∧
    ∃ (payloads encodings : List (List UInt8)) (rest : List UInt8)
      (items : List (Except (FrameError E) (List UInt8))),
      payloads.map (encode · maximum) = encodings.map .ok ∧
      source.flatMap contents = encodings.flatten ++ rest ∧ Ends maximum rest items ∧
      ∀ count, decoded count = (payloads.map .ok ++ items)[count]? := by
  constructor
  · intro payloads encodings hencode hinput count
    have hframes := outputs_frames (E := E) hmaximum hencode []
    rw [append_nil] at hframes
    rw [call_frames, hinput, hframes]; simp [outputs, machine, begin]
  · obtain ⟨payloads, encodings, rest, items, hencode, hinput, hends⟩ :=
      exists_frames (E := E) maximum (source.flatMap contents)
    refine ⟨payloads, encodings, rest, items, hencode, hinput, hends, ?_⟩
    intro count
    rw [call_frames, hinput, outputs_frames hmaximum hencode, outputs_ends hends]

/-- Two frames, the second of them empty, cut inside both headers. -/
theorem frames_spec_two :
    2 ≤ 4294967295 ∧
      ∀ count, call next (frames (E := Unit) [[0, 0], [0, 1, 7, 0], [], [0, 0, 0]]
        (fun chunk => .ok chunk) 2) count = [.ok [7], .ok []][count]? := by
  refine ⟨by decide, ?_⟩
  exact (frames_spec (by decide) [[0, 0], [0, 1, 7, 0], [], [0, 0, 0]] (fun chunk => chunk)).1
    [[7], []] [[0, 0, 0, 1, 7], [0, 0, 0, 0]] (by decide) (by decide)

end Loom.Length32

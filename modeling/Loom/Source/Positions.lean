import Loom.Library.Scalars

/-
  The line and the column of an offset, from a scan and from a table.

  Correspondence to the source:
    Position, position          → std/loom/source/source.loom
    byte, width                 → std/text/text.loom
    SourceLines, sourceLines    → loom/artifact/locations.loom (source_lines)
    sourceLocation              → loom/artifact/locations.loom (source_location)

  `position` scans a text from its start. `sourceLines` remembers where lines start, and
  `sourceLocation` finds the last of these starts that is not after the offset and counts
  the columns from there. Both end a line at CR, at LF and at CRLF, where the place inside
  CRLF is on the new line already: the scan looks for an LF behind a CR and reads both
  at once, the table begins the line at the LF, which then counts for no column.
  An offset is a natural number, so that the scan asserts only that it is in the text.
-/

namespace Loom.Source

open Utf8 Texts Nat

structure Position where
  line : Nat
  column : Nat
  deriving DecidableEq

/-! ## The scan -/

/-- The loop of `position`, from a cursor that is not after the offset. -/
def positionFrom (text : String) (offset cursor line column : Nat) : Except Stop Position :=
  if _h : cursor < offset then
    match byte text cursor with
    | .error stop => .error stop
    | .ok current =>
      if current = 13 then
        if cursor + 1 < offset then
          match byte text (cursor + 1) with
          | .error stop => .error stop
          | .ok next =>
            if next = 10 then positionFrom text offset (cursor + 2) (line + 1) 1
            else positionFrom text offset (cursor + 1) (line + 1) 1
        else positionFrom text offset (cursor + 1) (line + 1) 1
      else if current = 10 then positionFrom text offset (cursor + 1) (line + 1) 1
      else
        match hwidth : width text cursor with
        | .error stop => .error stop
        | .ok size =>
          have _hpos : 0 < size := width_pos hwidth
          if cursor + size ≤ offset then
            positionFrom text offset (cursor + size) line (column + 1)
          else .error .fault
  else .ok { line := line, column := column }
termination_by offset - cursor

def position (text : String) (offset : Nat) : Except Stop Position :=
  if offset ≤ length text then positionFrom text offset 0 1 1 else .error .fault

/-! ## The table -/

structure SourceLines where
  text : String
  starts : List Nat

/-- The loop of `sourceLines`: the starts that it still pushes. -/
def startsFrom (text : String) (cursor : Nat) : List Nat :=
  if _h : cursor < length text then
    if (bytes text)[cursor]? = some 13 then
      if (bytes text)[cursor + 1]? = some 10 then (cursor + 1) :: startsFrom text (cursor + 2)
      else (cursor + 1) :: startsFrom text (cursor + 1)
    else if (bytes text)[cursor]? = some 10 then (cursor + 1) :: startsFrom text (cursor + 1)
    else startsFrom text (cursor + 1)
  else []
termination_by length text - cursor

def sourceLines (text : String) : SourceLines :=
  { text := text, starts := 0 :: startsFrom text 0 }

/-- The search of `sourceLocation`. -/
def located (starts : List Nat) (offset lower upper : Nat) : Except Stop Nat :=
  if _h : lower + 1 < upper then
    let middle := lower + (upper - lower) / 2
    match starts[middle]? with
    | none => .error .fault
    | some start =>
      if start ≤ offset then located starts offset middle upper
      else located starts offset lower middle
  else .ok lower
termination_by upper - lower

/-- The count of `sourceLocation`: an LF that begins its line adds no column. -/
def columnFrom (text : String) (offset cursor column : Nat) : Except Stop Nat :=
  if _h : cursor < offset then
    match byte text cursor with
    | .error stop => .error stop
    | .ok current =>
      if current = 10 then columnFrom text offset (cursor + 1) column
      else
        match hwidth : width text cursor with
        | .error stop => .error stop
        | .ok size =>
          have _hpos : 0 < size := width_pos hwidth
          columnFrom text offset (cursor + size) (column + 1)
  else .ok column
termination_by offset - cursor

def sourceLocation (source : SourceLines) (offset : Nat) : Except Stop Position := do
  let lower ← located source.starts offset 0 source.starts.length
  match source.starts[lower]? with
  | none => .error .fault
  | some cursor =>
    let column ← columnFrom source.text offset cursor 1
    return { line := lower + 1, column := column }

/-! ## What stands before an offset -/

/-- A place in a text: `returned` tells that a CR stands right before it. -/
structure Place where
  line : Nat
  column : Nat
  returned : Bool

def Place.next (place : Place) (char : Char) : Place :=
  if char = '\r' then { line := place.line + 1, column := 1, returned := true }
  else if char = '\n' then
    -- the LF of a CRLF belongs to the break that the CR has made
    if place.returned then { place with returned := false }
    else { line := place.line + 1, column := 1, returned := false }
  else { place with column := place.column + 1, returned := false }

def Place.after (place : Place) (chars : List Char) : Place := chars.foldl Place.next place

def Place.position (place : Place) : Position := { line := place.line, column := place.column }

/-- No LF follows the CR that was read last. -/
def Place.Settled (place : Place) (chars : List Char) : Prop :=
  place.returned = true → chars.head? ≠ some '\n'

def start : Place := { line := 1, column := 1, returned := false }

@[simp] theorem Place.after_nil (place : Place) : place.after [] = place := rfl

@[simp] theorem Place.after_cons (place : Place) (char : Char) (chars : List Char) :
    place.after (char :: chars) = (place.next char).after chars := rfl

variable {place : Place} {char : Char} {rest : List UInt8} {first : UInt8}

theorem Place.next_feed (h : place.returned = false) :
    place.next '\n' = { line := place.line + 1, column := 1, returned := false } := by
  have hne : ¬('\n' = '\r') := by decide
  rw [Place.next, if_neg hne, if_pos rfl, h, if_neg Bool.false_ne_true]

theorem Place.next_crlf (place : Place) :
    (place.next '\r').next '\n' = { line := place.line + 1, column := 1, returned := false } := rfl

theorem Place.next_other (hreturn : char ≠ '\r') (hfeed : char ≠ '\n') :
    place.next char = { line := place.line, column := place.column + 1, returned := false } := by
  rw [Place.next, if_neg hreturn, if_neg hfeed]

theorem Place.settled_of_not_returned {chars : List Char} (h : place.returned = false) :
    place.Settled chars := by
  intro hreturned
  rw [h] at hreturned; exact absurd hreturned Bool.false_ne_true

/-- What the first byte of a character tells about the ends of lines. -/
theorem first_eq {code : Nat} (hchar : Encoded char first rest) (hcode : code < 128) :
    first.toNat = code ↔ char.toNat = code := by
  obtain hsame | hlarge := hchar.same
  · rw [hsame]
  · omega

theorem toNat_eq {char other : Char} : char.toNat = other.toNat ↔ char = other := by
  constructor
  · intro h; exact Char.ext (UInt32.toNat_inj.mp h)
  · intro h
    rw [h]

theorem first_return (hchar : Encoded char first rest) : first.toNat = 13 ↔ char = '\r' :=
  (first_eq hchar (by decide)).trans (@toNat_eq char '\r')

theorem first_feed (hchar : Encoded char first rest) : first.toNat = 10 ↔ char = '\n' :=
  (first_eq hchar (by decide)).trans (@toNat_eq char '\n')

/-- A character of one byte moves an offset by one. -/
theorem encode_return (front : List Char) :
    (encode (front ++ ['\r'])).length = (encode front).length + 1 := by
  rw [encode_append, List.length_append]; rfl

theorem encode_feed (front : List Char) :
    (encode (front ++ ['\n'])).length = (encode front).length + 1 := by
  rw [encode_append, List.length_append]; rfl

/-! ## The scan gives the place -/

variable {text : String}

theorem positionFrom_eq (size : Nat) : ∀ (front middle back : List Char) (place : Place),
    middle.length ≤ size → text.toList = front ++ middle ++ back → place.Settled middle →
    positionFrom text (encode (front ++ middle)).length (encode front).length
      place.line place.column = .ok (place.after middle).position := by
  induction size with
  | zero =>
    intro front middle back place hsize htext hsettled
    have hnil : middle = [] := List.length_eq_zero_iff.mp (le_zero.mp hsize)
    subst hnil
    rw [positionFrom, dif_neg (by simp)]; rfl
  | succ size ih =>
    intro front middle back place hsize htext hsettled
    cases middle with
    | nil =>
      rw [positionFrom, dif_neg (by simp)]; rfl
    | cons char middle =>
      have hlen : middle.length ≤ size := le_of_succ_le_succ hsize
      have hlt := encode_length_lt front middle char
      have hmoved : front ++ char :: middle = front ++ [char] ++ middle := by simp
      have htext' : text.toList = front ++ [char] ++ middle ++ back := by rw [htext, hmoved]
      obtain ⟨first, rest, hchar⟩ := encoded_char char
      have hhere : text.toList = front ++ char :: (middle ++ back) := by rw [htext]; simp
      have hbyte : byte text (encode front).length = .ok first.toNat := byte_eq hhere hchar
      rw [positionFrom, dif_pos hlt, hbyte]
      dsimp only
      by_cases hreturn : char = '\r'
      · subst hreturn
        rw [if_pos ((first_return hchar).mpr rfl)]
        have hnext := ih (front ++ ['\r']) middle back (place.next '\r') hlen htext'
        rw [encode_return, ← hmoved] at hnext
        cases middle with
        | nil =>
          rw [if_neg (by rw [encode_return]; omega)]; exact hnext nofun
        | cons other middle =>
          obtain ⟨second, more, hother⟩ := encoded_char other
          have hinside : (encode front).length + 1 <
              (encode (front ++ '\r' :: other :: middle)).length := by
            rw [hmoved, ← encode_return]; exact encode_length_lt _ _ _
          have hsecond : byte text ((encode front).length + 1) = .ok second.toNat := by
            have hthere : text.toList = front ++ ['\r'] ++ other :: (middle ++ back) := by
              rw [htext']; simp
            rw [← encode_return]; exact byte_eq hthere hother
          rw [if_pos hinside, hsecond]
          dsimp only
          by_cases hfeed : other = '\n'
          · -- CRLF is read in one turn
            subst hfeed
            have hboth := ih (front ++ ['\r'] ++ ['\n']) middle back
              ((place.next '\r').next '\n') (le_of_succ_le hlen) (by rw [htext']; simp)
              (Place.settled_of_not_returned (by rw [Place.next_crlf]))
            rw [encode_feed, encode_return, List.append_assoc _ ['\n'] middle,
              List.singleton_append, ← hmoved] at hboth
            rw [if_pos ((first_feed hother).mpr rfl)]; exact hboth
          · rw [if_neg (fun h => hfeed ((first_feed hother).mp h))]
            exact hnext fun _ hhead => hfeed (Option.some.inj hhead)
      · rw [if_neg (fun h => hreturn ((first_return hchar).mp h))]
        by_cases hfeed : char = '\n'
        · subst hfeed
          have hplace : place.returned = false := by
            by_contra hreturned
            exact hsettled (Bool.not_eq_false _ ▸ hreturned) rfl
          rw [if_pos ((first_feed hchar).mpr rfl)]
          have hnext := ih (front ++ ['\n']) middle back (place.next '\n') hlen htext'
            (Place.settled_of_not_returned (by rw [Place.next_feed hplace]))
          rw [encode_feed, ← hmoved, Place.next_feed hplace] at hnext
          rw [Place.after_cons, Place.next_feed hplace]; exact hnext
        · rw [if_neg (fun h => hfeed ((first_feed hchar).mp h))]
          obtain ⟨bytes, hwidth, hbytes⟩ := width_eq hhere
          have hnext := ih (front ++ [char]) middle back (place.next char) hlen htext'
            (Place.settled_of_not_returned (by rw [Place.next_other hreturn hfeed]))
          rw [← hbytes, ← hmoved, Place.next_other hreturn hfeed] at hnext
          rw [Place.after_cons, Place.next_other hreturn hfeed]
          split
          case h_1 stop hstop =>
            rw [hwidth] at hstop
            cases hstop
          case h_2 size' hsize' =>
            rw [hwidth] at hsize'
            rw [← Except.ok.inj hsize', if_pos (by rw [hbytes, hmoved]; exact encode_length_le _ _)]
            exact hnext

variable {front back : List Char}

theorem position_eq (htext : text.toList = front ++ back) :
    position text (encode front).length = .ok (start.after front).position := by
  have hlength : (encode front).length ≤ length text := by
    rw [length, bytes_eq_encode, htext]; exact encode_length_le front back
  have hscan := positionFrom_eq front.length [] front back start (le_refl _) htext
    (Place.settled_of_not_returned rfl)
  rw [position, if_pos hlength]; exact hscan

/-! ## The table has the starts of the lines -/

/-- The line that a place is on began at `first`, and its columns count what stands since. -/
def InLine (front : List Char) (place : Place) (first : Nat) : Prop :=
  ∃ before line, front = before ++ line ∧ first = (encode before).length ∧
    place.column = 1 + line.countP (· ≠ '\n')

theorem inLine_here (front : List Char) (h : place.column = 1) :
    InLine front place (encode front).length := by
  refine ⟨front, [], (List.append_nil front).symm, rfl, ?_⟩
  rw [h, List.countP_nil]

theorem InLine.next {front : List Char} {place : Place} {first : Nat} {char : Char}
    (h : InLine front place first) (hreturn : char ≠ '\r') (hfeed : char ≠ '\n') :
    InLine (front ++ [char]) (place.next char) first := by
  obtain ⟨before, line, hfront, hfirst, hcolumn⟩ := h
  refine ⟨before, line ++ [char], by rw [hfront, List.append_assoc], hfirst, ?_⟩
  have hone : [char].countP (· ≠ '\n') = 1 := by simp [hfeed]
  rw [Place.next_other hreturn hfeed, List.countP_append, hone, hcolumn, add_assoc]

theorem startsFrom_skip {text : String} (size : Nat) : ∀ cursor, cursor + size ≤ length text →
    (∀ index < size, ∀ value ∈ (bytes text)[cursor + index]?, value ≠ 13 ∧ value ≠ 10) →
    startsFrom text cursor = startsFrom text (cursor + size) := by
  induction size with
  | zero => exact fun cursor _ _ => rfl
  | succ size ih =>
    intro cursor hsize hplain
    have hhere := hplain 0 (succ_pos size)
    have hrest := ih (cursor + 1) (by omega) fun index hindex value hvalue => by
      rw [add_assoc, add_comm 1 index] at hvalue
      exact hplain (index + 1) (by omega) value hvalue
    have hreturn : ¬(bytes text)[cursor]? = some 13 := fun h => (hhere 13 h).1 rfl
    have hfeed : ¬(bytes text)[cursor]? = some 10 := fun h => (hhere 10 h).2 rfl
    rw [startsFrom, dif_pos (by omega), if_neg hreturn, if_neg hfeed, hrest, add_assoc,
      add_comm 1 size]

theorem getElem?_char (htext : text.toList = front ++ char :: back)
    (hchar : Encoded char first rest) (index : Nat) :
    (bytes text)[(encode front).length + index]? = (first :: rest ++ encode back)[index]? := by
  rw [bytes_eq_encode, htext, encode_append, encode_cons, hchar.bytes,
    List.getElem?_append_right (by omega), Nat.add_sub_cancel_left]

theorem some_eq_code {code : Nat} (hcode : code < 256) :
    some first = some (UInt8.ofNat code) ↔ first.toNat = code := by
  rw [Option.some.injEq, ← UInt8.toNat_inj, UInt8.toNat_ofNat', mod_eq_of_lt hcode]

section
variable (htext : text.toList = front ++ char :: back)
include htext

theorem getElem?_return : (bytes text)[(encode front).length]? = some 13 ↔ char = '\r' := by
  obtain ⟨first, rest, hchar⟩ := encoded_char char
  rw [← first_return hchar, ← some_eq_code (by decide)]
  exact iff_of_eq (congrArg (· = some (13 : UInt8)) (getElem?_char htext hchar 0))

theorem getElem?_feed : (bytes text)[(encode front).length]? = some 10 ↔ char = '\n' := by
  obtain ⟨first, rest, hchar⟩ := encoded_char char
  rw [← first_feed hchar, ← some_eq_code (by decide)]
  exact iff_of_eq (congrArg (· = some (10 : UInt8)) (getElem?_char htext hchar 0))

theorem lt_length : (encode front).length < length text := by
  rw [length, bytes_eq_encode, htext]; exact encode_length_lt front back char

theorem startsFrom_other (hreturn : char ≠ '\r') (hfeed : char ≠ '\n') :
    startsFrom text (encode front).length = startsFrom text (encode (front ++ [char])).length := by
  obtain ⟨first, rest, hchar⟩ := encoded_char char
  have hlength : (encode (front ++ [char])).length =
      (encode front).length + (first :: rest).length := by
    rw [encode_append, encode_cons, hchar.bytes, encode_nil, List.append_nil, List.length_append]
  rw [hlength]
  refine startsFrom_skip _ _ ?_ ?_
  · have hmoved : front ++ char :: back = front ++ [char] ++ back := by simp
    rw [← hlength, length, bytes_eq_encode, htext, hmoved]
    exact encode_length_le _ _
  · intro index hindex value hvalue
    rw [getElem?_char htext hchar, List.getElem?_append_left hindex] at hvalue
    cases index with
    | zero =>
      have hfirst : first = value := by simpa using hvalue
      subst hfirst
      constructor
      · intro h; exact hreturn ((first_return hchar).mp (by rw [h]; rfl))
      · intro h; exact hfeed ((first_feed hchar).mp (by rw [h]; rfl))
    | succ index =>
      have hmem : value ∈ rest := List.mem_of_getElem? (by simpa using hvalue)
      have hinner := hchar.inner value hmem
      constructor
      · intro h
        rw [h] at hinner; exact absurd hinner.1 (by decide)
      · intro h
        rw [h] at hinner; exact absurd hinner.1 (by decide)

end

theorem startsFrom_feed (htext : text.toList = front ++ '\n' :: back) :
    startsFrom text (encode front).length =
      (encode (front ++ ['\n'])).length :: startsFrom text (encode (front ++ ['\n'])).length := by
  have hne : ¬(bytes text)[(encode front).length]? = some 13 := by
    rw [getElem?_return htext]; decide
  rw [startsFrom, dif_pos (lt_length htext), if_neg hne, if_pos ((getElem?_feed htext).mpr rfl),
    encode_feed]

theorem startsFrom_crlf (htext : text.toList = front ++ '\r' :: '\n' :: back) :
    startsFrom text (encode front).length = (encode (front ++ ['\r'])).length ::
      startsFrom text (encode (front ++ ['\r'] ++ ['\n'])).length := by
  have hnext : text.toList = front ++ ['\r'] ++ '\n' :: back := by rw [htext]; simp
  have hfeed := getElem?_feed hnext
  rw [encode_return] at hfeed
  rw [startsFrom, dif_pos (lt_length htext), if_pos ((getElem?_return htext).mpr rfl),
    if_pos (hfeed.mpr rfl), encode_feed, encode_return]

theorem startsFrom_return (htext : text.toList = front ++ '\r' :: back)
    (hback : back.head? ≠ some '\n') : startsFrom text (encode front).length =
      (encode (front ++ ['\r'])).length :: startsFrom text (encode (front ++ ['\r'])).length := by
  have hfeed : ¬(bytes text)[(encode front).length + 1]? = some 10 := by
    rw [← encode_return]
    cases back with
    | nil =>
      rw [bytes_eq_encode, htext, List.getElem?_eq_none (le_refl _)]
      exact nofun
    | cons other back =>
      have hnext : text.toList = front ++ ['\r'] ++ other :: back := by rw [htext]; simp
      rw [getElem?_feed hnext]
      intro h; exact hback (congrArg some h)
  rw [startsFrom, dif_pos (lt_length htext), if_pos ((getElem?_return htext).mpr rfl),
    if_neg hfeed, encode_return]

theorem lt_of_mem_startsFrom (cursor : Nat) : ∀ first ∈ startsFrom text cursor, cursor < first := by
  fun_induction startsFrom text cursor with
  | case1 cursor hlt hreturn hfeed ih =>
    intro first hfirst
    obtain rfl | hmem := List.mem_cons.mp hfirst
    · omega
    · have := ih first hmem
      omega
  | case2 cursor hlt hreturn hfeed ih =>
    intro first hfirst
    obtain rfl | hmem := List.mem_cons.mp hfirst
    · omega
    · have := ih first hmem
      omega
  | case3 cursor hlt hreturn hfeed ih =>
    intro first hfirst
    obtain rfl | hmem := List.mem_cons.mp hfirst
    · omega
    · have := ih first hmem
      omega
  | case4 cursor hlt hreturn hfeed ih =>
    intro first hfirst
    have := ih first hfirst
    omega
  | case5 => exact fun first hfirst => absurd hfirst List.not_mem_nil

/-- What the table knows of the lines up to an offset: as many starts as lines were begun,
    none of them after the offset, and the last is where the line of the offset begins. -/
structure Known (front middle : List Char) (place : Place) (first : Nat) (starts later : List Nat) :
    Prop where
  line : (place.after middle).line = place.line + starts.length
  before : ∀ other ∈ starts, other ≤ (encode (front ++ middle)).length
  after : ∀ other ∈ later, (encode (front ++ middle)).length < other
  last : InLine (front ++ middle) (place.after middle) (starts.getLastD first)

/-- One line more, which begins at `second`. -/
theorem Known.cons {front front' middle middle' : List Char} {place place' : Place}
    {first second : Nat} {starts later : List Nat}
    (h : Known front' middle' place' second starts later)
    (hmoved : front' ++ middle' = front ++ middle)
    (hplace : place'.after middle' = place.after middle) (hline : place'.line = place.line + 1)
    (hsecond : second ≤ (encode (front ++ middle)).length) :
    Known front middle place first (second :: starts) later := by
  obtain ⟨hlines, hbefore, hafter, hlast⟩ := h
  rw [hmoved] at hbefore hafter hlast
  rw [hplace] at hlines hlast
  refine ⟨by rw [hlines, List.length_cons]; omega, ?_, hafter, ?_⟩
  · intro other hother
    obtain rfl | hmem := List.mem_cons.mp hother
    · exact hsecond
    · exact hbefore other hmem
  · rwa [List.getLastD_cons]

theorem starts_split (size : Nat) : ∀ (front middle back : List Char) (place : Place) (first : Nat),
    middle.length ≤ size → text.toList = front ++ middle ++ back → place.Settled middle →
    InLine front place first →
    ∃ starts later, startsFrom text (encode front).length = starts ++ later ∧
      Known front middle place first starts later := by
  induction size with
  | zero =>
    intro front middle back place first hsize htext hsettled hline
    have hnil : middle = [] := List.length_eq_zero_iff.mp (le_zero.mp hsize)
    subst hnil
    refine ⟨[], startsFrom text (encode front).length, rfl, rfl, nofun, ?_, ?_⟩
    · rw [List.append_nil]; exact lt_of_mem_startsFrom _
    · rwa [List.append_nil]
  | succ size ih =>
    intro front middle back place first hsize htext hsettled hline
    cases middle with
    | nil =>
      refine ⟨[], startsFrom text (encode front).length, rfl, rfl, nofun, ?_, ?_⟩
      · rw [List.append_nil]; exact lt_of_mem_startsFrom _
      · rwa [List.append_nil]
    | cons char middle =>
      have hlen : middle.length ≤ size := le_of_succ_le_succ hsize
      have hmoved : front ++ [char] ++ middle = front ++ char :: middle := by simp
      have htext' : text.toList = front ++ [char] ++ middle ++ back := by rw [htext, hmoved]
      have hhere : text.toList = front ++ char :: (middle ++ back) := by rw [htext]; simp
      have hle : (encode (front ++ [char])).length ≤ (encode (front ++ char :: middle)).length := by
        rw [← hmoved]; exact encode_length_le _ _
      by_cases hreturn : char = '\r'
      · subst hreturn
        by_cases hfeed : (middle ++ back).head? = some '\n'
        · cases middle with
          | nil =>
            -- the offset is inside CRLF: only the start behind the CR is known
            obtain ⟨back, rfl⟩ : ∃ tail, back = '\n' :: tail := List.head?_eq_some_iff.mp hfeed
            refine ⟨[(encode (front ++ ['\r'])).length],
              startsFrom text (encode (front ++ ['\r'] ++ ['\n'])).length,
              startsFrom_crlf hhere, rfl, ?_, ?_, inLine_here _ rfl⟩
            · intro other hother
              exact le_of_eq (List.mem_singleton.mp hother)
            · intro other hother
              have hlater := lt_of_mem_startsFrom _ other hother
              rw [encode_feed] at hlater; omega
          | cons other middle =>
            obtain rfl : other = '\n' := Option.some.inj hfeed
            obtain ⟨starts, later, hstarts, hknown⟩ := ih (front ++ ['\r'] ++ ['\n']) middle back
              ((place.next '\r').next '\n') (encode (front ++ ['\r'])).length
              (le_of_succ_le hlen) (by rw [htext']; simp)
              (Place.settled_of_not_returned (by rw [Place.next_crlf]))
              ⟨front ++ ['\r'], ['\n'], rfl, rfl, rfl⟩
            refine ⟨(encode (front ++ ['\r'])).length :: starts, later, ?_,
              hknown.cons (by simp) rfl rfl hle⟩
            have hcrlf : text.toList = front ++ '\r' :: '\n' :: (middle ++ back) := hhere
            rw [startsFrom_crlf hcrlf, hstarts, List.cons_append]
        · obtain ⟨starts, later, hstarts, hknown⟩ := ih (front ++ ['\r']) middle back
            (place.next '\r') (encode (front ++ ['\r'])).length hlen htext'
            (fun _ hhead => hfeed (by rw [List.head?_append, hhead]; rfl)) (inLine_here _ rfl)
          refine ⟨(encode (front ++ ['\r'])).length :: starts, later, ?_,
            hknown.cons hmoved rfl rfl hle⟩
          rw [startsFrom_return hhere hfeed, hstarts, List.cons_append]
      by_cases hfeed : char = '\n'
      · subst hfeed
        have hplace : place.returned = false := by
          by_contra hreturned
          exact hsettled (Bool.not_eq_false _ ▸ hreturned) rfl
        have hplaced := Place.next_feed hplace
        obtain ⟨starts, later, hstarts, hknown⟩ := ih (front ++ ['\n']) middle back
          (place.next '\n') (encode (front ++ ['\n'])).length hlen htext'
          (Place.settled_of_not_returned (by rw [hplaced])) (inLine_here _ (by rw [hplaced]))
        refine ⟨(encode (front ++ ['\n'])).length :: starts, later, ?_,
          hknown.cons hmoved rfl (by rw [hplaced]) hle⟩
        rw [startsFrom_feed hhere, hstarts, List.cons_append]
      · have hplaced : place.next char =
            { line := place.line, column := place.column + 1, returned := false } :=
          Place.next_other hreturn hfeed
        obtain ⟨starts, later, hstarts, hknown⟩ := ih (front ++ [char]) middle back
          (place.next char) first hlen htext' (Place.settled_of_not_returned (by rw [hplaced]))
          (hline.next hreturn hfeed)
        obtain ⟨hlines, hbefore, hafter, hlast⟩ := hknown
        rw [hmoved] at hbefore hafter hlast
        refine ⟨starts, later, ?_, ?_, hbefore, hafter, hlast⟩
        · rw [startsFrom_other hhere hreturn hfeed, hstarts]
        · rw [Place.after_cons, hlines, hplaced]

/-! ## The search finds the line -/

/-- A start that is not after the offset, while the next one is. -/
def Last (starts : List Nat) (offset index : Nat) : Prop :=
  (∃ first, starts[index]? = some first ∧ first ≤ offset) ∧
    ∀ first ∈ starts[index + 1]?, offset < first

theorem located_spec {starts : List Nat} {offset lower upper : Nat} (hlt : lower < upper)
    (hupper : upper ≤ starts.length) (hlow : ∃ first, starts[lower]? = some first ∧ first ≤ offset)
    (hhigh : ∀ first ∈ starts[upper]?, offset < first) :
    ∃ index, located starts offset lower upper = .ok index ∧ Last starts offset index := by
  fun_induction located starts offset lower upper with
  | case1 lower upper hmore middle hnone =>
    have hbound : middle < starts.length := by
      omega
    rw [List.getElem?_eq_getElem hbound] at hnone
    cases hnone
  | case2 lower upper hmore middle first hsome hle ih =>
    exact ih (by omega) hupper ⟨first, hsome, hle⟩ hhigh
  | case3 lower upper hmore middle first hsome hgt ih =>
    refine ih (by omega) (by omega) hlow fun other hother => ?_
    rw [hsome] at hother
    rw [← Option.some.inj hother]; omega
  | case4 lower upper hdone =>
    have hlast : upper = lower + 1 := by omega
    refine ⟨lower, rfl, hlow, ?_⟩
    rwa [hlast] at hhigh

/-- The starts up to the offset come first, so the last of them is found. -/
theorem Last.eq {starts later : List Nat} {first offset index : Nat}
    (h : Last ((first :: starts) ++ later) offset index)
    (hbefore : ∀ other ∈ first :: starts, other ≤ offset) (hafter : ∀ other ∈ later, offset < other) :
    index = starts.length := by
  obtain ⟨⟨found, hfound, hle⟩, hnext⟩ := h
  obtain hless | heq | hmore := lt_trichotomy index starts.length
  · -- the next one would be known too
    have hin : index + 1 < (first :: starts).length := by simpa using hless
    have hget : ((first :: starts) ++ later)[index + 1]? = some (first :: starts)[index + 1] := by
      rw [List.getElem?_append_left hin, List.getElem?_eq_getElem hin]
    have hlt := hnext _ hget
    have hold := hbefore _ (List.getElem_mem hin)
    omega
  · exact heq
  · rw [List.getElem?_append_right (by rw [List.length_cons]; omega)] at hfound
    have hlt := hafter found (List.mem_of_getElem? hfound)
    omega

/-! ## Both agree -/

theorem columnFrom_eq : ∀ (line front back : List Char) (column : Nat),
    text.toList = front ++ line ++ back →
    columnFrom text (encode (front ++ line)).length (encode front).length column =
      .ok (column + line.countP (· ≠ '\n')) := by
  intro line
  induction line with
  | nil =>
    intro front back column htext
    rw [columnFrom, dif_neg (by simp)]; rfl
  | cons char line ih =>
    intro front back column htext
    have hmoved : front ++ [char] ++ line = front ++ char :: line := by simp
    have hhere : text.toList = front ++ char :: (line ++ back) := by rw [htext]; simp
    obtain ⟨first, rest, hchar⟩ := encoded_char char
    rw [columnFrom, dif_pos (encode_length_lt front line char), byte_eq hhere hchar]
    dsimp only
    by_cases hfeed : char = '\n'
    · subst hfeed
      have hnext := ih (front ++ ['\n']) back column (by rw [htext, hmoved])
      rw [hmoved, encode_feed] at hnext
      rw [if_pos ((first_feed hchar).mpr rfl), hnext, List.countP_cons_of_neg (by simp)]
    · rw [if_neg (fun h => hfeed ((first_feed hchar).mp h))]
      obtain ⟨size, hwidth, hbytes⟩ := width_eq hhere
      have hnext := ih (front ++ [char]) back (column + 1) (by rw [htext, hmoved])
      rw [hmoved, ← hbytes] at hnext
      split
      case h_1 stop hstop =>
        rw [hwidth] at hstop
        cases hstop
      case h_2 size' hsize' =>
        rw [hwidth] at hsize'
        rw [← Except.ok.inj hsize', hnext, List.countP_cons_of_pos (by simpa using hfeed)]
        congr 1
        omega

theorem sourceLocation_eq (htext : text.toList = front ++ back) :
    sourceLocation (sourceLines text) (encode front).length = .ok (start.after front).position := by
  obtain ⟨starts, later, hstarts, hknown⟩ := starts_split front.length [] front back start 0
    (le_refl _) htext (Place.settled_of_not_returned rfl) (inLine_here [] rfl)
  obtain ⟨hline, hbefore, hafter, before, line, hfront, hlast, hcolumn⟩ := hknown
  rw [List.nil_append] at hbefore hafter hfront
  have hall : (sourceLines text).starts = (0 :: starts) ++ later :=
    congrArg (0 :: ·) hstarts
  have hbelow : ∀ other ∈ 0 :: starts, other ≤ (encode front).length := by
    intro other hother
    obtain rfl | hmem := List.mem_cons.mp hother
    · exact zero_le _
    · exact hbefore other hmem
  obtain ⟨index, hfound, hindex⟩ : ∃ index, located ((0 :: starts) ++ later)
      (encode front).length 0 ((0 :: starts) ++ later).length = .ok index ∧
      Last ((0 :: starts) ++ later) (encode front).length index :=
    located_spec (by simp) (le_refl _) ⟨0, rfl, zero_le _⟩ (by simp)
  obtain rfl := hindex.eq hbelow hafter
  have hget : ((0 :: starts) ++ later)[starts.length]? = some (encode before).length := by
    calc ((0 :: starts) ++ later)[starts.length]?
      _ = (0 :: starts)[starts.length]? := List.getElem?_append_left (by simp)
      _ = (0 :: starts).getLast? := List.getLast?_eq_getElem?.symm
      _ = some (starts.getLastD 0) := by rw [List.getLast?_cons, List.getLastD_eq_getLast?]
      _ = some (encode before).length := by rw [hlast]
  have hcount : columnFrom text (encode front).length (encode before).length 1 =
      .ok (1 + line.countP (· ≠ '\n')) := by
    rw [hfront]; exact columnFrom_eq line before back 1 (by rw [htext, hfront])
  rw [sourceLocation, hall, hfound, Results.ok_bind, hget]
  dsimp only
  rw [show (sourceLines text).text = text from rfl, hcount]
  rw [Place.position, hcolumn, hline]
  rw [add_comm starts.length 1]; rfl

/-- The table and the scan agree on every boundary of every text. -/
theorem sourceLocation_eq_position (text : String) (offset : Nat)
    (h : boundary (bytes text) offset = true) : ∃ place, position text offset = .ok place ∧
      sourceLocation (sourceLines text) offset = .ok place := by
  rw [bytes_eq_encode] at h
  obtain ⟨front, back, htext, rfl⟩ := exists_split h
  exact ⟨(start.after front).position, position_eq htext, sourceLocation_eq htext⟩

/-- The place inside CRLF, behind a character of two bytes. -/
theorem sourceLocation_eq_position_crlf : ∃ place, position "é\r\nx\r" 3 = .ok place ∧
      sourceLocation (sourceLines "é\r\nx\r") 3 = .ok place :=
  sourceLocation_eq_position "é\r\nx\r" 3 (by decide)

end Loom.Source

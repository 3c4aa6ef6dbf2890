import Loom.Json.IncrementalSound

/-
  What stands in the grammar is accepted by the incremental decoder, one byte after
  the other, and both decoders agree.
-/

namespace Loom.Json

open Utf8 Results List

/-! ## States between tokens -/

/-- A state that is not in a token. -/
structure Holds (state : DecoderState) (frames : List JsonFrame) (root : Option Value) : Prop where
  mode : state.mode = .none
  token : state.token = []
  frames : state.frames = frames
  root : state.root = root

/-- A state that may have a number or a literal to accept. -/
def Settles (state : DecoderState) (frames : List JsonFrame) (root : Option Value) : Prop :=
  Holds state frames root ∨
    state.mode = .scalar ∧ ∃ closed, jsonToken state = .ok closed ∧ Holds closed frames root

/-- A value may come next. -/
def Expected (frames : List JsonFrame) (root : Option Value) : Prop :=
  ∀ state : DecoderState, state.frames = frames → state.root = root →
    jsonExpectedValue state = .ok ()

/-- A value is accepted. -/
def Takes (parsed : Value) (frames : List JsonFrame) (root : Option Value)
    (frames' : List JsonFrame) (root' : Option Value) : Prop :=
  ∀ state : DecoderState, state.frames = frames → state.root = root →
    jsonAccept state parsed = .ok { state with frames := frames', root := root' }

section
variable {state : DecoderState} {frames frames' : List JsonFrame} {root root' : Option Value}
variable {current : UInt8}

theorem Holds.moved (h : Holds state frames root) (offset : Nat) :
    Holds { state with offset := offset } frames root :=
  ⟨h.mode, h.token, h.frames, h.root⟩

theorem expected_begins (h : jsonExpectedValue state = .ok ()) : jsonBegins state current = .ok () := by
  unfold jsonBegins
  split
  · next phase outer hframes =>
    split
    · next hphase =>
      unfold jsonExpectedValue at h
      rw [hframes] at h
      obtain rfl | rfl := hphase
      · cases h
      · cases h
    · exact h
  · exact h

theorem settles_step (h : Settles state frames root)
    (hends : space current = true ∨ structural current = true) :
    ∃ closed, Holds closed frames root ∧ jsonByte state current = jsonOutside closed current := by
  obtain hholds | ⟨hmode, closed, htoken, hholds⟩ := h
  · refine ⟨state, hholds, ?_⟩
    rw [jsonByte, if_neg (by rw [hholds.mode]; decide)]
  · refine ⟨closed, hholds, ?_⟩
    have hstops : ¬(!space current && !structural current && current ≠ 34) = true := by
      obtain hspace | hstructural := hends
      · simp [hspace]
      · simp [hstructural]
    rw [jsonByte, if_pos hmode, if_neg hstops, htoken, ok_bind]

theorem settles_outside (h : Settles state frames root) :
    state.mode ≠ .string ∧ state.mode ≠ .escape := by
  obtain hholds | ⟨hmode, _⟩ := h
  · rw [hholds.mode]; decide
  · rw [hmode]; decide

theorem step_space (h : Settles state frames root) (hspace : space current = true) :
    ∃ next, stepByte state current = .ok next ∧ Holds next frames root := by
  obtain ⟨closed, hholds, hbyte⟩ := settles_step h (.inl hspace)
  refine ⟨{ closed with offset := closed.offset + 1 }, ?_, hholds.moved _⟩
  rw [stepByte_outside (settles_outside h), hbyte, jsonOutside, if_pos hspace]
  rfl

theorem step_structure (h : Settles state frames root) (hspace : space current = false)
    (hstructural : structural current = true)
    (hstep : ∀ closed, Holds closed frames root →
      jsonStructure closed current = .ok { closed with frames := frames', root := root' }) :
    ∃ next, stepByte state current = .ok next ∧ Holds next frames' root' := by
  obtain ⟨closed, hholds, hbyte⟩ := settles_step h (.inr hstructural)
  refine ⟨{ closed with offset := closed.offset + 1, frames := frames', root := root' }, ?_,
    ⟨hholds.mode, hholds.token, rfl, rfl⟩⟩
  rw [stepByte_outside (settles_outside h), hbyte, jsonOutside, if_neg (by simp [hspace]),
    if_pos hstructural, hstep closed hholds]
  rfl

theorem drive_spaces {before : List UInt8} (h : Holds state frames root) (hbefore : Spaces before) :
    ∃ next, drive state before = .ok next ∧ Holds next frames root := by
  induction before generalizing state with
  | nil => exact ⟨state, rfl, h⟩
  | cons current before ih =>
    obtain ⟨middle, hstep, hmiddle⟩ := step_space (.inl h) (hbefore.all current (.head _))
    obtain ⟨next, hdrive, hnext⟩ :=
      ih hmiddle (fun other hother => hbefore other (.tail _ hother))
    refine ⟨next, ?_, hnext⟩
    rw [drive, hstep, ok_bind, hdrive]

theorem settle_spaces {after : List UInt8} (h : Settles state frames root) (hafter : Spaces after) :
    ∃ next, drive state after = .ok next ∧ Settles next frames root := by
  cases after with
  | nil => exact ⟨state, rfl, h⟩
  | cons current after =>
    obtain ⟨middle, hstep, hmiddle⟩ := step_space h (hafter.all current (.head _))
    obtain ⟨next, hdrive, hnext⟩ :=
      drive_spaces hmiddle (fun other hother => hafter other (.tail _ hother))
    refine ⟨next, ?_, .inl hnext⟩
    rw [drive, hstep, ok_bind, hdrive]

end

/-! ## Tokens -/

/-- What stands between the quotes, as far as its end is concerned. -/
inductive Inside : List UInt8 → Prop where
  | done : Inside []
  | plain {byte more} : byte ≠ 34 → byte ≠ 92 → Inside more → Inside (byte :: more)
  | escaped {byte more} : Inside more → Inside (92 :: byte :: more)

theorem Inside.append {front back : List UInt8} (hfront : Inside front) (hback : Inside back) :
    Inside (front ++ back) := by
  induction hfront with
  | done => exact hback
  | plain hquote hslash _ ih => exact .plain hquote hslash ih
  | escaped _ ih => exact .escaped ih

theorem hex_inside {a b c d : UInt8} {value : Nat} (h : hexValue a b c d = some value) :
    Inside [a, b, c, d] := by
  have hdigit : ∀ {byte : UInt8} {value : Nat}, hex byte = some value → byte ≠ 34 ∧ byte ≠ 92 := by
    intro byte value hbyte
    refine ⟨?_, ?_⟩
    · intro hsame
      rw [hsame] at hbyte
      cases hbyte
    · intro hsame
      rw [hsame] at hbyte
      cases hbyte
  simp only [hexValue, hexadecimal_eq, Option.bind_eq_bind, Option.bind_eq_some_iff] at h
  obtain ⟨_, ha, _, hb, _, hc, _, hd, _⟩ := h
  exact .plain (hdigit ha).1 (hdigit ha).2 (.plain (hdigit hb).1 (hdigit hb).2
    (.plain (hdigit hc).1 (hdigit hc).2 (.plain (hdigit hd).1 (hdigit hd).2 .done)))

theorem CodePoint.inside {code : List UInt8} {value : Nat} (h : CodePoint code value) :
    Inside code := by
  cases h with
  | single hvalue _ => exact hex_inside hvalue
  | pair hhigh _ _ hlow _ _ =>
    exact (hex_inside hhigh).append (.escaped (hex_inside hlow))

theorem Chars.inside {written meant : List UInt8} (h : Chars written meant) : Inside written := by
  induction h with
  | done => exact .done
  | plain _ hquote hslash _ ih => exact .plain hquote hslash ih
  | escape _ _ ih => exact .escaped ih
  | unicode hcode _ ih => exact .escaped (hcode.inside.append ih)

section
variable {state : DecoderState} {frames frames' : List JsonFrame} {root root' : Option Value}
variable {token : List UInt8}

theorem drive_inside {written : List UInt8} (h : Inside written) (hmode : state.mode = .string) :
    ∃ offset, drive state written =
      .ok { state with offset := offset, token := state.token ++ written } := by
  induction h generalizing state with
  | done =>
    refine ⟨state.offset, ?_⟩
    rw [append_nil]; rfl
  | @plain byte more hquote hslash _ ih =>
    have hstep := stepByte_string hmode byte
    rw [if_neg hslash, if_neg hquote] at hstep
    obtain ⟨offset, hdrive⟩ := @ih
      { state with offset := state.offset + 1, token := state.token ++ [byte] } hmode
    rw [drive, hstep, ok_bind, hdrive]; simp
  | @escaped byte more _ ih =>
    have hfirst := stepByte_string hmode 92
    rw [if_pos rfl] at hfirst
    have hsecond := @stepByte_escape
      { state with offset := state.offset + 1, mode := .escape, token := state.token ++ [92] }
      rfl byte
    obtain ⟨offset, hdrive⟩ := @ih
      { state with
        offset := state.offset + 1 + 1, mode := .string, token := state.token ++ [92] ++ [byte] } rfl
    rw [drive, hfirst, ok_bind, drive, hsecond, ok_bind, hdrive]; simp [hmode]

theorem token_takes {parsed : Value} (hframes : state.frames = frames) (hroot : state.root = root)
    (hderives : Derives maximumDepth state.token (.value parsed))
    (htakes : Takes parsed frames root frames' root') :
    ∃ closed, jsonToken state = .ok closed ∧ Holds closed frames' root' := by
  obtain ⟨text, htext⟩ := derives_valid hderives
  rw [← htext] at hderives
  have hparse := parse_complete (document_of_derives hderives)
  have haccept := htakes { state with token := [], mode := .none } hframes hroot
  exact ⟨_, jsonToken_eq_ok.mpr ⟨text, parsed, htext, hparse, haccept⟩, ⟨rfl, rfl, rfl, rfl⟩⟩

theorem step_begins {first : UInt8} (h : Holds state frames root) (hspace : space first = false)
    (hstructural : structural first = false) (hbegins : jsonBegins state first = .ok ()) :
    stepByte state first = .ok { state with
      offset := state.offset + 1, start := state.offset
      mode := if first = 34 then .string else .scalar
      token := [first] } := by
  rw [stepByte_outside (settles_outside (.inl h)), jsonByte, if_neg (by rw [h.mode]; decide),
    jsonOutside, if_neg (by simp [hspace]), if_neg (by simp [hstructural]), hbegins, h.token]
  rfl

theorem drive_quoted {text : String} (h : Holds state frames root) (hquoted : Quoted token text)
    (hbegins : jsonBegins state 34 = .ok ())
    (htakes : Takes (.string text) frames root frames' root') :
    ∃ next, drive state token = .ok next ∧ Holds next frames' root' := by
  have hderives : Derives maximumDepth token (.value (.string text)) := .string hquoted
  obtain ⟨written, rfl, hchars, _⟩ := hquoted
  have hfirst := step_begins h (by decide) (by decide) hbegins
  rw [if_pos rfl] at hfirst
  obtain ⟨offset, hwritten⟩ := @drive_inside
    { state with
      offset := state.offset + 1, start := state.offset, mode := .string, token := [34] }
    written hchars.inside rfl
  obtain ⟨closed, htoken, hholds⟩ := @token_takes
    { state with
      offset := offset, start := state.offset, mode := .string, token := 34 :: (written ++ [34]) }
    frames frames' root root' _ h.frames h.root hderives htakes
  refine ⟨{ closed with offset := closed.offset + 1 }, ?_, hholds.moved _⟩
  have hlast := @stepByte_string
    { state with
      offset := offset, start := state.offset, mode := .string, token := [34] ++ written } rfl 34
  dsimp only [cons_append, nil_append] at hlast
  rw [htoken] at hlast
  rw [drive, hfirst, ok_bind, drive_append, hwritten, ok_bind, drive]
  dsimp only [cons_append, nil_append]
  rw [hlast]; rfl

/-- The bytes of numbers and literals. -/
def scalarByte (byte : UInt8) : Bool := !space byte && !structural byte && byte ≠ 34

theorem drive_more (hmode : state.mode = .scalar) {more : List UInt8}
    (hmore : ∀ byte ∈ more, scalarByte byte = true) :
    ∃ offset, drive state more =
      .ok { state with offset := offset, token := state.token ++ more } := by
  induction more generalizing state with
  | nil =>
    refine ⟨state.offset, ?_⟩
    rw [append_nil]; rfl
  | cons byte more ih =>
    have hbyte : (!space byte && !structural byte && byte ≠ 34) = true :=
      hmore byte (.head _)
    have hstep : stepByte state byte =
        .ok { state with offset := state.offset + 1, token := state.token ++ [byte] } := by
      rw [stepByte_outside (by rw [hmode]; decide), jsonByte, if_pos hmode, if_pos hbyte]
      rfl
    obtain ⟨offset, hdrive⟩ := @ih
      { state with offset := state.offset + 1, token := state.token ++ [byte] } hmode
      (fun other hother => hmore other (.tail _ hother))
    rw [drive, hstep, ok_bind, hdrive]; simp

/-- A number or a literal is accepted with what comes behind it. -/
theorem drive_scalar {parsed : Value} (h : Holds state frames root)
    (hderives : Derives maximumDepth token (.value parsed))
    (hbytes : ∀ byte ∈ token, scalarByte byte = true) (hexpected : Expected frames root)
    (htakes : Takes parsed frames root frames' root') :
    ∃ next, drive state token = .ok next ∧ Settles next frames' root' := by
  obtain ⟨first, more, rfl, _⟩ := derives_first hderives
  have hfirst : scalarByte first = true := hbytes first (.head _)
  simp only [scalarByte, Bool.and_eq_true, Bool.not_eq_true', decide_eq_true_eq] at hfirst
  obtain ⟨⟨hspace, hstructural⟩, hquote⟩ := hfirst
  have hstep := step_begins h hspace hstructural (expected_begins (hexpected state h.frames h.root))
  rw [if_neg hquote] at hstep
  obtain ⟨offset, hdrive⟩ := @drive_more
    { state with
      offset := state.offset + 1, start := state.offset, mode := .scalar, token := [first] }
    rfl more (fun byte hbyte => hbytes byte (.tail _ hbyte))
  obtain ⟨closed, htoken, hholds⟩ := @token_takes
    { state with
      offset := offset, start := state.offset, mode := .scalar, token := first :: more }
    frames frames' root root' _ h.frames h.root hderives htakes
  refine ⟨_, ?_, .inr ⟨rfl, closed, htoken, hholds⟩⟩
  rw [drive, hstep, ok_bind, hdrive]; rfl

end

/-! ## Values -/

/-- What feeding the bytes of a part does to a state. -/
def Fed (room : Nat) (taken : List UInt8) : Part → Prop
  | .value parsed => ∀ {state frames root frames' root'}, Holds state frames root →
    room + frames.length ≤ maximumDepth → Expected frames root →
    Takes parsed frames root frames' root' →
    ∃ next, drive state taken = .ok next ∧ Settles next frames' root'
  | .items more => ∀ {state items phase frames root},
    Holds state (.array items phase :: frames) root → phase = .first ∨ phase = .value →
    room + (frames.length + 1) ≤ maximumDepth →
    ∃ next, drive state taken = .ok next ∧
      Settles next (.array (items ++ more) .separator :: frames) root
  | .fields more => ∀ {state fields keys key phase frames root},
    Holds state (.object fields keys key phase :: frames) root → phase = .first ∨ phase = .key →
    room + (frames.length + 1) ≤ maximumDepth → (keys ++ more.map Prod.fst).Nodup →
    ∃ next, drive state taken = .ok next ∧
      Settles next
        (.object (fields ++ more) (keys ++ more.map Prod.fst) "" .separator :: frames) root

section
variable {frames : List JsonFrame} {root : Option Value} {items : List Value} {phase : JsonPhase}
variable {fields : List (String × Value)} {keys : List String} {key : String}

theorem expected_root_none : Expected [] none := by
  intro state hframes hroot
  rw [jsonExpectedValue, hframes, hroot]

theorem takes_root (parsed : Value) : Takes parsed [] none [] (some parsed) := by
  intro state hframes hroot
  rw [jsonAccept, hframes, hroot]

theorem expected_array (hphase : phase = .first ∨ phase = .value) :
    Expected (.array items phase :: frames) root := by
  intro state hframes _
  rw [jsonExpectedValue, hframes]
  obtain rfl | rfl := hphase <;> rfl

theorem takes_array (parsed : Value) (hphase : phase = .first ∨ phase = .value) :
    Takes parsed (.array items phase :: frames) root
      (.array (items ++ [parsed]) .separator :: frames) root := by
  intro state hframes hroot
  rw [jsonAccept, hframes, ← hroot]
  obtain rfl | rfl := hphase <;> rfl

theorem expected_object : Expected (.object fields keys key .value :: frames) root := by
  intro state hframes _
  rw [jsonExpectedValue, hframes]; rfl

theorem takes_object (parsed : Value) :
    Takes parsed (.object fields keys key .value :: frames) root
      (.object (fields ++ [(key, parsed)]) keys "" .separator :: frames) root := by
  intro state hframes hroot
  rw [jsonAccept, hframes, ← hroot]; rfl

theorem takes_key {name : String} (hphase : phase = .first ∨ phase = .key) (hfresh : name ∉ keys) :
    Takes (.string name) (.object fields keys key phase :: frames) root
      (.object fields (keys ++ [name]) name .colon :: frames) root := by
  intro state hframes hroot
  rw [jsonAccept, hframes, ← hroot]
  dsimp only
  rw [if_pos hphase, if_neg hfresh]

theorem begins_key {state : DecoderState}
    (hframes : state.frames = .object fields keys key phase :: frames)
    (hphase : phase = .first ∨ phase = .key) : jsonBegins state 34 = .ok () := by
  rw [jsonBegins, hframes]
  dsimp only
  rw [if_pos hphase, if_neg (by decide)]

end

section
variable {state : DecoderState} {frames frames' : List JsonFrame} {root root' : Option Value}
variable {outer : List JsonFrame}

theorem step_open (h : Holds state frames root) (hexpected : Expected frames root)
    (hdepth : frames.length < maximumDepth) {current : UInt8} {frame : JsonFrame}
    (hframe : current = 91 ∧ frame = .array [] .first ∨
      current = 123 ∧ frame = .object [] [] "" .first) :
    ∃ next, stepByte state current = .ok next ∧ Holds next (frame :: frames) root := by
  have hopens : current = 91 ∨ current = 123 := hframe.imp And.left And.left
  refine step_structure (.inl h) ?_ ?_ ?_
  · obtain rfl | rfl := hopens <;> rfl
  · obtain rfl | rfl := hopens <;> rfl
  · intro closed hclosed
    have hroom : ¬64 ≤ closed.frames.length := by
      rw [hclosed.frames]; exact Nat.not_le_of_lt hdepth
    rw [jsonStructure, hexpected closed hclosed.frames hclosed.root,
      if_neg hroom, hclosed.frames, ← hclosed.root]
    obtain ⟨rfl, rfl⟩ | ⟨rfl, rfl⟩ := hframe
    · rfl
    · rfl

theorem step_close {current : UInt8} {frame : JsonFrame} {parsed : Value}
    (h : Settles state (frame :: frames) root) (htakes : Takes parsed frames root frames' root')
    (hframe : current = 93 ∧ (∃ items phase, (phase = .first ∨ phase = .separator) ∧
        frame = .array items phase ∧ parsed = .array items) ∨
      current = 125 ∧ (∃ fields keys key phase, (phase = .first ∨ phase = .separator) ∧
        frame = .object fields keys key phase ∧ parsed = .object fields)) :
    ∃ next, stepByte state current = .ok next ∧ Holds next frames' root' := by
  have hcloses : current = 93 ∨ current = 125 := hframe.imp And.left And.left
  refine step_structure h ?_ ?_ ?_
  · obtain rfl | rfl := hcloses <;> rfl
  · obtain rfl | rfl := hcloses <;> rfl
  · intro closed hclosed
    have haccept := htakes { closed with frames := frames } rfl hclosed.root
    have hopens : ¬(current = 91 ∨ current = 123) := by
      obtain rfl | rfl := hcloses <;> decide
    rw [jsonStructure, if_neg hopens, hclosed.frames]
    dsimp only
    rw [if_pos hcloses]
    obtain ⟨rfl, items, phase, hphase, rfl, rfl⟩ | ⟨rfl, fields, keys, key, phase, hphase, rfl, rfl⟩ :=
      hframe
    · dsimp only
      rw [if_neg (by obtain rfl | rfl := hphase <;> decide)]
      exact haccept
    · dsimp only
      rw [if_neg (by obtain rfl | rfl := hphase <;> decide)]
      exact haccept

theorem step_separator {current : UInt8} {frame frame' : JsonFrame}
    (h : Settles state (frame :: frames) root)
    (hseparator : current = 44 ∨ current = 58)
    (hframe : ∀ closed : DecoderState,
      jsonSeparator closed current frames frame = .ok { closed with frames := frame' :: frames }) :
    ∃ next, stepByte state current = .ok next ∧ Holds next (frame' :: frames) root := by
  refine step_structure h ?_ ?_ ?_
  · obtain rfl | rfl := hseparator <;> rfl
  · obtain rfl | rfl := hseparator <;> rfl
  · intro closed hclosed
    rw [jsonStructure, if_neg (by obtain rfl | rfl := hseparator <;> decide), hclosed.frames]
    dsimp only
    rw [if_neg (by obtain rfl | rfl := hseparator <;> decide), hframe closed, ← hclosed.root]

end

/-! ## Parts -/

variable {state : DecoderState}

theorem drive_then {middle next : DecoderState} {part rest : List UInt8}
    (h : drive state part = .ok middle) (hrest : drive middle rest = .ok next) :
    drive state (part ++ rest) = .ok next := by
  rw [drive_ok h, hrest]

theorem drive_one {middle next : DecoderState} {current : UInt8} {rest : List UInt8}
    (h : stepByte state current = .ok middle) (hrest : drive middle rest = .ok next) :
    drive state (current :: rest) = .ok next := by
  rw [drive, h, ok_bind, hrest]

theorem scalar_number {byte : UInt8} (h : numberByte byte = true) : scalarByte byte = true := by
  have hall : ∀ code < 256, numberByte (.ofNat code) = true → scalarByte (.ofNat code) = true := by
    set_option maxRecDepth 8000 in decide
  have hbyte := hall byte.toNat byte.toNat_lt
  rw [UInt8.ofNat_toNat] at hbyte; exact hbyte h

section
variable {room : Nat} {before written after inner token between before' : List UInt8}
variable {parsed : Value} {more : List Value} {key : String} {rest : List (String × Value)}

theorem fed_scalar (hderives : ∀ room, Derives room written (.value parsed))
    (hbytes : written.all scalarByte = true) : Fed room written (.value parsed) :=
  fun h _ hexpected htakes =>
    drive_scalar h (hderives maximumDepth) (all_eq_true.mp hbytes) hexpected htakes

theorem fed_quoted {text : String} (hquoted : Quoted token text) :
    Fed room token (.value (.string text)) := by
  intro state frames root frames' root' h _ hexpected htakes
  have hbegins := @expected_begins state 34 (hexpected state h.frames h.root)
  obtain ⟨next, hdrive, hnext⟩ := drive_quoted h hquoted hbegins htakes
  exact ⟨next, hdrive, .inl hnext⟩

theorem fed_array {items : List Value}
    (hinner : ∀ {state frames root}, Holds state (.array [] .first :: frames) root →
      room + (frames.length + 1) ≤ maximumDepth →
      ∃ next phase, (phase = .first ∨ phase = .separator) ∧ drive state inner = .ok next ∧
        Settles next (.array items phase :: frames) root) :
    Fed (room + 1) (91 :: (inner ++ [93])) (.value (.array items)) := by
  intro state frames root frames' root' h hroom hexpected htakes
  obtain ⟨opened, hopen, hopened⟩ := step_open h hexpected (by omega) (.inl ⟨rfl, rfl⟩)
  obtain ⟨filled, phase, hphase, hdrive, hfilled⟩ := hinner hopened (by omega)
  obtain ⟨closed, hclose, hclosed⟩ :=
    step_close hfilled htakes (.inl ⟨rfl, items, phase, hphase, rfl, rfl⟩)
  exact ⟨closed, drive_one hopen (drive_then hdrive (drive_one hclose rfl)), .inl hclosed⟩

theorem fed_object {fields : List (String × Value)}
    (hinner : ∀ {state frames root}, Holds state (.object [] [] "" .first :: frames) root →
      room + (frames.length + 1) ≤ maximumDepth →
      ∃ next keys key phase, (phase = .first ∨ phase = .separator) ∧ drive state inner = .ok next ∧
        Settles next (.object fields keys key phase :: frames) root) :
    Fed (room + 1) (123 :: (inner ++ [125])) (.value (.object fields)) := by
  intro state frames root frames' root' h hroom hexpected htakes
  obtain ⟨opened, hopen, hopened⟩ := step_open h hexpected (by omega) (.inr ⟨rfl, rfl⟩)
  obtain ⟨filled, keys, key, phase, hphase, hdrive, hfilled⟩ := hinner hopened (by omega)
  obtain ⟨closed, hclose, hclosed⟩ :=
    step_close hfilled htakes (.inr ⟨rfl, fields, keys, key, phase, hphase, rfl, rfl⟩)
  exact ⟨closed, drive_one hopen (drive_then hdrive (drive_one hclose rfl)), .inl hclosed⟩

section
variable (hbefore : Spaces before) (ih : Fed room written (.value parsed)) (hafter : Spaces after)
include hbefore ih hafter

theorem fed_spaced {state : DecoderState} {frames frames' : List JsonFrame}
    {root root' : Option Value} (h : Holds state frames root)
    (hroom : room + frames.length ≤ maximumDepth) (hexpected : Expected frames root)
    (htakes : Takes parsed frames root frames' root') :
    ∃ next, drive state (before ++ (written ++ after)) = .ok next ∧ Settles next frames' root' := by
  obtain ⟨first, hfirst, hspaced⟩ := drive_spaces h hbefore
  obtain ⟨second, hsecond, hvalue⟩ := ih hspaced hroom hexpected htakes
  obtain ⟨next, hnext, hsettles⟩ := settle_spaces hvalue hafter
  exact ⟨next, drive_then hfirst (drive_then hsecond hnext), hsettles⟩

theorem fed_item : Fed room (before ++ (written ++ after)) (.items [parsed]) :=
  fun h hphase hroom =>
    fed_spaced hbefore ih hafter h hroom (expected_array hphase) (takes_array parsed hphase)

theorem fed_items (ih' : Fed room inner (.items more)) :
    Fed room (before ++ (written ++ (after ++ 44 :: inner))) (.items (parsed :: more)) := by
  intro state items phase frames root h hphase hroom
  obtain ⟨first, hfirst, hsettles⟩ := fed_spaced hbefore ih hafter h hroom (expected_array hphase)
    (takes_array parsed hphase)
  obtain ⟨second, hsecond, hholds⟩ :=
    @step_separator _ _ _ 44 _ (.array (items ++ [parsed]) .value) hsettles (.inl rfl) (fun _ => rfl)
  obtain ⟨next, hnext, hlast⟩ := ih' hholds (.inr rfl) hroom
  rw [append_assoc] at hlast
  refine ⟨next, ?_, hlast⟩
  have hdrive := drive_then hfirst (drive_one hsecond hnext)
  simpa  using hdrive

end

section
variable (hbefore : Spaces before) (hquoted : Quoted token key) (hbetween : Spaces between)
  (hbefore' : Spaces before') (ih : Fed room written (.value parsed)) (hafter : Spaces after)
include hbefore hquoted hbetween hbefore' ih hafter

theorem fed_entry {state : DecoderState} {fields : List (String × Value)} {keys : List String}
    {previous : String} {phase : JsonPhase} {frames : List JsonFrame} {root : Option Value}
    (h : Holds state (.object fields keys previous phase :: frames) root)
    (hphase : phase = .first ∨ phase = .key) (hroom : room + (frames.length + 1) ≤ maximumDepth)
    {later : List String} (hnodup : (keys ++ key :: later).Nodup) :
    ∃ next, drive state
        (before ++ (token ++ (between ++ 58 :: (before' ++ (written ++ after))))) = .ok next ∧
      Settles next
        (.object (fields ++ [(key, parsed)]) (keys ++ [key]) "" .separator :: frames) root := by
  have hfresh : key ∉ keys := by
    intro hused; exact (nodup_append.mp hnodup).2.2 key hused key (by simp) rfl
  obtain ⟨first, hfirst, hspaced⟩ := drive_spaces h hbefore
  obtain ⟨second, hsecond, hkey⟩ := drive_quoted hspaced hquoted (begins_key hspaced.frames hphase)
    (takes_key hphase hfresh)
  obtain ⟨third, hthird, hbehind⟩ := drive_spaces hkey hbetween
  obtain ⟨fourth, hfourth, hcolon⟩ := @step_separator _ _ _ 58 _
    (.object fields (keys ++ [key]) key .value) (.inl hbehind) (.inr rfl) (fun _ => rfl)
  obtain ⟨next, hnext, hsettles⟩ := fed_spaced hbefore' ih hafter hcolon hroom expected_object
    (takes_object parsed)
  exact ⟨next, drive_then hfirst (drive_then hsecond (drive_then hthird (drive_one hfourth hnext))),
    hsettles⟩

theorem fed_field : Fed room (before ++ (token ++ (between ++ 58 :: (before' ++ (written ++ after)))))
      (.fields [(key, parsed)]) := by
  intro state fields keys previous phase frames root h hphase hroom hnodup
  exact fed_entry hbefore hquoted hbetween hbefore' ih hafter h hphase hroom hnodup

theorem fed_fields (ih' : Fed room inner (.fields rest)) : Fed room
      (before ++ (token ++ (between ++ 58 :: (before' ++ (written ++ (after ++ 44 :: inner))))))
      (.fields ((key, parsed) :: rest)) := by
  intro state fields keys previous phase frames root h hphase hroom hnodup
  obtain ⟨first, hfirst, hsettles⟩ :=
    fed_entry hbefore hquoted hbetween hbefore' ih hafter h hphase hroom hnodup
  have hjoined : keys ++ ((key, parsed) :: rest).map Prod.fst =
      keys ++ [key] ++ rest.map Prod.fst := by simp
  rw [hjoined] at hnodup ⊢
  obtain ⟨second, hsecond, hholds⟩ := @step_separator _ _ _ 44 _
    (.object (fields ++ [(key, parsed)]) (keys ++ [key]) "" .key) hsettles (.inl rfl) (fun _ => rfl)
  obtain ⟨next, hnext, hlast⟩ := ih' hholds (.inr rfl) hroom hnodup
  rw [append_assoc] at hlast
  refine ⟨next, ?_, hlast⟩
  have hdrive := drive_then hfirst (drive_one hsecond hnext)
  simpa  using hdrive

end

end

variable {taken : List UInt8}

theorem derives_fed {room : Nat} {part : Part} (h : Derives room taken part) :
    Fed room taken part := by
  induction h with
  | null => exact fed_scalar (fun _ => .null) (by rfl)
  | true => exact fed_scalar (fun _ => .true) (by rfl)
  | false => exact fed_scalar (fun _ => .false) (by rfl)
  | number hnumeral =>
    refine fed_scalar (fun _ => .number hnumeral) (all_eq_true.mpr ?_)
    intro byte hbyte; exact scalar_number (hnumeral.bytes byte hbyte)
  | string hquoted => exact fed_quoted hquoted
  | emptyArray hbefore =>
    refine fed_array ?_
    intro state frames root h _
    obtain ⟨next, hdrive, hnext⟩ := drive_spaces h hbefore
    exact ⟨next, .first, .inl rfl, hdrive, .inl hnext⟩
  | array _ ih =>
    refine fed_array ?_
    intro state frames root h hroom
    obtain ⟨next, hdrive, hnext⟩ := ih h (.inl rfl) hroom
    exact ⟨next, .separator, .inr rfl, hdrive, hnext⟩
  | emptyObject hbefore =>
    refine fed_object ?_
    intro state frames root h _
    obtain ⟨next, hdrive, hnext⟩ := drive_spaces h hbefore
    exact ⟨next, [], "", .first, .inl rfl, hdrive, .inl hnext⟩
  | object _ hnodup ih =>
    refine fed_object ?_
    intro state frames root h hroom
    obtain ⟨next, hdrive, hnext⟩ := ih h (.inl rfl) hroom (by simpa using hnodup)
    exact ⟨next, _, "", .separator, .inr rfl, hdrive, hnext⟩
  | item hbefore _ hafter ih => exact fed_item hbefore ih hafter
  | items hbefore _ hafter _ ih ih' => exact fed_items hbefore ih hafter ih'
  | field hbefore hquoted hbetween hbefore' _ hafter ih =>
    exact fed_field hbefore hquoted hbetween hbefore' ih hafter
  | fields hbefore hquoted hbetween hbefore' _ hafter _ ih ih' =>
    exact fed_fields hbefore hquoted hbetween hbefore' ih hafter ih'

/-! ## Documents -/

variable {parsed : Value}

theorem settles_finished (h : Settles state [] (some parsed)) :
    jsonFinished state = .ok parsed := by
  obtain ⟨last, hlast, hholds⟩ : ∃ last, jsonLast state = .ok last ∧
      Holds last [] (some parsed) := by
    obtain hholds | ⟨hmode, closed, htoken, hholds⟩ := h
    · exact ⟨state, if_neg (not_not.mpr hholds.mode), hholds⟩
    · refine ⟨closed, ?_, hholds⟩
      rw [jsonLast, if_pos (by rw [hmode]; decide), htoken]
  rw [jsonFinished, hlast, ok_bind, if_neg (not_not.mpr hholds.frames), hholds.root]

theorem document_finished (h : Document taken parsed) :
    ∃ next, drive decoder taken = .ok next ∧ jsonFinished next = .ok parsed := by
  obtain ⟨before, inner, after, rfl, hbefore, hderives, hafter⟩ := h
  have hholds : Holds decoder [] none := ⟨rfl, rfl, rfl, rfl⟩
  obtain ⟨next, hdrive, hsettles⟩ := fed_spaced hbefore (derives_fed hderives) hafter hholds
    (Nat.le_refl _) expected_root_none (takes_root parsed)
  exact ⟨next, hdrive, settles_finished hsettles⟩

theorem decodeChunks_iff {chunks : List (List UInt8)} :
    decodeChunks decoder chunks = .ok parsed ↔ Document chunks.flatten parsed := by
  rw [decodeChunks_eq running_decoder, bind_eq_ok]
  constructor
  · intro ⟨next, hdrive, hfinished⟩
    have hconsumed := drive_consumed consumed_decoder hdrive
    exact finished_sound hconsumed hfinished
  · intro hdocument; exact document_finished hdocument

theorem document_valid (h : Document taken parsed) : Valid taken := by
  obtain ⟨before, inner, after, rfl, hbefore, hderives, hafter⟩ := h
  exact hbefore.valid.append ((derives_valid hderives).append hafter.valid)

/-- A document in chunks gives a value exactly when its bytes are a text that is parsed to
this value, and what it gives depends on the bytes alone. -/
theorem incremental_agrees (chunks : List (List UInt8)) :
    (∀ parsed, decodeChunks decoder chunks = .ok parsed ↔
      ∃ input, bytes input = chunks.flatten ∧ parse input = .ok parsed) ∧
    decodeChunks decoder chunks = decodeChunks decoder [chunks.flatten] := by
  refine ⟨?_, ?_⟩
  · intro parsed
    rw [decodeChunks_iff]
    constructor
    · intro hdocument
      obtain ⟨input, hinput⟩ := document_valid hdocument
      rw [← hinput] at hdocument
      exact ⟨input, hinput, parse_complete hdocument⟩
    · intro ⟨input, hinput, hparse⟩
      rw [← hinput]; exact parse_sound hparse
  · rw [decodeChunks_eq running_decoder, decodeChunks_eq running_decoder, flatten_singleton]

end Loom.Json

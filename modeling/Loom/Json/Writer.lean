import Loom.Json.Parsing

/-
  The writer of JSON texts, and the round trip with the parser.

  Correspondence (json/json.loom ↔ Lean), where names differ:
    the loops over items and fields ↔ `writeItems`, `writeFields`
  A function that pushes bytes on an output gives the bytes that it pushes.
-/

namespace Loom.Json

open Utf8 Results Except List

inductive WriteError where
  | invalidNumber
  | duplicateKey
  | depthExceeded
  | unsupportedType
  deriving DecidableEq

/-- How writing ends that gives nothing. -/
inductive WriteStop where
  | error (failed : WriteError)
  | fault
  deriving DecidableEq

/-! ## The source -/

def hexDigit (value : Nat) : UInt8 := if value < 10 then .ofNat (48 + value) else .ofNat (87 + value)

def writeStringByte (current : UInt8) : List UInt8 :=
  if current = 34 ∨ current = 92 then [92, current]
  else if current.toNat < 32 then
    [92, 117, 48, 48, hexDigit (current.toNat / 16), hexDigit (current.toNat % 16)]
  else [current]

def writeCharacters : List UInt8 → List UInt8
  | [] => []
  | current :: rest =>
    (if current = 34 ∨ current = 92 ∨ current.toNat < 32 then writeStringByte current
      else [current]) ++ writeCharacters rest

def writeString (input : String) : List UInt8 := 34 :: (writeCharacters (bytes input) ++ [34])

def separator (index : Nat) : List UInt8 := if 0 < index then [44] else []

mutual

def writeValue : Value → Nat → Except WriteError (List UInt8)
  | .null, _ => .ok (bytes "null")
  | .boolean flag, _ => .ok (if flag then bytes "true" else bytes "false")
  | .number raw, _ =>
    match numberEnd ⟨0, bytes raw⟩ with
    | .ok stop => if stop.offset ≠ (bytes raw).length then .error .invalidNumber else .ok (bytes raw)
    | .error _ => .error .invalidNumber
  | .string text, _ => .ok (writeString text)
  | .array items, depth =>
    if maximumDepth ≤ depth then .error .depthExceeded
    else do
      let inner ← writeItems items 0 depth
      .ok (91 :: (inner ++ [93]))
  | .object fields, depth =>
    if maximumDepth ≤ depth then .error .depthExceeded
    else do
      let inner ← writeFields fields [] 0 depth
      .ok (123 :: (inner ++ [125]))

/-- The loop over the items of an array. -/
def writeItems : List Value → Nat → Nat → Except WriteError (List UInt8)
  | [], _, _ => .ok []
  | item :: rest, index, depth => do
    let written ← writeValue item (depth + 1)
    let more ← writeItems rest (index + 1) depth
    .ok (separator index ++ (written ++ more))

/-- The loop over the fields of an object. -/
def writeFields : List (String × Value) → List String → Nat → Nat → Except WriteError (List UInt8)
  | [], _, _, _ => .ok []
  | (key, item) :: rest, seen, index, depth =>
    if key ∈ seen then .error .duplicateKey
    else do
      let written ← writeValue item (depth + 1)
      let more ← writeFields rest (seen ++ [key]) (index + 1) depth
      .ok (separator index ++ (writeString key ++ 58 :: (written ++ more)))

end

def stringify (input : Value) : Except WriteStop String :=
  match writeValue input 0 with
  | .error failed => .error (.error failed)
  | .ok output =>
    match decode output with
    | some text => .ok text
    | none => .error .fault

/-! ## What is written is derived -/

theorem hexDigit_codePoint {value : Nat} (h : value < 32) :
    CodePoint [48, 48, hexDigit (value / 16), hexDigit (value % 16)] value := by
  have hall : ∀ code < 32,
      hexValue 48 48 (hexDigit (code / 16)) (hexDigit (code % 16)) = some code := by
    decide
  exact .single (hall value h) (.inl (by omega))

theorem writeCharacters_chars (input : List UInt8) : Chars (writeCharacters input) input := by
  induction input with
  | nil => exact .done
  | cons current rest ih =>
    rw [writeCharacters, writeStringByte]
    by_cases hquote : current = 34 ∨ current = 92
    · have hsimple : escapes.lookup current = some current := by
        obtain rfl | rfl := hquote <;> rfl
      rw [if_pos (by tauto), if_pos hquote]; exact .escape hsimple ih
    · by_cases hcontrol : current.toNat < 32
      · have hbytes : encoded current.toNat = [current] := by
          rw [← codepointBytes_eq ⟨by omega, by omega⟩, codepointBytes, if_pos (by omega),
            UInt8.ofNat_toNat]
        rw [if_pos (by tauto), if_neg hquote, if_pos hcontrol]
        have hchars := Chars.unicode (hexDigit_codePoint hcontrol) ih
        rw [hbytes] at hchars; exact hchars
      · rw [if_neg (by tauto)]
        exact .plain (by omega) (fun h => hquote (.inl h)) (fun h => hquote (.inr h)) ih

theorem hexDigit_ascii {value : Nat} (h : value < 16) : hexDigit value < 128 := by
  have hall : ∀ code < 16, hexDigit code < 128 := by decide
  exact hall value h

variable {current : UInt8} {output : List UInt8} {depth room : Nat} {taken : List UInt8}
  {text : String}

theorem writeStringByte_valid (hascii : current < 128) : Valid (writeStringByte current) := by
  apply valid_of_ascii
  intro byte hbyte
  unfold writeStringByte at hbyte
  split at hbyte
  · simp only [mem_cons, not_mem_nil, or_false] at hbyte
    obtain rfl | rfl := hbyte
    · decide
    · exact hascii
  split at hbyte
  · simp only [mem_cons, not_mem_nil, or_false] at hbyte
    obtain rfl | rfl | rfl | rfl | rfl | rfl := hbyte
    · decide
    · decide
    · decide
    · decide
    · exact hexDigit_ascii (by omega)
    · exact hexDigit_ascii (by omega)
  · rw [mem_singleton.mp hbyte]; exact hascii

def Escaped (current : UInt8) : Prop := current = 34 ∨ current = 92 ∨ current.toNat < 32

instance (current : UInt8) : Decidable (Escaped current) := inferInstanceAs (Decidable (_ ∨ _ ∨ _))

theorem Escaped.ascii (h : Escaped current) : current < 128 := by
  show current.toNat < 128
  obtain rfl | rfl | hcontrol := h
  · decide
  · decide
  · omega

theorem writeCharacters_escaped (h : Escaped current) (rest : List UInt8) :
    writeCharacters (current :: rest) = writeStringByte current ++ writeCharacters rest := by
  exact congrArg (· ++ _) (if_pos h)

theorem writeCharacters_plain (h : ¬Escaped current) (rest : List UInt8) :
    writeCharacters (current :: rest) = current :: writeCharacters rest := by
  exact congrArg (· ++ _) (if_neg h)

/-- Escapes are ASCII, and stand for ASCII bytes. -/
theorem writeCharacters_valid {input : List UInt8} (front : List UInt8)
    (h : Valid (front ++ input)) : Valid (front ++ writeCharacters input) := by
  induction input generalizing front with
  | nil => exact h
  | cons current rest ih =>
    by_cases hescape : Escaped current
    · have hascii := hescape.ascii
      obtain ⟨hfront, hback⟩ := h.split (by simpa using hascii)
      have hrest := ih [] (hback.tail hascii)
      have hwritten := writeStringByte_valid hascii
      rw [writeCharacters_escaped hescape]
      exact hfront.append (hwritten.append hrest)
    · rw [writeCharacters_plain hescape]
      have hmoved := ih (front ++ [current]) (by simpa using h)
      simpa using hmoved

theorem writeString_quoted (input : String) : Quoted (writeString input) input :=
  ⟨_, rfl, writeCharacters_chars _, writeCharacters_valid [] (valid_bytes input)⟩

theorem writeNumber_eq_ok {raw : String} :
    writeValue (.number raw) depth = .ok output ↔ output = bytes raw ∧ Numeral (bytes raw) := by
  rw [writeValue]
  constructor
  · intro h
    split at h
    · next stop hstop =>
      split at h
      · cases h
      · next hlength =>
        rw [ok.injEq] at h
        obtain ⟨taken, hnumeral, hreads⟩ := numberEnd_sound hstop
        have htaken : taken = bytes raw := by
          have hoffset := hreads.offset
          have hrest : bytes raw = taken ++ stop.rest := hreads.rest
          have hcount := congrArg length hrest
          rw [length_append] at hcount
          dsimp only at hoffset
          have hnil : stop.rest = [] := length_eq_zero_iff.mp (by omega)
          rw [hrest, hnil, append_nil]
        exact ⟨h.symm, htaken ▸ hnumeral⟩
    · cases h
  · intro h
    obtain ⟨rfl, hnumeral⟩ := h
    have hread := numberEnd_complete hnumeral (stops_nil numeric) 0
    rw [append_nil] at hread
    rw [hread]
    dsimp only
    rw [if_neg (by simp)]

/-- What `writeValue` gives for a value is derived, at any depth. -/
def Writes (input : Value) : Prop :=
  ∀ {depth room : Nat} {output : List UInt8}, depth + room = maximumDepth →
    writeValue input depth = .ok output → Derives room output (.value input)

theorem writeItems_derives {items : List Value} (h : ∀ item ∈ items, Writes item) {index : Nat}
    (hroom : depth + 1 + room = maximumDepth) (hwrite : writeItems items index depth = .ok output)
    (hsome : items ≠ []) :
    ∃ inner, output = separator index ++ inner ∧ Derives room inner (.items items) := by
  induction items generalizing index output with
  | nil => exact absurd rfl hsome
  | cons item rest ih =>
    obtain ⟨written, hwritten, hwrite⟩ := bind_eq_ok.mp hwrite
    obtain ⟨more, hmore, hwrite⟩ := bind_eq_ok.mp hwrite
    rw [ok.injEq] at hwrite
    have hvalue := h item (.head _) hroom hwritten
    refine ⟨written ++ more, hwrite.symm, ?_⟩
    by_cases hlast : rest = []
    · subst hlast
      rw [writeItems, ok.injEq] at hmore
      exact hmore ▸ .item spaces_nil hvalue spaces_nil
    · obtain ⟨inner, rfl, hinner⟩ := ih (fun other hother => h other (.tail _ hother)) hmore hlast
      exact .items spaces_nil hvalue spaces_nil hinner

theorem writeFields_derives {fields : List (String × Value)} (h : ∀ field ∈ fields, Writes field.2)
    {seen : List String} {index : Nat} (hroom : depth + 1 + room = maximumDepth)
    (hseen : seen.Nodup) (hwrite : writeFields fields seen index depth = .ok output)
    (hsome : fields ≠ []) :
    ∃ inner, output = separator index ++ inner ∧ Derives room inner (.fields fields) ∧
      (seen ++ fields.map Prod.fst).Nodup := by
  induction fields generalizing seen index output with
  | nil => exact absurd rfl hsome
  | cons field rest ih =>
    obtain ⟨key, item⟩ := field
    rw [writeFields] at hwrite
    split at hwrite
    · cases hwrite
    next hfresh =>
    obtain ⟨written, hwritten, hwrite⟩ := bind_eq_ok.mp hwrite
    obtain ⟨more, hmore, hwrite⟩ := bind_eq_ok.mp hwrite
    rw [ok.injEq] at hwrite
    have hvalue := h (key, item) (.head _) hroom hwritten
    have hkeys := nodup_seen hseen hfresh
    refine ⟨writeString key ++ 58 :: (written ++ more), hwrite.symm, ?_⟩
    by_cases hlast : rest = []
    · subst hlast
      rw [writeFields, ok.injEq] at hmore
      exact ⟨hmore ▸ .field spaces_nil (writeString_quoted key) spaces_nil spaces_nil hvalue
        spaces_nil, hkeys⟩
    · obtain ⟨inner, rfl, hinner, hnodup⟩ :=
        ih (fun other hother => h other (.tail _ hother)) hkeys hmore hlast
      refine ⟨.fields spaces_nil (writeString_quoted key) spaces_nil spaces_nil hvalue spaces_nil
        hinner, ?_⟩
      simpa using hnodup

theorem writeValue_derives (input : Value) : Writes input := by
  intro depth room output hroom h
  induction input generalizing depth room output with
  | null =>
    rw [writeValue, ok.injEq] at h; exact h ▸ .null
  | boolean flag =>
    rw [writeValue, ok.injEq] at h
    cases flag with
    | true => exact h ▸ .true
    | false => exact h ▸ .false
  | number raw =>
    obtain ⟨rfl, hnumeral⟩ := writeNumber_eq_ok.mp h
    exact .number hnumeral
  | string text =>
    rw [writeValue, ok.injEq] at h; exact h ▸ .string (writeString_quoted text)
  | array items ih =>
    rw [writeValue] at h
    split at h
    · cases h
    next hdepth =>
    obtain ⟨inner, hinner, h⟩ := bind_eq_ok.mp h
    rw [ok.injEq] at h
    obtain ⟨below, rfl⟩ : ∃ below, room = below + 1 := ⟨room - 1, by omega⟩
    rw [← h]
    by_cases hempty : items = []
    · subst hempty
      rw [writeItems, ok.injEq] at hinner; exact hinner ▸ .emptyArray spaces_nil
    · obtain ⟨written, rfl, hderives⟩ := writeItems_derives ih
        (show depth + 1 + below = maximumDepth by omega) hinner hempty
      exact .array hderives
  | object fields ih =>
    rw [writeValue] at h
    split at h
    · cases h
    next hdepth =>
    obtain ⟨inner, hinner, h⟩ := bind_eq_ok.mp h
    rw [ok.injEq] at h
    obtain ⟨below, rfl⟩ : ∃ below, room = below + 1 := ⟨room - 1, by omega⟩
    rw [← h]
    by_cases hempty : fields = []
    · subst hempty
      rw [writeFields, ok.injEq] at hinner
      exact hinner ▸ .emptyObject spaces_nil
    · obtain ⟨written, rfl, hderives, hnodup⟩ := writeFields_derives ih
        (show depth + 1 + below = maximumDepth by omega) nodup_nil hinner hempty
      exact .object hderives (by simpa using hnodup)

/-! ## What is derived can be written -/

/-- How a part is written, at the depth that its room leaves. -/
def Written (room : Nat) : Part → Prop
  | .value input => ∀ depth, depth + room = maximumDepth →
    ∃ output, writeValue input depth = .ok output
  | .items items => ∀ depth index, depth + 1 + room = maximumDepth →
    ∃ output, writeItems items index depth = .ok output
  | .fields fields => ∀ depth index seen, depth + 1 + room = maximumDepth →
    (seen ++ fields.map Prod.fst).Nodup →
    ∃ output, writeFields fields seen index depth = .ok output

theorem written_items {item : Value} {rest : List Value} (hitem : Written room (.value item))
    (hrest : Written room (.items rest)) : Written room (.items (item :: rest)) := by
  intro depth index hroom
  obtain ⟨written, hwritten⟩ := hitem (depth + 1) hroom
  obtain ⟨more, hmore⟩ := hrest depth (index + 1) hroom
  exact ⟨_, by rw [writeItems, hwritten, ok_bind, hmore, ok_bind]⟩

theorem written_fields {key : String} {item : Value} {rest : List (String × Value)}
    (hitem : Written room (.value item)) (hrest : Written room (.fields rest)) :
    Written room (.fields ((key, item) :: rest)) := by
  intro depth index seen hroom hnodup
  have hfresh : key ∉ seen :=
    fun hmem => (nodup_append.mp hnodup).2.2 key hmem key (by simp) rfl
  obtain ⟨written, hwritten⟩ := hitem (depth + 1) hroom
  obtain ⟨more, hmore⟩ := hrest depth (index + 1) (seen ++ [key]) hroom (by simpa using hnodup)
  exact ⟨_, by rw [writeFields, if_neg hfresh, hwritten, ok_bind, hmore, ok_bind]⟩

theorem written_array {items : List Value} (h : Written room (.items items)) :
    Written (room + 1) (.value (.array items)) := by
  intro depth hroom
  obtain ⟨inner, hinner⟩ := h depth 0 (by omega)
  exact ⟨_, by rw [writeValue, if_neg (by omega), hinner, ok_bind]⟩

theorem written_object {fields : List (String × Value)} (h : Written room (.fields fields))
    (hnodup : (fields.map Prod.fst).Nodup) : Written (room + 1) (.value (.object fields)) := by
  intro depth hroom
  obtain ⟨inner, hinner⟩ := h depth 0 [] (by omega) (by simpa using hnodup)
  exact ⟨_, by rw [writeValue, if_neg (by omega), hinner, ok_bind]⟩

theorem written_nil (room : Nat) : Written room (.items []) := fun _ _ _ => ⟨_, by rw [writeItems]⟩

theorem written_none (room : Nat) : Written room (.fields []) :=
  fun _ _ _ _ _ => ⟨_, by rw [writeFields]⟩

theorem derives_write {part : Part} (h : Derives room taken part) : Written room part := by
  induction h with
  | null => exact fun _ _ => ⟨_, by rw [writeValue]⟩
  | true => exact fun _ _ => ⟨_, by rw [writeValue]⟩
  | false => exact fun _ _ => ⟨_, by rw [writeValue]⟩
  | number hnumeral => exact fun _ _ => ⟨_, writeNumber_eq_ok.mpr ⟨rfl, hnumeral⟩⟩
  | string => exact fun _ _ => ⟨_, by rw [writeValue]⟩
  | emptyArray => exact written_array (written_nil _)
  | array _ ih => exact written_array ih
  | emptyObject => exact written_object (written_none _) nodup_nil
  | object _ hnodup ih => exact written_object ih hnodup
  | item _ _ _ ih => exact written_items ih (written_nil _)
  | items _ _ _ _ ih ih' => exact written_items ih ih'
  | field _ _ _ _ _ _ ih => exact written_fields ih (written_none _)
  | fields _ _ _ _ _ _ _ ih ih' => exact written_fields ih ih'

/-! ## The round trip -/

theorem Quoted.valid {token : List UInt8} (h : Quoted token text) : Valid token := by
  obtain ⟨written, rfl, _, hvalid⟩ := h
  exact (valid_ascii (by decide)).append (hvalid.append (valid_ascii (by decide)))

theorem Spaces.valid (h : Spaces taken) : Valid taken := valid_of_ascii h.ascii

theorem derives_valid {part : Part} (h : Derives room taken part) : Valid taken := by
  induction h with
  | null => exact valid_bytes _
  | true => exact valid_bytes _
  | false => exact valid_bytes _
  | number => exact valid_bytes _
  | string hquoted => exact hquoted.valid
  | emptyArray hbefore =>
    exact .cons (by decide) (hbefore.valid.append (valid_ascii (by decide)))
  | array _ ih => exact .cons (by decide) (ih.append (valid_ascii (by decide)))
  | emptyObject hbefore =>
    exact .cons (by decide) (hbefore.valid.append (valid_ascii (by decide)))
  | object _ _ ih => exact .cons (by decide) (ih.append (valid_ascii (by decide)))
  | item hbefore _ hafter ih => exact hbefore.valid.append (ih.append hafter.valid)
  | items hbefore _ hafter _ ih ih' =>
    exact hbefore.valid.append (ih.append (hafter.valid.append (.cons (by decide) ih')))
  | field hbefore hquoted hbetween hbefore' _ hafter ih =>
    exact hbefore.valid.append (hquoted.valid.append (hbetween.valid.append
      (.cons (by decide) (hbefore'.valid.append (ih.append hafter.valid)))))
  | fields hbefore hquoted hbetween hbefore' _ hafter _ ih ih' =>
    exact hbefore.valid.append (hquoted.valid.append (hbetween.valid.append
      (.cons (by decide) (hbefore'.valid.append
        (ih.append (hafter.valid.append (.cons (by decide) ih')))))))

theorem stringify_eq_ok {input : Value} :
    stringify input = .ok text ↔ writeValue input 0 = .ok (bytes text) := by
  unfold stringify
  cases hwrite : writeValue input 0 with
  | error failed => simp
  | ok output =>
    have hroom : 0 + maximumDepth = maximumDepth := Nat.zero_add _
    obtain ⟨text', htext⟩ := derives_valid (writeValue_derives input hroom hwrite)
    rw [ok.injEq, ← htext]
    dsimp only
    rw [decode_bytes]
    rw [ok.injEq]
    constructor
    · intro hsame
      rw [hsame]
    · exact bytes_injective

theorem document_of_derives {parsed : Value} (h : Derives maximumDepth taken (.value parsed)) :
    Document taken parsed := ⟨[], taken, [], by simp, spaces_nil, h, spaces_nil⟩

theorem stringify_parse {input : Value} (h : stringify input = .ok text) : parse text = .ok input :=
  parse_complete (document_of_derives (writeValue_derives input (Nat.zero_add _)
    (stringify_eq_ok.mp h)))

theorem parse_stringify {parsed : Value} (h : parse text = .ok parsed) :
    ∃ text', stringify parsed = .ok text' := by
  obtain ⟨_, _, _, _, _, hderives, _⟩ := parse_sound h
  obtain ⟨output, hwrite⟩ := derives_write hderives 0 (Nat.zero_add _)
  obtain ⟨text', htext⟩ := derives_valid (writeValue_derives parsed (Nat.zero_add _) hwrite)
  exact ⟨text', stringify_eq_ok.mpr (htext ▸ hwrite)⟩

/-- A value that can be written is what is parsed back from its text, and a value that
is parsed can be written, to a text that it is parsed back from. -/
theorem json_round_trip : (∀ input text, stringify input = .ok text → parse text = .ok input) ∧
      ∀ text parsed, parse text = .ok parsed →
        ∃ text', stringify parsed = .ok text' ∧ parse text' = .ok parsed := by
  refine ⟨fun _ _ => stringify_parse, ?_⟩
  intro text parsed h
  obtain ⟨text', htext⟩ := parse_stringify h
  exact ⟨text', htext, stringify_parse htext⟩

/-- A number keeps its spelling, and a control character its escape. -/
theorem json_round_trip_escape :
    stringify (.array [.number "1.50", .string "\x07"]) = .ok "[1.50,\"\\u0007\"]" ∧
      parse "[1.50,\"\\u0007\"]" = .ok (.array [.number "1.50", .string "\x07"]) := by
  have hwrite : stringify (.array [.number "1.50", .string "\x07"]) = .ok "[1.50,\"\\u0007\"]" := by
    decide
  exact ⟨hwrite, json_round_trip.1 _ _ hwrite⟩

end Loom.Json

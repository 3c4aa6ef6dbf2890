import Loom.Json.Parser

/-
  The grammar of JSON texts, and the tokens of the parser.

  The grammar says which bytes stand for which value, without positions, bounds
  or order of checks, and with its own tables of bytes. `Derives` is one relation
  over three kinds of parts; the room is what is left for containers.
-/

namespace Loom.Json

open Utf8

/-! ## Tokens -/

/-- Blank, tab, line feed and carriage return. -/
def Spaces (taken : List UInt8) : Prop := ∀ byte ∈ taken, byte ∈ [32, 9, 10, 13]

/-- The hexadecimal digits, with the capitals and without. -/
def capitals : List UInt8 := [48, 49, 50, 51, 52, 53, 54, 55, 56, 57, 65, 66, 67, 68, 69, 70]
def smalls : List UInt8 := [48, 49, 50, 51, 52, 53, 54, 55, 56, 57, 97, 98, 99, 100, 101, 102]

def hexadecimal (byte : UInt8) : Option Nat := (capitals.idxOf? byte).or (smalls.idxOf? byte)

def hexValue (a b c d : UInt8) : Option Nat := do
  let a ← hexadecimal a
  let b ← hexadecimal b
  let c ← hexadecimal c
  let d ← hexadecimal d
  some (((a * 16 + b) * 16 + c) * 16 + d)

/-- A code point in UTF-8. -/
def encoded (value : Nat) : List UInt8 := String.utf8EncodeChar (Char.ofNat value)

/-- What stands behind a backslash, and the byte it means. -/
def escapes : List (UInt8 × UInt8) :=
  [(34, 34), (92, 92), (47, 47), (98, 8), (102, 12), (110, 10), (114, 13), (116, 9)]

/-- A code point behind `\u`: one escape, or a pair of surrogates. -/
inductive CodePoint : List UInt8 → Nat → Prop where
  | single {a b c d value} : hexValue a b c d = some value → value < 55296 ∨ 57343 < value →
      CodePoint [a, b, c, d] value
  | pair {a b c d e f g h high low} : hexValue a b c d = some high → 55296 ≤ high → high ≤ 56319 →
      hexValue e f g h = some low → 56320 ≤ low → low ≤ 57343 →
      CodePoint [a, b, c, d, 92, 117, e, f, g, h] (65536 + (high - 55296) * 1024 + low - 56320)

/-- What stands between the quotes of a string, and the bytes it means. -/
inductive Chars : List UInt8 → List UInt8 → Prop where
  | done : Chars [] []
  | plain {byte more meant} : 32 ≤ byte.toNat → byte ≠ 34 → byte ≠ 92 → Chars more meant →
      Chars (byte :: more) (byte :: meant)
  | escape {escaped decoded more meant} : escapes.lookup escaped = some decoded → Chars more meant →
      Chars (92 :: escaped :: more) (decoded :: meant)
  | unicode {code value more meant} : CodePoint code value → Chars more meant →
      Chars (92 :: 117 :: (code ++ more)) (encoded value ++ meant)

def Quoted (token : List UInt8) (text : String) : Prop :=
  ∃ written, token = 34 :: (written ++ [34]) ∧ Chars written (bytes text) ∧ Valid written

def Digits (taken : List UInt8) : Prop := taken ≠ [] ∧ ∀ byte ∈ taken, 48 ≤ byte ∧ byte ≤ 57

def Sign (taken : List UInt8) : Prop := taken = [] ∨ taken = [43] ∨ taken = [45]

def Whole (taken : List UInt8) : Prop := taken = [48] ∨ Digits taken ∧ taken.head? ≠ some 48

def Fraction (taken : List UInt8) : Prop := taken = [] ∨ ∃ digits, Digits digits ∧ taken = 46 :: digits

def Exponent (taken : List UInt8) : Prop :=
  taken = [] ∨ ∃ mark sign digits, (mark = 101 ∨ mark = 69) ∧ Sign sign ∧ Digits digits ∧
    taken = mark :: (sign ++ digits)

inductive Numeral : List UInt8 → Prop where
  | mk {sign whole fraction exponent} : sign = [] ∨ sign = [45] → Whole whole →
      Fraction fraction → Exponent exponent → Numeral (sign ++ (whole ++ (fraction ++ exponent)))

/-! ## Values -/

/-- What a sequence of bytes stands for: a value, the items of an array or the fields
of an object. -/
inductive Part where
  | value (value : Value)
  | items (items : List Value)
  | fields (fields : List (String × Value))

inductive Derives : Nat → List UInt8 → Part → Prop where
  | null {room} : Derives room (bytes "null") (.value .null)
  | true {room} : Derives room (bytes "true") (.value (.boolean true))
  | false {room} : Derives room (bytes "false") (.value (.boolean false))
  | number {room raw} : Numeral (bytes raw) → Derives room (bytes raw) (.value (.number raw))
  | string {room token text} : Quoted token text → Derives room token (.value (.string text))
  | emptyArray {room before} : Spaces before →
      Derives (room + 1) (91 :: (before ++ [93])) (.value (.array []))
  | array {room inner items} : Derives room inner (.items items) →
      Derives (room + 1) (91 :: (inner ++ [93])) (.value (.array items))
  | emptyObject {room before} : Spaces before →
      Derives (room + 1) (123 :: (before ++ [125])) (.value (.object []))
  | object {room inner fields} : Derives room inner (.fields fields) →
      (fields.map Prod.fst).Nodup →
      Derives (room + 1) (123 :: (inner ++ [125])) (.value (.object fields))
  | item {room before written after value} : Spaces before → Derives room written (.value value) →
      Spaces after → Derives room (before ++ (written ++ after)) (.items [value])
  | items {room before written after inner value items} : Spaces before →
      Derives room written (.value value) → Spaces after → Derives room inner (.items items) →
      Derives room (before ++ (written ++ (after ++ 44 :: inner))) (.items (value :: items))
  | field {room before token key between before' written after value} : Spaces before →
      Quoted token key → Spaces between → Spaces before' → Derives room written (.value value) →
      Spaces after →
      Derives room (before ++ (token ++ (between ++ 58 :: (before' ++ (written ++ after)))))
        (.fields [(key, value)])
  | fields {room before token key between before' written after inner value fields} :
      Spaces before → Quoted token key → Spaces between → Spaces before' →
      Derives room written (.value value) → Spaces after → Derives room inner (.fields fields) →
      Derives room
        (before ++ (token ++ (between ++ 58 :: (before' ++ (written ++ (after ++ 44 :: inner))))))
        (.fields ((key, value) :: fields))

/-- How deep containers may stand in each other. -/
def depthLimit : Nat := 64

/-- A whole text. -/
def Document (written : List UInt8) (value : Value) : Prop :=
  ∃ before inner after, written = before ++ (inner ++ after) ∧ Spaces before ∧
    Derives depthLimit inner (.value value) ∧ Spaces after

/-! ## The tables of the parser -/

theorem mem_spaces {byte : UInt8} : byte ∈ [32, 9, 10, 13] ↔ space byte = true := by
  simp [space, or_assoc]

theorem mem_digits {byte : UInt8} : 48 ≤ byte ∧ byte ≤ 57 ↔ digit byte = true := by
  simp [digit, UInt8.le_iff_toNat_le]

theorem Spaces.all {taken : List UInt8} (h : Spaces taken) : ∀ byte ∈ taken, space byte = true :=
  fun byte hbyte => mem_spaces.mp (h byte hbyte)

theorem Digits.all {taken : List UInt8} (h : Digits taken) : ∀ byte ∈ taken, digit byte = true :=
  fun byte hbyte => mem_digits.mp (h.2 byte hbyte)

theorem hexadecimal_eq (byte : UInt8) : hexadecimal byte = hex byte := by
  have hall : ∀ code < 256, hexadecimal (.ofNat code) = hex (.ofNat code) := by
    set_option maxRecDepth 8000 in decide
  have hbyte := hall byte.toNat byte.toNat_lt
  rwa [UInt8.ofNat_toNat] at hbyte

theorem lookup_escapes (escaped : UInt8) : escapes.lookup escaped = simpleEscape escaped := by
  have hall : ∀ code < 256, escapes.lookup (.ofNat code) = simpleEscape (.ofNat code) := by
    set_option maxRecDepth 8000 in decide
  have hbyte := hall escaped.toNat escaped.toNat_lt
  rwa [UInt8.ofNat_toNat] at hbyte

/-! ## Places -/

/-- The bytes between two places. -/
structure Reads (start : Place) (taken : List UInt8) (stop : Place) : Prop where
  rest : start.rest = taken ++ stop.rest
  offset : stop.offset = start.offset + taken.length

section
variable {start middle stop : Place} {taken more : List UInt8}

theorem Reads.refl (start : Place) : Reads start [] start := ⟨rfl, rfl⟩

theorem Reads.trans (h : Reads start taken middle) (h' : Reads middle more stop) :
    Reads start (taken ++ more) stop := by
  refine ⟨?_, ?_⟩
  · rw [h.rest, h'.rest, List.append_assoc]
  · rw [h'.offset, h.offset, List.length_append, Nat.add_assoc]

theorem skip_cons (offset : Nat) (byte : UInt8) (rest : List UInt8) :
    Place.skip ⟨offset, byte :: rest⟩ 1 = ⟨offset + 1, rest⟩ :=
  rfl

theorem reads_skip (start : Place) {byte : UInt8} (h : start.rest.head? = some byte) :
    Reads start [byte] (start.skip 1) := by
  obtain ⟨offset, rest⟩ := start
  cases rest with
  | nil => cases h
  | cons first rest =>
    obtain rfl : first = byte := by simpa using h
    exact ⟨rfl, rfl⟩

/-- What is read is known from the places. -/
theorem Reads.take_eq (h : Reads start taken stop) :
    start.rest.take (stop.offset - start.offset) = taken := by
  rw [h.rest, h.offset, Nat.add_sub_cancel_left, List.take_left]

end

/-- The first byte, if there is one, is none of a kind. -/
def Stops (kind : UInt8 → Bool) (rest : List UInt8) : Prop := ∀ byte ∈ rest.head?, kind byte = false

theorem stops_nil (kind : UInt8 → Bool) : Stops kind [] := nofun

variable {rest : List UInt8} {kind : UInt8 → Bool}

theorem stops_cons {byte : UInt8} : Stops kind (byte :: rest) ↔ kind byte = false := by
  simp [Stops]

theorem Stops.imp {kind' : UInt8 → Bool} (h : Stops kind rest)
    (himp : ∀ byte, kind' byte = true → kind byte = true) : Stops kind' rest := by
  intro byte hbyte
  have hkind := h byte hbyte
  cases hcase : kind' byte with
  | false => rfl
  | true => exact absurd (himp byte hcase) (by simp [hkind])

theorem Stops.head_ne (h : Stops kind rest) {byte : UInt8} (hbyte : kind byte = true) :
    rest.head? ≠ some byte := by
  intro hhead; exact absurd (h byte hhead) (by simp [hbyte])

/-! ## Spaces -/

section
variable {before rest : List UInt8}

theorem spaces_nil : Spaces [] := nofun

theorem spaces_append {before after : List UInt8} :
    Spaces (before ++ after) ↔ Spaces before ∧ Spaces after := by
  simp [Spaces, or_imp, forall_and]

theorem whitespace_append (h : Spaces before) (hstops : Stops space rest) (offset : Nat) :
    whitespace ⟨offset, before ++ rest⟩ = ⟨offset + before.length, rest⟩ := by
  show whitespaceFrom offset (before ++ rest) = _
  induction before generalizing offset with
  | nil =>
    cases rest with
    | nil => rfl
    | cons byte rest =>
      have hbyte := stops_cons.mp hstops
      simp [whitespaceFrom, hbyte]
  | cons byte before ih =>
    have hbyte : space byte = true := h.all byte (.head _)
    rw [List.cons_append, whitespaceFrom, if_pos hbyte,
      ih (fun other hother => h other (.tail _ hother)), List.length_cons]
    congr 1
    omega

theorem whitespace_sound (start : Place) :
    ∃ before, Spaces before ∧ Reads start before (whitespace start) ∧
      Stops space (whitespace start).rest := by
  obtain ⟨offset, rest⟩ := start
  show ∃ before, Spaces before ∧ Reads ⟨offset, rest⟩ before (whitespaceFrom offset rest) ∧
    Stops space (whitespaceFrom offset rest).rest
  induction rest generalizing offset with
  | nil => exact ⟨[], spaces_nil, .refl _, stops_nil _⟩
  | cons byte rest ih =>
    rw [whitespaceFrom]
    by_cases hbyte : space byte = true
    · rw [if_pos hbyte]
      obtain ⟨before, hbefore, hreads, hstops⟩ := ih (offset + 1)
      refine ⟨byte :: before, ?_, ?_, hstops⟩
      · intro other hother
        obtain hsame | hmem := List.mem_cons.mp hother
        · rw [hsame]; exact mem_spaces.mpr hbyte
        · exact hbefore other hmem
      · exact (reads_skip ⟨offset, byte :: rest⟩ rfl).trans hreads
    · rw [if_neg hbyte]
      exact ⟨[], spaces_nil, .refl _, stops_cons.mpr (by simpa using hbyte)⟩

theorem whitespace_idem (start : Place) : whitespace (whitespace start) = whitespace start := by
  obtain ⟨_, _, _, hstops⟩ := whitespace_sound start
  exact whitespace_append spaces_nil hstops (whitespace start).offset

end

end Loom.Json

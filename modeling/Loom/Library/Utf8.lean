import Mathlib.Algebra.Order.Ring.Int
import Mathlib.Data.List.Basic
import Mathlib.Tactic.Common

/-
  Text as the bytes of its UTF-8 encoding.
-/

namespace Loom.Utf8

open List String UInt8

def bytes (text : String) : List UInt8 := text.toByteArray.data.toList

/-- Strict decoding. -/
def decode (encoded : List UInt8) : Option String := fromUTF8? ⟨encoded.toArray⟩

/-- The encoding of some characters. -/
def Valid (encoded : List UInt8) : Prop := ∃ text, bytes text = encoded

theorem bytes_ofList (chars : List Char) :
    bytes (ofList chars) = chars.flatMap utf8EncodeChar := by
  simp [bytes, utf8Encode]

theorem bytes_injective {text other : String} (h : bytes text = bytes other) : text = other := by
  apply String.toByteArray_inj.mp
  apply ByteArray.ext
  exact Array.toList_inj.mp h

theorem bytes_append (text other : String) : bytes (text ++ other) = bytes text ++ bytes other := by
  simp [bytes]

@[simp] theorem bytes_empty : bytes "" = [] := rfl

theorem valid_bytes (text : String) : Valid (bytes text) := ⟨text, rfl⟩

variable {encoded : List UInt8} {byte : UInt8}

theorem valid_iff :
    Valid encoded ↔ ∃ chars : List Char, encoded = chars.flatMap utf8EncodeChar := by
  constructor
  · intro h
    obtain ⟨text, htext⟩ := h
    refine ⟨text.toList, ?_⟩
    rw [← htext, ← bytes_ofList, ofList_toList]
  · intro h
    obtain ⟨chars, hchars⟩ := h
    exact ⟨ofList chars, by rw [bytes_ofList, hchars]⟩

theorem isValidUTF8_iff : (ByteArray.mk encoded.toArray).IsValidUTF8 ↔ Valid encoded := by
  constructor
  · intro h; exact ⟨fromUTF8 _ h, rfl⟩
  · intro h
    obtain ⟨text, htext⟩ := h
    rw [← htext]; exact text.isValidUTF8

theorem decode_eq_some {text : String} : decode encoded = some text ↔ bytes text = encoded := by
  unfold decode fromUTF8?
  by_cases h : (ByteArray.mk encoded.toArray).IsValidUTF8
  · rw [dif_pos h, Option.some.injEq]
    constructor
    · intro hsame
      rw [← hsame]; rfl
    · intro hsame
      apply bytes_injective
      rw [hsame]; rfl
  · rw [dif_neg h]
    refine iff_of_false nofun ?_
    intro hsame; exact h (isValidUTF8_iff.mpr ⟨text, hsame⟩)

@[simp] theorem decode_bytes (text : String) : decode (bytes text) = some text :=
  decode_eq_some.mpr rfl

theorem exists_decode (h : Valid encoded) :
    ∃ text, decode encoded = some text ∧ bytes text = encoded := by
  obtain ⟨text, htext⟩ := h
  exact ⟨text, decode_eq_some.mpr htext, htext⟩

/-! ## Joining and cutting -/

theorem valid_nil : Valid [] := ⟨"", rfl⟩

theorem valid_char (char : Char) : Valid (utf8EncodeChar char) :=
  valid_iff.mpr ⟨[char], by simp⟩

theorem Valid.append {front back : List UInt8} (hfront : Valid front) (hback : Valid back) :
    Valid (front ++ back) := by
  obtain ⟨text, htext⟩ := hfront
  obtain ⟨other, hother⟩ := hback
  exact ⟨text ++ other, by rw [bytes_append, htext, hother]⟩

/-- An ASCII byte encodes a character. -/
theorem encode_ascii (h : byte < 128) : utf8EncodeChar (Char.ofNat byte.toNat) = [byte] := by
  have hall : ∀ code < 128, utf8EncodeChar (Char.ofNat code) = [ofNat code] := by
    decide
  have hbyte := hall byte.toNat (lt_iff_toNat_lt.mp h)
  rw [hbyte, UInt8.ofNat_toNat]

theorem valid_ascii (h : byte < 128) : Valid [byte] := encode_ascii h ▸ valid_char _

theorem Valid.cons {byte : UInt8} {rest : List UInt8} (hbyte : byte < 128) (h : Valid rest) :
    Valid (byte :: rest) := (valid_ascii hbyte).append h

/-- An ASCII byte is never inside the encoding of a character. -/
theorem ascii_first (h : byte < 128) : byte.IsUTF8FirstByte := by
  have hall : ∀ code < 128, (ofNat code).IsUTF8FirstByte := by decide
  have hbyte := hall byte.toNat (lt_iff_toNat_lt.mp h)
  rw [UInt8.ofNat_toNat] at hbyte; exact hbyte

/-- What is cut in front of an ASCII byte is cut between characters. -/
theorem Valid.split {front back : List UInt8} (h : Valid (front ++ back))
    (hback : ∀ byte ∈ back.head?, byte < 128) : Valid front ∧ Valid back := by
  obtain ⟨chars, hchars⟩ := valid_iff.mp h
  clear h
  induction chars generalizing front with
  | nil =>
    rw [flatMap_nil, append_eq_nil_iff] at hchars
    rw [hchars.1, hchars.2]; exact ⟨valid_nil, valid_nil⟩
  | cons char chars ih =>
    rw [flatMap_cons] at hchars
    obtain ⟨middle, hfront, hrest⟩ | ⟨middle, hfront, hrest⟩ := append_eq_append_iff.mp hchars
    · -- the cut is in the encoding of the first character, so at its start
      cases front with
      | nil =>
        refine ⟨valid_nil, valid_iff.mpr ⟨char :: chars, ?_⟩⟩
        simpa using hchars
      | cons byte front =>
        cases middle with
        | nil =>
          rw [append_nil] at hfront
          rw [← hfront, hrest]
          exact ⟨valid_char char, valid_iff.mpr ⟨chars, by simp⟩⟩
        | cons first middle =>
          have hfirst : first < 128 := hback first (by rw [hrest]; simp)
          have hlength : (byte :: front).length < (utf8EncodeChar char).length := by
            rw [hfront]; simp
          have hinside : (utf8EncodeChar char)[(byte :: front).length] = first := by
            simp only [hfront]; simp
          have hzero := isUTF8FirstByte_getElem_utf8EncodeChar.mp
            (hinside ▸ ascii_first hfirst)
          simp at hzero
    · obtain ⟨hmiddle, hvalid⟩ := ih hrest.symm
      rw [hfront]; exact ⟨(valid_char char).append hmiddle, hvalid⟩

/-- A character whose encoding starts with an ASCII byte has no other byte. -/
theorem encode_of_ascii {char : Char} {rest : List UInt8}
    (h : utf8EncodeChar char = byte :: rest) (hbyte : byte < 128) : rest = [] := by
  have hless : byte.toNat < 128 := lt_iff_toNat_lt.mp hbyte
  unfold utf8EncodeChar at h
  dsimp only at h
  split at h
  · exact (cons.inj h).2.symm
  split at h
  · rw [← (cons.inj h).1, toNat_ofNat'] at hless; omega
  split at h
  · rw [← (cons.inj h).1, toNat_ofNat'] at hless; omega
  · rw [← (cons.inj h).1, toNat_ofNat'] at hless; omega

/-- What is cut behind an ASCII byte is cut between characters. -/
theorem Valid.tail {byte : UInt8} {back : List UInt8} (h : Valid (byte :: back))
    (hbyte : byte < 128) : Valid back := by
  obtain ⟨chars, hchars⟩ := valid_iff.mp h
  cases chars with
  | nil => simp at hchars
  | cons char chars =>
    rw [flatMap_cons] at hchars
    cases hencode : utf8EncodeChar char with
    | nil => exact absurd hencode (utf8EncodeChar_ne_nil)
    | cons first rest =>
      rw [hencode, cons_append, cons.injEq] at hchars
      obtain ⟨rfl, hback⟩ := hchars
      rw [encode_of_ascii hencode hbyte] at hback
      exact valid_iff.mpr ⟨chars, hback⟩

theorem Valid.drop {front back : List UInt8} (h : Valid (front ++ back))
    (hfront : ∀ byte ∈ front, byte < 128) : Valid back := by
  induction front with
  | nil => exact h
  | cons byte front ih =>
    exact ih (h.tail (hfront byte (.head _))) fun other hother => hfront other (.tail _ hother)

theorem valid_of_ascii (h : ∀ byte ∈ encoded, byte < 128) : Valid encoded := by
  induction encoded with
  | nil => exact valid_nil
  | cons byte rest ih =>
    have hbyte := valid_ascii (h byte (.head _))
    exact hbyte.append (ih fun other hother => h other (.tail _ hother))

end Loom.Utf8

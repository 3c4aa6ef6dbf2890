import Loom.Library.Decimal
import Loom.Library.SecureHash
import Loom.Library.Utf8

/-
  Texts of numbers: decimal numerals and lower-case hexadecimal digests.
-/

namespace Loom.Numerals

open Utf8 List Decimal UInt8

/-! ## ASCII texts -/

theorem bytes_ascii {chars : List Char} (h : ∀ char ∈ chars, char.toNat < 128) :
    bytes (String.ofList chars) = chars.map fun char => ofNat char.toNat := by
  rw [bytes_ofList]
  induction chars with
  | nil => rfl
  | cons char chars ih =>
    have hchar := h char (.head _)
    have hsmall : (ofNat char.toNat).toNat = char.toNat := by
      rw [toNat_ofNat', Nat.mod_eq_of_lt (by omega)]
    have hascii : ofNat char.toNat < 128 := by
      rw [lt_iff_toNat_lt, hsmall]; exact hchar
    have hone := encode_ascii hascii
    rw [hsmall, Char.ofNat_toNat] at hone
    rw [flatMap_cons, hone, ih fun other hother => h other (.tail _ hother)]
    rfl

/-! ## Decimal numerals -/

def numeral (value : Int) : String := String.ofList ((toText value).map Char.ofNat)

variable {value : Int}

theorem toText_lt {byte : Nat} (h : byte ∈ toText value) : byte < 128 := by
  have := mem_toText h
  omega

theorem toNat_ofNat_ascii {code : Nat} (h : code < 128) : (Char.ofNat code).toNat = code := by
  have hall : ∀ code < 128, (Char.ofNat code).toNat = code := by decide
  exact hall code h

theorem bytes_numeral (value : Int) :
    bytes (numeral value) = (toText value).map ofNat := by
  have hascii : ∀ char ∈ (toText value).map Char.ofNat, char.toNat < 128 := by
    intro char hchar
    obtain ⟨code, hcode, rfl⟩ := mem_map.mp hchar
    rw [toNat_ofNat_ascii (toText_lt hcode)]; exact toText_lt hcode
  rw [numeral, bytes_ascii hascii, map_map]
  apply map_congr_left
  intro code hcode
  show ofNat (Char.ofNat code).toNat = ofNat code
  rw [toNat_ofNat_ascii (toText_lt hcode)]

theorem codes_numeral (value : Int) :
    (bytes (numeral value)).map toNat = toText value := by
  rw [bytes_numeral, map_map]
  calc (toText value).map (toNat ∘ ofNat) = (toText value).map id := by
        apply map_congr_left
        intro code hcode
        show (ofNat code).toNat = code
        rw [toNat_ofNat', Nat.mod_eq_of_lt (by have := toText_lt hcode; omega)]
    _ = toText value := map_id _

/-- A numeral has digits and a minus sign, so no line ends in it. -/
theorem mem_numeral {byte : UInt8} (h : byte ∈ bytes (numeral value)) : byte ≠ 10 ∧ byte < 128 := by
  rw [bytes_numeral] at h
  obtain ⟨code, hcode, rfl⟩ := mem_map.mp h
  have hbounds := mem_toText hcode
  have hall : ∀ code < 58, 45 ≤ code → ofNat code ≠ 10 ∧ ofNat code < 128 := by
    decide
  exact hall code (by omega) (by omega)

theorem parse_numeral (hlow : -2 ^ 63 ≤ value) (hhigh : value < 2 ^ 63) :
    parse ((bytes (numeral value)).map toNat) = .ok value := by
  rw [codes_numeral]; exact parse_toText hlow hhigh

theorem digitsOf_injective {m n : Nat} (h : digitsOf m = digitsOf n) : m = n := by
  have hdigits : (Nat.digits 10 m).reverse = (Nat.digits 10 n).reverse :=
    map_injective_iff.mpr (fun _ _ hsame => Nat.add_left_cancel hsame) h
  calc m = continued 0 (Nat.digits 10 m).reverse := (continued_digits m).symm
    _ = continued 0 (Nat.digits 10 n).reverse := by rw [hdigits]
    _ = n := continued_digits n

/-- What the text of a number says: its sign, and its digits. -/
theorem toText_cases (value : Int) : value = 0 ∧ toText value = [48] ∨
      value < 0 ∧ toText value = 45 :: digitsOf value.natAbs ∨
      0 < value ∧ toText value = digitsOf value.natAbs := by
  unfold toText
  obtain hneg | rfl | hpos := Int.lt_trichotomy value 0
  · exact .inr (.inl ⟨hneg, by rw [if_neg (by omega), if_pos hneg]⟩)
  · exact .inl ⟨rfl, rfl⟩
  · exact .inr (.inr ⟨hpos, by rw [if_neg (by omega), if_neg (by omega)]⟩)

theorem digitsOf_ne_zero {n : Nat} (h : n ≠ 0) : digitsOf n ≠ [48] := by
  intro hzero
  obtain ⟨digit, hdigit, hcode⟩ := map_eq_singleton_iff.mp hzero
  have hvalue := continued_digits n
  rw [hdigit] at hvalue
  simp only [continued, foldl_cons, foldl_nil] at hvalue; omega

theorem sign_not_mem_digitsOf (n : Nat) : 45 ∉ digitsOf n := by
  intro h
  have := mem_digitsOf h
  omega

theorem toText_injective {other : Int} (h : toText value = toText other) :
    value = other := by
  obtain ⟨hv, htext⟩ | ⟨hv, htext⟩ | ⟨hv, htext⟩ := toText_cases value <;>
    obtain ⟨ho, hother⟩ | ⟨ho, hother⟩ | ⟨ho, hother⟩ := toText_cases other <;>
    rw [htext, hother] at h
  · omega
  · exact absurd (cons.inj h).1 (by decide)
  · exact absurd h.symm (digitsOf_ne_zero (by omega))
  · exact absurd (cons.inj h).1 (by decide)
  · have := digitsOf_injective (cons.inj h).2
    omega
  · exact absurd (h ▸ mem_cons_self) (sign_not_mem_digitsOf _)
  · exact absurd h (digitsOf_ne_zero (by omega))
  · exact absurd (h.symm ▸ mem_cons_self) (sign_not_mem_digitsOf _)
  · have := digitsOf_injective h
    omega

theorem numeral_injective {other : Int} (h : bytes (numeral value) = bytes (numeral other)) :
    value = other := by
  apply toText_injective
  rw [← codes_numeral value, h, codes_numeral]

/-! ## Hexadecimal digests -/

def hexDigit (value : Nat) : Char :=
  ['0', '1', '2', '3', '4', '5', '6', '7', '8', '9', 'a', 'b', 'c', 'd', 'e', 'f'].getD value '0'

/-- Two digits for each byte, the high one first. -/
def hex (value : List UInt8) : String :=
  String.ofList (value.flatMap fun byte => [hexDigit (byte.toNat / 16), hexDigit (byte.toNat % 16)])

theorem hexDigit_ascii {value : Nat} (h : value < 16) : (hexDigit value).toNat < 128 := by
  have hall : ∀ value < 16, (hexDigit value).toNat < 128 := by decide
  exact hall value h

theorem length_hex (value : List UInt8) : (bytes (hex value)).length = 2 * value.length := by
  have hascii : ∀ char ∈ value.flatMap
      fun byte => [hexDigit (byte.toNat / 16), hexDigit (byte.toNat % 16)], char.toNat < 128 := by
    intro char hchar
    obtain ⟨byte, -, hdigit⟩ := mem_flatMap.mp hchar
    have hbyte := byte.toNat_lt
    obtain rfl | rfl : char = hexDigit (byte.toNat / 16) ∨ char = hexDigit (byte.toNat % 16) := by
      simpa using hdigit
    · exact hexDigit_ascii (by omega)
    · exact hexDigit_ascii (by omega)
  rw [hex, bytes_ascii hascii, length_map, length_flatMap]
  simp only [length_cons, length_nil, map_const', sum_replicate_nat]; omega

/-- A digest has 32 bytes. -/
theorem length_sha256 (message : List UInt8) : (SecureHash.sha256 message).length = 32 := by
  unfold SecureHash.sha256 SecureHash.Hash.toBytes
  simp [SecureHash.bigEndian_length]

end Loom.Numerals

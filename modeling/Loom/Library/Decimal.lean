import Loom.Library.Machine
import Mathlib.Data.Nat.Digits.Lemmas
import Mathlib.Data.List.Basic
import Mathlib.Tactic.Common

/-
  Decimal text of 64-bit integers.

  A text is the list of its bytes. `toText` writes an integer in decimal with a
  minus sign where it is negative; `parse` reads it back, accumulating
  negatively so that the least integer has a place, and refuses what is out of
  range before it would overflow.
-/

namespace Loom.Decimal

open List Nat

abbrev Text := List Nat

/-- The digits of a positive number, the leading one first. -/
def digitsOf (n : Nat) : Text := (digits 10 n).reverse.map (48 + ·)

def toText (value : Int) : Text :=
  if value = 0 then [48]
  else if value < 0 then 45 :: digitsOf value.natAbs
  else digitsOf value.natAbs

inductive ParseError where
  | invalid
  | outOfRange
  deriving DecidableEq

/-- The loop over the digits; `limit` is the least value it may reach. -/
def accumulate (limit : Int) : Int → Text → Except ParseError Int
  | number, [] => .ok number
  | number, current :: rest =>
    if current < 48 ∨ current > 57 then .error .invalid
    else
      let digit : Int := current - 48
      if number < limit.tdiv 10 then .error .outOfRange
      else if number * 10 < limit + digit then .error .outOfRange
      else accumulate limit (number * 10 - digit) rest

/-- An optional sign and at least one digit. -/
def parse (value : Text) : Except ParseError Int :=
  match value with
  | [] => .error .invalid
  | first :: rest =>
    let digits := if first = 45 ∨ first = 43 then rest else value
    if digits = [] then .error .invalid
    else if first = 45 then accumulate (-2 ^ 63) 0 digits
    else
      match accumulate (-(2 ^ 63 - 1)) 0 digits with
      | .ok number => .ok (-number)
      | .error error => .error error

/-- The number some digits continue, the leading one first. -/
def continued (start : Nat) (digits : List Nat) : Nat :=
  digits.foldl (fun number digit => 10 * number + digit) start

theorem continued_cons (start digit : Nat) (rest : List Nat) :
    continued start (digit :: rest) = continued (10 * start + digit) rest := rfl

theorem le_continued (start : Nat) (digits : List Nat) : start ≤ continued start digits := by
  induction digits generalizing start with
  | nil => exact le_refl _
  | cons digit rest ih =>
    calc start ≤ 10 * start + digit := by omega
      _ ≤ continued start (digit :: rest) := ih _

theorem continued_digits (n : Nat) : continued 0 (digits 10 n).reverse = n := by
  rw [continued, foldl_reverse]
  calc (digits 10 n).foldr (fun digit number => 10 * number + digit) 0
      = ofDigits 10 (digits 10 n) := by
        rw [ofDigits_eq_foldr]; simp [add_comm]
    _ = n := ofDigits_digits 10 n

def Digits (text : Text) : Prop := ∀ byte ∈ text, 48 ≤ byte ∧ byte ≤ 57

/-- The number the digits of a text continue. -/
def written (start : Nat) (text : Text) : Nat := continued start (text.map (· - 48))

/-- Already the digits in front are above the limit. -/
def Exceeds (limit start : Nat) (text : Text) : Prop :=
  ∃ shown, shown <+: text ∧ Digits shown ∧ limit < written start shown

variable {limit start byte : Nat} {text : Text}

theorem written_cons : written start (byte :: text) = written (10 * start + (byte - 48)) text :=
  continued_cons start (byte - 48) _

theorem le_written : start ≤ written start text := le_continued start _

theorem digits_cons : Digits (byte :: text) ↔ (48 ≤ byte ∧ byte ≤ 57) ∧ Digits text :=
  forall_mem_cons

theorem exceeds_cons (hstart : start ≤ limit) : Exceeds limit start (byte :: text) ↔
    (48 ≤ byte ∧ byte ≤ 57) ∧ Exceeds limit (10 * start + (byte - 48)) text := by
  constructor
  · rintro ⟨shown, hfront, hdigits, hlimit⟩
    obtain rfl | ⟨behind, rfl, hrest⟩ := prefix_cons_iff.mp hfront
    · exact absurd hlimit (not_lt.mpr hstart)
    · exact ⟨(digits_cons.mp hdigits).1, behind, hrest, (digits_cons.mp hdigits).2, hlimit⟩
  · rintro ⟨hbyte, shown, hfront, hdigits, hlimit⟩
    exact ⟨byte :: shown, (prefix_cons_inj byte).mpr hfront, digits_cons.mpr ⟨hbyte, hdigits⟩,
      hlimit⟩

/-- The loop reads digits as far as the number stays within its limit. -/
theorem accumulate_spec (hstart : start ≤ limit) :
    (∀ value, accumulate (-limit) (-start) text = .ok value ↔
      Digits text ∧ written start text ≤ limit ∧ value = -(written start text : Int)) ∧
    (accumulate (-limit) (-start) text = .error .outOfRange ↔ Exceeds limit start text) := by
  induction text generalizing start with
  | nil =>
    have hexceeds : ¬Exceeds limit start [] := by
      rintro ⟨shown, hfront, -, hlimit⟩
      rw [prefix_nil.mp hfront] at hlimit
      exact not_lt.mpr hstart hlimit
    refine ⟨fun value => ?_, by simp [accumulate, hexceeds]⟩
    simpa [accumulate, Digits, written, continued, hstart] using eq_comm
  | cons byte text ih =>
    rw [exceeds_cons hstart]
    simp only [digits_cons, written_cons]
    have htenth : (-(limit : Int)).tdiv 10 = -((limit / 10 : Nat) : Int) :=
      Machine.neg_tdiv_natCast limit 10
    by_cases hbyte : 48 ≤ byte ∧ byte ≤ 57
    · by_cases hroom : 10 * start + (byte - 48) ≤ limit
      · have hshifted : (-(start : Int)) * 10 - (byte - 48) =
            -((10 * start + (byte - 48) : Nat) : Int) := by omega
        have hread : accumulate (-limit) (-start) (byte :: text) =
            accumulate (-limit) (-((10 * start + (byte - 48) : Nat) : Int)) text := by
          rw [accumulate, if_neg (by omega), if_neg (by omega), if_neg (by omega), hshifted]
        simpa [hread, hbyte] using ih hroom
      · have hover : limit < 10 * start + (byte - 48) := Nat.lt_of_not_le hroom
        have hread : accumulate (-limit) (-start) (byte :: text) = .error .outOfRange := by
          rw [accumulate, if_neg (by omega)]
          dsimp only
          split
          · rfl
          · rw [if_pos (by omega)]
        have hgrows := @le_written (10 * start + (byte - 48)) text
        refine ⟨fun value => ?_, ?_⟩
        · rw [hread]
          constructor
          · exact nofun
          · rintro ⟨-, hle, -⟩
            omega
        · exact ⟨fun _ => ⟨hbyte, [], nil_prefix, nofun, hover⟩, fun _ => hread⟩
    · have hread : accumulate (-limit) (-start) (byte :: text) = .error .invalid := by
        rw [accumulate, if_pos (by omega)]
      simp [hread, hbyte]

theorem digits_reverse_lt (n : Nat) : ∀ digit ∈ (digits 10 n).reverse, digit < 10 := by
  intro digit hdigit
  exact digits_lt_base (by omega) (mem_reverse.mp hdigit)

variable {n : Nat}

theorem mem_digitsOf {byte : Nat} (h : byte ∈ digitsOf n) : 48 ≤ byte ∧ byte ≤ 57 := by
  obtain ⟨digit, hdigit, hbyte⟩ := mem_map.mp h
  have := digits_reverse_lt n digit hdigit
  omega

theorem digitsOf_ne_nil (h : n ≠ 0) : digitsOf n ≠ [] := by
  simpa [digitsOf, digits_ne_nil_iff_ne_zero] using h

/-- Every byte of a written integer is a digit or a minus sign. -/
theorem mem_toText {value : Int} {byte : Nat} (h : byte ∈ toText value) :
    byte = 45 ∨ 48 ≤ byte ∧ byte ≤ 57 := by
  unfold toText at h
  split at h
  · rw [mem_singleton] at h; omega
  · split at h
    · obtain hsign | hdigit := mem_cons.mp h
      · exact .inl hsign
      · exact .inr (mem_digitsOf hdigit)
    · exact .inr (mem_digitsOf h)

theorem toText_ne_nil (value : Int) : toText value ≠ [] := by
  unfold toText
  split
  · simp
  · split
    · simp
    · exact digitsOf_ne_nil (by omega)

/-! ## What is read -/

/-- What stands behind the sign. -/
def unsigned (text : Text) : Text :=
  if text.head? = some 45 ∨ text.head? = some 43 then text.tail else text

def signed (text : Text) (number : Nat) : Int :=
  if text.head? = some 45 then -number else number

/-- The largest number that has a place under the sign of a text. -/
def largest (text : Text) : Nat := if text.head? = some 45 then 2 ^ 63 else 2 ^ 63 - 1

theorem fits_signed : Machine.Fits (signed text n) ↔ n ≤ largest text := by
  unfold Machine.Fits signed largest
  split <;> omega

theorem parse_unsigned (text : Text) : Decimal.parse text =
    if unsigned text = [] then .error .invalid
    else (accumulate (-(largest text : Int)) 0 (unsigned text)).map fun number =>
      if text.head? = some 45 then number else -number := by
  cases text with
  | nil => rfl
  | cons first rest =>
    by_cases hminus : first = 45
    · have hlargest : -(largest (first :: rest) : Int) = -2 ^ 63 := by simp [largest, hminus]
      rw [hlargest]
      simp only [Decimal.parse, unsigned, hminus, head?_cons, tail_cons, true_or, if_true,
        Except.map]
      cases accumulate (-2 ^ 63) 0 rest <;> rfl
    · have hlargest : -(largest (first :: rest) : Int) = -(2 ^ 63 - 1) := by simp [largest, hminus]
      rw [hlargest]
      simp only [Decimal.parse, unsigned, hminus, head?_cons, tail_cons, false_or, if_false,
        Option.some.injEq, Except.map]
      cases accumulate (-(2 ^ 63 - 1)) 0 (if first = 43 then rest else first :: rest) <;> rfl

theorem map_eq_ok {f : Int → Int} {answer : Except ParseError Int} {number : Int} :
    answer.map f = .ok number ↔ ∃ value, answer = .ok value ∧ f value = number := by
  cases answer <;> simp [Except.map]

theorem map_eq_error {f : Int → Int} {answer : Except ParseError Int} {error : ParseError} :
    answer.map f = .error error ↔ answer = .error error := by
  cases answer <;> simp [Except.map]

/-- A text is read where its digits write a number that has a place under its sign. -/
theorem parse_eq_ok {number : Int} : parse text = .ok number ↔ unsigned text ≠ [] ∧
    Digits (unsigned text) ∧ written 0 (unsigned text) ≤ largest text ∧
    number = signed text (written 0 (unsigned text)) := by
  rw [parse_unsigned]
  split
  · next hnil => simp [hnil]
  · next hne =>
    have hok := (@accumulate_spec (largest text) 0 (unsigned text) (zero_le _)).1
    rw [map_eq_ok]
    constructor
    · rintro ⟨value, hvalue, rfl⟩
      obtain ⟨hdigits, hle, rfl⟩ := (hok value).mp hvalue
      exact ⟨hne, hdigits, hle, by simp [signed]⟩
    · rintro ⟨-, hdigits, hle, rfl⟩
      exact ⟨_, (hok _).mpr ⟨hdigits, hle, rfl⟩, by simp [signed]⟩

theorem parse_eq_outOfRange :
    parse text = .error .outOfRange ↔ Exceeds (largest text) 0 (unsigned text) := by
  have hout := (@accumulate_spec (largest text) 0 (unsigned text) (zero_le _)).2
  rw [parse_unsigned]
  split
  · next hnil =>
    rw [hnil] at hout ⊢
    simpa [accumulate] using hout
  · exact map_eq_error.trans hout

/-- Digits behind a minus sign where the number is negative. -/
theorem parse_digits {digits : List Nat} {value : Int} (hne : digits ≠ [])
    (hdigits : ∀ digit ∈ digits, digit < 10) (hvalue : continued 0 digits = value.natAbs)
    (hlow : -2 ^ 63 ≤ value) (hhigh : value < 2 ^ 63) :
    parse ((if value < 0 then [45] else []) ++ digits.map (48 + ·)) = .ok value := by
  have hwritten : written 0 (digits.map (48 + ·)) = value.natAbs := by
    simp [written, Function.comp_def, hvalue]
  have hbytes : Digits (digits.map (48 + ·)) := by
    intro byte hbyte
    obtain ⟨digit, hdigit, rfl⟩ := mem_map.mp hbyte
    have := hdigits digit hdigit
    omega
  have hmap : digits.map (48 + ·) ≠ [] := by simpa using hne
  rw [parse_eq_ok]
  split
  · have hunsigned : unsigned ([45] ++ digits.map (48 + ·)) = digits.map (48 + ·) := by
      simp [unsigned]
    rw [hunsigned, hwritten]
    have hlargest : largest ([45] ++ digits.map (48 + ·)) = 2 ^ 63 := rfl
    have hsigned : signed ([45] ++ digits.map (48 + ·)) value.natAbs = -value.natAbs := rfl
    exact ⟨hmap, hbytes, by omega, by omega⟩
  · have hhead : (digits.map (48 + ·)).head? ≠ some 45 ∧ (digits.map (48 + ·)).head? ≠ some 43 := by
      cases digits with
      | nil => exact absurd rfl hne
      | cons digit rest => simp only [map_cons, head?_cons, ne_eq, Option.some.injEq]; omega
    have hunsigned : unsigned (digits.map (48 + ·)) = digits.map (48 + ·) := by
      simp only [unsigned, hhead, or_self, if_false]
    rw [nil_append, hunsigned, hwritten]
    exact ⟨hmap, hbytes, by simp only [largest, hhead, if_false]; omega,
      by simp only [signed, hhead, if_false]; omega⟩

theorem parse_toText {value : Int} (hlow : -2 ^ 63 ≤ value) (hhigh : value < 2 ^ 63) :
    parse (toText value) = .ok value := by
  by_cases hzero : value = 0
  · rw [hzero]; decide
  · have hread := @parse_digits (digits 10 value.natAbs).reverse value
      (by simpa [digits_ne_nil_iff_ne_zero] using hzero)
      (digits_reverse_lt _) (continued_digits _) hlow hhigh
    rw [toText, if_neg hzero]
    split <;> simpa [*, digitsOf] using hread

end Loom.Decimal

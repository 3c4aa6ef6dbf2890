import Loom.Library.Decimal

/-
  Decimal texts of integers, with checked arithmetic: an overflow is `none`.

  The number is accumulated negatively, so that the least integer has a place. A text is
  out of range as soon as the digits read so far are, whatever stands behind them.

  Correspondence (int.loom ↔ Lean):
    `parse(value)`, `parse(value, start, end)` ↔ `parse`, `parseRange`
    the loop over the digits ↔ `parseFrom`, over the bytes that are left
    `digit`, `to_text`, its loop ↔ `digit`, `toText`, `digitsFrom`
-/

namespace Loom.Integers

open Machine Decimal List Nat

def parseFrom (limit multiple : Int) : Int → Text → Option (Except ParseError Int)
  | number, [] => some (.ok number)
  | number, current :: rest =>
    if current < 48 ∨ current > 57 then some (.error .invalid)
    else do
      let value ← sub current 48
      if number < multiple then some (.error .outOfRange)
      else
        let shifted ← mul number 10
        let least ← add limit value
        if shifted < least then some (.error .outOfRange)
        else
          let number ← sub shifted value
          parseFrom limit multiple number rest

def parseRange (value : Text) (start stop : Int) : Option (Except ParseError Int) :=
  if start < 0 ∨ stop > value.length ∨ start ≥ stop then some (.error .invalid)
  else do
    let first ← value[start.toNat]?
    let negative := first = 45
    let index ← add start (if negative ∨ first = 43 then 1 else 0)
    if index = stop then some (.error .invalid)
    else
      let limit := if negative then -9223372036854775808 else -9223372036854775807
      let multiple ← div limit 10
      match ← parseFrom limit multiple 0 ((value.drop index.toNat).take (stop - index).toNat) with
      | .error error => some (.error error)
      | .ok number =>
        if negative then some (.ok number)
        else do
          let number ← sub 0 number
          some (.ok number)

def parse (value : Text) : Option (Except ParseError Int) := parseRange value 0 value.length

def digit (value : Int) : Text :=
  if value = 0 then [48]
  else if value = 1 then [49]
  else if value = 2 then [50]
  else if value = 3 then [51]
  else if value = 4 then [52]
  else if value = 5 then [53]
  else if value = 6 then [54]
  else if value = 7 then [55]
  else if value = 8 then [56]
  else [57]

def digitsFrom : Nat → Int → Text → Option Text
  | 0, _, _ => none
  | bound + 1, remaining, digits =>
    if remaining < 0 then do
      let last ← rem remaining 10
      let last ← sub 0 last
      let remaining ← div remaining 10
      digitsFrom bound remaining (digit last ++ digits)
    else some digits

def toText (value : Int) : Option Text :=
  if value = 0 then some [48]
  else do
    let remaining ← if value > 0 then sub 0 value else some value
    let digits ← digitsFrom (remaining.natAbs + 1) remaining []
    some (if value < 0 then 45 :: digits else digits)

/-! ## Reading -/

variable {n limit start bound : Nat} {text : Text} {value : Int}

theorem parseFrom_eq (hlimit : limit ≤ 2 ^ 63) (hstart : start ≤ limit) :
    parseFrom (-limit) (-((limit / 10 : Nat) : Int)) (-start) text =
      some (accumulate (-limit) (-start) text) := by
  induction text generalizing start with
  | nil => rfl
  | cons byte text ih =>
    have htenth : (-(limit : Int)).tdiv 10 = -((limit / 10 : Nat) : Int) := neg_tdiv_natCast limit 10
    rw [parseFrom, accumulate, htenth]
    by_cases hbyte : byte < 48 ∨ byte > 57
    · rw [if_pos hbyte, if_pos hbyte]
    · rw [if_neg hbyte, if_neg hbyte, sub_eq ⟨by omega, by omega⟩, some_bind]
      by_cases hless : -(start : Int) < -((limit / 10 : Nat) : Int)
      · rw [if_pos hless, if_pos hless]
      · rw [if_neg hless, if_neg hless, mul_eq ⟨by omega, by omega⟩, some_bind,
          add_eq ⟨by omega, by omega⟩, some_bind]
        by_cases hshort : -(start : Int) * 10 < -(limit : Int) + ((byte : Int) - 48)
        · rw [if_pos hshort, if_pos hshort]
        · have hnext : -(start : Int) * 10 - (byte - 48) =
              -((10 * start + (byte - 48) : Nat) : Int) := by
            omega
          rw [if_neg hshort, if_neg hshort, sub_eq ⟨by omega, by omega⟩, some_bind, hnext]
          exact ih (by omega)

/-- The bytes of a range, none where it leaves the text. -/
def bytesOf (value : Text) (start stop : Int) : Text :=
  if start < 0 ∨ stop > value.length then []
  else (value.drop start.toNat).take (stop - start).toNat

theorem bytesOf_eq_nil {start stop : Int}
    (h : start < 0 ∨ stop > text.length ∨ start ≥ stop) : bytesOf text start stop = [] := by
  unfold bytesOf
  split
  · rfl
  · rw [show (stop - start).toNat = 0 by omega, take_zero]

theorem bytesOf_cut {low size : Nat} (h : low + size ≤ text.length) :
    bytesOf text low (low + size) = (text.drop low).take size := by
  rw [bytesOf, if_neg (by omega), Int.toNat_natCast,
    show ((low : Int) + size - low).toNat = size by omega]

/-- The sign is the bytes in front of the digits. -/
theorem sign_bytes (first : Nat) (rest : Text) : ∃ count : Nat, count ≤ 1 ∧
    (if first = 45 ∨ first = 43 then 1 else 0 : Int) = count ∧
    unsigned (first :: rest) = (first :: rest).drop count := by
  by_cases hsign : first = 45 ∨ first = 43
  · exact ⟨1, le_refl _, if_pos hsign, by simp [unsigned, hsign]⟩
  · exact ⟨0, zero_le _, if_neg hsign, by simp [unsigned, hsign]⟩

theorem largest_le (text : Text) : largest text ≤ 2 ^ 63 := by
  unfold largest
  split <;> omega

/-- A number that is read without a minus is small enough to be negated. -/
theorem negated_eq {first : Nat} {rest digits : Text} {number : Int} (hminus : first ≠ 45)
    (h : accumulate (-(largest (first :: rest) : Int)) 0 digits = .ok number) :
    sub 0 number = some (0 - number) := by
  have hbounds := (accumulate_spec (zero_le _)).1 number |>.mp h
  have hplain : largest (first :: rest) = 2 ^ 63 - 1 := by simp [largest, hminus]
  exact sub_eq ⟨by omega, by omega⟩

theorem parseRange_eq {start stop : Int} (hbound : start < stop → start < 2 ^ 63 - 1) :
    parseRange text start stop = some (Decimal.parse (bytesOf text start stop)) := by
  by_cases hinvalid : start < 0 ∨ stop > text.length ∨ start ≥ stop
  · rw [parseRange, if_pos hinvalid, bytesOf_eq_nil hinvalid]; rfl
  · obtain ⟨low, rfl⟩ := Int.eq_ofNat_of_zero_le (show 0 ≤ start by omega)
    obtain ⟨size, rfl⟩ : ∃ size : Nat, stop = low + size := ⟨(stop - low).toNat, by omega⟩
    rw [bytesOf_cut (by omega), parse_unsigned]
    cases hslice : (text.drop low).take size with
    | nil =>
      have hlength := congrArg length hslice
      rw [length_take, length_drop, length_nil] at hlength; omega
    | cons first rest =>
      have hsize : size = rest.length + 1 := by
        have hlength := congrArg length hslice
        rw [length_take, length_drop, length_cons] at hlength; omega
      obtain ⟨count, hle, hcount, hunsigned⟩ := sign_bytes first rest
      have hlimit : (if first = 45 then -9223372036854775808 else -9223372036854775807 : Int) =
          -(largest (first :: rest) : Int) := by
        by_cases hminus : first = 45 <;> simp [largest, hminus]
      have hlargest := largest_le (first :: rest)
      have hmultiple : div (-(largest (first :: rest) : Int)) 10 =
          some (-((largest (first :: rest) / 10 : Nat) : Int)) :=
        (div_eq (divides_pos (by omega))).trans (congrArg some (neg_tdiv_natCast _ 10))
      have hbyte : text[(low : Int).toNat]? = some first := by
        have hhead := congrArg (·[0]?) hslice
        rwa [getElem?_take_of_lt (by omega), getElem?_drop] at hhead
      unfold parseRange
      rw [if_neg (by omega), hbyte, some_bind, hunsigned]
      dsimp only
      rw [hcount, add_eq ⟨by omega, by omega⟩, some_bind, hlimit, hmultiple]
      by_cases hnone : (first :: rest).length ≤ count
      · rw [if_pos (by rw [length_cons] at hnone; omega),
          if_pos (drop_eq_nil_iff.mpr hnone)]
      · have hlast : (text.drop ((low : Int) + count).toNat).take
            ((low : Int) + size - (low + count)).toNat = (first :: rest).drop count := by
          rw [← hslice, drop_take, drop_drop]
          congr 1; omega
        rw [length_cons] at hnone
        rw [if_neg (by omega), if_neg (fun hnil => hnone (drop_eq_nil_iff.mp hnil)), some_bind,
          hlast]
        have hread := @parseFrom_eq _ 0 ((first :: rest).drop count) hlargest (zero_le _)
        rw [cast_zero, Int.neg_zero] at hread
        rw [hread, some_bind]
        cases hanswer : accumulate (-(largest (first :: rest) : Int)) 0
            ((first :: rest).drop count) with
        | error error => rfl
        | ok number =>
          by_cases hminus : first = 45
          · simp [hminus, Except.map]
          · dsimp only
            rw [if_neg hminus, negated_eq hminus hanswer, some_bind]
            simp [hminus, Except.map]

theorem parse_eq (text : Text) : parse text = some (Decimal.parse text) := by
  rw [parse, parseRange_eq (fun _ => by omega), bytesOf, if_neg (by omega)]; simp

/-! ## Writing -/

theorem digit_eq {d : Nat} (h : d < 10) : digit d = [48 + d] := by
  have hall : ∀ d : Fin 10, digit (d : Nat) = [48 + (d : Nat)] := by decide
  exact hall ⟨d, h⟩

theorem digitsFrom_eq (hn : n ≤ 2 ^ 63) (hbound : n < bound) :
    digitsFrom bound (-n) text = some (((digits 10 n).reverse.map (48 + ·)) ++ text) := by
  induction bound generalizing n text with
  | zero => omega
  | succ bound ih =>
    by_cases hzero : n = 0
    · simp [digitsFrom, hzero]
    · have hrem : (-(n : Int)).tmod 10 = -((n % 10 : Nat) : Int) := neg_tmod_natCast n 10
      have hquotient : (-(n : Int)).tdiv 10 = -((n / 10 : Nat) : Int) := neg_tdiv_natCast n 10
      have hlast : (0 : Int) - -((n % 10 : Nat) : Int) = (n % 10 : Nat) := by omega
      rw [digitsFrom, if_pos (by omega), rem_eq (divides_pos (by omega)), some_bind, hrem,
        sub_eq ⟨by omega, by omega⟩, some_bind, hlast, div_eq (divides_pos (by omega)), some_bind,
        hquotient, digit_eq (mod_lt _ (by omega)), ih (by omega) (by omega),
        @digits_def' 10 (by omega) n (by omega), reverse_cons, map_append, append_assoc]
      rfl

theorem toText_eq (hlow : -2 ^ 63 ≤ value) (hhigh : value < 2 ^ 63) :
    toText value = some (Decimal.toText value) := by
  have hread (h : value.natAbs ≤ 2 ^ 63) : digitsFrom (value.natAbs + 1) (-(value.natAbs : Int)) [] =
      some (Decimal.digitsOf value.natAbs) := by
    rw [digitsFrom_eq h (lt_succ_self _), append_nil]; rfl
  unfold toText Decimal.toText
  by_cases hzero : value = 0
  · rw [if_pos hzero, if_pos hzero]
  · by_cases hneg : value < 0
    · have hremaining : -(value.natAbs : Int) = value := by omega
      rw [hremaining] at hread
      rw [if_neg hzero, if_neg hzero, if_pos hneg, if_neg (by omega), some_bind]
      dsimp only
      rw [hread (by omega), some_bind, if_pos hneg]
    · have hremaining : -(value.natAbs : Int) = 0 - value := by omega
      have hsize : (0 - value).natAbs = value.natAbs := by omega
      rw [hremaining] at hread
      rw [if_neg hzero, if_neg hzero, if_neg hneg, if_pos (by omega), sub_eq ⟨by omega, by omega⟩,
        some_bind]
      dsimp only
      rw [hsize, hread (by omega), some_bind, if_neg hneg]

/-! ## Both -/

theorem exceeds_iff (hdigits : Digits text) : Exceeds limit start text ↔ limit < written start text := by
  constructor
  · rintro ⟨shown, ⟨behind, rfl⟩, -, hlimit⟩
    have hgrows := @le_written (written start shown) behind
    rw [written, continued, map_append, foldl_append]
    exact lt_of_lt_of_le hlimit hgrows
  · intro hlimit
    exact ⟨text, prefix_rfl, hdigits, hlimit⟩

/-- A text is read as its number, or is out of range where the digits in front already are. -/
structure Answers (text : Text) (answer : Except ParseError Int) : Prop where
  ok : ∀ number, answer = .ok number ↔ unsigned text ≠ [] ∧ Digits (unsigned text) ∧
    Fits (signed text (written 0 (unsigned text))) ∧ number = signed text (written 0 (unsigned text))
  outOfRange : answer = .error .outOfRange ↔
    ∃ shown, shown <+: unsigned text ∧ Digits shown ∧ ¬Fits (signed text (written 0 shown))
  digits : Digits (unsigned text) →
    (answer = .error .outOfRange ↔ ¬Fits (signed text (written 0 (unsigned text))))

theorem answers_parse (text : Text) : Answers text (Decimal.parse text) := by
  refine ⟨?_, ?_, ?_⟩ <;> simp only [fits_signed, not_le]
  · exact fun number => parse_eq_ok
  · exact parse_eq_outOfRange
  · exact fun hdigits => parse_eq_outOfRange.trans (exceeds_iff hdigits)

/-- Every text and every range of one is answered, and whatever is written is read back. -/
theorem int_texts :
    (∀ text, ∃ answer, parse text = some answer ∧ Answers text answer) ∧
    (∀ text (start stop : BitVec 64), ∃ answer,
      parseRange text start.toInt stop.toInt = some answer ∧
      Answers (bytesOf text start.toInt stop.toInt) answer) ∧
    ∀ word : BitVec 64, (toText word.toInt).bind parse = some (.ok word.toInt) := by
  refine ⟨fun text => ⟨_, parse_eq text, answers_parse text⟩, ?_, ?_⟩
  · intro text start stop
    have hstop := stop.toInt_lt
    exact ⟨_, parseRange_eq (fun hless => by omega), answers_parse _⟩
  · intro word
    have hlow := word.le_toInt
    have hhigh := word.toInt_lt
    rw [toText_eq hlow hhigh, Option.bind_some, parse_eq, parse_toText hlow hhigh]

theorem outOfRange_unread :
    parse ((replicate 20 57) ++ [120]) = some (.error .outOfRange) ∧
      ¬Digits (unsigned ((replicate 20 57) ++ [120])) := by
  refine ⟨by decide, fun hdigits => ?_⟩
  have hlast := hdigits 120 (by decide)
  omega

end Loom.Integers

import Mathlib.Data.List.Induction
import Loom.Hashing.Compression

/-
  Digests of whole messages, and of messages in pieces.

  A message is cut into its complete blocks and a tail of fewer than 64 bytes. The
  blocks are compressed where they lie; the tail is padded to one block or two. The
  hasher keeps the tail of what it has taken, so that `Holds state message` says
  all about it.
-/

namespace Loom.Hashing

open Machine List SecureHash UInt8
open SecureHash (Word Hash wordOf bigEndian zeros padding padded absorb sha256)

/-! ## Bytes as integers -/

variable {i : Nat} {values : List Int} {value : List UInt8} {start : Nat}

theorem getByte_natCast {bytes : List UInt8} {byte : UInt8} (h : bytes[i]? = some byte) :
    getByte bytes i = some (byte.toNat : Int) := by
  rw [getByte, Int.toNat_natCast, h]; rfl

theorem setByte_natCast {bytes : List UInt8} {n : Nat} (h : i < bytes.length) (hn : n < 256) :
    setByte bytes i n = some (bytes.set i (ofNat n)) := by
  rw [setByte, if_pos ⟨⟨Int.natCast_nonneg i, by omega⟩, Int.natCast_nonneg n, by omega⟩,
    Int.toNat_natCast, Int.toNat_natCast]

theorem shiftLeft_natCast (n count : Nat) (hcount : count < 64) (h : n <<< count < 2 ^ 63) :
    shiftLeft n count = some ((n <<< count : Nat) : Int) := by
  have hle : n ≤ n <<< count := by
    rw [Nat.shiftLeft_eq]
    exact Nat.le_mul_of_pos_right n (Nat.two_pow_pos count)
  have hword : (word n <<< count).toNat = n <<< count := by
    rw [BitVec.toNat_shiftLeft, toNat_word (by omega), Nat.mod_eq_of_lt (by omega)]
  rw [shiftLeft_eq _ hcount, toInt_of_lt (by omega), hword]

/-- A word from its bytes, the high ones first. -/
theorem toNat_wordOf (a b c d : UInt8) : (wordOf a b c d).toNat =
    ((a.toNat <<< 8 ||| b.toNat) <<< 8 ||| c.toNat) <<< 8 ||| d.toNat := by
  simp only [wordOf, BitVec.toNat_append, toNat_toBitVec]

/-! ## The words of a block -/

theorem loadWord_run {a b c d : UInt8} (hi : i < values.length)
    (hsmall : start + i * 4 + 3 < 2 ^ 63) (ha : value[start + i * 4]? = some a)
    (hb : value[start + i * 4 + 1]? = some b) (hc : value[start + i * 4 + 2]? = some c)
    (hd : value[start + i * 4 + 3]? = some d) :
    loadWord value start i values = some (values.set i (val (wordOf a b c d))) := by
  have hm : mul (i : Int) 4 = some ((i * 4 : Nat) : Int) := mul_natCast (n := 4) (by omega)
  have hp : add (start : Int) ((i * 4 : Nat) : Int) = _ := add_natCast (by omega)
  have h1 : add ((start + i * 4 : Nat) : Int) 1 = _ := add_natCast (n := 1) (by omega)
  have h2 : add ((start + i * 4 : Nat) : Int) 2 = _ := add_natCast (n := 2) (by omega)
  have h3 : add ((start + i * 4 : Nat) : Int) 3 = _ := add_natCast (n := 3) (by omega)
  have hal := a.toNat_lt
  have hbl := b.toNat_lt
  have hcl := c.toNat_lt
  have hdl := d.toNat_lt
  have s24 : shiftLeft (a.toNat : Int) 24 = _ :=
    shiftLeft_natCast _ 24 (by omega) (by omega)
  have s16 : shiftLeft (b.toNat : Int) 16 = _ :=
    shiftLeft_natCast _ 16 (by omega) (by omega)
  have s8 : shiftLeft (c.toNat : Int) 8 = _ :=
    shiftLeft_natCast _ 8 (by omega) (by omega)
  have l24 : a.toNat <<< 24 < 2 ^ 32 := by omega
  have l16 : b.toNat <<< 16 < 2 ^ 32 := by omega
  have l8 : c.toNat <<< 8 < 2 ^ 32 := by omega
  have o1 := Nat.or_lt_two_pow l24 l16
  have o2 := Nat.or_lt_two_pow o1 l8
  have hword : val (wordOf a b c d) =
      ((a.toNat <<< 24 ||| b.toNat <<< 16 ||| c.toNat <<< 8 ||| d.toNat : Nat) : Int) := by
    unfold val
    rw [toNat_wordOf]; simp [Nat.shiftLeft_or_distrib, ← Nat.shiftLeft_add]
  rw [hword]
  unfold loadWord
  simp only [hm, hp, h1, h2, h3, getByte_natCast ha, getByte_natCast hb, getByte_natCast hc,
    getByte_natCast hd, s24, s16, s8, some_bind]
  rw [or_nat (by omega) (by omega), or_nat (by omega) (by omega), or_nat (by omega) (by omega),
    set_natCast hi]

theorem loadBlock_spec (start : Nat) (hlength : values.length = 64) (hsmall : value.length < 2 ^ 63)
    (hblock : start + 64 ≤ value.length) :
    ∃ values', loadBlock values value start = some values' ∧ values'.length = 64 ∧
      Shows values' (words ((value.drop start).take 64)) 16 := by
  have htake : ((value.drop start).take 64).length = 64 := by
    rw [length_take, length_drop]; omega
  have hbyte : ∀ j < 64, value[start + j]? = some (((value.drop start).take 64).getD j 0) := by
    intro j hj
    rw [getD_eq_getElem?_getD, getElem?_take, if_pos hj, getElem?_drop,
      getElem?_eq_getElem (by omega)]
    rfl
  generalize (value.drop start).take 64 = block at *
  refine below_spec (loadWord value start) 0 16 (by decide) (by decide) (by decide) (by decide)
    (fun n values => values.length = 64 ∧ Shows values (words block) n)
    ⟨hlength, fun i hi => absurd hi (by omega)⟩ ?_
  rintro n hn values ⟨hsize, hshows⟩
  rw [show (0 + 1 * n : Int) = n by omega]
  have hword := words_getD block n (by omega)
  refine ⟨_, loadWord_run (by omega) (by omega)
    (by rw [Nat.mul_comm]; exact hbyte (4 * n) (by omega))
    (by rw [Nat.mul_comm]; exact hbyte (4 * n + 1) (by omega))
    (by rw [Nat.mul_comm]; exact hbyte (4 * n + 2) (by omega))
    (by rw [Nat.mul_comm]; exact hbyte (4 * n + 3) (by omega)),
    by rw [length_set, hsize], ?_⟩
  intro i hi
  by_cases hlast : i = n
  · subst hlast
    rw [getElem?_set_self (by omega), hword]
  · rw [getElem?_set_ne (Ne.symm hlast), hshows i (by omega)]

/-! ## The padded tail -/

/-- The low byte of a word that is shifted to it, whatever its sign. -/
theorem bitAnd_sshiftRight (x : BitVec 64) {count : Nat} (h : count ≤ 56) :
    bitAnd (x.sshiftRight count).toInt 255 = ((x.toNat >>> count % 256 : Nat) : Int) := by
  have hmask : word 255 = BitVec.setWidth 64 (BitVec.allOnes 8) := by decide
  have hbyte : (x.sshiftRight count &&& word 255).toNat = x.toNat >>> count % 2 ^ 8 := by
    apply Nat.eq_of_testBit_eq
    intro i
    rw [Nat.testBit_mod_two_pow, Nat.testBit_shiftRight, BitVec.testBit_toNat, BitVec.testBit_toNat,
      BitVec.getLsbD_and, hmask, BitVec.getLsbD_setWidth, BitVec.getLsbD_allOnes,
      BitVec.getLsbD_sshiftRight]
    by_cases hi : i < 8
    · have hin : count + i < 64 := by omega
      have hi' : i < 64 := by omega
      have hi'' : ¬ 64 ≤ i := by omega
      simp [hi, hi', hin]
    · simp [hi]
  unfold bitAnd
  rw [word_toInt, toInt_of_lt (by omega), hbyte]; rfl

theorem bigEndian_getD (count n : Nat) (h : i < count) :
    (bigEndian count n).getD i 0 = ofNat (n / 256 ^ (count - 1 - i)) := by
  simp [bigEndian, h]

theorem lengthByte {m c : Nat} (hm : m < 2 ^ 61) (hc : c ≤ 7) :
    (do
      let bits ← shiftLeft (m : Int) 3
      let byte ← shiftRight bits ((c * 8 : Nat) : Int)
      some (bitAnd byte 255)) = some ((ofNat (8 * m / 256 ^ c)).toNat : Int) := by
  have hleft : shiftLeft (m : Int) 3 = _ := shiftLeft_eq _ (show 3 < 64 by omega)
  have hword : (word m <<< 3).toNat = 8 * m := by
    rw [BitVec.toNat_shiftLeft, toNat_word (by omega), Nat.shiftLeft_eq, Nat.mod_eq_of_lt (by omega),
      Nat.mul_comm]
  rw [hleft, some_bind, shiftRight_eq _ (by omega), some_bind, word_toInt,
    bitAnd_sshiftRight _ (by omega), hword, toNat_ofNat', Nat.shiftRight_eq_div_pow,
    Nat.mul_comm c, Nat.pow_mul]

/-- The bytes after the last complete block of a message, and their padding. -/
def paddedTail (value : List UInt8) (start size messageSize : Nat) : List UInt8 :=
  (value.drop start).take size ++ padding messageSize

/-- The bytes in the last blocks. -/
def tailSize (size : Nat) : Nat := if size < 56 then 64 else 128

section
variable {value : List UInt8} {start size messageSize : Nat}

theorem paddedTail_length (hin : start + size ≤ value.length) (hsize : messageSize % 64 = size) :
    (paddedTail value start size messageSize).length = tailSize size := by
  rw [paddedTail, length_append, padding_length, length_take, length_drop]
  unfold zeros tailSize
  split <;> omega

theorem paddedByte_spec (hin : start + size ≤ value.length) (hsmall : value.length < 2 ^ 63)
    (hsize : messageSize % 64 = size) (hmessage : messageSize < 2 ^ 61) {i : Nat}
    (hi : i < tailSize size) :
    paddedByte value start i size (tailSize size : Nat) messageSize =
      some (((paddedTail value start size messageSize).getD i 0).toNat : Int) := by
  have htail : ((value.drop start).take size).length = size := by
    rw [length_take, length_drop]; omega
  have hstop : size + zeros messageSize + 9 = tailSize size := by
    unfold zeros tailSize
    split <;> omega
  have hfits : tailSize size < 2 ^ 63 := by
    unfold tailSize
    split <;> omega
  have h8 : sub ((tailSize size : Nat) : Int) 8 = _ := sub_natCast (n := 8) (by omega) hfits
  unfold paddedByte paddedTail padding
  by_cases h1 : i < size
  · have hadd : add (start : Int) (i : Int) = _ := add_natCast (by omega)
    have hget : value[start + i]? = some (((value.drop start).take size).getD i 0) := by
      rw [getD_eq_getElem?_getD, getElem?_take, if_pos h1, getElem?_drop,
        getElem?_eq_getElem (by omega)]
      rfl
    rw [if_pos (by omega), hadd, some_bind, getByte_natCast hget,
      getD_append _ _ _ _ (by omega)]
  · rw [if_neg (by omega), getD_append_right _ _ _ _ (by omega), htail]
    by_cases h2 : i = size
    · subst h2
      rw [if_pos rfl, Nat.sub_self]; rfl
    · obtain ⟨j, rfl⟩ : ∃ j, i = size + (j + 1) := ⟨i - size - 1, by omega⟩
      rw [if_neg (by omega), h8, some_bind, Nat.add_sub_cancel_left, getD_cons_succ]
      by_cases h3 : j < zeros messageSize
      · rw [if_pos (by omega), getD_append _ _ _ _ (by simpa using h3)]; simp
      · obtain ⟨c, hc, hj⟩ : ∃ c ≤ 7, j = zeros messageSize + (7 - c) :=
          ⟨zeros messageSize + 7 - j, by omega, by omega⟩
        have h11 : sub ((tailSize size : Nat) : Int) 1 = _ := sub_natCast (n := 1) (by omega) hfits
        have hplace : sub ((tailSize size - 1 : Nat) : Int) ((size + (j + 1) : Nat) : Int) =
            some (c : Int) := by
          rw [sub_natCast (by omega) (by omega)]
          congr 2
          omega
        have hmul : mul (c : Int) 8 = _ := mul_natCast (n := 8) (by omega)
        have hbyte := lengthByte hmessage hc
        rw [if_neg (by omega), getD_append_right _ _ _ _ (by simp; omega),
          length_replicate, hj, Nat.add_sub_cancel_left, bigEndian_getD 8 _ (by omega),
          show 8 - 1 - (7 - c) = c by omega, ← hbyte]
        rw [hj] at hplace; simp only [h11, hplace, hmul, some_bind]

/-- Bytes put together to a number, the high ones first. -/
def joined (bytes : List UInt8) : Nat := bytes.foldl (fun word byte => word <<< 8 ||| byte.toNat) 0

theorem joined_snoc (bytes : List UInt8) (byte : UInt8) :
    joined (bytes ++ [byte]) = joined bytes <<< 8 ||| byte.toNat := by
  simp [joined]

theorem joined_lt (bytes : List UInt8) : joined bytes < 2 ^ (8 * bytes.length) := by
  induction bytes using reverseRecOn with
  | nil => decide
  | append_singleton bytes byte ih =>
    have hbyte := byte.toNat_lt
    have hshift : joined bytes <<< 8 < 2 ^ (8 * bytes.length + 8) := by
      rw [Nat.shiftLeft_eq, Nat.pow_add]
      exact Nat.mul_lt_mul_of_pos_right ih (by decide)
    have hbig : byte.toNat < 2 ^ (8 * bytes.length + 8) :=
      lt_of_lt_of_le hbyte (Nat.pow_le_pow_right (by decide) (by omega))
    rw [joined_snoc, length_append, length_singleton]
    exact Nat.or_lt_two_pow hshift hbig

theorem joined_four (a b c d : UInt8) : (joined [a, b, c, d] : Int) = val (wordOf a b c d) := by
  unfold val
  rw [toNat_wordOf]; simp [joined]

variable (hin : start + size ≤ value.length) (hsmall : value.length < 2 ^ 63)
  (hsize : messageSize % 64 = size) (hmessage : messageSize < 2 ^ 61)
include hin hsmall hsize hmessage

theorem paddedWord_run {offset i : Nat} (hi : offset + i * 4 + 4 ≤ tailSize size) :
    below 0 4 1 0 (paddedPart value start size (tailSize size : Nat) messageSize offset i) =
      some (val (wordOf ((paddedTail value start size messageSize).getD (offset + i * 4) 0)
        ((paddedTail value start size messageSize).getD (offset + i * 4 + 1) 0)
        ((paddedTail value start size messageSize).getD (offset + i * 4 + 2) 0)
        ((paddedTail value start size messageSize).getD (offset + i * 4 + 3) 0))) := by
  have hfits : tailSize size ≤ 128 := by
    unfold tailSize
    split <;> omega
  have hmul : mul (i : Int) 4 = _ := mul_natCast (n := 4) (by omega)
  have hbase : add (offset : Int) ((i * 4 : Nat) : Int) = _ := add_natCast (by omega)
  have hbyte := fun (n : Nat) (hn : n < 4) => paddedByte_spec hin hsmall hsize hmessage
    (show offset + i * 4 + n < tailSize size by omega)
  generalize paddedTail value start size messageSize = tail at *
  have hloop : ∃ word,
      below 0 4 1 0 (paddedPart value start size (tailSize size : Nat) messageSize offset i) =
        some word ∧
      word = (joined ((range 4).map fun n => tail.getD (offset + i * 4 + n) 0) : Int) := by
    refine below_spec _ 0 4 (by decide) (by decide) (by decide) (by decide)
      (fun count word =>
        word = (joined ((range count).map fun n => tail.getD (offset + i * 4 + n) 0) : Int))
      rfl ?_
    rintro n hn word rfl
    rw [show (0 + 1 * n : Int) = n by omega]
    have hlt := joined_lt ((range n).map fun n => tail.getD (offset + i * 4 + n) 0)
    rw [length_map, length_range] at hlt
    have hpow : 2 ^ (8 * n) ≤ 2 ^ 24 := Nat.pow_le_pow_right (by decide) (by omega)
    generalize hw : joined ((range n).map fun n => tail.getD (offset + i * 4 + n) 0) = w at *
    have hshift : w <<< 8 < 2 ^ 63 := by
      omega
    have hshifted : shiftLeft (w : Int) 8 = _ := shiftLeft_natCast w 8 (by omega) hshift
    have hplace : add ((offset + i * 4 : Nat) : Int) (n : Int) = _ := add_natCast (by omega)
    have hsmallByte := (tail.getD (offset + i * 4 + n) 0).toNat_lt
    refine ⟨_, ?_, rfl⟩
    unfold paddedPart
    simp only [hshifted, hmul, hbase, hplace, hbyte n hn, some_bind]
    rw [or_nat hshift (by omega), range_succ, map_append, map_singleton,
      joined_snoc, hw]
  obtain ⟨word, hrun, rfl⟩ := hloop
  have hfour : (range 4).map (fun n => tail.getD (offset + i * 4 + n) 0) =
      [tail.getD (offset + i * 4) 0, tail.getD (offset + i * 4 + 1) 0,
        tail.getD (offset + i * 4 + 2) 0, tail.getD (offset + i * 4 + 3) 0] := rfl
  rw [hrun, hfour, joined_four]

theorem paddedBlock_spec {offset : Nat} (hoffset : offset + 64 ≤ tailSize size) {values : List Int}
    (hlength : values.length = 64) (x : Hash) :
    ∃ values', paddedBlock value start size (tailSize size : Nat) messageSize constants offset
        (chainOf x, values) = some (chainOf (SecureHash.compress x
          (((paddedTail value start size messageSize).drop offset).take 64)), values') ∧
      values'.length = 64 := by
  have htail := paddedTail_length hin hsize
  have hword := fun (n : Nat) (hn : n < 16) => paddedWord_run hin hsmall hsize hmessage
    (show offset + n * 4 + 4 ≤ tailSize size by omega)
  generalize paddedTail value start size messageSize = tail at *
  have htake : ((tail.drop offset).take 64).length = 64 := by
    rw [length_take, length_drop]; omega
  have hat : ∀ j < 64, tail.getD (offset + j) 0 = ((tail.drop offset).take 64).getD j 0 := by
    intro j hj
    rw [getD_eq_getElem?_getD, getD_eq_getElem?_getD, getElem?_take, if_pos hj,
      getElem?_drop]
  obtain ⟨values', hload, hlength', hshows⟩ : ∃ values', below 0 16 1 values
      (paddedWord value start size (tailSize size : Nat) messageSize offset) = some values' ∧
      values'.length = 64 ∧ Shows values' (words ((tail.drop offset).take 64)) 16 := by
    refine below_spec (paddedWord value start size (tailSize size : Nat) messageSize offset) 0 16
      (by decide) (by decide) (by decide) (by decide)
      (fun n values => values.length = 64 ∧
        Shows values (words ((tail.drop offset).take 64)) n)
      ⟨hlength, fun i hi => absurd hi (by omega)⟩ ?_
    rintro n hn values ⟨hvalues, hshows⟩
    rw [show (0 + 1 * n : Int) = n by omega]
    unfold paddedWord
    rw [hword n hn, some_bind, set_natCast (by omega)]
    refine ⟨_, rfl, by rw [length_set, hvalues], ?_⟩
    intro i hi
    by_cases hlast : i = n
    · subst hlast
      rw [getElem?_set_self (by omega), words_getD _ _ (by omega), Nat.mul_comm i,
        ← hat _ (by omega), ← hat _ (by omega), ← hat _ (by omega), ← hat _ (by omega)]
      simp [Nat.add_assoc]
    · rw [getElem?_set_ne (Ne.symm hlast), hshows i (by omega)]
  obtain ⟨last, hcompress, hlast⟩ := compress_spec x htake hlength' hshows
  refine ⟨last, ?_, hlast⟩
  unfold paddedBlock
  rw [hload, some_bind, hcompress]

end

/-! ## The last blocks -/

/-- A byte written behind what is there already. -/
theorem setByte_snoc {output front : List UInt8} {n : Nat} (hi : i < output.length)
    (hfront : output.take i = front) (hn : n < 256) :
    ∃ output', setByte output i n = some output' ∧ output'.length = output.length ∧
      output'.take (i + 1) = front ++ [ofNat n] := by
  refine ⟨_, setByte_natCast hi hn, length_set, ?_⟩
  rw [take_add_one, take_set_of_le (by omega), hfront,
    getElem?_set_self hi]
  rfl

theorem low_byte (n : Nat) (h : n < 2 ^ 63) : bitAnd (n : Int) 255 = ((n % 256 : Nat) : Int) := by
  have := and_mask (Int.natCast_nonneg n) (by omega) (k := 8) (by omega)
  norm_cast

theorem writeWord_spec {output front : List UInt8} (w : Word) (hi : i + 4 ≤ output.length)
    (hsmall : output.length < 2 ^ 63) (hfront : output.take i = front) :
    ∃ output', writeWord output i (val w) = some output' ∧ output'.length = output.length ∧
      output'.take (i + 4) = front ++ bigEndian 4 w.toNat := by
  have hpart : ∀ count : Nat, count < 32 → ∃ byte : Nat, byte < 256 ∧
      shiftRight (val w) count = some (val (w >>> count)) ∧
      bitAnd (val (w >>> count)) 255 = (byte : Int) ∧
      ofNat byte = ofNat (w.toNat / 2 ^ count) := by
    intro count hcount
    refine ⟨(w >>> count).toNat % 256, Nat.mod_lt _ (by decide), shiftRight_val w (by omega),
      low_byte _ (by omega), ?_⟩
    rw [ofNat_mod_size, BitVec.toNat_ushiftRight, Nat.shiftRight_eq_div_pow]
  obtain ⟨b3, hb3, s3, a3, e3⟩ := hpart 24 (by omega)
  obtain ⟨b2, hb2, s2, a2, e2⟩ := hpart 16 (by omega)
  obtain ⟨b1, hb1, s1, a1, e1⟩ := hpart 8 (by omega)
  obtain ⟨b0, hb0, -, a0, e0⟩ := hpart 0 (by omega)
  obtain ⟨o1, h1, l1, t1⟩ := setByte_snoc (show i < output.length by omega) hfront hb3
  obtain ⟨o2, h2, l2, t2⟩ := setByte_snoc (show i + 1 < o1.length by omega) t1 hb2
  obtain ⟨o3, h3, l3, t3⟩ := setByte_snoc (show i + 1 + 1 < o2.length by omega) t2 hb1
  obtain ⟨o4, h4, l4, t4⟩ := setByte_snoc (show i + 1 + 1 + 1 < o3.length by omega) t3 hb0
  have p1 : add (i : Int) 1 = _ := add_natCast (n := 1) (by omega)
  have p2 : add (i : Int) 2 = _ := add_natCast (n := 2) (by omega)
  have p3 : add (i : Int) 3 = _ := add_natCast (n := 3) (by omega)
  have hbytes : bigEndian 4 w.toNat = [ofNat b3, ofNat b2, ofNat b1,
      ofNat b0] := by
    rw [e3, e2, e1, e0]; rfl
  refine ⟨o4, ?_, by omega, ?_⟩
  · unfold writeWord
    rw [show w >>> 0 = w from BitVec.ushiftRight_zero w] at a0
    have s3' : shiftRight (val w) 24 = _ := s3
    have s2' : shiftRight (val w) 16 = _ := s2
    have s1' : shiftRight (val w) 8 = _ := s1
    simp only [s3', s2', s1', a3, a2, a1, a0, p1, p2, p3, some_bind, h1]
    rw [h2, some_bind, h3, some_bind, h4]
  · rw [hbytes, t4]; simp

theorem writeWords_spec (x : Hash) : (do
    let output ← writeWord (zeroes 32) 0 (chainOf x).h0
    let output ← writeWord output 4 (chainOf x).h1
    let output ← writeWord output 8 (chainOf x).h2
    let output ← writeWord output 12 (chainOf x).h3
    let output ← writeWord output 16 (chainOf x).h4
    let output ← writeWord output 20 (chainOf x).h5
    let output ← writeWord output 24 (chainOf x).h6
    writeWord output 28 (chainOf x).h7) = some x.toBytes := by
  have hzero : (zeroes 32).length = 32 := rfl
  obtain ⟨o1, h1, l1, t1⟩ := writeWord_spec (i := 0) x.a (by omega) (by omega)
    (show (zeroes 32).take 0 = [] from rfl)
  obtain ⟨o2, h2, l2, t2⟩ := writeWord_spec (i := 4) x.b (by omega) (by omega) t1
  obtain ⟨o3, h3, l3, t3⟩ := writeWord_spec (i := 8) x.c (by omega) (by omega) t2
  obtain ⟨o4, h4, l4, t4⟩ := writeWord_spec (i := 12) x.d (by omega) (by omega) t3
  obtain ⟨o5, h5, l5, t5⟩ := writeWord_spec (i := 16) x.e (by omega) (by omega) t4
  obtain ⟨o6, h6, l6, t6⟩ := writeWord_spec (i := 20) x.f (by omega) (by omega) t5
  obtain ⟨o7, h7, l7, t7⟩ := writeWord_spec (i := 24) x.g (by omega) (by omega) t6
  obtain ⟨o8, h8, l8, t8⟩ := writeWord_spec (i := 28) x.h (by omega) (by omega) t7
  have hall : o8.take 32 = o8 := take_of_length_le (by omega)
  have hbytes : o8 = x.toBytes := by
    rw [← hall, t8]; rfl
  rw [← hbytes]
  have h1' : writeWord (zeroes 32) 0 (chainOf x).h0 = some o1 := h1
  have h2' : writeWord o1 4 (chainOf x).h1 = some o2 := h2
  have h3' : writeWord o2 8 (chainOf x).h2 = some o3 := h3
  have h4' : writeWord o3 12 (chainOf x).h3 = some o4 := h4
  have h5' : writeWord o4 16 (chainOf x).h4 = some o5 := h5
  have h6' : writeWord o5 20 (chainOf x).h5 = some o6 := h6
  have h7' : writeWord o6 24 (chainOf x).h6 = some o7 := h7
  rw [h1', some_bind, h2', some_bind, h3', some_bind, h4', some_bind, h5', some_bind, h6',
    some_bind, h7']
  exact h8

theorem finish_spec (value : List UInt8) (start size messageSize : Nat)
    (hin : start + size ≤ value.length) (hsmall : value.length < 2 ^ 63)
    (hsize : messageSize % 64 = size) (hmessage : messageSize < 2 ^ 61)
    (hlength : values.length = 64) (x : Hash) :
    finish (chainOf x) value start size messageSize values constants =
      some (absorb (tailSize size / 64) x (paddedTail value start size messageSize)).toBytes := by
  have hstop : (if (size : Int) < 56 then 64 else 128 : Int) = (tailSize size : Nat) := by
    unfold tailSize
    split <;> split <;> omega
  have hcount : (0 + 64 * (tailSize size / 64 : Nat) : Int) = (tailSize size : Nat) := by
    unfold tailSize
    split <;> rfl
  obtain ⟨state, hrun, hchain, -⟩ : ∃ state : Chain × List Int,
      below 0 (tailSize size : Nat) 64 (chainOf x, values)
        (paddedBlock value start size (tailSize size : Nat) messageSize constants) = some state ∧
      state.1 = chainOf (absorb (tailSize size / 64) x (paddedTail value start size messageSize)) ∧
      state.2.length = 64 := by
    refine below_spec (paddedBlock value start size (tailSize size : Nat) messageSize constants) 0
      (tailSize size / 64) hcount (by decide) (by decide) (by omega)
      (fun n state => state.1 = chainOf (absorb n x (paddedTail value start size messageSize)) ∧
        state.2.length = 64) ⟨rfl, hlength⟩ ?_
    rintro n hn ⟨chain, values⟩ ⟨rfl, hvalues⟩
    obtain ⟨values', hblock, hvalues'⟩ := paddedBlock_spec hin hsmall hsize hmessage
      (show n * 64 + 64 ≤ tailSize size by omega) hvalues
      (absorb n x (paddedTail value start size messageSize))
    rw [show (0 + 64 * n : Int) = (n * 64 : Nat) by omega]
    refine ⟨_, hblock, ?_, hvalues'⟩
    rw [absorb_add n 1, Nat.mul_comm 64 n]; rfl
  unfold finish
  simp only [hstop, hrun, some_bind, hchain]; exact writeWords_spec _

/-! ## The digest of one call -/

/-- The digest of a message from its complete blocks and its padded tail. -/
theorem sha256_split (message : List UInt8) : sha256 message =
    (absorb (tailSize (message.length % 64) / 64)
      (absorb (message.length / 64) initialHash message)
      (message.drop (message.length / 64 * 64) ++ padding message.length)).toBytes := by
  have hblocks : (padded message).length / 64 =
      message.length / 64 + tailSize (message.length % 64) / 64 := by
    rw [padded_length]
    unfold zeros tailSize
    split <;> omega
  unfold sha256
  simp only [hblocks]
  rw [absorb_add, padded, absorb_left _ (by omega),
    drop_append_of_le_length (by omega), Nat.mul_comm 64]

variable {stop : Nat}

theorem digestRange_spec (value : Bytes) (hle : start ≤ stop) (hstop : stop ≤ value.data.length)
    (hmessage : stop - start < 2 ^ 61) :
    digestRange value start stop =
      some (sha256 ((value.data.drop start).take (stop - start))) := by
  have hsmall := value.small
  generalize hn : stop - start = n at hmessage
  generalize hm : (value.data.drop start).take n = message
  have hlength : message.length = n := by
    rw [← hm, length_take, length_drop]; omega
  have hsize : sub (stop : Int) (start : Int) = some (n : Int) := by
    rw [sub_natCast hle (by omega), hn]
  have hfull : mul ((n : Int).tdiv 64) 64 = some ((n / 64 * 64 : Nat) : Int) := by
    rw [show (n : Int).tdiv 64 = ((n / 64 : Nat) : Int) from rfl]
    exact mul_natCast (n := 64) (by omega)
  have hblock : ∀ i < n / 64, (value.data.drop (start + 64 * i)).take 64 =
      (message.drop (64 * i)).take 64 := by
    intro i hi
    rw [← hm, drop_take, take_take, drop_drop, Nat.min_eq_left (by omega)]
  obtain ⟨state, hrun, hchain, hvalues⟩ : ∃ state : Chain × List Int,
      below 0 (n / 64 * 64 : Nat) 64 (initial, newWords) (digestBlock value.data start) =
        some state ∧
      state.1 = chainOf (absorb (n / 64) initialHash message) ∧
      state.2.length = 64 := by
    refine below_spec (digestBlock value.data start) 0 (n / 64) (by omega) (by decide)
      (by decide) (by omega)
      (fun i state => state.1 = chainOf (absorb i initialHash message) ∧
        state.2.length = 64) ⟨initial_eq, rfl⟩ ?_
    rintro i hi ⟨chain, values⟩ ⟨rfl, hvalues⟩
    obtain ⟨values', hload, hvalues', hshows⟩ :=
      loadBlock_spec (start + 64 * i) hvalues hsmall (by omega)
    rw [hblock i hi] at hshows
    obtain ⟨last, hcompress, hlast⟩ := compress_spec
      (absorb i initialHash message)
      (show ((message.drop (64 * i)).take 64).length = 64 by
        rw [length_take, length_drop]
        omega) hvalues' hshows
    have hoffset : add (start : Int) (0 + 64 * (i : Int)) = some ((start + 64 * i : Nat) : Int) := by
      rw [show (0 + 64 * (i : Int)) = ((64 * i : Nat) : Int) by omega]
      exact add_natCast (by omega)
    refine ⟨(chainOf (absorb (i + 1) initialHash message), last), ?_, rfl, hlast⟩
    unfold digestBlock
    simp only [hoffset, hload, some_bind]
    rw [absorb_add i 1]; exact hcompress
  have hat : add (start : Int) ((n / 64 * 64 : Nat) : Int) = _ := add_natCast (by omega)
  have hleft : sub (n : Int) ((n / 64 * 64 : Nat) : Int) = some ((n % 64 : Nat) : Int) := by
    rw [sub_natCast (by omega) (by omega), show n - n / 64 * 64 = n % 64 by omega]
  have hfinish := finish_spec value.data (start + n / 64 * 64) (n % 64) n
    (by omega) hsmall rfl hmessage hvalues
    (absorb (n / 64) initialHash message)
  have htail : paddedTail value.data (start + n / 64 * 64) (n % 64) n =
      message.drop (n / 64 * 64) ++ padding n := by
    rw [paddedTail, ← hm, drop_take, drop_drop, show n - n / 64 * 64 = n % 64 by omega]
  have hsha := sha256_split message
  rw [hlength] at hsha
  rw [hsha, ← htail]
  unfold digestRange
  have hguard : ((start : Int) ≥ 0 ∧ (stop : Int) ≥ start ∧ (stop : Int) ≤ value.data.length) :=
    ⟨by omega, by omega, by omega⟩
  have hbound : (n : Int) < 2305843009213693952 := by omega
  simp only [guard, if_pos hguard, hsize, if_pos hbound, hfull, hrun, hat, hleft, some_bind,
    hchain]
  exact hfinish

/-! ## The hasher -/

/-- What the hasher keeps of a message: the value after its complete blocks, and
the bytes behind them. -/
structure Kept (chain : Chain) (used : Int) (pending : List UInt8) (words : List Int)
    (message : List UInt8) : Prop where
  value : chain = chainOf (absorb (message.length / 64) initialHash message)
  count : used = (message.length % 64 : Nat)
  room : pending.length = 64
  tail : pending.take (message.length % 64) = message.drop (message.length / 64 * 64)
  scratch : words.length = 64

structure Holds (state : State) (message : List UInt8) : Prop where
  kept : Kept state.chain state.used state.pending state.words message
  size : state.size = message.length
  k : state.k = constants

theorem holds_new : Holds newHasher [] where
  kept := ⟨initial_eq, rfl, rfl, rfl, rfl⟩
  size := rfl
  k := rfl

variable {message : List UInt8} {state : State}

theorem snapshot_spec (h : Holds state message) (hsmall : message.length < 2 ^ 61) :
    snapshot state = some (sha256 message) := by
  have hpending := h.kept.room
  have hfinish := finish_spec state.pending 0 (message.length % 64) message.length (by omega)
    (by omega) rfl hsmall (show newWords.length = 64 from rfl)
    (absorb (message.length / 64) initialHash message)
  have htail : paddedTail state.pending 0 (message.length % 64) message.length =
      message.drop (message.length / 64 * 64) ++ padding message.length := by
    rw [paddedTail, drop_zero, h.kept.tail]
  rw [sha256_split, ← htail]
  unfold snapshot
  rw [h.kept.value, h.kept.count, h.size, h.k]; exact hfinish

/-- The loop that fills the unfinished block takes what fits and what there is. -/
theorem fill_spec (hstop : stop ≤ value.length) (hsmall : value.length < 2 ^ 63) :
    ∀ (count used offset bound : Nat) (pending front : List UInt8),
    count = min (64 - used) (stop - offset) → used ≤ 64 → offset ≤ stop → count < bound →
    pending.length = 64 → pending.take used = front →
    ∃ pending', fill value stop bound used offset pending =
        some (((used + count : Nat) : Int), ((offset + count : Nat) : Int), pending') ∧
      pending'.length = 64 ∧
      pending'.take (used + count) = front ++ (value.drop offset).take count := by
  intro count
  induction count with
  | zero =>
    intro used offset bound pending front hcount hused hoffset hbound hpending hfront
    obtain ⟨bound, rfl⟩ : ∃ b, bound = b + 1 := ⟨bound - 1, by omega⟩
    refine ⟨pending, ?_, hpending, by simpa using hfront⟩
    rw [fill, if_neg (by omega)]; rfl
  | succ count ih =>
    intro used offset bound pending front hcount hused hoffset hbound hpending hfront
    obtain ⟨bound, rfl⟩ : ∃ b, bound = b + 1 := ⟨bound - 1, by omega⟩
    have hget : value[offset]? = some (value.getD offset 0) := by
      rw [getD_eq_getElem?_getD, getElem?_eq_getElem (by omega)]; rfl
    obtain ⟨pending', hset, hlength, htake⟩ := setByte_snoc (i := used) (by omega) hfront
      (value.getD offset 0).toNat_lt
    have hadd : add (used : Int) 1 = some ((used + 1 : Nat) : Int) :=
      add_natCast (n := 1) (by omega)
    have hnext : add (offset : Int) 1 = some ((offset + 1 : Nat) : Int) :=
      add_natCast (n := 1) (by omega)
    obtain ⟨last, hlast, hlength', htake'⟩ := ih (used + 1) (offset + 1) bound pending' _
      (by omega) (by omega) (by omega) (by omega) (by omega) htake
    refine ⟨last, ?_, hlength', ?_⟩
    · rw [fill, if_pos (by omega)]
      simp only [getByte_natCast hget, hset, hadd, hnext, some_bind]
      rw [hlast, show used + 1 + count = used + (count + 1) by omega,
        show offset + 1 + count = offset + (count + 1) by omega]
    · rw [show used + (count + 1) = used + 1 + count by omega, htake', append_assoc,
        UInt8.ofNat_toNat, drop_eq_getElem_cons (by omega : offset < value.length),
        getD_eq_getElem?_getD, getElem?_eq_getElem (by omega)]
      rfl

/-- The loop that keeps the tail is the one that fills the block, when the tail fits. -/
theorem keep_eq (value : List UInt8) (stop : Int) :
    ∀ (bound : Nat) (used offset : Int) (pending : List UInt8), used + (stop - offset) ≤ 64 →
    keep value stop bound used offset pending =
      (fill value stop bound used offset pending).map fun left => (left.1, left.2.2) := by
  intro bound
  induction bound with
  | zero => intros; rfl
  | succ bound ih =>
    intro used offset pending hfits
    rw [keep, fill]
    by_cases hleft : offset < stop
    · rw [if_pos hleft, if_pos ⟨by omega, hleft⟩]
      cases hbyte : getByte value offset with
      | none => rfl
      | some byte =>
        simp only [some_bind]
        cases hset : setByte pending used byte with
        | none => rfl
        | some pending' =>
          cases hused : add used 1 with
          | none => rfl
          | some used' =>
            cases hoffset : add offset 1 with
            | none => rfl
            | some offset' =>
              have h₁ := checked_value hused
              have h₂ := checked_value hoffset
              exact ih used' offset' pending' (by omega)
    · rw [if_neg hleft, if_neg (by omega)]; rfl

theorem blocks_spec (hstop : stop ≤ value.length) (hsmall : value.length < 2 ^ 63) :
    ∀ (count offset bound : Nat) (x : Hash) (values : List Int), count = (stop - offset) / 64 →
    offset ≤ stop → count < bound → values.length = 64 →
    ∃ values', blocks value stop constants bound offset (chainOf x) values =
        some (((offset + 64 * count : Nat) : Int), chainOf (absorb count x (value.drop offset)),
          values') ∧ values'.length = 64 := by
  intro count
  induction count with
  | zero =>
    intro offset bound x values hcount hoffset hbound hvalues
    obtain ⟨bound, rfl⟩ : ∃ b, bound = b + 1 := ⟨bound - 1, by omega⟩
    have hleft : sub (stop : Int) (offset : Int) = _ := sub_natCast hoffset (by omega)
    refine ⟨values, ?_, hvalues⟩
    rw [blocks, hleft, some_bind, if_neg (by omega)]; rfl
  | succ count ih =>
    intro offset bound x values hcount hoffset hbound hvalues
    obtain ⟨bound, rfl⟩ : ∃ b, bound = b + 1 := ⟨bound - 1, by omega⟩
    have hleft : sub (stop : Int) (offset : Int) = _ := sub_natCast hoffset (by omega)
    have hnext : add (offset : Int) 64 = some ((offset + 64 : Nat) : Int) :=
      add_natCast (n := 64) (by omega)
    obtain ⟨loaded, hload, hloaded, hshows⟩ := loadBlock_spec offset hvalues hsmall (by omega)
    obtain ⟨last, hcompress, hlast⟩ := compress_spec x
      (show ((value.drop offset).take 64).length = 64 by
        rw [length_take, length_drop]
        omega) hloaded hshows
    obtain ⟨values', hrun, hvalues'⟩ := ih (offset + 64) bound
      (SecureHash.compress x ((value.drop offset).take 64)) last (by omega) (by omega) (by omega)
      hlast
    refine ⟨values', ?_, hvalues'⟩
    rw [blocks, hleft, some_bind, if_pos (by omega)]
    simp only [hload, hcompress, hnext, some_bind]
    rw [hrun, absorb, drop_drop, show offset + 64 + 64 * count = offset + 64 * (count + 1) by omega]

section
variable {chain : Chain} {used : Int} {pending : List UInt8} {values : List Int}
  {message front back : List UInt8}

theorem Kept.more (h : Kept chain used pending values message) {pending' : List UInt8}
    (back : List UInt8)
    (hfits : message.length % 64 + back.length < 64) (hroom : pending'.length = 64)
    (htail : pending'.take (message.length % 64 + back.length) =
      pending.take (message.length % 64) ++ back) :
    Kept chain ((message.length % 64 + back.length : Nat) : Int) pending' values
      (message ++ back) := by
  have hblocks : (message ++ back).length / 64 = message.length / 64 := by
    rw [length_append]; omega
  have hused : (message ++ back).length % 64 = message.length % 64 + back.length := by
    rw [length_append]; omega
  constructor
  case value => rw [hblocks, absorb_left _ (by omega), h.value]
  case count => rw [hused]
  case room => exact hroom
  case tail => rw [hused, hblocks, htail, h.tail, drop_append_of_le_length (by omega)]
  case scratch => exact h.scratch

theorem Kept.blocks (h : Kept chain used pending values message) {count : Nat}
    {values' : List Int} (hwhole : message.length % 64 = 0) (hback : back.length = 64 * count)
    (hvalues : values'.length = 64) :
    Kept (chainOf (absorb count (absorb (message.length / 64) initialHash message) back))
      0 pending values' (message ++ back) := by
  have hblocks : (message ++ back).length / 64 = message.length / 64 + count := by
    rw [length_append]; omega
  have hused : (message ++ back).length % 64 = 0 := by
    rw [length_append]; omega
  have hall : 64 * (message.length / 64) = message.length := by omega
  constructor
  case value =>
    rw [hblocks, absorb_add, absorb_left _ (by omega), hall,
      drop_left]
  case count => rw [hused]; rfl
  case room => exact h.room
  case tail =>
    rw [hused, drop_eq_nil_of_le (by omega)]; rfl
  case scratch => exact hvalues

theorem Kept.complete (h : Kept chain used pending values message) {pending' : List UInt8}
    {values' : List Int} (hfull : message.length % 64 + back.length = 64)
    (hroom : pending'.length = 64)
    (htail : pending' = pending.take (message.length % 64) ++ back) (hvalues : values'.length = 64) :
    Kept (chainOf (SecureHash.compress
      (absorb (message.length / 64) SecureHash.initialHash message) pending')) 0 pending' values'
      (message ++ back) := by
  have hblocks : (message ++ back).length / 64 = message.length / 64 + 1 := by
    rw [length_append]; omega
  have hused : (message ++ back).length % 64 = 0 := by
    rw [length_append]; omega
  have hlast : ((message ++ back).drop (64 * (message.length / 64))).take 64 = pending' := by
    rw [drop_append_of_le_length (by omega), Nat.mul_comm, ← h.tail, ← htail,
      take_of_length_le (by omega)]
  constructor
  case value =>
    rw [hblocks, absorb_add, absorb_left _ (by omega), absorb, hlast]
    rfl
  case count => rw [hused]; rfl
  case room => exact hroom
  case tail =>
    rw [hused, drop_eq_nil_of_le (by omega)]; rfl
  case scratch => exact hvalues

end

/-- What there is from one place to another. -/
def slice (value : List UInt8) (start stop : Nat) : List UInt8 := (value.drop start).take (stop - start)

theorem slice_length (start : Nat) (h : stop ≤ value.length) :
    (slice value start stop).length = stop - start := by
  rw [slice, length_take, length_drop]; omega

theorem slice_append {middle : Nat} (h₁ : start ≤ middle) (h₂ : middle ≤ stop) :
    slice value start middle ++ slice value middle stop =
      slice value start stop := by
  unfold slice
  have hsplit : stop - start = (middle - start) + (stop - middle) := by omega
  rw [hsplit, take_add, drop_drop, show start + (middle - start) = middle by omega]

/-- The unfinished block takes bytes until it is complete or there are no more. -/
theorem complete_spec (h : Holds state message) (hle : start ≤ stop) (hstop : stop ≤ value.length)
    (hsmall : value.length < 2 ^ 63) :
    ∃ (offset : Nat) (state' : State), complete state value start stop =
        some ((offset : Int), state') ∧
      start ≤ offset ∧ offset ≤ stop ∧
      Kept state'.chain state'.used state'.pending state'.words
        (message ++ slice value start offset) ∧
      ((message ++ slice value start offset).length % 64 = 0 ∨ offset = stop) ∧
      state'.size = state.size ∧ state'.k = constants := by
  have hkept := h.kept
  unfold complete
  by_cases hused : message.length % 64 = 0
  · refine ⟨start, state, ?_, le_rfl, hle, ?_, ?_, rfl, h.k⟩
    · rw [hkept.count, hused, if_neg (by decide)]
    · simpa [slice] using hkept
    · left
      simpa [slice] using hused
  · obtain ⟨count, hcount⟩ : ∃ c, c = min (64 - message.length % 64) (stop - start) := ⟨_, rfl⟩
    obtain ⟨pending', hfill, hroom, htail⟩ := fill_spec hstop hsmall count (message.length % 64)
      start ((stop - start : Nat) + 1) state.pending _ hcount (by omega) hle (by omega) hkept.room rfl
    have hbound : ((stop : Int) - start).toNat = stop - start := by omega
    have hslice : slice value start (start + count) = (value.drop start).take count := by
      rw [slice, Nat.add_sub_cancel_left]
    have hlength : (slice value start (start + count)).length = count := by
      rw [slice_length _ (by omega), Nat.add_sub_cancel_left]
    rw [hkept.count, if_pos (by omega), hbound, hfill]
    simp only [some_bind]
    by_cases hfull : message.length % 64 + count = 64
    · obtain ⟨loaded, hload, hloaded, hshows⟩ := loadBlock_spec 0 hkept.scratch
        (show pending'.length < 2 ^ 63 by omega) (by omega)
      rw [drop_zero, take_of_length_le (by omega)] at hshows
      obtain ⟨last, hcompress, hlast⟩ := compress_spec
        (absorb (message.length / 64) initialHash message) hroom hloaded hshows
      rw [← hkept.value, ← h.k] at hcompress
      have hload' : loadBlock state.words pending' 0 = some loaded := hload
      rw [if_pos (by omega)]
      simp only [hload', hcompress, some_bind]
      refine ⟨start + count, _, rfl, by omega, by omega, ?_, ?_, rfl, h.k⟩
      · refine hkept.complete (by rw [hlength]; exact hfull) hroom ?_ hlast
        rw [hslice, ← htail, take_of_length_le (by omega)]
      · rw [length_append]; omega
    · rw [if_neg (by omega)]
      refine ⟨start + count, _, rfl, by omega, by omega, ?_, .inr (by omega), rfl, h.k⟩
      have hmore := hkept.more (slice value start (start + count))
        (by omega) hroom (by rw [hlength, htail, hslice])
      rw [hlength] at hmore; exact hmore

theorem update_spec (h : Holds state message) (value : Bytes) (hle : start ≤ stop)
    (hstop : stop ≤ value.data.length) (hmessage : message.length + (stop - start) < 2 ^ 61) :
    ∃ state', update state value start stop = some state' ∧
      Holds state' (message ++ slice value.data start stop) := by
  have hsmall := value.small
  obtain ⟨offset, middle, hcomplete, hfrom, hto, hkept, hwhole, hsize, hk⟩ :=
    complete_spec h hle hstop hsmall
  obtain ⟨count, hcount⟩ : ∃ c, c = (stop - offset) / 64 := ⟨_, rfl⟩
  generalize hfront : message ++ slice value.data start offset = front at hkept hwhole
  -- The complete blocks of the buffer are taken where they lie.
  obtain ⟨values', hblocks, hvalues'⟩ := blocks_spec hstop hsmall count offset
    ((stop - offset : Nat) + 1) (absorb (front.length / 64) initialHash front)
    middle.words hcount hto (by omega) hkept.scratch
  have hslice : slice value.data offset (offset + 64 * count) =
      (value.data.drop offset).take (64 * count) := by rw [slice, Nat.add_sub_cancel_left]
  have hlength : (slice value.data offset (offset + 64 * count)).length = 64 * count := by
    rw [slice_length _ (by omega), Nat.add_sub_cancel_left]
  have habsorb : ∀ x, absorb count x (value.data.drop offset) =
      absorb count x (slice value.data offset (offset + 64 * count)) := by
    intro x
    rw [hslice, ← take_append_drop (64 * count) (value.data.drop offset),
      absorb_left _ (by rw [← hslice, hlength]),
      take_left' (by rw [← hslice, hlength])]
  have hkept' : Kept (chainOf (absorb count
      (absorb (front.length / 64) initialHash front) (value.data.drop offset)))
      middle.used middle.pending values'
      (front ++ slice value.data offset (offset + 64 * count)) := by
    rcases hwhole with hzero | rfl
    · rw [habsorb, hkept.count, hzero]
      exact hkept.blocks hzero hlength hvalues'
    · obtain rfl : count = 0 := by omega
      rw [hslice, take_zero, append_nil]
      exact ⟨rfl, hkept.count, hkept.room, hkept.tail, hvalues'⟩
  generalize hbehind : front ++ slice value.data offset (offset + 64 * count) = behind at hkept'
  have hbehindLength : behind.length = front.length + 64 * count := by
    rw [← hbehind, length_append, hlength]
  -- What is left fits in the unfinished block.
  have hfits : behind.length % 64 + (stop - (offset + 64 * count)) < 64 := by
    rcases hwhole with hzero | rfl <;> omega
  obtain ⟨pending', hfill, hroom, htail⟩ := fill_spec hstop hsmall (stop - (offset + 64 * count))
    (behind.length % 64) (offset + 64 * count) ((stop - (offset + 64 * count) : Nat) + 1)
    middle.pending _ (by omega) (by omega) (by omega) (by omega) hkept'.room rfl
  have hlast : (slice value.data (offset + 64 * count) stop).length =
      stop - (offset + 64 * count) := slice_length _ hstop
  have hmore := hkept'.more (slice value.data (offset + 64 * count) stop)
    (by rw [hlast]; exact hfits) hroom (by rw [hlast, htail]; rfl)
  have hall : behind ++ slice value.data (offset + 64 * count) stop =
      message ++ slice value.data start stop := by
    rw [← hbehind, ← hfront, append_assoc, append_assoc,
      slice_append (by omega) (by omega), slice_append hfrom hto]
  rw [hall, hlast] at hmore
  have hkeep := keep_eq value.data stop
    ((stop - (offset + 64 * count) : Nat) + 1) ((behind.length % 64 : Nat) : Int)
    ((offset + 64 * count : Nat) : Int) middle.pending (by omega)
  rw [hfill] at hkeep
  have hstep : sub (stop : Int) (start : Int) = _ := sub_natCast hle (by omega)
  have hroom' : sub 2305843009213693952 state.size =
      some ((2 ^ 61 - message.length : Nat) : Int) := by
    rw [h.size]
    have hlimit : sub ((2 ^ 61 : Nat) : Int) (message.length : Int) = _ :=
      sub_natCast (by omega) (by decide)
    exact hlimit
  have htotal : add state.size ((stop - start : Nat) : Int) =
      some ((message.length + (stop - start) : Nat) : Int) := by
    rw [h.size]; exact add_natCast (by omega)
  have hguard : ((start : Int) ≥ 0 ∧ (stop : Int) ≥ start ∧ (stop : Int) ≤ value.data.length) :=
    ⟨by omega, by omega, by omega⟩
  have hguard' : ((stop - start : Nat) : Int) < ((2 ^ 61 - message.length : Nat) : Int) := by omega
  have hb₁ : ((stop : Int) - offset).toNat = stop - offset := by omega
  have hb₂ : ((stop : Int) - ((offset + 64 * count : Nat) : Int)).toNat =
      stop - (offset + 64 * count) := by omega
  have hrun : update state value start stop = some
      { middle with
        chain := chainOf (absorb count (absorb (front.length / 64) initialHash front)
          (value.data.drop offset))
        size := ((message.length + (stop - start) : Nat) : Int)
        used := ((behind.length % 64 + (stop - (offset + 64 * count)) : Nat) : Int)
        pending := pending'
        words := values' } := by
    unfold update
    simp only [guard, if_pos hguard, hstep, hroom', if_pos hguard', hcomplete, Option.pure_def,
      some_bind, hb₁, hkept.value, hk, hblocks, hb₂, hkept'.count, hkeep, Option.map_some, hsize,
      htotal]
  refine ⟨_, hrun, hmore, ?_, hk⟩
  rw [length_append, slice_length _ hstop]

/-! ## Messages in pieces -/

/-- What a program does with a hasher. -/
inductive Action where
  | update (value : Bytes) (start stop : Nat)
  | snapshot

def Action.Valid : Action → Prop
  | .update value start stop => start ≤ stop ∧ stop ≤ value.data.length
  | .snapshot => True

def Action.added : Action → List UInt8
  | .update value start stop => slice value.data start stop
  | .snapshot => []

def messageOf (actions : List Action) : List UInt8 := actions.flatMap Action.added

def runActions (state : State) : List Action → Option (List (List UInt8) × State)
  | [] => some ([], state)
  | .update value start stop :: rest => do
    let state ← update state value start stop
    runActions state rest
  | .snapshot :: rest => do
    let digest ← snapshot state
    let others ← runActions state rest
    some (digest :: others.1, others.2)

/-- The digests of the standard, of what precedes each snapshot. -/
def digestsAfter (message : List UInt8) : List Action → List (List UInt8)
  | [] => []
  | .update value start stop :: rest => digestsAfter (message ++ slice value.data start stop) rest
  | .snapshot :: rest => sha256 message :: digestsAfter message rest

theorem runActions_spec (actions : List Action) :
    ∀ {state : State} {message : List UInt8}, Holds state message →
    (∀ action ∈ actions, action.Valid) → (message ++ messageOf actions).length < 2 ^ 61 →
    ∃ state', runActions state actions = some (digestsAfter message actions, state') ∧
      Holds state' (message ++ messageOf actions) := by
  induction actions with
  | nil =>
    intro state message h _ _; exact ⟨state, rfl, by simpa [messageOf] using h⟩
  | cons action rest ih =>
    intro state message h hvalid hsmall
    have hrest : ∀ action ∈ rest, action.Valid := fun a ha => hvalid a (.tail _ ha)
    have hfirst : action.Valid := hvalid action (.head _)
    cases action with
    | update value start stop =>
      have hcons : messageOf (.update value start stop :: rest) =
          slice value.data start stop ++ messageOf rest := rfl
      rw [hcons, ← append_assoc] at hsmall ⊢
      have hlength := slice_length start hfirst.2
      have hadd : message.length + (stop - start) < 2 ^ 61 := by
        rw [length_append, length_append] at hsmall; omega
      obtain ⟨middle, hupdate, hholds⟩ := update_spec h value hfirst.1 hfirst.2 hadd
      obtain ⟨state', hrun, hholds'⟩ := ih hholds hrest hsmall
      refine ⟨state', ?_, hholds'⟩
      rw [runActions, hupdate]; exact hrun
    | snapshot =>
      have hcons : messageOf (.snapshot :: rest) = messageOf rest := rfl
      obtain ⟨state', hrun, hholds⟩ := ih h hrest hsmall
      have hmessage : message.length < 2 ^ 61 := by
        rw [length_append] at hsmall; omega
      refine ⟨state', ?_, hholds⟩
      rw [runActions, snapshot_spec h hmessage, hrun]; rfl

/-- A message of fewer than 2^61 bytes that the hasher takes in any pieces, with any
snapshots between them: no operation faults, every snapshot is the digest of what
precedes it, and the last one is the digest of the message in one call. -/
theorem sha256_partition (actions : List Action) (hvalid : ∀ action ∈ actions, action.Valid)
    (whole : Bytes) (hwhole : whole.data = messageOf actions) (hsmall : whole.data.length < 2 ^ 61) :
    ∃ state, runActions newHasher actions = some (digestsAfter [] actions, state) ∧
      snapshot state = some (sha256 whole.data) ∧ digest whole = some (sha256 whole.data) := by
  rw [hwhole] at hsmall
  obtain ⟨state, hrun, hholds⟩ := runActions_spec actions holds_new hvalid (by simpa using hsmall)
  rw [← hwhole] at hholds
  rw [← hwhole] at hsmall
  refine ⟨state, hrun, snapshot_spec hholds hsmall, ?_⟩
  have hcall := digestRange_spec whole (Nat.zero_le _) le_rfl (by exact hsmall)
  rw [drop_zero, Nat.sub_zero, take_length] at hcall; exact hcall

def abc : Bytes := ⟨[97, 98, 99], by decide⟩

theorem sha256_partition_abc : ∃ state,
    runActions newHasher [.update abc 0 2, .snapshot, .update abc 2 2, .update abc 2 3] =
      some ([sha256 [97, 98]], state) ∧
    snapshot state = some (sha256 [97, 98, 99]) ∧ digest abc = some (sha256 [97, 98, 99]) :=
  sha256_partition [.update abc 0 2, .snapshot, .update abc 2 2, .update abc 2 3]
    (by simp [Action.Valid, abc]) abc rfl (by decide)

end Loom.Hashing

import Mathlib.Data.Nat.Bitwise
import Mathlib.Data.List.Basic
import Mathlib.Tactic.Common

/-
  The secure hash SHA-256 of FIPS 180-4, for messages of bytes. The standard pads a
  string of bits; `padded` does the same to the bytes of a message.
-/

namespace Loom.SecureHash

open List

abbrev Word := BitVec 32

/-! ## Functions and constants (sections 4.1.2, 4.2.2 and 5.3.3) -/

def ch (x y z : Word) : Word := (x &&& y) ^^^ (~~~x &&& z)

def maj (x y z : Word) : Word := (x &&& y) ^^^ (x &&& z) ^^^ (y &&& z)

def bigSigma0 (x : Word) : Word := x.rotateRight 2 ^^^ x.rotateRight 13 ^^^ x.rotateRight 22

def bigSigma1 (x : Word) : Word := x.rotateRight 6 ^^^ x.rotateRight 11 ^^^ x.rotateRight 25

def sigma0 (x : Word) : Word := x.rotateRight 7 ^^^ x.rotateRight 18 ^^^ x >>> 3

def sigma1 (x : Word) : Word := x.rotateRight 17 ^^^ x.rotateRight 19 ^^^ x >>> 10

def roundConstants : List Word := [
  0x428a2f98, 0x71374491, 0xb5c0fbcf, 0xe9b5dba5, 0x3956c25b, 0x59f111f1, 0x923f82a4, 0xab1c5ed5,
  0xd807aa98, 0x12835b01, 0x243185be, 0x550c7dc3, 0x72be5d74, 0x80deb1fe, 0x9bdc06a7, 0xc19bf174,
  0xe49b69c1, 0xefbe4786, 0x0fc19dc6, 0x240ca1cc, 0x2de92c6f, 0x4a7484aa, 0x5cb0a9dc, 0x76f988da,
  0x983e5152, 0xa831c66d, 0xb00327c8, 0xbf597fc7, 0xc6e00bf3, 0xd5a79147, 0x06ca6351, 0x14292967,
  0x27b70a85, 0x2e1b2138, 0x4d2c6dfc, 0x53380d13, 0x650a7354, 0x766a0abb, 0x81c2c92e, 0x92722c85,
  0xa2bfe8a1, 0xa81a664b, 0xc24b8b70, 0xc76c51a3, 0xd192e819, 0xd6990624, 0xf40e3585, 0x106aa070,
  0x19a4c116, 0x1e376c08, 0x2748774c, 0x34b0bcb5, 0x391c0cb3, 0x4ed8aa4a, 0x5b9cca4f, 0x682e6ff3,
  0x748f82ee, 0x78a5636f, 0x84c87814, 0x8cc70208, 0x90befffa, 0xa4506ceb, 0xbef9a3f7, 0xc67178f2]

/-- Eight working variables, and the hash value they are added to. -/
structure Hash where
  a : Word
  b : Word
  c : Word
  d : Word
  e : Word
  f : Word
  g : Word
  h : Word
  deriving DecidableEq

def initialHash : Hash :=
  ⟨0x6a09e667, 0xbb67ae85, 0x3c6ef372, 0xa54ff53a, 0x510e527f, 0x9b05688c, 0x1f83d9ab, 0x5be0cd19⟩

/-! ## Padding and parsing (sections 5.1.1 and 5.2.1) -/

/-- A number in bytes, the high ones first. -/
def bigEndian (count n : Nat) : List UInt8 :=
  (List.range count).map fun i => UInt8.ofNat (n / 256 ^ (count - 1 - i))

/-- The zero bytes that fill the last block up to the length. -/
def zeros (size : Nat) : Nat := (119 - size % 64) % 64

def padding (size : Nat) : List UInt8 :=
  0x80 :: (List.replicate (zeros size) 0 ++ bigEndian 8 (8 * size))

def padded (message : List UInt8) : List UInt8 := message ++ padding message.length

def wordOf (a b c d : UInt8) : Word := a.toBitVec ++ b.toBitVec ++ c.toBitVec ++ d.toBitVec

def words : List UInt8 → List Word
  | a :: b :: c :: d :: rest => wordOf a b c d :: words rest
  | _ => []

/-! ## The hash (section 6.2.2) -/

/-- The first `16 + n` words of the message schedule. -/
def schedule (block : List Word) : Nat → List Word
  | 0 => block
  | n + 1 =>
    let w := schedule block n
    w ++ [sigma1 (w.getD (n + 14) 0) + w.getD (n + 9) 0 + sigma0 (w.getD (n + 1) 0) + w.getD n 0]

def round (hash : Hash) (k w : Word) : Hash :=
  let t1 := hash.h + bigSigma1 hash.e + ch hash.e hash.f hash.g + k + w
  let t2 := bigSigma0 hash.a + maj hash.a hash.b hash.c
  ⟨t1 + t2, hash.a, hash.b, hash.c, hash.d + t1, hash.e, hash.f, hash.g⟩

/-- The working variables after `n` rounds. -/
def rounds (hash : Hash) (w : List Word) : Nat → Hash
  | 0 => hash
  | n + 1 => round (rounds hash w n) (roundConstants.getD n 0) (w.getD n 0)

def Hash.plus (x y : Hash) : Hash :=
  ⟨x.a + y.a, x.b + y.b, x.c + y.c, x.d + y.d, x.e + y.e, x.f + y.f, x.g + y.g, x.h + y.h⟩

def compress (hash : Hash) (block : List UInt8) : Hash :=
  hash.plus (rounds hash (schedule (words block) 48) 64)

/-- The hash value after some blocks of 64 bytes. -/
def absorb : Nat → Hash → List UInt8 → Hash
  | 0, hash, _ => hash
  | n + 1, hash, bytes => absorb n (compress hash (bytes.take 64)) (bytes.drop 64)

def Hash.toBytes (x : Hash) : List UInt8 :=
  bigEndian 4 x.a.toNat ++ bigEndian 4 x.b.toNat ++ bigEndian 4 x.c.toNat ++ bigEndian 4 x.d.toNat ++
    bigEndian 4 x.e.toNat ++ bigEndian 4 x.f.toNat ++ bigEndian 4 x.g.toNat ++ bigEndian 4 x.h.toNat

def sha256 (message : List UInt8) : List UInt8 :=
  let bytes := padded message
  (absorb (bytes.length / 64) initialHash bytes).toBytes

/-! ## Lengths and blocks -/

theorem bigEndian_length (count n : Nat) : (bigEndian count n).length = count := by
  simp [bigEndian]

theorem padding_length (size : Nat) : (padding size).length = zeros size + 9 := by
  simp [padding, bigEndian_length]

theorem padded_length (message : List UInt8) :
    (padded message).length = message.length + zeros message.length + 9 := by
  rw [padded, length_append, padding_length]; omega

theorem schedule_length (block : List Word) (n : Nat) :
    (schedule block n).length = block.length + n := by
  induction n with
  | zero => rfl
  | succ n ih => simp [schedule, ih, Nat.add_assoc]

/-- Later steps leave the words of the schedule alone. -/
theorem schedule_getD (block : List Word) {i n : Nat} (m : Nat) (h : i < block.length + n) :
    (schedule block (n + m)).getD i 0 = (schedule block n).getD i 0 := by
  induction m with
  | zero => rfl
  | succ m ih =>
    rw [← Nat.add_assoc, schedule, getD_append _ _ _ _ (by rw [schedule_length]; omega), ih]

theorem words_length (bytes : List UInt8) : (words bytes).length = bytes.length / 4 := by
  induction bytes using words.induct with
  | case1 a b c d rest ih => simp [words]; omega
  | case2 bytes h =>
    match bytes, h with
    | [], _ => rfl
    | [_], _ => simp [words]
    | [_, _], _ => simp [words]
    | [_, _, _], _ => simp [words]
    | a :: b :: c :: d :: rest, h => exact absurd rfl (h a b c d rest)

/-- The word at a place of a string of bytes. -/
theorem words_getD (bytes : List UInt8) (i : Nat) (h : 4 * i + 4 ≤ bytes.length) :
    (words bytes).getD i 0 = wordOf (bytes.getD (4 * i) 0) (bytes.getD (4 * i + 1) 0)
      (bytes.getD (4 * i + 2) 0) (bytes.getD (4 * i + 3) 0) := by
  induction i generalizing bytes with
  | zero =>
    match bytes, h with
    | a :: b :: c :: d :: rest, _ => rfl
  | succ i ih =>
    match bytes, h with
    | a :: b :: c :: d :: rest, h =>
      have hrest := ih rest (by simp only [length_cons] at h; omega)
      simpa [words, Nat.mul_add] using hrest

/-- Blocks before the end of the first part are blocks of the first part. -/
theorem absorb_left {n : Nat} {hash : Hash} {front : List UInt8} (back : List UInt8)
    (h : 64 * n ≤ front.length) : absorb n hash (front ++ back) = absorb n hash front := by
  induction n generalizing hash front with
  | zero => rfl
  | succ n ih =>
    rw [absorb, absorb, take_append_of_le_length (by omega),
      drop_append_of_le_length (by omega), ih (by rw [length_drop]; omega)]

theorem absorb_add (m n : Nat) (hash : Hash) (bytes : List UInt8) :
    absorb (m + n) hash bytes = absorb n (absorb m hash bytes) (bytes.drop (64 * m)) := by
  induction m generalizing hash bytes with
  | zero => simp [absorb]
  | succ m ih =>
    rw [Nat.add_right_comm, absorb, absorb, ih, drop_drop]
    congr 2
    omega

end Loom.SecureHash

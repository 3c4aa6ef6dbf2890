import Loom.Library.Machine
import Loom.Library.SecureHash

/-
  SHA-256 in checked 64-bit integers.

  Words are integers from 0 to 2^32 - 1; sums are masked after they are taken. A
  message is hashed in one call, or by a hasher that takes it in pieces and keeps
  the unfinished block.

  Correspondence (std/hash/sha256 ↔ Lean), where names differ:
    `get`, `set` of lists and bytes ↔ `get`, `set`, `getByte`, `setByte`
    `new_words`, `zeroes` ↔ `newWords`, `zeroes`
    `rotate`, `load_block`, `padded_byte`, `compress`, `write_word`, `finish`
      ↔ the same names in camel case
    `digest(value, start, end)` ↔ `digestRange`; `digest(value)`, `digest`
    `digest(hasher)` ↔ `snapshot`
  `none` is a fault: an operation out of range, an index out of bounds, a failed
  assertion. Buffers that the source writes in place are handed on.
-/

namespace Loom.Hashing

open Machine

/-! ## Buffers -/

/-- The bytes of a buffer, no more than can be counted. -/
structure Bytes where
  data : List UInt8
  small : data.length < 2 ^ 63

def get (values : List Int) (index : Int) : Option Int :=
  if 0 ≤ index then values[index.toNat]? else none

def set (values : List Int) (index value : Int) : Option (List Int) :=
  if 0 ≤ index ∧ index < values.length then some (values.set index.toNat value) else none

def getByte (bytes : List UInt8) (index : Int) : Option Int :=
  if 0 ≤ index then bytes[index.toNat]?.map fun byte => (byte.toNat : Int) else none

def setByte (bytes : List UInt8) (index value : Int) : Option (List UInt8) :=
  if (0 ≤ index ∧ index < bytes.length) ∧ 0 ≤ value ∧ value < 256 then
    some (bytes.set index.toNat (UInt8.ofNat value.toNat))
  else none

def newWords : List Int := List.replicate 64 0

def zeroes (size : Nat) : List UInt8 := List.replicate size 0

/-! ## Compression -/

structure Chain where
  h0 : Int
  h1 : Int
  h2 : Int
  h3 : Int
  h4 : Int
  h5 : Int
  h6 : Int
  h7 : Int
  deriving DecidableEq

def initial : Chain where
  h0 := 1779033703
  h1 := 3144134277
  h2 := 1013904242
  h3 := 2773480762
  h4 := 1359893119
  h5 := 2600822924
  h6 := 528734635
  h7 := 1541459225

def constants : List Int := [
  1116352408, 1899447441, 3049323471, 3921009573, 961987163, 1508970993, 2453635748, 2870763221,
  3624381080, 310598401, 607225278, 1426881987, 1925078388, 2162078206, 2614888103, 3248222580,
  3835390401, 4022224774, 264347078, 604807628, 770255983, 1249150122, 1555081692, 1996064986,
  2554220882, 2821834349, 2952996808, 3210313671, 3336571891, 3584528711, 113926993, 338241895,
  666307205, 773529912, 1294757372, 1396182291, 1695183700, 1986661051, 2177026350, 2456956037,
  2730485921, 2820302411, 3259730800, 3345764771, 3516065817, 3600352804, 4094571909, 275423344,
  430227734, 506948616, 659060556, 883997877, 958139571, 1322822218, 1537002063, 1747873779,
  1955562222, 2024104815, 2227730452, 2361852424, 2428436474, 2756734187, 3204031479, 3329325298]

/-- The low word of an integer. -/
def low (value : Int) : Int := bitAnd value 4294967295

def rotate (value count : Int) : Option Int := do
  let right ← shiftRight value count
  let left ← shiftLeft value (← sub 32 count)
  some (low (bitOr right left))

/-- A turn of the loop of `load_block`. -/
def loadWord (value : List UInt8) (start index : Int) (words : List Int) : Option (List Int) := do
  let position ← add start (← mul index 4)
  let first ← shiftLeft (← getByte value position) 24
  let second ← shiftLeft (← getByte value (← add position 1)) 16
  let third ← shiftLeft (← getByte value (← add position 2)) 8
  let fourth ← getByte value (← add position 3)
  set words index (bitOr (bitOr (bitOr first second) third) fourth)

def loadBlock (words : List Int) (value : List UInt8) (start : Int) : Option (List Int) :=
  below 0 16 1 words (loadWord value start)

def paddedByte (value : List UInt8) (start index size stop messageSize : Int) : Option Int := do
  if index < size then
    getByte value (← add start index)
  else if index = size then
    some 128
  else
    let edge ← sub stop 8
    if index < edge then
      some 0
    else
      let bits ← shiftLeft messageSize 3
      let place ← mul (← sub (← sub stop 1) index) 8
      let byte ← shiftRight bits place
      some (bitAnd byte 255)

/-- A turn of the first loop of `compress`: the next word of the schedule. -/
def extendWord (index : Int) (words : List Int) : Option (List Int) := do
  let x ← get words (← sub index 15)
  let y ← get words (← sub index 2)
  let sigma0 := bitXor (bitXor (← rotate x 7) (← rotate x 18)) (← shiftRight x 3)
  let sigma1 := bitXor (bitXor (← rotate y 17) (← rotate y 19)) (← shiftRight y 10)
  let sum ← add (← get words (← sub index 16)) sigma0
  let sum ← add sum (← get words (← sub index 7))
  let sum ← add sum sigma1
  set words index (low sum)

/-- A turn of the second loop of `compress`; the chain holds `a` to `h`. -/
def round (words k : List Int) (index : Int) (chain : Chain) : Option Chain := do
  let ⟨a, b, c, d, e, f, g, h⟩ := chain
  let sum1 := bitXor (bitXor (← rotate e 6) (← rotate e 11)) (← rotate e 25)
  let choose := bitXor (bitAnd e f) (bitAnd (complement e) g)
  let first ← add (← add (← add (← add h sum1) choose) (← get k index)) (← get words index)
  let first := low first
  let sum0 := bitXor (bitXor (← rotate a 2) (← rotate a 13)) (← rotate a 22)
  let majority := bitXor (bitXor (bitAnd a b) (bitAnd a c)) (bitAnd b c)
  let second := low (← add sum0 majority)
  let e' := low (← add d first)
  let a' := low (← add first second)
  some ⟨a', a, b, c, e', e, f, g⟩

def compress (chain : Chain) (words k : List Int) : Option (Chain × List Int) := do
  let words ← below 16 64 1 words extendWord
  let after ← below 0 64 1 chain (round words k)
  some (⟨low (← add chain.h0 after.h0), low (← add chain.h1 after.h1),
    low (← add chain.h2 after.h2), low (← add chain.h3 after.h3),
    low (← add chain.h4 after.h4), low (← add chain.h5 after.h5),
    low (← add chain.h6 after.h6), low (← add chain.h7 after.h7)⟩, words)

/-! ## The last blocks -/

def writeWord (output : List UInt8) (index value : Int) : Option (List UInt8) := do
  let output ← setByte output index (bitAnd (← shiftRight value 24) 255)
  let output ← setByte output (← add index 1) (bitAnd (← shiftRight value 16) 255)
  let output ← setByte output (← add index 2) (bitAnd (← shiftRight value 8) 255)
  setByte output (← add index 3) (bitAnd value 255)

/-- A turn of the loop over the four bytes of a padded word. -/
def paddedPart (value : List UInt8) (start size stop messageSize offset index part word : Int) :
    Option Int := do
  let shifted ← shiftLeft word 8
  let position ← add (← add offset (← mul index 4)) part
  let byte ← paddedByte value start position size stop messageSize
  some (bitOr shifted byte)

/-- A turn of the loop over the words of a padded block. -/
def paddedWord (value : List UInt8) (start size stop messageSize offset index : Int)
    (words : List Int) : Option (List Int) := do
  let word ← below 0 4 1 0 (paddedPart value start size stop messageSize offset index)
  set words index word

/-- A turn of the loop over the padded blocks. -/
def paddedBlock (value : List UInt8) (start size stop messageSize : Int) (k : List Int)
    (offset : Int) (state : Chain × List Int) : Option (Chain × List Int) := do
  let words ← below 0 16 1 state.2 (paddedWord value start size stop messageSize offset)
  compress state.1 words k

def finish (chain : Chain) (value : List UInt8) (start size messageSize : Int)
    (words k : List Int) : Option (List UInt8) := do
  let stop : Int := if size < 56 then 64 else 128
  let state ← below 0 stop 64 (chain, words) (paddedBlock value start size stop messageSize k)
  let current := state.1
  let output := zeroes 32
  let output ← writeWord output 0 current.h0
  let output ← writeWord output 4 current.h1
  let output ← writeWord output 8 current.h2
  let output ← writeWord output 12 current.h3
  let output ← writeWord output 16 current.h4
  let output ← writeWord output 20 current.h5
  let output ← writeWord output 24 current.h6
  writeWord output 28 current.h7

/-! ## One call -/

/-- A turn of the loop over the complete blocks of a message. -/
def digestBlock (value : List UInt8) (start offset : Int) (state : Chain × List Int) :
    Option (Chain × List Int) := do
  let words ← loadBlock state.2 value (← add start offset)
  compress state.1 words constants

def digestRange (value : Bytes) (start stop : Int) : Option (List UInt8) := do
  guard (start ≥ 0 ∧ stop ≥ start ∧ stop ≤ value.data.length)
  let size ← sub stop start
  guard (size < 2305843009213693952)
  let full ← mul (size.tdiv 64) 64
  let state ← below 0 full 64 (initial, newWords) (digestBlock value.data start)
  finish state.1 value.data (← add start full) (← sub size full) size state.2 constants

def digest (value : Bytes) : Option (List UInt8) := digestRange value 0 value.data.length

/-! ## The hasher -/

structure State where
  chain : Chain
  size : Int
  used : Int
  pending : List UInt8
  words : List Int
  k : List Int

def newHasher : State := ⟨initial, 0, 0, zeroes 64, newWords, constants⟩

/-- The loop that fills the unfinished block: what it leaves of `used`, `offset` and
the block. -/
def fill (value : List UInt8) (stop : Int) :
    Nat → Int → Int → List UInt8 → Option (Int × Int × List UInt8)
  | 0, _, _, _ => none
  | bound + 1, used, offset, pending =>
    if used < 64 ∧ offset < stop then do
      let pending ← setByte pending used (← getByte value offset)
      let used ← add used 1
      let offset ← add offset 1
      fill value stop bound used offset pending
    else some (used, offset, pending)

/-- The loop over the complete blocks of the buffer. -/
def blocks (value : List UInt8) (stop : Int) (k : List Int) :
    Nat → Int → Chain → List Int → Option (Int × Chain × List Int)
  | 0, _, _, _ => none
  | bound + 1, offset, chain, words => do
    let left ← sub stop offset
    if left ≥ 64 then
      let words ← loadBlock words value offset
      let (chain, words) ← compress chain words k
      let offset ← add offset 64
      blocks value stop k bound offset chain words
    else some (offset, chain, words)

/-- The loop that keeps the tail of the buffer. -/
def keep (value : List UInt8) (stop : Int) :
    Nat → Int → Int → List UInt8 → Option (Int × List UInt8)
  | 0, _, _, _ => none
  | bound + 1, used, offset, pending =>
    if offset < stop then do
      let pending ← setByte pending used (← getByte value offset)
      let used ← add used 1
      let offset ← add offset 1
      keep value stop bound used offset pending
    else some (used, pending)

/-- The unfinished block is filled, and compressed when it is complete. -/
def complete (state : State) (value : List UInt8) (start stop : Int) : Option (Int × State) := do
  if state.used > 0 then
    let (used, offset, pending) ←
      fill value stop ((stop - start).toNat + 1) state.used start state.pending
    if used = 64 then
      let words ← loadBlock state.words pending 0
      let (chain, words) ← compress state.chain words state.k
      some (offset, { state with chain := chain, used := 0, pending := pending, words := words })
    else some (offset, { state with used := used, pending := pending })
  else some (start, state)

/-- Consume `[start, stop)` now, without retaining or modifying the input buffer. -/
def update (state : State) (value : Bytes) (start stop : Int) : Option State := do
  guard (start ≥ 0 ∧ stop ≥ start ∧ stop ≤ value.data.length)
  let count ← sub stop start
  guard (count < (← sub 2305843009213693952 state.size))
  let (offset, state) ← complete state value.data start stop
  let (offset, chain, words) ←
    blocks value.data stop state.k ((stop - offset).toNat + 1) offset state.chain state.words
  let (used, pending) ←
    keep value.data stop ((stop - offset).toNat + 1) state.used offset state.pending
  let size ← add state.size count
  some { state with chain := chain, size := size, used := used, pending := pending, words := words }

/-- A nondestructive snapshot: updates may continue after it. -/
def snapshot (state : State) : Option (List UInt8) :=
  finish state.chain state.pending 0 state.used state.size newWords state.k

end Loom.Hashing

import Mathlib.Data.FinEnum
import Loom.Library.Machine
import Loom.Library.Decimal
import Loom.Library.Utf8

/-
  Integer arithmetic at compile time, and what the compiled program does.

  The evaluator runs as a compiled program itself, so its own sums, products and
  divisions are checked: `none` is a fault of the compiler. An `Except` inside is
  its answer.

  Correspondence (Loom and Rust ↔ Lean):
    `eval/bits.loom` (`bit`, `bitwise`, `shifted`) ↔ `bit`, `bitwise`, `shifted`
    `eval/numbers.loom` (`integer`, `arithmetic`) ↔ `integer`, `arithmetic`
    `eval/model.loom` (`Value`, `number`, `flag`) ↔ `Value`, `number`, `flag`
    `eval/model.loom` (`Failure`, `failure`) ↔ `Failure`, `failure`
    `codegen/llvm.rs` (`binary`, `overflow`) ↔ `Binary.run`
    `native_input.rs` (`binary`, literals) ↔ `Binary.text`, `native`
  Of a value only its type and its number are kept: an integer has neither text
  nor items.
-/

namespace Loom.Evaluation

open Machine Int Decimal

/-! ## The compiled operations -/

/-- The operators of two integers, `model::Binary` without its logical two. -/
inductive Binary where
  | add | sub | mul | div | rem
  | eq | ne | lt | le | gt | ge
  | bitAnd | bitOr | bitXor | shl | shr
  deriving DecidableEq

def Binary.text : Binary → String
  | .add => "+"
  | .sub => "-"
  | .mul => "*"
  | .div => "/"
  | .rem => "%"
  | .eq => "=="
  | .ne => "!="
  | .lt => "<"
  | .le => "<="
  | .gt => ">"
  | .ge => ">="
  | .bitAnd => "&"
  | .bitOr => "|"
  | .bitXor => "^"
  | .shl => "<<"
  | .shr => ">>"

/-- What a compiled operation leaves. -/
inductive Scalar where
  | flag (value : Bool)
  | number (value : BitVec 64)
  deriving DecidableEq

/-- `guard`: a fault unless the condition holds. -/
def guarded (valid : Bool) (message : String) (value : Except String Scalar) :
    Except String Scalar :=
  if valid then value else .error message

/-- The instructions an operator is compiled to. -/
def Binary.run (left right : BitVec 64) : Binary → Except String Scalar
  | .eq => .ok (.flag (left == right))
  | .ne => .ok (.flag (left != right))
  | .lt => .ok (.flag (left.slt right))
  | .le => .ok (.flag (left.sle right))
  | .gt => .ok (.flag (right.slt left))
  | .ge => .ok (.flag (right.sle left))
  | .add => guarded (!left.saddOverflow right) "integer overflow" (.ok (.number (left + right)))
  | .sub => guarded (!left.ssubOverflow right) "integer overflow" (.ok (.number (left - right)))
  | .mul => guarded (!left.smulOverflow right) "integer overflow" (.ok (.number (left * right)))
  | .bitAnd => .ok (.number (left &&& right))
  | .bitOr => .ok (.number (left ||| right))
  | .bitXor => .ok (.number (left ^^^ right))
  | .shl => guarded (right.ult 64#64) "shift count must be between 0 and 63"
      (.ok (.number (left <<< right.toNat)))
  | .shr => guarded (right.ult 64#64) "shift count must be between 0 and 63"
      (.ok (.number (left.sshiftRight right.toNat)))
  | .div => guarded (right != 0#64) "division by zero"
      (guarded (!(left == BitVec.intMin 64 && right == BitVec.allOnes 64)) "integer overflow"
        (.ok (.number (left.sdiv right))))
  | .rem => guarded (right != 0#64) "division by zero"
      (guarded (!(left == BitVec.intMin 64 && right == BitVec.allOnes 64)) "integer overflow"
        (.ok (.number (left.srem right))))

/-- The number some bytes write, continuing one that is there. -/
def written (start : Nat) (bytes : List UInt8) : Nat :=
  continued start (bytes.map (fun byte => byte.toNat - 48))

/-- Digits, at least one, as the number they write. -/
def magnitude (digits : List UInt8) : Option Nat :=
  if digits ≠ [] ∧ ∀ byte ∈ digits, 48 ≤ byte ∧ byte ≤ 57 then some (written 0 digits) else none

/-- `str::parse::<i64>`, which the compiled program's literals go through. -/
def native (text : List UInt8) : Option Int := do
  let digits := if text.head? = some 43 ∨ text.head? = some 45 then text.tail else text
  let value ← magnitude digits
  checked (if text.head? = some 45 then -(value : Int) else value)

/-! ## The evaluator -/

structure Span where
  start : Nat
  stop : Nat
  deriving DecidableEq

structure Expr where
  text : String
  span : Span
  deriving DecidableEq

structure Value where
  ty : Int
  number : Int
  deriving DecidableEq

structure Failure where
  span : Span
  message : String
  unresolved : Bool
  deriving DecidableEq

def number (value : Int) : Value := { ty := 1, number := value }

def flag (value : Bool) : Value := { ty := 2, number := if value then 1 else 0 }

def failure (expr : Expr) (message : String) : Failure :=
  { span := expr.span, message := message, unresolved := false }

/-- `left && right`, the right side run only where the left one holds. -/
def both (left : Bool) (right : Option Bool) : Option Bool :=
  if left then right else some false

/-- `left || right`. -/
def either (left : Option Bool) (right : Option Bool) : Option Bool :=
  left >>= fun holds => if holds then some true else right

def minimum : Int := -9223372036854775808

def bit (operator : String) (a b : Bool) : Bool :=
  if operator = "&" then a && b else if operator = "|" then a || b else a != b

/-- The variables of the loop of `bitwise`. -/
structure Places where
  left : Int
  right : Int
  output : Int
  place : Int

def bitwiseTurn (operator : String) (index : Int) (s : Places) : Option Places := do
  let a ← rem s.left 2
  let b ← rem s.right 2
  let output ← (if bit operator (a == 1) (b == 1) then add s.output s.place else some s.output)
  let left ← div s.left 2
  let right ← div s.right 2
  let next ← add index 1
  let place ← (if next < 63 then mul s.place 2 else some s.place)
  some { left := left, right := right, output := output, place := place }

def bitwise (operator : String) (a b : Int) : Option Int := do
  let left ← (if a < 0 then sub a minimum else some a)
  let right ← (if b < 0 then sub b minimum else some b)
  let output := if bit operator (a < 0) (b < 0) then minimum else 0
  let last ← below 0 63 1 { left := left, right := right, output := output, place := 1 }
    (bitwiseTurn operator)
  some last.output

def shiftedTurn (operator : String) (output : Int) : Option Int :=
  if operator = ">>" then do
    -- division rounds toward zero; an arithmetic shift rounds down
    let half ← div output 2
    let odd ← both (output < 0) ((rem output 2).map (fun r => r != 0))
    sub half (if odd then 1 else 0)
  else do
    let low ← (if output < 0 then sub output minimum else some output)
    if low ≥ 4611686018427387904 then do
      let rest ← sub low 4611686018427387904
      let double ← mul rest 2
      add double minimum
    else mul low 2

def shifted (expr : Expr) (value count : Int) : Option (Except Failure Value) :=
  if count < 0 ∨ count ≥ 64 then
    some (.error (failure expr "compile-time shift count out of range"))
  else do
    let output ← below 0 count 1 value (fun _ output => shiftedTurn expr.text output)
    some (.ok (number output))

/-- The loop of `integer`, over the bytes that are left. -/
def integerDigits (expr : Expr) (limit : Int) : Int → List UInt8 → Option (Except Failure Int)
  | value, [] => some (.ok value)
  | value, byte :: rest => do
    let digit ← sub byte.toNat 48
    let tenth ← div limit 10
    if digit < 0 ∨ digit > 9 ∨ value < tenth then
      some (.error (failure expr "compile-time integer overflow"))
    else
      let value ← mul value 10
      let least ← add limit digit
      if value < least then some (.error (failure expr "compile-time integer overflow"))
      else
        let value ← sub value digit
        integerDigits expr limit value rest

def integer (expr : Expr) : Option (Except Failure Int) :=
  match Utf8.bytes expr.text with
  | [] => some (.error (failure expr "invalid checked integer"))
  | first :: rest =>
    let negative := first = 45
    let digits := if negative then rest else first :: rest
    if digits = [] then some (.error (failure expr "invalid checked integer"))
    else do
      let read ← integerDigits expr
        (if negative then -9223372036854775808 else -9223372036854775807) 0 digits
      match read with
      | .error e => some (.error e)
      | .ok value =>
        if negative then some (.ok value)
        else do
          let value ← sub 0 value
          some (.ok value)

def arithmetic (expr : Expr) (a b : Int) : Option (Except Failure Value) :=
  let operator := expr.text
  let low : Int := -9223372036854775808
  let high : Int := 9223372036854775807
  let overflow := failure expr "compile-time integer overflow"
  if operator = "==" then some (.ok (flag (a == b)))
  else if operator = "!=" then some (.ok (flag (a != b)))
  else if operator = "<" then some (.ok (flag (a < b)))
  else if operator = "<=" then some (.ok (flag (a ≤ b)))
  else if operator = ">" then some (.ok (flag (a > b)))
  else if operator = ">=" then some (.ok (flag (a ≥ b)))
  else if operator = "&" ∨ operator = "|" ∨ operator = "^" then
    (bitwise operator a b).map (fun value => .ok (number value))
  else if operator = "<<" ∨ operator = ">>" then shifted expr a b
  else if operator = "+" then do
    let outside ← either (both (b > 0) ((sub high b).map (fun x => decide (a > x))))
      (both (b < 0) ((sub low b).map (fun x => decide (a < x))))
    if outside then some (.error overflow)
    else (add a b).map (fun value => .ok (number value))
  else if operator = "-" then do
    let outside ← either (both (b < 0) ((add high b).map (fun x => decide (a > x))))
      (both (b > 0) ((add low b).map (fun x => decide (a < x))))
    if outside then some (.error overflow)
    else (sub a b).map (fun value => .ok (number value))
  else if operator = "*" then do
    let outside ← both (a > 0)
      (either (both (b > 0) ((div high b).map (fun x => decide (a > x))))
        (both (b < 0) ((div low a).map (fun x => decide (b < x)))))
    if outside then some (.error overflow)
    else
      let outside ← both (a < 0)
        (either (both (b > 0) ((div low b).map (fun x => decide (a < x))))
          (both (b < 0) ((div high b).map (fun x => decide (a < x)))))
      if outside then some (.error overflow)
      else (mul a b).map (fun value => .ok (number value))
  else if operator = "/" ∨ operator = "%" then
    if b = 0 then some (.error (failure expr "compile-time division by zero"))
    else if a = low ∧ b = -1 then some (.error overflow)
    else (if operator = "/" then div a b else rem a b).map (fun value => .ok (number value))
  else some (.error (failure expr "unsupported compile-time integer operator"))

/-! ## Words as integers -/

theorem fits_toInt (x : BitVec 64) : Fits x.toInt := ⟨x.le_toInt, x.toInt_lt⟩

theorem toInt_sign (x : BitVec 64) :
    x.toInt = (x.toNat % 2 ^ 63 : Nat) + (if 2 ^ 63 ≤ x.toNat then minimum else 0) := by
  rw [BitVec.toInt_eq_toNat_cond, minimum]
  split <;> split <;> omega

theorem toInt_neg_iff (x : BitVec 64) : x.toInt < 0 ↔ 2 ^ 63 ≤ x.toNat := by
  rw [toInt_sign, minimum]
  split <;> omega

/-- What `bitwise` and `shifted` start a negative number from. -/
theorem unsigned_eq (x : BitVec 64) :
    (if x.toInt < 0 then sub x.toInt minimum else some x.toInt) =
      some ((x.toNat % 2 ^ 63 : Nat) : Int) := by
  have hsign := toInt_sign x
  by_cases hneg : x.toInt < 0
  · rw [if_pos ((toInt_neg_iff x).mp hneg)] at hsign
    rw [if_pos hneg, hsign, sub_eq (fits_of_bounds (by omega) (by omega)), Int.add_sub_cancel]
  · rw [if_neg (fun hhigh => hneg ((toInt_neg_iff x).mpr hhigh)), add_zero] at hsign
    rw [if_neg hneg, hsign]

/-! ## Bits -/

theorem bit_false (operator : String) : bit operator false false = false := by
  unfold bit
  split
  · rfl
  · split <;> rfl

theorem rem_two (n : Nat) : rem n 2 = some ((n % 2 : Nat) : Int) := by
  rfl

theorem div_two (n : Nat) : div n 2 = some ((n / 2 : Nat) : Int) := by
  rfl

/-- After `n` turns the low `n` places of the output are there. -/
structure Turned (operator : String) (base : Int) (a b n : Nat) (s : Places) : Prop where
  left : s.left = (a / 2 ^ n : Nat)
  right : s.right = (b / 2 ^ n : Nat)
  output : s.output = base + (Nat.bitwise (bit operator) a b % 2 ^ n : Nat)
  place : s.place = (2 ^ min n 62 : Nat)

theorem bitwise_place (operator : String) (a b n : Nat) :
    Nat.bitwise (bit operator) a b % 2 ^ (n + 1) =
      Nat.bitwise (bit operator) a b % 2 ^ n +
        (if bit operator (a.testBit n) (b.testBit n) then 2 ^ n else 0) := by
  rw [Nat.mod_pow_succ, ← Nat.toNat_testBit, Nat.testBit_bitwise (bit_false operator)]
  cases bit operator (a.testBit n) (b.testBit n) <;> simp

variable {n : Nat} {operator : String} {x : Int} {count : Nat} {p : Prop}

/-- The output takes a place, above what is there and below the sign. -/
theorem add_place {base : Int} {a b : Nat} (hbase : base = minimum ∨ base = 0) (hn : n < 63) :
    (if bit operator (a.testBit n) (b.testBit n) = true then
        add (base + (Nat.bitwise (bit operator) a b % 2 ^ n : Nat)) (2 ^ n : Nat)
      else some (base + (Nat.bitwise (bit operator) a b % 2 ^ n : Nat))) =
      some (base + (Nat.bitwise (bit operator) a b % 2 ^ (n + 1) : Nat)) := by
  have hless : Nat.bitwise (bit operator) a b % 2 ^ (n + 1) < 2 ^ 63 :=
    Nat.lt_of_lt_of_le (Nat.mod_lt _ (Nat.two_pow_pos _))
      (Nat.pow_le_pow_right (by omega) (by omega))
  rw [bitwise_place] at hless ⊢
  split
  · next hbit =>
    rw [if_pos hbit] at hless
    rw [add_eq, Nat.cast_add, add_assoc]
    unfold Fits
    rcases hbase with rfl | rfl
    · rw [minimum]; omega
    · omega
  · rw [Nat.add_zero]

theorem next_place (hn : n < 63) :
    (if (n : Int) + 1 < 63 then mul ((2 ^ n : Nat) : Int) 2 else some ((2 ^ n : Nat) : Int)) =
      some ((2 ^ min (n + 1) 62 : Nat) : Int) := by
  by_cases hlast : n + 1 < 63
  · have hpower : 2 ^ n ≤ 2 ^ 61 := Nat.pow_le_pow_right (by omega) (by omega)
    have hfits : Fits (((2 ^ n : Nat) : Int) * 2) := fits_of_bounds (by positivity) (by omega)
    rw [if_pos (by omega), mul_eq hfits, show min (n + 1) 62 = n + 1 by omega, Nat.pow_succ]
    rfl
  · rw [if_neg (by omega), show min (n + 1) 62 = n by omega]

theorem bitwiseTurn_spec {base : Int} {a b : Nat} {s : Places} (hbase : base = minimum ∨ base = 0)
    (hn : n < 63) (h : Turned operator base a b n s) :
    ∃ s', bitwiseTurn operator n s = some s' ∧ Turned operator base a b (n + 1) s' := by
  obtain ⟨left, right, output, place⟩ := s
  obtain ⟨rfl, rfl, rfl, rfl⟩ := h
  have hbit : ∀ m : Nat, (((m / 2 ^ n % 2 : Nat) : Int) == 1) = m.testBit n := by
    intro m
    rw [Nat.testBit_eq_decide_div_mod_eq]
    exact decide_eq_decide.mpr (by norm_cast)
  refine ⟨{ left := (a / 2 ^ n / 2 : Nat)
            right := (b / 2 ^ n / 2 : Nat)
            output := base + (Nat.bitwise (bit operator) a b % 2 ^ (n + 1) : Nat)
            place := (2 ^ min (n + 1) 62 : Nat) }, ?_, ?_⟩
  · unfold bitwiseTurn
    simp only [show min n 62 = n by omega, rem_two, div_two, some_bind, hbit]
    rw [add_place hbase hn, some_bind, add_eq (fits_of_bounds (by omega) (by omega)), some_bind,
      next_place hn, some_bind]
  · refine ⟨?_, ?_, rfl, rfl⟩
    · rw [Nat.pow_succ, Nat.div_div_eq_div_mul]
    · show ((b / 2 ^ n / 2 : Nat) : Int) = _
      rw [Nat.pow_succ, Nat.div_div_eq_div_mul]

/-- The sign of a word built from two is built from theirs, and so is the rest. -/
theorem toInt_bitwise (operator : String) (x y : BitVec 64) :
    (BitVec.ofNat 64 (Nat.bitwise (bit operator) x.toNat y.toNat)).toInt =
      (if bit operator (x.toInt < 0) (y.toInt < 0) then minimum else 0) +
        (Nat.bitwise (bit operator) (x.toNat % 2 ^ 63) (y.toNat % 2 ^ 63) % 2 ^ 63 : Nat) := by
  have hless : Nat.bitwise (bit operator) x.toNat y.toNat < 2 ^ 64 :=
    Nat.bitwise_lt_two_pow x.isLt y.isLt
  have hsign : 2 ^ 63 ≤ Nat.bitwise (bit operator) x.toNat y.toNat ↔
      bit operator (x.toInt < 0) (y.toInt < 0) = true := by
    have hhigh : ∀ n : Nat, n < 2 ^ 64 → n.testBit 63 = decide (2 ^ 63 ≤ n) := by
      intro n hn
      rw [Nat.testBit_eq_decide_div_mod_eq]
      exact decide_eq_decide.mpr (by omega)
    have hbit := Nat.testBit_bitwise (bit_false operator) x.toNat y.toNat 63
    rw [hhigh _ hless, hhigh _ x.isLt, hhigh _ y.isLt] at hbit
    simp only [toInt_neg_iff, ← hbit, decide_eq_true_eq]
  rw [toInt_sign, BitVec.toNat_ofNat, Nat.mod_eq_of_lt hless, add_comm,
    ← Nat.bitwise_mod_two_pow (bit_false operator), Nat.mod_mod]
  simp only [hsign]

/-- The loop ends, in the word whose bits the operator makes. -/
theorem bitwise_spec (operator : String) (x y : BitVec 64) :
    bitwise operator x.toInt y.toInt =
      some (BitVec.ofNat 64 (Nat.bitwise (bit operator) x.toNat y.toNat)).toInt := by
  have hbase : (if bit operator (x.toInt < 0) (y.toInt < 0) = true then minimum else 0) = minimum ∨
      (if bit operator (x.toInt < 0) (y.toInt < 0) = true then minimum else 0) = 0 := by
    split
    · exact .inl rfl
    · exact .inr rfl
  have hstart : Turned operator (if bit operator (x.toInt < 0) (y.toInt < 0) then minimum else 0)
      (x.toNat % 2 ^ 63) (y.toNat % 2 ^ 63) 0
      { left := (x.toNat % 2 ^ 63 : Nat), right := (y.toNat % 2 ^ 63 : Nat)
        output := if bit operator (x.toInt < 0) (y.toInt < 0) then minimum else 0, place := 1 } :=
    ⟨by simp, by simp, by simp , rfl⟩
  obtain ⟨last, hloop, hlast⟩ := below_spec (bitwiseTurn operator) 0 63
    (show (0 : Int) + 1 * (63 : Nat) = 63 by omega) (by omega) (by omega) (by omega)
    (Turned operator (if bit operator (x.toInt < 0) (y.toInt < 0) then minimum else 0)
      (x.toNat % 2 ^ 63) (y.toNat % 2 ^ 63)) hstart
    (by
      intro n hn s hs
      rw [zero_add, one_mul]
      exact bitwiseTurn_spec hbase hn hs)
  unfold bitwise
  rw [unsigned_eq, some_bind, unsigned_eq, some_bind]
  dsimp only
  rw [hloop, some_bind, hlast.output, toInt_bitwise]

/-! ## Shifts -/

theorem tdiv_two (x : Int) : x.tdiv 2 = if x < 0 then -(-x / 2) else x / 2 := by
  split
  · next hneg =>
    rw [← Int.tdiv_eq_ediv_of_nonneg (by omega), Int.neg_tdiv, Int.neg_neg]
  · exact tdiv_eq_ediv_of_nonneg (by omega)

theorem tmod_two (x : Int) : x.tmod 2 = if x < 0 then -(-x % 2) else x % 2 := by
  split
  · next hneg =>
    rw [← tmod_eq_emod_of_nonneg (by omega), neg_tmod, neg_neg]
  · exact tmod_eq_emod_of_nonneg (by omega)

/-- Halving rounds down, also below zero. -/
theorem shiftedTurn_right (hx : Fits x) : shiftedTurn ">>" x = some (x / 2) := by
  obtain ⟨hlow, hhigh⟩ := hx
  have hpos : Divides x 2 := divides_pos (by omega)
  unfold shiftedTurn both
  rw [if_pos rfl, div_eq hpos, rem_eq hpos, tdiv_two, tmod_two]
  by_cases hneg : x < 0
  · by_cases hodd : -x % 2 = 0
    · simp only [hneg, hodd, decide_true, if_true, Option.map_some, some_bind]
      rw [sub_eq ⟨by simp; omega, by omega⟩]
      simp; omega
    · have hone : -x % 2 = 1 := by omega
      simp only [hneg, decide_true, if_true, Option.map_some, some_bind]
      rw [sub_eq ⟨by omega, by omega⟩]
      simp; omega
  · simp only [hneg, decide_false, Bool.false_eq_true, if_false, some_bind]
    rw [sub_eq ⟨by omega, by omega⟩, sub_zero]

theorem shiftedTurn_left (hop : operator ≠ ">>") (x : BitVec 64) :
    shiftedTurn operator x.toInt = some (x <<< 1).toInt := by
  have hshift : (x <<< 1).toNat = 2 * x.toNat % 2 ^ 64 := by
    rw [BitVec.toNat_shiftLeft, Nat.shiftLeft_eq, Nat.mul_comm]
  unfold shiftedTurn
  rw [if_neg hop, unsigned_eq, some_bind, toInt_sign (x <<< 1), minimum]
  split
  · rw [sub_eq (fits_of_bounds (by omega) (by omega)), some_bind,
      mul_eq (fits_of_bounds (by omega) (by omega)), some_bind, add_eq ⟨by omega, by omega⟩]
    congr 1
    split <;> omega
  · rw [mul_eq (fits_of_bounds (by omega) (by omega))]
    congr 1
    split <;> omega

/-- The loop over the count, whatever one turn makes of a word. -/
theorem shifted_spec (expr : Expr) (x : BitVec 64) (after : Nat → BitVec 64) (hzero : after 0 = x)
    (hturn : ∀ n, shiftedTurn expr.text (after n).toInt = some (after (n + 1)).toInt)
    (hcount : count < 64) :
    shifted expr x.toInt count = some (.ok (number (after count).toInt)) := by
  have hstart : (fun n output => output = (after n).toInt) 0 x.toInt := by
    rw [← hzero]
  obtain ⟨last, hloop, hlast⟩ := below_spec (fun _ output => shiftedTurn expr.text output) 0 count
    (show (0 : Int) + 1 * count = count by omega) (by omega) (by omega) (by omega)
    (fun n output => output = (after n).toInt) hstart
    (by
      rintro n _ output rfl
      exact ⟨_, hturn n, rfl⟩)
  unfold shifted
  rw [if_neg (by omega), hloop, some_bind, hlast]

theorem shifted_right (expr : Expr) (hop : expr.text = ">>") (x : BitVec 64) (hcount : count < 64) :
    shifted expr x.toInt count = some (.ok (number (x.sshiftRight count).toInt)) := by
  apply shifted_spec expr x (fun n => x.sshiftRight n) _ _ hcount
  · exact BitVec.sshiftRight_zero
  · intro n
    rw [hop, shiftedTurn_right (fits_toInt _)]
    simp only [BitVec.toInt_sshiftRight, shiftRight_eq_div_pow]
    rw [ediv_ediv_of_nonneg (by positivity)]; rfl

theorem shifted_left (expr : Expr) (hop : expr.text ≠ ">>") (x : BitVec 64) (hcount : count < 64) :
    shifted expr x.toInt count = some (.ok (number (x <<< count).toInt)) := by
  apply shifted_spec expr x (fun n => x <<< n) _ _ hcount
  · exact BitVec.shiftLeft_zero x
  · intro n
    rw [shiftedTurn_left hop, BitVec.shiftLeft_add]

/-! ## Sums, products and quotients -/

/-- What an operator is said to leave: a value, or an overflow. -/
def answered (expr : Expr) (value : Option Int) : Option (Except Failure Value) :=
  match value with
  | some value => some (.ok (number value))
  | none => some (.error (failure expr "compile-time integer overflow"))

theorem both_of [Decidable p] (h : p) (m : Option Bool) : both p m = m :=
  if_pos (decide_eq_true h)

theorem both_not [Decidable p] (h : ¬p) (m : Option Bool) : both p m = some false :=
  if_neg (by simp [h])

/-- Two guarded comparisons, neither of which computes what it need not. -/
theorem either_both {q : Prop} [Decidable p] [Decidable q] {m n : Option Int} {f g : Int → Bool}
    {y : Int} (hm : p → m = some x) (hn : q → n = some y) :
    either (both p (m.map f)) (both q (n.map g)) =
      some (decide (p ∧ f x = true ∨ q ∧ g y = true)) := by
  unfold either both
  by_cases hp : p
  · rw [hm hp]
    by_cases hq : q
    · rw [hn hq]
      cases hf : f x <;> simp [hp, hq, hf]
    · cases hf : f x <;> simp [hp, hq, hf]
  · by_cases hq : q
    · rw [hn hq]; simp [hp, hq]
    · simp [hp, hq]

theorem fits_iff (x : Int) :
    Fits x ↔ -9223372036854775808 ≤ x ∧ x ≤ 9223372036854775807 := by
  unfold Fits; omega

section
variable {a b : Int} (ha : Fits a) (hb : Fits b) (span : Span)
include ha hb

theorem arithmetic_add :
    arithmetic { text := "+", span := span } a b =
      answered { text := "+", span := span } (add a b) := by
  rw [fits_iff] at ha hb
  have houtside : either
      (both (b > 0) ((sub 9223372036854775807 b).map (fun x => decide (a > x))))
      (both (b < 0) ((sub (-9223372036854775808) b).map (fun x => decide (a < x)))) =
      some (decide (¬Fits (a + b))) := by
    rw [either_both (fun _ => sub_eq ((fits_iff _).mpr (by omega)))
      (fun _ => sub_eq ((fits_iff _).mpr (by omega)))]
    simp only [decide_eq_true_eq, fits_iff]
    congr 2
    apply propext
    omega
  simp only [arithmetic, houtside]
  by_cases hfits : Fits (a + b)
  · simp [hfits, add_eq hfits, answered]
  · simp [hfits, add, checked, answered]

theorem arithmetic_sub :
    arithmetic { text := "-", span := span } a b =
      answered { text := "-", span := span } (sub a b) := by
  rw [fits_iff] at ha hb
  have houtside : either
      (both (b < 0) ((add 9223372036854775807 b).map (fun x => decide (a > x))))
      (both (b > 0) ((add (-9223372036854775808) b).map (fun x => decide (a < x)))) =
      some (decide (¬Fits (a - b))) := by
    rw [either_both (fun _ => add_eq ((fits_iff _).mpr (by omega)))
      (fun _ => add_eq ((fits_iff _).mpr (by omega)))]
    simp only [decide_eq_true_eq, fits_iff]
    congr 2
    apply propext
    omega
  simp only [arithmetic, houtside]
  by_cases hfits : Fits (a - b)
  · simp [hfits, sub_eq hfits, answered]
  · simp [hfits, sub, checked, answered]

omit ha hb in
theorem above_iff {m n : Int} (hn : 0 < n) :
    Int.tdiv 9223372036854775807 n < m ↔ 9223372036854775807 < m * n := by
  rw [Int.tdiv_eq_ediv_of_nonneg (by omega), Int.ediv_lt_iff_lt_mul hn]

omit ha hb in
theorem below_iff {m n : Int} (hn : 0 < n) :
    m < tdiv (-9223372036854775808) n ↔ m * n < -9223372036854775808 := by
  have hquotient : tdiv (-9223372036854775808) n = -(9223372036854775808 / n) := by
    rw [← Int.tdiv_eq_ediv_of_nonneg (by omega), ← Int.neg_tdiv]
  have hdiv : 9223372036854775808 / n < -m ↔ 9223372036854775808 < -m * n :=
    Int.ediv_lt_iff_lt_mul hn
  rw [hquotient]
  calc m < -(9223372036854775808 / n) ↔ 9223372036854775808 / n < -m := by omega
    _ ↔ 9223372036854775808 < -m * n := hdiv
    _ ↔ m * n < -9223372036854775808 := by
      rw [neg_mul]; omega

omit hb in
/-- The four sign cases of a product, each decided by one division. -/
theorem arithmetic_mul :
    arithmetic { text := "*", span := span } a b =
      answered { text := "*", span := span } (mul a b) := by
  have hpos : a > 0 → (either
      (both (b > 0) ((div 9223372036854775807 b).map (fun x => decide (a > x))))
      (both (b < 0) ((div (-9223372036854775808) a).map (fun x => decide (b < x))))) =
      some (decide (¬Fits (a * b))) := by
    intro hapos
    rw [either_both (fun hbpos => div_eq (divides_pos hbpos))
      (fun _ => div_eq (divides_pos hapos))]
    simp only [decide_eq_true_eq, fits_iff]
    congr 2
    apply propext
    rcases lt_trichotomy b 0 with hneg | hzero | hbpos
    · have hproduct : a * b < 0 := mul_neg_of_pos_of_neg hapos hneg
      have := below_iff (m := b) hapos
      rw [mul_comm b a] at this; omega
    · simp [hzero]
    · have hproduct : 0 < a * b := mul_pos hapos hbpos
      have := above_iff (m := a) hbpos
      omega
  have hneg : a < 0 → (either
      (both (b > 0) ((div (-9223372036854775808) b).map (fun x => decide (a < x))))
      (both (b < 0) ((div 9223372036854775807 b).map (fun x => decide (a < x))))) =
      some (decide (¬Fits (a * b))) := by
    intro haneg
    rw [either_both (fun hbpos => div_eq (divides_pos hbpos))
      (fun hbneg => div_eq ⟨by omega, by omega⟩)]
    simp only [decide_eq_true_eq, fits_iff]
    congr 2
    apply propext
    rcases lt_trichotomy b 0 with hbneg | hzero | hbpos
    · have hproduct : 0 < a * b := mul_pos_of_neg_of_neg haneg hbneg
      have hquotient : tdiv 9223372036854775807 b = -tdiv 9223372036854775807 (-b) := by
        rw [Int.tdiv_neg, Int.neg_neg]
      have := above_iff (m := -a) (n := -b) (by omega)
      rw [neg_mul_neg] at this; omega
    · simp [hzero]
    · have hproduct : a * b < 0 := mul_neg_of_neg_of_pos haneg hbpos
      have := below_iff (m := a) hbpos
      omega
  have hfinal : (if (decide (¬Fits (a * b))) = true then
        some (.error (failure { text := "*", span := span } "compile-time integer overflow"))
      else (mul a b).map (fun value => Except.ok (number value))) =
      answered { text := "*", span := span } (mul a b) := by
    by_cases hfits : Fits (a * b)
    · simp [hfits, mul_eq hfits, answered]
    · simp [hfits, mul, checked, answered]
  simp only [arithmetic, String.reduceEq]
  rcases lt_trichotomy a 0 with haneg | hzero | hapos
  · rw [both_not (show ¬a > 0 by omega), some_bind, both_of haneg,
      hneg haneg]
    exact hfinal
  · subst hzero; simp [both, mul, checked, Fits, answered]
  · rw [both_of (show a > 0 from hapos), hpos hapos, some_bind,
      both_not (show ¬a < 0 by omega), some_bind]
    exact hfinal

omit ha hb in
theorem arithmetic_div :
    arithmetic { text := "/", span := span } a b =
      if b = 0 then
        some (.error (failure { text := "/", span := span } "compile-time division by zero"))
      else answered { text := "/", span := span } (div a b) := by
  simp only [arithmetic, String.reduceEq, if_false, if_true, or_self, or_false]
  by_cases hzero : b = 0
  · rw [if_pos hzero, if_pos hzero]
  · rw [if_neg hzero, if_neg hzero]
    by_cases hoverflow : a = -9223372036854775808 ∧ b = -1
    · simp [hoverflow, div, Divides, answered]
    · rw [if_neg hoverflow, div_eq ⟨hzero, by simpa using hoverflow⟩]; rfl

omit ha hb in
theorem arithmetic_rem :
    arithmetic { text := "%", span := span } a b =
      if b = 0 then
        some (.error (failure { text := "%", span := span } "compile-time division by zero"))
      else answered { text := "%", span := span } (rem a b) := by
  simp only [arithmetic, String.reduceEq, if_false, if_true, or_self, false_or]
  by_cases hzero : b = 0
  · rw [if_pos hzero, if_pos hzero]
  · rw [if_neg hzero, if_neg hzero]
    by_cases hoverflow : a = -9223372036854775808 ∧ b = -1
    · simp [hoverflow, rem, Divides, answered]
    · rw [if_neg hoverflow, rem_eq ⟨hzero, by simpa using hoverflow⟩]; rfl

end

/-! ## Every operator -/

/-- The evaluator's value for what a compiled operation leaves. -/
def Scalar.value : Scalar → Value
  | .flag holds => Evaluation.flag holds
  | .number word => Evaluation.number word.toInt

/-- The evaluator answers, with the operation's value or, where it faults, with
an error. -/
def Agrees (answer : Option (Except Failure Value)) : Except String Scalar → Prop
  | .ok scalar => answer = some (.ok scalar.value)
  | .error _ => ∃ failure, answer = some (.error failure)

variable {word : BitVec 64} {expr : Expr} {message : String}

/-- A guarded instruction against a checked integer operation. -/
theorem agrees_answered {result : Option Int} {valid : Bool}
    (hvalid : valid = true → result = some word.toInt) (hfault : valid = false → result = none) :
    Agrees (answered expr result) (guarded valid message (.ok (.number word))) := by
  cases valid with
  | true =>
    rw [hvalid rfl]; rfl
  | false =>
    rw [hfault rfl]; exact ⟨_, rfl⟩

theorem arithmetic_bitwise (span : Span) (hop : operator = "&" ∨ operator = "|" ∨ operator = "^")
    (x y : BitVec 64) :
    arithmetic { text := operator, span := span } x.toInt y.toInt =
      some (.ok (number (BitVec.ofNat 64
        (Nat.bitwise (bit operator) x.toNat y.toNat)).toInt)) := by
  have hspec := bitwise_spec operator x y
  rcases hop with rfl | rfl | rfl <;>
    simp [arithmetic, hspec]

theorem arithmetic_shift (span : Span) (hop : operator = "<<" ∨ operator = ">>") (x y : Int) :
    arithmetic { text := operator, span := span } x y =
      shifted { text := operator, span := span } x y := by
  rcases hop with rfl | rfl <;> simp [arithmetic]

variable {y : BitVec 64}

/-- A count is in range as a word exactly where it is as an integer. -/
theorem agrees_shifted {x : BitVec 64}
    (h : y.toNat < 64 → shifted expr x.toInt (y.toNat : Nat) = some (.ok (number word.toInt))) :
    Agrees (shifted expr x.toInt y.toInt)
      (guarded (y.ult 64#64) message (.ok (.number word))) := by
  have hsign := toInt_sign y
  rw [minimum] at hsign
  by_cases hcount : y.toNat < 64
  · have hult : y.ult 64#64 = true := by simpa [BitVec.ult_eq_decide] using hcount
    have hint : y.toInt = (y.toNat : Nat) := by
      omega
    rw [guarded, if_pos hult, hint]; exact h hcount
  · have hult : y.ult 64#64 = false := by simpa [BitVec.ult_eq_decide] using hcount
    rw [guarded, if_neg (by simp [hult])]
    refine ⟨_, if_pos ?_⟩
    split at hsign <;> omega

theorem agrees_divided {x : BitVec 64} {result : Option Int}
    (hresult : Divides x.toInt y.toInt → result = some word.toInt)
    (hrefused : ¬Divides x.toInt y.toInt → result = none) :
    Agrees (if y.toInt = 0 then some (.error (failure expr "compile-time division by zero"))
        else answered expr result)
      (guarded (y != 0#64) "division by zero"
        (guarded (!(x == BitVec.intMin 64 && y == BitVec.allOnes 64)) "integer overflow"
          (.ok (.number word)))) := by
  have hzero : y.toInt = 0 ↔ y = 0#64 := by
    rw [← BitVec.toInt_inj]; simp
  have hmin : x.toInt = -2 ^ 63 ↔ x = BitVec.intMin 64 := by
    rw [← BitVec.toInt_inj]; rfl
  have hone : y.toInt = -1 ↔ y = BitVec.allOnes 64 := by
    rw [← BitVec.toInt_inj]; rfl
  by_cases hy : y = 0#64
  · rw [if_pos (hzero.mpr hy), guarded, if_neg (by simp [hy])]; exact ⟨_, rfl⟩
  · rw [if_neg (fun h => hy (hzero.mp h)), guarded, if_pos (by simpa using hy)]
    apply agrees_answered
    · intro hvalid
      apply hresult
      refine ⟨fun h => hy (hzero.mp h), ?_⟩
      rw [hmin, hone]
      rintro ⟨hleast, hlast⟩
      simp [hleast, hlast] at hvalid
    · intro hfault
      apply hrefused
      rintro ⟨_, hover⟩
      rw [hmin, hone] at hover
      simp at hfault; exact hover hfault

theorem agrees_checked {overflow : Bool} {result : Int}
    (hoverflow : overflow = (decide (result ≥ 2 ^ (64 - 1)) || decide (result < -2 ^ (64 - 1))))
    (hword : ¬overflow = true → word.toInt = result) :
    Agrees (answered expr (checked result)) (guarded (!overflow) message (.ok (.number word))) := by
  have hfits : overflow = true ↔ ¬Fits result := by
    rw [hoverflow, Bool.or_eq_true, decide_eq_true_eq, decide_eq_true_eq]
    unfold Fits; omega
  apply agrees_answered
  · intro hvalid
    have hnot : ¬overflow = true := by simpa using hvalid
    rw [hword hnot]; exact checked_eq (not_not.mp (fun h => hnot (hfits.mpr h)))
  · intro hfault
    have hover : overflow = true := by simpa using hfault
    exact if_neg (hfits.mp hover)

theorem bitwise_word {f : Bool → Bool → Bool} (hbit : bit operator = f) {x : BitVec 64}
    (hword : word.toNat = Nat.bitwise f x.toNat y.toNat) :
    BitVec.ofNat 64 (Nat.bitwise (bit operator) x.toNat y.toNat) = word := by
  apply BitVec.eq_of_toNat_eq
  rw [hbit, ← hword, BitVec.toNat_ofNat, Nat.mod_eq_of_lt word.isLt]

/-- For every operator and every two words, what the evaluator answers is what
the compiled operation does. -/
theorem arithmetic_spec (op : Binary) (span : Span) (x y : BitVec 64) :
    Agrees (arithmetic { text := op.text, span := span } x.toInt y.toInt) (op.run x y) := by
  cases op with
  | add =>
    rw [Binary.text, arithmetic_add (fits_toInt x) (fits_toInt y)]
    exact agrees_checked rfl BitVec.toInt_add_of_not_saddOverflow
  | sub =>
    rw [Binary.text, arithmetic_sub (fits_toInt x) (fits_toInt y)]
    exact agrees_checked rfl BitVec.toInt_sub_of_not_ssubOverflow
  | mul =>
    rw [Binary.text, arithmetic_mul (fits_toInt x)]
    exact agrees_checked rfl BitVec.toInt_mul_of_not_smulOverflow
  | div =>
    rw [Binary.text, arithmetic_div]
    apply agrees_divided
    · intro hdivides
      rw [div_eq hdivides, BitVec.toInt_sdiv_of_ne_or_ne]
      by_contra hover
      push Not at hover
      apply hdivides.2
      rw [hover.1, hover.2]; exact ⟨rfl, rfl⟩
    · exact fun hrefused => if_neg hrefused
  | rem =>
    rw [Binary.text, arithmetic_rem]
    apply agrees_divided
    · intro hdivides
      rw [rem_eq hdivides, BitVec.toInt_srem]
    · exact fun hrefused => if_neg hrefused
  | eq =>
    have hequal : (x.toInt == y.toInt) = (x == y) := by
      rw [Bool.eq_iff_iff, beq_iff_eq, beq_iff_eq, BitVec.toInt_inj]
    simp [Binary.text, Binary.run, arithmetic, Agrees, Scalar.value, hequal]
  | ne =>
    have hequal : (x.toInt != y.toInt) = (x != y) := by
      rw [Bool.eq_iff_iff, bne_iff_ne, bne_iff_ne, Ne, BitVec.toInt_inj]
    simp [Binary.text, Binary.run, arithmetic, Agrees, Scalar.value, hequal]
  | lt => simp [Binary.text, Binary.run, arithmetic, Agrees, Scalar.value, BitVec.slt_eq_decide]
  | le => simp [Binary.text, Binary.run, arithmetic, Agrees, Scalar.value, BitVec.sle_eq_decide]
  | gt => simp [Binary.text, Binary.run, arithmetic, Agrees, Scalar.value, BitVec.slt_eq_decide]
  | ge => simp [Binary.text, Binary.run, arithmetic, Agrees, Scalar.value, BitVec.sle_eq_decide]
  | bitAnd =>
    have hbit : bit "&" = and := by
      funext a b
      simp [bit]
    rw [Binary.text, arithmetic_bitwise span (.inl rfl),
      bitwise_word hbit (BitVec.toNat_and x y)]
    rfl
  | bitOr =>
    have hbit : bit "|" = or := by
      funext a b
      simp [bit]
    rw [Binary.text, arithmetic_bitwise span (.inr (.inl rfl)),
      bitwise_word hbit (BitVec.toNat_or x y)]
    rfl
  | bitXor =>
    have hbit : bit "^" = bne := by
      funext a b
      simp [bit]
    rw [Binary.text, arithmetic_bitwise span (.inr (.inr rfl)),
      bitwise_word hbit (BitVec.toNat_xor x y)]
    rfl
  | shl =>
    rw [Binary.text]
    exact agrees_shifted (fun hcount => shifted_left _ (by simp) x hcount)
  | shr =>
    rw [Binary.text, arithmetic_shift span (.inr rfl)]
    exact agrees_shifted (fun hcount => shifted_right _ rfl x hcount)

/-! ## Literals -/

variable {limit start : Nat}

/-- The loop refuses what the loop of `std.int.parse` refuses. -/
theorem integerDigits_spec (expr : Expr) (hlimit : limit ≤ 2 ^ 63) (bytes : List UInt8)
    (hstart : start ≤ limit) :
    ∃ answer, integerDigits expr (-limit) (-start) bytes = some answer ∧ ∀ value,
      answer = .ok value ↔
        accumulate (-limit) (-start) (bytes.map UInt8.toNat) = .ok value := by
  induction bytes generalizing start with
  | nil => exact ⟨_, rfl, fun value => by simp [accumulate]⟩
  | cons byte rest ih =>
    have hbyte : byte.toNat < 256 := byte.toNat_lt
    have htenth : (-(limit : Int)).tdiv 10 = -((limit / 10 : Nat) : Int) := neg_tdiv_natCast limit 10
    rw [integerDigits, sub_eq ⟨by omega, by omega⟩, some_bind, div_eq (divides_pos (by omega)),
      some_bind, List.map_cons, accumulate, htenth]
    by_cases hrefused : (byte.toNat : Int) - 48 < 0 ∨ (byte.toNat : Int) - 48 > 9 ∨
        -(start : Int) < -((limit / 10 : Nat) : Int)
    · rw [if_pos hrefused]
      refine ⟨_, rfl, fun value => ⟨fun h => (by cases h), fun h => ?_⟩⟩
      by_cases hbad : byte.toNat < 48 ∨ byte.toNat > 57
      · rw [if_pos hbad] at h
        cases h
      · rw [if_neg hbad] at h
        dsimp only at h
        rw [if_pos (by omega)] at h
        cases h
    · rw [if_neg hrefused, mul_eq ⟨by omega, by omega⟩, some_bind, add_eq ⟨by omega, by omega⟩,
        some_bind, if_neg (show ¬(byte.toNat < 48 ∨ byte.toNat > 57) by omega)]
      dsimp only
      rw [if_neg (show ¬-(start : Int) < -((limit / 10 : Nat) : Int) by omega)]
      by_cases hshort : -(start : Int) * 10 < -(limit : Int) + (byte.toNat - 48)
      · rw [if_pos hshort, if_pos hshort]
        exact ⟨_, rfl, by simp⟩
      · have hnext : -(start : Int) * 10 - (byte.toNat - 48) =
            -((10 * start + (byte.toNat - 48) : Nat) : Int) := by
          omega
        rw [if_neg hshort, if_neg hshort, sub_eq ⟨by omega, by omega⟩, some_bind, hnext]
        exact ih (by omega)

theorem magnitude_eq_some {digits : List UInt8} {value : Nat} : magnitude digits = some value ↔
    digits.map UInt8.toNat ≠ [] ∧ Decimal.Digits (digits.map UInt8.toNat) ∧
      Decimal.written 0 (digits.map UInt8.toNat) = value := by
  have hwritten : Decimal.written 0 (digits.map UInt8.toNat) = written 0 digits := by
    rw [Decimal.written, List.map_map]; rfl
  have hdigits : Decimal.Digits (digits.map UInt8.toNat) ↔
      ∀ byte ∈ digits, 48 ≤ byte ∧ byte ≤ 57 := by
    simp [Decimal.Digits, UInt8.le_iff_toNat_le]
  have hnil : digits.map UInt8.toNat ≠ [] ↔ digits ≠ [] := by simp
  rw [hwritten, hdigits, hnil, ← and_assoc]
  unfold magnitude
  split
  · next h => simp [iff_true_intro h]
  · next h => simp [h]

theorem checked_eq_some {y : Int} : checked x = some y ↔ Fits x ∧ x = y := by
  unfold checked
  split
  · next h => simp [h]
  · next h => simp [h]

theorem head_toNat {text : List UInt8} {code : UInt8} :
    (text.map UInt8.toNat).head? = some code.toNat ↔ text.head? = some code := by
  simp [UInt8.toNat_inj]

/-- The compiled program's parser accepts what `std.int.parse` accepts. -/
theorem native_eq_some {text : List UInt8} {value : Int} :
    native text = some value ↔ parse (text.map UInt8.toNat) = .ok value := by
  have hplus := @head_toNat text 43
  have hminus := @head_toNat text 45
  have hunsigned : unsigned (text.map UInt8.toNat) =
      (if text.head? = some 43 ∨ text.head? = some 45 then text.tail else text).map UInt8.toNat := by
    simp only [unsigned, ← hplus, ← hminus, or_comm, apply_ite (List.map UInt8.toNat), List.map_tail]
    rfl
  have hsigned : ∀ n, signed (text.map UInt8.toNat) n =
      if text.head? = some 45 then -(n : Int) else n := by
    intro n
    simp only [signed, ← hminus]
    rfl
  rw [parse_eq_ok, ← fits_signed, hunsigned, hsigned]
  unfold native
  simp only [Option.bind_eq_bind, Option.bind_eq_some_iff, magnitude_eq_some, checked_eq_some]
  constructor
  · rintro ⟨n, ⟨hnil, hall, rfl⟩, hfits, hvalue⟩
    exact ⟨hnil, hall, hfits, hvalue.symm⟩
  · rintro ⟨hnil, hall, hfits, hvalue⟩
    exact ⟨_, ⟨hnil, hall, rfl⟩, hfits, hvalue.symm⟩

/-- A literal is read to the compiled program's value, and refused where it has
none. No literal is written with a plus sign. -/
theorem integer_spec (expr : Expr) :
    ∃ answer, integer expr = some answer ∧ ∀ value, answer = .ok value ↔
      (Utf8.bytes expr.text).head? ≠ some 43 ∧ native (Utf8.bytes expr.text) = some value := by
  unfold integer
  simp only [native_eq_some]
  cases Utf8.bytes expr.text with
  | nil => exact ⟨_, rfl, by simp [parse]⟩
  | cons first rest =>
    dsimp only
    by_cases hminus : first = 45
    · have hparse : parse ((first :: rest).map UInt8.toNat) =
          if rest = [] then .error .invalid
          else accumulate (-(2 ^ 63 : Nat)) (-(0 : Nat)) (rest.map UInt8.toNat) := by
        simp [parse, hminus]
      obtain ⟨answer, hanswer, hvalues⟩ :=
        integerDigits_spec expr (le_refl (2 ^ 63)) rest (Nat.zero_le (2 ^ 63))
      have hread : integerDigits expr (-9223372036854775808) 0 rest = some answer := hanswer
      rw [hparse, if_pos hminus, if_pos hminus, hread]
      by_cases hnil : rest = []
      · exact ⟨_, if_pos hnil, by simp [hnil]⟩
      · refine ⟨answer, ?_, by simp [hnil, hminus, hvalues]⟩
        rw [if_neg hnil]
        cases answer <;> simp [hminus]
    · obtain ⟨answer, hanswer, hvalues⟩ := integerDigits_spec expr
        (show 2 ^ 63 - 1 ≤ 2 ^ 63 by omega) (first :: rest) (Nat.zero_le (2 ^ 63 - 1))
      have hread : integerDigits expr (-9223372036854775807) 0 (first :: rest) = some answer := hanswer
      rw [if_neg hminus, if_neg hminus, hread, if_neg (List.cons_ne_nil _ _), some_bind]
      have hcode : ∀ code : UInt8, ((first :: rest).map UInt8.toNat).head? = some code.toNat ↔
          first = code := fun code => head_toNat.trans (by simp)
      have hplus : first = 43 → accumulate (-(2 ^ 63 - 1 : Nat)) (-(0 : Nat))
          ((first :: rest).map UInt8.toNat) = .error .invalid := by
        rintro rfl
        rfl
      have hparse : first ≠ 43 → ∀ value,
          parse ((first :: rest).map UInt8.toNat) = .ok value ↔
            accumulate (-(2 ^ 63 - 1 : Nat)) (-(0 : Nat))
              ((first :: rest).map UInt8.toNat) = .ok (-value) := by
        intro hfirst value
        have hsigns : ((first :: rest).map UInt8.toNat).head? ≠ some 45 ∧
            ((first :: rest).map UInt8.toNat).head? ≠ some 43 :=
          ⟨mt (hcode 45).mp hminus, mt (hcode 43).mp hfirst⟩
        have hunsigned : unsigned ((first :: rest).map UInt8.toNat) = _ :=
          if_neg (not_or.mpr hsigns)
        have hlargest : largest ((first :: rest).map UInt8.toNat) = _ := if_neg hsigns.1
        rw [parse_unsigned, hunsigned, hlargest, if_neg (by simp), map_eq_ok]
        constructor
        · rintro ⟨number, hnumber, rfl⟩
          rw [if_neg hsigns.1, neg_neg]; exact hnumber
        · intro hnumber
          exact ⟨_, hnumber, by rw [if_neg hsigns.1, neg_neg]⟩
      cases answer with
      | error failure =>
        refine ⟨_, rfl, fun value => ⟨fun h => (by cases h), ?_⟩⟩
        rintro ⟨hfirst, hvalue⟩
        have hok := (hvalues _).mpr ((hparse (by simpa using hfirst) value).mp hvalue)
        cases hok
      | ok number =>
        have hnumber := (hvalues number).mp rfl
        have hfirst : first ≠ 43 := by
          intro hfirst
          rw [hplus hfirst] at hnumber
          cases hnumber
        obtain ⟨-, hle, hsame⟩ := ((accumulate_spec (Nat.zero_le _)).1 number).mp hnumber
        dsimp only
        rw [if_neg hminus, sub_eq ⟨by omega, by omega⟩, some_bind]
        refine ⟨_, rfl, fun value => ?_⟩
        rw [hparse hfirst, hnumber, Except.ok.injEq, Except.ok.injEq]
        simp [hfirst]; omega

/-! ## The evaluator and the compiled program -/

theorem arithmetic_unsupported (h : ∀ op : Binary, expr.text ≠ op.text) (a b : Int) :
    arithmetic expr a b =
      some (.error (failure expr "unsupported compile-time integer operator")) := by
  have hadd : expr.text ≠ "+" := h .add
  have hsub : expr.text ≠ "-" := h .sub
  have hmul : expr.text ≠ "*" := h .mul
  have hdiv : expr.text ≠ "/" := h .div
  have hrem : expr.text ≠ "%" := h .rem
  have heq : expr.text ≠ "==" := h .eq
  have hne : expr.text ≠ "!=" := h .ne
  have hlt : expr.text ≠ "<" := h .lt
  have hle : expr.text ≠ "<=" := h .le
  have hgt : expr.text ≠ ">" := h .gt
  have hge : expr.text ≠ ">=" := h .ge
  have hand : expr.text ≠ "&" := h .bitAnd
  have hor : expr.text ≠ "|" := h .bitOr
  have hxor : expr.text ≠ "^" := h .bitXor
  have hshl : expr.text ≠ "<<" := h .shl
  have hshr : expr.text ≠ ">>" := h .shr
  simp only [arithmetic, hadd, hsub, hmul, hdiv, hrem, heq, hne, hlt, hle, hgt, hge, hand, hor,
    hxor, hshl, hshr, if_false, or_self]

/-- The evaluator does not fault: on two words it does what the compiled
operation does, and refuses exactly where that one faults; it has an answer for
any other operator too; and it reads a literal as the compiled program does. -/
theorem evaluation_agrees :
    (∀ (op : Binary) (span : Span) (x y : BitVec 64),
      Agrees (arithmetic { text := op.text, span := span } x.toInt y.toInt) (op.run x y)) ∧
    (∀ (expr : Expr) (x y : BitVec 64), (∀ op : Binary, expr.text ≠ op.text) →
      ∃ failure, arithmetic expr x.toInt y.toInt = some (.error failure)) ∧
    ∀ expr : Expr, ∃ answer, integer expr = some answer ∧ ∀ value, answer = .ok value ↔
      (Utf8.bytes expr.text).head? ≠ some 43 ∧ native (Utf8.bytes expr.text) = some value :=
  ⟨arithmetic_spec, fun _ x y hother => ⟨_, arithmetic_unsupported hother x.toInt y.toInt⟩,
    integer_spec⟩

end Loom.Evaluation

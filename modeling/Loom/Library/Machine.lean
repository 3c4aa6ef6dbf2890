import Mathlib.Algebra.Order.Ring.Int
import Mathlib.Data.Nat.Bitwise
import Mathlib.Tactic.Common

/-
  Checked machine integers.

  An integer stands for a 64-bit word in two's complement. Sums, differences and
  products are checked: out of range they are `none`. Division rounds towards zero;
  by zero, or of the least integer by minus one, it and its remainder are `none`.
  The bit operations act on words, shifts by a count from 0 to 63; a left shift
  drops the high bits, a right shift copies the sign.

  `below` is a counting loop with a checked counter. `below_spec` is its rule: an
  invariant that the body keeps holds after the loop, and the loop ends.
-/

namespace Loom.Machine

open Int

def Fits (x : Int) : Prop := -2 ^ 63 ≤ x ∧ x < 2 ^ 63

instance (x : Int) : Decidable (Fits x) := by unfold Fits; infer_instance

def checked (x : Int) : Option Int := if Fits x then some x else none

def add (x y : Int) : Option Int := checked (x + y)

def sub (x y : Int) : Option Int := checked (x - y)

def mul (x y : Int) : Option Int := checked (x * y)

/-- What a division refuses: zero, and the one quotient out of range. -/
def Divides (x y : Int) : Prop := y ≠ 0 ∧ ¬(x = -2 ^ 63 ∧ y = -1)

instance (x y : Int) : Decidable (Divides x y) := by unfold Divides; infer_instance

def div (x y : Int) : Option Int := if Divides x y then some (x.tdiv y) else none

def rem (x y : Int) : Option Int := if Divides x y then some (x.tmod y) else none

def word (x : Int) : BitVec 64 := BitVec.ofInt 64 x

def complement (x : Int) : Int := (~~~word x).toInt

def bitAnd (x y : Int) : Int := (word x &&& word y).toInt

def bitOr (x y : Int) : Int := (word x ||| word y).toInt

def bitXor (x y : Int) : Int := (word x ^^^ word y).toInt

def shiftLeft (x count : Int) : Option Int :=
  if 0 ≤ count ∧ count < 64 then some (word x <<< count.toNat).toInt else none

def shiftRight (x count : Int) : Option Int :=
  if 0 ≤ count ∧ count < 64 then some ((word x).sshiftRight count.toNat).toInt else none

theorem some_bind {α β : Type} (a : α) (f : α → Option β) : (some a >>= f) = f a := by
  rw [Option.bind_eq_bind, Option.bind_some]

variable {x y : Int}

theorem checked_eq (h : Fits x) : checked x = some x := if_pos h

theorem checked_value (h : checked x = some y) : y = x := by
  unfold checked at h
  split at h
  · exact (Option.some.inj h).symm
  · cases h

theorem add_eq (h : Fits (x + y)) : add x y = some (x + y) := checked_eq h

theorem sub_eq (h : Fits (x - y)) : sub x y = some (x - y) := checked_eq h

theorem mul_eq (h : Fits (x * y)) : mul x y = some (x * y) := checked_eq h

theorem div_eq (h : Divides x y) : div x y = some (x.tdiv y) := if_pos h

theorem rem_eq (h : Divides x y) : rem x y = some (x.tmod y) := if_pos h

theorem divides_pos (h : 0 < y) : Divides x y := ⟨by omega, by omega⟩

theorem neg_tdiv_natCast (m d : Nat) : (-(m : Int)).tdiv d = -((m / d : Nat) : Int) := by
  rw [Int.neg_tdiv]; rfl

theorem neg_tmod_natCast (m d : Nat) : (-(m : Int)).tmod d = -((m % d : Nat) : Int) := by
  rw [neg_tmod]; rfl

theorem fits_of_bounds (h₁ : 0 ≤ x) (h₂ : x < 2 ^ 63) : Fits x := ⟨by omega, h₂⟩

@[simp] theorem word_toInt (x : BitVec 64) : word x.toInt = x := BitVec.ofInt_toInt

theorem shiftLeft_eq (x : Int) {count : Nat} (h : count < 64) :
    shiftLeft x count = some (word x <<< count).toInt := if_pos ⟨natCast_nonneg count, by omega⟩

theorem shiftRight_eq (x : Int) {count : Nat} (h : count < 64) :
    shiftRight x count = some ((word x).sshiftRight count).toInt :=
  if_pos ⟨natCast_nonneg count, by omega⟩

/-- A number below the sign bit is its own word. -/
theorem toNat_word {n : Nat} (h : n < 2 ^ 64) : (word n).toNat = n := by
  exact Nat.mod_eq_of_lt h

theorem toInt_of_lt {x : BitVec 64} (h : x.toNat < 2 ^ 63) : x.toInt = x.toNat := by
  rw [BitVec.toInt_eq_toNat_cond, if_pos (by omega)]

theorem and_nat {a b : Nat} (ha : a < 2 ^ 63) (hb : b < 2 ^ 63) :
    bitAnd a b = ((a &&& b : Nat) : Int) := by
  have hand : (word a &&& word b).toNat = a &&& b := by
    rw [BitVec.toNat_and, toNat_word (by omega), toNat_word (by omega)]
  unfold bitAnd
  rw [toInt_of_lt (by rw [hand]; exact lt_of_le_of_lt Nat.and_le_left ha), hand]

theorem or_nat {a b : Nat} (ha : a < 2 ^ 63) (hb : b < 2 ^ 63) :
    bitOr a b = ((a ||| b : Nat) : Int) := by
  have hor : (word a ||| word b).toNat = a ||| b := by
    rw [BitVec.toNat_or, toNat_word (by omega), toNat_word (by omega)]
  unfold bitOr
  rw [toInt_of_lt (by rw [hor]; exact Nat.or_lt_two_pow ha hb), hor]

/-- The low bits of a number are a remainder. -/
theorem and_mask (h₁ : 0 ≤ x) (h₂ : x < 2 ^ 63) {k : Nat} (hk : k ≤ 62) :
    bitAnd x (2 ^ k - 1 : Nat) = x % 2 ^ k := by
  obtain ⟨n, rfl⟩ := eq_ofNat_of_zero_le h₁
  have hmask : 2 ^ k - 1 < 2 ^ 63 := by
    have : 2 ^ k ≤ 2 ^ 62 := Nat.pow_le_pow_right (by omega) hk
    omega
  rw [and_nat (by omega) hmask, Nat.and_two_pow_sub_one_eq_mod]; rfl

/-! ## Counting loops -/

section
variable {σ : Type} {body : Int → σ → Option σ} {stop step : Int}

/-- The turns of a loop `while index < stop` that adds `step` to its index. -/
def turns (stop step : Int) (body : Int → σ → Option σ) : Nat → Int → σ → Option σ
  | 0, _, _ => none
  | bound + 1, index, state =>
    if index < stop then do
      let state ← body index state
      let index ← add index step
      turns stop step body bound index state
    else some state

def below (index stop step : Int) (state : σ) (body : Int → σ → Option σ) : Option σ :=
  turns stop step body ((stop - index).toNat + 1) index state

theorem turns_spec {start : Int} (count : Nat) (hstep : 0 < step) (hfits : Fits (start + step * count))
    (hstart : 0 ≤ start) (inv : Nat → σ → Prop) (hbody : ∀ n < count, ∀ state, inv n state →
      ∃ state', body (start + step * n) state = some state' ∧ inv (n + 1) state') :
    ∀ (left n bound : Nat) (state : σ), n + left = count → left < bound → inv n state →
      ∃ state', turns (start + step * count) step body bound (start + step * n) state = some state' ∧
        inv count state' := by
  intro left
  induction left with
  | zero =>
    intro n bound state hn hbound hinv
    obtain ⟨bound, rfl⟩ : ∃ b, bound = b + 1 := ⟨bound - 1, by omega⟩
    obtain rfl : n = count := by omega
    exact ⟨state, by simp [turns], hinv⟩
  | succ left ih =>
    intro n bound state hn hbound hinv
    obtain ⟨bound, rfl⟩ : ∃ b, bound = b + 1 := ⟨bound - 1, by omega⟩
    obtain ⟨state', hstate, hinv'⟩ := hbody n (by omega) state hinv
    have hgrows : step * ((n + 1 : Nat) : Int) ≤ step * count :=
      mul_le_mul_of_nonneg_left (by omega) (by omega)
    have hnext : start + step * n + step = start + step * ((n + 1 : Nat) : Int) := by
      push_cast
      rw [mul_add, mul_one, add_assoc]
    have hpos : 0 ≤ step * (n : Int) := mul_nonneg (by omega) (by omega)
    obtain ⟨last, hlast, hdone⟩ := ih (n + 1) bound state' (by omega) (by omega) hinv'
    refine ⟨last, ?_, hdone⟩
    rw [turns, if_pos (by omega), hstate]
    rw [add_eq (fits_of_bounds (by omega) (by have := hfits.2; omega)), hnext]
    exact hlast

/-- What the body of a loop keeps holds when the loop ends, and it ends. -/
theorem below_spec (body : Int → σ → Option σ) (start : Int) {stop step : Int} (count : Nat)
    (hstop : start + step * count = stop) (hstep : 0 < step) (hstart : 0 ≤ start)
    (hfits : stop < 2 ^ 63) (inv : Nat → σ → Prop) {state : σ} (hinv : inv 0 state)
    (hbody : ∀ n < count, ∀ state, inv n state →
      ∃ state', body (start + step * n) state = some state' ∧ inv (n + 1) state') :
    ∃ state', below start stop step state body = some state' ∧ inv count state' := by
  subst hstop
  have hle : (count : Int) ≤ step * count := by
    have := mul_le_mul_of_nonneg_right (show 1 ≤ step by omega) (natCast_nonneg count)
    omega
  have := turns_spec count hstep (fits_of_bounds (by omega) hfits) hstart inv hbody count 0
    ((start + step * count - start).toNat + 1) state (by omega) (by omega) hinv
  rwa [show start + step * ((0 : Nat) : Int) = start by simp] at this

end

end Loom.Machine

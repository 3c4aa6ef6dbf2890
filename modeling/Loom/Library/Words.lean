import Mathlib.Data.Nat.Bitwise
import Mathlib.Tactic.Linarith
import Mathlib.Tactic.Ring
import Mathlib.Algebra.Order.Ring.Int

/- Signed bounds of word operations, for words of any positive width. Every
   statement about negative operands goes through the complement, which is
   `-1 - x` on signed values, so only nonnegative words are argued bitwise. -/
namespace Loom.Words

open BitVec Nat

variable {w : Nat}

/-- Complement on signed values. -/
theorem toInt_not (hw : 0 < w) (x : BitVec w) : (~~~x).toInt = -1 - x.toInt := by
  obtain ⟨k, rfl⟩ : ∃ k, w = k + 1 := ⟨w - 1, by omega⟩
  have hx := x.isLt
  rw [toInt_eq_toNat_cond, toInt_eq_toNat_cond, toNat_not]
  rw [pow_succ] at *
  generalize 2 ^ k = m at *
  split <;> split <;> push_cast <;> omega

variable {x y : BitVec w} {m n d : Nat} {a : Int}

theorem toInt_of_nonneg (h : 0 ≤ x.toInt) : x.toInt = x.toNat := by
  have hx := x.isLt
  rw [toInt_eq_toNat_cond] at *
  generalize 2 ^ w = m at *; omega

theorem msb_of_nonneg (h : 0 ≤ x.toInt) : x.msb = false := by
  rw [msb_eq_toInt]
  simpa using h

theorem toInt_of_msb (h : x.msb = false) : x.toInt = x.toNat := toInt_eq_toNat_of_msb h

/-! ## And, or, xor -/

theorem and_nonneg (y : BitVec w) (hx : 0 ≤ x.toInt) :
    0 ≤ (x &&& y).toInt ∧ (x &&& y).toInt ≤ x.toInt := by
  have hm : (x &&& y).msb = false := by rw [msb_and, msb_of_nonneg hx, Bool.false_and]
  have hle : x.toNat &&& y.toNat ≤ x.toNat := and_le_left
  rw [toInt_of_msb hm, toInt_of_nonneg hx, toNat_and]; omega

theorem or_nonneg (hx : 0 ≤ x.toInt) (hy : 0 ≤ y.toInt) :
    (x ||| y).toInt = (x.toNat ||| y.toNat : Nat) := by
  have hm : (x ||| y).msb = false := by
    rw [msb_or, msb_of_nonneg hx, msb_of_nonneg hy, Bool.false_or]
  rw [toInt_of_msb hm, toNat_or]

theorem le_or (hx : 0 ≤ x.toInt) (hy : 0 ≤ y.toInt) : x.toInt ≤ (x ||| y).toInt := by
  have hle : x.toNat ≤ x.toNat ||| y.toNat := left_le_or
  rw [or_nonneg hx hy, toInt_of_nonneg hx]; omega

theorem not_nonneg (hw : 0 < w) (h : x.toInt < 0) : 0 ≤ (~~~x).toInt := by
  rw [toInt_not hw]; omega

/-- Clearing bits of two negative words can only lower them. -/
theorem and_neg_le (hw : 0 < w) (hx : x.toInt < 0) (hy : y.toInt < 0) :
    (x &&& y).toInt ≤ x.toInt := by
  have hle := le_or (not_nonneg hw hx) (not_nonneg hw hy)
  rw [← BitVec.not_and, toInt_not hw, toInt_not hw] at hle; omega

/-- Setting bits of a negative word raises it, and it stays negative. -/
theorem or_neg (hw : 0 < w) (y : BitVec w) (hx : x.toInt < 0) :
    x.toInt ≤ (x ||| y).toInt ∧ (x ||| y).toInt ≤ -1 := by
  have hle := and_nonneg (~~~y) (not_nonneg hw hx)
  rw [← BitVec.not_or, toInt_not hw, toInt_not hw] at hle; omega

theorem xor_nonneg (hx : 0 ≤ x.toInt) (hy : 0 ≤ y.toInt) :
    (x ^^^ y).toInt = (x.toNat ^^^ y.toNat : Nat) := by
  have hm : (x ^^^ y).msb = false := by
    rw [msb_xor, msb_of_nonneg hx, msb_of_nonneg hy]; rfl
  rw [toInt_of_msb hm, toNat_xor]

/-! ## Masks without holes -/

/-- Every bit below a set bit is set. -/
def Filled (m : Nat) : Prop := ∀ i j, i ≤ j → m.testBit j = true → m.testBit i = true

/-- A filled number is one less than a power of two. -/
theorem filled_eq (h : Filled m) : ∃ k, m = 2 ^ k - 1 := by
  by_cases hz : m = 0
  · exact ⟨0, by simp [hz]⟩
  · refine ⟨m.log2 + 1, eq_of_testBit_eq fun i => ?_⟩
    by_cases hi : i < m.log2 + 1
    · simpa [hi] using h i m.log2 (by omega) (testBit_log2 hz)
    · have hlt : m < 2 ^ i := (log2_lt hz).mp (by omega)
      simp [hi, testBit_lt_two_pow hlt]

theorem or_le_filled {x y : Nat} (h : Filled m) (hx : x ≤ m) (hy : y ≤ m) : x ||| y ≤ m := by
  obtain ⟨k, hm⟩ := filled_eq h
  have hpos : 0 < 2 ^ k := Nat.two_pow_pos k
  have := or_lt_two_pow (n := k) (x := x) (y := y) (by omega) (by omega)
  omega

theorem xor_le_filled {x y : Nat} (h : Filled m) (hx : x ≤ m) (hy : y ≤ m) : x ^^^ y ≤ m := by
  obtain ⟨k, hm⟩ := filled_eq h
  have hpos : 0 < 2 ^ k := Nat.two_pow_pos k
  have := xor_lt_two_pow (n := k) (x := x) (y := y) (by omega) (by omega)
  omega

/-- `m` holds every bit of `n` together with the `d` places below it. -/
def Smeared (n d m : Nat) : Prop :=
  ∀ i, m.testBit i = true ↔ ∃ e, e < d ∧ n.testBit (i + e) = true

theorem smeared_self (n : Nat) : Smeared n 1 n := by
  intro i
  constructor
  · intro h; exact ⟨0, by omega, h⟩
  · rintro ⟨e, he, h⟩
    obtain rfl : e = 0 := by omega
    exact h

/-- One doubling step of the smear. -/
theorem smeared_double (h : Smeared n d m) : Smeared n (d + d) (m ||| m >>> d) := by
  intro i
  rw [testBit_or, testBit_shiftRight, Bool.or_eq_true, h i, h (d + i)]
  constructor
  · rintro (⟨e, he, hb⟩ | ⟨e, he, hb⟩)
    · exact ⟨e, by omega, hb⟩
    · exact ⟨d + e, by omega, by rwa [show i + (d + e) = d + i + e by omega]⟩
  · rintro ⟨e, he, hb⟩
    by_cases hd : e < d
    · exact .inl ⟨e, hd, hb⟩
    · exact .inr ⟨e - d, by omega, by rwa [show d + i + (e - d) = i + e by omega]⟩

theorem smeared_filled (h : Smeared n d m) (hn : n < 2 ^ d) : Filled m := by
  intro i j hij hj
  obtain ⟨e, _, hb⟩ := (h j).mp hj
  have hlt : j + e < d := by
    by_contra hge
    have : n.testBit (j + e) = false :=
      Nat.testBit_lt_two_pow (lt_of_lt_of_le hn (Nat.pow_le_pow_right (by omega) (by omega)))
    rw [this] at hb; exact Bool.false_ne_true hb
  exact (h i).mpr ⟨j - i + e, by omega, by rwa [show i + (j - i + e) = j + e by omega]⟩

theorem le_smeared (h : Smeared n d m) (hd : 0 < d) : n ≤ m := by
  have hor : n ||| m = m := by
    apply eq_of_testBit_eq
    intro i
    rw [testBit_or]
    cases hn : n.testBit i with
    | false => rfl
    | true => simpa using ((h i).mpr ⟨0, hd, hn⟩).symm
  rw [← hor]; exact left_le_or

/-! ## Shifts -/

/-- Rounding down a quotient is monotone in the dividend. -/
theorem shiftRight_mono {b : Int} (h : a ≤ b) (n : Nat) : a >>> n ≤ b >>> n := by
  rw [Int.shiftRight_eq_div_pow, Int.shiftRight_eq_div_pow]
  exact Int.ediv_le_ediv (by positivity) h

/-- A larger count brings a nonnegative value closer to zero. -/
theorem shiftRight_anti_nonneg (ha : 0 ≤ a) (h : m ≤ n) : a >>> n ≤ a >>> m := by
  obtain ⟨k, rfl⟩ := Nat.exists_eq_add_of_le h
  rw [Int.shiftRight_add, Int.shiftRight_eq_div_pow (a >>> m)]
  have hpos : 0 ≤ a >>> m := by
    rw [Int.shiftRight_eq_div_pow]
    positivity
  exact Int.ediv_le_self _ hpos

/-- A larger count brings a negative value closer to minus one. -/
theorem shiftRight_mono_neg (ha : a < 0) (h : m ≤ n) : a >>> m ≤ a >>> n := by
  have hneg : ∀ (c : Int) (k : Nat), -1 - (c >>> k) = (-1 - c) >>> k := by
    intro c k
    rw [Int.shiftRight_eq_div_pow, Int.shiftRight_eq_div_pow]
    have hp : (0 : Int) < (2 ^ k : Nat) := by positivity
    generalize ((2 ^ k : Nat) : Int) = p at *
    rw [eq_comm, Int.ediv_eq_iff_of_pos hp]
    have h1 := Int.mul_ediv_add_emod c p
    have h2 := Int.emod_nonneg c (by omega : p ≠ 0)
    have h3 := Int.emod_lt_of_pos c hp
    constructor <;> nlinarith
  have := shiftRight_anti_nonneg (a := -1 - a) (by omega) h
  rw [← hneg, ← hneg] at this; omega

end Loom.Words

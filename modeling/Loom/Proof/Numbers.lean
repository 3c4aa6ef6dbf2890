import Loom.Library.Digits

/- Mathematical integers of the prover (`proof/numbers.loom`): a sign and
   little-endian base-10^9 digits. The record carries its own canonical form,
   so every function below returns a canonical number by construction, and
   `toInt` is injective: equal integers have equal representations, which is
   what lets `compare` and the structural comparisons of terms decide equality.

   Correspondence (Loom ↔ Lean):
     `number`, `integer`, `negate`, `magnitude`, `compare` ↔ the same names
     `unit`, `sum`, `difference`, `subtract`, `product`   ↔ the same names
     `machine`                                             ↔ `machine` -/
namespace Loom.Proof

open Digits Int

def base : Nat := 1000000000

theorem one_lt_base : 1 < base := by decide

structure Number where
  negative : Bool
  digits : List Nat
  small : Digits.Small base digits
  trimmed : Digits.Trimmed digits
  signed : negative = true → digits ≠ []
  deriving DecidableEq

namespace Number

/-- The integer a number denotes. -/
def toInt (a : Number) : Int :=
  if a.negative then -(value base a.digits : Int) else value base a.digits

theorem value_eq_zero (a : Number) : value base a.digits = 0 ↔ a.digits = [] := by
  constructor
  · intro h
    have := digits_value one_lt_base a.small a.trimmed
    rwa [h, eq_comm] at this
  · intro h; rw [h]; rfl

theorem digits_eq_nil (a : Number) : a.digits = [] ↔ a.toInt = 0 := by
  rw [← value_eq_zero, toInt]
  split <;> omega

theorem negative_iff (a : Number) : a.negative = true ↔ a.toInt < 0 := by
  have hz := a.value_eq_zero
  have hs := a.signed
  unfold toInt
  cases hn : a.negative with
  | false => simp
  | true =>
    have : value base a.digits ≠ 0 := fun h => hs hn (hz.mp h)
    simp only [if_true, true_iff]; omega

theorem natAbs_toInt (a : Number) : a.toInt.natAbs = value base a.digits := by
  unfold toInt
  split <;> simp

theorem digits_eq (a : Number) : a.digits = base.digits a.toInt.natAbs := by
  rw [natAbs_toInt, digits_value one_lt_base a.small a.trimmed]

variable {a b : Number}

theorem toInt_injective (h : a.toInt = b.toInt) : a = b := by
  have hd : a.digits = b.digits := by rw [a.digits_eq, b.digits_eq, h]
  have hn : a.negative = b.negative := by
    rw [Bool.eq_iff_iff, negative_iff, negative_iff, h]
  obtain ⟨_, _, _, _, _⟩ := b
  subst hd hn; rfl

theorem toInt_inj : a.toInt = b.toInt ↔ a = b := ⟨toInt_injective, fun h => h ▸ rfl⟩

/-- A sign suppressed on zero denotes the same integer. -/
theorem toInt_of_sign {negative : Bool} (h : a.negative = (negative && !a.digits.isEmpty)) :
    a.toInt = if negative then -(value base a.digits : Int)
      else value base a.digits := by
  unfold toInt
  cases hd : a.digits with
  | nil => simp
  | cons d ds => simp [h, hd]

/-! ## Construction -/

/-- Drop zero digits from the top; zero is never negative. -/
def number (negative : Bool) (digits : List Nat) (small : Digits.Small base digits) : Number where
  negative := negative && !(trim digits).isEmpty
  digits := trim digits
  small := small_trim small
  trimmed := trimmed_trim digits
  signed := by
    intro h
    simpa using (Bool.and_eq_true_iff.mp h).2

theorem toInt_number (negative : Bool) (digits : List Nat) (small : Digits.Small base digits) :
    (number negative digits small).toInt =
      if negative then -(value base digits : Int) else value base digits := by
  have hs : (number negative digits small).negative =
      (negative && !(number negative digits small).digits.isEmpty) := rfl
  rw [toInt_of_sign hs]; simp [number, value_trim]

/-- The digits of a machine integer, taken from its magnitude. -/
def integer (value : Int) : Number where
  negative := decide (value < 0)
  digits := base.digits value.natAbs
  small := small_digits one_lt_base _
  trimmed := trimmed_digits base _
  signed := by
    intro h hd
    simp only [decide_eq_true_eq] at h
    have := Nat.digits_eq_nil_iff_eq_zero.mp hd
    omega

@[simp] theorem toInt_integer (value : Int) : (integer value).toInt = value := by
  unfold toInt integer
  rw [value_digits]
  by_cases h : value < 0 <;> simp only [h, decide_true, decide_false, if_true,
    Bool.false_eq_true, if_false] <;> omega

/-! ## Sign and comparison -/

def negate (a : Number) : Number where
  negative := !a.negative && !a.digits.isEmpty
  digits := a.digits
  small := a.small
  trimmed := a.trimmed
  signed := by
    intro h
    simpa using (Bool.and_eq_true_iff.mp h).2

@[simp] theorem toInt_negate (a : Number) : a.negate.toInt = -a.toInt := by
  have hs : (negate a).negative = (!a.negative && !(negate a).digits.isEmpty) := rfl
  rw [toInt_of_sign hs]
  cases h : a.negative <;> simp [negate, toInt, h]

def magnitude (a b : Number) : Int := Digits.magnitude a.digits b.digits

theorem magnitude_eq (a b : Number) :
    magnitude a b = sign (a.toInt.natAbs - b.toInt.natAbs : Int) := by
  rw [magnitude, Digits.magnitude_eq one_lt_base a.small b.small a.trimmed b.trimmed,
    natAbs_toInt, natAbs_toInt]

def compare (a b : Number) : Int :=
  if a.negative != b.negative then (if a.negative then -1 else 1)
  else if a.negative then -(magnitude a b) else magnitude a b

theorem compare_eq (a b : Number) : compare a b = sign (a.toInt - b.toInt) := by
  have ha := a.negative_iff
  have hb := b.negative_iff
  have hm := magnitude_eq a b
  unfold compare
  cases hna : a.negative <;> cases hnb : b.negative <;> simp [hna, hnb] at ha hb ⊢
  · rw [hm, natAbs_of_nonneg ha, natAbs_of_nonneg hb]
  · rw [sign_eq_one_of_pos (by omega)]
  · rw [sign_eq_neg_one_of_neg (by omega)]
  · rw [hm, ← sign_neg]
    congr 1
    omega

theorem compare_eq_zero : compare a b = 0 ↔ a = b := by
  rw [compare_eq, sign_eq_zero_iff_zero, sub_eq_zero, toInt_inj]

@[simp] theorem compare_lt_zero : compare a b < 0 ↔ a.toInt < b.toInt := by
  rw [compare_eq, sign_neg_iff]; omega

@[simp] theorem compare_gt_zero : 0 < compare a b ↔ b.toInt < a.toInt := by
  rw [compare_eq, sign_pos_iff]; omega

/-- Whether the magnitude is one. -/
def unit (a : Number) : Bool := a.digits == [1]

theorem unit_iff (a : Number) : unit a = true ↔ a.toInt = 1 ∨ a.toInt = -1 := by
  have hd := a.digits_eq
  have h1 : base.digits 1 = [1] := Nat.digits_of_lt base 1 (by decide) one_lt_base
  unfold unit
  rw [beq_iff_eq, hd, ← h1]
  constructor
  · intro h
    have := Nat.digits_inj_iff.mp h
    omega
  · intro h
    rw [show a.toInt.natAbs = 1 by omega]

/-! ## Arithmetic -/

/-- Absolute subtraction, with `|a| ≥ |b|`; keep the sign of `a`. -/
def difference (a b : Number) : Number :=
  if b.digits.isEmpty then a
  else number a.negative (sub base a.digits b.digits 0) (small_sub _ _ 0 a.small)

theorem toInt_difference (h : b.toInt.natAbs ≤ a.toInt.natAbs) : (difference a b).toInt =
      if a.negative then -((a.toInt.natAbs : Int) - b.toInt.natAbs)
      else a.toInt.natAbs - b.toInt.natAbs := by
  have ha := a.natAbs_toInt
  have hb := b.natAbs_toInt
  unfold difference
  split
  · rename_i he
    have hz : b.toInt = 0 := b.digits_eq_nil.mp (by simpa using he)
    have hs := a.negative_iff
    rw [hz]
    split <;> simp only [natAbs_zero] <;> grind
  · have hsub := value_sub one_lt_base a.digits b.digits 0 a.small b.small (by omega)
      (by omega)
    rw [toInt_number]
    split <;> omega

def sum (a b : Number) : Number :=
  if a.digits.isEmpty then b
  else if b.digits.isEmpty then a
  else if a.negative != b.negative then
    if magnitude a b < 0 then difference b a else difference a b
  else number a.negative (add base a.digits b.digits 0) (small_add one_lt_base _ _ 0)

@[simp] theorem toInt_sum (a b : Number) : (sum a b).toInt = a.toInt + b.toInt := by
  have ha := a.negative_iff
  have hb := b.negative_iff
  have hm := magnitude_eq a b
  unfold sum
  split
  · rename_i he
    rw [a.digits_eq_nil.mp (by simpa using he), zero_add]
  · split
    · rename_i he
      rw [b.digits_eq_nil.mp (by simpa using he), add_zero]
    · split
      · rename_i hne
        split
        · rename_i hlt
          rw [hm, sign_neg_iff] at hlt
          rw [toInt_difference (by omega)]
          split <;> grind
        · rename_i hge
          rw [hm, sign_neg_iff] at hge
          rw [toInt_difference (by omega)]
          split <;> grind
      · rename_i heq
        have heq : a.negative = b.negative := by simpa using heq
        rw [toInt_number, value_add, toInt, toInt, ← heq]
        split <;> push_cast <;> ring

def subtract (a b : Number) : Number := sum a (negate b)

@[simp] theorem toInt_subtract (a b : Number) : (subtract a b).toInt = a.toInt - b.toInt := by
  rw [subtract, toInt_sum, toInt_negate, sub_eq_add_neg]

def product (a b : Number) : Number :=
  if a.digits.isEmpty then a
  else if b.digits.isEmpty then b
  else if unit a then (if a.negative then negate b else b)
  else if unit b then (if b.negative then negate a else a)
  else
    number (a.negative != b.negative)
      (mulRows base a.digits b.digits
        (List.replicate (a.digits.length + b.digits.length) 0))
      (small_mulRows _ _ _ a.small b.small (by
        intro d hd
        rw [List.eq_of_mem_replicate hd]
        decide))

/-- A unit factor keeps or flips the sign of the other one. -/
theorem unit_mul (h : unit a = true) (b : Number) :
    (if a.negative then negate b else b).toInt = a.toInt * b.toInt := by
  have hn := a.negative_iff
  rcases (unit_iff a).mp h with ha | ha <;> cases hna : a.negative <;> simp_all

@[simp] theorem toInt_product (a b : Number) : (product a b).toInt = a.toInt * b.toInt := by
  unfold product
  split
  · rename_i he
    simp [a.digits_eq_nil.mp (by simpa using he)]
  · split
    · rename_i he
      simp [b.digits_eq_nil.mp (by simpa using he)]
    · split
      · rename_i hu; exact unit_mul hu b
      · split
        · rename_i hu; rw [unit_mul hu a, mul_comm]
        · have hz : value base (List.replicate (a.digits.length + b.digits.length) 0) = 0 :=
            by simp [value]
          rw [toInt_number, value_mulRows, hz, toInt, toInt]
          · cases a.negative <;> cases b.negative <;> simp
          · intro d hd; exact List.eq_of_mem_replicate (List.mem_of_mem_drop hd)
          · simp

/-! ## Machine integers -/

def minInt : Int := -9223372036854775808
def maxInt : Int := 9223372036854775807

/-- The machine integer a number denotes, folded from the top digit in negative
magnitudes so that the minimum is reached without overflow. -/
def machine (a : Number) : Except String Int :=
  if compare a (integer minInt) < 0 || compare a (integer maxInt) > 0 then
    .error "proof integer is outside Int"
  else
    let remaining := a.digits.foldr (fun (digit : Nat) (rest : Int) => rest * base - digit) 0
    .ok (if a.negative then remaining else -remaining)

theorem foldr_negative (ds : List Nat) :
    ds.foldr (fun (digit : Nat) (rest : Int) => rest * base - digit) 0 =
      -(value base ds : Int) := by
  induction ds with
  | nil => simp
  | cons d ds ih =>
    rw [List.foldr_cons, ih, value_cons]
    push_cast
    ring

theorem machine_ok (h : minInt ≤ a.toInt ∧ a.toInt ≤ maxInt) : machine a = .ok a.toInt := by
  have hrange : (compare a (integer minInt) < 0 || compare a (integer maxInt) > 0) = false := by
    simp only [Bool.or_eq_false_iff, decide_eq_false_iff_not, compare_lt_zero,
      compare_gt_zero, toInt_integer]
    omega
  rw [machine, hrange, if_neg Bool.false_ne_true]
  simp [foldr_negative, toInt]

theorem machine_error (h : ¬ (minInt ≤ a.toInt ∧ a.toInt ≤ maxInt)) :
    machine a = .error "proof integer is outside Int" := by
  have hrange : (compare a (integer minInt) < 0 || compare a (integer maxInt) > 0) = true := by
    simp only [Bool.or_eq_true, decide_eq_true_eq, compare_lt_zero, compare_gt_zero, toInt_integer]
    omega
  rw [machine, hrange, if_pos rfl]

theorem machine_spec {n : Int} (h : machine a = .ok n) : n = a.toInt ∧ minInt ≤ n ∧ n ≤ maxInt := by
  by_cases hr : minInt ≤ a.toInt ∧ a.toInt ≤ maxInt
  · rw [machine_ok hr] at h
    cases h
    exact ⟨rfl, hr⟩
  · rw [machine_error hr] at h
    cases h

example : (product (integer 12345678901) (integer (-98765432109))).toInt =
    -1219326311336229232209 := by decide

end Number

end Loom.Proof

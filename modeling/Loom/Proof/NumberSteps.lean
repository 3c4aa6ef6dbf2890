import Loom.Proof.Model

/- The digit loops of `proof/numbers.loom` in machine integers. Every addition,
   subtraction, product and negation of the source is done here in checked
   64-bit arithmetic, which answers nothing where the program would fault, and
   a digit that is stored must be a natural number. A record promises nothing
   about its digits; `Canonical` is what the source calls canonical. The
   results are those of `Number`, whose values are the exact integers, so no
   step of the loops overflows.

   Correspondence (Loom ↔ Lean):
     `number`, `integer`, `negate`, `compare`, `sum` ↔ the same names
     `difference`, `subtract`, `product`, `machine`  ↔ the same names -/
namespace Loom.Proof.Steps

open Digits Option Nat Number

/-! ## Machine arithmetic -/

/-- A result of a signed operation, where it is a machine integer. -/
def checked (x : Int) : Option Int := if Word.Machine x then some x else none

/-- The same for operations that never leave the natural numbers. -/
def fits (x : Nat) : Option Nat := if x ≤ 9223372036854775807 then some x else none

def stored (x : Int) : Option Nat := if 0 ≤ x then some x.toNat else none

theorem checked_of {x : Int} (h : Word.Machine x) : checked x = some x := if_pos h

theorem machine_of {x : Int} (h : -9223372036854775808 ≤ x) (h' : x ≤ 9223372036854775807) :
    Word.Machine x := ⟨h, h'⟩

theorem fits_of {x : Nat} (h : x ≤ 9223372036854775807) : fits x = some x := if_pos h

theorem stored_natCast (x : Nat) : stored x = some x := by
  rw [stored, if_pos (Int.natCast_nonneg x), Int.toNat_natCast]

/-! ## Records -/

structure Plain where
  negative : Bool
  digits : List Nat
  deriving DecidableEq

/-- Digits below the base, none of them zero at the top, and no negative zero. -/
structure Plain.Canonical (a : Plain) : Prop where
  small : Small base a.digits
  trimmed : Trimmed a.digits
  signed : a.negative = true → a.digits ≠ []

def Plain.toInt (a : Plain) : Int :=
  if a.negative then -(value base a.digits : Int) else value base a.digits

/-- The record of a number. -/
abbrev plain (a : Number) : Plain := ⟨a.negative, a.digits⟩

variable {a b : Plain}

/-- Canonical records are the numbers of the prover. -/
theorem exists_number (h : a.Canonical) : ∃ n : Number, plain n = a :=
  ⟨⟨a.negative, a.digits, h.small, h.trimmed, h.signed⟩, rfl⟩

theorem canonical_plain (n : Number) : (plain n).Canonical := ⟨n.small, n.trimmed, n.signed⟩

def number (negative : Bool) (digits : List Nat) : Plain :=
  ⟨negative && !(trim digits).isEmpty, trim digits⟩

/-! ## Conversion from a machine integer -/

def integerDigits (remaining : Int) : Option (List Nat) :=
  if remaining < 0 then do
    let digit ← stored (← checked (-remaining.tmod 1000000000))
    let digits ← integerDigits (remaining.tdiv 1000000000)
    return digit :: digits
  else some []
termination_by remaining.natAbs
decreasing_by
  rw [Int.natAbs_tdiv]
  exact div_lt_self (by omega) (by decide)

def integer (value : Int) : Option Plain := do
  let remaining ← if value > 0 then checked (-value) else some value
  let digits ← integerDigits remaining
  return ⟨decide (value < 0), digits⟩

theorem integerDigits_eq {n : Nat} : integerDigits (-n) = some (base.digits n) := by
  induction n using Nat.strong_induction_on with
  | _ n ih =>
    rw [integerDigits]
    by_cases hn : n = 0
    · simp [hn]
    · have hrest : (-n : Int).tdiv 1000000000 = -(n / base : Nat) := by
        rw [Int.neg_tdiv]; rfl
      have hdigit : -(-n : Int).tmod 1000000000 = (n % base : Nat) := by
        rw [Int.neg_tmod, Int.neg_neg]; rfl
      have hlt : n % base < base := mod_lt _ (by decide)
      have hmachine : Word.Machine (n % base : Nat) := by
        generalize n % base = digit at hlt ⊢
        unfold base at hlt; exact machine_of (by omega) (by omega)
      rw [if_pos (by omega), hrest, hdigit, ih _ (div_lt_self (by omega) one_lt_base),
        checked_of hmachine, bind_eq_bind, bind_some, stored_natCast,
        digits_def' one_lt_base (pos_of_ne_zero hn)]
      rfl

theorem integer_eq {value : Int} (h : Word.Machine value) :
    integer value = some (plain (Number.integer value)) := by
  unfold integer plain Number.integer
  have hmax := h.2
  unfold Number.maxInt at hmax
  by_cases hpos : value > 0
  · obtain ⟨n, rfl⟩ := Int.eq_ofNat_of_zero_le (le_of_lt hpos)
    rw [if_pos hpos, checked_of (machine_of (by omega) (by omega))]
    simp [integerDigits_eq]
  · obtain ⟨n, rfl⟩ := Int.exists_eq_neg_ofNat (not_lt.mp hpos)
    rw [if_neg hpos]; simp [integerDigits_eq]

/-! ## Comparison -/

def negate (a : Plain) : Plain := ⟨!a.negative && !a.digits.isEmpty, a.digits⟩

def compare (a b : Plain) : Option Int :=
  if a.negative != b.negative then some (if a.negative then -1 else 1)
  else
    let order := magnitude a.digits b.digits
    if a.negative then checked (-order) else some order

theorem compare_plain (m n : Number) : compare (plain m) (plain n) = some (Number.compare m n) := by
  have hsign : Word.Machine (-magnitude m n) := by
    rw [Number.magnitude_eq]
    obtain h | h | h := Int.sign_trichotomy (m.toInt.natAbs - n.toInt.natAbs : Int) <;>
      rw [h] <;> decide
  unfold compare Number.compare
  split
  · rfl
  · split
    · exact checked_of hsign
    · rfl

/-! ## Sums -/

def sumDigits : List Nat → List Nat → Nat → Option (List Nat)
  | [], [], carry => do
    -- what is left is carried digit by digit
    return base.digits (← fits carry)
  | x :: xs, [], carry => do
    let value ← fits (x + carry)
    return value % base :: (← sumDigits xs [] (value / base))
  | [], y :: ys, carry => do
    let value ← fits (y + carry)
    return value % base :: (← sumDigits [] ys (value / base))
  | x :: xs, y :: ys, carry => do
    let value ← fits ((← fits (x + y)) + carry)
    return value % base :: (← sumDigits xs ys (value / base))
termination_by xs ys => xs.length + ys.length

theorem sumDigits_eq (xs ys : List Nat) {carry : Nat} (hx : Small base xs) (hy : Small base ys)
    (hcarry : carry ≤ 1) : sumDigits xs ys carry = some (add base xs ys carry) := by
  induction xs, ys, carry using add.induct base with
  | case1 carry =>
    rw [sumDigits, add, fits_of (by omega)]; rfl
  | case2 x xs carry ih =>
    obtain ⟨hlt, hxs⟩ := small_cons.mp hx
    unfold base at hlt
    have hnext : (x + carry) / base ≤ 1 := by unfold base; omega
    rw [sumDigits, add, fits_of (by omega)]; simp [ih hxs hy hnext]
  | case3 y ys carry ih =>
    obtain ⟨hlt, hys⟩ := small_cons.mp hy
    unfold base at hlt
    have hnext : (y + carry) / base ≤ 1 := by unfold base; omega
    rw [sumDigits, add, fits_of (by omega)]; simp [ih hx hys hnext]
  | case4 x xs y ys carry ih =>
    obtain ⟨hlt, hxs⟩ := small_cons.mp hx
    obtain ⟨hlt', hys⟩ := small_cons.mp hy
    unfold base at hlt hlt'
    have hnext : (x + y + carry) / base ≤ 1 := by unfold base; omega
    rw [sumDigits, add, fits_of (by omega)]
    simp [fits_of (show x + y + carry ≤ 9223372036854775807 by omega), ih hxs hys hnext]

/-- The loop over the digits of the larger magnitude. -/
def differenceDigits : List Nat → List Nat → Int → Option (List Nat)
  | [], _, _ => some []
  | x :: xs, ys, borrow => do
    let value ← checked ((← checked (x - ys.headD 0)) - borrow)
    if value < 0 then do
      let digit ← stored (← checked (value + 1000000000))
      return digit :: (← differenceDigits xs ys.tail 1)
    else do
      let digit ← stored value
      return digit :: (← differenceDigits xs ys.tail 0)

theorem differenceDigits_eq (xs ys : List Nat) {borrow : Nat} (hx : Small base xs)
    (hy : Small base ys) (hborrow : borrow ≤ 1) :
    differenceDigits xs ys borrow = some (sub base xs ys borrow) := by
  induction xs generalizing ys borrow with
  | nil => rfl
  | cons x xs ih =>
    obtain ⟨hlt, hxs⟩ := small_cons.mp hx
    have hlt' := headD_lt one_lt_base hy
    have htail := small_tail hy
    rw [differenceDigits, sub]
    generalize ys.headD 0 = y at *
    unfold base at hlt hlt'
    rw [checked_of (machine_of (by omega) (by omega))]
    rw [bind_eq_bind, bind_some, checked_of (machine_of (by omega) (by omega)), bind_eq_bind,
      bind_some]
    by_cases hless : x < y + borrow
    · have hvalue : (x - y - borrow + 1000000000 : Int) = (x + base - (y + borrow) : Nat) := by
        unfold base; omega
      rw [if_pos (by omega), if_pos hless, hvalue,
        checked_of (machine_of (by omega) (by unfold base; omega)), bind_eq_bind,
        bind_some, stored_natCast]
      have hnext := ih ys.tail hxs htail (le_refl 1)
      simp only [cast_one] at hnext; simp [hnext]
    · have hvalue : (x - y - borrow : Int) = (x - (y + borrow) : Nat) := by omega
      rw [if_neg (by omega), if_neg hless, hvalue, stored_natCast]
      have hnext := ih ys.tail hxs htail (zero_le 1)
      simp only [cast_zero] at hnext; simp [hnext]

def difference (a b : Plain) : Option Plain :=
  if b.digits.isEmpty then some a
  else do return number a.negative (← differenceDigits a.digits b.digits 0)

def sum (a b : Plain) : Option Plain :=
  if a.digits.isEmpty then some b
  else if b.digits.isEmpty then some a
  else if a.negative != b.negative then
    if magnitude a.digits b.digits < 0 then difference b a else difference a b
  else do return number a.negative (← sumDigits a.digits b.digits 0)

def subtract (a b : Plain) : Option Plain := sum a (negate b)

theorem difference_plain (m n : Number) :
    difference (plain m) (plain n) = some (plain (Number.difference m n)) := by
  have hdigits := differenceDigits_eq m.digits n.digits m.small n.small (zero_le 1)
  simp only [cast_zero] at hdigits
  unfold difference Number.difference
  rw [hdigits]
  split <;> rfl

theorem sum_plain (m n : Number) : sum (plain m) (plain n) = some (plain (Number.sum m n)) := by
  have hdigits := sumDigits_eq m.digits n.digits m.small n.small (zero_le 1)
  have hleft := difference_plain m n
  have hright := difference_plain n m
  have hmagnitude : magnitude m.digits n.digits = m.magnitude n := rfl
  unfold sum Number.sum
  rw [hdigits, hmagnitude]
  split
  · rfl
  · split
    · rfl
    · split
      · split
        · exact hright
        · exact hleft
      · rfl

theorem subtract_plain (m n : Number) :
    subtract (plain m) (plain n) = some (plain (Number.subtract m n)) := sum_plain m n.negate

/-! ## Products -/

/-- One digit of the left factor times the digits of the right one. -/
def productRow (x : Nat) : List Nat → List Nat → Nat → Option (List Nat)
  | d :: ds, y :: ys, carry => do
    let value ← fits ((← fits (d + (← fits (x * y)))) + carry)
    return value % base :: (← productRow x ds ys (value / base))
  | d :: ds, [], carry => some ((if carry = 0 then d else carry) :: ds)
  | [], _, _ => some []

def productRows : List Nat → List Nat → List Nat → Option (List Nat)
  | [], _, ds => some ds
  | x :: xs, ys, ds => do
    match ← productRow x ds ys 0 with
    | [] => some []
    | d :: rest => return d :: (← productRows xs ys rest)

theorem productRow_eq {x : Nat} (hx : x < base) (ds ys : List Nat) {carry : Nat}
    (hd : Small base ds) (hy : Small base ys) (hcarry : carry < base) :
    productRow x ds ys carry = some (mulRow base x ds ys carry) := by
  induction ds, ys, carry using mulRow.induct base x with
  | case1 d ds y ys carry ih =>
    obtain ⟨hd0, hds⟩ := small_cons.mp hd
    obtain ⟨hy0, hys⟩ := small_cons.mp hy
    have hproduct : x * y ≤ (base - 1) * (base - 1) := Nat.mul_le_mul (by omega) (by omega)
    have hnext : (d + x * y + carry) / base < base := by
      rw [div_lt_iff_lt_mul (by decide)]
      unfold base at *; omega
    unfold base at hproduct hd0 hcarry
    rw [productRow, mulRow, fits_of (by omega)]
    simp [fits_of (show d + x * y ≤ 9223372036854775807 by omega),
      fits_of (show d + x * y + carry ≤ 9223372036854775807 by omega), ih hds hys hnext]
  | case2 d ds carry => rfl
  | case3 ys carry => simp [productRow, mulRow]

theorem productRows_eq (xs ys ds : List Nat) (hx : Small base xs) (hy : Small base ys)
    (hd : Small base ds) : productRows xs ys ds = some (mulRows base xs ys ds) := by
  induction xs generalizing ds with
  | nil => rfl
  | cons x xs ih =>
    obtain ⟨hx0, hxs⟩ := small_cons.mp hx
    have hrow := small_mulRow hx0 ds ys 0 hd hy (by decide)
    rw [productRows, mulRows, productRow_eq hx0 ds ys hd hy (by decide)]
    simp only [bind_eq_bind, bind_some]
    cases hcase : mulRow base x ds ys 0 with
    | nil => rfl
    | cons d rest =>
      rw [hcase] at hrow; simp [ih rest hxs (small_cons.mp hrow).2]

def unit (a : Plain) : Bool := a.digits == [1]

def product (a b : Plain) : Option Plain :=
  if a.digits.isEmpty then some a
  else if b.digits.isEmpty then some b
  else if unit a then some (if a.negative then negate b else b)
  else if unit b then some (if b.negative then negate a else a)
  else do
    let digits ← productRows a.digits b.digits
      (List.replicate (a.digits.length + b.digits.length) 0)
    return number (a.negative != b.negative) digits

theorem product_plain (m n : Number) :
    product (plain m) (plain n) = some (plain (Number.product m n)) := by
  have hzeros : Small base (List.replicate (m.digits.length + n.digits.length) 0) := by
    intro d hd
    rw [List.eq_of_mem_replicate hd]; decide
  have hdigits := productRows_eq m.digits n.digits _ m.small n.small hzeros
  unfold product Number.product unit Number.unit
  rw [hdigits]
  split
  · rfl
  · split
    · rfl
    · split
      · split <;> rfl
      · split
        · split <;> rfl
        · rfl

/-! ## Conversion to a machine integer -/

/-- The digits from the top, in negative magnitudes. -/
def machineDigits : List Nat → Option Int
  | [] => some 0
  | d :: ds => do checked ((← checked ((← machineDigits ds) * 1000000000)) - d)

def machine (a : Plain) : Option (Except String Int) := do
  let low ← compare a (← integer (-9223372036854775808))
  let high ← compare a (← integer 9223372036854775807)
  if low < 0 || high > 0 then return .error "proof integer is outside Int"
  else do
    let remaining ← machineDigits a.digits
    if a.negative then return .ok remaining else return .ok (← checked (-remaining))

theorem machineDigits_eq (ds : List Nat) (h : value base ds ≤ 9223372036854775808) :
    machineDigits ds = some (-(value base ds : Int)) := by
  induction ds with
  | nil => rfl
  | cons d ds ih =>
    rw [value_cons] at h
    have hbase : (base : Int) = 1000000000 := rfl
    have hle : value base ds ≤ base * value base ds := Nat.le_mul_of_pos_left _ (by decide)
    have hrows : ((base * value base ds : Nat) : Int) = 1000000000 * value base ds := by
      rw [cast_mul, hbase]
    rw [machineDigits, ih (by omega), value_cons]
    simp only [bind_eq_bind, bind_some]
    rw [checked_of (machine_of (by omega) (by omega)), bind_some,
      checked_of (machine_of (by omega) (by omega))]
    congr 1
    omega

theorem machine_plain (n : Number) : machine (plain n) = some (Number.machine n) := by
  have hdigits := machineDigits_eq n.digits
  have habs := n.natAbs_toInt
  have hsign := n.negative_iff
  rw [machine, integer_eq (by decide), integer_eq (by decide)]
  simp only [bind_eq_bind, bind_some, compare_plain]
  change (if (decide (n.compare (Number.integer Number.minInt) < 0) ||
    decide (n.compare (Number.integer Number.maxInt) > 0)) = true then _ else _) = _
  rw [Number.machine]
  split
  · rfl
  · rename_i hrange
    simp only [Bool.or_eq_true, decide_eq_true_eq, gt_iff_lt, compare_lt_zero,
      compare_gt_zero, toInt_integer, minInt, maxInt] at hrange
    simp only [hdigits (by omega), bind_some, foldr_negative]
    by_cases hn : n.negative = true
    · rw [if_pos hn, if_pos hn]; rfl
    · rw [hsign] at hn
      rw [if_neg (hsign.not.mpr hn), if_neg (hsign.not.mpr hn), Int.neg_neg,
        checked_of (machine_of (by omega) (by omega))]
      rfl

/-! ## Exactness -/

/-- The result of a loop that does not fault, is canonical and denotes an integer. -/
def Exact (result : Option Plain) (value : Int) : Prop :=
  ∃ c, result = some c ∧ c.Canonical ∧ c.toInt = value

theorem exact_plain {result : Option Plain} {n : Number} {x : Int}
    (hresult : result = some (plain n)) (hvalue : n.toInt = x) : Exact result x :=
  ⟨plain n, hresult, canonical_plain n, hvalue⟩

/-- Numbers are exact: over canonical records every operation ends without an
overflow in a canonical record of the exact integer; every machine integer
survives the conversion there and back, and the conversion back is an error
exactly outside the machine range. -/
theorem numbers_exact : (∀ a b : Plain, a.Canonical → b.Canonical →
      Exact (sum a b) (a.toInt + b.toInt) ∧ Exact (subtract a b) (a.toInt - b.toInt) ∧
      Exact (product a b) (a.toInt * b.toInt) ∧ Exact (some (negate a)) (-a.toInt) ∧
      compare a b = some (a.toInt - b.toInt).sign) ∧
    (∀ value, Word.Machine value → Exact (integer value) value ∧
      (integer value).bind machine = some (.ok value)) ∧
    ∀ a : Plain, a.Canonical → ∃ result, machine a = some result ∧
      ((∃ message, result = .error message) ↔ ¬ Word.Machine a.toInt) := by
  refine ⟨?_, ?_, ?_⟩
  · intro a b ha hb
    obtain ⟨m, rfl⟩ := exists_number ha
    obtain ⟨n, rfl⟩ := exists_number hb
    refine ⟨exact_plain (sum_plain m n) (toInt_sum m n),
      exact_plain (subtract_plain m n) (toInt_subtract m n),
      exact_plain (product_plain m n) (toInt_product m n),
      exact_plain rfl (toInt_negate m), ?_⟩
    rw [compare_plain, Number.compare_eq]; rfl
  · intro value hvalue
    refine ⟨exact_plain (integer_eq hvalue) (toInt_integer value), ?_⟩
    rw [integer_eq hvalue, bind_some, machine_plain,
      machine_ok (by rwa [toInt_integer]), toInt_integer]
  · intro a ha
    obtain ⟨n, rfl⟩ := exists_number ha
    refine ⟨_, machine_plain n, ?_⟩
    by_cases hrange : Word.Machine n.toInt
    · rw [machine_ok hrange]
      exact ⟨fun ⟨_, h⟩ => (nomatch h), fun h => absurd hrange h⟩
    · rw [machine_error hrange]
      exact ⟨fun _ => hrange, fun _ => ⟨_, rfl⟩⟩

end Loom.Proof.Steps

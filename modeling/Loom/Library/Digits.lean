import Mathlib.Data.Nat.Digits.Lemmas
import Mathlib.Tactic.Ring
import Mathlib.Tactic.Linarith
import Mathlib.Tactic.LinearCombination

/- Schoolbook arithmetic on little-endian digit lists, over any base `b`. A
   digit list denotes `value b`; every operation below is the usual
   one-pass loop with a carry or a borrow, and its lemma says what the result
   denotes. Nothing here bounds the length of a list. -/
namespace Loom.Digits

open Nat List

/-- The number a little-endian digit list denotes. -/
def value (b : Nat) (ds : List Nat) : Nat := ofDigits b ds

@[simp] theorem value_nil (b : Nat) : value b [] = 0 := rfl

@[simp] theorem value_cons (b d : Nat) (ds : List Nat) :
    value b (d :: ds) = d + b * value b ds := by
  simp [value, ofDigits_cons]

theorem value_append (b : Nat) (xs ys : List Nat) :
    value b (xs ++ ys) = value b xs + b ^ xs.length * value b ys := ofDigits_append

theorem value_digits (b n : Nat) : value b (b.digits n) = n := ofDigits_digits b n

/-- Every digit is below the base. -/
def Small (b : Nat) (ds : List Nat) : Prop := ∀ d ∈ ds, d < b

/-- No zero digit at the top, so the list is the shortest one for its value. -/
def Trimmed (ds : List Nat) : Prop := ds.getLast? ≠ some 0

theorem small_nil (b : Nat) : Small b [] := by simp [Small]

variable {ds : List Nat} {b : Nat}

theorem small_cons {d : Nat} : Small b (d :: ds) ↔ d < b ∧ Small b ds := by
  simp [Small]

theorem small_reverse : Small b ds.reverse ↔ Small b ds := by
  simp [Small]

theorem small_tail (h : Small b ds) : Small b ds.tail := fun d hd => h d (mem_of_mem_tail hd)

theorem small_digits (hb : 1 < b) (n : Nat) : Small b (b.digits n) :=
  fun _ hd => digits_lt_base hb hd

theorem value_lt (hb : 1 < b) (hs : Small b ds) : value b ds < b ^ ds.length :=
  ofDigits_lt_base_pow_length hb hs

/-- A small trimmed list is the digit expansion of the value it denotes. -/
theorem digits_value (hb : 1 < b) (hs : Small b ds) (ht : Trimmed ds) :
    b.digits (value b ds) = ds := by
  apply digits_ofDigits b hb ds hs
  intro hne hz; exact ht (by rw [getLast?_eq_some_getLast hne, hz])

theorem trimmed_digits (b n : Nat) : Trimmed (b.digits n) := by
  by_cases hn : n = 0
  · subst hn; simp [Trimmed]
  · have hne : b.digits n ≠ [] := digits_ne_nil_iff_ne_zero.mpr hn
    have := getLast_digit_ne_zero b hn
    rw [Trimmed, getLast?_eq_some_getLast hne]
    simpa using this

/-! ## Dropping zero digits from the top -/

def trim : List Nat → List Nat
  | [] => []
  | d :: ds =>
    match trim ds with
    | [] => if d = 0 then [] else [d]
    | e :: es => d :: e :: es

theorem value_trim (b : Nat) (ds : List Nat) : value b (trim ds) = value b ds := by
  induction ds with
  | nil => rfl
  | cons d ds ih =>
    simp only [trim]
    split
    · rename_i h
      rw [h] at ih
      rw [value_cons, ← ih]
      split
      · rename_i hd; simp [hd]
      · simp
    · rename_i e es h
      rw [value_cons, ← h, ih, ← value_cons]

theorem trimmed_trim (ds : List Nat) : Trimmed (trim ds) := by
  induction ds with
  | nil => simp [trim, Trimmed]
  | cons d ds ih =>
    simp only [trim]
    split
    · split
      · simp [Trimmed]
      · simpa [Trimmed] using by assumption
    · rename_i e es h
      rw [h] at ih
      simpa [Trimmed] using ih

theorem mem_trim {d : Nat} (h : d ∈ trim ds) : d ∈ ds := by
  induction ds with
  | nil => simp [trim] at h
  | cons x ds ih =>
    simp only [trim] at h
    split at h
    · split at h
      · simp at h
      · simpa using .inl (by simpa using h)
    · rename_i e es he
      rw [he] at ih
      rcases mem_cons.mp h with rfl | h
      · exact .head _
      · exact .tail _ (ih h)

theorem small_trim (h : Small b ds) : Small b (trim ds) := fun d hd => h d (mem_trim hd)

/-! ## Comparison from the most significant digit -/

/-- The first difference of two equally long big-endian lists decides. -/
def topDown : List Nat → List Nat → Int
  | x :: xs, y :: ys => if x < y then -1 else if x > y then 1 else topDown xs ys
  | _, _ => 0

/-- Longer is larger; equal lengths are compared from the top. -/
def magnitude (a c : List Nat) : Int :=
  if a.length < c.length then -1
  else if a.length > c.length then 1
  else topDown a.reverse c.reverse

/-- A larger top digit outweighs everything below it. -/
theorem value_append_lt {x y : Nat} (hb : 1 < b) {xs ys : List Nat} (hx : Small b xs)
    (hl : xs.length = ys.length) (h : x < y) : value b (xs ++ [x]) < value b (ys ++ [y]) := by
  have hlt := value_lt hb hx
  simp only [value_append, ← hl]
  calc value b xs + b ^ xs.length * x < b ^ xs.length + b ^ xs.length * x := by omega
    _ = b ^ xs.length * (x + 1) := by ring
    _ ≤ b ^ xs.length * y := mul_le_mul_left _ h
    _ ≤ value b ys + b ^ xs.length * y := le_add_left _ _

theorem topDown_eq (hb : 1 < b) (xs ys : List Nat) (hl : xs.length = ys.length) (hx : Small b xs)
    (hy : Small b ys) :
    topDown xs ys = Int.sign (value b xs.reverse - value b ys.reverse : Int) := by
  induction xs generalizing ys with
  | nil =>
    cases ys with
    | nil => simp [topDown]
    | cons _ _ => simp at hl
  | cons x xs ih =>
    cases ys with
    | nil => simp at hl
    | cons y ys =>
      obtain ⟨_, hx'⟩ := small_cons.mp hx
      obtain ⟨_, hy'⟩ := small_cons.mp hy
      have hlr : xs.reverse.length = ys.reverse.length := by simpa using hl
      simp only [topDown, reverse_cons]
      split
      · rename_i h
        have := value_append_lt hb (small_reverse.mpr hx') hlr h
        rw [Int.sign_eq_neg_one_of_neg (by omega)]
      · split
        · rename_i h
          have := value_append_lt hb (small_reverse.mpr hy') hlr.symm h
          rw [Int.sign_eq_one_of_pos (by omega)]
        · have hxy : x = y := by omega
          rw [ih ys (by simpa using hl) hx' hy', hxy, value_append, value_append, hlr]
          push_cast
          ring_nf

/-- Of two trimmed lists the shorter denotes the smaller number. -/
theorem value_lt_of_length_lt (hb : 1 < b) {a c : List Nat} (ha : Small b a) (hc : Small b c)
    (htc : Trimmed c) (hl : a.length < c.length) : value b a < value b c := by
  have hdc := digits_value hb hc htc
  have hpos : value b c ≠ 0 := by
    intro hz
    rw [hz] at hdc; simp [← hdc] at hl
  have hge := base_pow_length_digits_le' (b - 2) (value b c) hpos
  rw [show b - 2 + 2 = b by omega, hdc] at hge
  have hpow : b ^ (a.length + 1) ≤ b ^ c.length := Nat.pow_le_pow_right (by omega) hl
  have hmul : b * b ^ a.length ≤ b * value b c := by
    rw [← Nat.pow_succ']; exact le_trans hpow hge
  exact lt_of_lt_of_le (value_lt hb ha) (le_of_mul_le_mul_left hmul (by omega))

theorem magnitude_eq (hb : 1 < b) {a c : List Nat} (ha : Small b a) (hc : Small b c)
    (hta : Trimmed a) (htc : Trimmed c) :
    magnitude a c = Int.sign (value b a - value b c : Int) := by
  unfold magnitude
  split
  · rename_i h
    have := value_lt_of_length_lt hb ha hc htc h
    rw [Int.sign_eq_neg_one_of_neg (by omega)]
  · split
    · rename_i h
      have := value_lt_of_length_lt hb hc ha hta h
      rw [Int.sign_eq_one_of_pos (by omega)]
    · rw [topDown_eq hb a.reverse c.reverse (by simp; omega) (small_reverse.mpr ha)
        (small_reverse.mpr hc), reverse_reverse, reverse_reverse]

/-! ## Addition and subtraction -/

/-- Digit sums from the bottom, carrying; a carry left over at the end is
written out in its own digits. -/
def add (b : Nat) : List Nat → List Nat → Nat → List Nat
  | [], [], carry => b.digits carry
  | x :: xs, [], carry => (x + carry) % b :: add b xs [] ((x + carry) / b)
  | [], y :: ys, carry => (y + carry) % b :: add b [] ys ((y + carry) / b)
  | x :: xs, y :: ys, carry => (x + y + carry) % b :: add b xs ys ((x + y + carry) / b)
termination_by xs ys => xs.length + ys.length

theorem value_add (b : Nat) (xs ys : List Nat) (carry : Nat) :
    value b (add b xs ys carry) = value b xs + value b ys + carry := by
  induction xs, ys, carry using add.induct b with
  | case1 carry => simp [add, value_digits]
  | case2 x xs carry ih =>
    have := mod_add_div (x + carry) b
    simp only [add, value_cons, ih, value_nil, mul_add] at this ⊢; omega
  | case3 y ys carry ih =>
    have := mod_add_div (y + carry) b
    simp only [add, value_cons, ih, value_nil, mul_add] at this ⊢; omega
  | case4 x xs y ys carry ih =>
    have := mod_add_div (x + y + carry) b
    simp only [add, value_cons, ih, mul_add] at this ⊢; omega

theorem small_add (hb : 1 < b) (xs ys : List Nat) (carry : Nat) : Small b (add b xs ys carry) := by
  have hpos : 0 < b := by omega
  induction xs, ys, carry using add.induct b with
  | case1 carry => rw [add]; exact small_digits hb carry
  | case2 x xs carry ih => rw [add]; exact small_cons.mpr ⟨mod_lt _ hpos, ih⟩
  | case3 y ys carry ih => rw [add]; exact small_cons.mpr ⟨mod_lt _ hpos, ih⟩
  | case4 x xs y ys carry ih => rw [add]; exact small_cons.mpr ⟨mod_lt _ hpos, ih⟩

/-- Digit differences from the bottom, borrowing; the subtrahend is read as
zero past its end. -/
def sub (b : Nat) : List Nat → List Nat → Nat → List Nat
  | [], _, _ => []
  | x :: xs, ys, borrow =>
    if x < ys.headD 0 + borrow then (x + b - (ys.headD 0 + borrow)) :: sub b xs ys.tail 1
    else (x - (ys.headD 0 + borrow)) :: sub b xs ys.tail 0

theorem small_sub (xs ys : List Nat) (borrow : Nat) (hx : Small b xs) :
    Small b (sub b xs ys borrow) := by
  induction xs generalizing ys borrow with
  | nil => exact small_nil b
  | cons x xs ih =>
    obtain ⟨hx0, hxs⟩ := small_cons.mp hx
    simp only [sub]
    split
    · exact small_cons.mpr ⟨by omega, ih ys.tail 1 hxs⟩
    · exact small_cons.mpr ⟨by omega, ih ys.tail 0 hxs⟩

theorem value_headD_tail (b : Nat) (ys : List Nat) :
    value b ys = ys.headD 0 + b * value b ys.tail := by
  cases ys <;> simp

theorem headD_lt (hb : 1 < b) {ys : List Nat} (hy : Small b ys) : ys.headD 0 < b := by
  cases ys with
  | nil => simp; omega
  | cons y ys => exact (small_cons.mp hy).1

/-- No borrow is left over when the subtrahend is not the larger one. -/
theorem value_sub (hb : 1 < b) (xs ys : List Nat) (borrow : Nat) (hx : Small b xs) (hy : Small b ys)
    (hbr : borrow ≤ 1) (hle : value b ys + borrow ≤ value b xs) :
    value b (sub b xs ys borrow) + value b ys + borrow = value b xs := by
  induction xs generalizing ys borrow with
  | nil =>
    simp only [sub, value_nil] at hle ⊢; omega
  | cons x xs ih =>
    obtain ⟨hx0, hxs⟩ := small_cons.mp hx
    have hy0 := headD_lt hb hy
    have step := fun borrow hbr hle => ih ys.tail borrow hxs (small_tail hy) hbr hle
    rw [value_headD_tail b ys, value_cons] at hle
    rw [sub, value_headD_tail b ys]
    split
    · have hlt : value b ys.tail < value b xs := by
        by_contra hge
        have := Nat.mul_le_mul_left b (Nat.le_of_not_lt hge)
        omega
      simp only [value_cons, ← step 1 (by omega) (by omega), mul_add]; omega
    · have hle' : value b ys.tail ≤ value b xs := by
        by_contra hgt
        have := Nat.mul_le_mul_left b (Nat.lt_of_not_le hgt)
        rw [mul_succ] at this; omega
      simp only [value_cons, ← step 0 (by omega) (by omega), mul_add]; omega

/-! ## Multiplication -/

/-- One row: `x` times the digits `ys` is added into the running digits, and
the last carry is stored one place above them. -/
def mulRow (b x : Nat) : List Nat → List Nat → Nat → List Nat
  | d :: ds, y :: ys, carry =>
    (d + x * y + carry) % b :: mulRow b x ds ys ((d + x * y + carry) / b)
  | d :: ds, [], carry => (if carry = 0 then d else carry) :: ds
  | [], _, _ => []

/-- All rows, each starting one place above the previous one. -/
def mulRows (b : Nat) : List Nat → List Nat → List Nat → List Nat
  | [], _, ds => ds
  | x :: xs, ys, ds =>
    match mulRow b x ds ys 0 with
    | [] => []
    | d :: rest => d :: mulRows b xs ys rest

/-- Running digits with room for a row: the places past the first `n` are
still zero. -/
def Room (n : Nat) (ds : List Nat) : Prop := ∀ d ∈ ds.drop n, d = 0

theorem mulRow_length (b x : Nat) (ds ys : List Nat) (carry : Nat) :
    (mulRow b x ds ys carry).length = ds.length := by
  induction ds, ys, carry using mulRow.induct b x with
  | case1 d ds y ys carry ih => simp [mulRow, ih]
  | case2 d ds carry => rfl
  | case3 ys carry => simp [mulRow]

theorem value_mulRow (b x : Nat) (ds ys : List Nat) (carry : Nat) (hr : Room ys.length ds)
    (hl : ys.length < ds.length) :
    value b (mulRow b x ds ys carry) = value b ds + x * value b ys + carry := by
  induction ds, ys, carry using mulRow.induct b x with
  | case1 d ds y ys carry ih =>
    have hstep := ih (by simpa [Room] using hr) (by simpa using hl)
    have := mod_add_div (d + x * y + carry) b
    simp only [mulRow, value_cons, hstep, mul_add] at this ⊢
    rw [mul_left_comm x b]; omega
  | case2 d ds carry =>
    have hd : d = 0 := hr d (by simp)
    simp only [mulRow, value_cons, value_nil]
    split <;> omega
  | case3 ys carry => simp at hl

theorem small_mulRow {x : Nat} (hx : x < b) (ds ys : List Nat) (carry : Nat) (hd : Small b ds)
    (hy : Small b ys) (hc : carry < b) : Small b (mulRow b x ds ys carry) := by
  induction ds, ys, carry using mulRow.induct b x with
  | case1 d ds y ys carry ih =>
    obtain ⟨hd0, hds⟩ := small_cons.mp hd
    obtain ⟨hy0, hys⟩ := small_cons.mp hy
    have hprod : x * y ≤ (b - 1) * (b - 1) := Nat.mul_le_mul (by omega) (by omega)
    have hcarry : (d + x * y + carry) / b < b := by
      rw [div_lt_iff_lt_mul (by omega)]
      obtain ⟨k, rfl⟩ : ∃ k, b = k + 1 := ⟨b - 1, by omega⟩
      nlinarith
    exact small_cons.mpr ⟨mod_lt _ (by omega), ih hds hys hcarry⟩
  | case2 d ds carry =>
    obtain ⟨hd0, hds⟩ := small_cons.mp hd
    exact small_cons.mpr ⟨by split <;> assumption, hds⟩
  | case3 ys carry => exact small_nil b

/-- A row writes one place past the digits it multiplies and no further. -/
theorem room_mulRow (b x : Nat) (ds ys : List Nat) (carry : Nat) (hr : Room ys.length ds) :
    Room (ys.length + 1) (mulRow b x ds ys carry) := by
  induction ds, ys, carry using mulRow.induct b x with
  | case1 d ds y ys carry ih => simpa [Room, mulRow] using ih (by simpa [Room] using hr)
  | case2 d ds carry => exact fun e he => hr e (.tail d he)
  | case3 ys carry => simp [Room, mulRow]

theorem small_mulRows (xs ys ds : List Nat) (hx : Small b xs) (hy : Small b ys) (hd : Small b ds) :
    Small b (mulRows b xs ys ds) := by
  induction xs generalizing ds with
  | nil => exact hd
  | cons x xs ih =>
    obtain ⟨hx0, hxs⟩ := small_cons.mp hx
    have hrow := small_mulRow hx0 ds ys 0 hd hy (by omega)
    simp only [mulRows]
    split
    · exact small_nil b
    · rename_i d rest h
      obtain ⟨hd0, hrest⟩ := small_cons.mp (h ▸ hrow)
      exact small_cons.mpr ⟨hd0, ih rest hxs hrest⟩

theorem value_mulRows (b : Nat) (xs ys ds : List Nat) (hr : Room ys.length ds)
    (hl : ds.length = xs.length + ys.length) :
    value b (mulRows b xs ys ds) = value b ds + value b xs * value b ys := by
  induction xs generalizing ds with
  | nil => simp [mulRows]
  | cons x xs ih =>
    have hlen := mulRow_length b x ds ys 0
    have hval := value_mulRow b x ds ys 0 hr (by simp at hl; omega)
    have hroom := room_mulRow b x ds ys 0 hr
    simp only [mulRows]
    split
    · rename_i h
      simp only [h, length_nil, length_cons] at hlen hl; omega
    · rename_i d rest h
      rw [h] at hlen hval hroom
      rw [value_cons, ih rest (by simpa [Room] using hroom) (by simp at hlen hl; omega)]
      rw [value_cons] at hval
      rw [value_cons]
      linear_combination hval

end Loom.Digits

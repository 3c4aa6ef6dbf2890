import Loom.Proof.Bounds
import Loom.Library.Budget
import Loom.Library.Results

/- Bounds of word operations (`proof/bitwise_bounds.loom`). An input without
   established machine bounds is read as any word: word results always have
   their representation domain, and eager safety is checked independently. -/
namespace Loom.Proof

open Bounds Number Words Budgeted Word Int

/-- Bounds of an input read as a word: without machine bounds, any word. -/
def wordInputBounds (input : Budgeted Bounds) : Budgeted Bounds := do
  match ← attempt input with
  | some bounds =>
    if compare bounds.low signedWordBounds.low ≥ 0 &&
        compare bounds.high signedWordBounds.high ≤ 0 && compare bounds.low bounds.high ≤ 0 then
      return bounds
    else return signedWordBounds
  | none => return signedWordBounds

/-- Bounds on the word an integer is read as. -/
def ContainsWord (b : Bounds) (x : Int) : Prop := b.Contains (ofInt x).toInt

variable {x : Int} {n : Nat} {y a : Int} {left right b : Bounds} {operator : Operator}
  {X Y : BitVec 64}

theorem ensures_wordInputBounds {input : Budgeted Bounds}
    (h : Budgeted.Ensures input (·.Contains x)) :
    Budgeted.Ensures (wordInputBounds input) (ContainsWord · x) := by
  have hfull : ContainsWord signedWordBounds x :=
    contains_signedWordBounds.mpr (machine_toInt _)
  refine ensures_bind (ensures_attempt h) fun r hr => ?_
  cases r with
  | none => exact ensures_pure hfull
  | some bounds =>
    refine ensures_ite (fun hc => ?_) fun _ => ensures_pure hfull
    · refine ensures_pure ?_
      have hx := hr bounds rfl
      have hm : Word.Machine x := by
        obtain ⟨hlow, hhigh⟩ := hx
        simp only [signedWordBounds, compare_eq, toInt_integer, Bool.and_eq_true,
          decide_eq_true_eq, sign_nonneg_iff, sign_nonpos_iff] at hc
        unfold Word.Machine; omega
      rw [ContainsWord, toInt_ofInt hm]; exact hx

/-- Fill every bit below the highest possible set bit: no `or` and no `xor` of
nonnegative words up to `maximum` sets a higher bit, even across holes in it. -/
def wordMask (maximum : Number) : Except String Number := do
  let mask ← machine maximum
  if mask < 0 then throw "unsigned mask needs a nonnegative word bound"
  else return integer ([1, 2, 4, 8, 16, 32].foldl
    (fun mask shift => or mask (shiftRight mask shift)) mask)

/-- A natural number below the sign bit is its own word. -/
theorem toNat_ofInt (hn : n < 2 ^ 63) : (ofInt n).toNat = n := by
  simp only [ofInt, BitVec.toNat_ofInt]; omega

theorem machine_of_lt (hn : n < 2 ^ 63) : Word.Machine n := by
  unfold Word.Machine minInt maxInt; omega

/-- A word holding `n` and the `d` places below each of its bits. -/
def Filling (n d : Nat) (mask : Int) : Prop :=
  ∃ m : Nat, mask = m ∧ m < 2 ^ 63 ∧ Words.Smeared n d m

theorem filling_double {d : Nat} {mask : Int} (h : Filling n d mask) (hd : d < 64) :
    Filling n (d + d) (Word.or mask (Word.shiftRight mask d)) := by
  obtain ⟨m, rfl, hm, hs⟩ := h
  have hshift : m >>> d < 2 ^ 63 := lt_of_le_of_lt (Nat.shiftRight_le m d) hm
  have hword : ∀ {k : Nat}, k < 2 ^ 63 → 0 ≤ (ofInt k).toInt := by
    intro k hk
    rw [toInt_ofInt (machine_of_lt hk)]; omega
  have hsr : shiftRight m d = (m >>> d : Nat) := by
    rw [shiftRight, BitVec.toInt_sshiftRight', toInt_ofInt (machine_of_lt hm),
      toNat_ofInt (by omega)]
    rfl
  refine ⟨m ||| m >>> d, ?_, Nat.or_lt_two_pow hm hshift, smeared_double hs⟩
  rw [hsr, Word.or, or_nonneg (hword hm) (hword hshift), toNat_ofInt hm, toNat_ofInt hshift]

/-- The mask of a nonnegative bound is filled and not below it. -/
theorem wordMask_spec {maximum mask : Number} (h : wordMask maximum = .ok mask) :
    ∃ m : Nat, mask.toInt = m ∧ Words.Filled m ∧ maximum.toInt ≤ m := by
  obtain ⟨top, htop, h⟩ := Results.bind_eq_ok.mp h
  obtain ⟨htop, _, hmax⟩ := machine_spec htop
  split at h
  · simp [Results.throw_eq_ok] at h
  · cases h
    obtain ⟨n, rfl⟩ : ∃ n : Nat, top = n := ⟨top.toNat, by omega⟩
    have h0 : n < 2 ^ 63 := by
      unfold maxInt at hmax; omega
    have hfill : Filling n 1 n := ⟨n, rfl, h0, smeared_self n⟩
    have hfill := filling_double (filling_double (filling_double hfill (by omega)) (by omega))
      (by omega)
    have hfill := filling_double (filling_double (filling_double hfill (by omega)) (by omega))
      (by omega)
    obtain ⟨m, hm, _, hs⟩ := hfill
    refine ⟨m, ?_, smeared_filled hs (by omega), ?_⟩
    · rw [toInt_integer, ← hm]; rfl
    · have := le_smeared hs (by omega)
      omega

def wordShiftBounds (operator : Operator) (left right : Bounds) : Except String Bounds := do
  let first ← machine left.low
  let last ← machine left.high
  let low ← machine right.low
  let high ← machine right.high
  if low < 0 || high ≥ 64 then return signedWordBounds
  else if operator = .shiftRight then
    -- Increasing the count approaches zero or minus one, by the value's sign.
    return { low := integer (shiftRight first (if first < 0 then low else high))
             high := integer (shiftRight last (if last < 0 then high else low)) }
  else if first < shiftRight minInt high || last > shiftRight maxInt high then
    return signedWordBounds
  else
    return { low := integer (shiftLeft first (if first < 0 then high else low))
             high := integer (shiftLeft last (if last < 0 then low else high)) }

/-! ### Shifts -/

theorem toNat_count {n : Int} (h0 : 0 ≤ n) (h1 : n < 64) : (ofInt n).toNat = n.toNat := by
  simp only [ofInt, BitVec.toNat_ofInt]; omega

theorem shiftRight_eq (x n : Int) :
    shiftRight x n = (ofInt x).toInt >>> (ofInt n).toNat := by
  rw [shiftRight, BitVec.toInt_sshiftRight']

theorem shiftLeft_eq (x n : Int)
    (h : Word.Machine ((ofInt x).toInt * 2 ^ (ofInt n).toNat)) :
    shiftLeft x n = (ofInt x).toInt * 2 ^ (ofInt n).toNat := by
  obtain ⟨hlow, hhigh⟩ := h
  unfold minInt at hlow
  unfold maxInt at hhigh
  rw [shiftLeft, BitVec.shiftLeft_eq', BitVec.toInt_shiftLeft, Nat.shiftLeft_eq,
    Nat.cast_mul, ← bmod_mul_bmod, ← BitVec.toInt_eq_toNat_bmod]
  push_cast
  exact bmod_eq_of_le (by omega) (by omega)

theorem contains_shiftRight {first last low high : Int}
    (hx : first ≤ (ofInt x).toInt ∧ (ofInt x).toInt ≤ last) (hfirst : Word.Machine first)
    (hlast : Word.Machine last) (hy : low ≤ (ofInt y).toInt ∧ (ofInt y).toInt ≤ high)
    (hlow : 0 ≤ low) (hhigh : high < 64) :
    shiftRight first (if first < 0 then low else high) ≤ shiftRight x y ∧
      shiftRight x y ≤ shiftRight last (if last < 0 then high else low) := by
  have hn := toInt_of_nonneg (x := ofInt y) (by omega)
  simp only [shiftRight_eq, toInt_ofInt hfirst, toInt_ofInt hlast]
  generalize (ofInt y).toNat = n at *
  constructor
  · refine le_trans ?_ (shiftRight_mono hx.1 n)
    split
    · rename_i hneg
      rw [toNat_count hlow (by omega)]
      exact shiftRight_mono_neg hneg (by omega)
    · rw [toNat_count (by omega) hhigh]
      exact shiftRight_anti_nonneg (by omega) (by omega)
  · refine le_trans (shiftRight_mono hx.2 n) ?_
    split
    · rename_i hneg
      rw [toNat_count (by omega) hhigh]
      exact shiftRight_mono_neg hneg (by omega)
    · rw [toNat_count hlow (by omega)]
      exact shiftRight_anti_nonneg (by omega) (by omega)

/-- Powers of two below the sign bit divide the minimum exactly. -/
theorem min_le_mul_pow {k : Nat} (hk : k < 64) (h : minInt >>> k ≤ a) : minInt ≤ a * 2 ^ k := by
  have hdiv : (2 ^ k : Int) * 2 ^ (63 - k) = 2 ^ 63 := by
    rw [← pow_add, show k + (63 - k) = 63 by omega]
  rw [shiftRight_eq_div_pow] at h
  have hp : (0 : Int) < 2 ^ k := by positivity
  have hmin : minInt = -(2 ^ (63 - k)) * 2 ^ k := by
    unfold minInt
    linarith
  push_cast at h
  rw [hmin, mul_ediv_cancel _ hp.ne'] at h
  rw [hmin]; exact mul_le_mul_of_nonneg_right h hp.le

theorem mul_pow_le_max {k : Nat} (h : a ≤ maxInt >>> k) : a * 2 ^ k ≤ maxInt := by
  rw [shiftRight_eq_div_pow] at h
  have hp : (0 : Int) < 2 ^ k := by positivity
  exact (Int.le_ediv_iff_mul_le hp).mp h

/-- Multiplying by a smaller power of two stays closer to zero. -/
theorem mul_pow_mono {m : Nat} (h : m ≤ n) :
    (0 ≤ a → a * 2 ^ m ≤ a * 2 ^ n) ∧ (a ≤ 0 → a * 2 ^ n ≤ a * 2 ^ m) := by
  have hp : (2 : Int) ^ m ≤ 2 ^ n := pow_le_pow_right₀ (by omega) h
  exact ⟨fun ha => mul_le_mul_of_nonneg_left hp ha, fun ha => mul_le_mul_of_nonpos_left hp ha⟩

theorem contains_shiftLeft {first last low high : Int}
    (hx : first ≤ (ofInt x).toInt ∧ (ofInt x).toInt ≤ last) (hfirst : Word.Machine first)
    (hlast : Word.Machine last) (hy : low ≤ (ofInt y).toInt ∧ (ofInt y).toInt ≤ high)
    (hlow : 0 ≤ low) (hhigh : high < 64) (hmin : shiftRight minInt high ≤ first)
    (hmax : last ≤ shiftRight maxInt high) :
    shiftLeft first (if first < 0 then high else low) ≤ shiftLeft x y ∧
      shiftLeft x y ≤ shiftLeft last (if last < 0 then low else high) := by
  have hn := toInt_of_nonneg (x := ofInt y) (by omega)
  have hcount : (ofInt high).toNat = high.toNat := toNat_count (by omega) hhigh
  have hcountLow : (ofInt low).toNat = low.toNat := toNat_count hlow (by omega)
  rw [shiftRight_eq, hcount] at hmin hmax
  -- Any value in the range shifted by any count up to `high` stays in the word.
  have hall : ∀ {a : Int} {k : Nat}, first ≤ a → a ≤ last → k ≤ high.toNat →
      Word.Machine (a * 2 ^ k) := by
    intro a k h1 h2 hk
    have hmono := mul_pow_mono (a := a) hk
    have hlo := min_le_mul_pow (k := high.toNat) (by omega) (hmin.trans h1)
    have hhi := mul_pow_le_max (h2.trans hmax)
    have hone := mul_pow_mono (a := a) (Nat.zero_le k)
    unfold Word.Machine minInt maxInt at *
    rcases le_total 0 a with ha | ha
    · omega
    · omega
  have hfl : first ≤ last := hx.1.trans hx.2
  rw [shiftLeft_eq x y (hall hx.1 hx.2 (by omega))]
  generalize hN : (ofInt y).toNat = n at *
  have hstep : ∀ {a b : Int}, a ≤ b → a * 2 ^ n ≤ b * 2 ^ n :=
    fun h => mul_le_mul_of_nonneg_right h (by positivity)
  constructor
  · refine le_trans ?_ (hstep hx.1)
    split
    · rw [shiftLeft_eq, toInt_ofInt hfirst]
      · exact (mul_pow_mono (by omega)).2 (by omega)
      · rw [toInt_ofInt hfirst, hcount]
        exact hall (le_refl _) hfl (le_refl _)
    · rw [shiftLeft_eq, toInt_ofInt hfirst, hcountLow]
      · exact (mul_pow_mono (by omega)).1 (by omega)
      · rw [toInt_ofInt hfirst]; exact hall (le_refl _) hfl (by omega)
  · refine le_trans (hstep hx.2) ?_
    split
    · rw [shiftLeft_eq, toInt_ofInt hlast]
      · exact (mul_pow_mono (by omega)).2 (by omega)
      · rw [toInt_ofInt hlast]; exact hall hfl (le_refl _) (by omega)
    · rename_i hpos
      rw [shiftLeft_eq, toInt_ofInt hlast]
      · exact (mul_pow_mono (by omega)).1 (by omega)
      · rw [toInt_ofInt hlast, hcount]
        exact hall hfl (le_refl _) (le_refl _)

theorem containsWord_shift (hx : ContainsWord left x) (hy : ContainsWord right y)
    (ho : operator = .shiftLeft ∨ operator = .shiftRight)
    (h : wordShiftBounds operator left right = .ok b) : b.Contains (operator.apply [x, y]) := by
  have hfull : signedWordBounds.Contains (operator.apply [x, y]) := by
    rcases ho with rfl | rfl <;> exact machine_toInt _
  simp only [wordShiftBounds, Results.bind_eq_ok] at h
  obtain ⟨first, hfirst, last, hlast, low, hlow, high, hhigh, h⟩ := h
  obtain ⟨ef, hmf⟩ := machine_spec hfirst
  obtain ⟨el, hml⟩ := machine_spec hlast
  obtain ⟨elo, _⟩ := machine_spec hlow
  obtain ⟨ehi, _⟩ := machine_spec hhigh
  unfold ContainsWord Contains at hx hy
  rw [← ef, ← el] at hx
  rw [← elo, ← ehi] at hy
  split at h
  · cases h
    exact hfull
  · rename_i hc
    simp only [Bool.or_eq_true, decide_eq_true_eq, not_or, not_lt, not_le] at hc
    split at h
    · rename_i hr
      cases h
      subst hr
      simp only [Contains, toInt_integer]
      exact contains_shiftRight hx hmf hml hy hc.1 hc.2
    · rename_i hr
      obtain rfl : operator = .shiftLeft := ho.resolve_right hr
      split at h
      · cases h
        exact hfull
      · rename_i hw
        simp only [Bool.or_eq_true, decide_eq_true_eq, not_or, not_lt] at hw
        cases h
        simp only [Contains, toInt_integer]
        exact contains_shiftLeft hx hmf hml hy hc.1 hc.2 hw.1 hw.2

/-! ### And, or, xor -/

def wordBounds (operator : Operator) (left right : Bounds) : Except String Bounds :=
  let zero := integer 0
  let aPositive := compare left.low zero ≥ 0
  let bPositive := compare right.low zero ≥ 0
  let aNegative := compare left.high zero < 0
  let bNegative := compare right.high zero < 0
  match operator with
  | .and =>
    if aPositive || bPositive then
      .ok
        { low := zero
          high := if !bPositive || (aPositive && compare left.high right.high < 0) then left.high
            else right.high }
    else if aNegative && bNegative then
      .ok
        { low := signedWordBounds.low
          high := if compare left.high right.high < 0 then left.high else right.high }
    else .ok signedWordBounds
  | .or =>
    if aNegative || bNegative then
      .ok
        { low := if !bNegative || (aNegative && compare left.low right.low > 0) then left.low
            else right.low
          high := integer (-1) }
    else if aPositive && bPositive then do
      let high ← wordMask (if compare left.high right.high > 0 then left.high else right.high)
      return { low := if compare left.low right.low > 0 then left.low else right.low, high := high }
    else .ok signedWordBounds
  | .xor =>
    if (aPositive || aNegative) && (bPositive || bNegative) then do
      -- Complement negative operands: two negatives keep the parity, opposite
      -- signs complement the result.
      let a := if aNegative then subtract (integer (-1)) left.low else left.high
      let b := if bNegative then subtract (integer (-1)) right.low else right.high
      let mask ← wordMask (if compare a b > 0 then a else b)
      return if aNegative == bNegative then { low := zero, high := mask }
        else { low := subtract (integer (-1)) mask, high := integer (-1) }
    else .ok signedWordBounds
  | .shiftLeft | .shiftRight => wordShiftBounds operator left right
  | _ => .ok signedWordBounds

theorem compare_zero (a : Number) :
    (compare a (integer 0) ≥ 0 ↔ 0 ≤ a.toInt) ∧ (compare a (integer 0) < 0 ↔ a.toInt < 0) := by
  rw [compare_eq, toInt_integer, sub_zero, ge_iff_le, sign_nonneg_iff, sign_neg_iff]
  exact ⟨Iff.rfl, Iff.rfl⟩

theorem le_larger {a b : Number} {m : Int} (h : (if compare a b > 0 then a else b).toInt ≤ m) :
    a.toInt ≤ m ∧ b.toInt ≤ m := by
  simp only [compare_gt_zero] at h
  split at h <;> omega

theorem contains_and (hx : left.Contains X.toInt) (hy : right.Contains Y.toInt)
    (h : wordBounds .and left right = .ok b) : b.Contains (X &&& Y).toInt := by
  have hfull := contains_signedWordBounds.mpr (machine_toInt (X &&& Y))
  have hcomm := BitVec.and_comm X Y
  obtain ⟨hxl, hxh⟩ := hx
  obtain ⟨hyl, hyh⟩ := hy
  simp only [wordBounds, compare_zero, decide_eq_true_eq, Bool.or_eq_true, Bool.and_eq_true,
    Bool.not_eq_true', decide_eq_false_iff_not] at h
  split at h
  · rename_i hc
    cases h
    simp only [Contains, toInt_integer]
    have hbounds : 0 ≤ (X &&& Y).toInt ∧ (0 ≤ X.toInt → (X &&& Y).toInt ≤ X.toInt) ∧
        (0 ≤ Y.toInt → (X &&& Y).toInt ≤ Y.toInt) := by
      refine ⟨?_, fun h => (and_nonneg Y h).2, fun h => hcomm ▸ (and_nonneg X h).2⟩
      rcases hc with hp | hp
      · exact (and_nonneg Y (hp.trans hxl)).1
      · exact hcomm ▸ (and_nonneg X (hp.trans hyl)).1
    split <;> omega
  · split at h
    · cases h
      have h1 := and_neg_le (by decide) (x := X) (y := Y) (by omega) (by omega)
      have h2 := and_neg_le (by decide) (x := Y) (y := X) (by omega) (by omega)
      rw [BitVec.and_comm] at h2
      refine ⟨hfull.1, ?_⟩
      simp only
      split <;> omega
    · cases h
      exact hfull

theorem contains_or (hx : left.Contains X.toInt) (hy : right.Contains Y.toInt)
    (h : wordBounds .or left right = .ok b) : b.Contains (X ||| Y).toInt := by
  have hfull := contains_signedWordBounds.mpr (machine_toInt (X ||| Y))
  have hcomm := BitVec.or_comm X Y
  obtain ⟨hxl, hxh⟩ := hx
  obtain ⟨hyl, hyh⟩ := hy
  simp only [wordBounds, compare_zero, decide_eq_true_eq, Bool.or_eq_true, Bool.and_eq_true,
    Bool.not_eq_true', decide_eq_false_iff_not] at h
  split at h
  · rename_i hc
    cases h
    simp only [Contains, toInt_integer]
    have hbounds : (X ||| Y).toInt ≤ -1 ∧ (X.toInt < 0 → X.toInt ≤ (X ||| Y).toInt) ∧
        (Y.toInt < 0 → Y.toInt ≤ (X ||| Y).toInt) := by
      refine ⟨?_, fun h => (or_neg (by decide) Y h).1,
        fun h => hcomm ▸ (or_neg (by decide) X h).1⟩
      rcases hc with hn | hn
      · exact (or_neg (by decide) Y (lt_of_le_of_lt hxh hn)).2
      · exact hcomm ▸ (or_neg (by decide) X (lt_of_le_of_lt hyh hn)).2
    split <;> omega
  · split at h
    · rename_i hc
      obtain ⟨high, hmask, h⟩ := Results.bind_eq_ok.mp h
      cases h
      obtain ⟨m, hm, hfilled, hmax⟩ := wordMask_spec hmask
      have hX : 0 ≤ X.toInt := hc.1.trans hxl
      have hY : 0 ≤ Y.toInt := hc.2.trans hyl
      have hXle := le_or hX hY
      have hYle := le_or hY hX
      rw [BitVec.or_comm] at hYle
      have hle : X.toNat ||| Y.toNat ≤ m := by
        have hXn := toInt_of_nonneg hX
        have hYn := toInt_of_nonneg hY
        have hboth := le_larger hmax
        apply or_le_filled hfilled <;> omega
      constructor
      · simp only
        split <;> omega
      · simp only
        rw [or_nonneg hX hY]; omega
    · cases h
      exact hfull

/-- A word or its complement, whichever is not negative. -/
def foldSign (X : BitVec 64) : BitVec 64 := if X.toInt < 0 then ~~~X else X

/-- Folding both operands keeps the xor, or complements it when their signs
differ. -/
theorem xor_foldSign (X Y : BitVec 64) :
    let folded : Int := ((foldSign X).toNat ^^^ (foldSign Y).toNat : Nat)
    ((X.toInt < 0 ↔ Y.toInt < 0) → (X ^^^ Y).toInt = folded) ∧
      (¬ (X.toInt < 0 ↔ Y.toInt < 0) → (X ^^^ Y).toInt = -1 - folded) := by
  have hnn : ∀ Z : BitVec 64, 0 ≤ (foldSign Z).toInt := by
    intro Z
    unfold foldSign
    split
    · rename_i h; exact not_nonneg (by decide) h
    · omega
  simp only [← xor_nonneg (hnn X) (hnn Y)]
  have hnot : ∀ Z : BitVec 64, Z.toInt = -1 - (~~~Z).toInt := by
    intro Z
    rw [toInt_not (by decide)]; omega
  by_cases hx : X.toInt < 0 <;> by_cases hy : Y.toInt < 0 <;>
    simp only [foldSign, hx, hy, if_true, if_false, ← BitVec.not_xor_left, ← BitVec.not_xor_right,
      BitVec.not_not, ← hnot, true_implies, not_true, not_false_iff, false_implies, and_true,
      iff_false, iff_true]

theorem contains_xor (hx : left.Contains X.toInt) (hy : right.Contains Y.toInt)
    (h : wordBounds .xor left right = .ok b) : b.Contains (X ^^^ Y).toInt := by
  have hfull := contains_signedWordBounds.mpr (machine_toInt (X ^^^ Y))
  -- The folded operand is bounded by the folded end of the interval.
  have hfold : ∀ {c : Bounds} {Z : BitVec 64}, c.Contains Z.toInt →
      0 ≤ c.low.toInt ∨ c.high.toInt < 0 → ((foldSign Z).toNat : Int) ≤
        if c.high.toInt < 0 then -1 - c.low.toInt else c.high.toInt := by
    intro c Z hz hs
    obtain ⟨hl, hh⟩ := hz
    unfold foldSign
    split
    · rename_i hneg
      have h1 := toInt_of_nonneg (not_nonneg (by decide) hneg)
      rw [toInt_not (by decide)] at h1
      split <;> omega
    · have h1 := toInt_of_nonneg (x := Z) (by omega)
      split <;> omega
  simp only [wordBounds, compare_zero, decide_eq_true_eq, Bool.or_eq_true, Bool.and_eq_true] at h
  split at h
  · rename_i hc
    obtain ⟨mask, hmask, h⟩ := Results.bind_eq_ok.mp h
    obtain ⟨m, hm, hfilled, hmax⟩ := wordMask_spec hmask
    have hfx := hfold hx hc.1
    have hfy := hfold hy hc.2
    obtain ⟨hxl, hxh⟩ := hx
    obtain ⟨hyl, hyh⟩ := hy
    have hle : (foldSign X).toNat ^^^ (foldSign Y).toNat ≤ m := by
      have hboth := le_larger hmax
      rw [apply_ite toInt, apply_ite toInt, toInt_subtract, toInt_subtract, toInt_integer] at hboth
      apply xor_le_filled hfilled <;> omega
    have hsx : X.toInt < 0 ↔ left.high.toInt < 0 := by omega
    have hsy : Y.toInt < 0 ↔ right.high.toInt < 0 := by omega
    cases h
    obtain ⟨hsame, hdiff⟩ := xor_foldSign X Y
    rw [hsx, hsy] at hsame hdiff
    by_cases hs : left.high.toInt < 0 ↔ right.high.toInt < 0
    · have he : (decide (left.high.toInt < 0) == decide (right.high.toInt < 0)) = true := by
        simpa using hs
      simp only [he, Contains, if_true, toInt_integer]; omega
    · have he : (decide (left.high.toInt < 0) == decide (right.high.toInt < 0)) = false := by
        simpa using hs
      simp only [he, Contains, Bool.false_eq_true, if_false, toInt_integer, toInt_subtract]
      omega
  · cases h
    exact hfull

theorem contains_wordBounds (hx : ContainsWord left x) (hy : ContainsWord right y)
    (ho : operator.bitwise = true) (hc : operator ≠ .complement)
    (h : wordBounds operator left right = .ok b) : b.Contains (operator.apply [x, y]) := by
  cases operator with
  | and => exact contains_and hx hy h
  | or => exact contains_or hx hy h
  | xor => exact contains_xor hx hy h
  | shiftLeft => exact containsWord_shift hx hy (.inl rfl) h
  | shiftRight => exact containsWord_shift hx hy (.inr rfl) h
  | complement => exact absurd rfl hc
  | _ => simp [Operator.bitwise] at ho

def integerBitwiseBounds (operator : Operator) (inputs : List (Budgeted Bounds)) :
    Budgeted Bounds :=
  match operator, inputs with
  | .complement, [input] => do
    -- Complement is -1-x, including both ends of the range.
    let left ← wordInputBounds input
    return { low := subtract (integer (-1)) left.high, high := subtract (integer (-1)) left.low }
  | .complement, _ => throw "invalid bit operation operands"
  | operator, [first, second] => do
    let left ← wordInputBounds first
    let right ← wordInputBounds second
    Budgeted.ofExcept (wordBounds operator left right)
  | _, _ => throw "invalid bit operation operands"

/-- Bounds computed for each input contain that input's value. -/
def Bounded (inputs : List (Budgeted Bounds)) (values : List Int) : Prop :=
  List.Forall₂ (fun input x => Budgeted.Ensures input (·.Contains x)) inputs values

theorem ensures_integerBitwiseBounds {inputs : List (Budgeted Bounds)} {values : List Int}
    (h : Bounded inputs values) (ho : operator.bitwise = true) :
    Budgeted.Ensures (integerBitwiseBounds operator inputs) (·.Contains (operator.apply values)) := by
  unfold integerBitwiseBounds
  split
  · obtain _ | ⟨hin, hnil⟩ := h
    cases hnil
    refine ensures_bind (ensures_wordInputBounds hin) fun left hl => ?_
    refine ensures_pure ?_
    unfold ContainsWord Contains at hl
    simp only [Contains, Operator.apply, complement, toInt_subtract, toInt_integer,
      toInt_not (by decide : 0 < 64)]
    omega
  · exact ensures_throw _
  · rename_i first second hc
    obtain _ | ⟨hfirst, hrest⟩ := h
    obtain _ | ⟨hsecond, hnil⟩ := hrest
    cases hnil
    refine ensures_bind (ensures_wordInputBounds hfirst) fun left hl => ?_
    refine ensures_bind (ensures_wordInputBounds hsecond) fun right hr => ?_
    exact ensures_ofExcept fun b hb =>
      contains_wordBounds hl hr ho (by rintro rfl; exact hc rfl) hb
  · exact ensures_throw _

end Loom.Proof

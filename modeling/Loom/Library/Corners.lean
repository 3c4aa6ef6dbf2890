import Mathlib.Algebra.Order.Ring.Int
import Mathlib.Tactic.Linarith
import Mathlib.Tactic.Ring

/- Products and quotients of integers that range over intervals: each lies
   between the least and the greatest of the four corners. -/
namespace Loom.Corners

open Int

/-- `x` lies between two values, whichever of them is the smaller. -/
def Between (a b x : Int) : Prop := (a ≤ x ∧ x ≤ b) ∨ (b ≤ x ∧ x ≤ a)

variable {a b x low high l h y : Int}

theorem between_neg (h : Between a b x) : Between (-a) (-b) (-x) := by
  unfold Between at *; omega

theorem contains_of_between (h : Between a b x) (ha : low ≤ a ∧ a ≤ high) (hb : low ≤ b ∧ b ≤ high) :
    low ≤ x ∧ x ≤ high := by
  unfold Between at h; omega

/-! ## Products -/

theorem mul_between (k : Int) (hx : l ≤ x ∧ x ≤ h) : Between (k * l) (k * h) (k * x) := by
  obtain ⟨hl, hh⟩ := hx
  rcases le_total 0 k with hk | hk
  · exact .inl ⟨mul_le_mul_of_nonneg_left hl hk, mul_le_mul_of_nonneg_left hh hk⟩
  · exact .inr ⟨mul_le_mul_of_nonpos_left hh hk, mul_le_mul_of_nonpos_left hl hk⟩

/-- Bounds that contain the four corner products contain every product. -/
theorem mul_corners {l₁ h₁ l₂ h₂ : Int} (hx : l₁ ≤ x ∧ x ≤ h₁) (hy : l₂ ≤ y ∧ y ≤ h₂)
    (hll : low ≤ l₁ * l₂ ∧ l₁ * l₂ ≤ high) (hlh : low ≤ l₁ * h₂ ∧ l₁ * h₂ ≤ high)
    (hhl : low ≤ h₁ * l₂ ∧ h₁ * l₂ ≤ high) (hhh : low ≤ h₁ * h₂ ∧ h₁ * h₂ ≤ high) :
    low ≤ x * y ∧ x * y ≤ high := by
  have hleft := contains_of_between (mul_between l₁ hy) hll hlh
  have hright := contains_of_between (mul_between h₁ hy) hhl hhh
  have hmid := mul_between y hx
  rw [mul_comm x y]
  rw [mul_comm] at hleft hright; exact contains_of_between hmid hleft hright

/-! ## Truncating quotients -/

theorem tdiv_le_tdiv {c : Int} (hc : 0 < c) (h : a ≤ b) : a.tdiv c ≤ b.tdiv c := by
  rcases le_total 0 a with ha | ha
  · rw [tdiv_eq_ediv_of_nonneg ha, tdiv_eq_ediv_of_nonneg (ha.trans h)]
    exact Int.ediv_le_ediv hc h
  · rcases le_total 0 b with hb | hb
    · have h1 : a.tdiv c ≤ 0 := by
        rw [show a = -(-a) by ring, Int.neg_tdiv, Int.tdiv_eq_ediv_of_nonneg (by omega)]
        have := ediv_nonneg (show 0 ≤ -a by omega) hc.le
        omega
      exact h1.trans (Int.tdiv_nonneg hb hc.le)
    · rw [show a = -(-a) by ring, show b = -(-b) by ring, Int.neg_tdiv (-a), Int.neg_tdiv (-b),
        Int.tdiv_eq_ediv_of_nonneg (by omega), Int.tdiv_eq_ediv_of_nonneg (by omega)]
      have := Int.ediv_le_ediv hc (show -b ≤ -a by omega)
      omega

/-- A larger positive divisor brings a nonnegative dividend's quotient down. -/
theorem tdiv_anti {c d : Int} (ha : 0 ≤ a) (hc : 0 < c) (h : c ≤ d) : a.tdiv d ≤ a.tdiv c := by
  rw [Int.tdiv_eq_ediv_of_nonneg ha, Int.tdiv_eq_ediv_of_nonneg ha]
  have hd : 0 < d := by omega
  rw [Int.le_ediv_iff_mul_le hc]
  have h1 := Int.ediv_mul_le a (by omega : d ≠ 0)
  nlinarith

/-- For positive divisors in an interval the quotient lies between its values at
the ends. -/
theorem tdiv_between_pos (a : Int) (hl : 0 < l) (hy : l ≤ y ∧ y ≤ h) :
    Between (a.tdiv l) (a.tdiv h) (a.tdiv y) := by
  obtain ⟨hly, hyh⟩ := hy
  rcases le_total 0 a with ha | ha
  · exact .inr ⟨tdiv_anti ha (by omega) hyh, tdiv_anti ha hl hly⟩
  · have h1 := tdiv_anti (a := -a) (by omega) hl hly
    have h2 := tdiv_anti (a := -a) (by omega) (by omega) hyh
    rw [Int.neg_tdiv, Int.neg_tdiv] at h1 h2; exact .inl ⟨by omega, by omega⟩

def OneSign (l h : Int) : Prop := 0 < l ∨ h < 0

theorem tdiv_between (a : Int) (hs : OneSign l h) (hy : l ≤ y ∧ y ≤ h) :
    Between (a.tdiv l) (a.tdiv h) (a.tdiv y) := by
  rcases hs with hl | hh
  · exact tdiv_between_pos a hl hy
  · have hneg := tdiv_between_pos a (l := -h) (h := -l) (y := -y) (by omega) ⟨by omega, by omega⟩
    rw [Int.tdiv_neg, Int.tdiv_neg, Int.tdiv_neg] at hneg
    have hneg := between_neg hneg
    simp only [neg_neg] at hneg; exact hneg.symm

theorem tdiv_between_left (hy : y ≠ 0) (hx : l ≤ x ∧ x ≤ h) :
    Between (l.tdiv y) (h.tdiv y) (x.tdiv y) := by
  obtain ⟨hl, hh⟩ := hx
  rcases lt_or_gt_of_ne hy with hneg | hpos
  · have h1 := tdiv_le_tdiv (c := -y) (by omega) hl
    have h2 := tdiv_le_tdiv (c := -y) (by omega) hh
    rw [Int.tdiv_neg, Int.tdiv_neg] at h1 h2; exact .inr ⟨by omega, by omega⟩
  · exact .inl ⟨tdiv_le_tdiv hpos hl, tdiv_le_tdiv hpos hh⟩

/-- Bounds that contain the four corner quotients contain every quotient. -/
theorem tdiv_corners {l₁ h₁ l₂ h₂ : Int} (hs : OneSign l₂ h₂) (hx : l₁ ≤ x ∧ x ≤ h₁)
    (hy : l₂ ≤ y ∧ y ≤ h₂) (hll : low ≤ l₁.tdiv l₂ ∧ l₁.tdiv l₂ ≤ high)
    (hlh : low ≤ l₁.tdiv h₂ ∧ l₁.tdiv h₂ ≤ high) (hhl : low ≤ h₁.tdiv l₂ ∧ h₁.tdiv l₂ ≤ high)
    (hhh : low ≤ h₁.tdiv h₂ ∧ h₁.tdiv h₂ ≤ high) : low ≤ x.tdiv y ∧ x.tdiv y ≤ high := by
  have hy0 : y ≠ 0 := by
    unfold OneSign at hs; omega
  have hleft := contains_of_between (tdiv_between l₁ hs hy) hll hlh
  have hright := contains_of_between (tdiv_between h₁ hs hy) hhl hhh
  exact contains_of_between (tdiv_between_left hy0 hx) hleft hright

/-! ## Remainders -/

/-- The remainder has the dividend's sign and a magnitude below the divisor's
and not above the dividend's. -/
theorem tmod_bounds (x : Int) (hy : y ≠ 0) :
    (x.tmod y).natAbs < y.natAbs ∧ (x.tmod y).natAbs ≤ x.natAbs ∧
      (0 ≤ x → 0 ≤ x.tmod y) ∧ (x ≤ 0 → x.tmod y ≤ 0) := by
  have habs : (x.tmod y).natAbs = x.natAbs % y.natAbs := natAbs_tmod x y
  have hsign : (0 ≤ x → 0 ≤ x.tmod y) ∧ (x ≤ 0 → x.tmod y ≤ 0) := by
    refine ⟨fun h => tmod_nonneg y h, fun h => ?_⟩
    have := tmod_nonneg y (show 0 ≤ -x by omega)
    rw [neg_tmod] at this; omega
  refine ⟨?_, ?_, hsign⟩
  · rw [habs]; exact Nat.mod_lt _ (by omega)
  · rw [habs]; exact Nat.mod_le _ _

end Loom.Corners

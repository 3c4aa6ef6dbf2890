import Loom.Proof.Bounds
import Loom.Library.Corners
import Loom.Library.Results

/- Bounds of truncating division and remainder
   (`proof/integer_division_bounds.loom`): a divisor interval without zero gives
   the four corner quotients, and a remainder is below the largest divisor. -/
namespace Loom.Proof

open Bounds Number

def endpointBounds (first : Number) (rest : List Number) : Bounds :=
  rest.foldl (fun bounds value =>
    { low := if compare value bounds.low < 0 then value else bounds.low
      high := if compare value bounds.high > 0 then value else bounds.high }) ⟨first, first⟩

theorem contains_endpointBounds (first : Number) (rest : List Number) :
    ∀ a ∈ first :: rest, (endpointBounds first rest).Contains a.toInt := by
  suffices h : ∀ (rest : List Number) (bounds : Bounds) (x : Int),
      (bounds.Contains x ∨ ∃ a ∈ rest, a.toInt = x) → bounds.low.toInt ≤ bounds.high.toInt →
      (rest.foldl (fun (bounds : Bounds) value =>
        { low := if compare value bounds.low < 0 then value else bounds.low
          high := if compare value bounds.high > 0 then value else bounds.high : Bounds })
        bounds).Contains x by
    intro a ha
    apply h rest ⟨first, first⟩ a.toInt _ (le_refl _)
    rcases List.mem_cons.mp ha with rfl | ha
    · exact .inl (contains_point a)
    · exact .inr ⟨a, ha, rfl⟩
  intro rest
  induction rest with
  | nil =>
    intro bounds x h _
    rcases h with h | ⟨a, ha, _⟩
    · exact h
    · simp at ha
  | cons value rest ih =>
    intro bounds x h hle
    apply ih
    · rcases h with ⟨hlow, hhigh⟩ | ⟨a, ha, rfl⟩
      · left
        constructor <;> simp only [compare_lt_zero, compare_gt_zero] <;> split <;> omega
      · rcases List.mem_cons.mp ha with rfl | ha
        · left
          constructor <;> simp only [compare_lt_zero, compare_gt_zero] <;> split <;> omega
        · exact .inr ⟨a, ha, rfl⟩
    · simp only [compare_gt_zero]
      split <;> split <;> omega

/-! ## Division -/

def magnitudeNumber (value : Number) : Number := if value.negative then negate value else value

theorem toInt_magnitudeNumber (value : Number) :
    (magnitudeNumber value).toInt = value.toInt.natAbs := by
  have hn := value.negative_iff
  unfold magnitudeNumber
  split
  · rename_i h
    have := hn.mp h
    rw [toInt_negate]; omega
  · rename_i h
    have : ¬ value.toInt < 0 := fun hlt => h (hn.mpr hlt)
    omega

def largestMagnitude (bounds : Bounds) : Number :=
  let first := magnitudeNumber bounds.low
  let second := magnitudeNumber bounds.high
  if compare first second ≥ 0 then first else second

variable {x : Int} {right : Bounds} {y : Int}

theorem natAbs_le_largestMagnitude {bounds : Bounds} (h : bounds.Contains x) :
    (x.natAbs : Int) ≤ (largestMagnitude bounds).toInt := by
  obtain ⟨hlow, hhigh⟩ := h
  have h1 := toInt_magnitudeNumber bounds.low
  have h2 := toInt_magnitudeNumber bounds.high
  simp only [largestMagnitude, compare_eq, Int.sign_nonneg_iff]
  split <;> omega

/-- Endpoints are mathematical even where the machine division would fault. -/
def quotientEndpoint (value divisor : Int) : Number :=
  if divisor = -1 then negate (integer value) else integer (value.tdiv divisor)

theorem toInt_quotientEndpoint (value divisor : Int) :
    (quotientEndpoint value divisor).toInt = value.tdiv divisor := by
  unfold quotientEndpoint
  split
  · rename_i h
    rw [toInt_negate, toInt_integer, h, Int.tdiv_neg, Int.tdiv_one]
  · rw [toInt_integer]

def integerDivisionBounds (operator : Operator) (left right : Bounds) : Except String Bounds :=
  if compare right.low (integer 0) ≤ 0 && compare right.high (integer 0) ≥ 0 then
    .error "integer divisor interval includes zero"
  else if operator = .remainder then
    let limit := subtract (largestMagnitude right) (integer 1)
    let dividend := largestMagnitude left
    let limit := if compare dividend limit < 0 then dividend else limit
    .ok
      { low := if compare left.low (integer 0) ≥ 0 then integer 0 else negate limit
        high := if compare left.high (integer 0) ≤ 0 then integer 0 else limit }
  else do
    let first ← machine left.low
    let last ← machine left.high
    let low ← machine right.low
    let high ← machine right.high
    return endpointBounds (quotientEndpoint first low)
      [quotientEndpoint first high, quotientEndpoint last low, quotientEndpoint last high]

theorem oneSign_of_not
    (h : ¬ (compare right.low (integer 0) ≤ 0 && compare right.high (integer 0) ≥ 0) = true) :
    Corners.OneSign right.low.toInt right.high.toInt := by
  simp only [compare_eq, toInt_integer, Bool.and_eq_true, decide_eq_true_eq,
    Int.sign_nonpos_iff, Int.sign_nonneg_iff] at h
  unfold Corners.OneSign; omega

theorem contains_remainder {left : Bounds} (hx : left.Contains x) (hy : right.Contains y)
    (hy0 : y ≠ 0) {b : Bounds} (h : integerDivisionBounds .remainder left right = .ok b) :
    b.Contains (x.tmod y) := by
  obtain ⟨hlt, hle, hnonneg, hnonpos⟩ := Corners.tmod_bounds x hy0
  have hleft := natAbs_le_largestMagnitude hx
  have hright := natAbs_le_largestMagnitude hy
  obtain ⟨hxl, hxh⟩ := hx
  unfold integerDivisionBounds at h
  split at h
  · cases h
  · cases h
    simp only [Contains, compare_eq, toInt_integer, Int.sign_nonneg_iff, Int.sign_nonpos_iff]
    constructor
    · split
      · have := hnonneg (by omega)
        rwa [toInt_integer]
      · rw [toInt_negate]
        split
        · omega
        · rw [toInt_subtract, toInt_integer]; omega
    · split
      · have := hnonpos (by omega)
        rwa [toInt_integer]
      · split
        · omega
        · rw [toInt_subtract, toInt_integer]; omega

theorem contains_quotient {left : Bounds} (hx : left.Contains x) (hy : right.Contains y)
    {b : Bounds} (h : integerDivisionBounds .divide left right = .ok b) :
    b.Contains (x.tdiv y) := by
  unfold integerDivisionBounds at h
  split at h
  · cases h
  · rename_i hzero
    have hs := oneSign_of_not hzero
    rw [if_neg (by decide)] at h
    simp only [Results.bind_eq_ok, Results.pure_eq_ok] at h
    obtain ⟨first, hfirst, last, hlast, low, hlow, high, hhigh, rfl⟩ := h
    have hends := contains_endpointBounds (quotientEndpoint first low)
      [quotientEndpoint first high, quotientEndpoint last low, quotientEndpoint last high]
    simp only [List.forall_mem_cons, toInt_quotientEndpoint, List.not_mem_nil, false_implies,
      implies_true, and_true] at hends
    obtain ⟨hll, hlh, hhl, hhh⟩ := hends
    rw [(machine_spec hfirst).1, (machine_spec hlow).1] at *
    rw [(machine_spec hlast).1, (machine_spec hhigh).1] at *
    exact Corners.tdiv_corners hs hx hy hll hlh hhl hhh

end Loom.Proof

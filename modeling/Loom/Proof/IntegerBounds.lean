import Loom.Proof.BitwiseBounds
import Loom.Proof.DivisionBounds

/- Interval transfer over the integer expression algebra
   (`proof/integer_bounds.loom`). A term is bounded from the bounds of its
   inputs within a budget of visited nodes. Bounds are mathematical numbers, and
   a missing bound is an error. -/
namespace Loom.Proof

open Bounds Number Budgeted

/-- The bounds of an operation from the bounds of its operands. -/
def arithmeticBounds (operator : Operator) (left right : Bounds) : Except String Bounds :=
  if compare left.low left.high > 0 then .ok left
  else if compare right.low right.high > 0 then .ok right
  else match operator with
  | .add => .ok ⟨sum left.low right.low, sum left.high right.high⟩
  | .subtract => .ok ⟨subtract left.low right.high, subtract left.high right.low⟩
  | .multiply =>
    .ok (endpointBounds (product left.low right.low)
      [product left.low right.high, product left.high right.low, product left.high right.high])
  | operator =>
    if operator.division then integerDivisionBounds operator left right
    else .error "unsupported integer interval operation"

theorem contains_arithmeticBounds {operator : Operator} {left right b : Bounds} {x y : Int}
    (hx : left.Contains x) (hy : right.Contains y)
    (h : arithmeticBounds operator left right = .ok b) : b.Contains (operator.apply [x, y]) := by
  have hxle : ¬ compare left.low left.high > 0 := by
    rw [gt_iff_lt, compare_gt_zero]; exact not_lt.mpr (hx.1.trans hx.2)
  have hyle : ¬ compare right.low right.high > 0 := by
    rw [gt_iff_lt, compare_gt_zero]; exact not_lt.mpr (hy.1.trans hy.2)
  unfold arithmeticBounds at h
  rw [if_neg hxle, if_neg hyle] at h
  cases operator with
  | add =>
    cases h
    obtain ⟨_, _⟩ := hx
    obtain ⟨_, _⟩ := hy
    constructor <;> simp only [toInt_sum, Operator.apply] <;> omega
  | subtract =>
    cases h
    obtain ⟨_, _⟩ := hx
    obtain ⟨_, _⟩ := hy
    constructor <;> simp only [toInt_subtract, Operator.apply] <;> omega
  | multiply =>
    cases h
    have hends := contains_endpointBounds (product left.low right.low)
      [product left.low right.high, product left.high right.low, product left.high right.high]
    simp only [List.forall_mem_cons, toInt_product, List.not_mem_nil, false_implies,
      implies_true, and_true] at hends
    obtain ⟨hll, hlh, hhl, hhh⟩ := hends
    exact Corners.mul_corners hx hy hll hlh hhl hhh
  | divide => exact contains_quotient hx hy h
  | remainder =>
    have hy0 : y ≠ 0 := by
      have hd : integerDivisionBounds .remainder left right = .ok b := h
      unfold integerDivisionBounds at hd
      split at hd
      · cases hd
      · rename_i hz
        have hs := oneSign_of_not hz
        obtain ⟨_, _⟩ := hy
        unfold Corners.OneSign at hs; omega
    exact contains_remainder hx hy hy0 h
  | _ => cases h

def operationBounds (operator : Operator) (inputs : List (Budgeted Bounds)) : Budgeted Bounds :=
  if operator.bitwise then integerBitwiseBounds operator inputs
  else match inputs with
  | [first, second] => do
    let left ← first
    let right ← second
    Budgeted.ofExcept (arithmeticBounds operator left right)
  | _ => throw "invalid integer interval operands"
mutual
def integerBounds (facts : List Predicate) : IntegerTerm → Budgeted Bounds
  | .linear term => do
    spend "integer interval budget exhausted"
    return range term facts
  | .apply operator inputs => do
    spend "integer interval budget exhausted"
    operationBounds operator (inputBounds facts inputs)

/-- The bounds of every input, each computed when the operation asks for it. -/
def inputBounds (facts : List Predicate) : List IntegerTerm → List (Budgeted Bounds)
  | [] => []
  | input :: inputs => integerBounds facts input :: inputBounds facts inputs
end

theorem ensures_operationBounds {operator : Operator} {inputs : List (Budgeted Bounds)}
    {values : List Int} (h : Bounded inputs values) :
    Budgeted.Ensures (operationBounds operator inputs) (·.Contains (operator.apply values)) := by
  refine ensures_ite (fun ho => ensures_integerBitwiseBounds h ho) fun _ => ?_
  split
  · obtain _ | ⟨hfirst, hrest⟩ := h
    obtain _ | ⟨hsecond, hnil⟩ := hrest
    cases hnil
    refine ensures_bind hfirst fun left hl => ?_
    refine ensures_bind hsecond fun right hr => ?_
    exact ensures_ofExcept fun b hb => contains_arithmeticBounds hl hr hb
  · exact ensures_throw _

mutual
theorem ensures_integerBounds {v : Valuation} {facts : List Predicate} (hf : Satisfies v facts)
    (term : IntegerTerm) : Budgeted.Ensures (integerBounds facts term) (·.Contains (term.eval v)) := by
  match term with
  | .linear value =>
    unfold integerBounds
    exact ensures_then fun _ => ensures_pure (contains_range hf value)
  | .apply operator inputs =>
    unfold integerBounds
    exact ensures_then fun _ => ensures_operationBounds (bounded_inputBounds hf inputs)

theorem bounded_inputBounds {v : Valuation} {facts : List Predicate} (hf : Satisfies v facts)
    (inputs : List IntegerTerm) :
    Bounded (inputBounds facts inputs) (IntegerTerm.evalInputs v inputs) := by
  match inputs with
  | [] => exact .nil
  | input :: inputs => exact .cons (ensures_integerBounds hf input) (bounded_inputBounds hf inputs)
end

/-- What the intervals of two terms prove about their relation. Identity is
independent of interval precision. -/
def integerInterval (relation : Relation) (left right : IntegerTerm) (facts : List Predicate) :
    Bool :=
  if (IntegerTerm.same left right 256).1 then
    relation == .eq || relation == .le || relation == .ge
  else
    let bounds : Budgeted (Bounds × Bounds) := do
      let first ← integerBounds facts left
      let second ← integerBounds facts right
      return (first, second)
    match bounds.result 256 with
    | .error _ => false
    | .ok (first, second) =>
      if compare first.low first.high > 0 || compare second.low second.high > 0 then true
      else interval relation ⟨subtract first.low second.high, subtract first.high second.low⟩

theorem integerInterval_sound {v : Valuation} {facts : List Predicate} (hf : Satisfies v facts)
    {relation : Relation} {left right : IntegerTerm}
    (h : integerInterval relation left right facts = true) :
    relation.Holds (left.eval v - right.eval v) := by
  unfold integerInterval at h
  split at h
  · rename_i hs
    rw [IntegerTerm.same_eq hs]
    cases relation <;> simp_all [Relation.Holds]
  · have hbounds : Budgeted.Ensures (do
        let first ← integerBounds facts left
        let second ← integerBounds facts right
        return (first, second)) fun b => b.1.Contains (left.eval v) ∧ b.2.Contains (right.eval v) :=
      ensures_bind (ensures_integerBounds hf left) fun _ hl =>
        ensures_bind (ensures_integerBounds hf right) fun _ hr =>
          ensures_pure ⟨hl, hr⟩
    simp only at h
    split at h
    · simp at h
    · rename_i first second hok
      obtain ⟨⟨hll, hlh⟩, ⟨hrl, hrh⟩⟩ := hbounds 256 _ hok
      simp only at hll hlh hrl hrh
      split at h
      · rename_i hc
        simp only [Bool.or_eq_true, decide_eq_true_eq, compare_gt_zero] at hc
        omega
      · apply interval_sound h
        constructor <;> simp only [toInt_subtract] <;> omega

end Loom.Proof

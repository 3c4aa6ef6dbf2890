import Loom.Proof.Terms
import Loom.Proof.IntegerBounds

/- Interval transfer over every term of the prover (`integer_bounds` of
   `proof/integer_bounds.loom`). The operations are those of the scalar terms;
   here are the leaves: a length is an `Int`, a byte is below 256, and an element
   occurs at most as often as the array is long. Facts of any kind may be
   listed; `range` looks into the scalar ones only. -/
namespace Loom.Proof.Terms

open Bounds Number Option Budgeted

/-- A fact about scalars, or one about texts, floats, arrays or quantifiers. -/
inductive Fact
  | scalar (fact : Predicate)
  | other (holds : Interpretation → Prop)

def Fact.Holds (v : Interpretation) : Fact → Prop
  | .scalar fact => fact.Holds v.toValuation
  | .other holds => holds v

def Fact.predicate : Fact → Option Predicate
  | .scalar fact => some fact
  | .other _ => none

/-- The facts that `range` matches. -/
def scalars (facts : List Fact) : List Predicate := facts.filterMap Fact.predicate

mutual
def integerBounds (facts : List Fact) : IntegerTerm → Budgeted Bounds
  | .linear term => do
    spend "integer interval budget exhausted"
    return range term (scalars facts)
  | .select _ _ _ => do
    spend "integer interval budget exhausted"
    throw "array selection needs established value bounds"
  | .textLength _ => do
    spend "integer interval budget exhausted"
    return ⟨integer 0, integer 9223372036854775807⟩
  | .textByte _ _ => do
    spend "integer interval budget exhausted"
    return ⟨integer 0, integer 255⟩
  | .count _ inputs => do
    spend "integer interval budget exhausted"
    match inputBounds facts inputs with
    | [size, _] => do
      let bounds ← size
      return ⟨integer 0, if compare bounds.high (integer 0) > 0 then bounds.high else integer 0⟩
    | _ => throw "invalid count operands"
  | .apply operator inputs => do
    spend "integer interval budget exhausted"
    operationBounds operator (inputBounds facts inputs)

/-- The bounds of every input, each computed when the operation asks for it. -/
def inputBounds (facts : List Fact) : List IntegerTerm → List (Budgeted Bounds)
  | [] => []
  | input :: inputs => integerBounds facts input :: inputBounds facts inputs
end

variable {v : Interpretation} {facts : List Fact}

theorem satisfies_scalars (hf : ∀ fact ∈ facts, fact.Holds v) :
    Satisfies v.toValuation (scalars facts) := by
  intro fact hmem
  obtain ⟨known, hknown, hsame⟩ := List.mem_filterMap.mp hmem
  cases known with
  | scalar value =>
    cases hsame
    exact hf _ hknown
  | other holds => cases hsame

theorem contains_length {text : List UInt8} {x : Int} (h : lengthOf text = some x) :
    Contains ⟨integer 0, integer 9223372036854775807⟩ x := by
  unfold lengthOf maxInt at h
  split at h
  · cases h
    constructor <;> simp only [toInt_integer] <;> omega
  · cases h

theorem contains_byte {text : List UInt8} {index x : Int} (h : byteAt text index = some x) :
    Contains ⟨integer 0, integer 255⟩ x := by
  unfold byteAt at h
  split at h
  · obtain ⟨byte, -, rfl⟩ := map_eq_some_iff.mp h
    have hlt := byte.toNat_lt
    constructor <;> simp only [toInt_integer] <;> omega
  · cases h

theorem contains_occurrences {element : Int → Int} {size needle : Int} {bounds : Bounds}
    (h : bounds.Contains size) :
    Contains ⟨integer 0, if compare bounds.high (integer 0) > 0 then bounds.high else integer 0⟩
      (occurrences element size needle) := by
  have hcount : occurrences element size needle ≤ size.toNat := by
    apply le_trans List.countP_le_length
    rw [List.length_range]
  have hhigh := h.2
  have hpositive : compare bounds.high (integer 0) > 0 ↔ 0 < bounds.high.toInt := by
    rw [gt_iff_lt, compare_gt_zero, toInt_integer]
  constructor
  · simp only [toInt_integer]; omega
  · dsimp only
    split
    · omega
    · simp only [toInt_integer]; omega

mutual
/-- Bounds computed for a term contain its value wherever the facts hold. -/
theorem ensures_integerBounds (hf : ∀ fact ∈ facts, fact.Holds v) (term : IntegerTerm) {x : Int}
    (hx : term.eval v = some x) : Budgeted.Ensures (integerBounds facts term) (·.Contains x) := by
  match term with
  | .linear value =>
    obtain rfl := some.inj hx
    unfold integerBounds
    exact ensures_then fun _ =>
      ensures_pure (contains_range (satisfies_scalars hf) value)
  | .select array path index =>
    unfold integerBounds
    exact ensures_then fun _ => ensures_throw _
  | .textLength text =>
    obtain ⟨bytes, -, hx⟩ := bind_eq_some_iff.mp hx
    unfold integerBounds
    exact ensures_then fun _ => ensures_pure (contains_length hx)
  | .textByte text inputs =>
    obtain ⟨bytes, -, hx⟩ := bind_eq_some_iff.mp hx
    obtain ⟨values, -, hx⟩ := bind_eq_some_iff.mp hx
    unfold integerBounds
    refine ensures_then fun _ => ensures_pure ?_
    split at hx
    · exact contains_byte hx
    · cases hx
  | .count array inputs =>
    obtain ⟨values, hvalues, hx⟩ := bind_eq_some_iff.mp hx
    have hinputs := bounded_inputBounds hf inputs hvalues
    unfold integerBounds
    refine ensures_then fun _ => ?_
    generalize inputBounds facts inputs = bounded at hinputs
    split at hx
    · obtain rfl := some.inj hx
      obtain _ | ⟨hsize, hrest⟩ := hinputs
      obtain _ | ⟨hneedle, hnil⟩ := hrest
      cases hnil
      exact ensures_bind hsize fun bounds hbounds =>
        ensures_pure (contains_occurrences hbounds)
    · cases hx
  | .apply operator inputs =>
    obtain ⟨values, hvalues, hx⟩ := bind_eq_some_iff.mp hx
    obtain rfl := some.inj hx
    unfold integerBounds
    exact ensures_then fun _ =>
      ensures_operationBounds (bounded_inputBounds hf inputs hvalues)

theorem bounded_inputBounds (hf : ∀ fact ∈ facts, fact.Holds v) (inputs : List IntegerTerm)
    {values : List Int} (h : evalAll v inputs = some values) :
    Bounded (inputBounds facts inputs) values := by
  match inputs with
  | [] =>
    obtain rfl := some.inj h
    exact .nil
  | input :: inputs =>
    obtain ⟨first, rest, hfirst, hrest, rfl⟩ := evalAll_cons h
    exact .cons (ensures_integerBounds hf input hfirst) (bounded_inputBounds hf inputs hrest)
end

/-- Whatever the budget, bounds that are returned contain the value of the term. -/
theorem integerBounds_sound (hf : ∀ fact ∈ facts, fact.Holds v) {term : IntegerTerm} {x : Int}
    {budget : Nat} {bounds : Bounds} (hx : term.eval v = some x)
    (h : (integerBounds facts term).result budget = .ok bounds) :
    bounds.low.toInt ≤ x ∧ x ≤ bounds.high.toInt := ensures_integerBounds hf term hx budget bounds h

/-- Occurrences in the first three places, next to a byte. -/
def counted : IntegerTerm :=
  .apply .add [.count 0 [.linear (Linear.ofConstant (integer 3)), .linear (Linear.ofVariable 0)],
    .textByte (.literal [65]) [.linear (Linear.ofConstant (integer 0))]]

theorem integerBounds_sound_counted :
    counted.eval default = some 68 ∧ (0 : Int) ≤ 68 ∧ (68 : Int) ≤ 258 := by
  have hvalue : counted.eval default = some 68 := by decide
  have hbounds : ((integerBounds [.other fun _ => True] counted).result 8).toOption.map
      (fun bounds => (bounds.low.toInt, bounds.high.toInt)) = some (0, 258) := by decide +kernel
  refine ⟨hvalue, ?_⟩
  cases hresult : (integerBounds [.other fun _ => True] counted).result 8 with
  | error message =>
    rw [hresult] at hbounds
    cases hbounds
  | ok bounds =>
    rw [hresult] at hbounds
    obtain ⟨hlow, hhigh⟩ := Prod.mk.inj (some.inj hbounds)
    have hsound := integerBounds_sound (v := default) (by simp [Fact.Holds]) hvalue hresult
    rw [hlow, hhigh] at hsound; exact hsound

end Loom.Proof.Terms

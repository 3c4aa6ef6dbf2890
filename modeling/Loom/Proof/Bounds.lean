import Loom.Proof.Model

/- Interval reasoning about linear values (`proof/linear.loom`): the range a
   list of facts leaves a linear expression, and what a range proves. Bounds are
   mathematical numbers, never wrapping machine arithmetic, and crossed bounds
   mean that no valuation satisfies the facts. -/
namespace Loom.Proof

structure Bounds where
  low : Number
  high : Number

namespace Bounds

/-- The integer lies between the bounds. -/
def Contains (b : Bounds) (x : Int) : Prop := b.low.toInt ≤ x ∧ x ≤ b.high.toInt

theorem contains_point (value : Number) : Contains ⟨value, value⟩ value.toInt :=
  ⟨le_refl _, le_refl _⟩

end Bounds

open Bounds Number

/-- All facts are true under the valuation. -/
def Satisfies (v : Valuation) (facts : List Predicate) : Prop := ∀ fact ∈ facts, fact.Holds v

def signedWordBounds : Bounds := ⟨integer minInt, integer maxInt⟩

variable {x : Int} {bounds : Bounds} {facts : List Predicate} {v : Valuation}

theorem contains_signedWordBounds : signedWordBounds.Contains x ↔ Word.Machine x := by
  simp [Contains, signedWordBounds, Word.Machine]

/-- Narrow bounds by `x relation value`, over the integers. -/
def tighten (bounds : Bounds) (relation : Relation) (value : Number) : Bounds :=
  let one := integer 1
  match relation with
  | .ne =>
    { low := if compare bounds.low value = 0 then sum bounds.low one else bounds.low
      high := if compare bounds.high value = 0 then subtract bounds.high one
        else bounds.high }
  | .eq =>
    { low := if compare bounds.low value < 0 then value else bounds.low
      high := if compare bounds.high value > 0 then value else bounds.high }
  | .ge => { bounds with low := if compare bounds.low value < 0 then value else bounds.low }
  | .gt =>
    let minimum := sum value one
    { bounds with low := if compare bounds.low minimum < 0 then minimum else bounds.low }
  | .le =>
    { bounds with high := if compare bounds.high value > 0 then value else bounds.high }
  | .lt =>
    let maximum := subtract value one
    { bounds with high := if compare bounds.high maximum > 0 then maximum else bounds.high }

theorem contains_tighten {relation : Relation} {value : Number} (hb : bounds.Contains x)
    (hr : relation.Holds (x - value.toInt)) : (tighten bounds relation value).Contains x := by
  obtain ⟨hlow, hhigh⟩ := hb
  cases relation <;> simp only [Relation.Holds] at hr <;> unfold tighten <;>
    simp only [Contains, compare_eq_zero, ← toInt_inj] <;>
    constructor <;> first | assumption | (split <;> simp at * <;> omega)

/-- What one fact says about a symbol: a comparison of `±symbol` plus a constant. -/
def symbolFact (id : Int) (bounds : Bounds) : Predicate → Bounds
  | .compare relation term =>
    match term.terms with
    | [t] =>
      if t.id == id && unit t.factor then
        if t.factor.negative then tighten bounds relation.flip term.constant
        else tighten bounds relation (negate term.constant)
      else bounds
    | _ => bounds
  | _ => bounds

/-- The bounds of one symbol: its machine range, narrowed by every fact. -/
def symbolBounds (id : Int) (facts : List Predicate) : Bounds :=
  facts.foldl (symbolFact id) signedWordBounds

/-- What one fact says about the whole expression: a comparison of the same or
the opposite terms. -/
def termsFact (value : Linear) (bounds : Bounds) : Predicate → Bounds
  | .compare relation term =>
    if Linear.sameTerms value.terms term.terms then
      tighten bounds relation (subtract value.constant term.constant)
    else if Linear.oppositeTerms value.terms term.terms then
      tighten bounds relation.flip (sum value.constant term.constant)
    else bounds
  | _ => bounds

/-- Add the bounds of each term; crossed bounds of a symbol give up the sum. -/
def rangeTerms (facts : List Predicate) : List Term → Bounds → Option Bounds
  | [], total => some total
  | coefficient :: rest, total =>
    let bounds := symbolBounds coefficient.id facts
    if compare bounds.low bounds.high > 0 then none
    else
      let a := if coefficient.factor.negative then bounds.high else bounds.low
      let b := if coefficient.factor.negative then bounds.low else bounds.high
      rangeTerms facts rest
        ⟨sum total.low (product a coefficient.factor),
          sum total.high (product b coefficient.factor)⟩

def range (value : Linear) (facts : List Predicate) : Bounds :=
  match rangeTerms facts value.terms ⟨value.constant, value.constant⟩ with
  | none => ⟨integer 1, integer 0⟩
  | some bounds => facts.foldl (termsFact value) bounds

/-- Folding sound narrowings over facts that hold keeps the value inside. -/
theorem contains_foldl {narrow : Bounds → Predicate → Bounds} (hf : Satisfies v facts)
    (hn : ∀ bounds fact, fact.Holds v → bounds.Contains x → (narrow bounds fact).Contains x)
    (hb : bounds.Contains x) : (facts.foldl narrow bounds).Contains x := by
  induction facts generalizing bounds with
  | nil => exact hb
  | cons fact facts ih =>
    have hfact : fact.Holds v := hf fact (.head _)
    exact ih (fun p hp => hf p (.tail fact hp)) (hn bounds fact hfact hb)

theorem contains_symbolFact {id : Int} {fact : Predicate} (hf : fact.Holds v)
    (hb : bounds.Contains (v.integer id)) :
    (symbolFact id bounds fact).Contains (v.integer id) := by
  unfold symbolFact
  split
  · rename_i relation term
    split
    · rename_i t ht
      split
      · rename_i hc
        simp only [Bool.and_eq_true, beq_iff_eq] at hc
        obtain ⟨hid, hu⟩ := hc
        have hn := t.factor.negative_iff
        have heval : term.eval v.integer = term.constant.toInt + t.factor.toInt * v.integer id := by
          simp [Linear.eval, ht, evalTerms, hid]
        simp only [Predicate.Holds, heval] at hf
        split
        · rename_i hneg
          have hlt : t.factor.toInt < 0 := hn.mp hneg
          have hone : t.factor.toInt = -1 := by
            rcases t.factor.unit_iff.mp hu with h | h <;> omega
          apply contains_tighten hb
          rw [← Relation.flip_iff, hone] at hf
          rw [show v.integer id - term.constant.toInt =
            -(term.constant.toInt + -1 * v.integer id) by ring]
          exact hf
        · rename_i hpos
          have hge : ¬ t.factor.toInt < 0 := fun hlt => hpos (hn.mpr hlt)
          have hone : t.factor.toInt = 1 := by
            rcases t.factor.unit_iff.mp hu with h | h <;> omega
          apply contains_tighten hb
          rw [toInt_negate, show v.integer id - -term.constant.toInt =
            term.constant.toInt + 1 * v.integer id by ring, ← hone]
          exact hf
      · exact hb
    · exact hb
  · exact hb

theorem contains_symbolBounds (hf : Satisfies v facts) (id : Int) :
    (symbolBounds id facts).Contains (v.integer id) :=
  contains_foldl hf (fun _ _ h hb => contains_symbolFact h hb)
    (contains_signedWordBounds.mpr (v.machine id))

theorem contains_termsFact {value : Linear} {fact : Predicate} (hf : fact.Holds v)
    (hb : bounds.Contains (value.eval v.integer)) :
    (termsFact value bounds fact).Contains (value.eval v.integer) := by
  unfold termsFact
  split
  · rename_i relation term
    simp only [Predicate.Holds] at hf
    split
    · rename_i hs
      apply contains_tighten hb
      rw [Linear.sameTerms_iff] at hs
      rw [toInt_subtract, show value.eval v.integer -
        (value.constant.toInt - term.constant.toInt) = term.eval v.integer by
          simp only [Linear.eval, hs]; ring]
      exact hf
    · split
      · rename_i ho
        have hneg := Linear.eval_oppositeTerms v.integer ho
        apply contains_tighten hb
        rw [← Relation.flip_iff] at hf
        rw [toInt_sum, show value.eval v.integer -
          (value.constant.toInt + term.constant.toInt) = -term.eval v.integer by
            simp only [Linear.eval, hneg]; ring]
        exact hf
      · exact hb
  · exact hb

/-- A product with a fixed factor lies between the products of the bounds,
taken in the order of the factor's sign. -/
theorem contains_scaled (hb : bounds.Contains x) (factor : Number) :
    (if factor.negative then bounds.high else bounds.low).toInt * factor.toInt ≤ factor.toInt * x ∧
      factor.toInt * x ≤
        (if factor.negative then bounds.low else bounds.high).toInt * factor.toInt := by
  obtain ⟨hlow, hhigh⟩ := hb
  have hn := factor.negative_iff
  split
  · rename_i h
    have hneg := hn.mp h
    constructor <;> nlinarith
  · rename_i h
    have hpos : 0 ≤ factor.toInt := by
      by_contra hlt
      exact h (hn.mpr (by omega))
    constructor <;> nlinarith

/-- The sum of the terms lies in the summed bounds, and no symbol has crossed
bounds. -/
theorem contains_rangeTerms (hf : Satisfies v facts) (terms : List Term) {total : Bounds}
    (ht : total.Contains x) : ∃ bounds, rangeTerms facts terms total = some bounds ∧
      bounds.Contains (x + evalTerms v.integer terms) := by
  induction terms generalizing total x with
  | nil => exact ⟨total, rfl, by simpa [evalTerms] using ht⟩
  | cons t terms ih =>
    have hs := contains_symbolBounds hf t.id
    have hscaled := contains_scaled hs t.factor
    obtain ⟨hlow, hhigh⟩ := ht
    have hcross : ¬ compare (symbolBounds t.id facts).low (symbolBounds t.id facts).high > 0 := by
      have := hs.1.trans hs.2
      rw [gt_iff_lt, compare_gt_zero]; omega
    simp only [rangeTerms, if_neg hcross, evalTerms, ← Int.add_assoc]
    apply ih
    constructor
    · simp only [toInt_sum, toInt_product]; omega
    · simp only [toInt_sum, toInt_product]; omega

theorem contains_range (hf : Satisfies v facts) (value : Linear) :
    (range value facts).Contains (value.eval v.integer) := by
  obtain ⟨bounds, hb, hc⟩ := contains_rangeTerms hf value.terms (contains_point value.constant)
  unfold range
  rw [hb]; exact contains_foldl hf (fun _ _ h hb => contains_termsFact h hb) hc

/-- What the bounds of a value prove about its relation to zero. -/
def interval (relation : Relation) (bounds : Bounds) : Bool :=
  if compare bounds.low bounds.high > 0 then true
  else
    let low := compare bounds.low (integer 0)
    let high := compare bounds.high (integer 0)
    match relation with
    | .eq => low == 0 && high == 0
    | .ne => high < 0 || low > 0
    | .lt => high < 0
    | .le => high ≤ 0
    | .gt => low > 0
    | .ge => low ≥ 0

theorem interval_sound {relation : Relation} (h : interval relation bounds = true)
    (hb : bounds.Contains x) : relation.Holds x := by
  obtain ⟨hlow, hhigh⟩ := hb
  unfold interval at h
  split at h
  · rename_i hcross
    rw [gt_iff_lt, compare_gt_zero] at hcross; omega
  · have hzero : ∀ a : Number, compare a (integer 0) = Int.sign a.toInt := by
      intro a
      rw [compare_eq, toInt_integer, Int.sub_zero]
    cases relation <;>
      simp only [hzero, Bool.and_eq_true, Bool.or_eq_true, beq_iff_eq, decide_eq_true_eq,
        Int.sign_eq_zero_iff_zero, Int.sign_neg_iff, Int.sign_pos_iff,
        Int.sign_nonneg_iff, Int.sign_nonpos_iff, Relation.Holds] at h ⊢ <;> omega

end Loom.Proof

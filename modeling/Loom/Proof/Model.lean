import Loom.Proof.Linear
import Loom.Library.Words

/- The predicates of the prover (`proof/model.loom`) in their scalar fragment:
   integer terms over symbols, comparisons of them, Boolean variables and the
   connectives. A connective holds its operands directly; the source indirects
   them through one- or two-element lists only because the type is recursive.
   Texts, floats, selections and array facts are outside the fragment.

   A valuation gives every integer symbol a machine value and every Boolean
   variable a truth value. Linear terms are read over the mathematical
   integers, `/` and `%` truncate toward zero, and the bit operations act on
   64-bit two's complement words. -/
namespace Loom.Proof

open Number Int

/-! ## Relations -/

inductive Relation
  | eq | ne | lt | le | gt | ge
  deriving DecidableEq, Repr

namespace Relation

/-- The relation between an integer and zero. -/
def Holds : Relation → Int → Prop
  | eq, x => x = 0
  | ne, x => x ≠ 0
  | lt, x => x < 0
  | le, x => x ≤ 0
  | gt, x => 0 < x
  | ge, x => 0 ≤ x

instance (r : Relation) (x : Int) : Decidable (r.Holds x) := by
  cases r <;> unfold Holds <;> infer_instance

def inverse : Relation → Relation
  | eq => ne
  | ne => eq
  | lt => ge
  | le => gt
  | gt => le
  | ge => lt

def flip : Relation → Relation
  | lt => gt
  | le => ge
  | gt => lt
  | ge => le
  | r => r

theorem inverse_iff (r : Relation) (x : Int) : r.inverse.Holds x ↔ ¬ r.Holds x := by
  cases r <;> simp [inverse, Holds]

theorem flip_iff (r : Relation) (x : Int) : r.flip.Holds (-x) ↔ r.Holds x := by
  cases r <;> simp [flip, Holds]

/-- Multiplying by a positive integer keeps every relation to zero. -/
theorem holds_mul_pos (r : Relation) {k : Int} (hk : 0 < k) (x : Int) :
    r.Holds (x * k) ↔ r.Holds x := by
  have hs : sign (x * k) = sign x := by
    rw [sign_mul, sign_eq_one_of_pos hk, mul_one]
  have hneg : ∀ y : Int, y < 0 ↔ sign y < 0 := fun y => sign_neg_iff.symm
  have hpos : ∀ y : Int, 0 < y ↔ 0 < sign y := fun y => sign_pos_iff.symm
  have h1 := hneg (x * k)
  have h2 := hpos (x * k)
  rw [hs, ← hneg] at h1
  rw [hs, ← hpos] at h2
  cases r <;> simp only [Holds] <;> omega

end Relation

/-! ## Words -/

namespace Word

def ofInt (x : Int) : BitVec 64 := BitVec.ofInt 64 x

def complement (x : Int) : Int := (~~~ofInt x).toInt
def and (x y : Int) : Int := (ofInt x &&& ofInt y).toInt
def or (x y : Int) : Int := (ofInt x ||| ofInt y).toInt
def xor (x y : Int) : Int := (ofInt x ^^^ ofInt y).toInt
def shiftLeft (x n : Int) : Int := (ofInt x <<< ofInt n).toInt
def shiftRight (x n : Int) : Int := ((ofInt x).sshiftRight' (ofInt n)).toInt

def Machine (x : Int) : Prop := minInt ≤ x ∧ x ≤ maxInt

instance (x : Int) : Decidable (Machine x) := by unfold Machine; infer_instance

theorem machine_toInt (x : BitVec 64) : Machine x.toInt := by
  have h1 := BitVec.le_toInt x
  have h2 := BitVec.toInt_lt (x := x)
  unfold Machine minInt maxInt; omega

theorem toInt_ofInt {x : Int} (h : Machine x) : (ofInt x).toInt = x := by
  obtain ⟨h1, h2⟩ := h
  unfold minInt at h1
  unfold maxInt at h2
  exact BitVec.toInt_ofInt_eq_self (by decide) (by omega) (by omega)

end Word

/-! ## Integer terms -/

inductive Operator
  | add | subtract | multiply | divide | remainder
  | complement | and | or | xor | shiftLeft | shiftRight
  deriving DecidableEq, Repr

namespace Operator

def bitwise : Operator → Bool
  | complement | and | or | xor | shiftLeft | shiftRight => true
  | _ => false

def division : Operator → Bool
  | divide | remainder => true
  | _ => false

/-- The value of an operation; a wrong number of operands denotes zero, and no
function below answers about one. -/
def apply : Operator → List Int → Int
  | add, [x, y] => x + y
  | subtract, [x, y] => x - y
  | multiply, [x, y] => x * y
  | divide, [x, y] => tdiv x y
  | remainder, [x, y] => tmod x y
  | complement, [x] => Word.complement x
  | and, [x, y] => Word.and x y
  | or, [x, y] => Word.or x y
  | xor, [x, y] => Word.xor x y
  | shiftLeft, [x, y] => Word.shiftLeft x y
  | shiftRight, [x, y] => Word.shiftRight x y
  | _, _ => 0

end Operator

inductive IntegerTerm
  | linear (value : Linear)
  | apply (operator : Operator) (inputs : List IntegerTerm)

/-- A machine value for every integer symbol and a truth value for every
Boolean variable. -/
structure Valuation where
  integer : Int → Int
  boolean : Int → Bool
  machine : ∀ id, Word.Machine (integer id)

namespace IntegerTerm

mutual
def eval (v : Valuation) : IntegerTerm → Int
  | linear value => value.eval v.integer
  | apply operator inputs => operator.apply (evalInputs v inputs)

def evalInputs (v : Valuation) : List IntegerTerm → List Int
  | [] => []
  | t :: ts => eval v t :: evalInputs v ts
end

mutual
/-- Structural equality within a budget of visited nodes; the second result is
what is left of the budget. -/
def same : IntegerTerm → IntegerTerm → Nat → Bool × Nat
  | _, _, 0 => (false, 0)
  | linear first, linear second, budget + 1 =>
    (compare first.constant second.constant == 0 &&
      Linear.sameTerms first.terms second.terms, budget)
  | apply operator inputs, apply other values, budget + 1 =>
    if operator != other || inputs.length != values.length then (false, budget)
    else sameInputs inputs values budget
  | _, _, budget + 1 => (false, budget)

def sameInputs : List IntegerTerm → List IntegerTerm → Nat → Bool × Nat
  | left :: lefts, right :: rights, budget =>
    match same left right budget with
    | (true, rest) => sameInputs lefts rights rest
    | (false, rest) => (false, rest)
  | _, _, budget => (true, budget)
end

mutual
/-- Terms found to be the same are equal, so they denote the same integer. -/
theorem same_eq {left right : IntegerTerm} {budget : Nat}
    (h : (same left right budget).1 = true) : left = right := by
  match left, right, budget with
  | _, _, 0 => simp [same] at h
  | linear first, linear second, budget + 1 =>
    simp only [same, Bool.and_eq_true, beq_iff_eq, compare_eq_zero,
      Linear.sameTerms_iff] at h
    rw [Linear.ext_terms h.1 h.2]
  | apply operator inputs, apply other values, budget + 1 =>
    simp only [same] at h
    split at h
    · simp at h
    · rename_i hc
      simp only [bne_iff_ne, ne_eq, Bool.or_eq_true, not_or, not_not] at hc
      rw [hc.1, sameInputs_eq hc.2 h]
  | linear _, apply _ _, budget + 1 => simp [same] at h
  | apply _ _, linear _, budget + 1 => simp [same] at h

theorem sameInputs_eq {lefts rights : List IntegerTerm} {budget : Nat}
    (hl : lefts.length = rights.length) (h : (sameInputs lefts rights budget).1 = true) :
    lefts = rights := by
  match lefts, rights with
  | [], [] => rfl
  | left :: lefts, right :: rights =>
    simp only [sameInputs] at h
    split at h
    · rename_i rest hs
      have hhead : left = right := same_eq (by rw [hs])
      rw [hhead, sameInputs_eq (by simpa using hl) h]
    · simp at h
  | [], _ :: _ => simp at hl
  | _ :: _, [] => simp at hl
end

end IntegerTerm

/-! ## Predicates -/

inductive Predicate
  | constant (value : Bool)
  | symbol (id : Int)
  | compare (relation : Relation) (value : Linear)
  | equal (left right : Predicate)
  | not (value : Predicate)
  | and (left right : Predicate)
  | or (left right : Predicate)
  | integerCompare (relation : Relation) (left right : IntegerTerm)

namespace Predicate

/-- The predicate is true under the valuation. -/
def Holds (v : Valuation) : Predicate → Prop
  | constant value => value = true
  | symbol id => v.boolean id = true
  | compare relation value => relation.Holds (value.eval v.integer)
  | equal left right => left.Holds v ↔ right.Holds v
  | not value => ¬ value.Holds v
  | and left right => left.Holds v ∧ right.Holds v
  | or left right => left.Holds v ∨ right.Holds v
  | integerCompare relation left right => relation.Holds (left.eval v - right.eval v)

/-- Negation, pushed through comparisons, conjunctions and disjunctions. The
source calls it `not`, the name of a constructor here. -/
def negation : Predicate → Predicate
  | constant value => constant (!value)
  | compare relation value => compare relation.inverse value
  | integerCompare relation left right => integerCompare relation.inverse left right
  | not value => value
  | and left right => or left.negation right.negation
  | or left right => and left.negation right.negation
  | p => not p

theorem negation_iff (v : Valuation) (p : Predicate) : p.negation.Holds v ↔ ¬ p.Holds v := by
  induction p with
  | constant value => simp [negation, Holds]
  | symbol id => rfl
  | compare relation value => exact relation.inverse_iff _
  | equal left right _ _ => rfl
  | not value _ => simp [negation, Holds]
  | and left right hl hr => simp only [negation, Holds]; tauto
  | or left right hl hr => simp only [negation, Holds]; tauto
  | integerCompare relation left right => exact relation.inverse_iff _

/-- Structural equality; the two terms of a comparison share one budget. -/
def same : Predicate → Predicate → Bool
  | integerCompare relation left right, integerCompare other first second =>
    relation == other &&
      match IntegerTerm.same left first 1024 with
      | (true, budget) => (IntegerTerm.same right second budget).1
      | (false, _) => false
  | constant value, constant other => value == other
  | symbol id, symbol other => id == other
  | compare relation value, compare other term =>
    relation == other && Number.compare value.constant term.constant == 0 &&
      Linear.sameTerms value.terms term.terms
  | equal a b, equal c d => same a c && same b d
  | not a, not c => same a c
  | and a b, and c d => same a c && same b d
  | or a b, or c d => same a c && same b d
  | _, _ => false

theorem same_eq {p q : Predicate} (h : same p q = true) : p = q := by
  induction p generalizing q with
  | constant value => cases q <;> simp_all [same]
  | symbol id => cases q <;> simp_all [same]
  | compare relation value =>
    cases q with
    | compare other term =>
      simp only [same, Bool.and_eq_true, beq_iff_eq, compare_eq_zero,
        Linear.sameTerms_iff] at h
      rw [h.1.1, Linear.ext_terms h.1.2 h.2]
    | _ => simp [same] at h
  | equal a b iha ihb =>
    cases q with
    | equal c d =>
      simp only [same, Bool.and_eq_true] at h
      rw [iha h.1, ihb h.2]
    | _ => simp [same] at h
  | not a ih =>
    cases q with
    | not c => rw [ih h]
    | _ => simp [same] at h
  | and a b iha ihb =>
    cases q with
    | and c d =>
      simp only [same, Bool.and_eq_true] at h
      rw [iha h.1, ihb h.2]
    | _ => simp [same] at h
  | or a b iha ihb =>
    cases q with
    | or c d =>
      simp only [same, Bool.and_eq_true] at h
      rw [iha h.1, ihb h.2]
    | _ => simp [same] at h
  | integerCompare relation left right =>
    cases q with
    | integerCompare other first second =>
      simp only [same, Bool.and_eq_true, beq_iff_eq] at h
      obtain ⟨hr, hs⟩ := h
      split at hs
      · rename_i budget hl
        have hleft : left = first := IntegerTerm.same_eq (by rw [hl])
        rw [hr, hleft, IntegerTerm.same_eq hs]
      · simp at hs
    | _ => simp [same] at h

end Predicate

end Loom.Proof

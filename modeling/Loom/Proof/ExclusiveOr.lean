import Loom.Library.Groups
import Loom.Library.Results
import Loom.Proof.Terms

/- Normal form of exclusive or (`xor_value` of `proof/bitwise.loom`). Nested
   operations are flattened to factors, each kept once with the parity of its
   occurrences, and what occurs an odd number of times is joined again. The
   word of the result is the exclusive or of the words of the operands. A factor
   that is left alone keeps its mathematical value, so the value itself is that
   of the word where the factors have machine values. Factors are told apart by
   a comparison that gives up after 256 nodes, so what is kept are the groups
   that it makes. -/
namespace Loom.Proof.Terms

open Groups Number List Option

/-- The factors of nested operations from left to right, without the constant zero. -/
def flatten : IntegerTerm → List IntegerTerm
  | .apply .xor [left, right] => flatten left ++ flatten right
  | .linear number =>
    if number.terms.length == 0 && compare number.constant (integer 0) == 0 then []
    else [.linear number]
  | value => [value]
termination_by value => value.weight
decreasing_by all_goals simp only [IntegerTerm.weight, weightInputs]; omega

def joined : List IntegerTerm → IntegerTerm
  | [] => .linear (Linear.ofConstant (integer 0))
  | factor :: factors => factors.foldl (fun value term => .apply .xor [value, term]) factor

variable {v : Interpretation} {term left right : IntegerTerm} {factors : List IntegerTerm}
  {groups : List (IntegerTerm × List IntegerTerm)} {x y : Int}

def wordOf (v : Interpretation) (factor : IntegerTerm) : BitVec 64 :=
  Word.ofInt ((factor.eval v).getD 0)

def Fits (v : Interpretation) (term : IntegerTerm) : Prop :=
  ∀ x, term.eval v = some x → Word.Machine x

/-- Every factor of a term has a machine value. -/
inductive Ranged (v : Interpretation) : IntegerTerm → Prop
  | xor {first second : IntegerTerm} : Ranged v first → Ranged v second →
    Ranged v (.apply .xor [first, second])
  | factor {value : IntegerTerm} : (∀ first second, value ≠ .apply .xor [first, second]) →
    Fits v value → Ranged v value

theorem Ranged.fits (h : Ranged v term) : ∀ factor ∈ flatten term, Fits v factor := by
  induction h with
  | xor _ _ ihfirst ihsecond =>
    rw [flatten]
    exact fun factor hfactor => (mem_append.mp hfactor).elim (ihfirst factor) (ihsecond factor)
  | @factor value hnot hfits =>
    have hself : flatten value = [] ∨ flatten value = [value] := by
      unfold flatten
      split
      · exact absurd rfl (hnot _ _)
      · split
        · exact .inl rfl
        · exact .inr rfl
      · exact .inr rfl
    obtain hself | hself := hself <;> rw [hself]
    · simp
    · simpa using hfits

def number (value : Int) : IntegerTerm := .linear (Linear.ofConstant (integer value))

end Loom.Proof.Terms

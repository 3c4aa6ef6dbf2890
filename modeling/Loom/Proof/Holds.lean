import Loom.Proof.IntegerBounds
import Loom.Proof.Inequalities

/- The integer prover (`holds` of `proof/linear.loom`): a direct answer from
   intervals, a search of the facts for the goal or a contradiction, and the
   affine and inequality queries, over the connectives of the goal.

   Main result: `holds_sound`, that a goal the prover accepts is true in every
   valuation of the facts. -/
namespace Loom.Proof

open Bool

/-- A directly established goal; failure here is not evidence of falsity. -/
def directly (predicate : Predicate) (facts : List Predicate) : Bool :=
  match predicate with
  | .constant value => value
  | .compare relation value => interval relation (range value facts)
  | .integerCompare relation left right => integerInterval relation left right facts
  | _ => false

/-- The fact contradicts the interval the other facts leave it. -/
def contradicted (facts : List Predicate) (fact : Predicate) : Bool :=
  match fact with
  | .constant value => !value
  | .compare relation term => interval relation.inverse (range term facts)
  | .integerCompare relation left right => integerInterval relation.inverse left right facts
  | _ => false

/-- Facts whose complement is searched for among the earlier ones. Complements
of the other predicates are wrapped in `not`, so they are searched for only
after a `not`. -/
def structural (negated : Bool) : Predicate → Bool
  | .compare _ _ => false
  | .constant _ => false
  | .integerCompare _ _ _ => true
  | .and _ _ => true
  | .or _ _ => true
  | .not _ => true
  | _ => negated

def isNot : Predicate → Bool
  | .not _ => true
  | _ => false

def isConstant : Predicate → Bool
  | .constant _ => true
  | _ => false

/-- Search the facts in order, `seen` before the current one, for the goal
itself or a contradiction. -/
def searchFacts (predicate : Predicate) (facts : List Predicate) :
    List Predicate → Bool → List Predicate → Bool
  | _, _, [] => false
  | seen, negated, fact :: rest =>
    if !isConstant predicate && Predicate.same predicate fact then true
    else if contradicted facts fact then true
    else
      let negated := negated || isNot fact
      if structural negated fact && seen.any (fun other => Predicate.same other fact.negation) then
        true
      else searchFacts predicate facts (seen ++ [fact]) negated rest

namespace Predicate

/-- Nesting of the connectives. An equality counts twice, because its operands
are also queried negated. -/
def depth : Predicate → Nat
  | equal left right => max left.depth right.depth + 2
  | not value => value.depth + 1
  | and left right => max left.depth right.depth + 1
  | or left right => max left.depth right.depth + 1
  | _ => 0

theorem depth_negation (p : Predicate) : p.negation.depth ≤ p.depth + 1 := by
  induction p with
  | and left right hl hr => simp only [negation, depth]; omega
  | or left right hl hr => simp only [negation, depth]; omega
  | not value _ => simp only [negation, depth]; omega
  | _ => simp [negation, depth]

end Predicate

def holds (predicate : Predicate) (facts : List Predicate) : Bool :=
  if directly predicate facts then true
  else if searchFacts predicate facts [] false facts then true
  else match predicate with
  | .constant value => value
  | .compare relation value =>
    affineHolds relation value facts || inequalityHolds relation value facts
  | .and left right => holds left facts && holds right facts
  | .or left right => holds left facts || holds right facts
  | .equal left right =>
    (holds left facts && holds right facts) ||
      (holds left.negation facts && holds right.negation facts)
  | _ => false
termination_by predicate.depth
decreasing_by
  all_goals simp only [Predicate.depth]
  all_goals have hl := left.depth_negation; have hr := right.depth_negation; omega

/-! ## Soundness -/

variable {facts : List Predicate} {v : Valuation}

theorem directly_sound {predicate : Predicate} (hf : Satisfies v facts)
    (h : directly predicate facts = true) : predicate.Holds v := by
  unfold directly at h
  split at h
  · exact h
  · exact interval_sound h (contains_range hf _)
  · exact integerInterval_sound hf h
  · simp at h

theorem contradicted_sound (hf : Satisfies v facts) {fact : Predicate}
    (h : contradicted facts fact = true) : ¬ fact.Holds v := by
  unfold contradicted at h
  split at h
  · simpa [Predicate.Holds] using h
  · rename_i relation term
    exact (relation.inverse_iff _).mp (interval_sound h (contains_range hf term))
  · rename_i relation left right
    exact (relation.inverse_iff _).mp (integerInterval_sound hf h)
  · simp at h

/-- A search succeeds on the goal itself, or on facts that no valuation
satisfies. -/
theorem searchFacts_sound {predicate : Predicate} (hf : Satisfies v facts) (rest : List Predicate)
    {seen : List Predicate} {negated : Bool} (hs : Satisfies v seen) (hr : Satisfies v rest)
    (h : searchFacts predicate facts seen negated rest = true) : predicate.Holds v := by
  induction rest generalizing seen negated with
  | nil => simp [searchFacts] at h
  | cons fact rest ih =>
    obtain ⟨hfact, hrest⟩ := List.forall_mem_cons.mp hr
    simp only [searchFacts] at h
    split at h
    · rename_i hsame
      rw [Predicate.same_eq (and_eq_true_iff.mp hsame).2]; exact hfact
    · split at h
      · rename_i hc
        exact absurd hfact (contradicted_sound hf hc)
      · split at h
        · rename_i hc
          obtain ⟨other, hother, hsame⟩ := List.any_eq_true.mp (and_eq_true_iff.mp hc).2
          have hnot : fact.negation.Holds v := Predicate.same_eq hsame ▸ hs other hother
          exact absurd hfact ((Predicate.negation_iff v fact).mp hnot)
        · refine ih ?_ hrest h
          intro p hp
          rcases List.mem_append.mp hp with hp | hp
          · exact hs p hp
          · rw [List.mem_singleton.mp hp]; exact hfact

/-- A goal accepted from facts holds in every valuation that satisfies them. -/
theorem accepted_sound (hf : Satisfies v facts) (predicate : Predicate)
    (h : holds predicate facts = true) : predicate.Holds v := by
  -- The induction is on the nesting depth: an equality queries its operands negated.
  induction hd : predicate.depth using Nat.strong_induction_on generalizing predicate with
  | _ depth ih =>
    have sub : ∀ p : Predicate, p.depth < predicate.depth → holds p facts = true → p.Holds v :=
      fun p hp hh => ih p.depth (hd ▸ hp) p hh rfl
    unfold holds at h
    split at h
    · rename_i hdirect
      exact directly_sound hf hdirect
    · split at h
      · rename_i hs
        exact searchFacts_sound hf facts (by simp [Satisfies]) hf hs
      · cases predicate with
        | constant value => exact h
        | compare relation value =>
          rcases or_eq_true_iff.mp h with h | h
          · exact affineHolds_sound hf h
          · exact inequalityHolds_sound hf h
        | and left right =>
          obtain ⟨hl, hr⟩ := and_eq_true_iff.mp h
          exact ⟨sub left (by simp [Predicate.depth]) hl, sub right (by simp [Predicate.depth]) hr⟩
        | or left right =>
          rcases or_eq_true_iff.mp h with h | h
          · exact .inl (sub left (by simp [Predicate.depth]) h)
          · exact .inr (sub right (by simp [Predicate.depth]) h)
        | equal left right =>
          have hdl := left.depth_negation
          have hdr := right.depth_negation
          have hdepth : (Predicate.equal left right).depth = max left.depth right.depth + 2 := rfl
          rcases or_eq_true_iff.mp h with h | h
          · obtain ⟨hl, hr⟩ := and_eq_true_iff.mp h
            exact iff_of_true (sub left (by omega) hl) (sub right (by omega) hr)
          · obtain ⟨hl, hr⟩ := and_eq_true_iff.mp h
            exact iff_of_false ((Predicate.negation_iff v left).mp (sub _ (by omega) hl))
              ((Predicate.negation_iff v right).mp (sub _ (by omega) hr))
        | _ => simp at h

/-- The prover is sound: an accepted goal is true in every valuation of the
facts, and `false` is accepted only from facts without a model. -/
theorem holds_sound (predicate : Predicate) (facts : List Predicate)
    (h : holds predicate facts = true) : (∀ v : Valuation, Satisfies v facts → predicate.Holds v) ∧
      (predicate = .constant false → ¬ ∃ v : Valuation, Satisfies v facts) := by
  refine ⟨fun v hf => accepted_sound hf predicate h, ?_⟩
  rintro rfl ⟨v, hf⟩
  have hfalse := accepted_sound hf _ h
  simp [Predicate.Holds] at hfalse

/-- `x₀ = x₁` and `2·x₀ > 3`: neither an interval nor a difference proves
`x₁ > 0`, the affine basis does. -/
def affineFacts : List Predicate :=
  let first := Linear.ofVariable 0
  let second := Linear.ofVariable 1
  [.compare .eq (Linear.add first (Linear.scale second (Number.integer (-1)))),
    .compare .gt (Linear.add (Linear.scale first (Number.integer 2))
      (Linear.ofConstant (Number.integer (-3))))]

def affineGoal : Predicate := .compare .gt (Linear.ofVariable 1)

def allTwo : Valuation where
  integer := fun _ => 2
  boolean := fun _ => true
  machine := fun _ => by decide

theorem holds_sound_affine : Satisfies allTwo affineFacts ∧ affineGoal.Holds allTwo := by
  have hfacts : Satisfies allTwo affineFacts := by
    simp [Satisfies, affineFacts, Predicate.Holds, Relation.Holds, allTwo]
  exact ⟨hfacts, (holds_sound affineGoal affineFacts (by decide +kernel)).1 allTwo hfacts⟩

end Loom.Proof

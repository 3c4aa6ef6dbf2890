import Mathlib.Data.Finset.Card
import Mathlib.Tactic.Common

/-
  Iterating a step over finite sets until nothing changes.

  `settle` is the loop itself: it carries a state the step may write to and an
  auxiliary result, and runs out after `rounds` rounds. `settled` is what it
  computes when the sets do not depend on the state.
-/

namespace Loom.Settling

variable {α β σ : Type} [DecidableEq α]

def settle (step : Finset α → σ → Option (Finset α × β × σ)) :
    Nat → Finset α → σ → Option (Finset α × β × σ)
  | 0, _, _ => none
  | rounds + 1, head, state => do
      let (next, result, state) ← step head state
      if next = head then some (head, result, state) else settle step rounds next state

/-- The settled set of a step that depends on the set only. -/
def settled (step : Finset α → Finset α) : Nat → Finset α → Finset α
  | 0, head => head
  | rounds + 1, head => if step head = head then head else settled step rounds (step head)

variable {head : Finset α} {rounds : Nat}

/-- The last round starts at the settled set and returns it. What every round
preserves holds between the first state and that of the last round. -/
theorem settle_last {step : Finset α → σ → Option (Finset α × β × σ)} (keeps : σ → σ → Prop)
    (hrefl : ∀ state, keeps state state)
    (htrans : ∀ {first second third}, keeps first second → keeps second third → keeps first third)
    (hstep : ∀ {head state next result state'}, step head state = some (next, result, state') →
      keeps state state') {start : Finset α} {result : β} {state state' : σ}
    (hsettle : settle step rounds start state = some (head, result, state')) :
    ∃ last, keeps state last ∧ step head last = some (head, result, state') := by
  induction rounds generalizing start state with
  | zero => simp [settle] at hsettle
  | succ rounds ih =>
    obtain ⟨⟨next, found, after⟩, hround, hrest⟩ := Option.bind_eq_some_iff.mp hsettle
    by_cases hsame : next = start
    · subst hsame
      simp only  at hrest
      obtain ⟨rfl, rfl, rfl⟩ := hrest
      exact ⟨state, hrefl state, hround⟩
    · simp only [if_neg hsame] at hrest
      obtain ⟨last, hkeeps, hlast⟩ := ih hrest
      exact ⟨last, htrans (hstep hround) hkeeps, hlast⟩

/-- Monotone among the subsets of a bound, and staying inside it. -/
structure Climbs (step : Finset α → Finset α) (bound : Finset α) : Prop where
  mono : ∀ {smaller larger}, smaller ⊆ larger → larger ⊆ bound → step smaller ⊆ step larger
  bounded : ∀ {head}, head ⊆ bound → step head ⊆ bound

variable {next : Finset α → Finset α} {bound : Finset α}

theorem settled_bounded (hclimbs : Climbs next bound) (hhead : head ⊆ bound) :
    settled next rounds head ⊆ bound := by
  induction rounds generalizing head with
  | zero => exact hhead
  | succ rounds ih =>
    rw [settled]
    split
    · exact hhead
    · exact ih (hclimbs.bounded hhead)

theorem settled_subset (hclimbs : Climbs next bound) {closed : Finset α}
    (hclosed : next closed ⊆ closed) (hbound : closed ⊆ bound) (hhead : head ⊆ closed) :
    settled next rounds head ⊆ closed := by
  induction rounds generalizing head with
  | zero => exact hhead
  | succ rounds ih =>
    rw [settled]
    split
    · exact hhead
    · exact ih ((hclimbs.mono hhead hbound).trans hclosed)

/-- An ascending chain inside a finite set has no room for more steps than the
set has elements. -/
theorem settled_fixed (hclimbs : Climbs next bound) (hhead : head ⊆ bound)
    (hascends : head ⊆ next head) (hrounds : bound.card < rounds + head.card) :
    next (settled next rounds head) = settled next rounds head := by
  induction rounds generalizing head with
  | zero =>
    have := Finset.card_le_card hhead
    omega
  | succ rounds ih =>
    rw [settled]
    split
    case isTrue hsame => exact hsame
    case isFalse hmoves =>
      have hnext := hclimbs.bounded hhead
      have hlt : head.card < (next head).card :=
        Finset.card_lt_card (hascends.ssubset_of_ne fun hsame => hmoves hsame.symm)
      exact ih hnext (hclimbs.mono hascends hnext) (by omega)

theorem settle_total (step : Finset α → σ → Option (Finset α × β × σ)) (hclimbs : Climbs next bound)
    (hstep : ∀ head ⊆ bound, ∀ state, ∃ result state',
      step head state = some (next head, result, state')) (hhead : head ⊆ bound)
    (hascends : head ⊆ next head) (hrounds : bound.card < rounds + head.card) (state : σ) :
    ∃ result state', settle step rounds head state =
      some (settled next rounds head, result, state') := by
  induction rounds generalizing head state with
  | zero =>
    have := Finset.card_le_card hhead
    omega
  | succ rounds ih =>
    obtain ⟨result, state', hround⟩ := hstep head hhead state
    rw [settle, settled, hround]
    by_cases hsame : next head = head
    · exact ⟨result, state', by simp [hsame]⟩
    · have hnext := hclimbs.bounded hhead
      have hlt : head.card < (next head).card :=
        Finset.card_lt_card (hascends.ssubset_of_ne fun heq => hsame heq.symm)
      obtain ⟨result', state'', hrest⟩ := ih hnext (hclimbs.mono hascends hnext) (by omega) state'
      exact ⟨result', state'', by simp [hsame, hrest]⟩

end Loom.Settling

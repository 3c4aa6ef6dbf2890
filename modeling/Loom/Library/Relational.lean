import Mathlib.Tactic.Common

/-
  Programs over a state that follow a parser of what the state stands for.

  A program keeps its state when it fails; a parser has an input, and nothing once
  it has failed. `Follows` relates the two from states and inputs of `pre` on: they
  fail alike, and `failed` holds of the state then; or both succeed, and `post`
  holds of the two results, the state and the rest of the input.
-/

namespace Loom.Relational

variable {ε ε' σ β α α' γ γ' : Type}

abbrev Program (ε σ α : Type) := ExceptT ε (StateM σ) α

abbrev Parser (ε β α : Type) := StateT β (Except ε) α

def Follows (lift : ε' → ε) (pre : σ → β → Prop) (post : α → α' → σ → β → Prop)
    (failed : σ → Prop) (program : Program ε σ α) (parser : Parser ε' β α') : Prop :=
  ∀ ⦃state input⦄, pre state input →
    match parser input with
    | .ok (value', rest) => ∃ value after, program state = (.ok value, after) ∧
        post value value' after rest
    | .error error => ∃ after, program state = (.error (lift error), after) ∧ failed after

section
variable {lift : ε' → ε} {pre pre' : σ → β → Prop} {failed failed' : σ → Prop}
  {post post' : α → α' → σ → β → Prop} {final : γ → γ' → σ → β → Prop}
  {program : Program ε σ α} {parser : Parser ε' β α'}

theorem bind_ok {f : α → Program ε σ γ} {state after : σ} {value : α}
    (h : program state = (.ok value, after)) : (program >>= f) state = f value after := by
  change (StateT.bind program (ExceptT.bindCont f)) state = _
  simp only [StateT.bind, h]; rfl

theorem bind_error {f : α → Program ε σ γ} {state after : σ} {error : ε}
    (h : program state = (.error error, after)) : (program >>= f) state = (.error error, after) := by
  change (StateT.bind program (ExceptT.bindCont f)) state = _
  simp only [StateT.bind, h]; rfl

variable {g : α' → Parser ε' β γ'} {input : β}

theorem parse_ok {rest : β} {value' : α'} (h : parser input = .ok (value', rest)) :
    (parser >>= g) input = g value' rest := by
  change (StateT.bind parser g) input = _
  simp only [StateT.bind, h]; rfl

theorem parse_error {error : ε'} (h : parser input = .error error) :
    (parser >>= g) input = .error error := by
  change (StateT.bind parser g) input = _
  simp only [StateT.bind, h]; rfl

/-- A parse of one thing after another, taken apart. -/
theorem parse_bind_ok {rest : β} {result : γ'} (h : (parser >>= g) input = .ok (result, rest)) :
    ∃ value' middle, parser input = .ok (value', middle) ∧ g value' middle = .ok (result, rest) := by
  cases hparser : parser input with
  | error error =>
    rw [parse_error hparser] at h
    cases h
  | ok first =>
    obtain ⟨value', middle⟩ := first
    rw [parse_ok hparser] at h; exact ⟨value', middle, rfl, h⟩

theorem Follows.bind {f : α → Program ε σ γ} {g : α' → Parser ε' β γ'}
    (h : Follows lift pre post failed program parser)
    (hnext : ∀ value value', Follows lift (post value value') final failed (f value) (g value')) :
    Follows lift pre final failed (program >>= f) (parser >>= g) := by
  intro state input hpre
  have hfirst := h hpre
  cases hparser : parser input with
  | error error =>
    simp only [hparser] at hfirst
    obtain ⟨after, hrun, hfailed⟩ := hfirst
    rw [parse_error hparser]; exact ⟨after, bind_error hrun, hfailed⟩
  | ok result =>
    obtain ⟨value', rest⟩ := result
    simp only [hparser] at hfirst
    obtain ⟨value, after, hrun, hpost⟩ := hfirst
    rw [parse_ok hparser, bind_ok hrun]; exact hnext value value' hpost

theorem Follows.ite {condition : Prop} [Decidable condition] {first second : Program ε σ α}
    {first' second' : Parser ε' β α'} (h : condition → Follows lift pre post failed first first')
    (h' : ¬ condition → Follows lift pre post failed second second') :
    Follows lift pre post failed (if condition then first else second)
      (if condition then first' else second') := by
  split
  · exact h ‹_›
  · exact h' ‹_›

end

end Loom.Relational

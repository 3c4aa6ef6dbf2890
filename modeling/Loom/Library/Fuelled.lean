import Loom.Library.Results

/-
  Computations that are given fuel.

  A recursion that the code bounds by nothing but its input is bounded here by fuel, and
  what it answers is what it answers with enough of it. One rule for each way such a
  computation is built keeps the fuel out of the proofs about it.
-/

namespace Loom.Fuelled

variable {ε α β : Type}

/-- With enough fuel the answer is `answer`. -/
def Yields (run : Nat → Except ε α) (answer : Except ε α) : Prop :=
  ∃ enough, ∀ fuel, enough ≤ fuel → run fuel = answer

namespace Yields

theorem const (answer : Except ε α) : Yields (fun _ => answer) answer := ⟨0, fun _ _ => rfl⟩

theorem congr {run other : Nat → Except ε α} {answer : Except ε α}
    (h : ∀ fuel, run fuel = other fuel) (hother : Yields other answer) : Yields run answer := by
  obtain ⟨enough, hrun⟩ := hother
  exact ⟨enough, fun fuel hfuel => (h fuel).trans (hrun fuel hfuel)⟩

/-- One level of a recursion. -/
theorem step {run next : Nat → Except ε α} {answer : Except ε α}
    (h : ∀ fuel, run (fuel + 1) = next fuel) (hnext : Yields next answer) : Yields run answer := by
  obtain ⟨enough, hrun⟩ := hnext
  refine ⟨enough + 1, fun fuel hfuel => ?_⟩
  obtain ⟨less, rfl⟩ : ∃ less, fuel = less + 1 := ⟨fuel - 1, by omega⟩
  exact (h less).trans (hrun less (by omega))

theorem bind {run : Nat → Except ε α} {next : Nat → α → Except ε β} {a : α}
    {answer : Except ε β} (hrun : Yields run (.ok a))
    (hnext : Yields (fun fuel => next fuel a) answer) :
    Yields (fun fuel => run fuel >>= next fuel) answer := by
  obtain ⟨enough, hfirst⟩ := hrun
  obtain ⟨more, hsecond⟩ := hnext
  refine ⟨max enough more, fun fuel hfuel => ?_⟩
  dsimp only
  rw [hfirst fuel (by omega)]; exact hsecond fuel (by omega)

/-- One level of a recursion that goes on with what another one answers. -/
theorem step_bind {run : Nat → Except ε β} {first : Nat → Except ε α} {a : α}
    {answer : Except ε β} (next : Nat → α → Except ε β)
    (h : ∀ fuel, run (fuel + 1) = first fuel >>= next fuel) (hfirst : Yields first (.ok a))
    (hnext : Yields (fun fuel => next fuel a) answer) : Yields run answer :=
  step h (bind hfirst hnext)

/-- A computation that stops stops what it is part of. -/
theorem bind_error {run : Nat → Except ε α} {next : Nat → α → Except ε β} {stop : ε}
    (hrun : Yields run (.error stop)) :
    Yields (fun fuel => run fuel >>= next fuel) (.error stop) := by
  obtain ⟨enough, hfirst⟩ := hrun
  refine ⟨enough, fun fuel hfuel => ?_⟩
  dsimp only
  rw [hfirst fuel hfuel]; rfl

end Yields

end Loom.Fuelled

import Mathlib.Data.Nat.Notation

/- Computations that spend from a step budget and may give up with a message.
   What was spent stays spent after a failure, so the budget is the inner
   state. `Ensures x P` is partial correctness: whatever the budget, a result
   that `x` returns satisfies `P`; giving up promises nothing. -/
namespace Loom

abbrev Budgeted (α : Type) := ExceptT String (StateM Nat) α

namespace Budgeted

/-- Run from a budget, forgetting what is left of it. -/
def result {α : Type} (x : Budgeted α) (budget : Nat) : Except String α :=
  (x.run.run budget).1

/-- One step, or give up with `message`. -/
def spend (message : String) : Budgeted Unit := do
  let left ← get
  if left = 0 then throw message
  set (left - 1)

/-- The result if there is one; a failure is absorbed but its spending is not. -/
def attempt {α : Type} (x : Budgeted α) : Budgeted (Option α) :=
  ExceptT.mk (do
    match ← x.run with
    | .ok a => pure (.ok (some a))
    | .error _ => pure (.ok none))

def ofExcept {α : Type} (x : Except String α) : Budgeted α := ExceptT.mk (pure x)

def Ensures {α : Type} (x : Budgeted α) (P : α → Prop) : Prop :=
  ∀ budget a, x.result budget = .ok a → P a

variable {α β : Type}

variable {P : α → Prop} {x : Budgeted α}

theorem ensures_pure {a : α} (h : P a) : Ensures (pure a) P := by
  intro budget b hb
  cases hb
  exact h

theorem ensures_throw (message : String) : Ensures (throw message : Budgeted α) P := by
  intro budget a h
  cases h

theorem ensures_ofExcept {x : Except String α} (h : ∀ a, x = .ok a → P a) :
    Ensures (ofExcept x) P := fun _ a ha => h a ha

theorem ensures_bind {P : β → Prop} {Q : α → Prop} {f : α → Budgeted β} (hx : Ensures x Q)
    (hf : ∀ a, Q a → Ensures (f a) P) : Ensures (x >>= f) P := by
  intro budget b h
  have hx' := hx budget
  unfold result at h hx'
  simp only [ExceptT.run_bind, StateT.run_bind] at h
  cases hr : x.run.run budget with
  | mk r left =>
    cases r with
    | error e =>
      rw [hr] at h
      cases h
    | ok a =>
      rw [hr] at h; exact hf a (hx' a (by rw [hr])) left b h

theorem ensures_ite {c : Prop} [Decidable c] {y : Budgeted α} (hx : c → Ensures x P)
    (hy : ¬c → Ensures y P) : Ensures (if c then x else y) P := by
  split
  · rename_i h; exact hx h
  · rename_i h; exact hy h

theorem ensures_mono {Q : α → Prop} (hx : Ensures x Q) (h : ∀ a, Q a → P a) :
    Ensures x P := fun budget a ha => h a (hx budget a ha)

theorem ensures_true (x : Budgeted α) : Ensures x fun _ => True := fun _ _ _ => trivial

theorem ensures_then {P : β → Prop} {f : α → Budgeted β} (hf : ∀ a, Ensures (f a) P) :
    Ensures (x >>= f) P := ensures_bind (ensures_true x) fun a _ => hf a

theorem ensures_attempt (hx : Ensures x P) :
    Ensures (attempt x) fun r => ∀ a, r = some a → P a := by
  intro budget r h a hr
  subst hr
  have hx' := hx budget
  unfold result attempt at h
  unfold result at hx'
  simp only [ExceptT.run_mk, StateT.run_bind] at h
  cases hrun : x.run.run budget with
  | mk s left =>
    rw [hrun] at h hx'
    cases s with
    | error e => cases h
    | ok b =>
      cases h
      exact hx' a rfl

end Budgeted

end Loom

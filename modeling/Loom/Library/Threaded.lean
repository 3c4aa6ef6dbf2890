import Mathlib.Data.Nat.Notation

/- Computations that thread a state and may stop with an error. `Meets x s P E`
   says what one run of `x` from the state `s` gives: a value and a state with
   `P`, or an error with `E`. One rule for each way such a computation is built
   keeps the proofs about a computation in the shape of its text. -/
namespace Loom

abbrev Threaded (σ ε : Type) (α : Type) := StateT σ (Except ε) α

namespace Threaded

variable {σ ε α β : Type}

def Meets (x : Threaded σ ε α) (s : σ) (P : α → σ → Prop) (E : ε → Prop) : Prop :=
  match x s with
  | .ok (a, t) => P a t
  | .error e => E e

variable {P : α → σ → Prop} {E : ε → Prop} {s : σ} {x : Threaded σ ε α}

theorem meets_pure {a : α} (h : P a s) : Meets (pure a) s P E := h

theorem meets_throw {e : ε} (h : E e) : Meets (throw e : Threaded σ ε α) s P E := h

theorem meets_get {P : σ → σ → Prop} (h : P s s) : Meets (get : Threaded σ ε σ) s P E := h

theorem meets_set {t : σ} {P : PUnit → σ → Prop} (h : P ⟨⟩ t) :
    Meets (set t : Threaded σ ε PUnit) s P E := h

theorem meets_bind {f : α → Threaded σ ε β} {Q : α → σ → Prop} {P : β → σ → Prop}
    (hx : Meets x s Q E) (hf : ∀ a t, Q a t → Meets (f a) t P E) : Meets (x >>= f) s P E := by
  unfold Meets at hx ⊢
  show match (x s >>= fun r => f r.1 r.2) with
    | .ok (b, t) => P b t
    | .error e => E e
  cases hr : x s with
  | error e =>
    rw [hr] at hx; exact hx
  | ok r =>
    rw [hr] at hx; exact hf r.1 r.2 hx

theorem meets_mono {Q : α → σ → Prop} {F : ε → Prop} (hx : Meets x s Q F)
    (hP : ∀ a t, Q a t → P a t) (hE : ∀ e, F e → E e) : Meets x s P E := by
  unfold Meets at hx ⊢
  cases hr : x s with
  | error e =>
    rw [hr] at hx; exact hE e hx
  | ok r =>
    rw [hr] at hx; exact hP r.1 r.2 hx

theorem meets_ite {c : Prop} [Decidable c] {y : Threaded σ ε α} (hx : c → Meets x s P E)
    (hy : ¬c → Meets y s P E) : Meets (if c then x else y) s P E := by
  split
  · rename_i h; exact hx h
  · rename_i h; exact hy h

/-- What a run that returned satisfies. -/
theorem Meets.ok {t : σ} {a : α} (hx : Meets x s P E) (h : x s = .ok (a, t)) : P a t := by
  unfold Meets at hx
  rw [h] at hx; exact hx

/-- What a run that stopped satisfies. -/
theorem Meets.error {e : ε} (hx : Meets x s P E) (h : x s = .error e) : E e := by
  unfold Meets at hx
  rw [h] at hx; exact hx

end Threaded

end Loom

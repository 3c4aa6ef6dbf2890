import Mathlib.Data.List.Basic
import Mathlib.Tactic.Common

/-
  Writers whose output says itself where it ends.

  `Determines write view` says that two outputs with anything behind them can only be
  equal where the views of the values are equal and the rests are. A writer that is put
  together from such writers is one, so that an encoding of lists inside of lists is
  read apart by the rules of this file alone.
-/

namespace Loom.Delimited

open List

variable {α β γ δ σ : Type}

/-- What is written determines the view, whatever is written behind it. -/
def Determines (write : α → List σ) (view : α → γ) : Prop :=
  ∀ (x y : α) (rest others : List σ), write x ++ rest = write y ++ others →
    view x = view y ∧ rest = others

variable {write : α → List σ} {next : α → List σ} {view : α → γ} {other : α → δ}

theorem Determines.append (h : Determines write view) (hnext : Determines next other) :
    Determines (fun x => write x ++ next x) (fun x => (view x, other x)) := by
  intro x y rest others hsame
  have hfirst : write x ++ (next x ++ rest) = write y ++ (next y ++ others) := by
    simpa only [append_assoc] using hsame
  obtain ⟨hview, hbehind⟩ := h _ _ _ _ hfirst
  obtain ⟨hother, hrest⟩ := hnext _ _ _ _ hbehind
  exact ⟨Prod.ext hview hother, hrest⟩

/-- A part of a value. -/
theorem Determines.of (h : Determines write view) (part : β → α) :
    Determines (fun x => write (part x)) (fun x => view (part x)) := fun x y => h (part x) (part y)

theorem Determines.imp (h : Determines write view) (himp : ∀ x y, view x = view y → other x = other y) :
    Determines write other := by
  intro x y rest others hsame
  obtain ⟨hview, hrest⟩ := h x y _ _ hsame
  exact ⟨himp x y hview, hrest⟩

/-- Behind what is always the same. -/
theorem Determines.after (h : Determines write view) (front : List σ) :
    Determines (fun x => front ++ write x) view := by
  intro x y rest others hsame
  rw [append_assoc, append_assoc] at hsame
  exact h _ _ _ _ (append_cancel_left hsame)

/-! ## Marks and sizes -/

/-- What stands in front of the first mark, and what stands behind it. -/
theorem append_mark_inj {mark : σ} {front ahead rest others : List σ} (hfront : mark ∉ front)
    (hahead : mark ∉ ahead) (hsame : front ++ mark :: rest = ahead ++ mark :: others) :
    front = ahead ∧ rest = others := by
  induction front generalizing ahead with
  | nil =>
    cases ahead with
    | nil => exact ⟨rfl, (cons.inj hsame).2⟩
    | cons symbol ahead =>
      obtain ⟨hmark, -⟩ := cons.inj hsame
      exact absurd (hmark ▸ (.head _)) hahead
  | cons symbol front ih =>
    cases ahead with
    | nil =>
      obtain ⟨hmark, -⟩ := cons.inj hsame
      exact absurd (hmark ▸ (.head _)) hfront
    | cons another ahead =>
      obtain ⟨hsymbol, hbehind⟩ := cons.inj hsame
      obtain ⟨hahead', hrest⟩ := ih (fun h => hfront (.tail _ h))
        (fun h => hahead (.tail _ h)) hbehind
      exact ⟨by rw [hsymbol, hahead'], hrest⟩

theorem determines_terminated {mark : σ} (hfree : ∀ x, mark ∉ write x) :
    Determines (fun x => write x ++ [mark]) write := by
  intro x y rest others hsame
  apply append_mark_inj (hfree x) (hfree y)
  simpa only [append_assoc, singleton_append] using hsame

theorem determines_sized {size : Nat → List σ} (hsize : Determines size id) :
    Determines (fun x => size (write x).length ++ write x) write := by
  intro x y rest others hsame
  have hfirst : size (write x).length ++ (write x ++ rest) =
      size (write y).length ++ (write y ++ others) := by
    simpa only [append_assoc] using hsame
  obtain ⟨hlength, hbehind⟩ := hsize _ _ _ _ hfirst
  exact append_inj hbehind hlength

/-! ## Loops -/

theorem Determines.flatMap (h : Determines write view) {xs ys : List α} {rest others : List σ}
    (hlength : xs.length = ys.length)
    (hsame : xs.flatMap write ++ rest = ys.flatMap write ++ others) :
    xs.map view = ys.map view ∧ rest = others := by
  induction xs generalizing ys with
  | nil =>
    obtain rfl : ys = [] := length_eq_zero_iff.mp hlength.symm
    exact ⟨rfl, hsame⟩
  | cons x xs ih =>
    cases ys with
    | nil => cases hlength
    | cons y ys =>
      simp only [flatMap_cons, append_assoc] at hsame
      obtain ⟨hview, hbehind⟩ := h _ _ _ _ hsame
      obtain ⟨hviews, hrest⟩ := ih (Nat.succ.inj hlength) hbehind
      exact ⟨by rw [map_cons, map_cons, hview, hviews], hrest⟩

theorem Determines.list (h : Determines write view) {count : Nat → List σ}
    (hcount : Determines count id) :
    Determines (fun xs : List α => count xs.length ++ xs.flatMap write)
      (fun xs => xs.map view) := by
  intro xs ys rest others hsame
  have hfirst : count xs.length ++ (xs.flatMap write ++ rest) =
      count ys.length ++ (ys.flatMap write ++ others) := by
    simpa only [append_assoc] using hsame
  obtain ⟨hlength, hbehind⟩ := hcount _ _ _ _ hfirst
  exact h.flatMap hlength hbehind

end Loom.Delimited

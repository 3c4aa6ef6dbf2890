import Mathlib.Data.List.Basic

/-
  Where a list occurs in another one.

  A cut is an occurrence that no other one precedes; the next cut is looked for behind
  it. `Cuts` are all of them, `pieces` what stands between them.
-/

namespace Loom.Occurrences

open List

variable {α : Type*} {pattern text : List α}

def At (pattern text : List α) (offset : Nat) : Prop := pattern <+: text.drop offset

/-- The leftmost occurrence from `start` on. -/
structure First (pattern text : List α) (start offset : Nat) : Prop where
  behind : start ≤ offset
  here : At pattern text offset
  before : ∀ earlier, start ≤ earlier → earlier < offset → ¬At pattern text earlier

/-- The leftmost occurrences from `start` on that do not overlap. -/
inductive Cuts (pattern text : List α) : Nat → List Nat → Prop
  | last {start : Nat} (h : ∀ offset, start ≤ offset → ¬At pattern text offset) :
      Cuts pattern text start []
  | next {start offset : Nat} {offsets : List Nat} (h : First pattern text start offset)
      (rest : Cuts pattern text (offset + pattern.length) offsets) :
      Cuts pattern text start (offset :: offsets)

/-- What stands between the cuts, each of them `size` long. -/
def pieces (text : List α) (size : Nat) : Nat → List Nat → List (List α)
  | start, [] => [text.drop start]
  | start, offset :: offsets =>
    (text.drop start).take (offset - start) :: pieces text size (offset + size) offsets

theorem At.bound (hsome : pattern ≠ []) {offset : Nat} (h : At pattern text offset) :
    offset + pattern.length ≤ text.length := by
  have hlength := h.length_le
  have hpos := length_pos_of_ne_nil hsome
  rw [length_drop] at hlength; omega

theorem pieces_ne_nil (size start : Nat) (offsets : List Nat) :
    pieces text size start offsets ≠ [] := by
  cases offsets <;> exact cons_ne_nil _ _

theorem Cuts.intercalate {start : Nat} {offsets : List Nat} (h : Cuts pattern text start offsets) :
    pattern.intercalate (pieces text pattern.length start offsets) = text.drop start := by
  induction h with
  | last _ => exact intercalate_singleton
  | @next start offset offsets hfirst _ ih =>
    obtain ⟨rest, hrest⟩ := hfirst.here
    have hbehind : text.drop (offset + pattern.length) = rest := by
      rw [← drop_drop, ← hrest, drop_left]
    calc pattern.intercalate (pieces text pattern.length start (offset :: offsets))
      _ = (text.drop start).take (offset - start) ++ pattern ++
            pattern.intercalate (pieces text pattern.length (offset + pattern.length) offsets) :=
          intercalate_cons_of_ne_nil (pieces_ne_nil _ _ _)
      _ = (text.drop start).take (offset - start) ++ text.drop offset := by
          rw [ih, hbehind, append_assoc, hrest]
      _ = text.drop start := by
          have hoffset : text.drop offset = (text.drop start).drop (offset - start) := by
            rw [drop_drop, Nat.add_sub_cancel' hfirst.behind]
          rw [hoffset, take_append_drop]

theorem intercalate_cons (separator piece : List α) (others : List (List α)) :
    separator.intercalate (piece :: others) = piece ++ others.flatMap (separator ++ ·) := by
  induction others generalizing piece with
  | nil => rw [intercalate_singleton, flatMap_nil, append_nil]
  | cons next others ih =>
    rw [intercalate_cons_cons, ih, flatMap_cons, append_assoc, append_assoc]

end Loom.Occurrences

import Mathlib.Data.List.Basic
import Mathlib.Data.Int.Bitwise
import Mathlib.Data.Nat.Find
import Mathlib.Tactic.Positivity
import Mathlib.Tactic.Ring

/-
  Linear probing in a ring of cells.

  The path from a cell visits the cells behind it in order and starts again at
  the front of the ring. A search follows the path until it meets a cell it
  stops at; `Reachable` says that a search for a stop gets as far as a cell. A
  write of something that is no stop keeps every cell reachable.
-/

namespace Loom.Probing

open Nat List

variable {α β : Type*}

/-- The cell that the path from `start` visits after `i` steps. -/
def place (size start i : Nat) : Nat := (start + i) % size

section
variable {size start i target : Nat}

theorem place_lt (h : 0 < size) : place size start i < size := mod_lt _ h

theorem place_zero (h : start < size) : place size start 0 = start := mod_eq_of_lt h

theorem place_succ : (place size start i + 1) % size = place size start (i + 1) := by
  unfold place
  rw [mod_add_mod, add_assoc]

/-- One round of the path visits every cell. -/
theorem exists_place (hstart : start < size) (h : target < size) :
    ∃ i < size, place size start i = target := by
  unfold place
  by_cases hle : start ≤ target
  · refine ⟨target - start, by omega, ?_⟩
    rw [show start + (target - start) = target by omega]
    exact mod_eq_of_lt h
  · refine ⟨size - start + target, by omega, ?_⟩
    rw [show start + (size - start + target) = target + size by omega, add_mod_right]
    exact mod_eq_of_lt h

end

section
variable {cells : List α} {stop : α → Prop} {start target index : Nat} {cell : α}

/-- The path meets no stop before it gets to `target`. -/
def Reachable (cells : List α) (stop : α → Prop) (start target : Nat) : Prop :=
  ∃ i, place cells.length start i = target ∧
    ∀ j < i, ∀ cell, cells[place cells.length start j]? = some cell → ¬ stop cell

/-- The first stop of a path is met within one round. -/
theorem exists_first (stop : α → Prop) (hstart : start < cells.length)
    (hget : cells[target]? = some cell) (hstop : stop cell) :
    ∃ i < cells.length, (∃ c, cells[place cells.length start i]? = some c ∧ stop c) ∧
      ∀ j < i, ∀ c, cells[place cells.length start j]? = some c → ¬ stop c := by
  classical
  have htarget : target < cells.length := (List.getElem?_eq_some_iff.mp hget).1
  obtain ⟨i, hi, hplace⟩ := exists_place hstart htarget
  have hmeets : ∃ i, ∃ c, cells[place cells.length start i]? = some c ∧ stop c :=
    ⟨i, cell, by rw [hplace]; exact hget, hstop⟩
  refine ⟨Nat.find hmeets, ?_, Nat.find_spec hmeets, ?_⟩
  · have hle : Nat.find hmeets ≤ i :=
      Nat.find_min' hmeets ⟨cell, by rw [hplace]; exact hget, hstop⟩
    omega
  · intro j hj c hc hsc; exact Nat.find_min hmeets hj ⟨c, hc, hsc⟩

/-- Writing what is no stop moves no stop closer. -/
theorem Reachable.set (h : Reachable cells stop start target) (hcell : ¬ stop cell) :
    Reachable (cells.set index cell) stop start target := by
  obtain ⟨i, hplace, hclear⟩ := h
  refine ⟨i, by rw [length_set]; exact hplace, ?_⟩
  intro j hj c hc
  rw [length_set, getElem?_set] at hc
  split at hc
  · split at hc
    · cases hc
      exact hcell
    · cases hc
  · exact hclear j hj c hc

end

/-! ## Masks -/

/-- The low bits of a number are its remainder, also below zero. -/
theorem land_two_pow (value : Int) (k : Nat) :
    Int.land value (2 ^ k - 1) = value % 2 ^ k := by
  have hmask : (2 ^ k - 1 : Int) = ((2 ^ k - 1 : Nat) : Int) := by
    have : 0 < 2 ^ k := Nat.two_pow_pos k
    push_cast [cast_sub (show 1 ≤ 2 ^ k from this)]
    rfl
  rw [hmask]
  cases value with
  | ofNat n =>
    show Int.ofNat (n &&& (2 ^ k - 1)) = _
    rw [and_two_pow_sub_one_eq_mod]
    norm_cast
  | negSucc n =>
    show Int.ofNat (ldiff (2 ^ k - 1) n) = _
    have hpos : (0 : Int) < 2 ^ k := by positivity
    rw [Int.negSucc_emod _ hpos]
    have hlow : ldiff (2 ^ k - 1) n = 2 ^ k - 1 - n % 2 ^ k := by
      apply eq_of_testBit_eq
      intro i
      have hmod : n % 2 ^ k < 2 ^ k := Nat.mod_lt _ (Nat.two_pow_pos k)
      rw [Nat.testBit_ldiff, Nat.testBit_two_pow_sub_one, Nat.sub_sub, Nat.add_comm 1,
        testBit_two_pow_sub_succ hmod, testBit_mod_two_pow]
      cases decide (i < k) <;> simp
    rw [hlow, Int.ofNat_eq_natCast, cast_sub (by omega), ← hmask]
    push_cast
    ring

/-! ## What a list shows -/

/-- One written cell: what the cell showed before is exchanged for what it shows now. -/
theorem filterMap_set (show? : α → Option β) {cells : List α} {index : Nat} {old : α} (new : α)
    (h : cells[index]? = some old) :
    ((show? old).toList ++ (cells.set index new).filterMap show?).Perm
      ((show? new).toList ++ cells.filterMap show?) := by
  induction cells generalizing index with
  | nil => cases h
  | cons cell rest ih =>
    cases index with
    | zero =>
      obtain rfl : cell = old := by simpa using h
      have hcons : ∀ (c : α), (c :: rest).filterMap show? =
          (show? c).toList ++ rest.filterMap show? := by
        intro c
        cases hc : show? c <;> simp [hc]
      rw [set_cons_zero, hcons, hcons, ← append_assoc, ← append_assoc]
      exact perm_append_comm.append_right _
    | succ index =>
      have hrest := ih (show rest[index]? = some old by simpa using h)
      rw [set_cons_succ]
      cases hcell : show? cell with
      | none => simpa [hcell] using hrest
      | some b =>
        rw [filterMap_cons_some hcell, filterMap_cons_some hcell]
        exact (perm_middle.trans (hrest.cons b)).trans perm_middle.symm

end Loom.Probing

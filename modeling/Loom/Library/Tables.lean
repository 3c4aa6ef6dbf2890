import Mathlib.Algebra.BigOperators.Group.Finset.Basic
import Mathlib.Algebra.Order.BigOperators.Group.Finset
import Mathlib.Tactic.Common

/-
  Maps from identities to values, as partial functions.
-/

namespace Loom.Tables

open Finset

variable {ι α β : Type*}

section
variable [DecidableEq ι] {table : ι → Option α} {id other : ι} {value : α}

def put (table : ι → Option α) (id : ι) (value : α) : ι → Option α :=
  fun other => if other = id then some value else table other

def drop (table : ι → Option α) (id : ι) : ι → Option α :=
  fun other => if other = id then none else table other

@[grind =] theorem put_apply :
    put table id value other = if other = id then some value else table other := rfl

@[grind =] theorem drop_apply :
    drop table id other = if other = id then none else table other := rfl

@[simp] theorem put_self : put table id value id = some value := by simp [put]

@[simp] theorem drop_self : drop table id id = none := by simp [drop]

theorem put_of_ne (h : other ≠ id) : put table id value other = table other := by simp [put, h]

theorem drop_of_ne (h : other ≠ id) : drop table id other = table other := by simp [drop, h]

/-- An entry replaced by the one that is there. -/
theorem put_eq_self (h : table id = some value) : put table id value = table := by
  funext other
  by_cases hother : other = id
  · rw [hother, put_self, h]
  · rw [put_of_ne hother]

/-- An edit of an entry that is there adds none. -/
theorem put_none {old : α} (hid : table id = some old) (hother : table other = none) :
    put table id value other = none := by
  have hne : other ≠ id := by
    intro hsame
    rw [hsame, hid] at hother; simp at hother
  rw [put_of_ne hne, hother]

theorem put_put {value' : α} : put (put table id value) id value' = put table id value' := by
  funext other
  by_cases hother : other = id <;> simp [put, hother]

theorem drop_put_of_ne {key : ι} (h : key ≠ id) :
    drop (put table key value) id = put (drop table id) key value := by
  funext other
  by_cases hkey : other = key
  · rw [hkey, put_self, drop_of_ne h, put_self]
  · by_cases hother : other = id
    · rw [put_of_ne hkey, hother, drop_self, drop_self]
    · rw [put_of_ne hkey, drop_of_ne hother, put_of_ne hkey, drop_of_ne hother]

/-- What a function says of every entry. -/
def view (f : α → β) (table : ι → Option α) : ι → Option β := fun id => (table id).map f

section
variable {f : α → β} {old : α}

omit [DecidableEq ι] in
theorem view_some (h : table id = some value) : view f table id = some (f value) := by
  simp [view, h]

omit [DecidableEq ι] in
theorem eq_of_view {seen : β} (h : table id = some value) (hseen : view f table id = some seen) :
    seen = f value := Option.some.inj (hseen.symm.trans (view_some h))

omit [DecidableEq ι] in
theorem view_none (h : table id = none) : view f table id = none := by simp [view, h]

omit [DecidableEq ι] in
theorem view_eq_some {seen : β} :
    view f table id = some seen ↔ ∃ value, table id = some value ∧ f value = seen := by
  simp [view]

theorem view_put : view f (put table id value) = put (view f table) id (f value) := by
  funext other
  by_cases hother : other = id <;> simp [view, put, hother]

theorem view_drop : view f (drop table id) = drop (view f table) id := by
  funext other
  by_cases hother : other = id <;> simp [view, drop, hother]

/-- An edit that the function does not see. -/
theorem view_put_same (h : table id = some old) (hsame : f value = f old) :
    view f (put table id value) = view f table := by
  rw [view_put, hsame, put_eq_self (view_some h)]

end

end

/-! ## Sums over the entries below a limit -/

section
variable {table table' : Nat → Option α} {id limit : Nat} {value old : α} {measure : α → Nat}

def weight (measure : α → Nat) : Option α → Nat
  | some value => measure value
  | none => 0

def tally (measure : α → Nat) (table : Nat → Option α) (limit : Nat) : Nat :=
  ∑ id ∈ range limit, weight measure (table id)

/-- The entry taken out of the sum. -/
theorem tally_split (measure : α → Nat) (table : Nat → Option α) (h : id < limit) :
    tally measure table limit = weight measure (table id) +
        ∑ other ∈ (range limit).erase id, weight measure (table other) :=
  (add_sum_erase _ (fun other => weight measure (table other)) (mem_range.mpr h)).symm

/-- Two tables that agree but for one entry. -/
theorem tally_agree (measure : α → Nat) (h : id < limit)
    (hagree : ∀ other ≠ id, table' other = table other) :
    tally measure table' limit + weight measure (table id) =
      tally measure table limit + weight measure (table' id) := by
  have hrest : ∑ other ∈ (range limit).erase id, weight measure (table' other) =
      ∑ other ∈ (range limit).erase id, weight measure (table other) := by
    apply sum_congr rfl
    intro other hother
    rw [hagree other (ne_of_mem_erase hother)]
  rw [tally_split measure table' h, tally_split measure table h]; omega

theorem tally_put (measure : α → Nat) (value : α) (hold : table id = some old) (h : id < limit) :
    tally measure (put table id value) limit + measure old =
      tally measure table limit + measure value := by
  have hedit := tally_agree measure h
    (fun _ (hne : _ ≠ id) => (put_of_ne hne : put table id value _ = table _))
  simpa [hold, weight] using hedit

theorem tally_insert (measure : α → Nat) (value : α) (hnone : table id = none) (h : id < limit) :
    tally measure (put table id value) limit = tally measure table limit + measure value := by
  have hedit := tally_agree measure h
    (fun _ (hne : _ ≠ id) => (put_of_ne hne : put table id value _ = table _))
  simpa [hnone, weight] using hedit

theorem tally_drop (measure : α → Nat) (hold : table id = some old) (h : id < limit) :
    tally measure (drop table id) limit + measure old = tally measure table limit := by
  have hedit := tally_agree measure h (fun _ (hne : _ ≠ id) => (drop_of_ne hne : drop table id _ = table _))
  simpa [hold, weight] using hedit

theorem tally_succ (measure : α → Nat) (hnone : table limit = none) :
    tally measure table (limit + 1) = tally measure table limit := by
  rw [tally, sum_range_succ, hnone]; rfl

theorem le_tally (measure : α → Nat) (hold : table id = some old) (h : id < limit) :
    measure old ≤ tally measure table limit := by
  rw [tally_split measure table h, hold]; exact Nat.le_add_right _ _

theorem exists_of_tally (h : tally measure table limit ≠ 0) :
    ∃ id < limit, ∃ value, table id = some value ∧ measure value ≠ 0 := by
  obtain ⟨id, hid, hweight⟩ := exists_ne_zero_of_sum_ne_zero h
  refine ⟨id, mem_range.mp hid, ?_⟩
  cases hentry : table id with
  | none => simp [hentry, weight] at hweight
  | some value => exact ⟨value, rfl, by simpa [hentry, weight] using hweight⟩

theorem tally_empty : tally measure (fun _ => (none : Option α)) limit = 0 := by
  simp [tally, weight]

end

end Loom.Tables

import Mathlib.Data.List.Basic
import Mathlib.Tactic.Common

/-
  A table of reusable slots, each under a generation.

  A handle into the table is a key with the generation it was given. Freed
  slots wait in a stack and are given out again under the next generation, so
  that an old handle names nothing.
-/

namespace Loom.Slots

open List

variable {α : Type*}

structure Slot (α : Type*) where
  generation : Nat
  occupant : Option α
  deriving DecidableEq

/-- The slots, and the keys of the free ones, the next to use first. -/
structure Table (α : Type*) where
  slots : List (Slot α)
  free : List Nat
  deriving DecidableEq

def empty : Table α := ⟨[], []⟩

/-- The generation a key was last given out under, zero before the first. -/
def generationOf (t : Table α) (key : Nat) : Nat :=
  match t.slots[key]? with
  | some slot => slot.generation
  | none => 0

def lookup (t : Table α) (key generation : Nat) : Option α :=
  match t.slots[key]? with
  | some slot => if slot.generation = generation then slot.occupant else none
  | none => none

def nextKey (t : Table α) : Nat := t.free.head?.getD t.slots.length

/-- Give out the next key under the next generation, below the limit. -/
def insert (limit : Nat) (t : Table α) (value : α) : Option ((Nat × Nat) × Table α) :=
  let key := nextKey t
  let generation := generationOf t key + 1
  if generation < limit then
    let slot : Slot α := ⟨generation, some value⟩
    if key = t.slots.length then some ((key, generation), ⟨t.slots ++ [slot], t.free⟩)
    else some ((key, generation), ⟨t.slots.set key slot, t.free.tail⟩)
  else none

/-- Take the occupant out of a slot and free it. -/
def remove (t : Table α) (key : Nat) : Option (α × Table α) :=
  match t.slots[key]? with
  | some ⟨generation, some value⟩ =>
    some (value, ⟨t.slots.set key ⟨generation, none⟩, key :: t.free⟩)
  | _ => none

/-- The free keys are the unoccupied slots, each once. -/
structure Wf (t : Table α) : Prop where
  nodup : t.free.Nodup
  free_iff : ∀ {key}, key ∈ t.free ↔ ∃ generation, t.slots[key]? = some ⟨generation, none⟩

theorem wf_empty : Wf (empty : Table α) := by
  refine ⟨nodup_nil, ?_⟩
  simp [empty]

section
variable {t t' : Table α} {key generation limit : Nat} {value : α}

theorem lookup_eq_some_iff :
    lookup t key generation = some value ↔ t.slots[key]? = some ⟨generation, some value⟩ := by
  unfold lookup
  cases hslot : t.slots[key]? with
  | none => simp
  | some slot =>
    obtain ⟨current, occupant⟩ := slot
    by_cases hsame : current = generation <;> simp

/-- The next key is the top of the stack, or a new slot where it is empty. -/
theorem nextKey_cases (hwf : Wf t) : (nextKey t = t.slots.length ∧ t.free = []) ∨
    (nextKey t < t.slots.length ∧ t.free = nextKey t :: t.free.tail ∧
      ∃ old, t.slots[nextKey t]? = some ⟨old, none⟩) := by
  cases hfree : t.free with
  | nil =>
    simp [nextKey, hfree]
  | cons key rest =>
    right
    have hkey : nextKey t = key := by simp [nextKey, hfree]
    obtain ⟨old, hslot⟩ := hwf.free_iff.mp (by rw [hfree]; exact .head _)
    rw [hkey]; exact ⟨(List.getElem?_eq_some_iff.mp hslot).1, rfl, old, hslot⟩

theorem slots_insert (hwf : Wf t) (h : insert limit t value = some ((key, generation), t')) :
    key = nextKey t ∧ generation = generationOf t key + 1 ∧ (∀ other, t'.slots[other]? =
      if other = key then some ⟨generation, some value⟩ else t.slots[other]?) ∧
    (t'.free = t.free ∧ t.free = [] ∨ t.free = key :: t'.free) := by
  simp only [insert] at h
  split at h
  · next hlimit =>
    obtain ⟨hnext, hempty⟩ | ⟨hnext, hcons, -⟩ := nextKey_cases hwf
    · rw [if_pos hnext] at h
      simp only [Option.some.injEq, Prod.mk.injEq] at h
      obtain ⟨⟨hkey, hgeneration⟩, htable⟩ := h
      subst htable
      rw [← hkey, ← hgeneration]
      refine ⟨rfl, rfl, ?_, .inl ⟨rfl, hempty⟩⟩
      intro other
      rw [getElem?_append, hnext]
      by_cases hlast : other = t.slots.length
      · simp [hlast]
      · split
        · rfl
        · next hlt =>
          rw [getElem?_eq_none (by simp; omega), getElem?_eq_none (by omega)]
    · rw [if_neg (Nat.ne_of_lt hnext)] at h
      simp only [Option.some.injEq, Prod.mk.injEq] at h
      obtain ⟨⟨hkey, hgeneration⟩, htable⟩ := h
      subst htable
      rw [← hkey, ← hgeneration]
      refine ⟨rfl, rfl, ?_, .inr hcons⟩
      intro other
      by_cases hsame : other = nextKey t
      · simp [hsame, hnext]
      · simp [hsame, getElem?_set_ne (Ne.symm hsame)]
  · cases h

theorem lookup_nextKey (hwf : Wf t) (generation : Nat) :
    lookup t (nextKey t) generation = none := by
  unfold lookup
  obtain ⟨hnext, -⟩ | ⟨-, -, old, hslot⟩ := nextKey_cases hwf
  · rw [hnext, getElem?_eq_none (Nat.le_refl _)]
  · simp [hslot]

section
variable (hwf : Wf t) (h : insert limit t value = some ((key, generation), t'))
include hwf h

theorem lookup_insert (other current : Nat) : lookup t' other current =
      if other = key ∧ current = generation then some value else lookup t other current := by
  obtain ⟨hkey, -, hslots, -⟩ := slots_insert hwf h
  by_cases hsame : other = key
  · subst hsame
    have hnone : lookup t other current = none := by
      rw [hkey]; exact lookup_nextKey hwf current
    rw [hnone]; simp [lookup, hslots, eq_comm]
  · simp [lookup, hslots, hsame]

theorem generationOf_insert (other : Nat) :
    generationOf t' other = if other = key then generation else generationOf t other := by
  obtain ⟨-, -, hslots, -⟩ := slots_insert hwf h
  unfold generationOf
  rw [hslots]
  by_cases hsame : other = key <;> simp [hsame]

/-- The generation given out is above every one the key had. -/
theorem insert_fresh : generation = generationOf t key + 1 := (slots_insert hwf h).2.1

theorem Wf.insert : Wf t' := by
  obtain ⟨hkey, -, hslots, hfree⟩ := slots_insert hwf h
  have hold : ∀ other, other ∈ t'.free ↔ other ∈ t.free ∧ other ≠ key := by
    intro other
    obtain ⟨hsame, hempty⟩ | hcons := hfree
    · simp [hsame, hempty]
    · have hnodup := hwf.nodup
      rw [hcons, nodup_cons] at hnodup
      rw [hcons, mem_cons]
      refine ⟨?_, ?_⟩
      · intro hmem; exact ⟨.inr hmem, fun heq => hnodup.1 (heq ▸ hmem)⟩
      · intro hmem; exact hmem.1.resolve_left hmem.2
  refine ⟨?_, ?_⟩
  · obtain ⟨hsame, -⟩ | hcons := hfree
    · rw [hsame]; exact hwf.nodup
    · have hnodup := hwf.nodup
      rw [hcons, nodup_cons] at hnodup; exact hnodup.2
  · intro other
    rw [hold, hwf.free_iff, hslots]
    by_cases hsame : other = key <;> simp [hsame]

end

/-- What `remove` does where the handle finds its value. -/
theorem remove_eq (h : lookup t key generation = some value) :
    remove t key = some (value, ⟨t.slots.set key ⟨generation, none⟩, key :: t.free⟩) := by
  unfold remove
  rw [lookup_eq_some_iff.mp h]

section
variable (h : lookup t key generation = some value) (hremove : remove t key = some (value, t'))
include h hremove

theorem slots_remove (other : Nat) :
    t'.slots[other]? = if other = key then some ⟨generation, none⟩ else t.slots[other]? := by
  rw [remove_eq h] at hremove
  simp only [Option.some.injEq, Prod.mk.injEq, true_and] at hremove
  subst hremove
  have hlt := (List.getElem?_eq_some_iff.mp (lookup_eq_some_iff.mp h)).1
  by_cases hsame : other = key
  · simp [hsame, hlt]
  · simp [hsame, getElem?_set_ne (Ne.symm hsame)]

theorem lookup_remove (other current : Nat) : lookup t' other current =
      if other = key ∧ current = generation then none else lookup t other current := by
  unfold lookup
  rw [slots_remove h hremove]
  by_cases hsame : other = key
  · rw [hsame, lookup_eq_some_iff.mp h]
    by_cases hgeneration : generation = current <;> simp [eq_comm]
  · simp [hsame]

theorem generationOf_remove (other : Nat) : generationOf t' other = generationOf t other := by
  unfold generationOf
  rw [slots_remove h hremove]
  by_cases hsame : other = key
  · simp [hsame, lookup_eq_some_iff.mp h]
  · simp [hsame]

end

theorem Wf.remove (hwf : Wf t) (h : lookup t key generation = some value)
    (hremove : remove t key = some (value, t')) : Wf t' := by
  have hslots := slots_remove h hremove
  have hfree : t'.free = key :: t.free := by
    rw [remove_eq h] at hremove
    simp only [Option.some.injEq, Prod.mk.injEq, true_and] at hremove
    rw [← hremove]
  have hoccupied : key ∉ t.free := by
    intro hmem
    obtain ⟨current, hslot⟩ := hwf.free_iff.mp hmem
    rw [lookup_eq_some_iff.mp h] at hslot
    cases hslot
  refine ⟨?_, ?_⟩
  · rw [hfree]; exact nodup_cons.mpr ⟨hoccupied, hwf.nodup⟩
  · intro other
    rw [hfree, mem_cons, hwf.free_iff, hslots]
    by_cases hsame : other = key <;> simp [hsame]

end

end Loom.Slots

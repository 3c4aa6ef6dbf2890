import Mathlib.Algebra.Ring.Parity
import Mathlib.Data.List.Perm.Basic

/-
  Items that a comparison puts into groups, and the groups of odd size.

  An item joins the first group whose head it is the same as, or begins a group. The
  comparison need not be an equivalence; where it is one, the heads that are left of the
  groups of odd size stand for the items that occur an odd number of times.
-/

namespace Loom.Groups

open List Prod

variable {α : Type*}

/-- A group is the item it began with and those that joined it. -/
def add (same : α → α → Bool) (value : α) : List (α × List α) → List (α × List α)
  | [] => [(value, [])]
  | (head, others) :: groups =>
    if same value head then (head, value :: others) :: groups
    else (head, others) :: add same value groups

/-- All items of the groups. -/
def members (groups : List (α × List α)) : List α := groups.flatMap fun group => group.1 :: group.2

def oddHead (group : α × List α) : Bool := group.2.length % 2 == 0

/-- The heads of the groups of odd size. -/
def odd (groups : List (α × List α)) : List α := (groups.filter oddHead).map fst

structure Grouped (same : α → α → Bool) (items : List α) (groups : List (α × List α)) : Prop where
  all : (members groups).Perm items
  joined : ∀ group ∈ groups, ∀ item ∈ group.2, same item group.1 = true
  apart : (groups.map fst).Pairwise fun first later => same later first = false

section
variable {same : α → α → Bool} {items : List α} {groups : List (α × List α)}

theorem members_add (value : α) (groups : List (α × List α)) :
    (members (add same value groups)).Perm (value :: members groups) := by
  induction groups with
  | nil => exact List.Perm.refl _
  | cons group groups ih =>
    unfold add
    split
    · exact List.Perm.swap _ _ _
    · exact (ih.append_left (group.1 :: group.2)).trans perm_middle

theorem add_joined (value : α) (h : ∀ group ∈ groups, ∀ item ∈ group.2, same item group.1 = true) :
    ∀ group ∈ add same value groups, ∀ item ∈ group.2, same item group.1 = true := by
  induction groups with
  | nil => simp [add]
  | cons group groups ih =>
    obtain ⟨hfirst, hrest⟩ := forall_mem_cons.mp h
    unfold add
    split
    next hsame => exact forall_mem_cons.mpr ⟨forall_mem_cons.mpr ⟨hsame, hfirst⟩, hrest⟩
    next => exact forall_mem_cons.mpr ⟨hfirst, ih hrest⟩

/-- The heads stay, or the item is a new one that is the same as none of them. -/
theorem add_heads (value : α) (groups : List (α × List α)) :
    (add same value groups).map fst = groups.map fst ∨
      (add same value groups).map fst = groups.map fst ++ [value] ∧
        ∀ head ∈ groups.map fst, same value head = false := by
  induction groups with
  | nil => exact .inr ⟨rfl, by simp⟩
  | cons group groups ih =>
    unfold add
    split
    next => exact .inl rfl
    next hsame =>
      obtain hkept | ⟨hnew, hnone⟩ := ih
      · exact .inl (congrArg (group.1 :: ·) hkept)
      · exact .inr ⟨congrArg (group.1 :: ·) hnew,
          forall_mem_cons.mpr ⟨by simpa using hsame, hnone⟩⟩

theorem Grouped.add (h : Grouped same items groups) (value : α) :
    Grouped same (items ++ [value]) (add same value groups) := by
  refine ⟨?_, add_joined value h.joined, ?_⟩
  · refine (members_add value groups).trans ((h.all.cons value).trans ?_)
    exact (perm_append_singleton value items).symm
  · obtain hkept | ⟨hnew, hnone⟩ := @add_heads _ same value groups
    · rw [hkept]; exact h.apart
    · rw [hnew, pairwise_append]
      exact ⟨h.apart, pairwise_singleton _ _, fun head hhead later hlater => by
        rw [mem_singleton.mp hlater]; exact hnone head hhead⟩

end

end Loom.Groups

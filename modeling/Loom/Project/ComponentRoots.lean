import Loom.Project.Components

/-
  The graph of package identities as a partition.

  Two identities are in one part when the pairs that were joined connect them. Finding
  a root takes no more turns than there are packages.
-/

namespace Loom.Components

open Texts Packages Partitions Relation List Nat Function

/-! ## Parents -/

/-- The parent of a node; outside the list a node is its own one. -/
def up (parents : List Nat) (i : Nat) : Nat := parents[i]?.getD i

/-- Parents are nodes. -/
def InRange (parents : List Nat) : Prop := ∀ i < parents.length, up parents i < parents.length

theorem up_push (parents : List Nat) : up (parents ++ [parents.length]) = up parents := by
  funext i
  unfold up
  obtain hlt | hsame | hgt := lt_trichotomy i parents.length
  · rw [getElem?_append_left hlt]
  · simp [hsame]
  · have hout : (parents ++ [parents.length]).length ≤ i := by
      rw [length_append, length_singleton]; omega
    rw [getElem?_eq_none hout, getElem?_eq_none (le_of_lt hgt)]

variable {parents : List Nat} {i root : Nat}

theorem up_set (h : i < parents.length) (value : Nat) :
    up (parents.set i value) = update (up parents) i value := by
  funext j
  unfold up
  by_cases hsame : j = i
  · subst hsame
    rw [update_self, getElem?_set_self h, Option.getD_some]
  · rw [update_of_ne hsame, getElem?_set_ne (Ne.symm hsame)]

theorem getElem?_up (h : i < parents.length) : parents[i]? = some (up parents i) := by
  rw [up, getElem?_eq_getElem h, Option.getD_some]

theorem InRange.set {parents : List Nat} (h : InRange parents) (i : Nat) {value : Nat}
    (hvalue : value < parents.length) : InRange (parents.set i value) := by
  intro j hj
  rw [length_set] at hj ⊢
  by_cases hi : i < parents.length
  · rw [up_set hi]
    by_cases hsame : j = i
    · rwa [hsame, update_self]
    · rw [update_of_ne hsame]; exact h j hj
  · rw [set_eq_of_length_le (not_lt.mp hi)]; exact h j hj

theorem InRange.climb_lt (h : InRange parents) {n : Nat} (hi : i < parents.length)
    (hclimb : Climb (up parents) n i root) : n < parents.length := by
  have hcard := hclimb.lt_card (Finset.range parents.length) (Finset.mem_range.mpr hi)
    (fun node hnode => Finset.mem_range.mpr (h node (Finset.mem_range.mp hnode)))
  rwa [Finset.card_range] at hcard

theorem InRange.root_lt (h : InRange parents) (hi : i < parents.length)
    (hroot : Root (up parents) i root) : root < parents.length :=
  Finset.mem_range.mp (hroot.mem (Finset.range parents.length) (Finset.mem_range.mpr hi)
    (fun node hnode => Finset.mem_range.mpr (h node (Finset.mem_range.mp hnode))))

/-! ## Finding a root -/

theorem climb_eq (hrange : InRange parents) {n : Nat} (h : Climb (up parents) n i root)
    {turns : Nat} (hturns : n < turns) (hi : i < parents.length) :
    climb turns parents i = .ok root := by
  induction h generalizing turns with
  | here hfixed =>
    obtain ⟨turns, rfl⟩ := exists_eq_succ_of_ne_zero (ne_of_gt hturns)
    rw [climb, getElem?_up hi, hfixed]; exact if_pos rfl
  | above hne _ ih =>
    obtain ⟨turns, rfl⟩ := Nat.exists_eq_succ_of_ne_zero (Nat.ne_zero_of_lt hturns)
    rw [climb, getElem?_up hi]
    exact (if_neg hne).trans (ih (by omega) (hrange _ hi))

/-- What lists of parents with the same roots have in common. -/
structure Compressed (before after : List Nat) : Prop where
  length : after.length = before.length
  range : InRange before → InRange after
  roots : ∀ {i root}, Root (up before) i root → Root (up after) i root

theorem Compressed.refl (parents : List Nat) : Compressed parents parents := ⟨rfl, id, id⟩

theorem Compressed.trans {first second third : List Nat} (h : Compressed first second)
    (hnext : Compressed second third) : Compressed first third :=
  ⟨hnext.length.trans h.length, hnext.range ∘ h.range, hnext.roots ∘ h.roots⟩

theorem Compressed.set {parents : List Nat} {i root : Nat} (hrange : InRange parents)
    (hi : i < parents.length) (h : Root (up parents) i root) :
    Compressed parents (parents.set i root) := by
  refine ⟨length_set, fun _ => hrange.set i (hrange.root_lt hi h), ?_⟩
  intro j other hother
  rw [up_set hi]; exact hother.shorten h

theorem compress_spec (n : Nat) :
    ∀ {parents : List Nat} {current turns : Nat}, InRange parents → current < parents.length →
      Climb (up parents) n current root → n < turns →
      ∃ after, compress turns parents root current = .ok after ∧ Compressed parents after := by
  induction n using Nat.strongRecOn with
  | ind n ih =>
    intro parents current turns hrange hcurrent hclimb hturns
    obtain ⟨turns, rfl⟩ := Nat.exists_eq_succ_of_ne_zero (Nat.ne_zero_of_lt hturns)
    by_cases hsame : current = root
    · exact ⟨parents, by rw [compress, if_pos hsame], .refl parents⟩
    have hroot := hclimb.root
    have hset := Compressed.set hrange hcurrent hroot
    cases hclimb with
    | here _ => exact absurd rfl hsame
    | @above n _ _ hne hrest =>
      -- the rest of the chain does not grow when the node gets its root as a parent
      obtain ⟨m, hm, hshort⟩ := hrest.shorten hroot
      rw [← up_set hcurrent] at hshort
      obtain ⟨after, hrun, hafter⟩ := ih m (by omega) (hset.range hrange)
        (by rw [hset.length]; exact hrange _ hcurrent) hshort (show m < turns by omega)
      refine ⟨after, ?_, hset.trans hafter⟩
      rw [compress, if_neg hsame, getElem?_up hcurrent]; exact hrun

theorem componentRoot_spec (hrange : InRange parents) (hgrounded : Grounded (up parents))
    {index : Nat} (hindex : index < parents.length) :
    ∃ root after, componentRoot parents index = .ok (root, after) ∧
      Root (up parents) index root ∧ Compressed parents after := by
  obtain ⟨root, hroot⟩ := hgrounded index
  obtain ⟨n, hclimb⟩ := hroot.exists_climb
  have hn := hrange.climb_lt hindex hclimb
  obtain ⟨after, hcompress, hafter⟩ := compress_spec n hrange hindex hclimb hn
  refine ⟨root, after, ?_, hroot, hafter⟩
  rw [componentRoot, climb_eq hrange hclimb hn hindex, Results.ok_bind, hcompress]
  rfl

/-! ## Parts -/

/-- The graph holds the parts of the pairs `E`. -/
structure Represents (graph : PackageComponents)
    (E : DependencyPackage → DependencyPackage → Prop) : Prop where
  size : graph.parents.length = graph.packages.length
  range : InRange graph.parents
  grounded : Grounded (up graph.parents)
  nodup : graph.packages.Nodup
  ends : ∀ {p q}, E p q → p ∈ graph.packages ∧ q ∈ graph.packages
  same : ∀ {i j p q}, graph.packages[i]? = some p → graph.packages[j]? = some q →
    (Same (up graph.parents) i j ↔ EqvGen E p q)

/-- Nodes keep their numbers and their roots. -/
structure Grows (graph after : PackageComponents) : Prop where
  packages : graph.packages <+: after.packages
  roots : ∀ {i root}, Root (up graph.parents) i root → Root (up after.parents) i root

theorem Grows.refl (graph : PackageComponents) : Grows graph graph := ⟨prefix_rfl, id⟩

theorem Grows.trans {first second third : PackageComponents} (h : Grows first second)
    (hnext : Grows second third) : Grows first third :=
  ⟨h.packages.trans hnext.packages, hnext.roots ∘ h.roots⟩

theorem getElem?_prefix {α : Type} {values more : List α} (h : values <+: more) {value : α}
    (hvalue : values[i]? = some value) : more[i]? = some value := by
  obtain ⟨rest, rfl⟩ := h
  obtain ⟨hlt, -⟩ := List.getElem?_eq_some_iff.mp hvalue
  rwa [getElem?_append_left hlt]

theorem represents_empty : Represents ⟨[], []⟩ fun _ _ => False where
  size := rfl
  range := fun _ h => absurd h (not_lt_zero _)
  grounded := fun i => ⟨i, .here rfl⟩
  nodup := nodup_nil
  ends := False.elim
  same := fun h _ => absurd h nofun

section
variable {graph : PackageComponents} {E : DependencyPackage → DependencyPackage → Prop}

theorem Represents.congr {E' : DependencyPackage → DependencyPackage → Prop} (h : Represents graph E)
    (hsame : ∀ p q, E p q ↔ E' p q) : Represents graph E' := by
  have heq : E = E' := by
    funext p q
    exact propext (hsame p q)
  rwa [← heq]

/-- Compressing changes no part. -/
theorem Represents.compressed {after : List Nat} (h : Represents graph E)
    (hafter : Compressed graph.parents after) : Represents { graph with parents := after } E where
  size := hafter.length.trans h.size
  range := hafter.range h.range
  grounded := fun i => (h.grounded i).imp fun _ hroot => hafter.roots hroot
  nodup := h.nodup
  ends := h.ends
  same := by
    intro i j p q hi hj
    obtain ⟨root, hroot⟩ := h.grounded i
    obtain ⟨other, hother⟩ := h.grounded j
    rw [← h.same hi hj, same_iff hroot, same_iff (hafter.roots hroot)]
    constructor
    · intro hsame
      rwa [hsame.unique (hafter.roots hother)]
    · exact fun hsame => hafter.roots hsame

/-- A package that no pair names is a part of its own. -/
theorem eqvGen_isolated {α : Type} {R : α → α → Prop} {p q : α} (h : EqvGen R p q)
    (hisolated : ∀ {a b}, R a b → a ≠ p ∧ b ≠ p) : p = q := by
  have hboth : ∀ {a b}, EqvGen R a b → (a = p ↔ b = p) := by
    intro a b hab
    induction hab with
    | rel a b hab => exact iff_of_false (hisolated hab).1 (hisolated hab).2
    | refl _ => exact Iff.rfl
    | symm _ _ _ ih => exact ih.symm
    | trans _ _ _ _ _ ih ih' => exact ih.trans ih'
  exact ((hboth h).mp rfl).symm

theorem Represents.push (h : Represents graph E) {p : DependencyPackage} (hp : p ∉ graph.packages) :
    Represents ⟨graph.packages ++ [p], graph.parents ++ [graph.packages.length]⟩ E := by
  have hup : up (graph.parents ++ [graph.packages.length]) = up graph.parents := by
    rw [← h.size, up_push]
  have hself : up graph.parents graph.packages.length = graph.packages.length := by
    rw [up, getElem?_eq_none (le_of_eq h.size)]; rfl
  refine ⟨?_, ?_, ?_, ?_, ?_, ?_⟩
  · rw [length_append, length_append, h.size]; rfl
  · intro i hi
    rw [hup]
    rw [length_append] at hi ⊢
    obtain hlt | heq := Nat.lt_succ_iff_lt_or_eq.mp hi
    · exact lt_succ_of_lt (h.range i hlt)
    · rw [heq, h.size, hself]; exact lt_succ_self _
  · rw [hup]; exact h.grounded
  · exact nodup_append.mpr ⟨h.nodup, nodup_singleton p, by
      intro a ha b hb heq
      rw [mem_singleton] at hb
      exact hp (hb ▸ heq ▸ ha)⟩
  · intro a b hab
    exact ⟨mem_append_left _ (h.ends hab).1, mem_append_left _ (h.ends hab).2⟩
  · -- the new node is its own root, and no pair names it
    have hnode : ∀ {i q}, (graph.packages ++ [p])[i]? = some q →
        graph.packages[i]? = some q ∨ i = graph.packages.length ∧ q = p := by
      intro i q hq
      obtain hlt | hge := lt_or_ge i graph.packages.length
      · rw [getElem?_append_left hlt] at hq; exact .inl hq
      · rw [getElem?_append_right hge, getElem?_singleton] at hq
        split at hq
        case isTrue hzero => exact .inr ⟨by omega, (Option.some.inj hq).symm⟩
        case isFalse => cases hq
    have hisolated : ∀ {a b}, E a b → a ≠ p ∧ b ≠ p := by
      intro a b hab
      exact ⟨fun heq => hp (heq ▸ (h.ends hab).1), fun heq => hp (heq ▸ (h.ends hab).2)⟩
    have hapart : ∀ {i q}, graph.packages[i]? = some q →
        ¬Same (up graph.parents) i graph.packages.length := by
      intro i q hq hsame
      obtain ⟨hlt, -⟩ := List.getElem?_eq_some_iff.mp hq
      obtain ⟨root, hroot, hother⟩ := hsame
      rw [hother.unique (.here hself)] at hroot
      have hin := h.range.root_lt (by rw [h.size]; exact hlt) hroot
      rw [h.size] at hin; exact lt_irrefl _ hin
    have hne : ∀ {i q}, graph.packages[i]? = some q → q ≠ p :=
      fun hq heq => hp (heq ▸ mem_of_getElem? hq)
    intro i j a b hi hj
    rw [hup]
    obtain hold | ⟨rfl, rfl⟩ := hnode hi <;> obtain hold' | ⟨rfl, rfl⟩ := hnode hj
    · exact h.same hold hold'
    · refine iff_of_false (hapart hold) ?_
      intro hall
      exact hne hold (eqvGen_isolated (hall.symm _ _) hisolated).symm
    · refine iff_of_false (fun hsame => hapart hold' ((same_equivalence h.grounded).symm hsame)) ?_
      intro hall; exact hne hold' (eqvGen_isolated hall hisolated).symm
    · exact iff_of_true ((same_equivalence h.grounded).refl _) (.refl _)

end

end Loom.Components

import Mathlib.Data.Fintype.Card
import Mathlib.Data.List.Perm.Subperm
import Mathlib.Data.Set.Finite.Basic
import Mathlib.Order.WellFounded
import Mathlib.Tactic.Common

/-
  Taking the vertices of a multigraph whose incoming edges have all been counted down.

  A vertex is ready when no edge that is still to be counted leads to it. The vertices
  that have been passed are ready ones, and their edges have been counted down, each as
  often as it occurs. `Released` is what holds at every moment of such a walk.
-/

namespace Loom.Precedence

open Relation List

variable {V : Type} (next : V → List V)

def Edge (source target : V) : Prop := target ∈ next source

/-- `later` are the targets of the edges that are still to be counted down. -/
structure Released (vertices later ready : List V) : Prop where
  nodup : ready.Nodup
  within : ∀ v ∈ ready, v ∈ vertices
  free : ∀ v ∈ vertices, v ∈ ready ↔ v ∉ later
  grounded : ∀ v ∈ ready, Acc (Edge next) v

variable {next} {vertices passed later ready : List V} {source target : V}

theorem Released.perm (h : Released next vertices later ready) {others : List V}
    (hperm : later.Perm others) : Released next vertices others ready where
  nodup := h.nodup
  within := h.within
  free v hv := by rw [h.free v hv, hperm.mem_iff]
  grounded := h.grounded

/-- An edge is counted down to a vertex that others still lead to. -/
theorem Released.keep (h : Released next vertices (target :: later) ready)
    (hmore : target ∈ later) : Released next vertices later ready where
  nodup := h.nodup
  within := h.within
  free v hv := by
    rw [h.free v hv, mem_cons, not_or]
    constructor
    · exact fun hnot => hnot.2
    · intro hnot; exact ⟨fun hsame => hnot (hsame ▸ hmore), hnot⟩
  grounded := h.grounded

/-- The last edge to a vertex is counted down: what leads to it has all been passed. -/
theorem Released.release (h : Released next vertices (target :: later) ready)
    (htarget : target ∈ vertices) (hlast : target ∉ later)
    (hsources : ∀ source, Edge next source target → source ∈ ready) :
    Released next vertices later (ready ++ [target]) where
  nodup := by
    have hnew : target ∉ ready := by simp [h.free target htarget]
    rw [nodup_append]
    refine ⟨h.nodup, nodup_singleton _, ?_⟩
    intro v hv other hother hsame
    rw [mem_singleton.mp hother] at hsame; exact hnew (hsame ▸ hv)
  within := by
    intro v hv
    obtain hready | hlast := mem_append.mp hv
    · exact h.within v hready
    · rwa [mem_singleton.mp hlast]
  free v hv := by
    rw [mem_append, mem_singleton, h.free v hv, mem_cons, not_or]
    constructor
    · rintro (hnot | rfl)
      · exact hnot.2
      · exact hlast
    · intro hnot
      by_cases hsame : v = target
      · exact .inr hsame
      · exact .inl ⟨hsame, hnot⟩
  grounded := by
    intro v hv
    obtain hready | hlast := mem_append.mp hv
    · exact h.grounded v hready
    · rw [mem_singleton.mp hlast]
      exact ⟨_, fun source hedge => h.grounded source (hsources source hedge)⟩

theorem Released.length_le (h : Released next vertices later ready) :
    ready.length ≤ vertices.length :=
  (h.nodup.subperm h.within).length_le

/-- Nothing goes round through a vertex that is reached in finitely many steps. -/
theorem not_cycle (h : Acc (Edge next) source) : ¬TransGen (Edge next) source source := by
  have hclosed := h.transGen
  clear h
  induction hclosed with
  | intro v _ ih => exact fun hcycle => ih v hcycle hcycle

/-- Without a cycle, every vertex of a finite graph is reached in finitely many steps. -/
theorem grounded_of_acyclic (hedges : ∀ s t, Edge next s t → s ∈ vertices)
    (hacyclic : ¬∃ v, TransGen (Edge next) v v) (v : V) : Acc (Edge next) v := by
  let Before := fun s t : { v // v ∈ vertices } => TransGen (Edge next) s.val t.val
  have hfinite : Finite { v // v ∈ vertices } := finite_toSet vertices
  have hirrefl : Std.Irrefl Before := ⟨fun v hcycle => hacyclic ⟨v.val, hcycle⟩⟩
  have hwell : WellFounded Before := Finite.wellFounded_of_trans_of_irrefl _
  have hmember : ∀ s : { v // v ∈ vertices }, Acc (Edge next) s.val := by
    intro s
    induction s using hwell.induction with
    | _ s ih => exact ⟨_, fun t hedge => ih ⟨t, hedges t s.val hedge⟩ (.single hedge)⟩
  exact ⟨v, fun s hedge => hmember ⟨s, hedges s v hedge⟩⟩

/-! ## Passing vertices -/

section
variable [DecidableEq V]

/-- The targets of the edges of the vertices that have not been passed, each as often as it occurs. -/
def pending (next : V → List V) (vertices passed : List V) : List V :=
  (vertices.filter fun v => decide (v ∉ passed)).flatMap next

theorem mem_pending : target ∈ pending next vertices passed ↔
    ∃ source ∈ vertices, source ∉ passed ∧ Edge next source target := by
  simp [pending, Edge, and_assoc]

theorem pending_nil : pending next vertices [] = vertices.flatMap next := by
  simp [pending]

/-- What is passed no longer counts, the vertex that is passed now included. -/
theorem pending_pass (hnodup : vertices.Nodup) (hsource : source ∈ vertices) (hnew : source ∉ passed) :
    (pending next vertices passed).Perm
      (next source ++ pending next vertices (passed ++ [source])) := by
  have hperm : (vertices.filter fun v => decide (v ∉ passed)).Perm
      (source :: vertices.filter fun v => decide (v ∉ passed ++ [source])) := by
    apply (perm_ext_iff_of_nodup (hnodup.filter _) ?_).mpr
    · intro v
      by_cases hv : v = source
      · subst hv; simp [hsource, hnew]
      · simp [hv]
    · rw [nodup_cons]; exact ⟨by simp, hnodup.filter _⟩
  exact hperm.flatMap_right next

/-- All vertices have become ready exactly when there is no cycle. -/
theorem Released.complete_iff (hnodup : vertices.Nodup)
    (hedges : ∀ s t, Edge next s t → s ∈ vertices ∧ t ∈ vertices)
    (h : Released next vertices (pending next vertices ready) ready) :
    ready.length = vertices.length ↔ ¬∃ v, TransGen (Edge next) v v := by
  constructor
  · rintro hlength ⟨v, hcycle⟩
    have hperm := (h.nodup.subperm h.within).perm_of_length_le hlength.symm.le
    obtain ⟨t, hedge, -⟩ := TransGen.head'_iff.mp hcycle
    exact not_cycle (h.grounded v (hperm.mem_iff.mpr (hedges v t hedge).1)) hcycle
  · intro hacyclic
    have hall : ∀ v ∈ vertices, v ∈ ready := by
      intro v
      induction grounded_of_acyclic (fun s t hedge => (hedges s t hedge).1) hacyclic v with
      | intro v _ ih =>
        intro hv
        by_contra hmissing
        -- an edge to the vertex is left over, so its source is not ready either
        have hleft : v ∈ pending next vertices ready := by
          by_contra hnone
          exact hmissing ((h.free v hv).mpr hnone)
        obtain ⟨s, hs, hsource, hedge⟩ := mem_pending.mp hleft
        exact hsource (ih s hedge hs)
    exact Nat.le_antisymm h.length_le (hnodup.subperm hall).length_le

end

end Loom.Precedence

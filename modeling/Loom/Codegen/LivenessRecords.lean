import Loom.Codegen.LivenessPaths

/-
  What a visit of the planner records, and what it leaves alone.

  Every part of a body has its own name, so what a visit records under its
  names survives the visits of other parts. `Keeps` says what a visit leaves
  alone, `Agrees` that a final plan still holds what a visit recorded, and
  `Quiet` that nothing is recorded for the parts after which nothing is.
-/

namespace Loom.Codegen

open Liveness Settling List Function

/-! ## What a visit leaves alone -/

/-- A visit changes the plan at its own names only, each in its own role. -/
structure Keeps (names : List (Nat × Role)) (before after : Plan) : Prop where
  expressions : ∀ id, (id, .retiring) ∉ names → after.expressions id = before.expressions id
  entries : ∀ id, (id, .entered) ∉ names → after.entries id = before.entries id
  retired : ∀ id, (id, .statement) ∉ names → after.retired id = before.retired id
  restores : ∀ id, (id, .retiring) ∉ names → (id, .value) ∉ names →
    after.restores id = before.restores id

/-- The final plan holds, under these names, what this plan holds. -/
structure Agrees (names : List (Nat × Role)) (final plan : Plan) : Prop where
  expressions : ∀ id, (id, .retiring) ∈ names → final.expressions id = plan.expressions id
  entries : ∀ id, (id, .entered) ∈ names → final.entries id = plan.entries id
  retired : ∀ id, (id, .statement) ∈ names → final.retired id = plan.retired id
  restores : ∀ id, (id, .retiring) ∈ names ∨ (id, .value) ∈ names →
    final.restores id = plan.restores id

/-- Nothing is recorded under the names whose role is to have nothing. -/
structure Quiet (names : List (Nat × Role)) (final : Plan) : Prop where
  expressions : ∀ id, (id, .value) ∈ names → final.expressions id = none
  entries : ∀ id, (id, .body) ∈ names → final.entries id = none

theorem Keeps.refl (names : List (Nat × Role)) (plan : Plan) : Keeps names plan plan :=
  ⟨fun _ _ => rfl, fun _ _ => rfl, fun _ _ => rfl, fun _ _ _ => rfl⟩

variable {names : List (Nat × Role)} {final : Plan} {live : Live}

theorem Keeps.wider {more : List (Nat × Role)} {before after : Plan}
    (hkeeps : Keeps names before after) (hsub : names ⊆ more) : Keeps more before after :=
  ⟨fun id hid => hkeeps.expressions id fun hmem => hid (hsub hmem),
    fun id hid => hkeeps.entries id fun hmem => hid (hsub hmem),
    fun id hid => hkeeps.retired id fun hmem => hid (hsub hmem),
    fun id hretiring hvalue => hkeeps.restores id (fun hmem => hretiring (hsub hmem))
      fun hmem => hvalue (hsub hmem)⟩

theorem Keeps.single {id : Nat} {role : Role} {names : List (Nat × Role)} {before after : Plan}
    (hkeeps : Keeps [(id, role)] before after) (hmem : (id, role) ∈ names) :
    Keeps names before after := by
  refine hkeeps.wider fun node hnode => ?_
  rwa [mem_singleton.mp hnode]

theorem Keeps.trans {first second third : Plan} (hleft : Keeps names first second)
    (hright : Keeps names second third) : Keeps names first third :=
  ⟨fun id hid => (hright.expressions id hid).trans (hleft.expressions id hid),
    fun id hid => (hright.entries id hid).trans (hleft.entries id hid),
    fun id hid => (hright.retired id hid).trans (hleft.retired id hid), fun id hretiring hvalue =>
      (hright.restores id hretiring hvalue).trans (hleft.restores id hretiring hvalue)⟩

theorem Agrees.refl (names : List (Nat × Role)) (plan : Plan) : Agrees names plan plan :=
  ⟨fun _ _ => rfl, fun _ _ => rfl, fun _ _ => rfl, fun _ _ => rfl⟩

theorem Agrees.part {plan : Plan} (hagrees : Agrees names final plan) (less : List (Nat × Role))
    (hsub : less ⊆ names) : Agrees less final plan :=
  ⟨fun id hid => hagrees.expressions id (hsub hid), fun id hid => hagrees.entries id (hsub hid),
    fun id hid => hagrees.retired id (hsub hid),
    fun id hid => hagrees.restores id (hid.imp (fun hmem => hsub hmem) fun hmem => hsub hmem)⟩

theorem Quiet.part {less : List (Nat × Role)} (hquiet : Quiet names final) (hsub : less ⊆ names) :
    Quiet less final :=
  ⟨fun id hid => hquiet.expressions id (hsub hid), fun id hid => hquiet.entries id (hsub hid)⟩

/-- The names of two parts have no address in common. -/
def Apart (left right : List (Nat × Role)) : Prop :=
  ∀ id first second, (id, first) ∈ left → (id, second) ∉ right

/-- Agreement with a later plan is agreement with an earlier one, if what
happened in between concerned other names. -/
theorem Agrees.earlier {others : List (Nat × Role)} {before after : Plan}
    (hagrees : Agrees names final after) (hkeeps : Keeps others before after)
    (hapart : Apart names others) : Agrees names final before :=
  ⟨fun id hid => (hagrees.expressions id hid).trans (hkeeps.expressions id (hapart id _ _ hid)),
    fun id hid => (hagrees.entries id hid).trans (hkeeps.entries id (hapart id _ _ hid)),
    fun id hid => (hagrees.retired id hid).trans (hkeeps.retired id (hapart id _ _ hid)),
    fun id hid => (hagrees.restores id hid).trans (hid.elim
      (fun hmem => hkeeps.restores id (hapart id _ _ hmem) (hapart id _ _ hmem))
      fun hmem => hkeeps.restores id (hapart id _ _ hmem) (hapart id _ _ hmem))⟩

/-- The parts of a body have different names. -/
def Distinct (names : List (Nat × Role)) : Prop := (names.map Prod.fst).Nodup

theorem Distinct.append {left right : List (Nat × Role)} (hdistinct : Distinct (left ++ right)) :
    Distinct left ∧ Distinct right ∧ Apart left right := by
  rw [Distinct, map_append, nodup_append] at hdistinct
  refine ⟨hdistinct.1, hdistinct.2.1, fun id first second hleft hright => ?_⟩
  exact hdistinct.2.2 id (mem_map_of_mem hleft) id (mem_map_of_mem hright) rfl

theorem Distinct.cons {id : Nat} {role : Role} {rest : List (Nat × Role)}
    (hdistinct : Distinct ((id, role) :: rest)) : Distinct rest ∧ Apart [(id, role)] rest := by
  have hsplit := Distinct.append (show Distinct ([(id, role)] ++ rest) from hdistinct)
  exact ⟨hsplit.2.1, hsplit.2.2⟩

theorem Apart.symm {left right : List (Nat × Role)} (hapart : Apart left right) :
    Apart right left := fun id first second hright hleft => hapart id second first hleft hright

/-! ## The four records -/

theorem keeps_restore (collections : Collections) (plan : Plan) (value : Expr) (live : Live)
    {role : Role} (hrole : role = .retiring ∨ role = .value) :
    Keeps [(value.id, role)] plan (plan.restore collections value live) := by
  rw [Plan.restore]
  split
  · refine ⟨fun _ _ => rfl, fun _ _ => rfl, fun _ _ => rfl, fun id hretiring hvalue => ?_⟩
    refine update_of_ne ?_ _ _
    rintro rfl
    rcases hrole with rfl | rfl
    · exact hretiring (mem_singleton.mpr rfl)
    · exact hvalue (mem_singleton.mpr rfl)
  · exact Keeps.refl _ _

theorem keeps_expressionRetirement (plan : Plan) (id : Nat) (dead : Live) :
    Keeps [(id, .retiring)] plan (plan.expressionRetirement id dead) := by
  refine ⟨fun other hother => ?_, fun _ _ => rfl, fun _ _ => rfl, fun _ _ _ => rfl⟩
  refine update_of_ne ?_ _ _
  rintro rfl
  exact hother (mem_singleton.mpr rfl)

theorem keeps_enter (plan : Plan) (id : Nat) (dead : Live) :
    Keeps [(id, .entered)] plan (plan.enter id dead) := by
  refine ⟨fun _ _ => rfl, fun other hother => ?_, fun _ _ => rfl, fun _ _ _ => rfl⟩
  refine update_of_ne ?_ _ _
  rintro rfl
  exact hother (mem_singleton.mpr rfl)

theorem keeps_retire (plan : Plan) (id : Nat) (dead : Live) :
    Keeps [(id, .statement)] plan (plan.retire id dead) := by
  refine ⟨fun _ _ => rfl, fun _ _ => rfl, fun other hother => ?_, fun _ _ _ => rfl⟩
  refine update_of_ne ?_ _ _
  rintro rfl
  exact hother (mem_singleton.mpr rfl)

theorem restore_restores {collections : Collections} {value : Expr}
    (hcollects : mayAllocate collections value = true) (plan : Plan) (live : Live) :
    (plan.restore collections value live).restores value.id = some live := by
  rw [Plan.restore, if_pos hcollects]; exact update_self ..

theorem expressionRetirement_expressions (plan : Plan) (id : Nat) (dead : Live) :
    ((plan.expressionRetirement id dead).expressions id).getD ∅ = dead := by
  rw [show (plan.expressionRetirement id dead).expressions id =
    if dead = ∅ then none else some dead from update_self ..]
  split
  case isTrue hempty => rw [hempty]; rfl
  case isFalse => rfl

/-! ## The three places where the plan is consulted -/

/-- What is live after a part, and at the ends of the enclosing loop. -/
def following (live : Live) (targets : Targets) : After Nat :=
  ⟨live, exits targets, heads targets⟩

theorem lives_retiring (targets : Targets) {map : Nat → Option Live} {id : Nat}
    (hdead : Disjoint ((map id).getD ∅) live) :
    Lives (retiring map id) live (following live targets) :=
  lives_retire (following live targets) hdead

theorem lives_retiring_none (targets : Targets) {map : Nat → Option Live} {id : Nat}
    (hnone : map id = none) : Lives (retiring map id) live (following live targets) := by
  apply lives_retiring
  rw [hnone]; exact Finset.disjoint_empty_left live

theorem lives_collecting {collections : Collections} {value : Expr} {targets : Targets}
    (hrestored : mayAllocate collections value = true → final.restores value.id = some live) :
    Lives (collecting collections final value) live (following live targets) := by
  rw [collecting]
  split
  case isTrue hcollects =>
    apply lives_safepoint (following live targets)
    rw [hrestored hcollects]; exact Finset.Subset.refl live
  case isFalse => exact lives_skip (following live targets)

theorem lives_storing {paths : Paths Nat} {after : After Nat} (slots : List Nat)
    (hlives : Lives paths live after) :
    Lives (storing slots paths) (live \ slots.toFinset) after := by
  induction slots with
  | nil => simpa [storing] using hlives
  | cons slot rest ih =>
    have hwrite := lives_write { after with normal := live \ rest.toFinset } slot
    have hboth : Lives (storing (slot :: rest) paths) ((live \ rest.toFinset).erase slot) after :=
      lives_andThen _ hwrite ih
    refine hboth.mono ?_
    intro other hother
    simp only [Finset.mem_erase, Finset.mem_sdiff, toFinset_cons, Finset.mem_insert] at hother ⊢
    tauto

end Loom.Codegen

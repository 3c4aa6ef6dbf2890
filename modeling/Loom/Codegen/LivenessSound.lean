import Loom.Codegen.LivenessRecords

/-
  The planner's sets are safe on every path through the body.

  What is proved: `planExpression_covered`, and its companions for operands,
  arms, blocks and statements, one case for each constructor. A visit keeps to
  its names, and any final plan that agrees with it makes the part's paths live
  by the slots the visit returned.
-/

namespace Loom.Codegen

open Liveness Settling List Option Prod

/-! ## The walk is safe -/

/-- What one visit guarantees: it keeps to its names, and any final plan that
agrees with it makes the paths live by the slots it returns. -/
structure Covered (names : List (Nat × Role)) (paths : Plan → Paths Nat) (before plan : Plan)
    (live : Live) (after : After Nat) : Prop where
  keeps : Keeps names before plan
  lives : ∀ final, Agrees names final plan → Quiet names final → Lives (paths final) live after

/-- A visit of an expression, and of a block. -/
abbrev Visited (collections : Collections) (value : Expr) : Plan → Plan → Live → After Nat → Prop :=
  Covered (nodes value) fun final => expressionPaths collections final value

abbrev Walked (collections : Collections) (body : Block) : Plan → Plan → Live → After Nat → Prop :=
  Covered (blockNodes body) fun final => blockPaths collections final body

variable {names : List (Nat × Role)} {id : Nat} {after : Plan} {role : Role} {final : Plan}
  {dead : Live} {body : Block} {before : Live}

section
variable {before : Plan} (hkeeps : Keeps names before after) (hapart : Apart [(id, role)] names)
include hkeeps hapart

theorem Keeps.restores_apart : after.restores id = before.restores id :=
  hkeeps.restores id (hapart id role _ (mem_singleton.mpr rfl))
    (hapart id role _ (mem_singleton.mpr rfl))

theorem Keeps.expressions_apart : after.expressions id = before.expressions id :=
  hkeeps.expressions id (hapart id role _ (mem_singleton.mpr rfl))

theorem Keeps.entries_apart : after.entries id = before.entries id :=
  hkeeps.entries id (hapart id role _ (mem_singleton.mpr rfl))

end

/-- A name of the one part is none of the other's. -/
theorem Apart.single {left right : List (Nat × Role)} {id : Nat} {role : Role}
    (hapart : Apart left right) (hmem : (id, role) ∈ right) : Apart [(id, role)] left := by
  intro other first second hfirst hsecond
  obtain ⟨rfl, rfl⟩ := mk.inj (mem_singleton.mp hfirst)
  exact hapart other second first hsecond hmem

theorem Apart.part {left right less : List (Nat × Role)} (hapart : Apart left right)
    (hsub : less ⊆ right) : Apart left less :=
  fun id first second hleft hless => hapart id first second hleft (hsub hless)

/-- A final plan restores, after a node, what its visit recorded. -/
theorem own_restores {collections : Collections} (plan : Plan) (value : Expr) {later : Plan}
    {live : Live} (hrole : role = .retiring ∨ role = .value)
    (hagrees : Agrees ((value.id, role) :: names) final later)
    (hlater : later.restores value.id = (plan.restore collections value live).restores value.id)
    (hcollects : mayAllocate collections value = true) : final.restores value.id = some live := by
  have hown : (value.id, .retiring) ∈ (value.id, role) :: names ∨
      (value.id, .value) ∈ (value.id, role) :: names := by
    rcases hrole with rfl | rfl
    · exact .inl (.head _)
    · exact .inr (.head _)
  rw [hagrees.restores _ hown, hlater, restore_restores hcollects]

/-- A final plan retires, after a node, what its visit recorded. -/
theorem own_expressions {plan later : Plan}
    (hagrees : Agrees ((id, .retiring) :: names) final later)
    (hlater : later.expressions id = (plan.expressionRetirement id dead).expressions id) :
    (final.expressions id).getD ∅ = dead := by
  rw [hagrees.expressions id (.head _), hlater, expressionRetirement_expressions]

/-- A final plan retires, at the entry of a block, what its visit recorded. -/
theorem own_entry {plan later : Plan} (hmem : (id, .entered) ∈ names)
    (hagrees : Agrees names final later)
    (hlater : later.entries id = (plan.enter id dead).entries id) :
    (final.entries id).getD ∅ = dead := by
  rw [hagrees.entries id hmem, hlater,
    show (plan.enter id dead).entries id = some dead from Function.update_self ..]
  rfl

/-- Entering a branch: what is retired there is not live in it. -/
theorem lives_entering (targets : Targets) {paths : Paths Nat} {branches live : Live}
    (hentry : Disjoint ((final.entries body.id).getD ∅) before) (hsub : before ⊆ branches)
    (hbody : Lives paths before (following live targets)) :
    Lives (entering final body paths) branches (following live targets) :=
  (lives_andThen _ (lives_retiring targets hentry) hbody).mono hsub

theorem disjoint_filter_sdiff (wide narrow : Live) (collects : Bool) :
    Disjoint ((wide \ narrow).filter fun _ => collects) narrow :=
  Finset.disjoint_of_subset_left (Finset.filter_subset _ _) Finset.sdiff_disjoint

variable {collections : Collections} {live : Live} {targets : Targets} {plan later : Plan}

theorem literal_covered {value : Literal} :
    Covered [(id, .value)] (fun final => expressionPaths collections final (.literal id value))
      plan (plan.restore collections (.literal id value) live) live (following live targets) := by
  refine ⟨keeps_restore collections plan (.literal id value) live (.inr rfl), ?_⟩
  intro final hagrees hquiet
  refine lives_andThen _ (lives_collecting fun hcollects => ?_)
    (lives_retiring_none _ (hquiet.expressions id (mem_singleton.mpr rfl)))
  exact own_restores plan (.literal id value) (.inr rfl) hagrees rfl hcollects

theorem local_covered {slot : Nat} {ty : Ty} (hdead : Disjoint dead live) :
    Covered [(id, .retiring)] (fun final => expressionPaths collections final (.local id ty slot))
      plan ((plan.restore collections (.local id ty slot) live).expressionRetirement id dead)
      (insert slot live) (following live targets) := by
  refine ⟨(keeps_restore collections plan (.local id ty slot) live (.inl rfl)).trans
    (keeps_expressionRetirement _ id dead), ?_⟩
  intro final hagrees hquiet
  refine lives_andThen _ (lives_read (following live targets) slot) (lives_retiring _ ?_)
  rw [own_expressions hagrees rfl]; exact hdead

theorem field_covered {index : Nat} {receiver : Expr}
    (hdistinct : Distinct (nodes (.field id receiver index))) (hreceiver : Visited collections receiver
      ((plan.restore collections (.field id receiver index) live).expressionRetirement id dead)
      later before (following live targets)) (hdead : Disjoint dead live)
    (hloaded : ∀ slot, fieldLocal receiver = some slot → insert slot live ⊆ before) :
    Visited collections (.field id receiver index) plan later before (following live targets) := by
  obtain ⟨-, hapart⟩ := hdistinct.cons
  refine ⟨?_, fun final hagrees hquiet => ?_⟩
  · have hown := (keeps_restore collections plan (.field id receiver index) live (.inl rfl)).trans
      (keeps_expressionRetirement _ id dead)
    exact (hown.single (.head _)).trans (hreceiver.keeps.wider (subset_cons_self ..))
  · have hretire : Lives (retiring final.expressions id) live (following live targets) := by
      apply lives_retiring
      rw [own_expressions hagrees (hreceiver.keeps.expressions_apart hapart)]
      exact hdead
    have hcomputed : Lives (andThen (expressionPaths collections final receiver)
        (collecting collections final (.field id receiver index))) before
        (following live targets) := by
      refine lives_andThen _ (hreceiver.lives final (hagrees.part _ (subset_cons_self ..))
        (hquiet.part (subset_cons_self ..))) (lives_collecting fun hcollects => ?_)
      refine own_restores plan _ (.inl rfl) hagrees ?_ hcollects
      exact hreceiver.keeps.restores_apart hapart
    refine lives_andThen live ?_ hretire
    cases hslot : fieldLocal receiver with
    | none => exact hcomputed
    | some slot =>
      have hread := lives_read (following live targets) slot
      exact lives_either (hread.mono (hloaded slot hslot)) hcomputed

theorem operation_covered {operation : Operation} {operands : List Expr}
    (hdistinct : Distinct (nodes (.operation id operation operands)))
    (hoperands : Covered (operandNodes operands)
      (fun final => operandPaths collections final operands)
      (plan.restore collections (.operation id operation operands) live)
      later before (following live targets)) :
    Visited collections (.operation id operation operands)
      plan later before (following live targets) := by
  obtain ⟨-, hapart⟩ := hdistinct.cons
  refine ⟨?_, fun final hagrees hquiet => ?_⟩
  · have hown := keeps_restore collections plan (.operation id operation operands) live (.inr rfl)
    exact (hown.single (.head _)).trans (hoperands.keeps.wider (subset_cons_self ..))
  · refine lives_andThen _ (hoperands.lives final (hagrees.part _ (subset_cons_self ..))
      (hquiet.part (subset_cons_self ..))) ?_
    refine lives_andThen _ (lives_collecting fun hcollects => ?_)
      (lives_retiring_none _ (hquiet.expressions id (.head _)))
    refine own_restores plan _ (.inr rfl) hagrees ?_ hcollects
    exact hoperands.keeps.restores_apart hapart

variable {middle : Plan}

/-- Two parts visited one after the other, the later one first. -/
theorem parts_covered {earlier others : List (Nat × Role)} {first second : Plan → Paths Nat}
    {between : Live} (hdistinct : Distinct (earlier ++ others))
    (hsecond : Covered others second plan middle between (following live targets))
    (hfirst : Covered earlier first middle later before (following between targets)) :
    Covered (earlier ++ others) (fun final => andThen (first final) (second final)) plan later before
      (following live targets) := by
  obtain ⟨-, -, hapart⟩ := hdistinct.append
  refine ⟨?_, fun final hagrees hquiet => ?_⟩
  · exact (hsecond.keeps.wider (subset_append_right ..)).trans
      (hfirst.keeps.wider (subset_append_left ..))
  · have hothers := (hagrees.part _ (subset_append_right earlier others)).earlier hfirst.keeps
      hapart.symm
    exact lives_andThen _ (hfirst.lives final (hagrees.part _ (subset_append_left ..))
        (hquiet.part (subset_append_left ..)))
      (hsecond.lives final hothers (hquiet.part (subset_append_right ..)))

variable {future : Bool}

theorem shortCircuit_covered {left right : Expr} {second : Live}
    (hdistinct : Distinct (nodes (.shortCircuit id left right))) (hright : Visited collections right
      (plan.restore collections (.shortCircuit id left right) live) middle second
      (following live targets)) (hleft : Visited collections left
      (middle.expressionRetirement id ((second \ live).filter fun _ => future)) later before
      (following (second ∪ live) targets)) : Visited collections (.shortCircuit id left right)
      plan later before (following live targets) := by
  obtain ⟨hparts, hown⟩ := hdistinct.cons
  obtain ⟨-, -, hapart⟩ := hparts.append
  have hleftNodes : nodes left ⊆ (id, .retiring) :: (nodes left ++ nodes right) :=
    List.Subset.trans (subset_append_left ..) (subset_cons_self ..)
  have hrightNodes : nodes right ⊆ (id, .retiring) :: (nodes left ++ nodes right) :=
    List.Subset.trans (subset_append_right ..) (subset_cons_self ..)
  have hsingle : (id, Role.retiring) ∈ (id, .retiring) :: (nodes left ++ nodes right) := .head _
  have hretires := keeps_expressionRetirement middle id ((second \ live).filter fun _ => future)
  refine ⟨?_, fun final hagrees hquiet => ?_⟩
  · have hrestore := keeps_restore collections plan (.shortCircuit id left right) live (.inl rfl)
    exact (((hrestore.single hsingle).trans (hright.keeps.wider hrightNodes)).trans
      (hretires.single hsingle)).trans (hleft.keeps.wider hleftNodes)
  · have hsecond : Lives (expressionPaths collections final right) second
        (following live targets) := by
      refine hright.lives final ?_ (hquiet.part hrightNodes)
      have hmiddle := (hagrees.part _ hrightNodes).earlier hleft.keeps hapart.symm
      exact hmiddle.earlier hretires (hown.part (subset_append_right ..)).symm
    have hdead : Disjoint ((final.expressions id).getD ∅) live := by
      rw [own_expressions hagrees
        (hleft.keeps.expressions_apart (hown.part (subset_append_left ..)))]
      exact disjoint_filter_sdiff second live future
    refine lives_andThen _ (hleft.lives final (hagrees.part _ hleftNodes) (hquiet.part hleftNodes)) ?_
    refine lives_andThen live (lives_either ?_ ?_) (lives_retiring _ hdead)
    · exact (lives_skip (following live targets)).mono Finset.subset_union_right
    · exact hsecond.mono Finset.subset_union_left

theorem block_covered (hbody : Walked collections body
      (plan.restore collections (.block id body) live) later before (following live targets)) :
    Visited collections (.block id body) plan later before (following live targets) := by
  have hinner : blockNodes body ⊆ (id, .value) :: (body.id, .body) :: blockNodes body :=
    List.Subset.trans (subset_cons_self ..) (subset_cons_self ..)
  refine ⟨?_, fun final hagrees hquiet => ?_⟩
  · have hown := keeps_restore collections plan (.block id body) live (.inr rfl)
    exact (hown.single (.head _)).trans (hbody.keeps.wider hinner)
  · refine lives_andThen live ?_ (lives_retiring_none _ (hquiet.expressions id (.head _)))
    have hentry := hquiet.entries body.id (.tail _ (.head _))
    exact lives_andThen _ (lives_retiring_none targets hentry)
      (hbody.lives final (hagrees.part _ hinner) (hquiet.part hinner))

variable {collects : Bool} {condition : Expr}

theorem conditional_covered {thenBody : Block} {yes : Live}
    (hdistinct : Distinct (nodes (.conditional id condition thenBody none)))
    (hthen : Walked collections thenBody
      (plan.restore collections (.conditional id condition thenBody none) live) middle yes
      (following live targets)) (hcondition : Visited collections condition
      ((middle.expressionRetirement id (((yes ∪ live) \ live).filter fun _ => future)).enter
        thenBody.id (((yes ∪ live) \ yes).filter fun _ => collects))
      later before (following (yes ∪ live) targets)) :
    Visited collections (.conditional id condition thenBody none)
      plan later before (following live targets) := by
  unfold Visited; rw [nodes] at hdistinct ⊢
  obtain ⟨hparts, hown⟩ := hdistinct.cons
  obtain ⟨-, hbranch, hapart⟩ := hparts.append
  obtain ⟨-, hentry⟩ := hbranch.cons
  have hretires :=
    keeps_expressionRetirement middle id (((yes ∪ live) \ live).filter fun _ => future)
  have henters := keeps_enter
    (middle.expressionRetirement id (((yes ∪ live) \ live).filter fun _ => future))
    thenBody.id (((yes ∪ live) \ yes).filter fun _ => collects)
  refine ⟨?_, fun final hagrees hquiet => ?_⟩
  · have hrestore :=
      keeps_restore collections plan (.conditional id condition thenBody none) live (.inl rfl)
    refine (hrestore.single (.head _)).trans ?_
    refine (hthen.keeps.wider (by grind)).trans ?_
    refine (hretires.single (.head _)).trans ((henters.single (by simp)).trans ?_)
    exact hcondition.keeps.wider (by grind)
  · have hbody : Lives (blockPaths collections final thenBody) yes (following live targets) := by
      refine hthen.lives final ?_ (hquiet.part (by grind))
      have hlast := (hagrees.part (blockNodes thenBody) (by grind)).earlier hcondition.keeps
        (hapart.part (subset_cons_self ..)).symm
      exact (hlast.earlier henters hentry.symm).earlier hretires (hown.part (by grind)).symm
    have hyes : Lives (entering final thenBody (blockPaths collections final thenBody))
        (yes ∪ live) (following live targets) := by
      refine lives_entering _ ?_ Finset.subset_union_left hbody
      rw [own_entry (by simp) hagrees (hcondition.keeps.entries_apart (hapart.single (.head _)))]
      exact disjoint_filter_sdiff _ yes collects
    have hdead : Disjoint ((final.expressions id).getD ∅) live := by
      rw [own_expressions hagrees
        (hcondition.keeps.expressions_apart (hown.part (subset_append_left ..)))]
      exact disjoint_filter_sdiff _ live future
    refine lives_andThen _ (hcondition.lives final (hagrees.part _ (by grind))
      (hquiet.part (by grind))) ?_
    refine lives_andThen live (lives_either hyes ?_) (lives_retiring _ hdead)
    exact (lives_skip (following live targets)).mono Finset.subset_union_right

theorem conditional_else_covered {thenBody elseBody : Block} {last : Plan} {yes no : Live}
    {others : Bool}
    (hdistinct : Distinct (nodes (.conditional id condition thenBody (some elseBody))))
    (hthen : Walked collections thenBody
      (plan.restore collections (.conditional id condition thenBody (some elseBody)) live) middle
      yes (following live targets)) (helse : Walked collections elseBody
      middle last no (following live targets)) (hcondition : Visited collections condition
      (((last.expressionRetirement id (((yes ∪ no) \ live).filter fun _ => future)).enter
        thenBody.id (((yes ∪ no) \ yes).filter fun _ => collects)).enter
        elseBody.id (((yes ∪ no) \ no).filter fun _ => others))
      later before (following (yes ∪ no) targets)) :
    Visited collections (.conditional id condition thenBody (some elseBody))
      plan later before (following live targets) := by
  unfold Visited; rw [nodes] at hdistinct ⊢
  obtain ⟨hparts, hown⟩ := hdistinct.cons
  obtain ⟨-, hbranches, hapart⟩ := hparts.append
  obtain ⟨hthenNames, helseNames, hbetween⟩ := hbranches.append
  obtain ⟨-, hthenEntry⟩ := hthenNames.cons
  obtain ⟨-, helseEntry⟩ := helseNames.cons
  have hretires := keeps_expressionRetirement last id (((yes ∪ no) \ live).filter fun _ => future)
  have henters := keeps_enter
    (last.expressionRetirement id (((yes ∪ no) \ live).filter fun _ => future))
    thenBody.id (((yes ∪ no) \ yes).filter fun _ => collects)
  have henters' := keeps_enter
    ((last.expressionRetirement id (((yes ∪ no) \ live).filter fun _ => future)).enter
      thenBody.id (((yes ∪ no) \ yes).filter fun _ => collects))
    elseBody.id (((yes ∪ no) \ no).filter fun _ => others)
  refine ⟨?_, fun final hagrees hquiet => ?_⟩
  · have hrestore := keeps_restore collections plan
      (.conditional id condition thenBody (some elseBody)) live (.inl rfl)
    refine (hrestore.single (.head _)).trans ?_
    refine (hthen.keeps.wider (by grind)).trans ?_
    refine (helse.keeps.wider (by grind)).trans ?_
    refine (hretires.single (.head _)).trans ((henters.single (by simp)).trans ?_)
    refine (henters'.single (by simp)).trans ?_
    exact hcondition.keeps.wider (by grind)
  · -- both blocks agree with the plan their own visit left
    have hlast : ∀ names : List (Nat × Role),
        names ⊆ (thenBody.id, .entered) :: blockNodes thenBody ++
          (elseBody.id, .entered) :: blockNodes elseBody →
        Apart [(thenBody.id, .entered)] names → Apart [(elseBody.id, .entered)] names →
        Agrees names final last := by
      intro names hnames hapartThen hapartElse
      have hwhole := (hagrees.part names fun node hnode => .tail _
        (mem_append_right _ (hnames hnode))).earlier hcondition.keeps (hapart.part hnames).symm
      exact ((hwhole.earlier henters' hapartElse.symm).earlier henters hapartThen.symm).earlier
        hretires (hown.part fun node hnode => mem_append_right _ (hnames hnode)).symm
    have hyesBody : Lives (blockPaths collections final thenBody) yes (following live targets) := by
      refine hthen.lives final ?_ (hquiet.part (by grind))
      have hagreed := hlast (blockNodes thenBody) (by grind) hthenEntry
        ((hbetween.single (.head _)).part (subset_cons_self ..))
      refine hagreed.earlier helse.keeps fun other first second hfirst hsecond => ?_
      exact hbetween other first second (.tail _ hfirst) (.tail _ hsecond)
    have hnoBody : Lives (blockPaths collections final elseBody) no (following live targets) := by
      refine helse.lives final ?_ (hquiet.part (by grind))
      refine hlast (blockNodes elseBody) (by grind) ?_ helseEntry
      exact (hbetween.symm.single (.head _)).part (subset_cons_self ..)
    have hyes : Lives (entering final thenBody (blockPaths collections final thenBody))
        (yes ∪ no) (following live targets) := by
      refine lives_entering _ ?_ Finset.subset_union_left hyesBody
      have hother : Apart [(thenBody.id, Role.entered)] [(elseBody.id, Role.entered)] :=
        (hbetween.symm.single (.head _)).part fun node hnode => by
          rw [mem_singleton.mp hnode]; exact .head _
      have hkept := (hcondition.keeps.entries_apart
        (hapart.single (mem_append_left _ (.head _)))).trans (henters'.entries_apart hother)
      rw [own_entry (by simp) hagrees hkept]
      exact disjoint_filter_sdiff _ yes collects
    have hno : Lives (entering final elseBody (blockPaths collections final elseBody))
        (yes ∪ no) (following live targets) := by
      refine lives_entering _ ?_ Finset.subset_union_right hnoBody
      rw [own_entry (by simp) hagrees (hcondition.keeps.entries_apart
        (hapart.single (mem_append_right _ (.head _))))]
      exact disjoint_filter_sdiff _ no others
    have hdead : Disjoint ((final.expressions id).getD ∅) live := by
      rw [own_expressions hagrees
        (hcondition.keeps.expressions_apart (hown.part (subset_append_left ..)))]
      exact disjoint_filter_sdiff _ live future
    refine lives_andThen _ (hcondition.lives final (hagrees.part _ (by grind))
      (hquiet.part (by grind))) ?_
    exact lives_andThen live (lives_either hyes hno) (lives_retiring _ hdead)

/-! ### Matches -/

theorem enterAll_keeps (branches : Live) : ∀ (incoming : List (Nat × Live × Bool)) (plan : Plan),
      Keeps (incoming.map fun entry => (entry.1, .entered)) plan (plan.enterAll branches incoming)
  | [], plan => Keeps.refl _ plan
  | (id, before, collects) :: rest, plan => by
      have henter := keeps_enter plan id ((branches \ before).filter fun _ => collects)
      refine (henter.single (.head _)).trans ?_
      exact (enterAll_keeps branches rest _).wider (subset_cons_self ..)

/-- Every arm's entry retires what that arm does not need. -/
theorem enterAll_entries (branches : Live) : ∀ {incoming : List (Nat × Live × Bool)} {plan : Plan},
      Distinct (incoming.map fun entry => (entry.1, .entered)) → ∀ entry ∈ incoming,
        Disjoint (((plan.enterAll branches incoming).entries entry.1).getD ∅) entry.2.1
  | [], _, _, entry, hmem => by cases hmem
  | (id, before, collects) :: rest, plan, hdistinct, entry, hmem => by
      obtain ⟨hrest, hapart⟩ := hdistinct.cons
      rw [Plan.enterAll]
      rcases mem_cons.mp hmem with rfl | hmem
      · rw [(enterAll_keeps branches rest _).entries_apart hapart,
          show (plan.enter id ((branches \ before).filter fun _ => collects)).entries id = some _
            from Function.update_self ..]
        exact disjoint_filter_sdiff branches before collects
      · exact enterAll_entries branches hrest entry hmem

/-- What the visit of the arms guarantees, given what their entries retire. -/
structure ArmsCovered (collections : Collections) (arms : List Arm) (before : Plan)
    (branches : Branches) (after : After Nat) : Prop where
  keeps : Keeps (armNodes arms) before branches.plan
  incoming : (branches.incoming.map fun entry => (entry.1, Role.entered)) = armEntries arms
  lives : ∀ final, Agrees (armNodes arms) final branches.plan → Quiet (armNodes arms) final →
    (∀ entry ∈ branches.incoming, Disjoint ((final.entries entry.1).getD ∅) entry.2.1) →
    Lives (armPaths collections final arms) branches.live after

variable {definitions : Live}

theorem arm_covered {variant whole : Option Nat} {bindings : List (Option Nat)} {rest : List Arm}
    {collecting : Bool} {others : Branches}
    (hdistinct : Distinct (armNodes (.mk variant bindings whole body :: rest)))
    (hbody : Walked collections body plan middle before (following live targets))
    (hrest : ArmsCovered collections rest middle others (following live targets)) :
    ArmsCovered collections (.mk variant bindings whole body :: rest) plan
      { live := (before \ (Arm.mk variant bindings whole body).stored.toFinset) ∪ others.live
        collecting := collecting
        incoming := (body.id, before, collects) :: others.incoming
        definitions := definitions
        plan := others.plan } (following live targets) := by
  obtain ⟨-, -, hapart⟩ := hdistinct.append
  refine ⟨?_, ?_, fun final hagrees hquiet hentries => ?_⟩
  · exact (hbody.keeps.wider (subset_append_left ..)).trans
      (hrest.keeps.wider (subset_append_right ..))
  · rw [armEntries, map_cons, hrest.incoming]
  · have hinner := hbody.lives final
      ((hagrees.part _ (subset_append_left ..)).earlier hrest.keeps hapart)
      (hquiet.part (subset_append_left ..))
    have hentered := lives_entering _ (hentries _ (.head _)) (Finset.Subset.refl _) hinner
    refine lives_either ((lives_storing _ hentered).mono Finset.subset_union_left) ?_
    refine (hrest.lives final (hagrees.part _ (subset_append_right ..))
      (hquiet.part (subset_append_right ..)) fun entry hmem => ?_).mono Finset.subset_union_right
    exact hentries entry (.tail _ hmem)

theorem matching_covered {value : Expr} {arms : List Arm} {branches : Branches}
    (hdistinct : Distinct (nodes (.matching id value arms))) (harms : ArmsCovered collections arms
      (plan.restore collections (.matching id value arms) live) branches (following live targets))
    (hvalue : Visited collections value
      (branches.plan.enterAll branches.live branches.incoming) later before
      (following branches.live targets)) : Visited collections (.matching id value arms)
      plan later before (following live targets) := by
  unfold Visited; rw [nodes] at hdistinct ⊢
  obtain ⟨hparts, -⟩ := hdistinct.cons
  obtain ⟨-, hinner, hapart⟩ := hparts.append
  obtain ⟨hentries, -, hbetween⟩ := hinner.append
  have henters := enterAll_keeps branches.live branches.incoming branches.plan
  rw [harms.incoming] at henters
  refine ⟨?_, fun final hagrees hquiet => ?_⟩
  · have hrestore := keeps_restore collections plan (.matching id value arms) live (.inr rfl)
    refine (hrestore.single (.head _)).trans ?_
    refine (harms.keeps.wider (by grind)).trans ?_
    refine (henters.wider (by grind)).trans ?_
    exact hvalue.keeps.wider (by grind)
  · have hbodies : Lives (armPaths collections final arms) branches.live
        (following live targets) := by
      refine harms.lives final ?_ (hquiet.part (by grind)) ?_
      · have hagreed := (hagrees.part (armNodes arms) (by grind)).earlier hvalue.keeps
          (hapart.part (subset_append_right ..)).symm
        exact hagreed.earlier henters hbetween.symm
      · intro entry hmem
        have hname : (entry.1, Role.entered) ∈ armEntries arms := by
          rw [← harms.incoming]; exact mem_map_of_mem hmem
        rw [hagrees.entries entry.1 (by simp [hname]),
          hvalue.keeps.entries_apart (hapart.single (mem_append_left _ hname))]
        refine enterAll_entries branches.live ?_ entry hmem
        rw [harms.incoming]; exact hentries
    refine lives_andThen _ (hvalue.lives final (hagrees.part _ (by grind))
      (hquiet.part (by grind))) ?_
    exact lives_andThen live hbodies (lives_retiring_none _ (hquiet.expressions id (.head _)))

/-! ### Statements -/

/-- What every statement's completion retires is not live after it. -/
theorem finish_covered {first : Plan → Paths Nat} (planned : Planned) {collection : Bool}
    {after : After Nat} (hdistinct : Distinct ((id, .statement) :: names))
    (hfirst : Covered names first plan planned.plan planned.live after) :
    Keeps ((id, .statement) :: names) plan (planned.finish id live collection definitions).plan ∧
      ∀ final, Agrees ((id, .statement) :: names) final
          (planned.finish id live collection definitions).plan →
        Quiet ((id, .statement) :: names) final → Lives (first final) planned.live after ∧
          Disjoint ((final.retired id).getD ∅) live := by
  obtain ⟨-, hapart⟩ := hdistinct.cons
  have hretires := keeps_retire planned.plan id
    ((planned.live ∪ planned.definitions).filter fun slot => collection ∧ slot ∉ live)
  refine ⟨?_, fun final hagrees hquiet => ⟨?_, ?_⟩⟩
  · exact (hfirst.keeps.wider (subset_cons_self ..)).trans (hretires.single (.head _))
  · refine hfirst.lives final ?_ (hquiet.part (subset_cons_self ..))
    exact (hagrees.part _ (subset_cons_self ..)).earlier hretires hapart.symm
  · rw [hagrees.retired id (.head _),
      show (planned.finish id live collection definitions).plan.retired id = some _
        from Function.update_self ..]
    rw [Finset.disjoint_left]
    intro slot hslot hlive; exact (Finset.mem_filter.mp hslot).2.2 hlive

theorem statement_covered (first : Plan → Paths Nat) {planned : Planned} {collection : Bool}
    (hdistinct : Distinct ((id, .statement) :: names))
    (hfirst : Covered names first plan planned.plan planned.live (following live targets)) :
    Covered ((id, .statement) :: names)
      (fun final => andThen (first final) (retiring final.retired id)) plan
      (planned.finish id live collection definitions).plan planned.live
      (following live targets) := by
  obtain ⟨hkeeps, hlives⟩ := finish_covered planned hdistinct hfirst
  refine ⟨hkeeps, fun final hagrees hquiet => ?_⟩
  obtain ⟨hpaths, hdead⟩ := hlives final hagrees hquiet
  exact lives_andThen _ hpaths (lives_retiring _ hdead)

/-! ### The walk -/

variable {rounds : Nat}

def ExpressionCovered (rounds : Nat) (collections : Collections) (value : Expr) : Prop :=
  ∀ ⦃live targets definitions future plan planned⦄, Distinct (nodes value) →
    planExpression rounds collections value live targets definitions future plan = some planned →
    Visited collections value plan planned.plan
      planned.live (following live targets)

def OperandsCovered (rounds : Nat) (collections : Collections) (operands : List Expr) : Prop :=
  ∀ ⦃live targets definitions future plan planned⦄, Distinct (operandNodes operands) →
    planOperands rounds collections operands live targets definitions future plan = some planned →
    Covered (operandNodes operands) (fun final => operandPaths collections final operands) plan
      planned.plan planned.live (following live targets)

def BlockCovered (rounds : Nat) (collections : Collections) (body : Block) : Prop :=
  ∀ ⦃live targets definitions future plan planned⦄, Distinct (blockNodes body) →
    planBlock rounds collections body live targets definitions future plan = some planned →
    Walked collections body plan planned.plan
      planned.live (following live targets)

def StatementsCovered (rounds : Nat) (collections : Collections) (statements : List Stmt) : Prop :=
  ∀ ⦃live targets definitions future plan planned after⦄, Distinct (statementNodes statements) →
    planStatements rounds collections statements live targets definitions future plan =
      some (planned, after) →
    Covered (statementNodes statements) (fun final => statementPaths collections final statements)
      plan planned.plan planned.live (following live targets)

def StatementCovered (rounds : Nat) (collections : Collections) (statement : Stmt) : Prop :=
  ∀ ⦃live targets definitions future plan planned after⦄, Distinct (stmtNodes statement) →
    planStatement rounds collections statement live targets definitions future plan =
      some (planned, after) →
    Covered (stmtNodes statement) (fun final => stmtPaths collections final statement)
      plan planned.plan planned.live (following live targets)

/-- A chain of fields needs, besides what is live after it, its local only. -/
theorem planExpression_fieldLocal : {value : Expr} → {slot : Nat} → {live : Live} →
    {targets : Targets} → {definitions : Live} → {future : Bool} → {plan : Plan} →
    {planned : Planned} → fieldLocal value = some slot →
    planExpression rounds collections value live targets definitions future plan = some planned →
    planned.live = insert slot live
  | .local id ty slot, _, _, _, _, _, _, _, hslot, hplan => by
      cases hslot
      rw [planExpression, some.injEq] at hplan
      rw [← hplan]
  | .field id receiver index, _, _, _, _, _, _, _, hslot, hplan => by
      exact planExpression_fieldLocal (show fieldLocal receiver = some _ from hslot) hplan

/-- The last round of the fixed point is the one the plan keeps. -/
theorem while_covered (hcondition : ExpressionCovered rounds collections condition)
    (hbody : BlockCovered rounds collections body) :
    StatementCovered rounds collections (.while id condition body) := by
  intro live targets definitions future plan planned after hdistinct hplan
  obtain ⟨hparts, -⟩ := hdistinct.cons
  obtain ⟨hconditionNames, hbranch, hapart⟩ := hparts.append
  obtain ⟨hbodyNames, hentry⟩ := hbranch.cons
  obtain ⟨⟨head, before, written, last⟩, hsettle, hplan⟩ := bind_eq_some_iff.mp hplan
  cases hplan
  -- a round: the body, and the condition before it
  obtain ⟨⟨defined, start⟩, hkept, hround⟩ := settle_last (fun first second : Live × Plan =>
      Keeps (nodes condition ++ (body.id, .entered) :: blockNodes body) first.2 second.2)
    (fun state => Keeps.refl _ state.2) Keeps.trans (fun {head state next result state'} hstep => by
      obtain ⟨inner, hinner, hrest⟩ := bind_eq_some_iff.mp hstep
      obtain ⟨outer, houter, hresult⟩ := bind_eq_some_iff.mp hrest
      obtain ⟨-, -, rfl⟩ := by simpa using hresult
      exact ((hbody hbodyNames hinner).keeps.wider (by grind)).trans
        ((hcondition hconditionNames houter).keeps.wider (by grind))) hsettle
  obtain ⟨inner, hinner, hrest⟩ := bind_eq_some_iff.mp hround
  obtain ⟨outer, houter, hresult⟩ := bind_eq_some_iff.mp hrest
  obtain ⟨rfl, rfl, rfl, rfl⟩ := hresult
  have hinnerCovered := hbody hbodyNames hinner
  have houterCovered := hcondition hconditionNames houter
  have henters := keeps_enter outer.plan body.id ((outer.live \ inner.live).filter fun _ =>
      future || mayAllocate collections condition || blockAllocates collections body)
  refine statement_covered (fun final => Loop (expressionPaths collections final condition)
    (entering final body (blockPaths collections final body))) hdistinct ?_
  refine ⟨?_, fun final hagrees hquiet => ?_⟩
  · refine hkept.trans ?_
    refine (hinnerCovered.keeps.wider (by grind)).trans ?_
    refine (houterCovered.keeps.wider (by grind)).trans ?_
    exact henters.single (by simp)
  · have htest : Lives (expressionPaths collections final condition) outer.live
        (following (live ∪ inner.live) targets) := by
      refine houterCovered.lives final ?_ (hquiet.part (by grind))
      exact (hagrees.part _ (by grind)).earlier henters (hapart.part fun node hnode => by
          rw [mem_singleton.mp hnode]
          exact .head _)
    have hrun : Lives (blockPaths collections final body) inner.live
        (following outer.live (some (live, outer.live))) := by
      refine hinnerCovered.lives final ?_ (hquiet.part (by grind))
      have hagreed := (hagrees.part (blockNodes body) (by grind)).earlier henters hentry.symm
      exact hagreed.earlier houterCovered.keeps (hapart.part (subset_cons_self ..)).symm
    refine lives_loop (following live targets) htest ?_
    refine lives_entering (some (live, outer.live)) ?_ (Finset.Subset.refl _) hrun
    rw [own_entry (by simp) hagrees rfl]; exact disjoint_filter_sdiff ..

mutual
theorem planExpression_covered (rounds : Nat) (collections : Collections) :
    (value : Expr) → ExpressionCovered rounds collections value
  | .literal id value => by
      intro live targets definitions future plan planned _ hplan
      rw [planExpression, some.injEq] at hplan
      rw [← hplan]; exact literal_covered
  | .local id ty slot => by
      intro live targets definitions future plan planned _ hplan
      rw [planExpression, some.injEq] at hplan
      rw [← hplan]
      apply local_covered
      split
      case isTrue hretire => simp at hretire; simp [hretire]
      case isFalse => exact Finset.disjoint_empty_left live
  | .field id receiver index => by
      intro live targets definitions future plan planned hdistinct hplan
      rw [planExpression] at hplan
      have hreceiver := planExpression_covered rounds collections receiver
        (by rw [nodes] at hdistinct; exact hdistinct.cons.1) hplan
      refine field_covered hdistinct hreceiver ?_ fun slot hslot => ?_
      · cases fieldLocal receiver with
        | none => exact Finset.disjoint_empty_left live
        | some slot =>
          simp only
          split
          case isTrue hretire => simp at hretire; simp [hretire]
          case isFalse => exact Finset.disjoint_empty_left live
      · exact (planExpression_fieldLocal hslot hplan).ge
  | .operation id operation operands => by
      intro live targets definitions future plan planned hdistinct hplan
      rw [planExpression] at hplan
      exact operation_covered hdistinct (planOperands_covered rounds collections operands
        (by rw [nodes] at hdistinct; exact hdistinct.cons.1) hplan)
  | .shortCircuit id left right => by
      intro live targets definitions future plan planned hdistinct hplan
      rw [planExpression] at hplan
      obtain ⟨second, hsecond, hfirst⟩ := bind_eq_some_iff.mp hplan
      obtain ⟨hleft, hright, -⟩ : Distinct (nodes left) ∧ Distinct (nodes right) ∧ _ := by
        rw [nodes] at hdistinct; exact hdistinct.cons.1.append
      exact shortCircuit_covered hdistinct
        (planExpression_covered rounds collections right hright hsecond)
        (planExpression_covered rounds collections left hleft hfirst)
  | .block id body => by
      intro live targets definitions future plan planned hdistinct hplan
      rw [planExpression] at hplan
      exact block_covered (planBlock_covered rounds collections body
        (by rw [nodes] at hdistinct; exact hdistinct.cons.1.cons.1) hplan)
  | .conditional id condition thenBody none => by
      intro live targets definitions future plan planned hdistinct hplan
      rw [planExpression] at hplan
      obtain ⟨yes, hyes, hcondition⟩ := bind_eq_some_iff.mp hplan
      obtain ⟨hnames, hbranch, -⟩ :
          Distinct (nodes condition) ∧ Distinct ((thenBody.id, .entered) :: blockNodes thenBody) ∧ _ := by
        rw [nodes] at hdistinct; exact hdistinct.cons.1.append
      exact conditional_covered hdistinct
        (planBlock_covered rounds collections thenBody hbranch.cons.1 hyes)
        (planExpression_covered rounds collections condition hnames hcondition)
  | .conditional id condition thenBody (some elseBody) => by
      intro live targets definitions future plan planned hdistinct hplan
      rw [planExpression] at hplan
      obtain ⟨yes, hyes, hplan⟩ := bind_eq_some_iff.mp hplan
      obtain ⟨no, hno, hcondition⟩ := bind_eq_some_iff.mp hplan
      have hparts := hdistinct
      rw [nodes] at hparts
      obtain ⟨hnames, hbranches, -⟩ := hparts.cons.1.append
      obtain ⟨hthen, helse, -⟩ := hbranches.append
      exact conditional_else_covered hdistinct
        (planBlock_covered rounds collections thenBody hthen.cons.1 hyes)
        (planBlock_covered rounds collections elseBody helse.cons.1 hno)
        (planExpression_covered rounds collections condition hnames hcondition)
  | .matching id value arms => by
      intro live targets definitions future plan planned hdistinct hplan
      rw [planExpression] at hplan
      obtain ⟨branches, hbranches, hvalue⟩ := bind_eq_some_iff.mp hplan
      have hparts := hdistinct
      rw [nodes] at hparts
      obtain ⟨hnames, hinner, -⟩ := hparts.cons.1.append
      exact matching_covered hdistinct
        (planArms_covered rounds collections arms hinner.append.2.1 hbranches)
        (planExpression_covered rounds collections value hnames hvalue)

theorem planOperands_covered (rounds : Nat) (collections : Collections) :
    (operands : List Expr) → OperandsCovered rounds collections operands
  | [] => by
      intro live targets definitions future plan planned _ hplan
      rw [planOperands, some.injEq] at hplan
      rw [← hplan]
      refine ⟨Keeps.refl _ _, fun final _ _ => ?_⟩
      rw [operandPaths]; exact lives_skip (following live targets)
  | value :: rest => by
      intro live targets definitions future plan planned hdistinct hplan
      rw [planOperands] at hplan
      obtain ⟨later, hlater, hvalue⟩ := bind_eq_some_iff.mp hplan
      rw [operandNodes] at hdistinct ⊢
      simp only [operandPaths]
      exact parts_covered hdistinct
        (planOperands_covered rounds collections rest hdistinct.append.2.1 hlater)
        (planExpression_covered rounds collections value hdistinct.append.1 hvalue)

theorem planArms_covered (rounds : Nat) (collections : Collections) :
    (arms : List Arm) → ∀ ⦃live targets definitions future plan branches⦄,
      Distinct (armNodes arms) →
      planArms rounds collections arms live targets definitions future plan = some branches →
      ArmsCovered collections arms plan branches (following live targets)
  | [] => by
      intro live targets definitions future plan branches _ hplan
      rw [planArms, some.injEq] at hplan
      rw [← hplan]
      refine ⟨Keeps.refl _ _, rfl, fun final _ _ _ => ?_⟩
      intro trace outcome rest hpath
      rw [armPaths] at hpath; exact hpath.elim
  | .mk variant bindings whole body :: rest => by
      intro live targets definitions future plan branches hdistinct hplan
      rw [planArms] at hplan
      obtain ⟨before, hbefore, hplan⟩ := bind_eq_some_iff.mp hplan
      obtain ⟨others, hothers, hresult⟩ := bind_eq_some_iff.mp hplan
      rw [← some.inj hresult]
      have hparts := hdistinct
      rw [armNodes] at hparts
      have hrest := planArms_covered rounds collections rest hparts.append.2.1 hothers
      exact arm_covered hdistinct
        (planBlock_covered rounds collections body hparts.append.1 hbefore) hrest

theorem planBlock_covered (rounds : Nat) (collections : Collections) :
    (body : Block) → BlockCovered rounds collections body
  | .mk id statements none => by
      intro live targets definitions future plan planned hdistinct hplan
      rw [planBlock] at hplan
      obtain ⟨⟨result, after⟩, hstatements, hresult⟩ := bind_eq_some_iff.mp hplan
      obtain rfl := some.inj hresult
      unfold Walked; rw [blockNodes] at hdistinct ⊢
      simp only [blockPaths]
      exact planStatements_covered rounds collections statements hdistinct hstatements
  | .mk id statements (some tail) => by
      intro live targets definitions future plan planned hdistinct hplan
      rw [planBlock] at hplan
      obtain ⟨last, hlast, hplan⟩ := bind_eq_some_iff.mp hplan
      obtain ⟨⟨result, after⟩, hstatements, hresult⟩ := bind_eq_some_iff.mp hplan
      obtain rfl := some.inj hresult
      unfold Walked; rw [blockNodes] at hdistinct ⊢
      simp only [blockPaths]
      exact parts_covered hdistinct
        (planExpression_covered rounds collections tail hdistinct.append.2.1 hlast)
        (planStatements_covered rounds collections statements hdistinct.append.1 hstatements)

theorem planStatements_covered (rounds : Nat) (collections : Collections) :
    (statements : List Stmt) → StatementsCovered rounds collections statements
  | [] => by
      intro live targets definitions future plan planned after _ hplan
      rw [planStatements] at hplan
      obtain ⟨rfl, -⟩ := mk.inj (some.inj hplan)
      refine ⟨Keeps.refl _ _, fun final _ _ => ?_⟩
      rw [statementPaths]; exact lives_skip (following live targets)
  | statement :: rest => by
      intro live targets definitions future plan planned after hdistinct hplan
      rw [planStatements] at hplan
      obtain ⟨⟨later, middle⟩, hlater, hstatement⟩ := bind_eq_some_iff.mp hplan
      rw [statementNodes] at hdistinct ⊢
      simp only [statementPaths]
      exact parts_covered hdistinct
        (planStatements_covered rounds collections rest hdistinct.append.2.1 hlater)
        (planStatement_covered rounds collections statement hdistinct.append.1 hstatement)

theorem planStatement_covered (rounds : Nat) (collections : Collections) :
    (statement : Stmt) → StatementCovered rounds collections statement
  | .assign id slot value => by
      intro live targets definitions future plan planned after hdistinct hplan
      rw [planStatement] at hplan
      obtain ⟨inner, hinner, hresult⟩ := bind_eq_some_iff.mp hplan
      obtain ⟨rfl, -⟩ := mk.inj (some.inj hresult)
      rw [stmtNodes] at hdistinct ⊢
      simp only [stmtPaths]
      have hvalue := planExpression_covered rounds collections value hdistinct.cons.1 hinner
      refine statement_covered _ hdistinct ⟨hvalue.keeps, fun final hagrees hquiet => ?_⟩
      exact lives_andThen _ (hvalue.lives final hagrees hquiet)
        (lives_write (following live targets) slot)
  | .evaluate id value => by
      intro live targets definitions future plan planned after hdistinct hplan
      rw [planStatement] at hplan
      obtain ⟨inner, hinner, hresult⟩ := bind_eq_some_iff.mp hplan
      obtain ⟨rfl, -⟩ := mk.inj (some.inj hresult)
      rw [stmtNodes] at hdistinct ⊢
      simp only [stmtPaths]
      exact statement_covered _ hdistinct
        (planExpression_covered rounds collections value hdistinct.cons.1 hinner)
  | .return id none => by
      intro live targets definitions future plan planned after hdistinct hplan
      rw [planStatement] at hplan
      obtain ⟨rfl, -⟩ := mk.inj (some.inj hplan)
      rw [stmtNodes] at hdistinct ⊢
      simp only [stmtPaths]
      have hleave : Covered [] (fun _ => leave .returns) plan plan ∅ (following live targets) :=
        ⟨Keeps.refl _ _, fun _ _ _ => lives_leave⟩
      obtain ⟨hkeeps, hlives⟩ := finish_covered ⟨∅, ∅, plan⟩ hdistinct hleave
      exact ⟨hkeeps, fun final hagrees hquiet => (hlives final hagrees hquiet).1⟩
  | .return id (some value) => by
      intro live targets definitions future plan planned after hdistinct hplan
      rw [planStatement] at hplan
      obtain ⟨inner, hinner, hresult⟩ := bind_eq_some_iff.mp hplan
      obtain ⟨rfl, -⟩ := mk.inj (some.inj hresult)
      rw [stmtNodes] at hdistinct ⊢
      simp only [stmtPaths]
      have hvalue := planExpression_covered rounds collections value hdistinct.cons.1 hinner
      have hreturn : Covered (nodes value)
          (fun final => andThen (expressionPaths collections final value) (leave .returns)) plan
          inner.plan inner.live (following live targets) :=
        ⟨hvalue.keeps, fun final hagrees hquiet =>
          lives_andThen _ (hvalue.lives final hagrees hquiet) lives_leave⟩
      obtain ⟨hkeeps, hlives⟩ := finish_covered inner hdistinct hreturn
      exact ⟨hkeeps, fun final hagrees hquiet => (hlives final hagrees hquiet).1⟩
  | .while id condition body =>
      while_covered (planExpression_covered rounds collections condition)
        (planBlock_covered rounds collections body)
  | .break id => by
      intro live targets definitions future plan planned after hdistinct hplan
      rw [planStatement] at hplan
      obtain ⟨rfl, -⟩ := mk.inj (some.inj hplan)
      rw [stmtNodes] at hdistinct ⊢
      simp only [stmtPaths]
      have hleave : Covered [] (fun _ => leave .breaks) plan plan (exits targets)
          (following live targets) := ⟨Keeps.refl _ _, fun _ _ _ => lives_leave⟩
      obtain ⟨hkeeps, hlives⟩ := finish_covered ⟨exits targets, ∅, plan⟩ hdistinct hleave
      exact ⟨hkeeps, fun final hagrees hquiet => (hlives final hagrees hquiet).1⟩
  | .continue id => by
      intro live targets definitions future plan planned after hdistinct hplan
      rw [planStatement] at hplan
      obtain ⟨rfl, -⟩ := mk.inj (some.inj hplan)
      rw [stmtNodes] at hdistinct ⊢
      simp only [stmtPaths]
      have hleave : Covered [] (fun _ => leave .continues) plan plan (heads targets)
          (following live targets) := ⟨Keeps.refl _ _, fun _ _ _ => lives_leave⟩
      obtain ⟨hkeeps, hlives⟩ := finish_covered ⟨heads targets, ∅, plan⟩ hdistinct hleave
      exact ⟨hkeeps, fun final hagrees hquiet => (hlives final hagrees hquiet).1⟩
  | .cleanup id body => by
      intro live targets definitions future plan planned after hdistinct hplan
      rw [planStatement] at hplan
      obtain ⟨rfl, -⟩ := mk.inj (some.inj hplan)
      rw [stmtNodes] at hdistinct ⊢
      simp only [stmtPaths]
      have hskip : Covered [] (fun _ => skip) plan plan live (following live targets) :=
        ⟨Keeps.refl _ _, fun _ _ _ => lives_skip (following live targets)⟩
      obtain ⟨hkeeps, hlives⟩ := finish_covered ⟨live, ∅, plan⟩ hdistinct hskip
      exact ⟨hkeeps, fun final hagrees hquiet => lives_retiring _ (hlives final hagrees hquiet).2⟩
  | .defer id => by
      intro live targets definitions future plan planned after hdistinct hplan
      rw [planStatement] at hplan
      obtain ⟨rfl, -⟩ := mk.inj (some.inj hplan)
      rw [stmtNodes] at hdistinct ⊢
      simp only [stmtPaths]
      have hskip : Covered [] (fun _ => skip) plan plan live (following live targets) :=
        ⟨Keeps.refl _ _, fun _ _ _ => lives_skip (following live targets)⟩
      obtain ⟨hkeeps, hlives⟩ := finish_covered ⟨live, ∅, plan⟩ hdistinct hskip
      exact ⟨hkeeps, fun final hagrees hquiet => lives_retiring _ (hlives final hagrees hquiet).2⟩
end

end Loom.Codegen

import Loom.Codegen.LivenessPlan

/-
  The planner always returns.

  Besides what is written to the plan, a visit computes the slots live before a
  part from those live after it and at the ends of the enclosing loop. That
  function is monotone and stays among the slots the body reads, so every loop
  settles within one round more than there are such slots.
-/

namespace Loom.Codegen

open Settling Option Finset

/-- How the slots live before a part depend on those live after it, at the end
of the enclosing loop and at its head. -/
structure Transfer (bound : Live) where
  run : Live → Live → Live → Live
  mono : ∀ {live live' leave leave' again again'}, live ⊆ live' → leave ⊆ leave' →
    again ⊆ again' → live' ⊆ bound → leave' ⊆ bound → again' ⊆ bound →
    run live leave again ⊆ run live' leave' again'
  bounded : ∀ {live leave again}, live ⊆ bound → leave ⊆ bound → again ⊆ bound →
    run live leave again ⊆ bound

variable {bound : Live}

namespace Transfer

def after : Transfer bound where
  run live _ _ := live
  mono hlive _ _ _ _ _ := hlive
  bounded hlive _ _ := hlive

def leave : Transfer bound where
  run _ leave _ := leave
  mono _ hleave _ _ _ _ := hleave
  bounded _ hleave _ := hleave

def again : Transfer bound where
  run _ _ again := again
  mono _ _ hagain _ _ _ := hagain
  bounded _ _ hagain := hagain

def nothing : Transfer bound where
  run _ _ _ := ∅
  mono _ _ _ _ _ _ := Finset.Subset.refl _
  bounded _ _ _ := empty_subset _

/-- Run the second part after the first. -/
def before (first second : Transfer bound) : Transfer bound where
  run live leave again := first.run (second.run live leave again) leave again
  mono hlive hleave hagain hl hv ha :=
    first.mono (second.mono hlive hleave hagain hl hv ha) hleave hagain
      (second.bounded hl hv ha) hv ha
  bounded hl hv ha := first.bounded (second.bounded hl hv ha) hv ha

def join (left right : Transfer bound) : Transfer bound where
  run live leave again := left.run live leave again ∪ right.run live leave again
  mono hlive hleave hagain hl hv ha :=
    union_subset_union (left.mono hlive hleave hagain hl hv ha)
      (right.mono hlive hleave hagain hl hv ha)
  bounded hl hv ha := union_subset (left.bounded hl hv ha) (right.bounded hl hv ha)

def read (slot : Nat) (hslot : slot ∈ bound) : Transfer bound where
  run live _ _ := insert slot live
  mono hlive _ _ _ _ _ := insert_subset_insert slot hlive
  bounded hlive _ _ := insert_subset hslot hlive

def write (slots : Live) : Transfer bound where
  run live _ _ := live \ slots
  mono hlive _ _ _ _ _ := sdiff_subset_sdiff hlive (Finset.Subset.refl _)
  bounded hlive _ _ := sdiff_subset.trans hlive

/-- One round of a loop, from the slots live at its head. -/
def round (condition body : Transfer bound) (live leave again head : Live) : Live :=
  condition.run (live ∪ body.run head live head) leave again

theorem round_climbs (condition body : Transfer bound) {live leave again : Live}
    (hl : live ⊆ bound) (hv : leave ⊆ bound) (ha : again ⊆ bound) :
    Climbs (condition.round body live leave again) bound where
  mono hsub hlarger := by
    have hbody := body.mono hsub (Finset.Subset.refl live) hsub hlarger hl hlarger
    refine condition.mono (union_subset_union (Finset.Subset.refl _) hbody)
      (Finset.Subset.refl _) (Finset.Subset.refl _) ?_ hv ha
    exact union_subset hl (body.bounded hlarger hl hlarger)
  bounded hhead :=
    condition.bounded (union_subset hl (body.bounded hhead hl hhead)) hv ha

/-- The settled head of a loop, given rounds enough. -/
def loop (rounds : Nat) (hrounds : bound.card < rounds) (condition body : Transfer bound) :
    Transfer bound where
  run live leave again := settled (condition.round body live leave again) rounds ∅
  mono {live live' leave leave' again again'} hlive hleave hagain hl hv ha := by
    have hclimbs := condition.round_climbs body (hlive.trans hl) (hleave.trans hv)
      (hagain.trans ha)
    have hclimbs' := condition.round_climbs body hl hv ha
    have hinside : settled (condition.round body live' leave' again') rounds ∅ ⊆ bound :=
      settled_bounded hclimbs' (empty_subset bound)
    have hfixed := settled_fixed hclimbs' (empty_subset bound) (empty_subset _)
      (by simpa using hrounds)
    -- the larger settled head is closed under the smaller loop
    refine settled_subset hclimbs ?_ hinside (empty_subset _)
    refine Finset.Subset.trans ?_ hfixed.subset
    refine condition.mono (union_subset_union hlive ?_) hleave hagain ?_ hv ha
    · exact body.mono (Finset.Subset.refl _) hlive (Finset.Subset.refl _) hinside hl hinside
    · exact union_subset hl (body.bounded hinside hl hinside)
  bounded hl hv ha := settled_bounded (condition.round_climbs body hl hv ha) (empty_subset _)

end Transfer

/-- A visit returns, and the live slots it returns are a transfer's. -/
def Computes (transfer : Transfer bound)
    (visit : Live → Targets → Live → Bool → Plan → Option Planned) : Prop :=
  ∀ live targets definitions future plan, live ⊆ bound → exits targets ⊆ bound →
    heads targets ⊆ bound → ∃ planned, visit live targets definitions future plan = some planned ∧
      planned.live = transfer.run live (exits targets) (heads targets)

def ComputesArms (transfer : Transfer bound)
    (visit : Live → Targets → Live → Bool → Plan → Option Branches) : Prop :=
  ∀ live targets definitions future plan, live ⊆ bound → exits targets ⊆ bound →
    heads targets ⊆ bound → ∃ branches, visit live targets definitions future plan = some branches ∧
      branches.live = transfer.run live (exits targets) (heads targets)

def ComputesStatements (transfer : Transfer bound)
    (visit : Live → Targets → Live → Bool → Plan → Option (Planned × Bool)) : Prop :=
  ∀ live targets definitions future plan, live ⊆ bound → exits targets ⊆ bound →
    heads targets ⊆ bound → ∃ planned after,
      visit live targets definitions future plan = some (planned, after) ∧
      planned.live = transfer.run live (exits targets) (heads targets)

theorem while_total {rounds : Nat} {collections : Collections} {id : Nat} {condition : Expr}
    {body : Block} (hrounds : bound.card < rounds) {test run : Transfer bound}
    (hcondition : Computes test (planExpression rounds collections condition))
    (hbody : Computes run (planBlock rounds collections body)) :
    ComputesStatements (Transfer.loop rounds hrounds test run)
      (planStatement rounds collections (.while id condition body)) := by
  intro live targets definitions future plan hl hv ha
  let collects := future || mayAllocate collections condition || blockAllocates collections body
  -- every round returns, whatever the rounds before it recorded
  have hround : ∀ head ⊆ bound, ∀ state : Live × Plan, ∃ result state',
      (do
        let inner ← planBlock rounds collections body head (some (live, head)) state.1 collects
          state.2
        let outer ← planExpression rounds collections condition (live ∪ inner.live) targets
          inner.definitions collects inner.plan
        some (outer.live, inner.live, outer.definitions, outer.plan)) =
      some (test.round run live (exits targets) (heads targets) head, result, state') := by
    intro head hhead state
    obtain ⟨inner, hinner, hlive⟩ :=
      hbody head (some (live, head)) state.1 collects state.2 hhead hl hhead
    have hbefore : live ∪ inner.live ⊆ bound :=
      union_subset hl (hlive ▸ run.bounded hhead hl hhead)
    obtain ⟨outer, houter, hlive'⟩ := hcondition (live ∪ inner.live) targets inner.definitions
      collects inner.plan hbefore hv ha
    refine ⟨inner.live, (outer.definitions, outer.plan), ?_⟩
    have hresult : outer.live = test.round run live (exits targets) (heads targets) head := by
      rw [hlive', hlive]; rfl
    rw [← hresult]
    exact bind_eq_some_iff.mpr
      ⟨inner, hinner, bind_eq_some_iff.mpr ⟨outer, houter, rfl⟩⟩
  obtain ⟨before, state, hsettle⟩ := settle_total _ (test.round_climbs run hl hv ha) hround
    (empty_subset bound) (empty_subset _) (by simpa using hrounds) (∅, plan)
  exact ⟨_, _, bind_eq_some_iff.mpr ⟨_, hsettle, rfl⟩, rfl⟩

mutual
theorem planExpression_total (rounds : Nat) (collections : Collections)
    (hrounds : bound.card < rounds) : (value : Expr) → slots value ⊆ bound →
    ∃ transfer : Transfer bound, Computes transfer (planExpression rounds collections value)
  | .literal id value, _ => by
      refine ⟨Transfer.after, fun live targets definitions future plan _ _ _ => ?_⟩
      rw [planExpression]; exact ⟨_, rfl, rfl⟩
  | .local id ty slot, hslots => by
      rw [slots, singleton_subset_iff] at hslots
      refine ⟨Transfer.read slot hslots, fun live targets definitions future plan _ _ _ => ?_⟩
      rw [planExpression]; exact ⟨_, rfl, rfl⟩
  | .field id receiver index, hslots => by
      rw [slots] at hslots
      obtain ⟨transfer, hreceiver⟩ :=
        planExpression_total rounds collections hrounds receiver hslots
      refine ⟨transfer, fun live targets definitions future plan hl hv ha => ?_⟩
      rw [planExpression]; exact hreceiver _ _ _ _ _ hl hv ha
  | .operation id operation operands, hslots => by
      rw [slots] at hslots
      obtain ⟨transfer, hoperands⟩ :=
        planOperands_total rounds collections hrounds operands hslots
      refine ⟨transfer, fun live targets definitions future plan hl hv ha => ?_⟩
      rw [planExpression]; exact hoperands _ _ _ _ _ hl hv ha
  | .shortCircuit id left right, hslots => by
      rw [slots, union_subset_iff] at hslots
      obtain ⟨first, hleft⟩ := planExpression_total rounds collections hrounds left hslots.1
      obtain ⟨second, hright⟩ := planExpression_total rounds collections hrounds right hslots.2
      refine ⟨first.before (second.join .after), fun live targets definitions future plan hl hv ha => ?_⟩
      obtain ⟨inner, hinner, hlive⟩ := hright live targets definitions future
        (plan.restore collections (.shortCircuit id left right) live) hl hv ha
      have hbefore : inner.live ∪ live ⊆ bound :=
        union_subset (hlive ▸ second.bounded hl hv ha) hl
      obtain ⟨outer, houter, hlive'⟩ := hleft (inner.live ∪ live) targets inner.definitions
        (future || mayAllocate collections right)
        (inner.plan.expressionRetirement id ((inner.live \ live).filter fun _ => future))
        hbefore hv ha
      rw [planExpression]
      refine ⟨outer, bind_eq_some_iff.mpr ⟨inner, hinner, houter⟩, ?_⟩
      rw [hlive', hlive]; rfl
  | .block id body, hslots => by
      rw [slots] at hslots
      obtain ⟨transfer, hbody⟩ := planBlock_total rounds collections hrounds body hslots
      refine ⟨transfer, fun live targets definitions future plan hl hv ha => ?_⟩
      rw [planExpression]; exact hbody _ _ _ _ _ hl hv ha
  | .conditional id condition thenBody none, hslots => by
      rw [slots, union_subset_iff] at hslots
      obtain ⟨test, hcondition⟩ :=
        planExpression_total rounds collections hrounds condition hslots.1
      obtain ⟨first, hthen⟩ := planBlock_total rounds collections hrounds thenBody hslots.2
      refine ⟨test.before (first.join .after), fun live targets definitions future plan hl hv ha => ?_⟩
      obtain ⟨yes, hyes, hlive⟩ := hthen live targets definitions future
        (plan.restore collections (.conditional id condition thenBody none) live) hl hv ha
      have hbefore : yes.live ∪ live ⊆ bound :=
        union_subset (hlive ▸ first.bounded hl hv ha) hl
      obtain ⟨outer, houter, hlive'⟩ := hcondition (yes.live ∪ live) targets yes.definitions
        _ _ hbefore hv ha
      rw [planExpression]
      refine ⟨outer, bind_eq_some_iff.mpr ⟨yes, hyes, houter⟩, ?_⟩
      rw [hlive', hlive]; rfl
  | .conditional id condition thenBody (some elseBody), hslots => by
      rw [slots, union_subset_iff, union_subset_iff] at hslots
      obtain ⟨test, hcondition⟩ :=
        planExpression_total rounds collections hrounds condition hslots.1.1
      obtain ⟨first, hthen⟩ := planBlock_total rounds collections hrounds thenBody hslots.1.2
      obtain ⟨second, helse⟩ := planBlock_total rounds collections hrounds elseBody hslots.2
      refine ⟨test.before (first.join second), fun live targets definitions future plan hl hv ha => ?_⟩
      obtain ⟨yes, hyes, hlive⟩ := hthen live targets definitions future
        (plan.restore collections (.conditional id condition thenBody (some elseBody)) live) hl hv ha
      obtain ⟨no, hno, hlive'⟩ := helse live targets yes.definitions future yes.plan hl hv ha
      have hbefore : yes.live ∪ no.live ⊆ bound :=
        union_subset (hlive ▸ first.bounded hl hv ha) (hlive' ▸ second.bounded hl hv ha)
      obtain ⟨outer, houter, hlive''⟩ := hcondition (yes.live ∪ no.live) targets no.definitions
        _ _ hbefore hv ha
      rw [planExpression]
      refine ⟨outer, bind_eq_some_iff.mpr ⟨yes, hyes,
        bind_eq_some_iff.mpr ⟨no, hno, houter⟩⟩, ?_⟩
      rw [hlive'', hlive, hlive']; rfl
  | .matching id value arms, hslots => by
      rw [slots, union_subset_iff] at hslots
      obtain ⟨subject, hvalue⟩ := planExpression_total rounds collections hrounds value hslots.1
      obtain ⟨choice, harms⟩ := planArms_total rounds collections hrounds arms hslots.2
      refine ⟨subject.before choice, fun live targets definitions future plan hl hv ha => ?_⟩
      obtain ⟨branches, hbranches, hlive⟩ := harms live targets definitions future
        (plan.restore collections (.matching id value arms) live) hl hv ha
      have hbefore : branches.live ⊆ bound := hlive ▸ choice.bounded hl hv ha
      obtain ⟨outer, houter, hlive'⟩ := hvalue branches.live targets branches.definitions
        _ _ hbefore hv ha
      rw [planExpression]
      refine ⟨outer, bind_eq_some_iff.mpr ⟨branches, hbranches, houter⟩, ?_⟩
      rw [hlive', hlive]; rfl

theorem planOperands_total (rounds : Nat) (collections : Collections)
    (hrounds : bound.card < rounds) : (operands : List Expr) → operandSlots operands ⊆ bound →
    ∃ transfer : Transfer bound, Computes transfer (planOperands rounds collections operands)
  | [], _ => by
      refine ⟨Transfer.after, fun live targets definitions future plan _ _ _ => ?_⟩
      rw [planOperands]; exact ⟨_, rfl, rfl⟩
  | value :: rest, hslots => by
      rw [operandSlots, union_subset_iff] at hslots
      obtain ⟨first, hvalue⟩ := planExpression_total rounds collections hrounds value hslots.1
      obtain ⟨others, hrest⟩ := planOperands_total rounds collections hrounds rest hslots.2
      refine ⟨first.before others, fun live targets definitions future plan hl hv ha => ?_⟩
      obtain ⟨later, hlater, hlive⟩ := hrest live targets definitions future plan hl hv ha
      obtain ⟨outer, houter, hlive'⟩ := hvalue later.live targets later.definitions
        (future || anyAllocates collections rest) later.plan (hlive ▸ others.bounded hl hv ha) hv ha
      rw [planOperands]
      refine ⟨outer, bind_eq_some_iff.mpr ⟨later, hlater, houter⟩, ?_⟩
      rw [hlive', hlive]; rfl

theorem planArms_total (rounds : Nat) (collections : Collections)
    (hrounds : bound.card < rounds) : (arms : List Arm) → armSlots arms ⊆ bound →
    ∃ transfer : Transfer bound, ComputesArms transfer (planArms rounds collections arms)
  | [], _ => by
      refine ⟨Transfer.nothing, fun live targets definitions future plan _ _ _ => ?_⟩
      rw [planArms]; exact ⟨_, rfl, rfl⟩
  | .mk variant bindings whole body :: rest, hslots => by
      rw [armSlots, union_subset_iff] at hslots
      obtain ⟨first, hbody⟩ := planBlock_total rounds collections hrounds body hslots.1
      obtain ⟨others, hrest⟩ := planArms_total rounds collections hrounds rest hslots.2
      let stored := (Arm.mk variant bindings whole body).stored.toFinset
      refine ⟨((Transfer.write stored).before first).join others,
        fun live targets definitions future plan hl hv ha => ?_⟩
      obtain ⟨before, hbefore, hlive⟩ := hbody live targets definitions future plan hl hv ha
      obtain ⟨later, hlater, hlive'⟩ := hrest live targets (before.definitions ∪ stored) future
        before.plan hl hv ha
      rw [planArms]
      refine ⟨_, bind_eq_some_iff.mpr ⟨before, hbefore,
        bind_eq_some_iff.mpr ⟨later, hlater, rfl⟩⟩, ?_⟩
      simp only [hlive, hlive']; rfl

theorem planBlock_total (rounds : Nat) (collections : Collections)
    (hrounds : bound.card < rounds) : (body : Block) → blockSlots body ⊆ bound →
    ∃ transfer : Transfer bound, Computes transfer (planBlock rounds collections body)
  | .mk id statements none, hslots => by
      rw [blockSlots] at hslots
      obtain ⟨transfer, hstatements⟩ :=
        planStatements_total rounds collections hrounds statements hslots
      refine ⟨transfer, fun live targets definitions future plan hl hv ha => ?_⟩
      obtain ⟨planned, after, hplan, hlive⟩ :=
        hstatements live targets definitions future plan hl hv ha
      rw [planBlock]
      exact ⟨planned, bind_eq_some_iff.mpr ⟨_, hplan, rfl⟩, hlive⟩
  | .mk id statements (some tail), hslots => by
      rw [blockSlots, union_subset_iff] at hslots
      obtain ⟨first, hstatements⟩ :=
        planStatements_total rounds collections hrounds statements hslots.1
      obtain ⟨second, htail⟩ := planExpression_total rounds collections hrounds tail hslots.2
      refine ⟨first.before second, fun live targets definitions future plan hl hv ha => ?_⟩
      obtain ⟨last, hlast, hlive⟩ := htail live targets definitions future plan hl hv ha
      obtain ⟨planned, after, hplan, hlive'⟩ := hstatements last.live targets last.definitions
        (future || mayAllocate collections tail) last.plan (hlive ▸ second.bounded hl hv ha) hv ha
      rw [planBlock]
      refine ⟨planned, bind_eq_some_iff.mpr ⟨last, hlast,
        bind_eq_some_iff.mpr ⟨_, hplan, rfl⟩⟩, ?_⟩
      rw [hlive', hlive]; rfl

theorem planStatements_total (rounds : Nat) (collections : Collections)
    (hrounds : bound.card < rounds) : (statements : List Stmt) →
    statementSlots statements ⊆ bound → ∃ transfer : Transfer bound,
      ComputesStatements transfer (planStatements rounds collections statements)
  | [], _ => by
      refine ⟨Transfer.after, fun live targets definitions future plan _ _ _ => ?_⟩
      rw [planStatements]; exact ⟨_, _, rfl, rfl⟩
  | statement :: rest, hslots => by
      rw [statementSlots, union_subset_iff] at hslots
      obtain ⟨first, hstatement⟩ :=
        planStatement_total rounds collections hrounds statement hslots.1
      obtain ⟨others, hrest⟩ := planStatements_total rounds collections hrounds rest hslots.2
      refine ⟨first.before others, fun live targets definitions future plan hl hv ha => ?_⟩
      obtain ⟨later, middle, hlater, hlive⟩ := hrest live targets definitions future plan hl hv ha
      obtain ⟨planned, after, hplan, hlive'⟩ := hstatement later.live targets later.definitions
        middle later.plan (hlive ▸ others.bounded hl hv ha) hv ha
      rw [planStatements]
      refine ⟨planned, after, bind_eq_some_iff.mpr ⟨_, hlater, hplan⟩, ?_⟩
      rw [hlive', hlive]; rfl

theorem planStatement_total (rounds : Nat) (collections : Collections)
    (hrounds : bound.card < rounds) : (statement : Stmt) → stmtSlots statement ⊆ bound →
    ∃ transfer : Transfer bound,
      ComputesStatements transfer (planStatement rounds collections statement)
  | .assign id slot value, hslots => by
      rw [stmtSlots] at hslots
      obtain ⟨transfer, hvalue⟩ := planExpression_total rounds collections hrounds value hslots
      refine ⟨transfer.before (.write {slot}), fun live targets definitions future plan hl hv ha => ?_⟩
      obtain ⟨planned, hplan, hlive⟩ := hvalue (live.erase slot) targets {slot} future plan
        ((erase_subset slot live).trans hl) hv ha
      rw [planStatement]
      refine ⟨_, _, bind_eq_some_iff.mpr ⟨planned, hplan, rfl⟩, ?_⟩
      rw [erase_eq] at hlive; exact hlive
  | .evaluate id value, hslots => by
      rw [stmtSlots] at hslots
      obtain ⟨transfer, hvalue⟩ := planExpression_total rounds collections hrounds value hslots
      refine ⟨transfer, fun live targets definitions future plan hl hv ha => ?_⟩
      obtain ⟨planned, hplan, hlive⟩ := hvalue live targets ∅ future plan hl hv ha
      rw [planStatement]
      exact ⟨_, _, bind_eq_some_iff.mpr ⟨planned, hplan, rfl⟩, hlive⟩
  | .return id none, _ => by
      refine ⟨Transfer.nothing, fun live targets definitions future plan _ _ _ => ?_⟩
      rw [planStatement]; exact ⟨_, _, rfl, rfl⟩
  | .return id (some value), hslots => by
      rw [stmtSlots] at hslots
      obtain ⟨transfer, hvalue⟩ := planExpression_total rounds collections hrounds value hslots
      refine ⟨transfer.before .nothing, fun live targets definitions future plan _ hv ha => ?_⟩
      obtain ⟨planned, hplan, hlive⟩ :=
        hvalue ∅ targets ∅ false plan (empty_subset _) hv ha
      rw [planStatement]
      exact ⟨_, _, bind_eq_some_iff.mpr ⟨planned, hplan, rfl⟩, hlive⟩
  | .while id condition body, hslots => by
      rw [stmtSlots, union_subset_iff] at hslots
      obtain ⟨test, hcondition⟩ :=
        planExpression_total rounds collections hrounds condition hslots.1
      obtain ⟨run, hbody⟩ := planBlock_total rounds collections hrounds body hslots.2
      exact ⟨_, while_total hrounds hcondition hbody⟩
  | .break id, _ => by
      refine ⟨Transfer.leave, fun live targets definitions future plan _ _ _ => ?_⟩
      rw [planStatement]; exact ⟨_, _, rfl, rfl⟩
  | .continue id, _ => by
      refine ⟨Transfer.again, fun live targets definitions future plan _ _ _ => ?_⟩
      rw [planStatement]; exact ⟨_, _, rfl, rfl⟩
  | .cleanup id body, _ => by
      refine ⟨Transfer.after, fun live targets definitions future plan _ _ _ => ?_⟩
      rw [planStatement]; exact ⟨_, _, rfl, rfl⟩
  | .defer id, _ => by
      refine ⟨Transfer.after, fun live targets definitions future plan _ _ _ => ?_⟩
      rw [planStatement]; exact ⟨_, _, rfl, rfl⟩
end

/-- The planner returns on every body, given one round more than the slots it
reads. -/
theorem Plan.new_total (block : Block) (parameters : Nat) (pinned : Live)
    (collections : Collections) {rounds : Nat} (hrounds : (blockSlots block).card < rounds) :
    ∃ plan, Plan.new rounds block parameters pinned collections = some plan := by
  obtain ⟨transfer, hblock⟩ := planBlock_total rounds collections hrounds block
    (Finset.Subset.refl _)
  obtain ⟨planned, hplan, -⟩ := hblock ∅ none ∅ collections.shared _ (empty_subset _)
    (empty_subset _) (empty_subset _)
  exact ⟨_, bind_eq_some_iff.mpr ⟨planned, hplan, rfl⟩⟩

end Loom.Codegen

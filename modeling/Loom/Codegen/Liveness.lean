import Loom.Codegen.LivenessSound
import Loom.Codegen.LivenessSettles

/-
  GC liveness: the planner returns on every body, and its plan is safe on every
  path through it.

  What is proved:
    1. `Plan.new_safe`: no slot of an entry, retired or expression set is read
       later on a path before it is written again, and a safe point restores
       every slot that is.
    2. `plan_sound`: the same with the planner's termination.
    3. `restores_only_needed`: a slot written after a safe point and read later
       is not restored there.
-/

namespace Loom.Codegen

open Liveness Finset

theorem Plan.new_safe (body : Body) (parameters : Nat) (pinned : Live)
    (collections : Collections) {rounds : Nat} {plan : Plan}
    (hplan : Plan.new rounds body.block parameters pinned collections = some plan)
    {trace : Trace Nat} {outcome : Outcome}
    (hpath : entering plan body.block (blockPaths collections plan body.block) trace outcome) :
    Safe trace := by
  obtain ⟨before, hbefore, hresult⟩ := Option.bind_eq_some_iff.mp hplan
  cases hresult
  have hdistinct : Distinct ((body.block.id, .entered) :: blockNodes body.block) := body.distinct
  obtain ⟨hinner, hapart⟩ := hdistinct.cons
  have hcovered := planBlock_covered rounds collections body.block hinner hbefore
  have henter := keeps_enter before.plan body.block.id ((range parameters).filter fun id =>
    blockAllocates collections body.block ∧ id ∉ before.live)
  -- nothing is recorded under a name but by its own role
  have hquiet : Quiet (blockNodes body.block) (before.plan.enter body.block.id
      ((range parameters).filter fun id =>
        blockAllocates collections body.block ∧ id ∉ before.live)) := by
    have hroles : ∀ {id first second}, (id, first) ∈ blockNodes body.block →
        (id, second) ∈ blockNodes body.block → first = second := by
      intro id first second hfirst hsecond
      have hsame := List.inj_on_of_nodup_map hinner hfirst hsecond rfl
      exact (Prod.mk.inj hsame).2
    refine ⟨fun id hid => ?_, fun id hid => ?_⟩
    · exact hcovered.keeps.expressions id fun hmem => by cases hroles hid hmem
    · rw [henter.entries id fun hmem => hapart id _ _ hmem hid]
      exact hcovered.keeps.entries id fun hmem => by cases hroles hid hmem
  have hlives := hcovered.lives _ ((Agrees.refl _ _).earlier henter hapart.symm) hquiet
  have hdead : Disjoint (((before.plan.enter body.block.id ((range parameters).filter
      fun id => blockAllocates collections body.block ∧ id ∉ before.live)).entries
        body.block.id).getD ∅) before.live := by
    rw [show (before.plan.enter body.block.id ((range parameters).filter fun id =>
      blockAllocates collections body.block ∧ id ∉ before.live)).entries body.block.id = some _
        from Function.update_self ..]
    rw [disjoint_left]
    intro slot hslot hlive; exact (mem_filter.mp hslot).2.2 hlive
  exact (lives_entering _ hdead (Finset.Subset.refl _) hlives).safe hpath

theorem plan_sound (body : Body) (parameters : Nat) (pinned : Live) (collections : Collections)
    {rounds : Nat} (hrounds : (blockSlots body.block).card < rounds) :
    ∃ plan, Plan.new rounds body.block parameters pinned collections = some plan ∧ ∀ trace outcome,
        entering plan body.block (blockPaths collections plan body.block) trace outcome →
        Safe trace := by
  obtain ⟨plan, hplan⟩ := Plan.new_total body.block parameters pinned collections hrounds
  exact ⟨plan, hplan, fun trace outcome hpath =>
    Plan.new_safe body parameters pinned collections hplan hpath⟩

/-! `let x = f(); x`, where `f` allocates. -/

def collectingCall : Body where
  block := .mk 0 [.assign 1 7 (.operation 2 (.call 0) [])] (some (.local 3 .text 7))
  distinct := by decide

def onlyCalls : Collections where
  allocating := fun _ => true
  allocates := fun _ => false
  shared := false

theorem plan_sound_collectingCall :
    ∃ plan, Plan.new 2 collectingCall.block 0 ∅ onlyCalls = some plan ∧ ∀ trace outcome,
        entering plan collectingCall.block (blockPaths onlyCalls plan collectingCall.block)
          trace outcome → Safe trace := plan_sound collectingCall 0 ∅ onlyCalls (by decide)

/-- Everything a trace reads, written before or not. -/
def reads : Trace Nat → Finset Nat
  | [] => ∅
  | .read slot :: rest => insert slot (reads rest)
  | _ :: rest => reads rest

theorem restores_only_needed : ∃ plan, Plan.new 2 collectingCall.block 0 ∅ onlyCalls = some plan ∧
      ∃ earlier restored later,
        entering plan collectingCall.block (blockPaths onlyCalls plan collectingCall.block)
          (earlier ++ .safepoint restored :: later) .normal ∧ 7 ∈ reads later ∧ 7 ∉ restored := by
  obtain ⟨plan, hplan⟩ : ∃ plan, Plan.new 2 collectingCall.block 0 ∅ onlyCalls = some plan :=
    Plan.new_total collectingCall.block 0 ∅ onlyCalls (by decide)
  have hrestores : plan.restores 2 = some ∅ := by
    have hevaluated : (Plan.new 2 collectingCall.block 0 ∅ onlyCalls).bind
        (fun plan => plan.restores 2) = some ∅ := by decide
    rwa [hplan] at hevaluated
  refine ⟨plan, hplan, [.retire ((plan.entries 0).getD ∅)], (plan.restores 2).getD ∅,
    [.retire ((plan.expressions 2).getD ∅), .write 7, .retire ((plan.retired 1).getD ∅), .read 7,
      .retire ((plan.expressions 3).getD ∅)], ?_, by simp [reads], by simp [hrestores]⟩
  have hemit : ∀ event : Event Nat, emit event [event] .normal := fun event => .inr ⟨rfl, rfl⟩
  have hcall : expressionPaths onlyCalls plan (.operation 2 (.call 0) [])
      [.safepoint ((plan.restores 2).getD ∅), .retire ((plan.expressions 2).getD ∅)] .normal := by
    exact .inr ⟨[], _, rfl, ⟨rfl, rfl⟩, .inr ⟨[_], [_], rfl, hemit _, hemit _⟩⟩
  have hassign : stmtPaths onlyCalls plan (.assign 1 7 (.operation 2 (.call 0) []))
      [.safepoint ((plan.restores 2).getD ∅), .retire ((plan.expressions 2).getD ∅), .write 7,
        .retire ((plan.retired 1).getD ∅)] .normal := by
    exact .inr ⟨[_, _, _], [_], rfl, .inr ⟨[_, _], [_], rfl, hcall, hemit _⟩, hemit _⟩
  have htail : expressionPaths onlyCalls plan (.local 3 .text 7)
      [.read 7, .retire ((plan.expressions 3).getD ∅)] .normal := by
    exact .inr ⟨[_], [_], rfl, hemit _, hemit _⟩
  refine .inr ⟨[_], _, rfl, hemit _, ?_⟩
  exact .inr ⟨[_, _, _, _], [_, _], rfl, .inr ⟨[_, _, _, _], [], rfl, hassign, ⟨rfl, rfl⟩⟩, htail⟩

end Loom.Codegen

import Mathlib.Data.Finset.Basic
import Mathlib.Data.Finset.SDiff
import Mathlib.Data.Finset.Lattice.Basic
import Mathlib.Tactic.Common

/-
  Liveness along the paths of structured programs.

  A program is the set of its paths: each a trace of reads, writes and of the
  two things a collector's bookkeeping does (retire a set of slots, or offer a
  safe point at which only some slots are restored), with the way it ends.
  Every path may halt at any event, so the prefixes of endless runs are paths.

  What is proved: one rule for each way paths are put together, for the
  judgement `Lives paths live after`. The rules run backwards, as liveness
  analyses do: from what is needed after each ending to what is needed before.
  `Lives.safe` reads the result off for whole paths.
-/

namespace Loom.Liveness

open Finset List

variable {α : Type} [DecidableEq α]

inductive Event (α : Type) where
  | read (slot : α)
  | write (slot : α)
  | retire (dead : Finset α)
  /-- A safe point, with the slots that are restored after it. -/
  | safepoint (restored : Finset α)

inductive Outcome where
  | normal | breaks | continues | returns | halts
  deriving DecidableEq

abbrev Trace (α : Type) := List (Event α)

abbrev Paths (α : Type) := Trace α → Outcome → Prop

/-- The slots a trace reads before it writes them. -/
def needs : Trace α → Finset α
  | [] => ∅
  | .read slot :: rest => insert slot (needs rest)
  | .write slot :: rest => (needs rest).erase slot
  | .retire _ :: rest => needs rest
  | .safepoint _ :: rest => needs rest

/-- What an event owes to the trace after it: nothing retired is read before
it is written again, and what is read before it is written is restored. -/
def Respects : Event α → Trace α → Prop
  | .read _, _ => True
  | .write _, _ => True
  | .retire dead, rest => ∀ slot ∈ dead, slot ∉ needs rest
  | .safepoint restored, rest => ∀ slot ∈ needs rest, slot ∈ restored

/-- Every event of the trace respects the trace after it. -/
def Safe (trace : Trace α) : Prop :=
  ∀ earlier event later, trace = earlier ++ event :: later → Respects event later

theorem safe_nil : Safe ([] : Trace α) := by
  intro earlier event later htrace; simp at htrace

theorem safe_cons {event : Event α} {rest : Trace α} :
    Safe (event :: rest) ↔ Respects event rest ∧ Safe rest := by
  refine ⟨fun hsafe => ⟨hsafe [] event rest rfl, ?_⟩, fun ⟨hfirst, hrest⟩ => ?_⟩
  · intro earlier other later htrace
    exact hsafe (event :: earlier) other later (by rw [htrace, cons_append])
  · intro earlier other later htrace
    cases earlier with
    | nil =>
      obtain ⟨rfl, rfl⟩ := htrace
      exact hfirst
    | cons first earlier =>
      rw [cons_append, cons.injEq] at htrace
      exact hrest earlier other later htrace.2

/-! ## Putting paths together -/

def skip : Paths α := fun trace outcome => trace = [] ∧ outcome = .normal

/-- A single event, or a halt just before it. -/
def emit (event : Event α) : Paths α := fun trace outcome =>
  (trace = [] ∧ outcome = .halts) ∨ (trace = [event] ∧ outcome = .normal)

/-- A jump out of the surrounding statements. -/
def leave (ending : Outcome) : Paths α := fun trace outcome => trace = [] ∧ outcome = ending

def andThen (first second : Paths α) : Paths α := fun trace outcome =>
  (first trace outcome ∧ outcome ≠ .normal) ∨
    ∃ head tail, trace = head ++ tail ∧ first head .normal ∧ second tail outcome

def either (first second : Paths α) : Paths α := fun trace outcome =>
  first trace outcome ∨ second trace outcome

/-- Run the condition, then leave or run the body and start over. -/
inductive Loop (condition body : Paths α) : Trace α → Outcome → Prop where
  | done {trace} : condition trace .normal → Loop condition body trace .normal
  | stuck {trace outcome} : condition trace outcome → outcome ≠ .normal →
      Loop condition body trace outcome
  | breaks {head tail} : condition head .normal → body tail .breaks →
      Loop condition body (head ++ tail) .normal
  | escapes {head tail outcome} : condition head .normal → body tail outcome →
      outcome = .returns ∨ outcome = .halts → Loop condition body (head ++ tail) outcome
  | again {head middle tail ending outcome} : condition head .normal → body middle ending →
      ending = .normal ∨ ending = .continues → Loop condition body tail outcome →
      Loop condition body (head ++ (middle ++ tail)) outcome

/-! ## The judgement -/

/-- What is needed after each ending. After a return or a halt nothing is. -/
structure After (α : Type) where
  normal : Finset α
  breaks : Finset α
  continues : Finset α

def After.needed (after : After α) : Outcome → Finset α
  | .normal => after.normal
  | .breaks => after.breaks
  | .continues => after.continues
  | .returns => ∅
  | .halts => ∅

/-- Before the paths only `live` is needed, if no more than `after` is needed
after them; and the paths are safe before any such continuation. -/
def Lives (paths : Paths α) (live : Finset α) (after : After α) : Prop :=
  ∀ trace outcome rest, paths trace outcome → needs rest ⊆ after.needed outcome → Safe rest →
    needs (trace ++ rest) ⊆ live ∧ Safe (trace ++ rest)

variable {paths first second : Paths α} {live middle : Finset α} {after : After α}

/-- A whole path of a program is safe. -/
theorem Lives.safe (hlives : Lives paths live after) {trace : Trace α} {outcome : Outcome}
    (hpath : paths trace outcome) : Safe trace := by
  have hempty : needs ([] : Trace α) ⊆ after.needed outcome := empty_subset _
  have hsafe := (hlives trace outcome [] hpath hempty safe_nil).2
  rwa [append_nil] at hsafe

theorem Lives.mono {wider : Finset α} (hlives : Lives paths live after) (hsub : live ⊆ wider) :
    Lives paths wider after := by
  intro trace outcome rest hpath hneeds hsafe
  obtain ⟨hbefore, hwhole⟩ := hlives trace outcome rest hpath hneeds hsafe
  exact ⟨hbefore.trans hsub, hwhole⟩

theorem lives_skip (after : After α) : Lives skip after.normal after := by
  intro trace outcome rest hpath hneeds hsafe
  obtain ⟨rfl, rfl⟩ := hpath
  exact ⟨hneeds, hsafe⟩

theorem lives_leave {ending : Outcome} : Lives (leave ending) (after.needed ending) after := by
  intro trace outcome rest hpath hneeds hsafe
  obtain ⟨rfl, rfl⟩ := hpath
  exact ⟨hneeds, hsafe⟩

/-- The events, each with what it adds to or takes from the needs. -/
theorem lives_emit {event : Event α}
    (hneeds : ∀ rest, needs rest ⊆ after.normal → needs (event :: rest) ⊆ live)
    (hrespects : ∀ rest, needs rest ⊆ after.normal → Respects event rest) :
    Lives (emit event) live after := by
  intro trace outcome rest hpath hrest hsafe
  rcases hpath with ⟨rfl, rfl⟩ | ⟨rfl, rfl⟩
  · exact ⟨hrest.trans (empty_subset _), hsafe⟩
  · exact ⟨hneeds rest hrest, safe_cons.mpr ⟨hrespects rest hrest, hsafe⟩⟩

theorem lives_read (after : After α) (slot : α) :
    Lives (emit (.read slot)) (insert slot after.normal) after := by
  apply lives_emit
  · intro rest hrest; exact insert_subset_insert slot hrest
  · intro _ _; trivial

theorem lives_write (after : After α) (slot : α) :
    Lives (emit (.write slot)) (after.normal.erase slot) after := by
  apply lives_emit
  · intro rest hrest; exact erase_subset_erase slot hrest
  · intro _ _; trivial

theorem lives_retire (after : After α) {dead : Finset α} (hdead : Disjoint dead after.normal) :
    Lives (emit (.retire dead)) after.normal after := by
  apply lives_emit
  · intro rest hrest; exact hrest
  · intro rest hrest slot hslot hneeded
    exact disjoint_left.mp hdead hslot (hrest hneeded)

theorem lives_safepoint (after : After α) {restored : Finset α}
    (hrestored : after.normal ⊆ restored) :
    Lives (emit (.safepoint restored)) after.normal after := by
  apply lives_emit
  · intro rest hrest; exact hrest
  · intro rest hrest slot hneeded; exact hrestored (hrest hneeded)

theorem lives_andThen (middle : Finset α) (hfirst : Lives first live { after with normal := middle })
    (hsecond : Lives second middle after) : Lives (andThen first second) live after := by
  intro trace outcome rest hpath hneeds hsafe
  rcases hpath with ⟨hleft, hending⟩ | ⟨head, tail, rfl, hleft, hright⟩
  · -- the first part does not end normally, so it keeps its own continuation
    refine hfirst trace outcome rest hleft ?_ hsafe
    cases outcome
    case normal => exact absurd rfl hending
    all_goals exact hneeds
  · obtain ⟨hmiddle, hsafe'⟩ := hsecond tail outcome rest hright hneeds hsafe
    rw [append_assoc]
    exact hfirst head .normal (tail ++ rest) hleft hmiddle hsafe'

theorem lives_either (hfirst : Lives first live after) (hsecond : Lives second live after) :
    Lives (either first second) live after := by
  intro trace outcome rest hpath hneeds hsafe
  rcases hpath with hleft | hright
  · exact hfirst trace outcome rest hleft hneeds hsafe
  · exact hsecond trace outcome rest hright hneeds hsafe

/-- The loop rule. `head` is needed before the condition, `middle` before the
body; the body's own jumps lead to the end of the loop and to its head. -/
theorem lives_loop (after : After α) {condition body : Paths α} {head : Finset α}
    (hcondition : Lives condition head { after with normal := after.normal ∪ middle })
    (hbody : Lives body middle ⟨head, after.normal, head⟩) :
    Lives (Loop condition body) head after := by
  -- induction on the iterations; `head` is the invariant
  intro trace outcome rest hpath
  induction hpath with
  | done htest =>
    intro hneeds hsafe
    exact hcondition _ .normal rest htest (hneeds.trans subset_union_left) hsafe
  | @stuck trace outcome htest hending =>
    intro hneeds hsafe
    refine hcondition trace outcome rest htest ?_ hsafe
    cases outcome
    case normal => exact absurd rfl hending
    all_goals exact hneeds
  | breaks htest hrun =>
    intro hneeds hsafe
    obtain ⟨hmiddle, hsafe'⟩ := hbody _ .breaks rest hrun hneeds hsafe
    rw [append_assoc]
    exact hcondition _ .normal _ htest (hmiddle.trans subset_union_right) hsafe'
  | @escapes _ tail outcome htest hrun hending =>
    intro hneeds hsafe
    have hnone : needs rest ⊆ (After.mk head after.normal head).needed outcome := by
      rcases hending with rfl | rfl <;> exact hneeds
    obtain ⟨hmiddle, hsafe'⟩ := hbody tail outcome rest hrun hnone hsafe
    rw [append_assoc]
    exact hcondition _ .normal _ htest (hmiddle.trans subset_union_right) hsafe'
  | @again _ run tail ending outcome htest hrun hending _ ih =>
    intro hneeds hsafe
    obtain ⟨hhead, hsafe'⟩ := ih hneeds hsafe
    have hback : needs (tail ++ rest) ⊆ (After.mk head after.normal head).needed ending := by
      rcases hending with rfl | rfl <;> exact hhead
    obtain ⟨hmiddle, hsafe''⟩ := hbody run ending (tail ++ rest) hrun hback hsafe'
    rw [append_assoc, append_assoc]
    exact hcondition _ .normal _ htest (hmiddle.trans subset_union_right) hsafe''

end Loom.Liveness

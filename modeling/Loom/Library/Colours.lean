import Mathlib.Data.Finset.Card
import Mathlib.Logic.Relation

/-
  A depth-first search with three colours.

  A node is unseen, active while its children are searched, and done after them. A node
  that is met while it is active closes a cycle, and the search refuses. A label is handed
  down the path, so that a refusal can say what it is about.
-/

namespace Loom.Colours

open Relation Finset

inductive Colour where
  | unseen | active | done
  deriving DecidableEq

/-- A graph and how it is searched: only inner nodes are entered. -/
structure Search (ι κ ε : Type*) where
  inner : ι → Bool
  children : ι → List ι
  /-- what a node makes of the label of its parent -/
  label : κ → ι → κ
  refuse : κ → ε
  exhausted : ε

variable {ι κ ε : Type*}

def paint [DecidableEq ι] (states : ι → Colour) (node : ι) (colour : Colour) : ι → Colour :=
  fun other => if other = node then colour else states other

/-- The loop over some nodes. -/
def visitAll (visit : ι → (ι → Colour) → Except ε (ι → Colour)) :
    List ι → (ι → Colour) → Except ε (ι → Colour)
  | [], states => .ok states
  | node :: rest, states => do
    let states ← visit node states
    visitAll visit rest states

def visit [DecidableEq ι] (g : Search ι κ ε) : Nat → κ → ι → (ι → Colour) → Except ε (ι → Colour)
  | 0, _, _, _ => .error g.exhausted
  | fuel + 1, label, node, states =>
    if !g.inner node then .ok states
    else match states node with
      | .done => .ok states
      | .active => .error (g.refuse (g.label label node))
      | .unseen => do
        let states ← visitAll (visit g fuel (g.label label node)) (g.children node)
          (paint states node .active)
        return paint states node .done

@[simp] theorem paint_self [DecidableEq ι] (states : ι → Colour) (node : ι) (colour : Colour) :
    paint states node colour node = colour := if_pos rfl

variable {node : ι} {states : ι → Colour} {g : Search ι κ ε} {before after : ι → Colour}
  {nodes : Finset ι}

theorem paint_other [DecidableEq ι] {other : ι} (colour : Colour) (h : other ≠ node) :
    paint states node colour other = states other := if_neg h

/-! ## Paths -/

/-- An edge out of a node that the search enters. -/
def Search.Edge (g : Search ι κ ε) (node child : ι) : Prop :=
  g.inner node = true ∧ child ∈ g.children node

/-- No infinite path starts here. -/
def Search.Ends (g : Search ι κ ε) (node : ι) : Prop :=
  Acc (fun child parent => g.Edge parent child) node

theorem Search.ends_of_leaf (h : g.inner node = false) : g.Ends node := by
  apply Acc.intro
  intro child hedge; exact absurd hedge.1 (by simp [h])

theorem Search.ends_of_children (h : ∀ child ∈ g.children node, g.Ends child) : g.Ends node := by
  apply Acc.intro
  intro child hedge; exact h child hedge.2

theorem not_cycle_of_acc {α : Type*} {step : α → α → Prop} {node : α}
    (h : Acc (fun child parent => step parent child) node) : ¬TransGen step node node := by
  induction h with
  | intro node _ ih =>
    intro hcycle
    -- the cycle also goes through the next node on it
    obtain ⟨next, hstep, hback⟩ := TransGen.head'_iff.mp hcycle
    exact ih next hstep (TransGen.tail' hback hstep)

/-! ## What a search leaves -/

/-- How many of the nodes have not been seen. -/
def remaining (nodes : Finset ι) (states : ι → Colour) : Nat :=
  (nodes.filter fun node => states node = .unseen).card

/-- What holds before a node is searched: the active nodes are on the path to it. -/
structure Coloured (g : Search ι κ ε) (states : ι → Colour) (node : ι) : Prop where
  done : ∀ other, states other = .done → g.Ends other
  active : ∀ other, states other = .active → TransGen g.Edge other node

/-- What a search that succeeds changes. -/
structure Settled (g : Search ι κ ε) (before after : ι → Colour) : Prop where
  done : ∀ other, after other = .done → g.Ends other
  active : ∀ other, after other = .active ↔ before other = .active
  unseen : ∀ other, after other = .unseen → before other = .unseen

theorem Settled.refl (h : ∀ other, states other = .done → g.Ends other) : Settled g states states :=
  ⟨h, fun _ => Iff.rfl, fun _ => id⟩

theorem Settled.trans {first second third : ι → Colour} (left : Settled g first second)
    (right : Settled g second third) : Settled g first third where
  done := right.done
  active other := (right.active other).trans (left.active other)
  unseen other h := left.unseen other (right.unseen other h)

theorem Settled.coloured (h : Settled g before after) (hnode : Coloured g before node) :
    Coloured g after node where
  done := h.done
  active other hactive := hnode.active other ((h.active other).mp hactive)

theorem Settled.remaining_le (h : Settled g before after) (nodes : Finset ι) :
    remaining nodes after ≤ remaining nodes before := by
  apply card_le_card
  intro node hnode
  rw [mem_filter] at hnode ⊢; exact ⟨hnode.1, h.unseen node hnode.2⟩

theorem remaining_paint [DecidableEq ι] (hnode : node ∈ nodes) (hunseen : states node = .unseen) :
    remaining nodes (paint states node .active) < remaining nodes states := by
  apply card_lt_card
  rw [ssubset_iff_of_subset]
  · refine ⟨node, mem_filter.mpr ⟨hnode, hunseen⟩, ?_⟩
    simp
  · intro other hother
    rw [mem_filter] at hother ⊢
    refine ⟨hother.1, ?_⟩
    by_cases hsame : other = node
    · rw [hsame]; exact hunseen
    · rw [← hother.2, paint_other .active hsame]

/-- The children of a node that becomes active can be searched. -/
theorem Coloured.enter [DecidableEq ι] {child : ι} (h : Coloured g states node)
    (hedge : g.Edge node child) :
    Coloured g (paint states node .active) child where
  done other hdone := by
    by_cases hsame : other = node
    · simp [hsame] at hdone
    · exact h.done other (by rwa [paint_other .active hsame] at hdone)
  active other hactive := by
    by_cases hsame : other = node
    · rw [hsame]; exact TransGen.single hedge
    · rw [paint_other .active hsame] at hactive
      exact (h.active other hactive).tail hedge

theorem Settled.leave [DecidableEq ι] (h : Settled g (paint before node .active) after)
    (hunseen : before node = .unseen) (hends : g.Ends node) :
    Settled g before (paint after node .done) where
  done other hdone := by
    by_cases hsame : other = node
    · rw [hsame]; exact hends
    · exact h.done other (by rwa [paint_other .done hsame] at hdone)
  active other := by
    by_cases hsame : other = node
    · rw [hsame, paint_self, hunseen]; exact ⟨nofun, nofun⟩
    · rw [paint_other .done hsame, h.active other, paint_other .active hsame]
  unseen other hother := by
    by_cases hsame : other = node
    · simp [hsame] at hother
    · rw [paint_other .done hsame] at hother
      have hbefore := h.unseen other hother
      rwa [paint_other .active hsame] at hbefore

/-- What a search of some nodes may answer. -/
def Answers (g : Search ι κ ε) (nodes : Finset ι) (fuel : Nat) (states : ι → Colour)
    (targets : List ι) : Except ε (ι → Colour) → Prop
  | .ok after => Settled g states after ∧ ∀ target ∈ targets, g.Ends target
  | .error stop => stop = g.exhausted ∧ fuel ≤ remaining nodes states ∨
      ∃ label node, stop = g.refuse label ∧ TransGen g.Edge node node

theorem visitAll_answers {fuel : Nat} {visit : ι → (ι → Colour) → Except ε (ι → Colour)}
    (hvisit : ∀ node states, Coloured g states node →
      Answers g nodes fuel states [node] (visit node states)) :
    ∀ (targets : List ι) (states : ι → Colour),
      (∀ other, states other = .done → g.Ends other) →
      (∀ target ∈ targets, Coloured g states target) →
      Answers g nodes fuel states targets (visitAll visit targets states) := by
  intro targets
  induction targets with
  | nil => exact fun states hdone _ => ⟨Settled.refl hdone, nofun⟩
  | cons target rest ih =>
    intro states hdone htargets
    have hfirst := hvisit target states (htargets target (.head _))
    unfold visitAll
    cases hrun : visit target states with
    | error stop =>
      rw [hrun] at hfirst; exact hfirst
    | ok after =>
      rw [hrun] at hfirst
      obtain ⟨hsettled, hends⟩ := hfirst
      have hrest := ih after hsettled.done fun other hother =>
        hsettled.coloured (htargets other (.tail target hother))
      show Answers g nodes fuel states (target :: rest) (visitAll visit rest after)
      cases hagain : visitAll visit rest after with
      | error stop =>
        rw [hagain] at hrest
        obtain ⟨hstop, hfuel⟩ | hcycle := hrest
        · exact .inl ⟨hstop, hfuel.trans (hsettled.remaining_le nodes)⟩
        · exact .inr hcycle
      | ok last =>
        rw [hagain] at hrest
        refine ⟨hsettled.trans hrest.1, ?_⟩
        intro other hother
        obtain rfl | hother := List.mem_cons.mp hother
        · exact hends other (.head _)
        · exact hrest.2 other hother

/-- By induction on the fuel: every level of the search makes one more node active. -/
theorem visit_answers [DecidableEq ι] (hnodes : ∀ node, g.inner node = true → node ∈ nodes)
    (fuel : Nat) :
    ∀ label node states, Coloured g states node →
      Answers g nodes fuel states [node] (visit g fuel label node states) := by
  induction fuel with
  | zero => exact fun _ _ states _ => .inl ⟨rfl, Nat.zero_le _⟩
  | succ fuel ih =>
    intro label node states h
    unfold visit
    by_cases hinner : g.inner node = true
    case neg =>
      have hleaf : g.inner node = false := Bool.eq_false_iff.mpr hinner
      rw [if_pos (by simp [hleaf])]
      exact ⟨Settled.refl h.done, by simpa using Search.ends_of_leaf hleaf⟩
    rw [if_neg (by simp [hinner])]
    cases hcolour : states node with
    | done => exact ⟨Settled.refl h.done, by simpa using h.done node hcolour⟩
    | active => exact .inr ⟨_, node, rfl, h.active node hcolour⟩
    | unseen =>
      have hchildren := visitAll_answers (ih (g.label label node)) (g.children node)
        (paint states node .active) (fun other hother => by
          by_cases hsame : other = node
          · simp [hsame] at hother
          · exact h.done other (by rwa [paint_other .active hsame] at hother))
        (fun child hchild => h.enter ⟨hinner, hchild⟩)
      cases hrun : visitAll (visit g fuel (g.label label node)) (g.children node)
          (paint states node .active) with
      | error stop =>
        rw [hrun] at hchildren
        obtain ⟨hstop, hfuel⟩ | hcycle := hchildren
        · exact .inl ⟨hstop, hfuel.trans_lt (remaining_paint (hnodes node hinner) hcolour)⟩
        · exact .inr hcycle
      | ok after =>
        rw [hrun] at hchildren
        have hends : g.Ends node := Search.ends_of_children hchildren.2
        exact ⟨hchildren.1.leave hcolour hends, by simpa using hends⟩

end Loom.Colours

import Loom.Lowering.Graphs
import Loom.Library.Definite
import Mathlib.Data.Fintype.Basic
import Mathlib.Logic.Function.Basic

/-
  What one value of a state reads and writes.

  `reads` walks a value once, in the order in which it runs, and keeps two lists
  of flags: the locals that may be read before the state writes them, and those
  that it has surely written. The branches of a value share the first list and
  get their own copy of the second.

  Correspondence (lowering/liveness.loom ↔ Lean), where names differ:
    a list of one flag for each local ↔ `Flags`
    `uses`, `definitions`, passed together ↔ `Marks`
    `reads` ↔ `reads`, with a function for each list it walks
    a get or set outside the list, which ends the program ↔ `none`
-/

namespace Loom.Lowering

open IncrementalCache (ExprKind)
open Liveness Option Bool

/-! ## Flags -/

abbrev Flags (count : Nat) := Fin count → Bool

def flags (count : Nat) : Flags count := fun _ => false

variable {count : Nat}

def slot? (count : Nat) (index : Int) : Option (Fin count) :=
  if hbounds : 0 ≤ index ∧ index < count then some ⟨index.toNat, by omega⟩ else none

def Flags.set (values : Flags count) (index : Int) (value : Bool) : Option (Flags count) :=
  (slot? count index).map fun slot => Function.update values slot value

structure Marks (count : Nat) where
  uses : Flags count
  definitions : Flags count

def markRead (index : Int) (marks : Marks count) : Option (Marks count) :=
  if 0 ≤ index then do
    let slot ← slot? count index
    if marks.definitions slot then pure marks
    else pure { marks with uses := Function.update marks.uses slot true }
  else pure marks

def markWhole (whole : Int) (definitions : Flags count) : Option (Flags count) :=
  if 0 ≤ whole then definitions.set whole true else pure definitions

def markBound : List Int → Flags count → Option (Flags count)
  | [], definitions => pure definitions
  | index :: rest, definitions => do
    let definitions ← markWhole index definitions
    markBound rest definitions

/-- A binding or an assignment writes its local. -/
def markWritten (kind : ExprKind) (index : Int) (marks : Marks count) : Option (Marks count) :=
  if kind = .letIn || kind = .assign then
    (marks.definitions.set index true).map fun definitions => { marks with definitions }
  else pure marks

def mergeDefinitions (target branch : Flags count) (first : Bool) : Flags count :=
  fun slot => branch slot && (first || target slot)

/-! ## The walk -/

mutual

def reads : Expr → Marks count → Option (Marks count)
  | .mk kind _ text index children arms _, marks =>
    if kind = .localRead then markRead index marks
    else if kind = .ifElse || shortCircuits kind text then readsBranches children marks
    else if kind = .whileLoop then readsLoop children marks
    else if kind = .defer || kind = .cleanup then readsCleanup children marks
    else do
      let marks ← readsAll children marks
      let marks ← markWritten kind index marks
      if kind = .matchArms then readsArms arms marks.definitions true marks else pure marks

def readsAll : List Expr → Marks count → Option (Marks count)
  | [], marks => pure marks
  | value :: rest, marks => do
    let marks ← reads value marks
    readsAll rest marks

/-- The condition, then each side with its own copy of the definitions. -/
def readsBranches : List Expr → Marks count → Option (Marks count)
  | condition :: yes :: others, marks => do
    let marks ← reads condition marks
    let yes ← reads yes marks
    let no ← readsOther others { marks with uses := yes.uses }
    pure {
      uses := no.uses
      definitions := mergeDefinitions (mergeDefinitions marks.definitions yes.definitions true)
        no.definitions false }
  | _, _ => none

/-- The other side, where there are exactly three children. -/
def readsOther : List Expr → Marks count → Option (Marks count)
  | [no], marks => reads no marks
  | _, marks => pure marks

/-- The body may not run, and its definitions go no further. -/
def readsLoop : List Expr → Marks count → Option (Marks count)
  | condition :: body :: _, marks => do
    let marks ← reads condition marks
    let inner ← reads body marks
    pure { marks with uses := inner.uses }
  | _, _ => none

def readsCleanup : List Expr → Marks count → Option (Marks count)
  | body :: _, marks => do
    let inner ← reads body marks
    pure { marks with uses := inner.uses }
  | [], _ => none

/-- The arms, each started with the definitions before the match. -/
def readsArms : List Arm → Flags count → Bool → Marks count → Option (Marks count)
  | [], _, _, marks => pure marks
  | .mk _ bindings whole body :: rest, incoming, first, marks => do
    let branch ← markBound bindings incoming
    let branch ← markWhole whole branch
    let inner ← readsAll body { uses := marks.uses, definitions := branch }
    readsArms rest incoming false {
      uses := inner.uses
      definitions := mergeDefinitions marks.definitions inner.definitions first }

end

/-! ## Well-formed values are walked to the end -/

variable {index : Int}

theorem slot?_val {slot : Fin count} (hslot : slot? count index = some slot) :
    (slot : Int) = index := by
  rw [slot?] at hslot
  split at hslot
  case isTrue hbounds =>
    cases hslot
    exact Int.toNat_of_nonneg hbounds.1
  case isFalse => cases hslot

theorem slot?_isSome (hlow : 0 ≤ index) (hhigh : index < count) :
    ∃ slot, slot? count index = some slot := by
  refine ⟨⟨index.toNat, by omega⟩, ?_⟩
  rw [slot?, dif_pos ⟨hlow, hhigh⟩]

theorem Flags.set_some (values : Flags count) (value : Bool) (hlow : 0 ≤ index)
    (hhigh : index < count) : ∃ later, values.set index value = some later := by
  obtain ⟨slot, hslot⟩ := slot?_isSome hlow hhigh
  exact ⟨_, by rw [Flags.set, hslot]; rfl⟩

theorem markRead_some (marks : Marks count) (hhigh : index < count) :
    ∃ later, markRead index marks = some later := by
  rw [markRead]
  split
  case isTrue hlow =>
    obtain ⟨slot, hslot⟩ := slot?_isSome hlow hhigh
    rw [hslot]
    by_cases hdefined : marks.definitions slot = true
    · exact ⟨marks, by simp [hdefined]⟩
    · exact ⟨_, by simp [hdefined]; rfl⟩
  case isFalse => exact ⟨marks, rfl⟩

theorem markWhole_some {whole : Int} (definitions : Flags count) (hhigh : whole < count) :
    ∃ later, markWhole whole definitions = some later := by
  rw [markWhole]
  split
  case isTrue hlow => exact definitions.set_some true hlow hhigh
  case isFalse => exact ⟨definitions, rfl⟩

theorem markBound_some {bindings : List Int} (definitions : Flags count)
    (hhigh : ∀ id ∈ bindings, id < count) : ∃ later, markBound bindings definitions = some later := by
  induction bindings generalizing definitions with
  | nil => exact ⟨definitions, rfl⟩
  | cons index rest ih =>
    rw [List.forall_mem_cons] at hhigh
    obtain ⟨first, hfirst⟩ := markWhole_some definitions hhigh.1
    obtain ⟨later, hlater⟩ := ih first hhigh.2
    exact ⟨later, by rw [markBound, hfirst]; exact hlater⟩

theorem markWritten_some {kind : ExprKind} (marks : Marks count)
    (hbounds : kind = .letIn ∨ kind = .assign → 0 ≤ index ∧ index < count) :
    ∃ later, markWritten kind index marks = some later := by
  rw [markWritten]
  split
  case isTrue hwrites =>
    obtain ⟨hlow, hhigh⟩ := hbounds (by simpa using hwrites)
    obtain ⟨later, hlater⟩ := marks.definitions.set_some true hlow hhigh
    exact ⟨{ marks with definitions := later }, by rw [hlater]; rfl⟩
  case isFalse => exact ⟨marks, rfl⟩

section Shapes

variable {kind : ExprKind} {text : String} {index : Int} {children : List Expr}

theorem wellShaped_branches (hshape : wellShaped count kind text index children = true)
    (hbranches : (kind = .ifElse || shortCircuits kind text) = true) :
    children.length = 2 ∨ children.length = 3 := by
  rcases or_eq_true_iff.mp hbranches with hif | hshort
  · obtain rfl := of_decide_eq_true hif
    simpa [wellShaped] using hshape
  · have hbinary : kind = .binary := of_decide_eq_true (and_eq_true_iff.mp hshort).1
    subst hbinary
    simp only [wellShaped, hshort] at hshape; exact .inl (by simpa using hshape)

theorem wellShaped_loop (hshape : wellShaped count .whileLoop text index children = true) :
    children.length = 2 := by
  simpa [wellShaped] using hshape

theorem wellShaped_cleanup (hshape : wellShaped count kind text index children = true)
    (hcleanup : (kind = .defer || kind = .cleanup) = true) : children.length = 1 := by
  rcases or_eq_true_iff.mp hcleanup with hkind | hkind
  all_goals
    obtain rfl := of_decide_eq_true hkind
    simpa [wellShaped, shortCircuits] using hshape

theorem wellShaped_local (hshape : wellShaped count kind text index children = true)
    (hlocal : kind = .localRead ∨ kind = .letIn ∨ kind = .assign) : 0 ≤ index ∧ index < count := by
  rcases hlocal with rfl | rfl | rfl
  all_goals simpa [wellShaped] using hshape

end Shapes

mutual

theorem reads_some {value : Expr} (marks : Marks count) (hformed : value.wellFormed count = true) :
    ∃ later, reads value marks = some later := by
  obtain ⟨kind, ty, text, index, children, arms, falls⟩ := value
  simp only [Expr.wellFormed, and_eq_true] at hformed
  obtain ⟨⟨hshape, hchildren⟩, harms⟩ := hformed
  rw [reads]
  split
  case isTrue hlocal =>
    exact markRead_some marks (wellShaped_local hshape (.inl hlocal)).2
  case isFalse =>
  split
  case isTrue hbranches =>
    exact readsBranches_some marks (wellShaped_branches hshape hbranches) hchildren
  case isFalse =>
  split
  case isTrue hloop =>
    subst hloop; exact readsLoop_some marks (wellShaped_loop hshape) hchildren
  case isFalse =>
  split
  case isTrue hcleanup =>
    exact readsCleanup_some marks (wellShaped_cleanup hshape hcleanup) hchildren
  case isFalse =>
  -- the operands, then what the kind adds
  obtain ⟨operands, hoperands⟩ := readsAll_some marks hchildren
  have hbounds : kind = .letIn ∨ kind = .assign → 0 ≤ index ∧ index < count :=
    fun hkind => wellShaped_local hshape (.inr hkind)
  obtain ⟨defined, hdefined⟩ := markWritten_some operands hbounds
  simp only [hoperands, bind_eq_bind, bind_some, hdefined]
  split
  case isTrue => exact readsArms_some defined harms
  case isFalse => exact ⟨defined, rfl⟩

theorem readsAll_some {values : List Expr} (marks : Marks count)
    (hformed : allWellFormed count values = true) : ∃ later, readsAll values marks = some later := by
  match values with
  | [] => exact ⟨marks, rfl⟩
  | value :: rest =>
    rw [allWellFormed, and_eq_true] at hformed
    obtain ⟨middle, hvalue⟩ := reads_some marks hformed.1
    obtain ⟨later, hrest⟩ := readsAll_some middle hformed.2
    exact ⟨later, by rw [readsAll, hvalue]; exact hrest⟩

theorem readsBranches_some {values : List Expr} (marks : Marks count)
    (hlength : values.length = 2 ∨ values.length = 3)
    (hformed : allWellFormed count values = true) :
    ∃ later, readsBranches values marks = some later := by
  match values with
  | condition :: yes :: others =>
    simp only [allWellFormed, and_eq_true] at hformed
    obtain ⟨tested, hcondition⟩ := reads_some marks hformed.1
    obtain ⟨accepted, hyes⟩ := reads_some tested hformed.2.1
    obtain ⟨rejected, hno⟩ := readsOther_some { tested with uses := accepted.uses } hformed.2.2
    simp only [readsBranches, hcondition, bind_eq_bind, bind_some, hyes, hno]
    exact ⟨_, rfl⟩
  | [] | [_] => simp at hlength

theorem readsOther_some {values : List Expr} (marks : Marks count)
    (hformed : allWellFormed count values = true) :
    ∃ later, readsOther values marks = some later := by
  match values with
  | [no] =>
    rw [allWellFormed, and_eq_true] at hformed
    exact reads_some marks hformed.1
  | [] | _ :: _ :: _ => exact ⟨marks, rfl⟩

theorem readsLoop_some {values : List Expr} (marks : Marks count) (hlength : values.length = 2)
    (hformed : allWellFormed count values = true) :
    ∃ later, readsLoop values marks = some later := by
  match values with
  | condition :: body :: _ =>
    simp only [allWellFormed, and_eq_true] at hformed
    obtain ⟨tested, hcondition⟩ := reads_some marks hformed.1
    obtain ⟨inner, hbody⟩ := reads_some tested hformed.2.1
    simp only [readsLoop, hcondition, bind_eq_bind, bind_some, hbody]
    exact ⟨_, rfl⟩
  | [] | [_] => simp at hlength

theorem readsCleanup_some {values : List Expr} (marks : Marks count) (hlength : values.length = 1)
    (hformed : allWellFormed count values = true) :
    ∃ later, readsCleanup values marks = some later := by
  match values with
  | body :: _ =>
    rw [allWellFormed, and_eq_true] at hformed
    obtain ⟨inner, hbody⟩ := reads_some marks hformed.1
    exact ⟨_, by rw [readsCleanup, hbody]; rfl⟩
  | [] => simp at hlength

theorem readsArms_some {arms : List Arm} {incoming : Flags count} {first : Bool}
    (marks : Marks count) (hformed : armsWellFormed count arms = true) :
    ∃ later, readsArms arms incoming first marks = some later := by
  match arms with
  | [] => exact ⟨marks, rfl⟩
  | .mk _ bindings whole body :: rest =>
    simp only [armsWellFormed, and_eq_true, List.all_eq_true, decide_eq_true_eq] at hformed
    obtain ⟨⟨⟨hbindings, hwhole⟩, hbody⟩, hrest⟩ := hformed
    obtain ⟨bound, hbound⟩ := markBound_some incoming hbindings
    obtain ⟨branch, hbranch⟩ := markWhole_some bound hwhole
    obtain ⟨inner, hinner⟩ := readsAll_some ⟨marks.uses, branch⟩ hbody
    simp only [readsArms, hbound, bind_eq_bind, bind_some, hbranch, hinner]
    exact readsArms_some _ hrest

end

end Loom.Lowering

import Loom.Lowering.Reads
import Mathlib.Order.Basic
import Mathlib.Order.BooleanAlgebra.Basic

/-
  The walk over a value accounts for every path through it.

  Operands run from left to right; a condition, an arm or the number of
  iterations may turn out any way, and any operation may be the last one. A
  deferred body is only registered: it runs where a cleanup names it, and
  whatever it does, the code after the cleanup runs next.

  What is proved: `reads_walks`, and its companions for lists of values and for
  arms. What `reads` adds to the uses covers what any path reads first, and what
  it adds to the definitions every path that goes on has written.
-/

namespace Loom.Lowering

open IncrementalCache (ExprKind)
open Liveness Option Function

/-! ## The paths through a value -/

/-- Bind the locals; a negative index binds nothing. -/
def binding : List Int → Paths Int
  | [] => skip
  | index :: rest => andThen (if 0 ≤ index then emit (.write index) else skip) (binding rest)

mutual

def Expr.paths : Expr → Paths Int
  | .mk kind _ text index children arms _ =>
    if kind = .localRead then (if 0 ≤ index then emit (.read index) else skip)
    else if kind = .ifElse || shortCircuits kind text then branchPaths children
    else if kind = .whileLoop then loopPaths children
    else if kind = .defer then skip
    else if kind = .cleanup then cleanupPaths children
    else andThen (allPaths children)
      (if kind = .letIn || kind = .assign then emit (.write index)
      else if kind = .matchArms then armPaths arms
      else if kind = .breaks then leave .breaks
      else if kind = .continues then leave .continues
      else if kind = .returns then leave .returns
      else either skip (leave .halts))

def allPaths : List Expr → Paths Int
  | [] => skip
  | value :: rest => andThen value.paths (allPaths rest)

def branchPaths : List Expr → Paths Int
  | condition :: yes :: others =>
    andThen condition.paths (either yes.paths (otherPaths others))
  | _ => fun _ _ => False

def otherPaths : List Expr → Paths Int
  | [no] => no.paths
  | _ => skip

def loopPaths : List Expr → Paths Int
  | condition :: body :: _ => Loop condition.paths body.paths
  | _ => fun _ _ => False

def cleanupPaths : List Expr → Paths Int
  | body :: _ => contain body.paths
  | [] => fun _ _ => False

def armPaths : List Arm → Paths Int
  | [] => fun _ _ => False
  | .mk _ bindings whole body :: rest =>
    either (andThen (binding bindings) (andThen (binding [whole]) (allPaths body))) (armPaths rest)

end

/-! ## Flags as sets -/

variable {count : Nat}

/-- The locals whose flag is set. -/
def marked (values : Flags count) : Finset Int :=
  (Finset.univ.filter fun slot => values slot = true).image fun slot : Fin count => (slot : Int)

variable {values : Flags count} {index : Int}

theorem mem_marked :
    index ∈ marked values ↔ ∃ slot : Fin count, values slot = true ∧ (slot : Int) = index := by
  simp [marked]

theorem marked_val {slot : Fin count} : (slot : Int) ∈ marked values ↔ values slot = true := by
  rw [mem_marked]
  constructor
  · rintro ⟨other, hother, hsame⟩
    rwa [← Fin.ext (Int.ofNat.inj hsame)]
  · intro hvalue; exact ⟨slot, hvalue, rfl⟩

theorem marked_mono {wider : Flags count} (hle : values ≤ wider) :
    marked values ⊆ marked wider := by
  intro index hindex
  obtain ⟨slot, hvalue, hsame⟩ := mem_marked.mp hindex
  exact mem_marked.mpr ⟨slot, hle slot hvalue, hsame⟩

@[simp] theorem marked_flags : marked (flags count) = ∅ := by
  ext index
  simp [mem_marked, flags]

theorem marked_update (values : Flags count) (slot : Fin count) :
    marked (update values slot true) = insert (slot : Int) (marked values) := by
  ext index
  rw [Finset.mem_insert, mem_marked, mem_marked]
  constructor
  · rintro ⟨other, hother, rfl⟩
    by_cases hsame : other = slot
    · exact .inl (by rw [hsame])
    · rw [update_of_ne hsame] at hother
      exact .inr ⟨other, hother, rfl⟩
  · rintro (rfl | ⟨other, hother, rfl⟩)
    · exact ⟨slot, update_self .., rfl⟩
    · refine ⟨other, ?_, rfl⟩
      by_cases hsame : other = slot
      · rw [hsame, update_self]
      · rwa [update_of_ne hsame]

theorem marked_set {later : Flags count} (hset : values.set index true = some later) :
    marked later = insert index (marked values) := by
  obtain ⟨slot, hslot, rfl⟩ := map_eq_some_iff.mp hset
  rw [marked_update, slot?_val hslot]

theorem mergeDefinitions_branch (target branch : Flags count) (first : Bool) :
    mergeDefinitions target branch first ≤ branch := by
  intro slot hslot; exact (Bool.and_eq_true_iff.mp hslot).1

theorem mergeDefinitions_target (target branch : Flags count) :
    mergeDefinitions target branch false ≤ target := by
  intro slot hslot; exact (Bool.and_eq_true_iff.mp hslot).2

@[simp] theorem mergeDefinitions_first (target branch : Flags count) :
    mergeDefinitions target branch true = branch := by
  funext slot
  simp [mergeDefinitions]

/-! ## What a walk promises -/

/-- From the marks before it to those after it, the walk covers the paths. -/
structure Walks (before after : Marks count) (paths : Paths Int) : Prop where
  grows : before.uses ≤ after.uses
  assigns : ∀ uses, marked after.uses ⊆ uses →
    Assigns uses (marked before.definitions) paths (marked after.definitions)

variable {before middle after yes no inner : Marks count} {paths first second : Paths Int}

theorem Walks.skip (marks : Marks count) : Walks marks marks skip :=
  ⟨le_refl _, fun _ _ => assigns_skip⟩

theorem Walks.leave (marks : Marks count) {ending : Outcome} (hleaves : ending ≠ .normal) :
    Walks marks marks (leave ending) := ⟨le_refl _, fun _ _ => assigns_leave hleaves⟩

theorem Walks.impossible (hgrows : before.uses ≤ after.uses) :
    Walks before after fun _ _ => False := ⟨hgrows, fun _ _ _ _ hpath => hpath.elim⟩

theorem Walks.andThen (hfirst : Walks before middle first) (hsecond : Walks middle after second) :
    Walks before after (andThen first second) := by
  refine ⟨hfirst.grows.trans hsecond.grows, fun uses huses => ?_⟩
  have hmiddle := (marked_mono hsecond.grows).trans huses
  exact assigns_andThen (hfirst.assigns uses hmiddle) (hsecond.assigns uses huses)

variable {definitions : Flags count}

theorem Walks.narrow (hwalks : Walks before after paths) (hle : definitions ≤ after.definitions) :
    Walks before { after with definitions } paths :=
  ⟨hwalks.grows, fun uses huses => (hwalks.assigns uses huses).narrow (marked_mono hle)⟩

/-- The second side starts with the uses of the first and its own definitions. -/
theorem Walks.either (hyes : Walks before yes first)
    (hno : Walks { before with uses := yes.uses } after second)
    (hle : after.definitions ≤ yes.definitions) : Walks before after (either first second) := by
  refine ⟨hyes.grows.trans hno.grows, fun uses huses => ?_⟩
  have hfirst := hyes.assigns uses ((marked_mono hno.grows).trans huses)
  exact assigns_either (hfirst.narrow (marked_mono hle)) (hno.assigns uses huses)

theorem Walks.loop (hcondition : Walks before middle first) (hbody : Walks middle inner second) :
    Walks before { middle with uses := inner.uses } (Loop first second) := by
  refine ⟨hcondition.grows.trans hbody.grows, fun uses huses => ?_⟩
  have hmiddle := (marked_mono hbody.grows).trans huses
  exact assigns_loop (hcondition.assigns uses hmiddle) (hbody.assigns uses huses)

theorem Walks.contain (hbody : Walks before inner paths) :
    Walks before { before with uses := inner.uses } (contain paths) :=
  ⟨hbody.grows, fun uses huses => assigns_contain (hbody.assigns uses huses)⟩

/-- A registered body is walked, but does not run. -/
theorem Walks.defer (hbody : Walks before inner paths) :
    Walks before { before with uses := inner.uses } Liveness.skip :=
  ⟨hbody.grows, fun _ _ => assigns_skip⟩

theorem markRead_walks (hread : markRead index before = some after) :
    Walks before after (if 0 ≤ index then emit (.read index) else skip) := by
  rw [markRead] at hread
  split at hread
  case isFalse hnegative =>
    cases hread
    rw [if_neg hnegative]; exact Walks.skip before
  case isTrue hindex =>
    rw [if_pos hindex]
    obtain ⟨slot, hslot, hmark⟩ := bind_eq_some_iff.mp hread
    have hval := slot?_val hslot
    split at hmark
    case isTrue hdefined =>
      cases hmark
      refine ⟨le_refl _, fun uses _ => assigns_read (Finset.mem_union_right _ ?_)⟩
      rwa [← hval, marked_val]
    case isFalse =>
      cases hmark
      have hupdate : index ∈ marked (update before.uses slot true) := by
        rw [marked_update, hval]; exact Finset.mem_insert_self ..
      refine ⟨?_, fun uses huses => assigns_read (Finset.mem_union_left _ (huses hupdate))⟩
      exact le_update_self_iff.mpr (Bool.le_true _)

theorem set_walks (hset : before.definitions.set index true = some definitions) :
    Walks before { before with definitions } (emit (.write index)) := by
  refine ⟨le_refl _, fun uses _ => ?_⟩
  have hwrite : Assigns uses (marked before.definitions) (emit (.write index))
      (insert index (marked before.definitions)) := assigns_write index
  rwa [← marked_set hset] at hwrite

theorem markWhole_walks {whole : Int}
    (hmark : markWhole whole before.definitions = some definitions) :
    Walks before { before with definitions } (if 0 ≤ whole then emit (.write whole) else skip) := by
  rw [markWhole] at hmark
  split at hmark
  case isTrue hwhole =>
    rw [if_pos hwhole]; exact set_walks hmark
  case isFalse hwhole =>
    cases hmark
    rw [if_neg hwhole]; exact Walks.skip before

theorem markBound_walks {bindings : List Int} {uses later : Flags count}
    (hmark : markBound bindings definitions = some later) :
    Walks ⟨uses, definitions⟩ ⟨uses, later⟩ (binding bindings) := by
  induction bindings generalizing definitions with
  | nil =>
    cases hmark
    exact Walks.skip _
  | cons index rest ih =>
    obtain ⟨bound, hindex, hrest⟩ := bind_eq_some_iff.mp hmark
    have hfirst : Walks ⟨uses, definitions⟩ ⟨uses, bound⟩
        (if 0 ≤ index then emit (.write index) else skip) := markWhole_walks hindex
    exact hfirst.andThen (ih hrest)

/-! ## The induction -/

/-- Later arms only take definitions away. -/
theorem readsArms_definitions {arms : List Arm} {incoming : Flags count}
    (hreads : readsArms arms incoming false before = some after) :
    after.definitions ≤ before.definitions := by
  induction arms generalizing before with
  | nil =>
    cases hreads
    exact le_refl _
  | cons arm rest ih =>
    obtain ⟨variant, bindings, whole, body⟩ := arm
    obtain ⟨bound, _, hreads⟩ := bind_eq_some_iff.mp hreads
    obtain ⟨branch, _, hreads⟩ := bind_eq_some_iff.mp hreads
    obtain ⟨inner, _, hrest⟩ := bind_eq_some_iff.mp hreads
    exact (ih hrest).trans (mergeDefinitions_target _ _)

mutual

theorem reads_walks {value : Expr} {before after : Marks count}
    (hreads : reads value before = some after) : Walks before after value.paths := by
  obtain ⟨kind, ty, text, index, children, arms, falls⟩ := value
  rw [reads] at hreads
  rw [Expr.paths]
  split at hreads
  case isTrue hlocal =>
    rw [if_pos hlocal]; exact markRead_walks hreads
  case isFalse hlocal =>
  rw [if_neg hlocal]
  split at hreads
  case isTrue hbranches =>
    rw [if_pos hbranches]; exact readsBranches_walks hreads
  case isFalse hbranches =>
  rw [if_neg hbranches]
  split at hreads
  case isTrue hloop =>
    rw [if_pos hloop]; exact readsLoop_walks hreads
  case isFalse hloop =>
  rw [if_neg hloop]
  split at hreads
  case isTrue hcleanup =>
    -- registered by a defer, run by a cleanup
    by_cases hdefer : kind = .defer
    · rw [if_pos hdefer]; exact (readsCleanup_walks hreads).1
    · rw [if_neg hdefer, if_pos (by simpa [hdefer] using hcleanup)]
      exact (readsCleanup_walks hreads).2
  case isFalse hcleanup =>
  rw [if_neg fun hdefer => hcleanup (by simp [hdefer]),
    if_neg fun hclean => hcleanup (by simp [hclean])]
  obtain ⟨operands, hchildren, hreads⟩ := bind_eq_some_iff.mp hreads
  refine (readsAll_walks hchildren).andThen ?_
  obtain ⟨defined, hdefined, hreads⟩ := bind_eq_some_iff.mp hreads
  by_cases hwrites : (kind = .letIn || kind = .assign) = true
  · rw [markWritten, if_pos hwrites] at hdefined
    obtain ⟨definitions, hset, rfl⟩ := map_eq_some_iff.mp hdefined
    rw [if_neg (by rintro rfl; simp at hwrites)] at hreads
    obtain rfl := some.inj hreads
    rw [if_pos hwrites]; exact set_walks hset
  rw [markWritten, if_neg hwrites] at hdefined
  obtain rfl := some.inj hdefined
  rw [if_neg hwrites]
  by_cases hmatch : kind = .matchArms
  · rw [if_pos hmatch] at hreads ⊢; exact readsArms_walks hreads
  rw [if_neg hmatch] at hreads ⊢
  obtain rfl := some.inj hreads
  split
  · exact Walks.leave _ (by simp)
  split
  · exact Walks.leave _ (by simp)
  split
  · exact Walks.leave _ (by simp)
  exact (Walks.skip _).either (Walks.leave _ (by simp)) (le_refl _)

theorem readsAll_walks {values : List Expr} {before after : Marks count}
    (hreads : readsAll values before = some after) : Walks before after (allPaths values) := by
  match values with
  | [] =>
    obtain rfl := some.inj hreads
    exact Walks.skip before
  | value :: rest =>
    rw [readsAll] at hreads
    obtain ⟨middle, hvalue, hrest⟩ := bind_eq_some_iff.mp hreads
    exact (reads_walks hvalue).andThen (readsAll_walks hrest)

theorem readsBranches_walks {values : List Expr} {before after : Marks count}
    (hreads : readsBranches values before = some after) :
    Walks before after (branchPaths values) := by
  match values with
  | [] | [_] => exact nomatch hreads
  | condition :: yes :: others =>
    rw [readsBranches] at hreads
    obtain ⟨tested, hcondition, hreads⟩ := bind_eq_some_iff.mp hreads
    obtain ⟨accepted, hyes, hreads⟩ := bind_eq_some_iff.mp hreads
    obtain ⟨rejected, hno, hmerge⟩ := bind_eq_some_iff.mp hreads
    obtain rfl := some.inj hmerge
    rw [mergeDefinitions_first]
    have hother := (readsOther_walks hno).narrow
      (mergeDefinitions_branch accepted.definitions rejected.definitions false)
    have hsides := (reads_walks hyes).either hother (mergeDefinitions_target _ _)
    exact (reads_walks hcondition).andThen hsides

theorem readsOther_walks {values : List Expr} {before after : Marks count}
    (hreads : readsOther values before = some after) : Walks before after (otherPaths values) := by
  match values with
  | [no] => exact reads_walks hreads
  | [] | _ :: _ :: _ =>
    obtain rfl := some.inj hreads
    exact Walks.skip before

theorem readsLoop_walks {values : List Expr} {before after : Marks count}
    (hreads : readsLoop values before = some after) : Walks before after (loopPaths values) := by
  match values with
  | [] | [_] => exact nomatch hreads
  | condition :: body :: _ =>
    rw [readsLoop] at hreads
    obtain ⟨tested, hcondition, hreads⟩ := bind_eq_some_iff.mp hreads
    obtain ⟨inner, hbody, hdone⟩ := bind_eq_some_iff.mp hreads
    obtain rfl := some.inj hdone
    exact (reads_walks hcondition).loop (reads_walks hbody)

theorem readsCleanup_walks {values : List Expr} {before after : Marks count}
    (hreads : readsCleanup values before = some after) :
    Walks before after skip ∧ Walks before after (cleanupPaths values) := by
  match values with
  | [] => exact nomatch hreads
  | body :: _ =>
    rw [readsCleanup] at hreads
    obtain ⟨inner, hbody, hdone⟩ := bind_eq_some_iff.mp hreads
    obtain rfl := some.inj hdone
    exact ⟨(reads_walks hbody).defer, (reads_walks hbody).contain⟩

/-- Every arm starts with the definitions before the match. -/
theorem readsArms_walks {arms : List Arm} {incoming uses definitions : Flags count} {first : Bool}
    {after : Marks count} (hreads : readsArms arms incoming first ⟨uses, definitions⟩ = some after) :
    Walks ⟨uses, incoming⟩ after (armPaths arms) := by
  match arms with
  | [] =>
    obtain rfl := some.inj hreads
    exact Walks.impossible (le_refl _)
  | .mk _ bindings whole body :: rest =>
    rw [readsArms] at hreads
    obtain ⟨bound, hbound, hreads⟩ := bind_eq_some_iff.mp hreads
    obtain ⟨branch, hwhole, hreads⟩ := bind_eq_some_iff.mp hreads
    obtain ⟨inner, hbody, hrest⟩ := bind_eq_some_iff.mp hreads
    have hfields : Walks ⟨uses, incoming⟩ ⟨uses, bound⟩ (binding bindings) := markBound_walks hbound
    have hvalue : Walks ⟨uses, bound⟩ ⟨uses, branch⟩ (binding [whole]) :=
      markBound_walks (by simp [markBound, hwhole])
    have harm := hfields.andThen (hvalue.andThen (readsAll_walks hbody))
    refine harm.either (readsArms_walks hrest) ?_
    exact (readsArms_definitions hrest).trans (mergeDefinitions_branch _ _ _)

end

end Loom.Lowering

import Loom.Library.Liveness
import Mathlib.Data.Finset.Lattice.Lemmas

/-
  What is read first and what is surely written along the paths of structured
  programs.

  The rules of liveness run backwards, from what is needed after the paths. The
  rules here run forwards, as an analysis does that walks a program once and
  keeps two sets: what may be read before it is written, and what is written on
  every path so far.

  What is proved: one rule for each way paths are put together, for the
  judgement `Assigns uses defined paths definitions`. `needs_append` is what the
  rules rest on; `Assigns.safe` hands the paths over to a safe continuation.
-/

namespace Loom.Liveness

open Finset

variable {α : Type} [DecidableEq α]

def written : Trace α → Finset α
  | [] => ∅
  | .read _ :: rest => written rest
  | .write slot :: rest => insert slot (written rest)
  | .retire _ :: rest => written rest
  | .safepoint _ :: rest => written rest

/-- Reads and writes, which owe nothing to what comes after them. -/
def Event.Plain : Event α → Prop
  | .read _ | .write _ => True
  | .retire _ | .safepoint _ => False

theorem written_append (first second : Trace α) :
    written (first ++ second) = written first ∪ written second := by
  induction first with
  | nil => simp [written]
  | cons event rest ih => cases event <;> simp [written, ih]

theorem needs_append (first second : Trace α) :
    needs (first ++ second) = needs first ∪ (needs second \ written first) := by
  induction first with
  | nil => simp [needs, written]
  | cons event rest ih =>
    cases event with
    | write slot =>
      -- what the first part writes hides the same slots of the second
      simp only [List.cons_append, needs, written, ih]
      ext other
      simp only [mem_erase, mem_union, mem_sdiff, mem_insert]
      tauto
    | read | retire | safepoint => simp [needs, written, ih]

theorem safe_append {first second : Trace α} (hplain : ∀ event ∈ first, event.Plain)
    (hsafe : Safe second) : Safe (first ++ second) := by
  induction first with
  | nil => exact hsafe
  | cons event rest ih =>
    rw [List.forall_mem_cons] at hplain
    refine safe_cons.mpr ⟨?_, ih hplain.2⟩
    cases event with
    | read | write => trivial
    | retire | safepoint => exact hplain.1.elim

/-! ## The judgement -/

/-- One path that starts with `defined` written. -/
structure Accounts (uses defined definitions : Finset α) (trace : Trace α) (outcome : Outcome) :
    Prop where
  needed : needs trace ⊆ uses ∪ defined
  defines : outcome = .normal → definitions ⊆ defined ∪ written trace
  plain : ∀ event ∈ trace, event.Plain

/-- Started with `defined` written, the paths read first no more than `uses`
besides, and have `definitions` written where they end normally. -/
def Assigns (uses defined : Finset α) (paths : Paths α) (definitions : Finset α) : Prop :=
  ∀ trace outcome, paths trace outcome → Accounts uses defined definitions trace outcome

/-- What the body does stays inside: however it ends, the program goes on. -/
def contain (body : Paths α) : Paths α := fun trace outcome =>
  ∃ ending, body trace ending ∧ outcome = if ending = .halts then .halts else .normal

variable {uses defined middle definitions : Finset α} {paths first second : Paths α}

variable {outcome : Outcome} {trace : Trace α}

theorem Accounts.append {head tail : Trace α} (hhead : Accounts uses defined middle head .normal)
    (htail : Accounts uses middle definitions tail outcome) :
    Accounts uses defined definitions (head ++ tail) outcome where
  needed := by
    rw [needs_append]
    have hmiddle := hhead.defines rfl
    refine union_subset hhead.needed fun slot hslot => ?_
    obtain ⟨hneeded, hunwritten⟩ := mem_sdiff.mp hslot
    rcases mem_union.mp (htail.needed hneeded) with huses | hdefined
    · exact mem_union_left _ huses
    · have hwritten := mem_union.mp (hmiddle hdefined)
      exact mem_union_right _ (hwritten.resolve_right hunwritten)
  defines hends := by
    rw [written_append, ← union_assoc]
    exact (htail.defines hends).trans
      (union_subset_union (hhead.defines rfl) (Finset.Subset.refl _))
  plain event hmem := (List.mem_append.mp hmem).elim (hhead.plain event) (htail.plain event)

theorem Accounts.nil (hdefines : outcome = .normal → definitions ⊆ defined) :
    Accounts uses defined definitions [] outcome where
  needed := empty_subset _
  defines hends := (hdefines hends).trans subset_union_left
  plain := by simp

/-- A path that ends some other way defines nothing for what follows. -/
theorem Accounts.leaving {ending : Outcome} (haccounts : Accounts uses defined middle trace ending)
    (hleaves : outcome ≠ .normal) :
    Accounts uses defined definitions trace outcome where
  needed := haccounts.needed
  defines hends := absurd hends hleaves
  plain := haccounts.plain

theorem Accounts.narrow (haccounts : Accounts uses defined middle trace outcome)
    (hsub : definitions ⊆ middle) : Accounts uses defined definitions trace outcome :=
  { haccounts with defines := fun hends => hsub.trans (haccounts.defines hends) }

theorem Assigns.narrow (hassigns : Assigns uses defined paths middle)
    (hsub : definitions ⊆ middle) : Assigns uses defined paths definitions :=
  fun trace outcome hpath => (hassigns trace outcome hpath).narrow hsub

/-- What was written before the path stays written. -/
theorem Accounts.keep {trace : Trace α} {outcome : Outcome}
    (haccounts : Accounts uses defined middle trace outcome) :
    Accounts uses defined (middle ∪ defined) trace outcome :=
  { haccounts with
    defines := fun hends =>
      union_subset (haccounts.defines hends) subset_union_left }

theorem Accounts.widen {wider : Finset α}
    (haccounts : Accounts uses defined definitions trace outcome) (hsub : defined ⊆ wider) :
    Accounts uses wider definitions trace outcome where
  needed := haccounts.needed.trans (union_subset_union (Finset.Subset.refl _) hsub)
  defines hends := (haccounts.defines hends).trans
    (union_subset_union hsub (Finset.Subset.refl _))
  plain := haccounts.plain

/-! ## The rules -/

theorem assigns_skip : Assigns uses defined skip defined := by
  intro trace outcome hpath
  obtain ⟨rfl, rfl⟩ := hpath
  exact Accounts.nil fun _ => Finset.Subset.refl _

theorem assigns_leave {ending : Outcome} (hleaves : ending ≠ .normal) :
    Assigns uses defined (leave ending) definitions := by
  intro trace outcome hpath
  obtain ⟨rfl, rfl⟩ := hpath
  exact Accounts.nil fun hends => absurd hends hleaves

theorem assigns_read {slot : α} (hslot : slot ∈ uses ∪ defined) :
    Assigns uses defined (emit (.read slot)) defined := by
  intro trace outcome hpath
  rcases hpath with ⟨rfl, rfl⟩ | ⟨rfl, rfl⟩
  · exact Accounts.nil (by simp)
  · constructor
    · simpa [needs] using hslot
    · intro _; exact subset_union_left
    · simp [Event.Plain]

theorem assigns_write (slot : α) :
    Assigns uses defined (emit (.write slot)) (insert slot defined) := by
  intro trace outcome hpath
  rcases hpath with ⟨rfl, rfl⟩ | ⟨rfl, rfl⟩
  · exact Accounts.nil (by simp)
  · constructor
    · simp [needs]
    · simp [written]
    · simp [Event.Plain]

theorem assigns_andThen (hfirst : Assigns uses defined first middle)
    (hsecond : Assigns uses middle second definitions) :
    Assigns uses defined (andThen first second) definitions := by
  intro trace outcome hpath
  rcases hpath with ⟨hleft, hleaves⟩ | ⟨head, tail, rfl, hleft, hright⟩
  · exact (hfirst trace outcome hleft).leaving hleaves
  · exact (hfirst head .normal hleft).append (hsecond tail outcome hright)

theorem assigns_either (hfirst : Assigns uses defined first definitions)
    (hsecond : Assigns uses defined second definitions) :
    Assigns uses defined (either first second) definitions := by
  intro trace outcome hpath
  rcases hpath with hleft | hright
  · exact hfirst trace outcome hleft
  · exact hsecond trace outcome hright

/-- The loop rule: only the condition runs on every path, so only what it
writes is written after the loop. -/
theorem assigns_loop {condition body : Paths α}
    (hcondition : Assigns uses defined condition middle)
    (hbody : Assigns uses middle body definitions) :
    Assigns uses defined (Loop condition body) middle := by
  -- induction on the iterations; each starts with no less than `defined` written
  intro trace outcome hpath
  induction hpath with
  | done htest => exact hcondition _ .normal htest
  | stuck htest hleaves => exact (hcondition _ _ htest).leaving hleaves
  | @breaks head tail htest hrun =>
    have htail := hbody tail .breaks hrun
    refine (hcondition head .normal htest).append ⟨htail.needed, ?_, htail.plain⟩
    intro _; exact subset_union_left
  | @escapes head tail outcome htest hrun hending =>
    have hleaves : outcome ≠ .normal := by rcases hending with rfl | rfl <;> simp
    exact (hcondition head .normal htest).append ((hbody tail outcome hrun).leaving hleaves)
  | @again head run tail ending outcome htest hrun hending _ ih =>
    have hmiddle : middle ⊆ middle ∪ defined := subset_union_left
    have haccounts := (hbody run ending hrun).widen hmiddle
    have hback : Accounts uses (middle ∪ defined) (middle ∪ defined) run .normal :=
      ⟨haccounts.needed, fun _ => subset_union_left, haccounts.plain⟩
    -- the next iteration starts with at least what this one started with
    have hrest : Accounts uses (middle ∪ defined) middle tail outcome :=
      ih.widen subset_union_right
    exact (hcondition head .normal htest).keep.append (hback.append hrest)

theorem assigns_contain (hbody : Assigns uses defined paths definitions) :
    Assigns uses defined (contain paths) defined := by
  intro trace outcome hpath
  obtain ⟨ending, hrun, rfl⟩ := hpath
  have haccounts := hbody trace ending hrun
  exact ⟨haccounts.needed, fun _ => subset_union_left, haccounts.plain⟩

/-- In front of a safe continuation that needs no more than `live`, the paths
need no more than `uses` and what `live` has left over. -/
theorem Accounts.safe {rest : Trace α} {live : Finset α}
    (haccounts : Accounts uses ∅ definitions trace .normal) (hneeds : needs rest ⊆ live)
    (hsafe : Safe rest) :
    needs (trace ++ rest) ⊆ uses ∪ (live \ definitions) ∧ Safe (trace ++ rest) := by
  refine ⟨?_, safe_append haccounts.plain hsafe⟩
  rw [needs_append]
  have hwritten : definitions ⊆ written trace := by simpa using haccounts.defines rfl
  refine union_subset ?_ (sdiff_subset_sdiff hneeds hwritten |>.trans ?_)
  · exact (by simpa using haccounts.needed : needs trace ⊆ uses).trans subset_union_left
  · exact subset_union_right

end Loom.Liveness

import Mathlib.Data.Nat.Notation
import Mathlib.Data.PNat.Notation
import Mathlib.Data.PNat.Defs
import Loom.Runtime.Cleanup

/-
  Disposal of the elements of a collection.

  `loom_rt_cleanup_each` calls one callback for each element and each step of its
  disposal, the last element and the last step first. The callbacks are generated
  code: they pass checkpoints, fault, register cleanups of their own, resume tasks and
  dispose of collections. A cancellation of the worker may be requested at any moment;
  the worker meets it at its next checkpoint that no mask covers.

  Correspondence (Rust ↔ Lean), where names differ:
    `OwnedFault`, `Failure` ↔ `Cleanup.Fault`, `Cleanup.Failure`
    `CURRENT`, `MASKED` (worker_control.rs) ↔ the arguments `current`, `masked`
    `run_cleanup` (llvm_cleanup.rs) ↔ `Code.lexical`
    `fault`, `cancel`, `drain_to` (cleanup.rs) ↔ `drained`, and `run` where it unwinds
    `catch_fault`, `propagate_cancel` ↔ `Code.boundary`, the branches of `eachLoop`
    the loops of `loom_rt_cleanup_each` ↔ `traverse`, `eachLoop`
    `loom_rt_cleanup_each` ↔ `cleanupEach`
  Time is the number of checkpoints that the worker has passed: between two of them it
  cannot tell when a request arrived. A mutex acquisition reads the request as a
  checkpoint does. The registrations above a boundary are the cleanups of the scopes
  that an unwind passes, so a drain is modelled where the unwind passes them.
-/

namespace Loom.Disposal

open List

open Cleanup (Fault Failure)

/-- A worker's control: the time of its cancellation request, if there is one. -/
structure Control where
  request : Option Nat

def Control.requested (control : Control) (now : Nat) : Bool := control.request.any (· ≤ now)

/-- Whether a checkpoint cancels. -/
def checkpoint (current : Option Control) (masked : Bool) (now : Nat) : Bool :=
  !masked && current.any fun control => control.requested now

/-- Generated code, and what it does next. -/
inductive Code where
  | done
  | checkpoint (next : Code)
  | fault (fault : Fault)
  /-- A cleanup is registered while the body runs; then it is popped and run. -/
  | lexical (cleanup body next : Code)
  /-- The body runs in a boundary of its own, which keeps its fault. -/
  | boundary (body next : Code)
  | each (count : Nat) (steps : ℕ+) (callback : Nat → Nat → Code) (next : Code)

/-! ## The loops -/

/-- A callback: for an element, a step and a time, how it ends and when. -/
abbrev Callback := Nat → Nat → Nat → Option Failure × Nat

/-- The counters of the traversal, the time, and the pairs the callback was called for. -/
structure Progress where
  element : Nat
  step : Nat
  now : Nat
  invoked : List (Nat × Nat)

/-- What bounds the turns that are left. -/
def Progress.left (steps : Nat) (p : Progress) : Nat := p.element * (steps + 1) + p.step

/-- The counters of a turn: the next element if the last one's steps are done, and its
next step. -/
def Progress.advance (steps : Nat) (p : Progress) : Progress :=
  if p.step = 0 then { p with element := p.element - 1, step := steps - 1 }
  else { p with step := p.step - 1 }

def Progress.call (p : Progress) (now : Nat) : Progress :=
  { p with now := now, invoked := p.invoked ++ [(p.element, p.step)] }

variable {steps : Nat} {p : Progress}

theorem Progress.left_advance (h : p.element > 0 ∨ p.step > 0) (now : Nat) :
    ((p.advance steps).call now).left steps < p.left steps := by
  unfold advance
  split
  next hzero =>
    obtain ⟨e, he⟩ : ∃ e, p.element = e + 1 := ⟨p.element - 1, by omega⟩
    simp only [left, call, he, Nat.add_sub_cancel, Nat.add_one_mul]; omega
  next =>
    simp only [left, call]; omega

/-- The inner loop: until a callback fails or every pair is disposed of. -/
def traverse (steps : Nat) (callback : Callback) (p : Progress) : Option Failure × Progress :=
  if p.element > 0 ∨ p.step > 0 then
    let turn := p.advance steps
    match callback turn.element turn.step turn.now with
    | (some failure, now) => (some failure, turn.call now)
    | (none, now) => traverse steps callback (turn.call now)
  else (none, p)
termination_by p.left steps
decreasing_by exact Progress.left_advance ‹_› _

theorem traverse_left (steps : Nat) (callback : Callback) (p : Progress)
    (h : p.element > 0 ∨ p.step > 0) :
    (traverse steps callback p).2.left steps < p.left steps := by
  fun_induction traverse steps callback p with
  | case1 p _ turn failure now _ => exact Progress.left_advance h now
  | case2 p _ turn now _ ih =>
    have hturn : ((p.advance steps).call now).left steps < p.left steps :=
      Progress.left_advance h now
    by_cases hmore : (turn.call now).element > 0 ∨ (turn.call now).step > 0
    · exact (ih hmore).trans hturn
    · rw [traverse, if_neg hmore]; exact hturn
  | case3 p hdone => exact absurd h hdone

/-- The outer loop: a boundary around each traversal. Its fault is kept if it is the
first; a cancellation is passed on at once, out of the loop. -/
def eachLoop (steps : Nat) (callback : Callback) (first : Option Fault) (p : Progress) :
    Option Failure × Progress :=
  if h : p.element > 0 ∨ p.step > 0 then
    let outcome := traverse steps callback p
    have := traverse_left steps callback p h
    match outcome.1 with
    | none => eachLoop steps callback first outcome.2
    | some (.fault failure) => eachLoop steps callback (first <|> some failure) outcome.2
    | some .cancelled => (some .cancelled, outcome.2)
  else (first.map .fault, p)
termination_by p.left steps

def cleanupEach (count steps : Int) (callback : Callback) (now : Nat) :
    Except String (Option Failure × Progress) :=
  if count < 0 ∨ steps ≤ 0 then throw "invalid collection cleanup bounds"
  else return eachLoop steps.toNat callback none ⟨count.toNat, 0, now, []⟩

/-! ## Generated code -/

/-- What is left of a failure after a cleanup of its drain. The first fault stays, and a
cancellation gives way to a fault. -/
def drained : Failure → Option Failure → Failure
  | .cancelled, some (.fault fault) => .fault fault
  | failure, _ => failure

/-- How generated code ends, and when. Drains are masked. -/
def run (current : Option Control) : Code → Bool → Nat → Option Failure × Nat
  | .done, _, now => (none, now)
  | .checkpoint next, masked, now =>
    if checkpoint current masked now then (some .cancelled, now + 1)
    else run current next masked (now + 1)
  | .fault fault, _, now => (some (.fault fault), now)
  | .lexical cleanup body next, masked, now =>
    match run current body masked now with
    | (some failure, now) =>
      let after := run current cleanup true now
      (some (drained failure after.1), after.2)
    | (none, now) =>
      match run current cleanup masked now with
      | (some failure, now) => (some failure, now)
      | (none, now) => run current next masked now
  | .boundary body next, masked, now =>
    match run current body masked now with
    | (some .cancelled, now) => (some .cancelled, now)
    | (_, now) => run current next masked now
  | .each count steps callback next, masked, now =>
    match eachLoop steps (fun element step now => run current (callback element step) masked now)
        none ⟨count, 0, now, []⟩ with
    | (some failure, p) => (some failure, p.now)
    | (none, p) => run current next masked p.now

/-! ## Pairs in turn -/

/-- The pairs of the last `count` elements, in descending order. -/
def pairs (count steps : Nat) : List (Nat × Nat) :=
  (range count).reverse.flatMap fun element =>
    (range steps).reverse.map fun step => (element, step)

def Progress.remaining (steps : Nat) (p : Progress) : List (Nat × Nat) :=
  ((range p.step).reverse.map fun step => (p.element, step)) ++ pairs p.element steps

/-- How the callbacks end where they are called for one pair after another. -/
def endings (callback : Callback) : List (Nat × Nat) → Nat → List (Option Failure)
  | [], _ => []
  | pair :: rest, now =>
    (callback pair.1 pair.2 now).1 :: endings callback rest (callback pair.1 pair.2 now).2

/-- The pairs disposed of one after another, up to a cancellation: what is raised, the
time, and the pairs the callback was called for. -/
def dispose (callback : Callback) :
    List (Nat × Nat) → Option Fault → Nat → List (Nat × Nat) →
    Option Failure × Nat × List (Nat × Nat)
  | [], first, now, invoked => (first.map .fault, now, invoked)
  | pair :: rest, first, now, invoked =>
    match callback pair.1 pair.2 now with
    | (none, now) => dispose callback rest first now (invoked ++ [pair])
    | (some (.fault fault), now) =>
      dispose callback rest (first <|> some fault) now (invoked ++ [pair])
    | (some .cancelled, now) => (some .cancelled, now, invoked ++ [pair])

theorem pairs_succ (count steps : Nat) : pairs (count + 1) steps =
    ((range steps).reverse.map fun step => (count, step)) ++ pairs count steps := by
  simp [pairs, range_succ]

theorem Progress.remaining_advance (hsteps : 0 < steps) (h : p.element > 0 ∨ p.step > 0) (now : Nat) :
    p.remaining steps =
      ((p.advance steps).element, (p.advance steps).step) ::
        ((p.advance steps).call now).remaining steps := by
  have hrange : ∀ n, 0 < n → (range n).reverse = (n - 1) :: (range (n - 1)).reverse := by
    intro n hn
    obtain ⟨m, rfl⟩ : ∃ m, n = m + 1 := ⟨n - 1, by omega⟩
    simp [range_succ]
  unfold advance
  split
  next hzero =>
    obtain ⟨e, he⟩ : ∃ e, p.element = e + 1 := ⟨p.element - 1, by omega⟩
    simp [remaining, call, hzero, he, pairs_succ, hrange steps hsteps]
  next hstep =>
    simp [remaining, call, hrange p.step (by omega)]

theorem Progress.remaining_done (h : ¬(p.element > 0 ∨ p.step > 0)) : p.remaining steps = [] := by
  have he : p.element = 0 := by omega
  have hs : p.step = 0 := by omega
  simp [remaining, he, hs, pairs]

section
variable {steps : Nat} {callback : Callback}

/-- One boundary disposes of the pairs that it is left with. -/
theorem traverse_spec (hsteps : 0 < steps) (first : Option Fault) (p : Progress) :
    dispose callback (p.remaining steps) first p.now p.invoked =
      match traverse steps callback p with
      | (none, q) => dispose callback (q.remaining steps) first q.now q.invoked
      | (some (.fault fault), q) =>
        dispose callback (q.remaining steps) (first <|> some fault) q.now q.invoked
      | (some .cancelled, q) => (some .cancelled, q.now, q.invoked) := by
  have htime : ∀ p : Progress, (p.advance steps).now = p.now := by
    intro p
    unfold Progress.advance
    split <;> rfl
  have hcalls : ∀ p : Progress, (p.advance steps).invoked = p.invoked := by
    intro p
    unfold Progress.advance
    split <;> rfl
  fun_induction traverse steps callback p with
  | case1 p h turn failure now hcall =>
    rw [Progress.remaining_advance hsteps h now, dispose, ← htime, hcall]
    cases failure <;> simp [turn, Progress.call, hcalls]
  | case2 p h turn now hcall ih =>
    rw [Progress.remaining_advance hsteps h now, dispose, ← htime, hcall, ← ih]
    simp [turn, Progress.call, hcalls]
  | case3 p h => rfl

theorem eachLoop_spec (callback : Callback) (hsteps : 0 < steps) (first : Option Fault)
    (p : Progress) :
    ((eachLoop steps callback first p).1, (eachLoop steps callback first p).2.now,
      (eachLoop steps callback first p).2.invoked) =
        dispose callback (p.remaining steps) first p.now p.invoked := by
  fun_induction eachLoop steps callback first p with
  | case1 first p h outcome _ hreturned ih =>
    have hrun : traverse steps callback p = (none, outcome.2) := Prod.ext hreturned rfl
    rw [ih, traverse_spec hsteps first p, hrun]
  | case2 first p h outcome _ failure hfault ih =>
    have hrun : traverse steps callback p = (some (.fault failure), outcome.2) :=
      Prod.ext hfault rfl
    rw [ih, traverse_spec hsteps first p, hrun]
  | case3 first p h outcome _ hcancelled =>
    have hrun : traverse steps callback p = (some .cancelled, outcome.2) :=
      Prod.ext hcancelled rfl
    rw [traverse_spec hsteps first p, hrun]
  | case4 first p h =>
    rw [Progress.remaining_done h]; rfl

/-! ## What is raised -/

def faultOf : Option Failure → Option Fault
  | some (.fault fault) => some fault
  | _ => none

def firstFault (ends : List (Option Failure)) : Option Fault := ends.findSome? faultOf

/-- What is to be raised after callbacks that end so: the first fault, or else the
cancellation. -/
def raised (ends : List (Option Failure)) : Option Failure :=
  match firstFault ends with
  | some fault => some (.fault fault)
  | none => if some .cancelled ∈ ends then some .cancelled else none

/-- No callback but the last one ends in a cancellation, and that one only where no
callback faults. -/
def Undisturbed (ends : List (Option Failure)) : Prop :=
  some .cancelled ∉ ends.dropLast ∧
    (ends.getLast? = some (some .cancelled) → firstFault ends = none)

variable {ends : List (Option Failure)}

theorem undisturbed_of_not_mem (h : some .cancelled ∉ ends) : Undisturbed ends :=
  ⟨fun hmem => h (dropLast_subset _ hmem), fun hlast => absurd (mem_of_getLast? hlast) h⟩

theorem firstFault_cons (ending : Option Failure) (ends : List (Option Failure)) :
    firstFault (ending :: ends) = (faultOf ending <|> firstFault ends) := by
  unfold firstFault
  rw [findSome?_cons]
  cases faultOf ending <;> rfl

theorem endings_length (pairs : List (Nat × Nat)) (now : Nat) :
    (endings callback pairs now).length = pairs.length := by
  induction pairs generalizing now with
  | nil => rfl
  | cons pair rest ih => rw [endings, length_cons, length_cons, ih]

theorem dispose_all {pairs : List (Nat × Nat)} {now : Nat}
    (h : some .cancelled ∉ endings callback pairs now) (first : Option Fault)
    (invoked : List (Nat × Nat)) :
    ∃ now', dispose callback pairs first now invoked =
      ((first <|> firstFault (endings callback pairs now)).map .fault, now',
        invoked ++ pairs) := by
  induction pairs generalizing first now invoked with
  | nil => exact ⟨now, by cases first <;> simp [dispose, endings, firstFault]⟩
  | cons pair rest ih =>
    rw [endings, mem_cons, not_or] at h
    rw [endings, firstFault_cons, dispose]
    generalize callback pair.1 pair.2 now = out at h ⊢
    obtain ⟨ending, time⟩ := out
    match ending, h with
    | none, h =>
      obtain ⟨now', hrest⟩ := ih h.2 first (invoked ++ [pair])
      exact ⟨now', by simpa [faultOf] using hrest⟩
    | some (.fault fault), h =>
      obtain ⟨now', hrest⟩ := ih h.2 (first <|> some fault) (invoked ++ [pair])
      refine ⟨now', ?_⟩
      cases first <;> simpa [faultOf] using hrest
    | some .cancelled, h => exact absurd rfl h.1

theorem raised_uncancelled (h : some .cancelled ∉ ends) :
    raised ends = (firstFault ends).map .fault := by
  unfold raised
  cases firstFault ends with
  | none => exact if_neg h
  | some fault => rfl

theorem raised_cancelled (h : some .cancelled ∈ ends) :
    raised ends = some .cancelled ↔ firstFault ends = none := by
  unfold raised
  cases firstFault ends with
  | none => simp [h]
  | some fault => simp

theorem idxOf_cancelled_cons {ending : Option Failure} (h : ending ≠ some .cancelled)
    (ends : List (Option Failure)) :
    (ending :: ends).idxOf (some .cancelled) = ends.idxOf (some .cancelled) + 1 := by
  rw [idxOf_cons, beq_false_of_ne h]; rfl

theorem dispose_cancelled {pairs : List (Nat × Nat)} {now : Nat}
    (h : some .cancelled ∈ endings callback pairs now) (first : Option Fault)
    (invoked : List (Nat × Nat)) :
    ∃ now', dispose callback pairs first now invoked = (some .cancelled, now',
      invoked ++ pairs.take ((endings callback pairs now).idxOf (some .cancelled) + 1)) := by
  induction pairs generalizing first now invoked with
  | nil => exact absurd h not_mem_nil
  | cons pair rest ih =>
    rw [endings] at h ⊢
    rw [dispose]
    generalize callback pair.1 pair.2 now = out at h ⊢
    obtain ⟨ending, time⟩ := out
    match ending, h with
    | none, h =>
      obtain ⟨now', hrest⟩ := ih (by simpa using h) first (invoked ++ [pair])
      refine ⟨now', ?_⟩
      rw [idxOf_cancelled_cons (by simp)]
      simpa using hrest
    | some (.fault fault), h =>
      obtain ⟨now', hrest⟩ := ih (by simpa using h) (first <|> some fault) (invoked ++ [pair])
      refine ⟨now', ?_⟩
      rw [idxOf_cancelled_cons (by simp)]
      simpa using hrest
    | some .cancelled, _ => exact ⟨time, by simp⟩

end

/-! ## Where a cancellation cannot be met -/

section
variable {current : Option Control}

theorem endings_uncancelled {callback : Callback}
    (h : ∀ element step now, (callback element step now).1 ≠ some .cancelled)
    (pairs : List (Nat × Nat)) (now : Nat) : some .cancelled ∉ endings callback pairs now := by
  induction pairs generalizing now with
  | nil => exact not_mem_nil
  | cons pair rest ih =>
    rw [endings, mem_cons, not_or]
    exact ⟨fun heq => h _ _ _ heq.symm, ih _⟩

theorem eachLoop_uncancelled {steps : Nat} (hsteps : 0 < steps) {callback : Callback}
    (h : ∀ element step now, (callback element step now).1 ≠ some .cancelled)
    (first : Option Fault) (p : Progress) :
    (eachLoop steps callback first p).1 ≠ some .cancelled := by
  have hspec := congrArg Prod.fst (eachLoop_spec callback hsteps first p)
  obtain ⟨now', hall⟩ :=
    dispose_all (endings_uncancelled h (p.remaining steps) p.now) first p.invoked
  rw [hall] at hspec
  rw [hspec]
  cases (first <|> firstFault (endings callback (p.remaining steps) p.now)) <;> exact nofun

theorem run_uncancelled (code : Code) (masked : Bool)
    (h : ∀ now, checkpoint current masked now = false) (now : Nat) :
    (run current code masked now).1 ≠ some .cancelled := by
  induction code generalizing masked now with
  | done => exact nofun
  | checkpoint next ih =>
    rw [run, h]; exact ih masked h (now + 1)
  | fault fault => exact nofun
  | lexical cleanup body next ihCleanup ihBody ihNext =>
    have hbody := ihBody masked h now
    rw [run]
    generalize run current body masked now = out at hbody ⊢
    obtain ⟨ending, time⟩ := out
    match ending, hbody with
    | some (.fault fault), _ =>
      -- The first fault stays whatever its drain does.
      cases hafter : (run current cleanup true time).1 with
      | none => simp [drained]
      | some failure => cases failure <;> simp [drained]
    | some .cancelled, hbody => exact absurd rfl hbody
    | none, _ =>
      have hcleanup := ihCleanup masked h time
      simp only
      generalize run current cleanup masked time = out at hcleanup ⊢
      obtain ⟨ending, time⟩ := out
      cases ending with
      | none => exact ihNext masked h time
      | some failure => exact hcleanup
  | boundary body next ihBody ihNext =>
    have hbody := ihBody masked h now
    rw [run]
    generalize run current body masked now = out at hbody ⊢
    obtain ⟨ending, time⟩ := out
    match ending, hbody with
    | none, _ => exact ihNext masked h time
    | some (.fault fault), _ => exact ihNext masked h time
    | some .cancelled, hbody => exact absurd rfl hbody
  | each count steps callback next ihCallback ihNext =>
    have heach := eachLoop_uncancelled steps.pos
      (fun element step now => ihCallback element step masked h now) none ⟨count, 0, now, []⟩
    rw [run]
    generalize eachLoop _ _ _ _ = out at heach ⊢
    obtain ⟨ending, p⟩ := out
    cases ending with
    | none => exact ihNext masked h p.now
    | some failure => exact heach

end

/-! ## Disposal of a collection -/

section
variable (current : Option Control) (masked : Bool) (count steps : Nat)
  (callback : Nat → Nat → Code) (now : Nat)

/-- The compiler's callback, as the runtime calls it. -/
def callbackOf : Callback := fun element step now => run current (callback element step) masked now

/-- How the callbacks of a collection end, each called after the one before it. -/
def endingsOf : List (Option Failure) :=
  endings (callbackOf current masked callback) (pairs count steps) now

/-- Every pair is disposed of exactly once, in descending order, and what is to be
raised then is. -/
def Completes : Prop :=
  ∃ p, cleanupEach count steps (callbackOf current masked callback) now =
      .ok (raised (endingsOf current masked count steps callback now), p) ∧
    p.invoked = pairs count steps

/-- A thread that is no worker disposes of everything. -/
theorem undisturbed_alone : Undisturbed (endingsOf none masked count steps callback now) :=
  undisturbed_of_not_mem (endings_uncancelled
    (fun element step now => run_uncancelled (callback element step) masked
      (fun _ => by simp [checkpoint]) now) _ now)

end

theorem not_mem_dropLast_iff {α : Type} [BEq α] [LawfulBEq α] {l : List α} {a : α} (h : a ∈ l) :
    a ∉ l.dropLast ↔ l.idxOf a + 1 = l.length := by
  obtain ⟨front, last, rfl⟩ := (eq_nil_or_concat l).resolve_left (ne_nil_of_mem h)
  rw [concat_eq_append, dropLast_concat, idxOf_append, length_append]
  by_cases hfront : a ∈ front
  · have hlt := idxOf_lt_length_of_mem hfront
    rw [if_pos hfront, length_singleton]
    exact iff_of_false (fun hnot => hnot hfront) (by omega)
  · have hlast : a = last := by simpa [hfront] using h
    subst hlast
    rw [if_neg hfront, idxOf_cons_self, length_singleton]
    exact iff_of_true hfront (by omega)

theorem getLast?_of_idxOf {α : Type} [BEq α] [LawfulBEq α] {l : List α} {a : α}
    (h : l.idxOf a + 1 = l.length) : l.getLast? = some a := by
  have hlt : l.idxOf a < l.length := by omega
  rw [getLast?_eq_getElem?, show l.length - 1 = l.idxOf a by omega,
    getElem?_eq_getElem hlt, getElem_idxOf hlt]

theorem completes_iff_dispose {current : Option Control} {masked : Bool} {count : Nat}
    (hsteps : 0 < steps) {callback : Nat → Nat → Code} {now : Nat} :
    Completes current masked count steps callback now ↔
      ∃ now', dispose (callbackOf current masked callback) (pairs count steps) none now [] =
        (raised (endingsOf current masked count steps callback now), now', pairs count steps) := by
  have hguard : ¬((count : Int) < 0 ∨ (steps : Int) ≤ 0) := by omega
  have hspec := eachLoop_spec (callbackOf current masked callback) hsteps none
    ⟨count, 0, now, []⟩
  rw [show Progress.remaining steps ⟨count, 0, now, []⟩ = pairs count steps from rfl] at hspec
  unfold Completes cleanupEach
  rw [if_neg hguard, ← hspec]
  constructor
  · rintro ⟨p, hrun, hinvoked⟩
    have hpair := Except.ok.inj hrun
    simp only [Int.toNat_natCast] at hpair
    rw [hpair]; exact ⟨p.now, by rw [hinvoked]⟩
  · rintro ⟨now', hrun⟩
    simp only [Prod.mk.injEq] at hrun
    refine ⟨_, congrArg Except.ok (Prod.ext hrun.1 rfl), hrun.2.2⟩

/-- A collection is disposed of completely exactly when none of its callbacks but the
last ends in a cancellation, and the last only where none faults. -/
theorem cleanup_each_completes_iff (current : Option Control) (masked : Bool) (count steps : Nat)
    (hsteps : 0 < steps) (callback : Nat → Nat → Code) (now : Nat) :
    Completes current masked count steps callback now ↔
      Undisturbed (endingsOf current masked count steps callback now) := by
  rw [completes_iff_dispose hsteps]
  generalize hends : endingsOf current masked count steps callback now = ends
  have hlength : ends.length = (pairs count steps).length := by
    rw [← hends]; exact endings_length _ _
  by_cases hcancelled : some .cancelled ∈ ends
  case pos =>
    obtain ⟨now', hrun⟩ := dispose_cancelled
      (show some .cancelled ∈ endings _ _ _ from hends ▸ hcancelled) none []
    have hindex := idxOf_lt_length_of_mem hcancelled
    rw [show endings _ _ _ = ends from hends, nil_append] at hrun
    rw [hrun]
    constructor
    · rintro ⟨now', hall⟩
      simp only [Prod.mk.injEq] at hall
      have hlast := congrArg length hall.2.2
      rw [length_take] at hlast
      refine ⟨(not_mem_dropLast_iff hcancelled).mpr (by omega), fun _ => ?_⟩
      exact (raised_cancelled hcancelled).mp hall.1.symm
    · rintro ⟨hfront, hfault⟩
      have hlast := (not_mem_dropLast_iff hcancelled).mp hfront
      refine ⟨now', ?_⟩
      have hends : ends.getLast? = some (some .cancelled) := getLast?_of_idxOf hlast
      rw [take_of_length_le (by omega), (raised_cancelled hcancelled).mpr (hfault hends)]
  case neg =>
    obtain ⟨now', hrun⟩ := dispose_all
      (show some .cancelled ∉ endings _ _ _ from hends ▸ hcancelled) none []
    refine iff_of_true ⟨now', ?_⟩ (undisturbed_of_not_mem hcancelled)
    rw [hrun, raised_uncancelled hcancelled, ← hends]; rfl

/-- The callback that faults in its second step, for three elements. -/
theorem cleanup_each_completes_faulting :
    Completes none false 3 2
      (fun _ step => if step = 1 then .fault ⟨[102], none⟩ else .checkpoint .done) 0 :=
  (cleanup_each_completes_iff none false 3 2 (by decide) _ 0).mpr
    (undisturbed_alone false 3 2 _ 0)

/-- A request that the last element's callback meets at its entry: the element before it
is never disposed of. -/
theorem cleanup_each_interrupted :
    ¬Completes (some ⟨some 0⟩) false 2 1 (fun _ _ => .checkpoint .done) 0 := by
  intro h
  obtain ⟨now', hrun⟩ := (completes_iff_dispose (by decide)).mp h
  have hmet : dispose (callbackOf (some ⟨some 0⟩) false fun _ _ => .checkpoint .done)
      (pairs 2 1) none 0 [] = (some .cancelled, 1, [(1, 0)]) := rfl
  have hpairs : pairs 2 1 = [(1, 0), (0, 0)] := rfl
  rw [hmet, hpairs] at hrun; simp at hrun

/-- In a drain, on a thread that is no worker, and where no cancellation is requested, every
pair is disposed of, whatever the callbacks do. -/
theorem cleanup_each_uncancelled (current : Option Control) (masked : Bool) (count steps : Nat)
    (hsteps : 0 < steps) (callback : Nat → Nat → Code) (now : Nat)
    (hnever : masked = true ∨ ∀ control, current = some control → control.request = none) :
    Completes current masked count steps callback now := by
  have hquiet : ∀ now, checkpoint current masked now = false := by
    intro now
    obtain hmasked | hnone := hnever
    · simp [checkpoint, hmasked]
    · cases current with
      | none => simp [checkpoint]
      | some control => simp [checkpoint, Control.requested, hnone control rfl]
  have hcalls : ∀ element step now,
      (callbackOf current masked callback element step now).1 ≠ some .cancelled :=
    fun element step now => run_uncancelled (callback element step) masked hquiet now
  have hnot := endings_uncancelled hcalls (pairs count steps) now
  obtain ⟨now', hrun⟩ := dispose_all hnot none []
  rw [completes_iff_dispose hsteps]
  refine ⟨now', ?_⟩
  rw [hrun, endingsOf, raised_uncancelled hnot]; rfl

/-- The interrupted disposal, in a drain. -/
theorem cleanup_each_uncancelled_masked :
    Completes (some ⟨some 0⟩) true 2 1 (fun _ _ => .checkpoint .done) 0 :=
  cleanup_each_uncancelled (some ⟨some 0⟩) true 2 1 (by decide) _ 0 (.inl rfl)

end Loom.Disposal

import Loom.Library.Runs
import Mathlib.Data.Fintype.Basic
import Mathlib.Data.Fintype.Prod
import Mathlib.Logic.Function.Basic

/-
  Exclusive access to shared objects: waiting for it, being cancelled while
  waiting, and handing it on.

  The threads run concurrently; every locked section of the source is one step,
  and so is every access to a thread's request flag. `Place` is where a thread
  stands between two steps, `step` takes one step of one thread.

  Correspondence (Rust ↔ Lean), where names differ:
    `Access::held`, `Control::requested`, `Control::waiting` ↔ the fields of `State`
    `Control::wait_on(Some(..))`, `wait_on(None)` ↔ `register`, `unregister`
    the closure given to `park_native` ↔ `lockedSection`
    `Access::release` ↔ `release`, `notifyOne`
    `Control::cancel`, `Access::wake` ↔ `cancel`, `readWaiting`, `wake`
  A thread that never uses the cancellable entry is one without a control. The
  parking of the heap around the locked section takes no part in the waking.
-/

namespace Loom.Runtime.SharedAccess

open Runs Function

/-- The two entries, which differ in whether they look at the request. -/
inductive Entry where
  | plain
  | cancellable
  deriving DecidableEq

/-- Where a thread stands between two steps. -/
inductive Place (ι κ : Type*) where
  | outside
  | trying (entry : Entry) (access : κ)
  | registering (access : κ)
  /-- About to run the locked section, for the first time or woken. -/
  | locking (entry : Entry) (access : κ)
  | asleep (entry : Entry) (access : κ)
  | unregistering (access : κ) (acquired : Bool)
  /-- In `release`, the access free again, before `notify_one`. -/
  | notifying (access : κ)
  /-- In `cancel`, the request stored, before `waiting` is read. -/
  | cancelling (target : ι)
  /-- In `cancel`, the registration read, before `notify_all`. -/
  | waking (access : κ)
  deriving DecidableEq

structure State (ι κ : Type*) where
  held : κ → Bool
  holds : ι × κ → Bool
  place : ι → Place ι κ
  requested : ι → Bool
  waiting : ι → Option κ

inductive Event (ι κ : Type*) where
  | acquire (thread : ι) (access : κ)
  | acquireCancellable (thread : ι) (access : κ)
  | tryAcquire (thread : ι) (contended : Bool)
  | register (thread : ι)
  | lockedSection (thread : ι)
  | spurious (thread : ι)
  | unregister (thread : ι)
  | release (thread : ι) (access : κ)
  | notifyOne (thread : ι) (woken : Option ι)
  | cancel (thread target : ι)
  | readWaiting (thread : ι)
  | wake (thread : ι)

variable {ι κ : Type*} [DecidableEq ι] [DecidableEq κ]

/-- Nobody in a call, every access free, no request made. -/
def start : State ι κ where
  held _ := false
  holds _ := false
  place _ := .outside
  requested _ := false
  waiting _ := none

def sleepsOn (s : State ι κ) (access : κ) (thread : ι) : Bool :=
  match s.place thread with
  | .asleep _ other => other = access
  | _ => false

def State.move (s : State ι κ) (thread : ι) (place : Place ι κ) : State ι κ :=
  { s with place := update s.place thread place }

/-- The thread becomes the holder. -/
def State.take (s : State ι κ) (thread : ι) (access : κ) : State ι κ :=
  { s with held := update s.held access true, holds := update s.holds (thread, access) true }

def acquire (s : State ι κ) (thread : ι) (access : κ) : Option (State ι κ) :=
  if s.place thread = .outside then some (s.move thread (.trying .plain access)) else none

/-- The cancellable entry returns at once where the request is already made. -/
def acquireCancellable (s : State ι κ) (thread : ι) (access : κ) : Option (State ι κ) :=
  if s.place thread = .outside then
    if s.requested thread then some s else some (s.move thread (.trying .cancellable access))
  else none

/-- `try_lock` fails where the access is held, and may fail where another
thread is inside a locked section. -/
def tryAcquire (s : State ι κ) (thread : ι) (contended : Bool) : Option (State ι κ) :=
  match s.place thread with
  | .trying entry access =>
    if !contended && !s.held access then some ((s.take thread access).move thread .outside)
    else
      match entry with
      | .plain => some (s.move thread (.locking .plain access))
      | .cancellable => some (s.move thread (.registering access))
  | _ => none

def register (s : State ι κ) (thread : ι) : Option (State ι κ) :=
  match s.place thread with
  | .registering access =>
    some ({ s with waiting := update s.waiting thread (some access) }.move thread
      (.locking .cancellable access))
  | _ => none

/-- One pass from taking the lock to waiting again or to leaving. -/
def lockedSection (s : State ι κ) (thread : ι) : Option (State ι κ) :=
  match s.place thread with
  | .locking .plain access =>
    if s.held access then some (s.move thread (.asleep .plain access))
    else some ((s.take thread access).move thread .outside)
  | .locking .cancellable access =>
    if s.requested thread then some (s.move thread (.unregistering access false))
    else if s.held access then some (s.move thread (.asleep .cancellable access))
    else some ((s.take thread access).move thread (.unregistering access true))
  | _ => none

/-- A condition variable may wake a thread without a notification. -/
def spurious (s : State ι κ) (thread : ι) : Option (State ι κ) :=
  match s.place thread with
  | .asleep entry access => some (s.move thread (.locking entry access))
  | _ => none

def unregister (s : State ι κ) (thread : ι) : Option (State ι κ) :=
  match s.place thread with
  | .unregistering _ _ =>
    some ({ s with waiting := update s.waiting thread none }.move thread .outside)
  | _ => none

def release (s : State ι κ) (thread : ι) (access : κ) : Option (State ι κ) :=
  if s.place thread = .outside ∧ s.holds (thread, access) then
    some ({ s with held := update s.held access false,
                   holds := update s.holds (thread, access) false }.move thread
      (.notifying access))
  else none

def cancel (s : State ι κ) (thread target : ι) : Option (State ι κ) :=
  if s.place thread = .outside then
    some ({ s with requested := update s.requested target true }.move thread
      (.cancelling target))
  else none

def readWaiting (s : State ι κ) (thread : ι) : Option (State ι κ) :=
  match s.place thread with
  | .cancelling target =>
    match s.waiting target with
    | some access => some (s.move thread (.waking access))
    | none => some (s.move thread .outside)
  | _ => none

/-- The place of a thread once everyone asleep on the access is notified. -/
def Place.notified (access : κ) : Place ι κ → Place ι κ
  | .asleep entry other => if other = access then .locking entry other else .asleep entry other
  | place => place

def wake (s : State ι κ) (thread : ι) : Option (State ι κ) :=
  match s.place thread with
  | .waking access =>
    some ({ s with place := fun u => (s.place u).notified access }.move thread .outside)
  | _ => none

variable [Fintype ι]

/-- `notify_one` wakes one of the threads asleep, if there is one. -/
def notifyOne (s : State ι κ) (thread : ι) (woken : Option ι) : Option (State ι κ) :=
  match s.place thread, woken with
  | .notifying access, none =>
    if ∀ u, sleepsOn s access u = false then some (s.move thread .outside) else none
  | .notifying access, some sleeper =>
    match s.place sleeper with
    | .asleep entry other =>
      if other = access then
        some ((s.move sleeper (.locking entry access)).move thread .outside)
      else none
    | _ => none
  | _, _ => none

def step (s : State ι κ) : Event ι κ → Option (State ι κ)
  | .acquire thread access => acquire s thread access
  | .acquireCancellable thread access => acquireCancellable s thread access
  | .tryAcquire thread contended => tryAcquire s thread contended
  | .register thread => register s thread
  | .lockedSection thread => lockedSection s thread
  | .spurious thread => spurious s thread
  | .unregister thread => unregister s thread
  | .release thread access => release s thread access
  | .notifyOne thread woken => notifyOne s thread woken
  | .cancel thread target => cancel s thread target
  | .readWaiting thread => readWaiting s thread
  | .wake thread => wake s thread

/-- Whether the thread, inside `acquire`, `release` or `cancel`, is still to
notify a sleeper on the access: a releaser and a canceller do it themselves, a
woken waiter that will not give up takes the access and releases it later. -/
def willNotify (s : State ι κ) (access : κ) (thread : ι) : Bool :=
  match s.place thread with
  | .locking .plain other => other = access
  | .locking .cancellable other => other = access && !s.requested thread
  | .notifying other => other = access
  | .cancelling target => s.waiting target = some access
  | .waking other => other = access
  | _ => false

/-- At most one thread holds an access, and a thread asleep on a free access
is owed a notification by somebody. -/
def NoLostWakeUp (s : State ι κ) : Prop :=
  ∀ access,
    (∀ t u, s.holds (t, access) = true → s.holds (u, access) = true → t = u) ∧
    (s.held access = false → ∀ t, sleepsOn s access t = true →
      ∃ u, willNotify s access u = true)

instance [Fintype κ] (s : State ι κ) : Decidable (NoLostWakeUp s) :=
  inferInstanceAs (Decidable (∀ _, _ ∧ _))

/-- Before a waiter that gave up clears its registration: the access is held,
or nobody sleeps on it, or no cancel of the waiter is between storing its
request and reading the registration, or a thread other than those cancels is
to notify. -/
def handsOn (s : State ι κ) : Event ι κ → Bool
  | .unregister thread =>
    match s.place thread with
    | .unregistering access false =>
      s.held access || decide (∀ u, sleepsOn s access u = false) ||
        decide (∀ u, s.place u ≠ .cancelling thread) ||
        decide (∃ u, s.place u ≠ .cancelling thread ∧ willNotify s access u = true)
    | _ => true
  | _ => true

/-! ## What a step does -/

section
omit [Fintype ι]

section
omit [DecidableEq κ]

@[simp] theorem held_move (s : State ι κ) (t : ι) (p : Place ι κ) : (s.move t p).held = s.held :=
  rfl

@[simp] theorem requested_move (s : State ι κ) (t : ι) (p : Place ι κ) :
    (s.move t p).requested = s.requested := rfl

@[simp] theorem waiting_move (s : State ι κ) (t : ι) (p : Place ι κ) :
    (s.move t p).waiting = s.waiting := rfl

@[simp] theorem place_move (s : State ι κ) (t u : ι) (p : Place ι κ) :
    (s.move t p).place u = if u = t then p else s.place u := by
  simp [State.move, update_apply]

end

@[simp] theorem place_take (s : State ι κ) (t : ι) (a : κ) : (s.take t a).place = s.place := rfl

@[simp] theorem held_take (s : State ι κ) (t : ι) (a b : κ) :
    (s.take t a).held b = if b = a then true else s.held b := by
  simp [State.take, update_apply]

@[simp] theorem holds_take (s : State ι κ) (t : ι) (a : κ) (owner : ι × κ) :
    (s.take t a).holds owner = if owner = (t, a) then true else s.holds owner := by
  simp [State.take, update_apply]

/-- Every way a step changes the state, with what it checks first. -/
inductive Took (s : State ι κ) : Event ι κ → State ι κ → Prop where
  | refused {t a} : Took s (.acquireCancellable t a) s
  | entered {e t entry a} (ht : s.place t = .outside) : Took s e (s.move t (.trying entry a))
  | queued {e t a} (ht : s.place t = .trying .plain a) : Took s e (s.move t (.locking .plain a))
  | missed {e t a} (ht : s.place t = .trying .cancellable a) : Took s e (s.move t (.registering a))
  | acquiredAtOnce {e t entry a} (ht : s.place t = .trying entry a) (hfree : s.held a = false) :
      Took s e ((s.take t a).move t .outside)
  | registered {e t a} (ht : s.place t = .registering a) :
      Took s e ({ s with waiting := update s.waiting t (some a) }.move t (.locking .cancellable a))
  | slept {e t entry a} (ht : s.place t = .locking entry a) (hheld : s.held a = true)
      (hrequest : entry = .cancellable → s.requested t = false) :
      Took s e (s.move t (.asleep entry a))
  | acquired {e t a} (ht : s.place t = .locking .plain a) (hfree : s.held a = false) :
      Took s e ((s.take t a).move t .outside)
  | acquiredRegistered {e t a} (ht : s.place t = .locking .cancellable a)
      (hfree : s.held a = false) : Took s e ((s.take t a).move t (.unregistering a true))
  | gaveUp {e t a} (ht : s.place t = .locking .cancellable a) (hrequest : s.requested t = true) :
      Took s e (s.move t (.unregistering a false))
  | woke {e t entry a} (ht : s.place t = .asleep entry a) : Took s e (s.move t (.locking entry a))
  | unregistered {t a acquired} (ht : s.place t = .unregistering a acquired) :
      Took s (.unregister t) ({ s with waiting := update s.waiting t none }.move t .outside)
  | released {e t a} (ht : s.place t = .outside) (hholds : s.holds (t, a) = true) :
      Took s e ({ s with held := update s.held a false,
                         holds := update s.holds (t, a) false }.move t (.notifying a))
  | notifiedNobody {e t a} (ht : s.place t = .notifying a) (hnone : ∀ u, sleepsOn s a u = false) :
      Took s e (s.move t .outside)
  | notified {e t u entry a} (ht : s.place t = .notifying a) (hu : s.place u = .asleep entry a) :
      Took s e ((s.move u (.locking entry a)).move t .outside)
  | requested {e t target} (ht : s.place t = .outside) :
      Took s e ({ s with requested := update s.requested target true }.move t (.cancelling target))
  | found {e t target a} (ht : s.place t = .cancelling target)
      (hwaiting : s.waiting target = some a) : Took s e (s.move t (.waking a))
  | foundNothing {e t target} (ht : s.place t = .cancelling target)
      (hwaiting : s.waiting target = none) : Took s e (s.move t .outside)
  | wokeAll {e t a} (ht : s.place t = .waking a) :
      Took s e ({ s with place := fun u => (s.place u).notified a }.move t .outside)

end

variable {s : State ι κ}

theorem step_took {s' : State ι κ} {e : Event ι κ} (hstep : step s e = some s') : Took s e s' := by
  cases e with
  | acquire => grind [step, acquire, Took]
  | acquireCancellable => grind [step, acquireCancellable, Took]
  | tryAcquire => grind [step, tryAcquire, Took]
  | register => grind [step, register, Took]
  | lockedSection => grind [step, lockedSection, Took]
  | spurious => grind [step, spurious, Took]
  | unregister => grind [step, unregister, Took]
  | release => grind [step, release, Took]
  | notifyOne thread woken =>
    simp only [step, notifyOne] at hstep
    split at hstep
    · grind [Took]
    · grind [Took]
    · cases hstep
  | cancel => grind [step, cancel, Took]
  | readWaiting => grind [step, readWaiting, Took]
  | wake => grind [step, wake, Took]

section
omit [Fintype ι]
variable {s s' : State ι κ} {e : Event ι κ}

/-! ## One holder -/

/-- A held access has one holder; a waiter that got it holds it while it clears
its registration. -/
structure Exclusive (s : State ι κ) : Prop where
  unique : ∀ {t u a}, s.holds (t, a) = true → s.holds (u, a) = true → t = u
  taken : ∀ {t a}, s.holds (t, a) = true → s.held a = true
  owner : ∀ {t a}, s.place t = .unregistering a true → s.holds (t, a) = true

omit [DecidableEq ι] [DecidableEq κ] in
theorem start_exclusive : Exclusive (start : State ι κ) := by
  refine ⟨?_, ?_, ?_⟩ <;> simp [start]

variable {p : Place ι κ} {t : ι} {a : κ} {u : ι}

omit [DecidableEq κ] in
theorem Exclusive.move (h : Exclusive s)
    (hp : ∀ a, p = .unregistering a true → s.holds (t, a) = true) : Exclusive (s.move t p) := by
  refine ⟨h.unique, h.taken, ?_⟩
  intro u a hu
  rw [place_move] at hu
  split at hu
  · next hsame => exact hsame ▸ hp a hu
  · exact h.owner hu

omit [DecidableEq ι] [DecidableEq κ] in
theorem Exclusive.flags (h : Exclusive s) (requested : ι → Bool) (waiting : ι → Option κ) :
    Exclusive { s with requested := requested, waiting := waiting } := ⟨h.unique, h.taken, h.owner⟩

theorem Exclusive.take (h : Exclusive s) (hfree : s.held a = false) : Exclusive (s.take t a) := by
  have hnobody : ∀ u, s.holds (u, a) ≠ true := by
    intro u hu
    rw [h.taken hu] at hfree
    cases hfree
  refine ⟨?_, ?_, ?_⟩
  · intro u v b hu hv
    rw [holds_take] at hu hv
    by_cases hnew : (u, b) = (t, a) <;> by_cases hother : (v, b) = (t, a)
    · exact (congrArg Prod.fst hnew).trans (congrArg Prod.fst hother).symm
    · have hb : b = a := congrArg Prod.snd hnew
      rw [if_neg hother, hb] at hv; exact absurd hv (hnobody v)
    · have hb : b = a := congrArg Prod.snd hother
      rw [if_neg hnew, hb] at hu; exact absurd hu (hnobody u)
    · rw [if_neg hnew] at hu
      rw [if_neg hother] at hv; exact h.unique hu hv
  · intro u b hu
    rw [held_take]
    split
    · rfl
    · next hother =>
      refine h.taken (t := u) ?_
      simpa [hother] using hu
  · intro u b hu
    rw [holds_take]
    split
    · rfl
    · exact h.owner hu

theorem Exclusive.release (h : Exclusive s) (ht : s.place t = .outside)
    (hholds : s.holds (t, a) = true) :
    Exclusive { s with held := update s.held a false, holds := update s.holds (t, a) false } := by
  refine ⟨?_, ?_, ?_⟩
  · intro u v b hu hv
    simp only [update_apply] at hu hv
    split at hu
    · cases hu
    · split at hv
      · cases hv
      · exact h.unique hu hv
  · intro u b hu
    simp only [update_apply] at hu ⊢
    split at hu
    · cases hu
    · next hother =>
      rw [if_neg]
      · exact h.taken hu
      · intro hb
        -- The releaser was the only holder of its access.
        exact hother (Prod.ext (h.unique (hb ▸ hu) hholds) hb)
  · intro u b hu
    have hne : u ≠ t := by
      intro hsame
      rw [hsame, ht] at hu
      cases hu
    simpa [hne] using h.owner hu

theorem Took.exclusive (h : Exclusive s) (htook : Took s e s') : Exclusive s' := by
  cases htook with
  | refused => exact h
  | entered | queued | missed | slept | gaveUp | woke | notifiedNobody | found | foundNothing =>
    exact h.move (by simp)
  | acquiredAtOnce _ hfree | acquired _ hfree => exact (h.take hfree).move (by simp)
  | acquiredRegistered _ hfree => exact (h.take hfree).move (by simp)
  | registered | unregistered => exact (h.flags s.requested _).move (by simp)
  | requested => exact (h.flags _ s.waiting).move (by simp)
  | released ht hholds => exact (h.release ht hholds).move (by simp)
  | notified => exact (h.move (by simp)).move (by simp)
  | @wokeAll _ t a ht =>
    have hwoken : Exclusive { s with place := fun u => (s.place u).notified a } := by
      refine ⟨h.unique, h.taken, ?_⟩
      intro u b hu
      refine h.owner ?_
      cases hplace : s.place u <;> grind [Place.notified]
    apply hwoken.move
    simp

/-! ## The registration -/

/-- The access a thread is registered as waiting for, which its place decides. -/
def Place.registration : Place ι κ → Option κ
  | .locking .cancellable a | .asleep .cancellable a | .unregistering a _ => some a
  | _ => none

def Registered (s : State ι κ) : Prop := ∀ t, s.waiting t = (s.place t).registration

omit [DecidableEq κ] in
theorem Registered.move (h : Registered s) (hp : p.registration = (s.place t).registration) :
    Registered (s.move t p) := by
  intro u
  rw [waiting_move, place_move]
  split
  · next hsame => rw [hsame, hp, h t]
  · exact h u

omit [DecidableEq κ] in
theorem Registered.set (h : Registered s) (t : ι) (p : Place ι κ) :
    Registered ({ s with waiting := update s.waiting t p.registration }.move t p) := by
  intro u
  by_cases hsame : u = t
  · simp [hsame]
  · simp [hsame, h u]

omit [DecidableEq ι] in
theorem Registered.notified (h : Registered s) (a : κ) :
    Registered { s with place := fun u => (s.place u).notified a } := by
  intro u
  calc s.waiting u = (s.place u).registration := h u
    _ = ((s.place u).notified a).registration := by
        cases hplace : s.place u with
        | asleep entry b => cases entry <;> grind [Place.notified, Place.registration]
        | _ => rfl

theorem Took.registered_step (h : Registered s) (htook : Took s e s') : Registered s' := by
  cases htook with
  | refused => exact h
  | entered ht | queued ht | missed ht | gaveUp ht | notifiedNobody ht | found ht
    | foundNothing ht => exact h.move (by simp [ht, Place.registration])
  | @slept _ _ entry _ ht | @woke _ _ entry _ ht =>
    cases entry <;> exact h.move (by simp [ht, Place.registration])
  | acquiredAtOnce ht | acquired ht | acquiredRegistered ht =>
    exact Registered.move (s := s.take _ _) h (by simp [ht, Place.registration])
  | @registered _ t a _ => exact h.set t (.locking .cancellable a)
  | @unregistered t _ _ _ => exact h.set t .outside
  | @released _ t a ht hholds =>
    exact Registered.move (s := { s with held := _, holds := _ }) h
      (by simp [ht, Place.registration])
  | @notified _ t u entry a ht hu =>
    refine Registered.move (h.move ?_) ?_
    · cases entry <;> simp [hu, Place.registration]
    · have hne : t ≠ u := by
        intro hsame
        rw [← hsame, ht] at hu
        cases hu
      simp [hne, ht, Place.registration]
  | requested ht =>
    exact Registered.move (s := { s with requested := _ }) h (by simp [ht, Place.registration])
  | @wokeAll _ t a ht =>
    exact (h.notified a).move (by simp [ht, Place.notified, Place.registration])

/-! ## The notifications owed -/

/-- A sleeper whose request is made is about to be woken by the cancel that
made it, and a sleeper on a free access by somebody. -/
structure Noticed (s : State ι κ) : Prop where
  owed : ∀ {t a}, s.place t = .asleep .cancellable a → s.requested t = true →
    ∃ u, s.place u = .cancelling t ∨ s.place u = .waking a
  noticed : ∀ {t a}, s.held a = false → sleepsOn s a t = true →
    ∃ u, willNotify s a u = true

omit [DecidableEq ι] in
theorem sleepsOn_iff : sleepsOn s a t = true ↔ ∃ entry, s.place t = .asleep entry a := by
  cases hplace : s.place t <;> simp [sleepsOn, hplace]

omit [DecidableEq ι] in
/-- What a thread owes depends on its place, on its own request where it waits
and on the registration it is about to read. -/
theorem willNotify_keeps (hu : willNotify s a u = true) (hplace : s'.place u = s.place u)
    (hrequest : ∀ b, s.place u = .locking .cancellable b → s'.requested u = s.requested u)
    (hwaiting : ∀ v, s.place u = .cancelling v → s'.waiting v = s.waiting v) :
    willNotify s' a u = true := by
  cases hp : s.place u with
  | locking entry b =>
    cases entry with
    | plain => simpa [willNotify, hplace, hp] using hu
    | cancellable => simpa [willNotify, hplace, hp, hrequest b hp] using hu
  | cancelling v => simpa [willNotify, hplace, hp, hwaiting v hp] using hu
  | notifying | waking => simpa [willNotify, hplace, hp] using hu
  | _ => simp [willNotify, hp] at hu

theorem willNotify_move (hne : u ≠ t) (a : κ) : willNotify (s.move t p) a u = willNotify s a u := by
  unfold willNotify
  rw [place_move, if_neg hne]; rfl

omit [DecidableEq ι] in
theorem start_noticed : Noticed (start : State ι κ) := by
  refine ⟨?_, ?_⟩ <;> simp [start, sleepsOn]

section
variable (h : Noticed s)
include h

/-- A thread that does not fall asleep moves on, and where it owed a
notification it still does. -/
theorem Noticed.move (hawake : ∀ entry a, p ≠ .asleep entry a)
    (hwaking : ∀ a, s.place t ≠ .waking a)
    (hcancelling : ∀ v a, s.place t = .cancelling v → s.place v = .asleep .cancellable a → p = .waking a)
    (hnotifies : ∀ a u, s.held a = false → sleepsOn s a u = true → willNotify s a t = true →
      willNotify (s.move t p) a t = true) :
    Noticed (s.move t p) := by
  refine ⟨?_, ?_⟩
  · intro v a hv hrequest
    rw [place_move] at hv
    split at hv
    · exact absurd hv (hawake _ _)
    · obtain ⟨u, hu⟩ := h.owed hv hrequest
      refine ⟨u, ?_⟩
      rw [place_move]
      split
      · next hsame =>
        rw [hsame] at hu
        exact .inr (hu.elim (fun hc => hcancelling v a hc hv) (fun hw => absurd hw (hwaking a)))
      · exact hu
  · intro v a hfree hv
    obtain ⟨entry, hv⟩ := sleepsOn_iff.mp hv
    rw [place_move] at hv
    split at hv
    · exact absurd hv (hawake _ _)
    · have hsleeps : sleepsOn s a v = true := sleepsOn_iff.mpr ⟨entry, hv⟩
      obtain ⟨u, hu⟩ := h.noticed hfree hsleeps
      refine ⟨u, ?_⟩
      by_cases hsame : u = t
      · rw [hsame] at hu ⊢; exact hnotifies a v hfree hsleeps hu
      · rwa [willNotify_move hsame]

theorem Noticed.take (t : ι) (a : κ) : Noticed (s.take t a) := by
  refine ⟨h.owed, ?_⟩
  intro v b hfree hv
  refine h.noticed (t := v) ?_ hv
  rw [held_take] at hfree
  split at hfree
  · cases hfree
  · exact hfree

/-- Writing the registration of a thread is harmless where no cancel that is
about to read the old one has to wake anybody through it. -/
theorem Noticed.setWaiting (waiting : Option κ)
    (hother : ∀ a u, s.waiting t = some a → s.held a = false → sleepsOn s a u = true →
      ∃ v, s.place v ≠ .cancelling t ∧ willNotify s a v = true) :
    Noticed { s with waiting := update s.waiting t waiting } := by
  refine ⟨h.owed, ?_⟩
  intro v a hfree hv
  have hnotifier : ∃ u, willNotify s a u = true ∧
      ∀ target, s.place u = .cancelling target → target ≠ t := by
    obtain ⟨u, hu⟩ := h.noticed hfree hv
    by_cases hplace : s.place u = .cancelling t
    · have hwaiting : s.waiting t = some a := by simpa [willNotify, hplace] using hu
      obtain ⟨w, hw, hnotifies⟩ := hother a v hwaiting hfree hv
      exact ⟨w, hnotifies, fun target htarget hsame => hw (hsame ▸ htarget)⟩
    · exact ⟨u, hu, fun target htarget hsame => hplace (hsame ▸ htarget)⟩
  obtain ⟨u, hu, hne⟩ := hnotifier
  refine ⟨u, willNotify_keeps hu rfl (fun _ _ => rfl) ?_⟩
  intro target hplace; exact update_of_ne (hne target hplace) _ _

theorem Noticed.sleep {entry : Entry} (ht : s.place t = .locking entry a) (hheld : s.held a = true)
    (hrequest : entry = .cancellable → s.requested t = false) :
    Noticed (s.move t (.asleep entry a)) := by
  refine ⟨?_, ?_⟩
  · intro v b hv hmade
    rw [place_move] at hv
    split at hv
    · next hsame =>
      simp only [Place.asleep.injEq] at hv
      have hnone := hrequest hv.1
      rw [requested_move, hsame, hnone] at hmade
      cases hmade
    · obtain ⟨u, hu⟩ := h.owed hv hmade
      have hne : u ≠ t := by
        intro hsame
        rw [hsame, ht] at hu; simp at hu
      exact ⟨u, by simpa [hne] using hu⟩
  · intro v b hfree hv
    have hother : a ≠ b := by
      intro hsame
      rw [held_move, ← hsame, hheld] at hfree
      cases hfree
    obtain ⟨other, hv⟩ := sleepsOn_iff.mp hv
    rw [place_move] at hv
    split at hv
    · simp only [Place.asleep.injEq] at hv; exact absurd hv.2 hother
    · obtain ⟨u, hu⟩ := h.noticed hfree (sleepsOn_iff.mpr ⟨other, hv⟩)
      have hne : u ≠ t := by
        intro hsame
        rw [hsame] at hu
        cases entry <;> simp [willNotify, ht, hother] at hu
      exact ⟨u, by rwa [willNotify_move hne]⟩

theorem Noticed.release (ht : s.place t = .outside) (holds : ι × κ → Bool) :
    Noticed ({ s with held := update s.held a false, holds := holds }.move t (.notifying a)) := by
  have hstays : ∀ {u}, u = t → s.place u = .outside := by
    intro u hsame
    rw [hsame, ht]
  refine ⟨?_, ?_⟩
  · intro v b hv hmade
    rw [place_move] at hv
    split at hv
    · cases hv
    · obtain ⟨u, hu⟩ := h.owed hv hmade
      have hne : u ≠ t := by
        intro hsame
        rw [hstays hsame] at hu; simp at hu
      exact ⟨u, by simpa [hne] using hu⟩
  · intro v b hfree hv
    by_cases hown : b = a
    · exact ⟨t, by simp [willNotify, hown]⟩
    · obtain ⟨other, hv⟩ := sleepsOn_iff.mp hv
      rw [place_move] at hv
      split at hv
      · cases hv
      · have hfree : s.held b = false := by simpa [hown] using hfree
        obtain ⟨u, hu⟩ := h.noticed hfree (sleepsOn_iff.mpr ⟨other, hv⟩)
        have hne : u ≠ t := by
          intro hsame
          rw [willNotify, hstays hsame] at hu
          cases hu
        exact ⟨u, by rw [willNotify_move hne]; exact hu⟩

/-- The request wakes its target, and takes over from a target that was to
take the access and now will give up: that one is registered. -/
theorem Noticed.request (hregistered : Registered s) (ht : s.place t = .outside) (target : ι) :
    Noticed ({ s with requested := update s.requested target true }.move t
      (.cancelling target)) := by
  refine ⟨?_, ?_⟩
  · intro v a hv hmade
    rw [place_move] at hv
    split at hv
    · cases hv
    · by_cases htarget : v = target
      · exact ⟨t, by simp [htarget]⟩
      · have hmade : s.requested v = true := by simpa [htarget] using hmade
        obtain ⟨u, hu⟩ := h.owed hv hmade
        have hne : u ≠ t := by
          intro hsame
          rw [hsame, ht] at hu; simp at hu
        exact ⟨u, by simpa [hne] using hu⟩
  · intro v a hfree hv
    obtain ⟨entry, hv⟩ := sleepsOn_iff.mp hv
    rw [place_move] at hv
    split at hv
    · cases hv
    · obtain ⟨u, hu⟩ := h.noticed hfree (sleepsOn_iff.mpr ⟨entry, hv⟩)
      have hne : u ≠ t := by
        intro hsame
        rw [hsame, willNotify, ht] at hu
        cases hu
      by_cases hgives : u = target ∧ s.place u = .locking .cancellable a
      · refine ⟨t, ?_⟩
        have hwaiting : s.waiting target = some a := by
          rw [← hgives.1, hregistered u, hgives.2]; rfl
        simp [willNotify, hwaiting]
      · refine ⟨u, ?_⟩
        rw [willNotify_move hne]
        refine willNotify_keeps hu rfl ?_ (fun _ _ => rfl)
        intro b hplace
        have hb : b = a ∧ s.requested u = false := by simpa [willNotify, hplace] using hu
        have htarget : u ≠ target := fun hsame => hgives ⟨hsame, by rw [hplace, hb.1]⟩
        exact update_of_ne htarget _ _

/-- The thread picked takes the access or, where it is to give up, was owed a
wake by the cancel that made it so, which wakes the others too. -/
theorem Noticed.notify (hregistered : Registered s) {entry : Entry} (ht : s.place t = .notifying a)
    (hu : s.place u = .asleep entry a) :
    Noticed ((s.move u (.locking entry a)).move t .outside) := by
  have hne : u ≠ t := by
    intro hsame
    rw [hsame, ht] at hu
    cases hu
  refine ⟨?_, ?_⟩
  · intro v b hv hmade
    have hplace : s.place v = .asleep .cancellable b := by
      simp only [place_move] at hv
      split at hv
      · cases hv
      · split at hv
        · cases hv
        · exact hv
    obtain ⟨w, hw⟩ := h.owed hplace hmade
    have hwt : w ≠ t := by
      intro hsame
      rw [hsame, ht] at hw; simp at hw
    have hwu : w ≠ u := by
      intro hsame
      rw [hsame, hu] at hw; simp at hw
    exact ⟨w, by simpa [hwt, hwu] using hw⟩
  · intro v b hfree hv
    have hsleeps : sleepsOn s b v = true := by
      obtain ⟨other, hv⟩ := sleepsOn_iff.mp hv
      simp only [place_move] at hv
      split at hv
      · cases hv
      · split at hv
        · cases hv
        · exact sleepsOn_iff.mpr ⟨other, hv⟩
    by_cases hgives : b = a ∧ entry = .cancellable ∧ s.requested u = true
    · obtain ⟨hb, hentry, hmade⟩ := hgives
      rw [hentry] at hu
      obtain ⟨w, hw⟩ := h.owed hu hmade
      have hwt : w ≠ t := by
        intro hsame
        rw [hsame, ht] at hw; simp at hw
      have hwu : w ≠ u := by
        intro hsame
        rw [hsame, hu] at hw; simp at hw
      refine ⟨w, ?_⟩
      rw [willNotify_move hwt, willNotify_move hwu]
      cases hw with
      | inl hw =>
        have hwaiting : s.waiting u = some a := by
          rw [hregistered u, hu]; rfl
        simp [willNotify, hw, hwaiting, hb]
      | inr hw => simp [willNotify, hw, hb]
    · by_cases hb : b = a
      · refine ⟨u, ?_⟩
        rw [willNotify_move hne]
        cases entry with
        | plain => simp [willNotify, hb]
        | cancellable =>
          have hunmade : s.requested u = false := by simpa [hb] using hgives
          simp [willNotify, hb, hunmade]
      · obtain ⟨w, hw⟩ := h.noticed hfree hsleeps
        have hwt : w ≠ t := by
          intro hsame
          rw [hsame] at hw; simp [willNotify, ht, Ne.symm hb] at hw
        have hwu : w ≠ u := by
          intro hsame
          rw [hsame] at hw; simp [willNotify, hu] at hw
        exact ⟨w, by rwa [willNotify_move hwt, willNotify_move hwu]⟩

/-- After `notify_all` nobody sleeps on the access. -/
theorem Noticed.notifyAll (ht : s.place t = .waking a) :
    Noticed ({ s with place := fun u => (s.place u).notified a }.move t .outside) := by
  have hasleep : ∀ {v entry b}, (s.place v).notified a = .asleep entry b →
      s.place v = .asleep entry b ∧ b ≠ a := by
    intro v entry b hv
    cases hplace : s.place v <;> grind [Place.notified]
  refine ⟨?_, ?_⟩
  · intro v b hv hmade
    rw [place_move] at hv
    split at hv
    · cases hv
    · obtain ⟨hplace, hb⟩ := hasleep hv
      obtain ⟨u, hu⟩ := h.owed hplace hmade
      have hne : u ≠ t := by
        intro hsame
        rw [hsame, ht] at hu; simp [Ne.symm hb] at hu
      refine ⟨u, ?_⟩
      rw [place_move, if_neg hne]
      cases hu with
      | inl hu => exact .inl (by simp [hu, Place.notified])
      | inr hu => exact .inr (by simp [hu, Place.notified])
  · intro v b hfree hv
    obtain ⟨entry, hv⟩ := sleepsOn_iff.mp hv
    rw [place_move] at hv
    split at hv
    · cases hv
    · obtain ⟨hplace, hb⟩ := hasleep hv
      obtain ⟨u, hu⟩ := h.noticed hfree (sleepsOn_iff.mpr ⟨entry, hplace⟩)
      have hne : u ≠ t := by
        intro hsame
        rw [hsame] at hu; simp [willNotify, ht, Ne.symm hb] at hu
      refine ⟨u, ?_⟩
      rw [willNotify_move hne]
      refine willNotify_keeps hu ?_ (fun _ _ => rfl) (fun _ _ => rfl)
      cases hplace : s.place u with
      | asleep => simp [willNotify, hplace] at hu
      | _ => simp [hplace, Place.notified]

end

theorem Took.noticed (hexclusive : Exclusive s) (hregistered : Registered s) (h : Noticed s)
    (hunregister : ∀ t a, e = .unregister t → s.place t = .unregistering a false →
      s.held a = true ∨ (∀ u, sleepsOn s a u = false) ∨ (∀ u, s.place u ≠ .cancelling t) ∨
        ∃ u, s.place u ≠ .cancelling t ∧ willNotify s a u = true)
    (htook : Took s e s') : Noticed s' := by
  cases htook with
  | refused => exact h
  | entered ht | queued ht | missed ht | woke ht =>
    apply h.move <;> simp [ht, willNotify]
  | gaveUp ht hrequest => apply h.move <;> simp [ht, willNotify, hrequest]
  | @acquiredAtOnce _ t _ a ht _ =>
    apply (h.take t a).move <;> simp [ht, willNotify]
  | @acquired _ t a ht _ =>
    apply (h.take t a).move
    · simp
    · simp [ht]
    · simp [ht]
    · -- Only sleepers on the access taken were to be notified.
      intro b u hfree _ hnotifies
      have hb : a = b := by simpa [willNotify, ht] using hnotifies
      simp [hb] at hfree
  | @acquiredRegistered _ t a ht _ =>
    apply (h.take t a).move
    · simp
    · simp [ht]
    · simp [ht]
    · intro b u hfree _ hnotifies
      have hb : a = b := by
        have := hnotifies
        simp only [willNotify, place_take, ht, Bool.and_eq_true, decide_eq_true_eq] at this
        exact this.1
      simp [hb] at hfree
  | @registered _ t a ht =>
    have hnone : s.waiting t = none := by
      rw [hregistered t, ht]; rfl
    apply (h.setWaiting (t := t) (some a) (by simp [hnone])).move <;> simp [ht, willNotify]
  | slept ht hheld hrequest => exact h.sleep ht hheld hrequest
  | @unregistered t a acquired ht =>
    have hother : ∀ b u, s.waiting t = some b → s.held b = false → sleepsOn s b u = true →
        ∃ v, s.place v ≠ .cancelling t ∧ willNotify s b v = true := by
      intro b u hwaiting hfree hsleeps
      have hb : a = b := by
        rw [hregistered t, ht] at hwaiting; exact Option.some.inj hwaiting
      rw [← hb] at hfree hsleeps ⊢
      cases acquired with
      | true =>
        -- The waiter that got the access still holds it.
        have hheld := hexclusive.taken (hexclusive.owner ht)
        rw [hheld] at hfree
        cases hfree
      | false =>
        obtain hheld | hnobody | hread | hother := hunregister t a rfl ht
        · rw [hheld] at hfree
          cases hfree
        · rw [hnobody u] at hsleeps
          cases hsleeps
        · obtain ⟨v, hv⟩ := h.noticed hfree hsleeps
          exact ⟨v, hread v, hv⟩
        · exact hother
    apply (h.setWaiting none hother).move <;> simp [ht, willNotify]
  | released ht => exact h.release ht _
  | @notifiedNobody _ t a ht hnone =>
    apply h.move
    · simp
    · simp [ht]
    · simp [ht]
    · intro b u _ hsleeps hnotifies
      have hb : a = b := by simpa [willNotify, ht] using hnotifies
      rw [← hb, hnone u] at hsleeps
      cases hsleeps
  | notified ht hu => exact h.notify hregistered ht hu
  | @requested _ t target ht => exact h.request hregistered ht target
  | @found _ t target a ht hwaiting =>
    apply h.move
    · simp
    · simp [ht]
    · intro v b hv hasleep
      have hv : target = v := by simpa [ht] using hv
      rw [hv, hregistered v, hasleep] at hwaiting
      exact congrArg _ (Option.some.inj hwaiting).symm
    · intro b u _ _ hnotifies
      have hb : a = b := by simpa [willNotify, ht, hwaiting] using hnotifies
      simp [willNotify, hb]
  | @foundNothing _ t target ht hwaiting =>
    apply h.move
    · simp
    · simp [ht]
    · intro v b hv hasleep
      have hv : target = v := by simpa [ht] using hv
      rw [hv, hregistered v, hasleep] at hwaiting
      cases hwaiting
    · intro b u _ _ hnotifies; simp [willNotify, ht, hwaiting] at hnotifies
  | wokeAll ht => exact h.notifyAll ht

end

/-! ## Whole runs -/

/-- What every step of a run that hands on keeps. -/
structure Settled (s : State ι κ) : Prop where
  exclusive : Exclusive s
  registered : Registered s
  noticed : Noticed s

theorem settled_of_reaches (h : Reaches step handsOn start s) : Settled s := by
  apply h.invariant Settled
  · exact ⟨start_exclusive, fun _ => rfl, start_noticed⟩
  · intro s s' e hs hhands hstep
    have htook := step_took hstep
    refine ⟨htook.exclusive hs.exclusive, htook.registered_step hs.registered,
      htook.noticed hs.exclusive hs.registered hs.noticed ?_⟩
    intro t a he ht
    rw [he] at hhands
    simpa [handsOn, ht, or_assoc] using hhands

/-- No wake-up is lost in a run in which every waiter that gives up stays
registered until the cancel that stopped it has read the registration. -/
theorem noLostWakeUp_of_handsOn {s : State ι κ} (h : Reaches step handsOn start s) :
    NoLostWakeUp s := by
  have hs := settled_of_reaches h
  intro access
  refine ⟨?_, ?_⟩
  · intro t u ht hu; exact hs.exclusive.unique ht hu
  · intro hfree t ht; exact hs.noticed.noticed hfree ht

/-- The condition is exact: a step that does not meet it leaves a thread asleep
on a free access, and nobody to notify one. -/
theorem lost_of_not_handsOn {s' : State ι κ} {e : Event ι κ} (hstep : step s e = some s')
    (hhands : handsOn s e = false) : ∃ access thread, s'.held access = false ∧
      sleepsOn s' access thread = true ∧ ∀ u, willNotify s' access u = false := by
  cases e with
  | unregister t =>
    cases hplace : s.place t with
    | unregistering a acquired =>
      cases acquired with
      | true => simp [handsOn, hplace] at hhands
      | false =>
        simp only [handsOn, hplace, Bool.or_eq_false_iff, decide_eq_false_iff_not] at hhands
        obtain ⟨⟨⟨hfree, hsleeps⟩, -⟩, hnobody⟩ := hhands
        simp only [not_forall, Bool.not_eq_false] at hsleeps
        obtain ⟨v, hv⟩ := hsleeps
        simp only [step, unregister, hplace, Option.some.injEq] at hstep
        subst hstep
        have hne : v ≠ t := by
          intro hsame
          rw [hsame, sleepsOn, hplace] at hv
          cases hv
        refine ⟨a, v, hfree, by simpa [sleepsOn, hne] using hv, ?_⟩
        intro u
        rw [← Bool.not_eq_true]
        intro hu
        have hut : u ≠ t := by
          intro hsame; simp [hsame, willNotify] at hu
        rw [willNotify_move hut] at hu
        -- The registration is cleared, so it is none of the cancels of `t`.
        have hother : s.place u ≠ .cancelling t := by
          intro hcancelling; simp [willNotify, hcancelling] at hu
        refine hnobody ⟨u, hother, willNotify_keeps hu rfl (fun _ _ => rfl) ?_⟩
        intro target htarget
        have hne : target ≠ t := fun hsame => hother (hsame ▸ htarget)
        exact (update_of_ne hne _ _).symm
    | _ => simp [handsOn, hplace] at hhands
  | _ => simp [handsOn] at hhands

/-- The cancelled waiter is woken by its cancel, and hands the notification of
the release on. -/
def handedOn : List (Event (Fin 4) (Fin 1)) :=
  [.acquire 0 0, .tryAcquire 0 false,
   .acquireCancellable 1 0, .tryAcquire 1 false, .register 1, .lockedSection 1,
   .acquire 2 0, .tryAcquire 2 false, .lockedSection 2,
   .cancel 3 1, .release 0 0, .notifyOne 0 (some 1), .lockedSection 1,
   .readWaiting 3]

theorem noLostWakeUp_of_handsOn_handedOn :
    ∃ s : State (Fin 4) (Fin 1), Reaches step handsOn start s ∧
      (s.held 0 = false ∧ sleepsOn s 0 2 = true) ∧ NoLostWakeUp s := by
  have hrun : (run step handsOn (start : State (Fin 4) (Fin 1)) handedOn).map
      (fun s => !s.held 0 && sleepsOn s 0 2) = some true := by decide
  obtain ⟨s, hs, hlast⟩ := reaches_with _ hrun
  exact ⟨s, hs, by simpa using hlast, noLostWakeUp_of_handsOn hs⟩

/-- The same threads, with the cancel reading the registration too late. -/
def overtaken : List (Event (Fin 4) (Fin 1)) :=
  handedOn.dropLast ++ [.unregister 1, .readWaiting 3]

/-- The waiter that gives up clears its registration while its cancel has yet to read it. -/
theorem lost_of_not_handsOn_overtaken : ∃ s s' : State (Fin 4) (Fin 1),
    step s (.unregister 1) = some s' ∧ handsOn s (.unregister 1) = false ∧
      ∃ access thread, s'.held access = false ∧ sleepsOn s' access thread = true ∧
        ∀ u, willNotify s' access u = false := by
  have hrun : (run step always (start : State (Fin 4) (Fin 1)) handedOn.dropLast).map
      (fun s => (step s (.unregister 1)).isSome && !handsOn s (.unregister 1)) = some true := by
    decide
  obtain ⟨s, -, hlast⟩ := reaches_with _ hrun
  rw [Bool.and_eq_true, Bool.not_eq_true', Option.isSome_iff_exists] at hlast
  obtain ⟨⟨s', hstep⟩, hhands⟩ := hlast
  exact ⟨s, s', hstep, hhands, lost_of_not_handsOn hstep hhands⟩

/-- The release woke the waiter that gives up, the cancel of it finds no
registration, and the other waiter sleeps on: the access is free and every
other thread is out of all calls. -/
theorem lost_wakeUp : ∃ s : State (Fin 4) (Fin 1), Reaches step always start s ∧
      (s.held 0 = false ∧ sleepsOn s 0 2 = true ∧ ∀ u, u ≠ 2 → s.place u = .outside) ∧
      ¬NoLostWakeUp s := by
  have hrun : (run step always (start : State (Fin 4) (Fin 1)) overtaken).map
      (fun s => decide ((s.held 0 = false ∧ sleepsOn s 0 2 = true ∧
        ∀ u, u ≠ 2 → s.place u = .outside) ∧ ¬NoLostWakeUp s)) = some true := by decide
  obtain ⟨s, hs, hlast⟩ := reaches_with _ hrun
  exact ⟨s, hs, of_decide_eq_true hlast⟩

end Loom.Runtime.SharedAccess

import Loom.Library.Runs
import Mathlib.Data.List.AList
import Mathlib.Logic.Function.Basic

/-
  The rendezvous of the shared heap: a moving collection starts once every
  participant is parked, and nobody runs again before it ends.

  Every section that holds the control mutex is one step. A wait on the
  condition variable changes nothing, so a thread that waits is one whose step
  is not enabled yet. The collection itself is split into `trace` and `finish`,
  as if other sections could run in between: what is proved rests on the
  request flag, not on the mutex the source also keeps.

  Correspondence (Rust ↔ Lean), where names differ:
    `Control::{next, participants}`, `SharedHeap::requested` ↔ the fields of `State`
    `Participant::{id, state}` ↔ `Phase`
    `ROOTS`, `Participant::entry_roots` ↔ `roots`, `entryRoots`
    `SharedHeap::attach`, `Participant::drop` ↔ `attach`, `detach`
    `collect` ↔ `collect`, `trace`, `finish`
  `loom_rt_shared_checkpoint` and `park_native` are a `park` followed by a
  `resume`: what decides whether to park does not matter here. `fatal` ends the
  process, so a step that reaches it is not enabled.
-/

namespace Loom.Runtime.SharedHeap

open Runs Function Option AList

inductive Phase where
  | detached
  | running (id : Nat)
  | parked (id : Nat)
  /-- Collecting: the request is made, and somebody may still be running. -/
  | waiting (id : Nat)
  /-- Collecting: the collection runs on the root chains in `heads`. -/
  | tracing (id : Nat) (heads : List Nat)
  deriving DecidableEq

structure State (ι : Type*) where
  requested : Bool
  next : Nat
  /-- `none` while running, otherwise the published head of the root chain. -/
  participants : AList (fun _ : Nat => Option Nat)
  phase : ι → Phase
  roots : ι → Nat
  entryRoots : ι → Nat

inductive Event (ι : Type*) where
  | attach (thread : ι)
  | detach (thread : ι)
  | root (thread : ι) (head : Nat)
  | park (thread : ι)
  | resume (thread : ι)
  | collect (thread : ι)
  | trace (thread : ι)
  | finish (thread : ι)
  | publish (thread : ι)
  deriving DecidableEq

variable {ι : Type*} [DecidableEq ι]

/-- Nobody attached, from any root chains. -/
def start (roots : ι → Nat) : State ι where
  requested := false
  next := 0
  participants := ∅
  phase _ := .detached
  roots := roots
  entryRoots := roots

def State.move (s : State ι) (thread : ι) (phase : Phase) : State ι :=
  { s with phase := update s.phase thread phase }

/-- `participants.get_mut(&id).unwrap()`, assigned. -/
def State.assign (s : State ι) (id : Nat) (head : Option Nat) : Option (State ι) :=
  if id ∈ s.participants then some { s with participants := s.participants.insert id head }
  else none

/-- `next.checked_add(1)`, fatal on overflow. -/
def State.identity (s : State ι) : Option (State ι) :=
  if s.next + 1 < 2 ^ 64 then some { s with next := s.next + 1 } else none

def attach (s : State ι) (thread : ι) : Option (State ι) :=
  if s.phase thread = .detached ∧ s.requested = false then
    match s.identity with
    | none => none
    | some numbered =>
      some ({ numbered with
        participants := s.participants.insert s.next none
        entryRoots := update s.entryRoots thread (s.roots thread) }.move thread (.running s.next))
  else none

/-- An exit with roots left over is fatal. -/
def detach (s : State ι) (thread : ι) : Option (State ι) :=
  match s.phase thread with
  | .running id =>
    if s.roots thread = s.entryRoots thread then
      some ({ s with participants := s.participants.erase id }.move thread .detached)
    else none
  | _ => none

/-- A running thread pushes or pops a root frame. Native code that runs while
its thread is parked must not touch the root chain. -/
def root (s : State ι) (thread : ι) (head : Nat) : Option (State ι) :=
  match s.phase thread with
  | .running _ => some { s with roots := update s.roots thread head }
  | _ => none

def park (s : State ι) (thread : ι) : Option (State ι) :=
  match s.phase thread with
  | .running id =>
    (s.assign id (some (s.roots thread))).map (fun parked => parked.move thread (.parked id))
  | _ => none

def resume (s : State ι) (thread : ι) : Option (State ι) :=
  match s.phase thread with
  | .parked id =>
    if s.requested then none
    else (s.assign id none).map (fun resumed => resumed.move thread (.running id))
  | _ => none

/-- The first section of `collect`: park, and either leave the collection to
the one already requested or request it. -/
def collect (s : State ι) (thread : ι) : Option (State ι) :=
  match s.phase thread with
  | .running id =>
    match s.assign id (some (s.roots thread)) with
    | none => none
    | some parked =>
      if s.requested then some (parked.move thread (.parked id))
      else some ({ parked with requested := true }.move thread (.waiting id))
  | _ => none

/-- The end of the wait: nobody is running, and the heads are collected. -/
def trace (s : State ι) (thread : ι) : Option (State ι) :=
  match s.phase thread with
  | .waiting id =>
    if s.participants.entries.any (fun entry => entry.2.isNone) then none
    else some (s.move thread (.tracing id (s.participants.entries.filterMap (fun entry => entry.2))))
  | _ => none

def finish (s : State ι) (thread : ι) : Option (State ι) :=
  match s.phase thread with
  | .tracing id _ =>
    ({ s with requested := false }.assign id none).map
      (fun (finished : State ι) => finished.move thread (.running id))
  | _ => none

/-- A slot for queued work takes its identity from the same counter. -/
def publish (s : State ι) (thread : ι) : Option (State ι) :=
  match s.phase thread with
  | .running _ => s.identity
  | _ => none

def step (s : State ι) : Event ι → Option (State ι)
  | .attach thread => attach s thread
  | .detach thread => detach s thread
  | .root thread head => root s thread head
  | .park thread => park s thread
  | .resume thread => resume s thread
  | .collect thread => collect s thread
  | .trace thread => trace s thread
  | .finish thread => finish s thread
  | .publish thread => publish s thread

/-- The identity a thread is registered under. -/
def Phase.id? : Phase → Option Nat
  | .detached => none
  | .running id | .parked id | .waiting id | .tracing id _ => some id

def Phase.collects : Phase → Bool
  | .waiting _ | .tracing _ _ => true
  | _ => false

def Phase.runs : Phase → Bool
  | .running _ => true
  | _ => false

/-! ## What a step does -/

@[simp] theorem phase_move (s : State ι) (t u : ι) (p : Phase) :
    (s.move t p).phase u = if u = t then p else s.phase u := by
  simp [State.move, update_apply]

@[simp] theorem participants_move (s : State ι) (t : ι) (p : Phase) :
    (s.move t p).participants = s.participants := rfl

@[simp] theorem requested_move (s : State ι) (t : ι) (p : Phase) :
    (s.move t p).requested = s.requested := rfl

@[simp] theorem next_move (s : State ι) (t : ι) (p : Phase) :
    (s.move t p).next = s.next := rfl

@[simp] theorem roots_move (s : State ι) (t : ι) (p : Phase) :
    (s.move t p).roots = s.roots := rfl

/-- Every way a step changes the state, with what it checks first. -/
inductive Took (s : State ι) : Event ι → State ι → Prop where
  | attached {t entryRoots} (ht : s.phase t = .detached) (hrequest : s.requested = false) :
      Took s (.attach t) ({ s with next := s.next + 1
                                   participants := s.participants.insert s.next none
                                   entryRoots := entryRoots }.move t (.running s.next))
  | detached {t id} (ht : s.phase t = .running id) :
      Took s (.detach t) ({ s with participants := s.participants.erase id }.move t .detached)
  | rooted {t id head} (ht : s.phase t = .running id) :
      Took s (.root t head) { s with roots := update s.roots t head }
  | parked {e t id} (ht : s.phase t = .running id) (he : e = .park t ∨ e = .collect t) :
      Took s e ({ s with participants := s.participants.insert id (some (s.roots t)) }.move t
        (.parked id))
  | resumed {t id} (ht : s.phase t = .parked id) (hrequest : s.requested = false) :
      Took s (.resume t) ({ s with participants := s.participants.insert id none }.move t
        (.running id))
  | requested {t id} (ht : s.phase t = .running id) (hrequest : s.requested = false) :
      Took s (.collect t) ({ s with participants := s.participants.insert id (some (s.roots t))
                                    requested := true }.move t (.waiting id))
  | traced {t id} (ht : s.phase t = .waiting id)
      (hstopped : ∀ entry ∈ s.participants.entries, entry.2 ≠ none) :
      Took s (.trace t) (s.move t (.tracing id
        (s.participants.entries.filterMap (fun entry => entry.2))))
  | finished {t id heads} (ht : s.phase t = .tracing id heads) :
      Took s (.finish t) ({ s with participants := s.participants.insert id none
                                   requested := false }.move t (.running id))
  | published {t} : Took s (.publish t) { s with next := s.next + 1 }

theorem step_took {s s' : State ι} {e : Event ι} (hstep : step s e = some s') : Took s e s' := by
  cases e with
  | attach => grind [step, attach, State.identity, Took]
  | detach => grind [step, detach, Took]
  | root => grind [step, root, Took]
  | park => grind [step, park, State.assign, Took]
  | resume => grind [step, resume, State.assign, Took]
  | collect => grind [step, collect, State.assign, Took]
  | trace t =>
    simp only [step, trace] at hstep
    split at hstep
    · next id ht =>
      split at hstep
      · cases hstep
      · next hnone =>
        cases hstep
        refine .traced ht ?_
        intro entry hentry hrunning
        apply hnone
        rw [List.any_eq_true]; exact ⟨entry, hentry, by rw [hrunning]; rfl⟩
    · cases hstep
  | finish => grind [step, finish, State.assign, Took]
  | publish => grind [step, publish, State.identity, Took]

section
variable {s s' : State ι} {e : Event ι}

/-! ## The control record -/

/-- What the record holds for a registered thread. -/
def published (s : State ι) (t : ι) : Option Nat :=
  if (s.phase t).runs then none else some (s.roots t)

/-- The record lists the registered threads, under identities of their own,
with what each has published. -/
structure Listed (s : State ι) : Prop where
  registered : ∀ {t id}, (s.phase t).id? = some id →
    s.participants.lookup id = some (published s t)
  owned : ∀ {id head}, s.participants.lookup id = some head → ∃ t, (s.phase t).id? = some id
  distinct : ∀ {t u id}, (s.phase t).id? = some id → (s.phase u).id? = some id → t = u
  fresh : ∀ {id head}, s.participants.lookup id = some head → id < s.next

omit [DecidableEq ι] in
theorem start_listed (roots : ι → Nat) : Listed (start roots) := by
  refine ⟨?_, ?_, ?_, ?_⟩ <;> simp [start, Phase.id?]

variable {id : Nat} {t : ι} {p : Phase} {heads : List Nat} {u : ι}

omit [DecidableEq ι] in
theorem Listed.mem (h : Listed s) (ht : (s.phase t).id? = some id) : id ∈ s.participants := by
  rw [← lookup_isSome, h.registered ht]; rfl

omit [DecidableEq ι] in
theorem Listed.flag (h : Listed s) (requested : Bool) :
    Listed { s with requested := requested } :=
  ⟨h.registered, h.owned, h.distinct, h.fresh⟩

/-- A thread that stays registered changes its phase and its own entry. -/
theorem Listed.publish (h : Listed s) (ht : (s.phase t).id? = some id) (hp : p.id? = some id)
    {head : Option Nat} (hhead : head = if p.runs then none else some (s.roots t)) :
    Listed ({ s with participants := s.participants.insert id head }.move t p) := by
  have hsame : ∀ u, (if u = t then p else s.phase u).id? = (s.phase u).id? := by
    intro u
    split
    · next hu => rw [hu, hp, ht]
    · rfl
  refine ⟨?_, ?_, ?_, ?_⟩
  · intro u other hu
    rw [phase_move, hsame] at hu
    by_cases hown : u = t
    · rw [hown, ht] at hu
      rw [← some.inj hu, participants_move]
      simp [published, hown, hhead]
    · have hother : other ≠ id := fun hid => hown (h.distinct hu (hid ▸ ht))
      rw [participants_move, lookup_insert_ne hother, h.registered hu]
      simp [published, hown]
  · intro other found hfound
    simp only [phase_move, hsame]
    by_cases hother : other = id
    · exact ⟨t, hother ▸ ht⟩
    · rw [participants_move, lookup_insert_ne hother] at hfound
      exact h.owned hfound
  · intro u v other hu hv
    rw [phase_move, hsame] at hu hv; exact h.distinct hu hv
  · intro other found hfound
    by_cases hother : other = id
    · rw [hother]; exact h.fresh (h.registered ht)
    · rw [participants_move, lookup_insert_ne hother] at hfound
      exact h.fresh hfound

theorem Listed.attach (h : Listed s) (ht : s.phase t = .detached) (entryRoots : ι → Nat) :
    Listed ({ s with next := s.next + 1
                     participants := s.participants.insert s.next none
                     entryRoots := entryRoots }.move t (.running s.next)) := by
  have hnew : ∀ {u : ι}, (s.phase u).id? ≠ some s.next := by
    intro u hu; exact absurd (h.fresh (h.registered hu)) (Nat.lt_irrefl _)
  have hstays : ∀ {u : ι} {id : Nat}, (s.phase u).id? = some id → u ≠ t := by
    intro u id hu hsame
    rw [hsame, ht] at hu
    cases hu
  refine ⟨?_, ?_, ?_, ?_⟩
  · intro u other hu
    rw [phase_move] at hu
    split at hu
    · next hown =>
      rw [← some.inj hu, participants_move]
      simp [published, hown, Phase.runs]
    · next hown =>
      have hother : other ≠ s.next := fun hid => hnew (hid ▸ hu)
      rw [participants_move, lookup_insert_ne hother, h.registered hu]
      simp [published, hown]
  · intro other found hfound
    by_cases hother : other = s.next
    · exact ⟨t, by simp [hother, Phase.id?]⟩
    · rw [participants_move, lookup_insert_ne hother] at hfound
      obtain ⟨u, hu⟩ := h.owned hfound
      exact ⟨u, by simpa [hstays hu] using hu⟩
  · intro u v other hu hv
    rw [phase_move] at hu hv
    by_cases hown : u = t <;> by_cases hother : v = t
    · exact hown.trans hother.symm
    · rw [if_pos hown] at hu
      rw [if_neg hother, ← some.inj hu] at hv; exact absurd hv hnew
    · rw [if_pos hother] at hv
      rw [if_neg hown, ← some.inj hv] at hu; exact absurd hu hnew
    · rw [if_neg hown] at hu
      rw [if_neg hother] at hv; exact h.distinct hu hv
  · intro other found hfound
    by_cases hother : other = s.next
    · rw [hother]; exact Nat.lt_succ_self _
    · rw [participants_move, lookup_insert_ne hother] at hfound
      exact Nat.lt_succ_of_lt (h.fresh hfound)

theorem Listed.detach (h : Listed s) (ht : s.phase t = .running id) :
    Listed ({ s with participants := s.participants.erase id }.move t .detached) := by
  have hid : (s.phase t).id? = some id := by rw [ht, Phase.id?]
  refine ⟨?_, ?_, ?_, ?_⟩
  · intro u other hu
    rw [phase_move] at hu
    split at hu
    · cases hu
    · next hown =>
      have hother : other ≠ id := fun heq => hown (h.distinct hu (heq ▸ hid))
      rw [participants_move, lookup_erase_ne hother, h.registered hu]
      simp [published, hown]
  · intro other found hfound
    have hother : other ≠ id := by
      intro heq
      rw [participants_move, heq, lookup_erase] at hfound
      cases hfound
    rw [participants_move, lookup_erase_ne hother] at hfound
    obtain ⟨u, hu⟩ := h.owned hfound
    have hown : u ≠ t := by
      intro hsame
      rw [hsame, hid] at hu; exact hother (some.inj hu).symm
    exact ⟨u, by simpa [hown] using hu⟩
  · intro u v other hu hv
    rw [phase_move] at hu hv
    split at hu
    · cases hu
    · split at hv
      · cases hv
      · exact h.distinct hu hv
  · intro other found hfound
    have hother : other ≠ id := by
      intro heq
      rw [participants_move, heq, lookup_erase] at hfound
      cases hfound
    rw [participants_move, lookup_erase_ne hother] at hfound
    exact h.fresh hfound

/-- A running thread has nothing published, so its roots may change. -/
theorem Listed.root (h : Listed s) (ht : s.phase t = .running id) (head : Nat) :
    Listed { s with roots := update s.roots t head } := by
  refine ⟨?_, h.owned, h.distinct, h.fresh⟩
  intro u other hu
  have hsame : published { s with roots := update s.roots t head } u = published s u := by
    by_cases hown : u = t
    · simp [published, hown, ht, Phase.runs]
    · simp [published, hown]
  rw [hsame]; exact h.registered hu

theorem Listed.move (h : Listed s) (hid : p.id? = (s.phase t).id?)
    (hruns : p.runs = (s.phase t).runs) : Listed (s.move t p) := by
  have hsame : ∀ u, ((s.move t p).phase u).id? = (s.phase u).id? ∧
      published (s.move t p) u = published s u := by
    intro u
    by_cases hown : u = t
    · simp [published, hown, hid, hruns]
    · simp [published, hown]
  refine ⟨?_, ?_, ?_, h.fresh⟩
  · intro u other hu
    rw [(hsame u).1] at hu
    rw [(hsame u).2]; exact h.registered hu
  · intro other found hfound
    simp only [hsame]; exact h.owned hfound
  · intro u v other hu hv
    rw [(hsame _).1] at hu hv; exact h.distinct hu hv

theorem Took.listed (h : Listed s) (htook : Took s e s') : Listed s' := by
  cases htook with
  | attached ht => exact h.attach ht _
  | detached ht => exact h.detach ht
  | rooted ht => exact h.root ht _
  | parked ht | resumed ht => exact h.publish (by rw [ht, Phase.id?]) rfl rfl
  | requested ht => exact (h.flag true).publish (by simp [ht, Phase.id?]) rfl rfl
  | traced ht => exact h.move (by rw [ht]; rfl) (by rw [ht]; rfl)
  | finished ht => exact (h.flag false).publish (by simp [ht, Phase.id?]) rfl rfl
  | published => exact ⟨h.registered, h.owned, h.distinct, fun hfound =>
      Nat.lt_succ_of_lt (h.fresh hfound)⟩

/-! ## The collection -/

/-- A collector has the request for its own, and one that traces has been
handed every root chain there is. -/
structure Collecting (s : State ι) : Prop where
  claimed : ∀ {t}, (s.phase t).collects = true → s.requested = true
  single : ∀ {t u}, (s.phase t).collects = true → (s.phase u).collects = true → t = u
  handed : ∀ {t id heads other head}, s.phase t = .tracing id heads →
    s.participants.lookup other = some head → ∃ found ∈ heads, head = some found

omit [DecidableEq ι] in
theorem start_collecting (roots : ι → Nat) : Collecting (start roots) := by
  refine ⟨?_, ?_, ?_⟩ <;> simp [start, Phase.collects]

omit [DecidableEq ι] in
/-- While a collection runs nobody does. -/
theorem Collecting.stopped (hlisted : Listed s) (h : Collecting s) {other : Nat}
    (ht : s.phase t = .tracing id heads) : s.phase u ≠ .running other := by
  intro hu
  have hid : (s.phase u).id? = some other := by rw [hu, Phase.id?]
  have hfound := hlisted.registered hid
  obtain ⟨found, -, hhead⟩ := h.handed ht hfound
  simp [published, hu, Phase.runs] at hhead

omit [DecidableEq ι] in
theorem Collecting.alone (h : Collecting s) (ht : (s.phase t).collects = true) (hne : u ≠ t) :
    (s.phase u).collects = false := by
  cases hu : (s.phase u).collects with
  | false => rfl
  | true => exact absurd (h.single hu ht) hne

omit [DecidableEq ι] in
theorem Collecting.idle (h : Collecting s) (hrequest : s.requested = false) (u : ι) :
    (s.phase u).collects = false := by
  cases hu : (s.phase u).collects with
  | false => rfl
  | true =>
    rw [h.claimed hu] at hrequest
    cases hrequest

theorem Collecting.request (h : Collecting s) (hrequest : s.requested = false)
    (participants : AList (fun _ : Nat => Option Nat)) :
    Collecting ({ s with participants := participants, requested := true }.move t
      (.waiting id)) := by
  have hown : ∀ {u}, (if u = t then Phase.waiting id else s.phase u).collects = true → u = t := by
    intro u hu
    split at hu
    · assumption
    · rw [h.idle hrequest u] at hu
      cases hu
  refine ⟨fun _ => rfl, ?_, ?_⟩
  · intro u v hu hv
    rw [phase_move] at hu hv; exact (hown hu).trans (hown hv).symm
  · intro u other heads key head hu
    rw [phase_move] at hu
    have husame := hown (u := u) (by rw [hu]; rfl)
    rw [if_pos husame] at hu
    cases hu

/-- The wait is over: every entry holds a root chain, and all are handed on. -/
theorem Collecting.trace (h : Collecting s) (ht : s.phase t = .waiting id)
    (hstopped : ∀ entry ∈ s.participants.entries, entry.2 ≠ none) :
    Collecting (s.move t (.tracing id
      (s.participants.entries.filterMap (fun entry => entry.2)))) := by
  have hcollects : (s.phase t).collects = true := by rw [ht, Phase.collects]
  have hsame : ∀ u, ((s.move t (.tracing id
      (s.participants.entries.filterMap (fun entry => entry.2)))).phase u).collects =
      (s.phase u).collects := by
    intro u
    rw [phase_move]
    split
    · next hown => rw [hown, hcollects, Phase.collects]
    · rfl
  refine ⟨?_, ?_, ?_⟩
  · intro u hu
    rw [hsame] at hu; exact h.claimed hu
  · intro u v hu hv
    rw [hsame] at hu hv; exact h.single hu hv
  · intro u other heads key head hu hfound
    rw [phase_move] at hu
    split at hu
    · cases hu
      have hentry := mem_lookup_iff.mp (mem_def.mpr hfound)
      cases hhead : head with
      | none => exact absurd hhead (hstopped _ hentry)
      | some found =>
        rw [hhead] at hentry
        exact ⟨found, List.mem_filterMap.mpr ⟨_, hentry, rfl⟩, rfl⟩
    · next hown =>
      have := h.alone hcollects hown
      rw [hu] at this
      cases this

theorem Collecting.finish (h : Collecting s) (ht : s.phase t = .tracing id heads)
    (participants : AList (fun _ : Nat => Option Nat)) :
    Collecting ({ s with participants := participants, requested := false }.move t
      (.running id)) := by
  have hnobody : ∀ u, (if u = t then Phase.running id else s.phase u).collects = false := by
    intro u
    split
    · rfl
    · next hown => exact h.alone (by rw [ht, Phase.collects]) hown
  refine ⟨?_, ?_, ?_⟩
  · intro u hu
    rw [phase_move, hnobody] at hu
    cases hu
  · intro u v hu
    rw [phase_move, hnobody] at hu
    cases hu
  · intro u other heads key head hu
    have := hnobody u
    rw [phase_move] at hu
    rw [hu] at this
    cases this

/-- A step of a thread that does not collect, before and after it. -/
theorem Collecting.move (h : Collecting s) (hp : p.collects = false) {next : Nat}
    {participants : AList (fun _ : Nat => Option Nat)} {entryRoots : ι → Nat}
    (hstays : ∀ u id heads, u ≠ t → s.phase u ≠ .tracing id heads) :
    Collecting ({ s with next := next, participants := participants
                         entryRoots := entryRoots }.move t p) := by
  refine ⟨?_, ?_, ?_⟩
  · intro u hu
    rw [phase_move] at hu
    split at hu
    · rw [hp] at hu
      cases hu
    · exact h.claimed hu
  · intro u v hu hv
    rw [phase_move] at hu hv
    split at hu
    · rw [hp] at hu
      cases hu
    · split at hv
      · rw [hp] at hv
        cases hv
      · exact h.single hu hv
  · intro u id heads other head hu
    rw [phase_move] at hu
    split at hu
    · rw [hu] at hp
      cases hp
    · next hown => exact absurd hu (hstays u id heads hown)

theorem Took.collecting (hlisted : Listed s) (h : Collecting s) (htook : Took s e s') :
    Collecting s' := by
  -- A thread that runs, or may, proves that no collection is running.
  have hrunning : ∀ {t id}, s.phase t = .running id → ∀ u other heads, u ≠ t →
      s.phase u ≠ .tracing other heads := by
    intro t id ht u other heads _ hu; exact h.stopped hlisted hu ht
  have hfree : s.requested = false → ∀ {t : ι} u id heads, u ≠ t →
      s.phase u ≠ .tracing id heads := by
    intro hrequest t u id heads _ hu
    have := h.idle hrequest u
    rw [hu] at this
    cases this
  cases htook with
  | attached ht hrequest => exact h.move rfl (hfree hrequest)
  | detached ht => exact h.move rfl (hrunning ht)
  | rooted ht => exact ⟨h.claimed, h.single, h.handed⟩
  | parked ht => exact h.move rfl (hrunning ht)
  | resumed ht hrequest => exact h.move rfl (hfree hrequest)
  | requested _ hrequest => exact h.request hrequest _
  | traced ht hstopped => exact h.trace ht hstopped
  | finished ht => exact h.finish ht _
  | published => exact ⟨h.claimed, h.single, h.handed⟩

/-! ## From the request to the end of the collection -/

/-- Any step but the end of the collection of `t`. -/
def before (t : ι) : State ι → Event ι → Bool := fun _ e => decide (e ≠ .finish t)

/-- What runs or is registered now did so already then. -/
structure Holds (then' now : State ι) : Prop where
  running : ∀ {u id}, now.phase u = .running id → then'.phase u = .running id
  registered : ∀ {id}, id ∈ now.participants → id ∈ then'.participants

theorem Took.holds (hlisted : Listed s) (hcollecting : Collecting s)
    (ht : (s.phase t).collects = true) (he : e ≠ .finish t) (htook : Took s e s') :
    (s'.phase t).collects = true ∧ Holds s s' := by
  have hrequested : s.requested ≠ false := by
    rw [hcollecting.claimed ht]; simp
  have hother : ∀ {u p}, s.phase u = p → p.collects = false → t ≠ u := by
    intro u p hu hp hsame
    rw [hsame, hu, hp] at ht
    cases ht
  cases htook with
  | attached _ hrequest | resumed _ hrequest | requested _ hrequest =>
    exact absurd hrequest hrequested
  | @detached u id hu =>
    refine ⟨by simpa [hother hu rfl] using ht, ?_, ?_⟩
    · intro v other hv
      rw [phase_move] at hv
      split at hv
      · cases hv
      · exact hv
    · intro other hfound; exact (mem_erase.mp hfound).2
  | rooted => exact ⟨ht, id, id⟩
  | @parked _ u id hu =>
    refine ⟨by simpa [hother hu rfl] using ht, ?_, ?_⟩
    · intro v other hv
      rw [phase_move] at hv
      split at hv
      · cases hv
      · exact hv
    · intro other hfound
      obtain hsame | hfound := (mem_insert _).mp hfound
      · rw [hsame]; exact hlisted.mem (by rw [hu, Phase.id?])
      · exact hfound
  | @traced u id hu =>
    refine ⟨?_, ?_, fun hfound => hfound⟩
    · rw [phase_move]
      split
      · rfl
      · exact ht
    · intro v other hv
      rw [phase_move] at hv
      split at hv
      · cases hv
      · exact hv
  | @finished u id heads hu =>
    have hsame : u = t := hcollecting.single (by rw [hu, Phase.collects]) ht
    exact absurd (hsame ▸ rfl) he
  | published => exact ⟨ht, id, id⟩

/-- While the collection runs nothing moves until it ends. -/
theorem Took.still (hlisted : Listed s) (hcollecting : Collecting s)
    (ht : s.phase t = .tracing id heads) (he : e ≠ .finish t) (htook : Took s e s') :
    s'.phase = s.phase ∧ s'.participants = s.participants ∧ s'.roots = s.roots := by
  have hcollects : (s.phase t).collects = true := by rw [ht, Phase.collects]
  have hrequested : s.requested ≠ false := by
    rw [hcollecting.claimed hcollects]; simp
  cases htook with
  | attached _ hrequest | resumed _ hrequest | requested _ hrequest =>
    exact absurd hrequest hrequested
  | detached hu | rooted hu | parked hu => exact absurd hu (hcollecting.stopped hlisted ht)
  | traced hu =>
    have hsame := hcollecting.single (by rw [hu, Phase.collects]) hcollects
    rw [hsame, ht] at hu
    cases hu
  | finished hu =>
    have hsame := hcollecting.single (by rw [hu, Phase.collects]) hcollects
    exact absurd (hsame ▸ rfl) he
  | published => exact ⟨rfl, rfl, rfl⟩

/-! ## Whole runs -/

structure Orderly (s : State ι) : Prop where
  listed : Listed s
  collecting : Collecting s

theorem orderly_step (h : Orderly s) (hstep : step s e = some s') : Orderly s' :=
  ⟨(step_took hstep).listed h.listed, (step_took hstep).collecting h.listed h.collecting⟩

theorem orderly_of_reaches {roots : ι → Nat} (h : Reaches step always (start roots) s) :
    Orderly s :=
  h.invariant Orderly ⟨start_listed roots, start_collecting roots⟩
    (fun hs _ hstep => orderly_step hs hstep)

theorem holds_of_reaches (h : Orderly s) (ht : (s.phase t).collects = true)
    (hlater : Reaches step (before t) s s') : (s'.phase t).collects = true ∧ Holds s s' := by
  have hall : Orderly s' ∧ (s'.phase t).collects = true ∧ Holds s s' := by
    apply hlater.invariant (fun now => Orderly now ∧ (now.phase t).collects = true ∧ Holds s now)
    · exact ⟨h, ht, id, id⟩
    · intro now next e hnow hallowed hstep
      obtain ⟨horderly, hcollects, hholds⟩ := hnow
      obtain ⟨hcollects', hholds'⟩ := (step_took hstep).holds horderly.listed
        horderly.collecting hcollects (of_decide_eq_true hallowed)
      exact ⟨orderly_step horderly hstep, hcollects',
        fun hu => hholds.running (hholds'.running hu),
        fun hid => hholds.registered (hholds'.registered hid)⟩
  exact hall.2

theorem still_of_reaches (h : Orderly s) (ht : s.phase t = .tracing id heads)
    (hlater : Reaches step (before t) s s') :
    s'.phase = s.phase ∧ s'.participants = s.participants ∧ s'.roots = s.roots := by
  have hall : Orderly s' ∧ s'.phase = s.phase ∧ s'.participants = s.participants ∧
      s'.roots = s.roots := by
    apply hlater.invariant (fun now => Orderly now ∧ now.phase = s.phase ∧
      now.participants = s.participants ∧ now.roots = s.roots)
    · exact ⟨h, rfl, rfl, rfl⟩
    · intro now next e hnow hallowed hstep
      obtain ⟨horderly, hphase, hparticipants, hroots⟩ := hnow
      obtain ⟨hphase', hparticipants', hroots'⟩ := (step_took hstep).still horderly.listed
        horderly.collecting (by rw [hphase, ht]) (of_decide_eq_true hallowed)
      exact ⟨orderly_step horderly hstep, hphase'.trans hphase,
        hparticipants'.trans hparticipants, hroots'.trans hroots⟩
  exact hall.2

/-- What holds of the collections of a state: at most one participant collects;
while one runs, every other participant is parked and its published root chain
is handed on; until it ends nobody starts to run or attaches, and once it runs
nothing moves at all. -/
structure Rendezvous (s : State ι) : Prop where
  single : ∀ t u, (s.phase t).collects = true → (s.phase u).collects = true → t = u
  parked : ∀ t id heads, s.phase t = .tracing id heads →
    ∀ other head, s.participants.lookup other = some head → other ≠ id →
      ∃ u, s.phase u = .parked other ∧ head = some (s.roots u) ∧ s.roots u ∈ heads
  own : ∀ t id heads, s.phase t = .tracing id heads → s.roots t ∈ heads
  waits : ∀ t s', (s.phase t).collects = true → Reaches step (before t) s s' → Holds s s'
  still : ∀ t id heads s', s.phase t = .tracing id heads → Reaches step (before t) s s' →
    s'.phase = s.phase ∧ s'.participants = s.participants ∧ s'.roots = s.roots

omit [DecidableEq ι] in
theorem Orderly.handed (h : Orderly s) {other : Nat} (ht : s.phase t = .tracing id heads)
    (hu : (s.phase u).id? = some other) :
    s.participants.lookup other = some (some (s.roots u)) ∧ s.roots u ∈ heads := by
  have hfound := h.listed.registered hu
  obtain ⟨found, hmem, hhead⟩ := h.collecting.handed ht hfound
  have hroots : s.roots u = found := by
    cases hruns : (s.phase u).runs with
    | false => simpa [published, hruns] using hhead
    | true => simp [published, hruns] at hhead
  rw [hfound, hhead, hroots]; exact ⟨rfl, hmem⟩

/-- For any number of participants and any interleaving of their steps. -/
theorem rendezvous {roots : ι → Nat} (h : Reaches step always (start roots) s) :
    Rendezvous s := by
  have horderly := orderly_of_reaches h
  refine ⟨fun _ _ => horderly.collecting.single, ?_, ?_, ?_, ?_⟩
  · intro t id heads ht other head hfound hne
    obtain ⟨u, hu⟩ := horderly.listed.owned hfound
    obtain ⟨hlookup, hmem⟩ := horderly.handed ht hu
    have hut : u ≠ t := by
      intro hsame
      rw [hsame, ht] at hu; exact hne (some.inj hu).symm
    have hparked : s.phase u = .parked other := by
      have halone := horderly.collecting.alone (t := t) (by rw [ht, Phase.collects]) hut
      cases hphase : s.phase u with
      | detached => simp [hphase, Phase.id?] at hu
      | running key => exact absurd hphase (horderly.collecting.stopped horderly.listed ht)
      | parked key =>
        rw [hphase] at hu
        rw [some.inj hu]
      | waiting key | tracing key _ => simp [hphase, Phase.collects] at halone
    exact ⟨u, hparked, some.inj (hfound.symm.trans hlookup), hmem⟩
  · intro t id heads ht; exact (horderly.handed ht (by rw [ht, Phase.id?])).2
  · intro t s' ht hlater; exact (holds_of_reaches horderly ht hlater).2
  · intro t id heads s' ht hlater; exact still_of_reaches horderly ht hlater

end

/-- Two participants, of which the first collects while the second is parked
with a root frame of its own. -/
theorem rendezvous_two :
    ∃ s : State (Fin 2), Reaches step always (start (fun _ => 0)) s ∧
      (s.phase 0 = .tracing 0 [7, 0] ∧ s.phase 1 = .parked 1) ∧ Rendezvous s := by
  have hrun : (run step always (start (fun _ => 0) : State (Fin 2))
      [.attach 0, .attach 1, .root 1 7, .collect 0, .park 1, .trace 0]).map
      (fun s => decide (s.phase 0 = .tracing 0 [7, 0] ∧ s.phase 1 = .parked 1)) = some true := by
    decide
  obtain ⟨s, hs, hlast⟩ := reaches_with _ hrun
  exact ⟨s, hs, of_decide_eq_true hlast, rendezvous hs⟩

end Loom.Runtime.SharedHeap

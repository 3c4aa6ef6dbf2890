import Loom.Runtime.ReactorHandles

/-
  Every registration the reactor gives out ends exactly once.

  `tally` counts how often a registration is accounted for: as active, in a
  notification queued or taken, in a successful cancellation. `Once` says that
  it is one for each registration given out and zero for any other pair.
-/

namespace Loom.Runtime.Reactor

open Slots Runs Nat

/-- The notifications queued or taken. -/
def System.notes (s : System) : List ReadyNotification := s.core.ready ++ s.delivered

def deliveries (s : System) (r : Registration) : Nat :=
  (s.notes.map (·.registration)).count r

def cancellations (s : System) (r : Registration) : Nat := s.cancelled.count r

def ended (s : System) (r : Registration) : Nat := deliveries s r + cancellations s r

def tally (s : System) (r : Registration) : Nat :=
  (if (s.core.active r).isSome then 1 else 0) + ended s r

/-- Every registration given out is accounted for once, to its owner, and its
generation is one its slot has reached. -/
structure Once (s : System) : Prop where
  once : ∀ r, tally s r = if r ∈ s.issued.map Prod.fst then 1 else 0
  owner : ∀ r found, s.core.active r = some found → (r, found.owner) ∈ s.issued
  notified : ∀ note ∈ s.notes, (note.registration, note.owner) ∈ s.issued
  reached : ∀ r ∈ s.issued.map Prod.fst, r.generation ≤ generationOf s.core.table r.key
  distinct : (s.issued.map Prod.fst).Nodup

theorem once_start : Once start := by
  refine ⟨?_, ?_, ?_, ?_, ?_⟩
  · simp [tally, ended, deliveries, cancellations, start, Core.active, Core.new, lookup,
      Slots.empty, System.notes]
  · intro r found hfound
    simp [start, Core.active, Core.new, lookup, Slots.empty] at hfound
  · intro note hnote; simp [start, Core.new, System.notes] at hnote
  · intro r hr; simp [start] at hr
  · simp [start]

variable {core : Core} {s : System}

theorem tally_ends {notes : List ReadyNotification} {cancelled : List Registration}
    (h : Ends s.core core notes cancelled) (r : Registration) :
    tally { s with core := core, cancelled := cancelled ++ s.cancelled } r = tally s r := by
  have hcount : ((s.core.ready ++ notes ++ s.delivered).map (·.registration)).count r +
      (cancelled ++ s.cancelled).count r =
      ended s r + (notes.map (·.registration) ++ cancelled).count r := by
    simp only [ended, deliveries, cancellations, System.notes, List.map_append, List.count_append]
    omega
  simp only [tally, ended, deliveries, cancellations, System.notes] at hcount ⊢
  rw [h.ready, hcount, h.active]
  by_cases hmem : r ∈ notes.map (·.registration) ++ cancelled
  · have hactive : (s.core.active r).isSome = true := by
      obtain hnote | hcancelled := List.mem_append.mp hmem
      · obtain ⟨note, hnote, hsame⟩ := List.mem_map.mp hnote
        obtain ⟨found, hfound, -⟩ := h.notifies note hnote
        rw [← hsame, hfound]; rfl
      · obtain ⟨found, hfound⟩ := h.live r hcancelled
        rw [hfound]; rfl
    rw [List.count_eq_one_of_mem h.once hmem, if_pos hmem, hactive]
    simp only [Option.isSome_none, Bool.false_eq_true, if_false, if_true]; omega
  · rw [List.count_eq_zero_of_not_mem hmem, if_neg hmem, add_zero]

theorem Once.ends {s : System} (h : Once s) {core : Core} {notes : List ReadyNotification}
    {cancelled : List Registration} (hends : Ends s.core core notes cancelled) :
    Once { s with core := core, cancelled := cancelled ++ s.cancelled } := by
  refine ⟨?_, ?_, ?_, ?_, h.distinct⟩
  · intro r
    rw [tally_ends hends]; exact h.once r
  · intro r found hfound
    rw [hends.active] at hfound
    split at hfound
    · cases hfound
    · exact h.owner r found hfound
  · intro note hnote
    simp only [System.notes, hends.ready, List.append_assoc, List.mem_append] at hnote
    obtain hready | hnew | hdelivered := hnote
    · exact h.notified note (List.mem_append_left _ hready)
    · obtain ⟨found, hfound, howner⟩ := hends.notifies note hnew
      rw [howner]; exact h.owner _ _ hfound
    · exact h.notified note (List.mem_append_right _ hdelivered)
  · intro r hr; exact le_trans (h.reached r hr) (hends.generation r.key)

theorem Once.issue (h : Once s) {registration : Registration} {source : WaitSource} {owner : Nat}
    (hissues : Issues s.core core registration source owner) :
    Once { s with core := core, issued := (registration, owner) :: s.issued } := by
  have hactive := hissues.active
  -- Its generation is above every one given out for the key.
  have hnew : registration ∉ s.issued.map Prod.fst := by
    intro hmem
    have hle := h.reached registration hmem
    rw [hissues.fresh] at hle; omega
  have hzero : tally s registration = 0 := by rw [h.once, if_neg hnew]
  refine ⟨?_, ?_, ?_, ?_, ?_⟩
  · intro r
    have hcount : ended { s with core := core, issued := (registration, owner) :: s.issued } r =
        ended s r := by
      simp [ended, deliveries, cancellations, System.notes, hissues.ready]
    rw [tally, hcount]
    rw [hactive]
    by_cases hsame : r = registration
    · have hended : ended s r = 0 := by
        rw [← hsame] at hzero; exact (Nat.add_eq_zero_iff.mp hzero).2
      simp [hsame, ← hended]
    · have hold := h.once r
      rw [tally] at hold
      rw [if_neg hsame, hold, List.map_cons]
      simp only [List.mem_cons, hsame, false_or]
  · intro r found hfound
    rw [hactive] at hfound
    split at hfound
    · next hsame =>
      rw [hsame, ← Option.some.inj hfound]; exact .head _
    · exact .tail _ (h.owner r found hfound)
  · intro note hnote
    simp only [System.notes, hissues.ready] at hnote
    exact .tail _ (h.notified note hnote)
  · intro r hr
    rw [hissues.generation]
    obtain hsame | hold := List.mem_cons.mp hr
    · rw [hsame, if_pos rfl]
    · have hle := h.reached r hold
      split
      · next hkey =>
        rw [hissues.fresh, ← hkey]; omega
      · exact hle
  · exact List.nodup_cons.mpr ⟨hnew, h.distinct⟩

theorem Once.pop {s : System} (h : Once s) {note : ReadyNotification}
    {rest : List ReadyNotification} (hready : s.core.ready = note :: rest) :
    Once { s with core := { s.core with ready := rest }, delivered := note :: s.delivered } := by
  have hperm : (rest ++ note :: s.delivered).Perm s.notes := by
    rw [System.notes, hready]; exact List.perm_middle
  refine ⟨?_, h.owner, ?_, h.reached, h.distinct⟩
  · intro r
    rw [← h.once r]
    simp only [tally, ended, deliveries]
    rw [← (hperm.map (·.registration)).count_eq r]; rfl
  · intro other hother; exact h.notified other (hperm.subset hother)

/-! ## Steps -/

/-- What is delivered or cancelled stays so. -/
def Grows (s s' : System) : Prop :=
  ∀ r, deliveries s r ≤ deliveries s' r ∧ cancellations s r ≤ cancellations s' r

theorem Reports.ends {first : Core} {these : Registration → Prop} {result : Except Failure Unit}
    (h : Reports first core these result) : ∃ notes, Ends first core notes [] := by
  cases result with
  | ok =>
    obtain ⟨notes, hends, -⟩ := h
    exact ⟨notes, hends⟩
  | error failure => exact ⟨[], h⟩

theorem Once.finishes (h : Once s) {notes : List ReadyNotification}
    (hends : Ends s.core core notes []) :
    Once { s with core := core } ∧ Grows s { s with core := core } := by
  refine ⟨h.ends hends, fun r => ⟨?_, le_refl _⟩⟩
  simp only [deliveries, System.notes, hends.ready, List.map_append, List.count_append]
  omega

/-- No operation panics; the invariants are kept, and what has ended stays so. -/
theorem step_progress (hsound : Sound s.core) (honce : Once s) (e : Step) :
    ∃ s', step s e = some s' ∧ Sound s'.core ∧ Once s' ∧ Grows s s' := by
  cases e with
  | register source owner notified accepted =>
    obtain ⟨result, core, hregister, hcore, hresult⟩ :=
      register_spec hsound source owner notified accepted
    cases result with
    | error failure =>
      obtain ⟨hkept, hended⟩ := honce.finishes hresult
      exact ⟨{ s with core := core }, by simp [step, hregister], hcore, hkept, hended⟩
    | ok registration =>
      refine ⟨{ s with core := core, issued := (registration, owner) :: s.issued }, ?_, hcore,
        honce.issue hresult, fun r => ⟨?_, le_refl _⟩⟩
      · simp [step, hregister]
      · simp only [deliveries, System.notes, hresult.ready]; exact le_refl _
  | cancel registration notified accepted =>
    obtain ⟨result, core, hcancel, hcore, hresult⟩ :=
      cancel_spec hsound registration notified accepted
    cases result with
    | error failure =>
      obtain ⟨hkept, hended⟩ := honce.finishes hresult
      exact ⟨{ s with core := core }, by simp [step, hcancel], hcore, hkept, hended⟩
    | ok done =>
      cases done with
      | false =>
        obtain ⟨hkept, hended⟩ := honce.finishes hresult.2
        exact ⟨{ s with core := core }, by simp [step, hcancel], hcore, hkept, hended⟩
      | true =>
        refine ⟨{ s with core := core, cancelled := registration :: s.cancelled }, ?_, hcore,
          honce.ends hresult, fun r => ⟨?_, List.count_le_count_cons⟩⟩
        · simp [step, hcancel]
        · simp only [deliveries, System.notes, hresult.ready, List.append_nil]
          exact le_refl _
  | revokeReadiness source notified accepted =>
    obtain ⟨result, core, hrevoke, hcore, hresult⟩ :=
      revokeReadiness_spec hsound source notified accepted
    obtain ⟨notes, hends⟩ := hresult.ends
    exact ⟨{ s with core := core }, by simp [step, hrevoke], hcore, honce.finishes hends⟩
  | notifyCompletion registration events osError notified =>
    obtain ⟨result, core, hnotify, hcore, ⟨notes, hends, -⟩, -⟩ :=
      notifyCompletion_spec hsound registration events osError notified
    exact ⟨{ s with core := core }, by simp [step, hnotify], hcore, honce.finishes hends⟩
  | readiness event accepted =>
    obtain ⟨result, core, hready, hcore, hresult⟩ := readiness_spec hsound event accepted
    obtain ⟨notes, hends⟩ := hresult.ends
    exact ⟨{ s with core := core }, by simp [step, hready], hcore, honce.finishes hends⟩
  | fireTimers now =>
    obtain ⟨core, hfire, hcore, notes, hends, -⟩ := fireTimers_spec hsound now
    exact ⟨{ s with core := core }, by simp [step, hfire], hcore, honce.finishes hends⟩
  | popReady =>
    cases hready : s.core.ready with
    | nil => exact ⟨s, by simp [step, popReady, hready], hsound, honce,
        fun _ => ⟨le_refl _, le_refl _⟩⟩
    | cons note rest =>
      refine ⟨{ s with core := { s.core with ready := rest }, delivered := note :: s.delivered },
        by simp [step, popReady, hready], hsound.setReady rest, honce.pop hready,
        fun r => ⟨?_, le_refl _⟩⟩
      simp only [deliveries, System.notes, hready, List.map_append, List.count_append,
        List.map_cons, List.count_cons]
      omega

/-! ## Whole runs -/

structure Kept (s : System) : Prop where
  sound : Sound s.core
  once : Once s

theorem kept_of_reaches {first : System} (hfirst : Kept first) (h : Reaches step always first s) :
    Kept s ∧ Grows first s := by
  apply h.invariant (fun s => Kept s ∧ Grows first s)
  · exact ⟨hfirst, fun _ => ⟨le_refl _, le_refl _⟩⟩
  · intro s s' e hs _ hstep
    obtain ⟨next, hnext, hsound, honce, hgrows⟩ := step_progress hs.1.sound hs.1.once e
    rw [hstep] at hnext
    rw [Option.some.inj hnext]
    exact ⟨⟨hsound, honce⟩, fun r => ⟨le_trans (hs.2 r).1 (hgrows r).1,
      le_trans (hs.2 r).2 (hgrows r).2⟩⟩

/-- What the reactor promises of its registrations in a state. -/
structure ExactlyOnce (s : System) : Prop where
  /-- Still active, or delivered once, or cancelled once, and only one of these. -/
  once : ∀ r owner, (r, owner) ∈ s.issued →
    ((s.core.active r).isSome = true ∧ deliveries s r = 0 ∧ cancellations s r = 0) ∨
    ((s.core.active r).isSome = false ∧ deliveries s r = 1 ∧ cancellations s r = 0) ∨
    ((s.core.active r).isSome = false ∧ deliveries s r = 0 ∧ cancellations s r = 1)
  /-- A pair is given out once, to one owner, who gets its notification. -/
  distinct : (s.issued.map Prod.fst).Nodup
  owner : ∀ note ∈ s.notes, (note.registration, note.owner) ∈ s.issued
  /-- What has ended is never active again, delivered again or cancelled too. -/
  stays : ∀ r owner s', (r, owner) ∈ s.issued → (s.core.active r).isSome = false →
    Reaches step always s s' → (s'.core.active r).isSome = false ∧
      deliveries s' r = deliveries s r ∧ cancellations s' r = cancellations s r
  /-- A pair that names nothing active changes nothing. -/
  stale : ∀ r, (s.core.active r).isSome = false →
    (∀ notified accepted, step s (.cancel r notified accepted) = some s) ∧
    (∀ events osError notified, step s (.notifyCompletion r events osError notified) = some s)
  freeOnce : s.core.table.free.Nodup
  freeInactive : ∀ key ∈ s.core.table.free, ∀ generation,
    s.core.active ⟨key, generation⟩ = none
  /-- Every active timer is in the timer map, under its deadline. -/
  timers : ∀ r found, s.core.active r = some found → found.source.kind = kindTimer →
    ⟨found.source.deadlineNs, r⟩ ∈ s.core.timers
  /-- Every active readiness registration is in the directions it asked for, of
  a handle whose key leads back to its source. -/
  handles : ∀ r found, s.core.active r = some found → found.source.kind = kindReadiness →
    ∃ handle, s.core.handles found.source.handle = some handle ∧
      s.core.pollKeys handle.eventKey = some found.source.handle ∧
      (∃ d, handle.get d = some r) ∧
      ∀ d, handle.get d = some r ↔ (found.source.interests &&& d.bit != 0) = true
  /-- Each operation answers, and does exactly what it answers. -/
  registers : ∀ source owner notified accepted, ∃ result core,
    register s.core source owner notified accepted = some (result, core) ∧
      Registers s.core core source owner result
  cancels : ∀ r notified accepted, ∃ result core,
    cancel s.core r notified accepted = some (result, core) ∧ Cancels s.core core r result
  /-- A completion answered with success takes its registration out of the
  active ones and delivers it, and no other, once to its owner. -/
  completes : ∀ r events osError notified, ∃ result core,
    notifyCompletion s.core r events osError notified = some (result, core) ∧
      Completes s.core core r events result
  /-- So do a revocation with all that wait for its source, -/
  revokes : ∀ source notified accepted, ∃ result core,
    revokeReadiness s.core source notified accepted = some (result, core) ∧
      Reports s.core core (fun r => ∃ d, Interested s.core r source d) result
  /-- a report with all that wait for what it reports, -/
  reports : ∀ event accepted, ∃ result core, readiness s.core event accepted = some (result, core) ∧
    Reports s.core core (Covered s.core event) result
  /-- and the clock with all timers that are due. -/
  fires : ∀ now, ∃ core, s.core.fireTimers now = some core ∧ Delivers s.core core (Due s.core now)

theorem Once.tally_issued (h : Once s) {r : Registration} {owner : Nat}
    (hissued : (r, owner) ∈ s.issued) :
    (if (s.core.active r).isSome then 1 else 0) + (deliveries s r + cancellations s r) = 1 := by
  have hone := h.once r
  rwa [if_pos (List.mem_map_of_mem hissued)] at hone

theorem Once.tally_le (h : Once s) (r : Registration) :
    (if (s.core.active r).isSome then 1 else 0) + (deliveries s r + cancellations s r) ≤ 1 := by
  have hone := h.once r
  rw [tally, ended] at hone
  rw [hone]
  split <;> omega

/-- Over any run of registrations, cancellations, revocations, completions,
readiness reports, timers and notifications taken. -/
theorem exactlyOnce {s : System} (h : Reaches step always start s) : ExactlyOnce s := by
  obtain ⟨hkept, -⟩ := kept_of_reaches ⟨sound_new, once_start⟩ h
  have hsound := hkept.sound
  refine ⟨?_, hkept.once.distinct, hkept.once.notified, ?_, ?_, hsound.wf.nodup, ?_, hsound.timed,
    hsound.indexed, ?_, ?_, ?_, ?_, ?_, ?_⟩
  · intro r owner hissued
    have hone := hkept.once.tally_issued hissued
    cases hactive : (s.core.active r).isSome with
    | true =>
      rw [hactive, if_pos rfl] at hone; exact .inl ⟨rfl, by omega, by omega⟩
    | false =>
      rw [hactive, if_neg Bool.false_ne_true] at hone
      by_cases hdelivered : deliveries s r = 0
      · exact .inr (.inr ⟨rfl, hdelivered, by omega⟩)
      · exact .inr (.inl ⟨rfl, by omega, by omega⟩)
  · intro r owner s' hissued hinactive hlater
    obtain ⟨hkept', hgrows⟩ := kept_of_reaches hkept hlater
    have hone := hkept.once.tally_issued hissued
    have hle := hkept'.once.tally_le r
    obtain ⟨hdeliveries, hcancellations⟩ := hgrows r
    rw [hinactive, if_neg Bool.false_ne_true] at hone
    cases hactive : (s'.core.active r).isSome with
    | true =>
      rw [hactive, if_pos rfl] at hle; omega
    | false => exact ⟨rfl, by omega, by omega⟩
  · intro r hinactive
    have hnone : s.core.active r = none := by
      rwa [Option.isSome_eq_false_iff, Option.isNone_iff_eq_none] at hinactive
    refine ⟨?_, ?_⟩
    · simp [step, cancel, hnone]
    · intro events osError notified
      simp only [step, notifyCompletion, hnone]
      split <;> rfl
  · intro key hkey generation
    obtain ⟨current, hslot⟩ := hkept.sound.wf.free_iff.mp hkey
    simp only [Core.active, lookup, hslot]
    split <;> rfl
  · intro source owner notified accepted
    obtain ⟨result, core, hregister, -, hresult⟩ :=
      register_spec hsound source owner notified accepted
    exact ⟨result, core, hregister, hresult⟩
  · intro r notified accepted
    obtain ⟨result, core, hcancel, -, hresult⟩ := cancel_spec hsound r notified accepted
    exact ⟨result, core, hcancel, hresult⟩
  · intro r events osError notified
    obtain ⟨result, core, hnotify, -, hresult⟩ :=
      notifyCompletion_spec hsound r events osError notified
    exact ⟨result, core, hnotify, hresult⟩
  · intro source notified accepted
    obtain ⟨result, core, hrevoke, -, hresult⟩ :=
      revokeReadiness_spec hsound source notified accepted
    exact ⟨result, core, hrevoke, hresult⟩
  · intro event accepted
    obtain ⟨result, core, hready, -, hresult⟩ := readiness_spec hsound event accepted
    exact ⟨result, core, hready, hresult⟩
  · intro now
    obtain ⟨core, hfire, -, hdelivers⟩ := fireTimers_spec hsound now
    exact ⟨core, hfire, hdelivers⟩

/-- A slot reused: a completion is registered and cancelled, its slot serves a
timer that fires, and the old pair then cancels nothing. -/
theorem exactlyOnce_reused : ∃ s : System, Reaches step always start s ∧
      (s.issued = [(⟨0, 2⟩, 8), (⟨0, 1⟩, 7)] ∧ s.cancelled = [⟨0, 1⟩] ∧
        s.delivered = [⟨⟨0, 2⟩, 8, timer, 0⟩]) ∧ ExactlyOnce s := by
  have hrun : (run step always start
      [.register ⟨kindCompletion, 0, 0, 0⟩ 7 true true, .cancel ⟨0, 1⟩ true true,
        .register ⟨kindTimer, 0, 0, 5⟩ 8 true true, .fireTimers 6, .popReady,
        .cancel ⟨0, 1⟩ true true]).map
      (fun s => decide (s.issued = [(⟨0, 2⟩, 8), (⟨0, 1⟩, 7)] ∧ s.cancelled = [⟨0, 1⟩] ∧
        s.delivered = [⟨⟨0, 2⟩, 8, timer, 0⟩])) = some true := by
    decide
  obtain ⟨s, hs, hlast⟩ := reaches_with _ hrun
  exact ⟨s, hs, of_decide_eq_true hlast, exactlyOnce hs⟩

end Loom.Runtime.Reactor

import Loom.Runtime.Reactor

/-
  What every operation of the reactor keeps between the slots, the timers, the
  handles and the poll keys.
-/

namespace Loom.Runtime.Reactor

open Slots Function Option Nat

variable {core core' : Core} {registration : Registration}

/-! ## Slots -/

namespace Core

theorem insert_spec (hwf : Wf core.table) {source : WaitSource} {owner : Nat}
    (h : core.insert source owner = some (registration, core')) :
    (∃ table, core' = { core with table := table }) ∧ Wf core'.table ∧
    (∀ r, core'.active r = if r = registration then some ⟨source, owner⟩ else core.active r) ∧
    registration.generation = generationOf core.table registration.key + 1 ∧
    (∀ key, generationOf core'.table key =
      if key = registration.key then registration.generation else generationOf core.table key) ∧
    ∀ r : Registration, r.key = registration.key → core.active r = none := by
  obtain ⟨⟨⟨key, generation⟩, table⟩, hinsert, heq⟩ := map_eq_some_iff.mp h
  obtain ⟨rfl, rfl⟩ := heq
  refine ⟨⟨table, rfl⟩, hwf.insert hinsert, ?_, insert_fresh hwf hinsert,
    generationOf_insert hwf hinsert, ?_⟩
  · intro r
    rw [active, lookup_insert hwf hinsert]
    obtain ⟨otherKey, otherGeneration⟩ := r
    simp [active]
  · intro r hsame
    have hkey := (slots_insert hwf hinsert).1
    rw [active, hsame, hkey]; exact lookup_nextKey hwf r.generation

theorem active_key {r : Registration} {found other : Active}
    (hfound : core.active registration = some found) (hother : core.active r = some other)
    (hkey : r.key = registration.key) : r = registration := by
  have hslot := lookup_eq_some_iff.mp hfound
  have hsame := lookup_eq_some_iff.mp hother
  rw [hkey, hslot] at hsame
  obtain ⟨key, generation⟩ := r
  obtain ⟨key', generation'⟩ := registration
  simp_all

/-- The registrations are no longer active, and apart from the ready queue
nothing else has changed. -/
structure Retired (core core' : Core) (registrations : List Registration) : Prop where
  wf : Wf core'.table
  active : ∀ r, core'.active r = if r ∈ registrations then none else core.active r
  generation : ∀ key, generationOf core'.table key = generationOf core.table key
  timers : core'.timers = core.timers
  handles : core'.handles = core.handles
  pollKeys : core'.pollKeys = core.pollKeys
  nextPollKey : core'.nextPollKey = core.nextPollKey

theorem remove_spec (core : Core) (hwf : Wf core.table) {found : Active}
    (h : core.active registration = some found) :
    ∃ removed, core.remove registration = some (found, removed) ∧
      Retired core removed [registration] ∧ removed.ready = core.ready := by
  obtain ⟨table, hremove⟩ : ∃ table, Slots.remove core.table registration.key = some (found, table) :=
    ⟨_, remove_eq h⟩
  refine ⟨{ core with table := table }, ?_, ?_, rfl⟩
  · exact map_eq_some_iff.mpr ⟨_, hremove, rfl⟩
  · refine ⟨hwf.remove h hremove, ?_, generationOf_remove h hremove, rfl, rfl, rfl, rfl⟩
    intro r
    rw [active, lookup_remove h hremove]
    obtain ⟨otherKey, otherGeneration⟩ := r
    obtain ⟨key, generation⟩ := registration
    simp [active]

theorem finish_spec (hwf : Wf core.table) {found : Active}
    (h : core.active registration = some found) (events : UInt32) (osError : Int) :
    ∃ finished, core.finish registration events osError = some finished ∧
      Retired core finished [registration] ∧
      finished.ready = core.ready ++ [⟨registration, found.owner, events, osError⟩] := by
  obtain ⟨removed, hremove, hretired, hready⟩ := remove_spec core hwf h
  refine ⟨_, map_eq_some_iff.mpr ⟨_, hremove, rfl⟩, ?_, ?_⟩
  · exact ⟨hretired.wf, hretired.active, hretired.generation, hretired.timers,
      hretired.handles, hretired.pollKeys, hretired.nextPollKey⟩
  · show removed.ready ++ _ = _
    rw [hready]

theorem Retired.append {middle : Core} {first rest : List Registration}
    (h : Retired core middle first) (hrest : Retired middle core' rest) :
    Retired core core' (first ++ rest) := by
  refine ⟨hrest.wf, ?_, fun key => (hrest.generation key).trans (h.generation key),
    hrest.timers.trans h.timers, hrest.handles.trans h.handles, hrest.pollKeys.trans h.pollKeys,
    hrest.nextPollKey.trans h.nextPollKey⟩
  intro r
  rw [hrest.active, h.active]
  by_cases hfirst : r ∈ first <;> by_cases hmem : r ∈ rest <;> simp [hmem]

/-- Notifications of registrations active in a core, to their owners. -/
def Notifies (core : Core) (notes : List ReadyNotification) : Prop :=
  ∀ note ∈ notes, ∃ found, core.active note.registration = some found ∧ note.owner = found.owner

theorem finishAll_spec {events : Core → Registration → Option UInt32}
    (hevents : ∀ core r found, core.active r = some found → ∃ mask, events core r = some mask)
    {registrations : List Registration} (hwf : Wf core.table) (hnodup : registrations.Nodup)
    (hactive : ∀ r ∈ registrations, ∃ found, core.active r = some found) :
    ∃ finished notes, finishAll events registrations core = some finished ∧
      Retired core finished registrations ∧ finished.ready = core.ready ++ notes ∧
      notes.map (·.registration) = registrations ∧ Notifies core notes := by
  induction registrations generalizing core with
  | nil =>
    refine ⟨core, [], rfl, ⟨hwf, ?_, fun _ => rfl, rfl, rfl, rfl, rfl⟩, by simp, rfl, ?_⟩
    · simp
    · intro note hnote
      cases hnote
  | cons r rest ih =>
    obtain ⟨hr, hrest⟩ := List.nodup_cons.mp hnodup
    obtain ⟨found, hfound⟩ := hactive r (.head _)
    obtain ⟨mask, hmask⟩ := hevents core r found hfound
    obtain ⟨middle, hfinish, hretired, hready⟩ := finish_spec hwf hfound mask 0
    have hmiddle : ∀ other ∈ rest, ∃ found, middle.active other = some found := by
      intro other hother
      rw [hretired.active, if_neg]
      · exact hactive other (.tail r hother)
      · intro hmem
        rw [List.mem_singleton] at hmem; exact hr (hmem ▸ hother)
    obtain ⟨finished, notes, hall, hretired', hready', hnotes, hnotifies⟩ :=
      ih hretired.wf hrest hmiddle
    refine ⟨finished, ⟨r, found.owner, mask, 0⟩ :: notes, ?_, hretired.append hretired', ?_, ?_, ?_⟩
    · simp [finishAll, hmask, hfinish, hall]
    · rw [hready', hready, List.append_assoc]; rfl
    · simp [hnotes]
    · intro note hnote
      obtain hhead | hnote := List.mem_cons.mp hnote
      · rw [hhead]; exact ⟨found, hfound, rfl⟩
      · obtain ⟨other, hother, howner⟩ := hnotifies note hnote
        rw [hretired.active] at hother
        split at hother
        · cases hother
        · exact ⟨other, hother, howner⟩

end Core

/-! ## Handles -/

inductive Direction where
  | read
  | write

def Direction.bit : Direction → UInt32
  | .read => readable
  | .write => writable

def Handle.get (handle : Handle) : Direction → Option Registration
  | .read => handle.read
  | .write => handle.write

def Core.handleAt (core : Core) (source : Nat) : Handle := (core.handles source).getD {}

/-- The registration waits for a direction of a source. -/
def Interested (core : Core) (r : Registration) (source : Nat) (d : Direction) : Prop :=
  ∃ found, core.active r = some found ∧ found.source.kind = kindReadiness ∧
    found.source.handle = source ∧ (found.source.interests &&& d.bit != 0) = true

/-- A poll key leads to the handle it was given to last, and those to come lead
nowhere yet. -/
structure Polled (core : Core) : Prop where
  leads : ∀ key source, core.pollKeys key = some source ↔
    ∃ handle, core.handles source = some handle ∧ handle.eventKey = key
  numbered : ∀ source handle, core.handles source = some handle →
    handle.eventKey ≤ core.nextPollKey

theorem Polled.of_eq (h : Polled core) (hhandles : core'.handles = core.handles)
    (hpollKeys : core'.pollKeys = core.pollKeys) (hnext : core.nextPollKey ≤ core'.nextPollKey) :
    Polled core' := by
  refine ⟨?_, ?_⟩
  · rw [hhandles, hpollKeys]; exact h.leads
  · intro source handle hhandle
    rw [hhandles] at hhandle
    exact le_trans (h.numbered source handle hhandle) hnext

variable {accepted : Bool} {next : Handle} {source : Nat} {d : Direction} {found : Active}
  {retired : List Registration} {inserted : Core} {owner : Nat}

theorem updateHandle_error {failure : Failure}
    (h : updateHandle core source next accepted = (.error failure, core')) :
    ∃ nextPollKey, core.nextPollKey ≤ nextPollKey ∧
      core' = { core with nextPollKey := nextPollKey } := by
  simp only [updateHandle, Core.pollKey] at h
  split at h
  · cases h
    exact ⟨_, le_refl _, rfl⟩
  · split at h
    · split at h
      · cases h
      · cases h
        exact ⟨_, le_refl _, rfl⟩
    · split at h
      · cases h
        exact ⟨_, le_refl _, rfl⟩
      · next numbered hnumbered =>
        split at hnumbered
        · cases hnumbered
          split at h
          · cases h
          · cases h
            exact ⟨_, le_succ _, rfl⟩
        · cases hnumbered

/-- The keys left after forgetting that of a handle lead to the other sources. -/
theorem Polled.forget (h : Polled core) (key other : Nat) :
    Reactor.forget core.pollKeys (core.handles source) key = some other ↔
      other ≠ source ∧ ∃ handle, core.handles other = some handle ∧ handle.eventKey = key := by
  have hleads := h.leads key other
  cases hprevious : core.handles source with
  | none =>
    rw [Reactor.forget, hleads]
    refine ⟨?_, fun hother => hother.2⟩
    intro hother
    refine ⟨?_, hother⟩
    intro hsame
    rw [hsame, hprevious] at hother
    obtain ⟨handle, hhandle, -⟩ := hother
    cases hhandle
  | some previous =>
    have hown := (h.leads previous.eventKey source).mpr ⟨previous, hprevious, rfl⟩
    rw [Reactor.forget, update_apply]
    split
    · next hkey =>
      refine ⟨by simp, ?_⟩
      rintro ⟨hne, hother⟩
      rw [hkey] at hleads hother
      have hsame := hleads.mpr hother
      rw [hown] at hsame; exact absurd (some.inj hsame).symm hne
    · next hkey =>
      rw [hleads]
      refine ⟨?_, fun hother => hother.2⟩
      intro hother
      refine ⟨?_, hother⟩
      intro hsame
      rw [hsame, hprevious] at hother
      obtain ⟨handle, hhandle, hevent⟩ := hother
      rw [← some.inj hhandle] at hevent; exact hkey hevent.symm

theorem Polled.renew (h : Polled core) (next : Handle) :
    Polled { core with
      pollKeys := update (Reactor.forget core.pollKeys (core.handles source))
        (core.nextPollKey + 1) (some source)
      handles := update core.handles source (some { next with eventKey := core.nextPollKey + 1 })
      nextPollKey := core.nextPollKey + 1 } := by
  refine ⟨?_, ?_⟩
  · intro key other
    simp only [update_apply]
    by_cases hkey : key = core.nextPollKey + 1
    · -- The key is above those of the other handles.
      have hother : ∀ handle, core.handles other = some handle → handle.eventKey ≠ key := by
        intro handle hhandle
        have hle := h.numbered other handle hhandle
        omega
      by_cases hsame : other = source
      · simp [hkey, hsame]
      · simp only [hkey, hsame, if_true, if_false, some.injEq]
        refine ⟨fun heq => absurd heq.symm hsame, ?_⟩
        rintro ⟨handle, hhandle, hevent⟩
        exact absurd (hevent.trans hkey.symm) (hother handle hhandle)
    · rw [if_neg hkey, h.forget]
      by_cases hsame : other = source
      · simpa [hsame] using fun heq => hkey heq.symm
      · simp [hsame]
  · intro other handle hhandle
    simp only [update_apply] at hhandle
    split at hhandle
    · rw [← some.inj hhandle]
    · exact le_succ_of_le (h.numbered other handle hhandle)

theorem updateHandle_ok (hpolled : Polled core)
    (h : updateHandle core source next accepted = (.ok (), core')) :
    (∃ pollKeys handles nextPollKey, core' = { core with pollKeys := pollKeys
                                                         handles := handles
                                                         nextPollKey := nextPollKey }) ∧
    (∀ other d, (core'.handleAt other).get d =
      if other = source then next.get d else (core.handleAt other).get d) ∧ Polled core' := by
  simp only [updateHandle, Core.pollKey] at h
  split at h
  · cases h
  · split at h
    · next hempty =>
      split at h
      · cases h
        refine ⟨⟨_, _, _, rfl⟩, ?_, ?_⟩
        · intro other d
          by_cases hsame : other = source
          · cases d <;> simp [Core.handleAt, Handle.get, hsame, hempty.1, hempty.2]
          · simp [Core.handleAt, hsame]
        · refine ⟨?_, ?_⟩
          · intro key other
            rw [hpolled.forget]
            by_cases hsame : other = source <;> simp [hsame]
          · intro other handle hhandle
            simp only [update_apply] at hhandle
            split at hhandle
            · cases hhandle
            · exact hpolled.numbered other handle hhandle
      · cases h
    · split at h
      · cases h
      · next numbered hnumbered =>
        split at hnumbered
        · cases hnumbered
          split at h
          · cases h
            refine ⟨⟨_, _, _, rfl⟩, ?_, ?_⟩
            · intro other d
              by_cases hsame : other = source
              · cases d <;> simp [Core.handleAt, Handle.get, hsame]
              · simp [Core.handleAt, hsame]
            · exact hpolled.renew next
          · cases h
        · cases hnumbered

/-! ## The invariant -/

/-- The slots are well formed; the timers are the active ones, each once, in
the order of the map; the directions of a handle hold exactly the registrations
that wait for them. -/
structure Sound (core : Core) : Prop where
  wf : Wf core.table
  timers : ∀ entry ∈ core.timers, ∃ found, core.active entry.registration = some found ∧
    found.source.kind = kindTimer ∧ found.source.deadlineNs = entry.deadline
  timed : ∀ r found, core.active r = some found → found.source.kind = kindTimer →
    ⟨found.source.deadlineNs, r⟩ ∈ core.timers
  timersOnce : (core.timers.map (·.registration)).Nodup
  sorted : core.timers.Pairwise Core.timerBefore
  handles : ∀ source d r, (core.handleAt source).get d = some r ↔ Interested core r source d
  asks : ∀ r found, core.active r = some found → found.source.kind = kindReadiness →
    ∃ d, Interested core r found.source.handle d
  polled : Polled core

theorem sound_new : Sound Core.new := by
  have hnone : ∀ r, Core.new.active r = none := by
    simp [Core.active, Core.new, lookup, Slots.empty]
  refine ⟨wf_empty, by simp [Core.new], ?_, by simp [Core.new], .nil, ?_, ?_, ?_⟩
  · intro r found hfound
    cases hfound
  · intro source d r
    cases d <;> simp [Core.handleAt, Core.new, Handle.get, Interested, lookup, Slots.empty,
      Core.active]
  · intro r found hfound
    cases hfound
  · refine ⟨by simp [Core.new], ?_⟩
    intro source handle hhandle
    cases hhandle

theorem Sound.waits (h : Sound core) {handle : Handle}
    (hhandle : core.handles source = some handle) :
    handle.get d = some registration ↔ Interested core registration source d := by
  rw [← h.handles, Core.handleAt, hhandle, getD_some]

theorem Sound.handle (h : Sound core) (hfound : core.active registration = some found)
    (hkind : found.source.kind = kindReadiness) :
    ∃ handle, core.handles found.source.handle = some handle := by
  obtain ⟨d, hd⟩ := h.asks registration found hfound hkind
  rw [← h.handles, Core.handleAt] at hd
  cases hhandle : core.handles found.source.handle with
  | none => cases d <;> simp [hhandle, Handle.get] at hd
  | some handle => exact ⟨handle, rfl⟩

/-- An active readiness registration is in the directions it asked for, and the
key of their handle leads to its source. -/
theorem Sound.indexed (h : Sound core) (r : Registration) (found : Active)
    (hfound : core.active r = some found) (hkind : found.source.kind = kindReadiness) :
    ∃ handle, core.handles found.source.handle = some handle ∧
      core.pollKeys handle.eventKey = some found.source.handle ∧ (∃ d, handle.get d = some r) ∧
      ∀ d, handle.get d = some r ↔ (found.source.interests &&& d.bit != 0) = true := by
  obtain ⟨handle, hhandle⟩ := h.handle hfound hkind
  have hget : ∀ d, handle.get d = some r ↔ (found.source.interests &&& d.bit != 0) = true := by
    intro d
    rw [h.waits hhandle]
    refine ⟨?_, fun hbit => ⟨found, hfound, hkind, rfl, hbit⟩⟩
    rintro ⟨other, hother, -, -, hbit⟩
    rw [hfound] at hother
    rw [some.inj hother]; exact hbit
  obtain ⟨d, hd⟩ := h.asks r found hfound hkind
  exact ⟨handle, hhandle, (h.polled.leads _ _).mpr ⟨handle, hhandle, rfl⟩,
    ⟨d, (h.waits hhandle).mpr hd⟩, hget⟩

theorem Sound.renumber (h : Sound core) {nextPollKey : Nat} (hle : core.nextPollKey ≤ nextPollKey) :
    Sound { core with nextPollKey := nextPollKey } :=
  ⟨h.wf, h.timers, h.timed, h.timersOnce, h.sorted, h.handles, h.asks, h.polled.of_eq rfl rfl hle⟩

theorem Sound.setReady (h : Sound core) (ready : List ReadyNotification) :
    Sound { core with ready := ready } :=
  ⟨h.wf, h.timers, h.timed, h.timersOnce, h.sorted, h.handles, h.asks,
    h.polled.of_eq rfl rfl (le_refl _)⟩

/-- Retiring registrations is sound where the timers and the handles drop them
and keep the others. -/
theorem Sound.retire (h : Sound core) (retired : List Registration) (hwf : Wf core'.table)
    (hactive : ∀ r, core'.active r = if r ∈ retired then none else core.active r)
    (htimers : core'.timers.Sublist core.timers)
    (hkept : ∀ entry ∈ core.timers, entry ∈ core'.timers ↔ entry.registration ∉ retired)
    (hhandles : ∀ source d r, (core'.handleAt source).get d = some r ↔
      (core.handleAt source).get d = some r ∧ r ∉ retired)
    (hpolled : Polled core') : Sound core' := by
  have hwaits : ∀ r source d, Interested core' r source d ↔
      Interested core r source d ∧ r ∉ retired := by
    intro r source d
    unfold Interested
    rw [hactive]
    by_cases hmem : r ∈ retired <;> simp [hmem]
  refine ⟨hwf, ?_, ?_, ?_, h.sorted.sublist htimers, ?_, ?_, hpolled⟩
  · intro entry hentry
    have hold := htimers.subset hentry
    rw [hactive, if_neg ((hkept entry hold).mp hentry)]
    exact h.timers entry hold
  · intro r found hfound hkind
    rw [hactive] at hfound
    split at hfound
    · cases hfound
    · next hmem => exact (hkept _ (h.timed r found hfound hkind)).mpr hmem
  · exact h.timersOnce.sublist (htimers.map _)
  · intro source d r
    rw [hhandles, hwaits, h.handles]
  · intro r found hfound hkind
    rw [hactive] at hfound
    split at hfound
    · cases hfound
    · next hmem =>
      obtain ⟨d, hd⟩ := h.asks r found hfound hkind
      exact ⟨d, (hwaits _ _ _).mpr ⟨hd, hmem⟩⟩

/-- An operation first changes the timers and the handles, then retires. -/
theorem Sound.retireAfter (h : Sound core) (middle : Core) (htable : middle.table = core.table)
    (htimers : middle.timers.Sublist core.timers)
    (hkept : ∀ entry ∈ core.timers, entry ∈ middle.timers ↔ entry.registration ∉ retired)
    (hhandles : ∀ source d r, (middle.handleAt source).get d = some r ↔
      (core.handleAt source).get d = some r ∧ r ∉ retired) (hpolled : Polled middle)
    (hretired : Core.Retired middle core' retired) : Sound core' := by
  apply h.retire retired hretired.wf
  · intro r
    rw [hretired.active, Core.active, Core.active, htable]
  · rw [hretired.timers]; exact htimers
  · rw [hretired.timers]; exact hkept
  · intro source d r
    rw [← hhandles, Core.handleAt, Core.handleAt, hretired.handles]
  · exact hpolled.of_eq hretired.handles hretired.pollKeys hretired.nextPollKey.ge

/-- Replacing a handle drops registrations that wait at no other source. -/
theorem Sound.replaceHandle (h : Sound core) {handle : Handle} {updated : Core}
    (hhandle : core.handles source = some handle)
    (hupdate : updateHandle core source next accepted = (.ok (), updated))
    (hnext : ∀ d r, next.get d = some r ↔ handle.get d = some r ∧ r ∉ retired)
    (hretired : ∀ r ∈ retired, ∀ other d, Interested core r other d → other = source) (other : Nat)
    (d : Direction) (r : Registration) :
    (updated.handleAt other).get d = some r ↔
      (core.handleAt other).get d = some r ∧ r ∉ retired := by
  rw [(updateHandle_ok h.polled hupdate).2.1]
  split
  · next hsame => rw [hnext, hsame, Core.handleAt, hhandle, getD_some]
  · next hother =>
    refine ⟨?_, fun hr => hr.1⟩
    intro hr
    refine ⟨hr, ?_⟩
    intro hmem
    exact hother (hretired r hmem other d ((h.handles other d r).mp hr))

/-- What an operation ends: it queues notifications of active registrations to
their owners, retires these and the cancelled ones, and no slot goes back to an
earlier generation. -/
structure Ends (core core' : Core) (notes : List ReadyNotification)
    (cancelled : List Registration) : Prop where
  ready : core'.ready = core.ready ++ notes
  active : ∀ r, core'.active r =
    if r ∈ notes.map (·.registration) ++ cancelled then none else core.active r
  generation : ∀ key, generationOf core.table key ≤ generationOf core'.table key
  notifies : Core.Notifies core notes
  live : ∀ r ∈ cancelled, ∃ found, core.active r = some found
  once : (notes.map (·.registration) ++ cancelled).Nodup

/-- An operation that changes nothing that is registered. -/
abbrev Keeps (core core' : Core) : Prop := Ends core core' [] []

theorem Keeps.of_eq (hactive : ∀ r, core'.active r = core.active r)
    (hready : core'.ready = core.ready)
    (hgeneration : ∀ key, generationOf core.table key ≤ generationOf core'.table key) :
    Keeps core core' := by
  refine ⟨by simp [hready], by simpa using hactive, hgeneration, ?_, by simp, by simp⟩
  intro note hnote
  cases hnote

theorem Keeps.refl (core : Core) : Keeps core core :=
  Keeps.of_eq (fun _ => rfl) rfl (fun _ => le_refl _)

/-- An operation that ends these registrations, each by one notification. -/
def Delivers (core core' : Core) (these : Registration → Prop) : Prop :=
  ∃ notes, Ends core core' notes [] ∧ ∀ r, r ∈ notes.map (·.registration) ↔ these r

theorem Keeps.delivers (h : Keeps core core') {these : Registration → Prop}
    (hnone : ∀ r, ¬these r) : Delivers core core' these :=
  ⟨[], h, fun r => by simp [hnone r]⟩

theorem Delivers.of_iff {these those : Registration → Prop} (h : Delivers core core' these)
    (hiff : ∀ r, these r ↔ those r) : Delivers core core' those := by
  obtain ⟨notes, hends, hnotes⟩ := h
  exact ⟨notes, hends, fun r => (hnotes r).trans (hiff r)⟩

/-- A failed change of interest leaves a sound core, with nothing ended. -/
theorem updateHandle_failed (h : Sound core) {failure : Failure}
    (hupdate : updateHandle core source next accepted = (.error failure, core')) :
    Sound core' ∧ Keeps core core' := by
  obtain ⟨nextPollKey, hle, rfl⟩ := updateHandle_error hupdate
  exact ⟨h.renumber hle, Keeps.of_eq (fun _ => rfl) rfl (fun _ => le_refl _)⟩

/-! ## Cancelling -/

theorem get_without (handle : Handle) (d : Direction) (r : Registration) :
    (handle.without registration).get d = some r ↔
      handle.get d = some r ∧ r ≠ registration := by
  cases d with
  | read =>
    by_cases hsame : handle.read = some registration
    · simp [Handle.without, Handle.get, hsame]; exact fun heq => heq.symm
    · simp only [Handle.without, if_neg hsame]
      exact ⟨fun hr => ⟨hr, fun heq => hsame (heq ▸ hr)⟩, fun hr => hr.1⟩
  | write =>
    by_cases hsame : handle.write = some registration
    · simp [Handle.without, Handle.get, hsame]; exact fun heq => heq.symm
    · simp only [Handle.without, if_neg hsame]
      exact ⟨fun hr => ⟨hr, fun heq => hsame (heq ▸ hr)⟩, fun hr => hr.1⟩

theorem Core.Retired.ends {middle removed : Core}
    (h : Core.Retired middle removed [registration]) (htable : middle.table = core.table)
    (hready : removed.ready = core.ready) {found : Active}
    (hfound : core.active registration = some found) :
    Ends core removed [] [registration] := by
  refine ⟨by simp [hready], ?_, ?_, ?_, ?_, by simp⟩
  · intro r
    rw [h.active, Core.active, htable]; rfl
  · intro key
    rw [h.generation, htable]
  · intro note hnote
    cases hnote
  · intro r hr
    rw [List.mem_singleton] at hr; exact ⟨found, hr ▸ hfound⟩

section
variable (h : Sound core) (hfound : core.active registration = some found)
include h hfound

/-- A registration that is in no handle is in none after it is retired. -/
theorem Sound.handles_other (hkind : found.source.kind ≠ kindReadiness) (source : Nat)
    (d : Direction) (r : Registration) :
    (core.handleAt source).get d = some r ↔
      (core.handleAt source).get d = some r ∧ r ∉ [registration] := by
  refine ⟨?_, fun hr => hr.1⟩
  intro hr
  refine ⟨hr, ?_⟩
  intro hmem
  rw [List.mem_singleton] at hmem
  obtain ⟨other, hother, hready, -⟩ := (h.handles source d r).mp hr
  rw [hmem, hfound] at hother; exact hkind (some.inj hother ▸ hready)

theorem Sound.timers_other (hkind : found.source.kind ≠ kindTimer) :
    ∀ entry ∈ core.timers, entry ∈ core.timers ↔ entry.registration ∉ [registration] := by
  intro entry hentry
  refine ⟨?_, fun _ => hentry⟩
  intro _ hmem
  rw [List.mem_singleton] at hmem
  obtain ⟨other, hother, htimer, -⟩ := h.timers entry hentry
  rw [hmem, hfound] at hother; exact hkind (some.inj hother ▸ htimer)

theorem Sound.removeTimer_kept :
    ∀ entry ∈ core.timers,
      entry ∈ (core.removeTimer found.source.deadlineNs registration.key).timers ↔
        entry.registration ∉ [registration] := by
  intro entry hentry
  obtain ⟨timed, htimed, -, hdeadline⟩ := h.timers entry hentry
  rw [Core.removeTimer, List.mem_filter, List.mem_singleton]
  refine ⟨?_, ?_⟩
  · rintro ⟨-, hother⟩ hsame
    rw [hsame, hfound] at htimed
    simp [Core.isEntry, hsame, ← hdeadline, ← some.inj htimed] at hother
  · intro hne
    refine ⟨hentry, ?_⟩
    have hkey : entry.registration.key ≠ registration.key :=
      fun hkey => hne (Core.active_key hfound htimed hkey)
    simp [Core.isEntry, hkey]

end

/-- The result of a cancellation, and what it ends where it succeeds. -/
def Cancels (core core' : Core) (registration : Registration) (result : Except Failure Bool) :
    Prop :=
  match result with
  | .ok true => Ends core core' [] [registration]
  | .ok false => core.active registration = none ∧ Keeps core core'
  | .error _ => Keeps core core'

theorem cancel_spec (h : Sound core) (registration : Registration) (notified accepted : Bool) :
    ∃ result core', cancel core registration notified accepted = some (result, core') ∧
      Sound core' ∧ Cancels core core' registration result := by
  unfold cancel
  cases hfound : core.active registration with
  | none => exact ⟨_, _, rfl, h, hfound, Keeps.refl core⟩
  | some found =>
    cases notified with
    | false => exact ⟨_, _, rfl, h, Keeps.refl core⟩
    | true =>
      by_cases hkind : found.source.kind = kindReadiness
      · obtain ⟨handle, hhandle⟩ := h.handle hfound hkind
        cases hupdate : updateHandle core found.source.handle (handle.without registration)
            accepted with
        | mk result updated =>
          cases result with
          | error failure =>
            refine ⟨.error failure, updated, ?_, updateHandle_failed h hupdate⟩
            simp [hkind, hhandle, hupdate]
          | ok =>
            obtain ⟨⟨pollKeys, handles, nextPollKey, hupdated⟩, -, hpolled⟩ :=
              updateHandle_ok h.polled hupdate
            have hactive : updated.active registration = some found := by
              rw [hupdated]; exact hfound
            obtain ⟨removed, hremove, hretired, hready⟩ :=
              Core.remove_spec updated (hupdated ▸ h.wf) hactive
            refine ⟨.ok true, removed, ?_, ?_, ?_⟩
            · simp [hkind, hhandle, hupdate, hremove]
            · apply h.retireAfter updated (by rw [hupdated]) (by rw [hupdated]) _ _ hpolled hretired
              · rw [hupdated]
                apply h.timers_other hfound
                rw [hkind]; decide
              · apply h.replaceHandle hhandle hupdate
                · intro d r
                  rw [get_without, List.mem_singleton]
                · intro r hr other d hinterested
                  rw [List.mem_singleton] at hr
                  obtain ⟨waiting, hwaiting, -, hsource, -⟩ := hinterested
                  rw [hr, hfound] at hwaiting
                  rw [← hsource, ← some.inj hwaiting]
            · exact hretired.ends (by rw [hupdated]) (hready.trans (by rw [hupdated])) hfound
      · by_cases htimer : found.source.kind = kindTimer
        · obtain ⟨removed, hremove, hretired, hready⟩ := Core.remove_spec
            (core.removeTimer found.source.deadlineNs registration.key) h.wf hfound
          refine ⟨.ok true, removed, ?_, ?_, ?_⟩
          · rw [htimer] at hkind; simp [hkind, htimer, hremove]
          · exact h.retireAfter (core.removeTimer found.source.deadlineNs registration.key) rfl
              List.filter_sublist (h.removeTimer_kept hfound) (h.handles_other hfound hkind)
              (h.polled.of_eq rfl rfl (le_refl _)) hretired
          · exact hretired.ends rfl hready hfound
        · obtain ⟨removed, hremove, hretired, hready⟩ := Core.remove_spec core h.wf hfound
          refine ⟨.ok true, removed, ?_, ?_, hretired.ends rfl hready hfound⟩
          · simp [hkind, htimer, hremove]
          · exact h.retireAfter core rfl (List.Sublist.refl _) (h.timers_other hfound htimer)
              (h.handles_other hfound hkind) h.polled hretired

/-! ## Finishing -/

/-- Finishing what is active after the timers and the handles dropped it. -/
theorem Sound.finishAll (h : Sound core) (middle : Core)
    {events : Core → Registration → Option UInt32}
    (hevents : ∀ core r found, core.active r = some found → ∃ mask, events core r = some mask)
    (htable : middle.table = core.table) (hready : middle.ready = core.ready)
    (htimers : middle.timers.Sublist core.timers)
    (hkept : ∀ entry ∈ core.timers, entry ∈ middle.timers ↔ entry.registration ∉ retired)
    (hhandles : ∀ source d r, (middle.handleAt source).get d = some r ↔
      (core.handleAt source).get d = some r ∧ r ∉ retired) (hpolled : Polled middle)
    (hnodup : retired.Nodup) (hlive : ∀ r ∈ retired, ∃ found, core.active r = some found) :
    ∃ finished, middle.finishAll events retired = some finished ∧ Sound finished ∧
      Delivers core finished (· ∈ retired) := by
  have hactive : ∀ r, middle.active r = core.active r := by
    intro r
    rw [Core.active, Core.active, htable]
  obtain ⟨finished, notes, hfinish, hretired, hnotes, hmap, hnotifies⟩ :=
    Core.finishAll_spec hevents (htable ▸ h.wf) hnodup
      (fun r hr => (hactive r).symm ▸ hlive r hr)
  refine ⟨finished, hfinish,
    h.retireAfter middle htable htimers hkept hhandles hpolled hretired, notes,
    ⟨?_, ?_, ?_, ?_, ?_, ?_⟩, by simp [hmap]⟩
  · rw [hnotes, hready]
  · intro r
    rw [hretired.active, hactive, List.append_nil, hmap]
  · intro key
    rw [hretired.generation, htable]
  · intro note hnote
    rw [← hactive]; exact hnotifies note hnote
  · intro r hr
    cases hr
  · rw [List.append_nil, hmap]; exact hnodup

/-- The events of a completion are valid and its registration waits for one. -/
def Completable (core : Core) (registration : Registration) (events : UInt32) : Prop :=
  (events ≠ 0 ∧ events &&& ~~~(readable ||| writable ||| completion ||| error) = 0) ∧
    ∃ found, core.active registration = some found ∧ found.source.kind = kindCompletion

/-- A completion is delivered exactly where it can be, also where waking the
waiter then fails, and only such a one is answered with success. -/
def Completes (core core' : Core) (registration : Registration) (events : UInt32)
    (result : Except Failure Bool) : Prop :=
  Delivers core core' (fun r => r = registration ∧ Completable core registration events) ∧
    (result = .ok true → Completable core registration events)

theorem notifyCompletion_spec (h : Sound core) (registration : Registration) (events : UInt32)
    (osError : Int) (notified : Bool) :
    ∃ result core',
      notifyCompletion core registration events osError notified = some (result, core') ∧
      Sound core' ∧ Completes core core' registration events result := by
  have hkeeps : ¬Completable core registration events → Delivers core core
      (fun r => r = registration ∧ Completable core registration events) :=
    fun hnot => (Keeps.refl core).delivers (fun r hr => hnot hr.2)
  unfold notifyCompletion
  split
  · next hevents =>
    refine ⟨_, _, rfl, h, hkeeps ?_, by simp⟩
    rintro ⟨⟨hsome, honly⟩, -⟩
    exact hevents.elim hsome (fun hother => hother honly)
  · next hevents =>
    rw [not_or, not_not] at hevents
    cases hfound : core.active registration with
    | none =>
      refine ⟨_, _, rfl, h, hkeeps ?_, by simp⟩
      simp [Completable, hfound]
    | some found =>
      by_cases hkind : found.source.kind = kindCompletion
      · have hcompletable : Completable core registration events := ⟨hevents, found, hfound, hkind⟩
        obtain ⟨finished, hfinish, hretired, hready⟩ := Core.finish_spec h.wf hfound
          (events ||| if osError ≠ 0 then error else 0) osError
        refine ⟨if notified then .ok true else .error .native, finished, ?_, ?_,
          ⟨_, ⟨hready, ?_, ?_, ?_, ?_, ?_⟩, by simp [hcompletable]⟩, fun _ => hcompletable⟩
        · simpa [hkind] using hfinish
        · apply h.retireAfter core rfl (List.Sublist.refl _) _ _ h.polled hretired
          · apply h.timers_other hfound
            rw [hkind]; decide
          · apply h.handles_other hfound
            rw [hkind]; decide
        · intro r
          rw [hretired.active]; rfl
        · intro key
          rw [hretired.generation]
        · intro note hnote
          rw [List.mem_singleton] at hnote
          rw [hnote]; exact ⟨found, hfound, rfl⟩
        · intro r hr
          cases hr
        · simp
      · refine ⟨.error .notCompletion, core, by simp [hkind], h, hkeeps ?_, by simp⟩
        simp [Completable, hfound, hkind]

theorem mem_due {timers : List Timer} (h : timers.Pairwise Core.timerBefore) {now : Nat}
    {entry : Timer} : entry ∈ timers.takeWhile (fun entry => decide (entry.deadline ≤ now)) ↔
      entry ∈ timers ∧ entry.deadline ≤ now := by
  induction h with
  | nil => simp
  | @cons first rest hfirst _ ih =>
    by_cases hdue : first.deadline ≤ now
    · rw [List.takeWhile_cons_of_pos (by simpa using hdue), List.mem_cons, List.mem_cons, ih]
      refine ⟨?_, fun hentry => hentry.1.imp_right fun hrest => ⟨hrest, hentry.2⟩⟩
      rintro (rfl | hentry)
      · exact ⟨.inl rfl, hdue⟩
      · exact ⟨.inr hentry.1, hentry.2⟩
    · rw [List.takeWhile_cons_of_neg (by simpa using hdue), List.mem_cons]
      refine ⟨by simp, ?_⟩
      rintro ⟨rfl | hentry, hle⟩
      · exact absurd hle hdue
      · obtain hlt | ⟨heq, -⟩ := hfirst entry hentry <;> omega

/-- An active timer whose deadline has come. -/
def Due (core : Core) (now : Nat) (r : Registration) : Prop :=
  ∃ found, core.active r = some found ∧ found.source.kind = kindTimer ∧
    found.source.deadlineNs ≤ now

theorem fireTimers_spec (h : Sound core) (now : Nat) :
    ∃ core', core.fireTimers now = some core' ∧ Sound core' ∧
      Delivers core core' (Due core now) := by
  have hsplit : core.timers.takeWhile (fun entry => decide (entry.deadline ≤ now)) ++
      core.timers.dropWhile (fun entry => decide (entry.deadline ≤ now)) = core.timers :=
    List.takeWhile_append_dropWhile
  have honce := h.timersOnce
  rw [← hsplit, List.map_append, List.nodup_append] at honce
  obtain ⟨hdue, -, hdisjoint⟩ := honce
  have hfire : ∃ core', core.fireTimers now = some core' ∧ Sound core' ∧
      Delivers core core' (· ∈ (core.timers.takeWhile
        fun entry => decide (entry.deadline ≤ now)).map (·.registration)) := by
    refine h.finishAll { core with timers := _ } ?_ rfl rfl (List.dropWhile_sublist _) ?_ ?_
      (h.polled.of_eq rfl rfl (le_refl _)) hdue ?_
    · intro core r found _; exact ⟨_, rfl⟩
    · intro entry hentry
      refine ⟨?_, ?_⟩
      · intro hlater hmem
        exact hdisjoint _ hmem _ (List.mem_map_of_mem hlater) rfl
      · intro hmem
        rw [← hsplit, List.mem_append] at hentry
        exact hentry.resolve_left (fun hdue => hmem (List.mem_map_of_mem hdue))
    · intro source d r
      refine ⟨?_, fun hr => hr.1⟩
      intro hr
      refine ⟨hr, ?_⟩
      intro hmem
      obtain ⟨entry, hentry, hentryr⟩ := List.mem_map.mp hmem
      obtain ⟨found, hfound, hkind, -⟩ :=
        h.timers entry ((List.takeWhile_sublist _).subset hentry)
      obtain ⟨other, hother, hready, -⟩ := (h.handles source d r).mp hr
      rw [hentryr, hother] at hfound
      rw [some.inj hfound, hkind] at hready
      revert hready
      decide
    · intro r hmem
      obtain ⟨entry, hentry, hentryr⟩ := List.mem_map.mp hmem
      obtain ⟨found, hfound, -⟩ := h.timers entry ((List.takeWhile_sublist _).subset hentry)
      exact ⟨found, hentryr ▸ hfound⟩
  obtain ⟨core', hcore, hsound, hdelivers⟩ := hfire
  refine ⟨core', hcore, hsound, hdelivers.of_iff ?_⟩
  intro r
  rw [List.mem_map]
  refine ⟨?_, ?_⟩
  · rintro ⟨entry, hentry, rfl⟩
    obtain ⟨hmem, hle⟩ := (mem_due h.sorted).mp hentry
    obtain ⟨found, hfound, hkind, hdeadline⟩ := h.timers entry hmem
    exact ⟨found, hfound, hkind, hdeadline ▸ hle⟩
  · rintro ⟨found, hfound, hkind, hle⟩
    exact ⟨_, (mem_due h.sorted).mpr ⟨h.timed r found hfound hkind, hle⟩, rfl⟩

theorem mem_completedOnce {read write : Option Registration} {r : Registration} :
    r ∈ completedOnce read write ↔ read = some r ∨ write = some r := by
  unfold completedOnce
  split
  · next hsame => simp [hsame]
  · simp

theorem nodup_completedOnce (read write : Option Registration) :
    (completedOnce read write).Nodup := by
  unfold completedOnce
  split
  · cases read <;> simp
  · next hsame =>
    cases read with
    | none => cases write <;> simp
    | some first =>
      cases write with
      | none => simp
      | some second =>
        simp only [toList_some, List.singleton_append, List.nodup_cons, List.mem_singleton]
        refine ⟨?_, by simp⟩
        intro heq; exact hsame (by rw [heq])

theorem Sound.interested_source (h : Sound core) {other : Nat} {d' : Direction} {r : Registration}
    (hr : (core.handleAt source).get d = some r) (hother : Interested core r other d') :
    other = source := by
  obtain ⟨found, hfound, -, hsource, -⟩ := (h.handles source d r).mp hr
  obtain ⟨same, hsame, -, hothersource, -⟩ := hother
  rw [hfound] at hsame
  rw [← hothersource, ← some.inj hsame, hsource]

/-- A handle gives up registrations: the native interest first, and where that
succeeds the registrations are finished. -/
theorem Sound.giveUp (h : Sound core) {handle : Handle} {updated : Core}
    (retired : List Registration) (events : Core → Registration → Option UInt32)
    (hevents : ∀ core r found, core.active r = some found → ∃ mask, events core r = some mask)
    (hhandle : core.handles source = some handle)
    (hupdate : updateHandle core source next accepted = (.ok (), updated))
    (hnext : ∀ d r, next.get d = some r ↔ handle.get d = some r ∧ r ∉ retired)
    (hretired : ∀ r ∈ retired, ∃ d, handle.get d = some r) (hnodup : retired.Nodup) :
    ∃ finished, updated.finishAll events retired = some finished ∧ Sound finished ∧
      Delivers core finished (· ∈ retired) := by
  have hat : core.handleAt source = handle := by rw [Core.handleAt, hhandle, getD_some]
  have hwaits : ∀ r ∈ retired, ∃ d, Interested core r source d := by
    intro r hr
    obtain ⟨d, hd⟩ := hretired r hr
    exact ⟨d, (h.waits hhandle).mp hd⟩
  obtain ⟨⟨pollKeys, handles, nextPollKey, hupdated⟩, -, hpolled⟩ :=
    updateHandle_ok h.polled hupdate
  refine h.finishAll updated hevents (by rw [hupdated]) (by rw [hupdated]) (by rw [hupdated]) ?_
    (h.replaceHandle hhandle hupdate hnext ?_) hpolled hnodup ?_
  · intro entry hentry
    rw [hupdated]
    refine ⟨?_, fun _ => hentry⟩
    intro _ hmem
    obtain ⟨d, found, hfound, hkind, -⟩ := hwaits _ hmem
    obtain ⟨timed, htimed, htimer, -⟩ := h.timers entry hentry
    rw [hfound] at htimed
    rw [← some.inj htimed, hkind] at htimer
    revert htimer
    decide
  · intro r hr other d hother
    obtain ⟨d', hd'⟩ := hretired r hr
    exact h.interested_source (hat ▸ hd') hother
  · intro r hr
    obtain ⟨d, found, hfound, -⟩ := hwaits r hr
    exact ⟨found, hfound⟩

/-- The result of a revocation or a report, and what it ends where it succeeds. -/
def Reports (core core' : Core) (these : Registration → Prop) (result : Except Failure Unit) :
    Prop :=
  match result with
  | .ok _ => Delivers core core' these
  | .error _ => Keeps core core'

theorem revokeReadiness_spec (h : Sound core) (source : Nat) (notified accepted : Bool) :
    ∃ result core', revokeReadiness core source notified accepted = some (result, core') ∧
      Sound core' ∧ Reports core core' (fun r => ∃ d, Interested core r source d) result := by
  unfold revokeReadiness
  cases hhandle : core.handles source with
  | none =>
    refine ⟨_, _, rfl, h, (Keeps.refl core).delivers ?_⟩
    rintro r ⟨d, hd⟩
    rw [← h.handles, Core.handleAt, hhandle] at hd
    cases d <;> cases hd
  | some handle =>
    cases notified with
    | false => exact ⟨_, _, rfl, h, Keeps.refl core⟩
    | true =>
      cases hupdate : updateHandle core source {} accepted with
      | mk result updated =>
        cases result with
        | error failure =>
          exact ⟨.error failure, updated, rfl, updateHandle_failed h hupdate⟩
        | ok =>
          have hnext : ∀ d r, Handle.get {} d = some r ↔
              handle.get d = some r ∧ r ∉ completedOnce handle.read handle.write := by
            intro d r
            rw [mem_completedOnce]
            cases d <;> simp  <;> tauto
          have hheld : ∀ r ∈ completedOnce handle.read handle.write,
              ∃ d, handle.get d = some r := by
            intro r hr
            exact (mem_completedOnce.mp hr).elim (fun hr => ⟨.read, hr⟩) (fun hr => ⟨.write, hr⟩)
          obtain ⟨finished, hfinish, hsound, hdelivers⟩ := h.giveUp
            (completedOnce handle.read handle.write) (fun _ _ => some error)
            (fun _ _ _ _ => ⟨_, rfl⟩) hhandle hupdate hnext hheld (nodup_completedOnce _ _)
          refine ⟨.ok (), finished, by simp [hfinish], hsound, hdelivers.of_iff ?_⟩
          intro r
          refine ⟨?_, ?_⟩
          · intro hr
            obtain ⟨d, hd⟩ := hheld r hr
            exact ⟨d, (h.waits hhandle).mp hd⟩
          · rintro ⟨d, hd⟩
            rw [mem_completedOnce]
            cases d with
            | read => exact .inl ((h.waits hhandle).mpr hd)
            | write => exact .inr ((h.waits hhandle).mpr hd)

/-- A report takes exactly the completed registrations out of a handle. -/
theorem get_left (handle : Handle) (events : UInt32) (d : Direction) (r : Registration) :
    (handle.left events).get d = some r ↔
      handle.get d = some r ∧
        r ∉ completedOnce (handle.taken events).1 (handle.taken events).2 := by
  rw [mem_completedOnce]
  simp only [Handle.left, Handle.taken]
  cases (events &&& (readable ||| error) != 0) <;> cases (events &&& (writable ||| error) != 0) <;>
    cases d <;> cases hread : handle.read <;> cases hwrite : handle.write <;>
    simp [Handle.get, Handle.without] <;> grind

theorem mem_taken {handle : Handle} {events : UInt32} {r : Registration} :
    r ∈ completedOnce (handle.taken events).1 (handle.taken events).2 ↔
      ∃ d : Direction, handle.get d = some r ∧ (events &&& (d.bit ||| error) != 0) = true := by
  simp only [mem_completedOnce, Handle.taken]
  refine ⟨?_, ?_⟩
  · rintro (hr | hr)
    · split at hr
      · next hbit => exact ⟨.read, hr, hbit⟩
      · cases hr
    · split at hr
      · next hbit => exact ⟨.write, hr, hbit⟩
      · cases hr
  · rintro ⟨d, hr, hbit⟩
    cases d with
    | read => exact .inl ((if_pos hbit).trans hr)
    | write => exact .inr ((if_pos hbit).trans hr)

/-- A report under the current key of a handle covers an interest of the
registration in its source. -/
def Covered (core : Core) (event : Event) (r : Registration) : Prop :=
  ∃ source handle d, core.handles source = some handle ∧ handle.eventKey = event.key ∧
    Interested core r source d ∧ (reported event &&& (d.bit ||| error) != 0) = true

theorem readiness_spec (h : Sound core) (event : Event) (accepted : Bool) :
    ∃ result core', readiness core event accepted = some (result, core') ∧
      Sound core' ∧ Reports core core' (Covered core event) result := by
  unfold readiness
  cases hkey : core.pollKeys event.key with
  | none =>
    refine ⟨_, _, rfl, h, (Keeps.refl core).delivers ?_⟩
    rintro r ⟨source, handle, d, hhandle, hevent, -⟩
    have hleads := (h.polled.leads event.key source).mpr ⟨handle, hhandle, hevent⟩
    rw [hkey] at hleads
    cases hleads
  | some source =>
    obtain ⟨handle, hhandle, hevent⟩ := (h.polled.leads event.key source).mp hkey
    simp only [hhandle]
    cases hupdate : updateHandle core source (handle.left (reported event)) accepted with
    | mk result updated =>
      cases result with
      | error failure => exact ⟨.error failure, updated, rfl, updateHandle_failed h hupdate⟩
      | ok =>
        have hheld : ∀ r ∈ completedOnce (handle.taken (reported event)).1
            (handle.taken (reported event)).2, ∃ d, handle.get d = some r := by
          intro r hr
          obtain ⟨d, hd, -⟩ := mem_taken.mp hr
          exact ⟨d, hd⟩
        obtain ⟨finished, hfinish, hsound, hdelivers⟩ := h.giveUp _
          (fun core registration => (core.active registration).map fun active =>
            reported event &&& (active.source.interests ||| error))
          (fun _ _ _ hfound => ⟨_, map_eq_some_iff.mpr ⟨_, hfound, rfl⟩⟩) hhandle hupdate
          (get_left handle (reported event)) hheld (nodup_completedOnce _ _)
        refine ⟨.ok (), finished, by simp [hfinish], hsound, hdelivers.of_iff ?_⟩
        intro r
        rw [mem_taken]
        refine ⟨?_, ?_⟩
        · rintro ⟨d, hd, hbit⟩
          exact ⟨source, handle, d, hhandle, hevent, (h.waits hhandle).mp hd, hbit⟩
        · rintro ⟨other, handle', d, hhandle', hevent', hd, hbit⟩
          -- The key leads to one source.
          have hother := (h.polled.leads event.key other).mpr ⟨handle', hhandle', hevent'⟩
          rw [hkey] at hother
          rw [← some.inj hother] at hd; exact ⟨d, (h.waits hhandle).mpr hd, hbit⟩

/-! ## Registering -/

/-- What a registration that succeeds issues: a pair never given out before,
which alone becomes active, for what was asked. -/
structure Issues (core core' : Core) (registration : Registration) (source : WaitSource)
    (owner : Nat) : Prop where
  ready : core'.ready = core.ready
  active : ∀ r, core'.active r =
    if r = registration then some ⟨source, owner⟩ else core.active r
  fresh : registration.generation = generationOf core.table registration.key + 1
  generation : ∀ key, generationOf core'.table key =
    if key = registration.key then registration.generation else generationOf core.table key

theorem and_or_distrib (a b c : UInt32) : a &&& (b ||| c) = a &&& b ||| a &&& c := by
  apply UInt32.toBitVec_inj.mp
  exact BitVec.and_or_distrib_left

theorem asks_direction {interests : UInt32} (hsome : interests ≠ 0)
    (honly : interests &&& ~~~(readable ||| writable) = 0) :
    ∃ d : Direction, (interests &&& d.bit != 0) = true := by
  by_contra hnone
  have hbits : ∀ d : Direction, interests &&& d.bit = 0 := by
    intro d
    by_contra hd
    exact hnone ⟨d, by simpa using hd⟩
  apply hsome
  have hread : interests &&& readable = 0 := hbits .read
  have hwrite : interests &&& writable = 0 := hbits .write
  calc interests = interests &&& (~~~(readable ||| writable) ||| (readable ||| writable)) := by
        rw [UInt32.not_or_self, UInt32.and_neg_one]
    _ = 0 := by
        rw [and_or_distrib, and_or_distrib, honly, hread, hwrite]; rfl

theorem Sound.issue (h : Sound core) (source : WaitSource) (owner : Nat) (hwf : Wf core'.table)
    (hnew : core.active registration = none)
    (hactive : ∀ r, core'.active r =
      if r = registration then some ⟨source, owner⟩ else core.active r)
    (htimers : ∀ entry, entry ∈ core'.timers ↔ entry ∈ core.timers ∨
      entry = ⟨source.deadlineNs, registration⟩ ∧ source.kind = kindTimer)
    (honce : (core'.timers.map (·.registration)).Nodup)
    (hsorted : core'.timers.Pairwise Core.timerBefore)
    (hhandles : ∀ other d r, (core'.handleAt other).get d = some r ↔
      (core.handleAt other).get d = some r ∨ r = registration ∧ source.kind = kindReadiness ∧
        source.handle = other ∧ (source.interests &&& d.bit != 0) = true)
    (hasks : source.kind = kindReadiness →
      ∃ d : Direction, (source.interests &&& d.bit != 0) = true)
    (hpolled : Polled core') : Sound core' := by
  have hold : ∀ r found, core.active r = some found → r ≠ registration := by
    intro r found hfound hsame
    rw [hsame, hnew] at hfound
    cases hfound
  have hwaits : ∀ r other d, Interested core' r other d ↔ Interested core r other d ∨
      r = registration ∧ source.kind = kindReadiness ∧ source.handle = other ∧
        (source.interests &&& d.bit != 0) = true := by
    intro r other d
    unfold Interested
    rw [hactive]
    by_cases hsame : r = registration
    · simp [hsame, hnew]
    · simp [hsame]
  refine ⟨hwf, ?_, ?_, honce, hsorted, ?_, ?_, hpolled⟩
  · intro entry hentry
    rw [hactive]
    obtain hentry | ⟨hentry, hkind⟩ := (htimers entry).mp hentry
    · obtain ⟨found, hfound, hrest⟩ := h.timers entry hentry
      rw [if_neg (hold _ _ hfound)]; exact ⟨found, hfound, hrest⟩
    · rw [hentry, if_pos rfl]; exact ⟨_, rfl, hkind, rfl⟩
  · intro r found hfound hkind
    rw [hactive] at hfound
    rw [htimers]
    split at hfound
    · next hsame =>
      rw [← some.inj hfound] at hkind ⊢
      exact .inr ⟨by rw [hsame], hkind⟩
    · exact .inl (h.timed r found hfound hkind)
  · intro other d r
    rw [hhandles, hwaits, h.handles]
  · intro r found hfound hkind
    rw [hactive] at hfound
    split at hfound
    · next hsame =>
      rw [← some.inj hfound] at hkind ⊢
      obtain ⟨d, hd⟩ := hasks hkind
      exact ⟨d, (hwaits _ _ _).mpr (.inr ⟨hsame, hkind, rfl, hd⟩)⟩
    · obtain ⟨d, hd⟩ := h.asks r found hfound hkind
      exact ⟨d, (hwaits _ _ _).mpr (.inl hd)⟩

theorem get_enter (handle : Handle) (source : WaitSource) (registration : Registration)
    (d : Direction) : (handle.enter source registration).get d =
      if (source.interests &&& d.bit != 0) = true then some registration else handle.get d := by
  cases d <;> rfl

theorem overlaps_false {source : WaitSource} {handle : Handle} (h : overlaps source handle = false)
    (hd : (source.interests &&& d.bit != 0) = true) : handle.get d = none := by
  rw [overlaps, Bool.or_eq_false_iff, Bool.and_eq_false_iff, Bool.and_eq_false_iff] at h
  cases d with
  | read =>
    have hread := h.1.resolve_left (fun hbit => by rw [Direction.bit, hbit] at hd; cases hd)
    exact isSome_eq_false_iff.mp hread |> isNone_iff_eq_none.mp
  | write =>
    have hwrite := h.2.resolve_left (fun hbit => by rw [Direction.bit, hbit] at hd; cases hd)
    exact isSome_eq_false_iff.mp hwrite |> isNone_iff_eq_none.mp

/-- The result of a registration, and what it issues where it succeeds. -/
def Registers (core core' : Core) (source : WaitSource) (owner : Nat)
    (result : Except Failure Registration) : Prop :=
  match result with
  | .ok registration => Issues core core' registration source owner
  | .error _ => Keeps core core'

theorem Sound.undo (h : Sound core) {failed : Core} {source : WaitSource}
    (hinsert : core.insert source owner = some (registration, inserted))
    (hfailed : ∃ nextPollKey, inserted.nextPollKey ≤ nextPollKey ∧
      failed = { inserted with nextPollKey := nextPollKey }) :
    ∃ found removed, failed.remove registration = some (found, removed) ∧ Sound removed ∧
      Keeps core removed := by
  obtain ⟨⟨table, htable⟩, hwf, hactive, hfresh, hgeneration, hnew⟩ :=
    Core.insert_spec h.wf hinsert
  obtain ⟨nextPollKey, hle, rfl⟩ := hfailed
  have hfound : ({ inserted with nextPollKey := nextPollKey } : Core).active registration =
      some ⟨source, owner⟩ := by
    show inserted.active registration = _
    rw [hactive, if_pos rfl]
  obtain ⟨removed, hremove, hretired, hready⟩ := Core.remove_spec
    { inserted with nextPollKey := nextPollKey } hwf hfound
  have hsame : ∀ r, removed.active r = core.active r := by
    intro r
    rw [hretired.active]
    split
    · next hmem => rw [List.mem_singleton.mp hmem, hnew _ rfl]
    · next hmem =>
      rw [List.mem_singleton] at hmem; exact (hactive r).trans (if_neg hmem)
  refine ⟨_, removed, hremove, ?_, ?_⟩
  · apply h.retire [] hretired.wf
    · simpa using hsame
    · rw [hretired.timers, htable]
    · intro entry hentry
      rw [hretired.timers, htable]
      simp [hentry]
    · intro other d r
      rw [Core.handleAt, Core.handleAt, hretired.handles, htable]; simp
    · rw [htable] at hle
      refine h.polled.of_eq ?_ ?_ ?_
      · rw [hretired.handles, htable]
      · rw [hretired.pollKeys, htable]
      · rw [hretired.nextPollKey]; exact hle
  · refine Keeps.of_eq hsame (hready.trans (by rw [htable])) ?_
    intro key
    rw [hretired.generation]
    rw [hgeneration]
    split
    · next hkey => rw [hkey, hfresh]; exact le_succ _
    · exact le_refl _

/-- The registration inserted is the one issued, whatever else is entered. -/
theorem Issues.of_insert (hwf : Wf core.table) {source : WaitSource}
    (hinsert : core.insert source owner = some (registration, inserted))
    (htable : core'.table = inserted.table) (hready : core'.ready = core.ready) :
    Issues core core' registration source owner := by
  obtain ⟨-, -, hactive, hfresh, hgeneration, -⟩ := Core.insert_spec hwf hinsert
  refine ⟨hready, ?_, hfresh, ?_⟩
  · intro r
    rw [← hactive, Core.active, Core.active, htable]
  · intro key
    rw [htable, hgeneration]

section
variable (h : Sound core) {source : WaitSource}
  (hinsert : core.insert source owner = some (registration, inserted))
include h hinsert

theorem Sound.issueReadiness (hkind : source.kind = kindReadiness)
    (hvalid : validSource source = true)
    (hoverlaps : overlaps source (core.handleAt source.handle) = false)
    (hupdate : updateHandle inserted source.handle
      ((core.handleAt source.handle).enter source registration) accepted = (.ok (), core')) :
    Sound core' ∧ Issues core core' registration source owner := by
  obtain ⟨⟨table, htable⟩, hwf, hactive, -, -, hnew⟩ := Core.insert_spec h.wf hinsert
  have hsame : inserted.handles = core.handles := by rw [htable]
  have hpolled : Polled inserted :=
    h.polled.of_eq hsame (by rw [htable]) (by rw [htable])
  obtain ⟨⟨pollKeys, handles, nextPollKey, hupdated⟩, hget, hpolled'⟩ :=
    updateHandle_ok hpolled hupdate
  have hasks : ∃ d : Direction, (source.interests &&& d.bit != 0) = true := by
    have hnot : ¬(source.kind = kindTimer ∨ source.kind = kindCompletion) := by
      rw [hkind]; decide
    rw [validSource, if_neg hnot] at hvalid
    simp only [Bool.and_eq_true, bne_iff_ne, beq_iff_eq] at hvalid
    exact asks_direction hvalid.1.2 hvalid.2
  have htimers : core'.timers = core.timers := by rw [hupdated, htable]
  refine ⟨?_, Issues.of_insert h.wf hinsert (by rw [hupdated]) (by rw [hupdated, htable])⟩
  refine h.issue source owner (by rw [hupdated]; exact hwf) (hnew _ rfl) ?_ ?_ ?_ ?_ ?_
    (fun _ => hasks) hpolled'
  · intro r
    rw [← hactive, hupdated]; rfl
  · intro entry
    have hother : source.kind ≠ kindTimer := by
      rw [hkind]; decide
    rw [htimers]; simp [hother]
  · rw [htimers]; exact h.timersOnce
  · rw [htimers]; exact h.sorted
  · intro other d r
    rw [hget]
    split
    · next hother =>
      rw [get_enter, hother]
      split
      · next hbit =>
        rw [overlaps_false hoverlaps hbit]; simp [hkind, hbit, eq_comm]
      · next hbit => simp [hbit]
    · next hother =>
      rw [Core.handleAt, hsame]
      refine ⟨.inl, ?_⟩
      intro hr; exact hr.resolve_right (fun hr => hother hr.2.2.1.symm)

theorem Sound.issueOther (hkind : source.kind ≠ kindReadiness) (timers : List Timer)
    (htimers : ∀ entry, entry ∈ timers ↔ entry ∈ core.timers ∨
      entry = ⟨source.deadlineNs, registration⟩ ∧ source.kind = kindTimer)
    (honce : (timers.map (·.registration)).Nodup)
    (hsorted : timers.Pairwise Core.timerBefore) :
    Sound { inserted with timers := timers } ∧
      Issues core { inserted with timers := timers } registration source owner := by
  obtain ⟨⟨table, htable⟩, hwf, hactive, -, -, hnew⟩ := Core.insert_spec h.wf hinsert
  refine ⟨?_, Issues.of_insert h.wf hinsert rfl (by rw [htable])⟩
  refine h.issue source owner hwf (hnew _ rfl) hactive htimers honce hsorted ?_
    (fun hready => absurd hready hkind) ?_
  · intro other d r
    rw [htable]
    exact ⟨.inl, fun hr => hr.resolve_right (fun hr => hkind hr.2.1)⟩
  · rw [htable]; exact h.polled.of_eq rfl rfl (le_refl _)

/-- The timers with a new entry: it is there, once, and the others stay. -/
theorem Sound.insertTimer (hkind : source.kind = kindTimer) :
    Sound (inserted.insertTimer source.deadlineNs registration) ∧
      Issues core (inserted.insertTimer source.deadlineNs registration) registration source
        owner := by
  obtain ⟨⟨table, htable⟩, -, -, -, -, hnew⟩ := Core.insert_spec h.wf hinsert
  have hold : ∀ entry ∈ core.timers, entry.registration.key ≠ registration.key := by
    intro entry hentry hkey
    obtain ⟨found, hfound, -⟩ := h.timers entry hentry
    rw [hnew _ hkey] at hfound
    cases hfound
  -- The slot was free, so the map has no entry under its key.
  have hothers : (inserted.timers.filter
      fun entry => !Core.isEntry source.deadlineNs registration.key entry) = core.timers := by
    rw [htable, List.filter_eq_self]
    intro entry hentry
    simp [Core.isEntry, hold entry hentry]
  rw [Core.insertTimer, hothers]
  refine h.issueOther hinsert ?_ _ ?_ ?_ (h.sorted.orderedInsert _ _)
  · rw [hkind]; decide
  · intro entry
    rw [List.mem_orderedInsert, or_comm]; simp [hkind]
  · rw [((List.perm_orderedInsert Core.timerBefore _ _).map _).nodup_iff, List.map_cons,
      List.nodup_cons]
    refine ⟨?_, h.timersOnce⟩
    intro hmem
    obtain ⟨entry, hentry, hsame⟩ := List.mem_map.mp hmem
    exact hold entry hentry (by rw [hsame])

end

theorem register_spec (h : Sound core) (source : WaitSource) (owner : Nat)
    (notified accepted : Bool) :
    ∃ result core', register core source owner notified accepted = some (result, core') ∧
      Sound core' ∧ Registers core core' source owner result := by
  simp only [register]
  by_cases hvalid : validSource source = true
  · by_cases hoverlaps : source.kind = kindReadiness ∧
        overlaps source ((core.handles source.handle).getD {}) = true
    · exact ⟨.error .overlappingReadiness, core, by simp [hvalid, hoverlaps], h, Keeps.refl core⟩
    · cases notified with
      | false =>
        exact ⟨.error .native, core, by simp [hvalid, hoverlaps], h, Keeps.refl core⟩
      | true =>
        cases hinsert : core.insert source owner with
        | none =>
          exact ⟨.error .generationExhausted, core, by simp [hvalid, hoverlaps], h,
            Keeps.refl core⟩
        | some inserted =>
          obtain ⟨registration, inserted⟩ := inserted
          simp only [hvalid, Bool.not_true, Bool.false_eq_true, if_false, hoverlaps]
          by_cases hkind : source.kind = kindReadiness
          · have hfree : overlaps source (core.handleAt source.handle) = false := by
              rw [Core.handleAt]
              simpa [hkind] using hoverlaps
            cases hupdate : updateHandle inserted source.handle
                ((core.handleAt source.handle).enter source registration) accepted with
            | mk result updated =>
              rw [Core.handleAt] at hupdate
              cases result with
              | error failure =>
                obtain ⟨found, removed, hremove, hsound, hkeeps⟩ :=
                  h.undo hinsert (updateHandle_error hupdate)
                exact ⟨.error failure, removed, by simp [hkind, hupdate, hremove], hsound, hkeeps⟩
              | ok =>
                obtain ⟨hsound, hissues⟩ :=
                  h.issueReadiness hinsert hkind hvalid hfree hupdate
                exact ⟨.ok registration, updated, by simp [hkind, hupdate], hsound, hissues⟩
          · by_cases htimer : source.kind = kindTimer
            · obtain ⟨hsound, hissues⟩ := h.insertTimer hinsert htimer
              refine ⟨.ok registration, _, ?_, hsound, hissues⟩
              rw [if_neg hkind, if_pos htimer]
            · obtain ⟨⟨table, htable⟩, -⟩ := Core.insert_spec h.wf hinsert
              obtain ⟨hsound, hissues⟩ := h.issueOther hinsert hkind inserted.timers
                (fun entry => by rw [htable]; simp [htimer])
                (by rw [htable]; exact h.timersOnce) (by rw [htable]; exact h.sorted)
              refine ⟨.ok registration, _, ?_, hsound, hissues⟩
              rw [if_neg hkind, if_neg htimer]
  · exact ⟨.error .invalidSource, core, by simp [hvalid], h, Keeps.refl core⟩

end Loom.Runtime.Reactor

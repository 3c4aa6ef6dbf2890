import Loom.Deployment.Ledger

/-
  What every interleaving of the clients keeps: the rows are valid and follow
  one another, and a client that has read the ledger holds an event that may
  come next for as long as the ledger has not grown.

  The guard of an append compares sequence numbers only. It is enough for the
  order of the events because the greatest one grows with every append
  (`Prepared.of_lt`); it says nothing about what was read before `latest`.
-/

namespace Loom.Deployment

open Decimal Results Runs

/-! ## The last event -/

variable {entries : List Entry} {previous last : Stored} {ledger : List Entry} {attempt : Attempt}
  {id : Text} {longer : List Entry} {place : Place} {expected : Int}

theorem Follows.sequence (h : Follows previous entries last) :
    entries.foldl (fun greatest entry => max greatest entry.sequence) previous.sequence =
      last.sequence := by
  induction h with
  | done previous => rfl
  | @next previous current last entry rest hentry _ ih =>
    have hlt : previous.sequence < entry.sequence := (storedAfter_cases hentry).1
    have hsequence : current.sequence = entry.sequence := (storedAfter_id hentry).2
    rw [List.foldl_cons, max_eq_right (by omega), ← hsequence]; exact ih

theorem Follows.le (h : Follows previous entries last) : previous.sequence ≤ last.sequence := by
  induction h with
  | done previous => exact Int.le_refl _
  | @next previous current last entry rest hentry _ ih =>
    have hlt : previous.sequence < entry.sequence := (storedAfter_cases hentry).1
    have hsequence : current.sequence = entry.sequence := (storedAfter_id hentry).2
    calc previous.sequence ≤ current.sequence := by omega
      _ ≤ last.sequence := ih

theorem Follows.deterministic {other : Stored} (h : Follows previous entries last)
    (hother : Follows previous entries other) : last = other := by
  induction h with
  | done previous =>
    cases hother
    rfl
  | next hentry _ ih =>
    cases hother with
    | next hcurrent hrest =>
      rw [hentry] at hcurrent
      cases hcurrent
      exact ih hrest

theorem Chained.deterministic {other : Stored} (h : Chained entries last)
    (hother : Chained entries other) : last = other := by
  obtain ⟨first, rest, rfl, -, -, hfollows⟩ := h
  obtain ⟨first', rest', heq, -, -, hfollows'⟩ := hother
  cases heq
  exact hfollows.deterministic hfollows'

theorem Follows.mem_last (h : Follows previous entries last) :
    last.attempt = previous.attempt ∨ ∃ entry ∈ entries, entry.attempt = last.attempt := by
  induction h with
  | done previous => exact Or.inl rfl
  | @next previous current last entry rest hentry _ ih =>
    right
    obtain hlast | ⟨other, hother, hlast⟩ := ih
    · exact ⟨entry, .head _, by rw [hlast, (storedAfter_id hentry).1]; rfl⟩
    · exact ⟨other, .tail _ hother, hlast⟩

theorem Chained.mem_last (h : Chained entries last) :
    ∃ entry ∈ entries, entry.attempt = last.attempt := by
  obtain ⟨first, rest, rfl, -, -, hfollows⟩ := h
  obtain hlast | ⟨entry, hentry, hlast⟩ := hfollows.mem_last
  · exact ⟨first, .head _, hlast.symm⟩
  · exact ⟨entry, .tail _ hentry, hlast⟩

/-! ## The ledger -/

structure Sound (ledger : List Entry) : Prop where
  admitted : ∀ entry ∈ ledger, entry.Admitted
  chained : ledger = [] ∨ ∃ last, Chained ledger last

theorem Sound.nil : Sound [] := ⟨by simp, Or.inl rfl⟩

theorem Sound.sequence (h : Sound ledger) (hlast : Chained ledger last) :
    last.sequence = maxSequence ledger := by
  obtain ⟨first, rest, rfl, -, -, hfollows⟩ := hlast
  have hpositive := (h.admitted first (.head _)).positive
  calc last.sequence
      = rest.foldl (fun greatest entry => max greatest entry.sequence) first.sequence :=
        hfollows.sequence.symm
    _ = maxSequence (first :: rest) := by
        rw [maxSequence, List.foldl_cons, max_eq_right (by omega)]

theorem maxSequence_append (ledger : List Entry) (attempt : Attempt) :
    maxSequence (ledger ++ [nextEntry ledger attempt]) = maxSequence ledger + 1 := by
  have hlast : maxSequence (ledger ++ [nextEntry ledger attempt]) =
      max (maxSequence ledger) (maxSequence ledger + 1) := by
    simp [maxSequence, List.foldl_append, List.foldl_cons, List.foldl_nil, nextEntry]
  omega

theorem Sound.maxSequence_nonneg (h : Sound ledger) : 0 ≤ maxSequence ledger := by
  obtain rfl | ⟨last, hlast⟩ := h.chained
  · exact Int.le_refl 0
  · rw [← h.sequence hlast]
    obtain ⟨first, rest, rfl, -, -, hfollows⟩ := hlast
    have hpositive := (h.admitted first (.head _)).positive
    have : first.sequence ≤ last.sequence := hfollows.le
    omega

/-- `attempt` is an event that may come after the last one. -/
inductive Extends (ledger : List Entry) (attempt : Attempt) : Prop
  | first : ledger = [] → attempt.state = .notDeployed → attempt.fromBasis = [] →
      Extends ledger attempt
  | again (last : Stored) : Chained ledger last → attempt.id = last.attempt.id →
      nextState last.attempt attempt = true → Extends ledger attempt
  | anew (last : Stored) : Chained ledger last → attempt.id ≠ last.attempt.id →
      newAttempt last attempt = true → Extends ledger attempt

theorem storedAfter_later {sequence : Int} (hsequence : last.sequence < sequence)
    (h : (attempt.id = last.attempt.id ∧ nextState last.attempt attempt = true) ∨
      (attempt.id ≠ last.attempt.id ∧ newAttempt last attempt = true)) :
    storedAfter last ⟨sequence, attempt, .none⟩ =
      .ok ⟨sequence, attempt, laterEvidence last attempt⟩ := by
  simp only [storedAfter]
  rw [if_neg (by omega)]
  obtain ⟨hid, hnext⟩ | ⟨hid, hnew⟩ := h
  · rw [if_pos hid, if_pos hnext]; rfl
  · rw [if_neg hid, if_pos hnew]; rfl

theorem Chained.snoc {current : Stored} {entry : Entry} (h : Chained ledger last)
    (hentry : storedAfter last entry.stored = .ok current) :
    Chained (ledger ++ [entry]) current := by
  obtain ⟨first, rest, rfl, hstate, hbasis, hfollows⟩ := h
  exact ⟨first, rest ++ [entry], rfl, hstate, hbasis, hfollows.snoc hentry⟩

/-- An event that may come next makes a chain, and is its last event. -/
theorem Sound.chained_append (h : Sound ledger) (hextends : Extends ledger attempt) :
    ∃ current, Chained (ledger ++ [nextEntry ledger attempt]) current ∧
      current.attempt = attempt := by
  have hlater : ∀ last, Chained ledger last →
      ((attempt.id = last.attempt.id ∧ nextState last.attempt attempt = true) ∨
        (attempt.id ≠ last.attempt.id ∧ newAttempt last attempt = true)) →
      ∃ current, Chained (ledger ++ [nextEntry ledger attempt]) current ∧
        current.attempt = attempt := by
    intro last hlast hnext
    have hsequence : last.sequence < maxSequence ledger + 1 := by
      rw [h.sequence hlast]; omega
    exact ⟨_, hlast.snoc (storedAfter_later hsequence hnext), rfl⟩
  cases hextends with
  | first hnil hstate hbasis =>
    rw [hnil]
    exact ⟨_, ⟨nextEntry [] attempt, [], rfl, hstate, hbasis, .done _⟩, rfl⟩
  | again last hlast hid hnext => exact hlater last hlast (Or.inl ⟨hid, hnext⟩)
  | anew last hlast hid hnew => exact hlater last hlast (Or.inr ⟨hid, hnew⟩)

theorem Sound.append (h : Sound ledger) (hvalid : valid attempt = true)
    (hextends : Extends ledger attempt) (hbound : maxSequence ledger + 1 < 2 ^ 63) :
    Sound (ledger ++ [nextEntry ledger attempt]) := by
  refine ⟨?_, ?_⟩
  · intro entry hentry
    rw [List.mem_append, List.mem_singleton] at hentry
    obtain hentry | rfl := hentry
    · exact h.admitted entry hentry
    · have := h.maxSequence_nonneg
      exact ⟨hvalid, by simp only [nextEntry]; omega, hbound⟩
  · obtain ⟨current, hcurrent, -⟩ := h.chained_append hextends
    exact Or.inr ⟨current, hcurrent⟩

/-! ## What the queries return -/

theorem Sound.of_latest_none (h : Sound ledger) (hlatest : latest ledger = .ok none) :
    ledger = [] := by
  obtain ⟨hnil, -⟩ | ⟨last, -, -, hfound⟩ := chained_of_recorded h.admitted hlatest
  · exact hnil
  · cases hfound rfl

theorem Sound.of_latest_some (h : Sound ledger) (hlatest : latest ledger = .ok (some last)) :
    Chained ledger last := by
  obtain ⟨-, hfound⟩ | ⟨found, hchained, -, hfound⟩ := chained_of_recorded h.admitted hlatest
  · cases hfound
  · cases hfound rfl
    exact hchained

theorem advance_state {next : Attempt} {event : Transition} (h : advance attempt event = .ok next) :
    next = { attempt with state := next.state } ∧ nextState attempt next = true := by
  obtain ⟨id, fromBasis, toBasis, planDigest, policy, state⟩ := attempt
  simp only [advance, bind_eq_ok] at h
  obtain ⟨next, hstate, h⟩ := h
  cases h
  cases state <;> cases event <;> simp only [advanced] at hstate <;>
    cases policy <;> cases hstate <;> simp [nextState, sameAttemptPlan]

theorem mem_of_identityUsed :
    identityUsed ledger id = true ↔ ∃ entry ∈ ledger, entry.attempt.id = id := by
  simp [identityUsed]

theorem Chained.identityUsed_last (h : Chained ledger last) :
    identityUsed ledger last.attempt.id = true := by
  obtain ⟨entry, hentry, hlast⟩ := h.mem_last
  exact mem_of_identityUsed.mpr ⟨entry, hentry, by rw [hlast]⟩

/-! ## Clients -/

/-- The identity is new, or the one of the last event. -/
def Fresh (ledger : List Entry) (attempt : Attempt) : Prop :=
  identityUsed ledger attempt.id = false ∨ ∃ last, Chained ledger last ∧
    attempt.id = last.attempt.id

/-- What a client holds while nothing is appended: an event that may come next,
and a new identity, unless it registers: there the identity was looked up in
the ledger as it stood before `latest`. -/
structure Ready (ledger : List Entry) (operation : Operation) (attempt : Attempt) : Prop where
  comesNext : Extends ledger attempt
  fresh : operation ≠ .register → Fresh ledger attempt
  other : operation = .register → ∀ last, Chained ledger last → attempt.id ≠ last.attempt.id

def Prepared (ledger : List Entry) : Place → Prop
  | .idle => True
  | .registering attempt => valid attempt = true ∧ attempt.state = .notDeployed
  | .replacing expected attempt => valid attempt = true ∧ expected ≤ maxSequence ledger ∧
      (expected = maxSequence ledger → ∃ last, Chained ledger last ∧ newAttempt last attempt = true)
  | .appending operation expected attempt =>
      valid attempt = true ∧ expected ≤ maxSequence ledger ∧
      (expected = maxSequence ledger → Ready ledger operation attempt)
  | .importing attempt assumed => valid attempt = true ∧ valid assumed = true ∧
      attempt.state = .notDeployed ∧ attempt.fromBasis = [] ∧ assumed.id = attempt.id ∧
      nextState attempt assumed = true

/-- Once the ledger has grown, what a client has read is refused by the guard. -/
theorem Prepared.of_lt (h : Prepared ledger place) (hlt : maxSequence ledger < maxSequence longer) :
    Prepared longer place := by
  cases place with
  | idle => trivial
  | registering attempt => exact h
  | replacing expected attempt =>
    obtain ⟨hvalid, hle, -⟩ := h
    exact ⟨hvalid, by omega, by omega⟩
  | appending operation expected attempt =>
    obtain ⟨hvalid, hle, -⟩ := h
    exact ⟨hvalid, by omega, by omega⟩
  | importing attempt assumed => exact h

theorem register_prepared (h : register ledger attempt = .ok place) : Prepared ledger place := by
  simp only [register] at h
  split at h
  · cases h
  · next hvalid =>
    split at h
    · cases h
    · cases h
      simp only [not_or, not_not] at hvalid; exact hvalid

theorem registerExpected_none (h : registerExpected none attempt = .ok expected) :
    expected = 0 ∧ attempt.fromBasis = [] := by
  simp only [registerExpected] at h
  split at h
  · cases h
  · next hbasis =>
    cases h
    exact ⟨rfl, not_not.mp hbasis⟩

/-- The checks of `register` on the last event imply those of the replay. -/
theorem registerExpected_some (hstate : attempt.state = .notDeployed)
    (h : registerExpected (some previous) attempt = .ok expected) :
    expected = previous.sequence ∧ attempt.id ≠ previous.attempt.id ∧
      newAttempt previous attempt = true := by
  simp only [registerExpected] at h
  split at h
  · cases h
  · next hid =>
    split at h
    · cases h
    · split at h
      · next basis hevidence =>
        split at h
        · cases h
        · next hbasis =>
          cases h
          simp only [not_not] at hbasis
          exact ⟨rfl, fun heq => hid heq.symm, by simp [newAttempt, hstate, hevidence, hbasis]⟩
      · next basis hevidence =>
        split at h
        · cases h
        · next hbasis =>
          cases h
          simp only [not_not] at hbasis
          exact ⟨rfl, fun heq => hid heq.symm, by simp [newAttempt, hstate, hevidence, hbasis]⟩
      · split at h
        · cases h
        · next hnew =>
          cases h
          exact ⟨rfl, fun heq => hid heq.symm, not_not.mp hnew⟩

theorem readRegister_prepared (hsound : Sound ledger)
    (hclient : Prepared ledger (.registering attempt)) (h : readRegister ledger attempt = .ok place) :
    Prepared ledger place := by
  obtain ⟨hvalid, hstate⟩ := hclient
  simp only [readRegister, bind_eq_ok] at h
  obtain ⟨found, hlatest, expected, hexpected, h⟩ := h
  cases h
  cases found with
  | none =>
    have hnil := hsound.of_latest_none hlatest
    obtain ⟨hzero, hbasis⟩ := registerExpected_none hexpected
    subst hnil
    refine ⟨hvalid, by rw [hzero]; exact Int.le_refl 0, ?_⟩
    intro _
    refine ⟨.first rfl hstate hbasis, by simp, ?_⟩
    intro _ last hlast
    obtain ⟨first, rest, hcons, -⟩ := hlast
    cases hcons
  | some previous =>
    have hchained := hsound.of_latest_some hlatest
    obtain ⟨hsequence, hid, hnew⟩ := registerExpected_some hstate hexpected
    have hmax := hsound.sequence hchained
    refine ⟨hvalid, by omega, ?_⟩
    intro _
    refine ⟨.anew previous hchained hid hnew, by simp, ?_⟩
    intro _ last hlast
    rwa [hlast.deterministic hchained]

theorem replace_prepared (hsound : Sound ledger) (h : replace ledger id attempt = .ok place) :
    Prepared ledger place := by
  simp only [replace] at h
  split at h
  · cases h
  · next hvalid =>
    simp only [not_or, not_not] at hvalid
    rw [bind_eq_ok] at h
    obtain ⟨found, hlatest, h⟩ := h
    cases found with
    | none => cases h
    | some previous =>
      simp only at h
      split at h
      · cases h
      · split at h
        · cases h
        · next hnew =>
          cases h
          have hchained := hsound.of_latest_some hlatest
          have hmax := hsound.sequence hchained
          exact ⟨hvalid.1, by omega, fun _ => ⟨previous, hchained, not_not.mp hnew⟩⟩

theorem checkReplacement_prepared (hclient : Prepared ledger (.replacing expected attempt))
    (h : checkReplacement ledger expected attempt = .ok place) : Prepared ledger place := by
  obtain ⟨hvalid, hle, hread⟩ := hclient
  simp only [checkReplacement] at h
  split at h
  · cases h
  · next hunused =>
    cases h
    refine ⟨hvalid, hle, ?_⟩
    intro heq
    obtain ⟨last, hchained, hnew⟩ := hread heq
    rw [Bool.not_eq_true] at hunused
    have hid : attempt.id ≠ last.attempt.id := by
      intro hid
      rw [hid, hchained.identityUsed_last] at hunused
      cases hunused
    exact ⟨.anew last hchained hid hnew, fun _ => Or.inl hunused, by simp⟩

theorem valid_state (h : valid attempt = true) (state : DeploymentState) :
    valid { attempt with state := state } = true := h

theorem recordEvent_prepared (hsound : Sound ledger) {event : Transition}
    (h : recordEvent ledger id event = .ok place) : Prepared ledger place := by
  simp only [recordEvent] at h
  split at h
  · cases h
  · rw [bind_eq_ok] at h
    obtain ⟨found, hlatest, h⟩ := h
    cases found with
    | none => cases h
    | some previous =>
      simp only at h
      split at h
      · cases h
      · rw [bind_eq_ok] at h
        obtain ⟨next, hadvance, h⟩ := h
        cases h
        have hchained := hsound.of_latest_some hlatest
        have hmax := hsound.sequence hchained
        obtain ⟨hnext, hstep⟩ := advance_state hadvance
        obtain ⟨entry, hentry, hlast⟩ := hchained.mem_last
        have hid : next.id = previous.attempt.id := by rw [hnext]
        refine ⟨?_, by omega, ?_⟩
        · rw [hnext, ← hlast]
          exact valid_state (hsound.admitted entry hentry).attempt _
        · intro _
          exact ⟨.again previous hchained hid hstep, fun _ => Or.inr ⟨previous, hchained, hid⟩,
            by simp⟩

theorem historical_prepared {basis : Text} (h : historical ledger id basis = .ok place) :
    Prepared ledger place := by
  simp only [historical] at h
  split at h
  · cases h
  · next hvalid =>
    rw [bind_eq_ok] at h
    obtain ⟨found, -, h⟩ := h
    cases found with
    | some previous => cases h
    | none =>
      simp only [bind_eq_ok] at h
      obtain ⟨attempt, hprepare, assumed, hassumed, h⟩ := h
      cases h
      simp only [prepare] at hprepare
      split at hprepare
      · cases hprepare
      · cases hprepare
        obtain ⟨hnext, hstep⟩ := advance_state hassumed
        have hattempt : valid ⟨id, [], basis, [], .stop, .notDeployed⟩ = true := by
          simp only [not_or, not_not] at hvalid
          simp [valid, hvalid.1, hvalid.2]
        refine ⟨hattempt, ?_, rfl, rfl, by rw [hnext], hstep⟩
        rw [hnext]; exact valid_state hattempt _

/-! ## Steps -/

variable {ι : Type} [DecidableEq ι]

/-- What holds in every state of every interleaving. -/
structure Ordered (s : System ι) : Prop where
  ledger : Sound s.ledger
  clients : ∀ client, Prepared s.ledger (s.place client)

omit [DecidableEq ι] in
theorem Ordered.empty : Ordered (System.empty ι) := ⟨Sound.nil, fun _ => trivial⟩

variable {s : System ι}

theorem Ordered.moved (h : Ordered s) (client : ι) (place : Place)
    (hplace : Prepared s.ledger place) :
    Ordered { s with place := Function.update s.place client place } := by
  refine ⟨h.ledger, ?_⟩
  intro other
  show Prepared s.ledger (Function.update s.place client place other)
  by_cases hother : other = client
  · rw [hother, Function.update_self]; exact hplace
  · rw [Function.update_of_ne hother]; exact h.clients other

theorem Ordered.went (h : Ordered s) (client : ι) {result : Except String Place}
    (hresult : ∀ place, result = .ok place → Prepared s.ledger place) :
    Ordered (s.went client result) := by
  cases result with
  | ok place => exact h.moved client place (hresult place rfl)
  | error message => exact h.moved client .idle trivial

theorem Ordered.wrote (h : Ordered s) (client : ι) {result : Except String (List Entry)}
    (hresult : ∀ ledger, result = .ok ledger → Sound ledger ∧
      maxSequence s.ledger < maxSequence ledger) : Ordered (s.wrote client result) := by
  cases result with
  | error message => exact h.moved client .idle trivial
  | ok ledger =>
    obtain ⟨hsound, hlt⟩ := hresult ledger rfl
    have hgrown : Ordered (⟨ledger, s.place⟩ : System ι) :=
      ⟨hsound, fun other => (h.clients other).of_lt hlt⟩
    exact hgrown.moved client .idle trivial

theorem append_eq_ok (h : append ledger expected attempt = .ok longer) :
    expected = maxSequence ledger ∧ maxSequence ledger + 1 < 2 ^ 63 ∧
      longer = ledger ++ [nextEntry ledger attempt] := by
  simp only [append] at h
  split at h
  · next hguard =>
    cases h
    exact ⟨hguard.1.symm, hguard.2, rfl⟩
  · cases h

theorem insertBoth_eq_ok {assumed : Attempt} (h : insertBoth ledger attempt assumed = .ok longer) :
    ledger = [] ∧ longer = [nextEntry [] attempt] ++ [nextEntry [nextEntry [] attempt] assumed] := by
  simp only [insertBoth] at h
  split at h
  · next hnil =>
    subst hnil
    cases h
    exact ⟨rfl, rfl⟩
  · cases h

theorem extends_import {assumed : Attempt} (h : Prepared [] (.importing attempt assumed)) :
    Sound [nextEntry [] attempt] ∧ Extends [nextEntry [] attempt] assumed ∧ Extends [] attempt := by
  obtain ⟨hvalid, -, hstate, hbasis, hid, hnext⟩ := h
  have hfirst : Extends [] attempt := .first rfl hstate hbasis
  have hsound := Sound.nil.append hvalid hfirst (by decide)
  obtain ⟨current, hcurrent, hattempt⟩ := Sound.nil.chained_append hfirst
  refine ⟨hsound, .again current hcurrent ?_ ?_, hfirst⟩
  · rw [hattempt, hid]
  · rw [hattempt, hnext]

theorem Ordered.step {s' : System ι} {event : Event ι} (h : Ordered s)
    (hstep : step s event = some s') : Ordered s' := by
  have hclients := h.clients
  cases event with
  | register client attempt =>
    simp only [Deployment.step] at hstep
    split at hstep
    · cases hstep
      exact h.went client (fun place hplace => register_prepared hplace)
    · cases hstep
  | readRegister client =>
    simp only [Deployment.step] at hstep
    split at hstep
    · next attempt hplace =>
      cases hstep
      have hclient := hclients client
      rw [hplace] at hclient
      exact h.went client (fun place => readRegister_prepared h.ledger hclient)
    · cases hstep
  | replace client id attempt =>
    simp only [Deployment.step] at hstep
    split at hstep
    · cases hstep
      exact h.went client (fun place => replace_prepared h.ledger)
    · cases hstep
  | checkReplacement client =>
    simp only [Deployment.step] at hstep
    split at hstep
    · next expected attempt hplace =>
      cases hstep
      have hclient := hclients client
      rw [hplace] at hclient
      exact h.went client (fun place => checkReplacement_prepared hclient)
    · cases hstep
  | recordEvent client id event =>
    simp only [Deployment.step] at hstep
    split at hstep
    · cases hstep
      exact h.went client (fun place => recordEvent_prepared h.ledger)
    · cases hstep
  | append client =>
    simp only [Deployment.step] at hstep
    split at hstep
    · next operation expected attempt hplace =>
      cases hstep
      have hclient := hclients client
      rw [hplace] at hclient
      obtain ⟨hvalid, -, hready⟩ := hclient
      apply h.wrote client
      intro longer hlonger
      obtain ⟨hexpected, hbound, rfl⟩ := append_eq_ok hlonger
      refine ⟨h.ledger.append hvalid (hready hexpected).comesNext hbound, ?_⟩
      rw [maxSequence_append]; omega
    · cases hstep
  | historical client id basis =>
    simp only [Deployment.step] at hstep
    split at hstep
    · cases hstep
      exact h.went client (fun place => historical_prepared)
    · cases hstep
  | importBoth client =>
    simp only [Deployment.step] at hstep
    split at hstep
    · next attempt assumed hplace =>
      cases hstep
      have hclient := hclients client
      rw [hplace] at hclient
      apply h.wrote client
      intro longer hlonger
      obtain ⟨hnil, rfl⟩ := insertBoth_eq_ok hlonger
      rw [hnil] at hclient ⊢
      obtain ⟨hsound, hextends, -⟩ := extends_import hclient
      have hone : maxSequence [nextEntry [] attempt] = 1 := rfl
      have hzero : maxSequence [] = 0 := rfl
      refine ⟨hsound.append hclient.2.1 hextends (by omega), ?_⟩
      rw [maxSequence_append]; omega
    · cases hstep

theorem ordered_of_reaches {allowed : System ι → Event ι → Bool}
    (h : Reaches step allowed (System.empty ι) s) : Ordered s := by
  refine h.invariant Ordered Ordered.empty ?_
  intro s s' event hs _ hstep; exact hs.step hstep

end Loom.Deployment

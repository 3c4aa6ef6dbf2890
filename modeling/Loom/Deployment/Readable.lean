import Loom.Deployment.Ordered

/-
  Whether the ledger stays readable.

  `replace_unstarted_attempt` looks an identity up after it has read the last
  event, so the guard of its append also covers the lookup. `register` looks it
  up before: between the lookup and `latest` another client may register the
  same identity, cancel it, and register and cancel one more. The last event is
  then of another attempt, the guard holds, and the identity is introduced a
  second time. From then on `recorded` refuses the ledger, and with it every
  operation.
-/

namespace Loom.Deployment

open Decimal Results Runs List

/-! ## Introductions -/

variable {entries : List Entry} {last : Stored} {ledger : List Entry}

theorem introduced_snoc {previous : Stored} {entry : Entry} (h : Follows previous entries last) :
    introduced previous.attempt.id (entries ++ [entry]) =
      introduced previous.attempt.id entries ++
        (if entry.attempt.id = last.attempt.id then [] else [entry.attempt.id]) := by
  induction h with
  | done previous => simp [introduced]
  | @next previous current last first rest hentry _ ih =>
    have hid : current.attempt.id = first.attempt.id :=
      congrArg Attempt.id (storedAfter_id hentry).1
    rw [hid] at ih
    simp only [cons_append, introduced, ih]
    split
    · next hsame =>
      rw [← hsame]; exact ih
    · rfl

theorem introductions_snoc (h : Chained ledger last) (entry : Entry) :
    introductions (ledger ++ [entry]) = introductions ledger ++
      (if entry.attempt.id = last.attempt.id then [] else [entry.attempt.id]) := by
  obtain ⟨first, rest, rfl, -, -, hfollows⟩ := h
  show first.attempt.id :: introduced first.stored.attempt.id (rest ++ [entry]) = _
  rw [introduced_snoc hfollows]; rfl

theorem mem_introduced (previous : Text) {id : Text} :
    id ∈ previous :: introduced previous entries ↔
      id = previous ∨ ∃ entry ∈ entries, entry.attempt.id = id := by
  induction entries generalizing previous with
  | nil => simp [introduced]
  | cons entry rest ih =>
    have hrest := ih entry.attempt.id
    rw [introduced]
    split
    · next hsame => grind
    · grind

theorem mem_introductions {id : Text} :
    id ∈ introductions ledger ↔ identityUsed ledger id = true := by
  rw [mem_of_identityUsed]
  cases ledger with
  | nil => simp [introductions]
  | cons first rest =>
    rw [introductions, mem_introduced]; grind

theorem nodup_append {attempt : Attempt} (hextends : Extends ledger attempt)
    (hfresh : Fresh ledger attempt) (h : (introductions ledger).Nodup) :
    (introductions (ledger ++ [nextEntry ledger attempt])).Nodup := by
  have hlater : ∀ last, Chained ledger last →
      (introductions (ledger ++ [nextEntry ledger attempt])).Nodup := by
    intro last hlast
    rw [introductions_snoc hlast]
    show (_ ++ if attempt.id = last.attempt.id then [] else [attempt.id]).Nodup
    split
    · rwa [append_nil]
    · next hid =>
      have hunused : identityUsed ledger attempt.id = false := by
        obtain hunused | ⟨other, hother, hsame⟩ := hfresh
        · exact hunused
        · rw [hother.deterministic hlast] at hsame; exact absurd hsame hid
      rw [List.nodup_append]
      refine ⟨h, nodup_singleton _, ?_⟩
      intro used hused new hnew heq
      rw [mem_singleton] at hnew
      rw [heq, hnew, mem_introductions, hunused] at hused
      cases hused
  cases hextends with
  | first hnil _ _ =>
    rw [hnil]; exact nodup_singleton _
  | again last hlast _ _ => exact hlater last hlast
  | anew last hlast _ _ => exact hlater last hlast

theorem not_nodup_append {attempt : Attempt} (hlast : Chained ledger last)
    (hid : attempt.id ≠ last.attempt.id) (hused : identityUsed ledger attempt.id = true) :
    ¬(introductions (ledger ++ [nextEntry ledger attempt])).Nodup := by
  rw [introductions_snoc hlast]
  show ¬(_ ++ if attempt.id = last.attempt.id then [] else [attempt.id]).Nodup
  rw [if_neg hid, List.nodup_append]
  intro h
  exact h.2.2 _ (mem_introductions.mpr hused) _ (mem_singleton_self _) rfl

/-! ## Adjacent events -/

/-- Two events of one attempt, one after the other, are a transition of it. -/
def Transitions (ledger : List Entry) : Prop :=
  ∀ earlier before after later, ledger = earlier ++ before :: after :: later →
    after.attempt.id = before.attempt.id → nextState before.attempt after.attempt = true

theorem Follows.adjacent {previous : Stored} (h : Follows previous entries last)
    {earlier later : List Entry} {before after : Entry} {start : Entry}
    (hstart : start.attempt = previous.attempt)
    (heq : start :: entries = earlier ++ before :: after :: later) :
    ∃ stored current : Stored, stored.attempt = before.attempt ∧
      storedAfter stored after.stored = .ok current := by
  induction h generalizing earlier start with
  | done previous =>
    have hlength := congrArg length heq
    simp at hlength; omega
  | @next previous current last entry rest hentry _ ih =>
    cases earlier with
    | nil =>
      obtain ⟨rfl, rfl, -⟩ := heq
      exact ⟨previous, current, hstart.symm, hentry⟩
    | cons head earlier =>
      simp only [cons_append, cons.injEq] at heq
      exact ih (storedAfter_id hentry).1.symm heq.2

theorem Chained.transitions (h : Chained ledger last) : Transitions ledger := by
  intro earlier before after later heq hid
  obtain ⟨first, rest, rfl, -, -, hfollows⟩ := h
  obtain ⟨stored, current, hstored, hafter⟩ := hfollows.adjacent rfl heq
  obtain ⟨-, -, ⟨-, hnext⟩ | ⟨hother, -⟩⟩ := storedAfter_cases hafter
  · rwa [hstored] at hnext
  · rw [hstored] at hother; exact absurd hid hother

/-! ## Runs -/

variable {ι : Type} [DecidableEq ι]

/-- A registration that the guard lets through appends an identity that the
ledger does not hold. -/
def registersUnused (s : System ι) : Event ι → Bool
  | .append client =>
    match s.place client with
    | .appending .register expected attempt =>
      maxSequence s.ledger != expected || !identityUsed s.ledger attempt.id
    | _ => true
  | _ => true

/-- The invariant of the allowed runs. -/
structure Distinct (s : System ι) : Prop where
  ordered : Ordered s
  nodup : (introductions s.ledger).Nodup

theorem went_ledger (s : System ι) (client : ι) (result : Except String Place) :
    (s.went client result).ledger = s.ledger := by
  cases result <;> rfl

variable {event : Event ι} {s s' : System ι}

theorem ledger_of_step (h : step s event = some s') : s'.ledger = s.ledger ∨
    (∃ client operation attempt, event = .append client ∧
      s.place client = .appending operation (maxSequence s.ledger) attempt ∧
      s'.ledger = s.ledger ++ [nextEntry s.ledger attempt]) ∨
    (∃ client attempt assumed, s.place client = .importing attempt assumed ∧ s.ledger = [] ∧
      s'.ledger = [nextEntry [] attempt] ++ [nextEntry [nextEntry [] attempt] assumed]) := by
  cases event with
  | append client =>
    simp only [step] at h
    split at h
    · next operation expected attempt hplace =>
      cases h
      cases hwritten : append s.ledger expected attempt with
      | error message => exact Or.inl rfl
      | ok longer =>
        obtain ⟨hexpected, -, rfl⟩ := append_eq_ok hwritten
        rw [hexpected] at hplace
        exact Or.inr (Or.inl ⟨client, operation, attempt, rfl, hplace, rfl⟩)
    · cases h
  | importBoth client =>
    simp only [step] at h
    split at h
    · next attempt assumed hplace =>
      cases h
      cases hwritten : insertBoth s.ledger attempt assumed with
      | error message => exact Or.inl rfl
      | ok longer =>
        obtain ⟨hnil, rfl⟩ := insertBoth_eq_ok hwritten
        exact Or.inr (Or.inr ⟨client, attempt, assumed, hplace, hnil, rfl⟩)
    · cases h
  | _ =>
    left
    simp only [step] at h
    split at h
    · cases h
      exact went_ledger ..
    · cases h

theorem Distinct.step (h : Distinct s) (hallowed : registersUnused s event = true)
    (hstep : step s event = some s') : Distinct s' := by
  refine ⟨h.ordered.step hstep, ?_⟩
  obtain hsame | ⟨client, operation, attempt, rfl, hplace, hledger⟩ |
    ⟨client, attempt, assumed, hplace, hnil, hledger⟩ := ledger_of_step hstep
  · rw [hsame]; exact h.nodup
  · have hclient := h.ordered.clients client
    rw [hplace] at hclient
    obtain ⟨-, -, hready⟩ := hclient
    have hready := hready rfl
    have hfresh : Fresh s.ledger attempt := by
      by_cases hoperation : operation = .register
      · left
        subst hoperation
        simpa [registersUnused, hplace] using hallowed
      · exact hready.fresh hoperation
    rw [hledger]; exact nodup_append hready.comesNext hfresh h.nodup
  · have hclient := h.ordered.clients client
    rw [hplace] at hclient
    obtain ⟨-, hextends, hfirst⟩ := extends_import hclient
    rw [hledger]
    apply nodup_append hextends
    · obtain ⟨current, hcurrent, hattempt⟩ := Sound.nil.chained_append hfirst
      exact Or.inr ⟨current, hcurrent, by rw [hattempt]; exact hclient.2.2.2.2.1⟩
    · exact nodup_singleton _

theorem distinct_of_reaches (h : Reaches step registersUnused (System.empty ι) s) : Distinct s := by
  refine h.invariant Distinct ⟨Ordered.empty, nodup_nil⟩ ?_
  intro s s' event hs hallowed hstep; exact hs.step hallowed hstep

/-- In every run in which a registration never appends an identity that the
ledger holds by then, every reader accepts the ledger: each attempt is
introduced once and its events are transitions of it. -/
theorem readable {s : System ι} (h : Reaches step registersUnused (System.empty ι) s) :
    (∀ id, ∃ found, recorded (output s.ledger) id = .ok found) ∧
      (introductions s.ledger).Nodup ∧ Transitions s.ledger := by
  obtain ⟨⟨⟨hadmitted, hchained⟩, -⟩, hnodup⟩ := distinct_of_reaches h
  refine ⟨?_, hnodup, ?_⟩
  · intro id
    apply (recorded_eq_ok_iff hadmitted id).mpr
    obtain hnil | ⟨last, hlast⟩ := hchained
    · exact Or.inl hnil
    · exact Or.inr ⟨last, hlast, hnodup⟩
  · obtain hnil | ⟨last, hlast⟩ := hchained
    · intro earlier before after later heq
      rw [hnil] at heq; simp at heq
    · exact hlast.transitions

/-- The other side: a registration that appends an identity of the ledger makes
it unreadable, for every reader. -/
theorem not_readable_of_append {allowed : System ι → Event ι → Bool}
    (h : Reaches step allowed (System.empty ι) s) (hstep : step s event = some s')
    (hused : registersUnused s event = false) (hbound : maxSequence s.ledger + 1 < 2 ^ 63)
    (id : Text) : ¬∃ found, recorded (output s'.ledger) id = .ok found := by
  have hordered := ordered_of_reaches h
  have hordered' := hordered.step hstep
  cases event with
  | append client =>
    simp only [registersUnused] at hused
    split at hused
    · next expected attempt hplace =>
      rw [Bool.or_eq_false_iff] at hused
      obtain ⟨hexpected, hused⟩ := hused
      rw [bne_eq_false_iff_eq] at hexpected
      rw [Bool.not_eq_false'] at hused
      have hclient := hordered.clients client
      rw [hplace] at hclient
      have hready := hclient.2.2 hexpected.symm
      have hledger : s'.ledger = s.ledger ++ [nextEntry s.ledger attempt] := by
        simp only [step, hplace, append, hexpected, Option.some.injEq] at hstep
        rw [hexpected] at hbound
        rw [if_pos ⟨trivial, hbound⟩] at hstep
        rw [← hstep]; rfl
      obtain ⟨entry, hentry, -⟩ := mem_of_identityUsed.mp hused
      obtain hnil | ⟨last, hlast⟩ := hordered.ledger.chained
      · simp [hnil] at hentry
      · have hid := hready.other rfl last hlast
        have hnot := not_nodup_append hlast hid hused
        intro hfound
        rw [recorded_eq_ok_iff hordered'.ledger.admitted, hledger] at hfound
        obtain hempty | ⟨_, _, hnodup⟩ := hfound
        · simp at hempty
        · exact hnot hnodup
    · cases hused
  | _ => simp [registersUnused] at hused

/-! ## The run -/

/-- An attempt from the empty basis, its digests of one repeated byte. -/
def planned (letter : Nat) : Attempt :=
  ⟨[letter], [], replicate 64 letter, [], .stop, .notDeployed⟩

/-- `true` looks its identity up; `false` registers the same one, cancels it,
and registers and cancels another; only then does `true` go on. -/
def reuse : List (Event Bool) :=
  [.register true (planned 97), .register false (planned 97), .readRegister false, .append false,
    .recordEvent false [97] .cancel, .append false, .register false (planned 98),
    .readRegister false, .append false, .recordEvent false [98] .cancel, .append false,
    .readRegister true, .append true]

theorem unreadable_run : ∃ s, Reaches step always (System.empty Bool) s ∧
    ∀ found, recorded (output s.ledger) [] ≠ .ok found := by
  have hrun : (run step always (System.empty Bool) reuse).map
      (fun s => match recorded (output s.ledger) [] with | .ok _ => false | .error _ => true) =
      some true := by decide
  obtain ⟨s, hreaches, htest⟩ := reaches_with _ hrun
  refine ⟨s, hreaches, ?_⟩
  intro found hfound
  rw [hfound] at htest
  cases htest

/-- The last step of the run. -/
theorem not_readable_of_append_reuse : ∃ s s' : System Bool,
    Reaches step always (System.empty Bool) s ∧ step s (.append true) = some s' ∧
      ∀ id, ¬∃ found, recorded (output s'.ledger) id = .ok found := by
  have hrun : (run step always (System.empty Bool) reuse.dropLast).map (fun s =>
      (step s (.append true)).isSome && !registersUnused s (.append true) &&
        decide (maxSequence s.ledger + 1 < 2 ^ 63)) = some true := by
    decide
  obtain ⟨s, hreaches, hlast⟩ := reaches_with _ hrun
  rw [Bool.and_eq_true, Bool.and_eq_true, Bool.not_eq_true', Option.isSome_iff_exists,
    decide_eq_true_eq] at hlast
  obtain ⟨⟨⟨s', hstep⟩, hused⟩, hbound⟩ := hlast
  exact ⟨s, s', hreaches, hstep, not_readable_of_append hreaches hstep hused hbound⟩

/-- `true` registers and starts, `false` has a plan refused in between. -/
def started : List (Event Bool) :=
  [.register true (planned 97), .register false (planned 98), .readRegister true,
    .readRegister false, .append true, .append false, .recordEvent true [97] .begins, .append true]

theorem readable_started : ∃ s, Reaches step registersUnused (System.empty Bool) s ∧
    s.ledger.map (fun entry => entry.attempt.state) = [.notDeployed, .started] ∧
    (∀ id, ∃ found, recorded (output s.ledger) id = .ok found) ∧
      (introductions s.ledger).Nodup ∧ Transitions s.ledger := by
  have hrun : (run step registersUnused (System.empty Bool) started).map
      (fun s => decide (s.ledger.map (fun entry => entry.attempt.state) =
        [.notDeployed, .started])) = some true := by decide
  obtain ⟨s, hreaches, htest⟩ := reaches_with _ hrun
  exact ⟨s, hreaches, of_decide_eq_true htest, readable hreaches⟩

end Loom.Deployment

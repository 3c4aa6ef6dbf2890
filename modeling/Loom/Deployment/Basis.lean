import Loom.Deployment.Readable

/-
  The chain of deployed bases.

  `established` is what the ledger is for: the basis that the latest finished,
  rolled back or assumed attempt left. A reader does not compute it; it carries
  the evidence of the last event, and each event kind moves that evidence in
  its own way. `Tracked` relates the two, and one event keeps it
  (`Tracked.after`).

  What is proved, in every interleaving:
    1. A new attempt starts from the established basis, with no attempt under way.
    2. The basis reported as current is the established one, and the attempt it
       is taken from is complete, rolled back or assumed complete.
-/

namespace Loom.Deployment

open Decimal Results Runs List

def establish (basis : Text) (entry : Entry) : Text :=
  match entry.attempt.state with
  | .complete => entry.attempt.toBasis
  | .rollbackComplete => entry.attempt.fromBasis
  | .assumedComplete => entry.attempt.toBasis
  | _ => basis

/-- The basis left by the latest event that completes, rolls back or assumes an
attempt; the empty one if there is none. -/
def established (ledger : List Entry) : Text := ledger.foldl establish []

/-- Started, and neither completed nor rolled back. -/
def underWay : DeploymentState → Bool
  | .started | .failed | .rollbackStarted | .rollbackFailed => true
  | _ => false

/-- The latest event of some attempt leaves it under way. -/
def Unresolved (ledger : List Entry) : Prop :=
  ∃ earlier event later, ledger = earlier ++ event :: later ∧
    underWay event.attempt.state = true ∧ ∀ other ∈ later, other.attempt.id ≠ event.attempt.id

/-- `entry` is of another attempt than the event before it. -/
def Introduces (before : List Entry) (entry : Entry) : Prop :=
  ∀ last ∈ before.getLast?, last.attempt.id ≠ entry.attempt.id

/-- `attempt`, as its latest event leaves it, is where the evidence is taken from. -/
def TakenFrom (ledger : List Entry) (evidence : BasisEvidence) (attempt : Attempt) : Prop :=
  ∃ earlier event later, ledger = earlier ++ event :: later ∧ event.attempt = attempt ∧
    effective attempt = evidence ∧ ∀ other ∈ later, other.attempt.id ≠ attempt.id

def current (ledger : List Entry) : Except String BasisEvidence := do
  match ← latest ledger with
  | some value => .ok value.evidence
  | none => .ok .none

/-! ## Evidence and the established basis -/

/-- The evidence of an event is the established basis. Without evidence the
attempt is under way, or nothing has been established. -/
def Tracked (stored : Stored) (basis : Text) : Prop :=
  match stored.evidence with
  | .observed observed => observed = basis
  | .assumed assumed => assumed = basis
  | .none => underWay stored.attempt.state = true ∨
      ((stored.attempt.state = .notDeployed ∨ stored.attempt.state = .cancelled) ∧
        stored.attempt.fromBasis = [] ∧ basis = [])

variable {basis : Text} {before attempt : Attempt} {entry : Entry} {entries : List Entry}
  {previous last : Stored} {ledger earlier : List Entry} {event other : Entry}

theorem Tracked.none {stored : Stored} (h : Tracked stored basis)
    (hevidence : stored.evidence = .none) : underWay stored.attempt.state = true ∨
      ((stored.attempt.state = .notDeployed ∨ stored.attempt.state = .cancelled) ∧
        stored.attempt.fromBasis = [] ∧ basis = []) := by
  rw [Tracked, hevidence] at h; exact h

theorem fromBasis_of_nextState {after : Attempt} (h : nextState before after = true) :
    after.fromBasis = before.fromBasis := by
  simp only [nextState, sameAttemptPlan, Bool.and_eq_true, beq_iff_eq] at h
  exact h.1.1.1.1.2.symm

/-- A new attempt starts from the basis tracked so far, and nothing is under way. -/
theorem Tracked.anew {before : Stored} (h : Tracked before basis)
    (hnew : newAttempt before attempt = true)
    (hstate : before.evidence ≠ .none → underWay before.attempt.state = false) :
    attempt.state = .notDeployed ∧ attempt.fromBasis = basis ∧
      underWay before.attempt.state = false := by
  simp only [newAttempt, Bool.and_eq_true, beq_iff_eq] at hnew
  obtain ⟨hnotDeployed, hbasis⟩ := hnew
  cases hevidence : before.evidence with
  | none =>
    rw [hevidence] at hbasis
    simp only [Bool.and_eq_true, Bool.or_eq_true, beq_iff_eq] at hbasis
    have hresolved : underWay before.attempt.state = false := by
      obtain hbefore | hbefore := hbasis.1.1 <;> rw [hbefore] <;> rfl
    obtain hunder | ⟨-, -, hempty⟩ := h.none hevidence
    · rw [hresolved] at hunder
      cases hunder
    · exact ⟨hnotDeployed, by rw [hbasis.2, hempty], hresolved⟩
  | observed observed =>
    rw [hevidence] at hbasis
    rw [Tracked, hevidence] at h
    exact ⟨hnotDeployed, by rw [← beq_iff_eq.mp hbasis]; exact h, hstate (by simp [hevidence])⟩
  | assumed assumed =>
    rw [hevidence] at hbasis
    rw [Tracked, hevidence] at h
    exact ⟨hnotDeployed, by rw [← beq_iff_eq.mp hbasis]; exact h, hstate (by simp [hevidence])⟩

/-- An attempt under way leaves no evidence. -/
def Witnessed (stored : Stored) : Prop :=
  stored.evidence ≠ .none → underWay stored.attempt.state = false

theorem Witnessed.later (before : Stored) (entry : Entry) :
    Witnessed ⟨entry.sequence, entry.attempt, laterEvidence before entry.attempt⟩ := by
  intro hevidence
  simp only [laterEvidence, effective] at hevidence
  cases hstate : entry.attempt.state <;> simp [hstate] at hevidence <;> rfl

theorem nextState_cancelled {after : Attempt} (h : nextState before after = true)
    (hstate : after.state = .cancelled) : before.state = .notDeployed := by
  simp only [nextState, hstate] at h
  cases hbefore : before.state <;> simp [hbefore] at h
  rfl

theorem nextState_ne_notDeployed {after : Attempt} (h : nextState before after = true) :
    after.state ≠ .notDeployed := by
  intro hstate
  simp only [nextState, hstate] at h
  cases hbefore : before.state <;> simp [hbefore] at h

/-- A planned or withdrawn attempt keeps the evidence, and the established basis. -/
theorem Tracked.kept {before : Stored} (h : Tracked before basis) {sequence : Int}
    (hstate : attempt.state = .notDeployed ∨ attempt.state = .cancelled)
    (hbefore : underWay before.attempt.state = false)
    (hfrom : before.attempt.fromBasis = [] → basis = [] → attempt.fromBasis = []) :
    Tracked ⟨sequence, attempt, laterEvidence before attempt⟩ basis := by
  rw [laterEvidence, if_pos hstate]
  cases hevidence : before.evidence with
  | none =>
    obtain hunder | ⟨-, hempty, hbasis⟩ := h.none hevidence
    · rw [hbefore] at hunder
      cases hunder
    · exact Or.inr ⟨hstate, hfrom hempty hbasis, hbasis⟩
  | observed observed =>
    rw [Tracked, hevidence] at h; exact h
  | assumed assumed =>
    rw [Tracked, hevidence] at h; exact h

/-- One event: the evidence keeps up with the established basis. -/
theorem Tracked.after {before current : Stored} (h : Tracked before basis)
    (hwitnessed : Witnessed before) (hentry : storedAfter before entry.stored = .ok current) :
    Tracked current (establish basis entry) ∧ Witnessed current := by
  obtain ⟨-, rfl, hkind⟩ := Entry.after_cases hentry
  refine ⟨?_, Witnessed.later before entry⟩
  obtain ⟨-, hnext⟩ | ⟨-, hnew⟩ := hkind
  · have hfrom := fromBasis_of_nextState hnext
    -- one case for each state of the event; a cancelled plan keeps what was before it
    cases hstate : entry.attempt.state with
    | cancelled =>
      have hbefore := nextState_cancelled hnext hstate
      have hkept : establish basis entry = basis := by simp [establish, hstate]
      rw [hkept]
      apply h.kept (Or.inr hstate)
      · rw [hbefore]; rfl
      · intro hempty _
        rw [hfrom, hempty]
    | notDeployed => exact absurd hstate (nextState_ne_notDeployed hnext)
    | started => simp [Tracked, laterEvidence, effective, hstate, underWay]
    | failed => simp [Tracked, laterEvidence, effective, hstate, underWay]
    | complete => simp [Tracked, laterEvidence, effective, establish, hstate]
    | rollbackStarted => simp [Tracked, laterEvidence, effective, hstate, underWay]
    | rollbackFailed => simp [Tracked, laterEvidence, effective, hstate, underWay]
    | rollbackComplete => simp [Tracked, laterEvidence, effective, establish, hstate]
    | assumedComplete => simp [Tracked, laterEvidence, effective, establish, hstate]
  · obtain ⟨hstate, hfrom, hresolved⟩ := h.anew hnew hwitnessed
    have hkept : establish basis entry = basis := by simp [establish, hstate]
    rw [hkept]
    apply h.kept (Or.inl hstate) hresolved
    intro _ hbasis
    rw [hfrom, hbasis]

theorem Follows.tracked (h : Follows previous entries last) (hprevious : Tracked previous basis)
    (hwitnessed : Witnessed previous) :
    Tracked last (entries.foldl establish basis) ∧ Witnessed last := by
  induction h generalizing basis with
  | done previous => exact ⟨hprevious, hwitnessed⟩
  | next hentry _ ih =>
    obtain ⟨htracked, hlater⟩ := hprevious.after hwitnessed hentry
    exact ih htracked hlater

theorem Chained.tracked (h : Chained ledger last) :
    Tracked last (established ledger) ∧ Witnessed last := by
  obtain ⟨first, rest, rfl, hstate, hbasis, hfollows⟩ := h
  have hnone : establish [] first = [] := by simp [establish, hstate]
  have hfirst : Tracked first.stored (establish [] first) := by
    rw [hnone]; exact Or.inr ⟨Or.inl hstate, hbasis, rfl⟩
  exact hfollows.tracked hfirst (by simp [Witnessed, Entry.stored])

/-! ## Prefixes of a ledger -/

theorem Follows.split {later : List Entry} (h : Follows previous (earlier ++ later) last) :
    ∃ middle, Follows previous earlier middle ∧ Follows middle later last := by
  induction earlier generalizing previous with
  | nil => exact ⟨previous, .done previous, h⟩
  | cons entry rest ih =>
    cases h with
    | next hentry hrest =>
      obtain ⟨middle, hearlier, hlater⟩ := ih hrest
      exact ⟨middle, .next hentry hearlier, hlater⟩

theorem Chained.split {later : List Entry} (h : Chained (earlier ++ later) last)
    (hearlier : earlier ≠ []) : ∃ middle, Chained earlier middle ∧ Follows middle later last := by
  obtain ⟨first, rest, heq, hstate, hbasis, hfollows⟩ := h
  cases earlier with
  | nil => exact absurd rfl hearlier
  | cons head tail =>
    simp only [cons_append, cons.injEq] at heq
    obtain ⟨rfl, rfl⟩ := heq
    obtain ⟨middle, hfirst, hlater⟩ := hfollows.split
    exact ⟨middle, ⟨head, tail, rfl, hstate, hbasis, hfirst⟩, hlater⟩

theorem Follows.getLast (h : Follows previous entries last) :
    ((entries.getLast?.map Entry.attempt).getD previous.attempt) = last.attempt := by
  induction h with
  | done previous => rfl
  | @next previous current last entry rest hentry _ ih =>
    rw [(storedAfter_id hentry).1] at ih
    cases rest with
    | nil => exact ih
    | cons head tail =>
      rw [getLast?_cons_cons]
      cases hlast : (head :: tail).getLast? with
      | none => simp at hlast
      | some found =>
        rw [hlast] at ih; exact ih

theorem Chained.getLast (h : Chained ledger last) :
    ∃ entry, ledger.getLast? = some entry ∧ entry.attempt = last.attempt := by
  obtain ⟨first, rest, rfl, -, -, hfollows⟩ := h
  have hlast := hfollows.getLast
  cases rest with
  | nil => exact ⟨first, rfl, hlast⟩
  | cons head tail =>
    rw [getLast?_cons_cons]
    cases hfound : (head :: tail).getLast? with
    | none => simp at hfound
    | some found =>
      rw [hfound] at hlast; exact ⟨found, rfl, hlast⟩

/-- What holds where a ledger goes on with another attempt. -/
theorem Chained.introduces {before after : List Entry} (h : Chained (before ++ entry :: after) last)
    (hnil : before ≠ []) (hintroduces : Introduces before entry) :
    entry.attempt.fromBasis = established before ∧
      ∀ previous ∈ before.getLast?, underWay previous.attempt.state = false := by
  obtain ⟨middle, hbefore, hlater⟩ := h.split hnil
  obtain ⟨previous, hprevious, hattempt⟩ := hbefore.getLast
  cases hlater with
  | next hentry _ =>
    have hid : entry.attempt.id ≠ middle.attempt.id := by
      intro heq
      apply hintroduces previous hprevious
      rw [hattempt, heq]
    obtain ⟨htracked, hwitnessed⟩ := hbefore.tracked
    obtain ⟨-, -, ⟨hsame, -⟩ | ⟨-, hnew⟩⟩ := Entry.after_cases hentry
    · exact absurd hsame hid
    · obtain ⟨-, hfrom, hresolved⟩ := htracked.anew hnew hwitnessed
      refine ⟨hfrom, ?_⟩
      intro other hother
      rw [hprevious, Option.mem_some] at hother
      rw [← hother, hattempt]; exact hresolved

/-- An attempt under way can only be the one of the last event. -/
theorem Chained.not_unresolved {before after : List Entry}
    (h : Chained (before ++ entry :: after) last) (hintroduces : Introduces before entry) :
    ¬Unresolved before := by
  intro hunresolved
  obtain ⟨earlier, event, later, rfl, hunder, hothers⟩ := hunresolved
  cases later with
  | nil =>
    have hresolved := (h.introduces (by simp) hintroduces).2 event (by simp)
    rw [hresolved] at hunder
    cases hunder
  | cons other later =>
    have heq : (earlier ++ event :: other :: later) ++ entry :: after =
        (earlier ++ [event]) ++ other :: (later ++ entry :: after) := by simp
    rw [heq] at h
    have hother : Introduces (earlier ++ [event]) other := by
      intro found hfound
      rw [getLast?_concat, Option.mem_some] at hfound
      rw [← hfound]; exact (hothers other (.head _)).symm
    have hresolved := (h.introduces (by simp) hother).2 event (by simp)
    rw [hresolved] at hunder
    cases hunder

/-! ## The attempt behind the evidence -/

/-- The evidence is of an event after which plans were only made or withdrawn. -/
def Behind (ledger : List Entry) (evidence : BasisEvidence) : Prop :=
  ∃ earlier event later, ledger = earlier ++ event :: later ∧
    effective event.attempt = evidence ∧
    ∀ other ∈ later, other.attempt.state = .notDeployed ∨ other.attempt.state = .cancelled

theorem Follows.behind (h : Follows previous entries last) (earlier : List Entry)
    (hprevious : previous.evidence ≠ .none → Behind earlier previous.evidence) :
    last.evidence ≠ .none → Behind (earlier ++ entries) last.evidence := by
  induction h generalizing earlier with
  | done previous =>
    rw [append_nil]; exact hprevious
  | @next previous current last entry rest hentry _ ih =>
    have heq : earlier ++ entry :: rest = (earlier ++ [entry]) ++ rest := by simp
    rw [heq]
    apply ih
    obtain ⟨-, rfl, -⟩ := Entry.after_cases hentry
    intro hevidence
    unfold laterEvidence at hevidence ⊢
    split at hevidence
    · next hplan =>
      rw [if_pos hplan]
      obtain ⟨before, event, later, rfl, heffective, hlater⟩ := hprevious hevidence
      refine ⟨before, event, later ++ [entry], by simp, heffective, ?_⟩
      intro other hother
      rw [mem_append, mem_singleton] at hother
      obtain hother | rfl := hother
      · exact hlater other hother
      · exact hplan
    · next hplan =>
      rw [if_neg hplan]; exact ⟨earlier, entry, [], rfl, rfl, by simp⟩

theorem Chained.behind (h : Chained ledger last) (hevidence : last.evidence ≠ .none) :
    Behind ledger last.evidence := by
  obtain ⟨first, rest, rfl, -, -, hfollows⟩ := h
  exact hfollows.behind [first] (fun hfirst => absurd rfl hfirst) hevidence

theorem introduced_split (previous : Text) (earlier : List Entry) (later : List Entry)
    (hid : other.attempt.id ≠ event.attempt.id) :
    introduced previous (earlier ++ event :: other :: later) =
      introduced previous (earlier ++ [event]) ++ introductions (other :: later) := by
  induction earlier generalizing previous with
  | nil =>
    simp only [nil_append, introduced, introductions]
    split
    · next hsame => rw [if_neg (by rw [← hsame]; exact hid), nil_append]
    · rfl
  | cons entry rest ih =>
    simp only [cons_append, introduced]
    split
    · exact ih previous
    · rw [ih, cons_append]

theorem introductions_split (earlier : List Entry) (later : List Entry)
    (hid : other.attempt.id ≠ event.attempt.id) :
    introductions (earlier ++ event :: other :: later) =
      introductions (earlier ++ [event]) ++ introductions (other :: later) := by
  cases earlier with
  | nil => simp [introductions, introduced, hid]
  | cons entry rest =>
    simp only [cons_append, introductions]
    rw [introduced_split _ rest later hid]; rfl

/-- After its last event, an attempt of a readable ledger is not seen again. -/
theorem not_seen_again {later : List Entry}
    (hnodup : (introductions (earlier ++ event :: other :: later)).Nodup)
    (hid : other.attempt.id ≠ event.attempt.id) :
    ∀ seen ∈ other :: later, seen.attempt.id ≠ event.attempt.id := by
  intro seen hseen heq
  rw [introductions_split earlier later hid, List.nodup_append] at hnodup
  have hevent : event.attempt.id ∈ introductions (earlier ++ [event]) := by
    rw [mem_introductions, mem_of_identityUsed]; exact ⟨event, by simp, rfl⟩
  have hagain : seen.attempt.id ∈ introductions (other :: later) := by
    rw [mem_introductions, mem_of_identityUsed]; exact ⟨seen, hseen, rfl⟩
  exact hnodup.2.2 _ hevent _ hagain heq.symm

/-- An attempt that leaves evidence is complete, rolled back or assumed complete. -/
theorem state_of_effective (h : effective attempt ≠ .none) :
    attempt.state = .complete ∨ attempt.state = .rollbackComplete ∨
      attempt.state = .assumedComplete := by
  unfold effective at h
  split at h
  · next hstate => exact Or.inl hstate
  · next hstate => exact Or.inr (Or.inl hstate)
  · next hstate => exact Or.inr (Or.inr hstate)
  · exact absurd rfl h

/-- No plan of the same attempt follows such an event. -/
theorem nextState_of_effective {after : Attempt} (h : effective before ≠ .none)
    (hnext : nextState before after = true) :
    ¬(after.state = .notDeployed ∨ after.state = .cancelled) := by
  intro hplan
  obtain hplan | hplan := hplan
  · exact nextState_ne_notDeployed hnext hplan
  · have hbefore := nextState_cancelled hnext hplan
    simp [effective, hbefore] at h

theorem Behind.takenFrom {evidence : BasisEvidence} (h : Behind ledger evidence)
    (hevidence : evidence ≠ .none) (htransitions : Transitions ledger)
    (hnodup : (introductions ledger).Nodup) : ∃ attempt, TakenFrom ledger evidence attempt := by
  obtain ⟨earlier, event, later, rfl, heffective, hlater⟩ := h
  refine ⟨event.attempt, earlier, event, later, rfl, rfl, heffective, ?_⟩
  cases later with
  | nil => simp
  | cons other later =>
    apply not_seen_again hnodup
    intro hid
    have hnext := htransitions earlier event other later rfl hid
    have hplan := hlater other (.head _)
    exact nextState_of_effective (by rw [heffective]; exact hevidence) hnext hplan

/-! ## Runs -/

theorem Sound.current (h : Sound ledger) {evidence : BasisEvidence}
    (hcurrent : current ledger = .ok evidence) (hevidence : evidence ≠ .none) :
    (evidence = .observed (established ledger) ∨ evidence = .assumed (established ledger)) ∧
      ∃ attempt, TakenFrom ledger evidence attempt := by
  simp only [Deployment.current, bind_eq_ok] at hcurrent
  obtain ⟨found, hlatest, hcurrent⟩ := hcurrent
  cases found with
  | none =>
    cases hcurrent
    exact absurd rfl hevidence
  | some last =>
    cases hcurrent
    obtain ⟨-, hfound⟩ | ⟨other, hchained, hnodup, hfound⟩ := chained_of_recorded h.admitted hlatest
    · cases hfound
    · cases hfound rfl
      refine ⟨?_, (hchained.behind hevidence).takenFrom hevidence hchained.transitions hnodup⟩
      have htracked := hchained.tracked.1
      cases hlast : last.evidence with
      | none => exact absurd hlast hevidence
      | observed basis =>
        rw [Tracked, hlast] at htracked; exact Or.inl (by rw [← htracked])
      | assumed basis =>
        rw [Tracked, hlast] at htracked; exact Or.inr (by rw [← htracked])

variable {ι : Type} [DecidableEq ι]

/-- In every interleaving: a new attempt starts from the established basis, with
no attempt under way; the basis reported as current is the established one, and
it is taken from an attempt that is complete, rolled back or assumed complete. -/
theorem basisChain {s : System ι} (h : Reaches step always (System.empty ι) s) :
    (∀ before entry after, s.ledger = before ++ entry :: after → Introduces before entry →
      entry.attempt.fromBasis = established before ∧ ¬Unresolved before) ∧
    (∀ evidence, current s.ledger = .ok evidence → evidence ≠ .none →
      (evidence = .observed (established s.ledger) ∨ evidence = .assumed (established s.ledger)) ∧
      ∃ attempt, TakenFrom s.ledger evidence attempt ∧
        (attempt.state = .complete ∨ attempt.state = .rollbackComplete ∨
          attempt.state = .assumedComplete)) := by
  have hsound := (ordered_of_reaches h).ledger
  refine ⟨?_, ?_⟩
  · intro before entry after heq hintroduces
    obtain hnil | ⟨last, hlast⟩ := hsound.chained
    · rw [hnil] at heq; simp at heq
    · rw [heq] at hlast
      refine ⟨?_, hlast.not_unresolved hintroduces⟩
      cases before with
      | nil =>
        obtain ⟨first, rest, hcons, -, hbasis, -⟩ := hlast
        cases hcons
        exact hbasis
      | cons head tail => exact (hlast.introduces (by simp) hintroduces).1
  · intro evidence hcurrent hevidence
    obtain ⟨hbasis, attempt, htaken⟩ := hsound.current hcurrent hevidence
    refine ⟨hbasis, attempt, htaken, ?_⟩
    obtain ⟨-, -, -, -, -, heffective, -⟩ := htaken
    apply state_of_effective
    rw [heffective]; exact hevidence

/-- A plan is replaced, the second one completes, and a third starts from it. -/
def upgraded : List (Event Bool) :=
  [.register true (planned 97), .readRegister true, .append true,
    .replace false [97] (planned 98), .checkReplacement false, .append false,
    .recordEvent true [98] .begins, .append true, .recordEvent true [98] .finish, .append true,
    .register false { planned 99 with fromBasis := replicate 64 98 }, .readRegister false,
    .append false]

theorem basisChain_upgraded : ∃ s, Reaches step always (System.empty Bool) s ∧
    current s.ledger = .ok (.observed (replicate 64 98)) ∧
    (∀ before entry after, s.ledger = before ++ entry :: after → Introduces before entry →
      entry.attempt.fromBasis = established before ∧ ¬Unresolved before) := by
  have hrun : (run step always (System.empty Bool) upgraded).map
      (fun s => match current s.ledger with
        | .ok evidence => decide (evidence = .observed (replicate 64 98))
        | .error _ => false) = some true := by decide
  obtain ⟨s, hreaches, htest⟩ := reaches_with _ hrun
  refine ⟨s, hreaches, ?_, (basisChain hreaches).1⟩
  cases hcurrent : current s.ledger with
  | error message =>
    rw [hcurrent] at htest
    cases htest
  | ok evidence =>
    rw [hcurrent] at htest
    rw [of_decide_eq_true htest]

end Loom.Deployment

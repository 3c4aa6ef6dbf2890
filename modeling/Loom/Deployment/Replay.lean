import Loom.Deployment.Attempts

/-
  The rows of the deployment ledger, the text the database tool prints of them,
  and what `recorded` makes of that text.

  `recorded` splits the text into lines and columns and parses them back. Its
  replay is followed here on the rows themselves: `Follows` is the chain of
  accepted events after a given one, `introductions` are the attempts in the
  order in which they first appear.
-/

namespace Loom.Deployment

open Decimal Results List

/-- A row of loom_deploy_events. -/
structure Entry where
  sequence : Int
  attempt : Attempt
  deriving DecidableEq

def Entry.stored (entry : Entry) : Stored := ⟨entry.sequence, entry.attempt, .none⟩

/-- A row that the table and `valid` let in. -/
structure Entry.Admitted (entry : Entry) : Prop where
  attempt : valid entry.attempt = true
  positive : 0 < entry.sequence
  bounded : entry.sequence < 2 ^ 63

def columns (entry : Entry) : List Text :=
  [toText entry.sequence, entry.attempt.id, entry.attempt.fromBasis, entry.attempt.toBasis,
    entry.attempt.planDigest, toText (policyNumber entry.attempt.policy),
    toText (stateNumber entry.attempt.state)]

def row (entry : Entry) : Text := [9].intercalate (columns entry)

/-- The answer to the SELECT of `recorded`, in the order of the sequence numbers. -/
def output : List Entry → Text
  | [] => []
  | entry :: rest => row entry ++ 10 :: output rest

/-! ## Columns and lines -/

variable {byte : Nat} {value : Text} {entry : Entry} {entries : List Entry}
  {previous last current before : Stored}

theorem mem_identifier (h : identifier value = true) (hbyte : byte ∈ value) : 11 ≤ byte := by
  simp only [identifier, Bool.and_eq_true, all_eq_true] at h
  have hpart := h.2 byte hbyte
  simp only [Bool.or_eq_true, Bool.and_eq_true, decide_eq_true_eq, beq_iff_eq] at hpart
  omega

theorem mem_digest (h : digest value = true) (hbyte : byte ∈ value) : 11 ≤ byte := by
  simp only [digest, Bool.and_eq_true, all_eq_true] at h
  have hpart := h.2 byte hbyte
  simp only [Bool.or_eq_true, Bool.and_eq_true, decide_eq_true_eq] at hpart
  omega

theorem mem_optional_digest (h : (value == [] || digest value) = true) (hbyte : byte ∈ value) :
    11 ≤ byte := by
  rw [Bool.or_eq_true] at h
  obtain hempty | hdigest := h
  · rw [beq_iff_eq] at hempty; simp [hempty] at hbyte
  · exact mem_digest hdigest hbyte

theorem mem_number {value : Int} (hbyte : byte ∈ toText value) : 11 ≤ byte := by
  have := mem_toText hbyte
  omega

theorem mem_columns (h : valid entry.attempt = true) {column : Text}
    (hcolumn : column ∈ columns entry) (hbyte : byte ∈ column) : 11 ≤ byte := by
  simp only [valid, Bool.and_eq_true] at h
  obtain ⟨⟨⟨hid, hfrom⟩, hto⟩, hplan⟩ := h
  simp only [columns, mem_cons, not_mem_nil, or_false] at hcolumn
  obtain rfl | rfl | rfl | rfl | rfl | rfl | rfl := hcolumn
  · exact mem_number hbyte
  · exact mem_identifier hid hbyte
  · exact mem_optional_digest hfrom hbyte
  · exact mem_digest hto hbyte
  · exact mem_optional_digest hplan hbyte
  · exact mem_number hbyte
  · exact mem_number hbyte

theorem splitOn_row (h : valid entry.attempt = true) : (row entry).splitOn 9 = columns entry := by
  apply splitOn_intercalate
  · intro column hcolumn hnine
    have := mem_columns h hcolumn hnine
    omega
  · simp [columns]

theorem mem_row (h : valid entry.attempt = true) (hbyte : byte ∈ row entry) :
    byte = 9 ∨ 11 ≤ byte := by
  simp only [row, List.intercalate, mem_flatten] at hbyte
  obtain ⟨part, hpart, hbyte⟩ := hbyte
  by_cases hcolumn : part ∈ columns entry
  · exact Or.inr (mem_columns h hcolumn hbyte)
  · left
    have hseparator : part = [9] := by
      simp only [columns, List.intersperse, mem_cons] at hpart
      simp only [columns] at hcolumn; grind
    rw [hseparator] at hbyte; exact mem_singleton.mp hbyte

theorem row_ne_nil (entry : Entry) : row entry ≠ [] := by
  have hnumber := toText_ne_nil entry.sequence
  intro hrow; simp [row, columns] at hrow

/-- The lines of the answer; the last one is what follows the last line end. -/
theorem splitOn_output (h : ∀ entry ∈ entries, valid entry.attempt = true) :
    (output entries).splitOn 10 = entries.map row ++ [[]] := by
  induction entries with
  | nil => rfl
  | cons entry rest ih =>
    have hten : 10 ∉ row entry := by
      intro hten
      have := mem_row (h entry (by simp)) hten
      omega
    have hrest := ih (fun e he => h e (.tail _ he))
    calc (output (entry :: rest)).splitOn 10
        = row entry :: (output rest).splitOn 10 := splitOn_append_cons_self_of_not_mem hten _
      _ = (entry :: rest).map row ++ [[]] := by rw [hrest]; rfl

theorem integer_toText {value : Int} (hlow : -2 ^ 63 ≤ value) (hhigh : value < 2 ^ 63) :
    integer (toText value) = .ok value := by
  rw [integer, parse_toText hlow hhigh]

theorem fromPolicy_policyNumber (policy : FailurePolicy) :
    fromPolicy (policyNumber policy) = .ok policy := by
  cases policy <;> rfl

theorem fromState_stateNumber (state : DeploymentState) :
    fromState (stateNumber state) = .ok state := by
  cases state <;> rfl

theorem storedLine_row (h : entry.Admitted) : storedLine (row entry) = .ok entry.stored := by
  have hsequence : integer (toText entry.sequence) = .ok entry.sequence :=
    integer_toText (by have := h.positive; omega) h.bounded
  have hpolicy : integer (toText (policyNumber entry.attempt.policy)) =
      .ok (policyNumber entry.attempt.policy) := by
    apply integer_toText <;> cases entry.attempt.policy <;> simp [policyNumber]
  have hstate : integer (toText (stateNumber entry.attempt.state)) =
      .ok (stateNumber entry.attempt.state) := by
    apply integer_toText <;> cases entry.attempt.state <;> simp [stateNumber]
  have hpositive : ¬ entry.sequence ≤ 0 := by
    have := h.positive
    omega
  unfold storedLine
  rw [splitOn_row h.attempt]
  simp only [columns, hsequence, hpolicy, hstate, ok_bind, fromPolicy_policyNumber,
    fromState_stateNumber]
  simp [hpositive, h.attempt, Entry.stored]

/-! ## The replay on rows -/

/-- The events that are accepted one after another after `previous`, and the
last of them. -/
inductive Follows : Stored → List Entry → Stored → Prop
  | done (previous : Stored) : Follows previous [] previous
  | next {previous current last : Stored} {entry : Entry} {rest : List Entry} :
      storedAfter previous entry.stored = .ok current → Follows current rest last →
      Follows previous (entry :: rest) last

theorem Follows.snoc (h : Follows previous entries last)
    (hentry : storedAfter last entry.stored = .ok current) :
    Follows previous (entries ++ [entry]) current := by
  induction h with
  | done previous => exact .next hentry (.done current)
  | next hnext _ ih => exact .next hnext (ih hentry)

/-- The identities that appear anew after an event of `previous`. -/
def introduced (previous : Text) : List Entry → List Text
  | [] => []
  | entry :: rest =>
    if entry.attempt.id = previous then introduced previous rest
    else entry.attempt.id :: introduced entry.attempt.id rest

def introductions : List Entry → List Text
  | [] => []
  | entry :: rest => entry.attempt.id :: introduced entry.attempt.id rest

/-- The evidence of the event after `last`. -/
def laterEvidence (last : Stored) (attempt : Attempt) : BasisEvidence :=
  if attempt.state = .notDeployed ∨ attempt.state = .cancelled then last.evidence
  else effective attempt

theorem storedAfter_cases {after : Stored} (h : storedAfter before after = .ok current) :
    before.sequence < after.sequence ∧
      current = ⟨after.sequence, after.attempt, laterEvidence before after.attempt⟩ ∧
      ((after.attempt.id = before.attempt.id ∧ nextState before.attempt after.attempt = true) ∨
        (after.attempt.id ≠ before.attempt.id ∧ newAttempt before after.attempt = true)) := by
  simp only [storedAfter] at h
  split at h
  · cases h
  · next hsequence =>
    have hlt : before.sequence < after.sequence := by omega
    split at h
    · next hid =>
      split at h
      · next hnext =>
        cases h
        exact ⟨hlt, rfl, Or.inl ⟨hid, hnext⟩⟩
      · cases h
    · next hid =>
      split at h
      · next hnew =>
        cases h
        exact ⟨hlt, rfl, Or.inr ⟨hid, hnew⟩⟩
      · cases h

theorem Entry.after_cases (h : storedAfter before entry.stored = .ok current) :
    before.sequence < entry.sequence ∧
      current = ⟨entry.sequence, entry.attempt, laterEvidence before entry.attempt⟩ ∧
      ((entry.attempt.id = before.attempt.id ∧ nextState before.attempt entry.attempt = true) ∨
        (entry.attempt.id ≠ before.attempt.id ∧ newAttempt before entry.attempt = true)) :=
  storedAfter_cases h

theorem storedAfter_id {after : Stored} (h : storedAfter before after = .ok current) :
    current.attempt = after.attempt ∧ current.sequence = after.sequence := by
  obtain ⟨-, rfl, -⟩ := storedAfter_cases h
  exact ⟨rfl, rfl⟩

/-- The loop accepts the lines of rows that follow one another with no identity
introduced twice. -/
theorem recordedRest_isOk (hadmitted : ∀ entry ∈ entries, entry.Admitted)
    (h : Follows previous entries last) {seen : List Text} (id : Text)
    (hseen : (seen ++ introduced previous.attempt.id entries).Nodup) (selected : Option Stored) :
    ∃ chosen, recordedRest id previous seen selected (entries.map row ++ [[]]) =
      .ok (last, chosen) := by
  induction h generalizing seen selected with
  | done previous =>
    exact ⟨selected, rfl⟩
  | @next previous current last entry rest hentry _ ih =>
    obtain ⟨hattempt, -⟩ := storedAfter_id hentry
    have hread := storedLine_row (hadmitted entry (by simp))
    have hrest : ∀ e ∈ rest, e.Admitted := fun e he => hadmitted e (.tail _ he)
    rw [map_cons, cons_append, recordedRest, if_pos (row_ne_nil entry), hread, ok_bind,
      hentry, ok_bind, hattempt]
    rw [hattempt] at ih
    show ∃ chosen, (if entry.attempt.id ≠ previous.attempt.id then _ else _) = _
    by_cases hsame : entry.attempt.id = previous.attempt.id
    · rw [if_neg (by simp [hsame])]
      apply ih hrest
      rw [introduced, if_pos hsame, ← hsame] at hseen; exact hseen
    · rw [introduced, if_neg hsame] at hseen
      have hunseen : entry.stored.attempt.id ∉ seen := by
        intro hmem; exact (nodup_append.mp hseen).2.2 _ hmem _ (.head _) rfl
      rw [if_pos hsame, if_neg hunseen]
      apply ih hrest
      rwa [append_assoc]

/-- What the loop accepts follows, and introduces no identity seen before. -/
theorem follows_of_recordedRest {id : Text} (hadmitted : ∀ entry ∈ entries, entry.Admitted)
    {seen : List Text} (hnodup : seen.Nodup) {selected chosen : Option Stored}
    (h : recordedRest id previous seen selected (entries.map row ++ [[]]) = .ok (last, chosen)) :
    Follows previous entries last ∧ (seen ++ introduced previous.attempt.id entries).Nodup := by
  induction entries generalizing previous seen selected with
  | nil =>
    have hlast : previous = last := by
      simp [recordedRest] at h; exact h.1
    rw [← hlast]; exact ⟨.done previous, by simpa [introduced] using hnodup⟩
  | cons entry rest ih =>
    have hread := storedLine_row (hadmitted entry (by simp))
    have hrest : ∀ e ∈ rest, e.Admitted := fun e he => hadmitted e (.tail _ he)
    rw [map_cons, cons_append, recordedRest, if_pos (row_ne_nil entry), hread, ok_bind,
      bind_eq_ok] at h
    obtain ⟨current, hentry, h⟩ := h
    obtain ⟨hattempt, -⟩ := storedAfter_id hentry
    simp only [hattempt] at h
    have hid : current.attempt.id = entry.attempt.id := congrArg Attempt.id hattempt
    by_cases hsame : entry.attempt.id = previous.attempt.id
    · have hkept : entry.stored.attempt.id = previous.attempt.id := hsame
      rw [if_neg (by simp [hkept])] at h
      obtain ⟨hfollows, hseen⟩ := ih hrest hnodup h
      refine ⟨.next hentry hfollows, ?_⟩
      rw [introduced, if_pos hsame, ← hsame, ← hid]; exact hseen
    · have hnew : entry.stored.attempt.id ≠ previous.attempt.id := hsame
      rw [if_pos hnew] at h
      split at h
      · cases h
      · next hunseen =>
        have hlonger : (seen ++ [entry.attempt.id]).Nodup := by
          rw [nodup_append]
          refine ⟨hnodup, by simp, ?_⟩
          intro other hother fresh hfresh heq
          rw [mem_singleton] at hfresh
          rw [heq, hfresh] at hother; exact hunseen hother
        obtain ⟨hfollows, hseen⟩ := ih hrest hlonger h
        refine ⟨.next hentry hfollows, ?_⟩
        rw [introduced, if_neg hsame]
        rw [hid, append_assoc] at hseen; exact hseen

/-- The events of a ledger, from its first row, follow one another. -/
def Chained (entries : List Entry) (last : Stored) : Prop :=
  ∃ first rest, entries = first :: rest ∧ first.attempt.state = .notDeployed ∧
    first.attempt.fromBasis = [] ∧ Follows first.stored rest last

variable (hadmitted : ∀ entry ∈ entries, entry.Admitted)
include hadmitted

/-- What an accepted ledger says: its events are chained, each identity is
introduced once, and the last event is the one reported for the empty identity. -/
theorem chained_of_recorded {id : Text} {found : Option Stored}
    (h : recorded (output entries) id = .ok found) :
    (entries = [] ∧ found = none) ∨ ∃ last, Chained entries last ∧
      (introductions entries).Nodup ∧ (id = [] → found = some last) := by
  cases entries with
  | nil =>
    left
    exact ⟨rfl, by cases h; rfl⟩
  | cons first rest =>
    right
    have hsplit := splitOn_output (fun e he => (hadmitted e he).attempt)
    have hread := storedLine_row (hadmitted first (by simp))
    have hrest : ∀ e ∈ rest, e.Admitted := fun e he => hadmitted e (.tail _ he)
    rw [recorded, hsplit, map_cons, cons_append] at h
    simp only [row_ne_nil, if_false, hread, ok_bind] at h
    split at h
    · cases h
    · next hfirst =>
      simp only [not_or, not_not] at hfirst
      rw [bind_eq_ok] at h
      obtain ⟨⟨last, chosen⟩, hloop, h⟩ := h
      obtain ⟨hfollows, hnodup⟩ := follows_of_recordedRest hrest (by simp) hloop
      refine ⟨last, ⟨first, rest, rfl, hfirst.1, hfirst.2, hfollows⟩, hnodup, ?_⟩
      intro hid
      simp only [hid] at h
      cases h
      rfl

theorem recorded_isOk (h : Chained entries last) (hnodup : (introductions entries).Nodup)
    (id : Text) : ∃ found, recorded (output entries) id = .ok found := by
  obtain ⟨first, rest, rfl, hstate, hbasis, hfollows⟩ := h
  have hsplit := splitOn_output (fun e he => (hadmitted e he).attempt)
  have hread := storedLine_row (hadmitted first (by simp))
  have hrest : ∀ e ∈ rest, e.Admitted := fun e he => hadmitted e (.tail _ he)
  have hfirst : ¬(first.stored.attempt.state ≠ .notDeployed ∨ first.stored.attempt.fromBasis ≠ []) := by
    simp [Entry.stored, hstate, hbasis]
  rw [recorded, hsplit, map_cons, cons_append]
  simp only [row_ne_nil, hread, ok_bind, if_neg hfirst]
  have hseen : ([first.stored.attempt.id] ++ introduced first.stored.attempt.id rest).Nodup := hnodup
  obtain ⟨chosen, hloop⟩ := recordedRest_isOk hrest hfollows id hseen
    (if first.stored.attempt.id = id then some first.stored else none)
  rw [hloop]; exact ⟨_, rfl⟩

/-- A ledger is accepted exactly when it is empty, or its events are chained and
no identity is introduced twice. -/
theorem recorded_eq_ok_iff (id : Text) : (∃ found, recorded (output entries) id = .ok found) ↔
      entries = [] ∨ ∃ last, Chained entries last ∧ (introductions entries).Nodup := by
  refine ⟨?_, ?_⟩
  · intro h
    obtain ⟨found, h⟩ := h
    obtain ⟨hnil, -⟩ | ⟨last, hchained, hnodup, -⟩ := chained_of_recorded hadmitted h
    · exact Or.inl hnil
    · exact Or.inr ⟨last, hchained, hnodup⟩
  · intro h
    obtain hnil | ⟨last, hchained, hnodup⟩ := h
    · rw [hnil]; exact ⟨none, rfl⟩
    · exact recorded_isOk hadmitted hchained hnodup id

end Loom.Deployment

import Loom.Runtime.Cleanup
import Mathlib.Data.List.Basic
import Mathlib.Data.List.Nodup

/-
  Fault unwinding: nothing is run twice or skipped, whatever callbacks do.

  The log of a run is read backwards: `Lawful` says of each entry what must hold
  of the entries before it. A registration is popped or invoked once; it is
  invoked only when every later one is gone; a boundary is left with the chain
  and the root list it was entered with, with every registration made since
  popped or invoked, and with the first fault raised in it, if there is one.

  Callbacks re-enter all of this. What makes the nesting go through is that a
  drain removes a registration before it calls it, so that the chain always is
  a segment above what each open boundary was entered with (`Nested`), and that
  a boundary runs callbacks only after a fault or a cancellation (`Troubles`).
-/

namespace Loom.Cleanup

open Runs List Nat

/-! ## Reading the log -/

/-- The registrations that have been popped or invoked. -/
def settled : List Entry → List Nat
  | [] => []
  | .popped serial :: earlier => serial :: settled earlier
  | .invoked serial :: earlier => serial :: settled earlier
  | _ :: earlier => settled earlier

/-- The first fault of a boundary, or of no boundary. -/
def firstRaised (id : Option Nat) : List Entry → Option Fault
  | [] => none
  | .faulted other fault :: earlier =>
    if other = id then some ((firstRaised id earlier).getD fault) else firstRaised id earlier
  | _ :: earlier => firstRaised id earlier

/-- What a boundary returns: the first fault, else a cancellation, else the value. -/
def verdict (id : Nat) (log : List Entry) : Option Failure :=
  match firstRaised (some id) log with
  | some fault => some (.fault fault)
  | none => if .cancelled id ∈ log then some .cancelled else none

/-- What an entry says of those before it. -/
def Lawful (entry : Entry) (earlier : List Entry) : Prop :=
  match entry with
  | .pushed serial => .pushed serial ∉ earlier
  | .popped serial => .pushed serial ∈ earlier ∧ serial ∉ settled earlier
  | .invoked serial => .pushed serial ∈ earlier ∧ serial ∉ settled earlier ∧
      ∀ later, .pushed later ∈ earlier → serial < later → later ∈ settled earlier
  | .entered id _ _ => ∀ stack roots, .entered id stack roots ∉ earlier
  | .left id result stack roots => result = verdict id earlier ∧
      ∃ inside before, earlier = inside ++ .entered id stack roots :: before ∧
        ∀ serial, .pushed serial ∈ inside → serial ∈ settled inside
  | _ => True

/-- Every entry meets what it says of those before it. -/
def Throughout (property : Entry → List Entry → Prop) : List Entry → Prop
  | [] => True
  | entry :: earlier => property entry earlier ∧ Throughout property earlier

variable {entry : Entry} {log : List Entry} {stack : List Registration}

theorem Throughout.of_append {property : Entry → List Entry → Prop} {later : List Entry}
    {earlier : List Entry} (h : Throughout property log) (heq : log = later ++ entry :: earlier) :
    property entry earlier := by
  subst heq
  induction later with
  | nil => exact h.1
  | cons _ _ ih => exact ih h.2

theorem settled_append (later earlier : List Entry) :
    settled (later ++ earlier) = settled later ++ settled earlier := by
  induction later with
  | nil => rfl
  | cons entry rest ih => cases entry <;> simp [settled, ih]

/-! ## Registrations -/

def serials (stack : List Registration) : List Nat := stack.map Registration.serial

/-- The chain, the pushes so far, and the log agree. -/
structure Registered (stack : List Registration) (pushes : Nat) (log : List Entry) : Prop where
  descending : (serials stack).Pairwise (· > ·)
  records : (stack.map Registration.record).Nodup
  below : ∀ serial ∈ serials stack, serial < pushes
  pushed : ∀ serial, .pushed serial ∈ log ↔ serial < pushes
  apart : ∀ serial ∈ settled log, serial ∉ serials stack ∧ serial < pushes
  all : ∀ serial < pushes, serial ∈ settled log ∨ serial ∈ serials stack

theorem Registered.push {stack : List Registration} {pushes : Nat} {log : List Entry}
    (h : Registered stack pushes log) {record callback captures : Pointer}
    (hrecord : record ∉ stack.map Registration.record) :
    Registered (⟨record, callback, captures, pushes⟩ :: stack) (pushes + 1)
      (.pushed pushes :: log) := by
  refine ⟨?_, ?_, ?_, ?_, ?_, ?_⟩
  · exact pairwise_cons.mpr ⟨h.below, h.descending⟩
  · exact nodup_cons.mpr ⟨hrecord, h.records⟩
  · intro serial hserial
    obtain rfl | hserial := mem_cons.mp hserial
    · exact lt_succ_self _
    · exact lt_succ_of_lt (h.below serial hserial)
  · simp only [mem_cons, Entry.pushed.injEq, h.pushed]; omega
  · intro serial hserial
    obtain ⟨habsent, hlt⟩ := h.apart serial hserial
    refine ⟨?_, by omega⟩
    intro hmem
    obtain heq | hmem := mem_cons.mp hmem
    · have heq : serial = pushes := heq
      omega
    · exact habsent hmem
  · intro serial hserial
    by_cases hnew : serial = pushes
    · exact Or.inr (mem_cons.mpr (Or.inl hnew))
    · obtain hold | hold := h.all serial (by omega)
      · exact Or.inl hold
      · exact Or.inr (.tail _ hold)

/-- An entry that neither pushes nor settles. -/
def Entry.quiet : Entry → Bool
  | .pushed _ | .popped _ | .invoked _ => false
  | _ => true

theorem settled_quiet (h : entry.quiet = true) (log : List Entry) :
    settled (entry :: log) = settled log := by
  cases entry <;> first | rfl | cases h

theorem Registered.quiet {pushes : Nat} (h : Registered stack pushes log)
    (hquiet : entry.quiet = true) : Registered stack pushes (entry :: log) := by
  refine ⟨h.descending, h.records, h.below, ?_, ?_, ?_⟩
  · intro serial
    rw [mem_cons, h.pushed]
    refine ⟨?_, Or.inr⟩
    intro hpushed
    obtain heq | hlt := hpushed
    · subst heq
      cases hquiet
    · exact hlt
  · rw [settled_quiet hquiet]; exact h.apart
  · rw [settled_quiet hquiet]; exact h.all

/-- One registration is taken out of the chain and logged as settled. -/
theorem Registered.settle (above : List Registration) {below : List Registration}
    {found : Registration} {pushes : Nat} (h : Registered (above ++ found :: below) pushes log)
    (hentry : entry = .popped found.serial ∨ entry = .invoked found.serial) :
    Registered (above ++ below) pushes (entry :: log) := by
  have hsettled : settled (entry :: log) = found.serial :: settled log := by
    obtain rfl | rfl := hentry <;> rfl
  have hdescending := h.descending
  have hrecords := h.records
  have hbelow := h.below
  have hapart := h.apart
  have hall := h.all
  simp only [serials, map_append, map_cons] at *
  have hunique : found.serial ∉ above.map Registration.serial ++ below.map Registration.serial := by
    have hnodup := hdescending.nodup
    rw [nodup_middle] at hnodup; exact (nodup_cons.mp hnodup).1
  refine ⟨?_, ?_, ?_, ?_, ?_, ?_⟩
  · simp only [serials, map_append]
    rw [pairwise_append] at hdescending ⊢
    obtain ⟨habove, hrest, hacross⟩ := hdescending
    refine ⟨habove, (pairwise_cons.mp hrest).2, ?_⟩
    intro a ha b hb; exact hacross a ha b (.tail _ hb)
  · simp only [map_append]
    rw [nodup_middle] at hrecords; exact (nodup_cons.mp hrecords).2
  · intro serial hserial
    simp only [serials, map_append, mem_append] at hserial
    apply hbelow serial
    simp only [mem_append, mem_cons]
    obtain hserial | hserial := hserial
    · exact Or.inl hserial
    · exact Or.inr (Or.inr hserial)
  · intro serial
    rw [mem_cons, h.pushed]
    refine ⟨?_, Or.inr⟩
    intro hpushed
    obtain heq | hlt := hpushed
    · obtain rfl | rfl := hentry <;> cases heq
    · exact hlt
  · intro serial hserial
    simp only [serials, map_append]
    rw [hsettled, mem_cons] at hserial
    obtain rfl | hserial := hserial
    · exact ⟨hunique, hbelow found.serial (by simp)⟩
    · obtain ⟨habsent, hlt⟩ := hapart serial hserial
      refine ⟨?_, hlt⟩
      intro hmem
      apply habsent
      simp only [mem_append, mem_cons] at hmem ⊢
      obtain hmem | hmem := hmem
      · exact Or.inl hmem
      · exact Or.inr (Or.inr hmem)
  · intro serial hserial
    rw [hsettled]
    simp only [serials, map_append]
    obtain hold | hold := hall serial hserial
    · exact Or.inl (.tail _ hold)
    · simp only [mem_append, mem_cons] at hold ⊢
      obtain hold | hold | hold := hold
      · exact Or.inr (Or.inl hold)
      · exact Or.inl (Or.inl hold)
      · exact Or.inr (Or.inr hold)

theorem unlink_some {record : Pointer} {kept : List Registration} {found : Registration}
    (h : unlink record stack = some (found, kept)) :
    ∃ above below, stack = above ++ found :: below ∧ kept = above ++ below ∧
      found.record = record := by
  induction stack generalizing kept with
  | nil => cases h
  | cons previous rest ih =>
    rw [unlink] at h
    split at h
    · next hsame =>
      cases h
      exact ⟨[], rest, rfl, rfl, hsame⟩
    · rw [Option.map_eq_some_iff] at h
      obtain ⟨⟨other, shorter⟩, hrest, heq⟩ := h
      cases heq
      obtain ⟨above, below, rfl, rfl, hrecord⟩ := ih hrest
      exact ⟨previous :: above, below, rfl, rfl, hrecord⟩

theorem unlink_isSome {record : Pointer} (h : record ∈ stack.map Registration.record) :
    ∃ result, unlink record stack = some result := by
  induction stack with
  | nil => cases h
  | cons previous rest ih =>
    rw [unlink]
    split
    · exact ⟨_, rfl⟩
    · next hother =>
      obtain heq | hrest := mem_cons.mp h
      · exact absurd heq.symm hother
      · obtain ⟨result, hresult⟩ := ih hrest
        exact ⟨_, by rw [hresult]; rfl⟩

/-! ## Open boundaries -/

/-- The chain and the root list extend what each open boundary was entered with. -/
def Nested : List Boundary → List Registration → List Pointer → Prop
  | [], _, _ => True
  | boundary :: outer, stack, roots =>
    (∃ above, stack = above ++ boundary.entered ∧ ∀ r ∈ above, boundary.mark ≤ r.serial) ∧
      (∃ frames, roots = frames ++ boundary.roots) ∧
      Nested outer boundary.entered boundary.roots

/-- What the log says of an open boundary. -/
structure Books (log : List Entry) (boundary : Boundary) : Prop where
  first : boundary.first = firstRaised (some boundary.id) log
  cancelled : boundary.cancelled = true ↔ .cancelled boundary.id ∈ log
  located : ∃ inside before,
    log = inside ++ .entered boundary.id boundary.entered boundary.roots :: before ∧
      (∀ serial ∈ settled before, serial < boundary.mark) ∧
      (∀ serial, .pushed serial ∈ inside → boundary.mark ≤ serial)
  entered_lt : ∀ r ∈ boundary.entered, r.serial < boundary.mark
  cleanup : boundary.cleanup = head boundary.entered

/-- The books do not speak of the callbacks and the hook. -/
theorem Books.running {log : List Entry} {boundary : Boundary} (h : Books log boundary)
    (running : List Running) (beforeDrain : Option (Pointer × Pointer)) :
    Books log { boundary with running := running, beforeDrain := beforeDrain } :=
  ⟨h.first, h.cancelled, h.located, h.entered_lt, h.cleanup⟩

/-- Entries of other boundaries, and later pushes, leave the books as they are. -/
theorem Books.cons {log : List Entry} {boundary : Boundary} (h : Books log boundary)
    {entry : Entry} (hfault : ∀ fault, entry ≠ .faulted (some boundary.id) fault)
    (hcancelled : entry ≠ .cancelled boundary.id)
    (hpushed : ∀ serial, entry = .pushed serial → boundary.mark ≤ serial) :
    Books (entry :: log) boundary := by
  refine ⟨?_, ?_, ?_, h.entered_lt, h.cleanup⟩
  · rw [h.first]
    cases entry with
    | faulted other fault =>
      have hother : other ≠ some boundary.id := by
        intro heq; exact hfault fault (by rw [heq])
      rw [firstRaised, if_neg hother]
    | _ => rfl
  · rw [h.cancelled, mem_cons]
    refine ⟨Or.inr, ?_⟩
    intro hmem
    obtain heq | hmem := hmem
    · exact absurd heq.symm hcancelled
    · exact hmem
  · obtain ⟨inside, before, rfl, hsettled, hinside⟩ := h.located
    refine ⟨entry :: inside, before, rfl, hsettled, ?_⟩
    intro serial hserial
    obtain heq | hserial := mem_cons.mp hserial
    · exact hpushed serial heq.symm
    · exact hinside serial hserial

def Troubled (boundary : Boundary) : Prop := boundary.first ≠ none ∨ boundary.cancelled = true

/-- A boundary runs callbacks, or drains, exactly when it has seen a fault or a
cancellation. -/
def Troubles (mode : Mode) : List Boundary → Prop
  | [] => mode ≠ .draining ∧ mode ≠ .unwinding
  | boundary :: outer =>
    (Troubled boundary ↔ boundary.running ≠ [] ∨ mode = .draining ∨ mode = .unwinding) ∧
      ∀ other ∈ outer, Troubled other ↔ other.running ≠ []

def HasWorker (boundaries : List Boundary) : Prop :=
  ∃ boundary ∈ boundaries, boundary.catcher = .worker

/-- A cancelled boundary is a worker's, or inside one. -/
def Served : List Boundary → Prop
  | [] => True
  | boundary :: outer =>
    (boundary.cancelled = true → HasWorker (boundary :: outer)) ∧ Served outer

/-- What FIRST_FAULT is where no boundary is open. -/
def outermost (firstFault : Option Fault) : List Boundary → Option Fault
  | [] => firstFault
  | boundary :: outer => outermost boundary.firstFault outer

/-- The bookkeeping of the open boundaries, apart from the chain and the roots. -/
structure Kept (mode : Mode) (boundaries : List Boundary) (firstFault : Option Fault)
    (base : List Fault) (catches pushes : Nat) (log : List Entry) : Prop where
  books : ∀ boundary ∈ boundaries, Books log boundary
  marks : ∀ boundary ∈ boundaries, boundary.mark ≤ pushes
  ids : (boundaries.map Boundary.id).Nodup
  opened : ∀ boundary ∈ boundaries, boundary.id < catches
  entered : ∀ id stack roots, .entered id stack roots ∈ log → id < catches
  raised : ∀ id fault, .faulted (some id) fault ∈ log → id < catches
  cancelled : ∀ id, .cancelled id ∈ log → id < catches
  troubles : Troubles mode boundaries
  served : Served boundaries
  cancelling : mode = .cancelling → HasWorker boundaries
  outside : outermost firstFault boundaries = firstRaised none log
  base : ∀ fault ∈ base, firstRaised none log = some fault
  terminating : ∀ fault, mode = .terminating fault →
    boundaries = [] ∧ firstRaised none log = some fault
  exited : ∀ fault, mode = .exited fault → firstRaised none log = some fault

structure Inv (s : State) : Prop where
  alive : ∀ message, s.mode ≠ .fatal message
  registered : Registered s.stack s.pushes s.log
  lawful : Throughout Lawful s.log
  nested : Nested s.boundaries s.stack s.roots
  arrived : s.mode = .unwinding → ∀ boundary ∈ s.boundaries.head?,
    s.stack = boundary.entered ∧ s.roots = boundary.roots
  tracing : s.collecting = true → s.mode = .running
  kept : Kept s.mode s.boundaries s.firstFault s.base s.catches s.pushes s.log

theorem Inv.initial : Inv .initial := by
  have hregistered : Registered [] 0 [] := ⟨.nil, .nil, by simp [serials], by simp,
    by simp [settled], by simp⟩
  have hkept : Kept .running [] none [] 0 0 [] := by
    refine ⟨?_, ?_, .nil, ?_, ?_, ?_, ?_, ⟨?_, ?_⟩, trivial, ?_, rfl, ?_, ?_, ?_⟩ <;> simp
  exact ⟨fun _ h => (nomatch h), hregistered, trivial, trivial, fun h => (nomatch h),
    fun _ => rfl, hkept⟩

/-! ## What changes the bookkeeping -/

/-- An entry that is of no boundary's books. -/
def Entry.neutral : Entry → Bool
  | .faulted _ _ | .cancelled _ | .entered _ _ _ => false
  | _ => true

theorem firstRaised_neutral (h : entry.neutral = true) (id : Option Nat) (log : List Entry) :
    firstRaised id (entry :: log) = firstRaised id log := by
  cases entry <;> first | rfl | cases h

theorem firstRaised_eq_none {id : Option Nat} (h : ∀ fault, .faulted id fault ∉ log) :
    firstRaised id log = none := by
  induction log with
  | nil => rfl
  | cons entry rest ih =>
    have hrest := ih (fun fault hin => h fault (.tail _ hin))
    cases entry with
    | faulted other fault =>
      have hother : other ≠ id := by
        intro heq; exact h fault (by rw [heq]; exact .head _)
      rw [firstRaised, if_neg hother]; exact hrest
    | _ => exact hrest

section
variable {mode : Mode} {boundary : Boundary} {boundaries outer : List Boundary}
  {firstFault : Option Fault} {base : List Fault} {catches pushes : Nat} {log : List Entry}

theorem Kept.note (h : Kept mode boundaries firstFault base catches pushes log) {entry : Entry}
    (hneutral : entry.neutral = true)
    (hpushed : ∀ serial, entry = .pushed serial → pushes ≤ serial) :
    Kept mode boundaries firstFault base catches pushes (entry :: log) := by
  have hmem : ∀ {other : Entry}, other.neutral = false → other ∈ entry :: log → other ∈ log := by
    intro other hother hin
    obtain rfl | hin := mem_cons.mp hin
    · rw [hneutral] at hother
      cases hother
    · exact hin
  refine ⟨?_, h.marks, h.ids, h.opened, ?_, ?_, ?_, h.troubles, h.served, h.cancelling, ?_, ?_,
    ?_, ?_⟩
  · intro other hother
    apply (h.books other hother).cons
    · intro fault heq
      subst heq
      cases hneutral
    · intro heq
      subst heq
      cases hneutral
    · intro serial heq
      exact le_trans (h.marks other hother) (hpushed serial heq)
  · intro id stack roots hin; exact h.entered id stack roots (hmem rfl hin)
  · intro id fault hin; exact h.raised id fault (hmem rfl hin)
  · intro id hin; exact h.cancelled id (hmem rfl hin)
  · rw [firstRaised_neutral hneutral]; exact h.outside
  · rw [firstRaised_neutral hneutral]; exact h.base
  · rw [firstRaised_neutral hneutral]; exact h.terminating
  · rw [firstRaised_neutral hneutral]; exact h.exited

theorem Kept.morePushes (h : Kept mode boundaries firstFault base catches pushes log)
    {more : Nat} (hle : pushes ≤ more) : Kept mode boundaries firstFault base catches more log :=
  { h with marks := fun other hother => le_trans (h.marks other hother) hle }

theorem Kept.opens (h : Kept .running boundaries firstFault base catches pushes log)
    {stack : List Registration} {roots : List Pointer} (hbelow : ∀ r ∈ stack, r.serial < pushes)
    (hsettled : ∀ serial ∈ settled log, serial < pushes) {catcher : Catcher}
    {beforeDrain : Option (Pointer × Pointer)} {testName : Option Bytes} : Kept .running
      ({ cleanup := head stack, roots := roots, first := none, cancelled := false,
         beforeDrain := beforeDrain, catcher := catcher, testName := testName,
         firstFault := firstFault, running := [], id := catches, entered := stack,
         mark := pushes } :: boundaries)
      none base (catches + 1) pushes (.entered catches stack roots :: log) := by
  have hfirst : firstRaised (some catches) log = none := by
    apply firstRaised_eq_none
    intro fault hin
    have := h.raised catches fault hin
    omega
  refine ⟨?_, ?_, ?_, ?_, ?_, ?_, ?_, ⟨?_, ?_⟩, ⟨?_, h.served⟩, ?_, ?_, ?_, ?_, ?_⟩
  · intro other hother
    obtain rfl | hother := mem_cons.mp hother
    · refine ⟨hfirst.symm, ?_, ⟨[], log, rfl, hsettled, by simp⟩, hbelow, rfl⟩
      refine ⟨fun hcancelled => (nomatch hcancelled), ?_⟩
      intro hin
      obtain heq | hin := mem_cons.mp hin
      · cases heq
      · have := h.cancelled catches hin
        omega
    · apply (h.books other hother).cons
      · exact fun fault heq => nomatch heq
      · exact fun heq => nomatch heq
      · exact fun serial heq => nomatch heq
  · intro other hother
    obtain rfl | hother := mem_cons.mp hother
    · exact le_refl _
    · exact h.marks other hother
  · refine nodup_cons.mpr ⟨?_, h.ids⟩
    intro hin
    obtain ⟨other, hother, hid⟩ := mem_map.mp hin
    have hlt := h.opened other hother
    have hid : other.id = catches := hid
    omega
  · intro other hother
    obtain rfl | hother := mem_cons.mp hother
    · exact lt_succ_self _
    · exact lt_succ_of_lt (h.opened other hother)
  · intro id stack' roots' hin
    obtain heq | hin := mem_cons.mp hin
    · cases heq
      exact lt_succ_self _
    · exact lt_succ_of_lt (h.entered id _ _ hin)
  · intro id fault hin
    obtain heq | hin := mem_cons.mp hin
    · cases heq
    · exact lt_succ_of_lt (h.raised id fault hin)
  · intro id hin
    obtain heq | hin := mem_cons.mp hin
    · cases heq
    · exact lt_succ_of_lt (h.cancelled id hin)
  · simp [Troubled]
  · intro other hother
    cases boundaries with
    | nil => cases hother
    | cons top rest =>
      obtain rfl | hother := mem_cons.mp hother
      · have htop := h.troubles.1
        simpa using htop
      · exact h.troubles.2 other hother
  · exact fun hcancelled => nomatch hcancelled
  · exact fun hmode => nomatch hmode
  · exact h.outside
  · exact h.base
  · exact fun fault hmode => nomatch hmode
  · exact fun fault hmode => nomatch hmode

variable {next : Mode}

section
variable (h : Kept mode (boundary :: outer) firstFault base catches pushes log)
include h

/-- The current boundary goes on: its drain continues, ends, or runs more code. -/
theorem Kept.reenter (htroubled : Troubled boundary) {running : List Running}
    (hnext : next = .draining ∨ next = .unwinding ∨ next = .running ∧ running ≠ [])
    (beforeDrain : Option (Pointer × Pointer)) :
    Kept next ({ boundary with running := running, beforeDrain := beforeDrain } :: outer)
      firstFault base catches pushes log := by
  refine ⟨?_, ?_, h.ids, ?_, h.entered, h.raised, h.cancelled, ⟨⟨?_, fun _ => htroubled⟩, ?_⟩,
    ⟨?_, h.served.2⟩, ?_, h.outside, h.base, ?_, ?_⟩
  · intro other hother
    obtain rfl | hother := mem_cons.mp hother
    · exact (h.books boundary (.head _)).running running beforeDrain
    · exact h.books other (.tail _ hother)
  · intro other hother
    obtain rfl | hother := mem_cons.mp hother
    · exact h.marks boundary (.head _)
    · exact h.marks other (.tail _ hother)
  · intro other hother
    obtain rfl | hother := mem_cons.mp hother
    · exact h.opened boundary (.head _)
    · exact h.opened other (.tail _ hother)
  · intro _
    obtain hnext | hnext | ⟨-, hrunning⟩ := hnext
    · exact Or.inr (Or.inl hnext)
    · exact Or.inr (Or.inr hnext)
    · exact Or.inl hrunning
  · exact h.troubles.2
  · intro hcancelled
    obtain ⟨worker, hworker, hcatcher⟩ := h.served.1 hcancelled
    obtain rfl | hworker := mem_cons.mp hworker
    · exact ⟨_, .head _, hcatcher⟩
    · exact ⟨worker, .tail _ hworker, hcatcher⟩
  · intro hmode
    obtain hnext | hnext | ⟨hnext, -⟩ := hnext <;> rw [hnext] at hmode <;> cases hmode
  · intro fault hmode
    obtain hnext | hnext | ⟨hnext, -⟩ := hnext <;> rw [hnext] at hmode <;> cases hmode
  · intro fault hmode
    obtain hnext | hnext | ⟨hnext, -⟩ := hnext <;> rw [hnext] at hmode <;> cases hmode

theorem Kept.raise {entry : Entry}
    (hentry : (∃ fault, entry = .faulted (some boundary.id) fault) ∨ entry = .cancelled boundary.id)
    {first : Option Fault} {cancelled : Bool}
    (hfirst : first = firstRaised (some boundary.id) (entry :: log))
    (hcancelled : cancelled = true ↔ .cancelled boundary.id ∈ entry :: log)
    (htroubled : first ≠ none ∨ cancelled = true)
    (hserved : cancelled = true → HasWorker (boundary :: outer)) :
    Kept .draining ({ boundary with first := first, cancelled := cancelled } :: outer) firstFault
      base catches pushes (entry :: log) := by
  have hopened := h.opened boundary (.head _)
  have hids := nodup_cons.mp h.ids
  have hnone : firstRaised none (entry :: log) = firstRaised none log := by
    obtain ⟨fault, rfl⟩ | rfl := hentry <;> rfl
  refine ⟨?_, ?_, h.ids, ?_, ?_, ?_, ?_, ⟨⟨fun _ => Or.inr (Or.inl rfl), fun _ => htroubled⟩, ?_⟩,
    ⟨?_, h.served.2⟩, nofun, ?_, ?_, nofun, nofun⟩
  · intro other hother
    obtain rfl | hother := mem_cons.mp hother
    · have hbooks := h.books boundary (.head _)
      refine ⟨hfirst, hcancelled, ?_, hbooks.entered_lt, hbooks.cleanup⟩
      obtain ⟨inside, before, rfl, hsettled, hinside⟩ := hbooks.located
      refine ⟨entry :: inside, before, rfl, hsettled, ?_⟩
      intro serial hserial
      obtain heq | hserial := mem_cons.mp hserial
      · obtain ⟨fault, rfl⟩ | rfl := hentry <;> cases heq
      · exact hinside serial hserial
    · have hid : other.id ≠ boundary.id := by
        intro heq; exact hids.1 (mem_map.mpr ⟨other, hother, heq⟩)
      apply (h.books other (.tail _ hother)).cons
      · intro fault heq
        obtain ⟨fault', rfl⟩ | rfl := hentry
        · simp only [Entry.faulted.injEq, Option.some.injEq] at heq
          exact hid heq.1.symm
        · cases heq
      · intro heq
        obtain ⟨fault', rfl⟩ | rfl := hentry
        · cases heq
        · simp only [Entry.cancelled.injEq] at heq; exact hid heq.symm
      · intro serial heq
        obtain ⟨fault', rfl⟩ | rfl := hentry <;> cases heq
  · intro other hother
    obtain rfl | hother := mem_cons.mp hother
    · exact h.marks boundary (.head _)
    · exact h.marks other (.tail _ hother)
  · intro other hother
    obtain rfl | hother := mem_cons.mp hother
    · exact hopened
    · exact h.opened other (.tail _ hother)
  · intro id stack roots hin
    obtain heq | hin := mem_cons.mp hin
    · obtain ⟨fault, rfl⟩ | rfl := hentry <;> cases heq
    · exact h.entered id stack roots hin
  · intro id fault hin
    obtain heq | hin := mem_cons.mp hin
    · obtain ⟨fault', rfl⟩ | rfl := hentry <;> cases heq
      exact hopened
    · exact h.raised id fault hin
  · intro id hin
    obtain heq | hin := mem_cons.mp hin
    · obtain ⟨fault', rfl⟩ | rfl := hentry <;> cases heq
      exact hopened
    · exact h.cancelled id hin
  · exact h.troubles.2
  · intro hset
    obtain ⟨worker, hworker, hcatcher⟩ := hserved hset
    obtain rfl | hworker := mem_cons.mp hworker
    · exact ⟨_, .head _, hcatcher⟩
    · exact ⟨worker, .tail _ hworker, hcatcher⟩
  · rw [hnone]; exact h.outside
  · rw [hnone]; exact h.base

/-- The current boundary is left; the next one has been running its own code. -/
theorem Kept.leaves (hnext : next = .running ∨ next = .cancelling ∧ HasWorker outer) :
    Kept next outer boundary.firstFault base catches pushes log := by
  have hdrains : next ≠ .draining ∧ next ≠ .unwinding := by
    obtain rfl | ⟨rfl, -⟩ := hnext <;> simp
  refine ⟨fun other hother => h.books other (.tail _ hother),
    fun other hother => h.marks other (.tail _ hother), (nodup_cons.mp h.ids).2,
    fun other hother => h.opened other (.tail _ hother), h.entered, h.raised,
    h.cancelled, ?_, h.served.2, ?_, h.outside, h.base, ?_, ?_⟩
  · cases outer with
    | nil => exact hdrains
    | cons top rest =>
      refine ⟨?_, fun other hother => h.troubles.2 other (.tail _ hother)⟩
      rw [h.troubles.2 top (.head _)]; simp [hdrains]
  · intro hmode
    obtain rfl | ⟨-, hworker⟩ := hnext
    · cases hmode
    · exact hworker
  · intro fault hmode
    obtain rfl | ⟨rfl, -⟩ := hnext <;> cases hmode
  · intro fault hmode
    obtain rfl | ⟨rfl, -⟩ := hnext <;> cases hmode

end

theorem Kept.terminate (h : Kept mode [] firstFault base catches pushes log) (raised : Fault) :
    Kept (.terminating (firstFault.getD raised)) [] (some (firstFault.getD raised)) base catches
      pushes (.faulted none raised :: log) := by
  have hfirst : firstRaised none (.faulted none raised :: log) = some (firstFault.getD raised) := by
    rw [firstRaised, ← h.outside]; rfl
  refine ⟨by simp, by simp, .nil, by simp, ?_, ?_, ?_, ⟨nofun, nofun⟩, trivial, nofun, hfirst.symm,
    ?_, ?_, nofun⟩
  · intro id stack roots hin
    obtain heq | hin := mem_cons.mp hin
    · cases heq
    · exact h.entered id stack roots hin
  · intro id fault hin
    obtain heq | hin := mem_cons.mp hin
    · cases heq
    · exact h.raised id fault hin
  · intro id hin
    obtain heq | hin := mem_cons.mp hin
    · cases heq
    · exact h.cancelled id hin
  · intro fault hin
    have hbase := h.base fault hin
    rw [← h.outside] at hbase
    have hbase : firstFault = some fault := hbase
    rw [hfirst, hbase]; rfl
  · intro fault hmode
    cases hmode
    exact ⟨rfl, hfirst⟩

/-- The drain outside every boundary goes on, or ends. -/
theorem Kept.drains (h : Kept mode [] firstFault base catches pushes log) {callers : List Fault}
    (hcallers : ∀ fault ∈ callers, firstRaised none log = some fault)
    (hnext : next = .running ∨ ∃ fault, firstRaised none log = some fault ∧
      (next = .terminating fault ∨ next = .exited fault)) :
    Kept next [] firstFault callers catches pushes log := by
  refine ⟨by simp, by simp, .nil, by simp, h.entered, h.raised, h.cancelled, ⟨?_, ?_⟩, trivial, ?_,
    h.outside, hcallers, ?_, ?_⟩
  · obtain rfl | ⟨fault, -, rfl | rfl⟩ := hnext <;> simp
  · obtain rfl | ⟨fault, -, rfl | rfl⟩ := hnext <;> simp
  · intro hmode
    obtain rfl | ⟨fault, -, rfl | rfl⟩ := hnext <;> cases hmode
  · intro other hmode
    obtain rfl | ⟨fault, hfirst, rfl | rfl⟩ := hnext <;> cases hmode
    exact ⟨rfl, hfirst⟩
  · intro other hmode
    obtain rfl | ⟨fault, hfirst, rfl | rfl⟩ := hnext <;> cases hmode
    exact hfirst

end

end Loom.Cleanup

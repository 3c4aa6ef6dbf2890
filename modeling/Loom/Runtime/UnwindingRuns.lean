import Loom.Runtime.Unwinding

/-
  One lemma for each function of cleanup.rs, and what every balanced run keeps.

  A drain ends where the chain is the one its boundary was entered with, as the
  pointers say it is: no record occurs twice in the chain, so that equal first
  records are equal chains (`eq_of_head`).
-/

namespace Loom.Cleanup

open Runs List Bool

/-! ## The chain above a boundary -/

theorem eq_of_head {above entered : List Registration}
    (hrecords : ((above ++ entered).map Registration.record).Nodup)
    (h : head (above ++ entered) = head entered) : above = [] := by
  cases above with
  | nil => rfl
  | cons first rest =>
    exfalso
    cases entered with
    | nil => simp [head] at h
    | cons other below =>
      have hsame : first.record = other.record := by simpa [head] using h
      rw [cons_append, map_cons, nodup_cons] at hrecords
      apply hrecords.1
      rw [hsame]; simp

theorem Nested.push {boundaries : List Boundary} {stack : List Registration} {roots : List Pointer}
    (h : Nested boundaries stack roots) {r : Registration}
    (hmark : ∀ boundary ∈ boundaries, boundary.mark ≤ r.serial) :
    Nested boundaries (r :: stack) roots := by
  cases boundaries with
  | nil => trivial
  | cons boundary outer =>
    obtain ⟨⟨above, hstack, habove⟩, hroots, houter⟩ := h
    refine ⟨⟨r :: above, by rw [hstack, cons_append], ?_⟩, hroots, houter⟩
    intro other hother
    obtain rfl | hother := mem_cons.mp hother
    · exact hmark boundary (.head _)
    · exact habove other hother

variable {boundaries : List Boundary} {roots : List Pointer} {found : Registration}
  {stack : List Registration} {boundary : Boundary} {outer : List Boundary}

/-- A registration from inside the current boundary goes, whatever its place. -/
theorem Nested.settle (above : List Registration) {below : List Registration}
    (h : Nested boundaries (above ++ found :: below) roots)
    (hinside : ∀ boundary ∈ boundaries.head?, found ∉ boundary.entered) :
    Nested boundaries (above ++ below) roots := by
  cases boundaries with
  | nil => trivial
  | cons boundary outer =>
    obtain ⟨⟨inside, hstack, hmark⟩, hroots, houter⟩ := h
    have hnot := hinside boundary rfl
    refine ⟨?_, hroots, houter⟩
    rw [append_eq_append_iff] at hstack
    obtain ⟨middle, hinsides, hbelow⟩ | ⟨middle, habove, hentered⟩ := hstack
    · cases middle with
      | nil =>
        rw [nil_append] at hbelow
        exact absurd (by rw [← hbelow]; exact .head _) hnot
      | cons first middle =>
        rw [cons_append, cons.injEq] at hbelow
        obtain ⟨rfl, hbelow⟩ := hbelow
        refine ⟨above ++ middle, by rw [hbelow, append_assoc], ?_⟩
        intro r hr
        apply hmark r
        rw [hinsides]
        rw [mem_append] at hr ⊢
        obtain hr | hr := hr
        · exact Or.inl hr
        · exact Or.inr (.tail _ hr)
    · exact absurd (by rw [hentered]; simp) hnot

theorem Nested.rootsEnter (h : Nested boundaries stack roots) (frame : Pointer) :
    Nested boundaries stack (frame :: roots) := by
  cases boundaries with
  | nil => trivial
  | cons boundary outer =>
    obtain ⟨hstack, ⟨frames, hroots⟩, houter⟩ := h
    exact ⟨hstack, ⟨frame :: frames, by rw [hroots, cons_append]⟩, houter⟩

theorem Nested.rootsLeave {frame : Pointer} (h : Nested boundaries stack (frame :: roots))
    (hinside : ∀ boundary ∈ boundaries.head?, boundary.roots.length ≤ roots.length) :
    Nested boundaries stack roots := by
  cases boundaries with
  | nil => trivial
  | cons boundary outer =>
    obtain ⟨hstack, ⟨frames, hroots⟩, houter⟩ := h
    have hlength := hinside boundary rfl
    refine ⟨hstack, ?_, houter⟩
    cases frames with
    | nil =>
      rw [nil_append] at hroots
      rw [← hroots, length_cons] at hlength; omega
    | cons first frames =>
      rw [cons_append, cons.injEq] at hroots; exact ⟨frames, hroots.2⟩

/-- The chain is above what the current boundary was entered with. -/
theorem Nested.head (h : Nested (boundary :: outer) stack roots)
    (hrecords : (stack.map Registration.record).Nodup)
    (hcleanup : boundary.cleanup = Cleanup.head boundary.entered)
    (hhead : Cleanup.head stack = boundary.cleanup) : stack = boundary.entered := by
  obtain ⟨⟨above, rfl, -⟩, -, -⟩ := h
  rw [hcleanup] at hhead
  rw [eq_of_head hrecords hhead, nil_append]

/-! ## Generated code -/

variable {s : State}

/-- A registration made since the current boundary was opened is above it. -/
theorem Inv.not_entered (h : Inv s) (hmark : mark s ≤ found.serial) :
    ∀ boundary ∈ s.boundaries.head?, found ∉ boundary.entered := by
  intro boundary hboundary hin
  cases hboundaries : s.boundaries with
  | nil =>
    rw [hboundaries] at hboundary
    cases hboundary
  | cons top outer =>
    rw [hboundaries] at hboundary
    cases hboundary
    have hmem : boundary ∈ s.boundaries := by
      rw [hboundaries]; exact .head _
    have hlt := (h.kept.books boundary hmem).entered_lt found hin
    rw [mark, hboundaries] at hmark
    have hmark : boundary.mark ≤ found.serial := hmark
    omega

theorem Inv.active (h : Inv s) (hin : found ∈ s.stack) :
    .pushed found.serial ∈ s.log ∧ found.serial ∉ settled s.log := by
  have hserial : found.serial ∈ serials s.stack := mem_map.mpr ⟨found, hin, rfl⟩
  refine ⟨(h.registered.pushed _).mpr (h.registered.below _ hserial), ?_⟩
  intro hsettled; exact (h.registered.apart _ hsettled).1 hserial

theorem Inv.push (h : Inv s) (hmode : s.mode = .running) {record callback captures : Pointer}
    (hrecord : record ∉ s.stack.map Registration.record) :
    Inv (cleanupPush s record callback captures) := by
  have hnew : .pushed s.pushes ∉ s.log := by
    intro hin
    have := (h.registered.pushed s.pushes).mp hin
    omega
  refine ⟨h.alive, h.registered.push hrecord, ⟨hnew, h.lawful⟩, h.nested.push h.kept.marks, ?_,
    h.tracing, ?_⟩
  · intro hunwinding
    rw [show (cleanupPush s record callback captures).mode = s.mode from rfl, hmode] at hunwinding
    cases hunwinding
  · apply (h.kept.note rfl ?_).morePushes (Nat.le_succ _)
    intro serial heq
    cases heq
    exact Nat.le_refl _

theorem Inv.pop (h : Inv s) (hmode : s.mode = .running) {record : Pointer} {active : Registration}
    (hactive : active ∈ s.stack) (hrecord : active.record = record)
    (hmark : mark s ≤ active.serial) : Inv (cleanupPop s record) := by
  have hin : record ∈ s.stack.map Registration.record :=
    mem_map.mpr ⟨active, hactive, hrecord⟩
  obtain ⟨⟨found, kept⟩, hunlink⟩ := unlink_isSome hin
  obtain ⟨above, below, hstack, rfl, hfound⟩ := unlink_some hunlink
  have hmem : found ∈ s.stack := by
    rw [hstack]; simp
  have hsame : found = active :=
    inj_on_of_nodup_map h.registered.records hmem hactive (by rw [hfound, hrecord])
  have hregistered := h.registered
  have hnested := h.nested
  rw [hstack] at hregistered hnested
  simp only [cleanupPop, hunlink]
  refine ⟨h.alive, hregistered.settle above (Or.inl rfl), ⟨h.active hmem, h.lawful⟩, ?_, ?_,
    h.tracing, h.kept.note rfl nofun⟩
  · apply hnested.settle above
    apply h.not_entered
    rw [hsame]; exact hmark
  · intro hunwinding
    rw [hmode] at hunwinding
    cases hunwinding

theorem Inv.enterRoots (h : Inv s) (hmode : s.mode = .running) (frame : Pointer) :
    Inv (rootsEnter s frame) := by
  refine ⟨h.alive, h.registered, h.lawful, h.nested.rootsEnter frame, ?_, h.tracing, h.kept⟩
  intro hunwinding
  have hunwinding : s.mode = .unwinding := hunwinding
  rw [hmode] at hunwinding
  cases hunwinding

theorem Inv.leaveRoots (h : Inv s) (hmode : s.mode = .running) {frame : Pointer}
    (htop : s.roots.head? = some frame) (hfloor : rootMark s < s.roots.length) :
    Inv (rootsLeave s frame) := by
  have hnested := h.nested
  cases hroots : s.roots with
  | nil =>
    rw [hroots] at htop
    cases htop
  | cons top rest =>
    rw [hroots] at htop hnested
    cases htop
    simp only [rootsLeave, hroots]
    refine ⟨h.alive, h.registered, h.lawful, ?_, ?_, h.tracing, h.kept⟩
    · apply hnested.rootsLeave
      intro boundary hboundary
      cases hboundaries : s.boundaries with
      | nil =>
        rw [hboundaries] at hboundary
        cases hboundary
      | cons current outer =>
        rw [hboundaries] at hboundary
        cases hboundary
        rw [rootMark, hboundaries, hroots] at hfloor
        exact Nat.le_of_lt_succ hfloor
    · intro hunwinding
      rw [hmode] at hunwinding
      cases hunwinding

theorem Inv.catchFault (h : Inv s) (hmode : s.mode = .running) (htracing : s.collecting = false)
    (catcher : Catcher) (beforeDrain : Option (Pointer × Pointer)) :
    Inv (catchFaultInner s catcher beforeDrain) := by
  have hkept := h.kept
  rw [hmode] at hkept
  have hbelow : ∀ r ∈ s.stack, r.serial < s.pushes := fun r hr =>
    h.registered.below _ (mem_map.mpr ⟨r, hr, rfl⟩)
  have hlawful : Lawful (.entered s.catches s.stack s.roots) s.log := by
    intro stack roots hin
    have := h.kept.entered _ _ _ hin
    omega
  simp only [catchFaultInner, htracing]
  refine ⟨h.alive, h.registered.quiet rfl, ⟨hlawful, h.lawful⟩, ?_, ?_, nofun, ?_⟩
  · exact ⟨⟨[], rfl, by simp⟩, ⟨[], rfl⟩, h.nested⟩
  · intro _ boundary hboundary
    cases hboundary
    exact ⟨rfl, rfl⟩
  · rw [hmode]
    exact hkept.opens hbelow (fun serial hin => (h.registered.apart serial hin).2)

/-! ## Faults and cancellations -/

/-- `unwind_boundary`, once the boundary has its fault or its cancellation. -/
theorem Inv.unwindBoundary (h : Inv s) (hmode : s.mode = .draining)
    (hboundaries : s.boundaries = boundary :: outer) : Inv (unwindBoundary s boundary outer) := by
  have hkept := h.kept
  have hnested := h.nested
  rw [hboundaries] at hkept hnested
  have htroubled : Troubled boundary := hkept.troubles.1.mpr (Or.inr (Or.inl hmode))
  have htracing : s.collecting ≠ true := by
    intro hcollecting
    have := h.tracing hcollecting
    rw [hmode] at this
    cases this
  unfold Cleanup.unwindBoundary
  split
  · refine ⟨nofun, h.registered, h.lawful, hnested, nofun, fun _ => rfl, ?_⟩
    exact hkept.reenter htroubled (Or.inr (Or.inr ⟨rfl, by simp⟩)) none
  · refine ⟨nofun, h.registered, h.lawful, hnested, nofun, ?_, ?_⟩
    · exact fun hcollecting => absurd hcollecting htracing
    · exact hkept.reenter htroubled (Or.inl rfl) boundary.beforeDrain

/-- The state in which `unwind_boundary` is called. -/
theorem Inv.raise (h : Inv s) (htracing : s.collecting = false)
    (hboundaries : s.boundaries = boundary :: outer) (entry : Entry)
    (hentry : (∃ fault, entry = .faulted (some boundary.id) fault) ∨ entry = .cancelled boundary.id)
    (first : Option Fault) (cancelled : Bool)
    (hfirst : first = firstRaised (some boundary.id) (entry :: s.log))
    (hcancelled : cancelled = true ↔ .cancelled boundary.id ∈ entry :: s.log)
    (htroubled : first ≠ none ∨ cancelled = true)
    (hserved : cancelled = true → HasWorker (boundary :: outer)) :
    Inv { s with
      mode := .draining
      boundaries := { boundary with first := first, cancelled := cancelled } :: outer
      log := entry :: s.log } := by
  have hkept := h.kept
  have hnested := h.nested
  rw [hboundaries] at hkept hnested
  have hquiet : entry.quiet = true := by
    obtain ⟨fault, rfl⟩ | rfl := hentry <;> rfl
  have hlawful : Lawful entry s.log := by
    obtain ⟨fault, rfl⟩ | rfl := hentry <;> trivial
  refine ⟨nofun, h.registered.quiet hquiet, ⟨hlawful, h.lawful⟩, hnested, nofun, ?_, ?_⟩
  · intro hcollecting
    rw [htracing] at hcollecting
    cases hcollecting
  · exact hkept.raise hentry hfirst hcancelled htroubled hserved

theorem Inv.cancel (h : Inv s) (htracing : s.collecting = false)
    (hworker : HasWorker s.boundaries) : Inv (cancel s) := by
  cases hboundaries : s.boundaries with
  | nil =>
    obtain ⟨worker, hin, -⟩ := hworker
    rw [hboundaries] at hin
    cases hin
  | cons boundary outer =>
    have hbooks := h.kept.books boundary (by rw [hboundaries]; exact .head _)
    rw [hboundaries] at hworker
    have hraised : Inv _ := h.raise htracing hboundaries (.cancelled boundary.id)
      (Or.inr rfl) boundary.first true hbooks.first (by simp) (Or.inr rfl) (fun _ => hworker)
    have hunwound := hraised.unwindBoundary rfl rfl
    simp only [Cleanup.cancel, hboundaries]; exact hunwound

theorem Inv.fault (h : Inv s) (htracing : s.collecting = false) (message : Bytes) :
    Inv (fault s message) := by
  cases hboundaries : s.boundaries with
  | nil =>
    have hkept := h.kept
    rw [hboundaries] at hkept
    simp only [Cleanup.fault, hboundaries]
    refine ⟨nofun, h.registered.quiet rfl, ⟨trivial, h.lawful⟩, trivial, nofun, ?_, ?_⟩
    · intro hcollecting
      rw [htracing] at hcollecting
      cases hcollecting
    · exact hkept.terminate _
  | cons boundary outer =>
    have hmem : boundary ∈ s.boundaries := by
      rw [hboundaries]; exact .head _
    have hbooks := h.kept.books boundary hmem
    have hserved := h.kept.served
    rw [hboundaries] at hserved
    have hraised : Inv _ := h.raise htracing hboundaries
      (.faulted (some boundary.id) ⟨message, s.testName⟩) (Or.inl ⟨_, rfl⟩)
      (some (boundary.first.getD ⟨message, s.testName⟩)) boundary.cancelled
      (by rw [firstRaised, if_pos rfl, hbooks.first]) (by simp [hbooks.cancelled])
      (Or.inl (by simp)) hserved.1
    have hunwound := hraised.unwindBoundary rfl rfl
    simp only [Cleanup.fault, hboundaries]; exact hunwound

/-! ## Drains -/

/-- The first registration of the chain is taken out to be invoked. -/
theorem Inv.invoke (h : Inv s) {record : Registration} {rest : List Registration}
    (hstack : s.stack = record :: rest) :
    Registered rest s.pushes (.invoked record.serial :: s.log) ∧
      Throughout Lawful (.invoked record.serial :: s.log) := by
  have hregistered := h.registered
  rw [hstack] at hregistered
  have hin : record ∈ s.stack := by
    rw [hstack]; exact .head _
  obtain ⟨hpushed, hsettled⟩ := h.active hin
  refine ⟨Registered.settle [] hregistered (Or.inr rfl),
    ⟨⟨hpushed, hsettled, ?_⟩, h.lawful⟩⟩
  intro later hlater hlt
  obtain hold | hactive := hregistered.all later ((h.registered.pushed later).mp hlater)
  · exact hold
  · -- the chain is in the order of the pushes
    have hdescending := pairwise_cons.mp hregistered.descending
    obtain heq | hbelow := mem_cons.mp hactive
    · omega
    · have := hdescending.1 later hbelow
      omega

theorem Inv.drainTo (h : Inv s) (hmode : s.mode = .draining)
    (hboundaries : s.boundaries = boundary :: outer) : Inv (drainTo s boundary outer) := by
  have hkept := h.kept
  have hnested := h.nested
  rw [hboundaries] at hkept hnested
  have hbooks := hkept.books boundary (.head _)
  have htroubled : Troubled boundary := hkept.troubles.1.mpr (Or.inr (Or.inl hmode))
  have htracing : s.collecting = false := by
    cases hcollecting : s.collecting with
    | false => rfl
    | true =>
      have := h.tracing hcollecting
      rw [hmode] at this
      cases this
  unfold Cleanup.drainTo
  split
  · next hhead =>
    have hstack := hnested.head h.registered.records hbooks.cleanup hhead
    rw [if_neg (by simp [htracing])]
    refine ⟨nofun, h.registered, h.lawful, ?_, ?_, ?_, ?_⟩
    · rw [hboundaries]; exact ⟨hnested.1, ⟨[], rfl⟩, hnested.2.2⟩
    · intro _ other hother
      rw [hboundaries] at hother
      cases hother
      exact ⟨hstack, rfl⟩
    · intro hcollecting
      rw [htracing] at hcollecting
      cases hcollecting
    · rw [hboundaries]
      exact hkept.reenter htroubled (Or.inr (Or.inl rfl)) boundary.beforeDrain
  · next hhead =>
    obtain ⟨⟨above, hstack, habove⟩, -, -⟩ := hnested
    cases above with
    | nil =>
      rw [hstack, hbooks.cleanup] at hhead; exact absurd rfl hhead
    | cons record above =>
      obtain ⟨hregistered, hlawful⟩ := h.invoke hstack
      have hnot : record ∉ boundary.entered := by
        intro hin
        have := hbooks.entered_lt record hin
        have := habove record (.head _)
        omega
      rw [hstack]
      refine ⟨nofun, hregistered, hlawful, ?_, nofun, fun _ => rfl, ?_⟩
      · have hnested := h.nested
        rw [hboundaries, hstack] at hnested
        apply Nested.settle [] hnested
        intro other hother
        cases hother
        exact hnot
      · exact (hkept.reenter htroubled (Or.inr (Or.inr ⟨rfl, by simp⟩)) boundary.beforeDrain).note
          rfl nofun

theorem Inv.drainAll (h : Inv s) {first : Fault} (hmode : s.mode = .terminating first) :
    Inv (drainAll s first) := by
  obtain ⟨hboundaries, hfirst⟩ := h.kept.terminating first hmode
  have hkept := h.kept
  rw [hboundaries] at hkept
  unfold Cleanup.drainAll
  split
  · refine ⟨nofun, h.registered, h.lawful, h.nested, nofun, ?_, ?_⟩
    · intro hcollecting
      have := h.tracing hcollecting
      rw [hmode] at this
      cases this
    · rw [hboundaries]
      exact hkept.drains h.kept.base (Or.inr ⟨first, hfirst, Or.inr rfl⟩)
  · next record rest hstack =>
    obtain ⟨hregistered, hlawful⟩ := h.invoke hstack
    refine ⟨nofun, hregistered, hlawful, ?_, nofun, fun _ => rfl, ?_⟩
    · rw [hboundaries]; trivial
    · rw [hboundaries]
      refine (hkept.drains ?_ (Or.inl rfl)).note rfl nofun
      intro fault hin
      obtain rfl | hin := mem_cons.mp hin
      · exact hfirst
      · exact h.kept.base fault hin

/-! ## Leaving a boundary -/

/-- Where the chain is the one of the entry, every registration made since is settled. -/
theorem Inv.inside_settled (h : Inv s) (hin : boundary ∈ s.boundaries)
    (hstack : s.stack = boundary.entered) :
    ∃ inside before,
      s.log = inside ++ .entered boundary.id boundary.entered boundary.roots :: before ∧
        ∀ serial, .pushed serial ∈ inside → serial ∈ settled inside := by
  have hbooks := h.kept.books boundary hin
  obtain ⟨inside, before, hlog, hsettled, hinside⟩ := hbooks.located
  refine ⟨inside, before, hlog, ?_⟩
  intro serial hserial
  have hmark := hinside serial hserial
  have hpushed : .pushed serial ∈ s.log := by
    rw [hlog]; exact mem_append_left _ hserial
  obtain hold | hactive := h.registered.all serial ((h.registered.pushed serial).mp hpushed)
  · rw [hlog, settled_append] at hold
    obtain hold | hold := mem_append.mp hold
    · exact hold
    · have := hsettled serial hold
      omega
  · obtain ⟨r, hr, heq⟩ := mem_map.mp hactive
    rw [hstack] at hr
    have := hbooks.entered_lt r hr
    omega

/-- The boundary is left balanced, with what `catch_fault_inner` has kept. -/
theorem Inv.leave (h : Inv s) (htracing : s.collecting = false)
    (hboundaries : s.boundaries = boundary :: outer) (hstack : s.stack = boundary.entered)
    (hroots : s.roots = boundary.roots) {result : Option Failure}
    (hresult : result = verdict boundary.id s.log) {next : Mode}
    (hnext : next = .running ∨ next = .cancelling ∧ HasWorker outer) :
    Inv { s with
      boundaries := outer
      testName := boundary.testName
      firstFault := boundary.firstFault
      mode := next
      log := .left boundary.id result s.stack s.roots :: s.log } := by
  have hkept := h.kept
  have hnested := h.nested
  rw [hboundaries] at hkept hnested
  have hin : boundary ∈ s.boundaries := by
    rw [hboundaries]; exact .head _
  have hinside := h.inside_settled hin hstack
  refine ⟨?_, h.registered.quiet rfl, ⟨⟨hresult, ?_⟩, h.lawful⟩, ?_, ?_, ?_, ?_⟩
  · intro message hfatal
    obtain rfl | ⟨rfl, -⟩ := hnext <;> cases hfatal
  · rw [hstack, hroots]; exact hinside
  · rw [hstack, hroots]; exact hnested.2.2
  · intro hunwinding
    obtain rfl | ⟨rfl, -⟩ := hnext <;> cases hunwinding
  · intro hcollecting
    rw [htracing] at hcollecting
    cases hcollecting
  · exact (hkept.leaves hnext).note rfl nofun

theorem Inv.unwound (h : Inv s) (hmode : s.mode = .unwinding)
    (hboundaries : s.boundaries = boundary :: outer) : Inv (caught s boundary outer true) := by
  have hin : boundary ∈ s.boundaries := by
    rw [hboundaries]; exact .head _
  have hbooks := h.kept.books boundary hin
  obtain ⟨hstack, hroots⟩ := h.arrived hmode boundary (by rw [hboundaries]; rfl)
  have hserved := h.kept.served
  have htroubles := h.kept.troubles
  rw [hboundaries] at hserved htroubles
  have htroubled : Troubled boundary := htroubles.1.mpr (Or.inr (Or.inr hmode))
  have htracing : s.collecting = false := by
    cases hcollecting : s.collecting with
    | false => rfl
    | true =>
      have := h.tracing hcollecting
      rw [hmode] at this
      cases this
  have hbalanced : ¬(head s.stack ≠ boundary.cleanup ∨ s.roots ≠ boundary.roots) := by
    rw [hbooks.cleanup, hstack, hroots]; simp
  cases hfirst : boundary.first with
  | some fault =>
    have hverdict : some (.fault fault) = verdict boundary.id s.log := by
      rw [verdict, ← hbooks.first, hfirst]
    simp only [caught, hfirst]
    rw [if_neg hbalanced]
    exact h.leave htracing hboundaries hstack hroots hverdict (Or.inl rfl)
  | none =>
    have hcancelled : boundary.cancelled = true := by
      obtain hnone | hcancelled := htroubled
      · exact absurd hfirst hnone
      · exact hcancelled
    have hverdict : some .cancelled = verdict boundary.id s.log := by
      rw [verdict, ← hbooks.first, hfirst, if_pos (hbooks.cancelled.mp hcancelled)]
    simp only [caught, hfirst]
    rw [if_neg (by simp [hcancelled]), if_neg hbalanced]
    apply h.leave htracing hboundaries hstack hroots hverdict
    by_cases hcatcher : boundary.catcher = .worker
    · exact Or.inl (if_pos hcatcher)
    · refine Or.inr ⟨if_neg hcatcher, ?_⟩
      obtain ⟨worker, hworker, heq⟩ := hserved.1 hcancelled
      obtain rfl | hworker := mem_cons.mp hworker
      · exact absurd heq hcatcher
      · exact ⟨worker, hworker, heq⟩

/-- The body of a boundary returns with its own registrations and frames removed. -/
theorem Inv.returned (h : Inv s) (hmode : s.mode = .running) (htracing : s.collecting = false)
    (hboundaries : s.boundaries = boundary :: outer) (hrunning : boundary.running = [])
    (hactive : ∀ r ∈ s.stack, r.serial < boundary.mark)
    (hlength : s.roots.length = boundary.roots.length) : Inv (caught s boundary outer false) := by
  have hin : boundary ∈ s.boundaries := by
    rw [hboundaries]; exact .head _
  have hbooks := h.kept.books boundary hin
  have hnested := h.nested
  have htroubles := h.kept.troubles
  rw [hboundaries] at hnested htroubles
  have huntroubled : ¬Troubled boundary := by
    rw [htroubles.1]; simp [hrunning, hmode]
  have hfirst : boundary.first = none := by
    by_contra hsome
    exact huntroubled (Or.inl hsome)
  have hcancelled : boundary.cancelled ≠ true := fun hset => huntroubled (Or.inr hset)
  obtain ⟨⟨above, hstack, habove⟩, ⟨frames, hroots⟩, -⟩ := hnested
  have hempty : above = [] := by
    cases above with
    | nil => rfl
    | cons r rest =>
      have := habove r (.head _)
      have := hactive r (by rw [hstack]; simp)
      omega
  have hframes : frames = [] := by
    rw [hroots, length_append] at hlength
    exact length_eq_zero_iff.mp (by omega)
  rw [hempty] at hstack
  rw [hframes] at hroots
  have hbalanced : ¬(head s.stack ≠ boundary.cleanup ∨ s.roots ≠ boundary.roots) := by
    rw [hbooks.cleanup, hstack, hroots]; simp
  have hverdict : none = verdict boundary.id s.log := by
    rw [verdict, ← hbooks.first, hfirst, if_neg (fun hlog => hcancelled (hbooks.cancelled.mpr hlog))]
  simp only [caught]
  rw [if_neg (by simp), if_neg hbalanced, if_neg (by simp), if_neg (by simp [hfirst, hcancelled])]
  exact h.leave htracing hboundaries hstack hroots hverdict (Or.inl rfl)

/-- A callback or the hook returns to its drain. -/
theorem Inv.resumed (h : Inv s) (htracing : s.collecting = false)
    (hboundaries : s.boundaries = boundary :: outer) {top : Running} {rest : List Running}
    (hrunning : boundary.running = top :: rest) :
    Inv { s with
      boundaries := { boundary with running := rest } :: outer
      mode := .draining } := by
  have hkept := h.kept
  have hnested := h.nested
  rw [hboundaries] at hkept hnested
  have htroubled : Troubled boundary := hkept.troubles.1.mpr (Or.inl (by simp [hrunning]))
  refine ⟨nofun, h.registered, h.lawful, hnested, nofun, ?_, ?_⟩
  · intro hcollecting
    rw [htracing] at hcollecting
    cases hcollecting
  · exact hkept.reenter htroubled (Or.inl rfl) boundary.beforeDrain

variable {s' : State}

theorem Inv.returns (h : Inv s) (hmode : s.mode = .running) (hbalanced : balanced s .returns = true)
    (hstep : returns s = some s') : Inv s' := by
  simp only [balanced, and_eq_true, not_eq_true'] at hbalanced
  obtain ⟨htracing, hbody⟩ := hbalanced
  cases hboundaries : s.boundaries with
  | nil =>
    have hkept := h.kept
    rw [hboundaries] at hkept
    simp only [Cleanup.returns, hboundaries] at hstep
    cases hbase : s.base with
    | nil =>
      rw [hbase] at hstep
      cases hstep
    | cons first rest =>
      rw [hbase] at hstep
      cases hstep
      have hfirst := h.kept.base first (by rw [hbase]; exact .head _)
      refine ⟨nofun, h.registered, h.lawful, trivial, nofun, ?_, ?_⟩
      · intro hcollecting
        rw [htracing] at hcollecting
        cases hcollecting
      · refine hkept.drains ?_ (Or.inr ⟨first, hfirst, Or.inl rfl⟩)
        intro fault hin
        exact h.kept.base fault (by rw [hbase]; exact .tail _ hin)
  | cons boundary outer =>
    simp only [Cleanup.returns, hboundaries] at hstep
    rw [hboundaries] at hbody
    cases hrunning : boundary.running with
    | nil =>
      rw [hrunning] at hstep
      cases hstep
      simp only [hrunning, bne_self_eq_false, Bool.false_or, Bool.and_eq_true, all_eq_true,
        decide_eq_true_eq, beq_iff_eq] at hbody
      exact h.returned hmode htracing hboundaries hrunning hbody.1 hbody.2
    | cons top rest =>
      rw [hrunning] at hstep
      cases hstep
      exact h.resumed htracing hboundaries hrunning

/-! ## Runs -/

theorem Inv.userStep {event : Event} (h : Inv s) (hmode : s.mode = .running)
    (hbalanced : balanced s event = true) (hstep : userStep s event = some s') : Inv s' := by
  cases event with
  | push record callback captures =>
    cases hstep
    simp only [balanced, and_eq_true, all_eq_true, bne_iff_ne] at hbalanced
    apply h.push hmode
    intro hin
    obtain ⟨active, hactive, heq⟩ := mem_map.mp hin
    exact hbalanced.2 active hactive heq
  | pop record =>
    cases hstep
    simp only [balanced, and_eq_true, any_eq_true, beq_iff_eq, decide_eq_true_eq]
      at hbalanced
    obtain ⟨-, active, hactive, hrecord, hmark⟩ := hbalanced
    exact h.pop hmode hactive hrecord hmark
  | enterRoots frame =>
    cases hstep
    exact h.enterRoots hmode frame
  | leaveRoots frame =>
    cases hstep
    simp only [balanced, and_eq_true, beq_iff_eq, decide_eq_true_eq] at hbalanced
    exact h.leaveRoots hmode hbalanced.1.2 hbalanced.2
  | testEnter name =>
    cases hstep
    exact ⟨h.alive, h.registered, h.lawful, h.nested, h.arrived, h.tracing, h.kept⟩
  | testLeave =>
    cases hstep
    exact ⟨h.alive, h.registered, h.lawful, h.nested, h.arrived, h.tracing, h.kept⟩
  | startTracing =>
    cases hstep
    exact ⟨h.alive, h.registered, h.lawful, h.nested, h.arrived, fun _ => hmode, h.kept⟩
  | stopTracing =>
    cases hstep
    exact ⟨h.alive, h.registered, h.lawful, h.nested, h.arrived, fun _ => hmode, h.kept⟩
  | catchFault catcher beforeDrain =>
    cases hstep
    simp only [balanced, not_eq_true'] at hbalanced
    exact h.catchFault hmode hbalanced catcher beforeDrain
  | fault message =>
    cases hstep
    simp only [balanced, not_eq_true'] at hbalanced
    exact h.fault hbalanced message
  | cancel =>
    cases hstep
    simp only [balanced, and_eq_true, not_eq_true', any_eq_true, beq_iff_eq]
      at hbalanced
    exact h.cancel hbalanced.1 hbalanced.2
  | panic => cases hbalanced
  | returns => exact h.returns hmode hbalanced hstep
  | advance => cases hstep

theorem Inv.runtimeStep (h : Inv s) (htracing : s.collecting = false)
    (hstep : runtimeStep s = some s') : Inv s' := by
  unfold Cleanup.runtimeStep at hstep
  split at hstep
  · next hmode hboundaries =>
    cases hstep
    exact h.drainTo hmode hboundaries
  · next hmode hboundaries =>
    cases hstep
    exact h.unwound hmode hboundaries
  · next hmode =>
    cases hstep
    exact h.cancel htracing (h.kept.cancelling hmode)
  · next hmode =>
    cases hstep
    exact h.drainAll hmode
  · cases hstep

theorem Inv.step {event : Event} (h : Inv s) (hbalanced : balanced s event = true)
    (hstep : step s event = some s') : Inv s' := by
  unfold Cleanup.step at hstep
  split at hstep
  · next hmode => exact h.userStep hmode hbalanced hstep
  · simp only [balanced, not_eq_true'] at hbalanced
    exact h.runtimeStep hbalanced hstep
  · cases hstep

theorem inv_of_reaches (h : Reaches step balanced .initial s) : Inv s := by
  refine h.invariant Inv Inv.initial ?_
  intro s s' event hs hbalanced hstep; exact hs.step hbalanced hstep

/-- In every balanced run, whatever the nesting of boundaries and whatever
callbacks do: no fatal branch is taken; every entry of the log is lawful, so
that registrations are popped or invoked once and in reverse order, a boundary
is left as it was entered, with all registrations made since settled, and keeps
its first fault before any cancellation; and the process exits with the first
fault raised outside every boundary. -/
theorem faultUnwinding (h : Reaches step balanced .initial s) :
    (∀ message, s.mode ≠ .fatal message) ∧
      (∀ later entry earlier, s.log = later ++ entry :: earlier → Lawful entry earlier) ∧
      (∀ report, s.mode = .exited report → firstRaised none s.log = some report) := by
  have hinv := inv_of_reaches h
  refine ⟨hinv.alive, ?_, hinv.kept.exited⟩
  intro later entry earlier heq; exact hinv.lawful.of_append heq

/-- A cancelled boundary inside a worker's: one registration is popped out of
order, the callback of the other faults, and so does the code that goes on. -/
def cancelledInside : List Event :=
  [.catchFault .worker none, .push 1 10 11, .catchFault .fault (some (7, 8)), .push 2 20 21,
    .push 3 30 31, .pop 2, .cancel, .returns, .advance, .fault [104], .advance, .advance,
    .fault [105], .advance, .returns, .advance, .advance]

theorem faultUnwinding_cancelled : ∃ s, Reaches step balanced .initial s ∧
    (.left 0 (some (.fault ⟨[105], none⟩)) [] [] ∈ s.log ∧ settled s.log = [0, 2, 1]) ∧
    (∀ message, s.mode ≠ .fatal message) ∧
      (∀ later entry earlier, s.log = later ++ entry :: earlier → Lawful entry earlier) ∧
      (∀ report, s.mode = .exited report → firstRaised none s.log = some report) := by
  have hrun : (run step balanced .initial cancelledInside).map
      (fun s => decide (.left 0 (some (.fault ⟨[105], none⟩)) [] [] ∈ s.log ∧
        settled s.log = [0, 2, 1])) = some true := by decide
  obtain ⟨s, hreaches, htest⟩ := reaches_with _ hrun
  exact ⟨s, hreaches, of_decide_eq_true htest, faultUnwinding hreaches⟩

end Loom.Cleanup

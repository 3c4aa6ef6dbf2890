import Loom.Runtime.Collector

/-
  Tracing of the moving collector, as a marking of the object graph.

  `Reached` are the slots that tracing has to rewrite, read off the memory as it
  was when the collection began; `Live` are the objects these slots point to.
  While the work-list loop runs, `place` says where an object is by now.

  The invariant is `Tracing`; `Grows` is what every step keeps.
-/

namespace Loom.Collector

open Function List Option AList

variable {δ : Type}

/-! ## The object graph -/

/-- The slots a callback covers at `address`. The elements of a list are in its
storage, which is another allocation. -/
def Trace.locations (memory : Memory δ) (address : Address) : Trace δ → List Slot
  | .pointer => [(address, 0)]
  | .bytes => [(address, dataOffset)]
  | .payload offsets => ((memory address).contents.offsets offsets).map (address, ·)
  | .list =>
    match (memory address).contents with
    | .other _ => []
    | .list header =>
      let data := (memory address).slots dataOffset
      (address, dataOffset) :: match header.traceElement with
        | none => []
        | some trace => (List.range header.len).flatMap fun index =>
            ((memory data).contents.offsets (trace · (index * header.stride))).map (data, ·)

def Root.locations (memory : Memory δ) (root : Root δ) : List Slot :=
  match root.trace with
  | .value trace => trace.locations memory root.address
  | .slots addresses => addresses.map (·, 0)

/-- The native memory a root is in. -/
def Root.storage (root : Root δ) : List Address :=
  match root.trace with
  | .value _ => [root.address]
  | .slots addresses => addresses

def rootsOf (chains : List (RootChain δ)) : List (Root δ) :=
  chains.flatten.flatten.filter (·.address ≠ null)

inductive Reached (chains : List (RootChain δ)) (m : Machine δ) : Slot → Prop where
  | root {root : Root δ} {place : Slot} : root ∈ rootsOf chains →
      place ∈ root.locations m.memory → Reached chains m place
  | field {place next : Slot} {object : Allocation δ} {trace : Trace δ} : Reached chains m place →
      m.objects.lookup (m.slot place) = some object → object.trace = some trace →
      next ∈ trace.locations m.memory (m.slot place) → Reached chains m next

/-- A managed object that some reached slot points to. -/
def Live (chains : List (RootChain δ)) (m : Machine δ) (pointer : Address) : Prop :=
  pointer ∈ m.objects ∧ ∃ place, Reached chains m place ∧ m.slot place = pointer

/-- Between two collections. -/
structure Ready (m : Machine δ) : Prop where
  collecting : m.collecting = false
  previous : m.previous = ∅
  plain : ∀ {pointer object}, m.objects.lookup pointer = some object → object.forwarded = null

/-- What generated code keeps to: a slot holds an object, or an address the heap
does not manage (null, static text); callbacks rewrite slots of roots, which are
outside of the heap as well, or of live objects. -/
structure Sound (outside : Address → Prop) (chains : List (RootChain δ)) (m : Machine δ) :
    Prop where
  null : outside null
  managed : ∀ {pointer}, pointer ∈ m.objects → ¬ outside pointer
  pointer : ∀ {place}, Reached chains m place → outside (m.slot place) ∨ m.slot place ∈ m.objects
  base : ∀ {place}, Reached chains m place → outside place.1 ∨ Live chains m place.1
  root : ∀ {root address}, root ∈ rootsOf chains → address ∈ root.storage → outside address

/-- The allocator hands out blocks that are in use nowhere. -/
structure Fresh (storage : Nat → Address) (outside : Address → Prop) (m : Machine δ) : Prop where
  injective : Injective storage
  objects : ∀ n, storage n ∉ m.objects
  managed : ∀ n, ¬ outside (storage n)

/-! ## Where objects are during a collection -/

/-- The place of an address while objects move: forwarded if it is managed. -/
def place (previous : Objects δ) (pointer : Address) : Address :=
  match previous.lookup pointer with
  | some object => object.forwarded
  | none => pointer

def Forwarded (s : Machine δ) (pointer : Address) : Prop :=
  ∃ object, s.previous.lookup pointer = some object ∧ object.forwarded ≠ null

/-- Nothing will move it any more. -/
def Final (s : Machine δ) (pointer : Address) : Prop :=
  pointer ∉ s.previous ∨ Forwarded s pointer

def image (s : Machine δ) (slot : Slot) : Slot :=
  (place s.previous slot.1, slot.2)

/-- The slots of an allocation can be rewritten: it is where it will stay. -/
def Based (outside : Address → Prop) (s : Machine δ) (address : Address) : Prop :=
  outside address ∨ Forwarded s address

/-- The slot holds the place of what it held before. -/
structure Done (outside : Address → Prop) (m s : Machine δ) (slot : Slot) : Prop where
  based : Based outside s slot.1
  final : Final s (m.slot slot)
  holds : s.slot (image s slot) = place s.previous (m.slot slot)

/-- What is the same before, during and after a collection. -/
structure Framed (m s : Machine δ) : Prop where
  stress : s.stress = m.stress
  listViews : s.listViews = m.listViews
  access : s.access = m.access
  mutexes : s.mutexes = m.mutexes

structure Tracing (storage : Nat → Address) (outside : Address → Prop)
    (chains : List (RootChain δ)) (m s : Machine δ) : Prop where
  framed : Framed m s
  /-- From-space has the objects there were, some of them forwarded. -/
  previous : ∀ pointer, (s.previous.lookup pointer).map Allocation.plain = m.objects.lookup pointer
  live : ∀ {pointer}, Forwarded s pointer → Live chains m pointer
  placed : ∀ {pointer object}, Forwarded s pointer → m.objects.lookup pointer = some object →
    if keeps m.stress object then place s.previous pointer = pointer
    else ∃ n < s.copied.length, place s.previous pointer = storage n
  injective : ∀ {first second}, Forwarded s first → Forwarded s second →
    place s.previous first = place s.previous second → first = second
  /-- To-space has exactly what was forwarded. -/
  objects : ∀ {pointer object}, s.objects.lookup pointer = some object ↔
    ∃ old, Forwarded s old ∧ place s.previous old = pointer ∧ m.objects.lookup old = some object
  bytes : s.bytes = (s.objects.entries.map fun entry => entry.2.occupied).sum
  contents : ∀ {address}, Based outside s address →
    (s.memory (place s.previous address)).contents = (m.memory address).contents
  slots : ∀ {slot : Slot}, Based outside s slot.1 →
    s.slot (image s slot) = m.slot slot ∨ Reached chains m slot ∧ Done outside m s slot
  /-- What is not forwarded yet is as it was. -/
  untouched : ∀ {pointer}, pointer ∈ m.objects → ¬ Forwarded s pointer →
    s.memory pointer = m.memory pointer
  work : ∀ {pointer trace}, (pointer, trace) ∈ s.work →
    ∃ old object, Forwarded s old ∧ place s.previous old = pointer ∧
      m.objects.lookup old = some object ∧ object.trace = some trace
  copied : ∀ {first second}, (first, second) ∈ s.copied ↔
    Forwarded s first ∧ place s.previous first = second ∧ second ≠ first
  once : (s.copied.map Prod.fst).Nodup

/-- What a step of tracing keeps. -/
structure Grows (outside : Address → Prop) (m s s' : Machine δ) : Prop where
  previous : ∀ {pointer}, pointer ∈ s'.previous ↔ pointer ∈ s.previous
  final : ∀ {pointer}, Final s pointer →
    Final s' pointer ∧ place s'.previous pointer = place s.previous pointer
  done : ∀ {slot}, Done outside m s slot → Done outside m s' slot
  work : ∀ {item}, item ∈ s.work → item ∈ s'.work
  count : s'.work.length + s.objects.entries.length ≤ s.work.length + s'.objects.entries.length
  pushed : ∀ {pointer object trace}, Forwarded s' pointer → ¬ Forwarded s pointer →
    m.objects.lookup pointer = some object → object.trace = some trace →
    (place s'.previous pointer, trace) ∈ s'.work

section
variable {m s s' s'' : Machine δ} {storage : Nat → Address} {outside : Address → Prop}
  {chains : List (RootChain δ)} {pointer moved : Address} {object : Allocation δ}

theorem Forwarded.final (h : Forwarded s pointer) : Final s pointer := .inr h

theorem Live.mem (h : Live chains m pointer) : pointer ∈ m.objects := h.1

theorem Grows.refl (outside : Address → Prop) (m s : Machine δ) : Grows outside m s s where
  previous := Iff.rfl
  final h := ⟨h, rfl⟩
  done h := h
  work h := h
  count := le_rfl
  pushed h hnot := absurd h hnot

theorem Grows.trans (h : Grows outside m s s') (h' : Grows outside m s' s'') :
    Grows outside m s s'' where
  previous := h'.previous.trans h.previous
  final hfinal := by
    have first := h.final hfinal
    have second := h'.final first.1
    exact ⟨second.1, second.2.trans first.2⟩
  done hdone := h'.done (h.done hdone)
  work hmem := h'.work (h.work hmem)
  count := by
    have := h.count
    have := h'.count
    omega
  pushed {pointer object trace} hforwarded hnot hobject htrace := by
    by_cases hmid : Forwarded s' pointer
    · have hpushed := h'.work (h.pushed hmid hnot hobject htrace)
      rwa [(h'.final hmid.final).2]
    · exact h'.pushed hforwarded hmid hobject htrace

/-! ## Reading the invariant -/

theorem Tracing.mem_previous (h : Tracing storage outside chains m s) :
    pointer ∈ s.previous ↔ pointer ∈ m.objects := by
  rw [← lookup_isSome, ← lookup_isSome, ← h.previous, isSome_map]

theorem Tracing.lookup_previous (h : Tracing storage outside chains m s)
    (hlookup : s.previous.lookup pointer = some object) :
    m.objects.lookup pointer = some object.plain := by
  rw [← h.previous, hlookup, map_some]

theorem place_of_notMem (h : pointer ∉ s.previous) : place s.previous pointer = pointer := by
  rw [place, lookup_eq_none.mpr h]

theorem Tracing.place_outside (h : Tracing storage outside chains m s)
    (hsound : Sound outside chains m) (hout : outside pointer) :
    place s.previous pointer = pointer := by
  apply place_of_notMem
  intro hmem; exact hsound.managed (h.mem_previous.mp hmem) hout

theorem Forwarded.place_ne_null (h : Forwarded s pointer) : place s.previous pointer ≠ null := by
  obtain ⟨object, hlookup, hne⟩ := h
  rwa [place, hlookup]

section
variable (h : Tracing storage outside chains m s)
include h

theorem Tracing.forwarded_mem (hforwarded : Forwarded s pointer) : pointer ∈ m.objects :=
  (h.live hforwarded).mem

theorem Tracing.place_cases (hforwarded : Forwarded s pointer) :
    place s.previous pointer = pointer ∨
      ∃ n < s.copied.length, place s.previous pointer = storage n := by
  obtain ⟨object, hobject⟩ := isSome_iff_exists.mp
    (lookup_isSome.mpr (h.forwarded_mem hforwarded))
  have hplaced := h.placed hforwarded hobject
  split at hplaced
  · exact .inl hplaced
  · exact .inr hplaced

/-- A forwarded object is at no place that the heap does not manage. -/
theorem Tracing.place_managed (hsound : Sound outside chains m) (hfresh : Fresh storage outside m)
    (hforwarded : Forwarded s pointer) : ¬ outside (place s.previous pointer) := by
  obtain hsame | ⟨n, -, hn⟩ := h.place_cases hforwarded
  · rw [hsame]; exact hsound.managed (h.forwarded_mem hforwarded)
  · rw [hn]; exact hfresh.managed n

/-- It is not where something unforwarded still is either. -/
theorem Tracing.place_ne (hfresh : Fresh storage outside m) {other : Address}
    (hforwarded : Forwarded s pointer) (hmem : other ∈ m.objects) (hother : ¬ Forwarded s other) :
    place s.previous pointer ≠ other := by
  rintro rfl
  obtain hsame | ⟨n, -, hn⟩ := h.place_cases hforwarded
  · rw [hsame] at hother; exact hother hforwarded
  · rw [hn] at hmem; exact hfresh.objects n hmem

/-- Slots that can be rewritten are apart from each other. -/
theorem Tracing.image_injective (hsound : Sound outside chains m) (hfresh : Fresh storage outside m)
    {first second : Address} (hfirst : Based outside s first) (hsecond : Based outside s second)
    (heq : place s.previous first = place s.previous second) : first = second := by
  obtain hfirst | hfirst := hfirst <;> obtain hsecond | hsecond := hsecond
  · rwa [h.place_outside hsound hfirst, h.place_outside hsound hsecond] at heq
  · rw [h.place_outside hsound hfirst] at heq
    exact absurd (heq ▸ hfirst) (h.place_managed hsound hfresh hsecond)
  · rw [h.place_outside hsound hsecond] at heq
    exact absurd (heq ▸ hsecond) (h.place_managed hsound hfresh hfirst)
  · exact h.injective hfirst hsecond heq

end

theorem Forwarded.mem_previous (h : Forwarded s pointer) : pointer ∈ s.previous := by
  obtain ⟨object, hlookup, -⟩ := h
  rw [← lookup_isSome, hlookup]; rfl

theorem Grows.forwarded (h : Grows outside m s s') (hforwarded : Forwarded s pointer) :
    Forwarded s' pointer := by
  obtain hnot | hforwarded' := (h.final hforwarded.final).1
  · exact absurd (h.previous.mpr hforwarded.mem_previous) hnot
  · exact hforwarded'

theorem Grows.place_based (h : Grows outside m s s') (hbased : Based outside s pointer)
    (hsound : Sound outside chains m) (htracing : Tracing storage outside chains m s)
    (htracing' : Tracing storage outside chains m s') :
    Based outside s' pointer ∧ place s'.previous pointer = place s.previous pointer := by
  obtain hout | hforwarded := hbased
  · exact ⟨.inl hout, by
      rw [htracing.place_outside hsound hout, htracing'.place_outside hsound hout]⟩
  · exact ⟨.inr (h.forwarded hforwarded), (h.final hforwarded.final).2⟩

/-! ## A visit -/

theorem forwarded_insert {other : Address} (hmoved : moved ≠ null)
    (hprevious : s'.previous = s.previous.insert pointer { object with forwarded := moved }) :
    Forwarded s' other ↔ other = pointer ∨ Forwarded s other := by
  by_cases heq : other = pointer
  · subst heq; simp [Forwarded, hprevious, hmoved]
  · simp [Forwarded, hprevious, heq]

theorem place_insert (previous : Objects δ) (pointer : Address) (object : Allocation δ)
    (other : Address) :
    place (previous.insert pointer object) other =
      if other = pointer then object.forwarded else place previous other := by
  by_cases heq : other = pointer
  · subst heq; simp [place]
  · simp [place, heq]

/-- How an object gets to its place: it stays, or it is copied to a new block.
`between` is the machine before the tables are updated. -/
structure Arrives (storage : Nat → Address) (outside : Address → Prop) (m s between : Machine δ)
    (pointer : Address) (object : Allocation δ) (moved : Address) : Prop where
  heap : between.toHeap = s.toHeap
  memory : between.memory moved = m.memory pointer
  frame : ∀ {address}, address ≠ moved → between.memory address = s.memory address
  apart : ∀ {other}, Forwarded s other → place s.previous other ≠ moved
  managed : ¬ outside moved
  own : moved ∈ m.objects → moved = pointer
  placed : if keeps m.stress object then moved = pointer
    else ∃ n < between.copied.length, moved = storage n
  copied : between.copied = if moved = pointer then s.copied else s.copied ++ [(pointer, moved)]

theorem Tracing.arrives_kept (h : Tracing storage outside chains m s)
    (hsound : Sound outside chains m) (hfresh : Fresh storage outside m)
    (hmem : pointer ∈ m.objects) (hnot : ¬ Forwarded s pointer)
    (hkeeps : keeps m.stress object = true) :
    Arrives storage outside m s s pointer object pointer where
  heap := rfl
  memory := h.untouched hmem hnot
  frame _ := rfl
  apart hforwarded := h.place_ne hfresh hforwarded hmem hnot
  managed := hsound.managed hmem
  own _ := rfl
  placed := by rw [if_pos hkeeps]
  copied := by rw [if_pos rfl]

theorem Tracing.arrives_copied (h : Tracing storage outside chains m s)
    (hfresh : Fresh storage outside m) (hmem : pointer ∈ m.objects) (hnot : ¬ Forwarded s pointer)
    (hkeeps : keeps m.stress object = false) :
    Arrives storage outside m s (s.copy pointer (storage s.copied.length)) pointer object
      (storage s.copied.length) where
  heap := rfl
  memory := by simp [Machine.copy, h.untouched hmem hnot]
  frame hne := by simp [Machine.copy, hne]
  apart hforwarded := by
    obtain hsame | ⟨n, hn, heq⟩ := h.place_cases hforwarded
    · rw [hsame]
      intro heq; exact hfresh.objects _ (heq ▸ h.forwarded_mem hforwarded)
    · rw [heq]
      intro hstorage; exact absurd (hfresh.injective hstorage) (Nat.ne_of_lt hn)
  managed := hfresh.managed _
  own hmoved := absurd hmoved (hfresh.objects _)
  placed := by
    rw [if_neg (by simp [hkeeps])]
    exact ⟨s.copied.length, by simp [Machine.copy], rfl⟩
  copied := by
    rw [if_neg]
    · rfl
    · intro heq; exact hfresh.objects _ (heq ▸ hmem)

section
variable {between : Machine δ}

section
variable (h : Arrives storage outside m s between pointer object moved)
include h

theorem Arrives.copied_le : s.copied.length ≤ between.copied.length := by
  rw [h.copied]
  split <;> simp

/-- What was based before is elsewhere than the object that arrives. -/
theorem Arrives.place_ne (htracing : Tracing storage outside chains m s)
    (hsound : Sound outside chains m) {address : Address} (hbased : Based outside s address) :
    place s.previous address ≠ moved := by
  obtain hout | hforwarded := hbased
  · rw [htracing.place_outside hsound hout]
    rintro rfl
    exact h.managed hout
  · exact h.apart hforwarded

theorem Arrives.previous :
    (between.publish pointer object moved).previous =
      s.previous.insert pointer { object with forwarded := moved } := by
  simp [Machine.publish, h.heap]

theorem Arrives.forwarded (hsound : Sound outside chains m) {other : Address} :
    Forwarded (between.publish pointer object moved) other ↔ other = pointer ∨ Forwarded s other := by
  refine forwarded_insert ?_ h.previous
  rintro rfl
  exact h.managed hsound.null

theorem Arrives.place (other : Address) :
    place (between.publish pointer object moved).previous other =
      if other = pointer then moved else place s.previous other := by
  rw [h.previous, place_insert]

theorem Arrives.old (hnot : ¬ Forwarded s pointer) {other : Address}
    (hforwarded : Forwarded s other) :
    Collector.place (between.publish pointer object moved).previous other =
      Collector.place s.previous other := by
  rw [h.place, if_neg]
  rintro rfl
  exact hnot hforwarded

theorem Arrives.based (htracing : Tracing storage outside chains m s)
    (hsound : Sound outside chains m) (hmem : pointer ∈ m.objects) (hnot : ¬ Forwarded s pointer)
    {address : Address} (hbased : Based outside s address) :
    Collector.place (between.publish pointer object moved).previous address =
        Collector.place s.previous address ∧
      (between.publish pointer object moved).memory (Collector.place s.previous address) =
        s.memory (Collector.place s.previous address) := by
  refine ⟨?_, h.frame (h.place_ne htracing hsound hbased)⟩
  obtain hout | hforwarded := hbased
  · rw [h.place, if_neg]
    rintro rfl
    exact hsound.managed hmem hout
  · exact h.old hnot hforwarded

theorem Arrives.notMem (htracing : Tracing storage outside chains m s) : moved ∉ s.objects := by
  intro hmem
  obtain ⟨found, hfound⟩ := isSome_iff_exists.mp (lookup_isSome.mpr hmem)
  obtain ⟨old, hforwarded, hplace, -⟩ := htracing.objects.mp hfound
  exact h.apart hforwarded hplace

theorem Arrives.entries (htracing : Tracing storage outside chains m s) :
    (between.publish pointer object moved).objects.entries =
      ⟨moved, object.plain⟩ :: s.objects.entries := by
  simp only [Machine.publish, h.heap]
  exact entries_insert_of_notMem (h.notMem htracing)

theorem Arrives.work :
    (between.publish pointer object moved).work =
      match object.trace with
      | some trace => (moved, trace) :: s.work
      | none => s.work := by
  cases htrace : object.trace with
  | none => simp [Machine.publish, htrace, h.heap]
  | some trace => simp [Machine.publish, htrace, h.heap]

end

variable (h : Arrives storage outside m s between pointer object moved)
  (htracing : Tracing storage outside chains m s) (hsound : Sound outside chains m)
  (hlookup : s.previous.lookup pointer = some object) (hnot : ¬ Forwarded s pointer)
include h htracing hsound hlookup hnot

theorem Arrives.grows : Grows outside m s (between.publish pointer object moved) := by
  have hmem : pointer ∈ s.previous := lookup_isSome.mp (by rw [hlookup]; rfl)
  have hprevious {other} : other ∈ (between.publish pointer object moved).previous ↔
      other ∈ s.previous := by
    rw [h.previous, mem_insert]
    exact or_iff_right_of_imp fun heq => heq ▸ hmem
  have hfinal {other} (hfinal : Final s other) :
      Final (between.publish pointer object moved) other ∧
        Collector.place (between.publish pointer object moved).previous other =
          Collector.place s.previous other := by
    obtain hother | hforwarded := hfinal
    · refine ⟨.inl fun hin => hother (hprevious.mp hin), ?_⟩
      rw [place_of_notMem hother, place_of_notMem fun hin => hother (hprevious.mp hin)]
    · exact ⟨.inr ((h.forwarded hsound).mpr (.inr hforwarded)), h.old hnot hforwarded⟩
  refine ⟨hprevious, hfinal, ?_, ?_, ?_, ?_⟩
  · intro slot hdone
    obtain ⟨hplace, hmemory⟩ := h.based htracing hsound (htracing.mem_previous.mp hmem) hnot
      hdone.based
    refine ⟨hdone.based.imp_right fun hforwarded => (h.forwarded hsound).mpr (.inr hforwarded),
      (hfinal hdone.final).1, ?_⟩
    rw [(hfinal hdone.final).2, ← hdone.holds]
    simp [Machine.slot, image, hplace, hmemory]
  · intro item hitem
    rw [h.work]
    cases object.trace with
    | none => exact hitem
    | some trace => exact .tail _ hitem
  · rw [h.entries htracing, h.work]
    cases object.trace <;> simp only [length_cons] <;> omega
  · intro other found trace hforwarded hother hfound htrace
    obtain rfl | hin := (h.forwarded hsound).mp hforwarded
    · rw [htracing.lookup_previous hlookup, some_inj] at hfound
      have hobject : object.trace = some trace := by rw [← htrace, ← hfound]; rfl
      rw [h.work, h.place, if_pos rfl, hobject]; exact .head _
    · exact absurd hin hother

theorem Arrives.objects {at_ : Address} {found : Allocation δ} :
    (between.publish pointer object moved).objects.lookup at_ = some found ↔
      ∃ old, Forwarded (between.publish pointer object moved) old ∧
        Collector.place (between.publish pointer object moved).previous old = at_ ∧
        m.objects.lookup old = some found := by
  have hobjects : (between.publish pointer object moved).objects =
      s.objects.insert moved object.plain := by
    simp only [Machine.publish, h.heap]; rfl
  have hpointer := htracing.lookup_previous hlookup
  rw [hobjects]
  by_cases hat : at_ = moved
  · subst hat
    rw [lookup_insert]
    constructor
    · intro hfound
      exact ⟨pointer, (h.forwarded hsound).mpr (.inl rfl), by rw [h.place, if_pos rfl],
        hpointer.trans hfound⟩
    · rintro ⟨old, hforwarded, hplace, hold⟩
      obtain rfl | hin := (h.forwarded hsound).mp hforwarded
      · rw [← hold, hpointer]
      · rw [h.old hnot hin] at hplace; exact absurd hplace (h.apart hin)
  · rw [lookup_insert_ne hat, htracing.objects]
    constructor
    · rintro ⟨old, hin, hplace, hold⟩
      exact ⟨old, (h.forwarded hsound).mpr (.inr hin), by rw [h.old hnot hin, hplace], hold⟩
    · rintro ⟨old, hforwarded, hplace, hold⟩
      obtain rfl | hin := (h.forwarded hsound).mp hforwarded
      · rw [h.place, if_pos rfl] at hplace; exact absurd hplace.symm hat
      · exact ⟨old, hin, by rw [← h.old hnot hin, hplace], hold⟩

theorem Arrives.tracing (hlive : Live chains m pointer) :
    Tracing storage outside chains m (between.publish pointer object moved) := by
  have hgrows := h.grows htracing hsound hlookup hnot
  have hself : Collector.place (between.publish pointer object moved).previous pointer = moved := by
    rw [h.place, if_pos rfl]
  have hforwarded {other} : Forwarded (between.publish pointer object moved) other ↔
      other = pointer ∨ Forwarded s other := h.forwarded hsound
  have hmem : pointer ∈ m.objects := hlive.mem
  have hmemory : (between.publish pointer object moved).memory = between.memory := rfl
  have hcopied : (between.publish pointer object moved).copied = between.copied := rfl
  -- What can be rewritten now: the object that arrives, and what there was.
  have hbased {address} (hin : Based outside (between.publish pointer object moved) address) :
      address = pointer ∨ Based outside s address := by
    obtain hout | hin := hin
    · exact .inr (.inl hout)
    · exact (hforwarded.mp hin).imp_right .inr
  refine ⟨?_, ?_, ?_, ?_, ?_, h.objects htracing hsound hlookup hnot, ?_, ?_, ?_, ?_, ?_, ?_, ?_⟩
  · constructor <;> simp only [Machine.publish, h.heap]
    exacts [htracing.framed.stress, htracing.framed.listViews, htracing.framed.access,
      htracing.framed.mutexes]
  · intro other
    rw [h.previous, ← htracing.previous]
    by_cases heq : other = pointer
    · subst heq
      rw [lookup_insert, hlookup]; rfl
    · rw [lookup_insert_ne heq]
  · intro other hin
    obtain rfl | hin := hforwarded.mp hin
    · exact hlive
    · exact htracing.live hin
  · intro other found hin hfound
    obtain rfl | hin := hforwarded.mp hin
    · rw [htracing.lookup_previous hlookup, some_inj] at hfound
      rw [hself, ← hfound]; exact h.placed
    · rw [h.old hnot hin]
      have hplaced := htracing.placed hin hfound
      split
      · rwa [if_pos ‹_›] at hplaced
      · rw [if_neg ‹_›] at hplaced
        obtain ⟨n, hn, heq⟩ := hplaced
        exact ⟨n, Nat.lt_of_lt_of_le hn h.copied_le, heq⟩
  · intro first second hfirst hsecond heq
    obtain rfl | hone := hforwarded.mp hfirst <;> obtain rfl | htwo := hforwarded.mp hsecond
    · rfl
    · rw [hself, h.old hnot htwo] at heq; exact absurd heq.symm (h.apart htwo)
    · rw [hself, h.old hnot hone] at heq; exact absurd heq (h.apart hone)
    · rw [h.old hnot hone, h.old hnot htwo] at heq
      exact htracing.injective hone htwo heq
  · have hbytes : (between.publish pointer object moved).bytes = s.bytes + object.occupied := by
      simp [Machine.publish, h.heap]
    rw [hbytes, h.entries htracing, map_cons, htracing.bytes, Nat.add_comm]; rfl
  · intro address hin
    obtain rfl | hin := hbased hin
    · rw [hself, hmemory, h.memory]
    · obtain ⟨hplace, hsame⟩ := h.based htracing hsound hmem hnot hin
      rw [hplace, hsame, htracing.contents hin]
  · intro slot hin
    obtain heq | hin := hbased hin
    · left
      simp [Machine.slot, image, heq, hself, hmemory, h.memory]
    · obtain ⟨hplace, hsame⟩ := h.based htracing hsound hmem hnot hin
      refine (htracing.slots hin).imp ?_ fun hdone => ⟨hdone.1, hgrows.done hdone.2⟩
      intro hslot
      rw [← hslot]; simp [Machine.slot, image, hplace, hsame]
  · intro other hother hin
    rw [hforwarded, not_or] at hin
    rw [hmemory, h.frame, htracing.untouched hother hin.2]
    rintro rfl
    exact hin.1 (h.own hother)
  · intro other trace hitem
    rw [h.work] at hitem
    have hold (hitem : (other, trace) ∈ s.work) : ∃ old found,
        Forwarded (between.publish pointer object moved) old ∧
        Collector.place (between.publish pointer object moved).previous old = other ∧
        m.objects.lookup old = some found ∧ found.trace = some trace := by
      obtain ⟨old, found, hin, hplace, hfound, htrace⟩ := htracing.work hitem
      exact ⟨old, found, hforwarded.mpr (.inr hin), by rw [h.old hnot hin, hplace], hfound, htrace⟩
    split at hitem
    · obtain heq | hitem := mem_cons.mp hitem
      · cases heq
        exact ⟨pointer, object.plain, hforwarded.mpr (.inl rfl), hself,
          htracing.lookup_previous hlookup, ‹_›⟩
      · exact hold hitem
    · exact hold hitem
  · intro first second
    have hold : (first, second) ∈ s.copied ↔
        first ≠ pointer ∧ Forwarded (between.publish pointer object moved) first ∧
        Collector.place (between.publish pointer object moved).previous first = second ∧
        second ≠ first := by
      rw [htracing.copied]
      constructor
      · rintro ⟨hin, hplace, hne⟩
        exact ⟨fun heq => hnot (heq ▸ hin), hforwarded.mpr (.inr hin),
          by rw [h.old hnot hin, hplace], hne⟩
      · rintro ⟨hpointer, hin, hplace, hne⟩
        have hin := (hforwarded.mp hin).resolve_left hpointer
        exact ⟨hin, by rw [← h.old hnot hin, hplace], hne⟩
    rw [hcopied, h.copied]
    by_cases hfirst : first = pointer
    · subst hfirst
      have hpointer : Forwarded (between.publish first object moved) first :=
        hforwarded.mpr (.inl rfl)
      split
      · simp_all
      · simp only [mem_append, hold, ne_eq, not_true_eq_false, false_and, mem_singleton,
          Prod.mk.injEq, true_and, false_or, hpointer, hself]
        constructor
        · rintro rfl
          exact ⟨rfl, ‹_›⟩
        · exact fun heq => heq.1.symm
    · have hother : (first, second) ∈ (if moved = pointer then s.copied
          else s.copied ++ [(pointer, moved)]) ↔ (first, second) ∈ s.copied := by
        split <;> simp [hfirst]
      rw [hother, hold]; exact and_iff_right hfirst
  · rw [hcopied, h.copied]
    split
    · exact htracing.once
    · rw [map_append, nodup_append]
      refine ⟨htracing.once, by simp, ?_⟩
      intro first hfirst last hlast
      obtain ⟨⟨_, second⟩, hin, rfl⟩ := mem_map.mp hfirst
      obtain rfl : last = pointer := by simpa using hlast
      rintro rfl
      exact hnot (htracing.copied.mp hin).1

end

theorem not_forwarded (hlookup : s.previous.lookup pointer = some object)
    (hnull : object.forwarded = null) : ¬ Forwarded s pointer := by
  rintro ⟨found, hfound, hne⟩
  rw [hlookup, some_inj] at hfound; exact hne (hfound ▸ hnull)

theorem visit_spec (htracing : Tracing storage outside chains m s)
    (hsound : Sound outside chains m) (hfresh : Fresh storage outside m)
    (hlive : pointer ∈ m.objects → Live chains m pointer) :
    Tracing storage outside chains m (visit storage pointer s).2 ∧
      Grows outside m s (visit storage pointer s).2 ∧
      Final (visit storage pointer s).2 pointer ∧
      (visit storage pointer s).1 = place (visit storage pointer s).2.previous pointer := by
  unfold visit
  split
  case h_1 hnone =>
    have hnot := lookup_eq_none.mp hnone
    exact ⟨htracing, .refl outside m s, .inl hnot, (place_of_notMem hnot).symm⟩
  case h_2 object hlookup =>
    have hplace : place s.previous pointer = object.forwarded := by rw [place, hlookup]
    split
    case isTrue hne =>
      exact ⟨htracing, .refl outside m s, .inr ⟨object, hlookup, hne⟩, hplace.symm⟩
    case isFalse hnull =>
      have hnot := not_forwarded hlookup (not_not.mp hnull)
      have hmem : pointer ∈ m.objects := htracing.mem_previous.mp
        (lookup_isSome.mp (by rw [hlookup]; rfl))
      rw [htracing.framed.stress]
      split
      case isTrue hkeeps =>
        have harrives := htracing.arrives_kept hsound hfresh hmem hnot hkeeps
        exact ⟨harrives.tracing htracing hsound hlookup hnot (hlive hmem),
          harrives.grows htracing hsound hlookup hnot,
          .inr ((harrives.forwarded hsound).mpr (.inl rfl)), by rw [harrives.place, if_pos rfl]⟩
      case isFalse hkeeps =>
        have harrives := htracing.arrives_copied hfresh hmem hnot (Bool.not_eq_true _ ▸ hkeeps)
        exact ⟨harrives.tracing htracing hsound hlookup hnot (hlive hmem),
          harrives.grows htracing hsound hlookup hnot,
          .inr ((harrives.forwarded hsound).mpr (.inl rfl)), by rw [harrives.place, if_pos rfl]⟩

/-- A pointer that was rewritten already is returned as it is. -/
theorem visit_final (htracing : Tracing storage outside chains m s)
    (hfresh : Fresh storage outside m) (hfinal : Final s pointer) :
    visit storage (place s.previous pointer) s = (place s.previous pointer, s) := by
  obtain hnot | hforwarded := hfinal
  · rw [place_of_notMem hnot, visit, lookup_eq_none.mpr hnot]
  · obtain hsame | ⟨n, -, hn⟩ := htracing.place_cases hforwarded
    · obtain ⟨object, hlookup, hne⟩ := hforwarded
      have hobject : object.forwarded = pointer := by rw [← hsame, place, hlookup]
      rw [hsame, visit]
      simp only [hlookup]
      rw [if_pos hne, hobject]
    · have hnot : storage n ∉ s.previous := fun hin => hfresh.objects n (htracing.mem_previous.mp hin)
      rw [hn, visit, lookup_eq_none.mpr hnot]

/-! ## Slots and callbacks -/

theorem slot_store (m : Machine δ) (first second : Slot) (pointer : Address) :
    (m.store first pointer).slot second = if second = first then pointer else m.slot second := by
  obtain ⟨address, offset⟩ := first
  obtain ⟨other, index⟩ := second
  simp only [Machine.slot, Machine.store]
  by_cases haddress : other = address
  · by_cases hoffset : index = offset <;> simp [haddress, hoffset]
  · simp [haddress]

variable {slot : Slot}

theorem store_spec (htracing : Tracing storage outside chains m s) (hsound : Sound outside chains m)
    (hfresh : Fresh storage outside m) (hreached : Reached chains m slot)
    (hbased : Based outside s slot.1) (hfinal : Final s (m.slot slot)) :
    Tracing storage outside chains m (s.store (image s slot) (place s.previous (m.slot slot))) ∧
      Grows outside m s (s.store (image s slot) (place s.previous (m.slot slot))) ∧
      Done outside m (s.store (image s slot) (place s.previous (m.slot slot))) slot := by
  set stored := s.store (image s slot) (place s.previous (m.slot slot)) with hstored
  have himage (other : Slot) : image stored other = image s other := rfl
  have hmemory {address} (hne : address ≠ place s.previous slot.1) :
      stored.memory address = s.memory address := by
    simp [hstored, Machine.store, image, hne]
  have hcontents (address : Address) : (stored.memory address).contents =
      (s.memory address).contents := by
    by_cases heq : address = place s.previous slot.1
    · simp [hstored, Machine.store, image, heq]
    · rw [hmemory heq]
  have hdone : Done outside m stored slot := by
    refine ⟨hbased, hfinal, ?_⟩
    rw [himage, slot_store, if_pos rfl]; rfl
  have hother {other : Slot} (hin : Based outside s other.1) (hne : other ≠ slot) :
      stored.slot (image s other) = s.slot (image s other) := by
    rw [slot_store, if_neg]
    intro heq
    obtain ⟨haddress, hoffset⟩ := Prod.mk.inj heq
    exact hne (Prod.ext (htracing.image_injective hsound hfresh hin hbased haddress) hoffset)
  have hkept {other : Slot} (hold : Done outside m s other) : Done outside m stored other := by
    by_cases heq : other = slot
    · rwa [heq]
    · exact ⟨hold.based, hold.final, by rw [himage, hother hold.based heq]; exact hold.holds⟩
  refine ⟨{ htracing with contents := ?_, slots := ?_, untouched := ?_, framed := ?_ }, ?_, hdone⟩
  · exact ⟨htracing.framed.stress, htracing.framed.listViews, htracing.framed.access,
      htracing.framed.mutexes⟩
  · intro address hin
    rw [hcontents]; exact htracing.contents hin
  · intro other hin
    by_cases heq : other = slot
    · exact .inr ⟨heq ▸ hreached, heq ▸ hdone⟩
    · rw [himage, hother hin heq]
      exact (htracing.slots hin).imp_right fun hold => ⟨hold.1, hkept hold.2⟩
  · intro other hmem hnot
    rw [hmemory]
    · exact htracing.untouched hmem hnot
    · rintro rfl
      obtain hout | hforwarded := hbased
      · rw [htracing.place_outside hsound hout] at hmem
        exact hsound.managed hmem hout
      · exact htracing.place_ne hfresh hforwarded hmem hnot rfl
  · exact ⟨Iff.rfl, fun h => ⟨h, rfl⟩, hkept, fun h => h, le_rfl, fun h hnot => absurd h hnot⟩

theorem Reached.live {slot : Slot} (h : Reached chains m slot) (hmem : m.slot slot ∈ m.objects) :
    Live chains m (m.slot slot) :=
  ⟨hmem, slot, h, rfl⟩

/-- A step that settles `slots`. -/
structure Settles (storage : Nat → Address) (outside : Address → Prop) (chains : List (RootChain δ))
    (m s : Machine δ) (slots : List Slot) (s' : Machine δ) : Prop where
  tracing : Tracing storage outside chains m s'
  grows : Grows outside m s s'
  done : ∀ {slot}, slot ∈ slots → Done outside m s' slot

theorem tracePointer_spec (htracing : Tracing storage outside chains m s)
    (hsound : Sound outside chains m) (hfresh : Fresh storage outside m)
    (hreached : Reached chains m slot) (hbased : Based outside s slot.1) :
    Settles storage outside chains m s [slot] (tracePointer storage s (image s slot)) := by
  -- Either the slot holds what it held at first, or it was rewritten before.
  obtain hslot | ⟨-, hdone⟩ := htracing.slots hbased
  · obtain ⟨hvisited, hgrows, hfinal, hplace⟩ := visit_spec htracing hsound hfresh hreached.live
    obtain ⟨hbased', heq⟩ := hgrows.place_based hbased hsound htracing hvisited
    obtain ⟨hstored, hgrows', hdone⟩ := store_spec hvisited hsound hfresh hreached hbased' hfinal
    have hrun : tracePointer storage s (image s slot) =
        (visit storage (m.slot slot) s).2.store (image (visit storage (m.slot slot) s).2 slot)
          (place (visit storage (m.slot slot) s).2.previous (m.slot slot)) := by
      rw [tracePointer, hslot, hplace, image, image, heq]
    rw [hrun]; exact ⟨hstored, hgrows.trans hgrows', by simpa using hdone⟩
  · obtain ⟨hstored, hgrows, hdone'⟩ :=
      store_spec htracing hsound hfresh hreached hbased hdone.final
    have hrun : tracePointer storage s (image s slot) =
        s.store (image s slot) (place s.previous (m.slot slot)) := by
      rw [tracePointer, hdone.holds, visit_final htracing hfresh hdone.final]
    rw [hrun]; exact ⟨hstored, hgrows, by simpa using hdone'⟩

theorem Settles.refl (htracing : Tracing storage outside chains m s) :
    Settles storage outside chains m s [] s :=
  ⟨htracing, .refl outside m s, fun h => absurd h not_mem_nil⟩

theorem Settles.trans {first second : List Slot}
    (h : Settles storage outside chains m s first s')
    (h' : Settles storage outside chains m s' second s'') :
    Settles storage outside chains m s (first ++ second) s'' where
  tracing := h'.tracing
  grows := h.grows.trans h'.grows
  done hmem := by
    obtain hfirst | hsecond := mem_append.mp hmem
    · exact h'.grows.done (h.done hfirst)
    · exact h'.done hsecond

theorem Settles.cons {first : Slot} {rest : List Slot}
    (h : Settles storage outside chains m s [first] s')
    (h' : Settles storage outside chains m s' rest s'') :
    Settles storage outside chains m s (first :: rest) s'' :=
  h.trans h'

theorem foldl_spec {ι : Type} (items : List ι) (step : Machine δ → ι → Machine δ)
    (slots : ι → List Slot) (htracing : Tracing storage outside chains m s)
    (hstep : ∀ item ∈ items, ∀ s', Tracing storage outside chains m s' → Grows outside m s s' →
      Settles storage outside chains m s' (slots item) (step s' item)) :
    Settles storage outside chains m s (items.flatMap slots) (items.foldl step s) := by
  induction items generalizing s with
  | nil => exact .refl htracing
  | cons item rest ih =>
    have hfirst := hstep item (.head _) s htracing (.refl outside m s)
    refine hfirst.trans (ih hfirst.tracing fun other hmem s' htracing' hgrows => ?_)
    exact hstep other (.tail _ hmem) s' htracing' (hfirst.grows.trans hgrows)

/-- The pointers at some offsets of one allocation, which stays where it is. -/
theorem offsets_spec (htracing : Tracing storage outside chains m s)
    (hsound : Sound outside chains m) (hfresh : Fresh storage outside m) {address : Address}
    {offsets : List Nat} (hbased : Based outside s address)
    (hreached : ∀ offset ∈ offsets, Reached chains m (address, offset)) :
    Settles storage outside chains m s (offsets.map (address, ·))
      (offsets.foldl
        (fun m offset => tracePointer storage m (place s.previous address, offset)) s) := by
  rw [map_eq_flatMap]
  refine foldl_spec offsets _ _ htracing fun offset hmem s' htracing' hgrows => ?_
  obtain ⟨hbased', heq⟩ := hgrows.place_based hbased hsound htracing htracing'
  rw [← heq]
  have hspec := tracePointer_spec htracing' hsound hfresh (hreached offset hmem) hbased'
  exact hspec

theorem Done.next {slot : Slot} (h : Done outside m s slot)
    (htracing : Tracing storage outside chains m s) (hsound : Sound outside chains m)
    (hreached : Reached chains m slot) : Based outside s (m.slot slot) := by
  obtain hout | hmem := hsound.pointer hreached
  · exact .inl hout
  · exact .inr (h.final.resolve_left fun hnot => hnot (htracing.mem_previous.mpr hmem))

section
variable (htracing : Tracing storage outside chains m s) (hsound : Sound outside chains m)
  (hfresh : Fresh storage outside m)
include htracing hsound hfresh

/-- The elements of a list are in its storage, which the header points to by now. -/
theorem traceElement_spec {list : Address} {trace : δ → Nat → List Nat} {start : Nat}
    (hdone : Done outside m s (list, dataOffset)) (hlist : Reached chains m (list, dataOffset))
    (hreached : ∀ offset ∈ (m.memory (m.slot (list, dataOffset))).contents.offsets (trace · start),
      Reached chains m (m.slot (list, dataOffset), offset)) :
    Settles storage outside chains m s
      (((m.memory (m.slot (list, dataOffset))).contents.offsets (trace · start)).map
        (m.slot (list, dataOffset), ·))
      (traceElement storage (place s.previous list) trace s start) := by
  have hbased := hdone.next htracing hsound hlist
  have hslot : s.slot (place s.previous list, dataOffset) =
      place s.previous (m.slot (list, dataOffset)) := hdone.holds
  have hspec := offsets_spec htracing hsound hfresh hbased hreached
  rw [← htracing.contents hbased] at hspec ⊢
  rw [traceElement, hslot]; exact hspec

theorem traceList_spec {list : Address} (hbased : Based outside s list)
    (hreached : ∀ slot ∈ Trace.list.locations m.memory list, Reached chains m slot) :
    Settles storage outside chains m s (Trace.list.locations m.memory list)
      (traceList storage (place s.previous list) s) := by
  have hcontents := htracing.contents hbased
  unfold traceList Trace.locations at *
  rw [hcontents]
  cases hkind : (m.memory list).contents with
  | other data => exact .refl htracing
  | list header =>
    simp only [hkind] at hreached ⊢
    have hlist := hreached (list, dataOffset) (.head _)
    have hfirst := tracePointer_spec htracing hsound hfresh hlist hbased
    cases helement : header.traceElement with
    | none => exact hfirst
    | some trace =>
      simp only [helement] at hreached
      refine hfirst.cons (foldl_spec _ _ _ hfirst.tracing fun index hmem s' htracing' hgrows => ?_)
      have hdone := hgrows.done (hfirst.done (.head _))
      obtain ⟨-, heq⟩ := (hfirst.grows.trans hgrows).place_based hbased hsound htracing htracing'
      rw [← heq]
      refine traceElement_spec htracing' hsound hfresh hdone hlist fun offset hoffset => ?_
      exact hreached _ (.tail _
        (mem_flatMap.mpr ⟨index, hmem, mem_map_of_mem hoffset⟩))

theorem run_spec (trace : Trace δ) {address : Address} (hbased : Based outside s address)
    (hreached : ∀ slot ∈ trace.locations m.memory address, Reached chains m slot) :
    Settles storage outside chains m s (trace.locations m.memory address)
      (trace.run storage (place s.previous address) s) := by
  cases trace with
  | pointer => exact tracePointer_spec htracing hsound hfresh (hreached _ (.head _)) hbased
  | bytes => exact tracePointer_spec htracing hsound hfresh (hreached _ (.head _)) hbased
  | list => exact traceList_spec htracing hsound hfresh hbased hreached
  | payload offsets =>
    have hspec := offsets_spec htracing hsound hfresh hbased
      fun offset hoffset => hreached (address, offset) (mem_map_of_mem hoffset)
    rw [← htracing.contents hbased] at hspec
    unfold Trace.run Trace.locations
    rw [← htracing.contents hbased]; exact hspec

theorem traceRoot_spec {root : Root δ} (hroot : root ∈ rootsOf chains) :
    Settles storage outside chains m s (root.locations m.memory) (traceRoot storage s root) := by
  have hactive : root.address ≠ null := by simpa using (mem_filter.mp hroot).2
  have hreached : ∀ slot ∈ root.locations m.memory, Reached chains m slot :=
    fun slot hslot => .root hroot hslot
  have hout {address} (hmem : address ∈ root.storage) : outside address := hsound.root hroot hmem
  rw [traceRoot, if_neg hactive]
  unfold Root.locations at *
  unfold Root.storage at hout
  cases htrace : root.trace with
  | value trace =>
    simp only [htrace] at hreached hout ⊢
    have hspec := run_spec htracing hsound hfresh trace (.inl (hout (.head _))) hreached
    rwa [htracing.place_outside hsound (hout (.head _))] at hspec
  | slots addresses =>
    simp only [htrace] at hreached hout ⊢
    rw [map_eq_flatMap]
    refine foldl_spec addresses _ _ htracing fun address hmem s' htracing' hgrows => ?_
    have hspec := tracePointer_spec htracing' hsound hfresh
      (hreached (address, 0) (mem_map_of_mem hmem)) (.inl (hout hmem))
    rwa [image, htracing'.place_outside hsound (hout hmem)] at hspec

end

/-! ## The roots and the work list -/

theorem mem_rootsOf {root : Root δ} :
    root ∈ rootsOf chains ↔ root ∈ chains.flatten.flatten ∧ root.address ≠ null := by
  rw [rootsOf, mem_filter, decide_eq_true_iff]

theorem traceRoots_eq (storage : Nat → Address) (chains : List (RootChain δ)) (s : Machine δ) :
    traceRoots storage chains s = chains.flatten.flatten.foldl (traceRoot storage) s := by
  simp [traceRoots, foldl_flatten]

theorem traceRoots_spec (htracing : Tracing storage outside chains m s)
    (hsound : Sound outside chains m) (hfresh : Fresh storage outside m) :
    Tracing storage outside chains m (traceRoots storage chains s) ∧
      Grows outside m s (traceRoots storage chains s) ∧
      ∀ root ∈ rootsOf chains, ∀ slot ∈ root.locations m.memory,
        Done outside m (traceRoots storage chains s) slot := by
  have hspec := foldl_spec chains.flatten.flatten (traceRoot storage)
    (fun root => if root.address = null then [] else root.locations m.memory) htracing
    (fun root hmem s' htracing' _ => by
      by_cases hnull : root.address = null
      · rw [if_pos hnull, traceRoot, if_pos hnull]; exact .refl htracing'
      · rw [if_neg hnull]
        exact traceRoot_spec htracing' hsound hfresh (mem_rootsOf.mpr ⟨hmem, hnull⟩))
  rw [traceRoots_eq]
  refine ⟨hspec.tracing, hspec.grows, fun root hroot slot hslot => hspec.done ?_⟩
  obtain ⟨hmem, hnull⟩ := mem_rootsOf.mp hroot
  exact mem_flatMap.mpr ⟨root, hmem, by rwa [if_neg hnull]⟩

/-- Every forwarded object is on the work list, or was traced. -/
def Covered (outside : Address → Prop) (m s : Machine δ) : Prop :=
  ∀ {pointer object trace}, Forwarded s pointer → m.objects.lookup pointer = some object →
    object.trace = some trace → (place s.previous pointer, trace) ∈ s.work ∨
      ∀ slot ∈ trace.locations m.memory pointer, Done outside m s slot

theorem Grows.covered (h : Grows outside m s s')
    (hcovered : Covered outside m s) : Covered outside m s' := by
  intro pointer object trace hforwarded hobject htrace
  by_cases hold : Forwarded s pointer
  · refine (hcovered hold hobject htrace).imp (fun hwork => ?_) fun hdone slot hslot =>
      h.done (hdone slot hslot)
    rw [(h.final hold.final).2]; exact h.work hwork
  · exact .inl (h.pushed hforwarded hold hobject htrace)

/-- To-space never has more objects than there were. -/
theorem Tracing.length_le (h : Tracing storage outside chains m s) :
    s.objects.entries.length ≤ m.objects.entries.length := by
  have hsub : s.objects.keys ⊆ m.objects.keys.map (place s.previous) := by
    intro pointer hmem
    obtain ⟨object, hobject⟩ := isSome_iff_exists.mp
      (lookup_isSome.mpr (mem_keys.mpr hmem))
    obtain ⟨old, -, hplace, hold⟩ := h.objects.mp hobject
    exact mem_map.mpr ⟨old, mem_keys.mp (lookup_isSome.mp (by rw [hold]; rfl)), hplace⟩
  have hle := (subperm_of_subset s.objects.keys_nodup hsub).length_le
  simpa [AList.keys, List.keys] using hle

theorem Live.reached (h : Live chains m pointer) (hobject : m.objects.lookup pointer = some object)
    {trace : Trace δ} (htrace : object.trace = some trace)
    (hslot : slot ∈ trace.locations m.memory pointer) : Reached chains m slot := by
  obtain ⟨-, from_, hreached, heq⟩ := h
  rw [← heq] at hobject hslot; exact .field hreached hobject htrace hslot

theorem turn_spec (htracing : Tracing storage outside chains m s)
    (hsound : Sound outside chains m) (hfresh : Fresh storage outside m)
    (hcovered : Covered outside m s) {trace : Trace δ} {rest : List (Address × Trace δ)}
    (hwork : s.work = (pointer, trace) :: rest) :
    Tracing storage outside chains m (trace.run storage pointer { s with work := rest }) ∧
      Grows outside m { s with work := rest } (trace.run storage pointer { s with work := rest }) ∧
      Covered outside m (trace.run storage pointer { s with work := rest }) := by
  obtain ⟨old, object, hold, rfl, hobject, htrace⟩ :=
    htracing.work (hwork ▸ mem_cons_self)
  have hpopped : Tracing storage outside chains m { s with work := rest } :=
    { htracing with
      framed := ⟨htracing.framed.stress, htracing.framed.listViews, htracing.framed.access,
        htracing.framed.mutexes⟩
      slots := fun hbased => (htracing.slots hbased).imp_right fun h => ⟨h.1, h.2.1, h.2.2, h.2.3⟩
      work := fun hmem => htracing.work (hwork ▸ mem_cons_of_mem _ hmem) }
  have hspec := run_spec hpopped hsound hfresh trace (.inr hold) fun slot hslot =>
    (htracing.live hold).reached hobject htrace hslot
  refine ⟨hspec.tracing, hspec.grows, ?_⟩
  intro other found callback hforwarded hfound hcallback
  by_cases hbefore : Forwarded s other
  · obtain hmem | hdone := hcovered hbefore hfound hcallback
    · rw [hwork, mem_cons, Prod.mk.injEq] at hmem
      obtain ⟨hplace, -⟩ | hmem := hmem
      · -- The object that was popped.
        obtain rfl := htracing.injective hbefore hold hplace
        rw [hobject, some_inj] at hfound
        obtain rfl : trace = callback := by
          rw [← some_inj, ← htrace, ← hcallback, hfound]
        exact .inr fun slot hslot => hspec.done hslot
      · refine .inl ?_
        have hsame := (hspec.grows.final (.inr hbefore)).2
        rw [hsame]; exact hspec.grows.work hmem
    · refine .inr fun slot hslot => hspec.grows.done ?_
      obtain ⟨h1, h2, h3⟩ := hdone slot hslot
      exact ⟨h1, h2, h3⟩
  · exact .inl (hspec.grows.pushed hforwarded hbefore hfound hcallback)

/-- The fuel suffices: every object is pushed once at most. -/
theorem drain_spec (hsound : Sound outside chains m) (hfresh : Fresh storage outside m)
    (fuel : Nat) (htracing : Tracing storage outside chains m s) (hcovered : Covered outside m s)
    (hfuel : m.objects.entries.length + s.work.length ≤ fuel + s.objects.entries.length) :
    Tracing storage outside chains m (drain storage fuel s) ∧
      Covered outside m (drain storage fuel s) ∧ (drain storage fuel s).work = [] ∧
      ∀ {slot}, Done outside m s slot → Done outside m (drain storage fuel s) slot := by
  induction fuel generalizing s with
  | zero =>
    have hle := htracing.length_le
    have hempty : s.work = [] := length_eq_zero_iff.mp (by omega)
    exact ⟨htracing, hcovered, hempty, fun h => h⟩
  | succ fuel ih =>
    unfold drain
    cases hwork : s.work with
    | nil => exact ⟨htracing, hcovered, hwork, fun h => h⟩
    | cons item rest =>
      obtain ⟨hnext, hgrows, hcovered'⟩ := turn_spec htracing hsound hfresh hcovered hwork
      have hcount := hgrows.count
      obtain ⟨hfinal, hdrained, hempty, hdone⟩ := ih hnext hcovered' (by
        simp only [hwork, length_cons] at hfuel hcount
        omega)
      exact ⟨hfinal, hdrained, hempty, fun h => hdone (hgrows.done ⟨h.based, h.final, h.holds⟩)⟩

/-! ## The start -/

theorem not_forwarded_begin (hready : Ready m) : ¬ Forwarded (begin m) pointer := by
  rintro ⟨object, hlookup, hne⟩
  exact hne (hready.plain hlookup)

theorem begin_tracing (hready : Ready m) (hsound : Sound outside chains m) :
    Tracing storage outside chains m (begin m) := by
  have hnot {pointer} : ¬ Forwarded (begin m) pointer := not_forwarded_begin hready
  have hout {address} (hbased : Based outside (begin m) address) :
      place (begin m).previous address = address := by
    apply place_of_notMem
    intro hmem; exact hsound.managed hmem (hbased.resolve_right hnot)
  refine ⟨⟨rfl, rfl, rfl, rfl⟩, ?_, ?_, ?_, ?_, ?_, ?_, ?_, ?_, ?_, ?_, ?_, ?_⟩
  · intro pointer
    change (m.objects.lookup pointer).map Allocation.plain = m.objects.lookup pointer
    cases hlookup : m.objects.lookup pointer with
    | none => rfl
    | some object =>
      rw [map_some, Allocation.plain, ← hready.plain hlookup]
  · exact fun h => absurd h hnot
  · exact fun h => absurd h hnot
  · exact fun h => absurd h hnot
  · simp only [begin, hready.previous]
    exact ⟨nofun, fun ⟨_, h, _⟩ => absurd h hnot⟩
  · simp [begin, hready.previous]
  · intro address hbased
    rw [hout hbased]; rfl
  · intro slot hbased
    left
    rw [image, hout hbased]; rfl
  · exact fun _ _ => rfl
  · exact fun h => absurd h not_mem_nil
  · exact ⟨fun h => absurd h not_mem_nil, fun h => absurd h.1 hnot⟩
  · exact nodup_nil

end

end Loom.Collector

import Loom.Runtime.CollectorTracing

/-
  What a collection does to the object graph.

  `Relocates` is an isomorphism of what is live before with everything there is
  afterwards: the contents, the pointers at every offset and so the sharing and
  the cycles are those of before, under `move`. `Collected` adds what was copied,
  what was freed, the weak registrations and the accounting.
-/

namespace Loom.Collector

open Function List AList

variable {δ : Type}

/-- The contents of a list less the flag that the collector writes itself. -/
def Contents.unwatched (contents : Contents δ) : Contents δ :=
  contents.watch 0

structure Relocates (outside : Address → Prop) (chains : List (RootChain δ))
    (before after : Machine δ) (move : Address → Address) : Prop where
  fixed : ∀ {pointer}, pointer ∉ before.objects → move pointer = pointer
  injective : ∀ {first second}, Live chains before first → Live chains before second →
    move first = move second → first = second
  /-- What is left is what was live, and it is left once. -/
  objects : ∀ {pointer object}, after.objects.lookup pointer = some object ↔
    ∃ old, Live chains before old ∧ move old = pointer ∧ before.objects.lookup old = some object
  contents : ∀ {address}, outside address ∨ Live chains before address →
    (after.memory (move address)).contents.unwatched = (before.memory address).contents.unwatched
  /-- The edges of the graph. -/
  reached : ∀ {slot : Slot}, Reached chains before slot →
    after.slot (move slot.1, slot.2) = move (before.slot slot)
  unreached : ∀ {slot : Slot}, ¬ Reached chains before slot →
    outside slot.1 ∨ Live chains before slot.1 →
    after.slot (move slot.1, slot.2) = before.slot slot
  managed : ∀ {pointer}, pointer ∈ after.objects → ¬ outside pointer

/-! ## Marking -/

section
variable {m s : Machine δ} {storage : Nat → Address} {outside : Address → Prop}
  {chains : List (RootChain δ)} {pointer : Address} {object : Allocation δ}

/-- When nothing is left to trace, every reached slot was rewritten. -/
theorem reached_done (htracing : Tracing storage outside chains m s)
    (hcovered : Covered outside m s) (hempty : s.work = [])
    (hroots : ∀ root ∈ rootsOf chains, ∀ slot ∈ root.locations m.memory, Done outside m s slot)
    {slot : Slot} (hreached : Reached chains m slot) : Done outside m s slot := by
  induction hreached with
  | root hroot hslot => exact hroots _ hroot _ hslot
  | @field from_ next object trace _ hobject htrace hnext ih =>
    have hmem : m.slot from_ ∈ m.objects := lookup_isSome.mp (by rw [hobject]; rfl)
    have hforwarded := ih.final.resolve_left fun hnot => hnot (htracing.mem_previous.mpr hmem)
    obtain hwork | hdone := hcovered hforwarded hobject htrace
    · rw [hempty] at hwork; exact absurd hwork not_mem_nil
    · exact hdone next hnext

/-- Exactly the live objects are forwarded. -/
theorem marked (htracing : Tracing storage outside chains m s)
    (hdone : ∀ {slot}, Reached chains m slot → Done outside m s slot) :
    Forwarded s pointer ↔ Live chains m pointer := by
  constructor
  · exact htracing.live
  · rintro ⟨hmem, slot, hreached, rfl⟩
    exact (hdone hreached).final.resolve_left fun hnot => hnot (htracing.mem_previous.mpr hmem)

/-! ## Weak registrations -/

/-- The flag of several lists. -/
def watchAll (memory : Memory δ) (lists : List Address) (watched : Nat) : Memory δ :=
  lists.foldl (fun memory list => watch memory list watched) memory

theorem watch_apply (memory : Memory δ) (list address : Address) (watched : Nat) :
    watch memory list watched address =
      if address = list then
        { memory address with contents := (memory address).contents.watch watched }
      else memory address := by
  by_cases heq : address = list
  · subst heq; simp [watch]
  · simp [watch, heq]

@[simp] theorem Contents.watch_watch (contents : Contents δ) (first second : Nat) :
    (contents.watch first).watch second = contents.watch second := by
  cases contents <;> rfl

theorem watchAll_apply (memory : Memory δ) (lists : List Address) (watched : Nat)
    (address : Address) :
    watchAll memory lists watched address =
      if address ∈ lists then
        { memory address with contents := (memory address).contents.watch watched }
      else memory address := by
  induction lists generalizing memory with
  | nil => rfl
  | cons list rest ih =>
    change watchAll (watch memory list watched) rest watched address = _
    rw [ih, watch_apply]
    by_cases hlist : address = list <;> by_cases hrest : address ∈ rest <;> simp [hlist]

/-- The places of the watched lists that were forwarded. -/
def sources (previous : Objects δ) (views : List ListView) : List Address :=
  (views.map fun view => forwarding previous view.source).filter (· ≠ null)

def retained (previous : Objects δ) (views : List ListView) : List ListView :=
  views.filter fun view =>
    forwarding previous view.source ≠ null ∧ forwarding previous view.removed ≠ null

def ListView.relocate (move : Address → Address) (view : ListView) : ListView :=
  { view with source := move view.source, removed := move view.removed }

theorem unwatch_eq (previous : Objects δ) (views : List ListView) (memory : Memory δ) :
    unwatch previous views memory = watchAll memory (sources previous views) 0 := by
  induction views generalizing memory with
  | nil => rfl
  | cons view rest ih =>
    rw [unwatch, foldl_cons, ← unwatch, ih, sources, sources, map_cons,
      forwarding]
    cases previous.lookup view.source with
    | none => simp
    | some object => by_cases hnull : object.forwarded = null <;> simp [hnull, watchAll]

/-- A view is kept if both of its lists are, and then its list is watched. -/
theorem retainViews_spec (previous : Objects δ) (views : List ListView) (memory : Memory δ) :
    retainViews previous views memory =
      ((retained previous views).map (ListView.relocate (forwarding previous)),
        watchAll memory ((retained previous views).map fun view => forwarding previous view.source)
          1) := by
  induction views generalizing memory with
  | nil => rfl
  | cons view rest ih =>
    rw [retainViews, retained, filter_cons]
    by_cases hnull : forwarding previous view.source = null ∨ forwarding previous view.removed = null
    · rw [if_pos hnull, ih, if_neg (by simp only [decide_eq_true_iff]; tauto)]
      rfl
    · rw [if_neg hnull, ih, if_pos (by simp only [decide_eq_true_iff]; tauto)]
      rfl

/-! ## Guards -/

theorem relocate_eq (locks : Locks) (previous : Objects δ) :
    relocate locks previous = locks.entries.foldl (fun moved entry =>
      if forwarding previous entry.1 = null then moved
      else moved.insert (forwarding previous entry.1) entry.2) ∅ := by
  rw [relocate]
  congr
  funext moved entry
  rw [forwarding]
  cases previous.lookup entry.1 with
  | none => rfl
  | some object => by_cases hnull : object.forwarded = null <;> simp

variable {access : Nat}

/-- No guard replaces another, because no two objects share a place. -/
theorem relocate_fold (previous : Objects δ)
    (hinjective : ∀ {first second}, forwarding previous first ≠ null →
      forwarding previous first = forwarding previous second → first = second) {pointer : Address}
    (hpointer : pointer ≠ null) (entries : List (Sigma fun _ : Address => Nat))
    (hnodup : entries.NodupKeys) (moved : Locks) : (entries.foldl (fun moved entry =>
        if forwarding previous entry.1 = null then moved
        else moved.insert (forwarding previous entry.1) entry.2) moved).lookup pointer = some access ↔
      (∃ entry ∈ entries, forwarding previous entry.1 = pointer ∧ entry.2 = access) ∨
        (∀ entry ∈ entries, forwarding previous entry.1 ≠ pointer) ∧
          moved.lookup pointer = some access := by
  induction entries generalizing moved with
  | nil => simp
  | cons entry rest ih =>
    obtain ⟨hnot, hrest⟩ := nodupKeys_cons.mp hnodup
    rw [foldl_cons, ih hrest]
    simp only [mem_cons, exists_eq_or_imp, forall_eq_or_imp]
    by_cases hsame : forwarding previous entry.1 = pointer
    · -- The guard of this place: no later entry has it.
      have hlater : ∀ other ∈ rest, forwarding previous other.1 ≠ pointer := by
        intro other hmem heq
        have hkey := hinjective (hsame ▸ hpointer) (hsame.trans heq.symm)
        exact hnot (hkey ▸ mem_keys_of_mem hmem)
      have hnone : ¬ ∃ other ∈ rest, forwarding previous other.1 = pointer ∧ other.2 = access :=
        fun ⟨other, hmem, heq, _⟩ => hlater other hmem heq
      rw [if_neg (hsame ▸ hpointer), hsame, lookup_insert]
      simp only [hnone, false_or, ne_eq, not_true_eq_false, false_and, or_false, true_and,
        Option.some_inj]
      exact and_iff_right hlater
    · have hlookup : (if forwarding previous entry.1 = null then moved
          else moved.insert (forwarding previous entry.1) entry.2).lookup pointer =
          moved.lookup pointer := by
        split
        · rfl
        · exact lookup_insert_ne fun heq => hsame heq.symm
      rw [hlookup]
      simp [hsame, false_and, false_or, ne_eq, not_false_eq_true, true_and]

/-- A guard follows its object; the guards of dead objects are dropped. -/
theorem relocate_spec (locks : Locks) (previous : Objects δ)
    (hinjective : ∀ {first second}, forwarding previous first ≠ null →
      forwarding previous first = forwarding previous second → first = second) {pointer : Address}
    (hpointer : pointer ≠ null) :
    (relocate locks previous).lookup pointer = some access ↔
      ∃ old, forwarding previous old = pointer ∧ locks.lookup old = some access := by
  rw [relocate_eq, relocate_fold previous hinjective hpointer _ locks.nodupKeys]
  simp only [lookup_empty, reduceCtorEq, and_false, or_false]
  constructor
  · rintro ⟨entry, hmem, hplace, rfl⟩
    exact ⟨entry.1, hplace, mem_lookup_iff.mpr hmem⟩
  · rintro ⟨old, hplace, hlookup⟩
    exact ⟨⟨old, access⟩, mem_lookup_iff.mp hlookup, hplace, rfl⟩

/-! ## The graph -/

theorem Contents.unwatched_offsets {first second : Contents δ}
    (h : first.unwatched = second.unwatched) (trace : δ → List Nat) :
    first.offsets trace = second.offsets trace := by
  cases first <;> cases second <;> simp_all [unwatched, watch, offsets]

/-- What a callback covers afterwards is the image of what it covered before. -/
theorem Relocates.locations {before after : Machine δ} {move : Address → Address}
    (h : Relocates outside chains before after move) (hsound : Sound outside chains before)
    (trace : Trace δ) {address : Address} (hbased : outside address ∨ Live chains before address)
    (hreached : ∀ slot ∈ trace.locations before.memory address, Reached chains before slot) :
    trace.locations after.memory (move address) =
      (trace.locations before.memory address).map fun slot => (move slot.1, slot.2) := by
  have hcontents := h.contents hbased
  cases trace with
  | pointer => rfl
  | bytes => rfl
  | payload offsets =>
    simp only [Trace.locations, Contents.unwatched_offsets hcontents, map_map]
    rfl
  | list =>
    unfold Trace.locations at *
    cases hbefore : (before.memory address).contents with
    | other data =>
      rw [hbefore] at hcontents
      cases hafter : (after.memory (move address)).contents with
      | other _ => rfl
      | list _ => simp [hafter, Contents.unwatched, Contents.watch] at hcontents
    | list header =>
      simp only [hbefore] at hreached hcontents ⊢
      have hslot := hreached (address, dataOffset) (.head _)
      have hdata : (after.memory (move address)).slots dataOffset =
          move ((before.memory address).slots dataOffset) := h.reached hslot
      have hstorage : outside ((before.memory address).slots dataOffset) ∨
          Live chains before ((before.memory address).slots dataOffset) :=
        (hsound.pointer hslot).imp_right hslot.live
      cases hafter : (after.memory (move address)).contents with
      | other _ => simp [hafter, Contents.unwatched, Contents.watch] at hcontents
      | list header' =>
        simp only [hafter, Contents.unwatched, Contents.watch, Contents.list.injEq,
          ListHeader.mk.injEq] at hcontents
        obtain ⟨hlen, -, hstride, htrace, -⟩ := hcontents
        simp only [hlen, hstride, htrace, hdata]
        cases header.traceElement with
        | none => rfl
        | some trace =>
          simp only [Contents.unwatched_offsets (h.contents hstorage), map_cons,
            map_flatMap, map_map]
          rfl

section
variable {before after : Machine δ} {move : Address → Address}

variable (h : Relocates outside chains before after move) (hsound : Sound outside chains before)
include h hsound

theorem Relocates.stays {address : Address} (hout : outside address) : move address = address :=
  h.fixed fun hmem => hsound.managed hmem hout

theorem Relocates.root_locations {root : Root δ} (hroot : root ∈ rootsOf chains) :
    root.locations after.memory =
      (root.locations before.memory).map fun slot => (move slot.1, slot.2) := by
  have hreached : ∀ slot ∈ root.locations before.memory, Reached chains before slot :=
    fun slot hslot => .root hroot hslot
  have hout {address} (hmem : address ∈ root.storage) : outside address := hsound.root hroot hmem
  unfold Root.locations at *
  unfold Root.storage at hout
  cases htrace : root.trace with
  | value trace =>
    simp only [htrace] at hreached hout ⊢
    have haddress := hout (.head _)
    have hlocations := h.locations hsound trace (.inl haddress) hreached
    rwa [h.stays hsound haddress] at hlocations
  | slots addresses =>
    simp only [htrace] at hout ⊢
    rw [map_map]
    refine map_congr_left fun address hmem => ?_
    rw [comp_apply, h.stays hsound (hout hmem)]

theorem Relocates.lookup_move {slot : Slot} (hreached : Reached chains before slot)
    {object : Allocation δ} :
    after.objects.lookup (move (before.slot slot)) = some object ↔
      before.objects.lookup (before.slot slot) = some object := by
  rw [h.objects]
  constructor
  · rintro ⟨old, hlive, hplace, hobject⟩
    obtain hout | hmem := hsound.pointer hreached
    · have hin : move old ∈ after.objects := lookup_isSome.mp
        (by rw [h.objects.mpr ⟨old, hlive, rfl, hobject⟩]; rfl)
      rw [hplace, h.stays hsound hout] at hin; exact absurd hout (h.managed hin)
    · rwa [h.injective hlive (hreached.live hmem) hplace] at hobject
  · intro hobject
    exact ⟨_, hreached.live (lookup_isSome.mp (by rw [hobject]; rfl)), rfl, hobject⟩

theorem Relocates.reached_iff {slot : Slot} :
    Reached chains after slot ↔
      ∃ old : Slot, Reached chains before old ∧ slot = (move old.1, old.2) := by
  constructor
  · intro hreached
    induction hreached with
    | root hroot hslot =>
      rw [h.root_locations hsound hroot] at hslot
      obtain ⟨old, hold, rfl⟩ := mem_map.mp hslot
      exact ⟨old, .root hroot hold, rfl⟩
    | @field place next object trace _ hobject htrace hnext ih =>
      obtain ⟨old, hold, rfl⟩ := ih
      rw [h.reached hold] at hobject hnext
      rw [h.lookup_move hsound hold] at hobject
      have hlive := hold.live (lookup_isSome.mp (by rw [hobject]; rfl))
      rw [h.locations hsound trace (.inr hlive) fun slot hslot => .field hold hobject htrace hslot]
        at hnext
      obtain ⟨inner, hinner, rfl⟩ := mem_map.mp hnext
      exact ⟨inner, .field hold hobject htrace hinner, rfl⟩
  · rintro ⟨old, hreached, rfl⟩
    induction hreached with
    | root hroot hslot =>
      refine .root hroot ?_
      rw [h.root_locations hsound hroot]; exact mem_map_of_mem hslot
    | @field place next object trace hplace hobject htrace hnext ih =>
      have hlive := hplace.live (lookup_isSome.mp (by rw [hobject]; rfl))
      refine .field ih ?_ htrace ?_
      · rw [h.reached hplace, h.lookup_move hsound hplace, hobject]
      · rw [h.reached hplace, h.locations hsound trace (.inr hlive)
          fun slot hslot => .field hplace hobject htrace hslot]
        exact mem_map_of_mem hnext

theorem Relocates.live_iff {pointer : Address} :
    Live chains after pointer ↔ ∃ old, Live chains before old ∧ move old = pointer := by
  constructor
  · rintro ⟨hmem, -⟩
    obtain ⟨object, hobject⟩ := Option.isSome_iff_exists.mp (lookup_isSome.mpr hmem)
    obtain ⟨old, hlive, hplace, -⟩ := h.objects.mp hobject
    exact ⟨old, hlive, hplace⟩
  · rintro ⟨old, hlive, rfl⟩
    obtain ⟨object, hobject⟩ := Option.isSome_iff_exists.mp (lookup_isSome.mpr hlive.mem)
    refine ⟨lookup_isSome.mp (by rw [h.objects.mpr ⟨old, hlive, rfl, hobject⟩]; rfl), ?_⟩
    obtain ⟨-, slot, hreached, rfl⟩ := hlive
    exact ⟨_, (h.reached_iff hsound).mpr ⟨slot, hreached, rfl⟩, h.reached hreached⟩

/-- The program finds a heap as sound as it left it. -/
theorem Relocates.sound : Sound outside chains after where
  null := hsound.null
  managed := h.managed
  pointer hreached := by
    obtain ⟨old, hold, rfl⟩ := (h.reached_iff hsound).mp hreached
    rw [h.reached hold]
    obtain hout | hmem := hsound.pointer hold
    · exact .inl ((h.stays hsound hout).symm ▸ hout)
    · exact .inr ((h.live_iff hsound).mpr ⟨_, hold.live hmem, rfl⟩).mem
  base hreached := by
    obtain ⟨old, hold, rfl⟩ := (h.reached_iff hsound).mp hreached
    obtain hout | hlive := hsound.base hold
    · exact .inl ((h.stays hsound hout).symm ▸ hout)
    · exact .inr ((h.live_iff hsound).mpr ⟨_, hlive, rfl⟩)
  root := hsound.root

end

/-! ## A collection -/

/-- A view is kept when both its list and its removed elements are live. -/
def ViewLive (chains : List (RootChain δ)) (m : Machine δ) (view : ListView) : Prop :=
  Live chains m view.source ∧ Live chains m view.removed

open Classical in
/-- The flag of a list, by the views of it. -/
noncomputable def watchedAfter (chains : List (RootChain δ)) (m : Machine δ) (list : Address)
    (watched : Nat) : Nat :=
  if ∃ view ∈ m.listViews, view.source = list ∧ ViewLive chains m view then 1
  else if ∃ view ∈ m.listViews, view.source = list then 0
  else watched

open Classical in
structure Collected (outside : Address → Prop) (chains : List (RootChain δ))
    (before after : Machine δ) (move : Address → Address) : Prop
    extends Relocates outside chains before after move where
  /-- Every moved object is copied, and once. -/
  copied : ∀ {pointer moved}, (pointer, moved) ∈ after.copied ↔
    Live chains before pointer ∧ move pointer = moved ∧ moved ≠ pointer
  once : (after.copied.map Prod.fst).Nodup
  kept : ∀ {pointer object}, Live chains before pointer →
    before.objects.lookup pointer = some object →
    (move pointer = pointer ↔ keeps before.stress object = true)
  /-- Separate storage is given back unless a live object still is there. -/
  freed : ∀ {pointer}, pointer ∈ after.freed ↔
    (∃ object, before.objects.lookup pointer = some object ∧ object.individuallyOwned = true) ∧
      ¬ (Live chains before pointer ∧ move pointer = pointer)
  freedOnce : after.freed.Nodup
  views : after.listViews =
    (before.listViews.filter (ViewLive chains before)).map (ListView.relocate move)
  watched : ∀ {pointer header}, Live chains before pointer →
    (before.memory pointer).contents = .list header →
    (after.memory (move pointer)).contents =
      .list { header with watched := watchedAfter chains before pointer header.watched }
  access : ∀ {pointer access}, pointer ≠ null → (after.access.lookup pointer = some access ↔
    ∃ old, Live chains before old ∧ move old = pointer ∧ before.access.lookup old = some access)
  mutexes : ∀ {pointer access}, pointer ≠ null → (after.mutexes.lookup pointer = some access ↔
    ∃ old, Live chains before old ∧ move old = pointer ∧ before.mutexes.lookup old = some access)
  bytes : after.bytes = (after.objects.entries.map fun entry => entry.2.occupied).sum

theorem forwarding_eq (h : Forwarded s pointer) :
    forwarding s.previous pointer = place s.previous pointer := by
  obtain ⟨object, hlookup, -⟩ := h
  rw [forwarding, place, hlookup]

theorem forwarding_ne_null : forwarding s.previous pointer ≠ null ↔ Forwarded s pointer := by
  rw [forwarding, Forwarded]
  cases s.previous.lookup pointer <;> simp

/-- The flags that the end of a collection writes. -/
theorem memory_finish (s : Machine δ) (address : Address) :
    (finish s).memory address = watchAll (watchAll s.memory (sources s.previous s.listViews) 0)
      ((retained s.previous s.listViews).map fun view => forwarding s.previous view.source) 1
      address := by
  simp [finish, retainViews_spec, unwatch_eq]

theorem slot_finish (s : Machine δ) (slot : Slot) : (finish s).slot slot = s.slot slot := by
  rw [Machine.slot, memory_finish, watchAll_apply, watchAll_apply]
  split <;> split <;> rfl

theorem unwatched_finish (s : Machine δ) (address : Address) :
    ((finish s).memory address).contents.unwatched = (s.memory address).contents.unwatched := by
  rw [memory_finish, watchAll_apply, watchAll_apply]
  split <;> split <;> simp [Contents.unwatched]

theorem finish_relocates (htracing : Tracing storage outside chains m s)
    (hsound : Sound outside chains m) (hfresh : Fresh storage outside m)
    (hdone : ∀ {slot}, Reached chains m slot → Done outside m s slot) :
    Relocates outside chains m (finish s) (place s.previous) := by
  have hmarked {pointer} : Forwarded s pointer ↔ Live chains m pointer := marked htracing hdone
  have hbased {address} : outside address ∨ Live chains m address → Based outside s address :=
    Or.imp_right hmarked.mpr
  have hobjects {pointer object} : (finish s).objects.lookup pointer = some object ↔
      ∃ old, Live chains m old ∧ place s.previous old = pointer ∧
        m.objects.lookup old = some object := by
    rw [show (finish s).objects = s.objects from rfl, htracing.objects]
    simp [hmarked]
  refine ⟨?_, ?_, hobjects, ?_, ?_, ?_, ?_⟩
  · exact fun hnot => place_of_notMem fun hmem => hnot (htracing.mem_previous.mp hmem)
  · exact fun hfirst hsecond => htracing.injective (hmarked.mpr hfirst) (hmarked.mpr hsecond)
  · intro address hin
    rw [unwatched_finish, htracing.contents (hbased hin)]
  · intro slot hreached
    rw [slot_finish]; exact (hdone hreached).holds
  · intro slot hnot hin
    rw [slot_finish]
    exact (htracing.slots (hbased hin)).resolve_right fun h => hnot h.1
  · intro pointer hmem
    obtain ⟨object, hobject⟩ := Option.isSome_iff_exists.mp (lookup_isSome.mpr hmem)
    obtain ⟨old, hlive, rfl, -⟩ := hobjects.mp hobject
    exact htracing.place_managed hsound hfresh (hmarked.mpr hlive)

/-- What the allocator gets back. -/
theorem mem_abandoned (htracing : Tracing storage outside chains m s)
    (hsound : Sound outside chains m) :
    pointer ∈ abandoned s.previous ↔
      (∃ object, m.objects.lookup pointer = some object ∧ object.individuallyOwned = true) ∧
        ¬ (Forwarded s pointer ∧ place s.previous pointer = pointer) := by
  have hnull : null ∉ m.objects := fun hmem => hsound.managed hmem hsound.null
  simp only [abandoned, mem_map, mem_filter, Bool.and_eq_true, decide_eq_true_iff]
  constructor
  · rintro ⟨⟨_, object⟩, ⟨hmem, howned, hne⟩, rfl⟩
    have hlookup := mem_lookup_iff.mpr hmem
    refine ⟨⟨object.plain, htracing.lookup_previous hlookup, howned⟩, ?_⟩
    rintro ⟨-, hsame⟩
    rw [place, hlookup] at hsame; exact hne hsame
  · rintro ⟨⟨object, hobject, howned⟩, hnot⟩
    rw [← htracing.previous, Option.map_eq_some_iff] at hobject
    obtain ⟨found, hlookup, rfl⟩ := hobject
    refine ⟨⟨pointer, found⟩, ⟨mem_lookup_iff.mp hlookup, howned, ?_⟩, rfl⟩
    intro hsame
    have hplace : place s.previous pointer = pointer := by
      rw [place, hlookup]; exact hsame
    refine hnot ⟨⟨found, hlookup, ?_⟩, hplace⟩
    rw [hsame]
    rintro rfl
    exact hnull (htracing.mem_previous.mp (lookup_isSome.mp (by rw [hlookup]; rfl)))

theorem abandoned_nodup (previous : Objects δ) : (abandoned previous).Nodup :=
  previous.keys_nodup.sublist ((filter_sublist).map Sigma.fst)

theorem place_eq_self (htracing : Tracing storage outside chains m s)
    (hfresh : Fresh storage outside m) (hforwarded : Forwarded s pointer)
    (hobject : m.objects.lookup pointer = some object) :
    place s.previous pointer = pointer ↔ keeps m.stress object = true := by
  have hplaced := htracing.placed hforwarded hobject
  constructor
  · intro hsame
    by_contra hnot
    rw [if_neg hnot, hsame] at hplaced
    obtain ⟨n, -, hn⟩ := hplaced
    exact hfresh.objects n (hn ▸ htracing.forwarded_mem hforwarded)
  · intro hkeeps
    rwa [if_pos hkeeps] at hplaced

theorem finish_watched (htracing : Tracing storage outside chains m s)
    (hdone : ∀ {slot}, Reached chains m slot → Done outside m s slot)
    (hlive : Live chains m pointer) {header : ListHeader δ}
    (hheader : (m.memory pointer).contents = .list header) :
    ((finish s).memory (place s.previous pointer)).contents =
      .list { header with watched := watchedAfter chains m pointer header.watched } := by
  have hmarked {pointer} : Forwarded s pointer ↔ Live chains m pointer := marked htracing hdone
  have hcontents : (s.memory (place s.previous pointer)).contents = .list header := by
    rw [htracing.contents (.inr (hmarked.mpr hlive)), hheader]
  -- A place is that of this list if the source is this list.
  have hsource {view : ListView} :
      forwarding s.previous view.source = place s.previous pointer ↔ view.source = pointer := by
    constructor
    · intro heq
      have hforwarded : Forwarded s view.source :=
        forwarding_ne_null.mp (heq ▸ (hmarked.mpr hlive).place_ne_null)
      rw [forwarding_eq hforwarded] at heq
      exact htracing.injective hforwarded (hmarked.mpr hlive) heq
    · intro heq
      rw [heq, forwarding_eq (hmarked.mpr hlive)]
  have hkept : place s.previous pointer ∈ (retained s.previous s.listViews).map
      (fun view => forwarding s.previous view.source) ↔
        ∃ view ∈ m.listViews, view.source = pointer ∧ ViewLive chains m view := by
    simp only [retained, mem_map, mem_filter, decide_eq_true_iff, forwarding_ne_null,
      hmarked, hsource, htracing.framed.listViews]
    exact ⟨fun ⟨view, h, heq⟩ => ⟨view, h.1, heq, h.2⟩, fun ⟨view, h, heq, hv⟩ => ⟨view, ⟨h, hv⟩, heq⟩⟩
  have hfirst : place s.previous pointer ∈ sources s.previous s.listViews ↔
      ∃ view ∈ m.listViews, view.source = pointer := by
    simp only [sources, mem_filter, mem_map, hsource, decide_eq_true_iff,
      htracing.framed.listViews, (hmarked.mpr hlive).place_ne_null, ne_eq, not_false_eq_true,
      and_true]
  rw [memory_finish, watchAll_apply, watchAll_apply, watchedAfter]
  by_cases hview : ∃ view ∈ m.listViews, view.source = pointer ∧ ViewLive chains m view
  · rw [if_pos (hkept.mpr hview)]
    split <;> simp [hcontents, Contents.watch]
  · rw [if_neg (hkept.not.mpr hview), if_neg hview]
    by_cases hany : ∃ view ∈ m.listViews, view.source = pointer
    · rw [if_pos (hfirst.mpr hany), if_pos hany]
      simp [hcontents, Contents.watch]
    · rw [if_neg (hfirst.not.mpr hany), if_neg hany, hcontents]

open Classical in
theorem finish_views (htracing : Tracing storage outside chains m s)
    (hdone : ∀ {slot}, Reached chains m slot → Done outside m s slot) :
    (finish s).listViews =
      (m.listViews.filter (ViewLive chains m)).map (ListView.relocate (place s.previous)) := by
  have hmarked {pointer} : Forwarded s pointer ↔ Live chains m pointer := marked htracing hdone
  have hviews : (finish s).listViews =
      (retained s.previous s.listViews).map (ListView.relocate (forwarding s.previous)) := by
    simp only [finish, retainViews_spec]
  have hkept : retained s.previous s.listViews = m.listViews.filter (ViewLive chains m) := by
    rw [retained, htracing.framed.listViews]
    refine filter_congr fun view _ => decide_eq_decide.mpr ?_
    simp only [forwarding_ne_null, hmarked, ViewLive]
  rw [hviews, hkept]
  refine map_congr_left fun view hmem => ?_
  obtain ⟨hsource, hremoved⟩ := of_decide_eq_true (mem_filter.mp hmem).2
  rw [ListView.relocate, ListView.relocate, forwarding_eq (hmarked.mpr hsource),
    forwarding_eq (hmarked.mpr hremoved)]

theorem finish_guards (htracing : Tracing storage outside chains m s)
    (hdone : ∀ {slot}, Reached chains m slot → Done outside m s slot) (locks : Locks)
    (hpointer : pointer ≠ null) :
    (relocate locks s.previous).lookup pointer = some access ↔
      ∃ old, Live chains m old ∧ place s.previous old = pointer ∧ locks.lookup old = some access := by
  have hmarked {pointer} : Forwarded s pointer ↔ Live chains m pointer := marked htracing hdone
  rw [relocate_spec locks s.previous ?_ hpointer]
  · constructor
    · rintro ⟨old, hplace, hlookup⟩
      have hforwarded := forwarding_ne_null.mp (hplace ▸ hpointer)
      exact ⟨old, hmarked.mp hforwarded, forwarding_eq hforwarded ▸ hplace, hlookup⟩
    · rintro ⟨old, hlive, hplace, hlookup⟩
      exact ⟨old, (forwarding_eq (hmarked.mpr hlive)).trans hplace, hlookup⟩
  · intro first second hfirst heq
    have hone := forwarding_ne_null.mp hfirst
    have htwo := forwarding_ne_null.mp (heq ▸ hfirst)
    rw [forwarding_eq hone, forwarding_eq htwo] at heq
    exact htracing.injective hone htwo heq

theorem finish_ready (htracing : Tracing storage outside chains m s) (hready : Ready m) :
    Ready (finish s) where
  collecting := rfl
  previous := rfl
  plain hlookup := by
    obtain ⟨old, -, -, hobject⟩ := htracing.objects.mp hlookup
    exact hready.plain hobject

/-- Tracing from the start of a collection to the end of the work list. -/
theorem trace_spec (hready : Ready m) (hsound : Sound outside chains m)
    (hfresh : Fresh storage outside m) :
    Tracing storage outside chains m
        (drain storage m.objects.entries.length (traceRoots storage chains (begin m))) ∧
      ∀ {slot}, Reached chains m slot → Done outside m
        (drain storage m.objects.entries.length (traceRoots storage chains (begin m))) slot := by
  have hstart : Tracing storage outside chains m (begin m) := begin_tracing hready hsound
  obtain ⟨hroots, hgrows, hsettled⟩ := traceRoots_spec hstart hsound hfresh
  have hcovered : Covered outside m (traceRoots storage chains (begin m)) :=
    hgrows.covered fun hforwarded => absurd hforwarded (not_forwarded_begin hready)
  have hcount := hgrows.count
  have hzero : (begin m).objects.entries = [] := by
    simp only [begin, hready.previous]; rfl
  obtain ⟨htracing, hdrained, hempty, hkept⟩ := drain_spec hsound hfresh
    m.objects.entries.length hroots hcovered (by
      have hwork : (begin m).work = [] := rfl
      rw [hzero, hwork] at hcount
      omega)
  exact ⟨htracing, reached_done htracing hdrained hempty fun root hroot slot hslot =>
    hkept (hsettled root hroot slot hslot)⟩

/-- A collection keeps the object graph up to where the objects are, from any
heap, roots and slots. -/
theorem collect_collected (storage : Nat → Address) (outside : Address → Prop)
    (chains : List (RootChain δ)) (before : Machine δ) (hready : Ready before)
    (hsound : Sound outside chains before) (hfresh : Fresh storage outside before) :
    ∃ after move, collectRoots storage chains before = .ok after ∧
      Collected outside chains before after move ∧ Ready after ∧ Sound outside chains after := by
  obtain ⟨htracing, hdone⟩ := trace_spec hready hsound hfresh
  set s := drain storage before.objects.entries.length (traceRoots storage chains (begin before))
  have hmarked {pointer} : Forwarded s pointer ↔ Live chains before pointer :=
    marked htracing hdone
  have hrelocates := finish_relocates htracing hsound hfresh hdone
  refine ⟨finish s, place s.previous, ?_, ?_, finish_ready htracing hready,
    hrelocates.sound hsound⟩
  · rw [collectRoots, if_neg (by simp [hready.collecting])]
  · exact
      { hrelocates with
        copied := htracing.copied.trans (and_congr_left' hmarked)
        once := htracing.once
        kept := fun hlive hobject => place_eq_self htracing hfresh (hmarked.mpr hlive) hobject
        freed := (mem_abandoned htracing hsound).trans
          (and_congr_right' (not_congr (and_congr_left' hmarked)))
        freedOnce := abandoned_nodup s.previous
        views := finish_views htracing hdone
        watched := fun hlive hheader => finish_watched htracing hdone hlive hheader
        access := fun hpointer => htracing.framed.access ▸
          finish_guards htracing hdone s.access hpointer
        mutexes := fun hpointer => htracing.framed.mutexes ▸
          finish_guards htracing hdone s.mutexes hpointer
        bytes := htracing.bytes }

end

/-! ## A cycle through a list

A root at 8 holds a list at 16 whose storage, at 512, is too large to move. Its
only element is a box at 32 that points back to the list; a box at 48 is dead. -/

/-- Null and the stack. -/
def lowMemory (address : Address) : Prop := address < 16

instance : DecidablePred lowMemory := fun address => inferInstanceAs (Decidable (address < 16))

def cyclicList : ListHeader Unit where
  len := 1
  cap := 8192
  stride := 8
  traceElement := some fun _ start => [start]
  watched := 0

def cyclicObjects : Objects Unit :=
  (((∅ : Objects Unit).insert 16 ⟨56, some .list, null⟩).insert 512 ⟨65536, none, null⟩).insert 32
    ⟨8, some .pointer, null⟩ |>.insert 48 ⟨8, some .pointer, null⟩

def cyclic : Machine Unit where
  objects := cyclicObjects
  previous := ∅
  collecting := false
  work := []
  bytes := 0
  threshold := minThreshold
  stress := false
  listViews := []
  access := ∅
  mutexes := ∅
  memory address :=
    { contents := if address = 16 then .list cyclicList else .other ()
      slots := fun offset =>
        match address, offset with
        | 8, 0 => 16
        | 16, 16 => 512
        | 512, 0 => 32
        | 32, 0 => 16
        | 48, 0 => 32
        | _, _ => null }
  copied := []
  freed := []

def cyclicRoots : List (RootChain Unit) := [[[⟨8, .value .pointer⟩], [⟨null, .value .pointer⟩]]]

def cyclicSlots : List Slot := [(8, 0), (16, 16), (512, 0), (32, 0)]

theorem cyclic_reached {slot : Slot} (h : Reached cyclicRoots cyclic slot) :
    slot ∈ cyclicSlots := by
  induction h with
  | root hroot hslot =>
    obtain rfl : _ = (⟨8, .value .pointer⟩ : Root Unit) := by
      simpa [cyclicRoots, rootsOf, null] using hroot
    exact mem_of_mem_take (i := 1) hslot
  | @field place next object trace _ hobject htrace hnext ih =>
    -- One case for each slot; what it points to is read off the heap.
    simp only [cyclicSlots, mem_cons, not_mem_nil, or_false] at ih
    obtain rfl | rfl | rfl | rfl := ih
    · obtain rfl : (⟨56, some .list, null⟩ : Allocation Unit) = object := Option.some_inj.mp hobject
      obtain rfl : Trace.list = trace := Option.some_inj.mp htrace
      exact mem_of_mem_drop (i := 1) (mem_of_mem_take (i := 2) hnext)
    · obtain rfl : (⟨65536, none, null⟩ : Allocation Unit) = object := Option.some_inj.mp hobject
      cases htrace
    · obtain rfl : (⟨8, some .pointer, null⟩ : Allocation Unit) = object :=
        Option.some_inj.mp hobject
      obtain rfl : Trace.pointer = trace := Option.some_inj.mp htrace
      exact mem_of_mem_drop (i := 3) hnext
    · obtain rfl : (⟨56, some .list, null⟩ : Allocation Unit) = object := Option.some_inj.mp hobject
      obtain rfl : Trace.list = trace := Option.some_inj.mp htrace
      exact mem_of_mem_drop (i := 1) (mem_of_mem_take (i := 2) hnext)

theorem cyclic_ready : Ready cyclic where
  collecting := rfl
  previous := rfl
  plain {pointer object} hlookup := by
    have hall : ∀ entry ∈ cyclicObjects.entries, entry.2.forwarded = null := by decide
    exact hall ⟨pointer, object⟩ (mem_lookup_iff.mp hlookup)

theorem cyclic_root : Reached cyclicRoots cyclic (8, 0) :=
  .root (.head _ : (⟨8, .value .pointer⟩ : Root Unit) ∈ rootsOf cyclicRoots)
    (.head _)

theorem cyclic_list {slot : Slot} (h : slot ∈ ([(16, 16), (512, 0)] : List Slot)) :
    Reached cyclicRoots cyclic slot :=
  .field cyclic_root (rfl : _ = some (⟨56, some .list, null⟩ : Allocation Unit)) rfl h

theorem cyclic_sound : Sound lowMemory cyclicRoots cyclic where
  null := by decide
  managed {pointer} hmem := by
    have hall : ∀ pointer ∈ cyclicObjects.keys, ¬ lowMemory pointer := by decide
    exact hall pointer hmem
  pointer {slot} hreached := by
    have hall : ∀ slot ∈ cyclicSlots, lowMemory (cyclic.slot slot) ∨
        cyclic.slot slot ∈ cyclicObjects.keys := by decide
    exact hall slot (cyclic_reached hreached)
  base {slot} hreached := by
    have hlist : Reached cyclicRoots cyclic (16, 16) := cyclic_list (by decide)
    have hstorage : Reached cyclicRoots cyclic (512, 0) := cyclic_list (by decide)
    have hslots := cyclic_reached hreached
    simp only [cyclicSlots, mem_cons, not_mem_nil, or_false] at hslots
    obtain rfl | rfl | rfl | rfl := hslots
    · exact .inl (by decide)
    · exact .inr ⟨by decide, _, cyclic_root, rfl⟩
    · exact .inr ⟨by decide, _, hlist, rfl⟩
    · exact .inr ⟨by decide, _, hstorage, rfl⟩
  root {root address} hroot hstorage := by
    obtain rfl : root = (⟨8, .value .pointer⟩ : Root Unit) := by
      simpa [cyclicRoots, rootsOf, null] using hroot
    obtain rfl := mem_singleton.mp hstorage
    decide

theorem cyclic_fresh : Fresh (1000 + ·) lowMemory cyclic where
  injective first second heq := Nat.add_left_cancel heq
  objects n hmem := by
    have hall : ∀ pointer ∈ cyclicObjects.keys, pointer < 1000 := by decide
    exact absurd (hall (1000 + n) hmem) (Nat.not_lt.mpr (Nat.le_add_right 1000 n))
  managed n hlow := by
    have hlt : 1000 + n < 16 := hlow
    exact absurd hlt (by omega)

/-- The list and the box move, the storage stays, and the cycle closes again. -/
example : (collectRoots (1000 + ·) cyclicRoots cyclic).map (fun m =>
    (m.copied, m.slot (8, 0), m.slot (1000, 16), m.slot (512, 0), m.slot (1001, 0))) =
      .ok ([(16, 1000), (32, 1001)], 1000, 512, 1001, 1000) := by
  rfl

theorem collect_collected_cyclic : ∃ after move,
    collectRoots (1000 + ·) cyclicRoots cyclic = .ok after ∧
      Collected lowMemory cyclicRoots cyclic after move ∧ Ready after ∧
      Sound lowMemory cyclicRoots after :=
  collect_collected (1000 + ·) lowMemory cyclicRoots cyclic cyclic_ready cyclic_sound cyclic_fresh

end Loom.Collector

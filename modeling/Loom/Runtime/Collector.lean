import Mathlib.Algebra.Order.Ring.Int
import Mathlib.Data.List.AList
import Mathlib.Logic.Function.Basic
import Mathlib.Tactic.Common

/-
  The moving collector of the runtime: copying, objects kept in place, weak
  registrations of list views, and the roots of every mutator.

  An address names a whole allocation, and a slot is a place of a pointer inside
  one: its offset. What else an allocation holds does not change when it is
  traced. Memory is apart from the tables of the heap, as in the source, so that
  the stacks and native tables that hold roots are memory too.

  Correspondence (Rust ↔ Lean), where names differ:
    `Objects` (the arena and the table of large ones) ↔ `Objects`, one map
    `List`, `ListView` ↔ `ListHeader`, `ListView`
    `trace_pointer`, `trace_bytes`, `trace_list`,
    a generated tracer ↔ the cases of `Trace`
    `trace_slots`, `frame_roots::trace` ↔ `RootTrace.slots`
    `loom_rt_visit` ↔ `visit`

  `storage` is the sequence of blocks that the allocator hands out during the
  collection. `copied` and `freed` record the calls of `copy_nonoverlapping` and
  of `dealloc`; the program does not read them. A table of slots (`trace_slots`,
  the frames of an owner) is modelled by the addresses in it, because it does
  not change while the world is stopped.
-/

namespace Loom.Collector

open Function

abbrev Address := Nat

def null : Address := 0

/-- An allocation and an offset in it. -/
abbrev Slot := Address × Nat

variable {δ : Type}

/-- `List`, less the pointer to its storage, which is a slot. -/
structure ListHeader (δ : Type) where
  len : Nat
  cap : Nat
  stride : Nat
  /-- The offsets of an element's pointers, by what the storage holds and where
  the element starts. -/
  traceElement : Option (δ → Nat → List Nat)
  watched : Nat

/-- What an allocation holds beside its pointers. -/
inductive Contents (δ : Type) where
  | list (header : ListHeader δ)
  | other (data : δ)

structure Payload (δ : Type) where
  contents : Contents δ
  slots : Nat → Address

abbrev Memory (δ : Type) := Address → Payload δ

inductive Trace (δ : Type) where
  | pointer
  | bytes
  | list
  /-- Generated code: the pointers of the stored value, by its tags. -/
  | payload (offsets : δ → List Nat)

structure Allocation (δ : Type) where
  size : Nat
  trace : Option (Trace δ)
  forwarded : Address

abbrev Objects (δ : Type) := AList (fun _ : Address => Allocation δ)

structure ListView where
  source : Address
  removed : Address
  start : Nat
  finish : Nat

/-- Guards by the address of the object they protect. -/
abbrev Locks := AList (fun _ : Address => Nat)

structure Heap (δ : Type) where
  objects : Objects δ
  previous : Objects δ
  collecting : Bool
  work : List (Address × Trace δ)
  bytes : Nat
  threshold : Nat
  stress : Bool
  listViews : List ListView
  access : Locks
  mutexes : Locks

structure Machine (δ : Type) extends Heap δ where
  memory : Memory δ
  copied : List (Address × Address)
  freed : List Address

/-- The callback of a root: that of the value at its address, or the one of a
native table, by the addresses of the slots in it. -/
inductive RootTrace (δ : Type) where
  | value (trace : Trace δ)
  | slots (addresses : List Address)

/-- A null address deactivates the entry. -/
structure Root (δ : Type) where
  address : Address
  trace : RootTrace δ

abbrev RootFrame (δ : Type) := List (Root δ)

/-- The frames of a mutator, from its newest one. -/
abbrev RootChain (δ : Type) := List (RootFrame δ)

def minThreshold : Nat := 64 * 1024

def largeObjectThreshold : Nat := 64 * 1024

/-- `(size_of::<Allocation>() + 15) & !15` with words of 64 bits. -/
def headerSize : Nat := 32

def dataOffset : Nat := 16

/-- `usize::saturating_mul`. -/
def saturatingMul (x y : Nat) : Nat :=
  min (x * y) (2 ^ 64 - 1)

def Allocation.individuallyOwned (object : Allocation δ) : Bool :=
  largeObjectThreshold ≤ object.size

/-- An arena slice has a header and is padded to 16 bytes. -/
def Allocation.occupied (object : Allocation δ) : Nat :=
  if object.size < largeObjectThreshold then headerSize + (object.size + 15) / 16 * 16
  else object.size

/-- The entry of an object that is not forwarded. -/
def Allocation.plain (object : Allocation δ) : Allocation δ :=
  { object with forwarded := null }

/-- `forwarded` of the entry, or null where there is none. -/
def forwarding (objects : Objects δ) (pointer : Address) : Address :=
  match objects.lookup pointer with
  | some object => object.forwarded
  | none => null

/-! ## Memory -/

def Machine.slot (m : Machine δ) (place : Slot) : Address :=
  (m.memory place.1).slots place.2

def Machine.store (m : Machine δ) (place : Slot) (pointer : Address) : Machine δ :=
  let old := m.memory place.1
  { m with memory :=
      update m.memory place.1 { old with slots := update old.slots place.2 pointer } }

/-- `ptr::copy_nonoverlapping` of a whole allocation. -/
def Machine.copy (m : Machine δ) (pointer moved : Address) : Machine δ :=
  { m with
    memory := update m.memory moved (m.memory pointer)
    copied := m.copied ++ [(pointer, moved)] }

def Contents.watch (watched : Nat) : Contents δ → Contents δ
  | .list header => .list { header with watched }
  | .other data => .other data

def watch (memory : Memory δ) (list : Address) (watched : Nat) : Memory δ :=
  let old := memory list
  update memory list { old with contents := old.contents.watch watched }

/-- The offsets that `trace` finds in data that is not a list header. -/
def Contents.offsets (trace : δ → List Nat) : Contents δ → List Nat
  | .list _ => []
  | .other data => trace data

/-! ## Tracing -/

/-- The object is in to-space at `moved`: the end of `loom_rt_visit`. -/
def Machine.publish (m : Machine δ) (pointer : Address) (object : Allocation δ)
    (moved : Address) : Machine δ :=
  { m with
    previous := m.previous.insert pointer { object with forwarded := moved }
    bytes := m.bytes + object.occupied
    objects := m.objects.insert moved { object with forwarded := null }
    work :=
      match object.trace with
      | some trace => (moved, trace) :: m.work
      | none => m.work }

/-- Large objects stay where they are, except under stress. -/
def keeps (stress : Bool) (object : Allocation δ) : Bool :=
  !stress && largeObjectThreshold ≤ object.size

def visit (storage : Nat → Address) (pointer : Address) (m : Machine δ) :
    Address × Machine δ :=
  match m.previous.lookup pointer with
  | none => (pointer, m)
  | some object =>
    if object.forwarded ≠ null then
      (object.forwarded, m)
    else if keeps m.stress object then
      (pointer, m.publish pointer object pointer)
    else
      let moved := storage m.copied.length
      (moved, (m.copy pointer moved).publish pointer object moved)

def tracePointer (storage : Nat → Address) (m : Machine δ) (place : Slot) : Machine δ :=
  let visited := visit storage (m.slot place) m
  visited.2.store place visited.1

/-- The callback of an element, at the current storage of the list. -/
def traceElement (storage : Nat → Address) (list : Address) (trace : δ → Nat → List Nat)
    (m : Machine δ) (start : Nat) : Machine δ :=
  let data := m.slot (list, dataOffset)
  ((m.memory data).contents.offsets (trace · start)).foldl
    (fun m offset => tracePointer storage m (data, offset)) m

def traceList (storage : Nat → Address) (list : Address) (m : Machine δ) : Machine δ :=
  match (m.memory list).contents with
  | .other _ => m
  | .list header =>
    let m := tracePointer storage m (list, dataOffset)
    match header.traceElement with
    | none => m
    | some trace =>
      (List.range header.len).foldl
        (fun m index => traceElement storage list trace m (index * header.stride)) m

def Trace.run (storage : Nat → Address) (trace : Trace δ) (address : Address)
    (m : Machine δ) : Machine δ :=
  match trace with
  | .pointer => tracePointer storage m (address, 0)
  | .bytes => tracePointer storage m (address, dataOffset)
  | .list => traceList storage address m
  | .payload offsets =>
    ((m.memory address).contents.offsets offsets).foldl
      (fun m offset => tracePointer storage m (address, offset)) m

/-- The work-list loop, for as many turns as `fuel`. -/
def drain (storage : Nat → Address) : Nat → Machine δ → Machine δ
  | 0, m => m
  | fuel + 1, m =>
    match m.work with
    | [] => m
    | (pointer, trace) :: rest => drain storage fuel (trace.run storage pointer { m with work := rest })

def RootTrace.run (storage : Nat → Address) (trace : RootTrace δ) (address : Address)
    (m : Machine δ) : Machine δ :=
  match trace with
  | .value trace => trace.run storage address m
  | .slots addresses => addresses.foldl (fun m slot => tracePointer storage m (slot, 0)) m

def traceRoot (storage : Nat → Address) (m : Machine δ) (root : Root δ) : Machine δ :=
  if root.address = null then m else root.trace.run storage root.address m

/-- Every frame of every chain. -/
def traceRoots (storage : Nat → Address) (chains : List (RootChain δ)) (m : Machine δ) :
    Machine δ :=
  chains.foldl (fun m chain => chain.foldl (fun m frame => frame.foldl (traceRoot storage) m) m) m

/-! ## After tracing -/

def relocate (locks : Locks) (previous : Objects δ) : Locks :=
  locks.entries.foldl (fun moved entry =>
    match previous.lookup entry.1 with
    | some object =>
      if object.forwarded ≠ null then moved.insert object.forwarded entry.2 else moved
    | none => moved) ∅

/-- The first loop over the views: no list is watched. -/
def unwatch (previous : Objects δ) (views : List ListView) (memory : Memory δ) : Memory δ :=
  views.foldl (fun memory view =>
    match previous.lookup view.source with
    | some object =>
      if object.forwarded ≠ null then watch memory object.forwarded 0 else memory
    | none => memory) memory

/-- `list_views.retain_mut`. -/
def retainViews (previous : Objects δ) : List ListView → Memory δ → List ListView × Memory δ
  | [], memory => ([], memory)
  | view :: rest, memory =>
    let source := forwarding previous view.source
    let removed := forwarding previous view.removed
    if source = null ∨ removed = null then
      retainViews previous rest memory
    else
      let retained := retainViews previous rest (watch memory source 1)
      ({ view with source, removed } :: retained.1, retained.2)

/-- What was not kept in place and is not part of an arena. -/
def abandoned (previous : Objects δ) : List Address :=
  (previous.entries.filter fun entry =>
    entry.2.individuallyOwned && entry.2.forwarded ≠ entry.1).map Sigma.fst

def begin (m : Machine δ) : Machine δ :=
  { m with
    collecting := true
    work := []
    objects := m.previous
    previous := m.objects
    bytes := 0
    copied := [] }

def finish (m : Machine δ) : Machine δ :=
  let retained := retainViews m.previous m.listViews (unwatch m.previous m.listViews m.memory)
  { m with
    access := relocate m.access m.previous
    mutexes := relocate m.mutexes m.previous
    listViews := retained.1
    memory := retained.2
    freed := abandoned m.previous
    previous := ∅
    threshold := max (saturatingMul m.bytes 2) minThreshold
    collecting := false }

/-- Every object is pushed once at most, so the loop has no more turns than
there were objects. -/
def collectRoots (storage : Nat → Address) (chains : List (RootChain δ)) (m : Machine δ) :
    Except String (Machine δ) :=
  if m.collecting then .error "recursive GC collection"
  else
    let started := traceRoots storage chains (begin m)
    .ok (finish (drain storage m.objects.entries.length started))

end Loom.Collector

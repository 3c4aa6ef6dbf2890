import Loom.Library.Runs
import Loom.Library.Results
import Mathlib.Logic.Function.Basic
import Mathlib.Data.List.Nodup

/-
  Views of lists: ranges of elements that keep their identity.

  A view reads the list it was taken of as long as its elements are still there.
  Before a watched list drops its last element, the element moves to a cell that
  every view holding it shares.

  Correspondence (Loom and Rust ↔ Lean):
    `lib.rs` (`List`, `ListView`) ↔ `Source`, `View`
    `Heap::list_views` ↔ `registry`
    `loom_rt_list_retain_range` ↔ `retainRange`
    `loom_rt_list_detach`, `llvm_memory.rs` (`list_pop`) ↔ `detach`, `pop`
    `list.loom` (`get`, `set`, `push`, `length`) ↔ `get`, `set`, `push`, `length`
    `view.loom` (`capture`, `get`, `set`, `length`) ↔ `capture`, `viewGet`, `viewSet`, `viewLength`
  A cell, a list of one element that nobody else reaches, is its element. The
  collector drops the registrations of views that are not reached and keeps the
  others, so it is not a step here.
-/

namespace Loom.Collections.Views

open Runs Function List Option

/-! ## Lists and views -/

structure Source (α : Type) where
  values : List α
  watched : Bool

/-- A view's state, and what the registry holds of it. -/
structure View where
  source : Nat
  /-- The view's own list of cells, the last element's first. -/
  removed : Nat
  start : Nat
  stop : Nat
  deriving DecidableEq

structure State (α : Type) where
  lists : Nat → Source α
  removed : Nat → List Nat
  cells : List α
  views : List View
  registry : List View

inductive Op (α : Type) where
  | push (list : Nat) (value : α)
  | set (list : Nat) (index : Int) (value : α)
  | pop (list : Nat)
  | get (list : Nat) (index : Int)
  | length (list : Nat)
  | capture (list : Nat) (start stop : Int)
  | viewGet (view : Nat) (index : Int)
  | viewSet (view : Nat) (index : Int) (value : α)
  | viewLength (view : Nat)

inductive Answer (α : Type) where
  | done
  | value (value : α)
  | count (value : Int)

section
variable {α : Type}

/-- Every list is new and nothing is captured. -/
def State.start : State α where
  lists _ := { values := [], watched := false }
  removed _ := []
  cells := []
  views := []
  registry := []

/-- The element at an index, negative ones included. -/
def at? {β : Type} (values : List β) (index : Int) : Option β :=
  if 0 ≤ index then values[index.toNat]? else none

def found {β : Type} (message : String) : Option β → Except String β
  | some value => .ok value
  | none => .error message

variable {β : Type}

@[simp] theorem found_some (message : String) (value : β) :
    found message (some value) = .ok value := rfl

@[simp] theorem found_none (message : String) :
    found message (none : Option β) = .error message := rfl

def State.assign (s : State α) (list : Nat) (values : List α) : State α :=
  { s with lists := update s.lists list { s.lists list with values := values } }

def get (s : State α) (list : Nat) (index : Int) : Except String α :=
  found "list index out of bounds" (at? (s.lists list).values index)

def set (s : State α) (list : Nat) (index : Int) (value : α) : Except String (State α) :=
  if 0 ≤ index ∧ index < (s.lists list).values.length then
    .ok (s.assign list ((s.lists list).values.set index.toNat value))
  else .error "list index out of bounds"

def push (s : State α) (list : Nat) (value : α) : State α :=
  s.assign list ((s.lists list).values ++ [value])

/-- The registered views whose last remaining element is the list's last. -/
def ending (s : State α) (list : Nat) : List View :=
  s.registry.filter (fun view => view.source = list ∧
    view.start < (s.lists list).values.length ∧
    view.stop - (s.removed view.removed).length = (s.lists list).values.length)

/-- One shared cell for the last element, pushed to every such view. -/
def detach (s : State α) (list : Nat) : State α :=
  match ending s list, (s.lists list).values.getLast? with
  | [], _ | _, none => s
  | views, some value =>
    { s with
      cells := s.cells ++ [value]
      removed := views.foldl (fun removed view =>
        update removed view.removed (removed view.removed ++ [s.cells.length])) s.removed }

def pop (s : State α) (list : Nat) : Except String (State α × α) :=
  let s := if (s.lists list).watched then detach s list else s
  match (s.lists list).values.getLast? with
  | none => .error "cannot pop an empty list"
  | some value => .ok (s.assign list (s.lists list).values.dropLast, value)

def retainRange (s : State α) (view : View) (start stop : Int) : Except String (State α) :=
  let retained := (s.removed view.removed).length
  if start < 0 ∨ stop < start ∨ (retained : Int) > stop - start ∨
      stop - retained > (s.lists view.source).values.length then
    .error "list view range out of bounds"
  else if stop - start ≠ retained then
    .ok { s with
      lists := update s.lists view.source { s.lists view.source with watched := true }
      registry := s.registry ++ [view] }
  else .ok s

/-- The view's list of cells is a new one. -/
def capture (s : State α) (list : Nat) (start stop : Int) : Except String (State α) := do
  let view : View := { source := list, removed := s.views.length
                       start := start.toNat, stop := stop.toNat }
  let s ← retainRange { s with removed := update s.removed view.removed [] } view start stop
  .ok { s with views := s.views ++ [view] }

/-- Where an element of a view is. -/
inductive Place where
  | element (list : Nat) (position : Int)
  | cell (index : Nat)

/-- The two branches of `get` and `set`. -/
def place (s : State α) (view : View) (index : Int) : Except String Place :=
  if 0 ≤ index ∧ index < (view.stop : Int) - view.start then
    let position := view.start + index
    let removed := s.removed view.removed
    if position < (view.stop : Int) - removed.length then .ok (.element view.source position)
    else (found "list index out of bounds" (at? removed (view.stop - 1 - position))).map .cell
  else .error "assertion failed"

def viewGet (s : State α) (view : View) (index : Int) : Except String α := do
  match ← place s view index with
  | .element list position => get s list position
  | .cell c => found "list index out of bounds" s.cells[c]?

def viewSet (s : State α) (view : View) (index : Int) (value : α) : Except String (State α) := do
  match ← place s view index with
  | .element list position => set s list position value
  | .cell c =>
    if c < s.cells.length then .ok { s with cells := s.cells.set c value }
    else .error "list index out of bounds"

/-- A program only has views that it captured. -/
def step (s : State α) : Op α → Except String (State α × Answer α)
  | .push list value => .ok (push s list value, .done)
  | .set list index value => (set s list index value).map (·, .done)
  | .pop list => (pop s list).map (fun popped => (popped.1, .value popped.2))
  | .get list index => (get s list index).map (fun value => (s, .value value))
  | .length list => .ok (s, .count (s.lists list).values.length)
  | .capture list start stop => (capture s list start stop).map (·, .done)
  | .viewGet view index => do
    let view ← found "no such view" s.views[view]?
    (viewGet s view index).map (fun value => (s, .value value))
  | .viewSet view index value => do
    let view ← found "no such view" s.views[view]?
    (viewSet s view index value).map (·, .done)
  | .viewLength view => do
    let view ← found "no such view" s.views[view]?
    .ok (s, .count ((view.stop : Int) - view.start))

/-! ## Identities -/

/-- Every push makes an element with an identity of its own. A list is a list of
identities, and so is a view; an element that is in no list any more keeps its
value. -/
structure Ideal (α : Type) where
  store : List α
  lists : Nat → List Nat
  views : List (List Nat)

def Ideal.start : Ideal α where
  store := []
  lists _ := []
  views := []

def Ideal.read (a : Ideal α) (id : Nat) : Except String α := found "no such element" a.store[id]?

def Ideal.write (a : Ideal α) (id : Nat) (value : α) : Ideal α :=
  { a with store := a.store.set id value }

def ideal (a : Ideal α) : Op α → Except String (Ideal α × Answer α)
  | .push list value =>
    .ok ({ a with store := a.store ++ [value]
                  lists := update a.lists list (a.lists list ++ [a.store.length]) }, .done)
  | .set list index value => do
    let id ← found "list index out of bounds" (at? (a.lists list) index)
    .ok (a.write id value, .done)
  | .pop list => do
    let id ← found "cannot pop an empty list" (a.lists list).getLast?
    let value ← a.read id
    .ok ({ a with lists := update a.lists list (a.lists list).dropLast }, .value value)
  | .get list index => do
    let id ← found "list index out of bounds" (at? (a.lists list) index)
    (a.read id).map (fun value => (a, .value value))
  | .length list => .ok (a, .count (a.lists list).length)
  | .capture list start stop =>
    if 0 ≤ start ∧ start ≤ stop ∧ stop ≤ (a.lists list).length then
      .ok ({ a with views := a.views ++
        [((a.lists list).drop start.toNat).take (stop.toNat - start.toNat)] }, .done)
    else .error "list view range out of bounds"
  | .viewGet view index => do
    let ids ← found "no such view" a.views[view]?
    let id ← found "assertion failed" (at? ids index)
    (a.read id).map (fun value => (a, .value value))
  | .viewSet view index value => do
    let ids ← found "no such view" a.views[view]?
    let id ← found "assertion failed" (at? ids index)
    .ok (a.write id value, .done)
  | .viewLength view => do
    let ids ← found "no such view" a.views[view]?
    .ok (a, .count ids.length)

/-! ## Values under identities -/

/-- The values of a list are those of its identities. -/
structure Stored (store : List α) (ids : List Nat) (values : List α) : Prop where
  length : values.length = ids.length
  get : ∀ {i id : Nat}, ids[i]? = some id → ∃ value, values[i]? = some value ∧ store[id]? = some value

variable {store values : List α} {ids : List Nat} {id : Nat} {value : α}

theorem Stored.nil : Stored store [] [] := ⟨rfl, by simp⟩

section
variable (h : Stored store ids values)
include h

theorem Stored.created (value : α) : Stored (store ++ [value]) ids values := by
  refine ⟨h.length, ?_⟩
  intro i id hid
  obtain ⟨old, hvalue, hstore⟩ := h.get hid
  refine ⟨old, hvalue, ?_⟩
  rw [List.getElem?_append_left (List.getElem?_eq_some_iff.mp hstore).1, hstore]

theorem Stored.snoc (hstore : store[id]? = some value) :
    Stored store (ids ++ [id]) (values ++ [value]) := by
  refine ⟨by simp [h.length], ?_⟩
  intro i other hother
  by_cases hi : i < ids.length
  · rw [getElem?_append_left hi] at hother
    rw [getElem?_append_left (h.length ▸ hi)]; exact h.get hother
  · have hlast : i = ids.length := by
      have := (List.getElem?_eq_some_iff.mp hother).1
      rw [length_append, length_singleton] at this; omega
    subst hlast
    rw [getElem?_concat_length, some.injEq] at hother
    subst hother
    exact ⟨value, by rw [← h.length, getElem?_concat_length], hstore⟩

theorem Stored.dropLast : Stored store ids.dropLast values.dropLast := by
  refine ⟨by simp [h.length], ?_⟩
  intro i id hid
  rw [getElem?_dropLast] at hid
  split at hid
  · next hi =>
    rw [getElem?_dropLast, if_pos (by rw [h.length]; exact hi)]
    exact h.get hid
  · cases hid

theorem Stored.write (hnodup : ids.Nodup) {i : Nat} (hi : ids[i]? = some id) (value : α) :
    Stored (store.set id value) ids (values.set i value) := by
  refine ⟨by simp [h.length], ?_⟩
  intro j other hother
  obtain ⟨old, hvalue, hstore⟩ := h.get hother
  by_cases hsame : j = i
  · subst hsame
    rw [hi, some.injEq] at hother
    subst hother
    refine ⟨value, ?_, ?_⟩
    · rw [List.getElem?_set_self (List.getElem?_eq_some_iff.mp hvalue).1]
    · rw [List.getElem?_set_self (List.getElem?_eq_some_iff.mp hstore).1]
  · have hdiffer : id ≠ other := by
      rintro rfl
      obtain ⟨hj, hjd⟩ := List.getElem?_eq_some_iff.mp hother
      obtain ⟨hi', hid⟩ := List.getElem?_eq_some_iff.mp hi
      exact hsame ((hnodup.getElem_inj_iff).mp (hjd.trans hid.symm))
    refine ⟨old, ?_, ?_⟩
    · rw [getElem?_set_ne (Ne.symm hsame), hvalue]
    · rw [getElem?_set_ne hdiffer, hstore]

theorem Stored.write_other (hid : id ∉ ids) (value : α) :
    Stored (store.set id value) ids values := by
  refine ⟨h.length, ?_⟩
  intro i other hother
  obtain ⟨old, hvalue, hstore⟩ := h.get hother
  have hdiffer : id ≠ other := by
    rintro rfl
    exact hid (mem_of_getElem? hother)
  exact ⟨old, hvalue, by rw [getElem?_set_ne hdiffer, hstore]⟩

theorem Stored.lt (hid : id ∈ ids) : id < store.length := by
  obtain ⟨i, hi⟩ := getElem?_of_mem hid
  obtain ⟨value, _, hstore⟩ := h.get hi
  exact (List.getElem?_eq_some_iff.mp hstore).1

end

/-! ## What a view holds -/

/-- The elements in front are still at their places in the list; those behind,
the last one first, are in cells. -/
structure Held (list removed owners : List Nat) (view : View) (ids : List Nat) : Prop where
  order : view.start ≤ view.stop
  length : ids.length = view.stop - view.start
  room : removed.length ≤ view.stop - view.start
  front : ∀ i, view.start + i + removed.length < view.stop → list[view.start + i]? = ids[i]?
  back : ∀ j c, removed[j]? = some c → owners[c]? = ids[view.stop - 1 - j - view.start]?

variable {list removed owners : List Nat} {view : View}

theorem Held.inside (h : Held list removed owners view ids) {i : Nat}
    (hi : view.start + i + removed.length < view.stop) : view.start + i < list.length := by
  have hfront := h.front i hi
  have hlength := h.length
  have hi' : i < ids.length := by omega
  rw [getElem?_eq_getElem hi'] at hfront
  exact (List.getElem?_eq_some_iff.mp hfront).1

theorem Held.owner (h : Held list removed owners view ids) {j c : Nat}
    (hc : removed[j]? = some c) : c < owners.length := by
  have hback := h.back j c hc
  have hlength := h.length
  have hroom := h.room
  have hj := (List.getElem?_eq_some_iff.mp hc).1
  have hj' : view.stop - 1 - j - view.start < ids.length := by omega
  rw [List.getElem?_eq_getElem hj'] at hback
  exact (List.getElem?_eq_some_iff.mp hback).1

theorem Held.push (h : Held list removed owners view ids) (id : Nat) :
    Held (list ++ [id]) removed owners view ids := by
  refine ⟨h.order, h.length, h.room, ?_, h.back⟩
  intro i hi
  rw [getElem?_append_left (h.inside hi), h.front i hi]

theorem Held.kept (h : Held list removed owners view ids) (id : Nat) :
    Held list removed (owners ++ [id]) view ids := by
  refine ⟨h.order, h.length, h.room, h.front, ?_⟩
  intro j c hc
  rw [getElem?_append_left (h.owner hc), h.back j c hc]

/-- The list's last element is not one that the view still has in front. -/
theorem Held.dropLast (h : Held list removed owners view ids)
    (hother : ¬(view.start < list.length ∧ view.stop - removed.length = list.length)) :
    Held list.dropLast removed owners view ids := by
  refine ⟨h.order, h.length, h.room, ?_, h.back⟩
  intro i hi
  have hless : view.start + i < list.length - 1 := by
    -- the view's boundary would be beyond the list, or the list's end
    have hboundary : view.stop - removed.length ≤ list.length := by
      by_contra hbeyond
      have := @Held.inside _ _ _ _ _ h (list.length - view.start) (by omega)
      omega
    omega
  rw [getElem?_dropLast, if_pos hless, h.front i hi]

/-- It is: the element goes on in a new cell. -/
theorem Held.detach (h : Held list removed owners view ids) (hstart : view.start < list.length)
    (hboundary : view.stop - removed.length = list.length) (hlast : list.getLast? = some id) :
    Held list.dropLast (removed ++ [owners.length]) (owners ++ [id]) view ids := by
  have hfound : list[list.length - 1]? = some id := by
    rw [← getLast?_eq_getElem?, hlast]
  refine ⟨h.order, h.length, ?_, ?_, ?_⟩
  · rw [length_append, length_singleton]; omega
  · intro i hi
    rw [length_append, length_singleton] at hi
    rw [getElem?_dropLast, if_pos (by omega), h.front i (by omega)]
  · intro j c hc
    by_cases hj : j < removed.length
    · rw [getElem?_append_left hj] at hc
      rw [getElem?_append_left (h.owner hc), h.back j c hc]
    · have hnew : j = removed.length := by
        have := (List.getElem?_eq_some_iff.mp hc).1
        rw [length_append, length_singleton] at this; omega
      subst hnew
      rw [getElem?_concat_length, some.injEq] at hc
      subst hc
      have hfront := h.front (list.length - 1 - view.start) (by omega)
      rw [show view.start + (list.length - 1 - view.start) = list.length - 1 by omega, hfound]
        at hfront
      rw [getElem?_concat_length, hfront]
      congr 1
      omega

/-! ## The relation -/

/-- A state stands for lists of identities: every list and every cell has its
identities' values, an identity is in one place only, and every view holds the
identities it captured. -/
structure Refines (s : State α) (a : Ideal α) (owners : List Nat) : Prop where
  lists : ∀ l, Stored a.store (a.lists l) (s.lists l).values
  distinct : ∀ l, (a.lists l).Nodup
  apart : ∀ {l l' id}, id ∈ a.lists l → id ∈ a.lists l' → l = l'
  cells : Stored a.store owners s.cells
  owned : owners.Nodup
  gone : ∀ {id}, id ∈ owners → ∀ l, id ∉ a.lists l
  count : s.views.length = a.views.length
  numbered : s.views.map View.removed = range s.views.length
  held : ∀ {k : Nat} {view ids}, s.views[k]? = some view → a.views[k]? = some ids →
    Held (a.lists view.source) (s.removed view.removed) owners view ids
  registry : s.registry = s.views.filter (fun view => view.start ≠ view.stop)
  watched : ∀ view ∈ s.registry, (s.lists view.source).watched = true

/-- Some identities are those of the cells. -/
def Related (s : State α) (a : Ideal α) : Prop := ∃ owners, Refines s a owners

theorem start_related : Related (State.start : State α) Ideal.start := by
  refine ⟨[], ⟨fun _ => .nil, ?_, ?_, .nil, ?_, ?_, rfl, rfl, ?_, rfl, ?_⟩⟩ <;>
    simp [State.start, Ideal.start]

variable {s : State α} {a : Ideal α} {owners : List Nat} {l : Nat}

theorem at?_natCast (values : List β) (i : Nat) : at? values i = values[i]? :=
  if_pos (Int.natCast_nonneg i)

theorem at?_eq_some {values : List β} {index : Int} {value : β} :
    at? values index = some value ↔ ∃ i : Nat, index = i ∧ values[i]? = some value := by
  constructor
  · intro h
    unfold at? at h
    split at h
    · next hpos => exact ⟨index.toNat, by omega, h⟩
    · cases h
  · rintro ⟨i, rfl, h⟩
    rw [at?_natCast, h]

theorem at?_eq_none {values : List β} {index : Int} :
    at? values index = none ↔ ¬(0 ≤ index ∧ index < values.length) := by
  unfold at?
  split
  · rw [getElem?_eq_none_iff]; omega
  · simp only [true_iff]; omega

theorem Refines.get (h : Refines s a owners) (index : Int) :
    (∃ id value, at? (a.lists l) index = some id ∧ a.store[id]? = some value ∧
      Views.get s l index = .ok value) ∨
    at? (a.lists l) index = none ∧ Views.get s l index = .error "list index out of bounds" := by
  have hstored := h.lists l
  cases hid : at? (a.lists l) index with
  | some id =>
    obtain ⟨i, rfl, hi⟩ := at?_eq_some.mp hid
    obtain ⟨value, hvalue, hstore⟩ := hstored.get hi
    refine .inl ⟨id, value, rfl, hstore, ?_⟩
    rw [Views.get, at?_natCast, hvalue]; rfl
  | none =>
    refine .inr ⟨rfl, ?_⟩
    have hnone : at? (s.lists l).values index = none := by
      rw [at?_eq_none, hstored.length]; exact at?_eq_none.mp hid
    rw [Views.get, hnone]; rfl

theorem Refines.write_list (h : Refines s a owners) {i : Nat} (hi : (a.lists l)[i]? = some id)
    (value : α) :
    Refines (s.assign l ((s.lists l).values.set i value)) (a.write id value) owners where
  lists l' := by
    by_cases hl : l' = l
    · subst hl
      simpa [State.assign, Ideal.write] using (h.lists l').write (h.distinct l') hi value
    · have hother : id ∉ a.lists l' := fun hid => hl (h.apart hid (mem_of_getElem? hi))
      simpa [State.assign, Ideal.write, hl] using (h.lists l').write_other hother value
  distinct := h.distinct
  apart := h.apart
  cells := by
    have hother : id ∉ owners := fun hid => h.gone hid l (mem_of_getElem? hi)
    exact h.cells.write_other hother value
  owned := h.owned
  gone := h.gone
  count := h.count
  numbered := h.numbered
  held := h.held
  registry := h.registry
  watched view hview := by
    have hwatched := h.watched view hview
    by_cases hl : view.source = l
    · simpa [State.assign, hl] using hl ▸ hwatched
    · simpa [State.assign, hl] using hwatched

/-- A write to an element that is in a cell: every view of the cell sees it. -/
theorem Refines.write_cell (h : Refines s a owners) {c : Nat} (hc : owners[c]? = some id)
    (value : α) :
    Refines { s with cells := s.cells.set c value } (a.write id value) owners where
  lists l' := (h.lists l').write_other (h.gone (mem_of_getElem? hc) l') value
  distinct := h.distinct
  apart := h.apart
  cells := h.cells.write h.owned hc value
  owned := h.owned
  gone := h.gone
  count := h.count
  numbered := h.numbered
  held := h.held
  registry := h.registry
  watched := h.watched

theorem Refines.set (h : Refines s a owners) (index : Int) (value : α) :
    (∃ id s', at? (a.lists l) index = some id ∧ Views.set s l index value = .ok s' ∧
      Refines s' (a.write id value) owners) ∨
    at? (a.lists l) index = none ∧
      Views.set s l index value = .error "list index out of bounds" := by
  have hlength := (h.lists l).length
  cases hid : at? (a.lists l) index with
  | some id =>
    obtain ⟨i, rfl, hi⟩ := at?_eq_some.mp hid
    have hless := (List.getElem?_eq_some_iff.mp hi).1
    exact .inl ⟨id, _, rfl, if_pos ⟨by omega, by omega⟩, h.write_list hi value⟩
  | none =>
    have hout := at?_eq_none.mp hid
    exact .inr ⟨rfl, if_neg (by rwa [hlength])⟩

theorem mem_update_snoc {lists : Nat → List Nat} {l' new : Nat} :
    id ∈ update lists l (lists l ++ [new]) l' ↔ id ∈ lists l' ∨ l' = l ∧ id = new := by
  by_cases hl : l' = l
  · subst hl; simp
  · simp [hl]

/-- A pushed element is a new one, also where an old one was removed. -/
theorem Refines.push (h : Refines s a owners) (value : α) :
    Refines (push s l value)
      { a with store := a.store ++ [value]
               lists := update a.lists l (a.lists l ++ [a.store.length]) } owners where
  lists l' := by
    have hcreated := (h.lists l').created value
    by_cases hl : l' = l
    · subst hl
      simpa [Views.push, State.assign] using hcreated.snoc getElem?_concat_length
    · simpa [Views.push, State.assign, hl] using hcreated
  distinct l' := by
    by_cases hl : l' = l
    · subst hl
      simp only [update_self]
      apply List.Nodup.append (h.distinct l') (nodup_singleton _)
      rw [disjoint_singleton]
      exact fun hid => absurd ((h.lists l').lt hid) (Nat.lt_irrefl _)
    · simpa [hl] using h.distinct l'
  apart {l₁ l₂ id} h₁ h₂ := by
    have hold : ∀ l', id ∈ a.lists l' → id ≠ a.store.length := by
      intro l' hid; exact Nat.ne_of_lt ((h.lists l').lt hid)
    rcases mem_update_snoc.mp h₁ with h₁ | ⟨rfl, hnew₁⟩
    · rcases mem_update_snoc.mp h₂ with h₂ | ⟨_, hnew₂⟩
      · exact h.apart h₁ h₂
      · exact absurd hnew₂ (hold l₁ h₁)
    · rcases mem_update_snoc.mp h₂ with h₂ | ⟨rfl, _⟩
      · exact absurd hnew₁ (hold l₂ h₂)
      · rfl
  cells := h.cells.created value
  owned := h.owned
  gone {id} hid l' := by
    intro hmem
    rcases mem_update_snoc.mp hmem with hmem | ⟨_, hnew⟩
    · exact h.gone hid l' hmem
    · exact absurd hnew (Nat.ne_of_lt (h.cells.lt hid))
  count := h.count
  numbered := h.numbered
  held {k view ids} hview hids := by
    have hheld := h.held hview hids
    by_cases hl : view.source = l
    · simpa [hl] using (hl ▸ hheld).push a.store.length
    · simpa [Views.push, State.assign, hl] using hheld
  registry := h.registry
  watched view hview := by
    have hwatched := h.watched view hview
    by_cases hl : view.source = l
    · simpa [Views.push, State.assign, hl] using hl ▸ hwatched
    · simpa [Views.push, State.assign, hl] using hwatched

/-! ## Removal -/

/-- Each view's own list of cells takes the new one. -/
theorem foldl_removed (views : List View) (hdistinct : (views.map View.removed).Nodup)
    (removed : Nat → List Nat) (c r : Nat) :
    views.foldl (fun removed view => update removed view.removed (removed view.removed ++ [c]))
        removed r =
      if r ∈ views.map View.removed then removed r ++ [c] else removed r := by
  induction views generalizing removed with
  | nil => simp
  | cons view rest ih =>
    rw [map_cons, nodup_cons] at hdistinct
    rw [foldl_cons, ih hdistinct.2, map_cons]
    by_cases hr : r = view.removed
    · subst hr
      rw [if_neg hdistinct.1, update_self, if_pos (.head _)]
    · rw [update_of_ne hr]; simp [mem_cons, hr, false_or]

variable {k : Nat}

theorem Refines.numbered_get (h : Refines s a owners) {view : View}
    (hview : s.views[k]? = some view) : view.removed = k := by
  have hmap : (s.views.map View.removed)[k]? = some view.removed := by
    rw [getElem?_map, hview]; rfl
  rw [h.numbered] at hmap
  obtain ⟨hk, hvalue⟩ := List.getElem?_eq_some_iff.mp hmap
  rw [getElem_range] at hvalue; exact hvalue.symm

theorem Refines.view_eq (h : Refines s a owners) {view other : View} (hview : view ∈ s.views)
    (hother : other ∈ s.views) (hremoved : view.removed = other.removed) : view = other := by
  obtain ⟨k, hk⟩ := getElem?_of_mem hview
  obtain ⟨k', hk'⟩ := getElem?_of_mem hother
  have hindex : k = k' := by
    rw [← h.numbered_get hk, ← h.numbered_get hk', hremoved]
  subst hindex; exact some.inj (hk.symm.trans hk')

theorem Refines.ending_distinct (h : Refines s a owners) (l : Nat) :
    ((ending s l).map View.removed).Nodup := by
  have hsublist : (ending s l).Sublist s.views := by
    unfold ending
    rw [h.registry]; exact filter_sublist.trans filter_sublist
  apply List.Nodup.sublist (hsublist.map View.removed)
  rw [h.numbered]; exact nodup_range

/-- The views with an element to lose are those that hold the list's last one. -/
theorem Refines.mem_ending (h : Refines s a owners) {view : View} (hview : s.views[k]? = some view)
    {ids : List Nat} (hids : a.views[k]? = some ids) :
    view ∈ ending s l ↔ view.source = l ∧ view.start < (a.lists l).length ∧
      view.stop - (s.removed view.removed).length = (a.lists l).length := by
  have hheld := h.held hview hids
  have hmem := mem_of_getElem? hview
  unfold ending
  rw [h.registry, (h.lists l).length.symm]
  simp only [mem_filter, hmem, decide_eq_true_eq]
  constructor
  · exact fun hending => hending.2
  · rintro ⟨hsource, hstart, hboundary⟩
    exact ⟨by simp; omega, hsource, hstart, hboundary⟩

theorem mem_update_dropLast {lists : Nat → List Nat} {l' : Nat}
    (hid : id ∈ update lists l (lists l).dropLast l') : id ∈ lists l' := by
  by_cases hl : l' = l
  · subst hl
    rw [update_self] at hid; exact (dropLast_sublist _).subset hid
  · rwa [update_of_ne hl] at hid

/-- The list loses its last element, whatever the cells have become. -/
theorem Refines.dropLast (h : Refines s a owners) {s' : State α} {owners' : List Nat}
    (hlists : s'.lists = s.lists) (hviews : s'.views = s.views)
    (hregistry : s'.registry = s.registry) (hcells : Stored a.store owners' s'.cells)
    (howned : owners'.Nodup)
    (hgone : ∀ {id}, id ∈ owners' → ∀ l', id ∉ update a.lists l (a.lists l).dropLast l')
    (hheld : ∀ {k : Nat} {view ids}, s.views[k]? = some view → a.views[k]? = some ids →
      Held (update a.lists l (a.lists l).dropLast view.source) (s'.removed view.removed) owners'
        view ids) :
    Refines (s'.assign l (s'.lists l).values.dropLast)
      { a with lists := update a.lists l (a.lists l).dropLast } owners' where
  lists l' := by
    by_cases hl : l' = l
    · subst hl
      simpa [State.assign, hlists] using (h.lists l').dropLast
    · simpa [State.assign, hlists, hl] using h.lists l'
  distinct l' := by
    by_cases hl : l' = l
    · subst hl
      simpa using (h.distinct l').sublist (dropLast_sublist _)
    · simpa [hl] using h.distinct l'
  apart h₁ h₂ := h.apart (mem_update_dropLast h₁) (mem_update_dropLast h₂)
  cells := hcells
  owned := howned
  gone := hgone
  count := by
    show s'.views.length = _
    rw [hviews, h.count]
  numbered := by
    show s'.views.map View.removed = range s'.views.length
    rw [hviews, h.numbered]
  held hview hids := by
    have hview' : s.views[_]? = some _ := hviews ▸ hview
    exact hheld hview' hids
  registry := by
    show s'.registry = s'.views.filter _
    rw [hviews, hregistry, h.registry]
  watched view hview := by
    have hwatched := h.watched view (hregistry ▸ hview)
    by_cases hl : view.source = l
    · simpa [State.assign, hlists, hl] using hl ▸ hwatched
    · simpa [State.assign, hlists, hl] using hwatched

/-- The last element is in front of no view: it is gone. -/
theorem Refines.pop_plain (h : Refines s a owners) (hnone : ending s l = []) :
    Refines (s.assign l (s.lists l).values.dropLast)
      { a with lists := update a.lists l (a.lists l).dropLast } owners := by
  apply h.dropLast rfl rfl rfl h.cells h.owned
  · intro id hid l' hmem; exact h.gone hid l' (mem_update_dropLast hmem)
  · intro k view ids hview hids
    have hheld := h.held hview hids
    by_cases hl : view.source = l
    · have hother := mt (h.mem_ending (l := l) hview hids).mpr (by simp [hnone])
      rw [hl] at hheld ⊢
      rw [update_self]; exact hheld.dropLast (fun hlast => hother ⟨hl, hlast⟩)
    · rw [update_of_ne hl]; exact hheld

/-- It is in front of some: it goes on in one cell for all of them. -/
theorem Refines.pop_detached (h : Refines s a owners) (hsome : ending s l ≠ [])
    (hlast : (a.lists l).getLast? = some id) :
    Refines ((detach s l).assign l ((detach s l).lists l).values.dropLast)
      { a with lists := update a.lists l (a.lists l).dropLast } (owners ++ [id]) := by
  have hid : id ∈ a.lists l := mem_of_getLast? hlast
  have hplace : (a.lists l)[(a.lists l).length - 1]? = some id := by
    rw [← getLast?_eq_getElem?, hlast]
  obtain ⟨value, hvalue, hstore⟩ := (h.lists l).get hplace
  have hlastValue : (s.lists l).values.getLast? = some value := by
    rw [getLast?_eq_getElem?, (h.lists l).length, hvalue]
  have hdetach : detach s l =
      { s with
        cells := s.cells ++ [value]
        removed := (ending s l).foldl (fun removed view =>
          update removed view.removed (removed view.removed ++ [s.cells.length])) s.removed } := by
    unfold detach
    cases hending : ending s l with
    | nil => exact absurd hending hsome
    | cons first rest => rw [hlastValue]
  have hlists : (detach s l).lists = s.lists := by rw [hdetach]
  have hviews : (detach s l).views = s.views := by rw [hdetach]
  have hregistry : (detach s l).registry = s.registry := by rw [hdetach]
  have hown : id ∉ owners := fun howner => h.gone howner l hid
  apply h.dropLast hlists hviews hregistry
  · rw [hdetach]; exact h.cells.snoc hstore
  · apply List.Nodup.append h.owned (nodup_singleton _)
    rwa [disjoint_singleton]
  · intro other hother l' hmem
    rcases mem_append.mp hother with hother | hother
    · exact h.gone hother l' (mem_update_dropLast hmem)
    · rw [mem_singleton] at hother
      subst hother
      have hl : l' = l := h.apart (mem_update_dropLast hmem) hid
      subst hl
      rw [update_self] at hmem
      -- an identity is in its list once
      have hnodup := h.distinct l'
      rw [← dropLast_append_getLast? other hlast] at hnodup
      exact (nodup_append.mp hnodup).2.2 other hmem other (mem_singleton_self _) rfl
  · intro k view ids hview hids
    have hheld := h.held hview hids
    have hmember : view.removed ∈ (ending s l).map View.removed ↔ view ∈ ending s l := by
      constructor
      · intro hremoved
        obtain ⟨other, hother, hequal⟩ := mem_map.mp hremoved
        have hin : other ∈ s.views := by
          unfold ending at hother
          rw [h.registry] at hother
          exact mem_of_mem_filter (mem_of_mem_filter hother)
        rwa [← h.view_eq hin (mem_of_getElem? hview) hequal]
      · exact fun hending => mem_map_of_mem hending
    simp only [hdetach, foldl_removed _ (h.ending_distinct l), hmember, h.mem_ending hview hids]
    by_cases hl : view.source = l
    · rw [hl] at hheld ⊢
      rw [update_self]
      split
      · next hending =>
        rw [h.cells.length]; exact hheld.detach hending.2.1 hending.2.2 hlast
      · next hother =>
        exact (hheld.dropLast (fun hboundary => hother ⟨rfl, hboundary⟩)).kept id
    · rw [update_of_ne hl, if_neg (fun hending => hl hending.1)]
      exact hheld.kept id

/-- A list that no view watches has no view to tell. -/
theorem Refines.ending_unwatched (h : Refines s a owners) (hplain : (s.lists l).watched = false) :
    ending s l = [] := by
  apply eq_nil_iff_forall_not_mem.mpr
  intro view hview
  obtain ⟨hregistered, hsource⟩ := mem_filter.mp hview
  have hwatched := h.watched view hregistered
  rw [decide_eq_true_eq] at hsource
  rw [hsource.1, hplain] at hwatched
  cases hwatched

theorem Refines.pop (h : Refines s a owners) :
    (∃ id value s', (a.lists l).getLast? = some id ∧ a.store[id]? = some value ∧
      Views.pop s l = .ok (s', value) ∧
      Related s' { a with lists := update a.lists l (a.lists l).dropLast }) ∨
    (a.lists l).getLast? = none ∧ Views.pop s l = .error "cannot pop an empty list" := by
  have hlength := (h.lists l).length
  unfold Views.pop
  generalize hdetached : (if (s.lists l).watched then detach s l else s) = s'
  have hlists : s'.lists = s.lists := by
    rw [← hdetached]
    split
    · unfold detach
      split <;> rfl
    · rfl
  dsimp only
  rw [hlists]
  cases hlast : (a.lists l).getLast? with
  | none =>
    have hempty : (s.lists l).values.getLast? = none := by
      rw [getLast?_eq_none_iff] at hlast ⊢
      exact eq_nil_of_length_eq_zero (by rw [hlength, hlast]; rfl)
    rw [hempty]; exact .inr ⟨rfl, rfl⟩
  | some id =>
    have hplace : (a.lists l)[(a.lists l).length - 1]? = some id := by
      rw [← getLast?_eq_getElem?, hlast]
    obtain ⟨value, hvalue, hstore⟩ := (h.lists l).get hplace
    have hlastValue : (s.lists l).values.getLast? = some value := by
      rw [getLast?_eq_getElem?, hlength, hvalue]
    rw [hlastValue]
    refine .inl ⟨id, value, _, rfl, hstore, rfl, ?_⟩
    by_cases hending : ending s l = []
    · have hsame : s' = s := by
        rw [← hdetached]
        split
        · unfold detach
          rw [hending]
        · rfl
      rw [hsame]; exact ⟨owners, h.pop_plain hending⟩
    · have hwatched : (s.lists l).watched = true := by
        by_contra hplain
        exact hending (h.ending_unwatched (by simpa using hplain))
      rw [if_pos hwatched] at hdetached
      have hpopped := h.pop_detached hending hlast
      rw [hdetached, hlists] at hpopped; exact ⟨owners ++ [id], hpopped⟩

/-! ## Captures -/

theorem held_capture {start stop : Nat} (hstart : start ≤ stop) (hstop : stop ≤ list.length)
    (hsource : view.start = start ∧ view.stop = stop) :
    Held list [] owners view ((list.drop start).take (stop - start)) := by
  obtain ⟨rfl, rfl⟩ := hsource
  refine ⟨hstart, ?_, Nat.zero_le _, ?_, by simp⟩
  · rw [length_take, length_drop]; omega
  · intro i hi
    rw [getElem?_take, if_pos (by omega), getElem?_drop]

/-- One more view, with a new list of cells; the list it is of is watched unless
the view is empty. -/
theorem Refines.captured (h : Refines s a owners) (s' : State α) (view : View)
    (hvalues : ∀ l, (s'.lists l).values = (s.lists l).values)
    (hkept : ∀ l, (s.lists l).watched = true → (s'.lists l).watched = true)
    (hwatched : view.start ≠ view.stop → (s'.lists view.source).watched = true)
    (hremoved : s'.removed = update s.removed s.views.length []) (hcells : s'.cells = s.cells)
    (hviews : s'.views = s.views ++ [view]) (hnew : view.removed = s.views.length)
    (hregistry : s'.registry = s.registry ++ if view.start ≠ view.stop then [view] else [])
    (hheld : Held (a.lists view.source) [] owners view ids) :
    Refines s' { a with views := a.views ++ [ids] } owners where
  lists l := by
    rw [hvalues]; exact h.lists l
  distinct := h.distinct
  apart := h.apart
  cells := by
    rw [hcells]; exact h.cells
  owned := h.owned
  gone := h.gone
  count := by
    rw [hviews, length_append, length_append, h.count]; rfl
  numbered := by
    rw [hviews, map_append, length_append, h.numbered, map_singleton, hnew,
      length_singleton, range_succ]
  held {k other others} hother hothers := by
    rw [hviews] at hother
    rw [hremoved]
    by_cases hk : k < s.views.length
    · rw [getElem?_append_left hk] at hother
      have hothers' : a.views[k]? = some others := by
        rw [← hothers]; exact (getElem?_append_left (h.count ▸ hk)).symm
      have hold : other.removed ≠ s.views.length := by
        rw [h.numbered_get hother]; exact Nat.ne_of_lt hk
      rw [update_of_ne hold]; exact h.held hother hothers'
    · have hlast : k = s.views.length := by
        have := (List.getElem?_eq_some_iff.mp hother).1
        rw [length_append, length_singleton] at this; omega
      subst hlast
      rw [getElem?_concat_length, some.injEq] at hother
      have hids : (a.views ++ [ids])[s.views.length]? = some others := hothers
      rw [h.count, getElem?_concat_length, some.injEq] at hids
      subst hother hids
      rw [hnew, update_self]; exact hheld
  registry := by
    rw [hregistry, hviews, h.registry]
    by_cases hempty : view.start = view.stop <;> simp [hempty]
  watched other hother := by
    rw [hregistry] at hother
    rcases mem_append.mp hother with hother | hother
    · exact hkept _ (h.watched other hother)
    · split at hother
      · next hopen =>
        rw [mem_singleton.mp hother]; exact hwatched hopen
      · cases hother

theorem Refines.capture (h : Refines s a owners) (start stop : Int) :
    (0 ≤ start ∧ start ≤ stop ∧ stop ≤ (a.lists l).length ∧
      ∃ s', Views.capture s l start stop = .ok s' ∧
        Refines s' { a with views := a.views ++
          [((a.lists l).drop start.toNat).take (stop.toNat - start.toNat)] } owners) ∨
    ¬(0 ≤ start ∧ start ≤ stop ∧ stop ≤ (a.lists l).length) ∧
      Views.capture s l start stop = .error "list view range out of bounds" := by
  have hlength := (h.lists l).length
  unfold Views.capture retainRange
  simp only [update_self, length_nil]
  by_cases hrange : 0 ≤ start ∧ start ≤ stop ∧ stop ≤ (a.lists l).length
  · obtain ⟨hstart, horder, hstop⟩ := hrange
    have hheld : Held (a.lists l) [] owners
        { source := l, removed := s.views.length, start := start.toNat, stop := stop.toNat }
        (((a.lists l).drop start.toNat).take (stop.toNat - start.toNat)) :=
      held_capture (by omega) (by omega) ⟨rfl, rfl⟩
    refine .inl ⟨hstart, horder, hstop, ?_⟩
    rw [if_neg (by omega)]
    by_cases hempty : start = stop
    · rw [if_neg (by omega)]
      refine ⟨_, rfl, ?_⟩
      refine h.captured _ _ (fun _ => rfl) (fun _ => id) ?_ rfl rfl rfl rfl ?_ hheld
      · simp [hempty]
      · simp [hempty]
    · rw [if_pos (by omega)]
      refine ⟨_, rfl, ?_⟩
      have hopen : start.toNat ≠ stop.toNat := by omega
      refine h.captured _ _ ?_ ?_ ?_ rfl rfl rfl rfl ?_ hheld
      · intro l'
        by_cases hl : l' = l
        · subst hl; simp
        · simp [hl]
      · intro l' hwatched
        by_cases hl : l' = l
        · subst hl; simp
        · simpa [hl] using hwatched
      · simp
      · simp [hopen]
  · refine .inr ⟨hrange, ?_⟩
    rw [if_pos (by omega)]; rfl

/-! ## Views -/

section
variable (h : Refines s a owners) (hview : s.views[k]? = some view) (hids : a.views[k]? = some ids)
  (index : Int)
include h hview hids

/-- An element of a view is at its place in the list, or in its cell. -/
theorem Refines.place :
    (∃ id, at? ids index = some id ∧
      ((∃ i : Nat, place s view index = .ok (.element view.source i) ∧
          (a.lists view.source)[i]? = some id) ∨
        ∃ c, place s view index = .ok (.cell c) ∧ owners[c]? = some id)) ∨
    at? ids index = none ∧ place s view index = .error "assertion failed" := by
  have hheld := h.held hview hids
  have hlength := hheld.length
  unfold Views.place
  cases hid : at? ids index with
  | none =>
    refine .inr ⟨rfl, if_neg ?_⟩
    rw [at?_eq_none] at hid; omega
  | some id =>
    obtain ⟨i, rfl, hi⟩ := at?_eq_some.mp hid
    have hless := (List.getElem?_eq_some_iff.mp hi).1
    refine .inl ⟨id, rfl, ?_⟩
    rw [if_pos (by omega)]
    by_cases hfront : view.start + i + (s.removed view.removed).length < view.stop
    · refine .inl ⟨view.start + i, ?_, ?_⟩
      · rw [if_pos (by omega)]; rfl
      · rw [hheld.front i hfront, hi]
    · have hj : view.stop - 1 - (view.start + i) < (s.removed view.removed).length := by omega
      obtain ⟨c, hc⟩ : ∃ c,
          (s.removed view.removed)[view.stop - 1 - (view.start + i)]? = some c :=
        ⟨_, getElem?_eq_getElem hj⟩
      have hplace : at? (s.removed view.removed)
          ((view.stop : Int) - 1 - (view.start + i)) = some c := by
        rw [show (view.stop : Int) - 1 - (view.start + i) =
          ((view.stop - 1 - (view.start + i) : Nat) : Int) by omega, at?_natCast, hc]
      refine .inr ⟨c, ?_, ?_⟩
      · rw [if_neg (by omega), hplace]; rfl
      · rw [hheld.back _ c hc, ← hi]
        congr 1
        omega

theorem Refines.viewGet :
    (∃ id value, at? ids index = some id ∧ a.store[id]? = some value ∧
      Views.viewGet s view index = .ok value) ∨
    at? ids index = none ∧ Views.viewGet s view index = .error "assertion failed" := by
  rcases h.place hview hids index with ⟨id, hid, ⟨i, hplace, hi⟩ | ⟨c, hplace, hc⟩⟩ | ⟨hid, hplace⟩
  · obtain ⟨value, hvalue, hstore⟩ := (h.lists view.source).get hi
    refine .inl ⟨id, value, hid, hstore, ?_⟩
    rw [Views.viewGet, hplace]
    show Views.get s view.source i = _
    rw [Views.get, at?_natCast, hvalue]; rfl
  · obtain ⟨value, hvalue, hstore⟩ := h.cells.get hc
    refine .inl ⟨id, value, hid, hstore, ?_⟩
    rw [Views.viewGet, hplace]
    show found _ s.cells[c]? = _
    rw [hvalue]; rfl
  · refine .inr ⟨hid, ?_⟩
    rw [Views.viewGet, hplace]; rfl

theorem Refines.viewSet (value : α) :
    (∃ id s', at? ids index = some id ∧ Views.viewSet s view index value = .ok s' ∧
      Refines s' (a.write id value) owners) ∨
    at? ids index = none ∧ Views.viewSet s view index value = .error "assertion failed" := by
  rcases h.place hview hids index with ⟨id, hid, ⟨i, hplace, hi⟩ | ⟨c, hplace, hc⟩⟩ | ⟨hid, hplace⟩
  · refine .inl ⟨id, _, hid, ?_, h.write_list hi value⟩
    have hless := (List.getElem?_eq_some_iff.mp hi).1
    rw [Views.viewSet, hplace]
    show Views.set s view.source i value = _
    rw [Views.set, if_pos ⟨by omega, by rw [(h.lists view.source).length]; omega⟩]
    rfl
  · refine .inl ⟨id, _, hid, ?_, h.write_cell hc value⟩
    have hless := (List.getElem?_eq_some_iff.mp hc).1
    rw [Views.viewSet, hplace]; exact if_pos (by rwa [h.cells.length])
  · refine .inr ⟨hid, ?_⟩
    rw [Views.viewSet, hplace]; rfl

end

/-! ## Every sequence of operations -/

theorem Refines.views_get (h : Refines s a owners) (k : Nat) :
    (∃ view ids, s.views[k]? = some view ∧ a.views[k]? = some ids) ∨
      s.views[k]? = none ∧ a.views[k]? = none := by
  by_cases hk : k < s.views.length
  · exact .inl ⟨_, _, getElem?_eq_getElem hk, getElem?_eq_getElem (h.count ▸ hk)⟩
  · refine .inr ⟨?_, ?_⟩
    · rw [getElem?_eq_none_iff]; omega
    · rw [getElem?_eq_none_iff, ← h.count]; omega

theorem step_refines (h : Related s a) (op : Op α) :
    Matches Related (step s op) (ideal a op) := by
  obtain ⟨owners, h⟩ := h
  cases op with
  | push list value => exact .answered _ ⟨owners, h.push value⟩
  | set list index value =>
    rcases @Refines.set _ _ _ _ list h index value with
      ⟨id, s', hid, hset, hnext⟩ | ⟨hid, hset⟩
    · simp only [step, ideal, hid, hset]; exact .answered _ ⟨owners, hnext⟩
    · simp only [step, ideal, hid, hset]; exact .failed _
  | pop list =>
    rcases @Refines.pop _ _ _ _ list h with
      ⟨id, value, s', hlast, hstore, hpop, hnext⟩ | ⟨hlast, hpop⟩
    · simp only [step, ideal, hlast, hpop, Ideal.read, hstore, found_some, Results.ok_bind]
      exact .answered _ hnext
    · simp only [step, ideal, hlast, hpop]; exact .failed _
  | get list index =>
    rcases @Refines.get _ _ _ _ list h index with ⟨id, value, hid, hstore, hget⟩ | ⟨hid, hget⟩
    · simp only [step, ideal, hid, hget, Ideal.read, hstore, found_some, Results.ok_bind]
      exact .answered _ ⟨owners, h⟩
    · simp only [step, ideal, hid, hget]; exact .failed _
  | length list =>
    simp only [step, (h.lists list).length]; exact .answered _ ⟨owners, h⟩
  | capture list start stop =>
    rcases @Refines.capture _ _ _ _ list h start stop with
      ⟨hstart, horder, hstop, s', hcapture, hnext⟩ | ⟨hrange, hcapture⟩
    · simp only [step, ideal, hcapture, if_pos (And.intro hstart (And.intro horder hstop))]
      exact .answered _ ⟨owners, hnext⟩
    · simp only [step, ideal, hcapture, if_neg hrange]; exact .failed _
  | viewGet k index =>
    rcases h.views_get k with ⟨view, ids, hview, hids⟩ | ⟨hview, hids⟩
    · rcases h.viewGet hview hids index with ⟨id, value, hid, hstore, hget⟩ | ⟨hid, hget⟩
      · simp only [step, ideal, hview, hids, hid, hget, Ideal.read, hstore, found_some,
          Results.ok_bind]
        exact .answered _ ⟨owners, h⟩
      · simp only [step, ideal, hview, hids, hid, hget, found_some, Results.ok_bind]
        exact .failed _
    · simp only [step, ideal, hview, hids]; exact .failed _
  | viewSet k index value =>
    rcases h.views_get k with ⟨view, ids, hview, hids⟩ | ⟨hview, hids⟩
    · rcases h.viewSet hview hids index value with ⟨id, s', hid, hset, hnext⟩ | ⟨hid, hset⟩
      · simp only [step, ideal, hview, hids, hid, hset, found_some, Results.ok_bind]
        exact .answered _ ⟨owners, hnext⟩
      · simp only [step, ideal, hview, hids, hid, hset, found_some, Results.ok_bind]
        exact .failed _
    · simp only [step, ideal, hview, hids]; exact .failed _
  | viewLength k =>
    rcases h.views_get k with ⟨view, ids, hview, hids⟩ | ⟨hview, hids⟩
    · have hheld := h.held hview hids
      have hcount : (view.stop : Int) - view.start = ids.length := by
        have hlength := hheld.length
        have horder := hheld.order
        omega
      simp only [step, ideal, hview, hids, found_some, Results.ok_bind, hcount]
      exact .answered _ ⟨owners, h⟩
    · simp only [step, ideal, hview, hids]; exact .failed _

/-- Lists and views together act as lists of identities: what a view reads and
writes are the elements it captured, wherever they are now. -/
theorem views_refine (ops : List (Op α)) :
    observe step State.start ops = observe ideal Ideal.start ops :=
  observe_eq Related step_refines start_related ops

end

end Loom.Collections.Views

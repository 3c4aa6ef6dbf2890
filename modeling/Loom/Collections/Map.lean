import Loom.Library.Probing

/-
  The hash map: open addressing with deleted slots.

  A key is looked for along a path of slots that starts at its hash and ends at
  the first empty slot. Removal leaves a deleted slot, so that paths through it go
  on; insertion takes the first deleted slot of the path, or else the empty slot at
  its end. Once three quarters of the slots are in use, the occupied ones move to
  fresh slots, twice as many if the table is half full.

  Correspondence (std/map/map.loom ↔ Lean), where names differ:
    `Equal`, `Hash` ↔ `Equal`, `Hash`; what is asked of them, `Lawful`
    `locate`, its loop ↔ `locate`, `locateFrom`; a position −1 is `none`
    `rehash`, its loops ↔ `rehash`, `rehashFrom`, `vacantFrom`
    `get`, `contains`, `insert`, `remove`, `clear`, `entries`, `keys`, `length`,
    `is_empty` ↔ the same names
  A loop `while true` has a bound, one turn for each slot; `none` is a call that
  does not return. A hash is an integer of any size, which covers the machine's; the
  number of slots is bounded by memory alone.
-/

namespace Loom.Collections

open Probing List Option

/-! ## The source -/

class Equal (K : Type) where
  equals : K → K → Bool

class Hash (K : Type) where
  hash : K → Int

export Equal (equals)
export Hash (hash)

inductive Slot (K V : Type) where
  | empty
  | deleted
  | occupied (hash : Int) (key : K) (value : V)
  deriving DecidableEq

structure Table (K V : Type) where
  slots : List (Slot K V)
  count : Int
  used : Int
  deriving DecidableEq

section
variable {K V : Type}

def emptyTable (capacity : Nat) : Table K V := ⟨replicate capacity .empty, 0, 0⟩

def new : Table K V := emptyTable 8

def length (table : Table K V) : Int := table.count

def isEmpty (table : Table K V) : Bool := length table == 0

/-- `hash & mask`, the start of a path. -/
def home (hash : Int) (slots : List (Slot K V)) : Nat :=
  (Int.land hash (slots.length - 1)).toNat

/-- `(index + 1) & mask`, the next slot of a path. -/
def following (slots : List (Slot K V)) (index : Nat) : Nat :=
  (index + 1) &&& (slots.length - 1)

def locateFrom [Equal K] (slots : List (Slot K V)) (hash : Int) (key : K) :
    Nat → Nat → Option Nat → Option (Nat × Bool)
  | 0, _, _ => none
  | bound + 1, index, deleted =>
    match slots[index]? with
    | none => none
    | some .empty => some (deleted.getD index, false)
    | some .deleted =>
      locateFrom slots hash key bound (following slots index) (deleted <|> some index)
    | some (.occupied storedHash storedKey _) =>
      if storedHash = hash ∧ equals storedKey key = true then some (index, true)
      else locateFrom slots hash key bound (following slots index) deleted

/-- At least one slot is empty. An absent key uses the first deleted slot, if any. -/
def locate [Equal K] (table : Table K V) (hash : Int) (key : K) : Option (Nat × Bool) :=
  locateFrom table.slots hash key table.slots.length (home hash table.slots) none

def get [Equal K] [Hash K] (table : Table K V) (key : K) : Option (Option V) := do
  let found ← locate table (hash key) key
  if found.2 then
    match table.slots[found.1]? with
    | some (.occupied _ _ value) => some (some value)
    | some _ => some none
    | none => none
  else some none

def contains [Equal K] [Hash K] (table : Table K V) (key : K) : Option Bool := do
  let found ← locate table (hash key) key
  some found.2

/-- The inner loop of `rehash`: the first slot of a path that is not occupied. -/
def vacantFrom (slots : List (Slot K V)) : Nat → Nat → Option Nat
  | 0, _ => none
  | bound + 1, index =>
    match slots[index]? with
    | none => none
    | some (.occupied _ _ _) => vacantFrom slots bound (following slots index)
    | some _ => some index

/-- The outer loop of `rehash`, over the slots that are still to be moved. -/
def rehashFrom : List (Slot K V) → List (Slot K V) → Option (List (Slot K V))
  | [], fresh => some fresh
  | .occupied hash key value :: rest, fresh => do
    let index ← vacantFrom fresh fresh.length (home hash fresh)
    rehashFrom rest (fresh.set index (.occupied hash key value))
  | _ :: rest, fresh => rehashFrom rest fresh

def rehash (table : Table K V) (capacity : Nat) : Option (Table K V) := do
  let fresh ← rehashFrom table.slots (emptyTable capacity : Table K V).slots
  some ⟨fresh, table.count, table.count⟩

/-- The end of `insert`: a new entry at the slot that was found. -/
def occupy (table : Table K V) (index : Nat) (hash : Int) (key : K) (value : V) :
    Option (Table K V) :=
  match table.slots[index]? with
  | none => none
  | some slot =>
    let extraUsed : Int := match slot with
      | .empty => 1
      | .deleted => 0
      | .occupied _ _ _ => 0
    some ⟨table.slots.set index (.occupied hash key value), table.count + 1,
      table.used + extraUsed⟩

/-- The part of `insert` for a key that is not there, whose search ended at `index`. -/
def insertAbsent [Equal K] (table : Table K V) (index : Nat) (hash : Int) (key : K) (value : V) :
    Option (Option V × Table K V) := do
  let capacity := table.slots.length
  if table.used ≥ (capacity : Int) - (capacity / 4 : Nat) then
    let nextCapacity := if table.count ≥ (capacity / 2 : Nat) then capacity * 2 else capacity
    let table ← rehash table nextCapacity
    let found ← locate table hash key
    let table ← occupy table found.1 hash key value
    some (none, table)
  else
    let table ← occupy table index hash key value
    some (none, table)

/-- Returns the previous value; replacing a key preserves its original key object. -/
def insert [Equal K] [Hash K] (table : Table K V) (key : K) (value : V) :
    Option (Option V × Table K V) := do
  let found ← locate table (hash key) key
  if found.2 then
    match table.slots[found.1]? with
    | some (.occupied storedHash storedKey previous) =>
      let slot := .occupied storedHash storedKey value
      some (some previous, { table with slots := table.slots.set found.1 slot })
    | some _ => insertAbsent table found.1 (hash key) key value
    | none => none
  else insertAbsent table found.1 (hash key) key value

def remove [Equal K] [Hash K] (table : Table K V) (key : K) :
    Option (Option V × Table K V) := do
  let found ← locate table (hash key) key
  if found.2 then
    match table.slots[found.1]? with
    | some (.occupied _ _ previous) =>
      some (some previous, ⟨table.slots.set found.1 .deleted, table.count - 1, table.used⟩)
    | some _ => some (none, table)
    | none => none
  else some (none, table)

def clear (_ : Table K V) : Table K V := emptyTable 8

def entries (table : Table K V) : List (K × V) :=
  table.slots.filterMap fun
    | .occupied _ key value => some (key, value)
    | _ => none

def keys (table : Table K V) : List K :=
  table.slots.filterMap fun
    | .occupied _ key _ => some key
    | _ => none

end

/-! ## Paths -/

section
variable {K V : Type} {slots : List (Slot K V)} {k : Nat}

def Slot.entry? : Slot K V → Option (Int × K × V)
  | .occupied hash key value => some (hash, key, value)
  | _ => none

def Slot.isUsed : Slot K V → Bool
  | .empty => false
  | _ => true

/-- What the slots hold, in the order of the slots. -/
def held (slots : List (Slot K V)) : List (Int × K × V) := slots.filterMap Slot.entry?

theorem home_set (hash : Int) (index : Nat) (slot : Slot K V) :
    home hash (slots.set index slot) = home hash slots := by
  simp [home]

theorem home_lt (hash : Int) (hsize : slots.length = 2 ^ k) : home hash slots < slots.length := by
  have hmod : Int.land hash (slots.length - 1) = hash % 2 ^ k := by
    rw [hsize]; exact land_two_pow hash k
  have hpos : (0 : Int) < 2 ^ k := by positivity
  unfold home
  have hcast : ((2 ^ k : Nat) : Int) = 2 ^ k := by norm_cast
  omega

theorem following_eq (hsize : slots.length = 2 ^ k) (start i : Nat) :
    following slots (place slots.length start i) = place slots.length start (i + 1) := by
  unfold following
  rw [← place_succ, hsize, Nat.and_two_pow_sub_one_eq_mod]

/-- Every occupied slot is on the path from its hash, before the first empty slot. -/
structure Paths (slots : List (Slot K V)) : Prop where
  capacity : ∃ k, 3 ≤ k ∧ slots.length = 2 ^ k
  placed : ∀ {index hash key value}, slots[index]? = some (.occupied hash key value) →
    Reachable slots (· = .empty) (home hash slots) index

/-- A written slot, on the path from its own hash. -/
theorem Paths.occupy (h : Paths slots) {index : Nat} {hash : Int} {key : K} {value : V}
    (hreach : Reachable slots (· = .empty) (home hash slots) index) :
    Paths (slots.set index (.occupied hash key value)) := by
  obtain ⟨k, hk, hsize⟩ := h.capacity
  refine ⟨⟨k, hk, by rw [length_set]; exact hsize⟩, ?_⟩
  intro other hash' key' value' hget
  rw [home_set]
  rw [getElem?_set] at hget
  split at hget
  · split at hget
    · cases hget
      subst other; exact hreach.set nofun
    · cases hget
  · exact (h.placed hget).set nofun

theorem Paths.delete (h : Paths slots) (index : Nat) : Paths (slots.set index .deleted) := by
  obtain ⟨k, hk, hsize⟩ := h.capacity
  refine ⟨⟨k, hk, by rw [length_set]; exact hsize⟩, ?_⟩
  intro other hash' key' value' hget
  rw [home_set]
  rw [getElem?_set] at hget
  split at hget
  · split at hget <;> exact absurd hget nofun
  · exact (h.placed hget).set nofun

/-! ## The search for a key -/

/-- A slot that ends the search for a key. -/
def Stops [Equal K] (hash : Int) (key : K) (slot : Slot K V) : Prop :=
  slot = .empty ∨ ∃ stored value, slot = Slot.occupied hash stored value ∧ equals stored key = true

/-- How a search ends: at the slot of the key, or at a free slot on its path, and
then no slot has the key. -/
inductive Located [Equal K] (slots : List (Slot K V)) (hash : Int) (key : K) : Nat × Bool → Prop
  | present {index stored value} (hget : slots[index]? = some (.occupied hash stored value))
      (hequal : equals stored key = true) : Located slots hash key (index, true)
  | absent {index} {slot : Slot K V} (hget : slots[index]? = some slot) (hfree : slot.entry? = none)
      (hreach : Reachable slots (· = .empty) (home hash slots) index)
      (hnone : ∀ (other : Nat) (stored : K) (value : V),
        slots[other]? = some (.occupied hash stored value) → equals stored key = false) :
      Located slots hash key (index, false)

/-- The search from the `i`-th slot of a path, `d` slots before it ends. -/
theorem locateFrom_spec [Equal K] {hash : Int} {key : K} (start : Nat) (last : Slot K V)
    (hsize : slots.length = 2 ^ k) :
    ∀ (d i bound : Nat) (deleted : Option Nat), d < bound →
    (∀ j, i ≤ j → j < i + d → ∃ slot, slots[place slots.length start j]? = some slot ∧
      ¬ Stops hash key slot) →
    slots[place slots.length start (i + d)]? = some last → Stops hash key last →
    (∀ index, deleted = some index → ∃ e < i, index = place slots.length start e ∧
      slots[index]? = some .deleted) →
    ∃ found, locateFrom slots hash key bound (place slots.length start i) deleted = some found ∧
      (found = (place slots.length start (i + d), true) ∧ last ≠ .empty ∨
        last = .empty ∧ found.2 = false ∧ ∃ e ≤ i + d, found.1 = place slots.length start e ∧
          ∃ slot, slots[found.1]? = some slot ∧ slot.entry? = none) := by
  intro d
  induction d with
  | zero =>
    intro i bound deleted hbound _ hlast hstop hdeleted
    obtain ⟨bound, rfl⟩ : ∃ b, bound = b + 1 := ⟨bound - 1, by omega⟩
    rw [Nat.add_zero] at hlast ⊢
    rcases hstop with rfl | ⟨stored, value, rfl, hequal⟩
    · refine ⟨(deleted.getD (place slots.length start i), false), by simp [locateFrom, hlast], ?_⟩
      refine .inr ⟨rfl, rfl, ?_⟩
      cases deleted with
      | none => exact ⟨i, le_rfl, rfl, .empty, hlast, rfl⟩
      | some index =>
        obtain ⟨e, he, hindex, hget⟩ := hdeleted index rfl
        exact ⟨e, by omega, hindex, .deleted, hget, rfl⟩
    · exact ⟨_, by simp [locateFrom, hlast, hequal], .inl ⟨rfl, nofun⟩⟩
  | succ d ih =>
    intro i bound deleted hbound hpass hlast hstop hdeleted
    obtain ⟨bound, rfl⟩ : ∃ b, bound = b + 1 := ⟨bound - 1, by omega⟩
    obtain ⟨slot, hslot, hgoes⟩ := hpass i le_rfl (by omega)
    have hpass' : ∀ j, i + 1 ≤ j → j < i + 1 + d → _ := fun j hj hlt => hpass j (by omega) (by omega)
    rw [show i + (d + 1) = i + 1 + d by omega] at hlast ⊢
    cases slot with
    | empty => exact absurd (.inl rfl) hgoes
    | deleted =>
      obtain ⟨found, hfound, hspec⟩ := ih (i + 1) bound
        (deleted <|> some (place slots.length start i)) (by omega) hpass' hlast hstop (by
          intro index hindex
          cases deleted with
          | none => exact ⟨i, by omega, (some.inj hindex).symm, by
              rw [← some.inj hindex]; exact hslot⟩
          | some old =>
            obtain ⟨e, he, hold⟩ := hdeleted index hindex
            exact ⟨e, by omega, hold⟩)
      refine ⟨found, ?_, hspec⟩
      simp only [locateFrom, hslot]
      rw [following_eq hsize]; exact hfound
    | occupied storedHash stored value =>
      have hother : ¬ (storedHash = hash ∧ equals stored key = true) := by
        rintro ⟨rfl, hequal⟩
        exact hgoes (.inr ⟨stored, value, rfl, hequal⟩)
      obtain ⟨found, hfound, hspec⟩ := ih (i + 1) bound deleted (by omega) hpass' hlast hstop (by
        intro index hindex
        obtain ⟨e, he, hold⟩ := hdeleted index hindex
        exact ⟨e, by omega, hold⟩)
      refine ⟨found, ?_, hspec⟩
      simp only [locateFrom, hslot, if_neg hother]
      rw [following_eq hsize]; exact hfound

theorem locate_spec [Equal K] {table : Table K V} (hash : Int) (key : K)
    (hpaths : Paths table.slots) (hroom : Slot.empty ∈ table.slots) :
    ∃ found, locate table hash key = some found ∧ Located table.slots hash key found := by
  obtain ⟨k, -, hsize⟩ := hpaths.capacity
  obtain ⟨target, hempty⟩ := mem_iff_getElem?.mp hroom
  have hhome := home_lt hash hsize
  obtain ⟨i, hi, ⟨last, hlast, hstop⟩, hpass⟩ :=
    exists_first (Stops hash key) hhome hempty (.inl rfl)
  have hget : ∀ j, table.slots[place table.slots.length (home hash table.slots) j]? =
      some (table.slots.get ⟨place table.slots.length (home hash table.slots) j,
        place_lt (by omega)⟩) := fun j => getElem?_eq_getElem _
  obtain ⟨found, hfound, hspec⟩ := locateFrom_spec (home hash table.slots) last
    hsize i 0 table.slots.length none hi
    (by
      intro j _ hj
      exact ⟨_, hget j, hpass j (by omega) _ (hget j)⟩)
    (by rw [Nat.zero_add]; exact hlast) hstop nofun
  rw [place_zero hhome] at hfound
  rw [Nat.zero_add] at hspec
  refine ⟨found, hfound, ?_⟩
  rcases hspec with ⟨rfl, hused⟩ | ⟨rfl, habsent, e, he, hindex, slot, hslot, hfree⟩
  · rcases hstop with rfl | ⟨stored, value, rfl, hequal⟩
    · exact absurd rfl hused
    · exact .present hlast hequal
  · obtain ⟨index, other⟩ := found
    obtain rfl : other = false := habsent
    have hclear : ∀ j < i, ∀ slot,
        table.slots[place table.slots.length (home hash table.slots) j]? = some slot →
        slot ≠ .empty := fun j hj slot hj' hempty => hpass j hj slot hj' (.inl hempty)
    refine .absent hslot hfree ⟨e, hindex.symm, fun j hj => hclear j (by omega)⟩ ?_
    -- A slot with the key would lie before the empty slot, and end the search there.
    intro other stored value hother
    by_contra hequal
    rw [Bool.not_eq_false] at hequal
    obtain ⟨e', hplace, hreach⟩ := hpaths.placed hother
    have hstops : Stops hash key (.occupied hash stored value) := .inr ⟨stored, value, rfl, hequal⟩
    rw [← hplace] at hother
    rcases Nat.lt_trichotomy e' i with hlt | rfl | hgt
    · exact hpass e' hlt _ hother hstops
    · rw [hlast] at hother
      cases some.inj hother
    · exact hreach i hgt _ hlast rfl

end

/-! ## Moving to fresh slots -/

section
variable {K V : Type} {slots : List (Slot K V)} {k : Nat}

theorem vacantFrom_spec (start : Nat) (hsize : slots.length = 2 ^ k) :
    ∀ (d i bound : Nat), d < bound →
    (∀ j, i ≤ j → j < i + d → ∃ slot, slots[place slots.length start j]? = some slot ∧
      slot.entry? ≠ none) →
    (∃ slot, slots[place slots.length start (i + d)]? = some slot ∧ slot.entry? = none) →
    vacantFrom slots bound (place slots.length start i) =
      some (place slots.length start (i + d)) := by
  intro d
  induction d with
  | zero =>
    rintro i bound hbound - ⟨slot, hlast, hfree⟩
    obtain ⟨bound, rfl⟩ : ∃ b, bound = b + 1 := ⟨bound - 1, by omega⟩
    rw [Nat.add_zero] at hlast ⊢
    cases slot with
    | occupied => cases hfree
    | empty => simp [vacantFrom, hlast]
    | deleted => simp [vacantFrom, hlast]
  | succ d ih =>
    intro i bound hbound hpass hlast
    obtain ⟨bound, rfl⟩ : ∃ b, bound = b + 1 := ⟨bound - 1, by omega⟩
    obtain ⟨slot, hslot, hused⟩ := hpass i le_rfl (by omega)
    rw [show i + (d + 1) = i + 1 + d by omega] at hlast ⊢
    cases slot with
    | occupied hash key value =>
      simp only [vacantFrom, hslot]
      rw [following_eq hsize]
      exact ih (i + 1) bound (by omega) (fun j hj hlt => hpass j (by omega) (by omega)) hlast
    | empty => exact absurd rfl hused
    | deleted => exact absurd rfl hused

/-- There is a free slot on every path of a table that is not full. -/
theorem exists_vacant (hpaths : Paths slots) (hash : Int) (hroom : (held slots).length < slots.length) :
    ∃ index slot, vacantFrom slots slots.length (home hash slots) = some index ∧
      slots[index]? = some slot ∧ slot.entry? = none ∧
      Reachable slots (· = .empty) (home hash slots) index := by
  obtain ⟨k, -, hsize⟩ := hpaths.capacity
  have hhome := home_lt hash hsize
  obtain ⟨free, hmem, hfree⟩ : ∃ slot ∈ slots, slot.entry? = none := by
    by_contra hall
    have hfull : ∀ slot ∈ slots, slot.entry?.isSome = true := by
      intro slot hslot
      cases hentry : slot.entry? with
      | none => exact absurd ⟨slot, hslot, hentry⟩ hall
      | some => rfl
    rw [held, length_filterMap_eq_countP, countP_eq_length.mpr hfull] at hroom
    omega
  obtain ⟨target, htarget⟩ := mem_iff_getElem?.mp hmem
  obtain ⟨i, hi, ⟨last, hlast, hstop⟩, hpass⟩ :=
    exists_first (fun slot : Slot K V => slot.entry? = none) hhome htarget hfree
  have hget : ∀ j, slots[place slots.length (home hash slots) j]? =
      some (slots.get ⟨place slots.length (home hash slots) j, place_lt (by omega)⟩) :=
    fun j => getElem?_eq_getElem _
  have hfound := vacantFrom_spec (home hash slots) hsize i 0 slots.length hi
    (fun j _ hj => ⟨_, hget j, hpass j (by omega) _ (hget j)⟩)
    ⟨last, by rw [Nat.zero_add]; exact hlast, hstop⟩
  rw [place_zero hhome, Nat.zero_add] at hfound
  refine ⟨_, last, hfound, hlast, hstop, i, rfl, ?_⟩
  rintro j hj slot hslot rfl
  exact hpass j hj _ hslot rfl

variable {index : Nat}

theorem held_set {old : Slot K V} (new : Slot K V) (h : slots[index]? = some old) :
    (old.entry?.toList ++ held (slots.set index new)).Perm (new.entry?.toList ++ held slots) :=
  filterMap_set Slot.entry? new h

theorem held_occupy {old : Slot K V} (hash : Int) (key : K) (value : V)
    (h : slots[index]? = some old) (hfree : old.entry? = none) :
    (held (slots.set index (.occupied hash key value))).Perm ((hash, key, value) :: held slots) := by
  have := held_set (.occupied hash key value) h
  rw [hfree] at this; exact this

/-- The entry of a slot, and the entries beside it. -/
theorem held_taken {hash : Int} {key : K} {value : V}
    (h : slots[index]? = some (.occupied hash key value)) :
    (held slots).Perm ((hash, key, value) :: held (slots.set index .deleted)) :=
  (held_set .deleted h).symm

theorem held_replaced {hash : Int} {key : K} {old : V}
    (h : slots[index]? = some (.occupied hash key old)) (value : V) :
    (held (slots.set index (.occupied hash key value))).Perm
      ((hash, key, value) :: held (slots.set index .deleted)) := by
  obtain ⟨hindex, -⟩ := List.getElem?_eq_some_iff.mp h
  have := held_taken (getElem?_set_self (a := Slot.occupied hash key value) hindex)
  rwa [set_set] at this

theorem rehashFrom_spec : ∀ (source fresh : List (Slot K V)), Paths fresh →
    Slot.deleted ∉ fresh → (held source).length + (held fresh).length < fresh.length →
    ∃ moved, rehashFrom source fresh = some moved ∧ Paths moved ∧ Slot.deleted ∉ moved ∧
      moved.length = fresh.length ∧ (held moved).Perm (held source ++ held fresh) := by
  intro source
  induction source with
  | nil =>
    intro fresh hpaths hfresh _
    exact ⟨fresh, rfl, hpaths, hfresh, rfl, List.Perm.refl _⟩
  | cons slot rest ih =>
    intro fresh hpaths hfresh hroom
    cases slot with
    | empty => exact ih fresh hpaths hfresh hroom
    | deleted => exact ih fresh hpaths hfresh hroom
    | occupied hash key value =>
      have hheld : held (.occupied hash key value :: rest) = (hash, key, value) :: held rest := rfl
      rw [hheld, length_cons] at hroom
      obtain ⟨index, old, hindex, hold, hfree, hreach⟩ := exists_vacant hpaths hash (by omega)
      have hnew := held_occupy hash key value hold hfree
      obtain ⟨moved, hmoved, hpaths', hnone, hlength, hperm⟩ :=
        ih (fresh.set index (.occupied hash key value)) (hpaths.occupy hreach)
          (fun hmem => (mem_or_eq_of_mem_set hmem).elim hfresh nofun)
          (by rw [hnew.length_eq, length_cons, length_set]; omega)
      refine ⟨moved, ?_, hpaths', hnone, by rw [hlength, length_set], ?_⟩
      · simp only [rehashFrom, hindex]; exact hmoved
      · exact hperm.trans ((hnew.append_left _).trans perm_middle)

theorem held_replicate (n : Nat) : held (replicate n (.empty : Slot K V)) = [] := by
  simp [held, Slot.entry?]

theorem paths_empty (k : Nat) (hk : 3 ≤ k) : Paths (replicate (2 ^ k) (.empty : Slot K V)) := by
  refine ⟨⟨k, hk, length_replicate⟩, ?_⟩
  intro index hash key value hget
  have := eq_of_mem_replicate (mem_of_getElem? hget)
  cases this

/-- The same entries in fresh slots, and none of them deleted. -/
theorem rehash_spec (table : Table K V) {capacity : Nat} (hk : 3 ≤ k) (hcapacity : capacity = 2 ^ k)
    (hroom : (held table.slots).length < capacity) :
    ∃ moved, rehash table capacity = some ⟨moved, table.count, table.count⟩ ∧ Paths moved ∧
      Slot.deleted ∉ moved ∧ moved.length = capacity ∧ (held moved).Perm (held table.slots) := by
  subst hcapacity
  obtain ⟨moved, hmoved, hpaths, hnone, hlength, hperm⟩ :=
    rehashFrom_spec table.slots (replicate (2 ^ k) .empty) (paths_empty k hk)
      (fun hmem => absurd (eq_of_mem_replicate hmem) nofun)
      (by rw [held_replicate, length_replicate]; exact hroom)
  rw [held_replicate, append_nil] at hperm
  rw [length_replicate] at hlength
  refine ⟨moved, ?_, hpaths, hnone, hlength, hperm⟩
  unfold rehash emptyTable
  rw [hmoved]; rfl

end

/-! ## What every operation keeps -/

/-- Equality is an equivalence, and equal keys have equal hashes. -/
structure Lawful (K : Type) [Equal K] [Hash K] : Prop where
  refl : ∀ a : K, equals a a = true
  symm : ∀ {a b : K}, equals a b = true → equals b a = true
  trans : ∀ {a b c : K}, equals a b = true → equals b c = true → equals a c = true
  hash_eq : ∀ {a b : K}, equals a b = true → hash a = hash b

structure Sound {K V : Type} [Equal K] [Hash K] (table : Table K V) : Prop where
  paths : Paths table.slots
  room : Slot.empty ∈ table.slots
  count : table.count = (held table.slots).length
  used : table.used = table.slots.countP Slot.isUsed
  hashed : ∀ entry ∈ held table.slots, entry.1 = hash entry.2.1
  distinct : (held table.slots).Pairwise fun a b => equals a.2.1 b.2.1 = false

section
variable {K V : Type} {slots : List (Slot K V)}

/-- A written slot is in use; so is one more of them if it was empty. -/
theorem used_set {index : Nat} {old : Slot K V} (new : Slot K V) (h : slots[index]? = some old)
    (hnew : new.isUsed = true) :
    (slots.set index new).countP Slot.isUsed =
      slots.countP Slot.isUsed + (if old.isUsed then 0 else 1) := by
  obtain ⟨hindex, hold⟩ := List.getElem?_eq_some_iff.mp h
  rw [countP_set hindex, hold, if_pos hnew]
  cases hused : old.isUsed with
  | false => rfl
  | true =>
    have hpos : 0 < slots.countP Slot.isUsed :=
      countP_pos_iff.mpr ⟨old, mem_of_getElem? h, hused⟩
    simp only [if_true]; omega

theorem empty_mem_iff : Slot.empty ∈ slots ↔ slots.countP Slot.isUsed < slots.length := by
  have hempty : ∀ slot : Slot K V, slot.isUsed = false → slot = .empty := by
    intro slot hslot
    cases slot with
    | empty => rfl
    | deleted => cases hslot
    | occupied => cases hslot
  constructor
  · intro hmem
    refine lt_of_le_of_ne countP_le_length fun hall => ?_
    cases countP_eq_length.mp hall _ hmem
  · intro hlt
    by_contra hnone
    refine absurd (countP_eq_length.mpr fun slot hslot => ?_) (ne_of_lt hlt)
    by_contra hslot'
    rw [Bool.not_eq_true] at hslot'; exact hnone (hempty slot hslot' ▸ hslot)

theorem held_le_used (slots : List (Slot K V)) : (held slots).length ≤ slots.countP Slot.isUsed := by
  rw [held, length_filterMap_eq_countP]
  apply countP_mono_left
  intro slot _ hslot
  cases slot with
  | empty => cases hslot
  | deleted => rfl
  | occupied => rfl

theorem used_eq_held (h : Slot.deleted ∉ slots) :
    slots.countP Slot.isUsed = (held slots).length := by
  rw [held, length_filterMap_eq_countP]
  apply countP_congr
  intro slot hslot
  cases slot with
  | empty => exact ⟨nofun, nofun⟩
  | deleted => exact absurd hslot h
  | occupied => exact ⟨fun _ => rfl, fun _ => rfl⟩

theorem mem_held {hash : Int} {key : K} {value : V} :
    (hash, key, value) ∈ held slots ↔ ∃ index : Nat, slots[index]? = some (.occupied hash key value) := by
  rw [held, mem_filterMap]
  constructor
  · rintro ⟨slot, hslot, hentry⟩
    obtain ⟨index, hindex⟩ := mem_iff_getElem?.mp hslot
    cases slot with
    | empty => cases hentry
    | deleted => cases hentry
    | occupied h k v =>
      cases hentry
      exact ⟨index, hindex⟩
  · rintro ⟨index, hindex⟩
    exact ⟨_, mem_of_getElem? hindex, rfl⟩

end

section
variable {K V : Type} [Equal K] [Hash K] {table : Table K V} {key : K} {value : V}

/-- No entry has a key equal to this one. -/
def Lacks (table : Table K V) (key : K) : Prop :=
  ∀ entry ∈ held table.slots, equals entry.2.1 key = false

/-- An entry has a key equal to this one; `rest` are the other entries. -/
def Finds (table : Table K V) (key stored : K) (value : V) (rest : List (Int × K × V)) : Prop :=
  equals stored key = true ∧ (held table.slots).Perm ((hash key, stored, value) :: rest)

theorem Lawful.differ (law : Lawful K) {a b : K} (h : equals a b = false) : equals b a = false := by
  by_contra hba
  rw [Bool.not_eq_false] at hba
  rw [law.symm hba] at h
  cases h

theorem sound_empty (k : Nat) (hk : 3 ≤ k) : Sound (emptyTable (2 ^ k) : Table K V) where
  paths := paths_empty k hk
  room := by
    have : 0 < 2 ^ k := Nat.two_pow_pos k
    exact mem_replicate.mpr ⟨by omega, rfl⟩
  count := by
    rw [emptyTable, held_replicate]; rfl
  used := by
    rw [emptyTable, countP_replicate]; rfl
  hashed := by
    rw [emptyTable, held_replicate]; exact nofun
  distinct := by
    rw [emptyTable, held_replicate]; exact List.Pairwise.nil

/-- No slot has the key, whatever the hash stored with it. -/
theorem Sound.lacks (h : Sound table) (law : Lawful K)
    (hnone : ∀ (other : Nat) (stored : K) (value : V),
      table.slots[other]? = some (.occupied (hash key) stored value) → equals stored key = false) :
    Lacks table key := by
  rintro ⟨storedHash, stored, old⟩ hmem
  by_contra hequal
  rw [Bool.not_eq_false] at hequal
  obtain ⟨index, hindex⟩ := mem_held.mp hmem
  have hsame : storedHash = hash key := (h.hashed _ hmem).trans (law.hash_eq hequal)
  rw [hsame] at hindex
  rw [hnone index stored old hindex] at hequal; exact Bool.false_ne_true hequal

variable {index : Nat} {stored : K}

/-- A new entry at a free slot of its path, while a slot stays empty. -/
theorem Sound.occupy (h : Sound table) (law : Lawful K) (value : V) {slot : Slot K V}
    (hget : table.slots[index]? = some slot) (hfree : slot.entry? = none)
    (hreach : Reachable table.slots (· = .empty) (home (hash key) table.slots) index)
    (hlacks : Lacks table key) (hroom : table.slots.countP Slot.isUsed + 1 < table.slots.length) :
    ∃ table', occupy table index (hash key) key value = some table' ∧ Sound table' ∧
      (held table'.slots).Perm ((hash key, key, value) :: held table.slots) := by
  have hperm := held_occupy (hash key) key value hget hfree
  have hused := used_set (.occupied (hash key) key value) hget rfl
  have hextra : ∃ extra : Int, Collections.occupy table index (hash key) key value =
      some ⟨table.slots.set index (.occupied (hash key) key value), table.count + 1,
        table.used + extra⟩ ∧ extra = if slot.isUsed then 0 else 1 := by
    unfold Collections.occupy
    rw [hget]
    cases slot with
    | empty => exact ⟨1, rfl, rfl⟩
    | deleted => exact ⟨0, rfl, rfl⟩
    | occupied => cases hfree
  obtain ⟨extra, hoccupy, hextra⟩ := hextra
  refine ⟨_, hoccupy, ?_, hperm⟩
  constructor
  case paths => exact h.paths.occupy hreach
  case room =>
    rw [empty_mem_iff, hused, length_set]
    split <;> omega
  case count =>
    rw [hperm.length_eq, h.count]; rfl
  case used =>
    rw [hused, hextra, h.used]
    split <;> push_cast <;> rfl
  case hashed =>
    intro entry hentry
    rcases mem_cons.mp (hperm.mem_iff.mp hentry) with rfl | hold
    · rfl
    · exact h.hashed entry hold
  case distinct =>
    refine List.Pairwise.perm (pairwise_cons.mpr ⟨?_, h.distinct⟩) hperm.symm
      (fun hab => law.differ hab)
    exact fun entry hentry => law.differ (hlacks entry hentry)

theorem Sound.rehash (h : Sound table) (law : Lawful K) {k : Nat} (hk : 3 ≤ k) {capacity : Nat}
    (hcapacity : capacity = 2 ^ k) (hroom : (held table.slots).length + 1 < capacity) :
    ∃ table', rehash table capacity = some table' ∧ Sound table' ∧
      (held table'.slots).Perm (held table.slots) ∧
      table'.slots.countP Slot.isUsed + 1 < table'.slots.length := by
  obtain ⟨moved, hmoved, hpaths, hnone, hlength, hperm⟩ :=
    rehash_spec table hk hcapacity (by omega)
  have hused := used_eq_held hnone
  rw [hperm.length_eq] at hused
  refine ⟨_, hmoved, ?_, hperm, by rw [hused, hlength]; exact hroom⟩
  constructor
  case paths => exact hpaths
  case room =>
    rw [empty_mem_iff, hused, hlength]; omega
  case count =>
    rw [hperm.length_eq, h.count]
  case used =>
    rw [hused, h.count]
  case hashed => exact fun entry hentry => h.hashed entry (hperm.mem_iff.mp hentry)
  case distinct => exact h.distinct.perm hperm.symm (fun hab => law.differ hab)

omit [Hash K] in
theorem Lacks.of_perm {table' : Table K V} (h : Lacks table key)
    (hperm : (held table'.slots).Perm (held table.slots)) : Lacks table' key :=
  fun entry hentry => h entry (hperm.mem_iff.mp hentry)

theorem Lacks.not_finds {rest : List (Int × K × V)} (h : Lacks table key)
    (hfinds : Finds table key stored value rest) : False := by
  have hequal := hfinds.1
  rw [h (hash key, stored, value) (hfinds.2.mem_iff.mpr (.head _))] at hequal
  exact Bool.false_ne_true hequal

theorem Sound.locate (h : Sound table) (law : Lawful K) (key : K) :
    ∃ found, locate table (hash key) key = some found ∧
      (found.2 = true ∧ (∃ stored value, equals stored key = true ∧
          table.slots[found.1]? = some (.occupied (hash key) stored value)) ∨
        found.2 = false ∧ Lacks table key ∧ ∃ slot, table.slots[found.1]? = some slot ∧
          slot.entry? = none ∧
          Reachable table.slots (· = .empty) (home (hash key) table.slots) found.1) := by
  obtain ⟨found, hfound, hlocated⟩ := locate_spec (hash key) key h.paths h.room
  refine ⟨found, hfound, ?_⟩
  cases hlocated with
  | present hget hequal => exact .inl ⟨rfl, _, _, hequal, hget⟩
  | absent hget hfree hreach hnone =>
    exact .inr ⟨rfl, h.lacks law hnone, _, hget, hfree, hreach⟩

theorem finds_of_slot (hequal : equals stored key = true)
    (hget : table.slots[index]? = some (.occupied (hash key) stored value)) :
    Finds table key stored value (held (table.slots.set index .deleted)) :=
  ⟨hequal, held_taken hget⟩

/-! ## The operations -/

theorem Sound.get (h : Sound table) (law : Lawful K) (key : K) :
    (get table key = some none ∧ Lacks table key) ∨
      ∃ stored value rest, get table key = some (some value) ∧ Finds table key stored value rest := by
  obtain ⟨found, hfound, ⟨hpresent, stored, value, hequal, hget⟩ | ⟨habsent, hlacks, -⟩⟩ :=
    h.locate law key
  · right
    refine ⟨stored, value, _, ?_, finds_of_slot hequal hget⟩
    simp [Collections.get, hfound, hpresent, hget]
  · left
    exact ⟨by simp [Collections.get, hfound, habsent], hlacks⟩

theorem Sound.contains (h : Sound table) (law : Lawful K) (key : K) :
    (contains table key = some false ∧ Lacks table key) ∨
      ∃ stored value rest, contains table key = some true ∧ Finds table key stored value rest := by
  obtain ⟨found, hfound, ⟨hpresent, stored, value, hequal, hget⟩ | ⟨habsent, hlacks, -⟩⟩ :=
    h.locate law key
  · right
    refine ⟨stored, value, _, ?_, finds_of_slot hequal hget⟩
    simp [Collections.contains, hfound, hpresent]
  · left
    exact ⟨by simp [Collections.contains, hfound, habsent], hlacks⟩

/-- A slot whose entry is taken out or gets another value. -/
theorem Sound.write (h : Sound table) (law : Lawful K) {new : Slot K V} {count : Int}
    (hpaths : Paths (table.slots.set index new))
    (hget : table.slots[index]? = some (.occupied (hash key) stored value))
    (hused : new.isUsed = true) (shown : List (Int × K × V))
    (hshown : ∀ entry ∈ shown, entry.1 = hash stored ∧ entry.2.1 = stored) (hone : shown.length ≤ 1)
    (hcount : count = table.count - 1 + shown.length)
    (hperm : (held (table.slots.set index new)).Perm
      (shown ++ held (table.slots.set index .deleted))) :
    Sound (⟨table.slots.set index new, count, table.used⟩ : Table K V) := by
  have hbeside : (held table.slots).Perm
      ((hash key, stored, value) :: held (table.slots.set index .deleted)) := held_taken hget
  have hcountP := used_set new hget hused
  simp only [Slot.isUsed, if_true, Nat.add_zero] at hcountP
  have hold := h.distinct.perm hbeside (fun hab => law.differ hab)
  rw [pairwise_cons] at hold
  constructor
  case paths => exact hpaths
  case room =>
    rw [empty_mem_iff, hcountP, length_set]; exact empty_mem_iff.mp h.room
  case count =>
    rw [hcount, h.count, hperm.length_eq, hbeside.length_eq, length_append, length_cons]
    push_cast
    omega
  case used =>
    rw [hcountP, h.used]
  case hashed =>
    intro entry hentry
    rcases mem_append.mp (hperm.mem_iff.mp hentry) with hnew | hrest
    · obtain ⟨hhash, hkey⟩ := hshown entry hnew
      rw [hhash, hkey]
    · exact h.hashed entry (hbeside.mem_iff.mpr (.tail _ hrest))
  case distinct =>
    refine List.Pairwise.perm (pairwise_append.mpr ⟨?_, hold.2, ?_⟩) hperm.symm
      (fun hab => law.differ hab)
    · match shown, hone with
      | [], _ => exact List.Pairwise.nil
      | [entry], _ => exact pairwise_singleton _ _
    · intro entry hentry other hother
      rw [(hshown entry hentry).2]; exact hold.1 other hother

theorem Sound.insertAbsent (h : Sound table) (law : Lawful K) (value : V) {slot : Slot K V}
    (hlacks : Lacks table key) (hget : table.slots[index]? = some slot) (hfree : slot.entry? = none)
    (hreach : Reachable table.slots (· = .empty) (home (hash key) table.slots) index) :
    ∃ table', insertAbsent table index (hash key) key value = some (none, table') ∧ Sound table' ∧
      (held table'.slots).Perm ((hash key, key, value) :: held table.slots) := by
  obtain ⟨k, hk, hsize⟩ := h.paths.capacity
  have height : 2 ^ 3 ≤ 2 ^ k := Nat.pow_le_pow_right (by omega) hk
  have hcount := h.count
  have hused := h.used
  have hle := held_le_used table.slots
  have hlt := empty_mem_iff.mp h.room
  unfold Collections.insertAbsent
  by_cases hfull : table.used ≥ (table.slots.length : Int) - (table.slots.length / 4 : Nat)
  · have hcapacity : ∃ k', 3 ≤ k' ∧
        (if table.count ≥ (table.slots.length / 2 : Nat) then table.slots.length * 2
          else table.slots.length) = 2 ^ k' ∧ (held table.slots).length + 1 < 2 ^ k' := by
      split
      · exact ⟨k + 1, by omega, by rw [hsize, Nat.pow_succ], by omega⟩
      · exact ⟨k, hk, hsize, by omega⟩
    obtain ⟨k', hk', hcapacity, hroom⟩ := hcapacity
    obtain ⟨moved, hmoved, hsound, hperm, hfits⟩ :=
      h.rehash law hk' hcapacity (by rw [hcapacity]; exact hroom)
    have hlacks' := hlacks.of_perm hperm
    obtain ⟨found, hfound, ⟨-, stored, old, hequal, hslot⟩ | ⟨-, -, slot', hslot, hfree', hreach'⟩⟩ :=
      hsound.locate law key
    · exact (hlacks'.not_finds (finds_of_slot hequal hslot)).elim
    · obtain ⟨table', hoccupy, hsound', hperm'⟩ :=
        hsound.occupy law value hslot hfree' hreach' hlacks' hfits
      refine ⟨table', ?_, hsound', hperm'.trans (hperm.cons _)⟩
      simp only [if_pos hfull, hmoved, bind_eq_bind, bind_some, hfound, hoccupy]
  · obtain ⟨table', hoccupy, hsound, hperm⟩ :=
      h.occupy law value hget hfree hreach hlacks (by omega)
    refine ⟨table', ?_, hsound, hperm⟩
    simp only [if_neg hfull, hoccupy, bind_eq_bind, bind_some]

theorem Sound.insert (h : Sound table) (law : Lawful K) (key : K) (value : V) :
    (∃ table', insert table key value = some (none, table') ∧ Sound table' ∧ Lacks table key ∧
        (held table'.slots).Perm ((hash key, key, value) :: held table.slots)) ∨
      ∃ table' stored old rest, insert table key value = some (some old, table') ∧
        Sound table' ∧ Finds table key stored old rest ∧ Finds table' key stored value rest := by
  obtain ⟨found, hfound, ⟨hpresent, stored, old, hequal, hget⟩ |
    ⟨habsent, hlacks, slot, hget, hfree, hreach⟩⟩ := h.locate law key
  · right
    have hbeside := held_replaced hget value
    refine ⟨{ table with slots := table.slots.set found.1 (.occupied (hash key) stored value) },
      stored, old, held (table.slots.set found.1 .deleted), ?_, ?_, finds_of_slot hequal hget,
      hequal, hbeside⟩
    · simp [Collections.insert, hfound, hpresent, hget]
    · refine h.write law (h.paths.occupy (h.paths.placed hget)) hget rfl
        [(hash key, stored, value)] ?_ le_rfl (by simp) hbeside
      rintro entry hentry
      rw [mem_singleton] at hentry
      subst hentry; exact ⟨(law.hash_eq hequal).symm, rfl⟩
  · left
    obtain ⟨table', hinsert, hsound, hperm⟩ :=
      h.insertAbsent law value hlacks hget hfree hreach
    refine ⟨table', ?_, hsound, hlacks, hperm⟩
    simp [Collections.insert, hfound, habsent, hinsert]

theorem Sound.remove (h : Sound table) (law : Lawful K) (key : K) :
    (remove table key = some (none, table) ∧ Lacks table key) ∨
      ∃ table' stored old, remove table key = some (some old, table') ∧ Sound table' ∧
        Finds table key stored old (held table'.slots) := by
  obtain ⟨found, hfound, ⟨hpresent, stored, old, hequal, hget⟩ | ⟨habsent, hlacks, -⟩⟩ :=
    h.locate law key
  · right
    refine ⟨⟨table.slots.set found.1 .deleted, table.count - 1, table.used⟩, stored, old, ?_, ?_,
      finds_of_slot hequal hget⟩
    · simp [Collections.remove, hfound, hpresent, hget]
    · exact h.write law (h.paths.delete found.1) hget rfl [] nofun (by simp) (by simp)
        (List.Perm.refl _)
  · left
    exact ⟨by simp [Collections.remove, hfound, habsent], hlacks⟩

end

end Loom.Collections

import Mathlib.Data.Finmap
import Loom.Collections.Map

/-
  Runs of the hash map against a finite map.

  The finite map has a class of equal keys for each entry and tells the stored key
  with the value. A run is any sequence of operations on one map; the cell that
  holds the table is its state.

  Correspondence (std/map/map.loom ↔ Lean):
    the calls of a program ↔ `Operation`, `Table.apply`, `Table.run`
    what they return ↔ `Answer`
  `Answers` and `AnswersAll` are the finite map's side, not translated.
-/

namespace Loom.Collections

open Finmap Multiset

/-! ## The calls of a program -/

inductive Operation (K V : Type) where
  | insert (key : K) (value : V)
  | get (key : K)
  | contains (key : K)
  | remove (key : K)
  | length
  | isEmpty
  | clear
  | entries
  | keys

inductive Answer (K V : Type) where
  | value (value : Option V)
  | truth (value : Bool)
  | size (value : Int)
  | done
  | entries (values : List (K × V))
  | keys (values : List K)

section
variable {K V : Type} [Equal K] [Hash K]

def Table.apply (table : Table K V) : Operation K V → Option (Answer K V × Table K V)
  | .insert key value => do
    let result ← Collections.insert table key value
    some (.value result.1, result.2)
  | .get key => do
    let result ← Collections.get table key
    some (.value result, table)
  | .contains key => do
    let result ← Collections.contains table key
    some (.truth result, table)
  | .remove key => do
    let result ← Collections.remove table key
    some (.value result.1, result.2)
  | .length => some (.size (Collections.length table), table)
  | .isEmpty => some (.truth (Collections.isEmpty table), table)
  | .clear => some (.done, Collections.clear table)
  | .entries => some (.entries (Collections.entries table), table)
  | .keys => some (.keys (Collections.keys table), table)

def Table.run (table : Table K V) : List (Operation K V) → Option (List (Answer K V) × Table K V)
  | [] => some ([], table)
  | operation :: rest => do
    let first ← table.apply operation
    let others ← Table.run first.2 rest
    some (first.1 :: others.1, others.2)

end

/-! ## Finite maps -/

section
variable {K V : Type} [Equal K] [Hash K]

/-- Keys that count as one. -/
def Lawful.classes (law : Lawful K) : Setoid K where
  r a b := equals a b = true
  iseqv := ⟨law.refl, fun h => law.symm h, fun h h' => law.trans h h'⟩

instance (law : Lawful K) : DecidableEq (Quotient law.classes) :=
  @Quotient.decidableEq _ law.classes fun a b => inferInstanceAs (Decidable (equals a b = true))

/-- A finite map: for a class of keys the stored key and its value. -/
abbrev FiniteMap (law : Lawful K) (V : Type) := Finmap fun _ : Quotient law.classes => K × V

variable {law : Lawful K}

def Lawful.key (law : Lawful K) (key : K) : Quotient law.classes := Quotient.mk law.classes key

def Lawful.tagged (law : Lawful K) (entry : K × V) : Σ _ : Quotient law.classes, K × V :=
  ⟨law.key entry.1, entry⟩

/-- What an operation answers, and the map after it. An entry that is replaced
keeps its key; the order of an iteration is open. -/
def Answers (map : FiniteMap law V) : Operation K V → Answer K V → FiniteMap law V → Prop
  | .insert key value, answer, after =>
    answer = .value ((map.lookup (law.key key)).map Prod.snd) ∧
    after = map.insert (law.key key) (((map.lookup (law.key key)).map Prod.fst).getD key, value)
  | .get key, answer, after =>
    answer = .value ((map.lookup (law.key key)).map Prod.snd) ∧ after = map
  | .contains key, answer, after =>
    answer = .truth (decide (law.key key ∈ map)) ∧ after = map
  | .remove key, answer, after =>
    answer = .value ((map.lookup (law.key key)).map Prod.snd) ∧ after = map.erase (law.key key)
  | .length, answer, after => answer = .size map.keys.card ∧ after = map
  | .isEmpty, answer, after => answer = .truth (decide (map.keys.card = 0)) ∧ after = map
  | .clear, answer, after => answer = .done ∧ after = ∅
  | .entries, answer, after =>
    (∃ values, answer = .entries values ∧ map.entries = values.map law.tagged) ∧ after = map
  | .keys, answer, after =>
    (∃ values, answer = .keys values ∧
      map.entries.map (fun entry => entry.2.1) = (values : Multiset K)) ∧ after = map

inductive AnswersAll : FiniteMap law V → List (Operation K V) → List (Answer K V) →
    FiniteMap law V → Prop
  | done (map) : AnswersAll map [] [] map
  | step {map between after operation answer operations answers}
      (first : Answers map operation answer between)
      (rest : AnswersAll between operations answers after) :
      AnswersAll map (operation :: operations) (answer :: answers) after

/-- The table holds the entries of the map. -/
def Represents (table : Table K V) (map : FiniteMap law V) : Prop :=
  map.entries = (held table.slots).map fun entry => law.tagged entry.2

end

/-! ## What finite maps tell -/

section
variable {α : Type} {β : α → Type} [DecidableEq α] {map : Finmap β} {a : α} {b : β a}
  {rest : Multiset (Sigma β)}

theorem lookup_of_entries (h : map.entries = ⟨a, b⟩ ::ₘ rest) : map.lookup a = some b := by
  induction map using induction_on with
  | H list =>
    rw [lookup_toFinmap, ← Option.mem_def, AList.mem_lookup_iff]
    have hmem : (⟨a, b⟩ : Sigma β) ∈ (AList.toFinmap list).entries := by
      rw [h]; exact mem_cons_self _ _
    exact mem_coe.mp hmem

theorem erase_of_entries (h : map.entries = ⟨a, b⟩ ::ₘ rest) : (map.erase a).entries = rest := by
  induction map using induction_on with
  | H list =>
    induction rest using Quotient.inductionOn with
    | h others =>
      have hperm : list.entries.Perm (⟨a, b⟩ :: others) := coe_eq_coe.mp h
      have herased := hperm.kerase (a := a) list.nodupKeys
      rw [List.kerase_cons_eq (s := ⟨a, b⟩) rfl] at herased
      exact coe_eq_coe.mpr herased

theorem insert_of_entries (h : map.entries = ⟨a, b⟩ ::ₘ rest) (new : β a) :
    (map.insert a new).entries = ⟨a, new⟩ ::ₘ rest := by
  have herase : map.insert a new = (map.erase a).insert a new := by
    apply ext_lookup
    intro x
    by_cases hx : x = a
    · subst hx
      rw [lookup_insert, lookup_insert]
    · rw [lookup_insert_of_ne _ hx, lookup_insert_of_ne _ hx,
        lookup_erase_ne hx]
  rw [herase, entries_insert_of_notMem notMem_erase_self, erase_of_entries h]

end

section
variable {K V : Type} [Equal K] [Hash K] {law : Lawful K} {table table' : Table K V}
  {map : FiniteMap law V} {key stored : K} {value : V} {rest : List (Int × K × V)}

theorem key_eq_iff {a b : K} : law.key a = law.key b ↔ equals a b = true := Quotient.eq

section
variable (h : Represents table map)
include h

theorem Represents.card : map.keys.card = (held table.slots).length := by
  show map.entries.keys.card = _
  rw [h, Multiset.keys]; simp

theorem Represents.lacks (hlacks : Lacks table key) : law.key key ∉ map := by
  intro hmem
  rw [mem_def, h, Multiset.keys, Multiset.mem_map] at hmem
  obtain ⟨tagged, htagged, hkey⟩ := hmem
  obtain ⟨entry, hentry, rfl⟩ := List.mem_map.mp (mem_coe.mp htagged)
  have hequal := key_eq_iff.mp hkey
  rw [hlacks entry hentry] at hequal; exact Bool.false_ne_true hequal

theorem Represents.finds (hfinds : Finds table key stored value rest) :
    map.entries = ⟨law.key key, (stored, value)⟩ ::ₘ
      (rest.map fun entry => law.tagged entry.2 : Multiset _) := by
  have htag : law.tagged (stored, value) = ⟨law.key key, (stored, value)⟩ := by
    unfold Lawful.tagged
    rw [key_eq_iff.mpr hfinds.1]
  rw [h, ← htag]
  exact coe_eq_coe.mpr (hfinds.2.map fun entry => law.tagged entry.2)

theorem Represents.replace {new : V} (hfinds : Finds table key stored value rest)
    (hnew : Finds table' key stored new rest) :
    Represents table' (map.insert (law.key key) (stored, new)) := by
  unfold Represents
  have htag : law.tagged (stored, new) = ⟨law.key key, (stored, new)⟩ := by
    unfold Lawful.tagged
    rw [key_eq_iff.mpr hnew.1]
  rw [insert_of_entries (h.finds hfinds), ← htag]
  symm
  exact coe_eq_coe.mpr (hnew.2.map fun entry : Int × K × V => law.tagged entry.2)

theorem Represents.add (hlacks : Lacks table key)
    (hnew : (held table'.slots).Perm ((hash key, key, value) :: held table.slots)) :
    Represents table' (map.insert (law.key key) (key, value)) := by
  unfold Represents
  rw [entries_insert_of_notMem (h.lacks hlacks), h]
  exact coe_eq_coe.mpr (hnew.map fun entry : Int × K × V => law.tagged entry.2).symm

theorem Represents.erase (hfinds : Finds table key stored value (held table'.slots)) :
    Represents table' (map.erase (law.key key)) :=
  erase_of_entries (h.finds hfinds)

end

theorem represents_empty : Represents (new : Table K V) (∅ : FiniteMap law V) := by
  unfold Represents new emptyTable; rfl

omit [Equal K] [Hash K] in
theorem entries_eq : entries table = (held table.slots).map Prod.snd := by
  unfold entries held
  rw [List.map_filterMap]
  congr 1
  funext slot
  cases slot <;> rfl

omit [Equal K] [Hash K] in
theorem keys_eq : keys table = (held table.slots).map fun entry => entry.2.1 := by
  unfold keys held
  rw [List.map_filterMap]
  congr 1
  funext slot
  cases slot <;> rfl

theorem apply_refines (law : Lawful K) {map : FiniteMap law V} (hsound : Sound table)
    (hrep : Represents table map) (operation : Operation K V) :
    ∃ answer table' map', table.apply operation = some (answer, table') ∧
      Answers map operation answer map' ∧ Represents table' map' ∧ Sound table' := by
  cases operation with
  | insert key value =>
    rcases hsound.insert law key value with
      ⟨table', hrun, hsound', hlacks, hperm⟩ | ⟨table', stored, old, rest, hrun, hsound', hold, hnew⟩
    · refine ⟨.value none, table', _, by simp [Table.apply, hrun], ⟨?_, rfl⟩, ?_, hsound'⟩
      · rw [lookup_eq_none.mpr (hrep.lacks hlacks)]; rfl
      · rw [lookup_eq_none.mpr (hrep.lacks hlacks)]
        exact hrep.add hlacks hperm
    · have hlookup := lookup_of_entries (hrep.finds hold)
      refine ⟨.value (some old), table', _, by simp [Table.apply, hrun], ⟨?_, rfl⟩, ?_, hsound'⟩
      · rw [hlookup]; rfl
      · rw [hlookup]; exact hrep.replace hold hnew
  | get key =>
    rcases hsound.get law key with ⟨hrun, hlacks⟩ | ⟨stored, value, rest, hrun, hfinds⟩
    · refine ⟨.value none, table, map, by simp [Table.apply, hrun], ⟨?_, rfl⟩, hrep, hsound⟩
      rw [lookup_eq_none.mpr (hrep.lacks hlacks)]; rfl
    · refine ⟨.value (some value), table, map, by simp [Table.apply, hrun], ⟨?_, rfl⟩, hrep, hsound⟩
      rw [lookup_of_entries (hrep.finds hfinds)]; rfl
  | contains key =>
    rcases hsound.contains law key with ⟨hrun, hlacks⟩ | ⟨stored, value, rest, hrun, hfinds⟩
    · refine ⟨.truth false, table, map, by simp [Table.apply, hrun], ⟨?_, rfl⟩, hrep, hsound⟩
      rw [decide_eq_false (hrep.lacks hlacks)]
    · refine ⟨.truth true, table, map, by simp [Table.apply, hrun], ⟨?_, rfl⟩, hrep, hsound⟩
      rw [decide_eq_true (mem_of_lookup_eq_some (lookup_of_entries (hrep.finds hfinds)))]
  | remove key =>
    rcases hsound.remove law key with ⟨hrun, hlacks⟩ | ⟨table', stored, old, hrun, hsound', hfinds⟩
    · have hmem := hrep.lacks hlacks
      refine ⟨.value none, table, map, by simp [Table.apply, hrun], ⟨?_, ?_⟩, hrep, hsound⟩
      · rw [lookup_eq_none.mpr hmem]; rfl
      · apply ext_lookup
        intro x
        by_cases hx : x = law.key key
        · rw [hx, lookup_erase, lookup_eq_none.mpr hmem]
        · rw [lookup_erase_ne hx]
    · refine ⟨.value (some old), table', _, by simp [Table.apply, hrun], ⟨?_, rfl⟩,
        hrep.erase hfinds, hsound'⟩
      rw [lookup_of_entries (hrep.finds hfinds)]; rfl
  | length =>
    refine ⟨_, table, map, rfl, ⟨?_, rfl⟩, hrep, hsound⟩
    rw [hrep.card, ← hsound.count]; rfl
  | isEmpty =>
    refine ⟨_, table, map, rfl, ⟨?_, rfl⟩, hrep, hsound⟩
    rw [hrep.card]
    unfold Collections.isEmpty Collections.length
    rw [hsound.count]
    cases held table.slots <;> rfl
  | clear =>
    exact ⟨_, _, ∅, rfl, ⟨rfl, rfl⟩, represents_empty, sound_empty 3 le_rfl⟩
  | entries =>
    refine ⟨_, table, map, rfl, ⟨⟨_, rfl, ?_⟩, rfl⟩, hrep, hsound⟩
    rw [hrep, entries_eq, List.map_map]; rfl
  | keys =>
    refine ⟨_, table, map, rfl, ⟨⟨_, rfl, ?_⟩, rfl⟩, hrep, hsound⟩
    rw [hrep, keys_eq, map_coe, List.map_map]; rfl

theorem run_refines (law : Lawful K) (operations : List (Operation K V)) :
    ∀ {table : Table K V} {map : FiniteMap law V}, Sound table → Represents table map →
    ∃ answers table' map', table.run operations = some (answers, table') ∧
      AnswersAll map operations answers map' ∧ Represents table' map' ∧ Sound table' := by
  induction operations with
  | nil =>
    intro table map hsound hrep
    exact ⟨[], table, map, rfl, .done map, hrep, hsound⟩
  | cons operation rest ih =>
    intro table map hsound hrep
    obtain ⟨answer, between, mapBetween, hfirst, hanswers, hrep', hsound'⟩ :=
      apply_refines law hsound hrep operation
    obtain ⟨answers, table', map', hrest, hall, hrep'', hsound''⟩ := ih hsound' hrep'
    refine ⟨answer :: answers, table', map', ?_, .step hanswers hall, hrep'', hsound''⟩
    simp [Table.run, hfirst, hrest]

/-- Runs of the hash map are runs of a finite map. Whatever was called before, the
number of slots is a power of two, the counts are exact, a slot is empty, every
search ends, and no two entries have equal keys. -/
theorem map_refines (law : Lawful K) (operations : List (Operation K V)) :
    ∃ answers table map, (new : Table K V).run operations = some (answers, table) ∧
      AnswersAll (∅ : FiniteMap law V) operations answers map ∧ Represents table map ∧
      (∃ k, table.slots.length = 2 ^ k) ∧
      table.count = (entries table).length ∧
      table.used = (table.slots.filter fun slot => slot.isUsed).length ∧
      Slot.empty ∈ table.slots ∧
      (∀ key : K, (locate table (hash key) key).isSome) ∧
      (entries table).Pairwise fun a b => equals a.1 b.1 = false := by
  obtain ⟨answers, table, map, hrun, hall, hrep, hsound⟩ :=
    run_refines law operations (sound_empty 3 le_rfl) represents_empty
  refine ⟨answers, table, map, hrun, hall, hrep, ?_, ?_, ?_, hsound.room, ?_, ?_⟩
  · obtain ⟨k, -, hsize⟩ := hsound.paths.capacity
    exact ⟨k, hsize⟩
  · rw [entries_eq, List.length_map]; exact hsound.count
  · rw [← List.countP_eq_length_filter]; exact hsound.used
  · intro key
    obtain ⟨found, hfound, -⟩ := hsound.locate law key
    rw [hfound]; rfl
  · rw [entries_eq, List.pairwise_map]; exact hsound.distinct

end

/-- Keys that all have one hash, a negative one. -/
structure Collision where
  id : Int

instance : Equal Collision := ⟨fun a b => a.id == b.id⟩

instance : Hash Collision := ⟨fun _ => -1⟩

theorem collision_lawful : Lawful Collision where
  refl a := beq_self_eq_true a.id
  symm h := beq_iff_eq.mpr (beq_iff_eq.mp h).symm
  trans h h' := beq_iff_eq.mpr ((beq_iff_eq.mp h).trans (beq_iff_eq.mp h'))
  hash_eq _ := rfl

theorem map_refines_collision :
    ∃ answers table map,
      (new : Table Collision String).run [.insert ⟨1⟩ "initial", .insert ⟨2⟩ "other", .remove ⟨1⟩,
        .insert ⟨2⟩ "replaced", .entries] = some (answers, table) ∧
      AnswersAll (∅ : FiniteMap collision_lawful String) [.insert ⟨1⟩ "initial",
        .insert ⟨2⟩ "other", .remove ⟨1⟩, .insert ⟨2⟩ "replaced", .entries] answers map ∧
      Slot.empty ∈ table.slots := by
  obtain ⟨answers, table, map, hrun, hall, -, -, -, -, hroom, -⟩ :=
    map_refines collision_lawful [.insert ⟨1⟩ "initial", .insert ⟨2⟩ "other", .remove ⟨1⟩,
      .insert ⟨2⟩ "replaced", .entries]
  exact ⟨answers, table, map, hrun, hall, hroom⟩

end Loom.Collections

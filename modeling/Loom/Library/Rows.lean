import Mathlib.Data.List.AList

/-
  Tables of rows with a primary key, and the statements that change all of them.

  A table is an association list without repeated keys. What a statement does is
  said by what is looked up afterwards, so the order of the rows does not matter.
-/

namespace Loom.Rows

open List

abbrev Table (κ α : Type*) := AList (fun _ : κ => α)

section
variable {κ α β : Type*} [DecidableEq κ]

/-- Every row gets a new value from its key and its value. -/
def edit (change : κ → α → α) (table : Table κ α) : Table κ α :=
  ⟨table.entries.map (fun row => ⟨row.1, change row.1 row.2⟩),
    List.NodupKeys.map₂ change table.entries table.nodupKeys⟩

theorem lookup_edit (change : κ → α → α) (table : Table κ α) (key : κ) :
    (edit change table).lookup key = (table.lookup key).map (change key) := dlookup_map₂ key

omit [DecidableEq κ] in
theorem mem_edit (change : κ → α → α) (table : Table κ α) (key : κ) :
    key ∈ edit change table ↔ key ∈ table := by
  have hkeys := map₂_keys change table.entries
  rw [AList.mem_keys, AList.mem_keys]
  exact Iff.of_eq (congrArg (key ∈ ·) hkeys)

def every (condition : κ → α → Bool) (table : Table κ α) : Bool :=
  table.entries.all (fun row => condition row.1 row.2)

theorem every_iff {condition : κ → α → Bool} {table : Table κ α} : every condition table = true ↔
      ∀ key value, table.lookup key = some value → condition key value = true := by
  rw [every, all_eq_true]
  constructor
  · intro h key value hrow; exact h ⟨key, value⟩ (AList.mem_lookup_iff.mp hrow)
  · intro h row hrow; exact h row.1 row.2 (AList.mem_lookup_iff.mpr hrow)

/-- The selected rows are added one after the other. A key that is used stops the statement. -/
def addRows (select : κ → α → Option β) : List (Sigma fun _ : κ => α) → Table κ β →
    Option (Table κ β)
  | [], table => some table
  | row :: rest, table =>
    match select row.1 row.2 with
    | none => addRows select rest table
    | some value =>
      if row.1 ∈ table then none else addRows select rest (table.insert row.1 value)

theorem addRows_dlookup {select : κ → α → Option β} {rows : List (Sigma fun _ : κ => α)}
    (hrows : rows.NodupKeys) {table : Table κ β}
    (hnew : ∀ key value, rows.dlookup key = some value → (select key value).isSome → key ∉ table) :
    ∃ added, addRows select rows table = some added ∧ ∀ key, added.lookup key =
        ((rows.dlookup key).bind (select key)).or (table.lookup key) := by
  induction rows generalizing table with
  | nil => exact ⟨table, rfl, fun key => rfl⟩
  | cons row rest ih =>
    obtain ⟨first, value⟩ := row
    obtain ⟨hfirst, hrest⟩ := nodupKeys_cons.mp hrows
    -- The rows that follow have other keys.
    have hother : ∀ key value', rest.dlookup key = some value' → key ≠ first := by
      intro key value' hkey hsame
      rw [hsame] at hkey
      have hmem : first ∈ rest.keys := dlookup_isSome.mp (by rw [hkey]; rfl)
      exact hfirst hmem
    have hhead : dlookup first (⟨first, value⟩ :: rest) = some value := dlookup_cons_eq _ _ _
    have htail : ∀ key, key ≠ first → dlookup key (⟨first, value⟩ :: rest) = rest.dlookup key :=
      fun key hkey => dlookup_cons_ne _ _ hkey
    have hnone : rest.dlookup first = none := by
      cases hcase : rest.dlookup first with
      | none => rfl
      | some value' => exact absurd rfl (hother first value' hcase)
    rw [addRows]
    cases hselect : select first value with
    | none =>
      obtain ⟨added, hadded, hlookup⟩ := @ih hrest table (by
        intro key value' hkey
        have hkey' := htail key (hother key value' hkey)
        rw [hkey] at hkey'
        exact hnew key value' hkey')
      refine ⟨added, hadded, ?_⟩
      intro key
      by_cases hkey : key = first
      · rw [hlookup, hkey, hnone]; simp [hselect]
      · rw [hlookup, htail key hkey]
    | some value' =>
      have hfree : first ∉ table := hnew first value hhead (by rw [hselect]; rfl)
      obtain ⟨added, hadded, hlookup⟩ := @ih hrest (table.insert first value') (by
        intro key other hkey hsome
        have hne := hother key other hkey
        have hkey' := htail key hne
        rw [hkey] at hkey'
        intro hmem
        obtain hsame | hmem := (AList.mem_insert table).mp hmem
        · exact hne hsame
        · exact hnew key other hkey' hsome hmem)
      refine ⟨added, ?_, ?_⟩
      · dsimp only
        rw [if_neg hfree, hadded]
      · intro key
        by_cases hkey : key = first
        · rw [hlookup, hkey, hnone]; simp [hselect]
        · rw [hlookup, htail key hkey, AList.lookup_insert_ne hkey]

theorem addRows_select {select : κ → α → Option β} {source : Table κ α} {table : Table κ β}
    (hnew : ∀ key value, source.lookup key = some value → (select key value).isSome → key ∉ table) :
    ∃ added, addRows select source.entries table = some added ∧ ∀ key, added.lookup key =
        ((source.lookup key).bind (select key)).or (table.lookup key) :=
  addRows_dlookup source.nodupKeys hnew

end

end Loom.Rows

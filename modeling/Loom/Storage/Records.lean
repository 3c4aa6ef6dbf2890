import Mathlib.Data.List.Nodup
import Mathlib.Data.List.Perm.Subperm
import Loom.Storage.Rows

/-
  Codecs for records, made from the fields of the record.

  A field is kept in the column with its name, or with the alias of it. Preparing a codec
  finds the position of every field once; rows are in the order of the columns.

  Correspondence (records.loom ↔ Lean), where names differ:
    its loop over the aliases ↔ `checkAliases`
    its loops over the fields ↔ `positionsFrom`, `columnId`, `columnPosition`
    its check of the columns ↔ `checkFields`
    the closures it makes ↔ `encodeRecord`, `decodeRecord`
    `describe[T]().types[0].kind` ↔ an argument of type `Kind`
  A record type is the list of its fields, and a record a value for each of them. A field
  that does not implement `ColumnValue` has no `column`. A position that is not found is
  `none` instead of -1. Tables are values here, so a snapshot is the table itself.
-/

namespace Loom.Storage

open List Results

/-! ## Positions -/

/-- `Kind` of `std.reflect` -/
inductive Kind where
  | opaqueType | noResult | int | bool | float | text | bytes | list | tuple | record | enum
  | refined | function | task | dynamic
  deriving DecidableEq

/-- The loop over the aliases, after those `earlier`. -/
def checkAliases (fields : List String) :
    List (String × String) → List (String × String) → Except Refusal Unit
  | _, [] => .ok ()
  | earlier, aliased :: rest =>
    if !fields.contains aliased.1 || aliased.2 = "" then reject .invalidSchema
    else if earlier.any fun previous => previous.1 = aliased.1 then reject .invalidSchema
    else checkAliases fields (earlier ++ [aliased]) rest

/-- The column id of a field: its first alias, or its name. -/
def columnId (aliases : List (String × String)) (field : String) : String :=
  match aliases.find? fun entry => entry.1 = field with
  | some entry => entry.2
  | none => field

/-- The loop over the columns, which does not stop at the first one. -/
def columnPosition (id : String) : Nat → Option Nat → List Column → Option Nat
  | _, position, [] => position
  | index, position, column :: rest =>
    columnPosition id (index + 1) (if column.id = id then some index else position) rest

/-- The loop over the fields. -/
def positionsFrom (table : Table) (aliases : List (String × String)) :
    List Nat → List String → Except Refusal (List Nat)
  | positions, [] => .ok positions
  | positions, field :: rest =>
    match columnPosition (columnId aliases field) 0 none table.columns with
    | none => reject .invalidSchema
    | some position =>
      if position ∈ positions then reject .invalidSchema
      else positionsFrom table aliases (positions ++ [position]) rest

def recordPositions (table : Table) (fields : List String) (aliases : List (String × String)) :
    Except Refusal (List Nat) :=
  if fields.length ≠ table.columns.length then reject .invalidSchema
  else do
    checkAliases fields [] aliases
    positionsFrom table aliases [] fields

/-! ## Records -/

structure Field where
  name : String
  type : Type
  /-- how the type implements `ColumnValue`, if it does -/
  column : Option (ColumnValue type)

/-- A value for each field. -/
def Record : List Field → Type
  | [] => Unit
  | field :: rest => field.type × Record rest

def encodeColumn {T : Type} (column : Option (ColumnValue T)) (value : T) :
    Except Refusal Value :=
  match column with
  | some column => column.toColumn value
  | none => reject .rejected

def decodeColumn {T : Type} (column : Option (ColumnValue T)) (value : Value) :
    Except Refusal T :=
  match column with
  | some column => column.fromColumn value
  | none => reject .rejected

def encodeFields (positions : List Nat) : (fields : List Field) → Record fields → Nat →
    List Value → Except Refusal (List Value)
  | [], _, _, row => .ok row
  | field :: rest, (value, others), index, row => do
    let position ← get positions index
    let cell ← encodeColumn field.column value
    let row ← set row position cell
    encodeFields positions rest others (index + 1) row

def encodeRecord (positions : List Nat) (fields : List Field) (record : Record fields) :
    Except Refusal (List Value) :=
  encodeFields positions fields record 0 (replicate positions.length .null)

def decodeFields (positions : List Nat) (row : List Value) :
    (fields : List Field) → Nat → Except Refusal (Record fields)
  | [], _ => .ok ()
  | field :: rest, index => do
    let position ← get positions index
    let cell ← get row position
    let value ← decodeColumn field.column cell
    let others ← decodeFields positions row rest (index + 1)
    return (value, others)

def decodeRecord (positions : List Nat) (fields : List Field) (row : List Value) :
    Except Refusal (Record fields) :=
  decodeFields positions row fields 0

/-- The loop of `recordCodec` that compares the fields with their columns. -/
def checkFields (table : Table) (positions : List Nat) : Nat → List Field → Except Refusal Unit
  | _, [] => .ok ()
  | index, field :: rest =>
    match field.column with
    | none => reject .invalidSchema
    | some implementation => do
      let position ← get positions index
      let column ← get table.columns position
      if column.kind ≠ implementation.columnKind ∨
          column.nullable ≠ implementation.columnNullable then
        reject .invalidSchema
      else checkFields table positions (index + 1) rest

def recordCodec (kind : Kind) (fields : List Field) (table : Table)
    (aliases : List (String × String)) : Except Refusal (PreparedRowCodec (Record fields)) :=
  if kind = .record then do
    validateTable table
    let positions ← recordPositions table (fields.map Field.name) aliases
    checkFields table positions 0 fields
    return { table := table, encodeValue := encodeRecord positions fields,
             decodeValue := decodeRecord positions fields }
  else reject .invalidSchema

/-! ## The positions are those of all columns -/

variable {index : Nat} {positions : List Nat} {field : Field} {row after : List Value}

theorem columnPosition_eq_some {id : String} {position : Nat} {found : Option Nat}
    {columns : List Column} (h : columnPosition id index found columns = some position) :
    found = some position ∨ ∃ offset column, position = index + offset ∧
      columns[offset]? = some column ∧ column.id = id := by
  induction columns generalizing index found with
  | nil => exact Or.inl h
  | cons first rest ih =>
    rcases ih h with hfound | ⟨offset, column, hposition, hcolumn, hid⟩
    · split at hfound
      · next hid =>
        obtain rfl : index = position := by simpa using hfound
        exact Or.inr ⟨0, first, rfl, rfl, hid⟩
      · exact Or.inl hfound
    · exact Or.inr ⟨offset + 1, column, by omega, by simpa using hcolumn, hid⟩

/-- What the loop over the fields has found: new positions of columns that go with them. -/
theorem positionsFrom_spec {table : Table} {aliases : List (String × String)}
    {fields : List String} {before after : List Nat}
    (h : positionsFrom table aliases before fields = .ok after) :
    ∃ added, after = before ++ added ∧ added.length = fields.length ∧ (before.Nodup → after.Nodup) ∧
      ∀ (index : Nat) field, fields[index]? = some field → ∃ position column,
        added[index]? = some position ∧ table.columns[position]? = some column ∧
          column.id = columnId aliases field := by
  induction fields generalizing before with
  | nil =>
    obtain rfl : before = after := by simpa [positionsFrom] using h
    exact ⟨[], by simp, rfl, id, by simp⟩
  | cons first rest ih =>
    rw [positionsFrom] at h
    split at h
    · simp [reject] at h
    · next position hposition =>
      split at h
      · simp [reject] at h
      · next hnew =>
        obtain ⟨added, rfl, hlength, hnodup, hcolumns⟩ := ih h
        refine ⟨position :: added, by simp, by simp [hlength], fun hbefore => ?_, ?_⟩
        · apply hnodup
          rw [nodup_append]
          refine ⟨hbefore, nodup_singleton position, ?_⟩
          rintro earlier hearlier _ hlast rfl
          exact hnew (by simpa using mem_singleton.mp hlast ▸ hearlier)
        · rintro (_ | index) field hfield
          · obtain rfl : first = field := by simpa using hfield
            rcases columnPosition_eq_some hposition with hnone | ⟨offset, column, hoffset, hcolumn, hid⟩
            · cases hnone
            · obtain rfl : position = offset := by omega
              exact ⟨position, column, rfl, hcolumn, hid⟩
          · exact hcolumns index field (by simpa using hfield)

section
variable {table : Table} {fields : List String} {aliases : List (String × String)}
  (h : recordPositions table fields aliases = .ok positions)
include h

theorem recordPositions_spec :
    fields.length = table.columns.length ∧ positions.length = fields.length ∧ positions.Nodup ∧
      ∀ (index : Nat) field, fields[index]? = some field → ∃ position column,
        positions[index]? = some position ∧ table.columns[position]? = some column ∧
          column.id = columnId aliases field := by
  rw [recordPositions] at h
  split at h
  · simp [reject] at h
  · next hwidth =>
    obtain ⟨⟨⟩, -, h⟩ := bind_eq_ok.mp h
    obtain ⟨added, hadded, hlength, hnodup, hcolumns⟩ := positionsFrom_spec h
    obtain rfl : positions = added := by simpa using hadded
    exact ⟨not_not.mp hwidth, hlength, hnodup nodup_nil, hcolumns⟩

theorem recordPositions_lt {position : Nat} (hposition : position ∈ positions) :
    position < table.columns.length := by
  obtain ⟨-, hlength, -, hcolumns⟩ := recordPositions_spec h
  obtain ⟨index, hindex⟩ := mem_iff_getElem?.mp hposition
  have hlt : index < fields.length := by
    rw [← hlength]; exact (List.getElem?_eq_some_iff.mp hindex).1
  obtain ⟨other, column, hother, hcolumn, -⟩ :=
    hcolumns index fields[index] (getElem?_eq_getElem hlt)
  obtain rfl : position = other := by simpa [hindex] using hother
  exact (List.getElem?_eq_some_iff.mp hcolumn).1

/-- Every column is at one of the positions, and at one only. -/
theorem recordPositions_perm : positions.Perm (range table.columns.length) := by
  obtain ⟨hwidth, hlength, hnodup, -⟩ := recordPositions_spec h
  have hsub : positions ⊆ range table.columns.length := by
    intro position hposition
    exact mem_range.mpr (recordPositions_lt h hposition)
  refine (List.Nodup.subperm hnodup hsub).perm_of_length_le (Nat.le_of_eq ?_)
  rw [length_range, hlength, hwidth]

end

/-! ## Writing and reading the fields -/

/-- Each field of a record is read back from the cell it writes. -/
def ReadsBack : (fields : List Field) → Record fields → Prop
  | [], _ => True
  | field :: rest, (value, others) =>
    (∀ cell, encodeColumn field.column value = .ok cell →
      decodeColumn field.column cell = .ok value) ∧ ReadsBack rest others

theorem encodeFields_cons {rest : List Field} {value : field.type} {others : Record rest}
    (h : encodeFields positions (field :: rest) (value, others) index row = .ok after) :
    ∃ position cell next, positions[index]? = some position ∧
      encodeColumn field.column value = .ok cell ∧ set row position cell = .ok next ∧
      encodeFields positions rest others (index + 1) next = .ok after := by
  obtain ⟨position, hposition, h⟩ := bind_eq_ok.mp h
  obtain ⟨cell, hcell, h⟩ := bind_eq_ok.mp h
  obtain ⟨next, hnext, h⟩ := bind_eq_ok.mp h
  exact ⟨position, cell, next, get_eq_ok.mp hposition, hcell, hnext, h⟩

theorem encodeFields_other {fields : List Field} {record : Record fields} {other : Nat}
    (h : encodeFields positions fields record index row = .ok after)
    (hother : ∀ later, index ≤ later → positions[later]? ≠ some other) :
    after[other]? = row[other]? := by
  induction fields generalizing index row with
  | nil =>
    obtain rfl : row = after := by simpa [encodeFields] using h
    rfl
  | cons field rest ih =>
    obtain ⟨position, cell, next, hposition, -, hnext, hrest⟩ := encodeFields_cons h
    have hne : other ≠ position := by
      rintro rfl
      exact hother index (Nat.le_refl index) hposition
    calc after[other]? = next[other]? := ih hrest fun later hlater => hother later (by omega)
      _ = row[other]? := get_set_other hnext hne

theorem decodeFields_encodeFields {fields : List Field} {record : Record fields}
    (hnodup : positions.Nodup) (hback : ReadsBack fields record)
    (h : encodeFields positions fields record index row = .ok after) :
    decodeFields positions after fields index = .ok record := by
  induction fields generalizing index row with
  | nil => rfl
  | cons field rest ih =>
    obtain ⟨hvalue, hothers⟩ := hback
    obtain ⟨position, cell, next, hposition, hcell, hnext, hrest⟩ := encodeFields_cons h
    -- no field after this one has the same position
    have hkept : after[position]? = some cell := by
      rw [encodeFields_other hrest fun later hlater hsame => ?_, get_set_self hnext]
      have hlt : index < positions.length := (List.getElem?_eq_some_iff.mp hposition).1
      have heq : index = later := (getElem?_inj hlt hnodup).mp (hposition.trans hsame.symm)
      omega
    simp only [decodeFields, get_eq_ok.mpr hposition, get_eq_ok.mpr hkept, hvalue cell hcell,
      ih hothers hrest, ok_bind]
    rfl

theorem decodeRecord_encodeRecord {fields : List Field} {record : Record fields}
    (hnodup : positions.Nodup) (hback : ReadsBack fields record)
    (h : encodeRecord positions fields record = .ok row) :
    decodeRecord positions fields row = .ok record := decodeFields_encodeFields hnodup hback h

theorem readsBack_of_lossless {fields : List Field}
    (h : ∀ field ∈ fields, ∀ column, field.column = some column → column.Lossless) :
    ∀ record : Record fields, ReadsBack fields record := by
  induction fields with
  | nil => intro _; trivial
  | cons field rest ih =>
    rintro ⟨value, others⟩
    refine ⟨fun cell hcell => ?_, ih (fun other hother => h other (.tail _ hother)) others⟩
    cases hcolumn : field.column with
    | none => simp [encodeColumn, hcolumn, reject] at hcell
    | some column =>
      simp only [hcolumn] at hcell
      exact h field (.head _) column hcolumn value cell hcell

/-- Each field has a column, and makes a cell that the column takes. -/
def Writes : (fields : List Field) → Record fields → Prop
  | [], _ => True
  | field :: rest, (value, others) =>
    (∃ column cell, field.column = some column ∧ column.toColumn value = .ok cell ∧
      Takes column.columnKind column.columnNullable cell) ∧ Writes rest others

theorem encodeFields_ok {fields : List Field} {record : Record fields} (hnodup : positions.Nodup)
    (hpositions : ∀ k < fields.length, ∃ position, positions[index + k]? = some position ∧
      position < row.length) (hwrites : Writes fields record) :
    ∃ after, encodeFields positions fields record index row = .ok after ∧
      after.length = row.length ∧ ∀ (k : Nat) field, fields[k]? = some field →
        ∃ position column cell, positions[index + k]? = some position ∧
          field.column = some column ∧ after[position]? = some cell ∧
          Takes column.columnKind column.columnNullable cell := by
  induction fields generalizing index row with
  | nil => exact ⟨row, rfl, rfl, by simp⟩
  | cons field rest ih =>
    obtain ⟨value, others⟩ := record
    obtain ⟨⟨column, cell, hcolumn, hcell, htakes⟩, hothers⟩ := hwrites
    obtain ⟨position, hposition, hlt⟩ := hpositions 0 (by simp)
    rw [Nat.add_zero] at hposition
    have hset : set row position cell = .ok (row.set position cell) := set_eq_ok.mpr ⟨hlt, rfl⟩
    obtain ⟨after, hafter, hlength, hcells⟩ := @ih (index + 1) (row.set position cell) others
      (fun k hk => by
        rw [length_set, Nat.add_assoc, Nat.add_comm 1 k]
        exact hpositions (k + 1) (Nat.succ_lt_succ hk)) hothers
    refine ⟨after, ?_, hlength.trans length_set, ?_⟩
    · have hencoded : encodeColumn field.column value = .ok cell := by
        rw [hcolumn]; exact hcell
      rw [encodeFields, get_eq_ok.mpr hposition, ok_bind, hencoded, ok_bind, hset, ok_bind]
      exact hafter
    · rintro (_ | k) other hother
      · obtain rfl : field = other := by simpa using hother
        refine ⟨position, column, cell, hposition, hcolumn, ?_, htakes⟩
        rw [encodeFields_other hafter fun later hlater hsame => ?_, get_set_self hset]
        have hbound : index < positions.length := (List.getElem?_eq_some_iff.mp hposition).1
        have heq : index = later := (getElem?_inj hbound hnodup).mp (hposition.trans hsame.symm)
        omega
      · rw [Nat.add_comm k 1, ← Nat.add_assoc]
        exact hcells k other (by simpa using hother)

/-! ## Prepared codecs -/

variable {kind : Kind} {fields : List Field} {table : Table} {aliases : List (String × String)}
  {codec : PreparedRowCodec (Record fields)}

theorem recordCodec_eq_ok (h : recordCodec kind fields table aliases = .ok codec) :
    ∃ positions, recordPositions table (fields.map Field.name) aliases = .ok positions ∧
      checkFields table positions 0 fields = .ok () ∧
      codec = { table := table, encodeValue := encodeRecord positions fields,
                decodeValue := decodeRecord positions fields } := by
  rw [recordCodec] at h
  split at h
  · obtain ⟨⟨⟩, -, h⟩ := bind_eq_ok.mp h
    obtain ⟨positions, hpositions, h⟩ := bind_eq_ok.mp h
    obtain ⟨⟨⟩, hfields, h⟩ := bind_eq_ok.mp h
    exact ⟨positions, hpositions, hfields, (pure_eq_ok.mp h).symm⟩
  · simp [reject] at h

theorem checkFields_spec {table : Table} {fields : List Field}
    (h : checkFields table positions index fields = .ok ()) (k : Nat) (field : Field)
    (hfield : fields[k]? = some field) : ∃ implementation position column,
      field.column = some implementation ∧ positions[index + k]? = some position ∧
      table.columns[position]? = some column ∧ column.kind = implementation.columnKind ∧
      column.nullable = implementation.columnNullable := by
  induction fields generalizing index k with
  | nil => simp at hfield
  | cons first rest ih =>
    rw [checkFields] at h
    split at h
    · simp [reject] at h
    · next implementation hcolumn =>
      obtain ⟨position, hposition, h⟩ := bind_eq_ok.mp h
      obtain ⟨column, hat, h⟩ := bind_eq_ok.mp h
      split at h
      · simp [reject] at h
      · next hsame =>
        rw [not_or, not_not, not_not] at hsame
        cases k with
        | zero =>
          obtain rfl : first = field := by simpa using hfield
          exact ⟨implementation, position, column, hcolumn, get_eq_ok.mp hposition,
            get_eq_ok.mp hat, hsame.1, hsame.2⟩
        | succ k =>
          rw [Nat.add_comm k 1, ← Nat.add_assoc]
          exact ih h k (by simpa using hfield)

theorem encodePreparedRow_ok (hcodec : recordCodec kind fields table aliases = .ok codec)
    {record : Record fields} (hwrites : Writes fields record) :
    ∃ row, encodePreparedRow codec record = .ok row := by
  obtain ⟨positions, hpositions, hfields, rfl⟩ := recordCodec_eq_ok hcodec
  obtain ⟨hwidth, hlength, hnodup, -⟩ := recordPositions_spec hpositions
  rw [length_map] at hwidth hlength
  obtain ⟨row, hrow, hsize, hcells⟩ := @encodeFields_ok 0 positions
    (replicate positions.length .null) fields record hnodup (fun k hk => by
      have hk : k < positions.length := by omega
      have hbelow := recordPositions_lt hpositions (getElem_mem hk)
      refine ⟨positions[k], by rw [Nat.zero_add, getElem?_eq_getElem hk], ?_⟩
      rw [length_replicate]; omega) hwrites
  rw [length_replicate] at hsize
  refine ⟨row, encodePreparedRow_eq_ok.mpr ⟨hrow, ?_⟩⟩
  rw [validateValues, if_neg (by dsimp only; omega)]
  refine validateFrom_ok _ fun i column hcolumn => ?_
  -- the column is that of a field, which was checked against it
  have hin : i < table.columns.length := (List.getElem?_eq_some_iff.mp hcolumn).1
  obtain ⟨k, hk⟩ := mem_iff_getElem?.mp
    ((recordPositions_perm hpositions).symm.subset (mem_range.mpr hin))
  have hlt : k < fields.length := hlength ▸ (List.getElem?_eq_some_iff.mp hk).1
  have hfield := getElem?_eq_getElem hlt
  obtain ⟨position, written, cell, hposition, hwritten, hcell, htakes⟩ := hcells k _ hfield
  obtain ⟨declared, position', column', hdeclared, hposition', hcolumn', hkind, hnullable⟩ :=
    checkFields_spec hfields k _ hfield
  rw [Nat.zero_add, hk] at hposition hposition'
  obtain rfl := Option.some.inj hposition
  obtain rfl := Option.some.inj hposition'
  obtain rfl := Option.some.inj (hcolumn.symm.trans hcolumn')
  obtain rfl := Option.some.inj (hwritten.symm.trans hdeclared)
  rw [hkind, hnullable, Nat.zero_add]
  exact ⟨cell, hcell, htakes⟩

theorem decodePreparedRow_encodePreparedRow
    (hcodec : recordCodec kind fields table aliases = .ok codec) {record : Record fields}
    (hback : ReadsBack fields record) (h : encodePreparedRow codec record = .ok row) :
    decodePreparedRow codec row = .ok record := by
  obtain ⟨positions, hpositions, -, rfl⟩ := recordCodec_eq_ok hcodec
  obtain ⟨hencoded, hvalid⟩ := encodePreparedRow_eq_ok.mp h
  obtain ⟨-, -, hnodup, -⟩ := recordPositions_spec hpositions
  rw [decodePreparedRow_eq hvalid]
  exact decodeRecord_encodeRecord hnodup hback hencoded

/-- The positions that are found are those of all columns, a record is encoded where its
    fields make cells that their columns take, and comes back from the row, in whatever order
    the columns are and whatever the aliases are. -/
theorem record_codec_round_trip (fields : List Field) (table : Table)
    (aliases : List (String × String)) : (∀ (names : List String) (positions : List Nat),
      recordPositions table names aliases = .ok positions →
      positions.Perm (range table.columns.length)) ∧
    ∀ (kind : Kind) (codec : PreparedRowCodec (Record fields)),
      recordCodec kind fields table aliases = .ok codec →
      (∀ record : Record fields, Writes fields record →
        ∃ row, encodePreparedRow codec record = .ok row) ∧
      ((∀ field ∈ fields, ∀ column, field.column = some column → column.Lossless) →
        ∀ (record : Record fields) (row : List Value),
          encodePreparedRow codec record = .ok row → decodePreparedRow codec row = .ok record) := by
  refine ⟨fun names positions h => recordPositions_perm h, ?_⟩
  intro kind codec hcodec
  refine ⟨fun record hwrites => encodePreparedRow_ok hcodec hwrites, ?_⟩
  intro hlossless record row h
  exact decodePreparedRow_encodePreparedRow hcodec (readsBack_of_lossless hlossless record) h

/-- An order with its fields in another order than the columns, and one of them renamed. -/
def orderFields : List Field :=
  [⟨"id", Int, some intColumn⟩, ⟨"amount", Int, some intColumn⟩,
   ⟨"enabled", Bool, some boolColumn⟩, ⟨"note", Option String, some (optionColumn textColumn)⟩]

def orderTable : Table where
  id := "orders"
  physicalName := "current_orders"
  columns :=
    [⟨"note", "note_body", .text, true⟩, ⟨"order-id", "order_number", .int, false⟩,
     ⟨"amount", "total_cents", .int, false⟩, ⟨"enabled", "is_enabled", .int, false⟩]

def orderCodec : PreparedRowCodec (Record orderFields) where
  table := orderTable
  encodeValue := encodeRecord [1, 2, 3, 0] orderFields
  decodeValue := decodeRecord [1, 2, 3, 0] orderFields

theorem recordCodec_orders :
    recordCodec .record orderFields orderTable [("id", "order-id")] = .ok orderCodec := by
  have hvalid : validateTable orderTable = .ok () := by decide
  have hpositions : recordPositions orderTable (orderFields.map Field.name) [("id", "order-id")] =
      .ok [1, 2, 3, 0] := by decide
  have hfields : checkFields orderTable [1, 2, 3, 0] 0 orderFields = .ok () := by decide
  simp only [recordCodec, hpositions]; rfl

theorem orderFields_lossless :
    ∀ field ∈ orderFields, ∀ column, field.column = some column → column.Lossless := by
  intro field hfield column hcolumn
  simp only [orderFields, mem_cons, not_mem_nil, or_false] at hfield
  rcases hfield with rfl | rfl | rfl | rfl
  · cases hcolumn
    exact intColumn_lossless
  · cases hcolumn
    exact intColumn_lossless
  · cases hcolumn
    exact boolColumn_lossless
  · cases hcolumn
    exact optionColumn_lossless textColumn_lossless

theorem record_codec_round_trip_orders :
    encodePreparedRow orderCodec (7, 1250, true, some "gift", ()) =
      .ok [.text "gift", .int 7, .int 1250, .int 1] ∧
    decodePreparedRow orderCodec [.text "gift", .int 7, .int 1250, .int 1] =
      .ok (7, 1250, true, some "gift", ()) := by
  have hrow : encodePreparedRow orderCodec (7, 1250, true, some "gift", ()) =
      .ok [.text "gift", .int 7, .int 1250, .int 1] := by decide
  exact ⟨hrow, ((record_codec_round_trip orderFields orderTable [("id", "order-id")]).2 .record
    orderCodec recordCodec_orders).2 orderFields_lossless _ _ hrow⟩

end Loom.Storage

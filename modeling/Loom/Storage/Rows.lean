import Loom.Library.Results

/-
  Rows of a table, and the columns that a field can be kept in.

  A row is a list of cells in the order of the table's columns. A prepared codec has a table
  that nobody else can change, and turns values into rows of it and back.

  Correspondence (storage.loom, columns.loom ↔ Lean), where names differ:
    `PreparedRowCodec`, `PreparedState` ↔ `PreparedRowCodec`
    `validate_table`, its loop ↔ `validateTable`, `validateColumns`
    `validate_values`, its loop ↔ `validateValues`, `validateFrom`
    the concept `ColumnValue` ↔ `ColumnValue`
    its implementations ↔ `intColumn`, `floatColumn`,
      `textColumn`, `bytesColumn`, `boolColumn`, `optionColumn`
    `get`, `set` of a list ↔ `get`, `set`
  A `Float` is its 64 bits. Bytes are taken as values. The numbers in an error are kept.
-/

namespace Loom.Storage

open Results

inductive Value where
  | null
  | int (number : Int)
  | float (bits : BitVec 64)
  | text (text : String)
  | bytes (bytes : List UInt8)
  deriving DecidableEq

inductive ValueKind where
  | int | float | text | bytes
  deriving DecidableEq

structure Column where
  id : String
  physicalName : String
  kind : ValueKind
  nullable : Bool
  deriving DecidableEq

structure Table where
  id : String
  physicalName : String
  columns : List Column
  deriving DecidableEq

inductive CodecError where
  | invalidSchema
  | schemaChanged
  | wrongWidth (expected actual : Nat)
  | wrongKind (index : Nat)
  | nullNotAllowed (index : Nat)
  | rejected
  deriving DecidableEq

/-- How a computation ends that gives nothing. -/
inductive Refusal where
  | fault
  | codec (error : CodecError)
  deriving DecidableEq

def reject {α : Type} (error : CodecError) : Except Refusal α := .error (.codec error)

structure PreparedRowCodec (T : Type) where
  table : Table
  encodeValue : T → Except Refusal (List Value)
  decodeValue : List Value → Except Refusal T

/-! ## Lists -/

def get {α : Type} (values : List α) (index : Nat) : Except Refusal α :=
  match values[index]? with
  | some value => .ok value
  | none => .error .fault

def set {α : Type} (values : List α) (index : Nat) (value : α) : Except Refusal (List α) :=
  if index < values.length then .ok (values.set index value) else .error .fault

variable {α : Type} {values after : List α} {value : α} {index other : Nat}

theorem get_eq_ok : get values index = .ok value ↔ values[index]? = some value := by
  unfold get
  cases values[index]? with
  | none => simp
  | some found => simp

theorem set_eq_ok : set values index value = .ok after ↔
    index < values.length ∧ values.set index value = after := by
  unfold set
  split
  · next hlt => simp [hlt]
  · next hge => exact iff_of_false nofun (fun h => hge h.1)

theorem get_set_self (h : set values index value = .ok after) : after[index]? = some value := by
  obtain ⟨hlt, rfl⟩ := set_eq_ok.mp h
  exact List.getElem?_set_self hlt

theorem get_set_other (h : set values index value = .ok after) (hne : other ≠ index) :
    after[other]? = values[other]? := by
  obtain ⟨-, rfl⟩ := set_eq_ok.mp h
  exact List.getElem?_set_ne hne.symm

/-! ## Tables and rows -/

/-- The loop of `validateTable`, after the columns `earlier`. -/
def validateColumns : List Column → List Column → Except Refusal Unit
  | _, [] => .ok ()
  | earlier, column :: rest =>
    if column.id = "" || column.physicalName = "" then reject .invalidSchema
    else if earlier.any fun previous =>
        previous.id = column.id || previous.physicalName = column.physicalName then
      reject .invalidSchema
    else validateColumns (earlier ++ [column]) rest

def validateTable (table : Table) : Except Refusal Unit :=
  if table.id = "" || table.physicalName = "" || table.columns.length = 0 then
    reject .invalidSchema
  else validateColumns [] table.columns

/-- The cells that a column takes. -/
def Takes (kind : ValueKind) (nullable : Bool) : Value → Prop
  | .null => nullable = true
  | .int _ => kind = .int
  | .float _ => kind = .float
  | .text _ => kind = .text
  | .bytes _ => kind = .bytes

def validateCell (index : Nat) (column : Column) : Value → Except Refusal Unit
  | .null => if column.nullable then .ok () else reject (.nullNotAllowed index)
  | .int _ => if column.kind = .int then .ok () else reject (.wrongKind index)
  | .float _ => if column.kind = .float then .ok () else reject (.wrongKind index)
  | .text _ => if column.kind = .text then .ok () else reject (.wrongKind index)
  | .bytes _ => if column.kind = .bytes then .ok () else reject (.wrongKind index)

def validateFrom (values : List Value) : Nat → List Column → Except Refusal Unit
  | _, [] => .ok ()
  | index, column :: rest => do
    let value ← get values index
    validateCell index column value
    validateFrom values (index + 1) rest

def validateValues (table : Table) (values : List Value) : Except Refusal Unit :=
  if values.length ≠ table.columns.length then
    reject (.wrongWidth table.columns.length values.length)
  else validateFrom values 0 table.columns

def encodePreparedRow {T : Type} (codec : PreparedRowCodec T) (value : T) :
    Except Refusal (List Value) := do
  let values ← codec.encodeValue value
  validateValues codec.table values
  return values

/-- The values are the input, which the decoder cannot change: a copy is the list itself. -/
def decodePreparedRow {T : Type} (codec : PreparedRowCodec T) (values : List Value) :
    Except Refusal T := do
  validateValues codec.table values
  let decoded := codec.decodeValue values
  validateValues codec.table values
  validateValues codec.table values
  decoded

theorem validateCell_ok {column : Column} {cell : Value} (index : Nat)
    (h : Takes column.kind column.nullable cell) : validateCell index column cell = .ok () := by
  cases cell <;> exact if_pos h

theorem validateFrom_ok {values : List Value} (columns : List Column) : ∀ {index : Nat},
    (∀ (k : Nat) column, columns[k]? = some column → ∃ cell, values[index + k]? = some cell ∧
      Takes column.kind column.nullable cell) → validateFrom values index columns = .ok () := by
  induction columns with
  | nil => exact fun _ => rfl
  | cons column rest ih =>
    intro index h
    obtain ⟨cell, hcell, htakes⟩ := h 0 column rfl
    rw [Nat.add_zero] at hcell
    rw [validateFrom, get_eq_ok.mpr hcell, ok_bind, validateCell_ok index htakes, ok_bind]
    refine ih fun k other hother => ?_
    have hnext := h (k + 1) other (by simpa using hother)
    rwa [Nat.add_comm k 1, ← Nat.add_assoc] at hnext

variable {T : Type}

theorem encodePreparedRow_eq_ok {codec : PreparedRowCodec T} {value : T} {row : List Value} :
    encodePreparedRow codec value = .ok row ↔
      codec.encodeValue value = .ok row ∧ validateValues codec.table row = .ok () := by
  rw [encodePreparedRow]
  constructor
  · intro h
    obtain ⟨values, hvalues, h⟩ := bind_eq_ok.mp h
    obtain ⟨⟨⟩, hvalid, h⟩ := bind_eq_ok.mp h
    obtain rfl := pure_eq_ok.mp h
    exact ⟨hvalues, hvalid⟩
  · rintro ⟨hvalues, hvalid⟩
    rw [hvalues, ok_bind, hvalid]; rfl

/-- A row that the table takes is decoded as the callback decodes it. -/
theorem decodePreparedRow_eq {codec : PreparedRowCodec T} {row : List Value}
    (h : validateValues codec.table row = .ok ()) :
    decodePreparedRow codec row = codec.decodeValue row := by
  simp [decodePreparedRow, h, ok_bind]

/-! ## Columns -/

structure ColumnValue (T : Type) where
  columnKind : ValueKind
  columnNullable : Bool
  toColumn : T → Except Refusal Value
  fromColumn : Value → Except Refusal T

/-- A column whose cells are all of one kind. -/
def plainColumn {T : Type} (kind : ValueKind) (write : T → Value) (read : Value → Option T) :
    ColumnValue T where
  columnKind := kind
  columnNullable := false
  toColumn value := .ok (write value)
  fromColumn cell :=
    match read cell with
    | some value => .ok value
    | none => reject .rejected

def intColumn : ColumnValue Int := plainColumn .int .int fun
  | .int number => some number
  | _ => none

def floatColumn : ColumnValue (BitVec 64) := plainColumn .float .float fun
  | .float bits => some bits
  | _ => none

def textColumn : ColumnValue String := plainColumn .text .text fun
  | .text text => some text
  | _ => none

def bytesColumn : ColumnValue (List UInt8) := plainColumn .bytes .bytes fun
  | .bytes bytes => some bytes
  | _ => none

def boolColumn : ColumnValue Bool :=
  plainColumn .int (fun flag => .int (if flag then 1 else 0)) fun
  | .int 0 => some false
  | .int 1 => some true
  | _ => none

/-- `Some(NULL)` and `None` cannot share one cell. -/
def notNull : Value → Except Refusal Value
  | .null => reject .rejected
  | encoded => .ok encoded

def optionColumn {T : Type} (column : ColumnValue T) : ColumnValue (Option T) where
  columnKind := column.columnKind
  columnNullable := true
  toColumn
    | none => .ok .null
    | some value => do
      let encoded ← column.toColumn value
      notNull encoded
  fromColumn
    | .null => .ok none
    | value => do
      let decoded ← column.fromColumn value
      return some decoded

/-- What is written to a cell is read back from it. -/
def ColumnValue.Lossless {T : Type} (column : ColumnValue T) : Prop :=
  ∀ value cell, column.toColumn value = .ok cell → column.fromColumn cell = .ok value

theorem notNull_eq_ok {value cell : Value} : notNull value = .ok cell ↔
    value ≠ .null ∧ value = cell := by
  cases value <;> simp [notNull, reject]

theorem plainColumn_lossless {kind : ValueKind} {write : T → Value} {read : Value → Option T}
    (h : ∀ value, read (write value) = some value) : (plainColumn kind write read).Lossless := by
  intro value cell hcell
  obtain rfl : write value = cell := by simpa [plainColumn] using hcell
  simp [plainColumn, h]

theorem intColumn_lossless : intColumn.Lossless := plainColumn_lossless fun _ => rfl

theorem floatColumn_lossless : floatColumn.Lossless := plainColumn_lossless fun _ => rfl

theorem textColumn_lossless : textColumn.Lossless := plainColumn_lossless fun _ => rfl

theorem bytesColumn_lossless : bytesColumn.Lossless := plainColumn_lossless fun _ => rfl

theorem boolColumn_lossless : boolColumn.Lossless :=
  plainColumn_lossless fun flag => by cases flag <;> rfl

/-- An option is as lossless as what it may hold: a value never shares the cell of none. -/
theorem optionColumn_lossless {column : ColumnValue T} (h : column.Lossless) :
    (optionColumn column).Lossless := by
  rintro (_ | value) cell hcell
  · obtain rfl : Value.null = cell := by simpa [optionColumn] using hcell
    rfl
  · obtain ⟨encoded, hencoded, hcell⟩ := bind_eq_ok.mp hcell
    obtain ⟨hnull, rfl⟩ := notNull_eq_ok.mp hcell
    have hdecoded := h value encoded hencoded
    cases encoded with
    | null => exact absurd rfl hnull
    | _ => simp only [optionColumn, hdecoded]; rfl

end Loom.Storage

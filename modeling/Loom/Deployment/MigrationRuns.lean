import Loom.Deployment.Migration

/-
  What the downgrade restores, after any history of the upgraded database.
-/

namespace Loom.Migration

open Decimal Deployment Results Rows Runs Option AList

/-! ## Statements -/

section
variable {plan : SqlitePositiveAmountUpgrade} {db next : Database} {archive : Created Archived}
variable {keys : (Qualifier → Int → Int) → Int → Bool} {index : Nat}

theorem reference_eq (h : captures plan = false) (entity : Int) (row : Archived) :
    (createTrigger plan index).reference entity row = fun _ value => value := by
  funext qualifier value
  rw [Trigger.reference]
  split
  case isFalse => rfl
  case isTrue hname =>
    have hcolumn : row.column entity plan.orderId = none := by
      cases qualifier <;> simp_all [captures, createTrigger, Qualifier.name, Archived.column]
    exact congrArg (Option.getD · value) hcolumn

/-- The triggers and the archive of the plan are there, and the triggers name the rows they
are about. -/
structure Follows (plan : SqlitePositiveAmountUpgrade) (db : Database) (archive : Created Archived) :
    Prop where
  created : db.triggers = (List.range 6).map (createTrigger plan)
  present : db.archive = some archive
  named : archive.name = plan.archive
  plain : captures plan = false

theorem Follows.find (h : Follows plan db archive) (hindex : index < 6) :
    db.triggers.find? (fun trigger => triggerName trigger.index == triggerName index) =
      some (createTrigger plan index) := by
  have hsame : (List.range 6).find? (fun other => triggerName other == triggerName index) =
      some index := by
    revert hindex index
    decide
  rw [h.created, List.find?_map]
  exact congrArg (Option.map (createTrigger plan)) hsame

theorem Follows.installed (h : Follows plan db archive) (hindex : index < 6) :
    installed index db = true := by
  rw [Migration.installed, List.any_eq_true]
  exact ⟨_, List.mem_of_find?_eq_some (h.find hindex), beq_self_eq_true _⟩

theorem Follows.fire_eq (h : Follows plan db archive) (hindex : index < 6) (orders : Created Int) :
    fire index keys { db with orders := orders } =
      some { db with
        orders := orders
        archive := some { archive with
          rows := edit (marked (keys fun _ value => value)) archive.rows } } := by
  rw [fire]
  dsimp only
  rw [h.find hindex, h.present]
  dsimp only
  rw [if_neg (not_not.mpr (show archive.name = (createTrigger plan index).archive from h.named))]
  simp only [reference_eq h.plain]

variable {operation : RowOperation} {key : Int}

theorem touches_of_some (h : rowOperation db operation = some next) (row : Int) :
    touches operation db row = meets db.orders.rows row operation := by
  rw [touches, h]; rfl

theorem touches_of_none (h : rowOperation db operation = none) (row : Int) :
    touches operation db row = false := by
  rw [touches, h]; rfl

/-- What a statement does that is not refused: `orders` and `rows` are what it leaves. -/
structure Done (operation : RowOperation) (db : Database) (archive : Created Archived)
    (orders : Table Int Int) (rows : Table Int Archived) : Prop where
  kept : ∀ key, touches operation db key = false → orders.lookup key = db.orders.rows.lookup key
  marks : ∀ key, rows.lookup key =
    (archive.rows.lookup key).map (marked (touches operation db) key)
  positive : (∀ key amount, db.orders.rows.lookup key = some amount → 0 < amount) →
    ∀ key amount, orders.lookup key = some amount → 0 < amount

/-- The database with other rows. -/
def withRows (db : Database) (archive : Created Archived) (orders : Table Int Int)
    (rows : Table Int Archived) : Database :=
  { db with orders := { db.orders with rows := orders }, archive := some { archive with rows := rows } }

theorem lookup_marked (marks : Int → Bool) (table : Table Int Archived) (key : Int) :
    (edit (marked marks) table).lookup key = (table.lookup key).map (marked marks key) :=
  lookup_edit _ _ _

theorem done_nothing (harchive : db.archive = some archive)
    (h : ∀ row, touches operation db row = false) :
    ∃ orders rows, db = withRows db archive orders rows ∧ Done operation db archive orders rows := by
  refine ⟨db.orders.rows, archive.rows, by rw [withRows, ← harchive], fun _ _ => rfl, ?_,
    fun hold => hold⟩
  intro row
  rw [funext h]; exact (map_id' ..).symm

theorem done_insert {amount : Int} {replace : Bool} (hfollows : Follows plan db archive)
    (h : rowOperation db (.insert key amount replace) = some next) :
    ∃ orders rows, next = withRows db archive orders rows ∧
      Done (.insert key amount replace) db archive orders rows := by
  have htouches := touches_of_some h
  rw [rowOperation] at h
  by_cases hpositive : installed 0 db = true ∧ amount ≤ 0
  · rw [if_pos hpositive] at h
    cases h
  rw [if_neg hpositive] at h
  by_cases hcheck : amount < 0
  · rw [if_pos hcheck] at h
    cases h
  rw [if_neg hcheck] at h
  by_cases hused : key ∈ db.orders.rows ∧ ¬replace = true
  · rw [if_pos hused] at h
    cases h
  rw [if_neg hused, hfollows.fire_eq (by decide)] at h
  cases h
  have hmore : 0 < amount := by
    by_contra hless
    exact hpositive ⟨hfollows.installed (by decide), by omega⟩
  refine ⟨_, _, rfl, ?_, ?_, ?_⟩
  · intro row hrow
    rw [htouches] at hrow
    exact lookup_insert_ne (by simpa [meets] using hrow)
  · intro row
    rw [lookup_marked]
    congr 2
    funext other
    exact (htouches other).symm
  · intro hbefore row other hrow
    by_cases hsame : row = key
    · rw [hsame, lookup_insert, some.injEq] at hrow; exact hrow ▸ hmore
    · rw [lookup_insert_ne hsame] at hrow; exact hbefore row other hrow

theorem done_delete (hfollows : Follows plan db archive) (h : rowOperation db (.delete key) = some next) :
    ∃ orders rows, next = withRows db archive orders rows ∧
      Done (.delete key) db archive orders rows := by
  have htouches := touches_of_some h
  rw [rowOperation] at h
  cases hold : db.orders.rows.lookup key with
  | none =>
    rw [hold] at h
    cases h
    exact done_nothing hfollows.present (fun row => by rw [htouches]; simp [meets, hold])
  | some old =>
    rw [hold] at h
    rw [hfollows.fire_eq (by decide)] at h
    cases h
    refine ⟨_, _, rfl, ?_, ?_, ?_⟩
    · intro row hrow
      rw [htouches] at hrow
      exact lookup_erase_ne (by simpa [meets, hold] using hrow)
    · intro row
      rw [lookup_marked]
      congr 2
      funext other
      rw [htouches]; simp [meets, hold]
    · intro hbefore row other hrow
      by_cases hsame : row = key
      · rw [hsame, lookup_erase] at hrow
        cases hrow
      · rw [lookup_erase_ne hsame] at hrow; exact hbefore row other hrow

/-! ### Updates -/

theorem edit_unmarked {marks : Int → Bool} (h : ∀ key, marks key = false)
    (table : Table Int Archived) : edit (marked marks) table = table := by
  apply AList.ext
  show table.entries.map (fun row => ⟨row.1, marked marks row.1 row.2⟩) = table.entries
  have hsame : (fun row : Sigma fun _ : Int => Archived =>
      (⟨row.1, marked marks row.1 row.2⟩ : Sigma fun _ : Int => Archived)) = id := by
    funext row
    rw [marked, h]; rfl
  rw [hsame, List.map_id]

/-- A trigger with a condition: where it does not fire, it marks nothing. -/
theorem fire_when (condition : Prop) [Decidable condition] (orders : Table Int Int)
    (rows : Table Int Archived) (h : Follows plan db archive) (hindex : index < 6) :
    (if condition then fire index keys (withRows db archive orders rows)
      else some (withRows db archive orders rows)) =
      some (withRows db archive orders
        (edit (marked (fun key => decide condition && keys (fun _ value => value) key)) rows)) := by
  by_cases hcondition : condition
  · have hkeys : (fun key => decide condition && keys (fun _ value => value) key) =
        keys fun _ value => value := by
      funext key
      rw [decide_eq_true hcondition, Bool.true_and]
    have hmore : Follows plan { db with archive := some { archive with rows := rows } }
        { archive with rows := rows } := ⟨h.created, rfl, h.named, h.plain⟩
    rw [if_pos hcondition, hkeys]
    exact hmore.fire_eq hindex _
  · rw [if_neg hcondition, edit_unmarked (by intro key; rw [decide_eq_false hcondition]; rfl)]

theorem marked_marked (keys more : Int → Bool) (key : Int) (row : Archived) :
    marked more key (marked keys key row) = marked (fun key => keys key || more key) key row := by
  cases hfirst : keys key <;> cases hsecond : more key <;> simp [marked, hfirst]

theorem lookup_moved (orders : Table Int Int) (key newKey amount row : Int) :
    ((orders.erase key).insert newKey amount).lookup row =
      if row = newKey then some amount else if row = key then none else orders.lookup row := by
  by_cases hnew : row = newKey
  · rw [if_pos hnew, hnew, lookup_insert]
  · rw [if_neg hnew, lookup_insert_ne hnew]
    by_cases hold : row = key
    · rw [if_pos hold, hold, lookup_erase]
    · rw [if_neg hold, lookup_erase_ne hold]

section
variable {newKey : Int} {amount : Option Int} {replace : Bool} (hfollows : Follows plan db archive)
  (h : rowOperation db (.update key newKey amount replace) = some next)
include hfollows h

/-- An update of a row that is there: no trigger refuses it, and two of them mark the archive. -/
theorem update_found {old : Int} (hold : db.orders.rows.lookup key = some old) :
    ¬(amount.isSome = true ∧ installed 1 db = true ∧ amount.getD old ≤ 0) ∧
      next = withRows db archive ((db.orders.rows.erase key).insert newKey (amount.getD old))
        (edit (marked fun other => decide (newKey ≠ key) && (other == key || other == newKey))
          (edit (marked fun other => decide (amount.getD old ≠ old) && other == key)
            archive.rows)) := by
  rw [rowOperation, hold] at h
  dsimp only at h
  by_cases hpositive : amount.isSome = true ∧ installed 1 db = true ∧ amount.getD old ≤ 0
  · rw [if_pos hpositive] at h
    cases h
  rw [if_neg hpositive] at h
  by_cases hcheck : amount.getD old < 0
  · rw [if_pos hcheck] at h
    cases h
  rw [if_neg hcheck] at h
  by_cases hused : newKey ≠ key ∧ newKey ∈ db.orders.rows ∧ ¬replace = true
  · rw [if_pos hused] at h
    cases h
  rw [if_neg hused] at h
  have hrows : ({ db with orders := { db.orders with
        rows := (db.orders.rows.erase key).insert newKey (amount.getD old) } } : Database) =
      withRows db archive ((db.orders.rows.erase key).insert newKey (amount.getD old))
        archive.rows := by
    rw [withRows, ← hfollows.present]
  rw [hrows, fire_when _ _ _ hfollows (by decide)] at h
  dsimp only at h
  rw [fire_when _ _ _ hfollows (by decide)] at h
  exact ⟨hpositive, (some.inj h).symm⟩

theorem done_update : ∃ orders rows, next = withRows db archive orders rows ∧
    Done (.update key newKey amount replace) db archive orders rows := by
  have htouches := touches_of_some h
  cases hold : db.orders.rows.lookup key with
  | none =>
    rw [rowOperation, hold] at h
    cases h
    exact done_nothing hfollows.present (fun row => by rw [htouches]; simp [meets, hold])
  | some old =>
    obtain ⟨hpositive, rfl⟩ := update_found hfollows h hold
    have hmeets : ∀ row, touches (.update key newKey amount replace) db row =
        ((newKey != key && (row == key || row == newKey)) ||
          (row == key && amount.getD old != old)) := by
      intro row
      rw [htouches, meets, hold]; rfl
    refine ⟨_, _, rfl, ?_, ?_, ?_⟩
    · intro row hrow
      rw [hmeets] at hrow
      rw [lookup_moved]
      by_cases hkey : newKey = key
      · by_cases hsame : row = key
        · have hvalue : amount.getD old = old := by simpa [hkey, hsame] using hrow
          rw [if_pos (by rw [hkey, hsame]), hvalue, hsame, hold]
        · rw [hkey, if_neg hsame, if_neg hsame]
      · obtain ⟨hrow, -⟩ : (row ≠ key ∧ row ≠ newKey) ∧ _ := by simpa [hkey] using hrow
        rw [if_neg hrow.2, if_neg hrow.1]
    · intro row
      rw [lookup_marked, lookup_marked, map_map]
      congr 1
      funext value
      rw [Function.comp, marked_marked]
      congr 1
      funext other
      rw [hmeets, Bool.eq_iff_iff]
      simp only [Bool.or_eq_true, Bool.and_eq_true, decide_eq_true_eq, bne_iff_ne]
      tauto
    · intro hbefore row value hrow
      rw [lookup_moved] at hrow
      by_cases hnew : row = newKey
      · rw [if_pos hnew, some.injEq] at hrow
        rw [← hrow]
        cases amount with
        | none => exact hbefore key old hold
        | some new =>
          by_contra hless
          exact hpositive ⟨rfl, hfollows.installed (by decide), by omega⟩
      · rw [if_neg hnew] at hrow
        by_cases hsame : row = key
        · rw [if_pos hsame] at hrow
          cases hrow
        · rw [if_neg hsame] at hrow; exact hbefore row value hrow

end

theorem rowOperation_spec (hfollows : Follows plan db archive) (h : rowOperation db operation = some next) :
    ∃ orders rows, next = withRows db archive orders rows ∧
      Done operation db archive orders rows := by
  cases operation with
  | insert key amount replace => exact done_insert hfollows h
  | update key newKey amount replace => exact done_update hfollows h
  | delete key => exact done_delete hfollows h

end

/-! ## The upgraded database -/

section
variable {plan : SqlitePositiveAmountUpgrade} {before : Table Int Int} {kept : Int → Bool}
variable {db next : Database}

/-- The archive, against the history: `before` are the orders that were upgraded, and `kept`
says which rows are untouched since. -/
structure Names (plan : SqlitePositiveAmountUpgrade) (before : Table Int Int) (kept : Int → Bool)
    (orders : Table Int Int) (rows : Table Int Archived) : Prop where
  untouched : ∀ key, kept key = true →
    orders.lookup key = (before.lookup key).map (replaceZero plan.replacement key)
  zero : ∀ key row, rows.lookup key = some row →
    row.originalAmount = 0 ∧ (row.restorable = 0 ∨ row.restorable = 1)
  restorable : ∀ key, (∃ row, rows.lookup key = some row ∧ row.restorable = 1) ↔
    before.lookup key = some 0 ∧ kept key = true

structure Upgraded (plan : SqlitePositiveAmountUpgrade) (before : Table Int Int)
    (kept : Int → Bool) (db : Database) : Prop where
  layout : liveDowngradeLayout plan db = true
  created : db.triggers = (List.range 6).map (createTrigger plan)
  plain : captures plan = false
  completed : upgradeNeverCompleted plan db = false
  positive : ∀ key amount, db.orders.rows.lookup key = some amount → 0 < amount
  archived : ∃ archive, db.archive = some archive ∧
    Names plan before kept db.orders.rows archive.rows

theorem Upgraded.follows (h : Upgraded plan before kept db) {archive : Created Archived}
    (harchive : db.archive = some archive) : Follows plan db archive := by
  have hlayout := h.layout
  simp only [liveDowngradeLayout, exactArchive, harchive, any_some, exactTable, Bool.and_eq_true,
    beq_iff_eq] at hlayout
  exact ⟨h.created, harchive, hlayout.1.1.1.1.1.2.1, h.plain⟩

theorem positiveAmountRows_iff : positiveAmountRows db = true ↔
    ∀ key amount, db.orders.rows.lookup key = some amount → 0 < amount := by
  rw [positiveAmountRows, every_iff]; simp

theorem sourceAmountRows_iff : sourceAmountRows db = true ↔
    ∀ key amount, db.orders.rows.lookup key = some amount → 0 ≤ amount := by
  rw [sourceAmountRows, every_iff]; simp

theorem retainedArchiveRows_iff {archive : Created Archived} (harchive : db.archive = some archive) :
    retainedArchiveRows db = true ↔ ∀ key row, archive.rows.lookup key = some row →
      row.originalAmount = 0 ∧ (row.restorable = 0 ∨ row.restorable = 1) := by
  rw [retainedArchiveRows, harchive, any_some, every_iff]; simp

/-- What the downgrade checks of the rows holds. -/
theorem Upgraded.data (h : Upgraded plan before kept db) : liveDowngradeData plan db = true := by
  obtain ⟨archive, harchive, hnames⟩ := h.archived
  rw [liveDowngradeData, Bool.and_eq_true, Bool.and_eq_true]
  refine ⟨⟨positiveAmountRows_iff.mpr h.positive,
    (retainedArchiveRows_iff harchive).mpr hnames.zero⟩, ?_⟩
  rw [restorableAmountRows, harchive, any_some, every_iff]
  intro key row hrow
  by_cases hrestorable : row.restorable = 1
  · obtain ⟨hzero, hkept⟩ := (hnames.restorable key).mp ⟨row, hrow, hrestorable⟩
    have horder := hnames.untouched key hkept
    rw [hzero] at horder; simp [horder, replaceZero]
  · simp [hrestorable]

/-! ## Steps -/

theorem Names.done {operation : RowOperation} {archive : Created Archived}
    {orders : Table Int Int} {rows : Table Int Archived}
    (h : Names plan before kept db.orders.rows archive.rows)
    (hdone : Done operation db archive orders rows) :
    Names plan before (fun row => kept row && !touches operation db row) orders rows := by
  refine ⟨?_, ?_, ?_⟩
  · intro key hkept
    obtain ⟨hkept, htouches⟩ : kept key = true ∧ touches operation db key = false := by
      simpa using hkept
    rw [hdone.kept key htouches]; exact h.untouched key hkept
  · intro key row hrow
    rw [hdone.marks, map_eq_some_iff] at hrow
    obtain ⟨old, hold, hrow⟩ := hrow
    obtain ⟨hzero, hone⟩ := h.zero key old hold
    rw [← hrow, marked]
    by_cases htouches : touches operation db key = true
    · rw [if_pos htouches]; exact ⟨hzero, .inl rfl⟩
    · rw [if_neg htouches]; exact ⟨hzero, hone⟩
  · intro key
    rw [hdone.marks]
    cases htouches : touches operation db key with
    | true =>
      -- A row that is touched is marked, and it is not kept either.
      simp [marked, htouches]
    | false =>
      have hsame : marked (touches operation db) key = id := by
        funext row
        rw [marked, htouches]; rfl
      rw [hsame, map_id, id, h.restorable key]; simp

theorem Upgraded.row (h : Upgraded plan before kept db) (operation : RowOperation) :
    Upgraded plan before (fun row => kept row && !touches operation db row)
      ((rowOperation db operation).getD db) := by
  cases hrow : rowOperation db operation with
  | none =>
    have hkept : (fun row => kept row && !touches operation db row) = kept := by
      funext row
      rw [touches_of_none hrow, Bool.not_false, Bool.and_true]
    rw [hkept]; exact h
  | some next =>
    obtain ⟨archive, harchive, hnames⟩ := h.archived
    obtain ⟨orders, rows, hnext, hdone⟩ :=
      rowOperation_spec (h.follows harchive) hrow
    rw [hnext]
    refine ⟨?_, h.created, h.plain, h.completed, hdone.positive h.positive, _, rfl, hnames.done hdone⟩
    have hlayout := h.layout
    rw [liveDowngradeLayout, pragmas, exactArchive, tables, harchive] at hlayout
    exact hlayout

theorem Upgraded.note (h : Upgraded plan before kept db) (key : Int) (body : Option String) :
    Upgraded plan before kept { db with notes := db.notes.map (noted key body) } := by
  refine ⟨?_, h.created, h.plain, h.completed, h.positive, h.archived⟩
  have hlayout := h.layout
  rw [liveDowngradeLayout, pragmas, exactNotes, tables] at hlayout ⊢
  cases hnotes : db.notes with
  | none => rw [hnotes] at hlayout; exact hlayout
  | some table =>
    rw [hnotes] at hlayout
    cases body with
    | none => exact hlayout
    | some text => exact hlayout

theorem Upgraded.record (h : Upgraded plan before kept db) (attempt : Attempt) :
    Upgraded plan before kept
      { db with events := db.events ++ [nextEntry db.events attempt] } := by
  refine ⟨h.layout, h.created, h.plain, ?_, h.positive, h.archived⟩
  have hcompleted := h.completed
  rw [upgradeNeverCompleted, Bool.not_eq_false', List.any_eq_true] at hcompleted ⊢
  obtain ⟨entry, hmem, hentry⟩ := hcompleted
  exact ⟨entry, List.mem_append_left _ hmem, hentry⟩

/-! ## Upgrade -/

theorem refreshed_restorable (orders : Table Int Int) (key : Int) (row : Archived) :
    (refreshed orders key row).restorable = 1 ↔ orders.lookup key = some 0 := by
  by_cases hzero : orders.lookup key = some 0 <;> simp [refreshed]

theorem archiveZero_eq {key amount : Int} {row : Archived} (h : archiveZero key amount = some row) :
    amount = 0 ∧ row = ⟨0, 1⟩ := by
  rw [archiveZero] at h
  by_cases hzero : amount = 0
  · rw [if_pos hzero] at h
    cases h
    exact ⟨hzero, by rw [hzero]⟩
  · rw [if_neg hzero] at h
    cases h

theorem bind_archiveZero (orders : Table Int Int) (key : Int) :
    (∃ row, (orders.lookup key).bind (archiveZero key) = some row ∧ row.restorable = 1) ↔
      orders.lookup key = some 0 := by
  constructor
  · intro ⟨row, hrow, _⟩
    obtain ⟨amount, hamount, hselect⟩ := bind_eq_some_iff.mp hrow
    rw [hamount, (archiveZero_eq hselect).1]
  · intro hzero; exact ⟨⟨0, 1⟩, by rw [hzero]; rfl, rfl⟩

variable {retained : Bool} {completed : Attempt} {previous : Stored}

/-- The archive after an upgrade: it has the shape the downgrade checks, and its restorable
rows are the orders that were zero. -/
theorem archiveRows_spec (hlayout : liveSourceLayout plan retained db = true)
    (hdata : liveSourceData plan retained db = true) :
    ∃ archive, archiveRows plan retained db = some archive ∧
      exactTable archive plan.archive (archiveDdl plan) = true ∧
      (∀ key row, archive.rows.lookup key = some row →
        row.originalAmount = 0 ∧ (row.restorable = 0 ∨ row.restorable = 1)) ∧
      ∀ key, (∃ row, archive.rows.lookup key = some row ∧ row.restorable = 1) ↔
        db.orders.rows.lookup key = some 0 := by
  cases retained with
  | false =>
    obtain ⟨added, hadded, hlookup⟩ := @addRows_select Int Int Archived _ archiveZero
      db.orders.rows ∅ (fun key _ _ _ => notMem_empty key)
    refine ⟨⟨plan.archive, archiveDdl plan, added⟩, ?_, ?_, ?_, ?_⟩
    · rw [archiveRows, hadded]; rfl
    · simp [exactTable]
    · intro key row hrow
      have hrow' : added.lookup key = some row := hrow
      rw [hlookup, lookup_empty, or_none, bind_eq_some_iff] at hrow'
      obtain ⟨amount, -, hamount⟩ := hrow'
      rw [(archiveZero_eq hamount).2]; exact ⟨rfl, .inr rfl⟩
    · intro key
      rw [hlookup, lookup_empty, or_none]
      exact bind_archiveZero db.orders.rows key
  | true =>
    simp only [liveSourceLayout, ↓reduceIte, Bool.and_eq_true] at hlayout
    simp only [liveSourceData, ↓reduceIte, Bool.and_eq_true] at hdata
    obtain ⟨table, harchive, htable⟩ := (any_eq_true _ _).mp hlayout.2.1
    have hrows := (retainedArchiveRows_iff harchive).mp hdata.2.2
    obtain ⟨added, hadded, hlookup⟩ := @addRows_select Int Int Archived _
      (fun key amount => if key ∈ edit (refreshed db.orders.rows) table.rows then none
        else archiveZero key amount) db.orders.rows (edit (refreshed db.orders.rows) table.rows)
      (by
        intro key amount _ hselect hmem
        rw [if_pos hmem] at hselect
        cases hselect)
    -- A row of the archive stays, and every other one is selected from the orders.
    have hin : ∀ key row, table.rows.lookup key = some row →
        added.lookup key = some (refreshed db.orders.rows key row) := by
      intro key row hrow
      have hmem : key ∈ edit (refreshed db.orders.rows) table.rows := by
        rw [mem_edit, ← lookup_isSome, hrow]; rfl
      rw [hlookup, lookup_edit, hrow]; simp [hmem]
    have hout : ∀ key, table.rows.lookup key = none →
        added.lookup key = (db.orders.rows.lookup key).bind (archiveZero key) := by
      intro key hnone
      have hmem : key ∉ edit (refreshed db.orders.rows) table.rows := by
        rw [mem_edit, ← lookup_eq_none]; exact hnone
      rw [hlookup, lookup_edit, hnone]; simp [hmem]
    refine ⟨{ table with rows := added }, ?_, htable, ?_, ?_⟩
    · rw [archiveRows, harchive]
      dsimp only
      rw [hadded]; rfl
    · intro key row hrow
      have hrow' : added.lookup key = some row := hrow
      cases hcase : table.rows.lookup key with
      | some old =>
        rw [hin key old hcase, some.injEq] at hrow'
        rw [← hrow']
        refine ⟨(hrows key old hcase).1, ?_⟩
        by_cases hzero : db.orders.rows.lookup key = some 0 <;> simp [refreshed, hzero]
      | none =>
        rw [hout key hcase, bind_eq_some_iff] at hrow'
        obtain ⟨amount, -, hamount⟩ := hrow'
        rw [(archiveZero_eq hamount).2]; exact ⟨rfl, .inr rfl⟩
    · intro key
      cases hcase : table.rows.lookup key with
      | some old =>
        rw [hin key old hcase, ← refreshed_restorable _ key old]; simp
      | none =>
        rw [hout key hcase]; exact bind_archiveZero db.orders.rows key

theorem advance_of {attempt : Attempt} {event : Transition} {state : DeploymentState}
    (h : advanced attempt event = .ok state) :
    ∃ next, advance attempt event = .ok next ∧ next.id = attempt.id ∧ next.state = state := by
  refine ⟨{ attempt with state := state }, ?_, rfl, rfl⟩
  rw [advance, h]; rfl

theorem migrationCompletion_eq (h : migrationCompletion previous completed db = some next) :
    next = { db with events := db.events ++ [nextEntry db.events completed] } := by
  rw [migrationCompletion, append] at h
  by_cases hroom : maxSequence db.events = previous.sequence ∧ maxSequence db.events + 1 < 2 ^ 63
  · rw [if_pos hroom] at h
    cases h
    rfl
  · rw [if_neg hroom] at h
    cases h

theorem notesTable_spec (hlayout : liveSourceLayout plan retained db = true) :
    ∃ notes, notesTable plan retained db = some notes ∧
      exactTable notes plan.notes (notesDdl plan) = true := by
  cases retained with
  | false => exact ⟨⟨plan.notes, notesDdl plan, ∅⟩, rfl, by simp [exactTable]⟩
  | true =>
    simp only [liveSourceLayout, ↓reduceIte, Bool.and_eq_true] at hlayout
    exact (any_eq_true _ _).mp hlayout.2.2

theorem created_triggers (plan : SqlitePositiveAmountUpgrade)
    (h : db.triggers = (List.range 6).map (createTrigger plan)) :
    (List.range 6).all (fun index => triggerPresent plan index db) = true := by
  rw [List.all_eq_true]
  intro index hindex
  rw [triggerPresent, h, List.any_eq_true]
  exact ⟨createTrigger plan index, List.mem_map_of_mem hindex, by simp [createTrigger]⟩

/-- The tables that are made hide no pragma. -/
theorem pragmas_upgraded (hpragmas : pragmas db = true) (hplain : unambiguous plan = true)
    (husable : [plan.orders, plan.archive, plan.notes].all usable = true)
    (htables : tables next = [db.orders.name, "loom_deploy_events", plan.archive, plan.notes]) :
    pragmas next = true := by
  have horders : db.orders.name ∈ tables db := by simp [tables]
  simp only [pragmas, List.all_cons, List.all_nil, Bool.and_true, Bool.and_eq_true,
    Bool.not_eq_true', decide_eq_false_iff_not] at hpragmas ⊢
  simp only [unambiguous, usable, List.all_cons, List.all_nil, Bool.and_true, Bool.and_eq_true,
    bne_iff_ne] at hplain husable
  have hinfo : db.orders.name ≠ "pragma_table_info" := fun h => hpragmas.1 (h ▸ horders)
  have hkeys : db.orders.name ≠ "pragma_foreign_key_list" := fun h => hpragmas.2 (h ▸ horders)
  rw [htables]
  constructor
  · simp [hinfo.symm, husable.2.1.2.symm, husable.2.2.2.symm]
  · simp [hkeys.symm, hplain.1.2.symm, hplain.2.symm]

/-- Whatever was there before, an upgrade that succeeds leaves an upgraded database. -/
theorem upgraded_of_transaction (hplain : unambiguous plan = true) (hid : completed.id = plan.attemptId)
    (hstate : completed.state = .complete)
    (h : upgradeTransaction plan previous completed retained db = some next) :
    Upgraded plan db.orders.rows (fun _ => true) next := by
  rw [upgradeTransaction] at h
  by_cases hchecks : (migrationEventGuard previous db && liveSourceLayout plan retained db &&
      liveSourceData plan retained db && [plan.orders, plan.archive, plan.notes].all usable) = true
  swap
  · rw [if_neg hchecks] at h
    cases h
  rw [if_pos hchecks] at h
  simp only [Bool.and_eq_true] at hchecks
  obtain ⟨⟨⟨-, hlayout⟩, hdata⟩, husable⟩ := hchecks
  obtain ⟨archive, harchive, htable, hzero, hrestorable⟩ := archiveRows_spec hlayout hdata
  obtain ⟨notes, hnotes, hexact⟩ := notesTable_spec hlayout
  rw [harchive, hnotes] at h
  dsimp only at h
  split at h
  case isFalse => cases h
  case isTrue hpositive =>
    rw [migrationCompletion_eq h]
    refine ⟨?_, rfl, ?_, ?_, positiveAmountRows_iff.mp hpositive, archive, rfl, ?_, hzero, ?_⟩
    · simp only [liveSourceLayout, Bool.and_eq_true] at hlayout
      simp only [liveDowngradeLayout, Bool.and_eq_true]
      have hnames : archive.name = plan.archive ∧ notes.name = plan.notes := by
        simp only [exactTable, Bool.and_eq_true, beq_iff_eq] at htable hexact
        exact ⟨htable.1, hexact.1⟩
      refine ⟨⟨⟨⟨⟨⟨hlayout.1.1.1.1, htable⟩, hexact⟩, rfl⟩, ?_⟩, rfl⟩, created_triggers plan rfl⟩
      exact pragmas_upgraded hlayout.1.2 hplain husable (by simp [tables, hnames])
    · simp only [unambiguous, Bool.and_eq_true, Bool.not_eq_true'] at hplain
      exact hplain.1.1
    · rw [upgradeNeverCompleted, Bool.not_eq_false']
      simp [nextEntry, hid, hstate]
    · intro key _; exact lookup_edit _ _ _
    · intro key
      rw [hrestorable key]; simp

/-- The same, of the mode that checks the attempt. -/
theorem upgraded_of_mode {planIdentity : Text} {policy : FailurePolicy}
    (hplain : unambiguous plan = true)
    (h : upgradeMode plan planIdentity policy retained previous db = .ok (completed, next)) :
    Upgraded plan db.orders.rows (fun _ => true) next := by
  rw [upgradeMode] at h
  by_cases hmatches : previous.attempt.id ≠ plan.attemptId ∨
      previous.attempt.fromBasis ≠ plan.fromBasis ∨ previous.attempt.toBasis ≠ plan.toBasis ∨
      previous.attempt.planDigest ≠ planIdentity ∨ previous.attempt.state ≠ .started ∨
      previous.attempt.policy ≠ policy
  · rw [if_pos hmatches] at h
    cases h
  rw [if_neg hmatches] at h
  simp only [not_or, not_not] at hmatches
  obtain ⟨hid, -, -, -, hstarted, -⟩ := hmatches
  have hadvanced : advanced previous.attempt .finish = .ok .complete := by
    simp [advanced, hstarted]
  obtain ⟨finished, hfinished, hsame, hstate⟩ := advance_of hadvanced
  rw [hfinished, ok_bind] at h
  cases htransaction : upgradeTransaction plan previous finished retained db with
  | none =>
    rw [htransaction] at h
    cases h
  | some after =>
    rw [htransaction] at h
    cases h
    exact upgraded_of_transaction hplain (hsame.trans hid) hstate htransaction

/-! ## Downgrade -/

theorem maxSequence_of_guard {started : Stored} (h : migrationEventGuard started db = true) :
    maxSequence db.events = started.sequence := by
  rw [migrationEventGuard, Bool.and_eq_true, beq_iff_eq] at h; exact h.1

/-- The amount that is restored is zero for the rows that were zero and are untouched. -/
theorem lookup_restored {orders : Table Int Int} {rows : Table Int Archived}
    (h : Names plan before kept orders rows) (key : Int) :
    (edit (restored plan rows) orders).lookup key =
      if before.lookup key = some 0 ∧ kept key = true then some 0 else orders.lookup key := by
  rw [lookup_edit]
  by_cases hkept : before.lookup key = some 0 ∧ kept key = true
  · obtain ⟨row, hrow, hrestorable⟩ := (h.restorable key).mpr hkept
    have horder := h.untouched key hkept.2
    rw [hkept.1] at horder
    rw [if_pos hkept, horder]
    simp [restored, hrow, hrestorable, (h.zero key row hrow).1, replaceZero]
  · rw [if_neg hkept]
    have hnever : (rows.lookup key).any (fun row => row.restorable == 1) = false := by
      by_contra hsome
      obtain ⟨row, hrow, hrestorable⟩ := (any_eq_true _ _).mp (by simpa using hsome)
      exact hkept ((h.restorable key).mp ⟨row, hrow, by simpa using hrestorable⟩)
    have hsame : restored plan rows key = id := by
      funext amount
      rw [restored]
      cases hrow : rows.lookup key with
      | none => rfl
      | some row =>
        rw [hrow, any_some] at hnever
        rw [any_some, hnever]; rfl
    rw [hsame, map_id, id]

/-- The database after the update of the downgrade. -/
def restoredRows (plan : SqlitePositiveAmountUpgrade) (archive : Created Archived)
    (db : Database) : Database :=
  { withRows db archive (edit (restored plan archive.rows) db.orders.rows) archive.rows with
    triggers := [] }

/-- The checks of the downgrade hold, and it restores the rows that were zero and are
untouched. -/
theorem Upgraded.downgrade (h : Upgraded plan before kept db) {started : Stored}
    (hid : started.attempt.id = plan.attemptId) (hstate : started.attempt.state = .rollbackStarted)
    (hguard : migrationEventGuard started db = true) (hroom : started.sequence + 1 < 2 ^ 63) :
    ∃ completed after, downgradeMode plan started db = .ok (completed, after) ∧
      completed.state = .rollbackComplete ∧
      (∀ key, after.orders.rows.lookup key =
        if before.lookup key = some 0 ∧ kept key = true then some 0
        else db.orders.rows.lookup key) ∧
      after.archive = db.archive ∧ after.notes = db.notes ∧ after.triggers = [] := by
  obtain ⟨archive, harchive, hnames⟩ := h.archived
  have hadvanced : advanced started.attempt .finishRollback = .ok .rollbackComplete := by
    simp [advanced, hstate]
  obtain ⟨completed, hfinish, -, hcompleted⟩ := advance_of hadvanced
  have hmax := maxSequence_of_guard hguard
  have hsource : sourceAmountRows (restoredRows plan archive db) = true := by
    rw [sourceAmountRows_iff]
    intro key amount hamount
    have hrow : (edit (restored plan archive.rows) db.orders.rows).lookup key = some amount :=
      hamount
    rw [lookup_restored hnames] at hrow
    by_cases hkept : before.lookup key = some 0 ∧ kept key = true
    · rw [if_pos hkept, some.injEq] at hrow; omega
    · rw [if_neg hkept] at hrow
      have hpositive := h.positive key amount hrow
      omega
  have hcompletion : migrationCompletion started completed (restoredRows plan archive db) =
      some { restoredRows plan archive db with
        events := db.events ++ [nextEntry db.events completed] } := by
    rw [migrationCompletion, append, if_pos ⟨hmax, by rw [restoredRows, withRows, hmax]; exact hroom⟩]
    rfl
  refine ⟨completed, { restoredRows plan archive db with
    events := db.events ++ [nextEntry db.events completed] }, ?_, hcompleted,
    lookup_restored hnames, harchive.symm, rfl, rfl⟩
  rw [downgradeMode, if_neg (by simp [hid, hstate]), hfinish, ok_bind, downgradeTransaction,
    if_pos (by simp [hguard, h.completed, h.layout, h.data]), harchive]
  have hsame : ({ db with
      archive := some archive
      triggers := []
      orders := { db.orders with rows := edit (restored plan archive.rows) db.orders.rows } } :
        Database) = restoredRows plan archive db := rfl
  dsimp only at hsame ⊢
  rw [hsame, if_pos hsource, hcompletion]

end

/-! ## Runs -/

/-- What is kept of the history is true of the database. -/
def Meets (w : World) : Prop :=
  match w.phase with
  | .source => True
  | .target plan before kept => Upgraded plan before kept w.database

theorem step_meets {w next : World} {action : Action} (h : Meets w)
    (hplans : unambiguousPlans w action = true) (hstep : step w action = some next) :
    Meets next := by
  obtain ⟨db, phase⟩ := w
  cases action with
  | record attempt =>
    cases hstep
    cases phase with
    | source => trivial
    | target plan before kept => exact Upgraded.record h attempt
  | row operation =>
    cases hstep
    cases phase with
    | source => trivial
    | target plan before kept => exact Upgraded.row h operation
  | note key body =>
    cases hstep
    cases phase with
    | source => trivial
    | target plan before kept => exact Upgraded.note h key body
  | upgrade plan planIdentity policy retained previous =>
    rw [step] at hstep
    split at hstep
    case isTrue =>
      split at hstep
      case h_1 completed after hmode =>
        cases hstep
        exact upgraded_of_mode hplans hmode
      case h_2 => cases hstep
    case isFalse => cases hstep
  | downgrade plan started =>
    rw [step] at hstep
    split at hstep
    case isTrue =>
      split at hstep
      case h_1 => cases hstep; trivial
      case h_2 => cases hstep
    case isFalse => cases hstep

/-- In every state that is upgraded, of every run with unambiguous plans, the checks of the
downgrade hold. The downgrade restores the rows that were zero before the last upgrade and are
untouched since, and leaves every other row, the archive and the notes as they are. -/
theorem upgrade_reversible {first w : World} (hfirst : first.phase = .source)
    (h : Reaches step unambiguousPlans first w) {plan : SqlitePositiveAmountUpgrade}
    {before : Table Int Int} {kept : Int → Bool} (hphase : w.phase = .target plan before kept) :
    liveDowngradeLayout plan w.database = true ∧ liveDowngradeData plan w.database = true ∧
      upgradeNeverCompleted plan w.database = false ∧
      ∀ started : Stored, started.attempt.id = plan.attemptId →
        started.attempt.state = .rollbackStarted →
        migrationEventGuard started w.database = true → started.sequence + 1 < 2 ^ 63 →
        ∃ completed after, downgradeMode plan started w.database = .ok (completed, after) ∧
          completed.state = .rollbackComplete ∧
          (∀ key, after.orders.rows.lookup key =
            if before.lookup key = some 0 ∧ kept key = true then some 0
            else w.database.orders.rows.lookup key) ∧
          after.archive = w.database.archive ∧ after.notes = w.database.notes ∧
          after.triggers = [] := by
  have hmeets : Meets w := by
    refine h.invariant Meets ?_ (fun hbefore hplans hstep => step_meets hbefore hplans hstep)
    rw [Meets, hfirst]; trivial
  rw [Meets, hphase] at hmeets
  exact ⟨hmeets.layout, hmeets.data, hmeets.completed,
    fun _ hid hstate hguard hroom => hmeets.downgrade hid hstate hguard hroom⟩

/-! ### A run -/

def smallPlan : SqlitePositiveAmountUpgrade :=
  ⟨[97], List.replicate 64 98, List.replicate 64 99,
   "orders", "id", "amount", "archive", "notes", "id", "body", 7⟩

def smallAttempt (state : DeploymentState) : Attempt :=
  ⟨[97], List.replicate 64 98, List.replicate 64 99, [100], .stop, state⟩

def smallDatabase (plan : SqlitePositiveAmountUpgrade) : Database :=
  ⟨[⟨1, smallAttempt .started⟩],
    ⟨"orders", sourceDdl plan,
      (((∅ : Table Int Int).insert 3 0).insert 2 5).insert 1 0⟩, none, none, []⟩

/-- One of the zeros is deleted and inserted again, the other is written back. -/
def smallHistory : List Action :=
  [.upgrade smallPlan [100] .stop false ⟨1, smallAttempt .started, .none⟩,
    .row (.delete 1), .row (.insert 1 7 false), .row (.update 3 3 (some 7) false),
    .record (smallAttempt .rollbackStarted)]

theorem upgrade_reversible_small :
    ∃ w, run step unambiguousPlans ⟨smallDatabase smallPlan, .source⟩ smallHistory = some w ∧
      ∃ completed after,
        downgradeMode smallPlan ⟨3, smallAttempt .rollbackStarted, .none⟩ w.database =
          .ok (completed, after) ∧
        after.orders.rows.lookup 3 = some 0 ∧ after.orders.rows.lookup 1 = some 7 := by
  have hready : (run step unambiguousPlans ⟨smallDatabase smallPlan, .source⟩ smallHistory).any (fun w =>
      match w.phase with
      | .source => false
      | .target plan before kept =>
        decide (plan = smallPlan ∧ before.lookup 3 = some 0 ∧ kept 3 = true ∧ kept 1 = false ∧
          w.database.orders.rows.lookup 1 = some 7) &&
        migrationEventGuard ⟨3, smallAttempt .rollbackStarted, .none⟩ w.database) = true := by
    decide
  obtain ⟨w, hrun, hphase⟩ := (any_eq_true _ _).mp hready
  cases hcase : w.phase with
  | source =>
    rw [hcase] at hphase
    cases hphase
  | target plan before kept =>
    rw [hcase, Bool.and_eq_true, decide_eq_true_eq] at hphase
    obtain ⟨⟨hplan, hzero, hthree, hone, hrow⟩, hguard⟩ := hphase
    rw [hplan] at hcase
    obtain ⟨-, -, -, hdowngrade⟩ := upgrade_reversible rfl (reaches_of_run hrun) hcase
    obtain ⟨completed, after, hmode, -, hrows, -⟩ :=
      hdowngrade ⟨3, smallAttempt .rollbackStarted, .none⟩ rfl rfl hguard (by decide)
    refine ⟨w, hrun, completed, after, hmode, ?_, ?_⟩
    · rw [hrows, if_pos ⟨hzero, hthree⟩]
    · rw [hrows, if_neg (by simp [hone]), hrow]

/-- The archive of this plan has the name of the row before a change, and a column of the name of
the key: `OLD."entity_id"` is the key of the archived row itself, so every row is marked. -/
def oldPlan : SqlitePositiveAmountUpgrade :=
  { smallPlan with orderId := "entity_id", archive := "old" }

/-- A row that was never zero is deleted. -/
def oldHistory : List Action :=
  [.upgrade oldPlan [100] .stop false ⟨1, smallAttempt .started, .none⟩, .row (.delete 2),
    .record (smallAttempt .rollbackStarted)]

set_option maxRecDepth 1000 in
/-- The third row was zero and is untouched, and the downgrade leaves the replacement there. -/
theorem not_upgrade_reversible : ∃ w before kept,
    run step always ⟨smallDatabase oldPlan, .source⟩ oldHistory = some w ∧
      w.phase = .target oldPlan before kept ∧ before.lookup 3 = some 0 ∧ kept 3 = true ∧
      ∃ completed after,
        downgradeMode oldPlan ⟨3, smallAttempt .rollbackStarted, .none⟩ w.database =
          .ok (completed, after) ∧ after.orders.rows.lookup 3 = some 7 := by
  have hready : (run step always ⟨smallDatabase oldPlan, .source⟩ oldHistory).any (fun w =>
      match w.phase, downgradeMode oldPlan ⟨3, smallAttempt .rollbackStarted, .none⟩ w.database with
      | .target plan before kept, .ok (_, after) =>
        decide (plan = oldPlan ∧ before.lookup 3 = some 0 ∧ kept 3 = true ∧
          after.orders.rows.lookup 3 = some 7)
      | _, _ => false) = true := by
    decide
  obtain ⟨w, hrun, hphase⟩ := (any_eq_true _ _).mp hready
  split at hphase
  case h_1 plan before kept completed after hcase hmode =>
    obtain ⟨rfl, hzero, hthree, hrow⟩ := of_decide_eq_true hphase
    exact ⟨w, before, kept, hrun, hcase, hzero, hthree, completed, after, hmode, hrow⟩
  case h_2 => cases hphase

end Loom.Migration

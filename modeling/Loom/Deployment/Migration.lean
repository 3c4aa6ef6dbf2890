import Loom.Deployment.Ledger
import Loom.Library.Rows

/-
  The reversible upgrade of a table of amounts, and its downgrade.

  The upgrade archives the rows whose amount is zero and replaces their amounts;
  six triggers of the upgraded database follow what is done to the rows. The
  downgrade restores the archived zeros of the rows that are untouched.

  Correspondence (sqlite_migration.loom, sqlite_migration_recovery.loom ↔ Lean), where names differ:
    `source_ddl`, `archive_ddl`, `notes_ddl`, `trigger_name`, `trigger_sql` ↔ the same texts
    `live_source_layout`, `live_source_data`, `live_downgrade_layout`,
    `live_downgrade_data` and their parts ↔ the conditions they state
    the script of `upgrade_mode` ↔ `upgradeTransaction`, `upgradeMode`
    the script of the downgrade ↔ `downgradeTransaction`, `downgradeMode`
    INSERT, UPDATE and DELETE of a row, with the triggers that fire ↔ `rowOperation`
    a qualified name in the body of a trigger ↔ `Trigger.reference`
  A name in a statement is looked up in the tables of the statement first. So a table that is
  named as something else that a statement refers to takes its place: an archive named old or
  new the row of a trigger, and a table named as a pragma its function, which is an error.
  The columns are STRICT and NOT NULL, so every amount is an integer and every body
  a text. What the pragmas tell of a table follows from its definition, which is
  compared as text; there are no indexes. A statement on several rows does one row after the other; one
  that aborts, and a script that fails a check, leave the database as it was.
  `latest` and the other events of the ledger are in the ledger's own model.
-/

namespace Loom.Migration

open Decimal Deployment Rows

structure SqlitePositiveAmountUpgrade where
  attemptId : Text
  fromBasis : Text
  toBasis : Text
  orders : String
  orderId : String
  amount : String
  archive : String
  notes : String
  noteId : String
  noteBody : String
  replacement : Int
  deriving DecidableEq

/-! ## The database -/

structure Archived where
  originalAmount : Int
  restorable : Int
  deriving DecidableEq

/-- A table with its name and definition. -/
structure Created (α : Type) where
  name : String
  ddl : String
  rows : Table Int α

/-- Triggers have the names of `triggerName`; the index says which one it is. The last four
update the table `archive` where its key is the column `key` of the old or the new row. -/
structure Trigger where
  index : Nat
  table : String
  sql : String
  archive : String
  key : String
  deriving DecidableEq

structure Database where
  events : List Entry
  orders : Created Int
  archive : Option (Created Archived)
  notes : Option (Created String)
  triggers : List Trigger

/-! ## Plans -/

def sqlName (value : String) : Bool :=
  value != "" && value.length ≤ 63 &&
    (value.toList.map Char.toNat).zipIdx.all fun (part, index) =>
      (part ≥ 97 && part ≤ 122) || part == 95 || (index > 0 && part ≥ 48 && part ≤ 57)

def validPlan (plan : SqlitePositiveAmountUpgrade) : Bool :=
  identifier plan.attemptId && digest plan.fromBasis && digest plan.toBasis &&
    sqlName plan.orders && sqlName plan.orderId && sqlName plan.amount &&
    sqlName plan.archive && sqlName plan.notes && sqlName plan.noteId &&
    sqlName plan.noteBody && plan.replacement > 0 &&
    plan.orders != plan.archive && plan.orders != plan.notes &&
    plan.archive != plan.notes && plan.orderId != plan.amount &&
    plan.noteId != plan.noteBody && plan.orders != "loom_deploy_events" &&
    plan.archive != "loom_deploy_events" && plan.notes != "loom_deploy_events"

/-- Whether the upgrade can have a table of this name. SQLite keeps the names with sqlite_ for
itself, the temporary table of the checks hides one of its own name, and the upgrade reads
`pragma_table_info` when its tables are made. -/
def usable (name : String) : Bool :=
  !"sqlite_".toList.isPrefixOf name.toList && name != "loom_migration_checks" &&
    name != "pragma_table_info"

/-! ## Definitions as text -/

def quoted (value : String) : String := "\"" ++ value ++ "\""

def sourceDdl (plan : SqlitePositiveAmountUpgrade) : String :=
  "CREATE TABLE " ++ quoted plan.orders ++ "(" ++ quoted plan.orderId ++
    " INTEGER PRIMARY KEY, " ++ quoted plan.amount ++ " INTEGER NOT NULL CHECK(" ++
    quoted plan.amount ++ ">=0)) STRICT"

def archiveDdl (plan : SqlitePositiveAmountUpgrade) : String :=
  "CREATE TABLE " ++ quoted plan.archive ++
    "(entity_id INTEGER PRIMARY KEY, original_amount INTEGER NOT NULL, " ++
    "restorable INTEGER NOT NULL DEFAULT 1 CHECK(restorable IN (0,1))) STRICT"

def notesDdl (plan : SqlitePositiveAmountUpgrade) : String :=
  "CREATE TABLE " ++ quoted plan.notes ++ "(" ++ quoted plan.noteId ++
    " INTEGER PRIMARY KEY, " ++ quoted plan.noteBody ++ " TEXT NOT NULL) STRICT"

def triggerName (index : Nat) : String :=
  if index = 0 then "loom_positive_insert"
  else if index = 1 then "loom_positive_update"
  else if index = 2 then "loom_archive_amount_update"
  else if index = 3 then "loom_archive_key_update"
  else if index = 4 then "loom_archive_delete"
  else "loom_archive_insert"

def triggerSql (plan : SqlitePositiveAmountUpgrade) (index : Nat) : String :=
  let orders := quoted plan.orders
  let key := quoted plan.orderId
  let amount := quoted plan.amount
  let archive := quoted plan.archive
  let refused := " WHEN typeof(NEW." ++ amount ++ ")!='integer' OR NEW." ++ amount ++
    "<=0 BEGIN SELECT RAISE(ABORT,'amount must be positive integer'); END"
  if index = 0 then "CREATE TRIGGER loom_positive_insert BEFORE INSERT ON " ++ orders ++ refused
  else if index = 1 then
    "CREATE TRIGGER loom_positive_update BEFORE UPDATE OF " ++ amount ++ " ON " ++ orders ++ refused
  else if index = 2 then
    "CREATE TRIGGER loom_archive_amount_update AFTER UPDATE OF " ++ amount ++ " ON " ++ orders ++
      " WHEN NEW." ++ amount ++ "!=OLD." ++ amount ++ " BEGIN UPDATE " ++ archive ++
      " SET restorable=0 WHERE entity_id=OLD." ++ key ++ "; END"
  else if index = 3 then
    "CREATE TRIGGER loom_archive_key_update AFTER UPDATE ON " ++ orders ++
      " WHEN NEW." ++ key ++ "!=OLD." ++ key ++ " BEGIN UPDATE " ++ archive ++
      " SET restorable=0 WHERE entity_id=OLD." ++ key ++ " OR entity_id=NEW." ++ key ++ "; END"
  else if index = 4 then
    "CREATE TRIGGER loom_archive_delete AFTER DELETE ON " ++ orders ++ " BEGIN UPDATE " ++
      archive ++ " SET restorable=0 WHERE entity_id=OLD." ++ key ++ "; END"
  else
    "CREATE TRIGGER loom_archive_insert AFTER INSERT ON " ++ orders ++ " BEGIN UPDATE " ++
      archive ++ " SET restorable=0 WHERE entity_id=NEW." ++ key ++ "; END"

def createTrigger (plan : SqlitePositiveAmountUpgrade) (index : Nat) : Trigger :=
  ⟨index, plan.orders, triggerSql plan index, plan.archive, plan.orderId⟩

/-! ## Rows -/

/-- A statement on one row. An update sets the key, the amount, or both; the flag of an
insert or update is OR REPLACE, which takes the place of the row that has the key. -/
inductive RowOperation where
  | insert (key amount : Int) (replace : Bool)
  | update (key newKey : Int) (amount : Option Int) (replace : Bool)
  | delete (key : Int)
  deriving DecidableEq

def installed (index : Nat) (db : Database) : Bool :=
  db.triggers.any (fun trigger => triggerName trigger.index == triggerName index)

def Archived.column (entity : Int) (row : Archived) (name : String) : Option Int :=
  if name = "entity_id" then some entity
  else if name = "original_amount" then some row.originalAmount
  else if name = "restorable" then some row.restorable
  else none

inductive Qualifier where
  | old | new

def Qualifier.name : Qualifier → String
  | .old => "old"
  | .new => "new"

/-- What `OLD.key` or `NEW.key` reads for a row of the archive. `value` is the key in the row of
the trigger, but a column of the archive comes first, if the archive has the name. -/
def Trigger.reference (trigger : Trigger) (entity : Int) (row : Archived) (qualifier : Qualifier)
    (value : Int) : Int :=
  if trigger.archive = qualifier.name then (row.column entity trigger.key).getD value else value

/-- What is said of an archived row by UPDATE … SET restorable=0 WHERE entity_id=…. -/
def marked (keys : Int → Bool) (key : Int) (row : Archived) : Archived :=
  if keys key then { row with restorable := 0 } else row

/-- The body of a trigger, if it is installed: the rows of the archive with these keys are
marked, read for each row with its references. It fails without the archive. -/
def fire (index : Nat) (keys : (Qualifier → Int → Int) → Int → Bool) (db : Database) :
    Option Database :=
  match db.triggers.find? (fun trigger => triggerName trigger.index == triggerName index) with
  | none => some db
  | some trigger =>
    match db.archive with
    | none => none
    | some archive =>
      if archive.name ≠ trigger.archive then none
      else some { db with archive := some { archive with
        rows := edit (fun entity row => marked (keys (trigger.reference entity row)) entity row)
          archive.rows } }

/-- A row is inserted, updated or deleted, with the triggers of the table. A statement that
is refused gives nothing. -/
def rowOperation (db : Database) : RowOperation → Option Database
  | .insert key amount replace =>
    if installed 0 db ∧ amount ≤ 0 then none
    else if amount < 0 then none
    else if key ∈ db.orders.rows ∧ ¬replace then none
    else
      fire 5 (fun read other => other == read .new key)
        { db with orders := { db.orders with rows := db.orders.rows.insert key amount } }
  | .update key newKey amount replace =>
    match db.orders.rows.lookup key with
    | none => some db
    | some old =>
      let new := amount.getD old
      if amount.isSome ∧ installed 1 db ∧ new ≤ 0 then none
      else if new < 0 then none
      else if newKey ≠ key ∧ newKey ∈ db.orders.rows ∧ ¬replace then none
      else
        let rows := (db.orders.rows.erase key).insert newKey new
        match (if new ≠ old then fire 2 (fun read other => other == read .old key)
            { db with orders := { db.orders with rows := rows } }
          else some { db with orders := { db.orders with rows := rows } }) with
        | none => none
        | some db =>
          if newKey ≠ key then
            fire 3 (fun read other => other == read .old key || other == read .new newKey) db
          else some db
  | .delete key =>
    match db.orders.rows.lookup key with
    | none => some db
    | some _ =>
      fire 4 (fun read other => other == read .old key)
        { db with orders := { db.orders with rows := db.orders.rows.erase key } }

/-! ## Checks -/

def tables (db : Database) : List String :=
  [db.orders.name, "loom_deploy_events"] ++ (db.archive.map Created.name).toList ++
    (db.notes.map Created.name).toList

/-- The functions of the pragmas, which a table of their name hides. -/
def pragmas (db : Database) : Bool :=
  ["pragma_table_info", "pragma_foreign_key_list"].all (fun name => !decide (name ∈ tables db))

def schemaObject (db : Database) (name : String) : Bool :=
  decide (name ∈ tables db) || db.triggers.any (fun trigger => triggerName trigger.index == name)

def exactTable {α : Type} (table : Created α) (name ddl : String) : Bool :=
  table.name == name && table.ddl == ddl

def exactArchive (plan : SqlitePositiveAmountUpgrade) (db : Database) : Bool :=
  db.archive.any (fun table => exactTable table plan.archive (archiveDdl plan))

def exactNotes (plan : SqlitePositiveAmountUpgrade) (db : Database) : Bool :=
  db.notes.any (fun table => exactTable table plan.notes (notesDdl plan))

def liveSourceLayout (plan : SqlitePositiveAmountUpgrade) (retained : Bool) (db : Database) :
    Bool :=
  exactTable db.orders plan.orders (sourceDdl plan) &&
    (tables db).length == (if retained then 4 else 2) && db.triggers.isEmpty && pragmas db &&
    if retained then exactArchive plan db && exactNotes plan db
    else !schemaObject db plan.archive && !schemaObject db plan.notes

def sourceAmountRows (db : Database) : Bool := every (fun _ amount => !(amount < 0)) db.orders.rows

def positiveAmountRows (db : Database) : Bool :=
  every (fun _ amount => !(amount ≤ 0)) db.orders.rows

def retainedArchiveRows (db : Database) : Bool :=
  db.archive.any (fun table => every
    (fun _ row => !(row.originalAmount ≠ 0 || (row.restorable ≠ 0 && row.restorable ≠ 1)))
    table.rows)

/-- The last attempt that reached an upgraded database, other than this one, was rolled back
from the same target to the same source. -/
def retainedLineage (plan : SqlitePositiveAmountUpgrade) (db : Database) : Bool :=
  let reached := db.events.reverse.find? (fun entry =>
    (entry.attempt.state == .complete || entry.attempt.state == .assumedComplete) &&
      entry.attempt.id != plan.attemptId)
  reached.any (fun last => db.events.any (fun entry =>
    entry.attempt.id == last.attempt.id && entry.attempt.state == .rollbackComplete &&
      entry.attempt.fromBasis == plan.fromBasis && entry.attempt.toBasis == plan.toBasis))

def liveSourceData (plan : SqlitePositiveAmountUpgrade) (retained : Bool) (db : Database) : Bool :=
  sourceAmountRows db && if retained then retainedLineage plan db && retainedArchiveRows db else true

def restorableAmountRows (plan : SqlitePositiveAmountUpgrade) (db : Database) : Bool :=
  db.archive.any (fun table => every
    (fun key row => !(row.restorable = 1 && db.orders.rows.lookup key ≠ some plan.replacement))
    table.rows)

def triggerPresent (plan : SqlitePositiveAmountUpgrade) (index : Nat) (db : Database) : Bool :=
  db.triggers.any (fun trigger => triggerName trigger.index == triggerName index &&
    trigger.table == plan.orders && trigger.sql == triggerSql plan index)

def liveDowngradeLayout (plan : SqlitePositiveAmountUpgrade) (db : Database) : Bool :=
  exactTable db.orders plan.orders (sourceDdl plan) && exactArchive plan db && exactNotes plan db &&
    (tables db).length == 4 && pragmas db && db.triggers.length == 6 &&
    (List.range 6).all (fun index => triggerPresent plan index db)

def liveDowngradeData (plan : SqlitePositiveAmountUpgrade) (db : Database) : Bool :=
  positiveAmountRows db && retainedArchiveRows db && restorableAmountRows plan db

def upgradeNeverCompleted (plan : SqlitePositiveAmountUpgrade) (db : Database) : Bool :=
  !db.events.any (fun entry => entry.attempt.id == plan.attemptId && entry.attempt.state == .complete)

/-- The ledger still ends with the event that was read. -/
def migrationEventGuard (previous : Stored) (db : Database) : Bool :=
  maxSequence db.events == previous.sequence &&
    db.events.any (fun entry => entry.sequence == previous.sequence &&
      entry.attempt == previous.attempt)

def migrationCompletion (previous : Stored) (completed : Attempt) (db : Database) :
    Option Database :=
  match append db.events previous.sequence completed with
  | .ok events => some { db with events := events }
  | .error _ => none

/-! ## Upgrade -/

def replaceZero (replacement : Int) (_ amount : Int) : Int :=
  if amount = 0 then replacement else amount

/-- The rows with amount zero, as they are archived. -/
def archiveZero (_ amount : Int) : Option Archived :=
  if amount = 0 then some ⟨amount, 1⟩ else none

/-- The archive keeps its rows; those are restorable whose order is zero again. -/
def refreshed (orders : Table Int Int) (key : Int) (row : Archived) : Archived :=
  { row with restorable := if orders.lookup key = some 0 then 1 else 0 }

/-- The archive of the zeros: a new table, or the retained one with the rows that are not in it. -/
def archiveRows (plan : SqlitePositiveAmountUpgrade) (retained : Bool) (db : Database) :
    Option (Created Archived) :=
  let orders := db.orders.rows
  if retained then
    match db.archive with
    | none => none
    | some table =>
      let rows := edit (refreshed orders) table.rows
      (addRows (fun key amount => if key ∈ rows then none else archiveZero key amount)
        orders.entries rows).map (fun rows => { table with rows := rows })
  else
    (addRows archiveZero orders.entries ∅).map
      (fun rows => ⟨plan.archive, archiveDdl plan, rows⟩)

def notesTable (plan : SqlitePositiveAmountUpgrade) (retained : Bool) (db : Database) :
    Option (Created String) :=
  if retained then db.notes else some ⟨plan.notes, notesDdl plan, ∅⟩

def upgradeTransaction (plan : SqlitePositiveAmountUpgrade) (previous : Stored)
    (completed : Attempt) (retained : Bool) (db : Database) : Option Database :=
  if migrationEventGuard previous db && liveSourceLayout plan retained db &&
      liveSourceData plan retained db && [plan.orders, plan.archive, plan.notes].all usable then
    match archiveRows plan retained db with
    | none => none
    | some archive =>
      let upgraded : Database := { db with
        orders := { db.orders with rows := edit (replaceZero plan.replacement) db.orders.rows }
        archive := some archive
        notes := notesTable plan retained db
        triggers := (List.range 6).map (createTrigger plan) }
      if positiveAmountRows upgraded then migrationCompletion previous completed upgraded
      else none
  else none

/-- `upgrade_mode`, from the event that `latest` has read. -/
def upgradeMode (plan : SqlitePositiveAmountUpgrade) (planIdentity : Text) (policy : FailurePolicy)
    (retained : Bool) (previous : Stored) (db : Database) : Except String (Attempt × Database) :=
  if previous.attempt.id ≠ plan.attemptId ∨ previous.attempt.fromBasis ≠ plan.fromBasis ∨
      previous.attempt.toBasis ≠ plan.toBasis ∨ previous.attempt.planDigest ≠ planIdentity ∨
      previous.attempt.state ≠ .started ∨ previous.attempt.policy ≠ policy then
    .error "SQLite upgrade does not match the started attempt"
  else do
    let completed ← advance previous.attempt .finish
    match upgradeTransaction plan previous completed retained db with
    | some db => .ok (completed, db)
    | none => .error "SQLite upgrade failed and was recorded as failed"

/-! ## Downgrade -/

/-- UPDATE … SET amount=0 WHERE EXISTS an archived row that is restorable. -/
def restored (plan : SqlitePositiveAmountUpgrade) (archive : Table Int Archived)
    (key amount : Int) : Int :=
  if (archive.lookup key).any (fun row =>
      row.restorable == 1 && row.originalAmount == 0 && amount == plan.replacement) then 0
  else amount

def downgradeTransaction (plan : SqlitePositiveAmountUpgrade) (started : Stored)
    (completed : Attempt) (db : Database) : Option Database :=
  if migrationEventGuard started db && !upgradeNeverCompleted plan db &&
      liveDowngradeLayout plan db && liveDowngradeData plan db then
    match db.archive with
    | none => none
    | some archive =>
      let downgraded : Database := { db with
        triggers := []
        orders := { db.orders with rows := edit (restored plan archive.rows) db.orders.rows } }
      if sourceAmountRows downgraded then migrationCompletion started completed downgraded
      else none
  else none

/-- The downgrade, from the event RollbackStarted that `latest` has read. -/
def downgradeMode (plan : SqlitePositiveAmountUpgrade) (started : Stored) (db : Database) :
    Except String (Attempt × Database) :=
  if started.attempt.id ≠ plan.attemptId ∨ started.attempt.state ≠ .rollbackStarted then
    .error "rollback attempt changed"
  else do
    let completed ← advance started.attempt .finishRollback
    match downgradeTransaction plan started completed db with
    | some db => .ok (completed, db)
    | none => .error "SQLite downgrade failed and was recorded as failed"

/-! ## Runs -/

/-- What is done to a database. Between the migrations the two versions of the program change
the rows and the notes, and the ledger gets its other events. `validated_package` lets only
valid plans through to a migration. -/
inductive Action where
  | record (attempt : Attempt)
  | row (operation : RowOperation)
  | note (key : Int) (body : Option String)
  | upgrade (plan : SqlitePositiveAmountUpgrade) (planIdentity : Text) (policy : FailurePolicy)
      (retained : Bool) (previous : Stored)
  | downgrade (plan : SqlitePositiveAmountUpgrade) (started : Stored)

/-- The rows that a statement changes, gives another key, deletes or inserts. A row that is
written back as it was is not changed. -/
def meets (orders : Table Int Int) (row : Int) : RowOperation → Bool
  | .insert key _ _ => row == key
  | .update key newKey amount _ =>
    (orders.lookup key).any (fun old =>
      (newKey != key && (row == key || row == newKey)) || (row == key && amount.getD old != old))
  | .delete key => row == key && (orders.lookup key).isSome

/-- A statement that is refused touches no row. -/
def touches (operation : RowOperation) (db : Database) (row : Int) : Bool :=
  (rowOperation db operation).isSome && meets db.orders.rows row operation

/-- Where a database stands. While it is upgraded, what the history says is kept: the plan,
the orders before it, and which rows have not been touched since. -/
inductive Phase where
  | source
  | target (plan : SqlitePositiveAmountUpgrade) (before : Table Int Int) (kept : Int → Bool)

def Phase.after (operation : RowOperation) (db : Database) : Phase → Phase
  | .source => .source
  | .target plan before kept =>
    .target plan before (fun row => kept row && !touches operation db row)

/-- Whether a column of the archive stands for a column of the row of a trigger. -/
def captures (plan : SqlitePositiveAmountUpgrade) : Bool :=
  (plan.archive == "old" || plan.archive == "new") &&
    ["entity_id", "original_amount", "restorable"].contains plan.orderId

/-- The tables of the plan take the place of nothing else. -/
def unambiguous (plan : SqlitePositiveAmountUpgrade) : Bool :=
  !captures plan && plan.archive != "pragma_foreign_key_list" &&
    plan.notes != "pragma_foreign_key_list"

structure World where
  database : Database
  phase : Phase

/-- The upgrades of a run all have unambiguous plans. -/
def unambiguousPlans (_ : World) : Action → Bool
  | .upgrade plan _ _ _ _ => unambiguous plan
  | _ => true

def noted (key : Int) (body : Option String) (table : Created String) : Created String :=
  match body with
  | some body => { table with rows := table.rows.insert key body }
  | none => { table with rows := table.rows.erase key }

def step (w : World) : Action → Option World
  | .record attempt =>
    some { w with database := { w.database with
      events := w.database.events ++ [nextEntry w.database.events attempt] } }
  | .row operation =>
    some ⟨(rowOperation w.database operation).getD w.database, w.phase.after operation w.database⟩
  | .note key body =>
    some { w with database := { w.database with notes := w.database.notes.map (noted key body) } }
  | .upgrade plan planIdentity policy retained previous =>
    if validPlan plan then
      match upgradeMode plan planIdentity policy retained previous w.database with
      | .ok (_, db) => some ⟨db, .target plan w.database.orders.rows (fun _ => true)⟩
      | .error _ => none
    else none
  | .downgrade plan started =>
    if validPlan plan then
      match downgradeMode plan started w.database with
      | .ok (_, db) => some ⟨db, .source⟩
      | .error _ => none
    else none

end Loom.Migration

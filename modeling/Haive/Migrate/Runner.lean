import Mathlib.Data.List.Basic

/-!
# The migration runner

A run of the runner reads the database, decides what kind it is, and applies the files that the
journal does not have. `Sys.step` takes it statement by statement, and `kill` may end it before
any of them. A transactional file and its journal row are one statement. A file that declares
`-- haive:no-transaction` is two.

`executed` is stored nowhere: it lists the files whose script has run, one entry a time. The old
applier's databases start with the baseline in it.
-/

namespace Haive.Migrate

def JOURNAL_TABLE : String := "schema_migrations"

/-- Relations of the `public` schema, columns as `table.column`. -/
structure Schema where
  tables : List String
  columns : List String
deriving DecidableEq, Repr

/-- A loaded file. `noTransaction` is its directive, `creates` and `drops` what its script does. -/
structure Migration where
  id : String
  checksum : String
  noTransaction : Bool
  creates : Schema
  drops : Schema
deriving DecidableEq, Repr

def Migration.script (m : Migration) (schema : Schema) : Schema where
  tables := schema.tables.filter (· ∉ m.drops.tables) ++ m.creates.tables
  columns := schema.columns.filter (· ∉ m.drops.columns) ++ m.creates.columns

structure Baseline extends Migration where
  creates_ne : creates.tables ≠ []
  not_journal : JOURNAL_TABLE ∉ creates.tables

/-- `baselineTableNames`. -/
def Baseline.tables (b : Baseline) : List String := b.creates.tables

/-- `baselineColumns`. -/
def Baseline.columns (b : Baseline) : List String := b.creates.columns

structure Corpus (b : Baseline) where
  rest : List Migration
  distinct : ((b.toMigration :: rest).map (·.id)).Nodup

def Corpus.files {b : Baseline} (c : Corpus b) : List Migration := b.toMigration :: c.rest

/-! ## The database -/

structure AppliedRow where
  id : String
  checksum : String
deriving DecidableEq, Repr

structure Journal where
  columns : List String
  rows : List AppliedRow
deriving DecidableEq, Repr

structure Database where
  schema : Schema
  journal : Option Journal
deriving DecidableEq, Repr

def Database.empty : Database := ⟨⟨[], []⟩, none⟩

/-- `readApplied`. -/
def Database.rows (db : Database) : List AppliedRow :=
  match db.journal with
  | none => []
  | some j => j.rows

def Database.applied (db : Database) : List String := db.rows.map (·.id)

def Database.journalColumns (db : Database) : Option (List String) := db.journal.map (·.columns)

def Database.presentTables (db : Database) : List String :=
  match db.journal with
  | none => db.schema.tables
  | some _ => db.schema.tables ++ [JOURNAL_TABLE]

def Database.ensureJournal (db : Database) : Database :=
  match db.journal with
  | none => { db with
      journal := some ⟨["id", "checksum", "applied_at", "duration_ms", "applied_by", "haive_version"], []⟩ }
  | some _ => db

/-- The id is the primary key: a second row with it is refused. -/
def Database.recordApplied (db : Database) (m : Migration) : Option Database :=
  match db.journal with
  | none => none
  | some j =>
    if m.id ∈ j.rows.map (·.id) then none
    else some { db with journal := some { j with rows := j.rows ++ [⟨m.id, m.checksum⟩] } }

def Database.runSqlScript (db : Database) (m : Migration) : Database := { db with schema := m.script db.schema }

/-! ## Adoption -/

inductive DatabaseClass
  | fresh | legacy | managed | indeterminate | foreignJournal
deriving DecidableEq, Repr

structure Classification where
  kind : DatabaseClass
  missingTables : List String
  missingJournalColumns : List String
deriving DecidableEq, Repr

def REQUIRED_JOURNAL_COLUMNS : List String := ["id", "checksum", "applied_at"]

/-- All of the schema or none of it. -/
def quorum (expectedTables presentTables : List String) : Classification :=
  let missingTables := expectedTables.filter (· ∉ presentTables)
  if missingTables.length = expectedTables.length then ⟨.fresh, [], []⟩
  else if missingTables.length = 0 then ⟨.legacy, [], []⟩
  else ⟨.indeterminate, missingTables, []⟩

def classifyDatabase (expectedTables presentTables : List String) (journalColumns : Option (List String))
    (journalRowCount : Nat) : Classification :=
  match journalColumns with
  | none => quorum expectedTables presentTables
  | some columns =>
    let missingJournalColumns := REQUIRED_JOURNAL_COLUMNS.filter (· ∉ columns)
    if missingJournalColumns.length > 0 then ⟨.foreignJournal, [], missingJournalColumns⟩
    else if journalRowCount > 0 then ⟨.managed, [], []⟩
    else quorum expectedTables presentTables

/-- The columns of the baseline that the database does not have. -/
def columnDrift (baselineColumns presentColumns : List String) : List String :=
  baselineColumns.filter (· ∉ presentColumns)

def Database.classify (b : Baseline) (db : Database) : Classification :=
  classifyDatabase b.tables db.presentTables db.journalColumns db.rows.length

/-! ## The plan -/

structure Mismatch where
  id : String
  recorded : String
  actual : String
deriving DecidableEq, Repr

structure MigrationPlan where
  toApply : List Migration
  mismatched : List Mismatch
  unknown : List String
deriving DecidableEq, Repr

/-- `appliedById.get(id)`, where the last row of an id wins. -/
def appliedById (applied : List AppliedRow) (id : String) : Option AppliedRow :=
  applied.reverse.find? (·.id = id)

def planPending (files : List Migration) (applied : List AppliedRow) : MigrationPlan :=
  let mismatched := files.filterMap fun m =>
    (appliedById applied m.id).bind fun row =>
      if row.checksum ≠ m.checksum then some ⟨m.id, row.checksum, m.checksum⟩ else none
  { toApply := if mismatched.length > 0 then [] else files.filter fun m => (appliedById applied m.id).isNone
    mismatched
    unknown := (applied.map (·.id)).filter (· ∉ files.map (·.id)) }

/-! ## The runner -/

/-- The statement that a run is at, with the kind of database it found. `pending []` is a run that
reports success. -/
inductive Phase
  | classify
  | ensureJournal (kind : DatabaseClass)
  | adopt
  | plan (kind : DatabaseClass)
  | pending (todo : List Migration)
  | record (m : Migration) (todo : List Migration)
deriving DecidableEq, Repr

/-- `found` is what had been executed when the run started. -/
structure Runner (b : Baseline) where
  corpus : Corpus b
  statusOnly : Bool
  phase : Phase
  found : List String

/-- `seen` is the corpus of the last run. -/
structure Sys (b : Baseline) where
  db : Database
  executed : List String
  seen : List Migration
  runner : Option (Runner b)

inductive Action (b : Baseline)
  | start (corpus : Corpus b) (statusOnly : Bool)
  | statement
  | kill

variable {b : Baseline}

/-- The journal is there: what is next. -/
def Phase.journalled : DatabaseClass → Phase
  | .legacy => .adopt
  | kind => .plan kind

/-- The classification and its refusals. -/
def Database.admits (b : Baseline) (db : Database) : Option Phase :=
  let kind := (db.classify b).kind
  if kind = .foreignJournal then none
  else if kind = .indeterminate then none
  else if kind = .legacy ∧ (columnDrift b.columns db.schema.columns).length > 0 then none
  else if db.journalColumns = none then some (.ensureJournal kind)
  else some (Phase.journalled kind)

/-- The plan and its refusals. -/
def Database.planned (db : Database) (c : Corpus b) (statusOnly : Bool) (kind : DatabaseClass) : Option Phase :=
  let plan := planPending c.files db.rows
  if kind ≠ .fresh ∧ b.id ∉ db.applied then none
  else if plan.mismatched.length > 0 then none
  else if plan.unknown.length > 0 ∧ plan.toApply.length > 0 then none
  else if statusOnly then some (.pending [])
  else some (.pending plan.toApply)

def Sys.stop (s : Sys b) : Sys b := { s with runner := none }

def Sys.goto (s : Sys b) (r : Runner b) (phase : Phase) : Sys b := { s with runner := some { r with phase } }

/-- The next statement of the run `r`. A refusal and a failed statement end the run. -/
def Sys.statement (s : Sys b) (r : Runner b) : Sys b :=
  match r.phase with
  | .classify =>
    match s.db.admits b with
    | none => s.stop
    | some phase => s.goto r phase
  | .ensureJournal kind => { s with db := s.db.ensureJournal }.goto r (Phase.journalled kind)
  | .adopt =>
    match s.db.recordApplied b.toMigration with
    | none => s.stop
    | some db => { s with db }.goto r (.plan .legacy)
  | .plan kind =>
    match s.db.planned r.corpus r.statusOnly kind with
    | none => s.stop
    | some phase => s.goto r phase
  | .pending [] => s.stop
  | .pending (m :: todo) =>
    if m.noTransaction then
      { s with db := s.db.runSqlScript m, executed := s.executed ++ [m.id] }.goto r (.record m todo)
    else
      -- One transaction: a refused row takes the script back.
      match (s.db.runSqlScript m).recordApplied m with
      | none => s.stop
      | some db => { s with db, executed := s.executed ++ [m.id] }.goto r (.pending todo)
  | .record m todo =>
    match s.db.recordApplied m with
    | none => s.stop
    | some db => { s with db }.goto r (.pending todo)

/-- A run holds the lock, so there is one at a time. -/
def Sys.step (s : Sys b) : Action b → Option (Sys b)
  | .start corpus statusOnly =>
    match s.runner with
    | some _ => none
    | none => some { s with seen := corpus.files, runner := some ⟨corpus, statusOnly, .classify, s.executed⟩ }
  | .statement => s.runner.map s.statement
  | .kill => s.runner.map fun _ => s.stop

end Haive.Migrate

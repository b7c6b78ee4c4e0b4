import Haive.Lib.ListFacts
import Haive.Lib.Runs
import Haive.Migrate.Runner

/-!
# A migration runs once

`migrations_run_once` is about runs from an empty database or one that the old applier built,
over corpora that only grow. What a run counts on between two statements is `Phase.Fits`, and
`Took` says once what a statement does.

A file outside a transaction is left out where a run may end between its script and its row, and
the order is that of the corpus where the corpora grew at their ends.
-/

namespace Haive.Migrate

open Lib

/-! ## What a statement does -/

inductive Took {b : Baseline} (s : Sys b) (r : Runner b) : Sys b → Prop
  | stopped : Took s r s.stop
  | admitted {phase : Phase} (h : r.phase = .classify) (hnext : s.db.admits b = some phase) : Took s r (s.goto r phase)
  | created {kind : DatabaseClass} (h : r.phase = .ensureJournal kind) :
    Took s r ({ s with db := s.db.ensureJournal }.goto r (Phase.journalled kind))
  | adopted {db : Database} (h : r.phase = .adopt) (hrow : s.db.recordApplied b.toMigration = some db) :
    Took s r ({ s with db }.goto r (.plan .legacy))
  | planned {kind : DatabaseClass} {phase : Phase} (h : r.phase = .plan kind)
      (hnext : s.db.planned r.corpus r.statusOnly kind = some phase) :
    Took s r (s.goto r phase)
  | ran {m : Migration} {todo : List Migration} (h : r.phase = .pending (m :: todo)) (hmode : m.noTransaction = true) :
    Took s r ({ s with db := s.db.runSqlScript m, executed := s.executed ++ [m.id] }.goto r (.record m todo))
  | applied {m : Migration} {todo : List Migration} {db : Database} (h : r.phase = .pending (m :: todo))
      (hmode : m.noTransaction = false) (hrow : (s.db.runSqlScript m).recordApplied m = some db) :
    Took s r ({ s with db, executed := s.executed ++ [m.id] }.goto r (.pending todo))
  | recorded {m : Migration} {todo : List Migration} {db : Database} (h : r.phase = .record m todo)
      (hrow : s.db.recordApplied m = some db) :
    Took s r ({ s with db }.goto r (.pending todo))

variable {b : Baseline} {s s' s₀ : Sys b} {r r' : Runner b} {db db' : Database} {m m' : Migration}
  {todo : List Migration} {i : String} {kind : DatabaseClass} {phase : Phase} {old : List String}

theorem statement_took (s : Sys b) (r : Runner b) : Took s r (s.statement r) := by
  unfold Sys.statement
  split
  · next h =>
    split
    · exact .stopped
    · next hnext => exact .admitted h hnext
  · next h => exact .created h
  · next h =>
    split
    · exact .stopped
    · next hrow => exact .adopted h hrow
  · next h =>
    split
    · exact .stopped
    · next hnext => exact .planned h hnext
  · exact .stopped
  · next h =>
    split
    · next hmode => exact .ran h hmode
    · next hmode =>
      rw [Bool.not_eq_true] at hmode
      split
      · exact .stopped
      · next hrow => exact .applied h hmode hrow
  · next h =>
    split
    · exact .stopped
    · next hrow => exact .recorded h hrow

/-! ## The journal -/

theorem applied_ensureJournal (db : Database) : db.ensureJournal.applied = db.applied := by
  cases hj : db.journal <;> simp [Database.ensureJournal, Database.applied, Database.rows, hj]

theorem schema_ensureJournal (db : Database) : db.ensureJournal.schema = db.schema := by
  cases hj : db.journal <;> simp [Database.ensureJournal, hj]

structure Recorded (db : Database) (m : Migration) (db' : Database) : Prop where
  new : m.id ∉ db.applied
  applied : db'.applied = db.applied ++ [m.id]
  schema : db'.schema = db.schema

theorem Recorded.keeps (h : Recorded db m db') : ∀ i ∈ db.applied, i ∈ db'.applied := fun i hi => by
  rw [h.applied]
  exact List.mem_append_left _ hi

theorem recordApplied_spec (h : db.recordApplied m = some db') : Recorded db m db' := by
  rw [Database.recordApplied] at h
  cases hj : db.journal with
  | none =>
    rw [hj] at h
    cases h
  | some journal =>
    rw [hj] at h
    simp only at h
    split at h
    · cases h
    · next hnew =>
      cases h
      exact ⟨by simpa [Database.applied, Database.rows, hj] using hnew,
        by simp [Database.applied, Database.rows, hj], rfl⟩

theorem appliedById_isNone {applied : List AppliedRow} :
    (appliedById applied i).isNone = true ↔ i ∉ applied.map (·.id) := by
  simp only [appliedById, Option.isNone_iff_eq_none, List.find?_eq_none, List.mem_reverse, List.mem_map,
    decide_eq_true_eq, not_exists, not_and]

/-! ## The classification -/

def Database.Bare (b : Baseline) (db : Database) : Prop := ∀ t ∈ b.tables, t ∉ db.schema.tables

def Database.Whole (b : Baseline) (db : Database) : Prop := ∀ t ∈ b.tables, t ∈ db.schema.tables

theorem mem_presentTables {t : String} (ht : t ∈ b.tables) : t ∈ db.presentTables ↔ t ∈ db.schema.tables := by
  cases hj : db.journal with
  | none => simp [Database.presentTables, hj]
  | some j =>
    have hne : t ≠ JOURNAL_TABLE := fun h => b.not_journal (h ▸ ht)
    simp [Database.presentTables, hj, hne]

theorem filter_absent_bare (h : db.Bare b) : b.tables.filter (· ∉ db.presentTables) = b.tables := by
  rw [List.filter_eq_self]
  intro t ht
  simpa [mem_presentTables ht] using h t ht

theorem filter_absent_whole (h : db.Whole b) : b.tables.filter (· ∉ db.presentTables) = [] := by
  rw [List.filter_eq_nil_iff]
  intro t ht
  simpa [mem_presentTables ht] using h t ht

theorem quorum_bare (h : db.Bare b) : (quorum b.tables db.presentTables).kind = .fresh := by
  simp only [quorum, filter_absent_bare h, if_true]

theorem quorum_whole (h : db.Whole b) : (quorum b.tables db.presentTables).kind = .legacy := by
  have hne : ¬ ([] : List String).length = b.tables.length := fun h =>
    b.creates_ne (List.length_eq_zero_iff.mp h.symm)
  rw [quorum, filter_absent_whole h, if_neg hne, if_pos List.length_nil]

/-- The verdicts that let a run go on. -/
theorem classify_admitted (h : (db.classify b).kind ≠ .foreignJournal) :
    (db.applied ≠ [] ∧ (db.classify b).kind = .managed) ∨
      (db.applied = [] ∧ (db.classify b).kind = (quorum b.tables db.presentTables).kind) := by
  cases hj : db.journal with
  | none =>
    right
    simp [Database.classify, Database.journalColumns, Database.applied, Database.rows, classifyDatabase, hj]
  | some j =>
    rw [Database.classify, Database.journalColumns, hj, Option.map_some, classifyDatabase] at h ⊢
    split at h
    · exact absurd rfl h
    · next hcolumns =>
      rw [if_neg hcolumns]
      have hrows : db.rows = j.rows := by simp [Database.rows, hj]
      rw [Database.applied, hrows]
      cases hr : j.rows with
      | nil => simp
      | cons row rows => simp

/-! ## The invariant -/

/-- Corpora only grow: a file that one had is in the next, unchanged. -/
def Grows (s : Sys b) : Action b → Prop
  | .start corpus _ => ∀ m ∈ s.seen, m ∈ corpus.files
  | _ => True

def GrowsAtEnd (s : Sys b) : Action b → Prop
  | .start corpus _ => s.seen <+: corpus.files
  | _ => True

structure Legacy (b : Baseline) (db : Database) : Prop where
  tables : db.Whole b
  columns : ∀ c ∈ b.columns, c ∈ db.schema.columns
  journal : db.journal = none

/-- Before the first run: an empty database, or a legacy one, where the baseline counts as executed. -/
structure Start (s : Sys b) : Prop where
  seen : s.seen = [b.toMigration]
  runner : s.runner = none
  database : (s.db = .empty ∧ s.executed = []) ∨ (Legacy b s.db ∧ s.executed = [b.id])

/-- What holds between any two statements. `old` had been executed before the first run. -/
structure Sys.Books (old : List String) (s : Sys b) : Prop where
  distinct : (s.seen.map (·.id)).Nodup
  baseline : b.toMigration ∈ s.seen
  journalled : ∀ i ∈ s.db.applied, i ∈ s.executed
  executed : ∀ i ∈ s.executed, i ∈ s.seen.map (·.id)
  once : ∀ m ∈ s.seen, m.noTransaction = false ∨ m = b.toMigration → s.executed.count m.id ≤ 1
  recorded : ∀ m ∈ s.seen, m.noTransaction = false → m.id ∈ s.executed →
    m.id ∈ s.db.applied ∨ (m.id ∈ old ∧ s.db.applied = [])
  unjournalled : s.db.applied = [] → (s.executed = [] ∧ s.db.Bare b) ∨ (s.executed = [b.id] ∧ s.db.Whole b)

/-- What a run counts on where it has `todo` left. -/
structure Sys.Todo (s : Sys b) (r : Runner b) (todo : List Migration) : Prop where
  trace : ∃ l, (l ++ todo).Sublist s.seen ∧ s.executed = r.found ++ l.map (·.id)
  new : ∀ m ∈ todo, m.id ∉ s.db.applied
  unexecuted : ∀ m ∈ todo, m.noTransaction = false ∨ m = b.toMigration → m.id ∉ s.executed
  first : s.db.applied = [] → ∀ m ∈ todo.head?, m = b.toMigration
  complete : (r.statusOnly = true ∧ todo = []) ∨ ∀ m ∈ s.seen, m.id ∈ s.db.applied ∨ m ∈ todo

/-- What a run counts on between the script of `m` and its row. -/
structure Sys.Unrecorded (s : Sys b) (r : Runner b) (m : Migration) (todo : List Migration) : Prop where
  trace : ∃ l, (l ++ todo).Sublist s.seen ∧ s.executed = r.found ++ l.map (·.id)
  mem : m ∈ s.seen
  distinct : m ∉ todo
  executed : m.id ∈ s.executed
  new : ∀ m' ∈ todo, m'.id ∉ s.db.applied
  unexecuted : ∀ m' ∈ todo, m'.noTransaction = false ∨ m' = b.toMigration → m'.id ∉ s.executed
  first : s.db.applied = [] → m = b.toMigration
  complete : ∀ m' ∈ s.seen, m'.id ∈ s.db.applied ∨ m' ∈ m :: todo

structure Sys.Classified (s : Sys b) (kind : DatabaseClass) : Prop where
  fresh : kind = .fresh → s.db.applied = [] ∧ s.executed = []
  legacy : kind = .legacy → s.db.applied = [] ∧ s.executed = [b.id]

/-- What the run `r` counts on at a statement. -/
def Phase.Fits (s : Sys b) (r : Runner b) : Phase → Prop
  | .classify => s.executed = r.found
  | .ensureJournal kind => s.executed = r.found ∧ s.Classified kind
  | .adopt => s.executed = r.found ∧ s.db.applied = [] ∧ s.executed = [b.id]
  | .plan kind => s.executed = r.found ∧ (kind = .fresh → s.db.applied = [] ∧ s.executed = [])
  | .pending todo => s.Todo r todo
  | .record m todo => s.Unrecorded r m todo

structure Sys.Holds (old : List String) (s : Sys b) : Prop where
  books : s.Books old
  runner : ∀ r, s.runner = some r → r.corpus.files = s.seen ∧ r.phase.Fits s r

theorem Sys.Books.eq_of_id (h : s.Books old) (hm : m ∈ s.seen) (hm' : m' ∈ s.seen) (hid : m.id = m'.id) : m = m' :=
  List.inj_on_of_nodup_map h.distinct hm hm' hid

/-- The books are about the database and what was executed. -/
theorem Sys.Books.of_eq (h : s.Books old) (hseen : s'.seen = s.seen) (happlied : s'.db.applied = s.db.applied)
    (hschema : s'.db.schema = s.db.schema) (hexecuted : s'.executed = s.executed) : s'.Books old := by
  obtain ⟨h1, h2, h3, h4, h5, h6, h7⟩ := h
  constructor <;> simp only [hseen, happlied, hexecuted, Database.Bare, Database.Whole, hschema] <;> assumption

theorem Sys.Books.record (h : s.Books old) (hm : m.id ∈ s.executed) (hfirst : s.db.applied = [] → m = b.toMigration)
    (hrow : Recorded s.db m db) : Sys.Books old { s with db } := by
  have hne : db.applied ≠ [] := by simp [hrow.applied]
  refine ⟨h.distinct, h.baseline, fun i hi => ?_, h.executed, h.once, fun m' hm' hmode hex => ?_, fun hnil => ?_⟩
  · rw [hrow.applied, List.mem_append, List.mem_singleton] at hi
    rcases hi with hi | rfl
    · exact h.journalled i hi
    · exact hm
  · left
    rw [hrow.applied, List.mem_append, List.mem_singleton]
    rcases h.recorded m' hm' hmode hex with hin | ⟨-, hnil⟩
    · exact .inl hin
    · right
      rcases h.unjournalled hnil with ⟨hnone, -⟩ | ⟨hone, -⟩
      · rw [hnone] at hex
        cases hex
      · rw [hone, List.mem_singleton] at hex
        rw [hex, hfirst hnil]
  · exact absurd hnil hne

theorem Sys.Books.run_once (h : s.Books old) (hm : m ∈ s.seen)
    (hnew : m.noTransaction = false ∨ m = b.toMigration → m.id ∉ s.executed) :
    ∀ m' ∈ s.seen, m'.noTransaction = false ∨ m' = b.toMigration → (s.executed ++ [m.id]).count m'.id ≤ 1 := by
  intro m' hm' hmode
  rw [List.count_append]
  by_cases hid : m'.id = m.id
  · obtain rfl := h.eq_of_id hm' hm hid
    have hone : [m'.id].count m'.id = 1 := List.count_singleton_self
    exact Nat.le_of_eq (congrArg₂ (· + ·) (List.count_eq_zero_of_not_mem (hnew hmode)) hone)
  · rw [List.count_eq_zero_of_not_mem (l := [m.id]) (by simpa using hid), Nat.add_zero]
    exact h.once m' hm' hmode

theorem script_whole (db : Database) : (db.runSqlScript b.toMigration).Whole b := fun _ ht =>
  List.mem_append_right _ ht

theorem mem_executed_append (h : i ∈ s.executed ++ [m.id]) : i ∈ s.executed ∨ i = m.id := by
  rwa [List.mem_append, List.mem_singleton] at h

/-- The script of a file outside a transaction. -/
theorem Sys.Books.ran (h : s.Books old) (hm : m ∈ s.seen) (hmode : m.noTransaction = true)
    (hnew : m = b.toMigration → m.id ∉ s.executed) (hfirst : s.db.applied = [] → m = b.toMigration) :
    Sys.Books old { s with db := s.db.runSqlScript m, executed := s.executed ++ [m.id] } := by
  have hother : ∀ m' ∈ s.seen, m'.noTransaction = false → m'.id ≠ m.id := by
    intro m' hm' hmode' hid
    rw [h.eq_of_id hm' hm hid, hmode] at hmode'
    cases hmode'
  refine ⟨h.distinct, h.baseline, fun i hi => List.mem_append_left _ (h.journalled i hi), fun i hi => ?_,
    h.run_once hm fun hmode' => ?_, fun m' hm' hmode' hex => ?_, fun hnil => .inr ?_⟩
  · rcases mem_executed_append hi with hi | rfl
    · exact h.executed i hi
    · exact List.mem_map_of_mem hm
  · rcases hmode' with hmode' | hb
    · rw [hmode] at hmode'
      cases hmode'
    · exact hnew hb
  · exact h.recorded m' hm' hmode' ((mem_executed_append hex).resolve_right (hother m' hm' hmode'))
  · obtain rfl := hfirst hnil
    rcases h.unjournalled hnil with ⟨hnone, -⟩ | ⟨hone, -⟩
    · exact ⟨by simp [hnone], script_whole s.db⟩
    · exact absurd (by simp [hone]) (hnew rfl)

/-- A file in its transaction. -/
theorem Sys.Books.applied (h : s.Books old) (hm : m ∈ s.seen) (hnew : m.id ∉ s.executed)
    (hfirst : s.db.applied = [] → m = b.toMigration) (hrow : Recorded (s.db.runSqlScript m) m db) :
    Sys.Books old { s with db, executed := s.executed ++ [m.id] } := by
  have happlied : db.applied = s.db.applied ++ [m.id] := hrow.applied
  refine ⟨h.distinct, h.baseline, fun i hi => ?_, fun i hi => ?_, h.run_once hm fun _ => hnew,
    fun m' hm' hmode' hex => .inl ?_, fun hnil => ?_⟩
  · rw [happlied, List.mem_append] at hi
    rw [List.mem_append]
    exact hi.imp_left (h.journalled i)
  · rcases mem_executed_append hi with hi | rfl
    · exact h.executed i hi
    · exact List.mem_map_of_mem hm
  · rw [happlied, List.mem_append, List.mem_singleton]
    refine (mem_executed_append hex).imp_left fun hin => ?_
    refine (h.recorded m' hm' hmode' hin).resolve_right fun ⟨_, hnil⟩ => ?_
    obtain rfl := hfirst hnil
    rcases h.unjournalled hnil with ⟨hnone, -⟩ | ⟨hone, -⟩
    · rw [hnone] at hin
      cases hin
    · exact hnew (by simp [hone])
  · simp [happlied] at hnil

/-! ## One statement -/

theorem Sys.Todo.mem (h : s.Todo r todo) (hm : m ∈ todo) : m ∈ s.seen := by
  obtain ⟨l, hsub, -⟩ := h.trace
  exact hsub.subset (List.mem_append_right _ hm)

theorem not_mem_of_trace (hbooks : s.Books old) {l : List Migration} (hsub : (l ++ m :: todo).Sublist s.seen) :
    m ∉ todo ∧ ∀ m' ∈ todo, m'.id ≠ m.id := by
  have hnodup : ((m :: todo).map (·.id)).Nodup :=
    hbooks.distinct.sublist (((List.sublist_append_right l _).trans hsub).map _)
  rw [List.map_cons, List.nodup_cons] at hnodup
  have hne : ∀ m' ∈ todo, m'.id ≠ m.id := fun m' hm' hid => hnodup.1 (hid ▸ List.mem_map_of_mem hm')
  exact ⟨fun hm => hne m hm rfl, hne⟩

/-- Without the script or the row of `m`, what is left does not change. -/
theorem Sys.Todo.ran (h : s.Todo r (m :: todo)) (hbooks : s.Books old) :
    Sys.Unrecorded { s with db := s.db.runSqlScript m, executed := s.executed ++ [m.id] } r m todo := by
  obtain ⟨l, hsub, hex⟩ := h.trace
  obtain ⟨hdistinct, hne⟩ := not_mem_of_trace hbooks hsub
  refine ⟨⟨l ++ [m], by simpa using hsub, by simp [hex]⟩, h.mem List.mem_cons_self, hdistinct,
    List.mem_append_right _ List.mem_cons_self, fun m' hm' => h.new m' (List.mem_cons_of_mem _ hm'),
    fun m' hm' hmode hin => ?_, fun hnil => h.first hnil m rfl,
    h.complete.resolve_left fun hstatus => by cases hstatus.2⟩
  rcases mem_executed_append hin with hin | hid
  · exact h.unexecuted m' (List.mem_cons_of_mem _ hm') hmode hin
  · exact hne m' hm' hid

/-- The row of `m` is in. -/
theorem Sys.Unrecorded.recorded (h : s.Unrecorded r m todo) (hids : (s.seen.map (·.id)).Nodup)
    (happlied : db.applied = s.db.applied ++ [m.id]) : Sys.Todo { s with db } r todo := by
  refine ⟨h.trace, fun m' hm' hin => ?_, h.unexecuted, fun hnil => ?_, .inr fun m' hm' => ?_⟩
  · rw [happlied, List.mem_append, List.mem_singleton] at hin
    rcases hin with hin | hid
    · exact h.new m' hm' hin
    · obtain ⟨l, hsub, -⟩ := h.trace
      obtain rfl := List.inj_on_of_nodup_map hids (hsub.subset (List.mem_append_right _ hm')) h.mem hid
      exact h.distinct hm'
  · simp [happlied] at hnil
  · rw [happlied, List.mem_append, List.mem_singleton]
    rcases h.complete m' hm' with hin | hin
    · exact .inl (.inl hin)
    · rcases List.mem_cons.mp hin with rfl | hin
      · exact .inl (.inr rfl)
      · exact .inr hin

/-- The verdict tells what has been executed. -/
theorem Sys.Books.classified (h : s.Books old) (hours : (s.db.classify b).kind ≠ .foreignJournal) :
    s.Classified (s.db.classify b).kind := by
  rcases classify_admitted hours with ⟨-, hkind⟩ | ⟨hnil, hkind⟩
  · exact ⟨fun hf => by simp [hf] at hkind, fun hl => by simp [hl] at hkind⟩
  · rcases h.unjournalled hnil with ⟨hex, hbare⟩ | ⟨hex, hwhole⟩
    · rw [hkind, quorum_bare hbare]
      exact ⟨fun _ => ⟨hnil, hex⟩, fun hl => by cases hl⟩
    · rw [hkind, quorum_whole hwhole]
      exact ⟨fun hf => by (cases hf), fun _ => ⟨hnil, hex⟩⟩

theorem Sys.Classified.journalled (h : s.Classified kind) (hfound : s.executed = r.found) :
    (Phase.journalled kind).Fits s r := by
  cases kind with
  | legacy => exact ⟨hfound, h.legacy rfl⟩
  | _ => exact ⟨hfound, h.fresh⟩

theorem admits_fits (h : s.Books old) (hfound : s.executed = r.found) (hnext : s.db.admits b = some phase) :
    phase.Fits s r := by
  unfold Database.admits at hnext
  simp only at hnext
  split at hnext
  · cases hnext
  next hours =>
  have hclassified := h.classified hours
  split at hnext
  · cases hnext
  split at hnext
  · cases hnext
  split at hnext
  · cases hnext
    exact ⟨hfound, hclassified⟩
  · cases hnext
    exact hclassified.journalled hfound

theorem ensureJournal_fits (hclassified : s.Classified kind) (hfound : s.executed = r.found) :
    (Phase.journalled kind).Fits { s with db := s.db.ensureJournal } r := by
  refine Sys.Classified.journalled ⟨?_, ?_⟩ hfound
  · simpa only [applied_ensureJournal] using hclassified.fresh
  · simpa only [applied_ensureJournal] using hclassified.legacy

/-- The files that the journal does not have, in the order of the corpus. -/
theorem planned_fits (h : s.Books old) (hseen : r.corpus.files = s.seen) (hfound : s.executed = r.found)
    (hfresh : kind = .fresh → s.db.applied = [] ∧ s.executed = [])
    (hnext : s.db.planned r.corpus r.statusOnly kind = some phase) : phase.Fits s r := by
  unfold Database.planned at hnext
  simp only at hnext
  split at hnext
  · cases hnext
  next hbase =>
  split at hnext
  · cases hnext
  next hmismatched =>
  split at hnext
  · cases hnext
  split at hnext
  · next hstatus =>
    cases hnext
    refine ⟨⟨[], List.nil_sublist _, by simp [hfound]⟩, ?_, ?_, ?_, .inl ⟨hstatus, rfl⟩⟩ <;> simp
  · cases hnext
    have hplan : (planPending r.corpus.files s.db.rows).toApply =
        s.seen.filter fun m => (appliedById s.db.rows m.id).isNone := by
      rw [← hseen]
      exact if_neg hmismatched
    have hmem : ∀ m, m ∈ (planPending r.corpus.files s.db.rows).toApply ↔ m ∈ s.seen ∧ m.id ∉ s.db.applied := by
      intro m
      rw [hplan, List.mem_filter, appliedById_isNone]
      rfl
    -- A database with the baseline in its journal has executed nothing without a row.
    have hnone : ∀ m ∈ s.seen, m.id ∉ s.db.applied → m.noTransaction = false ∨ m = b.toMigration →
        m.id ∉ s.executed := by
      intro m hm hnew hmode hin
      by_cases hkind : kind = .fresh
      · rw [(hfresh hkind).2] at hin
        cases hin
      · have hb : b.id ∈ s.db.applied := by
          by_contra hb
          exact hbase ⟨hkind, hb⟩
        rcases hmode with hmode | rfl
        · rcases h.recorded m hm hmode hin with hrow | ⟨-, hnil⟩
          · exact hnew hrow
          · rw [hnil] at hb
            cases hb
        · exact hnew hb
    refine ⟨⟨[], ?_, by simp [hfound]⟩, fun m hm => ((hmem m).mp hm).2,
      fun m hm => hnone m ((hmem m).mp hm).1 ((hmem m).mp hm).2, fun hnil m hm => ?_, .inr fun m hm => ?_⟩
    · rw [hplan]
      exact List.filter_sublist
    · have hall : (planPending r.corpus.files s.db.rows).toApply = s.seen := by
        rw [hplan, List.filter_eq_self]
        intro m _
        rw [appliedById_isNone]
        intro hin
        change m.id ∈ s.db.applied at hin
        rw [hnil] at hin
        cases hin
      rw [hall, ← hseen] at hm
      exact (Option.some.inj hm).symm
    · rcases Decidable.em (m.id ∈ s.db.applied) with hin | hin
      · exact .inl hin
      · exact .inr ((hmem m).mpr ⟨hm, hin⟩)

theorem statement_holds (h : s.Holds old) (hrun : s.runner = some r) : (s.statement r).Holds old := by
  obtain ⟨hbooks, hrunner⟩ := h
  obtain ⟨hseen, hfits⟩ := hrunner r hrun
  -- The books of the state, and what the run counts on next.
  have goes : ∀ {s₁ : Sys b} {phase : Phase}, s₁.seen = s.seen → s₁.Books old → phase.Fits s₁ r →
      (s₁.goto r phase).Holds old := by
    intro s₁ phase hsame hbooks₁ hfits₁
    refine ⟨hbooks₁.of_eq rfl rfl rfl rfl, fun r' hr' => ?_⟩
    cases hr'
    refine ⟨hseen.trans hsame.symm, ?_⟩
    cases phase with
    | classify => exact hfits₁
    | ensureJournal => exact ⟨hfits₁.1, hfits₁.2.fresh, hfits₁.2.legacy⟩
    | adopt => exact hfits₁
    | plan => exact hfits₁
    | pending => exact ⟨hfits₁.trace, hfits₁.new, hfits₁.unexecuted, hfits₁.first, hfits₁.complete⟩
    | record =>
      exact ⟨hfits₁.trace, hfits₁.mem, hfits₁.distinct, hfits₁.executed, hfits₁.new, hfits₁.unexecuted,
        hfits₁.first, hfits₁.complete⟩
  generalize hs' : s.statement r = s'
  have htook : Took s r s' := hs' ▸ statement_took s r
  cases htook with
  | stopped => exact ⟨hbooks.of_eq rfl rfl rfl rfl, fun r' hr' => by cases hr'⟩
  | admitted hphase hnext =>
    rw [hphase] at hfits
    exact goes rfl hbooks (admits_fits hbooks hfits hnext)
  | created hphase =>
    rw [hphase] at hfits
    exact goes rfl (hbooks.of_eq rfl (applied_ensureJournal _) (schema_ensureJournal _) rfl)
      (ensureJournal_fits hfits.2 hfits.1)
  | adopted hphase hrow =>
    rw [hphase] at hfits
    obtain ⟨hfound, hnil, hex⟩ := hfits
    exact goes rfl (hbooks.record (by simp [hex]) (fun _ => rfl) (recordApplied_spec hrow))
      ⟨hfound, fun hf => by cases hf⟩
  | planned hphase hnext =>
    rw [hphase] at hfits
    exact goes rfl hbooks (planned_fits hbooks hseen hfits.1 hfits.2 hnext)
  | ran hphase hmode =>
    rw [hphase] at hfits
    have htodo : s.Todo r _ := hfits
    exact goes rfl (hbooks.ran (htodo.mem List.mem_cons_self) hmode
      (fun hb => htodo.unexecuted _ List.mem_cons_self (.inr hb)) fun hnil => htodo.first hnil _ rfl)
      (htodo.ran hbooks)
  | @applied m todo db hphase hmode hrow =>
    rw [hphase] at hfits
    have htodo : s.Todo r _ := hfits
    have hbooks' := hbooks.applied (htodo.mem List.mem_cons_self)
      (htodo.unexecuted _ List.mem_cons_self (.inl hmode)) (fun hnil => htodo.first hnil _ rfl)
      (recordApplied_spec hrow)
    refine goes rfl hbooks' ?_
    exact (htodo.ran hbooks).recorded (s := { s with db := s.db.runSqlScript m, executed := s.executed ++ [m.id] })
      hbooks.distinct (recordApplied_spec hrow).applied
  | recorded hphase hrow =>
    rw [hphase] at hfits
    have hleft : s.Unrecorded r _ _ := hfits
    exact goes rfl (hbooks.record hleft.executed hleft.first (recordApplied_spec hrow))
      (hleft.recorded hbooks.distinct (recordApplied_spec hrow).applied)

/-! ## Runs -/

theorem step_holds {a : Action b} (h : s.Holds old) (hgrows : Grows s a) (hstep : s.step a = some s') :
    s'.Holds old := by
  cases a with
  | start corpus statusOnly =>
    rw [Sys.step] at hstep
    split at hstep
    · cases hstep
    · cases hstep
      obtain ⟨hbooks, -⟩ := h
      have hnew : ∀ m ∈ corpus.files, m ∈ s.seen ∨ m.id ∉ s.executed := by
        intro m hm
        rw [or_iff_not_imp_right, not_not]
        intro hex
        obtain ⟨m', hm', hid⟩ := List.mem_map.mp (hbooks.executed _ hex)
        rwa [← List.inj_on_of_nodup_map corpus.distinct (hgrows m' hm') hm hid]
      refine ⟨⟨corpus.distinct, List.mem_cons_self, hbooks.journalled, fun i hi => ?_, fun m hm hmode => ?_,
        fun m hm hmode hex => ?_, hbooks.unjournalled⟩, fun r hr => by (cases hr; exact ⟨rfl, rfl⟩)⟩
      · obtain ⟨m, hm, rfl⟩ := List.mem_map.mp (hbooks.executed i hi)
        exact List.mem_map_of_mem (hgrows m hm)
      · rcases hnew m hm with hold | hnot
        · exact hbooks.once m hold hmode
        · rw [List.count_eq_zero_of_not_mem hnot]
          exact Nat.zero_le 1
      · exact hbooks.recorded m ((hnew m hm).resolve_right fun hnot => hnot hex) hmode hex
  | statement =>
    rw [Sys.step] at hstep
    cases hr : s.runner with
    | none =>
      rw [hr] at hstep
      cases hstep
    | some r =>
      rw [hr] at hstep
      cases hstep
      exact statement_holds h hr
  | kill =>
    rw [Sys.step] at hstep
    cases hr : s.runner with
    | none =>
      rw [hr] at hstep
      cases hstep
    | some r =>
      rw [hr] at hstep
      cases hstep
      exact ⟨h.books.of_eq rfl rfl rfl rfl, fun r' hr' => by cases hr'⟩

theorem Start.applied (h : Start s) : s.db.applied = [] := by
  rcases h.database with ⟨hdb, -⟩ | ⟨hlegacy, -⟩
  · simp [hdb, Database.empty, Database.applied, Database.rows]
  · simp [Database.applied, Database.rows, hlegacy.journal]

theorem Start.executed (h : Start s) : ∀ i ∈ s.executed, i = b.id := by
  intro i hi
  rcases h.database with ⟨-, hex⟩ | ⟨-, hex⟩
  · rw [hex] at hi
    cases hi
  · rw [hex] at hi
    exact List.mem_singleton.mp hi

theorem Start.holds (h : Start s) : s.Holds s.executed := by
  have hnil := h.applied
  refine ⟨⟨by simp [h.seen], by simp [h.seen], by simp [hnil], fun i hi => ?_, fun m _ _ => ?_,
    fun m _ _ hex => .inr ⟨hex, hnil⟩, fun _ => ?_⟩, fun r hr => ?_⟩
  · rw [h.executed i hi, h.seen]
    exact List.mem_cons_self
  · rcases h.database with ⟨-, hex⟩ | ⟨-, hex⟩
    · simp [hex]
    · rw [hex]
      exact List.count_le_length
  · rcases h.database with ⟨hdb, hex⟩ | ⟨hlegacy, hex⟩
    · exact .inl ⟨hex, fun t _ => by simp [hdb, Database.empty]⟩
    · exact .inr ⟨hex, hlegacy.tables⟩
  · rw [h.runner] at hr
    cases hr

/-! ## The order -/

def Sys.place (s : Sys b) (i : String) : Nat := (s.seen.map (·.id)).idxOf i

/-- `settled`: nothing without a row stands before what has been executed. -/
structure Sys.Ordered (s : Sys b) : Prop where
  pairwise : s.executed.Pairwise fun i j => s.place i ≤ s.place j
  settled : ∀ i ∈ s.executed, ∀ m ∈ s.seen, m.id ∉ s.db.applied → s.place i ≤ s.place m.id

theorem Sys.Ordered.of_le (h : s.Ordered) (hseen : s'.seen = s.seen) (hexecuted : s'.executed = s.executed)
    (happlied : ∀ i ∈ s.db.applied, i ∈ s'.db.applied) : s'.Ordered := by
  have hplace : s'.place = s.place := by
    funext i
    rw [Sys.place, Sys.place, hseen]
  refine ⟨by simpa only [hplace, hexecuted] using h.pairwise, fun i hi m hm hnew => ?_⟩
  rw [hplace]
  exact h.settled i (hexecuted ▸ hi) m (hseen ▸ hm) fun hin => hnew (happlied _ hin)

/-- The first file that is left. -/
theorem Sys.Ordered.execute (h : s.Ordered) (hbooks : s.Books old) (htodo : s.Todo r (m :: todo))
    (hseen : s'.seen = s.seen) (hexecuted : s'.executed = s.executed ++ [m.id])
    (happlied : ∀ i ∈ s.db.applied, i ∈ s'.db.applied) : s'.Ordered := by
  have hm : m ∈ s.seen := htodo.mem List.mem_cons_self
  have hnew : m.id ∉ s.db.applied := htodo.new m List.mem_cons_self
  have hplace : s'.place = s.place := by
    funext i
    rw [Sys.place, Sys.place, hseen]
  obtain ⟨l, hsub, -⟩ := htodo.trace
  have hrest : ∀ m' ∈ s.seen, m'.id ∉ s.db.applied → s.place m.id ≤ s.place m'.id := by
    intro m' hm' hnew'
    have hall := htodo.complete.resolve_left fun hstatus => by cases hstatus.2
    rcases List.mem_cons.mp ((hall m' hm').resolve_left hnew') with rfl | hin
    · exact Nat.le_refl _
    · have hpair : [m, m'].Sublist (m :: todo) := (List.singleton_sublist.mpr hin).cons_cons m
      have hids := ((hpair.trans (List.sublist_append_right l _)).trans hsub).map (·.id)
      exact idxOf_le_of_sublist hids hbooks.distinct
  constructor
  · rw [hexecuted, hplace, List.pairwise_append]
    refine ⟨h.pairwise, List.pairwise_singleton _ _, fun i hi j hj => ?_⟩
    rw [List.mem_singleton.mp hj]
    exact h.settled i hi m hm hnew
  · intro i hi m' hm' hnew'
    rw [hplace]
    rw [hseen] at hm'
    have hnew₀ : m'.id ∉ s.db.applied := fun hin => hnew' (happlied _ hin)
    rw [hexecuted, List.mem_append, List.mem_singleton] at hi
    rcases hi with hi | rfl
    · exact h.settled i hi m' hm' hnew₀
    · exact hrest m' hm' hnew₀

theorem statement_ordered (h : s.Holds old) (hordered : s.Ordered) (hrun : s.runner = some r) :
    (s.statement r).Ordered := by
  obtain ⟨hbooks, hrunner⟩ := h
  obtain ⟨-, hfits⟩ := hrunner r hrun
  generalize hs' : s.statement r = s'
  have htook : Took s r s' := hs' ▸ statement_took s r
  cases htook with
  | stopped | admitted | planned => exact hordered.of_le rfl rfl fun _ hi => hi
  | created => exact hordered.of_le rfl rfl fun i hi => (applied_ensureJournal s.db).symm ▸ hi
  | adopted _ hrow | recorded _ hrow => exact hordered.of_le rfl rfl (recordApplied_spec hrow).keeps
  | ran hphase =>
    rw [hphase] at hfits
    exact hordered.execute hbooks hfits rfl rfl fun _ hi => hi
  | applied hphase _ hrow =>
    rw [hphase] at hfits
    exact hordered.execute hbooks hfits rfl rfl (recordApplied_spec hrow).keeps

theorem GrowsAtEnd.grows {a : Action b} (h : GrowsAtEnd s a) : Grows s a := by
  cases a with
  | start corpus statusOnly => exact fun m hm => List.IsPrefix.subset h hm
  | _ => trivial

theorem step_ordered {a : Action b} (h : s.Holds old ∧ s.Ordered) (hgrows : GrowsAtEnd s a)
    (hstep : s.step a = some s') : s'.Holds old ∧ s'.Ordered := by
  refine ⟨step_holds h.1 hgrows.grows hstep, ?_⟩
  obtain ⟨hholds, hordered⟩ := h
  cases a with
  | start corpus statusOnly =>
    rw [Sys.step] at hstep
    split at hstep
    · cases hstep
    · cases hstep
      obtain ⟨more, hfiles⟩ := hgrows
      have hids : corpus.files.map (·.id) = s.seen.map (·.id) ++ more.map (·.id) := by
        rw [← hfiles, List.map_append]
      have hplace : ∀ i ∈ s.executed, (corpus.files.map (·.id)).idxOf i = s.place i := by
        intro i hi
        rw [hids, List.idxOf_append_of_mem (hholds.books.executed i hi), Sys.place]
      refine ⟨hordered.pairwise.imp_of_mem fun {i j} hi hj hle => ?_, fun i hi m hm hnew => ?_⟩
      · rw [Sys.place, Sys.place, hplace i hi, hplace j hj]
        exact hle
      · rw [Sys.place, Sys.place, hplace i hi]
        rcases Decidable.em (m.id ∈ s.seen.map (·.id)) with hin | hout
        · obtain ⟨m', hm', hid⟩ := List.mem_map.mp hin
          rw [hids, List.idxOf_append_of_mem hin]
          rw [← hid] at hnew ⊢
          exact hordered.settled i hi m' hm' hnew
        · rw [hids, List.idxOf_append_of_notMem hout]
          have hlt : s.place i < (s.seen.map (·.id)).length :=
            List.idxOf_lt_length_of_mem (hholds.books.executed i hi)
          omega
  | statement =>
    rw [Sys.step] at hstep
    cases hr : s.runner with
    | none =>
      rw [hr] at hstep
      cases hstep
    | some r =>
      rw [hr] at hstep
      cases hstep
      exact statement_ordered hholds hordered hr
  | kill =>
    rw [Sys.step] at hstep
    cases hr : s.runner with
    | none =>
      rw [hr] at hstep
      cases hstep
    | some r =>
      rw [hr] at hstep
      cases hstep
      exact hordered.of_le rfl rfl fun _ hi => hi

theorem Start.ordered (h : Start s) : s.Ordered := by
  have hb : ∀ i ∈ s.executed, s.place i = 0 := by
    intro i hi
    rw [h.executed i hi, Sys.place, h.seen]
    exact List.idxOf_cons_self
  refine ⟨List.pairwise_of_forall_mem_list fun i hi j hj => ?_, fun i hi m _ _ => ?_⟩
  · rw [hb i hi]
    exact Nat.zero_le _
  · rw [hb i hi]
    exact Nat.zero_le _

/-! ## The result -/

/-- A run on a journal that names a file the corpus does not have. -/
structure Sys.Ahead (s s₀ : Sys b) (c : Corpus b) : Prop where
  db : s.db = s₀.db
  executed : s.executed = s₀.executed
  runner : ∀ r, s.runner = some r →
    r.corpus = c ∧ (r.phase = .classify ∨ r.phase = .plan .managed ∨ r.phase = .pending [])

theorem statement_ahead {c : Corpus b} (hrow : i ∈ s₀.db.applied) (hunknown : i ∉ c.files.map (·.id))
    (h : s.Ahead s₀ c) (hrun : s.runner = some r) : (s.statement r).Ahead s₀ c := by
  obtain ⟨hdb, hex, hrunner⟩ := h
  obtain ⟨hcorpus, hphase⟩ := hrunner r hrun
  have hne : s.db.applied ≠ [] := by
    rw [hdb]
    exact List.ne_nil_of_mem hrow
  have hstop : s.stop.Ahead s₀ c := ⟨hdb, hex, fun r' hr' => by cases hr'⟩
  have hgoto : ∀ phase, phase = .plan .managed ∨ phase = .pending [] → (s.goto r phase).Ahead s₀ c :=
    fun phase hnext => ⟨hdb, hex, fun r' hr' => by
      cases hr'
      exact ⟨hcorpus, .inr hnext⟩⟩
  rcases hphase with hphase | hphase | hphase <;> rw [Sys.statement, hphase] <;> simp only
  · cases hnext : s.db.admits b with
    | none => exact hstop
    | some phase =>
      refine hgoto phase (.inl ?_)
      unfold Database.admits at hnext
      simp only at hnext
      split at hnext
      · cases hnext
      next hours =>
      have hmanaged : (s.db.classify b).kind = .managed := by
        rcases classify_admitted hours with ⟨-, hkind⟩ | ⟨hnil, -⟩
        · exact hkind
        · exact absurd hnil hne
      have hjournal : s.db.journalColumns ≠ none := by
        intro hnone
        have hj : s.db.journal = none := Option.map_eq_none_iff.mp hnone
        exact hne (by simp [Database.applied, Database.rows, hj])
      rw [hmanaged, if_neg (by simp), if_neg (by simp), if_neg hjournal] at hnext
      exact (Option.some.inj hnext).symm
  · cases hnext : s.db.planned r.corpus r.statusOnly .managed with
    | none => exact hstop
    | some phase =>
      refine hgoto phase (.inr ?_)
      unfold Database.planned at hnext
      simp only at hnext
      split at hnext
      · cases hnext
      split at hnext
      · cases hnext
      split at hnext
      · cases hnext
      next hfork =>
      have hmem : i ∈ (planPending r.corpus.files s.db.rows).unknown := by
        rw [planPending, List.mem_filter, hcorpus]
        refine ⟨?_, by simpa using hunknown⟩
        change i ∈ s.db.applied
        rwa [hdb]
      have hnone : (planPending r.corpus.files s.db.rows).toApply = [] := by
        by_contra hsome
        exact hfork ⟨List.length_pos_of_mem hmem, List.length_pos_of_ne_nil hsome⟩
      rw [hnone] at hnext
      split at hnext <;> exact (Option.some.inj hnext).symm
  · exact hstop

theorem runs_ahead {c : Corpus b} {as : List (Action b)} (hrow : i ∈ s₀.db.applied)
    (hunknown : i ∉ c.files.map (·.id)) (hone : ∀ a ∈ as, a = .statement ∨ a = .kill) (h : s.Ahead s₀ c)
    (hrun : runs Sys.step s as = some s') : s'.Ahead s₀ c := by
  induction as generalizing s with
  | nil =>
    cases hrun
    exact h
  | cons a as ih =>
    rw [runs] at hrun
    cases hr : s.runner with
    | none => rcases hone a List.mem_cons_self with rfl | rfl <;> simp [Sys.step, hr] at hrun
    | some r =>
      have hrest := fun a' ha' => hone a' (List.mem_cons_of_mem a ha')
      rcases hone a List.mem_cons_self with rfl | rfl <;> simp only [Sys.step, hr, Option.map_some] at hrun
      · exact ih hrest (statement_ahead hrow hunknown h hr) hrun
      · have hstop : s.stop.Ahead s₀ c := ⟨h.db, h.executed, fun r' hr' => by cases hr'⟩
        exact ih hrest hstop hrun

/-- The file that is executed twice is one outside a transaction, and the baseline of a legacy
database has no row before its first run. -/
theorem migrations_run_once (s₀ : Sys b) (as : List (Action b)) (s : Sys b) (hstart : Start s₀)
    (hgrows : Along Sys.step Grows s₀ as) (hrun : runs Sys.step s₀ as = some s) :
    (∀ m ∈ s.seen, m.noTransaction = false → s.executed.count m.id ≤ 1 ∧
      (m.id ∈ s.executed → m.id ∈ s.db.applied ∨ (m.id ∈ s₀.executed ∧ s.db.applied = []))) ∧
    (∀ i ∈ s.db.applied, i ∈ s.executed) ∧
    (∀ r, s.runner = some r →
      ∃ l : List Migration, l.Sublist r.corpus.files ∧ s.executed = r.found ++ l.map (·.id)) ∧
    (∀ r, s.runner = some r → r.phase = .pending [] → r.statusOnly = false →
      ∀ m ∈ r.corpus.files, m.id ∈ s.db.applied ∧ m.id ∈ s.executed) ∧
    (Along Sys.step GrowsAtEnd s₀ as → s.executed.Pairwise fun i j => s.place i ≤ s.place j) ∧
    ∀ (t t' : Sys b) (c : Corpus b) (statusOnly : Bool) (bs : List (Action b)),
      (∃ i ∈ t.db.applied, i ∉ c.files.map (·.id)) → (∀ a ∈ bs, a = .statement ∨ a = .kill) →
      runs Sys.step t (.start c statusOnly :: bs) = some t' → t'.db = t.db ∧ t'.executed = t.executed := by
  have h : s.Holds s₀.executed := runs_inv (fun _ _ _ => step_holds) hstart.holds hgrows hrun
  refine ⟨fun m hm hmode => ⟨h.books.once m hm (.inl hmode), h.books.recorded m hm hmode⟩, h.books.journalled,
    fun r hr => ?_, fun r hr hphase hstatus m hm => ?_, fun hend => ?_, ?_⟩
  · obtain ⟨hseen, hfits⟩ := h.runner r hr
    have hsame : s.executed = r.found →
        ∃ l : List Migration, l.Sublist r.corpus.files ∧ s.executed = r.found ++ l.map (·.id) := fun hfound =>
      ⟨[], List.nil_sublist _, by simp [hfound]⟩
    rw [hseen] at hsame ⊢
    cases hphase : r.phase with
    | classify =>
      rw [hphase] at hfits
      exact hsame hfits
    | pending todo =>
      rw [hphase] at hfits
      obtain ⟨l, hsub, hex⟩ := hfits.trace
      exact ⟨l, (List.sublist_append_left _ _).trans hsub, hex⟩
    | record m todo =>
      rw [hphase] at hfits
      obtain ⟨l, hsub, hex⟩ := hfits.trace
      exact ⟨l, (List.sublist_append_left _ _).trans hsub, hex⟩
    | ensureJournal | adopt | plan =>
      rw [hphase] at hfits
      exact hsame hfits.1
  · obtain ⟨hseen, hfits⟩ := h.runner r hr
    rw [hphase] at hfits
    have hcomplete := hfits.complete.resolve_left fun hno => by simp [hstatus] at hno
    have hin : m.id ∈ s.db.applied := (hcomplete m (hseen ▸ hm)).resolve_right List.not_mem_nil
    exact ⟨hin, h.books.journalled _ hin⟩
  · exact (runs_inv (fun _ _ _ => step_ordered) ⟨hstart.holds, hstart.ordered⟩ hend hrun).2.pairwise
  · rintro t t' c statusOnly bs ⟨i, hrow, hunknown⟩ hone hruns
    rw [runs, Sys.step] at hruns
    cases hr : t.runner with
    | some r => simp [hr] at hruns
    | none =>
      simp only [hr] at hruns
      have hclassify : Sys.Ahead { t with
          seen := c.files
          runner := some ⟨c, statusOnly, .classify, t.executed⟩ } t c := by
        refine ⟨rfl, rfl, fun r' hr' => ?_⟩
        cases hr'
        exact ⟨rfl, .inl rfl⟩
      have hahead := runs_ahead hrow hunknown hone hclassify hruns
      exact ⟨hahead.db, hahead.executed⟩

/-! ## A killed run, a window and a late file -/

namespace Sample

def baseline : Baseline where
  id := "0000_baseline"
  checksum := "b0"
  noTransaction := false
  creates := ⟨["users"], ["users.id"]⟩
  drops := ⟨[], []⟩
  creates_ne := by simp
  not_journal := by simp [JOURNAL_TABLE]

def addTeams : Migration := ⟨"0001_add_teams", "t1", false, ⟨["teams"], ["teams.id"]⟩, ⟨[], []⟩⟩

def indexUsers : Migration := ⟨"0002_index_users", "i2", true, ⟨[], []⟩, ⟨[], []⟩⟩

def dropTeams : Migration := ⟨"0003_drop_teams", "d3", false, ⟨[], []⟩, ⟨["teams"], ["teams.id"]⟩⟩

def fresh : Sys baseline := ⟨.empty, [], [baseline.toMigration], none⟩

def first : Corpus baseline := ⟨[], by simp⟩

def teams : Corpus baseline := ⟨[addTeams], by simp [baseline, addTeams]⟩

def indexed : Corpus baseline := ⟨[indexUsers], by simp [baseline, indexUsers]⟩

def dropped : Corpus baseline := ⟨[dropTeams], by simp [baseline, dropTeams]⟩

def late : Corpus baseline := ⟨[addTeams, dropTeams], by simp [baseline, addTeams, dropTeams]⟩

/-- Ended after its journal was there, and run again on a grown corpus. -/
def killed : List (Action baseline) :=
  [.start first false, .statement, .statement, .kill, .start teams false, .statement, .statement, .statement,
    .statement]

/-- Ended twice between the script of `indexUsers` and its row. -/
def window : List (Action baseline) :=
  [.start indexed false, .statement, .statement, .statement, .statement, .statement, .kill,
    .start indexed false, .statement, .statement, .statement, .kill]

/-- `addTeams` comes after `dropTeams` has run. -/
def lateFile : List (Action baseline) :=
  [.start dropped false, .statement, .statement, .statement, .statement, .statement, .statement,
    .start late false, .statement, .statement, .statement]

/-- `--status`. -/
def status : List (Action baseline) := [.start first true, .statement, .statement, .statement]

theorem fresh_start : Start fresh := ⟨rfl, rfl, .inl ⟨rfl, rfl⟩⟩

def grows (s : Sys baseline) : Action baseline → Bool
  | .start corpus _ => s.seen.all (· ∈ corpus.files)
  | _ => true

theorem grows_sound (s : Sys baseline) (a : Action baseline) (h : grows s a = true) : Grows s a := by
  cases a with
  | start corpus statusOnly => exact fun m hm => of_decide_eq_true (List.all_eq_true.mp h m hm)
  | _ => trivial

end Sample

open Haive.Migrate.Sample

theorem migrations_run_once_killed : ∃ s, runs Sys.step fresh killed = some s ∧
    s.executed = ["0000_baseline", "0001_add_teams"] ∧ ∀ i ∈ s.db.applied, i ∈ s.executed := by
  have hgrows : Along Sys.step Grows fresh killed := .of_along grows_sound rfl
  exact ⟨_, rfl, rfl, (migrations_run_once fresh killed _ fresh_start hgrows rfl).2.1⟩

/-- A file outside a transaction is executed twice and has no row. A file that the corpus gains in
the middle is executed after a later one by a run that reports success. A run with `--status`
reports success on a database without the baseline. -/
theorem window_and_late_file :
    (∃ s, Along Sys.step Grows fresh window ∧ runs Sys.step fresh window = some s ∧
      indexUsers ∈ s.seen ∧ s.executed.count indexUsers.id = 2 ∧ indexUsers.id ∉ s.db.applied) ∧
    (∃ s, Along Sys.step Grows fresh lateFile ∧ runs Sys.step fresh lateFile = some s ∧
      (∃ r, s.runner = some r ∧ r.phase = .pending [] ∧ r.statusOnly = false) ∧
      ¬ s.executed.Pairwise fun i j => s.place i ≤ s.place j) ∧
    (∃ s, Along Sys.step Grows fresh status ∧ runs Sys.step fresh status = some s ∧
      (∃ r, s.runner = some r ∧ r.phase = .pending []) ∧ s.executed = []) := by
  have hwindow : Along Sys.step Grows fresh window := .of_along grows_sound rfl
  have hlate : Along Sys.step Grows fresh lateFile := .of_along grows_sound rfl
  have hstatus : Along Sys.step Grows fresh status := .of_along grows_sound rfl
  refine ⟨⟨_, hwindow, rfl, ?_, ?_, ?_⟩, ⟨_, hlate, rfl, ⟨_, rfl, rfl, rfl⟩, ?_⟩,
    ⟨_, hstatus, rfl, ⟨_, rfl, rfl⟩, rfl⟩⟩
  all_goals decide

end Haive.Migrate

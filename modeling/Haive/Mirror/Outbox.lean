import Haive.Lib.Follow
import Haive.Lib.Runs
import Haive.Mirror.Render
import Haive.Mirror.Serialize
import Haive.Plan.Tree

/-!
# The outbox of the mirror

The row of `plan_mirror_state` and the flushes of `worker/src/plan/mirror.ts` that it drives. A patch
bumps `revision` in its own transaction (`markPlanMirrorDirty`); a flush (`writePlanMirrorLocked`) reads
the revision, reads the plan, writes `plan.json` and records the revision it wrote. One flush at a time
has the lock; patches commit between any two of its steps, until it has written the row itself.

`Outbox.step` is one step of a flush or of another transaction. What the merge of a changed `plan.json`
(`reconcilePlanLocked`) makes of the plan and of its questions is left open, and so is the plan that a
patch commits; that a patch marks the row is `runPatch_marks`.
-/

namespace Haive

open Lib

/-! ## Questions -/

/-- A pending row of `project_state_conflicts` about a field of a node. `incoming` is what the checkout
holds there, `none` where that is no value. -/
structure PlanQuestion where
  nodeId : String
  field : AskedField
  incoming : Option field.Val

/-- `project_state_conflicts_pending_idx`. -/
def PlanQuestion.key (q : PlanQuestion) : String × AskedField := (q.nodeId, q.field)

abbrev PlanQuestions := Table PlanQuestion PlanQuestion.key

/-- The node with the checkout's value in the field of a question. -/
def PlanQuestion.patch (n : MirrorNode) (q : PlanQuestion) : MirrorNode :=
  if q.nodeId = n.id then
    match q.incoming with
    | some side => n.setAsked q.field side
    | none => n
  else n

def PlanMirror.patched (m : PlanMirror) (questions : PlanQuestions) : PlanMirror :=
  { m with nodes := m.nodes.map fun n => questions.rows.foldl PlanQuestion.patch n }

instance (f : AskedField) : DecidableEq f.Val := askedFields.decEq f

/-- `convergePlanQuestions` leaves it: the node is there, and has another value than the checkout. -/
def PlanQuestion.stays (nodes : List MirrorNode) (q : PlanQuestion) : Bool :=
  (nodes.find? (·.id = q.nodeId)).any fun n => decide (q.incoming ≠ some (n.asked q.field))

/-! ## What a flush writes -/

inductive FileFailure
  | render (e : RenderFailure)
  /-- A walk that would still be running. -/
  | spins
deriving DecidableEq, Repr

/-- `plan.json` of `renderPlanMirrorFiles`; `none` is a plan without nodes. -/
def renderPlanMirrorFiles (numberText : Float → List UInt16) (nodes : PlanNodes)
    (edges : Table PlanNodeEdgeRow PlanNodeEdgeRow.key) (links : Table PlanNodeCodeLinkRow PlanNodeCodeLinkRow.key)
    (questions : PlanQuestions) : Except FileFailure (Option (List UInt16)) :=
  match renderRows nodes edges links with
  | .error e => .error (.render e)
  | .ok none => .ok none
  | .ok (some mirror) =>
    match serializePlanMirror numberText (mirror.patched questions) with
    | none => .error .spins
    | some json => .ok (some json)

/-! ## States -/

/-- How far a flush is. `revision` is what it read. -/
inductive FlushPhase
  | locked
  | loaded (revision : Nat)
  | nodesRead (revision : Nat) (nodes : PlanNodes)
  | edgesRead (revision : Nat) (nodes : PlanNodes) (edges : Table PlanNodeEdgeRow PlanNodeEdgeRow.key)
  | rendered (revision : Nat) (json : Option (List UInt16))
  | converged (revision : Nat) (json : Option (List UInt16))
  | written (revision : Nat)

/-- The flush that has the lock. -/
structure Flush where
  phase : FlushPhase
  /-- The plan without what the transaction did to it, once it has written the row. -/
  before : Option PlanDb
  /-- The questions without what the transaction did to them. -/
  asked : PlanQuestions

structure Outbox where
  /-- The plan as the flush sees it. -/
  db : PlanDb
  questions : PlanQuestions
  /-- `plan.json` as it was written last; `none` where it was removed. -/
  file : Option (List UInt16)
  flush : Option Flush
  /-- Failed flushes whose error is not recorded yet. -/
  owed : Nat

def PlanDb.revision (db : PlanDb) : Nat := (db.mirror.map (·.revision)).getD 0

def PlanDb.writtenRevision (db : PlanDb) : Nat := (db.mirror.map (·.writtenRevision)).getD 0

/-- No flush has written the row without having committed: others may write it. -/
def Outbox.rowFree (o : Outbox) : Bool := o.flush.all (·.before.isNone)

def Outbox.rollback (o : Outbox) (f : Flush) : Outbox :=
  { o with db := f.before.getD o.db, questions := f.asked, flush := none }

/-- The flush throws. -/
def Outbox.fail (o : Outbox) (f : Flush) : Outbox := { o.rollback f with owed := o.owed + 1 }

def Outbox.goTo (o : Outbox) (f : Flush) (phase : FlushPhase) : Outbox :=
  { o with flush := some { f with phase } }

/-- The row as `markPlanMirrorDirty` leaves it, once or more often. -/
def marks (old new : Option PlanMirrorStateRow) : Bool :=
  match new with
  | none => false
  | some row => (old.map (·.revision)).getD 0 < row.revision && row.writtenRevision = (old.map (·.writtenRevision)).getD 0

/-! ## Steps -/

inductive OutboxAct
  /-- A transaction that marks the mirror dirty commits the plan `next`. -/
  | commit (next : PlanDb)
  | lock
  | load
  | readNodes
  | readEdges
  | readLinks
  /-- `plan.json` is not what this flush would write: it is merged into the plan. -/
  | reconcile (next : PlanDb) (questions : PlanQuestions) (dirty : Bool)
  | converge
  | write
  | record
  /-- `plan.md` could not be written. The transaction commits without the record. -/
  | leave
  | throw
  | crash
  | recordPlanMirrorError (message : String)

/-- `loadMirrorState`, with the row inserted where there is none. -/
def Outbox.load (o : Outbox) (f : Flush) : Outbox :=
  match o.db.mirror with
  | some row => o.goTo f (.loaded row.revision)
  | none =>
    { o with
      db := { o.db with mirror := some ⟨1, 0, none⟩ }
      flush := some { f with phase := .loaded 1, before := some o.db } }

def Outbox.render (numberText : Float → List UInt16) (o : Outbox) (f : Flush) (revision : Nat) (nodes : PlanNodes)
    (edges : Table PlanNodeEdgeRow PlanNodeEdgeRow.key) : Outbox :=
  match renderPlanMirrorFiles numberText nodes edges o.db.links o.questions with
  | .error _ => o.fail f
  | .ok json => o.goTo f (.rendered revision json)

/-- `reconcilePlanLocked`, and the plan is read and rendered again. The merge ends with a write of the
row, so nothing comes in between. -/
def Outbox.reconcile (numberText : Float → List UInt16) (o : Outbox) (f : Flush) (next : PlanDb)
    (questions : PlanQuestions) (dirty : Bool) : Outbox :=
  let db := { next with mirror := if dirty then some (PlanDb.dirtied o.db.mirror) else o.db.mirror }
  match renderPlanMirrorFiles numberText db.nodes db.edges db.links questions with
  | .error _ => o.fail f
  | .ok json =>
    { o with
      db, questions
      flush := some { f with phase := .rendered db.revision json, before := some (f.before.getD o.db) } }

/-- `convergePlanQuestions`. -/
def Outbox.converge (o : Outbox) (f : Flush) (revision : Nat) (json : Option (List UInt16)) : Outbox :=
  match renderRows o.db.nodes o.db.edges o.db.links with
  | .error _ => o.fail f
  | .ok mirror =>
    { o.goTo f (.converged revision json) with
      questions := o.questions.filter (PlanQuestion.stays (mirror.elim [] (·.nodes))) }

def recordWritten (target : Nat) (row : PlanMirrorStateRow) : PlanMirrorStateRow :=
  if row.revision = target then { row with writtenRevision := target, lastError := none } else row

def targetRevision (revision : Nat) : Nat := max 1 revision

/-- The insert of `recordPlanMirrorError`, or its update on conflict. -/
def withError (message : String) : Option PlanMirrorStateRow → PlanMirrorStateRow
  | none => ⟨0, 0, some message⟩
  | some row => { row with lastError := some message }

def Outbox.flushStep (numberText : Float → List UInt16) (o : Outbox) (f : Flush) : OutboxAct → Option Outbox
  | .load => match f.phase with
    | .locked => some (o.load f)
    | _ => none
  | .readNodes => match f.phase with
    | .loaded revision => some (o.goTo f (.nodesRead revision o.db.nodes))
    | _ => none
  | .readEdges => match f.phase with
    | .nodesRead revision nodes => some (o.goTo f (.edgesRead revision nodes o.db.edges))
    | _ => none
  | .readLinks => match f.phase with
    | .edgesRead revision nodes edges => some (o.render numberText f revision nodes edges)
    | _ => none
  | .reconcile next questions dirty => match f.phase with
    | .rendered _ json =>
      if o.file.isSome ∧ o.file ≠ json then some (o.reconcile numberText f next questions dirty) else none
    | _ => none
  | .converge => match f.phase with
    | .rendered revision json => some (o.converge f revision json)
    | _ => none
  | .write => match f.phase with
    | .converged revision json =>
      some { o.goTo f (.written revision) with
        file := json
        questions := if json.isNone then ∅ else o.questions }
    | _ => none
  | .record => match f.phase with
    | .written revision =>
      some { o with db := { o.db with mirror := o.db.mirror.map (recordWritten (targetRevision revision)) }, flush := none }
    | _ => none
  | .leave => match f.phase with
    | .written _ => some { o with flush := none, owed := o.owed + 1 }
    | _ => none
  | .throw => some (o.fail f)
  | .crash => some (o.rollback f)
  | _ => none

def Outbox.step (numberText : Float → List UInt16) (o : Outbox) : OutboxAct → Option Outbox
  | .commit next => if o.rowFree ∧ marks o.db.mirror next.mirror then some { o with db := next } else none
  | .recordPlanMirrorError message =>
    if o.rowFree ∧ 0 < o.owed then
      some { o with db := { o.db with mirror := some (withError message o.db.mirror) }, owed := o.owed - 1 }
    else none
  | .lock => match o.flush with
    | none => some { o with flush := some ⟨.locked, none, o.questions⟩ }
    | some _ => none
  | act => o.flush.bind fun f => o.flushStep numberText f act

/-! ## What is to hold -/

variable {numberText : Float → List UInt16}

def PlanDb.files (numberText : Float → List UInt16) (db : PlanDb) (questions : PlanQuestions) :
    Except FileFailure (Option (List UInt16)) :=
  renderPlanMirrorFiles numberText db.nodes db.edges db.links questions

/-- The recorded revision is behind: the sweep writes the mirror again. -/
def PlanDb.Dirty (db : PlanDb) : Prop := db.writtenRevision < db.revision

/-- What the transactions in progress have not changed. -/
def Outbox.committed (o : Outbox) : PlanDb := (o.flush.bind (·.before)).getD o.db

def Outbox.committedQuestions (o : Outbox) : PlanQuestions := (o.flush.map (·.asked)).getD o.questions

/-- A repository between flushes: what is recorded as written is there. -/
structure Outbox.Start (numberText : Float → List UInt16) (o : Outbox) : Prop where
  idle : o.flush = none
  bounded : o.db.writtenRevision ≤ o.db.revision
  file : ¬ o.db.Dirty → o.db.files numberText o.questions = .ok o.file

/-- With no flush in progress and no question, a plan that is not dirty is the one in `plan.json`. -/
def Outbox.UpToDate (numberText : Float → List UInt16) (o : Outbox) : Prop :=
  o.flush = none → o.questions.rows = [] → o.db.revision ≤ o.db.writtenRevision →
    o.db.files numberText ∅ = .ok o.file

def FlushPhase.revision? : FlushPhase → Option Nat
  | .locked => none
  | .loaded revision => some revision
  | .nodesRead revision _ => some revision
  | .edgesRead revision _ _ => some revision
  | .rendered revision _ => some revision
  | .converged revision _ => some revision
  | .written revision => some revision

def Outbox.Recordable (o : Outbox) (act : OutboxAct) : Prop :=
  act = .record → ∀ f, o.flush = some f → f.phase.revision? = some 0 → o.db.revision ≠ 1

/-- A flush that a patch has overtaken since it read the row leaves it dirty. -/
def Outbox.LeavesDirty (numberText : Float → List UInt16) (o : Outbox) : Prop :=
  ∀ f r o', o.flush = some f → f.phase.revision? = some r → r ≠ o.db.revision → o.Recordable .record →
    o.step numberText .record = some o' → o'.db.Dirty

/-! ## A patch marks the row -/

/-- The row was marked, so often that `revision` has grown, or not at all. -/
structure Grows (db db' : PlanDb) : Prop where
  revision : db.revision ≤ db'.revision
  written : db'.writtenRevision = db.writtenRevision

theorem Grows.trans {a b c : PlanDb} (h : Grows a b) (h' : Grows b c) : Grows a c :=
  ⟨h.revision.trans h'.revision, h'.written.trans h.written⟩

theorem grows_of_mirror {db db' : PlanDb} (h : db'.mirror = db.mirror) : Grows db db' :=
  ⟨by rw [PlanDb.revision, PlanDb.revision, h], by rw [PlanDb.writtenRevision, PlanDb.writtenRevision, h]⟩

theorem dirtied_marks (db : PlanDb) : db.revision < { db with mirror := some (PlanDb.dirtied db.mirror) : PlanDb }.revision ∧
    { db with mirror := some (PlanDb.dirtied db.mirror) : PlanDb }.writtenRevision = db.writtenRevision := by
  cases hmirror : db.mirror <;> rw [PlanDb.revision, PlanDb.writtenRevision.eq_def db, hmirror]
  · exact ⟨Nat.zero_lt_one, rfl⟩
  · exact ⟨Nat.lt_succ_self _, rfl⟩

theorem mirror_apply {db : PlanDb} {ws : List Write} (h : ∀ row, Write.setMirror row ∉ ws) :
    (db.apply ws).mirror = db.mirror := by
  induction ws generalizing db with
  | nil => rfl
  | cons w ws ih =>
    have hrest := @ih (db.write w) fun row hrow => h row (List.mem_cons_of_mem _ hrow)
    rw [PlanDb.apply, List.foldl_cons]
    refine hrest.trans ?_
    cases w with
    | setMirror row => exact absurd List.mem_cons_self (h row)
    | _ => rfl

theorem mirror_exec {db db' : PlanDb} {q : Query} {r : q.Reply} (h : db.exec q = .ok (r, db'))
    (hq : q ≠ .markPlanMirrorDirty) : db'.mirror = db.mirror := by
  obtain ⟨ws, heffect, rfl⟩ := PlanDb.exec_eq_ok h
  refine mirror_apply fun row hrow => ?_
  cases q with
  | markPlanMirrorDirty => exact hq rfl
  | rewriteDescendants id oldPrefix newPrefix updatedAt =>
    cases heffect
    obtain ⟨r, -, hr⟩ := List.mem_map.mp hrow
    cases hr
  | deleteNode id =>
    cases heffect
    simp [PlanDb.deleteWrites] at hrow
  | _ =>
    simp only [PlanDb.effect] at heffect
    repeat' split at heffect
    all_goals first | (cases heffect; simp at hrow) | cases heffect

theorem grows_exec {db db' : PlanDb} {q : Query} {r : q.Reply} (h : db.exec q = .ok (r, db')) : Grows db db' := by
  rcases Classical.em (q = .markPlanMirrorDirty) with rfl | hq
  · obtain ⟨ws, heffect, rfl⟩ := PlanDb.exec_eq_ok h
    cases heffect
    obtain ⟨hlt, hwritten⟩ := dirtied_marks db
    exact ⟨hlt.le, hwritten⟩
  · exact grows_of_mirror (mirror_exec h hq)

theorem grows_run {α : Type} {p : Prog Query Query.Reply α} {db db' : PlanDb} {a : α}
    (h : p.run PlanDb.exec db = .ok (a, db')) : Grows db db' := by
  induction p generalizing db with
  | pure b =>
    cases h
    exact ⟨le_rfl, rfl⟩
  | ask q k ih =>
    rw [Prog.run] at h
    cases hexec : db.exec q with
    | error e => rw [hexec] at h; cases h
    | ok rd =>
      rw [hexec] at h
      exact (grows_exec hexec).trans (ih rd.1 h)

/-- A patch that changed something commits as an outbox lets it. -/
theorem runPatch_marks {db db' : PlanDb} {call : PatchCall} {result : ApplyPlanPatchResult}
    (h : runPatch db call = .ok (result, db')) (hchanged : Patch.changed result = true) :
    marks db.mirror db'.mirror = true := by
  obtain ⟨l', hrun⟩ := runPatch_eq_ok h
  replace hrun : Script.Ends PlanDb.exec (Patch.applyOps call) (Patch.seedSelf call) db (.ok result) l' db' := hrun
  have hmarks : ∀ {d : PlanDb} {r : Unit}, Grows db d → d.exec .markPlanMirrorDirty = .ok (r, db') →
      marks db.mirror db'.mirror = true := by
    intro d r hgrows hexec
    cases hexec
    obtain ⟨hlt, hwritten⟩ := dirtied_marks d
    rw [show (d.apply [.setMirror (PlanDb.dirtied d.mirror)]).mirror = some (PlanDb.dirtied d.mirror) from rfl, marks,
      Bool.and_eq_true, decide_eq_true_eq, decide_eq_true_eq]
    exact ⟨hgrows.revision.trans_lt hlt, hwritten.trans hgrows.written⟩
  have hops : ∀ {ops l d}, Grows db d → Script.Ends PlanDb.exec (do
      Patch.applyAll call 0 ops
      let l ← Script.get
      if Patch.changed l.result then Patch.query .markPlanMirrorDirty else pure ()
      pure { l.result with refs := l.refs }) l d (.ok result) l' db' → marks db.mirror db'.mirror = true := by
    intro ops l d hgrows hends
    obtain ⟨_, l₁, d₁, happly, hends⟩ := Script.ends_bind_ok.mp hends
    rw [Script.ends_get_bind] at hends
    have hgrows₁ := hgrows.trans (grows_run happly)
    split at hends
    · obtain ⟨r, d₂, hexec, hends⟩ := Script.ends_ask_bind.mp hends
      obtain ⟨-, -, rfl⟩ := Script.ends_pure.mp hends
      exact hmarks hgrows₁ hexec
    · next hsame =>
      obtain ⟨hresult, -, -⟩ := Script.ends_pure.mp hends
      cases hresult
      exact absurd hchanged hsame
  have hrest : ∀ {l d}, Grows db d → Script.Ends PlanDb.exec (do
      let ops ← if call.opts.onUnresolvableRef = .drop then Patch.dropUnresolvableOps (Patch.normalizeOpRefs call.ops)
        else pure (Patch.normalizeOpRefs call.ops)
      Patch.applyAll call 0 ops
      let l ← Script.get
      if Patch.changed l.result then Patch.query .markPlanMirrorDirty else pure ()
      pure { l.result with refs := l.refs }) l d (.ok result) l' db' → marks db.mirror db'.mirror = true := by
    intro l d hgrows hends
    dsimp only at hends
    split at hends
    · obtain ⟨ops, l₁, d₁, hdrop, hends⟩ := Script.ends_bind_ok.mp hends
      exact hops (hgrows.trans (grows_run hdrop)) hends
    · exact hops hgrows hends
  obtain ⟨inserts, l₁, d₁, hmay, hends⟩ := Script.ends_bind_ok.mp hrun
  have hgrows₁ := grows_run hmay
  cases inserts with
  | false => exact hrest hgrows₁ hends
  | true =>
    dsimp only at hends
    rw [if_pos rfl] at hends
    obtain ⟨_, l₂, d₂, hlock, hends⟩ := Script.ends_bind_ok.mp hends
    exact hrest (hgrows₁.trans (grows_run hlock)) hends

open Sample in
theorem runPatch_marks_plan : ∃ result, runPatch PlanDb.empty plan = .ok (result, start) ∧
    Patch.changed result = true ∧ marks PlanDb.empty.mirror start.mirror = true := by
  have hok : (runPatch PlanDb.empty plan).toOption.map (fun r => (Patch.changed r.1, r.2)) = some (true, start) := by
    decide +kernel
  cases hrun : runPatch PlanDb.empty plan with
  | error e => rw [hrun] at hok; cases hok
  | ok r =>
    rw [hrun] at hok
    obtain ⟨hchanged, hstart⟩ := Prod.mk.inj (Option.some.inj hok)
    have hr : (.ok r : Except PatchFailure _) = .ok (r.1, start) := congrArg (fun db => Except.ok (r.1, db)) hstart
    exact ⟨r.1, hr, hchanged, runPatch_marks (hrun.trans hr) hchanged⟩

end Haive

import Haive.Lib.Runs
import Haive.Lib.Text

/-!
# Who may write a step row

`packages/worker/src/step-engine/step-ownership.ts`, the step actions of
`packages/api/src/routes/tasks/steps.ts`, Stop in `packages/api/src/lib/task-control.ts`
and `autoResumeFailedStep` of `packages/worker/src/queues/_step-reset.ts`, over one
`task_steps` row and its task.

A pass of the worker owns its row as long as the row's status says so: the row holds
no name of the pass. A Retry, a Skip or a Stop takes the row by moving it to a status
no pass owns. Resume and the allowance auto-resume move the row back to `running`,
and where the pass that lost the row is still on the step, the row reads as its own
again. `never_writes_after_loss_iff` says that this is the only way: the writes of a
pass that lost its row are refused all along a run exactly when no re-opening finds
such a pass still on the step.

Left out: what only refuses more (the maintenance hold, a live upgrade beside the
task, the guards of `handleAdvanceStep`), the times of the row and the queue.
-/

namespace Haive.Steps

open Lib

/-! ## Rows -/

/-- `step_status`. -/
inductive StepStatus
  | pending | running | waitingForm | waitingCli | done | failed | skipped
  deriving DecidableEq, Repr

/-- `task_status`. -/
inductive TaskStatus
  | created | queued | running | paused | waitingUser | waitingPr | completed | failed | cancelled
  deriving DecidableEq, Repr

/-- `agent_mining_status`. -/
inductive AgentMiningStatus
  | pending | running | done | failed
  deriving DecidableEq, Repr

/-- A `cli_invocations` row of the step. -/
structure CliInvocation where
  agentMining : Bool
  ended : Bool
  exitCode : Option Nat
  errorMessage : Option String
  superseded : Bool
  consumed : Bool
  deriving DecidableEq, Repr

/-- The `task_steps` row. `parked`: `waiting_started_at` is set. `gateAnswer`: the form
values hold a fix-loop gate's answer. `usageStamp` is `CLEAR_STEP_USAGE_STAMP`'s columns. -/
structure TaskStep where
  status : StepStatus
  output : Option String
  errorMessage : Option String
  statusMessage : Option String
  iterationCount : Nat
  parked : Bool
  gateAnswer : Bool
  integrationWait : Option String
  usageStamp : Option String
  deriving DecidableEq, Repr

/-- The `tasks` row. `current`: it points at this step and round. `dead`: `dead_at` is set. -/
structure Task where
  status : TaskStatus
  orchestrationEpoch : Nat
  current : Bool
  dead : Bool
  deriving DecidableEq, Repr

/-- What an `update` of the row sets. -/
structure Patch where
  status : Option StepStatus := none
  output : Option (Option String) := none
  errorMessage : Option (Option String) := none
  statusMessage : Option (Option String) := none
  iterationCount : Option Nat := none
  parked : Option Bool := none
  gateAnswer : Option Bool := none
  integrationWait : Option (Option String) := none
  usageStamp : Option (Option String) := none
  deriving DecidableEq, Repr

/-- The row an `update` leaves. -/
def Patch.set (p : Patch) (r : TaskStep) : TaskStep where
  status := p.status.getD r.status
  output := p.output.getD r.output
  errorMessage := p.errorMessage.getD r.errorMessage
  statusMessage := p.statusMessage.getD r.statusMessage
  iterationCount := p.iterationCount.getD r.iterationCount
  parked := p.parked.getD r.parked
  gateAnswer := p.gateAnswer.getD r.gateAnswer
  integrationWait := p.integrationWait.getD r.integrationWait
  usageStamp := p.usageStamp.getD r.usageStamp

/-! ## step-ownership.ts -/

/-- `TERMINAL_TASK_STATUSES`. -/
def terminalTaskStatuses : List TaskStatus := [.cancelled, .completed]

structure TaskFence where
  epoch : Nat
  reviveFailed : Bool := false

/-- `taskWriteTarget`: the task row is written. -/
def taskWriteTarget (t : Task) (fence : Option TaskFence) (held : Bool) : Bool :=
  let refused := held || fence.any fun f => !f.reviveFailed
  !(terminalTaskStatuses ++ if refused then [TaskStatus.failed] else []).contains t.status &&
    fence.all fun f => t.orchestrationEpoch == f.epoch

def owned (r : TaskStep) : Bool := !([StepStatus.pending, .skipped, .failed].contains r.status)

/-- `stepPatch`: a terminal transition clears the finished stamp. -/
def stepPatch (p : Patch) : Patch :=
  match p.status with
  | some .done | some .failed | some .skipped =>
    { p with usageStamp := some none, integrationWait := some none }
  | _ => p

/-- `updateOwnedStep`; `none` is `StepSupersededError`. -/
def updateOwnedStep (r : TaskStep) (p : Patch) : Option TaskStep :=
  if owned r then some ((stepPatch p).set r) else none

def lockOwnedStep (r : TaskStep) : Bool := owned r

/-- `assertOwnsStep`; `none` is `StepSupersededError`. -/
def assertOwnsStep (r : TaskStep) : Option Unit := if lockOwnedStep r then some () else none

/-- `insertOwnedRun`: the insert is taken back where the row is no longer owned. -/
def insertOwnedRun (r : TaskStep) (runs : List CliInvocation) (run : CliInvocation) :
    Option (List CliInvocation) := do
  assertOwnsStep r
  pure (runs ++ [run])

def openPendingStep (t : Task) (epoch : Option Nat) (r : TaskStep) (p : Patch) : Option TaskStep :=
  if r.status = .pending then
    match epoch with
    | none => some ((stepPatch p).set r)
    | some e => if taskWriteTarget t (some ⟨e, false⟩) false then some ((stepPatch p).set r) else none
  else none

/-! ## The transactions of the api and of the usage poller -/

/-- A run the step's resolver would still read: neither superseded nor consumed. -/
def CliInvocation.unread (c : CliInvocation) : Bool := !c.superseded && !c.consumed

/-- A non-zero exit, a null exit or any error text. -/
def CliInvocation.failed (c : CliInvocation) : Bool :=
  c.exitCode.all (· != 0) || (c.errorMessage.map trim).any (· != "")

/-- `supersedeBlockingInvocation`, over the runs latest first: the latest one that still
blocks the step is superseded where it ended in failure. -/
def supersedeTrailing : List CliInvocation → List CliInvocation
  | [] => []
  | c :: cs =>
    if c.unread && !c.agentMining then
      (if c.ended && c.failed then { c with superseded := true } else c) :: cs
    else c :: supersedeTrailing cs

def supersedeBlockingInvocation (runs : List CliInvocation) : List CliInvocation :=
  (supersedeTrailing runs.reverse).reverse

def sweepRunsOf (runs : List CliInvocation) : List CliInvocation :=
  runs.map fun c => { c with superseded := true }

inductive StopActor
  | user | admin
  deriving DecidableEq, Repr

def StopActor.by : StopActor → String
  | .user => "user"
  | .admin => "an administrator"

def CliInvocation.isLive (c : CliInvocation) : Bool := !c.ended && !c.superseded

def cancelLiveRuns (actor : StopActor) (runs : List CliInvocation) : List CliInvocation :=
  runs.map fun c =>
    if c.isLive then
      { c with exitCode := some 137, errorMessage := some ("CLI cancelled by " ++ actor.by),
               ended := true, superseded := true }
    else c

/-- The row `resetRowsForRerun` leaves. -/
def resetRow (r : TaskStep) : TaskStep :=
  { r with status := .pending, output := none, errorMessage := none, statusMessage := none,
           iterationCount := 0, parked := false, gateAnswer := false, integrationWait := none }

def skipRow (r : TaskStep) : TaskStep :=
  { r with status := .skipped, errorMessage := none, parked := false, integrationWait := none,
           usageStamp := none }

/-- The row a Resume and the allowance auto-resume leave. -/
def reopenRow (r : TaskStep) : TaskStep :=
  { r with status := .running, errorMessage := none, statusMessage := none }

def pendingCurrentRow (t : Task) (r : TaskStep) : Bool :=
  t.status = .running && !t.dead && t.current && r.status = .pending

/-- `failStuckSteps` with `failingTask` takes the row. -/
def stuck (t : Task) (r : TaskStep) : Bool :=
  r.status = .running || r.status = .waitingCli || (r.status = .pending && r.parked) ||
    (r.status = .pending && r.gateAnswer) || pendingCurrentRow t r

/-- The row `failStuckSteps` leaves of one it takes. -/
def failRow (actor : StopActor) (r : TaskStep) : TaskStep :=
  { r with status := .failed, errorMessage := some ("Stopped by " ++ actor.by),
           statusMessage := none, parked := false, integrationWait := none, usageStamp := none }

def moveTaskToStep (t : Task) : Option Task :=
  if terminalTaskStatuses.contains t.status then none
  else some { t with status := .running, orchestrationEpoch := t.orchestrationEpoch + 1, current := true }

/-! ## The row, its task and the pass on it -/

/-- The pass that holds the step. `opened`: it has opened its row or found it open. `lost`
is no field of the code: a Retry, a Skip or a Stop took the row from it. -/
structure Pass where
  epoch : Option Nat
  opened : Bool
  lost : Bool
  deriving DecidableEq, Repr

structure State where
  row : TaskStep
  task : Task
  runs : List CliInvocation
  agents : List AgentMiningStatus
  pass : Option Pass
  deriving DecidableEq, Repr

/-- What the step registry says of the step: `isStepSkippable` and `cliRoles`. -/
structure StepFlags where
  skippable : Bool
  isLoopStep : Bool
  deriving DecidableEq, Repr

def Pass.lose (p : Pass) : Pass := { p with lost := p.lost || p.opened }

def pick (epoch : Option Nat) (s : State) : Option State :=
  if s.pass = none ∧ s.row.status ∉ [StepStatus.done, .skipped, .failed] then
    some { s with pass := some ⟨epoch, s.row.status != .pending, false⟩ }
  else none

/-- The pass opens its pending row, or loses the claim and ends. -/
def openRow (p : Patch) (s : State) : Option State :=
  match s.pass with
  | none => none
  | some q =>
    if q.opened then none
    else match openPendingStep s.task q.epoch s.row p with
      | some r => some { s with row := r, pass := some { q with opened := true } }
      | none => some { s with pass := none }

def writeRow (p : Patch) (s : State) : Option State :=
  match s.pass with
  | none => none
  | some _ =>
    match updateOwnedStep s.row p with
    | some r => some { s with row := r }
    | none => some { s with pass := none }

/-- `emitProgress`: a refused status line is swallowed. -/
def emitProgress (message : String) (s : State) : Option State :=
  match s.pass with
  | none => none
  | some _ =>
    match updateOwnedStep s.row { statusMessage := some (some message) } with
    | some r => some { s with row := r }
    | none => some s

def lockRow (s : State) : Option State :=
  match s.pass with
  | none => none
  | some _ => if lockOwnedStep s.row then some s else some { s with pass := none }

def recordRun (run : CliInvocation) (s : State) : Option State :=
  match s.pass with
  | none => none
  | some _ =>
    match insertOwnedRun s.row s.runs run with
    | some runs => some { s with runs }
    | none => some { s with pass := none }

/-- Action `retry`, of this step or of one above it. -/
def retry (s : State) : Option State :=
  if s.task.dead then none
  else do
    let task ← moveTaskToStep s.task
    some { s with row := resetRow s.row, task, runs := sweepRunsOf s.runs, agents := [],
                  pass := s.pass.map Pass.lose }

/-- Action `skip`. -/
def skip (flags : StepFlags) (s : State) : Option State :=
  if s.task.dead || !flags.skippable then none
  else if s.row.status ≠ .failed ∧ s.row.status ≠ .waitingForm then none
  else do
    let task ← moveTaskToStep s.task
    some { s with row := skipRow s.row, task, pass := s.pass.map Pass.lose }

/-- Stop: `supersedeLiveRuns` with `failTask`. `others`: it stopped something else of the task. -/
def stop (actor : StopActor) (others : Bool) (s : State) : State :=
  let taken := stuck s.task s.row
  { s with
    row := if taken then failRow actor s.row else s.row
    runs := cancelLiveRuns actor s.runs
    task :=
      if (others || taken || s.runs.any CliInvocation.isLive) &&
          [TaskStatus.running, .queued, .waitingUser].contains s.task.status then
        { s.task with status := .failed }
      else s.task
    pass := if taken then s.pass.map Pass.lose else s.pass }

/-- Action `resume`. With failed agents it re-opens the row whatever its status, else only a
loop step's failed row. -/
def resume (flags : StepFlags) (s : State) : Option State :=
  if s.task.dead || s.agents.any fun a => a = .pending || a = .running then none
  else if s.agents.contains .failed then do
    let task ← moveTaskToStep s.task
    some { s with row := reopenRow s.row, task, runs := supersedeBlockingInvocation s.runs }
  else if s.row.status ≠ .failed ∨ (s.row.iterationCount = 0 ∧ flags.isLoopStep = false) then none
  else do
    let task ← moveTaskToStep s.task
    some { s with row := reopenRow s.row, task,
                  runs := s.runs.map fun c => if c.unread then { c with superseded := true } else c }

/-- `autoResumeFailedStep`: the task must still be failed; the row's status is not asked. -/
def autoResumeFailedStep (s : State) : Option State :=
  if s.task.status = .failed ∧ s.task.dead = false then
    some { s with row := reopenRow s.row, task := { s.task with status := .running },
                  runs := supersedeBlockingInvocation s.runs }
  else none

inductive Action
  | pick (epoch : Option Nat)
  | openRow (p : Patch)
  | writeRow (p : Patch)
  | emitProgress (message : String)
  | lockRow
  | recordRun (run : CliInvocation)
  /-- The pass lets the step go. -/
  | leave
  | retry
  | skip
  | stop (actor : StopActor) (others : Bool)
  | resume
  | autoResume
  /-- Every other writer of the task row, of the step's runs and of its agents' rows. -/
  | elsewhere (task : Task) (runs : List CliInvocation) (agents : List AgentMiningStatus)
  deriving DecidableEq, Repr

def step (flags : StepFlags) (s : State) : Action → Option State
  | .pick epoch => pick epoch s
  | .openRow p => openRow p s
  | .writeRow p => writeRow p s
  | .emitProgress message => emitProgress message s
  | .lockRow => lockRow s
  | .recordRun run => recordRun run s
  | .leave => if s.pass = none then none else some { s with pass := none }
  | .retry => retry s
  | .skip => skip flags s
  | .stop actor others => some (stop actor others s)
  | .resume => resume flags s
  | .autoResume => autoResumeFailedStep s
  | .elsewhere task runs agents => some { s with task, runs, agents }

/-! ## A pass that lost its row -/

def Refused (s : State) : Prop :=
  ∀ p, s.pass = some p → p.lost = true →
    (∀ q, updateOwnedStep s.row q = none) ∧ lockOwnedStep s.row = false ∧
      ∀ run, insertOwnedRun s.row s.runs run = none

def ReopensAlone (s : State) : Action → Prop
  | .resume | .autoResume => ∀ p, s.pass = some p → p.lost = false
  | _ => True

def Disowned (s : State) : Prop :=
  ∀ p, s.pass = some p → p.lost = true → p.opened = true ∧ owned s.row = false

theorem refused_iff {s : State} :
    Refused s ↔ ∀ p, s.pass = some p → p.lost = true → owned s.row = false := by
  constructor
  · intro h p hp hl
    exact (h p hp hl).2.1
  · intro h p hp hl
    have ho := h p hp hl
    refine ⟨fun q => by simp [updateOwnedStep, ho], ho, fun run => ?_⟩
    simp [insertOwnedRun, assertOwnsStep, lockOwnedStep, ho]

theorem Disowned.refused {s : State} (h : Disowned s) : Refused s :=
  refused_iff.mpr fun p hp hl => (h p hp hl).2

theorem Disowned.of_idle {s : State} (h : s.pass = none) : Disowned s := by
  intro p hp
  rw [h] at hp
  cases hp

/-- A transaction that leaves the row in no pass's hands. -/
theorem Disowned.take {s s' : State} (h : Disowned s) (hrow : owned s'.row = false)
    (hpass : s'.pass = s.pass.map Pass.lose) : Disowned s' := by
  intro p hp hl
  rw [hpass, Option.map_eq_some_iff] at hp
  obtain ⟨q, hq, rfl⟩ := hp
  refine ⟨?_, hrow⟩
  rcases Bool.or_eq_true _ _ ▸ hl with hlost | hopened
  · exact (h q hq hlost).1
  · exact hopened

/-- What leaves the row and the pass alone. -/
theorem Disowned.of_same {s s' : State} (h : Disowned s) (hrow : s'.row = s.row)
    (hpass : s'.pass = s.pass) : Disowned s' := by
  intro p hp hl
  rw [hrow]
  exact h p (hpass ▸ hp) hl

/-- A row some pass owns was taken from no pass that is still on the step. -/
theorem Disowned.of_owned {s s' : State} (h : Disowned s) (ho : owned s.row = true)
    (hpass : s'.pass = s.pass) : Disowned s' := by
  intro p hp hl
  have hn := (h p (hpass ▸ hp) hl).2
  rw [ho] at hn
  cases hn

/-- Nor was one that is re-opened once such a pass has left. -/
theorem Disowned.reopen {s s' : State} (h : ∀ p, s.pass = some p → p.lost = false)
    (hpass : s'.pass = s.pass) : Disowned s' := by
  intro p hp hl
  rw [h p (hpass ▸ hp)] at hl
  cases hl

section Steps

variable {flags : StepFlags} {s s' : State}

theorem pick_disowned {epoch : Option Nat} (h : pick epoch s = some s') : Disowned s' := by
  unfold pick at h
  split at h
  · cases h
    intro p hp hl
    cases hp
    cases hl
  · cases h

theorem openRow_disowned {q : Patch} (hs : Disowned s) (h : openRow q s = some s') : Disowned s' := by
  unfold openRow at h
  split at h
  · cases h
  · rename_i p hp
    split at h
    · cases h
    · rename_i hopen
      split at h
      · cases h
        intro p' hp' hl
        cases hp'
        exact absurd (hs p hp hl).1 hopen
      · cases h
        exact .of_idle rfl

theorem owned_of_update {r r' : TaskStep} {q : Patch} (h : updateOwnedStep r q = some r') :
    owned r = true := by
  unfold updateOwnedStep at h
  split at h
  · assumption
  · cases h

theorem writeRow_disowned {q : Patch} (hs : Disowned s) (h : writeRow q s = some s') :
    Disowned s' := by
  unfold writeRow at h
  split at h
  · cases h
  · split at h
    · rename_i hw
      cases h
      exact hs.of_owned (owned_of_update hw) rfl
    · cases h
      exact .of_idle rfl

theorem emitProgress_disowned {message : String} (hs : Disowned s)
    (h : emitProgress message s = some s') : Disowned s' := by
  unfold emitProgress at h
  split at h
  · cases h
  · split at h
    · rename_i hw
      cases h
      exact hs.of_owned (owned_of_update hw) rfl
    · cases h
      exact hs

theorem lockRow_disowned (hs : Disowned s) (h : lockRow s = some s') : Disowned s' := by
  unfold lockRow at h
  split at h
  · cases h
  · split at h
    · cases h
      exact hs
    · cases h
      exact .of_idle rfl

theorem recordRun_disowned {run : CliInvocation} (hs : Disowned s) (h : recordRun run s = some s') :
    Disowned s' := by
  unfold recordRun at h
  split at h
  · cases h
  · split at h
    · cases h
      exact hs.of_same rfl rfl
    · cases h
      exact .of_idle rfl

theorem retry_disowned (hs : Disowned s) (h : retry s = some s') : Disowned s' := by
  unfold retry at h
  split at h
  · cases h
  · rw [Option.bind_eq_bind, Option.bind_eq_some_iff] at h
    obtain ⟨task, -, h⟩ := h
    cases h
    exact hs.take rfl rfl

theorem skip_disowned (hs : Disowned s) (h : skip flags s = some s') : Disowned s' := by
  unfold skip at h
  split at h
  · cases h
  · split at h
    · cases h
    · rw [Option.bind_eq_bind, Option.bind_eq_some_iff] at h
      obtain ⟨task, -, h⟩ := h
      cases h
      exact hs.take rfl rfl

theorem stop_disowned {actor : StopActor} {others : Bool} (hs : Disowned s) :
    Disowned (stop actor others s) := by
  cases ht : stuck s.task s.row with
  | true => exact hs.take (by simp [stop, ht, failRow, owned]) (by simp [stop, ht])
  | false => exact hs.of_same (by simp [stop, ht]) (by simp [stop, ht])

/-- A Resume that takes effect leaves a running row to the pass on the step. -/
theorem resume_spec (h : resume flags s = some s') : owned s'.row = true ∧ s'.pass = s.pass := by
  unfold resume at h
  split at h
  · cases h
  · split at h
    · rw [Option.bind_eq_bind, Option.bind_eq_some_iff] at h
      obtain ⟨task, -, h⟩ := h
      cases h
      exact ⟨rfl, rfl⟩
    · split at h
      · cases h
      · rw [Option.bind_eq_bind, Option.bind_eq_some_iff] at h
        obtain ⟨task, -, h⟩ := h
        cases h
        exact ⟨rfl, rfl⟩

theorem autoResume_spec (h : autoResumeFailedStep s = some s') :
    owned s'.row = true ∧ s'.pass = s.pass := by
  unfold autoResumeFailedStep at h
  split at h
  · cases h
    exact ⟨rfl, rfl⟩
  · cases h

theorem step_disowned {a : Action} (hs : Disowned s) (hmet : ReopensAlone s a)
    (h : step flags s a = some s') : Disowned s' := by
  cases a with
  | pick => exact pick_disowned h
  | openRow => exact openRow_disowned hs h
  | writeRow => exact writeRow_disowned hs h
  | emitProgress => exact emitProgress_disowned hs h
  | lockRow => exact lockRow_disowned hs h
  | recordRun => exact recordRun_disowned hs h
  | leave =>
    rw [step] at h
    split at h
    · cases h
    · cases h
      exact .of_idle rfl
  | retry => exact retry_disowned hs h
  | skip => exact skip_disowned hs h
  | stop =>
    cases h
    exact stop_disowned hs
  | resume => exact .reopen hmet (resume_spec h).2
  | autoResume => exact .reopen hmet (autoResume_spec h).2
  | elsewhere =>
    cases h
    exact hs.of_same rfl rfl

/-- After a re-opening, a pass that lost the row writes it again. -/
theorem ReopensAlone.of_refused {a : Action} (h : step flags s a = some s') (hr : Refused s') :
    ReopensAlone s a := by
  have key : owned s'.row = true → s'.pass = s.pass → ∀ p, s.pass = some p → p.lost = false := by
    intro ho hpass p hp
    cases hl : p.lost with
    | false => rfl
    | true =>
      have hn := refused_iff.mp hr p (hpass ▸ hp) hl
      rw [ho] at hn
      cases hn
  cases a with
  | resume => exact key (resume_spec h).1 (resume_spec h).2
  | autoResume => exact key (autoResume_spec h).1 (autoResume_spec h).2
  | _ => trivial

end Steps

/-! ## Runs -/

/-- A pass that lost its row writes it in no state of a run exactly when every Resume and
auto-resume of the run finds such a pass gone. -/
theorem never_writes_after_loss_iff (flags : StepFlags) {s s' : State} {as : List Action}
    (hidle : s.pass = none) (hrun : runs (step flags) s as = some s') :
    (∀ as₁ s₁, as₁ <+: as → runs (step flags) s as₁ = some s₁ → Refused s₁) ↔
      Along (step flags) ReopensAlone s as := by
  constructor
  · exact along_of_reached (fun s a s' => ReopensAlone.of_refused) hrun
  · intro hmet as₁ s₁ hfirst hreach
    refine Disowned.refused (reached_inv (fun s a s' hs hmet h => ?_) (.of_idle hidle) hmet hfirst hreach)
    exact step_disowned hs hmet h

namespace Sample

/-- A step of a running task, before its first pass. -/
def start : State where
  row := ⟨.pending, none, none, none, 1, false, false, none, none⟩
  task := ⟨.running, 0, true, false⟩
  runs := []
  agents := []
  pass := none

def loopFlags : StepFlags := ⟨false, true⟩

def stoppedPass (reopen : Action) : List Action :=
  [.pick (some 0), .openRow { status := some .running }, .stop .user false, reopen,
   .writeRow { status := some .done, output := some (some "the stopped run's") }]

def retriedPass : List Action :=
  [.pick (some 0), .openRow { status := some .running }, .retry,
   .writeRow { status := some .done, output := some (some "the superseded run's") }]

end Sample

open Sample

theorem never_writes_after_loss_retried :
    (runs (step loopFlags) start retriedPass).isSome ∧
      ∀ as₁ s₁, as₁ <+: retriedPass → runs (step loopFlags) start as₁ = some s₁ → Refused s₁ := by
  have hrun : runs (step loopFlags) start retriedPass =
      some { start with task := ⟨.running, 1, true, false⟩, row := resetRow start.row } := rfl
  refine ⟨by rw [hrun]; rfl, (never_writes_after_loss_iff loopFlags rfl hrun).mpr ?_⟩
  exact ⟨trivial, trivial, trivial, trivial, trivial⟩

/-- A stopped pass writes the row again once a Resume or an auto-resume has re-opened it, and
its output ends the run that replaced it. -/
theorem stopped_pass_writes_again :
    (¬ ∀ (flags : StepFlags) (s s' : State) (as : List Action), s.pass = none →
      runs (step flags) s as = some s' → Refused s') ∧
    ∀ reopen ∈ [Action.resume, .autoResume], ∃ s', runs (step loopFlags) start (stoppedPass reopen) = some s' ∧
      s'.row.status = .done ∧ s'.row.output = some "the stopped run's" := by
  constructor
  · intro h
    have hr := refused_iff.mp (h loopFlags start _ ((stoppedPass .resume).take 4) rfl rfl)
    exact absurd (hr _ rfl rfl) (by decide)
  · intro reopen hreopen
    rcases List.mem_pair.mp hreopen with rfl | rfl
    · exact ⟨_, rfl, rfl, rfl⟩
    · exact ⟨_, rfl, rfl, rfl⟩

end Haive.Steps

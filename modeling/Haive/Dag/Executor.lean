import Haive.Dag.Merge

/-!
# The executor

`resolveDagPhase` as the steps of a run: `enter` is the check for a dead provider
before its loop, `iterate` one iteration of the loop, which a call repeats while it
signals `loop`. Between them agents end (`answer`) and a failed step may be retried
(`retry`, the reset of `resetDagCurrentLevelForRetry`). A call that the process
serves is an `enter` and iterations up to the first other signal; runs of these
actions in any order cover every sequence of calls.
-/

namespace Dag

open Lib

/-! ## The parts of an iteration -/

def createWorktrees (w : World) (level : Nat) : Stage := fun d =>
  if (d.atLevel level).all (·.worktree) then (d, none)
  else
    sweepStage (!·.worktree)
      (fun _ i =>
        if w.worktree i.issueKey then { row := { i with worktree := true }, note := .quiet }
        else { row := i, note := .quiet, thrown := some s!"git worktree add failed for {i.issueKey}" })
      level (fun _ _ => some .loop) d

def Issue.undispatched (i : Issue) : Bool := i.outcome = .pending && i.cliInvocationId.isNone

def dispatchCoders (w : World) (level : Nat) : Stage := fun d =>
  if (d.atLevel level).all (!·.undispatched) then (d, none)
  else
    sweepStage (·.undispatched) (fun _ => dispatchCoder w) level
      (fun _ notes => if .inFlight ∈ notes then some .waiting else some .loop) d

def Issue.running (i : Issue) : Bool := i.outcome = .running

/-- (C): the coders that ended. -/
def ingestCoders (w : World) (level : Nat) : Stage := fun d =>
  if (d.atLevel level).all (!·.running) then (d, none)
  else
    sweepStage (·.running) (fun _ => ingestCoder w) level
      (fun _ notes => if .inFlight ∈ notes then some .waiting else some .loop) d

def haltForDagEnvironmentFailures (level : Nat) (pick : Issue → Bool) : Stage := fun d =>
  match ((d.atLevel level).filter pick).filterMap fun i =>
      (dagEnvironmentHaltReason i.errorMessage i.concerns).map fun r => s!"{i.issueKey}: {r}" with
  | [] => (d, none)
  | failures =>
    let detail := String.ofList ((" | ".intercalate failures).toList.take 2000)
    (d, some (.failed s!"DAG halted at level {level}: the execution environment blocked the work (not an implementation problem). Fix the cause below, then Retry. {detail}"))

def Issue.coderFailed (i : Issue) : Bool := i.outcome = .failedUnrecoverable

def levelFailureMessage (level : Nat) (failed : List Issue) : String :=
  let refused := keysOf (failed.filter (·.refused))
  let head := s!"DAG level {level} failed: {keysOf failed}"
  if failed.any (·.refused) then
    s!"{head}; the provider refused {refused}, so it is not retried with the same prompt"
  else head

/-- (D): coder failures end the step, or are marked for the advisor. -/
def markCoderFailures (level : Nat) : Stage := fun d =>
  let failed := (d.atLevel level).filter (·.coderFailed)
  if d.plan.reviewEnabled then
    ({ d with issues := d.issues.map fun i =>
        if i.level = level && i.coderFailed && i.resolution.isNone then
          { i with resolution := some .failedUnrecoverable }
        else i }, none)
  else if failed = [] then (d, none)
  else (d, some (.failed (levelFailureMessage level failed)))

def resolveReviewPhase (w : World) (level : Nat) : Stage :=
  sweepStage (·.needsReview) (fun _ i => { row := reviewIssue w i, note := .quiet }) level
    (fun d _ => if (d.atLevel level).all (!·.needsReview) then none else some .waiting)

def reviewAndEscalate (w : World) (level : Nat) : Stage := fun d =>
  if d.plan.reviewEnabled then
    Stage.andThen (resolveReviewPhase w level)
      (Stage.andThen (haltForDagEnvironmentFailures level (·.failed)) (resolveEscalationPhase w level)) d
  else (d, none)

/-- (E), first half: the work of each issue is committed. -/
def commitIssues (w : World) (level : Nat) : Stage := fun d =>
  sweepStage (fun i => i.mergeable d.plan.reviewEnabled && i.mergeStatus.isNone)
    (fun _ i =>
      let empty :=
        s!"DAG issue {i.issueKey} produced no branch changes; refusing to record an empty implementation as a clean merge."
      if !w.commits i.issueKey then
        { row := i, note := .quiet, thrown := some s!"git commit failed for DAG issue {i.issueKey}" }
      else if w.hasChanges i.issueKey then { row := i, note := .quiet }
      else { row := { i with errorMessage := some empty }, note := .quiet, thrown := some empty })
    level (fun _ _ => none) d

/-- (F): the level is done. -/
def checkpoint (level : Nat) (d : Rows) : Rows :=
  d.setLevel level fun l => { l with checkpointed := true, mergeState := {} }

/-- The parts (A) to (E). -/
def levelStages (w : World) (level : Nat) : Stage :=
  Stage.andThen (createWorktrees w level) <|
  Stage.andThen (dispatchCoders w level) <|
  Stage.andThen (ingestCoders w level) <|
  Stage.andThen (haltForDagEnvironmentFailures level (·.coderFailed)) <|
  Stage.andThen (markCoderFailures level) <|
  Stage.andThen (reviewAndEscalate w level) <|
  Stage.andThen (commitIssues w level) (runLevelMerge w level)

/-- What an iteration comes to. -/
inductive Report
  /-- Every level is checkpointed: `resolved: true`. -/
  | resolved
  | ended (signal : Signal)
  deriving Repr, DecidableEq

/-- One iteration of the loop of `resolveDagPhase`. -/
def iterate (w : World) (d : Rows) : Rows × Report :=
  match d.curLevel with
  | none => (d, .resolved)
  | some l =>
    if d.atLevel l.level = [] then (checkpoint l.level d, .ended .loop)
    else
      match levelStages w l.level d with
      | (d', some signal) => (d', .ended signal)
      | (d', none) => (checkpoint l.level d', .ended .loop)

/-! ## Before the loop -/

def Rows.invocations (d : Rows) : List Invocation :=
  d.issues.flatMap (·.invocations) ++ d.plan.replanners ++ d.levels.flatMap (·.fixers)

/-- An update of every invocation of the step. -/
def Rows.mapInvocations (d : Rows) (f : Invocation → Invocation) : Rows where
  plan := { d.plan with replanners := d.plan.replanners.map f }
  levels := d.levels.map fun l => { l with fixers := l.fixers.map f }
  issues := d.issues.map fun i => { i with invocations := i.invocations.map f }

/-- A run that a dead provider takes with it. -/
def cancelSibling (inv : Invocation) : Invocation :=
  if inv.runIsLive then
    { inv with
      exitCode := some 137
      errorMessage := some "cancelled: sibling of a fatal provider failure"
      ended := true
      superseded := true }
  else inv

/-- The check before the loop; `recent` says which ended runs are among the fifty the query
returns. -/
def enter (recent : Invocation → Bool) (d : Rows) : Rows × Option Signal :=
  let ended := d.invocations.filter fun inv =>
    inv.ended && !inv.superseded && inv.errorMessage.isSome && recent inv
  match (ended.find? fun inv => isProviderOutage inv.errorMessage).bind (·.errorMessage) with
  | some message => (d.mapInvocations cancelSibling, some (.failed message))
  | none => (d, none)

/-! ## Between the calls -/

inductive Agent
  | issue (key : String) (id : Nat)
  | replanner (id : Nat)
  | fixer (level id : Nat)
  deriving Repr, DecidableEq

/-- A live run becomes `final`, but for how it was sent. -/
def finish (final inv : Invocation) : Invocation :=
  if inv.runIsLive then { final with truncationRetry := inv.truncationRetry } else inv

/-- An agent's run ends. -/
def answer (agent : Agent) (final : Invocation) (d : Rows) : Rows :=
  match agent with
  | .issue key id =>
    { d with issues := d.issues.map fun i =>
        if i.issueKey = key then { i with invocations := i.invocations.modify id (finish final) } else i }
  | .replanner id =>
    { d with plan := { d.plan with replanners := d.plan.replanners.modify id (finish final) } }
  | .fixer level id => d.setLevel level fun l => { l with fixers := l.fixers.modify id (finish final) }

/-- `isStuckFailed`. -/
def Issue.stuckFailed (i : Issue) : Bool :=
  i.failed || (i.coderFailed && i.resolution.isNone)

/-- An issue as `resetDagCurrentLevelForRetry` leaves it. -/
def resetIssue (i : Issue) : Issue where
  issueKey := i.issueKey
  level := i.level
  acceptanceCriteria := i.acceptanceCriteria
  worktree := i.worktree
  invocations := i.invocations

def resetDagCurrentLevelForRetry (d : Rows) : Rows :=
  match d.curLevel with
  | none => d
  | some l =>
    if (d.atLevel l.level).all (!·.stuckFailed) then d
    else
      { d with
        issues := d.issues.map fun i => if i.level = l.level && i.stuckFailed then resetIssue i else i
        levels := d.levels.map fun row =>
          if row.level = l.level then { row with mergeState := {} } else row }

/-! ## Runs -/

inductive Action
  | enter (recent : Invocation → Bool)
  | iterate (world : World)
  | answer (agent : Agent) (final : Invocation)
  | retry

def step (d : Rows) : Action → Rows
  | .enter recent => (enter recent d).1
  | .iterate w => (iterate w d).1
  | .answer agent final => answer agent final d
  | .retry => resetDagCurrentLevelForRetry d

def run (d : Rows) (actions : List Action) : Rows := actions.foldl step d

end Dag

import Haive.Dag.FanOut
import Haive.Dag.Review

/-!
# The advisor and the replanner

`resolveEscalationPhase`: the advisor of each failed issue, then the replanner of
the plan. An advisor that splits an issue inserts rows, one at a time, under the
keys `<key>-S1`, `<key>-S2`, …; an insert the table refuses throws and leaves the
rows inserted before it.
-/

namespace Dag

open Lib

def maxAdvisorInvocations : Nat := 2

def maxReplannerInvocations : Nat := 2

/-- How a part of an iteration ends the iteration. -/
inductive Signal
  /-- The loop goes on with its next iteration. -/
  | loop
  /-- The step waits for an agent. -/
  | waiting
  | failed (error : String)
  deriving Repr, DecidableEq

/-- A part of an iteration; no signal lets the next part run. -/
abbrev Stage := Rows → Rows × Option Signal

/-- One part after another. -/
def Stage.andThen (first second : Stage) : Stage := fun d =>
  match first d with
  | (d', none) => second d'
  | ended => ended

def sweepLevel (pick : Issue → Bool) (turn : List String → Issue → IssueTurn) (level : Nat) (d : Rows) :
    Swept Issue Note String :=
  sweep (·.issueKey) (fun i => i.level = level && pick i) turn d.keys d.issues

def Rows.store (d : Rows) (s : Swept Issue Note String) : Rows :=
  { d with issues := s.rows ++ s.added }

/-- The sweep as a stage: a throw fails the step, and the notes decide otherwise. -/
def sweepStage (pick : Issue → Bool) (turn : List String → Issue → IssueTurn) (level : Nat)
    (decide : Rows → List Note → Option Signal) : Stage := fun d =>
  let s := sweepLevel pick turn level d
  let d' := d.store s
  match s.thrown with
  | some e => (d', some (.failed e))
  | none => (d', decide d' s.notes)

/-! ## The advisor -/

def escalateIssueToReplan (i : Issue) (reason : String) : Issue :=
  { i with
    lastAdvisorAction := some .escalateToReplan
    errorMessage := i.errorMessage.or (some reason) }

def parseAdvisor (inv : Invocation) : AdvisorOutput :=
  inv.output.advisor.getD { action := .escalateToReplan }

/-- The row of the sub-issue with the given number. -/
def subIssue (parent : Issue) (idx : Nat) : Issue where
  issueKey := s!"{parent.issueKey}-S{idx}"
  level := parent.level
  acceptanceCriteria := parent.acceptanceCriteria

/-- The inserts of a split: the rows that went in, and the error of the one that did not. -/
def insertSubs (taken : List String) : List Issue → List Issue × Option String
  | [] => ([], none)
  | i :: is =>
    if insertable taken i then
      let rest := insertSubs (taken ++ [i.issueKey]) is
      (i :: rest.1, rest.2)
    else ([], some s!"insert into task_dag_issues failed for {i.issueKey}")

def splitIssue (taken : List String) (i : Issue) (out : AdvisorOutput) : IssueTurn :=
  let count := if out.subIssues = [] then 1 else out.subIssues.length
  let inserted := insertSubs taken ((List.range count).map fun n => subIssue i (n + 1))
  match inserted.2 with
  | some e => { row := i, added := inserted.1, note := .quiet, thrown := some e }
  | none => { row := { i with resolution := some .split }, added := inserted.1, note := .reloop }

/-- RETRY_APPROACH and RETRY_MODIFIED: a fresh fix coder, which the issue waits for. -/
def retryIssue (w : World) (i : Issue) (out : AdvisorOutput) : Issue :=
  let dropped := if out.action = .retryModified then out.dropCriteria else []
  let newIter := i.innerIteration + 1
  let reset := { i.pushDebt (dropped.map .droppedCriterion) with
    resolution := none
    acceptanceCriteria := i.acceptanceCriteria.filter (· ∉ dropped)
    innerIteration := newIter }
  if w.takes i.issueKey .coder then (reset.spawn .coder newIter false).claim i.invocations.length
  else reset.setResolution .failedUnrecoverable none

/-- An advisor's decision is folded into its issue. -/
def followAdvice (w : World) (taken : List String) (i : Issue) (out : AdvisorOutput) : IssueTurn :=
  let i := { i with
    advisorInvocations := i.advisorInvocations + 1
    lastAdvisorAction := some out.action }
  match out.action with
  | .acceptWithDebt =>
    if i.filesModified = [] then
      { row := escalateIssueToReplan i
          "advisor attempted ACCEPT_WITH_DEBT without any reported implementation changes",
        note := .quiet }
    else { row := i.acceptWithDebt [.advisorAccept out.reasoning], note := .quiet }
  | .escalateToReplan => { row := i, note := .quiet }
  | .split => splitIssue taken i out
  | .retryApproach | .retryModified => { row := retryIssue w i out, note := .inFlight }

/-- An advisor is sent, or the issue goes to the replanner. -/
def sendAdvisor (w : World) (i : Issue) (truncated : Bool) : IssueTurn :=
  if w.takes i.issueKey .issueAdvisor then
    { row := i.spawn .issueAdvisor i.advisorInvocations truncated, note := .inFlight }
  else { row := escalateIssueToReplan i "no advisor provider available", note := .quiet }

def ingestAdvisor (w : World) (taken : List String) (i : Issue) (run : AgentRun) (inv : Invocation) :
    IssueTurn :=
  let truncatedOnce := inv.failureClass = .truncated && inv.truncationRetryable
  if inv.runNeverAnswered || truncatedOnce then sendAdvisor w (i.consume run) truncatedOnce
  else followAdvice w taken (i.consume run) (parseAdvisor inv)

/-- One failed issue of the middle loop. -/
def adviseIssue (w : World) (taken : List String) (i : Issue) : IssueTurn :=
  if i.refused || i.lastAdvisorAction = some .escalateToReplan then { row := i, note := .quiet }
  else
    match i.latestAdvisor.filter (!·.consumed) with
    | some run =>
      match i.invocations[run.cliInvocationId]? with
      | none => { row := i, note := .inFlight }
      | some inv =>
        if inv.runIsLive then { row := i, note := .inFlight } else ingestAdvisor w taken i run inv
    | none =>
      if i.advisorInvocations < maxAdvisorInvocations then sendAdvisor w i false
      else { row := escalateIssueToReplan i "advisor retry budget exhausted", note := .quiet }

/-! ## The replanner -/

def Issue.failed (i : Issue) : Bool := i.resolution = some .failedUnrecoverable

def keysOf (issues : List Issue) : String := ", ".intercalate (issues.map (·.issueKey))

/-- `spawnReplanner`, once a provider takes the prompt. -/
def spawnReplanner (d : Rows) (truncationRetry : Bool) : Rows :=
  { d with
    plan := { d.plan with
      replanners := d.plan.replanners ++ [{ truncationRetry }]
      replannerInvocationId := some d.plan.replanners.length } }

def freeReplanner (d : Rows) : Rows :=
  { d with plan := { d.plan with replannerInvocationId := none } }

def skipIssue (i : Issue) : Issue := { i with resolution := some .skipped }

def skipFailed (level : Nat) (d : Rows) : Rows :=
  { d with issues := d.issues.map fun i => if i.level = level && i.failed then skipIssue i else i }

def parseReplanner (inv : Invocation) : ReplannerOutput :=
  inv.output.replanner.getD { action := .abort }

/-- A replanner's answer: only an abort stops the plan, and everything else skips what failed. -/
def ingestReplanner (level : Nat) (inv : Invocation) : Stage := fun d =>
  let action := (parseReplanner inv).action
  let counted := { d with
    plan := { d.plan with
      replannerInvocations := d.plan.replannerInvocations + 1
      lastReplannerAction := some action
      replannerInvocationId := none } }
  if action = .abort then
    let keys := keysOf ((d.atLevel level).filter (·.failed))
    (counted, some (.failed s!"DAG aborted by replanner at level {level}: {keys}"))
  else (skipFailed level counted, some .loop)

/-- A replanner in flight, or ended. -/
def awaitReplanner (w : World) (level id : Nat) : Stage := fun d =>
  match d.plan.replanners[id]? with
  | none => (d, some .waiting)
  | some inv =>
    let truncatedOnce := inv.failureClass = .truncated && inv.truncationRetryable
    if inv.runIsLive then (d, some .waiting)
    else if inv.runNeverAnswered || truncatedOnce then
      if truncatedOnce && w.takesReplanner then (spawnReplanner (freeReplanner d) true, some .waiting)
      else (freeReplanner d, some .loop)
    else ingestReplanner level inv d

/-- The outer loop: the failures left by the advisors go to the replanner, or end the step. -/
def callReplanner (w : World) (level : Nat) : Stage := fun d =>
  let fresh := d.atLevel level
  let stillFailed := fresh.filter (·.failed)
  let keys := keysOf stillFailed
  if stillFailed = [] then (d, some .loop)
  else
    let escalated := stillFailed.any (·.lastAdvisorAction = some .escalateToReplan)
    -- `stillFailed.length / max(1, fresh.length) >= 0.8`
    let ratioTrigger := 4 * max 1 fresh.length ≤ 5 * stillFailed.length
    let trigger := escalated || 2 ≤ stillFailed.length || ratioTrigger
    if !trigger then
      (d, some (.failed s!"DAG escalation aborted at level {level}: failed issue could not be resolved safely ({keys})"))
    else if maxReplannerInvocations ≤ d.plan.replannerInvocations then
      (d, some (.failed s!"DAG escalation aborted at level {level}: replanner retry budget exhausted after {maxReplannerInvocations} attempts ({keys})"))
    else if w.takesReplanner then (spawnReplanner d false, some .waiting)
    else
      (d, some (.failed s!"DAG escalation aborted at level {level}: no replanner provider available ({keys})"))

/-- After the advisors: wait for one, go round again after a split, or end on a refusal. -/
def afterAdvisors (level : Nat) (refused : List Issue) (notes : List Note) : Option Signal :=
  if .inFlight ∈ notes then some .waiting
  else if .reloop ∈ notes then some .loop
  else if refused ≠ [] then
    let keys := keysOf refused
    some (.failed s!"DAG escalation aborted at level {level}: the provider refused {keys}; its content is not re-sent to an advisor or replanner")
  else none

/-- The middle loop. -/
def adviseFailed (w : World) (level : Nat) : Stage := fun d =>
  let refused := (d.atLevel level).filter fun i => i.failed && i.refused
  sweepStage (·.failed) (adviseIssue w) level (fun _ => afterAdvisors level refused) d

def resolveEscalationPhase (w : World) (level : Nat) : Stage := fun d =>
  match d.plan.replannerInvocationId with
  | some id => awaitReplanner w level id d
  | none =>
    if ((d.atLevel level).filter (·.failed)) = [] then (d, none)
    else Stage.andThen (adviseFailed w level) (callReplanner w level) d

end Dag

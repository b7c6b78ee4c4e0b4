import Haive.Dag.Rows
import Haive.Lib.Sweep

/-!
# The coder and the reviewer of an issue

What one pass does to one issue: it dispatches the level coder, folds a coder that
ended into the issue, and drives the inner review loop (reviewer, fix coder,
reviewer again) by one step. `World.takes` says whether a provider takes the prompt
of a role for an issue in this pass; everything else is read from the rows.
-/

namespace Dag

open Lib

inductive MergeTry
  /-- A merge that is open in the tree is held. -/
  | held (note : String)
  /-- Another merge could not be aborted. -/
  | uncleared
  | refused (detail : String)
  | merged
  | conflict
  /-- The branch conflicts, and the merge could not be aborted. -/
  | unaborted
  deriving Repr, DecidableEq

/-- How the conflict of a branch is recreated for a fixer. -/
inductive Reopen
  | held (note : String)
  | unaborted
  | refused (detail : String)
  | merged
  | conflict
  deriving Repr, DecidableEq

inductive FixerDispatch
  | ok | noProvider | alreadyLive
  deriving Repr, DecidableEq

/-- What a pass reads from outside the rows: the providers, the file system and git. -/
structure World where
  /-- A worktree can be made for the issue; otherwise the pass throws. -/
  worktree : String → Bool
  takes : String → Role → Bool
  skipReason : String
  takesReplanner : Bool
  /-- The work of the issue is committed and its branch read; otherwise the pass throws. -/
  commits : String → Bool
  hasChanges : String → Bool
  merge : String → MergeTry
  reopen : String → Reopen
  fixer : FixerDispatch
  /-- A person asked for `retry_ai`. -/
  aiFixContext : Bool
  /-- The index still holds what the fixer staged. -/
  indexHeld : Bool
  /-- `completeMergeHostSide`. -/
  completes : Bool
  /-- The open merge can be aborted. -/
  aborts : Bool

def dagMaxInfraRetries : Nat := 2

def maxReviewIters : Nat := 5

def stuckLimit : Nat := 3

namespace Issue

/-! ## Writes to an issue -/

/-- `insertOwnedRun` for the issue: the new invocation is the last one. -/
def invoke (i : Issue) (truncationRetry : Bool) : Issue :=
  { i with invocations := i.invocations ++ [{ truncationRetry }] }

/-- `spawnReviewAgent`, once a provider takes the prompt. -/
def spawn (i : Issue) (role : Role) (iteration : Nat) (truncationRetry : Bool) : Issue :=
  { i.invoke truncationRetry with
    runs := i.runs ++ [{ role, iteration, cliInvocationId := i.invocations.length }] }

def consume (i : Issue) (run : AgentRun) : Issue :=
  { i with
    runs := i.runs.map fun r =>
      if r.cliInvocationId = run.cliInvocationId then { r with consumed := true } else r }

def setResolution (i : Issue) (resolution : Resolution) (errorMessage : Option String) : Issue :=
  { i with resolution := some resolution, errorMessage := errorMessage.or i.errorMessage }

def pushDebt (i : Issue) (items : List Debt) : Issue := { i with debtItems := i.debtItems ++ items }

def acceptWithDebt (i : Issue) (items : List Debt) : Issue :=
  { i.pushDebt items with outcome := .completedWithDebt, resolution := some .completedWithDebt }

/-- The invocation claims the issue, which waits for it as for a level coder. -/
def claim (i : Issue) (invocation : Nat) : Issue :=
  { i with outcome := .running, cliInvocationId := some invocation, errorMessage := none }

end Issue

/-! ## The coder -/

/-- `parseCoderResult`: no valid result is a failure. -/
structure ParsedCoder where
  outcome : Outcome
  filesModified : List String
  debtItems : List Debt
  concerns : String
  parsed : Bool
  deriving Repr, DecidableEq

def parseCoderResult (inv : Invocation) : ParsedCoder :=
  match inv.output.coder with
  | some result => ⟨result.outcome.toOutcome, result.filesModified, result.debtItems, result.concerns, true⟩
  | none =>
    let exit := match inv.exitCode with
      | some code => toString code
      | none => "unknown"
    ⟨.failedUnrecoverable, [], [],
      s!"coder exited {exit} without a valid ISSUE_RESULT_JSON; refusing to infer success", false⟩

/-- What a turn of one issue tells the phase around it. -/
inductive Note
  | quiet | inFlight | reloop
  deriving Repr, DecidableEq

abbrev IssueTurn := Turn Issue Note String

/-- Section (B): the level coder of an issue that waits for one. -/
def dispatchCoder (w : World) (i : Issue) : IssueTurn :=
  if w.takes i.issueKey .coder then
    let truncated := isOutputTruncationMessage (i.errorMessage.map trim)
    { row := (i.invoke truncated).claim i.invocations.length, note := .inFlight }
  else
    { row := { i with
        outcome := .failedUnrecoverable
        errorMessage := some s!"no cli provider available: {w.skipReason}" },
      note := .quiet }

/-- A fix coder of the advisor's, sent again as one. -/
def redispatchFixCoder (w : World) (i : Issue) (failedRun : AgentRun) (charged truncated : Bool) :
    Issue :=
  if w.takes i.issueKey .coder then
    { ((i.spawn .coder i.innerIteration truncated).claim i.invocations.length).consume failedRun with
      infraRetries := i.infraRetries + if charged then 1 else 0
      concerns := none }
  else
    { i with
      outcome := .failedUnrecoverable
      errorMessage := some "no cli provider available for the fix coder re-dispatch" }

/-- The coder's result is final, `concerns` and the error being what the executor says of it. -/
def recordCoder (i : Issue) (result : ParsedCoder) (outcome : Outcome) (concerns : String)
    (errorMessage : Option String) : Issue :=
  { i with
    outcome
    filesModified := if result.parsed then result.filesModified else i.filesModified
    debtItems := result.debtItems
    concerns := some concerns
    errorMessage := errorMessage.or i.errorMessage }

def ingestFailedCoder (w : World) (i : Issue) (id : Nat) (inv : Invocation) (result : ParsedCoder) :
    Issue :=
  let cls := inv.failureClass
  let free := inv.runNeverAnswered
  if (cls = .transient && (free || i.infraRetries < dagMaxInfraRetries)) ||
      (cls = .truncated && inv.truncationRetryable) then
    match i.runs.find? fun r => r.role = .coder && r.cliInvocationId = id with
    | some fixRun => redispatchFixCoder w i fixRun (!(free || cls = .truncated)) (cls = .truncated)
    | none =>
      { i with
        outcome := .pending
        cliInvocationId := none
        infraRetries := i.infraRetries + if free || cls = .truncated then 0 else 1
        concerns := none
        errorMessage := if cls = .truncated then inv.errorMessage else none }
  else if inv.refused then
    let concerns :=
      s!"{i.issueKey} coder was refused by the provider. Not retrying: the same prompt is refused again."
    recordCoder i result .failedUnrecoverable concerns inv.errorMessage
  else if cls = .transient then
    let attempts := i.infraRetries + 1
    let concerns :=
      s!"{i.issueKey} coder was killed/orphaned {attempts} times without completing (worker restart or runner OOM). Not retrying — raise RUNTIME_MEMORY_MB or reduce the issue's scope."
    recordCoder i result .failedUnrecoverable concerns (some s!"{infraExhaustedMarker}: {concerns}")
  else recordCoder i result .failedUnrecoverable result.concerns none

/-- Section (C): a coder that ended is folded into its issue. -/
def ingestCoder (w : World) (i : Issue) : IssueTurn :=
  match i.cliInvocationId with
  | none => { row := i, note := .inFlight }
  | some id =>
    match i.invocations[id]? with
    | none => { row := i, note := .inFlight }
    | some inv =>
      if inv.runIsLive then { row := i, note := .inFlight }
      else
        let result := parseCoderResult inv
        -- A refusal fails the issue whatever partial result the coder printed before it.
        if inv.refused || result.outcome = .failedUnrecoverable then
          { row := ingestFailedCoder w i id inv result, note := .quiet }
        else { row := recordCoder i result result.outcome result.concerns none, note := .quiet }

/-! ## The reviewer -/

def failedCriteriaCount (v : ReviewerOutput) : Nat := (v.criteriaResults.filter (!·.2)).length

/-- The findings out of scope are withheld; a verdict that rested on them alone is a pass. -/
def parseReviewerOutput (inv : Invocation) : Option ReviewerOutput :=
  inv.output.reviewer.map fun parsed =>
    let issues := parsed.issues.filter (!·.outOfScope)
    let withheld := parsed.issues.filter (·.outOfScope)
    let out := { parsed with issues, withheld := none }
    if withheld = [] then out
    else
      let verdict :=
        if out.verdict ≠ .approve && issues = [] && failedCriteriaCount out = 0 then .approve
        else out.verdict
      { out with withheld := some withheld, verdict }

def fixRequiredIsCosmetic (v : ReviewerOutput) : Bool :=
  v.verdict = .fixRequired && v.criteriaResults ≠ [] && v.criteriaResults.all (·.2) &&
    v.issues.all (·.severity = some .low)

def unionWithheld (earlier latest : List Finding) : List Finding :=
  (earlier ++ latest).foldl
    (fun seen f => if seen.any (·.identity = f.identity) then seen else seen ++ [f]) []

/-- Fewer criteria fail than in the round before, and none was left out. -/
def progressed (previous : Option ReviewerOutput) (verdict : ReviewerOutput) : Bool :=
  verdict.criteriaResults ≠ [] && previous.any fun p =>
    p.criteriaResults.length ≤ verdict.criteriaResults.length &&
      failedCriteriaCount verdict < failedCriteriaCount p

namespace Issue

/-- A reviewer is sent, or the issue fails with the text given. -/
def sendReviewer (w : World) (i : Issue) (iteration : Nat) (truncated : Bool)
    (otherwise : Option String) : Issue :=
  if w.takes i.issueKey .reviewer then i.spawn .reviewer iteration truncated
  else i.setResolution .failedUnrecoverable otherwise

/-- `reviewerVerdict` is kept where findings were withheld. -/
def keep (i : Issue) (verdict : ReviewerOutput) : Issue :=
  if verdict.withheld.isSome then { i with reviewerVerdict := some verdict } else i

end Issue

def noReviewerProvider : String := "no cli provider available for reviewer re-dispatch"

def ingestNoVerdict (w : World) (i : Issue) (inv : Invocation) : Issue :=
  let cls := inv.failureClass
  let free := inv.runNeverAnswered
  if cls = .truncated && inv.truncationRetryable then
    i.sendReviewer w i.innerIteration true (some noReviewerProvider)
  else if cls = .transient && (free || i.reviewInfraRetries < dagMaxInfraRetries) then
    let charged := { i with reviewInfraRetries := i.reviewInfraRetries + if free then 0 else 1 }
    charged.sendReviewer w i.innerIteration false (some noReviewerProvider)
  else
    let detail := match inv.errorMessage.filter (· ≠ "") with
      | some m => s!": {m}"
      | none => ""
    i.setResolution .failedUnrecoverable (some s!"reviewer returned no valid reviewer verdict{detail}")

/-- The rounds without progress, this one included. -/
def nextStuckCount (i : Issue) (verdict : ReviewerOutput) : Nat :=
  if progressed i.reviewerVerdict verdict then 1 else i.stuckCount + 1

/-- A `fix_required` that is not cosmetic: one more round, or the end of the loop. -/
def ingestFixRequired (w : World) (i : Issue) (verdict : ReviewerOutput) : Issue :=
  let newStuck := nextStuckCount i verdict
  let newIter := i.innerIteration + 1
  let round := { i with stuckCount := newStuck, innerIteration := newIter }
  if stuckLimit ≤ newStuck then (round.keep verdict).acceptWithDebt (verdict.issues.map .finding)
  else
    let round := { round with reviewerVerdict := some verdict }
    if maxReviewIters ≤ newIter then round.setResolution .failedUnrecoverable none
    else if w.takes i.issueKey .coder then round.spawn .coder newIter false
    else round.setResolution .failedUnrecoverable none

/-- A verdict with the findings withheld in the rounds before it. -/
def withWithheld (previous : Option ReviewerOutput) (parsed : ReviewerOutput) : ReviewerOutput :=
  let withheld := unionWithheld ((previous.bind (·.withheld)).getD []) (parsed.withheld.getD [])
  if withheld = [] then parsed else { parsed with withheld := some withheld }

def ingestVerdict (w : World) (i : Issue) (verdict : ReviewerOutput) : Issue :=
  match verdict.verdict with
  | .approve => (i.keep verdict).setResolution .approved none
  | .block => (i.keep verdict).setResolution .failedUnrecoverable none
  | .fixRequired =>
    if fixRequiredIsCosmetic verdict then
      if verdict.issues = [] then (i.keep verdict).setResolution .approved none
      else (i.keep verdict).acceptWithDebt (verdict.issues.map .finding)
    else ingestFixRequired w i verdict

def ingestReviewer (w : World) (i : Issue) (inv : Invocation) : Issue :=
  match parseReviewerOutput inv with
  | none => ingestNoVerdict w i inv
  | some parsed => ingestVerdict w i (withWithheld i.reviewerVerdict parsed)

/-- A finished run of the review loop is folded into its issue, and the next one sent. -/
def ingestReviewRun (w : World) (i : Issue) (run : AgentRun) (inv : Invocation) : Issue :=
  let fixerCut := run.role ≠ .reviewer && inv.failureClass = .truncated
  let fixerTruncated := fixerCut && inv.truncationRetryable
  if inv.refused then
    (i.consume run).setResolution .failedUnrecoverable inv.errorMessage
  else if fixerCut && !fixerTruncated then
    (i.consume run).setResolution .failedUnrecoverable
      (some "fix coder cut off at the output limit again after the smaller-output retry")
  else if run.role ≠ .reviewer && !(parseCoderResult inv).parsed &&
      (inv.runNeverAnswered || fixerTruncated) then
    if w.takes i.issueKey .coder then (i.spawn .coder i.innerIteration fixerTruncated).consume run
    else (i.consume run).setResolution .failedUnrecoverable none
  else if run.role = .reviewer then ingestReviewer w (i.consume run) inv
  else (i.consume run).sendReviewer w i.innerIteration false none

/-- The last run was folded and the issue is still open: a reviewer again, within its budget. -/
def restartReview (w : World) (i : Issue) : Issue :=
  if i.reviewInfraRetries < dagMaxInfraRetries then
    let charged := { i with reviewInfraRetries := i.reviewInfraRetries + 1 }
    charged.sendReviewer w i.innerIteration false (some noReviewerProvider)
  else
    i.setResolution .failedUnrecoverable
      (some "review stalled: the reviewer run was consumed without recording a verdict and the re-dispatch budget is spent")

/-- One issue of `resolveReviewPhase`. -/
def reviewIssue (w : World) (i : Issue) : Issue :=
  match i.latest with
  | none => i.sendReviewer w 0 false none
  | some run =>
    if run.consumed then restartReview w i
    else
      match i.invocations[run.cliInvocationId]? with
      | none => i
      | some inv => if inv.runIsLive then i else ingestReviewRun w i run inv

end Dag

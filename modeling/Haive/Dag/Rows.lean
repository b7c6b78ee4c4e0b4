import Haive.Lib.Text

/-!
# The rows of a task's DAG

The rows of `task_dag_plans`, `task_dag_levels` and `task_dag_issues` with the
agent runs of each issue, as the executor reads and writes them, and the reading
of a finished agent run: its failure class, its refusal, and what its output
parses as under the schema of its role.

A row of `cli_invocations` belongs to one issue, to the plan (a replanner) or to a
level (a merge fixer), and is kept there; an invocation id is its place in that
list. Prompts, titles, time stamps, raw texts, the ledger and the list of similar
sites steer nothing in the executor and are left out.
-/

namespace Dag

open Lib

/-! ## Failure classes -/

def outputTruncationHeadline : String := "LLM output truncated (max output tokens)"

def cliPreemptedHeadline : String := "CLI run preempted for a higher-priority task"

def rateLimitHeadline : String := "Provider rate limit or quota exhausted"

def authHeadline : String := "CLI authentication failed"

def serverErrorHeadline : String := "Provider server error (service unavailable)"

def contentFilterHeadline : String := "Provider refused the prompt (content filter)"

def infraExhaustedMarker : String := "DAG_INFRA_EXHAUSTED"

/-- The ASCII letters folded, which is what `/i` without `/u` does to an ASCII pattern. -/
def fold (s : List Char) : List Char := s.map Char.toLower

def isWordChar (c : Char) : Bool := c.isAlphanum || c = '_'

/-- Some place of `s` matches. -/
def somewhere (at? : List Char → Bool) (s : List Char) : Bool := s.tails.any at?

/-- `/needle/i`. -/
def mentions (needle : String) (s : List Char) : Bool := somewhere needle.toList.isPrefixOf (fold s)

/-- `/\bneedle\b/i`, with the character before the place carried along. -/
def mentionsWord (needle : List Char) : Bool → List Char → Bool
  | _, [] => false
  | inWord, c :: s =>
    (!inWord && needle.isPrefixOf (fold (c :: s)) &&
      !(((c :: s).drop needle.length).head?.any isWordChar)) ||
    mentionsWord needle (isWordChar c) s

/-- `/first[^\n]{0,80}second/i`. -/
def mentionsNear (first second : String) (s : List Char) : Bool :=
  somewhere (fun t => first.toList.isPrefixOf t &&
    (List.range 81).any fun n =>
      let rest := t.drop first.toList.length
      n ≤ rest.length && !(rest.take n).contains '\n' && second.toList.isPrefixOf (rest.drop n)) (fold s)

/-- `ENVIRONMENT_FAILURE_RE`. -/
def environmentFailure (text : String) : Bool :=
  let s := text.toList
  mentionsWord "eacces".toList false s || mentionsWord "eperm".toList false s ||
  mentions "permission denied" s || mentions "read-only file system" s ||
  mentions "operation not permitted" s || mentions "root:root" s || mentions "root-owned" s ||
  mentionsNear "workspace" "unwritable" s || mentionsNear "worktree" "unwritable" s ||
  mentions "unable to write" s || mentions "cannot write" s || mentions "no cli provider available" s

/-- `TRANSIENT_CLI_FAILURE_RE`. -/
def transientText (text : String) : Bool :=
  ["orphaned by a worker restart", "stopped before it finished", "stream ended prematurely",
    "cancelled or timed out", "exceeded its time budget", "preempted for a higher-priority task",
    "mcp server failed to start", "codex app-server transport failed"].any (mentions · text.toList)

inductive FailureClass
  | transient | environment | truncated | genuine
  deriving Repr, DecidableEq

/-- The texts that are there and not empty. -/
def present (texts : List (Option String)) : List String :=
  texts.filterMap fun t => t.filter (· ≠ "")

def infraExhausted (errorMessage : Option String) : Bool :=
  errorMessage.any (startsWith · infraExhaustedMarker)

def isOutputTruncationMessage (message : Option String) : Bool :=
  message.any (startsWith · outputTruncationHeadline)

def isTransientCliFailure (exitCode : Option Int) (errorMessage : String) : Bool :=
  (match exitCode with
    | none => true
    | some code => code = 130 || code = 137 || code = 143) ||
  (errorMessage ≠ "" && transientText errorMessage)

def classifyDagIssueFailure (exitCode : Option Int) (errorMessage : Option String) : FailureClass :=
  let text := " ; ".intercalate (present [errorMessage])
  if infraExhausted errorMessage || environmentFailure text then .environment
  else if isOutputTruncationMessage (errorMessage.map trim) then .truncated
  else if isTransientCliFailure exitCode text then .transient
  else .genuine

/-- Why a failed issue halts the whole step, if it does. -/
def dagEnvironmentHaltReason (errorMessage concerns : Option String) : Option String :=
  let detail := trim ("; ".intercalate (present [errorMessage, concerns]))
  if detail ≠ "" && (infraExhausted errorMessage || environmentFailure detail) then some detail
  else none

def isProviderRefusal (message : Option String) : Bool :=
  message.any (startsWith · contentFilterHeadline)

/-- A fatal class that makes the provider unusable for everyone. -/
def isProviderOutage (message : Option String) : Bool :=
  message.any fun m =>
    startsWith m rateLimitHeadline || startsWith m authHeadline || startsWith m serverErrorHeadline

/-! ## What an agent returns -/

inductive Outcome
  | pending | running | completed | completedWithDebt | failedUnrecoverable
  deriving Repr, DecidableEq

/-- The values `task_dag_issues.resolution` takes. -/
inductive Resolution
  | approved | completedWithDebt | failedUnrecoverable | skipped | split
  deriving Repr, DecidableEq

inductive MergeStatus
  | clean | conflict | resolved
  deriving Repr, DecidableEq

/-- The outcomes a coder may report. -/
inductive CoderOutcome
  | completed | completedWithDebt | failedUnrecoverable
  deriving Repr, DecidableEq

def CoderOutcome.toOutcome : CoderOutcome → Outcome
  | .completed => .completed
  | .completedWithDebt => .completedWithDebt
  | .failedUnrecoverable => .failedUnrecoverable

inductive Severity
  | high | medium | low
  deriving Repr, DecidableEq

/-- A reviewer's finding: `identity` is its `findingIdentity` and `outOfScope` what `isOutOfScope`
reads off its `in_scope`. -/
structure Finding where
  severity : Option Severity
  identity : String
  outOfScope : Bool
  deriving Repr, DecidableEq

inductive Verdict
  | approve | fixRequired | block
  deriving Repr, DecidableEq

structure ReviewerOutput where
  verdict : Verdict
  /-- For each criterion, whether it passed. -/
  criteriaResults : List (String × Bool)
  issues : List Finding
  withheld : Option (List Finding) := none
  deriving Repr, DecidableEq

inductive AdvisorAction
  | retryApproach | retryModified | split | acceptWithDebt | escalateToReplan
  deriving Repr, DecidableEq

structure AdvisorOutput where
  action : AdvisorAction
  reasoning : String := ""
  dropCriteria : List String := []
  subIssues : List String := []
  deriving Repr, DecidableEq

inductive ReplannerAction
  | continue | modifyDag | reduceScope | abort
  deriving Repr, DecidableEq

structure ReplannerOutput where
  action : ReplannerAction
  skipDownstream : List String := []
  deriving Repr, DecidableEq

/-- An item of `debt_items`: what a coder reports, and what the executor adds. -/
inductive Debt
  | reported (item : String)
  | finding (f : Finding)
  | advisorAccept (reasoning : String)
  | droppedCriterion (criterion : String)
  deriving Repr, DecidableEq

structure CoderResult where
  outcome : CoderOutcome
  filesModified : List String := []
  debtItems : List Debt := []
  concerns : String := ""
  deriving Repr, DecidableEq

/-- What the output of a run parses as under each role's schema. -/
structure Output where
  coder : Option CoderResult := none
  reviewer : Option ReviewerOutput := none
  advisor : Option AdvisorOutput := none
  replanner : Option ReplannerOutput := none
  deriving Repr, DecidableEq

/-! ## Rows -/

/-- A row of `cli_invocations`. -/
structure Invocation where
  truncationRetry : Bool
  started : Bool := false
  ended : Bool := false
  superseded : Bool := false
  exitCode : Option Int := none
  errorMessage : Option String := none
  output : Output := {}
  deriving Repr, DecidableEq

namespace Invocation

def runIsLive (inv : Invocation) : Bool := !inv.ended && !inv.superseded

def isFreeRedispatch (inv : Invocation) : Bool :=
  inv.errorMessage.any (fun m => m ≠ "" && startsWith m cliPreemptedHeadline) || !inv.started

/-- It never started, was preempted, or was superseded. -/
def runNeverAnswered (inv : Invocation) : Bool := inv.isFreeRedispatch || inv.superseded

def runFinishedCleanly (inv : Invocation) : Bool :=
  inv.exitCode = some 0 && inv.errorMessage.all (trim · = "")

def failureClass (inv : Invocation) : FailureClass :=
  classifyDagIssueFailure inv.exitCode inv.errorMessage

/-- A run cut at the output limit is retried once. -/
def truncationRetryable (inv : Invocation) : Bool := !inv.truncationRetry

def refused (inv : Invocation) : Bool := isProviderRefusal inv.errorMessage

end Invocation

inductive Role
  | coder | reviewer | issueAdvisor
  deriving Repr, DecidableEq

/-- A row of `dag_agent_runs`. -/
structure AgentRun where
  role : Role
  iteration : Nat
  consumed : Bool := false
  cliInvocationId : Nat
  deriving Repr, DecidableEq

/-- A row of `task_dag_issues`. The worktree path and the branch name are written together, so one
flag stands for both; `cliInvocationId` and a run's are places in `invocations`, and the runs stand
in the order they were made. -/
structure Issue where
  issueKey : String
  level : Nat
  acceptanceCriteria : List String := []
  worktree : Bool := false
  outcome : Outcome := .pending
  cliInvocationId : Option Nat := none
  infraRetries : Nat := 0
  reviewInfraRetries : Nat := 0
  filesModified : List String := []
  debtItems : List Debt := []
  concerns : Option String := none
  errorMessage : Option String := none
  innerIteration : Nat := 0
  stuckCount : Nat := 0
  reviewerVerdict : Option ReviewerOutput := none
  advisorInvocations : Nat := 0
  lastAdvisorAction : Option AdvisorAction := none
  resolution : Option Resolution := none
  mergeStatus : Option MergeStatus := none
  runs : List AgentRun := []
  invocations : List Invocation := []
  deriving Repr, DecidableEq

namespace Issue

/-- The coder is done and says the work is there. -/
def coded (i : Issue) : Bool := i.outcome = .completed || i.outcome = .completedWithDebt

/-- `needReview`. -/
def needsReview (i : Issue) : Bool := i.coded && i.resolution.isNone

/-- Read only from the error recorded off the invocation. -/
def refused (i : Issue) : Bool := isProviderRefusal i.errorMessage

def latest (i : Issue) : Option AgentRun := i.runs.getLast?

def latestAdvisor (i : Issue) : Option AgentRun :=
  (i.runs.filter (·.role = .issueAdvisor)).getLast?

/-- What the merge takes: an accepted issue that has a branch. -/
def mergeable (reviewEnabled : Bool) (i : Issue) : Bool :=
  i.worktree &&
    if reviewEnabled then
      i.resolution = some .approved || i.resolution = some .completedWithDebt
    else i.coded

end Issue

/-- `task_dag_levels.merge_state`; the fixer's invocation is a place in the level's `fixers`. -/
structure MergeState where
  activeConflict : Option String := none
  fixInvocationId : Option Nat := none
  conflictRetries : List (String × Nat) := []
  lastFixerCut : Bool := false
  deriving Repr, DecidableEq

/-- A row of `task_dag_levels`. -/
structure Level where
  level : Nat
  checkpointed : Bool := false
  mergeState : MergeState := {}
  fixers : List Invocation := []
  deriving Repr, DecidableEq

/-- A row of `task_dag_plans`, with the invocations of its replanners. -/
structure PlanRow where
  reviewEnabled : Bool
  autoResolveConflicts : Bool
  replannerInvocationId : Option Nat := none
  replannerInvocations : Nat := 0
  lastReplannerAction : Option ReplannerAction := none
  replanners : List Invocation := []
  deriving Repr, DecidableEq

/-- The rows of one task's DAG, the levels in their order. -/
structure Rows where
  plan : PlanRow
  levels : List Level
  issues : List Issue
  deriving Repr, DecidableEq

namespace Rows

def keys (d : Rows) : List String := d.issues.map (·.issueKey)

def curLevel (d : Rows) : Option Level := d.levels.find? fun l => !l.checkpointed

def atLevel (d : Rows) (level : Nat) : List Issue := d.issues.filter fun i => i.level = level

def setLevel (d : Rows) (level : Nat) (f : Level → Level) : Rows :=
  { d with levels := d.levels.map fun l => if l.level = level then f l else l }

end Rows

end Dag

import Haive.Dag.Rows

/-!
# Fanning a sprint plan out into rows

`fanOutDag` of the sprint-planning step: one level row for each wave, one issue row
for each issue of the plan. The rows are inserted one by one; an insert that the
table refuses (a key longer than its column, a key that is there already, a level
outside `integer`) throws, and the step that would run the DAG is never reached.
-/

namespace Dag

/-- An issue of the plan, as `dagIssueSchema` parses it. -/
structure DagIssue where
  id : String
  acceptanceCriteria : List String := []
  level : Nat := 0
  deriving Repr, DecidableEq

/-- A plan in mode `dag` that `parseSprintPlan` accepts. -/
structure SprintPlan where
  issues : List DagIssue
  levels : List (List String)
  deriving Repr, DecidableEq

/-- The levels the issues themselves name, lowest first. -/
def sortedLevels (issues : List DagIssue) : List Nat :=
  (issues.map (·.level)).dedup.mergeSort

def deriveLevels (issues : List DagIssue) : List (List String) :=
  (sortedLevels issues).map fun n => (issues.filter (·.level = n)).map (·.id)

namespace SprintPlan

def waves (plan : SprintPlan) : List (List String) :=
  if plan.levels = [] then deriveLevels plan.issues else plan.levels

end SprintPlan

/-- The wave that names a key; a later wave overrides an earlier one. -/
def levelByKey (waves : List (List String)) (key : String) : Option Nat :=
  (waves.zipIdx.filter fun w => key ∈ w.1).getLast?.map (·.2)

/-- The length of `task_dag_issues.issue_key`, a `varchar(64)`. -/
def maxKeyLength : Nat := 64

def issueRow (waves : List (List String)) (issue : DagIssue) : Issue where
  issueKey := issue.id
  level := (levelByKey waves issue.id).getD issue.level
  acceptanceCriteria := issue.acceptanceCriteria

/-- The table takes a row with this key beside the keys it has. -/
def insertable (taken : List String) (i : Issue) : Bool :=
  i.issueKey.length ≤ maxKeyLength && i.issueKey ∉ taken && i.level < 2 ^ 31

/-- The inserts of the issue rows, in order; `none` is an insert that throws. -/
def insertAll : List Issue → List Issue → Option (List Issue)
  | rows, [] => some rows
  | rows, i :: is =>
    if insertable (rows.map (·.issueKey)) i then insertAll (rows ++ [i]) is else none

/-- The rows of a plan once it is fanned out. -/
def fanOutDag (reviewEnabled autoResolveConflicts : Bool) (plan : SprintPlan) : Option Rows :=
  (insertAll [] (plan.issues.map (issueRow plan.waves))).map fun issues =>
    { plan := { reviewEnabled, autoResolveConflicts }
      levels := (List.range plan.waves.length).map fun n => { level := n }
      issues }

end Dag

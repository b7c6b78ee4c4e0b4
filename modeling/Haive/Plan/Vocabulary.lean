import Mathlib.Logic.Basic

/-!
# The plan's enumerations

The closed vocabularies of `shared/src/schemas/plan.ts`, each as an inductive
type. `wire` is the spelling the schema, the database enum and `plan.json` use.
-/

namespace Haive

/-- `planNodeKindSchema`. -/
inductive PlanNodeKind
  | component | decision | research | external
deriving DecidableEq, Repr

/-- `planNodeStatusSchema`. -/
inductive PlanNodeStatus
  | todo | inProgress | blockedHuman | done | notApplicable
deriving DecidableEq, Repr

/-- `planEdgeKindSchema`. -/
inductive PlanEdgeKind
  | dependsOn | affects | implements
deriving DecidableEq, Repr

/-- `planNodeOriginSchema`. -/
inductive PlanNodeOrigin
  | user | llm | import
deriving DecidableEq, Repr

/-- `planCodeLinkRoleSchema`. -/
inductive PlanCodeLinkRole
  | implements | covers
deriving DecidableEq, Repr

def PlanNodeKind.wire : PlanNodeKind → String
  | .component => "component"
  | .decision => "decision"
  | .research => "research"
  | .external => "external"

def PlanNodeStatus.wire : PlanNodeStatus → String
  | .todo => "todo"
  | .inProgress => "in_progress"
  | .blockedHuman => "blocked_human"
  | .done => "done"
  | .notApplicable => "not_applicable"

def PlanEdgeKind.wire : PlanEdgeKind → String
  | .dependsOn => "depends_on"
  | .affects => "affects"
  | .implements => "implements"

def PlanCodeLinkRole.wire : PlanCodeLinkRole → String
  | .implements => "implements"
  | .covers => "covers"

end Haive

import Haive.Plan.Vocabulary
import Haive.Lib.Fields
import Haive.Lib.Parent
import Haive.Lib.Table

/-!
# `plan.json` payloads

The committed projection of a plan (`PlanMirror`, `PlanMirrorV1` in
`shared/src/types/index.ts`) and what it means for a payload to be well formed.
Node ids are opaque references here: the merge only compares them.
-/

namespace Haive

open Lib

structure MirrorNode where
  id : String
  parentId : Option String
  ordinal : Nat
  title : String
  kind : PlanNodeKind
  body : Option String
  status : PlanNodeStatus
  taskable : Bool
deriving DecidableEq, Repr

structure MirrorEdge where
  fromNodeId : String
  toNodeId : String
  kind : PlanEdgeKind
  note : Option String
deriving DecidableEq, Repr

structure MirrorCodeLink where
  nodeId : String
  repoPath : String
  symbol : Option String
  evidence : Option String
  derivedAtCommit : Option String
  stale : Bool
  role : PlanCodeLinkRole
deriving DecidableEq, Repr

/-- A node of a schema-v1 file, which also says who wrote it. -/
structure MirrorNodeV1 extends MirrorNode where
  createdBy : PlanNodeOrigin
deriving DecidableEq, Repr

/-- The current schema, `schemaVersion: 2`. -/
structure PlanMirror where
  nodes : List MirrorNode
  edges : List MirrorEdge
  codeLinks : List MirrorCodeLink
deriving DecidableEq, Repr

/-- A payload as it is read from `plan.json`. A v1 file cannot carry code links. -/
inductive PlanMirrorPayload
  | v1 (nodes : List MirrorNodeV1) (edges : List MirrorEdge)
  | v2 (mirror : PlanMirror)
deriving DecidableEq, Repr

namespace PlanMirrorPayload

def nodes : PlanMirrorPayload → List MirrorNode
  | .v1 nodes _ => nodes.map (·.toMirrorNode)
  | .v2 mirror => mirror.nodes

def edges : PlanMirrorPayload → List MirrorEdge
  | .v1 _ edges => edges
  | .v2 mirror => mirror.edges

def codeLinks : PlanMirrorPayload → List MirrorCodeLink
  | .v1 _ _ => []
  | .v2 mirror => mirror.codeLinks

end PlanMirrorPayload

/-! ## Keys and fields -/

/-- `JSON.stringify([fromNodeId, toNodeId, kind])`, which is injective on the triple. -/
def MirrorEdge.key (e : MirrorEdge) : String × String × PlanEdgeKind :=
  (e.fromNodeId, e.toNodeId, e.kind)

/-- `JSON.stringify([nodeId, repoPath, symbol ?? ''])`. A missing symbol and an
empty one have the same key, as in the table's unique index. -/
def MirrorCodeLink.key (l : MirrorCodeLink) : String × String × String :=
  (l.nodeId, l.repoPath, l.symbol.getD "")

/-- Fields a person is asked about when both sides changed one differently. -/
inductive AskedField
  | title | body | kind | status | taskable
deriving DecidableEq, Repr

/-- `PLAN_MIRROR_ASKED_FIELDS`. -/
def planMirrorAskedFields : List AskedField := [.title, .body, .kind, .status, .taskable]

theorem mem_planMirrorAskedFields (f : AskedField) : f ∈ planMirrorAskedFields := by
  cases f <;> decide

@[reducible] def AskedField.Val : AskedField → Type
  | .title => String
  | .body => Option String
  | .kind => PlanNodeKind
  | .status => PlanNodeStatus
  | .taskable => Bool

def MirrorNode.asked : (f : AskedField) → MirrorNode → f.Val
  | .title, n => n.title
  | .body, n => n.body
  | .kind, n => n.kind
  | .status, n => n.status
  | .taskable, n => n.taskable

def MirrorNode.setAsked : (f : AskedField) → f.Val → MirrorNode → MirrorNode
  | .title, v, n => { n with title := v }
  | .body, v, n => { n with body := v }
  | .kind, v, n => { n with kind := v }
  | .status, v, n => { n with status := v }
  | .taskable, v, n => { n with taskable := v }

def askedFields : Fields MirrorNode AskedField where
  Val := AskedField.Val
  decEq := fun f => by cases f <;> dsimp only [AskedField.Val] <;> infer_instance
  get := MirrorNode.asked
  set := MirrorNode.setAsked
  get_set := by intro f; cases f <;> intros <;> rfl
  set_get := by intro f; cases f <;> intros <;> rfl
  get_set_of_ne := by
    intro f g v x h
    cases f <;> cases g <;> first | rfl | exact absurd rfl h

inductive EdgeField
  | note
deriving DecidableEq, Repr

def edgeFields : Fields MirrorEdge EdgeField where
  Val := fun _ => Option String
  decEq := fun _ => inferInstance
  get := fun _ e => e.note
  set := fun _ v e => { e with note := v }
  get_set := fun _ _ _ => rfl
  set_get := fun _ _ => rfl
  get_set_of_ne := by
    intro f g v x h
    cases f; cases g; exact absurd rfl h

inductive LinkField
  | evidence | derivedAtCommit | stale | role
deriving DecidableEq, Repr

@[reducible] def LinkField.Val : LinkField → Type
  | .evidence => Option String
  | .derivedAtCommit => Option String
  | .stale => Bool
  | .role => PlanCodeLinkRole

def MirrorCodeLink.field : (f : LinkField) → MirrorCodeLink → f.Val
  | .evidence, l => l.evidence
  | .derivedAtCommit, l => l.derivedAtCommit
  | .stale, l => l.stale
  | .role, l => l.role

def MirrorCodeLink.setField : (f : LinkField) → f.Val → MirrorCodeLink → MirrorCodeLink
  | .evidence, v, l => { l with evidence := v }
  | .derivedAtCommit, v, l => { l with derivedAtCommit := v }
  | .stale, v, l => { l with stale := v }
  | .role, v, l => { l with role := v }

def linkFields : Fields MirrorCodeLink LinkField where
  Val := LinkField.Val
  decEq := fun f => by cases f <;> dsimp only [LinkField.Val] <;> infer_instance
  get := MirrorCodeLink.field
  set := MirrorCodeLink.setField
  get_set := by intro f; cases f <;> intros <;> rfl
  set_get := by intro f; cases f <;> intros <;> rfl
  get_set_of_ne := by
    intro f g v x h
    cases f <;> cases g <;> first | rfl | exact absurd rfl h

/-! ## Well-formed payloads -/

/-- The parent that `nodes` gives to `id`; an id that is not in the list has none. -/
def parentIn (nodes : List MirrorNode) (id : String) : Option String :=
  (nodes.find? (fun n => n.id = id)).bind (·.parentId)

/-- Distinct node ids, every non-null parent present, no parent cycle, every edge
and code link between present nodes, distinct edge and code-link keys. -/
structure WellFormed (payload : PlanMirrorPayload) : Prop where
  ids : (payload.nodes.map (·.id)).Nodup
  parents : ∀ n ∈ payload.nodes, ∀ p, n.parentId = some p → p ∈ payload.nodes.map (·.id)
  acyclic : Acyclic (parentIn payload.nodes)
  edgeEnds : ∀ e ∈ payload.edges,
    e.fromNodeId ∈ payload.nodes.map (·.id) ∧ e.toNodeId ∈ payload.nodes.map (·.id)
  linkEnds : ∀ l ∈ payload.codeLinks, l.nodeId ∈ payload.nodes.map (·.id)
  edgeKeys : (payload.edges.map MirrorEdge.key).Nodup
  linkKeys : (payload.codeLinks.map MirrorCodeLink.key).Nodup

end Haive

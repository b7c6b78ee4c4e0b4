import Haive.Plan.Paths
import Haive.Lib.ListFacts

/-!
# The plan tables and the statements of a patch

`PlanDb` is one repository's plan; `Query` is every statement `applyPlanPatch`
sends, with the type of its reply. `effect` says what a statement answers and
which rows it writes when it sees the database `db`, with the constraints of
`database/src/schema/plan.ts`: primary and unique keys, foreign keys with their
cascades, one root per repository. A statement that breaks one fails and takes
its transaction with it.

Writes are data (`Write`), so that a transaction can hold them back until it
commits; `exec` applies them at once.
-/

namespace Haive

open Lib

structure PlanDb where
  repositoryExists : Bool
  nodes : Table PlanNodeRow (·.id)
  edges : Table PlanNodeEdgeRow PlanNodeEdgeRow.key
  links : Table PlanNodeCodeLinkRow PlanNodeCodeLinkRow.key
  mirror : Option PlanMirrorStateRow
deriving DecidableEq

/-- A repository without a plan. -/
def PlanDb.empty : PlanDb := ⟨true, ∅, ∅, ∅, none⟩

def parentFrom (nodes : Table PlanNodeRow (·.id)) (id : Uuid) : Option Uuid :=
  (nodes.find? id).bind (·.parentId)

/-! ## Statements -/

/-- What `loadNode` selects. -/
structure NodeRow where
  id : Uuid
  parentId : Option Uuid
  path : String
  version : Nat
  status : PlanNodeStatus
deriving DecidableEq

def PlanNodeRow.toNodeRow (r : PlanNodeRow) : NodeRow := ⟨r.id, r.parentId, r.path, r.version, r.status⟩

@[simp] theorem PlanNodeRow.toNodeRow_id (r : PlanNodeRow) : r.toNodeRow.id = r.id := rfl

@[simp] theorem PlanNodeRow.toNodeRow_path (r : PlanNodeRow) : r.toNodeRow.path = r.path := rfl

@[simp] theorem PlanNodeRow.toNodeRow_version (r : PlanNodeRow) : r.toNodeRow.version = r.version := rfl

/-- The `set` of `updateNode`. A field that is not `some` is left alone; parent and path are only
ever set together. -/
structure NodeSet where
  version : Nat
  updatedAt : Nat
  sourceTaskId : Option String
  lastReviewedAt : Option Nat := none
  title : Option String := none
  body : Option (Option String) := none
  kind : Option PlanNodeKind := none
  status : Option PlanNodeStatus := none
  doneAt : Option (Option Nat) := none
  taskable : Option Bool := none
  ordinal : Option Nat := none
  moved : Option (Uuid × String) := none
deriving DecidableEq

def NodeSet.on (set : NodeSet) (r : PlanNodeRow) : PlanNodeRow where
  id := r.id
  parentId := match set.moved with
    | some (p, _) => some p
    | none => r.parentId
  path := match set.moved with
    | some (_, path) => path
    | none => r.path
  ordinal := set.ordinal.getD r.ordinal
  title := set.title.getD r.title
  kind := set.kind.getD r.kind
  body := set.body.getD r.body
  status := set.status.getD r.status
  doneAt := set.doneAt.getD r.doneAt
  taskable := set.taskable.getD r.taskable
  version := set.version
  lastReviewedAt := set.lastReviewedAt.or r.lastReviewedAt
  createdBy := r.createdBy
  sourceTaskId := set.sourceTaskId
  createdAt := r.createdAt
  updatedAt := set.updatedAt

/-- What `writeCodeLinks` writes beside the key. -/
structure LinkSet where
  evidence : Option String
  derivedAtCommit : Option String
  role : Option PlanCodeLinkRole
deriving DecidableEq

def LinkSet.on (set : LinkSet) (l : PlanNodeCodeLinkRow) : PlanNodeCodeLinkRow :=
  { l with
    evidence := set.evidence, derivedAtCommit := set.derivedAtCommit, stale := false
    role := set.role.getD l.role }

/-- The statements of a patch. Two carry more than their SQL does, for the histories that name
them: `rewriteDescendants` the node whose descendants it rewrites, and `updateNode` the
`expectedVersion` its op asserted. Neither changes what the statement does. -/
inductive Query
  | findMirror
  | lockRepository
  | findNodes (ids : List Uuid)
  | loadNode (id : Uuid)
  | dependsOnEdges
  | maxOrdinal (parentId : Option Uuid)
  | findCodeLink (nodeId : Uuid) (repoPath : String) (symbol : Option String)
  | updateCodeLink (key : Uuid × String × String) (set : LinkSet)
  | insertCodeLink (row : PlanNodeCodeLinkRow)
  | findRoot
  | insertNode (row : PlanNodeRow)
  | rewriteDescendants (movedId : Uuid) (oldPrefix newPrefix : String) (updatedAt : Nat)
  | updateNode (id : Uuid) (set : NodeSet) (asserted : Option Nat)
  | selectSubtree (path : String)
  | deleteNode (id : Uuid)
  | insertEdge (row : PlanNodeEdgeRow)
  | deleteEdge (key : Uuid × Uuid × PlanEdgeKind)
  | markPlanMirrorDirty

@[reducible] def Query.Reply : Query → Type
  | .findMirror => Bool
  | .lockRepository => Bool
  | .findNodes _ => List Uuid
  | .loadNode _ => Option NodeRow
  | .dependsOnEdges => List (Uuid × Uuid)
  | .maxOrdinal _ => Option Nat
  | .findCodeLink .. => Option (Uuid × String × String)
  | .updateCodeLink .. => Unit
  | .insertCodeLink _ => Unit
  | .findRoot => Option Uuid
  | .insertNode _ => Unit
  | .rewriteDescendants .. => Unit
  | .updateNode .. => Unit
  | .selectSubtree _ => List Uuid
  | .deleteNode _ => Unit
  | .insertEdge _ => Bool
  | .deleteEdge _ => Bool
  | .markPlanMirrorDirty => Unit

inductive DbError
  | uniqueViolation (index : String)
  | foreignKeyViolation (column : String)
deriving DecidableEq, Repr

/-! ## Writes -/

inductive Write
  | putNode (row : PlanNodeRow)
  | delNode (id : Uuid)
  | putEdge (row : PlanNodeEdgeRow)
  | delEdge (key : Uuid × Uuid × PlanEdgeKind)
  | putLink (row : PlanNodeCodeLinkRow)
  | delLink (key : Uuid × String × String)
  | setMirror (row : PlanMirrorStateRow)
deriving DecidableEq

namespace PlanDb

def write (db : PlanDb) : Write → PlanDb
  | .putNode row => { db with nodes := db.nodes.put row }
  | .delNode id => { db with nodes := db.nodes.del id }
  | .putEdge row => { db with edges := db.edges.put row }
  | .delEdge key => { db with edges := db.edges.del key }
  | .putLink row => { db with links := db.links.put row }
  | .delLink key => { db with links := db.links.del key }
  | .setMirror row => { db with mirror := some row }

def apply (db : PlanDb) (writes : List Write) : PlanDb := writes.foldl write db

/-- The rows that a deleted row's cascade reaches, level by level. -/
def cascade (db : PlanDb) : Nat → List Uuid → List Uuid
  | 0, doomed => doomed
  | fuel + 1, doomed =>
    let next := (db.nodes.rows.filter fun r => r.id ∉ doomed ∧ ∃ p ∈ r.parentId, p ∈ doomed).map (·.id)
    if next = [] then doomed else db.cascade fuel (doomed ++ next)

/-- The node and everything below it. -/
def doomedBy (db : PlanDb) (id : Uuid) : List Uuid :=
  if id ∈ db.nodes.keys then db.cascade db.nodes.rows.length [id] else []

/-- The writes of a node's deletion: its subtree, and every edge and code link of it. -/
def deleteWrites (db : PlanDb) (id : Uuid) : List Write :=
  let doomed := db.doomedBy id
  (db.links.rows.filter (·.nodeId ∈ doomed)).map (fun l => .delLink l.key) ++
    (db.edges.rows.filter fun e => e.fromNodeId ∈ doomed ∨ e.toNodeId ∈ doomed).map
      (fun e => .delEdge e.key) ++
    doomed.map .delNode

def descendantIds (db : PlanDb) (path : String) : List Uuid :=
  (db.nodes.rows.filter fun r => like r.path (descendantsLikePattern path)).map (·.id)

/-- The row of a descendant after the subtree moved. -/
def rewritten (oldPrefix newPrefix : String) (updatedAt : Nat) (r : PlanNodeRow) : PlanNodeRow :=
  { r with path := sqlRewritePath oldPrefix newPrefix r.path, updatedAt }

/-- The rows that a subtree move rewrites: those the statement saw when it began and that still
match. -/
def rewriteRows (seen db : PlanDb) (oldPrefix : String) : List PlanNodeRow :=
  db.nodes.rows.filter fun r =>
    like r.path (descendantsLikePattern oldPrefix) ∧ r.id ∈ seen.descendantIds oldPrefix

/-- `plan_nodes_one_root_per_repo_idx`. -/
def root? (db : PlanDb) : Option PlanNodeRow := db.nodes.rows.find? (·.parentId = none)

/-- `max(ordinal)` of a sibling run. -/
def maxOrdinal (db : PlanDb) (parentId : Option Uuid) : Option Nat :=
  ((db.nodes.rows.filter (·.parentId = parentId)).map (·.ordinal)).max?

/-- The outbox row after one more portable change. -/
def dirtied : Option PlanMirrorStateRow → PlanMirrorStateRow
  | none => ⟨1, 0, none⟩
  | some m => { m with revision := m.revision + 1, lastError := none }

/-- What a statement answers and writes. `seen` is the database as the statement found it when it
began, `db` as it is now: they differ only for a statement that had to wait for a row. -/
def effect (seen db : PlanDb) : (q : Query) → Except DbError (q.Reply × List Write)
  | .findMirror => .ok (db.mirror.isSome, [])
  | .lockRepository => .ok (db.repositoryExists, [])
  | .findNodes ids => .ok (ids.filter (· ∈ db.nodes.keys), [])
  | .loadNode id => .ok ((db.nodes.find? id).map (·.toNodeRow), [])
  | .dependsOnEdges =>
    .ok ((db.edges.rows.filter (·.kind = .dependsOn)).map fun e => (e.fromNodeId, e.toNodeId), [])
  | .maxOrdinal parentId => .ok (db.maxOrdinal parentId, [])
  | .findCodeLink nodeId repoPath symbol =>
    .ok ((db.links.rows.find? fun l =>
      l.nodeId = nodeId ∧ l.repoPath = repoPath ∧ l.symbol = symbol).map (·.key), [])
  | .updateCodeLink key set =>
    match db.links.find? key with
    | none => .ok ((), [])
    | some l => .ok ((), [.putLink (set.on l)])
  | .insertCodeLink row =>
    if row.key ∈ db.links.keys then .error (.uniqueViolation "plan_node_code_links_unique_idx")
    else if row.nodeId ∈ db.nodes.keys then .ok ((), [.putLink row])
    else .error (.foreignKeyViolation "node_id")
  | .findRoot => .ok (db.root?.map (·.id), [])
  | .insertNode row =>
    if row.id ∈ db.nodes.keys then .error (.uniqueViolation "plan_nodes_pkey")
    else
      match row.parentId with
      | none =>
        if db.root?.isSome then .error (.uniqueViolation "plan_nodes_one_root_per_repo_idx")
        else .ok ((), [.putNode row])
      | some p =>
        if p ∈ db.nodes.keys then .ok ((), [.putNode row])
        else .error (.foreignKeyViolation "parent_id")
  | .rewriteDescendants _ oldPrefix newPrefix updatedAt =>
    .ok ((), (seen.rewriteRows db oldPrefix).map fun r =>
      .putNode (rewritten oldPrefix newPrefix updatedAt r))
  | .updateNode id set _ =>
    match db.nodes.find? id with
    | none => .ok ((), [])
    | some r =>
      match set.moved with
      | none => .ok ((), [.putNode (set.on r)])
      | some (p, _) =>
        if p ∈ db.nodes.keys then .ok ((), [.putNode (set.on r)])
        else .error (.foreignKeyViolation "parent_id")
  | .selectSubtree path =>
    .ok ((db.nodes.rows.filter fun r => like r.path (subtreeLikePattern path)).map (·.id), [])
  | .deleteNode id => .ok ((), db.deleteWrites id)
  | .insertEdge row =>
    if row.key ∈ db.edges.keys then .ok (false, [])
    else if row.fromNodeId ∈ db.nodes.keys ∧ row.toNodeId ∈ db.nodes.keys then .ok (true, [.putEdge row])
    else .error (.foreignKeyViolation "from_node_id, to_node_id")
  | .deleteEdge key => if key ∈ db.edges.keys then .ok (true, [.delEdge key]) else .ok (false, [])
  | .markPlanMirrorDirty => .ok ((), [.setMirror (dirtied db.mirror)])

/-- A statement of a transaction that runs alone. -/
def exec (db : PlanDb) (q : Query) : Except DbError (q.Reply × PlanDb) :=
  match effect db db q with
  | .error e => .error e
  | .ok (r, writes) => .ok (r, db.apply writes)

theorem exec_eq_ok {db db' : PlanDb} {q : Query} {r : q.Reply} (h : db.exec q = .ok (r, db')) :
    ∃ writes, effect db db q = .ok (r, writes) ∧ db' = db.apply writes := by
  unfold exec at h
  split at h
  · cases h
  · next heff =>
    cases h
    exact ⟨_, heff, rfl⟩

end PlanDb

end Haive

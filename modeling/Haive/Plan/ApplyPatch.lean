import Haive.Plan.Store
import Haive.Lib.Prog

/-!
# The patch applier

`applyOps` of `shared/src/plan/apply-patch.ts`, function by function, as a
program that asks the database the statements of `Query`. `Locals` holds the
variables that its inner functions share. The patch is the parsed one, with
refs not yet normalised.

`randomUUID()` and the clock are arguments of the call; a uuid that is taken
already makes the insert fail on the primary key.
-/

namespace Haive

open Lib

structure PatchCall where
  ops : List PlanPatchOp
  opts : ApplyPlanPatchOptions
  /-- What the n-th `randomUUID()` of the call returns. -/
  randomUUID : Nat → Uuid
  now : Nat

/-- The variables of `applyOps`. The maps are association lists, newest binding first. -/
structure Locals where
  result : ApplyPlanPatchResult := {}
  /-- Patch-local ref to real uuid. -/
  refs : List (String × Uuid) := []
  /-- Nodes deleted earlier in this patch. -/
  dead : List Uuid := []
  versionAtStart : List (Uuid × Nat) := []
  versionAfterOwnWrite : List (Uuid × Nat) := []
  /-- The `depends_on` edges, once loaded. -/
  dependsOnGraph : Option (List (Uuid × Uuid)) := none
  /-- How many uuids were generated. -/
  generated : Nat := 0

inductive PatchError
  | refused (kind : PlanPatchErrorKind) (message : String) (opIndex : Option Nat)
  /-- `UnresolvableRefError`, which `drop` skips. -/
  | unresolvable (kind : PlanPatchErrorKind) (message : String) (opIndex : Option Nat)
  /-- A loop of the source would still be running. -/
  | spins
deriving DecidableEq, Repr

def PatchError.message : PatchError → String
  | .refused _ message _ => message
  | .unresolvable _ message _ => message
  | .spins => ""

abbrev PatchM := Script Query Query.Reply PatchError Locals

namespace Patch

open Script

def query (q : Query) : PatchM q.Reply := ask q

/-! ## Nodes and refs -/

def Locals.noteVersion (l : Locals) (id : Uuid) (version : Nat) : Locals :=
  if (l.versionAtStart.lookup id).isSome then l
  else { l with versionAtStart := (id, version) :: l.versionAtStart }

def loadNode (id : Uuid) : PatchM (Option NodeRow) := do
  let row ← query (.loadNode id)
  match row with
  | none => pure none
  | some r => do
    modify (Locals.noteVersion · r.id r.version)
    pure (some r)

/-- The id a ref stands for, with the text the code compares: a mapped ref's uuid, or the ref. -/
def Locals.candidate (l : Locals) (ref : String) : Option (String × Uuid) :=
  match l.refs.lookup ref with
  | some id => some (id.text, id)
  | none => (Uuid.parse? ref).map fun id => (ref, id)

def Locals.isDead (l : Locals) (text : String) : Bool := l.dead.any (·.text = text)

def resolveExisting (ref : String) (opIndex : Nat) : PatchM NodeRow := do
  let l ← get
  match Locals.candidate l ref with
  | none => throw (.unresolvable .invalid
      s!"unknown node reference '{ref}' — a temporary id must be introduced by an earlier upsert"
      (some opIndex))
  | some (text, id) =>
    if Locals.isDead l text then
      throw (.unresolvable .invalid s!"node '{ref}' was deleted earlier in this patch" (some opIndex))
    else do
      match ← loadNode id with
      | none => throw (.unresolvable .notFound s!"plan node '{ref}' not found" (some opIndex))
      | some row => pure row

def Locals.began (l : Locals) (row : NodeRow) : Nat := (l.versionAtStart.lookup row.id).getD row.version

def assertVersion (row : NodeRow) (expected : Option Nat) (opIndex : Nat) : PatchM Unit := do
  let l ← get
  match expected with
  | none => pure ()
  | some version =>
    let began := Locals.began l row
    if began = version ∧ (l.versionAfterOwnWrite.lookup row.id).getD began = row.version then pure ()
    else
      let found := if began = version then row.version else began
      throw (.refused .conflict (s!"plan node {row.id.text} was modified by someone else " ++
        s!"(expected version {version}, found {found})") (some opIndex))

/-! ## Dependencies -/

def dependsOnAdjacency : PatchM (List (Uuid × Uuid)) := do
  let l ← get
  match l.dependsOnGraph with
  | some graph => pure graph
  | none => do
    let rows ← query .dependsOnEdges
    modify fun l => { l with dependsOnGraph := some rows }
    pure rows

def noteDependency (fromId toId : Uuid) : PatchM Unit :=
  modify fun l => { l with dependsOnGraph := l.dependsOnGraph.map (· ++ [(fromId, toId)]) }

/-- `graph.get(id)`. -/
def successors (graph : List (Uuid × Uuid)) (id : Uuid) : List Uuid :=
  (graph.filter (·.1 = id)).map (·.2)

/-- The inner loop: push the successors that are not seen yet. -/
def enqueue : List Uuid → List Uuid × List Uuid → List Uuid × List Uuid
  | [], acc => acc
  | next :: rest, (seen, queue) =>
    if next ∈ seen then enqueue rest (seen, queue) else enqueue rest (next :: seen, queue ++ [next])

/-- The search of `unsatisfiableDependency`: is `target` reachable? `none` is a loop that would
still be running. -/
def reaches (graph : List (Uuid × Uuid)) (target : Uuid) : Nat → List Uuid → List Uuid → Option Bool
  | _, _, [] => some false
  | 0, _, _ :: _ => none
  | fuel + 1, seen, current :: queue =>
    if current = target then some true
    else
      let (seen, queue) := enqueue (successors graph current) (seen, queue)
      reaches graph target fuel seen queue

def ancestorRefusal (toId : Uuid) : String :=
  s!"a node cannot depend on its own ancestor ({toId.text}): the ancestor cannot finish " ++
    "before the thing inside it, so neither could ever start"

def loopRefusal (fromId toId : Uuid) : String :=
  s!"this dependency would close a loop: {toId.text} already depends on {fromId.text}, " ++
    "directly or through other nodes, so neither could ever start"

def unsatisfiableDependency (fromRow toRow : NodeRow) : PatchM (Option String) := do
  if startsWith fromRow.path toRow.path then pure (some (ancestorRefusal toRow.id))
  else do
    let graph ← dependsOnAdjacency
    match reaches graph fromRow.id (graph.length + 2) [toRow.id] [toRow.id] with
    | none => throw .spins
    | some true => pure (some (loopRefusal fromRow.id toRow.id))
    | some false => pure none

/-! ## Writing a node -/

def nextOrdinal (parentId : Option Uuid) : PatchM Nat := do
  let highest ← query (.maxOrdinal parentId)
  match highest with
  | none => pure 0
  | some n => pure (n + 1)

def writeCodeLinks (call : PatchCall) (nodeId : Uuid) : List PlanCodeLinkInput → PatchM Unit
  | [] => pure ()
  | link :: rest => do
    let existing ← query (.findCodeLink nodeId link.repoPath link.symbol)
    match existing with
    | some key => query (.updateCodeLink key ⟨link.evidence, call.opts.derivedAtCommit, link.role⟩)
    | none => query (.insertCodeLink
        ⟨nodeId, link.repoPath, link.symbol, link.role.getD .implements, link.evidence,
          call.opts.derivedAtCommit, false⟩)
    modify fun l => { l with result := { l.result with codeLinked := l.result.codeLinked + 1 } }
    writeCodeLinks call nodeId rest

/-- Where a new node goes: its parent's row, or `none` for the root. -/
def resolveParent (parentRef : Option String) (opIndex : Nat) : PatchM (Option NodeRow) := do
  match parentRef with
  | some ref => do
    let row ← resolveExisting ref opIndex
    pure (some row)
  | none => do
    match ← query .findRoot with
    | some _ => throw (.refused .invalid ("this repository already has a plan root; parent the node " ++
        "under it instead of creating a second one") (some opIndex))
    | none => pure none

/-- The row that `createNode` inserts. -/
def newRow (call : PatchCall) (op : UpsertOp) (title : String) (id : Uuid) (parent : Option NodeRow)
    (ordinal : Nat) : PlanNodeRow where
  id := id
  parentId := parent.map (·.id)
  path := planNodePath (parent.map (·.path)) id
  ordinal := ordinal
  title := title
  kind := op.kind.getD .component
  body := op.body.getD none
  status := op.status.getD .todo
  doneAt := none
  taskable := op.taskable.getD false
  version := 1
  lastReviewedAt := if call.opts.marksReviewed then some call.now else none
  createdBy := call.opts.origin
  sourceTaskId := call.opts.sourceTaskId
  createdAt := call.now
  updatedAt := call.now

def createNode (call : PatchCall) (op : UpsertOp) (opIndex : Nat) : PatchM Unit := do
  let title := op.title.getD ""
  if title = "" then
    throw (.refused .invalid s!"new plan node '{op.nodeRef}' needs a title" (some opIndex))
  else
    match op.parentRef with
    | none => throw (.refused .invalid
        (s!"new plan node '{op.nodeRef}' must say where it goes: parentRef null for the plan root, " ++
          "or the ref of its parent") (some opIndex))
    | some parentRef => do
      let parent ← resolveParent parentRef opIndex
      let l ← get
      let id := call.randomUUID l.generated
      modify fun l => { l with generated := l.generated + 1 }
      let ordinal ← match op.ordinal with
        | some n => pure n
        | none => nextOrdinal (parent.map (·.id))
      query (.insertNode (newRow call op title id parent ordinal))
      modify fun l =>
        { l with
          refs := (op.nodeRef, id) :: l.refs
          result := { l.result with created := l.result.created ++ [id] } }
      writeCodeLinks call id op.codeLinks

/-- The op changes a field that a person may have typed. -/
def writesFields (op : UpsertOp) : Bool :=
  op.title.isSome || op.body.isSome || op.kind.isSome || op.status.isSome || op.taskable.isSome ||
    op.parentRef.isSome

/-- `done_at` moves on a transition of the status only. -/
def doneAtFor (now : Nat) (op : UpsertOp) (row : NodeRow) : Option (Option Nat) :=
  match op.status with
  | none => none
  | some status =>
    if status = row.status then none
    else if status = .done then some (some now)
    else if row.status = .done then some none
    else none

def fieldSet (call : PatchCall) (op : UpsertOp) (row : NodeRow) : NodeSet where
  version := row.version + 1
  updatedAt := call.now
  sourceTaskId := call.opts.sourceTaskId
  lastReviewedAt := if call.opts.marksReviewed then some call.now else none
  title := op.title
  body := op.body
  kind := op.kind
  status := op.status
  doneAt := doneAtFor call.now op row
  taskable := op.taskable
  ordinal := op.ordinal

def moveNode (call : PatchCall) (row newParent : NodeRow) (set : NodeSet) (opIndex : Nat) :
    PatchM NodeSet := do
  if wouldDetachSubtree row.path newParent.path then
    throw (.refused .invalid "cannot move a node underneath itself or one of its own descendants"
      (some opIndex))
  else do
    let newPrefix := planNodePath (some newParent.path) row.id
    let ordinal ← match set.ordinal with
      | some n => pure n
      | none => nextOrdinal (some newParent.id)
    query (.rewriteDescendants row.id row.path newPrefix call.now)
    pure { set with ordinal := some ordinal, moved := some (newParent.id, newPrefix) }

/-- The parent part of `updateNode`. -/
def placeNode (call : PatchCall) (op : UpsertOp) (row : NodeRow) (set : NodeSet) (opIndex : Nat) :
    PatchM NodeSet := do
  match op.parentRef with
  | none => pure set
  | some none =>
    if row.parentId = none then pure set
    else throw (.refused .invalid
      "a node cannot be promoted to the plan root; a repository has exactly one root" (some opIndex))
  | some (some ref) => do
    let newParent ← resolveExisting ref opIndex
    if row.parentId = some newParent.id then pure set
    else moveNode call row newParent set opIndex

def updateNode (call : PatchCall) (op : UpsertOp) (row : NodeRow) (opIndex : Nat) : PatchM Unit := do
  if call.opts.requireExpectedVersion && writesFields op && op.expectedVersion.isNone then
    throw (.unresolvable .invalid
      s!"plan node {row.id.text} was changed without its expectedVersion" (some opIndex))
  else do
    assertVersion row op.expectedVersion opIndex
    let set ← placeNode call op row (fieldSet call op row) opIndex
    query (.updateNode row.id set op.expectedVersion)
    modify fun l =>
      { l with
        versionAfterOwnWrite := (row.id, row.version + 1) :: l.versionAfterOwnWrite
        refs := (op.nodeRef, row.id) :: l.refs
        result :=
          { l.result with
            updated := if row.id ∈ l.result.updated then l.result.updated
              else l.result.updated ++ [row.id] } }
    writeCodeLinks call row.id op.codeLinks

def applyUpsert (call : PatchCall) (op : UpsertOp) (opIndex : Nat) : PatchM Unit := do
  let l ← get
  match Locals.candidate l op.nodeRef with
  | none => createNode call op opIndex
  | some (text, id) => do
    let existing ← if Locals.isDead l text then pure none else loadNode id
    match existing with
    | some row => updateNode call op row opIndex
    | none => throw (.unresolvable .notFound s!"plan node '{op.nodeRef}' not found" (some opIndex))

/-! ## One op -/

def applyDelete (call : PatchCall) (nodeRef : String) (expectedVersion : Option Nat) (opIndex : Nat) :
    PatchM Unit := do
  let row ← resolveExisting nodeRef opIndex
  if call.opts.requireExpectedVersion && expectedVersion.isNone then
    throw (.unresolvable .invalid
      s!"plan node {row.id.text} was deleted without its expectedVersion" (some opIndex))
  else do
    assertVersion row expectedVersion opIndex
    let doomed ← query (.selectSubtree row.path)
    if call.opts.requireExpectedVersion && decide (1 < doomed.length) then
      throw (.unresolvable .invalid (s!"plan node {row.id.text} still has children; delete them " ++
        "first, each with its expectedVersion") (some opIndex))
    else do
      query (.deleteNode row.id)
      modify fun l =>
        { l with
          dependsOnGraph := none
          dead := doomed ++ l.dead
          result := { l.result with deleted := l.result.deleted ++ [row.id] } }

def insertLink (fromId toId : Uuid) (kind : PlanEdgeKind) (note : Option String) : PatchM Unit := do
  let inserted ← query (.insertEdge ⟨fromId, toId, kind, note⟩)
  modify fun l =>
    { l with result := { l.result with linked := l.result.linked + if inserted then 1 else 0 } }

def applyLink (call : PatchCall) (fromRef toRef : String) (kind : PlanEdgeKind) (note : Option String)
    (opIndex : Nat) : PatchM Unit := do
  let fromRow ← resolveExisting fromRef opIndex
  let toRow ← resolveExisting toRef opIndex
  if fromRow.id = toRow.id then
    throw (.refused .invalid "a node cannot link to itself" (some opIndex))
  else if kind = .dependsOn then do
    match ← unsatisfiableDependency fromRow toRow with
    | some refusal =>
      if call.opts.onUnresolvableRef = .drop then
        modify fun l =>
          { l with
            result := { l.result with dropped := l.result.dropped ++ [s!"link dropped: {refusal}"] } }
      else throw (.refused .invalid refusal (some opIndex))
    | none => do
      noteDependency fromRow.id toRow.id
      insertLink fromRow.id toRow.id kind note
  else insertLink fromRow.id toRow.id kind note

def applyUnlink (fromRef toRef : String) (kind : PlanEdgeKind) (opIndex : Nat) : PatchM Unit := do
  let fromRow ← resolveExisting fromRef opIndex
  let toRow ← resolveExisting toRef opIndex
  let removed ← query (.deleteEdge (fromRow.id, toRow.id, kind))
  modify fun l =>
    { l with
      dependsOnGraph := if removed then none else l.dependsOnGraph
      result := { l.result with unlinked := l.result.unlinked + if removed then 1 else 0 } }

def applyOp (call : PatchCall) (op : PlanPatchOp) (opIndex : Nat) : PatchM Unit :=
  match op with
  | .upsert op => applyUpsert call op opIndex
  | .delete nodeRef expectedVersion => applyDelete call nodeRef expectedVersion opIndex
  | .link fromRef toRef kind note => applyLink call fromRef toRef kind note opIndex
  | .unlink fromRef toRef kind => applyUnlink fromRef toRef kind opIndex

/-- One turn of the loop: under `drop`, an op that does not resolve where it stands is skipped. -/
def applyOpOrDrop (call : PatchCall) (op : PlanPatchOp) (opIndex : Nat) : PatchM Unit :=
  (applyOp call op opIndex).catching fun e =>
    match e with
    | .unresolvable _ message _ =>
      if call.opts.onUnresolvableRef = .drop then
        modify fun l =>
          { l with
            result :=
              { l.result with dropped := l.result.dropped ++ [s!"{op.name} dropped: {message}"] } }
      else throw e
    | _ => throw e

def applyAll (call : PatchCall) : Nat → List PlanPatchOp → PatchM Unit
  | _, [] => pure ()
  | opIndex, op :: rest => do
    applyOpOrDrop call op opIndex
    applyAll call (opIndex + 1) rest

/-! ## Before the first op -/

def planNodeRefPrefix : String := "node:"

def stripNodeRefPrefix (ref : String) : String :=
  if startsWith (lowercase ref) planNodeRefPrefix then
    let bare := sliceFrom ref planNodeRefPrefix.length
    if isPlanNodeId bare then bare else ref
  else ref

def normalizeOpRefs (ops : List PlanPatchOp) : List PlanPatchOp :=
  ops.map fun
    | .upsert op => .upsert
        { op with
          nodeRef := stripNodeRefPrefix op.nodeRef
          parentRef := op.parentRef.map (·.map stripNodeRefPrefix) }
    | .delete nodeRef expectedVersion => .delete (stripNodeRefPrefix nodeRef) expectedVersion
    | .link fromRef toRef kind note =>
      .link (stripNodeRefPrefix fromRef) (stripNodeRefPrefix toRef) kind note
    | .unlink fromRef toRef kind => .unlink (stripNodeRefPrefix fromRef) (stripNodeRefPrefix toRef) kind

def insertsRow (l : Locals) : PlanPatchOp → Bool
  | .link .. => true
  | .upsert op =>
    !op.codeLinks.isEmpty || !((l.refs.lookup op.nodeRef).isSome || isPlanNodeId op.nodeRef)
  | _ => false

def mayInsertPlanRows (ops : List PlanPatchOp) : PatchM Bool := do
  let l ← get
  if ops.any (insertsRow l) then pure true
  else do
    let mirror ← query .findMirror
    pure (!mirror)

def lockRepositoryForPlanWrite (call : PatchCall) : PatchM Unit := do
  let found ← query .lockRepository
  if found then pure () else throw (.refused .repositoryGone s!"repository {call.opts.repositoryId} not found" none)

def refsOf : PlanPatchOp → List String
  | .upsert op =>
    match op.parentRef with
    | some (some parentRef) => if parentRef = "" then [op.nodeRef] else [op.nodeRef, parentRef]
    | _ => [op.nodeRef]
  | .delete nodeRef _ => [nodeRef]
  | .link fromRef toRef _ _ => [fromRef, toRef]
  | .unlink fromRef toRef _ => [fromRef, toRef]

/-- The temp id that an upsert introduces. -/
def provides : PlanPatchOp → Option String
  | .upsert op => if isPlanNodeId op.nodeRef then none else some op.nodeRef
  | _ => none

def badRefs (live provided : List String) (op : PlanPatchOp) : List String :=
  (refsOf op).filter fun r => r ∉ live ∧ r ∉ provided

def quoted (refs : List String) : String := ", ".intercalate (refs.map fun r => s!"'{r}'")

/-- The rounds of `dropUnresolvableOps`. `none` is a loop that would still be running. -/
def dropRounds (live : List String) : Nat → List PlanPatchOp → List String →
    Option (List PlanPatchOp × List String)
  | 0, _, _ => none
  | fuel + 1, kept, report =>
    let provided := kept.filterMap provides
    let next := kept.filter fun op => (badRefs live provided op).isEmpty
    let dropped := (kept.filter fun op => !(badRefs live provided op).isEmpty).map fun op =>
      op.name ++ " dropped: unknown node reference " ++ quoted (badRefs live provided op)
    if next.length = kept.length then some (next, report ++ dropped)
    else dropRounds live fuel next (report ++ dropped)

def dropUnresolvableOps (ops : List PlanPatchOp) : PatchM (List PlanPatchOp) := do
  let l ← get
  let wanted := (ops.flatMap refsOf).filterMap Uuid.parse?
  let rows ← if wanted.isEmpty then pure [] else query (.findNodes wanted)
  let live := l.refs.map (·.2.text) ++ l.refs.map (·.1) ++ rows.map (·.text)
  match dropRounds live (ops.length + 1) ops [] with
  | none => throw .spins
  | some (kept, report) => do
    modify fun l => { l with result := { l.result with dropped := l.result.dropped ++ report } }
    pure kept

/-! ## The whole patch -/

/-- The patch changed something the mirror shows. -/
def changed (result : ApplyPlanPatchResult) : Bool :=
  !result.created.isEmpty || !result.updated.isEmpty || !result.deleted.isEmpty ||
    decide (0 < result.linked) || decide (0 < result.unlinked) || decide (0 < result.codeLinked)

def seedSelf (call : PatchCall) : Locals :=
  match call.opts.selfNodeId with
  | none => {}
  | some id => { refs := [("self", id)] }

def applyOps (call : PatchCall) : PatchM ApplyPlanPatchResult := do
  let patchOps := normalizeOpRefs call.ops
  if ← mayInsertPlanRows patchOps then lockRepositoryForPlanWrite call else pure ()
  let ops ← if call.opts.onUnresolvableRef = .drop then dropUnresolvableOps patchOps else pure patchOps
  applyAll call 0 ops
  let l ← get
  if changed l.result then query .markPlanMirrorDirty else pure ()
  pure { l.result with refs := l.refs }

end Patch

abbrev PatchProg := Prog Query Query.Reply (Except PatchError ApplyPlanPatchResult × Locals)

/-- The statements of one `applyPlanPatch` transaction. -/
def applyPlanPatch (call : PatchCall) : PatchProg :=
  Patch.applyOps call (Patch.seedSelf call)

inductive PatchFailure
  | patch (e : PatchError)
  | database (e : DbError)
deriving DecidableEq, Repr

/-- A patch that runs alone. A failed one leaves no trace: its transaction rolls back. -/
def runPatch (db : PlanDb) (call : PatchCall) : Except PatchFailure (ApplyPlanPatchResult × PlanDb) :=
  match (applyPlanPatch call).run PlanDb.exec db with
  | .error e => .error (.database e)
  | .ok ((.error e, _), _) => .error (.patch e)
  | .ok ((.ok result, _), db') => .ok (result, db')

def runPatches (db : PlanDb) (calls : List PatchCall) : PlanDb :=
  calls.foldl (fun db call =>
    match runPatch db call with
    | .error _ => db
    | .ok (_, db') => db') db

/-- Patches run one after another, if every one of them succeeds. -/
def runAll : PlanDb → List PatchCall → Option PlanDb
  | db, [] => some db
  | db, call :: calls =>
    match runPatch db call with
    | .error _ => none
    | .ok (_, db') => runAll db' calls

/-! ## A small plan (used by the concrete runs below) -/

namespace Sample

def root : Uuid := ⟨"00000000-0000-4000-8000-000000000000", by decide⟩
def api : Uuid := ⟨"aaaaaaaa-aaaa-4aaa-8aaa-aaaaaaaaaaaa", by decide⟩
def web : Uuid := ⟨"bbbbbbbb-bbbb-4bbb-8bbb-bbbbbbbbbbbb", by decide⟩

def patch (ops : List PlanPatchOp) : PatchCall where
  ops := ops
  opts := { repositoryId := "repo", origin := .user }
  randomUUID := fun n => [root, api, web].getD n root
  now := 0

/-- A root with two children. -/
def plan : PatchCall := patch
  [ .upsert { nodeRef := "root", parentRef := some none, title := some "Plan" },
    .upsert { nodeRef := "api", parentRef := some (some "root"), title := some "Api" },
    .upsert { nodeRef := "web", parentRef := some (some "root"), title := some "Web" } ]

def move (id under : Uuid) : PatchCall := patch
  [.upsert { nodeRef := id.text, parentRef := some (some under.text) }]

def row (id : Uuid) (parentId : Option Uuid) (path : String) (ordinal version : Nat) (title : String) :
    PlanNodeRow where
  id := id
  parentId := parentId
  path := path
  ordinal := ordinal
  title := title
  kind := .component
  body := none
  status := .todo
  doneAt := none
  taskable := false
  version := version
  lastReviewedAt := none
  createdBy := .user
  sourceTaskId := none
  createdAt := 0
  updatedAt := 0

/-- What `plan` makes, and what the patches below find. -/
def start : PlanDb where
  repositoryExists := true
  nodes :=
    ⟨[ row root none "/00000000-0000-4000-8000-000000000000/" 0 1 "Plan",
       row api (some root) "/00000000-0000-4000-8000-000000000000/aaaaaaaa-aaaa-4aaa-8aaa-aaaaaaaaaaaa/"
         0 1 "Api",
       row web (some root) "/00000000-0000-4000-8000-000000000000/bbbbbbbb-bbbb-4bbb-8bbb-bbbbbbbbbbbb/"
         1 1 "Web" ], by decide⟩
  edges := ∅
  links := ∅
  mirror := some ⟨1, 0, none⟩

theorem runPatches_plan : runPatches PlanDb.empty [plan] = start := by
  decide +kernel

end Sample

end Haive

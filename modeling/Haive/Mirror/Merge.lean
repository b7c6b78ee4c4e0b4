import Haive.Mirror.Payload
import Mathlib.Data.List.Sort

/-!
# The three-way plan merge

`mergePlanMirror` of `shared/src/plan/merge-mirror.ts`, function by function.
The source mutates one `entries` map; here each phase takes the table and
returns it:

1. `mergeEntry`: presence and fields of one id;
2. `breakCycles`: parents that combine into a cycle go back to the local one;
3. `keepAncestors`: what a kept node hangs under is kept too;
4. `mergeKeyed`: edges and code links as keyed sets.

A `while` loop of the source carries fuel here and fails with `spins` when it
would still be running, so "the merge terminates" is "the merge does not fail".
-/

namespace Haive

open Lib

/-! ## Results -/

/-- One of the two sides of a merge. -/
inductive SideName
  | localSide | incomingSide
deriving DecidableEq, Repr

inductive Subject
  | node (id : String)
  | edge (fromNodeId toNodeId : String) (kind : PlanEdgeKind)
  | codeLink (nodeId repoPath symbol : String)
deriving DecidableEq, Repr

def Subject.text : Subject → String
  | .node id => id
  | .edge fromNodeId toNodeId kind => s!"edge:{fromNodeId}>{toNodeId}:{kind.wire}"
  | .codeLink nodeId repoPath symbol => s!"code-link:{nodeId}:{repoPath}:{symbol}"

inductive FieldValue
  | null
  | text (s : String)
  | number (n : Nat)
  | flag (b : Bool)
deriving DecidableEq, Repr

def FieldValue.nullable : Option String → FieldValue
  | none => .null
  | some s => .text s

inductive ReportField
  | parentId | ordinal | note | link (f : LinkField)
deriving DecidableEq, Repr

/-- A decision the merge made without asking. `deletedBy` is the side whose deletion lost. -/
inductive PlanMirrorReport
  | localWins (subject : Subject) (field : ReportField) (localValue incomingValue : FieldValue)
  | keptModified (subject : Subject) (deletedBy : SideName)
  | keptAncestor (subject : Subject) (deletedBy : SideName)
deriving DecidableEq, Repr

structure PlanMirrorConflict where
  nodeId : String
  field : AskedField
  base : Option field.Val
  localValue : field.Val
  incomingValue : field.Val

structure PlanMirrorMerge where
  /-- A contested asked field keeps the INCOMING value here. -/
  merged : PlanMirror
  conflicts : List PlanMirrorConflict
  /-- Local nodes the incoming side deleted and nothing kept, deepest first. -/
  deleted : List String
  /-- Nodes local lacks that the merge brings back from incoming. -/
  resurrected : List String
  reported : List PlanMirrorReport

inductive MergeFailure
  /-- A loop of the source would still be running. -/
  | spins
  /-- `plan merge: the local plan has a parent cycle`. -/
  | localCycle
  /-- `local.byId.get(pick.id)!` on a node that the local side does not have. -/
  | noLocalNode
deriving DecidableEq, Repr

/-! ## Sides and picks -/

structure Side where
  nodes : List MirrorNode
  byId : Table MirrorNode (·.id)
  edges : List MirrorEdge
  links : List MirrorCodeLink

def readSide (payload : PlanMirrorPayload) : Side where
  nodes := payload.nodes
  byId := .ofList payload.nodes
  edges := payload.edges
  links := payload.codeLinks

/-- A v1 snapshot predates code links: it says nothing about them, so it keeps local's. -/
def readIncoming (localSide : Side) : PlanMirrorPayload → Side
  | .v2 mirror => readSide (.v2 mirror)
  | .v1 nodes edges => { readSide (.v1 nodes edges) with links := localSide.links }

def Side.parentOf (s : Side) (id : String) : Option String := (s.byId.find? id).bind (·.parentId)

structure Picked (T : Type) where
  value : T
  contested : Bool

def pick3 {T : Type} [DecidableEq T] (base : Option T) (l i : T) : Picked T :=
  if l = i then ⟨l, false⟩
  else if base = some l then ⟨i, false⟩
  else if base = some i then ⟨l, false⟩
  else ⟨l, true⟩

def nodeModified (a b : MirrorNode) : Bool :=
  a.parentId ≠ b.parentId || a.ordinal ≠ b.ordinal || askedFields.differ planMirrorAskedFields a b

/-! ## Presence and fields of one id -/

inductive Candidate
  | deletedByIncoming | deletedByLocal
deriving DecidableEq, Repr

structure Entry where
  node : MirrorNode
  rank : Nat
  inLocal : Bool
  parentFromIncoming : Bool
  candidate : Option Candidate

abbrev Entries := Table Entry (·.node.id)

def Entries.parentOf (entries : Entries) (id : String) : Option String :=
  (entries.find? id).bind (·.node.parentId)

/-- What the first loop does for one id. -/
structure EntryStep where
  entry : Entry
  conflicts : List PlanMirrorConflict := []
  reported : List PlanMirrorReport := []
  resurrected : List String := []

/-- Both sides have the node and there is no base: incoming wins every field. -/
def mergeWithoutBase (l i : MirrorNode) (rank : Nat) : EntryStep where
  entry :=
    { node := i, rank, inLocal := true, parentFromIncoming := i.parentId ≠ l.parentId
      candidate := none }

def pickAsked (b : Option MirrorNode) (l i : MirrorNode) (f : AskedField) : Picked (askedFields.Val f) :=
  pick3 (b.map (askedFields.get f)) (askedFields.get f l) (askedFields.get f i)

def askedValue (b : Option MirrorNode) (l i : MirrorNode) (f : AskedField) : askedFields.Val f :=
  if (pickAsked b l i f).contested then askedFields.get f i else (pickAsked b l i f).value

def askedConflict (b : Option MirrorNode) (l i : MirrorNode) (f : AskedField) :
    Option PlanMirrorConflict :=
  if (pickAsked b l i f).contested then
    some ⟨l.id, f, b.map (askedFields.get f), askedFields.get f l, askedFields.get f i⟩
  else none

/-- Both sides have the node and there is a base; `b` is its node, if it has one. -/
def mergeBoth (b : Option MirrorNode) (l i : MirrorNode) (rank : Nat) : EntryStep :=
  let parent := pick3 (b.map (·.parentId)) l.parentId i.parentId
  let ordinal := pick3 (b.map (·.ordinal)) l.ordinal i.ordinal
  let node := { l with parentId := parent.value, ordinal := ordinal.value }
  { entry :=
      { node := askedFields.setAll (askedValue b l i) planMirrorAskedFields node
        rank, inLocal := true, parentFromIncoming := parent.value ≠ l.parentId, candidate := none }
    conflicts := planMirrorAskedFields.filterMap (askedConflict b l i)
    reported :=
      (if parent.contested then
        [.localWins (.node l.id) .parentId (.nullable l.parentId) (.nullable i.parentId)]
      else []) ++
      (if ordinal.contested then
        [.localWins (.node l.id) .ordinal (.number l.ordinal) (.number i.ordinal)]
      else []) }

/-- Only one side has the node. With a base node, it is either modified and kept or a
candidate for deletion. -/
def mergeOnly (b : Option MirrorNode) (only : MirrorNode) (inLocal : Bool) (rank : Nat) : EntryStep :=
  let entry : Entry :=
    { node := only, rank, inLocal, parentFromIncoming := false, candidate := none }
  match b with
  | none => { entry }
  | some b =>
    if nodeModified only b then
      { entry
        reported := [.keptModified (.node only.id) (if inLocal then .incomingSide else .localSide)]
        resurrected := if inLocal then [] else [only.id] }
    else
      { entry :=
          { entry with candidate := some (if inLocal then .deletedByIncoming else .deletedByLocal) } }

def mergeEntry (base : Option Side) (localSide incoming : Side) (id : String) (rank : Nat) :
    Option EntryStep :=
  match localSide.byId.find? id, incoming.byId.find? id with
  | some l, some i =>
    match base with
    | none => some (mergeWithoutBase l i rank)
    | some s => some (mergeBoth (s.byId.find? id) l i rank)
  | some l, none => some (mergeOnly (base.bind (·.byId.find? id)) l true rank)
  | none, some i => some (mergeOnly (base.bind (·.byId.find? id)) i false rank)
  | none, none => none

def mergeIds (localSide incoming : Side) : List String :=
  incoming.nodes.map (·.id) ++
    (localSide.nodes.map (·.id)).filter (fun id => (incoming.byId.find? id).isNone)

def mergeSteps (base : Option Side) (localSide incoming : Side) : List EntryStep :=
  (mergeIds localSide incoming).zipIdx.filterMap fun (id, rank) =>
    mergeEntry base localSide incoming id rank

/-! ## Cycles -/

/-- The inner `while` of `findCycle`: climb from `cur` until the root, a node that is done or
a node already on `path`. Returns the cycle, if one closed, and the path walked. -/
def climb (entries : Entries) (done : List String) :
    Nat → List String → Option String → Except MergeFailure (Option (List String) × List String)
  | _, path, none => .ok (none, path)
  | 0, _, some _ => .error .spins
  | fuel + 1, path, some cur =>
    if cur ∈ done then .ok (none, path)
    else if cur ∈ path then .ok (some (path.drop (path.idxOf cur)), path)
    else climb entries done fuel (path ++ [cur]) (entries.parentOf cur)

def findCycleFrom (entries : Entries) :
    List String → List String → Except MergeFailure (Option (List String))
  | [], _ => .ok none
  | start :: rest, done =>
    if start ∈ done then findCycleFrom entries rest done
    else do
      match ← climb entries done (entries.rows.length + 2) [] (some start) with
      | (some cycle, _) => .ok (some cycle)
      | (none, path) => findCycleFrom entries rest (done ++ path)

def findCycle (entries : Entries) : Except MergeFailure (Option (List String)) :=
  findCycleFrom entries entries.keys []

def breakCycles (localSide : Side) :
    Nat → Entries → List PlanMirrorReport → Except MergeFailure (Entries × List PlanMirrorReport)
  | 0, _, _ => .error .spins
  | fuel + 1, entries, reported => do
    match ← findCycle entries with
    | none => .ok (entries, reported)
    | some cycle =>
      let members := (cycle.filterMap entries.find?).filter (·.parentFromIncoming)
      match members.insertionSort (fun a b => a.node.id ≤ b.node.id) with
      | [] => .error .localCycle
      | pick :: _ =>
        match localSide.byId.find? pick.node.id with
        | none => .error .noLocalNode
        | some l =>
          breakCycles localSide fuel
            (entries.put
              { pick with
                node := { pick.node with parentId := l.parentId }, parentFromIncoming := false })
            (reported ++ [.localWins (.node pick.node.id) .parentId (.nullable l.parentId)
              (.nullable pick.node.parentId)])

/-! ## Ancestors of what is kept -/

structure Keeping where
  entries : Entries
  walked : List String
  reported : List PlanMirrorReport
  resurrected : List String

/-- Clear the candidate mark of one ancestor and say so. -/
def Keeping.keep (k : Keeping) (ancestor : Entry) : Keeping :=
  match ancestor.candidate with
  | none => k
  | some .deletedByLocal =>
    { k with
      entries := k.entries.put { ancestor with candidate := none }
      reported := k.reported ++ [.keptAncestor (.node ancestor.node.id) .localSide]
      resurrected := k.resurrected ++ [ancestor.node.id] }
  | some .deletedByIncoming =>
    { k with
      entries := k.entries.put { ancestor with candidate := none }
      reported := k.reported ++ [.keptAncestor (.node ancestor.node.id) .incomingSide] }

/-- The `while` that climbs from a kept node. -/
def keepUp : Nat → Option String → Keeping → Except MergeFailure Keeping
  | _, none, k => .ok k
  | 0, some _, _ => .error .spins
  | fuel + 1, some parentId, k =>
    if parentId ∈ k.walked then .ok k
    else
      let k := { k with walked := parentId :: k.walked }
      match k.entries.find? parentId with
      | none => .ok k
      | some ancestor => keepUp fuel ancestor.node.parentId (k.keep ancestor)

def keepAncestors (fuel : Nat) : List String → Keeping → Except MergeFailure Keeping
  | [], k => .ok k
  | id :: rest, k =>
    match k.entries.find? id with
    | none => keepAncestors fuel rest k
    | some entry =>
      if entry.candidate.isSome then keepAncestors fuel rest k
      else do keepAncestors fuel rest (← keepUp fuel entry.node.parentId k)

/-! ## Deleted nodes, deepest first -/

/-- The climb of `localDepth`, which counts the local ancestors. -/
def depthFrom (localSide : Side) : Nat → Option String → Except MergeFailure Nat
  | _, none => .ok 0
  | 0, some _ => .error .spins
  | fuel + 1, some p => do return (← depthFrom localSide fuel (localSide.parentOf p)) + 1

def localDepth (localSide : Side) (id : String) : Except MergeFailure Nat :=
  depthFrom localSide (localSide.nodes.length + 1) (localSide.parentOf id)

structure DeletedNode where
  id : String
  depth : Nat
  rank : Nat

def deletedNode (localSide : Side) (e : Entry) : Except MergeFailure DeletedNode := do
  return ⟨e.node.id, ← localDepth localSide e.node.id, e.rank⟩

/-- `b.depth - a.depth || a.rank - b.rank`. -/
def deeperFirst (a b : DeletedNode) : Prop :=
  b.depth < a.depth ∨ (b.depth = a.depth ∧ a.rank ≤ b.rank)

instance : DecidableRel deeperFirst := fun a b => by unfold deeperFirst; infer_instance

/-! ## Edges and code links -/

/-- How `mergeKeyed` reads one kind of item: its key, its report subject and its fields. No merged
field is part of the key, and the subject names the key. -/
structure Keyed (T F K : Type) where
  key : T → K
  fields : Fields T F
  names : List F
  subjectOf : T → Subject
  reportField : F → ReportField
  display : (f : F) → fields.Val f → FieldValue
  mem_names : ∀ f, f ∈ names
  key_set : ∀ f (v : fields.Val f) (x : T), key (fields.set f v x) = key x
  subject_iff : ∀ x y, subjectOf x = subjectOf y ↔ key x = key y

namespace Keyed

variable {T F K : Type} [DecidableEq K] (kd : Keyed T F K)

def pickField (b : Option T) (l i : T) (f : F) : Picked (kd.fields.Val f) :=
  pick3 (b.map (kd.fields.get f)) (kd.fields.get f l) (kd.fields.get f i)

/-- Both sides have the key and there is a base. -/
def mergeItem (b : Option T) (l i : T) : T × List PlanMirrorReport :=
  (kd.fields.setAll (fun f => (kd.pickField b l i f).value) kd.names i,
    kd.names.filterMap fun f =>
      if (kd.pickField b l i f).contested then
        some (.localWins (kd.subjectOf l) (kd.reportField f)
          (kd.display f (kd.fields.get f l)) (kd.display f (kd.fields.get f i)))
      else none)

/-- Only one side has the key; with a base item it stays only when it was modified. -/
def onlyItem (b : Option T) (only : T) (deletedBy : SideName) : List T × List PlanMirrorReport :=
  match b with
  | none => ([only], [])
  | some b =>
    if kd.fields.differ kd.names only b then
      ([only], [.keptModified (kd.subjectOf only) deletedBy])
    else ([], [])

def mergeKey (base : Option (Table T kd.key)) (localItems incoming : Table T kd.key) (key : K) :
    List T × List PlanMirrorReport :=
  match localItems.find? key, incoming.find? key with
  | some l, some i =>
    match base with
    | none => ([i], [])
    | some base =>
      let (item, reported) := kd.mergeItem (base.find? key) l i
      ([item], reported)
  | some l, none => kd.onlyItem (base.bind (·.find? key)) l .incomingSide
  | none, some i => kd.onlyItem (base.bind (·.find? key)) i .localSide
  | none, none => ([], [])

def mergeKeys (localItems incoming : Table T kd.key) : List K :=
  incoming.keys ++ localItems.keys.filter (fun k => (incoming.find? k).isNone)

def mergeKeyed (base : Option (Table T kd.key)) (localItems incoming : Table T kd.key) :
    List T × List PlanMirrorReport :=
  let merged := (kd.mergeKeys localItems incoming).map (kd.mergeKey base localItems incoming)
  (merged.flatMap (·.1), merged.flatMap (·.2))

end Keyed

def edgeKeyed : Keyed MirrorEdge EdgeField (String × String × PlanEdgeKind) where
  key := MirrorEdge.key
  fields := edgeFields
  names := [.note]
  subjectOf := fun e => .edge e.fromNodeId e.toNodeId e.kind
  reportField := fun _ => .note
  display := fun _ v => .nullable v
  mem_names := by intro f; cases f; simp
  key_set := fun _ _ _ => rfl
  subject_iff := by simp [MirrorEdge.key]

def linkKeyed : Keyed MirrorCodeLink LinkField (String × String × String) where
  key := MirrorCodeLink.key
  fields := linkFields
  names := [.evidence, .derivedAtCommit, .stale, .role]
  subjectOf := fun l => .codeLink l.nodeId l.repoPath (l.symbol.getD "")
  reportField := .link
  display := fun f => match f with
    | .evidence => fun v => .nullable v
    | .derivedAtCommit => fun v => .nullable v
    | .stale => fun v => .flag v
    | .role => fun v => .text v.wire
  mem_names := by intro f; cases f <;> simp
  key_set := by intro f v x; cases f <;> rfl
  subject_iff := by simp [MirrorCodeLink.key]

def edgeMap (s : Side) : Table MirrorEdge edgeKeyed.key := .ofList s.edges

def linkMap (s : Side) : Table MirrorCodeLink linkKeyed.key := .ofList s.links

/-! ## The merge -/

/-- `a.node.ordinal - b.node.ordinal || a.rank - b.rank`. -/
def ordinalThenRank (a b : Entry) : Prop :=
  a.node.ordinal < b.node.ordinal ∨ (a.node.ordinal = b.node.ordinal ∧ a.rank ≤ b.rank)

instance : DecidableRel ordinalThenRank := fun a b => by unfold ordinalThenRank; infer_instance

/-- The node list of the merged payload: what is no candidate, in display order. -/
def liveNodes (entries : Entries) : List MirrorNode :=
  ((entries.rows.filter (·.candidate.isNone)).insertionSort ordinalThenRank).map (·.node)

def mergeSides (base : Option Side) (localSide incoming : Side) :
    Except MergeFailure PlanMirrorMerge := do
  let steps := mergeSteps base localSide incoming
  let initial : Entries := .ofList (steps.map (·.entry))
  let (rewired, reported) ←
    breakCycles localSide (initial.rows.length + 1) initial (steps.flatMap (·.reported))
  let kept ← keepAncestors (rewired.rows.length + 1) rewired.keys
    ⟨rewired, [], reported, steps.flatMap (·.resurrected)⟩
  let nodes := liveNodes kept.entries
  let live := fun id => nodes.any (·.id = id)
  let gone ← (kept.entries.rows.filter (·.candidate = some .deletedByIncoming)).mapM
    (deletedNode localSide)
  let edges := edgeKeyed.mergeKeyed (base.map edgeMap) (edgeMap localSide) (edgeMap incoming)
  let links := linkKeyed.mergeKeyed (base.map linkMap) (linkMap localSide) (linkMap incoming)
  return {
    merged :=
      { nodes
        edges := edges.1.filter (fun e => live e.fromNodeId && live e.toNodeId)
        codeLinks := links.1.filter (fun l => live l.nodeId) }
    conflicts := steps.flatMap (·.conflicts)
    deleted := (gone.insertionSort deeperFirst).map (·.id)
    resurrected := kept.resurrected
    reported := kept.reported ++ edges.2 ++ links.2 }

/-- Three-way merge of two plan mirrors over their common base, `none` for a first import. -/
def mergePlanMirror (base : Option PlanMirrorPayload)
    (localPayload incomingPayload : PlanMirrorPayload) : Except MergeFailure PlanMirrorMerge :=
  let localSide := readSide localPayload
  mergeSides (base.map readSide) localSide (readIncoming localSide incomingPayload)

end Haive

import Haive.Plan.Spots

/-!
# Build order, roll-up and waits

`shared/src/plan/sequence.ts`: `computePlanSequence` numbers a plan in post-order,
folds every node's descendants on the way back up and lists what each node still
waits for. The walk's explicit stack is the recursion of `visit` here; its `fuel` is
the number of nodes, which every call lowers by the node it enters.

What the walk leaves is in `Haive.Plan.Numbering`.
-/

namespace Haive

open Lib

/-! ## Statuses -/

def isSettled (status : PlanNodeStatus) : Bool := status = .done || status = .notApplicable

def rollUpStatus (own : PlanNodeStatus) (descendants : List PlanNodeStatus) : PlanNodeStatus :=
  if descendants.isEmpty then own
  else if own = .blockedHuman || descendants.contains .blockedHuman then .blockedHuman
  else if descendants.all isSettled then
    if own = .notApplicable then .notApplicable else .done
  else if own = .notApplicable then .notApplicable
  else if (descendants.any (· ≠ .todo)) || own ≠ .todo then .inProgress
  else .todo

/-! ## Results -/

structure PlanTouchedTask where
  nodeId : Uuid
  taskId : String
  title : String
  completedAt : Nat
deriving DecidableEq

structure PlanBlocker where
  nodeId : Uuid
  sequence : Nat
  title : String
deriving DecidableEq

structure PlanNodeStats where
  directChildren : Nat
  totalDescendants : Nat
  rolledStatus : PlanNodeStatus
  driftedTasks : Nat
deriving DecidableEq, Repr

structure AncestorDep where
  fromNodeId : Uuid
  toNodeId : Uuid
deriving DecidableEq

structure PlanSequenceResult where
  sequenceById : Uuid → Option Nat
  statsById : Uuid → Option PlanNodeStats
  blockedById : Uuid → Option (List PlanBlocker)
  cycles : List (List Uuid)
  ancestorDeps : List AncestorDep

abbrev PlanNodes := Table PlanNodeRow (·.id)

/-! ## Edges -/

/-- `indexDependsOn`: the targets of `id`, in the order of the edges. -/
def indexDependsOn (nodes : PlanNodes) (edges : List PlanNodeEdgeRow) (id : Uuid) : List Uuid :=
  ((edges.filter fun e =>
    e.kind = .dependsOn && nodes.keys.contains e.fromNodeId && nodes.keys.contains e.toNodeId &&
      e.fromNodeId ≠ e.toNodeId && e.fromNodeId = id).map (·.toNodeId)).eraseDups

/-- The maps of `findDependencyCycles`. -/
structure CycleSearch where
  opened : List Uuid
  closed : List Uuid
  seenCycle : List (List Uuid)
  cycles : List (List Uuid)

def CycleSearch.has (s : CycleSearch) (id : Uuid) : Bool := s.opened.contains id || s.closed.contains id

def CycleSearch.close (s : CycleSearch) (id : Uuid) : CycleSearch := { s with closed := id :: s.closed }

def CycleSearch.report (s : CycleSearch) (loop : List Uuid) : CycleSearch :=
  let key := loop.mergeSort fun a b => a.text ≤ b.text
  if s.seenCycle.contains key then s
  else { s with seenCycle := key :: s.seenCycle, cycles := s.cycles ++ [loop] }

/-- The walk from the last node of `path`, which is open. -/
def exploreCycles (dependsOn : Uuid → List Uuid) : Nat → List Uuid → Uuid → CycleSearch → CycleSearch
  | 0, _, _, s => s
  | fuel + 1, path, id, s =>
    ((dependsOn id).foldl (fun (s : CycleSearch) target =>
      if path.contains target then s.report (path.dropWhile (· ≠ target))
      else if s.closed.contains target || (dependsOn target).isEmpty then
        if s.has target then s else s.close target
      else
        exploreCycles dependsOn fuel (path ++ [target]) target { s with opened := target :: s.opened })
      s).close id

def findDependencyCycles (ids : List Uuid) (dependsOn : Uuid → List Uuid) : List (List Uuid) :=
  (ids.foldl (fun (s : CycleSearch) start =>
    if s.has start then s
    else exploreCycles dependsOn (ids.length + 1) [start] start { s with opened := start :: s.opened })
    ⟨[], [], [], []⟩).cycles

/-! ## The walk -/

def orderedChildren (nodes : PlanNodes) (parentId : Option Uuid) : List PlanNodeRow :=
  nodes.rows.filter (·.parentId = parentId)

/-- `driftOwn`: the tasks that touched the node since its last review. -/
def driftOwn (nodes : PlanNodes) (touched : List PlanTouchedTask) (id : Uuid) : Nat :=
  match nodes.find? id with
  | none => 0
  | some node =>
    (touched.filter fun t => t.nodeId = id && node.lastReviewedAt.getD node.createdAt < t.completedAt).length

/-- The maps of the walk. -/
structure Walk where
  counter : Nat
  visited : List Uuid
  sequenceById : Uuid → Option Nat
  statsById : Uuid → Option PlanNodeStats
  descendantStatuses : Uuid → Option (List PlanNodeStatus)

structure Gathered where
  statuses : List PlanNodeStatus
  drift : Nat
  descendantStatuses : Uuid → Option (List PlanNodeStatus)

def gather (sequenceById : Uuid → Option Nat) (statsById : Uuid → Option PlanNodeStats) (g : Gathered)
    (child : PlanNodeRow) : Gathered :=
  if (sequenceById child.id).isNone then g
  else
    { statuses := g.statuses ++ child.status :: (g.descendantStatuses child.id).getD []
      drift := g.drift + ((statsById child.id).map (·.driftedTasks)).getD 0
      descendantStatuses := Function.update g.descendantStatuses child.id none }

def Walk.leave (w : Walk) (drift : Uuid → Nat) (node : PlanNodeRow) (children : List PlanNodeRow) : Walk :=
  let sequenceById := Function.update w.sequenceById node.id (some (w.counter + 1))
  let g := children.foldl (gather sequenceById w.statsById) ⟨[], drift node.id, w.descendantStatuses⟩
  { w with
    counter := w.counter + 1
    sequenceById
    statsById := Function.update w.statsById node.id
      (some ⟨children.length, g.statuses.length, rollUpStatus node.status g.statuses, g.drift⟩)
    descendantStatuses := Function.update g.descendantStatuses node.id (some g.statuses) }

def Walk.enter (w : Walk) (id : Uuid) : Walk := { w with visited := id :: w.visited }

def visit (children : Uuid → List PlanNodeRow) (drift : Uuid → Nat) : Nat → PlanNodeRow → Walk → Walk
  | 0, _, w => w
  | fuel + 1, node, w =>
    ((children node.id).foldl (fun w child =>
      if w.visited.contains child.id then w else visit children drift fuel child (w.enter child.id))
      w).leave drift node (children node.id)

/-- `walk(root)`. -/
def walkFrom (nodes : PlanNodes) (drift : Uuid → Nat) (w : Walk) (root : PlanNodeRow) : Walk :=
  visit (fun id => orderedChildren nodes (some id)) drift nodes.rows.length root
    { w.enter root.id with descendantStatuses := fun _ => none }

/-- The walks from the roots, then from whatever they did not reach. -/
def walkAll (nodes : PlanNodes) (drift : Uuid → Nat) : Walk :=
  let w := (orderedChildren nodes none).foldl (walkFrom nodes drift)
    ⟨0, [], fun _ => none, fun _ => none, fun _ => none⟩
  nodes.rows.foldl (fun w node => if w.visited.contains node.id then w else walkFrom nodes drift w node) w

/-! ## Waits -/

/-- The climb that looks for `targetId` among the ancestors. -/
def isAncestorIn (nodes : PlanNodes) (targetId : Uuid) : Nat → Option Uuid → Bool
  | fuel + 1, some cursor =>
    cursor = targetId || isAncestorIn nodes targetId fuel (parentFrom nodes cursor)
  | _, _ => false

def rolledOf (nodes : PlanNodes) (w : Walk) (id : Uuid) : PlanNodeStatus :=
  match w.statsById id with
  | some stats => stats.rolledStatus
  | none => ((nodes.find? id).map (·.status)).getD .todo

/-- The unmet targets of a node. -/
def blockersOf (nodes : PlanNodes) (dependsOn : Uuid → List Uuid) (w : Walk) (id : Uuid) : List PlanBlocker :=
  ((dependsOn id).filter fun targetId => !isSettled (rolledOf nodes w targetId)).map fun targetId =>
    ⟨targetId, (w.sequenceById targetId).getD 0, ((nodes.find? targetId).map (·.title)).getD ""⟩

def computePlanSequence (nodes : PlanNodes) (edges : List PlanNodeEdgeRow) (touched : List PlanTouchedTask) :
    PlanSequenceResult :=
  let dependsOn := indexDependsOn nodes edges
  let w := walkAll nodes (driftOwn nodes touched)
  { sequenceById := w.sequenceById
    statsById := w.statsById
    blockedById := fun id =>
      let blockers := blockersOf nodes dependsOn w id
      if !nodes.keys.contains id || blockers.isEmpty then none
      else some (blockers.mergeSort fun a b => a.sequence ≤ b.sequence)
    cycles := findDependencyCycles nodes.keys dependsOn
    ancestorDeps := nodes.rows.flatMap fun node =>
      ((dependsOn node.id).filter fun targetId =>
        isAncestorIn nodes targetId nodes.rows.length node.parentId).map fun targetId => ⟨node.id, targetId⟩ }

/-! ## What the fold leaves -/

theorem mem_indexDependsOn {nodes : PlanNodes} {edges : List PlanNodeEdgeRow} {a t : Uuid} : t ∈ indexDependsOn nodes edges a ↔
    ∃ e ∈ edges, e.kind = .dependsOn ∧ e.fromNodeId = a ∧ e.toNodeId = t ∧ a ≠ t ∧
      a ∈ nodes.keys ∧ t ∈ nodes.keys := by
  rw [indexDependsOn, List.mem_eraseDups, List.mem_map]
  constructor
  · rintro ⟨e, he, rfl⟩
    obtain ⟨hmem, htests⟩ := List.mem_filter.mp he
    simp only [Bool.and_eq_true, decide_eq_true_eq, List.contains_iff_mem] at htests
    obtain ⟨⟨⟨⟨hkind, hfrom⟩, hto⟩, hne⟩, rfl⟩ := htests
    exact ⟨e, hmem, hkind, rfl, rfl, hne, hfrom, hto⟩
  · rintro ⟨e, he, hkind, rfl, rfl, hne, hfrom, hto⟩
    refine ⟨e, List.mem_filter.mpr ⟨he, ?_⟩, rfl⟩
    simp only [Bool.and_eq_true, decide_eq_true_eq, List.contains_iff_mem]
    exact ⟨⟨⟨⟨hkind, hfrom⟩, hto⟩, hne⟩, trivial⟩

/-- Every parent is a row, and climbs end. -/
structure PlanForest (nodes : PlanNodes) : Prop where
  parentLive : ∀ r ∈ nodes.rows, ∀ p, r.parentId = some p → p ∈ nodes.keys
  path : ∀ r ∈ nodes.rows, ∃ ids, Lineage nodes r.id ids ∧ r.path = pathOf ids

def FoldsBelow (nodes : PlanNodes) (id : Uuid) (statuses : List PlanNodeStatus) : Prop :=
  ∀ s, s ∈ statuses ↔ ∃ d ∈ nodes.rows, Above (parentFrom nodes) d.id id ∧ d.status = s

/-- The node is numbered, and rolled up against what is below it. -/
def Rolls (nodes : PlanNodes) (w : Walk) (n : PlanNodeRow) : Prop :=
  (w.sequenceById n.id).isSome ∧ ∃ stats statuses, w.statsById n.id = some stats ∧
    stats.directChildren = (orderedChildren nodes (some n.id)).length ∧
    stats.rolledStatus = rollUpStatus n.status statuses ∧ FoldsBelow nodes n.id statuses

/-- At or below `id`. -/
def Under (nodes : PlanNodes) (x id : Uuid) : Prop := x = id ∨ Above (parentFrom nodes) x id

section Fold

variable {nodes : PlanNodes}

theorem mem_orderedChildren {p : Option Uuid} {c : PlanNodeRow} :
    c ∈ orderedChildren nodes p ↔ c ∈ nodes.rows ∧ c.parentId = p := by
  rw [orderedChildren, List.mem_filter, decide_eq_true_eq]

theorem parentFrom_of_mem {c : PlanNodeRow} (hc : c ∈ nodes.rows) :
    parentFrom nodes c.id = c.parentId := by
  rw [parentFrom, Table.mem_rows_iff.mp hc]
  rfl

theorem orderedChildren_ids (p : Option Uuid) : ((orderedChildren nodes p).map (·.id)).Nodup :=
  nodes.nodup.sublist (List.filter_sublist.map _)

/-- Two nodes with a node at or below both are at or below one another. -/
theorem Under.comparable {x y z : Uuid} (hy : Under nodes x y) (hz : Under nodes x z) :
    Under nodes y z ∨ Under nodes z y := by
  have reach : ∀ {a b : Uuid}, Under nodes a b →
      Relation.ReflTransGen (fun a b => parentFrom nodes a = some b) a b := by
    intro a b hab
    exact Relation.reflTransGen_iff_eq_or_transGen.mpr (hab.imp Eq.symm id)
  have back : ∀ {a b : Uuid}, Relation.ReflTransGen (fun a b => parentFrom nodes a = some b) a b →
      Under nodes a b := fun h => (Relation.reflTransGen_iff_eq_or_transGen.mp h).imp Eq.symm id
  have hunique : Relator.RightUnique fun a b => parentFrom nodes a = some b := by
    intro a b c hb hc
    exact Option.some.inj (hb.symm.trans hc)
  exact (Relation.ReflTransGen.total_of_right_unique hunique (reach hy) (reach hz)).imp back back

/-- What is below a node is at or below one of its children. -/
theorem above_iff_child {x id : Uuid} :
    Above (parentFrom nodes) x id ↔ ∃ c ∈ orderedChildren nodes (some id), Under nodes x c.id := by
  constructor
  · intro h
    obtain ⟨y, hy, hlast⟩ := Relation.TransGen.tail'_iff.mp h
    have hrow : ∃ r, nodes.find? y = some r ∧ r.parentId = some id := Option.bind_eq_some_iff.mp hlast
    obtain ⟨r, hr, hp⟩ := hrow
    refine ⟨r, mem_orderedChildren.mpr ⟨Table.find?_mem hr, hp⟩, ?_⟩
    rw [show r.id = y from Table.find?_key hr]
    exact (Relation.reflTransGen_iff_eq_or_transGen.mp hy).imp Eq.symm (fun h => h)
  · rintro ⟨c, hc, hx⟩
    obtain ⟨hmem, hp⟩ := mem_orderedChildren.mp hc
    have hstep : parentFrom nodes c.id = some id := (parentFrom_of_mem hmem).trans hp
    rcases hx with rfl | hx
    · exact above_head hstep
    · exact hx.snoc hstep

theorem rooted_of_lineage {id : Uuid} {ids : List Uuid} (h : Lineage nodes id ids) :
    Rooted (parentFrom nodes) id := by
  induction h with
  | root hr hp => exact .root (by rw [parentFrom, hr]; exact hp)
  | child hr hp _ ih => exact .step (by rw [parentFrom, hr]; exact hp) ih

theorem PlanForest.rooted (h : PlanForest nodes) {r : PlanNodeRow} (hr : r ∈ nodes.rows) :
    Rooted (parentFrom nodes) r.id := by
  obtain ⟨ids, hids, -⟩ := h.path r hr
  exact rooted_of_lineage hids

theorem exists_root (hforest : PlanForest nodes) {d : PlanNodeRow} (hd : d ∈ nodes.rows) :
    ∃ r ∈ orderedChildren nodes none, Under nodes d.id r.id := by
  obtain ⟨ids, hids, -⟩ := hforest.path d hd
  have key : ∀ {id : Uuid} {ids : List Uuid}, Lineage nodes id ids →
      ∃ r ∈ orderedChildren nodes none, Under nodes id r.id := by
    intro id ids h
    induction h with
    | @root id r hr hp =>
      refine ⟨r, mem_orderedChildren.mpr ⟨Table.find?_mem hr, hp⟩, .inl ?_⟩
      exact (show r.id = id from Table.find?_key hr).symm
    | @child id p r ids hr hp _ ih =>
      obtain ⟨top, htop, hunder⟩ := ih
      have hstep : parentFrom nodes id = some p := by rw [parentFrom, hr]; exact hp
      refine ⟨top, htop, .inr ?_⟩
      rcases hunder with rfl | hunder
      · exact above_head hstep
      · exact hunder.cons hstep
  exact key hids

end Fold

end Haive

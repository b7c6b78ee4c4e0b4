import Haive.Mirror.WellFormed

/-!
# What a reconcile writes

`reconcilePlanLocked` of `worker/src/plan/mirror.ts` merges the committed `plan.json` into the
plan of the database and stores the next merge base. `reconcile` is the part of it between the
reads and the writes: the merge, the plan that is written (`targetNode`: a contested field stays
at this side's value) and the snapshot that is stored (`withoutAbsentAsked`: the payload as read,
with the contested fields at their old base).

A snapshot is stored as JSON and parsed again by the next reconcile. A node that it takes over
from the old base keeps the shape of the old base's schema version, so `Snapshot` holds nodes of
either shape and `readSnapshot` may refuse it.
-/

namespace Haive

open Lib

/-! ## Stored snapshots -/

/-- A node as a snapshot stores it. Only a v1 node says who wrote it. -/
structure StoredNode where
  node : MirrorNode
  createdBy : Option PlanNodeOrigin
deriving DecidableEq, Repr

abbrev StoredNodes := Table StoredNode (·.node.id)

/-- The column `syncedSnapshot`. -/
structure Snapshot where
  schemaVersion : Nat
  nodes : List StoredNode
  edges : List MirrorEdge
  codeLinks : List MirrorCodeLink
deriving DecidableEq, Repr

def PlanMirrorPayload.stored : PlanMirrorPayload → Snapshot
  | .v1 nodes edges => ⟨1, nodes.map fun n => ⟨n.toMirrorNode, some n.createdBy⟩, edges, []⟩
  | .v2 mirror => ⟨2, mirror.nodes.map fun n => ⟨n, none⟩, mirror.edges, mirror.codeLinks⟩

def StoredNode.v1? (n : StoredNode) : Option MirrorNodeV1 :=
  n.createdBy.map fun createdBy => { n.node with createdBy }

/-- `planMirrorPayloadSchema.safeParse` on a stored snapshot. What its nodes, edges and links hold
was checked when it was first read; what can fail is the shape of the nodes, which a v1 file wants
with and a v2 file without an author, and their number. -/
def readSnapshot (s : Snapshot) : Option PlanMirrorPayload :=
  if 1 ≤ s.nodes.length ∧ s.nodes.length ≤ 20000 then
    if s.schemaVersion = 1 then (s.nodes.mapM StoredNode.v1?).map fun nodes => .v1 nodes s.edges
    else if s.nodes.all (·.createdBy.isNone) then
      some (.v2 ⟨s.nodes.map (·.node), s.edges, s.codeLinks⟩)
    else none
  else none

inductive ReconcileFailure
  | merge (failure : MergeFailure)
  /-- A loop of the source would still be running. -/
  | spins
  /-- `oldBase.get(n.id)!` on a node that the old base does not have. -/
  | noOldNode
deriving DecidableEq, Repr

/-! ## `withoutAbsentAsked` -/

/-- `children.get(id)`. -/
def childrenOf (nodes : List StoredNode) (id : String) : List String :=
  (nodes.filter (·.node.parentId = some id)).map (·.node.id)

/-- The `while` over `queue`, whose last element, the next to be popped, is the head here. -/
def subtreeFrom (nodes : List StoredNode) :
    Nat → List String → List String → Except ReconcileFailure (List String)
  | _, [], subtree => .ok subtree
  | 0, _ :: _, _ => .error .spins
  | fuel + 1, next :: queue, subtree =>
    subtreeFrom nodes fuel ((childrenOf nodes next).reverse ++ queue) (subtree ++ [next])

/-- The set `drop`: what hangs under an absent node and is new too. -/
def dropOf (nodes : List StoredNode) (absent : List String) (oldBase : StoredNodes) :
    Except ReconcileFailure (List String) := do
  let subtrees ← absent.mapM fun id => subtreeFrom nodes (nodes.length + 1) [id] []
  return subtrees.flatten.filter fun id => (oldBase.find? id).isNone

def keepEntry (drop : List String) (oldBase : StoredNodes) (n : StoredNode) :
    Except ReconcileFailure StoredNode :=
  if n.node.parentId.any (· ∈ drop) then
    match oldBase.find? n.node.id with
    | some old => .ok old
    | none => .error .noOldNode
  else .ok n

/-- The `for` that pushes missing parents onto the list it walks: `queue` is the part still to be
walked, `pushed` what was added. -/
def restoreParents (oldBase : StoredNodes) :
    Nat → List StoredNode → List String → List StoredNode → Except ReconcileFailure (List StoredNode)
  | _, [], _, pushed => .ok pushed
  | 0, _ :: _, _, _ => .error .spins
  | fuel + 1, n :: queue, present, pushed =>
    match (n.node.parentId.filter (· ∉ present)).bind oldBase.find? with
    | none => restoreParents oldBase fuel queue present pushed
    | some parent =>
      restoreParents oldBase fuel (queue ++ [parent]) (parent.node.id :: present) (pushed ++ [parent])

/-- A node both sides added with an asked field set differently had no base: it stays out of the
next one, with whatever new subtree hangs under it. `absent` lists such nodes; the source has it
as a set, and only what it contains matters. -/
def withoutAbsentAsked (payload : Snapshot) (absent : List String) (oldBase : StoredNodes) :
    Except ReconcileFailure Snapshot :=
  if absent = [] then .ok payload
  else do
    let drop ← dropOf payload.nodes absent oldBase
    if drop = [] then return payload
    let nodes ← (payload.nodes.filter (·.node.id ∉ drop)).mapM (keepEntry drop oldBase)
    let pushed ← restoreParents oldBase (nodes.length + oldBase.rows.length) nodes
      (nodes.map (·.node.id)) []
    return {
      payload with
      nodes := nodes ++ pushed
      edges := payload.edges.filter fun e => e.fromNodeId ∉ drop ∧ e.toNodeId ∉ drop
      codeLinks := payload.codeLinks.filter fun l => l.nodeId ∉ drop }

/-! ## The reconcile -/

/-- The node to write: a contested field goes back to local's value. A conflict is only ever about
a node that local has. -/
def targetNode (localSide : Side) (conflicts : List PlanMirrorConflict) (n : MirrorNode) : MirrorNode :=
  match localSide.byId.find? n.id with
  | none => n
  | some l =>
    (conflicts.filter (·.nodeId = n.id)).foldl
      (fun target c => askedFields.set c.field (askedFields.get c.field l) target) n

/-- The payload's node with each contested field at its old base, where there is one. -/
def atOldBase (conflicts : List PlanMirrorConflict) (n : StoredNode) : StoredNode :=
  { n with
    node := (conflicts.filter (·.nodeId = n.node.id)).foldl
      (fun patched c =>
        match c.base with
        | some v => askedFields.set c.field v patched
        | none => patched) n.node }

/-- What a reconcile leaves behind. -/
structure Reconciled where
  /-- The plan of the database afterwards. -/
  plan : PlanMirror
  conflicts : List PlanMirrorConflict
  deleted : List String
  resurrected : List String
  /-- The stored base of the next reconcile. -/
  snapshot : Snapshot

def oldNodes (base : Option PlanMirrorPayload) : StoredNodes :=
  .ofList ((base.map (·.stored.nodes)).getD [])

def nextSnapshot (base : Option PlanMirrorPayload) (incoming : PlanMirrorPayload)
    (conflicts : List PlanMirrorConflict) : Except ReconcileFailure Snapshot :=
  withoutAbsentAsked { incoming.stored with nodes := incoming.stored.nodes.map (atOldBase conflicts) }
    ((conflicts.filter (·.base.isNone)).map (·.nodeId)) (oldNodes base)

/-- `reconcilePlanLocked` between its reads and its writes. `base` is the stored snapshot as parsed,
`none` when there is none or it does not parse. -/
def reconcile (base : Option PlanMirrorPayload) (plan : PlanMirror) (incoming : PlanMirrorPayload) :
    Except ReconcileFailure Reconciled :=
  match mergePlanMirror base (.v2 plan) incoming with
  | .error failure => .error (.merge failure)
  | .ok m => do
    let snapshot ← nextSnapshot base incoming m.conflicts
    return {
      plan := { m.merged with nodes := m.merged.nodes.map (targetNode (readSide (.v2 plan)) m.conflicts) }
      conflicts := m.conflicts
      deleted := m.deleted
      resurrected := m.resurrected
      snapshot }

/-- The next reconcile, with the same payload and no edit in between. -/
def reconcileAgain (incoming : PlanMirrorPayload) (r : Reconciled) :
    Except ReconcileFailure Reconciled :=
  reconcile (readSnapshot r.snapshot) r.plan incoming

/-! ## Subtrees -/

section
variable {nodes : List StoredNode} {start : String}

def storedParent (nodes : List StoredNode) : String → Option String := parentIn (nodes.map (·.node))

theorem mem_childrenOf (hids : (nodes.map (·.node.id)).Nodup) {id c : String} :
    c ∈ childrenOf nodes id ↔ storedParent nodes c = some id := by
  simp only [childrenOf, List.mem_map, List.mem_filter, decide_eq_true_eq, storedParent, parentIn,
    Option.bind_eq_some_iff]
  constructor
  · rintro ⟨n, ⟨hn, hp⟩, rfl⟩
    refine ⟨n.node, ?_, hp⟩
    have hids' : ((nodes.map (·.node)).map (·.id)).Nodup := by simpa [Function.comp_def] using hids
    have hrows : (Table.ofList (nodes.map (·.node)) : Table MirrorNode (·.id)).rows = nodes.map (·.node) :=
      Table.ofList_rows hids'
    have hmem : n.node ∈ (Table.ofList (nodes.map (·.node)) : Table MirrorNode (·.id)).rows := by
      rw [hrows]
      exact List.mem_map_of_mem hn
    rw [← hrows]
    exact Table.mem_rows_iff.mp hmem
  · rintro ⟨m, hm, hp⟩
    obtain ⟨n, hn, rfl⟩ := List.mem_map.mp (List.mem_of_find?_eq_some hm)
    exact ⟨n, ⟨hn, hp⟩, by simpa using List.find?_some hm⟩

theorem childrenOf_nodup (hids : (nodes.map (·.node.id)).Nodup) (id : String) :
    (childrenOf nodes id).Nodup :=
  hids.sublist (List.filter_sublist.map _)

theorem mem_ids_of_childrenOf {id c : String} (h : c ∈ childrenOf nodes id) :
    c ∈ nodes.map (·.node.id) := by
  obtain ⟨n, hn, rfl⟩ := List.mem_map.mp h
  exact List.mem_map_of_mem (List.mem_filter.mp hn).1

/-- The state of the walk: what was popped, `subtree`, and what waits, `queue`. -/
structure Walking (nodes : List StoredNode) (start : String) (queue subtree : List String) : Prop where
  once : (subtree ++ queue).Nodup
  inside : ∀ x ∈ subtree ++ queue, x ∈ nodes.map (·.node.id)
  below : ∀ x ∈ subtree ++ queue, x = start ∨ Above (storedParent nodes) x start
  parent : ∀ x ∈ subtree ++ queue, x ≠ start → ∃ p ∈ subtree, storedParent nodes x = some p
  children : ∀ x ∈ subtree, ∀ c ∈ childrenOf nodes x, c ∈ subtree ++ queue
  begun : start ∈ subtree ++ queue

theorem Walking.step (hids : (nodes.map (·.node.id)).Nodup)
    (hloop : ¬ Above (storedParent nodes) start start)
    {next : String} {queue subtree : List String} (h : Walking nodes start (next :: queue) subtree) :
    Walking nodes start ((childrenOf nodes next).reverse ++ queue) (subtree ++ [next]) := by
  have hnext : next ∈ subtree ++ next :: queue := by simp
  have hmem : ∀ x, x ∈ (subtree ++ [next]) ++ ((childrenOf nodes next).reverse ++ queue) ↔
      x ∈ subtree ++ next :: queue ∨ x ∈ childrenOf nodes next := by
    intro x
    simp only [List.mem_append, List.mem_cons, List.mem_reverse, List.not_mem_nil, or_false]
    tauto
  -- A child that was seen already would have its parent among the popped ones, or close a cycle.
  have hnew : ∀ c ∈ childrenOf nodes next, c ∉ subtree ++ next :: queue := by
    intro c hc hseen
    have hp := (mem_childrenOf hids).mp hc
    by_cases hcs : c = start
    · subst hcs
      rcases h.below next hnext with rfl | habove
      · exact hloop (above_head hp)
      · exact hloop (habove.cons hp)
    · obtain ⟨p, hpmem, hp'⟩ := h.parent c hseen hcs
      rw [hp, Option.some.injEq] at hp'
      subst hp'
      exact (List.nodup_append.mp h.once).2.2 _ hpmem _ List.mem_cons_self rfl
  refine ⟨?_, ?_, ?_, ?_, ?_, ?_⟩
  · have hperm : ((subtree ++ [next]) ++ ((childrenOf nodes next).reverse ++ queue)).Perm
        (childrenOf nodes next ++ (subtree ++ next :: queue)) := by
      refine List.perm_iff_count.mpr fun a => ?_
      simp only [List.count_append, List.count_cons, List.count_nil, List.count_reverse]
      omega
    refine hperm.nodup_iff.mpr (List.nodup_append.mpr ⟨childrenOf_nodup hids _, h.once, ?_⟩)
    intro a ha b hb hab
    exact hnew a ha (hab ▸ hb)
  · intro x hx
    rcases (hmem x).mp hx with hx | hx
    · exact h.inside x hx
    · exact mem_ids_of_childrenOf hx
  · intro x hx
    rcases (hmem x).mp hx with hx | hx
    · exact h.below x hx
    · have hp := (mem_childrenOf hids).mp hx
      rcases h.below next hnext with rfl | habove
      · exact .inr (above_head hp)
      · exact .inr (habove.cons hp)
  · intro x hx hne
    rcases (hmem x).mp hx with hx | hx
    · obtain ⟨p, hp, hpx⟩ := h.parent x hx hne
      exact ⟨p, List.mem_append_left _ hp, hpx⟩
    · exact ⟨next, by simp, (mem_childrenOf hids).mp hx⟩
  · intro x hx c hc
    rw [hmem]
    rcases List.mem_append.mp hx with hx | hx
    · exact .inl (h.children x hx c hc)
    · rw [List.mem_singleton] at hx
      exact .inr (hx ▸ hc)
  · exact (hmem start).mpr (.inl h.begun)

/-- The walk ends, because it pops every node at most once, with everything under `start`. -/
theorem subtreeFrom_walks (hids : (nodes.map (·.node.id)).Nodup)
    (hloop : ¬ Above (storedParent nodes) start start) {fuel : Nat} {queue subtree : List String}
    (h : Walking nodes start queue subtree) (hfuel : nodes.length < subtree.length + fuel) :
    ∃ all, subtreeFrom nodes fuel queue subtree = .ok all ∧ Walking nodes start [] all := by
  induction fuel generalizing queue subtree with
  | zero =>
    cases queue with
    | nil => exact ⟨subtree, rfl, h⟩
    | cons next queue =>
      have hle := (List.subperm_of_subset h.once h.inside).length_le
      simp only [List.length_append, List.length_map] at hle
      omega
  | succ fuel ih =>
    cases queue with
    | nil => exact ⟨subtree, rfl, h⟩
    | cons next queue =>
      refine ih (h.step hids hloop) ?_
      rw [List.length_append, List.length_singleton]
      omega

/-- All that one subtree is needed for. -/
theorem subtreeFrom_spec (hids : (nodes.map (·.node.id)).Nodup)
    (hloop : ¬ Above (storedParent nodes) start start) (hstart : start ∈ nodes.map (·.node.id)) :
    ∃ all, subtreeFrom nodes (nodes.length + 1) [start] [] = .ok all ∧ start ∈ all ∧
      (∀ x ∈ all, x ∈ nodes.map (·.node.id)) ∧
      (∀ x ∈ all, ∀ c ∈ childrenOf nodes x, c ∈ all) ∧
      ∀ x ∈ all, x = start ∨ Above (storedParent nodes) x start := by
  have hbegin : Walking nodes start [start] [] := by
    refine ⟨by simp, ?_, ?_, ?_, by simp, by simp⟩
    · simpa using hstart
    · exact fun x hx => .inl (by simpa using hx)
    · exact fun x hx hne => absurd (by simpa using hx) hne
  have hfuel : nodes.length < ([] : List String).length + (nodes.length + 1) := by simp
  obtain ⟨all, hok, hwalk⟩ := subtreeFrom_walks hids hloop hbegin hfuel
  refine ⟨all, hok, by simpa using hwalk.begun, fun x hx => ?_, fun x hx c hc => ?_, fun x hx => ?_⟩
  · exact hwalk.inside x (List.mem_append_left _ hx)
  · simpa using hwalk.children x hx c hc
  · exact hwalk.below x (List.mem_append_left _ hx)

end

theorem mapM_ok {ε α β : Type} {f : α → Except ε β} {g : α → β} {l : List α}
    (h : ∀ a ∈ l, f a = .ok (g a)) : l.mapM f = .ok (l.map g) := by
  induction l with
  | nil => rfl
  | cons a l ih =>
    rw [List.mapM_cons, h a List.mem_cons_self, ih fun x hx => h x (List.mem_cons_of_mem _ hx)]
    rfl

/-! ## What is dropped -/

/-- The ids at and under `id`. -/
def subtreeOf (nodes : List StoredNode) (id : String) : List String :=
  (subtreeFrom nodes (nodes.length + 1) [id] []).toOption.getD []

section
variable {nodes : List StoredNode} {absent : List String} {oldBase : StoredNodes}

/-- What `dropOf` collects: the subtrees of the absent nodes, less what the old base has. -/
structure Dropping (nodes : List StoredNode) (absent : List String) (oldBase : StoredNodes)
    (drop : List String) : Prop where
  absent : ∀ a ∈ absent, a ∈ drop
  inside : ∀ x ∈ drop, x ∈ nodes.map (·.node.id)
  fresh : ∀ x ∈ drop, oldBase.find? x = none
  children : ∀ n ∈ nodes, ∀ p ∈ drop, n.node.parentId = some p →
    n.node.id ∈ drop ∨ ∃ old, oldBase.find? n.node.id = some old

theorem dropOf_eq (hids : (nodes.map (·.node.id)).Nodup)
    (hloop : ∀ a ∈ absent, ¬ Above (storedParent nodes) a a)
    (hinside : ∀ a ∈ absent, a ∈ nodes.map (·.node.id)) :
    dropOf nodes absent oldBase =
      .ok ((absent.flatMap (subtreeOf nodes)).filter fun id => (oldBase.find? id).isNone) := by
  have hok : absent.mapM (fun id => subtreeFrom nodes (nodes.length + 1) [id] []) =
      .ok (absent.map (subtreeOf nodes)) := by
    refine mapM_ok fun a ha => ?_
    obtain ⟨all, hall, _⟩ := subtreeFrom_spec hids (hloop a ha) (hinside a ha)
    simp [subtreeOf, hall, Except.toOption]
  rw [dropOf, hok, List.flatMap_def]
  rfl

theorem subtreeOf_spec (hids : (nodes.map (·.node.id)).Nodup) {a : String}
    (hloop : ¬ Above (storedParent nodes) a a) (ha : a ∈ nodes.map (·.node.id)) :
    a ∈ subtreeOf nodes a ∧ (∀ x ∈ subtreeOf nodes a, x ∈ nodes.map (·.node.id)) ∧
      (∀ x ∈ subtreeOf nodes a, ∀ c ∈ childrenOf nodes x, c ∈ subtreeOf nodes a) ∧
      ∀ x ∈ subtreeOf nodes a, x = a ∨ Above (storedParent nodes) x a := by
  obtain ⟨all, hall, hspec⟩ := subtreeFrom_spec hids hloop ha
  have heq : subtreeOf nodes a = all := by simp [subtreeOf, hall, Except.toOption]
  rw [heq]
  exact hspec

theorem dropping (hids : (nodes.map (·.node.id)).Nodup)
    (hloop : ∀ a ∈ absent, ¬ Above (storedParent nodes) a a)
    (hinside : ∀ a ∈ absent, a ∈ nodes.map (·.node.id))
    (hfresh : ∀ a ∈ absent, oldBase.find? a = none) :
    Dropping nodes absent oldBase
      ((absent.flatMap (subtreeOf nodes)).filter fun id => (oldBase.find? id).isNone) := by
  refine ⟨fun a ha => ?_, fun x hx => ?_, fun x hx => ?_, fun n hn p hp hparent => ?_⟩
  · rw [List.mem_filter, Option.isNone_iff_eq_none, List.mem_flatMap]
    exact ⟨⟨a, ha, (subtreeOf_spec hids (hloop a ha) (hinside a ha)).1⟩, hfresh a ha⟩
  · obtain ⟨a, ha, hx⟩ := List.mem_flatMap.mp (List.mem_filter.mp hx).1
    exact (subtreeOf_spec hids (hloop a ha) (hinside a ha)).2.1 x hx
  · simpa using (List.mem_filter.mp hx).2
  · obtain ⟨a, ha, hpa⟩ := List.mem_flatMap.mp (List.mem_filter.mp hp).1
    have hc : n.node.id ∈ childrenOf nodes p :=
      List.mem_map_of_mem (List.mem_filter.mpr ⟨hn, by simpa using hparent⟩)
    cases hold : oldBase.find? n.node.id with
    | some old => exact .inr ⟨old, rfl⟩
    | none =>
      refine .inl (List.mem_filter.mpr ⟨List.mem_flatMap.mpr ⟨a, ha, ?_⟩, by simp [hold]⟩)
      exact (subtreeOf_spec hids (hloop a ha) (hinside a ha)).2.2.1 p hpa _ hc

end

/-! ## What is restored -/

section
variable {oldBase oldBase' : StoredNodes}

theorem restoreParents_spec {fuel : Nat} {queue : List StoredNode} {present : List String}
    {pushed : List StoredNode}
    (hfuel : queue.length + oldBase.keys.countP (· ∉ present) ≤ fuel) :
    ∃ more, restoreParents oldBase fuel queue present pushed = .ok (pushed ++ more) ∧
      (∀ n ∈ more, n ∈ oldBase.rows ∧ n.node.id ∉ present) ∧ (more.map (·.node.id)).Nodup ∧
      ∀ n ∈ queue ++ more, ∀ p, n.node.parentId = some p →
        p ∈ present ∨ p ∈ more.map (·.node.id) ∨ oldBase.find? p = none := by
  induction fuel generalizing queue present pushed with
  | zero =>
    have hq : queue = [] := List.length_eq_zero_iff.mp (by omega)
    subst hq
    exact ⟨[], by simp [restoreParents], by simp, by simp, by simp⟩
  | succ fuel ih =>
    cases queue with
    | nil => exact ⟨[], by simp [restoreParents], by simp, by simp, by simp⟩
    | cons n queue =>
      rw [List.length_cons] at hfuel
      cases hparent : (n.node.parentId.filter (· ∉ present)).bind oldBase.find? with
      | none =>
        have hlow : queue.length + oldBase.keys.countP (· ∉ present) ≤ fuel := by omega
        obtain ⟨more, hok, hrows, hnodup, hclosed⟩ := @ih queue present pushed hlow
        refine ⟨more, by rw [restoreParents, hparent]; exact hok, hrows, hnodup, fun m hm p hp => ?_⟩
        rcases List.mem_cons.mp hm with rfl | hm
        · by_cases hpp : p ∈ present
          · exact .inl hpp
          · refine .inr (.inr ?_)
            rw [hp, Option.filter_some, if_pos (by simpa using hpp)] at hparent
            exact hparent
        · exact hclosed m hm p hp
      | some parent =>
        obtain ⟨p, hp, hfind⟩ := Option.bind_eq_some_iff.mp hparent
        obtain ⟨hnp, hpp⟩ := Option.filter_eq_some_iff.mp hp
        have hid : parent.node.id = p := (Table.find?_key hfind :)
        have hpp' : parent.node.id ∉ present := by simpa [hid] using hpp
        have hkey : parent.node.id ∈ oldBase.keys :=
          Table.mem_keys_iff_find?.mpr ⟨parent, hid ▸ hfind⟩
        have hless := countP_not_mem_cons_lt hkey hpp'
        have hlow : (queue ++ [parent]).length +
            oldBase.keys.countP (· ∉ parent.node.id :: present) ≤ fuel := by
          rw [List.length_append, List.length_singleton]
          omega
        obtain ⟨more, hok, hrows, hnodup, hclosed⟩ := @ih _ _ (pushed ++ [parent]) hlow
        refine ⟨parent :: more, ?_, ?_, ?_, ?_⟩
        · rw [restoreParents, hparent]
          simpa using hok
        · intro m hm
          rcases List.mem_cons.mp hm with rfl | hm
          · exact ⟨Table.find?_mem hfind, hpp'⟩
          · exact ⟨(hrows m hm).1, fun h => (hrows m hm).2 (List.mem_cons_of_mem _ h)⟩
        · rw [List.map_cons, List.nodup_cons]
          refine ⟨fun h => ?_, hnodup⟩
          obtain ⟨m, hm, hme⟩ := List.mem_map.mp h
          exact (hrows m hm).2 (hme ▸ List.mem_cons_self)
        · intro m hm q hq
          have hcase : m = n ∨ m ∈ (queue ++ [parent]) ++ more := by
            simpa [or_assoc] using hm
          rcases hcase with rfl | hm
          · rw [hnp, Option.some.injEq] at hq
            subst hq
            exact .inr (.inl (by simp [hid]))
          · rcases hclosed m hm q hq with h | h | h
            · rcases List.mem_cons.mp h with rfl | h
              · exact .inr (.inl List.mem_cons_self)
              · exact .inl h
            · exact .inr (.inl (List.mem_cons_of_mem _ h))
            · exact .inr (.inr h)

theorem restoreParents_mono {fuel : Nat} (k : Nat) {queue : List StoredNode} {present : List String}
    {pushed all : List StoredNode} (h : restoreParents oldBase fuel queue present pushed = .ok all) :
    restoreParents oldBase (fuel + k) queue present pushed = .ok all := by
  induction fuel generalizing queue present pushed with
  | zero =>
    cases queue with
    | nil => cases k <;> exact h
    | cons n queue => cases h
  | succ fuel ih =>
    cases queue with
    | nil => rw [Nat.add_right_comm]; exact h
    | cons n queue =>
      rw [Nat.add_right_comm, restoreParents]
      rw [restoreParents] at h
      cases hparent : (n.node.parentId.filter (· ∉ present)).bind oldBase.find? with
      | none =>
        rw [hparent] at h
        exact ih h
      | some parent =>
        rw [hparent] at h
        exact ih h

theorem restoreParents_extends {fuel : Nat} {queue : List StoredNode} {present : List String}
    {pushed all : List StoredNode} (h : restoreParents oldBase fuel queue present pushed = .ok all) :
    ∃ more, all = pushed ++ more := by
  induction fuel generalizing queue present pushed with
  | zero =>
    cases queue with
    | nil => exact ⟨[], by cases h; simp⟩
    | cons n queue => cases h
  | succ fuel ih =>
    cases queue with
    | nil => exact ⟨[], by cases h; simp⟩
    | cons n queue =>
      rw [restoreParents] at h
      split at h
      · exact ih h
      · obtain ⟨more, hmore⟩ := ih h
        exact ⟨_, by rw [hmore, List.append_assoc]⟩

/-- Another old base that agrees on the parents which the loop looks up restores the same nodes. -/
theorem restoreParents_congr {fuel : Nat} {queue : List StoredNode} {present : List String}
    {pushed more : List StoredNode}
    (h : restoreParents oldBase fuel queue present pushed = .ok (pushed ++ more))
    (agree : ∀ n ∈ queue ++ more, ∀ p, n.node.parentId = some p → p ∉ present →
      oldBase'.find? p = oldBase.find? p) :
    restoreParents oldBase' fuel queue present pushed = .ok (pushed ++ more) := by
  induction fuel generalizing queue present pushed more with
  | zero =>
    cases queue with
    | nil => exact h
    | cons n queue => cases h
  | succ fuel ih =>
    cases queue with
    | nil => exact h
    | cons n queue =>
      have hsame : (n.node.parentId.filter (· ∉ present)).bind oldBase'.find? =
          (n.node.parentId.filter (· ∉ present)).bind oldBase.find? := by
        cases hp : n.node.parentId with
        | none => rfl
        | some p =>
          by_cases hpp : p ∈ present
          · simp [Option.filter_some, hpp]
          · simpa [Option.filter_some, hpp] using agree n (by simp) p hp hpp
      rw [restoreParents] at h ⊢
      rw [hsame]
      cases hparent : (n.node.parentId.filter (· ∉ present)).bind oldBase.find? with
      | none =>
        rw [hparent] at h
        exact ih h fun m hm p hp hpp => agree m (List.mem_cons_of_mem _ hm) p hp hpp
      | some parent =>
        rw [hparent] at h
        -- The pushed parent is the first of the rest.
        obtain ⟨rest, hrest⟩ := restoreParents_extends h
        have hmore : more = parent :: rest := by simpa using hrest
        subst hmore
        have h' : restoreParents oldBase fuel (queue ++ [parent]) (parent.node.id :: present)
            (pushed ++ [parent]) = .ok ((pushed ++ [parent]) ++ rest) := by simpa using h
        have := ih h' fun m hm p hp hpp => by
          refine agree m ?_ p hp fun hmem => hpp (List.mem_cons_of_mem _ hmem)
          simp only [List.mem_append, List.mem_cons, List.not_mem_nil, or_false] at hm ⊢
          tauto
        simpa using this

end

/-! ## The next base -/

section
variable {payload : Snapshot} {absent : List String} {oldBase : StoredNodes}

def keptEntry (drop : List String) (oldBase : StoredNodes) (n : StoredNode) : StoredNode :=
  if n.node.parentId.any (· ∈ drop) then (oldBase.find? n.node.id).getD n else n

@[simp] theorem keptEntry_id (drop : List String) (oldBase : StoredNodes) (n : StoredNode) :
    (keptEntry drop oldBase n).node.id = n.node.id := by
  unfold keptEntry
  split
  · cases hfind : oldBase.find? n.node.id with
    | none => rfl
    | some old => exact (Table.find?_key hfind :)
  · rfl

def Snapshot.without (payload : Snapshot) (drop : List String) (oldBase : StoredNodes)
    (pushed : List StoredNode) : Snapshot :=
  { payload with
    nodes := (payload.nodes.filter (·.node.id ∉ drop)).map (keptEntry drop oldBase) ++ pushed
    edges := payload.edges.filter fun e => e.fromNodeId ∉ drop ∧ e.toNodeId ∉ drop
    codeLinks := payload.codeLinks.filter fun l => l.nodeId ∉ drop }

structure Askable (payload : Snapshot) (absent : List String) (oldBase : StoredNodes) : Prop where
  ids : (payload.nodes.map (·.node.id)).Nodup
  acyclic : Acyclic (storedParent payload.nodes)
  inside : ∀ a ∈ absent, a ∈ payload.nodes.map (·.node.id)
  fresh : ∀ a ∈ absent, oldBase.find? a = none

/-- What the loops need of it: the absent nodes are on no cycle. -/
structure Cuttable (payload : Snapshot) (absent : List String) (oldBase : StoredNodes) : Prop where
  ids : (payload.nodes.map (·.node.id)).Nodup
  loopless : ∀ a ∈ absent, ¬ Above (storedParent payload.nodes) a a
  inside : ∀ a ∈ absent, a ∈ payload.nodes.map (·.node.id)
  fresh : ∀ a ∈ absent, oldBase.find? a = none

theorem Askable.cuttable (h : Askable payload absent oldBase) : Cuttable payload absent oldBase :=
  ⟨h.ids, fun a _ => h.acyclic a, h.inside, h.fresh⟩

/-- How the next base came about: what was dropped and what came back. -/
structure NextBase (payload : Snapshot) (absent : List String) (oldBase : StoredNodes)
    (drop : List String) (pushed : List StoredNode) : Prop where
  dropping : Dropping payload.nodes absent oldBase drop
  old : ∀ n ∈ pushed, n ∈ oldBase.rows
  new : ∀ n ∈ pushed, n.node.id ∉ payload.nodes.map (·.node.id)
  ids : ((payload.without drop oldBase pushed).nodes.map (·.node.id)).Nodup

theorem keepEntry_ok {drop : List String} (h : Dropping payload.nodes absent oldBase drop) {n : StoredNode}
    (hn : n ∈ payload.nodes.filter (·.node.id ∉ drop)) :
    keepEntry drop oldBase n = .ok (keptEntry drop oldBase n) := by
  obtain ⟨hn, hkeep⟩ := List.mem_filter.mp hn
  unfold keepEntry keptEntry
  split
  · next hany =>
    obtain ⟨p, hp, hpd⟩ := (Option.any_eq_true _ _).mp hany
    rcases h.children n hn p (by simpa using hpd) hp with hd | ⟨old, hold⟩
    · exact absurd hd (by simpa using hkeep)
    · rw [hold]
      rfl
  · rfl

theorem without_ids (drop : List String) (pushed : List StoredNode) :
    (payload.without drop oldBase pushed).nodes.map (·.node.id) =
      (payload.nodes.filter (·.node.id ∉ drop)).map (·.node.id) ++ pushed.map (·.node.id) := by
  simp [Snapshot.without, Function.comp_def]

@[simp] theorem without_nothing (payload : Snapshot) (oldBase : StoredNodes) :
    payload.without [] oldBase [] = payload := by
  have hkept : keptEntry [] oldBase = id := by
    funext n
    simp [keptEntry]
  simp [Snapshot.without, hkept]

/-- The snapshot that is stored, and that the loops of `withoutAbsentAsked` end. -/
theorem withoutAbsentAsked_spec (h : Cuttable payload absent oldBase) : ∃ drop pushed,
    withoutAbsentAsked payload absent oldBase = .ok (payload.without drop oldBase pushed) ∧
      (absent = [] → drop = [] ∧ pushed = []) ∧
      (absent ≠ [] →
        drop = (absent.flatMap (subtreeOf payload.nodes)).filter (fun id => (oldBase.find? id).isNone) ∧
        restoreParents oldBase
          (((payload.nodes.filter (·.node.id ∉ drop)).map (keptEntry drop oldBase)).length + oldBase.rows.length)
          ((payload.nodes.filter (·.node.id ∉ drop)).map (keptEntry drop oldBase))
          (((payload.nodes.filter (·.node.id ∉ drop)).map (keptEntry drop oldBase)).map (·.node.id)) [] =
            .ok pushed ∧
        ∀ n ∈ (payload.without drop oldBase pushed).nodes, ∀ p, n.node.parentId = some p →
          p ∈ (payload.without drop oldBase pushed).nodes.map (·.node.id) ∨ oldBase.find? p = none) ∧
      NextBase payload absent oldBase drop pushed := by
  by_cases hnil : absent = []
  · subst hnil
    refine ⟨[], [], by simp [withoutAbsentAsked], fun _ => ⟨rfl, rfl⟩, fun hne => absurd rfl hne, ?_⟩
    refine ⟨⟨by simp, by simp, by simp, by simp⟩, by simp, by simp, ?_⟩
    rw [without_nothing]
    exact h.ids
  · have hdrop := dropping h.ids h.loopless h.inside h.fresh
    have hdropEq := @dropOf_eq payload.nodes absent oldBase h.ids h.loopless h.inside
    generalize hd : (absent.flatMap (subtreeOf payload.nodes)).filter
      (fun id => (oldBase.find? id).isNone) = drop at hdrop hdropEq
    have hkeep := mapM_ok (l := payload.nodes.filter (·.node.id ∉ drop))
      (f := keepEntry drop oldBase) (g := keptEntry drop oldBase) fun n hn => keepEntry_ok hdrop hn
    have hfuel : ((payload.nodes.filter (·.node.id ∉ drop)).map (keptEntry drop oldBase)).length +
        oldBase.keys.countP (· ∉ ((payload.nodes.filter (·.node.id ∉ drop)).map
          (keptEntry drop oldBase)).map (·.node.id)) ≤
        ((payload.nodes.filter (·.node.id ∉ drop)).map (keptEntry drop oldBase)).length +
          oldBase.rows.length := by
      refine Nat.add_le_add_left (List.countP_le_length.trans ?_) _
      simp [Table.keys]
    obtain ⟨pushed, hpush, hrows, hnodup, hclosed⟩ := @restoreParents_spec oldBase _ _ _ [] hfuel
    rw [List.nil_append] at hpush
    have hne : drop ≠ [] := by
      obtain ⟨a, ha⟩ := List.exists_mem_of_ne_nil absent hnil
      exact List.ne_nil_of_mem (hdrop.absent a ha)
    refine ⟨drop, pushed, ?_, fun h => absurd h hnil, fun _ => ⟨rfl, hpush, ?_⟩,
      hdrop, fun n hn => (hrows n hn).1, ?_, ?_⟩
    · simp only [withoutAbsentAsked, if_neg hnil, hdropEq, bind, Except.bind, if_neg hne, hkeep, hpush]
      rfl
    · intro n hn p hp
      rw [without_ids]
      rcases hclosed n hn p hp with hpres | hmore | hnone
      · refine .inl (List.mem_append_left _ ?_)
        simpa [Function.comp_def] using hpres
      · exact .inl (List.mem_append_right _ hmore)
      · exact .inr hnone
    · intro n hn hmem
      obtain ⟨n', hn', hid⟩ := List.mem_map.mp hmem
      by_cases hd' : n'.node.id ∈ drop
      · have := hdrop.fresh _ hd'
        rw [hid, Table.mem_rows_iff.mp (hrows n hn).1] at this
        cases this
      · refine (hrows n hn).2 (List.mem_map.mpr ⟨keptEntry drop oldBase n', ?_, by simp [hid]⟩)
        exact List.mem_map_of_mem (List.mem_filter.mpr ⟨hn', by simpa using hd'⟩)
    · rw [without_ids]
      refine List.nodup_append.mpr ⟨h.ids.sublist (List.filter_sublist.map _), hnodup, ?_⟩
      intro a ha b hb hab
      obtain ⟨n, hn, rfl⟩ := List.mem_map.mp hb
      refine (hrows n hn).2 ?_
      rw [← hab]
      simpa [Function.comp_def] using ha

section
variable {drop : List String} {pushed : List StoredNode}

theorem NextBase.find_kept (h : NextBase payload absent oldBase drop pushed) {n : StoredNode}
    (hn : n ∈ payload.nodes) (hkeep : n.node.id ∉ drop) :
    (Table.ofList (payload.without drop oldBase pushed).nodes : StoredNodes).find? n.node.id =
      some (keptEntry drop oldBase n) := by
  refine (Table.find?_ofList h.ids).mpr ⟨List.mem_append_left _ ?_, by simp⟩
  exact List.mem_map_of_mem (List.mem_filter.mpr ⟨hn, by simpa using hkeep⟩)

theorem NextBase.find_dropped (h : NextBase payload absent oldBase drop pushed) {id : String}
    (hid : id ∈ drop) :
    (Table.ofList (payload.without drop oldBase pushed).nodes : StoredNodes).find? id = none := by
  rw [Table.find?_eq_none, Table.mem_keys_ofList, without_ids]
  intro hmem
  rcases List.mem_append.mp hmem with hmem | hmem
  · obtain ⟨n, hn, rfl⟩ := List.mem_map.mp hmem
    exact absurd hid (by simpa using (List.mem_filter.mp hn).2)
  · obtain ⟨n, hn, rfl⟩ := List.mem_map.mp hmem
    exact h.new n hn (h.dropping.inside _ hid)

theorem NextBase.find_other (h : NextBase payload absent oldBase drop pushed) {id : String}
    (hid : id ∉ payload.nodes.map (·.node.id)) :
    (Table.ofList (payload.without drop oldBase pushed).nodes : StoredNodes).find? id = none ∨
    (Table.ofList (payload.without drop oldBase pushed).nodes : StoredNodes).find? id =
      oldBase.find? id := by
  cases hfind : (Table.ofList (payload.without drop oldBase pushed).nodes : StoredNodes).find? id with
  | none => exact .inl rfl
  | some n =>
    right
    obtain ⟨hmem, hnid⟩ := (Table.find?_ofList h.ids).mp hfind
    rcases List.mem_append.mp hmem with hmem | hmem
    · obtain ⟨n', hn', rfl⟩ := List.mem_map.mp hmem
      refine absurd ?_ hid
      rw [← hnid, keptEntry_id]
      exact List.mem_map_of_mem (List.mem_filter.mp hn').1
    · rw [← hnid]
      exact (Table.mem_rows_iff.mp (h.old n hmem)).symm

end

/-- Storing the next base a second time, over itself, stores it again. -/
theorem withoutAbsentAsked_again (h : Askable payload absent oldBase) {s : Snapshot}
    (hs : withoutAbsentAsked payload absent oldBase = .ok s) :
    withoutAbsentAsked payload absent (.ofList s.nodes) = .ok s := by
  obtain ⟨drop, pushed, hok, hnil, hsome, hnext⟩ := withoutAbsentAsked_spec h.cuttable
  rw [hok, Except.ok.injEq] at hs
  subst hs
  by_cases habsent : absent = []
  · obtain ⟨rfl, rfl⟩ := hnil habsent
    simp [withoutAbsentAsked, habsent]
  · obtain ⟨hdrop, hpush, hclosed⟩ := hsome habsent
    generalize hold : (Table.ofList (payload.without drop oldBase pushed).nodes : StoredNodes) = oldBase'
    have hask : Askable payload absent oldBase' := by
      refine ⟨h.ids, h.acyclic, h.inside, fun a ha => ?_⟩
      rw [← hold]
      exact hnext.find_dropped (hnext.dropping.absent a ha)
    obtain ⟨drop', pushed', hok', _, hsome', _⟩ := withoutAbsentAsked_spec hask.cuttable
    obtain ⟨hdrop', hpush', _⟩ := hsome' habsent
    have hsameDrop : drop' = drop := by
      rw [hdrop']
      conv_rhs => rw [hdrop]
      refine List.filter_congr fun id hid => ?_
      obtain ⟨a, ha, hida⟩ := List.mem_flatMap.mp hid
      have hin := (subtreeOf_spec h.ids (h.acyclic a) (h.inside a ha)).2.1 id hida
      cases hfind : oldBase.find? id with
      | none =>
        have hidd : id ∈ drop := hdrop ▸ List.mem_filter.mpr ⟨hid, by simp [hfind]⟩
        rw [← hold, hnext.find_dropped hidd]
      | some old =>
        obtain ⟨n, hn, rfl⟩ := List.mem_map.mp hin
        have hkeep : n.node.id ∉ drop := fun hd => by
          have := hnext.dropping.fresh _ hd
          rw [hfind] at this
          cases this
        rw [← hold, hnext.find_kept hn hkeep]
        rfl
    have hsameKept : ∀ n ∈ payload.nodes.filter (·.node.id ∉ drop),
        keptEntry drop oldBase' n = keptEntry drop oldBase n := by
      intro n hn
      obtain ⟨hn, hkeep⟩ := List.mem_filter.mp hn
      have hfind := hnext.find_kept hn (by simpa using hkeep)
      rw [hold] at hfind
      conv_lhs => unfold keptEntry
      rw [hfind]
      unfold keptEntry
      split <;> rfl
    subst hsameDrop
    have hkept := List.map_congr_left hsameKept
    rw [hkept] at hpush'
    have hagree : ∀ n ∈ (payload.without drop' oldBase pushed).nodes, ∀ p, n.node.parentId = some p →
        p ∉ ((payload.nodes.filter (·.node.id ∉ drop')).map (keptEntry drop' oldBase)).map (·.node.id) →
        oldBase'.find? p = oldBase.find? p := by
      intro n hn p hp hpres
      rcases hclosed n hn p hp with hmem | hnone
      · rw [without_ids, List.mem_append] at hmem
        rcases hmem with hmem | hmem
        · exact absurd (by simpa [Function.comp_def] using hmem) hpres
        · obtain ⟨q, hq, rfl⟩ := List.mem_map.mp hmem
          have hq' : oldBase'.find? q.node.id = some q := by
            rw [← hold]
            exact (Table.find?_ofList hnext.ids).mpr ⟨List.mem_append_right _ hq, rfl⟩
          rw [hq', Table.mem_rows_iff.mp (hnext.old q hq)]
      · by_cases hmem : p ∈ payload.nodes.map (·.node.id)
        · obtain ⟨m, hm, rfl⟩ := List.mem_map.mp hmem
          by_cases hd : m.node.id ∈ drop'
          · rw [hnone, ← hold, hnext.find_dropped hd]
          · refine absurd ?_ hpres
            refine List.mem_map.mpr ⟨keptEntry drop' oldBase m, ?_, by simp⟩
            exact List.mem_map_of_mem (List.mem_filter.mpr ⟨hm, by simpa using hd⟩)
        · rw [← hold]
          rcases hnext.find_other hmem with hother | hother
          · rw [hother, hnone]
          · exact hother
    have hsamePush : pushed' = pushed := by
      rw [← List.nil_append pushed] at hpush
      have h1 := restoreParents_congr hpush hagree
      have h2 := restoreParents_mono oldBase'.rows.length h1
      have h3 := restoreParents_mono oldBase.rows.length hpush'
      rw [Nat.add_right_comm, h3] at h2
      simpa using h2
    rw [hok', hsamePush]
    simp only [Snapshot.without, hkept]

end

end Haive

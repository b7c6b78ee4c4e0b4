import Haive.Plan.ApplyPatch

/-!
# What a patch may ask

`Ledger` sums up the statements a transaction has sent and their replies, as far
as its later statements rest on them. `Ledger.Allows` says which statements may
come next: a node goes under a row that was loaded, the descendants of a moved
node are rewritten right before its own row is, a `depends_on` edge comes after a
search that did not find its other direction, an asserted update carries on from
the version the patch began at.

`applyPlanPatch_allowed` goes through the applier once and shows that it only
ever asks what its ledger allows, whatever the replies are. Everything about runs
of patches, alone or side by side, is derived from that and from what a statement
does to the tables; nothing else opens the applier.
-/

namespace Haive

open Lib Patch

structure Ledger where
  /-- The rows that were loaded, as far as the transaction's own writes left them alone. -/
  known : List NodeRow := []
  /-- There was no root, and none was inserted since. -/
  rootless : Bool := false
  /-- A node whose descendants are rewritten while its own row is not, with the new prefix. -/
  pending : Option (Uuid × String) := none
  /-- The version of every node at its first load. -/
  atStart : List (Uuid × Nat) := []
  /-- The version that the last own update left, newest first. -/
  ownWrite : List (Uuid × Nat) := []
  /-- The `depends_on` edges, as loaded and extended. -/
  graph : Option (List (Uuid × Uuid)) := none
  /-- How many nodes were inserted. -/
  inserted : Nat := 0
  /-- The updates made, each with the `expectedVersion` it asserted. -/
  asserted : List (Uuid × Nat) := []

namespace Ledger

/-- The ledger after one more statement. -/
def note (g : Ledger) : (q : Query) → q.Reply → Ledger
  | .loadNode _, some row =>
    { g with
      known := row :: g.known
      atStart := if (g.atStart.lookup row.id).isSome then g.atStart
        else (row.id, row.version) :: g.atStart }
  | .findRoot, none => { g with rootless := true }
  | .dependsOnEdges, rows => { g with graph := some rows }
  | .insertNode _, _ => { g with rootless := false, inserted := g.inserted + 1 }
  | .rewriteDescendants id oldPrefix newPrefix _, _ =>
    { g with known := g.known.filter (!isBelow oldPrefix ·.path), pending := some (id, newPrefix) }
  | .updateNode id set asserted, _ =>
    { g with
      known := g.known.filter (·.id ≠ id)
      pending := none
      ownWrite := (id, set.version) :: g.ownWrite
      asserted := match asserted with
        | none => g.asserted
        | some version => (id, version) :: g.asserted }
  | .deleteNode _, _ => { g with known := [], graph := none }
  | .insertEdge row, _ =>
    if row.kind = .dependsOn then
      { g with graph := g.graph.map (· ++ [(row.fromNodeId, row.toNodeId)]) }
    else g
  | .deleteEdge _, removed => if removed then { g with graph := none } else g
  | _, _ => g

def MoveChecked (g : Ledger) (id p : Uuid) (newPrefix : String) : Prop :=
  ∃ row ∈ g.known, row.id = id ∧ ∃ parent ∈ g.known, parent.id = p ∧
    newPrefix = planNodePath (some parent.path) id ∧ wouldDetachSubtree row.path parent.path = false

def LinkChecked (g : Ledger) (fromId toId : Uuid) (kind : PlanEdgeKind) : Prop :=
  ∃ fromRow ∈ g.known, fromRow.id = fromId ∧ ∃ toRow ∈ g.known, toRow.id = toId ∧ fromId ≠ toId ∧
    (kind = .dependsOn → startsWith fromRow.path toRow.path = false ∧
      ∃ graph, g.graph = some graph ∧ reaches graph fromId (graph.length + 2) [toId] [toId] = some false)

/-- The update carries on from a row that was loaded. -/
def VersionChecked (g : Ledger) (id : Uuid) (version : Nat) (asserted : Option Nat) : Prop :=
  ∃ row ∈ g.known, row.id = id ∧ version = row.version + 1 ∧ ∀ v, asserted = some v →
    g.atStart.lookup id = some v ∧ (g.ownWrite.lookup id).getD v = row.version

/-- The statements that may come next. -/
def Allows (uuid : Nat → Uuid) (g : Ledger) : Query → Prop
  | .insertNode row => g.pending = none ∧ row.id = uuid g.inserted ∧ row.version = 1 ∧
    match row.parentId with
    | none => g.rootless = true ∧ row.path = planNodePath none row.id
    | some p => ∃ parent ∈ g.known, parent.id = p ∧ row.path = planNodePath (some parent.path) row.id
  | .rewriteDescendants id oldPrefix newPrefix _ => g.pending = none ∧
    ∃ row ∈ g.known, row.id = id ∧ row.path = oldPrefix ∧
      ∃ parent ∈ g.known, newPrefix = planNodePath (some parent.path) id ∧
        wouldDetachSubtree oldPrefix parent.path = false
  | .updateNode id set asserted => g.VersionChecked id set.version asserted ∧
    match set.moved with
    | none => g.pending = none
    | some (p, newPrefix) => g.pending = some (id, newPrefix) ∧ g.MoveChecked id p newPrefix
  | .insertEdge row => g.pending = none ∧ g.LinkChecked row.fromNodeId row.toNodeId row.kind
  | _ => g.pending = none

end Ledger

def Query.Answers : (q : Query) → q.Reply → Prop
  | .loadNode id, some row => row.id = id
  | _, _ => True

/-- The ledger as the state of a program logic: every reply is possible. -/
def ledgerLogic (uuid : Nat → Uuid) : Logic Query Query.Reply Ledger where
  may g q := g.Allows uuid q
  reply g q r g' := q.Answers r ∧ g' = g.note q r

/-! ## The applier's variables against the ledger -/

/-- The applier's variables are what its ledger says, and no move is half done. -/
structure Agrees (l : Locals) (g : Ledger) : Prop where
  graph : l.dependsOnGraph = g.graph
  atStart : l.versionAtStart = g.atStart
  ownWrite : l.versionAfterOwnWrite = g.ownWrite
  generated : l.generated = g.inserted
  settled : g.pending = none

/-- `g'` knows what `g` knew. -/
structure Extends (g g' : Ledger) : Prop where
  known : g.known ⊆ g'.known
  atStart : ∀ id v, g.atStart.lookup id = some v → g'.atStart.lookup id = some v
  ownWrite : g'.ownWrite = g.ownWrite
  rootless : g.rootless = true → g'.rootless = true

theorem Extends.refl (g : Ledger) : Extends g g := ⟨fun _ h => h, fun _ _ h => h, rfl, id⟩

def Loaded (g : Ledger) (row : NodeRow) : Prop :=
  row ∈ g.known ∧ ∃ began, g.atStart.lookup row.id = some began

theorem Loaded.extend {g g' : Ledger} {row : NodeRow} (h : Loaded g row) (he : Extends g g') :
    Loaded g' row := by
  obtain ⟨hmem, b, hb⟩ := h
  exact ⟨he.known hmem, b, he.atStart _ _ hb⟩

section Applier

open Script

variable {uuid : Nat → Uuid} {α : Type} {l : Locals} {g : Ledger}

/-- An exception leaves no move half done. -/
def AllowedM (uuid : Nat → Uuid) (p : PatchM α) (post : α → Locals → Ledger → Prop) (l : Locals)
    (g : Ledger) : Prop :=
  Script.wp (ledgerLogic uuid) p post (fun _ l' g' => Agrees l' g') l g

theorem AllowedM.mono {p : PatchM α} {post post' : α → Locals → Ledger → Prop}
    (h : AllowedM uuid p post l g) (hpost : ∀ a l' g', post a l' g' → post' a l' g') :
    AllowedM uuid p post' l g :=
  Script.wp_mono h hpost fun _ _ _ h => h

@[simp] theorem allowedM_pure {a : α} {post : α → Locals → Ledger → Prop} :
    AllowedM uuid (pure a) post l g ↔ post a l g := Iff.rfl

@[simp] theorem allowedM_bind {β : Type} {p : PatchM β} {f : β → PatchM α}
    {post : α → Locals → Ledger → Prop} :
    AllowedM uuid (p >>= f) post l g ↔ AllowedM uuid p (fun b l' g' => AllowedM uuid (f b) post l' g') l g :=
  Script.wp_bind

@[simp] theorem allowedM_throw {e : PatchError} {post : α → Locals → Ledger → Prop} :
    AllowedM uuid (throw e) post l g ↔ Agrees l g := Iff.rfl

@[simp] theorem allowedM_get {post : Locals → Locals → Ledger → Prop} :
    AllowedM uuid get post l g ↔ post l l g := Iff.rfl

@[simp] theorem allowedM_modify {f : Locals → Locals} {post : Unit → Locals → Ledger → Prop} :
    AllowedM uuid (modify f) post l g ↔ post () (f l) g := Iff.rfl

theorem query_allowed {q : Query} {post : q.Reply → Locals → Ledger → Prop} (hmay : g.Allows uuid q)
    (h : ∀ r, q.Answers r → post r l (g.note q r)) : AllowedM uuid (query q) post l g := by
  refine ⟨hmay, ?_⟩
  rintro r _ ⟨hr, rfl⟩
  exact h r hr

/-- The variables that `Agrees` does not mention may change. -/
theorem Agrees.of_eq {l' : Locals} (h : Agrees l g) (hgraph : l'.dependsOnGraph = l.dependsOnGraph)
    (hstart : l'.versionAtStart = l.versionAtStart)
    (hown : l'.versionAfterOwnWrite = l.versionAfterOwnWrite) (hgen : l'.generated = l.generated) :
    Agrees l' g :=
  ⟨hgraph.trans h.graph, hstart.trans h.atStart, hown.trans h.ownWrite, hgen.trans h.generated, h.settled⟩

/-! ## Loading and checking -/

theorem loadNode_allowed (h : Agrees l g) (id : Uuid) :
    AllowedM uuid (loadNode id) (fun row l' g' => Agrees l' g' ∧ Extends g g' ∧
      ∀ r, row = some r → Loaded g' r ∧ r.id = id) l g := by
  simp only [loadNode, allowedM_bind]
  refine query_allowed h.settled fun row hrow => ?_
  cases row with
  | none => exact ⟨h, Extends.refl g, fun r hr => nomatch hr⟩
  | some row =>
    simp only [allowedM_bind, allowedM_modify, allowedM_pure]
    have hagree : Agrees (Locals.noteVersion l row.id row.version) (g.note (.loadNode id) (some row)) := by
      unfold Locals.noteVersion
      rw [h.atStart]
      split
      · next hs => exact ⟨h.graph, by simp [Ledger.note, hs, h.atStart], h.ownWrite, h.generated, h.settled⟩
      · next hs => exact ⟨h.graph, by simp [Ledger.note, hs], h.ownWrite, h.generated, h.settled⟩
    refine ⟨hagree, ⟨List.subset_cons_self _ _, ?_, rfl, fun hr => hr⟩, ?_⟩
    · intro id' v hv
      simp only [Ledger.note]
      split
      · exact hv
      · next hs =>
        rw [List.lookup_cons]
        split
        · next heq =>
          rw [beq_iff_eq] at heq
          subst heq
          rw [hv] at hs
          exact absurd rfl hs
        · exact hv
    · rintro r hr
      cases hr
      refine ⟨⟨List.mem_cons_self, ?_⟩, hrow⟩
      simp only [Ledger.note]
      split
      · next hs => exact Option.isSome_iff_exists.mp hs
      · exact ⟨row.version, by simp⟩

theorem resolveExisting_allowed (h : Agrees l g) (ref : String) (opIndex : Nat) :
    AllowedM uuid (resolveExisting ref opIndex) (fun row l' g' => Agrees l' g' ∧ Extends g g' ∧
      Loaded g' row) l g := by
  simp only [resolveExisting, allowedM_bind, allowedM_get]
  split
  · exact h
  · next text id _ =>
    split
    · exact h
    · rw [allowedM_bind]
      refine (loadNode_allowed h id).mono ?_
      rintro row l' g' ⟨h', he, hrow⟩
      cases row with
      | none => exact h'
      | some row => exact ⟨h', he, (hrow row rfl).1⟩

theorem assertVersion_allowed (h : Agrees l g) {row : NodeRow} (hrow : Loaded g row)
    (expected : Option Nat) (opIndex : Nat) :
    AllowedM uuid (assertVersion row expected opIndex) (fun _ l' g' => l' = l ∧ g' = g ∧
      ∀ v, expected = some v → g.atStart.lookup row.id = some v ∧
        (g.ownWrite.lookup row.id).getD v = row.version) l g := by
  simp only [assertVersion, allowedM_bind, allowedM_get]
  cases expected with
  | none => exact ⟨rfl, rfl, fun v hv => nomatch hv⟩
  | some v =>
    obtain ⟨_, began, hb⟩ := hrow
    have hbegan : Locals.began l row = began := by
      rw [Locals.began, h.atStart, hb]
      rfl
    dsimp only
    rw [hbegan, h.ownWrite]
    split
    · next hok =>
      refine ⟨rfl, rfl, fun w hw => ?_⟩
      cases hw
      exact ⟨hb.trans (congrArg some hok.1), by rw [← hok.1]; exact hok.2⟩
    · exact h

theorem dependsOnAdjacency_allowed (h : Agrees l g) :
    AllowedM uuid dependsOnAdjacency (fun graph l' g' => Agrees l' g' ∧ Extends g g' ∧
      g'.graph = some graph) l g := by
  simp only [dependsOnAdjacency, allowedM_bind, allowedM_get]
  split
  · next graph hg => exact ⟨h, Extends.refl g, by rw [← h.graph, hg]⟩
  · simp only [allowedM_bind, allowedM_modify, allowedM_pure]
    exact query_allowed h.settled fun rows _ =>
      ⟨⟨rfl, h.atStart, h.ownWrite, h.generated, h.settled⟩, ⟨fun _ hr => hr, fun _ _ hv => hv, rfl, id⟩, rfl⟩

theorem unsatisfiableDependency_allowed (h : Agrees l g) (fromRow toRow : NodeRow) :
    AllowedM uuid (unsatisfiableDependency fromRow toRow) (fun refusal l' g' => Agrees l' g' ∧
      Extends g g' ∧ (refusal = none → startsWith fromRow.path toRow.path = false ∧
        ∃ graph, g'.graph = some graph ∧
          reaches graph fromRow.id (graph.length + 2) [toRow.id] [toRow.id] = some false)) l g := by
  simp only [unsatisfiableDependency]
  split
  · exact ⟨h, Extends.refl g, fun hn => nomatch hn⟩
  · next hpath =>
    rw [allowedM_bind]
    refine (dependsOnAdjacency_allowed h).mono ?_
    rintro graph l' g' ⟨h', he, hg⟩
    split
    · exact h'
    · exact ⟨h', he, fun hn => nomatch hn⟩
    · next hr => exact ⟨h', he, fun _ => ⟨by simpa using hpath, graph, hg, hr⟩⟩

theorem nextOrdinal_allowed (h : Agrees l g) (parentId : Option Uuid) :
    AllowedM uuid (nextOrdinal parentId) (fun _ l' g' => l' = l ∧ g' = g) l g := by
  simp only [nextOrdinal, allowedM_bind]
  refine query_allowed h.settled fun highest _ => ?_
  cases highest <;> exact ⟨rfl, rfl⟩

theorem writeCodeLinks_allowed (call : PatchCall) (nodeId : Uuid) (links : List PlanCodeLinkInput)
    (h : Agrees l g) :
    AllowedM uuid (writeCodeLinks call nodeId links) (fun _ l' g' => Agrees l' g') l g := by
  induction links generalizing l with
  | nil => exact h
  | cons link rest ih =>
    simp only [writeCodeLinks, allowedM_bind]
    refine query_allowed h.settled fun existing _ => ?_
    cases existing <;>
    · simp only [allowedM_bind, allowedM_modify]
      exact query_allowed h.settled fun _ _ => ih (h.of_eq rfl rfl rfl rfl)

/-! ## Writing -/

theorem resolveParent_allowed (h : Agrees l g) (parentRef : Option String) (opIndex : Nat) :
    AllowedM uuid (resolveParent parentRef opIndex) (fun parent l' g' => Agrees l' g' ∧
      match parent with
      | none => g'.rootless = true
      | some row => Loaded g' row) l g := by
  cases parentRef with
  | some ref =>
    simp only [resolveParent, allowedM_bind, allowedM_pure]
    exact (resolveExisting_allowed h ref opIndex).mono fun _ _ _ hr => ⟨hr.1, hr.2.2⟩
  | none =>
    simp only [resolveParent, allowedM_bind]
    refine query_allowed h.settled fun root _ => ?_
    cases root with
    | some _ => exact h
    | none => exact ⟨⟨h.graph, h.atStart, h.ownWrite, h.generated, h.settled⟩, rfl⟩

theorem newRow_allowed {call : PatchCall} (op : UpsertOp) (title : String) {parent : Option NodeRow}
    (ordinal : Nat) (h : Agrees l g)
    (hparent : match parent with
      | none => g.rootless = true
      | some row => Loaded g row) :
    g.Allows call.randomUUID
      (.insertNode (newRow call op title (call.randomUUID l.generated) parent ordinal)) := by
  refine ⟨h.settled, congrArg call.randomUUID h.generated, rfl, ?_⟩
  cases parent with
  | none => exact ⟨hparent, rfl⟩
  | some row => exact ⟨row, hparent.1, rfl, rfl⟩

theorem createNode_allowed (call : PatchCall) (op : UpsertOp) (opIndex : Nat) (h : Agrees l g) :
    AllowedM call.randomUUID (createNode call op opIndex) (fun _ l' g' => Agrees l' g') l g := by
  unfold createNode
  dsimp only
  split
  · exact h
  · split
    · exact h
    · next parentRef _ =>
      rw [allowedM_bind]
      refine (resolveParent_allowed h parentRef opIndex).mono ?_
      rintro parent l' g' ⟨h', hparent⟩
      -- The insert and what follows it, for any ordinal.
      have insert : ∀ ordinal, AllowedM call.randomUUID (do
          query (.insertNode
            (newRow call op (op.title.getD "") (call.randomUUID l'.generated) parent ordinal))
          Script.modify fun l =>
            { l with
              refs := (op.nodeRef, call.randomUUID l'.generated) :: l.refs
              result := { l.result with created := l.result.created ++ [call.randomUUID l'.generated] } }
          writeCodeLinks call (call.randomUUID l'.generated) op.codeLinks)
          (fun _ l' g' => Agrees l' g') { l' with generated := l'.generated + 1 } g' := by
        intro ordinal
        simp only [allowedM_bind, allowedM_modify]
        refine query_allowed (newRow_allowed op _ ordinal h' hparent) fun _ _ => ?_
        refine writeCodeLinks_allowed call _ _ ⟨h'.graph, h'.atStart, h'.ownWrite, ?_, h'.settled⟩
        exact congrArg (· + 1) h'.generated
      simp only [allowedM_bind, allowedM_get, allowedM_modify]
      cases op.ordinal with
      | some n => exact insert n
      | none =>
        simp only [nextOrdinal, allowedM_bind]
        -- The counter is ahead of the ledger here, but `max(ordinal)` touches neither.
        refine query_allowed h'.settled fun highest _ => ?_
        cases highest with
        | none => exact insert 0
        | some n => exact insert (n + 1)

/-- What the update of a node's own row may rest on. -/
def Placed (g : Ledger) (row : NodeRow) (set : NodeSet) : Prop :=
  row ∈ g.known ∧
    match set.moved with
    | none => g.pending = none
    | some (p, newPrefix) => g.pending = some (row.id, newPrefix) ∧ g.MoveChecked row.id p newPrefix

theorem moveNode_allowed (call : PatchCall) {row newParent : NodeRow} (set : NodeSet) (opIndex : Nat)
    (h : Agrees l g) (hrow : row ∈ g.known) (hparent : newParent ∈ g.known) :
    AllowedM uuid (moveNode call row newParent set opIndex) (fun set' l' g' => l' = l ∧
      g'.graph = g.graph ∧ g'.atStart = g.atStart ∧ g'.ownWrite = g.ownWrite ∧
        g'.inserted = g.inserted ∧ set'.version = set.version ∧ Placed g' row set') l g := by
  unfold moveNode
  split
  · exact h
  · next hdetach =>
    have hkept : ∀ r ∈ g.known, r = row ∨ r = newParent →
        r ∈ g.known.filter (!isBelow row.path ·.path) := by
      intro r hr hcases
      refine List.mem_filter.mpr ⟨hr, ?_⟩
      rcases hcases with rfl | rfl
      · simp [isBelow]
      · simp only [wouldDetachSubtree, Bool.not_eq_true] at hdetach
        simp [isBelow, hdetach]
    -- The rewrite, for any ordinal.
    have rewrite : ∀ ordinal, AllowedM uuid (do
        query (.rewriteDescendants row.id row.path (planNodePath (some newParent.path) row.id) call.now)
        pure { set with
          ordinal := some ordinal
          moved := some (newParent.id, planNodePath (some newParent.path) row.id) })
        (fun set' l' g' => l' = l ∧ g'.graph = g.graph ∧ g'.atStart = g.atStart ∧
          g'.ownWrite = g.ownWrite ∧ g'.inserted = g.inserted ∧ set'.version = set.version ∧
          Placed g' row set') l g := by
      intro ordinal
      rw [allowedM_bind]
      have hallow : g.Allows uuid (.rewriteDescendants row.id row.path
          (planNodePath (some newParent.path) row.id) call.now) :=
        ⟨h.settled, row, hrow, rfl, rfl, newParent, hparent, rfl, by simpa using hdetach⟩
      refine query_allowed hallow fun _ _ => ⟨rfl, rfl, rfl, rfl, rfl, rfl, ?_⟩
      exact ⟨hkept row hrow (.inl rfl), rfl, row, hkept row hrow (.inl rfl), rfl, newParent,
        hkept newParent hparent (.inr rfl), rfl, rfl, by simpa using hdetach⟩
    dsimp only
    cases hord : set.ordinal with
    | some n => exact rewrite n
    | none =>
      rw [allowedM_bind]
      refine (nextOrdinal_allowed h _).mono ?_
      rintro n l' g' ⟨rfl, rfl⟩
      exact rewrite n

theorem placeNode_allowed (call : PatchCall) (op : UpsertOp) {row : NodeRow} (set : NodeSet)
    (opIndex : Nat) (h : Agrees l g) (hrow : row ∈ g.known) (hset : set.moved = none) :
    AllowedM uuid (placeNode call op row set opIndex) (fun set' l' g' =>
      l'.dependsOnGraph = g'.graph ∧ l'.versionAtStart = g'.atStart ∧
        l'.versionAfterOwnWrite = g'.ownWrite ∧ l'.generated = g'.inserted ∧
        (∀ id v, g.atStart.lookup id = some v → g'.atStart.lookup id = some v) ∧
        g'.ownWrite = g.ownWrite ∧ set'.version = set.version ∧ Placed g' row set') l g := by
  have hstay : ∀ {l' : Locals} {g' : Ledger}, Agrees l' g' → Extends g g' →
      l'.dependsOnGraph = g'.graph ∧ l'.versionAtStart = g'.atStart ∧
        l'.versionAfterOwnWrite = g'.ownWrite ∧ l'.generated = g'.inserted ∧
        (∀ id v, g.atStart.lookup id = some v → g'.atStart.lookup id = some v) ∧
        g'.ownWrite = g.ownWrite ∧ set.version = set.version ∧ Placed g' row set := by
    intro l' g' h' he
    refine ⟨h'.graph, h'.atStart, h'.ownWrite, h'.generated, he.atStart, he.ownWrite, rfl,
      he.known hrow, ?_⟩
    rw [hset]
    exact h'.settled
  unfold placeNode
  split
  · exact hstay h (Extends.refl g)
  · split
    · exact hstay h (Extends.refl g)
    · exact h
  · next ref _ =>
    rw [allowedM_bind]
    refine (resolveExisting_allowed h ref opIndex).mono ?_
    rintro newParent l' g' ⟨h', he, hparent⟩
    split
    · exact hstay h' he
    · refine (moveNode_allowed call set opIndex h' (he.known hrow) hparent.1).mono ?_
      rintro set' l'' g'' ⟨rfl, hgraph, hstart, hown, hins, hver, hplaced⟩
      exact ⟨h'.graph.trans hgraph.symm, h'.atStart.trans hstart.symm, h'.ownWrite.trans hown.symm,
        h'.generated.trans hins.symm, fun id v hv => by rw [hstart]; exact he.atStart id v hv,
        hown.trans he.ownWrite, hver, hplaced⟩

theorem updateNode_allowed (call : PatchCall) (op : UpsertOp) {row : NodeRow} (opIndex : Nat)
    (h : Agrees l g) (hrow : Loaded g row) :
    AllowedM uuid (updateNode call op row opIndex) (fun _ l' g' => Agrees l' g') l g := by
  unfold updateNode
  split
  · exact h
  · rw [allowedM_bind]
    refine (assertVersion_allowed h hrow op.expectedVersion opIndex).mono ?_
    rintro _ _ _ ⟨rfl, rfl, hasserted⟩
    rw [allowedM_bind]
    refine (placeNode_allowed call op (fieldSet call op row) opIndex h hrow.1 rfl).mono ?_
    rintro set l' g' ⟨hgraph, hstart, hown, hgen, hkeep, hsame, hver, hplaced⟩
    simp only [allowedM_bind, allowedM_modify]
    refine query_allowed ⟨⟨row, hplaced.1, rfl, hver, ?_⟩, hplaced.2⟩ fun _ _ => ?_
    · intro v hv
      obtain ⟨hbegan, hlast⟩ := hasserted v hv
      exact ⟨hkeep _ _ hbegan, by rw [hsame]; exact hlast⟩
    · refine writeCodeLinks_allowed call _ _ ⟨hgraph, hstart, ?_, hgen, rfl⟩
      show (row.id, row.version + 1) :: l'.versionAfterOwnWrite = (row.id, set.version) :: g'.ownWrite
      rw [hown, hver]
      rfl

theorem applyUpsert_allowed (call : PatchCall) (op : UpsertOp) (opIndex : Nat) (h : Agrees l g) :
    AllowedM call.randomUUID (applyUpsert call op opIndex) (fun _ l' g' => Agrees l' g') l g := by
  simp only [applyUpsert, allowedM_bind, allowedM_get]
  split
  · exact createNode_allowed call op opIndex h
  · next text id _ =>
    by_cases hdead : Locals.isDead l text = true
    · simp only [hdead, if_true, allowedM_bind, allowedM_pure]
      exact h
    · simp only [hdead, if_false, allowedM_bind, Bool.false_eq_true]
      refine (loadNode_allowed h id).mono ?_
      rintro row l' g' ⟨h', _, hrow⟩
      cases row with
      | none => exact h'
      | some row => exact updateNode_allowed call op opIndex h' (hrow row rfl).1

theorem applyDelete_allowed (call : PatchCall) (nodeRef : String) (expectedVersion : Option Nat)
    (opIndex : Nat) (h : Agrees l g) :
    AllowedM uuid (applyDelete call nodeRef expectedVersion opIndex) (fun _ l' g' => Agrees l' g') l g := by
  unfold applyDelete
  rw [allowedM_bind]
  refine (resolveExisting_allowed h nodeRef opIndex).mono ?_
  rintro row l' g' ⟨h', _, hrow⟩
  split
  · exact h'
  · rw [allowedM_bind]
    refine (assertVersion_allowed h' hrow expectedVersion opIndex).mono ?_
    rintro _ _ _ ⟨rfl, rfl, _⟩
    rw [allowedM_bind]
    refine query_allowed h'.settled fun doomed _ => ?_
    split
    · exact h'
    · simp only [allowedM_bind, allowedM_modify]
      exact query_allowed h'.settled fun _ _ => ⟨rfl, h'.atStart, h'.ownWrite, h'.generated, h'.settled⟩

theorem applyLink_allowed (call : PatchCall) (fromRef toRef : String) (kind : PlanEdgeKind)
    (note : Option String) (opIndex : Nat) (h : Agrees l g) :
    AllowedM uuid (applyLink call fromRef toRef kind note opIndex) (fun _ l' g' => Agrees l' g') l g := by
  unfold applyLink
  rw [allowedM_bind]
  refine (resolveExisting_allowed h fromRef opIndex).mono ?_
  rintro fromRow l₁ g₁ ⟨h₁, _, hfrom⟩
  rw [allowedM_bind]
  refine (resolveExisting_allowed h₁ toRef opIndex).mono ?_
  rintro toRow l₂ g₂ ⟨h₂, he₂, hto⟩
  have hfrom₂ := hfrom.extend he₂
  split
  · exact h₂
  · next hne =>
    split
    · next hkind =>
      subst hkind
      rw [allowedM_bind]
      refine (unsatisfiableDependency_allowed h₂ fromRow toRow).mono ?_
      rintro refusal l₃ g₃ ⟨h₃, he₃, hok⟩
      cases refusal with
      | some refusal =>
        dsimp only
        split
        · exact h₃.of_eq rfl rfl rfl rfl
        · exact h₃
      | none =>
        simp only [noteDependency, insertLink, allowedM_bind, allowedM_modify]
        have hchecked : g₃.LinkChecked fromRow.id toRow.id .dependsOn :=
          ⟨fromRow, he₃.known hfrom₂.1, rfl, toRow, he₃.known hto.1, rfl, hne, fun _ => hok rfl⟩
        refine query_allowed ⟨h₃.settled, hchecked⟩ fun _ _ =>
          ⟨?_, h₃.atStart, h₃.ownWrite, h₃.generated, h₃.settled⟩
        show l₃.dependsOnGraph.map (· ++ [(fromRow.id, toRow.id)]) =
          g₃.graph.map (· ++ [(fromRow.id, toRow.id)])
        rw [h₃.graph]
    · next hkind =>
      simp only [insertLink, allowedM_bind, allowedM_modify]
      refine query_allowed ⟨h₂.settled, fromRow, hfrom₂.1, rfl, toRow, hto.1, rfl, hne,
        fun hd => absurd hd hkind⟩ fun _ _ => ?_
      simp only [Ledger.note, hkind, if_false]
      exact h₂.of_eq rfl rfl rfl rfl

theorem applyUnlink_allowed (fromRef toRef : String) (kind : PlanEdgeKind) (opIndex : Nat)
    (h : Agrees l g) :
    AllowedM uuid (applyUnlink fromRef toRef kind opIndex) (fun _ l' g' => Agrees l' g') l g := by
  unfold applyUnlink
  rw [allowedM_bind]
  refine (resolveExisting_allowed h fromRef opIndex).mono ?_
  rintro fromRow l₁ g₁ ⟨h₁, _, _⟩
  rw [allowedM_bind]
  refine (resolveExisting_allowed h₁ toRef opIndex).mono ?_
  rintro toRow l₂ g₂ ⟨h₂, _, _⟩
  simp only [allowedM_bind, allowedM_modify]
  refine query_allowed h₂.settled fun removed _ => ?_
  cases removed
  · exact h₂.of_eq rfl rfl rfl rfl
  · exact ⟨rfl, h₂.atStart, h₂.ownWrite, h₂.generated, h₂.settled⟩

/-! ## The whole patch -/

theorem applyOp_allowed (call : PatchCall) (op : PlanPatchOp) (opIndex : Nat) (h : Agrees l g) :
    AllowedM call.randomUUID (applyOp call op opIndex) (fun _ l' g' => Agrees l' g') l g := by
  cases op with
  | upsert op => exact applyUpsert_allowed call op opIndex h
  | delete nodeRef expectedVersion => exact applyDelete_allowed call nodeRef expectedVersion opIndex h
  | link fromRef toRef kind note => exact applyLink_allowed call fromRef toRef kind note opIndex h
  | unlink fromRef toRef kind => exact applyUnlink_allowed fromRef toRef kind opIndex h

theorem applyOpOrDrop_allowed (call : PatchCall) (op : PlanPatchOp) (opIndex : Nat) (h : Agrees l g) :
    AllowedM call.randomUUID (applyOpOrDrop call op opIndex) (fun _ l' g' => Agrees l' g') l g := by
  unfold applyOpOrDrop AllowedM
  rw [Script.wp_catching]
  refine Script.wp_mono (applyOp_allowed call op opIndex h) (fun _ _ _ h => h) ?_
  intro e l' g' h'
  split
  · split
    · exact h'.of_eq rfl rfl rfl rfl
    · exact h'
  · exact h'

theorem applyAll_allowed (call : PatchCall) (ops : List PlanPatchOp) (opIndex : Nat) (h : Agrees l g) :
    AllowedM call.randomUUID (applyAll call opIndex ops) (fun _ l' g' => Agrees l' g') l g := by
  induction ops generalizing l g opIndex with
  | nil => exact h
  | cons op rest ih =>
    rw [applyAll, allowedM_bind]
    exact (applyOpOrDrop_allowed call op opIndex h).mono fun _ _ _ h' => ih _ h'

theorem mayInsertPlanRows_allowed (ops : List PlanPatchOp) (h : Agrees l g) :
    AllowedM uuid (mayInsertPlanRows ops) (fun _ l' g' => Agrees l' g') l g := by
  simp only [mayInsertPlanRows, allowedM_bind, allowedM_get]
  split
  · exact h
  · rw [allowedM_bind]
    exact query_allowed h.settled fun _ _ => h

theorem dropUnresolvableOps_allowed (ops : List PlanPatchOp) (h : Agrees l g) :
    AllowedM uuid (dropUnresolvableOps ops) (fun _ l' g' => Agrees l' g') l g := by
  simp only [dropUnresolvableOps, allowedM_bind, allowedM_get]
  split
  · rw [allowedM_bind, allowedM_pure]
    split
    · exact h
    · exact h.of_eq rfl rfl rfl rfl
  · rw [allowedM_bind]
    refine query_allowed h.settled fun _ _ => ?_
    split
    · exact h
    · exact h.of_eq rfl rfl rfl rfl

theorem applyOps_allowed (call : PatchCall) (h : Agrees l g) :
    AllowedM call.randomUUID (applyOps call) (fun _ _ g' => g'.pending = none) l g := by
  simp only [applyOps, allowedM_bind]
  refine (mayInsertPlanRows_allowed _ h).mono ?_
  rintro inserts l₁ g₁ h₁
  -- What follows the repository lock.
  have rest : AllowedM call.randomUUID (do
      let ops ← if call.opts.onUnresolvableRef = .drop then dropUnresolvableOps (normalizeOpRefs call.ops)
        else pure (normalizeOpRefs call.ops)
      applyAll call 0 ops
      let l ← Script.get
      if changed l.result then query .markPlanMirrorDirty else pure ()
      pure { l.result with refs := l.refs }) (fun _ _ g' => g'.pending = none) l₁ g₁ := by
    have ops : ∀ {l g}, Agrees l g → ∀ ops, AllowedM call.randomUUID (do
        applyAll call 0 ops
        let l ← Script.get
        if changed l.result then query .markPlanMirrorDirty else pure ()
        pure { l.result with refs := l.refs }) (fun _ _ g' => g'.pending = none) l g := by
      intro l g h ops
      simp only [allowedM_bind, allowedM_get]
      refine (applyAll_allowed call ops 0 h).mono ?_
      rintro _ l' g' h'
      split
      · rw [allowedM_bind]
        exact query_allowed h'.settled fun _ _ => h'.settled
      · exact h'.settled
    dsimp only
    split
    · rw [allowedM_bind]
      exact (dropUnresolvableOps_allowed _ h₁).mono fun _ _ _ h' => ops h' _
    · exact ops h₁ _
  cases inserts with
  | false => exact rest
  | true =>
    simp only [lockRepositoryForPlanWrite, if_true, allowedM_bind]
    refine query_allowed h₁.settled fun found _ => ?_
    cases found with
    | false => exact h₁
    | true => exact rest

end Applier

/-- A patch only asks what its ledger allows, and ends with no move half done. -/
theorem applyPlanPatch_allowed (call : PatchCall) :
    (applyPlanPatch call).wp (ledgerLogic call.randomUUID) (fun _ g => g.pending = none) {} := by
  have hstart : Agrees (seedSelf call) {} := by
    unfold seedSelf
    split <;> exact ⟨rfl, rfl, rfl, rfl, rfl⟩
  refine Prog.wp_mono ?_ (applyOps_allowed call hstart)
  rintro ⟨r, l⟩ g h
  cases r with
  | ok _ => exact h
  | error _ => exact Agrees.settled h

end Haive

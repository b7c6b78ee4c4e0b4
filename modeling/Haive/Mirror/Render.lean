import Haive.Mirror.Payload
import Haive.Plan.Store
import Haive.Lib.Number

/-!
# The plan as the mirror holds it

`renderPlanMirror` of `worker/src/plan/mirror.ts`: the rows in display order, the
ordinals of every sibling run numbered from 0, and the result put through
`planMirrorV2Schema`, which trims some texts and throws on what the file may not
hold.

`mem_render_nodes` says what a rendered node is without going through the sort:
its ordinal is how many of its siblings are displayed before it (`siblingsBefore`).
-/

namespace Haive

open Lib

/-! ## `planMirrorV2Schema` -/

/-- `z.string().uuid()`: a version and a variant digit where they belong, or nil or max. -/
def isSchemaUuid (s : String) : Bool :=
  let cs := (lowercase s).toList
  isUuidText cs &&
    ((cs[14]?.any (fun c => '1' ≤ c && c ≤ '8') && cs[19]?.any (· ∈ ['8', '9', 'a', 'b'])) ||
      cs.all (fun c => c = '0' || c = '-') || cs.all (fun c => c = 'f' || c = '-'))

def MirrorNode.trimmed (n : MirrorNode) : MirrorNode := { n with title := trim n.title }

/-- The checks of `planMirrorNodeBaseSchema`, on the trimmed node. -/
def MirrorNode.allowed (n : MirrorNode) : Bool :=
  isSchemaUuid n.id && n.parentId.all isSchemaUuid && n.ordinal ≤ 100000 &&
    1 ≤ utf16Length n.title && utf16Length n.title ≤ 512 && n.body.all (utf16Length · ≤ 200000)

/-- `planMirrorEdgeSchema`. -/
def MirrorEdge.allowed (e : MirrorEdge) : Bool :=
  isSchemaUuid e.fromNodeId && isSchemaUuid e.toNodeId && e.note.all (utf16Length · ≤ 2000)

/-- The `refine` of `portableRepoPathSchema`. -/
def isPortablePath (p : List Char) : Bool :=
  p.head? ≠ some '/' && p.head? ≠ some '\\' &&
    !(match p with
      | drive :: ':' :: sep :: _ => drive.isAlpha && (sep = '\\' || sep = '/')
      | _ => false) &&
    ['.', '.'] ∉ p.splitOnP (fun c => c = '\\' || c = '/') && '\x00' ∉ p

/-- The transformations of the code links in `planMirrorV2Schema`. -/
def MirrorCodeLink.trimmed (l : MirrorCodeLink) : MirrorCodeLink :=
  { l with repoPath := trim l.repoPath, symbol := l.symbol.map trim }

def MirrorCodeLink.allowed (l : MirrorCodeLink) : Bool :=
  isSchemaUuid l.nodeId && 1 ≤ utf16Length l.repoPath && utf16Length l.repoPath ≤ 1024 &&
    isPortablePath l.repoPath.toList && l.symbol.all (utf16Length · ≤ 512) &&
    l.evidence.all (utf16Length · ≤ 2000) && l.derivedAtCommit.all (utf16Length · ≤ 40)

def PlanMirror.trimmed (m : PlanMirror) : PlanMirror where
  nodes := m.nodes.map (·.trimmed)
  edges := m.edges
  codeLinks := m.codeLinks.map (·.trimmed)

def PlanMirror.allowed (m : PlanMirror) : Bool :=
  1 ≤ m.nodes.length && m.nodes.length ≤ 20000 && m.edges.length ≤ 100000 &&
    m.codeLinks.length ≤ 100000 && m.nodes.all (·.allowed) && m.edges.all (·.allowed) &&
    m.codeLinks.all (·.allowed)

/-- `planMirrorV2Schema.parse`; `none` where it throws. -/
def parseMirror (m : PlanMirror) : Option PlanMirror := if m.trimmed.allowed then some m.trimmed else none

/-! ## Rendering -/

/-- `order by ordinal, created_at, id`. -/
def PlanNodeRow.displayKey (r : PlanNodeRow) : ℕ ×ₗ ℕ ×ₗ String :=
  toLex (r.ordinal, toLex (r.createdAt, r.id.text))

def loadPlanNodes (nodes : Table PlanNodeRow (·.id)) : List PlanNodeRow :=
  nodes.rows.insertionSort fun a b => a.displayKey ≤ b.displayKey

def PlanNodeRow.portable (r : PlanNodeRow) (ordinal : Nat) : MirrorNode where
  id := r.id.text
  parentId := r.parentId.map (·.text)
  ordinal := ordinal
  title := r.title
  kind := r.kind
  body := r.body
  status := r.status
  taskable := r.taskable

def PlanNodeEdgeRow.portable (e : PlanNodeEdgeRow) : MirrorEdge :=
  ⟨e.fromNodeId.text, e.toNodeId.text, e.kind, e.note⟩

def PlanNodeCodeLinkRow.portable (l : PlanNodeCodeLinkRow) : MirrorCodeLink :=
  ⟨l.nodeId.text, l.repoPath, l.symbol, l.evidence, l.derivedAtCommit, l.stale, l.role⟩

/-- The nodes with the ordinals of each sibling run compacted. -/
def portableNodes (nodes : List PlanNodeRow) : List MirrorNode :=
  (number (·.parentId) (fun _ => 0) nodes).map fun (r, ordinal) => r.portable ordinal

inductive RenderFailure
  /-- `planMirrorV2Schema.parse` throws. -/
  | schema
deriving DecidableEq, Repr

/-- The object that `renderPlanMirror` has parsed. -/
def portableMirror (nodes : Table PlanNodeRow (·.id)) (edges : Table PlanNodeEdgeRow PlanNodeEdgeRow.key)
    (links : Table PlanNodeCodeLinkRow PlanNodeCodeLinkRow.key) : PlanMirror where
  nodes := portableNodes (loadPlanNodes nodes)
  edges := edges.rows.map (·.portable)
  codeLinks := links.rows.map (·.portable)

/-- `renderPlanMirror` on the rows that its three selects return; `none` is a plan without nodes. -/
def renderRows (nodes : Table PlanNodeRow (·.id)) (edges : Table PlanNodeEdgeRow PlanNodeEdgeRow.key)
    (links : Table PlanNodeCodeLinkRow PlanNodeCodeLinkRow.key) : Except RenderFailure (Option PlanMirror) :=
  if loadPlanNodes nodes = [] then .ok none
  else
    match parseMirror (portableMirror nodes edges links) with
    | none => .error .schema
    | some mirror => .ok (some mirror)

def renderPlanMirror (db : PlanDb) : Except RenderFailure (Option PlanMirror) :=
  renderRows db.nodes db.edges db.links

theorem renderPlanMirror_eq_ok {db : PlanDb} {m : PlanMirror} : renderPlanMirror db = .ok (some m) ↔
    db.nodes.rows ≠ [] ∧ m = (portableMirror db.nodes db.edges db.links).trimmed ∧ m.allowed = true := by
  have hempty : loadPlanNodes db.nodes = [] ↔ db.nodes.rows = [] := by
    rw [← List.length_eq_zero_iff, ← List.length_eq_zero_iff, loadPlanNodes, List.length_insertionSort]
  rw [renderPlanMirror, renderRows, parseMirror]
  by_cases hrows : db.nodes.rows = []
  · simp [hempty.mpr hrows, hrows]
  · rw [if_neg (hempty.not.mpr hrows)]
    constructor
    · intro h
      split at h
      · cases h
      · next heq =>
        rw [Option.ite_none_right_eq_some, Option.some.injEq] at heq
        cases h
        exact ⟨hrows, heq.2.symm, heq.2 ▸ heq.1⟩
    · rintro ⟨_, rfl, hallowed⟩
      rw [if_pos hallowed]

/-! ## Rendered nodes -/

def siblingsBefore (nodes : Table PlanNodeRow (·.id)) (r : PlanNodeRow) : Nat :=
  nodes.rows.countP fun s => decide (s.parentId = r.parentId) && s.displayKey < r.displayKey

def mirrorNode (nodes : Table PlanNodeRow (·.id)) (r : PlanNodeRow) : MirrorNode :=
  (r.portable (siblingsBefore nodes r)).trimmed

variable {nodes : Table PlanNodeRow (·.id)}

theorem perm_loadPlanNodes (nodes : Table PlanNodeRow (·.id)) : (loadPlanNodes nodes).Perm nodes.rows :=
  List.perm_insertionSort _ _

theorem displayKey_injective {r s : PlanNodeRow} (h : r.displayKey = s.displayKey) : r.id = s.id := by
  simp only [PlanNodeRow.displayKey, EmbeddingLike.apply_eq_iff_eq, Prod.mk.injEq] at h
  exact Uuid.ext_text h.2.2

theorem loadPlanNodes_pairwise (nodes : Table PlanNodeRow (·.id)) :
    (loadPlanNodes nodes).Pairwise fun a b => a.displayKey < b.displayKey := by
  have hsorted : (loadPlanNodes nodes).Pairwise fun a b => a.displayKey ≤ b.displayKey := by
    have : Std.Total fun a b : PlanNodeRow => a.displayKey ≤ b.displayKey := ⟨fun a b => le_total _ _⟩
    have : IsTrans PlanNodeRow fun a b => a.displayKey ≤ b.displayKey := ⟨fun a b c => le_trans⟩
    exact List.pairwise_insertionSort _ _
  have hnodup : (loadPlanNodes nodes).Pairwise fun a b => a.id ≠ b.id :=
    List.pairwise_map.mp (((perm_loadPlanNodes nodes).map _).nodup_iff.mpr nodes.nodup)
  refine (hsorted.and hnodup).imp fun {a b} h => lt_of_le_of_ne h.1 fun heq => ?_
  exact h.2 (displayKey_injective heq)

theorem mem_portableNodes {n : MirrorNode} : n ∈ portableNodes (loadPlanNodes nodes) ↔
    ∃ r ∈ nodes.rows, n = r.portable (siblingsBefore nodes r) := by
  have hcount : ∀ r, (loadPlanNodes nodes).countP (fun s =>
      decide (s.parentId = r.parentId) && s.displayKey < r.displayKey) = siblingsBefore nodes r :=
    fun r => (perm_loadPlanNodes nodes).countP_eq _
  have hnumber : ∀ r k, (r, k) ∈ number (·.parentId) (fun _ => 0) (loadPlanNodes nodes) ↔
      r ∈ nodes.rows ∧ k = siblingsBefore nodes r := by
    intro r k
    rw [mem_number_of_pairwise (r := fun a b => a.displayKey < b.displayKey) (fun _ => lt_irrefl _)
      (fun _ _ h => h.asymm) (loadPlanNodes_pairwise nodes), hcount, (perm_loadPlanNodes nodes).mem_iff]
  rw [portableNodes, List.mem_map]
  constructor
  · rintro ⟨⟨r, k⟩, hrk, rfl⟩
    obtain ⟨hr, rfl⟩ := (hnumber r k).mp hrk
    exact ⟨r, hr, rfl⟩
  · rintro ⟨r, hr, rfl⟩
    exact ⟨(r, siblingsBefore nodes r), (hnumber _ _).mpr ⟨hr, rfl⟩, rfl⟩

theorem portableNodes_ids (rows : List PlanNodeRow) :
    (portableNodes rows).map (·.id) = rows.map (·.id.text) := by
  rw [portableNodes, List.map_map]
  conv_rhs => rw [← map_fst_number (g := (·.parentId)) (fun _ => 0) rows, List.map_map]
  rfl

theorem length_portableNodes (rows : List PlanNodeRow) : (portableNodes rows).length = rows.length := by
  simpa using congrArg List.length (portableNodes_ids rows)

/-! ## The side that the merge reads -/

section Rendered

variable {db : PlanDb} {m : PlanMirror}

theorem mem_rendered (h : renderPlanMirror db = .ok (some m)) {n : MirrorNode} :
    n ∈ m.nodes ↔ ∃ r ∈ db.nodes.rows, n = mirrorNode db.nodes r := by
  obtain ⟨_, rfl, _⟩ := renderPlanMirror_eq_ok.mp h
  simp only [PlanMirror.trimmed, portableMirror, List.mem_map, mem_portableNodes]
  constructor
  · rintro ⟨_, ⟨r, hr, rfl⟩, rfl⟩
    exact ⟨r, hr, rfl⟩
  · rintro ⟨r, hr, rfl⟩
    exact ⟨_, ⟨r, hr, rfl⟩, rfl⟩

theorem rendered_nodup (h : renderPlanMirror db = .ok (some m)) : (m.nodes.map (·.id)).Nodup := by
  obtain ⟨_, rfl, _⟩ := renderPlanMirror_eq_ok.mp h
  have hids : ((portableMirror db.nodes db.edges db.links).trimmed.nodes).map (·.id) =
      (loadPlanNodes db.nodes).map (·.id.text) := by
    rw [← portableNodes_ids, PlanMirror.trimmed, List.map_map]
    rfl
  rw [hids, ((perm_loadPlanNodes db.nodes).map _).nodup_iff]
  refine List.Nodup.map_on (fun r hr s hs heq => ?_) (List.Nodup.of_map _ db.nodes.nodup)
  exact Table.key_injective hr hs (Uuid.ext_text heq)

theorem rendered_find (h : renderPlanMirror db = .ok (some m)) {s : String} {n : MirrorNode} :
    (Table.ofList m.nodes : Table MirrorNode (·.id)).find? s = some n ↔
      ∃ r ∈ db.nodes.rows, r.id.text = s ∧ n = mirrorNode db.nodes r := by
  rw [Table.find?_ofList (rendered_nodup h), mem_rendered h]
  constructor
  · rintro ⟨⟨r, hr, rfl⟩, rfl⟩
    exact ⟨r, hr, rfl, rfl⟩
  · rintro ⟨r, hr, rfl, rfl⟩
    exact ⟨⟨r, hr, rfl⟩, rfl⟩

end Rendered

end Haive

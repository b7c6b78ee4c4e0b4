import Haive.Lib.CodeUnits
import Haive.Lib.SortBy
import Haive.Plan.Numbering

/-!
# The plan as markdown

`renderPlanMarkdownFrom` of `shared/src/plan/render.ts`: the nodes below the roots, each as a heading
with its number, a line of attributes, its links and its body. The recursion of `emit` is over `fuel`,
the number of nodes, which a chain of children does not exceed.

`render_congr` says what the document depends on: the sibling runs, the fields of a node that it shows
and the edges, in any order.
-/

namespace Haive

open Lib

/-- `LINE_WHITESPACE`. -/
def isLineWhitespace (c : Char) : Bool :=
  let n := c.toNat
  isSpace c || n ≤ 0x1f || (0x7f ≤ n && n ≤ 0x9f) || n = 0x2028 || n = 0x2029

/-- Each run of white space is one blank; `inRun` says that the run has its blank. -/
def collapseRuns (inRun : Bool) : List Char → List Char
  | [] => []
  | c :: cs =>
    if isLineWhitespace c then if inRun then collapseRuns true cs else ' ' :: collapseRuns true cs
    else c :: collapseRuns false cs

def collapseToLine (s : String) : String := trim (String.ofList (collapseRuns false s.toList))

def planNodeDepth (path : String) : Nat := ((path.toList.splitOn '/').filter (· ≠ [])).length - 1

def edgeLabel : PlanEdgeKind → String
  | .dependsOn => "depends on"
  | .affects => "affects"
  | .implements => "implements"

structure RenderPlanOptions where
  maxDepth : Option Nat := none
  titlesOnly : Bool := false
  focusNodeId : Option Uuid := none
  withVersions : Bool := false

def PlanNodeEdgeRow.sortKey (e : PlanNodeEdgeRow) : List ℕ ×ₗ List ℕ ×ₗ List ℕ :=
  toLex (codeUnits e.fromNodeId.text, toLex (codeUnits e.toNodeId.text, codeUnits e.kind.wire))

/-- What `renderPlanMarkdownFrom` makes of the nodes and the edges before it emits a node. -/
structure RenderContext where
  children : Option Uuid → List PlanNodeRow
  titleById : Uuid → Option String
  outgoing : Uuid → List PlanNodeEdgeRow
  sequenceById : Uuid → Option Nat
  /-- The numbers of `blockedById`. -/
  blockers : Uuid → List Nat

def renderContext (nodes : PlanNodes) (edges : List PlanNodeEdgeRow) : RenderContext :=
  let derived := computePlanSequence nodes edges []
  { children := orderedChildren nodes
    titleById := fun id => (nodes.find? id).map (·.title)
    outgoing := fun id => (sortBy PlanNodeEdgeRow.sortKey edges).filter (·.fromNodeId = id)
    sequenceById := derived.sequenceById
    blockers := fun id => ((derived.blockedById id).getD []).map (·.sequence) }

def headingLine (ctx : RenderContext) (opts : RenderPlanOptions) (node : PlanNodeRow) : String :=
  String.ofList (List.replicate (min (planNodeDepth node.path + 1) 6) '#') ++ " " ++
    (match ctx.sequenceById node.id with
      | none => ""
      | some seq => toString seq ++ ". ") ++
    collapseToLine node.title ++ if opts.focusNodeId = some node.id then "  <- you are here" else ""

def attributes (ctx : RenderContext) (opts : RenderPlanOptions) (node : PlanNodeRow) : List String :=
  let depth := planNodeDepth node.path
  let blockers := ctx.blockers node.id
  ["node:" ++ node.id.text] ++
    (if opts.withVersions then ["version " ++ toString node.version] else []) ++
    [node.kind.wire, node.status.wire] ++
    (if node.taskable then ["taskable"] else []) ++
    (if blockers = [] then [] else ["blocked by " ++ ", ".intercalate (blockers.map fun seq => "#" ++ toString seq)]) ++
    (if 6 ≤ depth then ["depth " ++ toString depth] else [])

/-- The line of a link; `none` where its target has no title. -/
def linkLine (ctx : RenderContext) (link : PlanNodeEdgeRow) : Option String :=
  match ctx.titleById link.toNodeId with
  | none => none
  | some target =>
    if target = "" then none
    else
      let note := match link.note with
        | some note => if note = "" then "" else " — " ++ collapseToLine note
        | none => ""
      some ("- " ++ edgeLabel link.kind ++ ": " ++ collapseToLine target ++ " (`node:" ++ link.toNodeId.text ++ "`)" ++ note)

def bodyLines (opts : RenderPlanOptions) (node : PlanNodeRow) : List String :=
  match node.body with
  | some body => if !opts.titlesOnly && trim body ≠ "" then ["", trim body] else []
  | none => []

def nodeLines (ctx : RenderContext) (opts : RenderPlanOptions) (node : PlanNodeRow) : List String :=
  [headingLine ctx opts node, "`" ++ "` · `".intercalate (attributes ctx opts node) ++ "`"] ++
    (ctx.outgoing node.id).filterMap (linkLine ctx) ++ bodyLines opts node ++ [""]

/-- The lines of a node and of what is below it, pushed on `lines`; `none` where the fuel does not last. -/
def emit (ctx : RenderContext) (opts : RenderPlanOptions) : Nat → List String → PlanNodeRow → Option (List String)
  | 0, _, _ => none
  | fuel + 1, lines, node =>
    if opts.maxDepth.any (· < planNodeDepth node.path) then some lines
    else (ctx.children (some node.id)).foldlM (emit ctx opts fuel) (lines ++ nodeLines ctx opts node)

def renderPlanMarkdownFrom (nodes : PlanNodes) (edges : List PlanNodeEdgeRow) (opts : RenderPlanOptions) :
    Option String :=
  if nodes.rows = [] then some "_This repository has no plan yet._\n"
  else
    let ctx := renderContext nodes edges
    ((ctx.children none).foldlM (emit ctx opts nodes.rows.length) []).map ("\n".intercalate ·)

/-! ## What the document depends on -/

/-- A node without the fields that the document does not show. -/
def PlanNodeRow.shown (r : PlanNodeRow) : PlanNodeRow :=
  { r with
    ordinal := 0
    doneAt := none
    version := 0
    lastReviewedAt := none
    createdBy := .user
    sourceTaskId := none
    createdAt := 0
    updatedAt := 0 }

/-- The same sibling runs, of nodes that look the same. -/
structure SameLook (nodes nodes' : PlanNodes) : Prop where
  children : ∀ p, (orderedChildren nodes' p).map (·.shown) = (orderedChildren nodes p).map (·.shown)
  rows : (nodes'.rows.map (·.shown)).Perm (nodes.rows.map (·.shown))

theorem foldl_of_shown {σ : Type} {f f' : σ → PlanNodeRow → σ} (hf : ∀ s r r', r'.shown = r.shown → f' s r' = f s r)
    {rows rows' : List PlanNodeRow} (h : rows'.map (·.shown) = rows.map (·.shown)) (s : σ) :
    rows'.foldl f' s = rows.foldl f s := by
  induction rows generalizing rows' s with
  | nil => rw [List.map_eq_nil_iff.mp h]; rfl
  | cons r rows ih =>
    obtain ⟨r', rest, rfl, hr, hrest⟩ := List.map_eq_cons_iff.mp h
    rw [List.foldl_cons, List.foldl_cons, hf s r r' hr]
    exact ih hrest _

theorem foldlM_of_shown {σ : Type} {f f' : σ → PlanNodeRow → Option σ}
    (hf : ∀ s r r', r'.shown = r.shown → f' s r' = f s r) {rows rows' : List PlanNodeRow}
    (h : rows'.map (·.shown) = rows.map (·.shown)) (s : σ) : rows'.foldlM f' s = rows.foldlM f s := by
  induction rows generalizing rows' s with
  | nil => rw [List.map_eq_nil_iff.mp h]; rfl
  | cons r rows ih =>
    obtain ⟨r', rest, rfl, hr, hrest⟩ := List.map_eq_cons_iff.mp h
    rw [List.foldlM_cons, List.foldlM_cons, hf s r r' hr]
    exact bind_congr fun s => ih hrest s

theorem PlanNodeRow.of_shown {r s : PlanNodeRow} (h : r.shown = s.shown) : r.id = s.id ∧ r.path = s.path ∧
    r.title = s.title ∧ r.kind = s.kind ∧ r.body = s.body ∧ r.status = s.status ∧ r.taskable = s.taskable := by
  simp only [shown, PlanNodeRow.mk.injEq] at h
  obtain ⟨hid, -, hpath, -, htitle, hkind, hbody, hstatus, -, htaskable, -⟩ := h
  exact ⟨hid, hpath, htitle, hkind, hbody, hstatus, htaskable⟩

theorem PlanNodeRow.id_of_shown {r s : PlanNodeRow} (h : r.shown = s.shown) : r.id = s.id := (of_shown h).1

theorem PlanNodeRow.status_of_shown {r s : PlanNodeRow} (h : r.shown = s.shown) : r.status = s.status :=
  (of_shown h).2.2.2.2.2.1

theorem wire_injective : Function.Injective PlanEdgeKind.wire := by
  intro a b h
  cases a <;> cases b <;> first | rfl | exact absurd h (by decide)

/-- Edges with distinct keys have distinct keys in the order of `byEdge`. -/
theorem planEdgeKey_nodup {edges : List PlanNodeEdgeRow} (h : (edges.map PlanNodeEdgeRow.key).Nodup) :
    (edges.map PlanNodeEdgeRow.sortKey).Nodup :=
  nodup_map_of_key h fun a b heq => by
    simp only [PlanNodeEdgeRow.sortKey, EmbeddingLike.apply_eq_iff_eq, Prod.mk.injEq] at heq
    simp only [PlanNodeEdgeRow.key, Prod.mk.injEq]
    exact ⟨Uuid.ext_text (codeUnits_injective heq.1), Uuid.ext_text (codeUnits_injective heq.2.1),
      wire_injective (codeUnits_injective heq.2.2)⟩

section Same

variable {nodes nodes' : PlanNodes} {edges edges' : List PlanNodeEdgeRow} {w : Walk}

theorem leave_congr (drift : Uuid → Nat) {node node' : PlanNodeRow} {ks ks' : List PlanNodeRow}
    (hnode : node'.shown = node.shown) (hks : ks'.map (·.shown) = ks.map (·.shown)) (w : Walk) :
    w.leave drift node' ks' = w.leave drift node ks := by
  have hid := PlanNodeRow.id_of_shown hnode
  have hstatus := PlanNodeRow.status_of_shown hnode
  have hlen : ks'.length = ks.length := by simpa using congrArg List.length hks
  have hgather : ∀ seq stats g, ks'.foldl (gather seq stats) g = ks.foldl (gather seq stats) g := fun seq stats g =>
    foldl_of_shown (fun g a a' ha => by
      rw [gather, gather, PlanNodeRow.id_of_shown ha, PlanNodeRow.status_of_shown ha]) hks g
  rw [Walk.leave, Walk.leave]
  simp only [hid, hstatus, hlen, hgather]

theorem visit_congr (drift : Uuid → Nat) {ch ch' : Uuid → List PlanNodeRow}
    (hch : ∀ id, (ch' id).map (·.shown) = (ch id).map (·.shown)) (fuel : Nat) {node node' : PlanNodeRow}
    (hnode : node'.shown = node.shown) (w : Walk) : visit ch' drift fuel node' w = visit ch drift fuel node w := by
  induction fuel generalizing node node' w with
  | zero => rfl
  | succ fuel ih =>
    have hstep : ∀ (w : Walk) (a a' : PlanNodeRow), a'.shown = a.shown →
        (if w.visited.contains a'.id then w else visit ch' drift fuel a' (w.enter a'.id)) =
          if w.visited.contains a.id then w else visit ch drift fuel a (w.enter a.id) := fun w a a' ha => by
      rw [PlanNodeRow.id_of_shown ha, ih ha]
    rw [visit, visit, PlanNodeRow.id_of_shown hnode, foldl_of_shown hstep (hch node.id) w]
    exact leave_congr drift hnode (hch node.id) _

theorem SameLook.length_eq (h : SameLook nodes nodes') : nodes'.rows.length = nodes.rows.length := by
  simpa using h.rows.length_eq

theorem SameLook.keys_perm (h : SameLook nodes nodes') : nodes'.keys.Perm nodes.keys := by
  have hids := h.rows.map fun r : PlanNodeRow => r.id
  rw [List.map_map, List.map_map] at hids
  exact hids

theorem SameLook.find? (h : SameLook nodes nodes') (id : Uuid) :
    (nodes'.find? id).map (·.shown) = (nodes.find? id).map (·.shown) :=
  Table.find?_map_of_perm PlanNodeRow.id_of_shown h.rows id

theorem SameLook.walkFrom_eq (h : SameLook nodes nodes') (drift : Uuid → Nat) {root root' : PlanNodeRow}
    (hroot : root'.shown = root.shown) (w : Walk) : walkFrom nodes' drift w root' = walkFrom nodes drift w root := by
  rw [walkFrom, walkFrom, h.length_eq, PlanNodeRow.id_of_shown hroot]
  exact visit_congr drift (fun id => h.children (some id)) _ hroot _

theorem roots_visited (hforest : PlanForest nodes) (drift : Uuid → Nat) {id : Uuid} (hid : id ∈ nodes.keys) :
    id ∈ ((orderedChildren nodes none).foldl (walkFrom nodes drift)
      ⟨0, [], fun _ => none, fun _ => none, fun _ => none⟩).visited := by
  have hgrounded : Grounded nodes := fun r hr => hforest.rooted hr
  obtain ⟨order, hroots⟩ := walk_roots hgrounded (List.nil_append _).symm (rests_nil nodes drift)
  obtain ⟨r, hr, rfl⟩ := Table.mem_keys.mp hid
  obtain ⟨root, hroot, hunder⟩ := exists_root hforest hr
  exact (hroots.visited r.id).mpr ((hroots.mem r.id).mpr ⟨hid, root.id, ⟨root, hroot, rfl⟩, hunder⟩)

/-- The second loop has nothing to do where the first has been everywhere. -/
theorem foldl_walked (drift : Uuid → Nat) {rows : List PlanNodeRow} (h : ∀ r ∈ rows, r.id ∈ w.visited) :
    rows.foldl (fun w node => if w.visited.contains node.id then w else walkFrom nodes drift w node) w = w := by
  induction rows with
  | nil => rfl
  | cons r rows ih =>
    rw [List.foldl_cons, if_pos (List.contains_iff_mem.mpr (h r List.mem_cons_self))]
    exact ih fun r' hr' => h r' (List.mem_cons_of_mem _ hr')

theorem SameLook.walkAll_eq (hforest : PlanForest nodes) (h : SameLook nodes nodes') (drift : Uuid → Nat) :
    walkAll nodes' drift = walkAll nodes drift := by
  have hroots : (orderedChildren nodes' none).foldl (walkFrom nodes' drift)
        ⟨0, [], fun _ => none, fun _ => none, fun _ => none⟩ =
      (orderedChildren nodes none).foldl (walkFrom nodes drift)
        ⟨0, [], fun _ => none, fun _ => none, fun _ => none⟩ :=
    foldl_of_shown (fun w _ _ ha => h.walkFrom_eq drift ha w) (h.children none) _
  have hvisited := fun id hid => @roots_visited nodes hforest drift id hid
  rw [walkAll, walkAll, hroots, foldl_walked drift fun r hr => hvisited r.id (Table.mem_keys_of_mem hr),
    foldl_walked drift fun r hr => hvisited r.id (h.keys_perm.mem_iff.mp (Table.mem_keys_of_mem hr))]

/-! ## Waits -/

theorem SameLook.rolledOf_eq (h : SameLook nodes nodes') (w : Walk) (id : Uuid) :
    rolledOf nodes' w id = rolledOf nodes w id := by
  have hfind := congrArg (Option.map (·.status)) (h.find? id)
  rw [Option.map_map, Option.map_map] at hfind
  have hstatus : (nodes'.find? id).map (·.status) = (nodes.find? id).map (·.status) := hfind
  rw [rolledOf, rolledOf, hstatus]

theorem indexDependsOn_perm (h : SameLook nodes nodes') (hedges : edges'.Perm edges) (id : Uuid) :
    (indexDependsOn nodes' edges' id).Perm (indexDependsOn nodes edges id) := by
  refine (List.perm_ext_iff_of_nodup (nodup_eraseDups _) (nodup_eraseDups _)).mpr fun t => ?_
  change t ∈ indexDependsOn nodes' edges' id ↔ t ∈ indexDependsOn nodes edges id
  rw [mem_indexDependsOn, mem_indexDependsOn]
  simp only [hedges.mem_iff, h.keys_perm.mem_iff]

/-- Two lists that are sorted by a number and have the same numbers have them in one order. -/
theorem map_sequence_mergeSort {bs bs' : List PlanBlocker} (h : (bs'.map (·.sequence)).Perm (bs.map (·.sequence))) :
    (bs'.mergeSort fun a b => a.sequence ≤ b.sequence).map (·.sequence) =
      (bs.mergeSort fun a b => a.sequence ≤ b.sequence).map (·.sequence) := by
  have hsorted : ∀ bs : List PlanBlocker,
      ((bs.mergeSort fun a b => a.sequence ≤ b.sequence).map (·.sequence)).Pairwise (· ≤ ·) := fun bs => by
    refine List.pairwise_map.mpr ((List.pairwise_mergeSort (fun a b c hab hbc => ?_) (fun a b => ?_) bs).imp fun h => ?_)
    · simp only [decide_eq_true_eq] at hab hbc ⊢
      exact hab.trans hbc
    · simp only [Bool.or_eq_true, decide_eq_true_eq]
      exact le_total _ _
    · simpa using h
  have hback := fun bs : List PlanBlocker =>
    (List.mergeSort_perm bs fun a b => decide (a.sequence ≤ b.sequence)).map (·.sequence)
  exact ((hback bs').trans (h.trans (hback bs).symm)).eq_of_pairwise (fun _ _ _ _ hab hba => le_antisymm hab hba) (hsorted bs') (hsorted bs)

/-- Without touched tasks nothing drifts. -/
theorem driftOwn_nil (nodes : PlanNodes) : driftOwn nodes [] = fun _ => 0 := by
  funext id
  rw [driftOwn]
  cases nodes.find? id <;> rfl

theorem blockers_eq (hforest : PlanForest nodes) (h : SameLook nodes nodes') (hedges : edges'.Perm edges) (id : Uuid) :
    (renderContext nodes' edges').blockers id = (renderContext nodes edges).blockers id := by
  have hkeys : nodes'.keys.contains id = nodes.keys.contains id := by
    rw [Bool.eq_iff_iff, List.contains_iff_mem, List.contains_iff_mem, h.keys_perm.mem_iff]
  have hwalk : walkAll nodes' (driftOwn nodes' []) = walkAll nodes (driftOwn nodes []) := by
    rw [driftOwn_nil, driftOwn_nil, h.walkAll_eq hforest]
  have hsequence : ((blockersOf nodes' (indexDependsOn nodes' edges') (walkAll nodes (driftOwn nodes [])) id).map
      (·.sequence)).Perm ((blockersOf nodes (indexDependsOn nodes edges) (walkAll nodes (driftOwn nodes [])) id).map
        (·.sequence)) := by
    rw [blockersOf, blockersOf, List.map_map, List.map_map]
    simp only [h.rolledOf_eq]
    exact ((indexDependsOn_perm h hedges id).filter _).map _
  have hempty := congrArg (· = 0) hsequence.length_eq
  simp only [List.length_map, List.length_eq_zero_iff, eq_iff_iff, ← List.isEmpty_iff] at hempty
  simp only [renderContext, computePlanSequence, hwalk, hkeys, Bool.eq_iff_iff.mpr hempty]
  split
  · rfl
  · exact map_sequence_mergeSort hsequence

theorem SameLook.titleById_eq (h : SameLook nodes nodes') (id : Uuid) :
    (nodes'.find? id).map (·.title) = (nodes.find? id).map (·.title) := by
  have hfind := congrArg (Option.map (·.title)) (h.find? id)
  rwa [Option.map_map, Option.map_map] at hfind

/-- The maps that the document is written from, but for the children. -/
theorem SameLook.renderContext_eq (hforest : PlanForest nodes) (h : SameLook nodes nodes')
    (hnodup : (edges.map PlanNodeEdgeRow.key).Nodup) (hedges : edges'.Perm edges) :
    renderContext nodes' edges' = { renderContext nodes edges with children := orderedChildren nodes' } := by
  have hblockers : (renderContext nodes' edges').blockers = (renderContext nodes edges).blockers :=
    funext fun id => blockers_eq hforest h hedges id
  have hwalk : (computePlanSequence nodes' edges' []).sequenceById = (computePlanSequence nodes edges []).sequenceById := by
    have hdrift : driftOwn nodes' [] = driftOwn nodes [] := by rw [driftOwn_nil, driftOwn_nil]
    simp only [computePlanSequence, hdrift, h.walkAll_eq hforest]
  have hsorted := sortBy_eq_of_perm (planEdgeKey_nodup hnodup) hedges.symm
  have htitles : (fun id => (nodes'.find? id).map (·.title)) = fun id => (nodes.find? id).map (·.title) :=
    funext fun id => h.titleById_eq id
  have hparts : ∀ a b : RenderContext, a.titleById = b.titleById → a.outgoing = b.outgoing →
      a.sequenceById = b.sequenceById → a.blockers = b.blockers → a = { b with children := a.children } := by
    rintro ⟨⟩ ⟨⟩ rfl rfl rfl rfl
    rfl
  exact hparts _ _ htitles (by simp only [renderContext, hsorted]) hwalk hblockers

/-! ## Lines -/

theorem nodeLines_congr (ctx : RenderContext) (children : Option Uuid → List PlanNodeRow) {opts : RenderPlanOptions}
    (hopts : opts.withVersions = false) {node node' : PlanNodeRow} (hnode : node'.shown = node.shown) :
    nodeLines { ctx with children } opts node' = nodeLines ctx opts node := by
  obtain ⟨hid, hpath, htitle, hkind, hbody, hstatus, htaskable⟩ := PlanNodeRow.of_shown hnode
  have hlink : linkLine { ctx with children } = linkLine ctx := rfl
  have hheading : headingLine { ctx with children } opts node' = headingLine ctx opts node := by
    simp only [headingLine, hid, hpath, htitle]
  have hattributes : attributes { ctx with children } opts node' = attributes ctx opts node := by
    simp only [attributes, hid, hpath, hkind, hstatus, htaskable, hopts]
    rfl
  have hbodyLines : bodyLines opts node' = bodyLines opts node := by rw [bodyLines, bodyLines, hbody]
  rw [nodeLines, nodeLines, hheading, hattributes, hlink, hbodyLines, hid]

theorem emit_congr (ctx : RenderContext) {children : Option Uuid → List PlanNodeRow}
    (hchildren : ∀ p, (children p).map (·.shown) = (ctx.children p).map (·.shown)) {opts : RenderPlanOptions}
    (hopts : opts.withVersions = false) (fuel : Nat) (lines : List String) {node node' : PlanNodeRow}
    (hnode : node'.shown = node.shown) :
    emit { ctx with children } opts fuel lines node' = emit ctx opts fuel lines node := by
  induction fuel generalizing lines node node' with
  | zero => rfl
  | succ fuel ih =>
    obtain ⟨hid, hpath, -⟩ := PlanNodeRow.of_shown hnode
    rw [emit, emit, hpath, nodeLines_congr ctx children hopts hnode, hid]
    exact if_congr Iff.rfl rfl (foldlM_of_shown (fun lines _ _ hr => ih lines hr) (hchildren (some node.id)) _)

/-- The document depends on the sibling runs, on what a node shows and on the edges in any order. -/
theorem render_congr (hforest : PlanForest nodes) (h : SameLook nodes nodes')
    (hnodup : (edges.map PlanNodeEdgeRow.key).Nodup) (hedges : edges'.Perm edges) {opts : RenderPlanOptions}
    (hopts : opts.withVersions = false) :
    renderPlanMarkdownFrom nodes' edges' opts = renderPlanMarkdownFrom nodes edges opts := by
  have hnil : nodes'.rows = [] ↔ nodes.rows = [] := by
    rw [← List.length_eq_zero_iff, h.length_eq, List.length_eq_zero_iff]
  rw [renderPlanMarkdownFrom, renderPlanMarkdownFrom]
  refine if_congr hnil rfl ?_
  have hlines := foldlM_of_shown (fun lines _ _ ha =>
    emit_congr (renderContext nodes edges) (fun p => h.children p) hopts nodes.rows.length lines ha) (h.children none) []
  simp only [h.renderContext_eq hforest hnodup hedges, h.length_eq]
  exact congrArg (Option.map _) hlines

/-! ## The document is there -/

/-- The nodes above it are so many that the fuel lasts. -/
structure FuelLasts (nodes : PlanNodes) (fuel : Nat) (path : List Uuid) (node : PlanNodeRow) : Prop where
  mem : node ∈ nodes.rows
  nodup : path.Nodup
  above : ∀ a ∈ path, a ∈ nodes.keys ∧ Above (parentFrom nodes) node.id a
  enough : nodes.rows.length ≤ path.length + fuel

theorem foldlM_isSome {α σ : Type} {f : σ → α → Option σ} {l : List α} (h : ∀ s, ∀ a ∈ l, (f s a).isSome) (s : σ) :
    (l.foldlM f s).isSome := by
  induction l generalizing s with
  | nil => rfl
  | cons a l ih =>
    obtain ⟨s', hs'⟩ := Option.isSome_iff_exists.mp (h s a List.mem_cons_self)
    rw [List.foldlM_cons, hs']
    exact ih (fun s b hb => h s b (List.mem_cons_of_mem _ hb)) s'

theorem emit_isSome (hforest : PlanForest nodes) (opts : RenderPlanOptions) (fuel : Nat) (lines : List String)
    {path : List Uuid} {node : PlanNodeRow} (h : FuelLasts nodes fuel path node) :
    (emit (renderContext nodes edges) opts fuel lines node).isSome := by
  have hout : node.id ∉ path := fun hmem => (hforest.rooted h.mem).not_above_self (h.above _ hmem).2
  have hnodup : (node.id :: path).Nodup := List.nodup_cons.mpr ⟨hout, h.nodup⟩
  induction fuel generalizing lines path node with
  | zero =>
    -- the node and those above it would be more than there are
    have hsub : (node.id :: path).Subperm nodes.keys := List.subperm_of_subset hnodup fun a ha => by
      rcases List.mem_cons.mp ha with rfl | ha
      · exact Table.mem_keys_of_mem h.mem
      · exact (h.above a ha).1
    have hle := hsub.length_le
    have henough := h.enough
    rw [Table.keys, List.length_map, List.length_cons] at hle
    omega
  | succ fuel ih =>
    rw [emit]
    split
    · rfl
    · refine foldlM_isSome (fun lines child hchild => ?_) _
      obtain ⟨hmem, hparent⟩ := mem_orderedChildren.mp hchild
      have hup : Above (parentFrom nodes) child.id node.id := above_head ((parentFrom_of_mem hmem).trans hparent)
      have hnext : FuelLasts nodes fuel (node.id :: path) child := by
        refine ⟨hmem, hnodup, fun a ha => ?_, ?_⟩
        · rcases List.mem_cons.mp ha with rfl | ha
          · exact ⟨Table.mem_keys_of_mem h.mem, hup⟩
          · exact ⟨(h.above a ha).1, (h.above a ha).2.cons ((parentFrom_of_mem hmem).trans hparent)⟩
        · have henough := h.enough
          rw [List.length_cons]
          omega
      have hchildOut : child.id ∉ node.id :: path := fun hin =>
        (hforest.rooted hmem).not_above_self (hnext.above _ hin).2
      exact ih lines hnext hchildOut (List.nodup_cons.mpr ⟨hchildOut, hnext.nodup⟩)

theorem render_isSome (hforest : PlanForest nodes) (edges : List PlanNodeEdgeRow) (opts : RenderPlanOptions) :
    ∃ text, renderPlanMarkdownFrom nodes edges opts = some text := by
  rw [renderPlanMarkdownFrom]
  split
  · exact ⟨_, rfl⟩
  · have hstart : ∀ root ∈ orderedChildren nodes none, FuelLasts nodes nodes.rows.length [] root := fun root hroot =>
      ⟨(mem_orderedChildren.mp hroot).1, List.nodup_nil, fun a ha => absurd ha List.not_mem_nil, Nat.le_add_left _ _⟩
    have hsome : (((renderContext nodes edges).children none).foldlM
        (emit (renderContext nodes edges) opts nodes.rows.length) []).isSome :=
      foldlM_isSome (fun lines root hroot => emit_isSome hforest opts _ lines (hstart root hroot)) _
    obtain ⟨all, hall⟩ := Option.isSome_iff_exists.mp hsome
    exact ⟨_, congrArg (Option.map _) hall⟩

end Same

end Haive

import Haive.Mirror.Deletions
import Haive.Mirror.Serialize
import Haive.Plan.Ready

/-!
# The markdown of a mirror

`renderPlanMarkdownFromMirror` of `shared/src/plan/render.ts`: the document again, from the nodes of
`plan.json`. It has no paths to read, so it climbs to the root from each node, and it sorts by the
compacted ordinals. `renderPlanMarkdownFromMirror_eq` is that this gives the document that the rows of
the database give.
-/

namespace Haive

open Lib

/-! ## The document of a payload -/

/-- The uuid that is spelled as the database spells it. -/
def Uuid.ofText? (s : String) : Option Uuid := if h : isUuidText s.toList = true then some ⟨s, h⟩ else none

def mirrorRow (n : MirrorNode) : Option PlanNodeRow :=
  (Uuid.ofText? n.id).bind fun id =>
    (match n.parentId with
      | none => some none
      | some p => (Uuid.ofText? p).map some).map fun parentId =>
      { id, parentId
        path := ""
        ordinal := n.ordinal
        title := n.title
        kind := n.kind
        body := n.body
        status := n.status
        doneAt := none
        taskable := n.taskable
        version := 0
        lastReviewedAt := none
        createdBy := .user
        sourceTaskId := none
        createdAt := 0
        updatedAt := 0 }

def mirrorEdgeRow (e : MirrorEdge) : Option PlanNodeEdgeRow :=
  (Uuid.ofText? e.fromNodeId).bind fun fromNodeId =>
    (Uuid.ofText? e.toNodeId).map fun toNodeId => ⟨fromNodeId, toNodeId, e.kind, e.note⟩

/-- The loop of `pathOf`: `parent` is pushed while it is a node that the chain does not have. The chain
is its `seen`. -/
def climbParents (byId : PlanNodes) : Nat → List Uuid → Option Uuid → List Uuid
  | fuel + 1, chain, some parent =>
    if parent ∈ byId.keys ∧ parent ∉ chain then climbParents byId fuel (chain ++ [parent]) (parentFrom byId parent)
    else chain
  | _, chain, _ => chain

/-- `pathOf` of `renderPlanMarkdownFromMirror`. -/
def mirrorPath (byId : PlanNodes) (id : Uuid) : String :=
  ((climbParents byId byId.rows.length [id] (parentFrom byId id)).foldr
    (fun nodeId path => some (planNodePath path nodeId)) none).getD ""

/-- `nodes`; `none` where an id is no uuid of the database, or stands twice. -/
def mirrorPlanNodes (nodes : List MirrorNode) : Option PlanNodes :=
  ((sortBy MirrorNode.siblingKey nodes).mapM mirrorRow).bind fun rows =>
    if h : (rows.map (·.id)).Nodup then
      let byId : PlanNodes := ⟨rows, h⟩
      some ⟨rows.map fun r => { r with path := mirrorPath byId r.id }, by rwa [List.map_map]⟩
    else none

def renderPlanMarkdownFromMirror (payload : PlanMirrorPayload) : Option String :=
  (mirrorPlanNodes payload.nodes).bind fun nodes =>
    ((sortBy MirrorEdge.sortKey payload.edges).mapM mirrorEdgeRow).bind fun edges =>
      renderPlanMarkdownFrom nodes edges {}

/-- The rows as `loadPlanNodes` returns them. -/
def displayed (nodes : PlanNodes) : PlanNodes :=
  ⟨loadPlanNodes nodes, ((perm_loadPlanNodes nodes).map _).nodup_iff.mpr nodes.nodup⟩

/-! ## Ids -/

theorem ofText?_text (id : Uuid) : Uuid.ofText? id.text = some id := dif_pos id.canonical

def bareRow (nodes : PlanNodes) (r : PlanNodeRow) : PlanNodeRow :=
  { r with
    path := ""
    ordinal := siblingsBefore nodes r
    title := trim r.title
    doneAt := none
    version := 0
    lastReviewedAt := none
    createdBy := .user
    sourceTaskId := none
    createdAt := 0
    updatedAt := 0 }

theorem mirrorRow_mirrorNode (nodes : PlanNodes) (r : PlanNodeRow) :
    mirrorRow (mirrorNode nodes r) = some (bareRow nodes r) := by
  have hid : Uuid.ofText? (mirrorNode nodes r).id = some r.id := ofText?_text r.id
  rw [mirrorRow, hid, Option.bind_some]
  cases hp : r.parentId with
  | none =>
    have hparent : (mirrorNode nodes r).parentId = none := congrArg (Option.map Uuid.text) hp
    rw [hparent, Option.map_some, bareRow, hp]
    rfl
  | some p =>
    have hparent : (mirrorNode nodes r).parentId = some p.text := congrArg (Option.map Uuid.text) hp
    simp only [hparent, ofText?_text, Option.map_some, bareRow, hp]
    rfl

theorem mirrorEdgeRow_portable (e : PlanNodeEdgeRow) : mirrorEdgeRow e.portable = some e := by
  rw [mirrorEdgeRow, PlanNodeEdgeRow.portable]
  simp only [ofText?_text, Option.bind_some, Option.map_some]

theorem mapM_map_some {α β γ : Type} {f : β → Option γ} {g : α → β} {k : α → γ} (h : ∀ a, f (g a) = some (k a))
    (l : List α) : (l.map g).mapM f = some (l.map k) := by
  induction l with
  | nil => rfl
  | cons a l ih => rw [List.map_cons, List.mapM_cons, h, ih]; rfl

/-! ## Paths -/

/-- The chain of parents depends on the parents only. -/
theorem lineage_congr {nodes nodes' : PlanNodes}
    (h : ∀ id, (nodes'.find? id).map (·.parentId) = (nodes.find? id).map (·.parentId)) {id : Uuid} {ids : List Uuid}
    (hids : Lineage nodes id ids) : Lineage nodes' id ids := by
  have hrow : ∀ {id r}, nodes.find? id = some r → ∃ r', nodes'.find? id = some r' ∧ r'.parentId = r.parentId := by
    intro id r hr
    have hid := h id
    rw [hr, Option.map_some, Option.map_eq_some_iff] at hid
    exact hid
  induction hids with
  | root hr hp =>
    obtain ⟨r', hr', hp'⟩ := hrow hr
    exact .root hr' (hp'.trans hp)
  | child hr hp _ ih =>
    obtain ⟨r', hr', hp'⟩ := hrow hr
    exact .child hr' (hp'.trans hp) ih

theorem lineage_nodup {nodes : PlanNodes} {id : Uuid} {ids : List Uuid} (h : Lineage nodes id ids) : ids.Nodup := by
  induction h with
  | root => exact List.nodup_singleton _
  | @child id p r ids hr hp hids ih =>
    have hall : Lineage nodes id (ids ++ [id]) := .child hr hp hids
    obtain ⟨above, habove, hmem⟩ := lineage_mem hall
    obtain ⟨rfl, -⟩ := List.append_inj' habove rfl
    refine List.nodup_append.mpr ⟨ih, List.nodup_singleton _, fun a ha b hb heq => ?_⟩
    rw [List.mem_singleton.mp hb] at heq
    exact (rooted_of_lineage hall).not_above_self ((hmem id).mp (heq ▸ ha))

theorem lineage_keys {nodes : PlanNodes} {id : Uuid} {ids : List Uuid} (h : Lineage nodes id ids) :
    ∀ a ∈ ids, a ∈ nodes.keys := by
  induction h with
  | root hr =>
    intro a ha
    rw [List.mem_singleton.mp ha]
    exact Table.mem_keys_iff_find?.mpr ⟨_, hr⟩
  | child hr _ _ ih =>
    intro a ha
    rcases List.mem_append.mp ha with ha | ha
    · exact ih a ha
    · rw [List.mem_singleton.mp ha]
      exact Table.mem_keys_iff_find?.mpr ⟨_, hr⟩

theorem climb_lineage {nodes : PlanNodes} {id : Uuid} {ids : List Uuid} (h : Lineage nodes id ids) {fuel : Nat}
    (hfuel : ids.length ≤ fuel) {chain : List Uuid} (hnew : ∀ a ∈ ids, a ∉ chain) :
    climbParents nodes fuel chain (some id) = chain ++ ids.reverse := by
  induction h generalizing fuel chain with
  | @root id r hr hp =>
    have hparent : parentFrom nodes id = none := by rw [parentFrom, hr]; exact hp
    obtain ⟨fuel, rfl⟩ := Nat.exists_eq_add_of_lt (Nat.lt_of_lt_of_le Nat.zero_lt_one hfuel)
    rw [Nat.zero_add, climbParents, if_pos ⟨Table.mem_keys_iff_find?.mpr ⟨_, hr⟩, hnew id List.mem_cons_self⟩, hparent]
    cases fuel <;> rfl
  | @child id p r ids hr hp hids ih =>
    have hparent : parentFrom nodes id = some p := by rw [parentFrom, hr]; exact hp
    have hnodup := lineage_nodup (.child hr hp hids)
    rw [List.length_append, List.length_singleton] at hfuel
    obtain ⟨fuel, rfl⟩ := Nat.exists_eq_add_of_lt (Nat.lt_of_lt_of_le (Nat.succ_pos _) hfuel)
    rw [Nat.zero_add] at hfuel ⊢
    have hid : id ∉ chain := hnew id (List.mem_append_right _ List.mem_cons_self)
    rw [climbParents, if_pos ⟨Table.mem_keys_iff_find?.mpr ⟨_, hr⟩, hid⟩, hparent, ih (Nat.le_of_succ_le_succ hfuel)]
    · rw [List.reverse_append, List.reverse_singleton, List.singleton_append, List.append_assoc, List.singleton_append]
    · intro a ha hmem
      rcases List.mem_append.mp hmem with hmem | hmem
      · exact hnew a (List.mem_append_left _ ha) hmem
      · exact (List.nodup_append.mp hnodup).2.2 a ha id List.mem_cons_self (List.mem_singleton.mp hmem)

theorem climb_eq_reverse {nodes : PlanNodes} {id : Uuid} {ids : List Uuid} (h : Lineage nodes id ids) :
    climbParents nodes nodes.rows.length [id] (parentFrom nodes id) = ids.reverse := by
  have hnodup := lineage_nodup h
  have hle := (List.subperm_of_subset hnodup (lineage_keys h)).length_le
  rw [Table.keys, List.length_map] at hle
  cases h with
  | root hr hp =>
    have hparent : parentFrom nodes id = none := by rw [parentFrom, hr]; exact hp
    rw [hparent]
    cases nodes.rows.length <;> rfl
  | @child _ p r ids hr hp hids =>
    have hparent : parentFrom nodes id = some p := by rw [parentFrom, hr]; exact hp
    rw [List.length_append, List.length_singleton] at hle
    rw [hparent, climb_lineage hids (Nat.le_of_succ_le hle), List.reverse_append, List.reverse_singleton]
    intro a ha hmem
    exact (List.nodup_append.mp hnodup).2.2 a ha id List.mem_cons_self (List.mem_singleton.mp hmem)

theorem foldl_planNodePath (ids : List Uuid) (path : String) :
    ids.foldl (fun path id => some (planNodePath path id)) (some path) =
      some (ids.foldl (fun path id => path ++ id.text ++ "/") path) := by
  induction ids generalizing path with
  | nil => rfl
  | cons id ids ih => exact ih _

/-- The path of a node in a tree is the one that its lineage spells. -/
theorem mirrorPath_eq {nodes : PlanNodes} {id : Uuid} {ids : List Uuid} (h : Lineage nodes id ids) :
    mirrorPath nodes id = pathOf ids := by
  have hne : ids ≠ [] := by cases h <;> simp
  obtain ⟨top, rest, rfl⟩ := List.exists_cons_of_ne_nil hne
  rw [mirrorPath, climb_eq_reverse h, List.foldr_reverse, List.foldl_cons, foldl_planNodePath]
  rfl

/-! ## Siblings -/

def compactKey (nodes : PlanNodes) (r : PlanNodeRow) : ℕ ×ₗ List ℕ := (mirrorNode nodes r).siblingKey

theorem compactKey_nodup (nodes : PlanNodes) : ((loadPlanNodes nodes).map (compactKey nodes)).Nodup := by
  refine nodup_map_of_key (displayed nodes).nodup fun r s heq => ?_
  simp only [compactKey, MirrorNode.siblingKey, EmbeddingLike.apply_eq_iff_eq, Prod.mk.injEq] at heq
  exact Uuid.ext_text (codeUnits_injective heq.2)

theorem siblingsBefore_lt {nodes : PlanNodes} {r s : PlanNodeRow} (hr : r ∈ nodes.rows) (hparent : r.parentId = s.parentId)
    (hlt : r.displayKey < s.displayKey) : siblingsBefore nodes r < siblingsBefore nodes s := by
  obtain ⟨before, after, hrows⟩ := List.append_of_mem hr
  have hmono : ∀ l : List PlanNodeRow, (l.countP fun t => decide (t.parentId = r.parentId) && t.displayKey < r.displayKey) ≤
      l.countP fun t => decide (t.parentId = s.parentId) && t.displayKey < s.displayKey := fun l => by
    refine List.countP_mono_left fun t _ h => ?_
    simp only [Bool.and_eq_true, decide_eq_true_eq] at h ⊢
    exact ⟨h.1.trans hparent, h.2.trans hlt⟩
  rw [siblingsBefore, siblingsBefore, hrows, List.countP_append, List.countP_append,
    List.countP_cons_of_neg (by simp), List.countP_cons_of_pos (by simp [hparent, hlt])]
  exact Nat.add_lt_add_of_le_of_lt (hmono before) (Nat.lt_succ_of_le (hmono after))

/-- Sorted by the compacted ordinals, siblings stand as they are displayed. -/
theorem sortBy_siblings (nodes : PlanNodes) (p : Option Uuid) :
    (sortBy (compactKey nodes) (loadPlanNodes nodes)).filter (·.parentId = p) =
      (loadPlanNodes nodes).filter (·.parentId = p) := by
  rw [filter_sortBy (compactKey_nodup nodes)]
  refine sortBy_of_lt ?_
  refine ((loadPlanNodes_pairwise nodes).filter _).imp_of_mem fun {r s} hr hs hlt => ?_
  obtain ⟨hrmem, hrp⟩ := List.mem_filter.mp hr
  obtain ⟨-, hsp⟩ := List.mem_filter.mp hs
  have hparent : r.parentId = s.parentId := (of_decide_eq_true hrp).trans (of_decide_eq_true hsp).symm
  have hbefore := siblingsBefore_lt ((perm_loadPlanNodes nodes).mem_iff.mp hrmem) hparent hlt
  exact Prod.Lex.toLex_lt_toLex.mpr (.inl hbefore)

/-! ## The two documents -/

section Agree

variable {db : PlanDb} {m : PlanMirror}

theorem rendered_perm (h : renderPlanMirror db = .ok (some m)) :
    m.nodes.Perm ((loadPlanNodes db.nodes).map (mirrorNode db.nodes)) := by
  have hnodup : ((loadPlanNodes db.nodes).map (mirrorNode db.nodes)).Nodup := by
    refine List.Nodup.of_map (·.siblingKey) ?_
    rw [List.map_map]
    exact compactKey_nodup db.nodes
  refine (List.perm_ext_iff_of_nodup (List.Nodup.of_map _ (rendered_nodup h)) hnodup).mpr fun n => ?_
  rw [mem_rendered h, List.mem_map]
  simp only [(perm_loadPlanNodes db.nodes).mem_iff, eq_comm]

def mirroredRow (nodes : PlanNodes) (r : PlanNodeRow) : PlanNodeRow := { bareRow nodes r with path := r.path }

theorem mirrorPlanNodes_rendered (htree : PlanTree db) (h : renderPlanMirror db = .ok (some m)) :
    ∃ nodes, mirrorPlanNodes m.nodes = some nodes ∧
      nodes.rows = (sortBy (compactKey db.nodes) (loadPlanNodes db.nodes)).map (mirroredRow db.nodes) := by
  have hperm : (sortBy (compactKey db.nodes) (loadPlanNodes db.nodes)).Perm db.nodes.rows :=
    (perm_sortBy _ _).trans (perm_loadPlanNodes db.nodes)
  have hsort : sortBy MirrorNode.siblingKey m.nodes =
      (sortBy (compactKey db.nodes) (loadPlanNodes db.nodes)).map (mirrorNode db.nodes) := by
    rw [sortBy_eq_of_perm (siblingKey_nodup (rendered_nodup h)) (rendered_perm h)]
    exact (map_sortBy (mirrorNode db.nodes) (fun _ _ => rfl) (compactKey_nodup db.nodes)).symm
  have hrows := mapM_map_some (mirrorRow_mirrorNode db.nodes) (sortBy (compactKey db.nodes) (loadPlanNodes db.nodes))
  have hids : (((sortBy (compactKey db.nodes) (loadPlanNodes db.nodes)).map (bareRow db.nodes)).map (·.id)).Nodup := by
    rw [List.map_map]
    exact (hperm.map _).nodup_iff.mpr db.nodes.nodup
  let byId : PlanNodes := ⟨_, hids⟩
  have hparents : ∀ id, (byId.find? id).map (·.parentId) = (db.nodes.find? id).map (·.parentId) := fun id => by
    have hsame : (byId.rows.map fun r => (r.id, r.parentId)).Perm (db.nodes.rows.map fun r => (r.id, r.parentId)) := by
      rw [List.map_map]
      exact hperm.map _
    have hfind := congrArg (Option.map (·.2)) (Table.find?_map_of_perm (fun h => congrArg (·.1) h) hsame id)
    rwa [Option.map_map, Option.map_map] at hfind
  have hpath : ∀ r ∈ sortBy (compactKey db.nodes) (loadPlanNodes db.nodes), mirrorPath byId r.id = r.path := fun r hr => by
    obtain ⟨ids, hids, hpath⟩ := htree.path r (hperm.mem_iff.mp hr)
    rw [hpath, mirrorPath_eq (lineage_congr hparents hids)]
  refine ⟨_, by rw [mirrorPlanNodes, hsort, hrows, Option.bind_some, dif_pos hids], ?_⟩
  change (byId.rows.map fun r => { r with path := mirrorPath byId r.id }) = _
  rw [List.map_map]
  refine List.map_congr_left fun r hr => ?_
  rw [Function.comp_apply, mirroredRow, ← hpath r hr]
  rfl

theorem shown_mirroredRow {nodes : PlanNodes} {r : PlanNodeRow} (h : trim r.title = r.title) :
    (mirroredRow nodes r).shown = r.shown := by
  simp only [mirroredRow, bareRow, PlanNodeRow.shown, h]

theorem planForest_displayed (htree : PlanTree db) : PlanForest (displayed db.nodes) where
  parentLive r hr p hp := by
    have hkeys := (perm_loadPlanNodes db.nodes).map (·.id)
    exact hkeys.mem_iff.mpr (htree.parentLive r ((perm_loadPlanNodes db.nodes).mem_iff.mp hr) p hp)
  path r hr := by
    obtain ⟨ids, hids, hpath⟩ := htree.path r ((perm_loadPlanNodes db.nodes).mem_iff.mp hr)
    have hsame := (perm_loadPlanNodes db.nodes).map id
    refine ⟨ids, lineage_congr (fun id => ?_) hids, hpath⟩
    have hfind := congrArg (Option.map (·.parentId)) (@Table.find?_map_of_perm _ _ _ _ _ _
      (fun h => congrArg PlanNodeRow.id h) db.nodes (displayed db.nodes) hsame id)
    simpa using hfind

theorem sameLook_mirror (htitles : ∀ r ∈ db.nodes.rows, trim r.title = r.title) {nodes : PlanNodes}
    (hrows : nodes.rows = (sortBy (compactKey db.nodes) (loadPlanNodes db.nodes)).map (mirroredRow db.nodes)) :
    SameLook (displayed db.nodes) nodes := by
  have hshown : ∀ {rows : List PlanNodeRow}, (∀ r ∈ rows, r ∈ db.nodes.rows) →
      (rows.map (mirroredRow db.nodes)).map (·.shown) = rows.map (·.shown) := fun hsub => by
    rw [List.map_map]
    exact List.map_congr_left fun r hr => shown_mirroredRow (htitles r (hsub r hr))
  have hsorted : (sortBy (compactKey db.nodes) (loadPlanNodes db.nodes)).Perm (loadPlanNodes db.nodes) := perm_sortBy _ _
  have hloaded : ∀ r ∈ loadPlanNodes db.nodes, r ∈ db.nodes.rows := fun r hr => (perm_loadPlanNodes db.nodes).mem_iff.mp hr
  refine ⟨fun p => ?_, ?_⟩
  · have hparent : (fun r => decide (r.parentId = p)) ∘ mirroredRow db.nodes = fun r => decide (r.parentId = p) := rfl
    rw [orderedChildren, hrows, List.filter_map, hparent, sortBy_siblings]
    exact hshown fun r hr => hloaded r (List.mem_of_mem_filter hr)
  · rw [hrows, hshown fun r hr => hloaded r (hsorted.mem_iff.mp hr)]
    exact hsorted.map _

theorem render_mirror (htree : PlanTree db) (htitles : ∀ r ∈ db.nodes.rows, trim r.title = r.title)
    (h : renderPlanMirror db = .ok (some m)) {edges : List PlanNodeEdgeRow} (hedges : edges.Perm db.edges.rows) :
    ∃ text, renderPlanMarkdownFrom (displayed db.nodes) edges {} = some text ∧
      renderPlanMarkdownFromMirror (.v2 m) = some text := by
  have hforest := planForest_displayed htree
  obtain ⟨nodes, hnodes, hrows⟩ := mirrorPlanNodes_rendered htree h
  have hlook := sameLook_mirror htitles hrows
  have hedgesOf : m.edges = db.edges.rows.map (·.portable) := by
    obtain ⟨-, rfl, -⟩ := renderPlanMirror_eq_ok.mp h
    rfl
  have hsorted : sortBy MirrorEdge.sortKey m.edges = (sortBy PlanNodeEdgeRow.sortKey db.edges.rows).map (·.portable) := by
    rw [hedgesOf]
    exact (map_sortBy PlanNodeEdgeRow.portable (fun _ _ => rfl) (planEdgeKey_nodup db.edges.nodup)).symm
  have hperm : (sortBy PlanNodeEdgeRow.sortKey db.edges.rows).Perm edges := (perm_sortBy _ _).trans hedges.symm
  have hnodup : (edges.map PlanNodeEdgeRow.key).Nodup := (hedges.map _).nodup_iff.mpr db.edges.nodup
  obtain ⟨text, htext⟩ := render_isSome hforest edges {}
  refine ⟨text, htext, ?_⟩
  have hpayload : PlanMirrorPayload.nodes (.v2 m) = m.nodes ∧ PlanMirrorPayload.edges (.v2 m) = m.edges := ⟨rfl, rfl⟩
  rw [renderPlanMarkdownFromMirror, hpayload.1, hpayload.2, hnodes, Option.bind_some, hsorted,
    mapM_map_some mirrorEdgeRow_portable, Option.bind_some, List.map_id', ← htext]
  exact render_congr hforest hlook hnodup hperm rfl

end Agree

/-- One text of the payload for all orders of its rows, and one document from the mirror and from the rows. -/
theorem renderPlanMarkdownFromMirror_eq :
    (∀ (numberText : Float → List UInt16) (m m' : PlanMirror), m.DistinctKeys → m'.nodes.Perm m.nodes →
      m'.edges.Perm m.edges → m'.codeLinks.Perm m.codeLinks →
      ∃ text, serializePlanMirror numberText m = some text ∧ serializePlanMirror numberText m' = some text) ∧
    ∀ (db : PlanDb) (m : PlanMirror) (edges : List PlanNodeEdgeRow), PlanTree db →
      (∀ r ∈ db.nodes.rows, trim r.title = r.title) → renderPlanMirror db = .ok (some m) →
      edges.Perm db.edges.rows →
      ∃ text, renderPlanMarkdownFrom (displayed db.nodes) edges {} = some text ∧
        renderPlanMarkdownFromMirror (.v2 m) = some text :=
  ⟨fun numberText _ _ h hnodes hedges hlinks => serializePlanMirror_perm numberText h hnodes hedges hlinks,
    fun _ _ _ htree htitles h hedges => render_mirror htree htitles h hedges⟩

open Sample in
/-- A root and its two children, with the nodes of the payload in the other order. -/
theorem renderPlanMarkdownFromMirror_eq_start :
    (∃ text, serializePlanMirror (fun _ => []) (mirrorOf Sample.start) = some text ∧ serializePlanMirror (fun _ => [])
      { mirrorOf Sample.start with nodes := (mirrorOf Sample.start).nodes.reverse } = some text) ∧
    ∃ text, renderPlanMarkdownFrom (displayed Sample.start.nodes) Sample.start.edges.rows {} = some text ∧
      renderPlanMarkdownFromMirror (.v2 (mirrorOf Sample.start)) = some text := by
  have hkeys : (mirrorOf Sample.start).DistinctKeys := ⟨rendered_nodup render_start, List.nodup_nil, List.nodup_nil⟩
  have htitles : ∀ r ∈ Sample.start.nodes.rows, trim r.title = r.title := by decide +kernel
  exact ⟨renderPlanMarkdownFromMirror_eq.1 _ _ _ hkeys (List.reverse_perm _) .rfl .rfl,
    renderPlanMarkdownFromMirror_eq.2 _ _ _ planSound_start.toPlanTree htitles render_start .rfl⟩

end Haive

import Haive.Lib.JsonText
import Haive.Mirror.Payload
import Haive.Plan.Markdown

/-!
# The text of `plan.json`

`serializePlanMirror` of `shared/src/plan/render.ts`: the nodes in the order of a walk from the roots,
edges and code links sorted, and the whole as indented JSON. Its one text for all orders of the rows is
`serializePlanMirror_perm`; that its walk ends is `preorder_ends`.
-/

namespace Haive

open Lib Lib.Units

/-! ## The orders -/

def MirrorNode.siblingKey (n : MirrorNode) : ℕ ×ₗ List ℕ := toLex (n.ordinal, codeUnits n.id)

def MirrorEdge.sortKey (e : MirrorEdge) : List ℕ ×ₗ List ℕ ×ₗ List ℕ :=
  toLex (codeUnits e.fromNodeId, toLex (codeUnits e.toNodeId, codeUnits e.kind.wire))

/-- The key of the comparison of code links, where no symbol comes before any (`nullFirst`). -/
def MirrorCodeLink.sortKey (l : MirrorCodeLink) : List ℕ ×ₗ List ℕ ×ₗ WithBot (List ℕ) ×ₗ List ℕ :=
  toLex (codeUnits l.nodeId, toLex (codeUnits l.repoPath, toLex
    ((l.symbol.map codeUnits : WithBot (List ℕ)), codeUnits l.role.wire)))

/-- `indexChildren`. -/
def childrenIn (nodes : List MirrorNode) (parentId : Option String) : List MirrorNode :=
  nodes.filter (·.parentId = parentId)

/-- The walk over the stack, whose top comes first here; `none` where the fuel does not last. -/
def preorder (children : Option String → List MirrorNode) : Nat → List MirrorNode → List MirrorNode →
    Option (List MirrorNode)
  | _, [], walked => some walked
  | 0, _ :: _, _ => none
  | fuel + 1, node :: stack, walked =>
    preorder children fuel (children (some node.id) ++ stack) (if node ∈ walked then walked else walked ++ [node])

/-- The rows in the order of the file. -/
def canonicalMirror (mirror : PlanMirror) : Option PlanMirror :=
  let nodes := sortBy MirrorNode.siblingKey mirror.nodes
  (preorder (childrenIn nodes) nodes.length (childrenIn nodes none) []).map fun walked =>
    { nodes := walked ++ nodes.filter (· ∉ walked)
      edges := sortBy MirrorEdge.sortKey mirror.edges
      codeLinks := sortBy MirrorCodeLink.sortKey mirror.codeLinks }

/-! ## The text -/

def jsonText (s : String) : Json := .str ((codeUnits s).map (·.toUInt16))

def jsonNullable (s : Option String) : Json := s.elim .null jsonText

def MirrorNode.json (n : MirrorNode) : Json := .obj [
  (units "id", jsonText n.id), (units "parentId", jsonNullable n.parentId),
  (units "ordinal", .num n.ordinal.toFloat), (units "title", jsonText n.title),
  (units "kind", jsonText n.kind.wire), (units "body", jsonNullable n.body),
  (units "status", jsonText n.status.wire), (units "taskable", .bool n.taskable)]

def MirrorEdge.json (e : MirrorEdge) : Json := .obj [
  (units "fromNodeId", jsonText e.fromNodeId), (units "toNodeId", jsonText e.toNodeId),
  (units "kind", jsonText e.kind.wire), (units "note", jsonNullable e.note)]

def MirrorCodeLink.json (l : MirrorCodeLink) : Json := .obj [
  (units "nodeId", jsonText l.nodeId), (units "repoPath", jsonText l.repoPath),
  (units "symbol", jsonNullable l.symbol), (units "evidence", jsonNullable l.evidence),
  (units "derivedAtCommit", jsonNullable l.derivedAtCommit), (units "stale", .bool l.stale),
  (units "role", jsonText l.role.wire)]

def PlanMirror.json (m : PlanMirror) : Json := .obj [
  (units "schemaVersion", .num (2 : Nat).toFloat), (units "nodes", .arr (m.nodes.map (·.json))),
  (units "edges", .arr (m.edges.map (·.json))), (units "codeLinks", .arr (m.codeLinks.map (·.json)))]

def serializePlanMirror (numberText : Float → List UInt16) (mirror : PlanMirror) : Option (List UInt16) :=
  (canonicalMirror mirror).map fun canonical => Json.stringify numberText canonical.json ++ units "\n"

/-! ## The keys tell the rows apart -/

/-- No two nodes, edges or code links of the payload have one key. -/
structure PlanMirror.DistinctKeys (m : PlanMirror) : Prop where
  nodes : (m.nodes.map (·.id)).Nodup
  edges : (m.edges.map (·.key)).Nodup
  codeLinks : (m.codeLinks.map (·.key)).Nodup

theorem siblingKey_nodup {nodes : List MirrorNode} (h : (nodes.map (·.id)).Nodup) :
    (nodes.map MirrorNode.siblingKey).Nodup :=
  nodup_map_of_key h fun a b heq => by
    simp only [MirrorNode.siblingKey, EmbeddingLike.apply_eq_iff_eq, Prod.mk.injEq] at heq
    exact codeUnits_injective heq.2

theorem edgeSortKey_nodup {edges : List MirrorEdge} (h : (edges.map (·.key)).Nodup) :
    (edges.map MirrorEdge.sortKey).Nodup :=
  nodup_map_of_key h fun a b heq => by
    simp only [MirrorEdge.sortKey, EmbeddingLike.apply_eq_iff_eq, Prod.mk.injEq] at heq
    simp only [MirrorEdge.key, Prod.mk.injEq]
    exact ⟨codeUnits_injective heq.1, codeUnits_injective heq.2.1, wire_injective (codeUnits_injective heq.2.2)⟩

theorem linkSortKey_nodup {links : List MirrorCodeLink} (h : (links.map (·.key)).Nodup) :
    (links.map MirrorCodeLink.sortKey).Nodup :=
  nodup_map_of_key h fun a b heq => by
    simp only [MirrorCodeLink.sortKey, EmbeddingLike.apply_eq_iff_eq, Prod.mk.injEq] at heq
    have hsymbol : a.symbol = b.symbol := Option.map_injective codeUnits_injective (Prod.mk.inj heq.2.2).1
    simp only [MirrorCodeLink.key, Prod.mk.injEq, hsymbol, and_true]
    exact ⟨codeUnits_injective heq.1, codeUnits_injective heq.2.1⟩

/-! ## The walk ends -/

/-- Between two turns: each row is there once, and below a row that was walked. -/
structure Walked (nodes walked stack : List MirrorNode) : Prop where
  nodup : ((walked ++ stack).map (·.id)).Nodup
  mem : ∀ n ∈ walked ++ stack, n ∈ nodes
  parents : ∀ n ∈ walked ++ stack, ∀ p, n.parentId = some p → p ∈ walked.map (·.id)

variable {nodes walked stack : List MirrorNode} {node : MirrorNode}

theorem Walked.not_mem (h : Walked nodes walked (node :: stack)) : node.id ∉ walked.map (·.id) := by
  have hnodup := h.nodup
  rw [List.map_append, List.map_cons] at hnodup
  exact fun hmem => (List.nodup_append.mp hnodup).2.2 _ hmem _ List.mem_cons_self rfl

theorem Walked.next (hnodes : (nodes.map (·.id)).Nodup) (h : Walked nodes walked (node :: stack)) :
    Walked nodes (walked ++ [node]) (childrenIn nodes (some node.id) ++ stack) := by
  have hnew : ∀ c ∈ childrenIn nodes (some node.id), ∀ m ∈ walked ++ node :: stack, c.id ≠ m.id := by
    intro c hc m hm heq
    obtain ⟨hcmem, hparent⟩ := List.mem_filter.mp hc
    obtain rfl := List.inj_on_of_nodup_map hnodes hcmem (h.mem m hm) heq
    exact h.not_mem (h.parents c hm node.id (by simpa using hparent))
  have hchildren : ((childrenIn nodes (some node.id)).map (·.id)).Nodup :=
    hnodes.sublist (List.filter_sublist.map _)
  have hperm : (walked ++ [node] ++ (childrenIn nodes (some node.id) ++ stack)).Perm
      (childrenIn nodes (some node.id) ++ (walked ++ node :: stack)) := by
    have hswap : (walked ++ [node] ++ (childrenIn nodes (some node.id) ++ stack)).Perm
        (childrenIn nodes (some node.id) ++ (walked ++ [node]) ++ stack) := by
      rw [← List.append_assoc]
      exact List.perm_append_comm.append_right stack
    refine hswap.trans (List.Perm.of_eq ?_)
    rw [List.append_assoc, List.append_assoc, List.singleton_append]
  refine ⟨?_, fun n hn => ?_, fun n hn p hp => ?_⟩
  · rw [(hperm.map _).nodup_iff, List.map_append]
    refine List.nodup_append.mpr ⟨hchildren, h.nodup, fun a ha b hb => ?_⟩
    obtain ⟨c, hc, rfl⟩ := List.mem_map.mp ha
    obtain ⟨m, hm, rfl⟩ := List.mem_map.mp hb
    exact hnew c hc m hm
  · rcases List.mem_append.mp (hperm.mem_iff.mp hn) with hc | hold
    · exact List.mem_of_mem_filter hc
    · exact h.mem n hold
  · rw [List.map_append]
    rcases List.mem_append.mp (hperm.mem_iff.mp hn) with hc | hold
    · have hparent : n.parentId = some node.id := by simpa using (List.mem_filter.mp hc).2
      rw [hparent, Option.some.injEq] at hp
      exact List.mem_append_right _ (List.mem_singleton.mpr hp.symm)
    · exact List.mem_append_left _ (h.parents n hold p hp)

theorem preorder_ends (hnodes : (nodes.map (·.id)).Nodup) (fuel : Nat) (h : Walked nodes walked stack)
    (hfuel : nodes.length ≤ walked.length + fuel) : ∃ all, preorder (childrenIn nodes) fuel stack walked = some all := by
  induction fuel generalizing walked stack with
  | zero =>
    cases stack with
    | nil => exact ⟨walked, by rw [preorder]⟩
    | cons node stack =>
      -- there would be more rows than nodes
      have hsub : (walked ++ node :: stack).Subperm nodes :=
        List.subperm_of_subset (List.Nodup.of_map _ h.nodup) h.mem
      have hle := hsub.length_le
      rw [List.length_append, List.length_cons] at hle
      omega
  | succ fuel ih =>
    cases stack with
    | nil => exact ⟨walked, by rw [preorder]⟩
    | cons node stack =>
      have hout : node ∉ walked := fun hmem => h.not_mem (List.mem_map_of_mem hmem)
      rw [preorder, if_neg hout]
      refine ih (h.next hnodes) ?_
      rw [List.length_append, List.length_singleton]
      omega

theorem canonicalMirror_some {m : PlanMirror} (h : m.DistinctKeys) : ∃ canonical, canonicalMirror m = some canonical := by
  have hnodes : ((sortBy MirrorNode.siblingKey m.nodes).map (·.id)).Nodup :=
    ((perm_sortBy _ m.nodes).map _).nodup_iff.mpr h.nodes
  have hroots : Walked (sortBy MirrorNode.siblingKey m.nodes) []
      (childrenIn (sortBy MirrorNode.siblingKey m.nodes) none) := by
    refine ⟨hnodes.sublist (List.filter_sublist.map _), fun n hn => List.mem_of_mem_filter hn, fun n hn p hp => ?_⟩
    have hroot : n.parentId = none := by simpa using (List.mem_filter.mp hn).2
    rw [hroot] at hp
    cases hp
  obtain ⟨walked, hwalked⟩ := preorder_ends hnodes _ hroots (Nat.le_add_left _ _)
  exact ⟨_, by rw [canonicalMirror, hwalked]; rfl⟩

/-- The text is there, and it is that of every order of the rows. -/
theorem serializePlanMirror_perm (numberText : Float → List UInt16) {m m' : PlanMirror} (h : m.DistinctKeys)
    (hnodes : m'.nodes.Perm m.nodes) (hedges : m'.edges.Perm m.edges) (hlinks : m'.codeLinks.Perm m.codeLinks) :
    ∃ text, serializePlanMirror numberText m = some text ∧ serializePlanMirror numberText m' = some text := by
  obtain ⟨canonical, hcanonical⟩ := canonicalMirror_some h
  have hsame : canonicalMirror m' = canonicalMirror m := by
    rw [canonicalMirror, canonicalMirror, sortBy_eq_of_perm (siblingKey_nodup h.nodes) hnodes.symm,
      sortBy_eq_of_perm (edgeSortKey_nodup h.edges) hedges.symm,
      sortBy_eq_of_perm (linkSortKey_nodup h.codeLinks) hlinks.symm]
  exact ⟨_, by rw [serializePlanMirror, hcanonical]; rfl, by rw [serializePlanMirror, hsame, hcanonical]; rfl⟩

end Haive

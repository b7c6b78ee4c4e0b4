import Haive.Mirror.WellFormed

/-!
# Neutrality laws of the merge

A pull that brings nothing new is a no-op, and one onto an untouched plan is a
fast-forward. In each of the three laws one side wins every decision:
`Follows w o` says what that means for one id, `followed` derives the node set
of the whole merge from it, and `Keyed.perm_of_follows` does the same for edges
and code links.
-/

namespace Haive

open Lib

/-! ## Comparing payloads -/

/-- Equal up to the order of nodes, edges and code links. -/
structure SamePlan (a b : PlanMirror) : Prop where
  nodes : a.nodes.Perm b.nodes
  edges : a.edges.Perm b.edges
  codeLinks : a.codeLinks.Perm b.codeLinks

def MirrorCodeLink.keyForm (l : MirrorCodeLink) : MirrorCodeLink :=
  { l with symbol := some (l.symbol.getD "") }

/-- `SamePlan` that does not tell a missing symbol from an empty one. -/
structure SamePlanByKey (a b : PlanMirror) : Prop where
  nodes : a.nodes.Perm b.nodes
  edges : a.edges.Perm b.edges
  codeLinks : (a.codeLinks.map MirrorCodeLink.keyForm).Perm (b.codeLinks.map MirrorCodeLink.keyForm)

/-! ## Picks with a side that did not change -/

section
variable {T : Type} [DecidableEq T] (b : Option T) (x y : T)

@[simp] theorem pick3_unchanged_incoming : pick3 (some y) x y = ⟨x, false⟩ := by
  unfold pick3
  by_cases hxy : x = y
  · simp [hxy]
  · simp [hxy, Ne.symm hxy]

@[simp] theorem pick3_unchanged_local : pick3 (some x) x y = ⟨y, false⟩ := by
  unfold pick3
  by_cases hxy : x = y
  · simp [hxy]
  · simp [hxy]

@[simp] theorem pick3_same : pick3 b x x = ⟨x, false⟩ := by
  simp [pick3]

end

theorem nodeModified_self (n : MirrorNode) : nodeModified n n = false := by
  simp [nodeModified, Fields.differ_self]

/-- Two nodes with the same parts are the same node. -/
theorem MirrorNode.ext_fields {a b : MirrorNode} (id : a.id = b.id) (parent : a.parentId = b.parentId)
    (ordinal : a.ordinal = b.ordinal) (asked : ∀ f, askedFields.get f a = askedFields.get f b) :
    a = b := by
  have ht : a.title = b.title := asked .title
  have hb : a.body = b.body := asked .body
  have hk : a.kind = b.kind := asked .kind
  have hs : a.status = b.status := asked .status
  have hx : a.taskable = b.taskable := asked .taskable
  cases a
  cases b
  simp_all

/-- Every pick takes the side `w`: the merged node is `w`. -/
theorem mergeBoth_eq {b : Option MirrorNode} {l i w : MirrorNode} (rank : Nat) (hid : w.id = l.id)
    (parent : pick3 (b.map (·.parentId)) l.parentId i.parentId = ⟨w.parentId, false⟩)
    (ordinal : pick3 (b.map (·.ordinal)) l.ordinal i.ordinal = ⟨w.ordinal, false⟩)
    (asked : ∀ f, pickAsked b l i f = ⟨askedFields.get f w, false⟩) :
    (mergeBoth b l i rank).entry.node = w ∧ (mergeBoth b l i rank).conflicts = [] := by
  constructor
  · refine MirrorNode.ext_fields ?_ ?_ ?_ fun f => ?_
    · rw [mergeBoth_id, hid]
    · rw [mergeBoth_parentId, parent]
    · rw [mergeBoth_ordinal, ordinal]
    · rw [mergeBoth_asked, askedValue, asked f]
      rfl
  · have none : ∀ f, askedConflict b l i f = none := by
      intro f
      rw [askedConflict, asked f]
      rfl
    simp [mergeBoth, none]

/-! ## One side wins every node -/

/-- The step of `id` follows the side `w`: nodes of `w` are kept as `w` has them, other nodes are
marked and still hang where the side `o` has them. -/
structure Follows (w o : Side) (id : String) (step : EntryStep) : Prop where
  conflicts : step.conflicts = []
  resurrected : step.resurrected = []
  kept : ∀ n, w.byId.find? id = some n → step.entry.node = n ∧ step.entry.candidate = none
  marked : w.byId.find? id = none →
    step.entry.node.parentId = o.parentOf id ∧ step.entry.candidate ≠ none

section
variable {base : Option Side} {localSide incoming w o : Side}

/-- What one side adds, or still has unmodified, follows the other one. -/
theorem mergeOnly_follows {id : String} {n : MirrorNode} {rank : Nat} {inLocal : Bool}
    (ho : o.byId.find? id = some n) (hw : w.byId.find? id = none) :
    Follows w o id (mergeOnly (some n) n inLocal rank) := by
  have hm := nodeModified_self n
  refine ⟨by simp [mergeOnly, hm], by simp [mergeOnly, hm], fun _ h => by simp [hw] at h, fun _ => ?_⟩
  refine ⟨?_, by simp [mergeOnly, hm]⟩
  rw [mergeOnly_node, Side.parentOf_find ho]

theorem mergeOnly_follows_added {id : String} {n : MirrorNode} {rank : Nat} {inLocal : Bool}
    (hw : w.byId.find? id = some n) : Follows w o id (mergeOnly none n inLocal rank) := by
  refine ⟨rfl, rfl, fun n' hn' => ?_, fun h => by simp [hw] at h⟩
  rw [hw] at hn'
  cases hn'
  exact ⟨rfl, rfl⟩

theorem mergeBoth_follows {id : String} {b : Option MirrorNode} {l i n : MirrorNode} {rank : Nat}
    (hw : w.byId.find? id = some n) (hid : n.id = l.id)
    (parent : pick3 (b.map (·.parentId)) l.parentId i.parentId = ⟨n.parentId, false⟩)
    (ordinal : pick3 (b.map (·.ordinal)) l.ordinal i.ordinal = ⟨n.ordinal, false⟩)
    (asked : ∀ f, pickAsked b l i f = ⟨askedFields.get f n, false⟩) :
    Follows w o id (mergeBoth b l i rank) := by
  obtain ⟨hnode, hconf⟩ := mergeBoth_eq rank hid parent ordinal asked
  refine ⟨hconf, rfl, fun n' hn' => ?_, fun h => by simp [hw] at h⟩
  rw [hw] at hn'
  cases hn'
  exact ⟨hnode, rfl⟩

/-- Incoming did not change: local wins. -/
theorem follows_local {id : String} {rank : Nat} {step : EntryStep}
    (h : mergeEntry (some incoming) localSide incoming id rank = some step) :
    Follows localSide incoming id step := by
  rcases mergeEntry_cases h with ⟨l, i, hl, hi, ⟨hb, _⟩ | ⟨s, hs, rfl⟩⟩ | ⟨l, hl, hi, rfl⟩ | ⟨i, hl, hi, rfl⟩
  · cases hb
  · cases hs
    rw [hi]
    exact mergeBoth_follows hl rfl (by simp) (by simp) (fun f => by simp [pickAsked])
  · rw [baseNode, Option.bind_some, hi]
    exact mergeOnly_follows_added hl
  · rw [baseNode, Option.bind_some, hi]
    exact mergeOnly_follows hi hl

/-- Local did not change: incoming wins. -/
theorem follows_incoming {id : String} {rank : Nat} {step : EntryStep}
    (h : mergeEntry (some localSide) localSide incoming id rank = some step) :
    Follows incoming localSide id step := by
  rcases mergeEntry_cases h with ⟨l, i, hl, hi, ⟨hb, _⟩ | ⟨s, hs, rfl⟩⟩ | ⟨l, hl, hi, rfl⟩ | ⟨i, hl, hi, rfl⟩
  · cases hb
  · cases hs
    rw [hl]
    refine mergeBoth_follows hi ?_ (by simp) (by simp) (fun f => by simp [pickAsked])
    exact (Table.find?_key hi :).trans (Table.find?_key hl :).symm
  · rw [baseNode, Option.bind_some, hl]
    exact mergeOnly_follows hl hi
  · rw [baseNode, Option.bind_some, hl]
    exact mergeOnly_follows_added hi

/-- Both sides made the same plan. -/
theorem follows_both {s side : Side} {id : String} {rank : Nat} {step : EntryStep}
    (h : mergeEntry (some s) side side id rank = some step) : Follows side side id step := by
  rcases mergeEntry_cases h with ⟨l, i, hl, hi, ⟨hb, _⟩ | ⟨s, hs, rfl⟩⟩ | ⟨l, hl, hi, rfl⟩ | ⟨i, hl, hi, rfl⟩
  · cases hb
  · rw [hl] at hi
    cases hi
    exact mergeBoth_follows hl rfl (by simp) (by simp) (fun f => by simp [pickAsked])
  · simp [hl] at hi
  · simp [hl] at hi

/-- When every id follows `w`, there is no cycle to break: `w` has none, and what `o` adds climbs
in `o` until it ends or meets `w`. -/
theorem initial_rooted (hl : localSide.Tree) (hi : incoming.Tree) (hw : w.Tree) (ho : o.Tree)
    (follows : ∀ id rank step, mergeEntry base localSide incoming id rank = some step →
      Follows w o id step)
    (hkeys : ∀ id ∈ w.byId.keys, id ∈ localSide.byId.keys ∨ id ∈ incoming.byId.keys) (x : String) :
    Rooted (initialEntries base localSide incoming).parentOf x := by
  have parent_w : ∀ id, id ∈ w.byId.keys →
      w.parentOf id = (initialEntries base localSide incoming).parentOf id := by
    intro id hid
    obtain ⟨n, hn⟩ := Table.mem_keys_iff_find?.mp hid
    obtain ⟨e, he⟩ := Table.mem_keys_iff_find?.mp ((mem_initial_keys base hl hi).mpr (hkeys id hid))
    obtain ⟨step, _, hstep, rfl⟩ := initial_find hl hi he
    rw [Side.parentOf_find hn, parentOf_find he, ((follows id _ step hstep).kept n hn).1]
  have rooted_w : ∀ id, id ∈ w.byId.keys →
      Rooted (initialEntries base localSide incoming).parentOf id := fun id =>
    Rooted.congr parent_w (fun a p _ hp => hw.closed a p hp) (hw.rooted id)
  have rooted_o : Rooted (initialEntries base localSide incoming).parentOf x := by
    induction ho.rooted x with
    | @root x hn =>
      by_cases hx : x ∈ w.byId.keys
      · exact rooted_w x hx
      · refine .root ?_
        cases hf : (initialEntries base localSide incoming).find? x with
        | none => exact parentOf_eq_none (Table.find?_eq_none.mp hf)
        | some e =>
          obtain ⟨step, _, hstep, rfl⟩ := initial_find hl hi hf
          rw [parentOf_find hf, ((follows x _ step hstep).marked (Table.find?_eq_none.mpr hx)).1, hn]
    | @step x y hs _ ih =>
      by_cases hx : x ∈ w.byId.keys
      · exact rooted_w x hx
      · cases hf : (initialEntries base localSide incoming).find? x with
        | none => exact .root (parentOf_eq_none (Table.find?_eq_none.mp hf))
        | some e =>
          obtain ⟨step, _, hstep, rfl⟩ := initial_find hl hi hf
          refine .step ?_ ih
          rw [parentOf_find hf, ((follows x _ step hstep).marked (Table.find?_eq_none.mpr hx)).1, hs]
  exact rooted_o

theorem followed {rewired : Entries} {broken : List PlanMirrorReport} {kept : Keeping}
    {m : PlanMirrorMerge} (h : MergeRun base localSide incoming rewired broken kept m)
    (hl : localSide.Tree) (hi : incoming.Tree) (hw : w.Tree) (ho : o.Tree)
    (follows : ∀ id rank step, mergeEntry base localSide incoming id rank = some step →
      Follows w o id step)
    (hkeys : ∀ id ∈ w.byId.keys, id ∈ localSide.byId.keys ∨ id ∈ incoming.byId.keys) :
    m.merged.nodes.Perm w.nodes ∧ m.conflicts = [] ∧ m.resurrected = [] ∧
      ∀ id, rewired.Stays id ↔ id ∈ w.byId.keys := by
  have heq := h.unbroken (initial_rooted hl hi hw ho follows hkeys)
  subst heq
  have find_w : ∀ id n, w.byId.find? id = some n →
      ∃ e, (initialEntries base localSide incoming).find? id = some e ∧ e.node = n ∧
        e.candidate = none := by
    intro id n hn
    have hk := hkeys id (Table.mem_keys_iff_find?.mpr ⟨n, hn⟩)
    obtain ⟨e, he⟩ := Table.mem_keys_iff_find?.mp ((mem_initial_keys base hl hi).mpr hk)
    obtain ⟨step, _, hstep, rfl⟩ := initial_find hl hi he
    exact ⟨_, he, (follows id _ step hstep).kept n hn⟩
  have mem_w : ∀ id e, (initialEntries base localSide incoming).find? id = some e →
      e.candidate = none → id ∈ w.byId.keys := by
    intro id e he hc
    by_contra hid
    obtain ⟨step, _, hstep, rfl⟩ := initial_find hl hi he
    exact ((follows id _ step hstep).marked (Table.find?_eq_none.mpr hid)).2 hc
  have parent_w : ∀ id p, id ∈ w.byId.keys →
      (initialEntries base localSide incoming).parentOf id = some p → p ∈ w.byId.keys := by
    intro id p hid hp
    obtain ⟨n, hn⟩ := Table.mem_keys_iff_find?.mp hid
    obtain ⟨e, he, rfl, _⟩ := find_w id n hn
    refine hw.closed id p ?_
    rw [Side.parentOf_find hn, ← parentOf_find he, hp]
  have stays : ∀ id, (initialEntries base localSide incoming).Stays id ↔ id ∈ w.byId.keys := by
    intro id
    constructor
    · rintro ⟨d, e, hd, hc, rfl | habove⟩
      · exact mem_w d e hd hc
      · induction habove with
        | single hp => exact parent_w _ _ (mem_w d e hd hc) hp
        | tail _ hp ih => exact parent_w _ _ ih hp
    · intro hid
      obtain ⟨n, hn⟩ := Table.mem_keys_iff_find?.mp hid
      obtain ⟨e, he, _, hc⟩ := find_w id n hn
      exact ⟨id, e, he, hc, .inl rfl⟩
  refine ⟨?_, ?_, ?_, stays⟩
  · rw [← hw.rows]
    refine (List.perm_ext_iff_of_nodup (.of_map _ h.ids_nodup) (.of_map _ w.byId.nodup)).mpr ?_
    intro n
    rw [h.mem_nodes, Table.mem_rows_iff]
    constructor
    · rintro ⟨⟨e, he, rfl⟩, hs⟩
      obtain ⟨n', hn'⟩ := Table.mem_keys_iff_find?.mp ((stays _).mp hs)
      obtain ⟨e', he', hnode, _⟩ := find_w _ n' hn'
      rw [he] at he'
      cases he'
      rw [hn', hnode]
    · intro hn
      obtain ⟨e, he, hnode, _⟩ := find_w _ n hn
      exact ⟨⟨e, he, hnode⟩, (stays _).mpr (Table.mem_keys_iff_find?.mpr ⟨n, hn⟩)⟩
  · rw [h.conflicts, List.flatMap_eq_nil_iff]
    intro step hstep
    obtain ⟨id, rank, _, hme⟩ := mem_mergeSteps.mp hstep
    exact (follows id rank step hme).conflicts
  · rw [h.resurrected, List.eq_nil_iff_forall_not_mem]
    intro id hid
    rcases h.keptInv.revived id hid with hid | ⟨hs, e, he, hc⟩
    · obtain ⟨step, hstep, hmem⟩ := List.mem_flatMap.mp hid
      obtain ⟨id', rank, _, hme⟩ := mem_mergeSteps.mp hstep
      simp [(follows id' rank step hme).resurrected] at hmem
    · obtain ⟨n, hn⟩ := Table.mem_keys_iff_find?.mp ((stays id).mp hs)
      obtain ⟨e', he', _, hc'⟩ := find_w id n hn
      rw [he] at he'
      cases he'
      simp [hc] at hc'

end

/-! ## One side wins every edge and code link -/

namespace Keyed

variable {T F K : Type} [DecidableEq K] (kd : Keyed T F K)

/-- When every key contributes what `w` has, up to `norm`, the merged items are those of `w`. -/
theorem perm_of_follows {base : Option (Table T kd.key)} {localItems incoming w : Table T kd.key}
    (norm : T → T) (hnorm : ∀ x, kd.key (norm x) = kd.key x)
    (follows : ∀ key, (kd.mergeKey base localItems incoming key).1.map norm =
      (w.find? key).toList.map norm) :
    ((kd.mergeKeyed base localItems incoming).1.map norm).Perm (w.rows.map norm) := by
  have key_norm : ∀ l : List T, (l.map norm).map kd.key = l.map kd.key := by
    intro l
    rw [List.map_map]
    exact List.map_congr_left fun x _ => hnorm x
  have hnodup₁ : ((kd.mergeKeyed base localItems incoming).1.map norm).Nodup := by
    refine .of_map kd.key ?_
    rw [key_norm]
    exact kd.mergeKeyed_nodup
  have hnodup₂ : (w.rows.map norm).Nodup := by
    refine .of_map kd.key ?_
    rw [key_norm]
    exact w.nodup
  refine (List.perm_ext_iff_of_nodup hnodup₁ hnodup₂).mpr fun y => ?_
  constructor
  · intro hy
    obtain ⟨x, hx, rfl⟩ := List.mem_map.mp hy
    have hmem : norm x ∈ (kd.mergeKey base localItems incoming (kd.key x)).1.map norm :=
      List.mem_map_of_mem (kd.mem_mergeKeyed.mp hx)
    rw [follows] at hmem
    obtain ⟨z, hz, hzx⟩ := List.mem_map.mp hmem
    rw [← hzx]
    exact List.mem_map_of_mem (Table.find?_mem (Option.mem_toList.mp hz))
  · intro hy
    obtain ⟨x, hx, rfl⟩ := List.mem_map.mp hy
    have hmem : norm x ∈ (w.find? (kd.key x)).toList.map norm := by
      rw [Table.mem_rows_iff.mp hx]
      exact List.mem_singleton_self _
    rw [← follows] at hmem
    obtain ⟨z, hz, hzx⟩ := List.mem_map.mp hmem
    have hkey : kd.key z = kd.key x := by
      rw [← hnorm z, ← hnorm x, hzx]
    rw [← hzx]
    exact List.mem_map_of_mem (kd.mem_mergeKeyed.mpr (hkey ▸ hz))

variable (localItems incoming : Table T kd.key) (key : K)

theorem mergeKey_unchanged_local :
    (kd.mergeKey (some localItems) localItems incoming key).1 = (incoming.find? key).toList := by
  unfold mergeKey
  cases hl : localItems.find? key <;> cases hi : incoming.find? key
  · rfl
  · simp [onlyItem, hl]
  · simp [onlyItem, hl, Fields.differ_self]
  · next l i =>
    simp only [mergeItem, pickField, hl, Option.map_some, pick3_unchanged_local, Fields.setAll_get,
      Option.toList_some]

/-- Both sides have the same items. -/
theorem mergeKey_same (base items : Table T kd.key) :
    (kd.mergeKey (some base) items items key).1 = (items.find? key).toList := by
  unfold mergeKey
  cases hx : items.find? key with
  | none => rfl
  | some x => simp only [mergeItem, pickField, pick3_same, Fields.setAll_get, Option.toList_some]

/-- Incoming did not change: the key contributes local's item, up to what neither the key nor a
field holds. -/
theorem mergeKey_unchanged_incoming (norm : T → T)
    (hnorm : ∀ x y, kd.key x = kd.key y → (∀ f, kd.fields.get f x = kd.fields.get f y) →
      norm x = norm y) :
    (kd.mergeKey (some incoming) localItems incoming key).1.map norm =
      (localItems.find? key).toList.map norm := by
  unfold mergeKey
  cases hl : localItems.find? key <;> cases hi : incoming.find? key
  · rfl
  · simp [onlyItem, hi, Fields.differ_self]
  · simp [onlyItem, hi]
  · next l i =>
    simp only [hi, Option.toList_some, List.map_singleton, List.cons.injEq, and_true]
    apply hnorm
    · rw [mergeItem, setAll_key, Table.find?_key hi, Table.find?_key hl]
    · intro f
      rw [mergeItem, kd.fields.get_setAll_of_mem (kd.mem_names f)]
      simp only [pickField, Option.map_some, pick3_unchanged_incoming]

end Keyed

theorem edge_ext {x y : MirrorEdge} (hkey : x.key = y.key)
    (hfields : ∀ f, edgeFields.get f x = edgeFields.get f y) : x = y := by
  have hnote : x.note = y.note := hfields .note
  cases x
  cases y
  simp_all [MirrorEdge.key]

theorem link_keyForm_ext {x y : MirrorCodeLink} (hkey : x.key = y.key)
    (hfields : ∀ f, linkFields.get f x = linkFields.get f y) : x.keyForm = y.keyForm := by
  have h1 : x.evidence = y.evidence := hfields .evidence
  have h2 : x.derivedAtCommit = y.derivedAtCommit := hfields .derivedAtCommit
  have h3 : x.stale = y.stale := hfields .stale
  have h4 : x.role = y.role := hfields .role
  cases x
  cases y
  simp_all [MirrorCodeLink.key, MirrorCodeLink.keyForm]

section
variable {base : Option Side} {localSide incoming : Side} {rewired : Entries}
  {broken : List PlanMirrorReport} {kept : Keeping} {m : PlanMirrorMerge}

/-- Items between nodes that survive all pass the endpoint filter. -/
theorem edges_perm_of_follows (h : MergeRun base localSide incoming rewired broken kept m)
    {w : PlanMirror} (hw : WellFormed (.v2 w)) (hnodes : m.merged.nodes.Perm w.nodes)
    (follows : ∀ key, (edgeKeyed.mergeKey (base.map edgeMap) (edgeMap localSide) (edgeMap incoming)
      key).1 = ((Table.ofList w.edges : Table MirrorEdge edgeKeyed.key).find? key).toList) :
    m.merged.edges.Perm w.edges := by
  have hperm := edgeKeyed.perm_of_follows id (fun _ => rfl)
    (fun key => by rw [List.map_id, List.map_id]; exact follows key)
  have hrows : (Table.ofList w.edges : Table MirrorEdge edgeKeyed.key).rows = w.edges :=
    Table.ofList_rows hw.edgeKeys
  rw [List.map_id, List.map_id, hrows] at hperm
  rw [h.edges]
  have hall : (mergedEdges base localSide incoming).1.filter (fun e =>
      e.fromNodeId ∈ m.merged.nodes.map (·.id) ∧ e.toNodeId ∈ m.merged.nodes.map (·.id)) =
      (mergedEdges base localSide incoming).1 := by
    rw [List.filter_eq_self]
    intro e he
    have hends := hw.edgeEnds e (hperm.mem_iff.mp he)
    have hids := hnodes.map (·.id)
    rw [decide_eq_true_eq, hids.mem_iff, hids.mem_iff]
    exact hends
  rw [hall]
  exact hperm

theorem links_perm_of_follows (h : MergeRun base localSide incoming rewired broken kept m)
    {w : PlanMirror} (hw : WellFormed (.v2 w)) (hnodes : m.merged.nodes.Perm w.nodes)
    (norm : MirrorCodeLink → MirrorCodeLink) (hkey : ∀ l, (norm l).key = l.key)
    (follows : ∀ key, (linkKeyed.mergeKey (base.map linkMap) (linkMap localSide) (linkMap incoming)
      key).1.map norm =
        ((Table.ofList w.codeLinks : Table MirrorCodeLink linkKeyed.key).find? key).toList.map norm) :
    (m.merged.codeLinks.map norm).Perm (w.codeLinks.map norm) := by
  have hperm := linkKeyed.perm_of_follows norm hkey follows
  have hrows : (Table.ofList w.codeLinks : Table MirrorCodeLink linkKeyed.key).rows = w.codeLinks :=
    Table.ofList_rows hw.linkKeys
  rw [hrows] at hperm
  rw [h.links]
  have hall : (mergedLinks base localSide incoming).1.filter (fun l =>
      l.nodeId ∈ m.merged.nodes.map (·.id)) = (mergedLinks base localSide incoming).1 := by
    rw [List.filter_eq_self]
    intro l hl
    obtain ⟨l', hl', heq⟩ := List.mem_map.mp (hperm.mem_iff.mp (List.mem_map_of_mem hl))
    have hids := hnodes.map (·.id)
    have hnode : l'.nodeId = l.nodeId := by
      have := (hkey l').symm.trans ((congrArg _ heq).trans (hkey l))
      exact congrArg Prod.fst this
    rw [decide_eq_true_eq, hids.mem_iff, ← hnode]
    exact hw.linkEnds l' hl'
  rw [hall]
  exact hperm

end

/-! ## The laws -/

/-- A pull that brings the base back is a no-op. -/
theorem merge_unchanged_incoming {b l : PlanMirror} (hb : WellFormed (.v2 b))
    (hl : WellFormed (.v2 l)) : ∃ m, mergePlanMirror (some (.v2 b)) (.v2 l) (.v2 b) = .ok m ∧
      SamePlanByKey m.merged l ∧ m.conflicts = [] ∧ m.resurrected = [] := by
  obtain ⟨rewired, broken, kept, m, hok, hrun⟩ := mergePlanMirror_run (some (.v2 b)) hl hb
  have hlt := readSide_tree hl
  have hbt := readSide_tree hb
  obtain ⟨hnodes, hconf, hres, _⟩ := followed hrun hlt hbt hlt hbt
    (fun id rank step h => follows_local h) (fun _ h => .inl h)
  refine ⟨m, hok, ⟨hnodes, ?_, ?_⟩, hconf, hres⟩
  · refine edges_perm_of_follows hrun hl hnodes fun key => ?_
    have := edgeKeyed.mergeKey_unchanged_incoming (edgeMap (readSide (.v2 l)))
      (edgeMap (readSide (.v2 b))) key id (fun _ _ => edge_ext)
    rwa [List.map_id, List.map_id] at this
  · exact links_perm_of_follows hrun hl hnodes MirrorCodeLink.keyForm (fun _ => rfl) fun key =>
      linkKeyed.mergeKey_unchanged_incoming (linkMap (readSide (.v2 l))) (linkMap (readSide (.v2 b)))
        key MirrorCodeLink.keyForm (fun _ _ => link_keyForm_ext)

/-- A pull onto an untouched plan is a fast-forward. -/
theorem merge_unchanged_local {b i : PlanMirror} (hb : WellFormed (.v2 b))
    (hi : WellFormed (.v2 i)) : ∃ m, mergePlanMirror (some (.v2 b)) (.v2 b) (.v2 i) = .ok m ∧
      SamePlan m.merged i ∧
      m.deleted.Perm ((b.nodes.map (·.id)).filter fun id => id ∉ i.nodes.map (·.id)) ∧
      m.conflicts = [] ∧ m.resurrected = [] := by
  obtain ⟨rewired, broken, kept, m, hok, hrun⟩ := mergePlanMirror_run (some (.v2 b)) hb hi
  have hbt := readSide_tree hb
  have hit := readSide_tree hi
  obtain ⟨hnodes, hconf, hres, hstays⟩ := followed hrun hbt hit hit hbt
    (fun id rank step h => follows_incoming h) (fun _ h => .inr h)
  refine ⟨m, hok, ⟨hnodes, ?_, ?_⟩, ?_, hconf, hres⟩
  · exact edges_perm_of_follows hrun hi hnodes fun key => edgeKeyed.mergeKey_unchanged_local _ _ key
  · have := links_perm_of_follows hrun hi hnodes id (fun _ => rfl) fun key => by
      rw [List.map_id, List.map_id]
      exact linkKeyed.mergeKey_unchanged_local _ _ key
    rwa [List.map_id, List.map_id] at this
  · refine (List.perm_ext_iff_of_nodup hrun.deleted_nodup (hb.ids.filter _)).mpr fun id => ?_
    rw [hrun.mem_deleted hbt hit, hstays, List.mem_filter, decide_eq_true_eq]
    constructor
    · rintro ⟨hloc, _, hinc⟩
      exact ⟨hbt.mem_keys.mp hloc, fun h => hinc (hit.mem_keys.mpr h)⟩
    · rintro ⟨hloc, hinc⟩
      have hno : id ∉ (readSide (.v2 i)).byId.keys := fun h => hinc (hit.mem_keys.mp h)
      exact ⟨hbt.mem_keys.mpr hloc, hno, hno⟩

/-- Both sides made the same plan. -/
theorem merge_same (b : PlanMirror) {x : PlanMirror} (hx : WellFormed (.v2 x)) :
    ∃ m, mergePlanMirror (some (.v2 b)) (.v2 x) (.v2 x) = .ok m ∧
      SamePlan m.merged x ∧ m.conflicts = [] ∧ m.resurrected = [] := by
  obtain ⟨rewired, broken, kept, m, hok, hrun⟩ := mergePlanMirror_run (some (.v2 b)) hx hx
  have hxt := readSide_tree hx
  obtain ⟨hnodes, hconf, hres, _⟩ := followed hrun hxt hxt hxt hxt
    (fun id rank step h => follows_both h) (fun _ h => .inl h)
  refine ⟨m, hok, ⟨hnodes, ?_, ?_⟩, hconf, hres⟩
  · exact edges_perm_of_follows hrun hx hnodes fun key => edgeKeyed.mergeKey_same key _ _
  · have := links_perm_of_follows hrun hx hnodes id (fun _ => rfl) fun key => by
      rw [List.map_id, List.map_id]
      exact linkKeyed.mergeKey_same key _ _
    rwa [List.map_id, List.map_id] at this

/-- Merging what did not change changes nothing, merging into what did not change takes all of it,
and merging equals is neutral; none of the three asks or brings a node back. The first law reads
code links by their key: the merge copies incoming's link, with its spelling of "no symbol". -/
theorem mergePlanMirror_neutral (b l i x : PlanMirror) (hb : WellFormed (.v2 b))
    (hl : WellFormed (.v2 l)) (hi : WellFormed (.v2 i)) (hx : WellFormed (.v2 x)) :
    (∃ m, mergePlanMirror (some (.v2 b)) (.v2 l) (.v2 b) = .ok m ∧
      SamePlanByKey m.merged l ∧ m.conflicts = [] ∧ m.resurrected = []) ∧
    (∃ m, mergePlanMirror (some (.v2 b)) (.v2 b) (.v2 i) = .ok m ∧
      SamePlan m.merged i ∧
      m.deleted.Perm ((b.nodes.map (·.id)).filter fun id => id ∉ i.nodes.map (·.id)) ∧
      m.conflicts = [] ∧ m.resurrected = []) ∧
    (∃ m, mergePlanMirror (some (.v2 b)) (.v2 x) (.v2 x) = .ok m ∧
      SamePlan m.merged x ∧ m.conflicts = [] ∧ m.resurrected = []) :=
  ⟨merge_unchanged_incoming hb hl, merge_unchanged_local hb hi, merge_same b hx⟩

def linkedSketch (symbol : Option String) : PlanMirror :=
  { sketch [("r", none, 0)] with
    codeLinks := [⟨"r", "a.ts", symbol, none, none, false, .implements⟩] }

theorem mergePlanMirror_neutral_linked :
    ∃ m, mergePlanMirror (some (.v2 (linkedSketch (some "")))) (.v2 (linkedSketch none))
        (.v2 (linkedSketch (some ""))) = .ok m ∧ SamePlanByKey m.merged (linkedSketch none) := by
  obtain ⟨⟨m, hok, hsame, _⟩, _⟩ := mergePlanMirror_neutral (linkedSketch (some ""))
    (linkedSketch none) (linkedSketch none) (linkedSketch none)
    (by decide) (by decide) (by decide) (by decide)
  exact ⟨m, hok, hsame⟩

/-- Local wrote the symbol as missing where base and incoming write an empty one: the merge is not
the local plan. -/
theorem merge_rewrites_missing_symbol :
    ¬ ∀ b l : PlanMirror, WellFormed (.v2 b) → WellFormed (.v2 l) → ∀ m,
      mergePlanMirror (some (.v2 b)) (.v2 l) (.v2 b) = .ok m → SamePlan m.merged l := by
  intro h
  have hlinks : (mergePlanMirror (some (.v2 (linkedSketch (some "")))) (.v2 (linkedSketch none))
      (.v2 (linkedSketch (some "")))).toOption.map (·.merged.codeLinks) =
      some (linkedSketch (some "")).codeLinks := by decide
  obtain ⟨m, hm, hcodes⟩ := exists_ok_of_map hlinks
  have hperm := (h _ _ (by decide) (by decide) m hm).codeLinks
  rw [hcodes] at hperm
  exact absurd hperm (by decide)

end Haive

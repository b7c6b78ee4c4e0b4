import Haive.Mirror.Again

/-!
# Open questions stay open

`reconcile_stable`: reconciling the same payload any number of times leaves the plan, the
questions and the stored base alone, as long as the stored base can be read and is anchored in
the plan. `baseAfter` shows that the snapshot which `withoutAbsentAsked` leaves is the base that
`SecondMerge` asks for; the rest is the assembly.
-/

namespace Haive

open Lib

/-! ## The stored base -/

section
variable {base : Option Side} {localSide incoming : Side}

theorem conflictsAt_base {id : String} {c : PlanMirrorConflict}
    (h : c ∈ conflictsAt base localSide incoming id) :
    base ≠ none ∧ id ∈ incoming.byId.keys ∧
      c.base = (baseNode base id).map (MirrorNode.asked c.field) := by
  cases hl : localSide.byId.find? id with
  | none => simp [conflictsAt_of_not_local hl] at h
  | some l =>
    cases hi : incoming.byId.find? id with
    | none => simp [conflictsAt_of_not_incoming hi] at h
    | some i =>
      cases base with
      | none => simp [conflictsAt_of_no_base] at h
      | some s =>
        refine ⟨nofun, Table.mem_keys_iff_find?.mpr ⟨i, hi⟩, ?_⟩
        rw [conflictsAt_both hl hi, List.mem_filterMap] at h
        obtain ⟨f, _, hc⟩ := h
        obtain ⟨_, hc⟩ := Option.ite_none_right_eq_some.mp hc
        cases hc
        rfl

theorem atOldBase_node (conflicts : List PlanMirrorConflict) (n : StoredNode) :
    (atOldBase conflicts n).node = (conflicts.filter (·.nodeId = n.node.id)).foldl
      (fun patched c => c.base.elim patched fun v => askedFields.set c.field v patched) n.node := by
  refine congrArg (fun f => (conflicts.filter (·.nodeId = n.node.id)).foldl f n.node) ?_
  funext patched c
  cases c.base <;> rfl

/-- Patching a node whose conflicts have no base leaves it alone. -/
theorem atOldBase_unbased {conflicts : List PlanMirrorConflict} {n : StoredNode}
    (h : ∀ c ∈ conflicts.filter (·.nodeId = n.node.id), c.base = none) : atOldBase conflicts n = n := by
  have hfold : ∀ (cs : List PlanMirrorConflict) (x : MirrorNode), (∀ c ∈ cs, c.base = none) →
      cs.foldl (fun patched c =>
        c.base.elim patched fun v => askedFields.set c.field v patched) x = x := by
    intro cs
    induction cs with
    | nil => intros; rfl
    | cons c cs ih =>
      intro x hcs
      rw [List.foldl_cons, hcs c List.mem_cons_self]
      exact ih x fun d hd => hcs d (List.mem_cons_of_mem _ hd)
  exact congrArg (fun x : MirrorNode => ({ n with node := x } : StoredNode)) ((atOldBase_node conflicts n).trans (hfold _ n.node h))

/-- Patching a node whose conflicts all go back to one entry writes that entry's values. -/
theorem atOldBase_based {conflicts : List PlanMirrorConflict} {n : StoredNode} {b : MirrorNode}
    (h : ∀ c ∈ conflicts.filter (·.nodeId = n.node.id), c.base = some (b.asked c.field)) :
    (atOldBase conflicts n).node = askedFields.setAll (fun f => askedFields.get f b)
      ((conflicts.filter (·.nodeId = n.node.id)).map (·.field)) n.node := by
  have hfold : ∀ (cs : List PlanMirrorConflict) (x : MirrorNode),
      (∀ c ∈ cs, c.base = some (b.asked c.field)) →
      cs.foldl (fun patched c =>
        c.base.elim patched fun v => askedFields.set c.field v patched) x =
      askedFields.setAll (fun f => askedFields.get f b) (cs.map (·.field)) x := by
    intro cs
    induction cs with
    | nil => intros; rfl
    | cons c cs ih =>
      intro x hcs
      rw [List.foldl_cons, hcs c List.mem_cons_self]
      exact ih _ fun d hd => hcs d (List.mem_cons_of_mem _ hd)
  exact (atOldBase_node conflicts n).trans (hfold _ n.node h)

end

theorem stored_nodes (payload : PlanMirrorPayload) : payload.stored.nodes.map (·.node) = payload.nodes := by
  cases payload with
  | v1 nodes edges => simp [PlanMirrorPayload.stored, PlanMirrorPayload.nodes, Function.comp_def]
  | v2 mirror => simp [PlanMirrorPayload.stored, PlanMirrorPayload.nodes, Function.comp_def]

theorem stored_edges (payload : PlanMirrorPayload) : payload.stored.edges = payload.edges := by
  cases payload <;> rfl

theorem stored_codeLinks (payload : PlanMirrorPayload) : payload.stored.codeLinks = payload.codeLinks := by
  cases payload <;> rfl

theorem stored_ids (payload : PlanMirrorPayload) :
    payload.stored.nodes.map (·.node.id) = payload.nodes.map (·.id) := by
  rw [← stored_nodes, List.map_map]
  rfl

theorem mapM_v1 {nodes : List StoredNode} {read : List MirrorNodeV1}
    (h : nodes.mapM StoredNode.v1? = some read) :
    read.map (fun n => (⟨n.toMirrorNode, some n.createdBy⟩ : StoredNode)) = nodes := by
  induction nodes generalizing read with
  | nil =>
    cases h
    rfl
  | cons n nodes ih =>
    rw [List.mapM_cons] at h
    obtain ⟨r, hr, h⟩ := Option.bind_eq_some_iff.mp h
    obtain ⟨rs, hrs, h⟩ := Option.bind_eq_some_iff.mp h
    cases h
    obtain ⟨createdBy, hby, rfl⟩ := Option.map_eq_some_iff.mp hr
    rw [List.map_cons, ih hrs, ← hby]

theorem stored_of_readSnapshot {s : Snapshot} {payload incoming : PlanMirrorPayload}
    (h : readSnapshot s = some payload) (hversion : s.schemaVersion = incoming.stored.schemaVersion)
    (hlinks : incoming.stored.codeLinks = [] → s.codeLinks = []) : payload.stored = s := by
  obtain ⟨_, h⟩ := Option.ite_none_right_eq_some.mp h
  cases incoming with
  | v1 nodes edges =>
    have hv : s.schemaVersion = 1 := hversion
    rw [if_pos hv] at h
    obtain ⟨read, hread, rfl⟩ := Option.map_eq_some_iff.mp h
    cases s
    simp only at hv hread hlinks
    simp only [PlanMirrorPayload.stored, mapM_v1 hread, hv, hlinks rfl]
  | v2 mirror =>
    have hv : s.schemaVersion = 2 := hversion
    rw [if_neg (by omega)] at h
    obtain ⟨hall, h⟩ := Option.ite_none_right_eq_some.mp h
    cases h
    have hnodes : (s.nodes.map (·.node)).map (fun n => (⟨n, none⟩ : StoredNode)) = s.nodes := by
      rw [List.map_map]
      conv_rhs => rw [← List.map_id s.nodes]
      refine List.map_congr_left fun n hn => ?_
      have : n.createdBy = none := by simpa using List.all_eq_true.mp hall n hn
      cases n
      simp_all
    cases s
    simp only at hv hnodes
    simp only [PlanMirrorPayload.stored, hnodes, hv]

theorem find_stored {nodes : List StoredNode} (h : (nodes.map (·.node.id)).Nodup) (id : String) :
    ((Table.ofList nodes : StoredNodes).find? id).map (·.node) =
      (Table.ofList (nodes.map (·.node)) : Table MirrorNode (·.id)).find? id := by
  have h' : ((nodes.map (·.node)).map (·.id)).Nodup := by simpa [Function.comp_def] using h
  simp only [Table.find?, Table.ofList_rows h, Table.ofList_rows h', List.find?_map, Function.comp_def]

theorem find_oldNodes {base : Option PlanMirrorPayload} (h : ∀ payload ∈ base, WellFormed payload)
    (id : String) : ((oldNodes base).find? id).map (·.node) = baseNode (base.map readSide) id := by
  cases base with
  | none => rfl
  | some payload =>
    have hids : (payload.stored.nodes.map (·.node.id)).Nodup := by
      rw [stored_ids]
      exact (h payload rfl).ids
    show ((Table.ofList payload.stored.nodes : StoredNodes).find? id).map (·.node) =
      (Table.ofList payload.nodes : Table MirrorNode (·.id)).find? id
    rw [find_stored hids, stored_nodes]

section
variable {base : Option PlanMirrorPayload} {localSide : Side} {incoming : PlanMirrorPayload}
  {conflicts : List PlanMirrorConflict}

theorem readIncoming_nodes (localSide : Side) (payload : PlanMirrorPayload) :
    (readIncoming localSide payload).nodes = payload.nodes := by
  cases payload <;> rfl

theorem readIncoming_byId (localSide : Side) (payload : PlanMirrorPayload) :
    (readIncoming localSide payload).byId = (readSide payload).byId := by
  cases payload <;> rfl

/-- The payload's node as the snapshot stores it: everything but its contested fields as read, and
those at the old base, if there was one. -/
theorem atOldBase_spec {B : Option Side} {inc : Side}
    (hat : ∀ id, conflicts.filter (·.nodeId = id) = conflictsAt B localSide inc id) (n : StoredNode) :
    (atOldBase conflicts n).node.id = n.node.id ∧
    (atOldBase conflicts n).node.parentId = n.node.parentId ∧
    (atOldBase conflicts n).node.ordinal = n.node.ordinal ∧
    ∀ f, (askedFields.get f (atOldBase conflicts n).node = askedFields.get f n.node ∧
        (Contested B localSide inc n.node.id f → baseNode B n.node.id = none)) ∨
      (Contested B localSide inc n.node.id f ∧ (baseNode B n.node.id).map (askedFields.get f) =
        some (askedFields.get f (atOldBase conflicts n).node)) := by
  have hbase : ∀ c ∈ conflicts.filter (·.nodeId = n.node.id),
      c.base = (baseNode B n.node.id).map (MirrorNode.asked c.field) := by
    intro c hc
    rw [hat] at hc
    exact (conflictsAt_base hc).2.2
  cases hb : baseNode B n.node.id with
  | none =>
    rw [hb] at hbase
    rw [atOldBase_unbased hbase]
    exact ⟨rfl, rfl, rfl, fun f => .inl ⟨rfl, fun _ => rfl⟩⟩
  | some b =>
    rw [hb] at hbase
    rw [atOldBase_based hbase, hat]
    refine ⟨setAll_id _ _ _, setAll_parentId _ _ _, setAll_ordinal _ _ _, fun f => ?_⟩
    by_cases hf : f ∈ (conflictsAt B localSide inc n.node.id).map (·.field)
    · exact .inr ⟨List.mem_map.mp hf, by rw [askedFields.get_setAll_of_mem hf]; rfl⟩
    · exact .inl ⟨askedFields.get_setAll_of_not_mem _ _ hf, fun hc => absurd (List.mem_map.mpr hc) hf⟩

theorem storedParent_map {nodes : List StoredNode} {g : StoredNode → StoredNode}
    (hid : ∀ n, (g n).node.id = n.node.id) (hparent : ∀ n, (g n).node.parentId = n.node.parentId) :
    storedParent (nodes.map g) = storedParent nodes := by
  funext id
  simp only [storedParent, parentIn, List.map_map, List.find?_map, Function.comp_def, hid]
  cases nodes.find? (fun n => n.node.id = id) with
  | none => rfl
  | some n => exact hparent n

/-- The payload as `nextSnapshot` hands it to `withoutAbsentAsked`. -/
def patchedPayload (incoming : PlanMirrorPayload) (conflicts : List PlanMirrorConflict) : Snapshot :=
  { incoming.stored with nodes := incoming.stored.nodes.map (atOldBase conflicts) }

/-- The nodes that both sides added and that a question is about. -/
def absentAsked (conflicts : List PlanMirrorConflict) : List String :=
  (conflicts.filter (·.base.isNone)).map (·.nodeId)

def MergeConflicts (base : Option PlanMirrorPayload) (localSide : Side)
    (incoming : PlanMirrorPayload) (conflicts : List PlanMirrorConflict) : Prop :=
  ∀ id, conflicts.filter (·.nodeId = id) =
    conflictsAt (base.map readSide) localSide (readIncoming localSide incoming) id

theorem absentAsked_spec (hbase : ∀ payload ∈ base, WellFormed payload)
    (h : MergeConflicts base localSide incoming conflicts) {id : String} :
    id ∈ absentAsked conflicts ↔ (∃ f, Contested (base.map readSide) localSide
      (readIncoming localSide incoming) id f) ∧ (oldNodes base).find? id = none := by
  have hold := find_oldNodes hbase id
  rw [absentAsked, List.mem_map]
  constructor
  · rintro ⟨c, hc, rfl⟩
    obtain ⟨hc, hnone⟩ := List.mem_filter.mp hc
    have hmem : c ∈ conflicts.filter (·.nodeId = c.nodeId) := List.mem_filter.mpr ⟨hc, by simp⟩
    rw [h] at hmem
    refine ⟨⟨c.field, c, hmem, rfl⟩, ?_⟩
    rw [Option.isNone_iff_eq_none, (conflictsAt_base hmem).2.2, Option.map_eq_none_iff] at hnone
    rw [hnone, Option.map_eq_none_iff] at hold
    exact hold
  · rintro ⟨⟨f, c, hc, rfl⟩, hnone⟩
    have hmem := hc
    rw [← h] at hmem
    refine ⟨c, List.mem_filter.mpr ⟨(List.mem_filter.mp hmem).1, ?_⟩, conflictsAt_nodeId hc⟩
    rw [hnone, Option.map_none] at hold
    rw [(conflictsAt_base hc).2.2, ← hold]
    rfl

theorem patched_ids (h : MergeConflicts base localSide incoming conflicts) :
    (patchedPayload incoming conflicts).nodes.map (·.node.id) = incoming.nodes.map (·.id) := by
  rw [patchedPayload, List.map_map, ← stored_ids]
  exact List.map_congr_left fun n _ => (atOldBase_spec h n).1

theorem askable (hbase : ∀ payload ∈ base, WellFormed payload) (hi : WellFormed incoming)
    (h : MergeConflicts base localSide incoming conflicts) :
    Askable (patchedPayload incoming conflicts) (absentAsked conflicts) (oldNodes base) := by
  refine ⟨?_, ?_, ?_, ?_⟩
  · rw [patched_ids h]
    exact hi.ids
  · have hparent : storedParent (patchedPayload incoming conflicts).nodes = parentIn incoming.nodes := by
      rw [patchedPayload, storedParent_map (fun n => (atOldBase_spec h n).1)
        (fun n => (atOldBase_spec h n).2.1), storedParent, stored_nodes]
    rw [hparent]
    exact hi.acyclic
  · intro a ha
    obtain ⟨⟨f, c, hc, _⟩, _⟩ := (absentAsked_spec hbase h).mp ha
    have hkey := (conflictsAt_base hc).2.1
    rw [readIncoming_byId, (readSide_tree hi).mem_keys] at hkey
    rw [patched_ids h]
    exact hkey
  · exact fun a ha => ((absentAsked_spec hbase h).mp ha).2

theorem baseAfter (hbase : ∀ payload ∈ base, WellFormed payload) (hi : WellFormed incoming)
    (h : MergeConflicts base localSide incoming conflicts) {next : PlanMirrorPayload}
    {drop : List String} {pushed : List StoredNode}
    (hnext : NextBase (patchedPayload incoming conflicts) (absentAsked conflicts) (oldNodes base) drop pushed)
    (hstored : next.stored = (patchedPayload incoming conflicts).without drop (oldNodes base) pushed) :
    BaseAfter (base.map readSide) localSide (readIncoming localSide incoming) (readSide next) := by
  have hfind : ∀ id, (readSide next).byId.find? id =
      ((Table.ofList ((patchedPayload incoming conflicts).without drop (oldNodes base) pushed).nodes :
        StoredNodes).find? id).map (·.node) := by
    intro id
    have hids := hnext.ids
    rw [← hstored] at hids ⊢
    rw [find_stored hids, stored_nodes]
    rfl
  refine ⟨fun id x hx => ?_, fun id hid => ?_⟩
  · rw [readIncoming_byId] at hx
    obtain ⟨hx, hxid⟩ := (readSide_find hi).mp hx
    rw [← stored_nodes] at hx
    obtain ⟨n, hn, rfl⟩ := List.mem_map.mp hx
    obtain ⟨hnid, hnparent, hnordinal, hnasked⟩ := atOldBase_spec h n
    have hmem : atOldBase conflicts n ∈ (patchedPayload incoming conflicts).nodes := List.mem_map_of_mem hn
    have hpid : (atOldBase conflicts n).node.id = id := hnid.trans hxid
    rw [hfind, ← find_oldNodes hbase]
    by_cases hdrop : id ∈ drop
    · left
      rw [hnext.find_dropped hdrop, hnext.dropping.fresh id hdrop]
    · have hkept := hnext.find_kept hmem (hpid.symm ▸ hdrop)
      rw [hpid] at hkept
      rw [hkept]
      by_cases hmoved : ((atOldBase conflicts n).node.parentId.any (· ∈ drop)) = true
      · left
        obtain ⟨p, hp, hpd⟩ := (Option.any_eq_true _ _).mp hmoved
        rcases hnext.dropping.children _ hmem p (by simpa using hpd) hp with hd | ⟨old, hold⟩
        · exact absurd (hpid ▸ hd) hdrop
        · rw [keptEntry, if_pos hmoved, hold]
          rw [hpid] at hold
          rw [hold]
          rfl
      · right
        rw [keptEntry, if_neg hmoved]
        refine ⟨_, rfl, hnparent, hnordinal, fun f => ?_⟩
        rw [hxid] at hnasked
        rw [find_oldNodes hbase]
        refine (hnasked f).imp_left fun hsame => ⟨hsame.1, fun hc => hdrop ?_⟩
        refine hnext.dropping.absent id ((absentAsked_spec hbase h).mpr ⟨⟨f, hc⟩, ?_⟩)
        have hold := find_oldNodes hbase id
        rw [hsame.2 hc, Option.map_eq_none_iff] at hold
        exact hold
  · have hnot : id ∉ (patchedPayload incoming conflicts).nodes.map (·.node.id) := by
      rw [readIncoming_byId, Table.find?_eq_none] at hid
      rw [patched_ids h]
      exact fun hmem => hid ((readSide_tree hi).mem_keys.mpr hmem)
    rw [hfind, ← find_oldNodes hbase]
    rcases hnext.find_other hnot with hother | hother
    · rw [hother]
      exact .inl rfl
    · rw [hother]
      exact .inr rfl

end

/-! ## Edges and code links of the stored base -/

namespace Keyed

variable {T F K : Type} [DecidableEq K] (kd : Keyed T F K)

/-- A base that lacks some of incoming's items, none of which the old base had. -/
theorem followed_filter {base : Option (Table T kd.key)} {items : List T} (q : T → Bool)
    (hnodup : (items.map kd.key).Nodup)
    (hnew : ∀ x ∈ items, q x = false → ∃ b, base = some b ∧ b.find? (kd.key x) = none) :
    kd.Followed base (.ofList (items.filter q)) (.ofList items) := by
  have hnodup' : ((items.filter q).map kd.key).Nodup := hnodup.sublist (List.filter_sublist.map _)
  refine ⟨fun key hkey => ?_, fun key hkey => ?_⟩
  · obtain ⟨x, hx⟩ := Table.mem_keys_iff_find?.mp hkey
    obtain ⟨hmem, rfl⟩ := (Table.find?_ofList hnodup).mp hx
    by_cases hq : q x = true
    · left
      rw [hx]
      exact (Table.find?_ofList hnodup').mpr ⟨List.mem_filter.mpr ⟨hmem, hq⟩, rfl⟩
    · refine .inr ⟨?_, hnew x hmem (by simpa using hq)⟩
      rw [Table.find?_eq_none, Table.mem_keys_ofList]
      intro hk
      obtain ⟨y, hy, hyk⟩ := List.mem_map.mp hk
      obtain ⟨hy, hqy⟩ := List.mem_filter.mp hy
      rw [List.inj_on_of_nodup_map hnodup hy hmem hyk] at hqy
      exact hq hqy
  · rw [Table.find?_eq_none, Table.mem_keys_ofList]
    rw [Table.mem_keys_ofList] at hkey
    exact fun hk => hkey ((List.filter_sublist.map _).subset hk)

end Keyed

section
variable {base : Option PlanMirrorPayload} {localSide : Side} {incoming next : PlanMirrorPayload}
  {conflicts : List PlanMirrorConflict} {drop : List String} {pushed : List StoredNode}

/-- A dropped node is one that the base, which there is, does not have. -/
theorem dropped_fresh (hbase : ∀ payload ∈ base, WellFormed payload)
    (h : MergeConflicts base localSide incoming conflicts)
    (hnil : absentAsked conflicts = [] → drop = [])
    (hnext : NextBase (patchedPayload incoming conflicts) (absentAsked conflicts) (oldNodes base) drop pushed)
    {id : String} (hid : id ∈ drop) : ∃ b, base = some b ∧ id ∉ b.nodes.map (·.id) := by
  have hfresh := find_oldNodes hbase id
  rw [hnext.dropping.fresh id hid] at hfresh
  cases base with
  | none =>
    have hempty : absentAsked conflicts = [] := by
      rw [List.eq_nil_iff_forall_not_mem]
      intro a ha
      obtain ⟨⟨f, c, hc, _⟩, _⟩ := (absentAsked_spec hbase h).mp ha
      exact (conflictsAt_base hc).1 rfl
    rw [hnil hempty] at hid
    cases hid
  | some b =>
    refine ⟨b, rfl, fun hmem => ?_⟩
    refine Table.find?_eq_none.mp (Eq.symm hfresh) ?_
    exact (readSide_tree (hbase b rfl)).mem_keys.mpr hmem

theorem edges_followed (hbase : ∀ payload ∈ base, WellFormed payload) (hi : WellFormed incoming)
    (hfresh : ∀ id ∈ drop, ∃ b, base = some b ∧ id ∉ b.nodes.map (·.id))
    (hedges : next.edges = incoming.edges.filter fun e => e.fromNodeId ∉ drop ∧ e.toNodeId ∉ drop) :
    edgeKeyed.Followed ((base.map readSide).map edgeMap) (edgeMap (readSide next))
      (edgeMap (readIncoming localSide incoming)) := by
  have hinc : edgeMap (readIncoming localSide incoming) = .ofList incoming.edges := by
    cases incoming <;> rfl
  have hnext : edgeMap (readSide next) = .ofList next.edges := rfl
  rw [hinc, hnext, hedges]
  refine edgeKeyed.followed_filter _ hi.edgeKeys fun e he hq => ?_
  have hend : e.fromNodeId ∈ drop ∨ e.toNodeId ∈ drop := by
    rw [decide_eq_false_iff_not] at hq
    tauto
  have hnew : ∀ b, base = some b → (e.fromNodeId ∉ b.nodes.map (·.id) ∨ e.toNodeId ∉ b.nodes.map (·.id)) →
      (edgeMap (readSide b)).find? e.key = none := by
    intro b hb hout
    rw [Table.find?_eq_none]
    intro hkey
    obtain ⟨e', he', hkey'⟩ := List.mem_map.mp (Table.mem_keys_ofList.mp hkey)
    have hends := (hbase b hb).edgeEnds e' he'
    have hkey'' : e'.key = e.key := hkey'
    simp only [MirrorEdge.key, Prod.mk.injEq] at hkey''
    rw [hkey''.1, hkey''.2.1] at hends
    exact hout.elim (· hends.1) (· hends.2)
  rcases hend with hend | hend
  · obtain ⟨b, rfl, hout⟩ := hfresh _ hend
    exact ⟨edgeMap (readSide b), rfl, hnew b rfl (.inl hout)⟩
  · obtain ⟨b, rfl, hout⟩ := hfresh _ hend
    exact ⟨edgeMap (readSide b), rfl, hnew b rfl (.inr hout)⟩

theorem links_followed {mirror : PlanMirror} (hbase : ∀ payload ∈ base, WellFormed payload)
    (hi : WellFormed (.v2 mirror))
    (hfresh : ∀ id ∈ drop, ∃ b, base = some b ∧ id ∉ b.nodes.map (·.id))
    (hlinks : next.codeLinks = mirror.codeLinks.filter fun l => l.nodeId ∉ drop) :
    linkKeyed.Followed ((base.map readSide).map linkMap) (linkMap (readSide next))
      (linkMap (readIncoming localSide (.v2 mirror))) := by
  have hinc : linkMap (readIncoming localSide (.v2 mirror)) = .ofList mirror.codeLinks := rfl
  have hnext : linkMap (readSide next) = .ofList next.codeLinks := rfl
  rw [hinc, hnext, hlinks]
  refine linkKeyed.followed_filter _ hi.linkKeys fun l hl hq => ?_
  have hend : l.nodeId ∈ drop := by simpa using hq
  obtain ⟨b, rfl, hout⟩ := hfresh _ hend
  refine ⟨linkMap (readSide b), rfl, ?_⟩
  rw [Table.find?_eq_none]
  intro hkey
  obtain ⟨l', hl', hkey'⟩ := List.mem_map.mp (Table.mem_keys_ofList.mp hkey)
  have hkey'' : l'.key = l.key := hkey'
  simp only [MirrorCodeLink.key, Prod.mk.injEq] at hkey''
  exact hout (hkey''.1 ▸ (hbase b rfl).linkEnds l' hl')

end

/-! ## The reconcile, again -/

def Anchored (base : PlanMirrorPayload) (plan : PlanMirror) (incoming : PlanMirrorPayload) : Prop :=
  ∀ b ∈ base.nodes, ∀ n ∈ plan.nodes, ∀ i ∈ incoming.nodes, b.id = n.id → i.id = n.id →
    b.parentId = n.parentId → i.parentId ≠ n.parentId →
    ∃ p, i.parentId = some p ∧ (p = n.id ∨ Above (parentIn plan.nodes) p n.id)

def Repeatable (incoming : PlanMirrorPayload) (r : Reconciled) : Prop :=
  ∃ base, readSnapshot r.snapshot = some base ∧ Anchored base r.plan incoming

def reconcileTimes (incoming : PlanMirrorPayload) : Nat → Reconciled → Except ReconcileFailure Reconciled
  | 0, r => .ok r
  | n + 1, r =>
    match reconcileAgain incoming r with
    | .ok r' => reconcileTimes incoming n r'
    | .error failure => .error failure

theorem target_wellFormed {m : PlanMirrorMerge} (h : WellFormed (.v2 m.merged)) (localSide : Side) :
    WellFormed (.v2 { m.merged with nodes := m.merged.nodes.map (targetNode localSide m.conflicts) }) := by
  have hids : (m.merged.nodes.map (targetNode localSide m.conflicts)).map (·.id) =
      m.merged.nodes.map (·.id) := by
    simp [Function.comp_def]
  have hparent : parentIn (m.merged.nodes.map (targetNode localSide m.conflicts)) =
      parentIn m.merged.nodes := by
    funext id
    simp only [parentIn, List.find?_map, Function.comp_def, targetNode_id]
    cases m.merged.nodes.find? (fun n => n.id = id) <;> simp
  constructor
  · exact hids ▸ h.ids
  · intro n hn p hp
    obtain ⟨x, hx, rfl⟩ := List.mem_map.mp hn
    rw [targetNode_parentId] at hp
    show p ∈ (m.merged.nodes.map (targetNode localSide m.conflicts)).map (·.id)
    rw [hids]
    exact h.parents x hx p hp
  · show Acyclic (parentIn (m.merged.nodes.map (targetNode localSide m.conflicts)))
    rw [hparent]
    exact h.acyclic
  · intro e he
    show e.fromNodeId ∈ (m.merged.nodes.map (targetNode localSide m.conflicts)).map (·.id) ∧
      e.toNodeId ∈ (m.merged.nodes.map (targetNode localSide m.conflicts)).map (·.id)
    rw [hids]
    exact h.edgeEnds e he
  · intro l hl
    show l.nodeId ∈ (m.merged.nodes.map (targetNode localSide m.conflicts)).map (·.id)
    rw [hids]
    exact h.linkEnds l hl
  · exact h.edgeKeys
  · exact h.linkKeys

section
variable {base : Option PlanMirrorPayload} {plan : PlanMirror} {incoming : PlanMirrorPayload}

/-- A reconcile of well-formed payloads returns; its merge and its snapshot, step by step. -/
theorem reconcile_run (hbase : ∀ payload ∈ base, WellFormed payload) (hplan : WellFormed (.v2 plan))
    (hi : WellFormed incoming) : ∃ rewired broken kept m drop pushed,
      MergeRun (base.map readSide) (readSide (.v2 plan))
        (readIncoming (readSide (.v2 plan)) incoming) rewired broken kept m ∧
      MergeConflicts base (readSide (.v2 plan)) incoming m.conflicts ∧
      withoutAbsentAsked (patchedPayload incoming m.conflicts) (absentAsked m.conflicts) (oldNodes base) =
        .ok ((patchedPayload incoming m.conflicts).without drop (oldNodes base) pushed) ∧
      (absentAsked m.conflicts = [] → drop = []) ∧
      NextBase (patchedPayload incoming m.conflicts) (absentAsked m.conflicts) (oldNodes base) drop pushed ∧
      reconcile base plan incoming = .ok
        { plan :=
            { m.merged with
              nodes := m.merged.nodes.map (targetNode (readSide (.v2 plan)) m.conflicts) }
          conflicts := m.conflicts
          deleted := m.deleted
          resurrected := m.resurrected
          snapshot := (patchedPayload incoming m.conflicts).without drop (oldNodes base) pushed } := by
  obtain ⟨rewired, broken, kept, m, hok, hrun⟩ := mergePlanMirror_run base hplan hi
  have hconf : MergeConflicts base (readSide (.v2 plan)) incoming m.conflicts :=
    hrun.conflicts_at (readSide_tree hplan) (readIncoming_tree hi _)
  obtain ⟨drop, pushed, hnext, hnil, _, hspec⟩ := withoutAbsentAsked_spec (askable hbase hi hconf).cuttable
  refine ⟨rewired, broken, kept, m, drop, pushed, hrun, hconf, hnext, fun h => (hnil h).1, hspec, ?_⟩
  have hsnap : nextSnapshot base incoming m.conflicts =
      .ok ((patchedPayload incoming m.conflicts).without drop (oldNodes base) pushed) := hnext
  simp only [reconcile, hok, hsnap, bind, Except.bind]
  rfl

theorem anchored_sides {next : PlanMirrorPayload} (hnext : (next.nodes.map (·.id)).Nodup)
    (hplan : WellFormed (.v2 plan)) (hi : WellFormed incoming) (localSide : Side)
    (h : Anchored next plan incoming) :
    (readSide next).Anchored (readSide (.v2 plan)) (readIncoming localSide incoming) := by
  intro id b n i hb hn hinc hbn hin
  rw [readIncoming_byId] at hinc
  obtain ⟨hb, hbid⟩ := (Table.find?_ofList hnext).mp hb
  obtain ⟨hn, hnid⟩ := (readSide_find hplan).mp hn
  obtain ⟨hinc, hiid⟩ := (readSide_find hi).mp hinc
  obtain ⟨p, hp, hrel⟩ := h b hb n hn i hinc (hbid.trans hnid.symm) (hiid.trans hnid.symm) hbn hin
  rw [hnid] at hrel
  refine ⟨p, hp, ?_⟩
  rw [parentIn_eq hplan]
  exact hrel

section
variable {next : PlanMirrorPayload} {drop : List String} {pushed : List StoredNode}
  {rewired rewired' : Entries} {broken broken' : List PlanMirrorReport} {kept kept' : Keeping}
  {m m' : PlanMirrorMerge} {plan' : PlanMirror}

theorem edges_again (hbase : ∀ payload ∈ base, WellFormed payload) (hi : WellFormed incoming)
    (hfresh : ∀ id ∈ drop, ∃ b, base = some b ∧ id ∉ b.nodes.map (·.id))
    (hedges : next.edges = incoming.edges.filter fun e => e.fromNodeId ∉ drop ∧ e.toNodeId ∉ drop)
    (hrun : MergeRun (base.map readSide) (readSide (.v2 plan))
      (readIncoming (readSide (.v2 plan)) incoming) rewired broken kept m)
    (hrun' : MergeRun (some (readSide next)) (readSide (.v2 plan'))
      (readIncoming (readSide (.v2 plan')) incoming) rewired' broken' kept' m')
    (hplan' : WellFormed (.v2 plan')) (heq : plan'.edges = m.merged.edges)
    (hlive : m'.merged.nodes.map (·.id) = m.merged.nodes.map (·.id)) :
    m'.merged.edges = plan'.edges := by
  have hrows : (edgeMap (readSide (.v2 plan'))).rows = plan'.edges := Table.ofList_rows hplan'.edgeKeys
  have hinc : edgeMap (readIncoming (readSide (.v2 plan')) incoming) =
      edgeMap (readIncoming (readSide (.v2 plan)) incoming) := by
    cases incoming <;> rfl
  have hfirst : (edgeMap (readSide (.v2 plan'))).rows =
      (edgeKeyed.mergeKeyed ((base.map readSide).map edgeMap) (edgeMap (readSide (.v2 plan)))
        (edgeMap (readIncoming (readSide (.v2 plan)) incoming))).1.filter fun e =>
          decide ((edgeKeyed.key e).1 ∈ m.merged.nodes.map (·.id) ∧
            (edgeKeyed.key e).2.1 ∈ m.merged.nodes.map (·.id)) := by
    rw [hrows, heq, hrun.edges]
    rfl
  have hagain := edgeKeyed.mergeKeyed_again
    (fun key => decide (key.1 ∈ m.merged.nodes.map (·.id) ∧ key.2.1 ∈ m.merged.nodes.map (·.id)))
    (edges_followed hbase hi hfresh hedges) hfirst
  rw [hrun'.edges, hlive, ← hrows, ← hagain, mergedEdges, hinc]
  rfl

theorem links_again (hbase : ∀ payload ∈ base, WellFormed payload) (hi : WellFormed incoming)
    (hfresh : ∀ id ∈ drop, ∃ b, base = some b ∧ id ∉ b.nodes.map (·.id))
    (hlinks : next.codeLinks = incoming.codeLinks.filter fun l => l.nodeId ∉ drop)
    (hrun : MergeRun (base.map readSide) (readSide (.v2 plan))
      (readIncoming (readSide (.v2 plan)) incoming) rewired broken kept m)
    (hrun' : MergeRun (some (readSide next)) (readSide (.v2 plan'))
      (readIncoming (readSide (.v2 plan')) incoming) rewired' broken' kept' m')
    (hplan' : WellFormed (.v2 plan')) (heq : plan'.codeLinks = m.merged.codeLinks)
    (hlive : m'.merged.nodes.map (·.id) = m.merged.nodes.map (·.id)) :
    m'.merged.codeLinks = plan'.codeLinks := by
  have hrows : (linkMap (readSide (.v2 plan'))).rows = plan'.codeLinks := Table.ofList_rows hplan'.linkKeys
  cases incoming with
  | v1 nodes edges =>
    -- A v1 payload is read with the plan's own links.
    have hself : (mergedLinks (some (readSide next)) (readSide (.v2 plan'))
        (readIncoming (readSide (.v2 plan')) (.v1 nodes edges))).1 = plan'.codeLinks := by
      rw [← hrows]
      exact linkKeyed.mergeKeyed_self _ _
    rw [hrun'.links, hself, hlive, List.filter_eq_self]
    intro l hl
    rw [heq, hrun.links] at hl
    exact (List.mem_filter.mp hl).2
  | v2 mirror =>
    have hfirst : (linkMap (readSide (.v2 plan'))).rows =
        (linkKeyed.mergeKeyed ((base.map readSide).map linkMap) (linkMap (readSide (.v2 plan)))
          (linkMap (readIncoming (readSide (.v2 plan)) (.v2 mirror)))).1.filter fun l =>
            decide ((linkKeyed.key l).1 ∈ m.merged.nodes.map (·.id)) := by
      rw [hrows, heq, hrun.links]
      rfl
    have hagain := linkKeyed.mergeKeyed_again
      (fun key => decide (key.1 ∈ m.merged.nodes.map (·.id)))
      (links_followed hbase hi hfresh hlinks) hfirst
    rw [hrun'.links, hlive, ← hrows, ← hagain]
    rfl

end

/-- One more reconcile of the same payload changes nothing. -/
theorem reconcileAgain_eq (hbase : ∀ payload ∈ base, WellFormed payload) (hplan : WellFormed (.v2 plan))
    (hi : WellFormed incoming) {r : Reconciled} (hr : reconcile base plan incoming = .ok r)
    (hrepeat : Repeatable incoming r) :
    reconcileAgain incoming r = .ok { r with deleted := [], resurrected := [] } := by
  obtain ⟨rewired, broken, kept, m, drop, pushed, hrun, hconf, hwithout, hnil, hnext, hok⟩ :=
    reconcile_run hbase hplan hi
  rw [hok, Except.ok.injEq] at hr
  subst hr
  obtain ⟨next, hread, hanchored⟩ := hrepeat
  have hstored : next.stored = (patchedPayload incoming m.conflicts).without drop (oldNodes base) pushed := by
    refine stored_of_readSnapshot hread rfl fun hlinks => ?_
    simp only [Snapshot.without, patchedPayload, hlinks, List.filter_nil]
  have hnextIds : (next.nodes.map (·.id)).Nodup := by
    have hids := hnext.ids
    rw [← hstored, stored_ids] at hids
    exact hids
  have hlt := readSide_tree hplan
  have hit := readIncoming_tree hi (readSide (.v2 plan))
  have hplan' := target_wellFormed (hrun.wellFormed hlt hit) (readSide (.v2 plan))
  generalize hplanEq : ({ m.merged with
      nodes := m.merged.nodes.map (targetNode (readSide (.v2 plan)) m.conflicts) } : PlanMirror) = plan' at *
  obtain ⟨rewired', broken', kept', m', hmerge', hrun'⟩ := mergePlanMirror_run (some next) hplan' hi
  have hsecond : SecondMerge (base.map readSide) (readSide (.v2 plan))
      (readIncoming (readSide (.v2 plan)) incoming) rewired m (readSide next) (readSide (.v2 plan'))
      (readIncoming (readSide (.v2 plan')) incoming) := by
    refine ⟨hlt, hit, readSide_tree hplan', ?_, ?_, ?_, baseAfter hbase hi hconf hnext hstored, ?_⟩
    · show plan'.nodes = _
      rw [← hplanEq]
    · rw [readIncoming_nodes, readIncoming_nodes]
    · rw [readIncoming_byId, readIncoming_byId]
    · exact anchored_sides hnextIds hplan' hi _ hanchored
  have hconflicts : m'.conflicts = m.conflicts := hsecond.conflicts_again hrun hrun'
  have hnodes : m'.merged.nodes.map (targetNode (readSide (.v2 plan')) m'.conflicts) = plan'.nodes :=
    hsecond.nodes_again hrun hrun'
  have hlive : m'.merged.nodes.map (·.id) = m.merged.nodes.map (·.id) := by
    have h := congrArg (List.map (·.id)) hnodes
    rw [← hplanEq] at h
    simpa [Function.comp_def] using h
  have hfresh : ∀ id ∈ drop, ∃ b, base = some b ∧ id ∉ b.nodes.map (·.id) := fun id hid =>
    dropped_fresh hbase hconf hnil hnext hid
  have hedges : m'.merged.edges = plan'.edges := by
    refine edges_again hbase hi hfresh ?_ hrun hrun' hplan' (by rw [← hplanEq]) hlive
    rw [← stored_edges, hstored, ← stored_edges]
    rfl
  have hlinks : m'.merged.codeLinks = plan'.codeLinks := by
    refine links_again hbase hi hfresh ?_ hrun hrun' hplan' (by rw [← hplanEq]) hlive
    rw [← stored_codeLinks, hstored, ← stored_codeLinks]
    rfl
  have hsnap : nextSnapshot (some next) incoming m'.conflicts =
      .ok ((patchedPayload incoming m.conflicts).without drop (oldNodes base) pushed) := by
    rw [hconflicts, ← withoutAbsentAsked_again (askable hbase hi hconf) hwithout, ← hstored]
    rfl
  have hplanAgain : ({ m'.merged with
      nodes := m'.merged.nodes.map (targetNode (readSide (.v2 plan')) m'.conflicts) } : PlanMirror) = plan' := by
    show (⟨m'.merged.nodes.map (targetNode (readSide (.v2 plan')) m'.conflicts), m'.merged.edges,
      m'.merged.codeLinks⟩ : PlanMirror) = plan'
    rw [hnodes, hedges, hlinks]
  simp only [reconcileAgain, hread, reconcile, hmerge', hsnap, bind, Except.bind]
  rw [hplanAgain, hconflicts, hsecond.deleted_again hrun hrun', hsecond.resurrected_again hrun hrun']
  rfl

theorem reconcileTimes_fixed {r : Reconciled} (h : reconcileAgain incoming r = .ok r) (n : Nat) :
    reconcileTimes incoming n r = .ok r := by
  induction n with
  | zero => rfl
  | succ n ih =>
    rw [reconcileTimes, h]
    exact ih

end

/-- Reconciling a payload and then the same payload any number of times: as long as the stored base
reads as a payload and is anchored in the plan, the plan, the questions and the stored base stay as
the first reconcile left them, and no node is deleted or brought back. -/
theorem reconcile_stable (base : Option PlanMirrorPayload) (plan : PlanMirror)
    (incoming : PlanMirrorPayload) (hbase : ∀ payload ∈ base, WellFormed payload)
    (hplan : WellFormed (.v2 plan)) (hi : WellFormed incoming) :
    ∃ r, reconcile base plan incoming = .ok r ∧
      (Repeatable incoming r → ∀ n, reconcileTimes incoming (n + 1) r =
        .ok { r with deleted := [], resurrected := [] }) := by
  obtain ⟨_, _, _, m, drop, pushed, _, _, _, _, _, hok⟩ := reconcile_run hbase hplan hi
  refine ⟨_, hok, fun hrepeat n => ?_⟩
  have hagain := reconcileAgain_eq hbase hplan hi hok hrepeat
  rw [reconcileTimes, hagain]
  -- The plan and the stored base are those before, so every further reconcile is this one.
  exact reconcileTimes_fixed hagain n

/-- Both sides add `d`, under another title; here it hangs under `m`, there `m` hangs under it. -/
def addedBase : PlanMirror := sketch [("r", none, 0), ("m", some "r", 0)]

def addedLocal : PlanMirror := sketch [("r", none, 0), ("m", some "r", 0), ("d", some "m", 0)]

def retitled (id title : String) (plan : PlanMirror) : PlanMirror :=
  { plan with nodes := plan.nodes.map fun n => if n.id = id then { n with title } else n }

def addedIncoming : PlanMirror :=
  retitled "d" "D" (sketch [("r", none, 0), ("m", some "d", 0), ("d", some "r", 0)])

theorem reconcile_stable_added : ∃ r,
    reconcile (some (.v2 addedBase)) addedLocal (.v2 addedIncoming) = .ok r ∧
      r.conflicts.map (·.nodeId) = ["d"] ∧
      ∀ n, reconcileTimes (.v2 addedIncoming) (n + 1) r = .ok { r with deleted := [], resurrected := [] } := by
  obtain ⟨r, hr, hstable⟩ := reconcile_stable (some (.v2 addedBase)) addedLocal (.v2 addedIncoming)
    (by decide) (by decide) (by decide)
  have hparts : (reconcile (some (.v2 addedBase)) addedLocal (.v2 addedIncoming)).toOption.map
      (fun r => (r.conflicts.map (·.nodeId), r.plan, readSnapshot r.snapshot)) =
      some (["d"], sketch [("r", none, 0), ("m", some "r", 0), ("d", some "m", 0)],
        some (.v2 (sketch [("r", none, 0), ("m", some "r", 0)]))) := by decide
  rw [hr] at hparts
  simp only [Except.toOption, Option.map_some, Option.some.injEq, Prod.mk.injEq] at hparts
  obtain ⟨hconf, hplan, hsnap⟩ := hparts
  refine ⟨r, hr, hconf, hstable ⟨_, hsnap, ?_⟩⟩
  rw [hplan]
  intro b hb n hn i hi hbn hin hparent hmoved
  have hm : i.parentId = some "d" ∧ n.id = "m" := by
    revert b n i
    decide
  have hunder : Above (parentIn (sketch [("r", none, 0), ("m", some "r", 0), ("d", some "m", 0)]).nodes)
      "d" "m" := above_head (by decide)
  exact ⟨"d", hm.1, .inr (by rw [hm.2]; exact hunder)⟩

/-- Here `a` and then `d` hang under `m`; there `a` hangs under the new `d` and `m` under `a`. -/
def crossedBase : PlanMirror := sketch [("r", none, 0), ("m", some "r", 0), ("a", some "m", 0)]

def crossedLocal : PlanMirror :=
  sketch [("r", none, 0), ("m", some "r", 0), ("a", some "m", 0), ("d", some "m", 1)]

def crossedIncoming : PlanMirror :=
  retitled "d" "D"
    (sketch [("r", none, 0), ("m", some "a", 0), ("a", some "d", 0), ("d", some "r", 1)])

/-- The first merge puts `a` back under `m` and then `m` back under `r`. The stored base still has
`a` under `m`, but `m` under `a`: in the next merge `m` no longer moves, so `a` does. -/
theorem reconcile_moves_restored_node :
    ¬ ∀ (base : Option PlanMirrorPayload) (plan : PlanMirror) (incoming : PlanMirrorPayload),
      (∀ payload ∈ base, WellFormed payload) → WellFormed (.v2 plan) → WellFormed incoming →
      ∀ r, reconcile base plan incoming = .ok r → ∀ r', reconcileAgain incoming r = .ok r' →
        r'.plan = r.plan ∧ r'.conflicts = r.conflicts ∧ r'.deleted = [] ∧ r'.resurrected = [] := by
  intro h
  have hfirst : (reconcile (some (.v2 crossedBase)) crossedLocal (.v2 crossedIncoming)).toOption.map
      (fun r => (parentIn r.plan.nodes "a",
        (reconcileAgain (.v2 crossedIncoming) r).toOption.map fun r' => parentIn r'.plan.nodes "a")) =
      some (some "m", some (some "d")) := by decide
  obtain ⟨r, hr, hparts⟩ := exists_ok_of_map hfirst
  obtain ⟨hparent, hagain⟩ := Prod.mk.injEq _ _ _ _ ▸ hparts
  obtain ⟨r', hr', hparent'⟩ := exists_ok_of_map hagain
  obtain ⟨hplan, _⟩ := h _ _ _ (by decide) (by decide) (by decide) r hr r' hr'
  rw [hplan, hparent] at hparent'
  exact absurd hparent' (by decide)

end Haive

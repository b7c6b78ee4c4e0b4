import Haive.Mirror.Edits

/-!
# Are the reports true?

A report of a merge is truthful when the merged payload bears it out
(`Report.Truthful`). Reports about nodes always are, and so are the `local-wins`
reports about edges and code links, whose ends are on both sides. A
`kept-modified` report about an edge or a code link is made before its ends are
looked at: it is false exactly when an end does not survive.
-/

namespace Haive

open Lib

/-! ## Truth of a report -/

def Present (merged : PlanMirror) : Subject → Prop
  | .node id => id ∈ merged.nodes.map (·.id)
  | .edge fromNodeId toNodeId kind => ∃ e ∈ merged.edges, e.key = (fromNodeId, toNodeId, kind)
  | .codeLink nodeId repoPath symbol => ∃ l ∈ merged.codeLinks, l.key = (nodeId, repoPath, symbol)

def HoldsLocal (localPayload : PlanMirrorPayload) (merged : PlanMirror) : Subject → ReportField → Prop
  | .node id, .parentId =>
    ∃ n ∈ merged.nodes, n.id = id ∧ ∃ l ∈ localPayload.nodes, l.id = id ∧ n.parentId = l.parentId
  | .node id, .ordinal =>
    ∃ n ∈ merged.nodes, n.id = id ∧ ∃ l ∈ localPayload.nodes, l.id = id ∧ n.ordinal = l.ordinal
  | .edge fromNodeId toNodeId kind, .note =>
    ∃ e ∈ merged.edges, e.key = (fromNodeId, toNodeId, kind) ∧
      ∃ l ∈ localPayload.edges, l.key = (fromNodeId, toNodeId, kind) ∧ e.note = l.note
  | .codeLink nodeId repoPath symbol, .link f =>
    ∃ k ∈ merged.codeLinks, k.key = (nodeId, repoPath, symbol) ∧
      ∃ l ∈ localPayload.codeLinks, l.key = (nodeId, repoPath, symbol) ∧
        linkFields.get f k = linkFields.get f l
  | _, _ => False

def PlanMirrorReport.Truthful (localPayload : PlanMirrorPayload) (merged : PlanMirror) :
    PlanMirrorReport → Prop
  | .localWins subject field _ _ => HoldsLocal localPayload merged subject field
  | .keptModified subject _ => Present merged subject
  | .keptAncestor subject _ => Present merged subject

/-! ## When the ends of a kept item survive -/

/-- The parents merged field by field, with cycles broken. -/
def repairedParent (base : Option Side) (localSide incoming : Side) : String → Option String :=
  match breakCycles localSide ((initialEntries base localSide incoming).rows.length + 1)
      (initialEntries base localSide incoming)
      ((mergeSteps base localSide incoming).flatMap (·.reported)) with
  | .ok (entries, _) => entries.parentOf
  | .error _ => fun _ => none

/-- Both sides have the node, or the side that has it added or modified it, or it is above such a
node. -/
def NodeStays (base : Option Side) (localSide incoming : Side) (id : String) : Prop :=
  ∃ d, KeptAlone base localSide incoming d ∧
    (d = id ∨ Above (repairedParent base localSide incoming) d id)

def ModifiedAlone {T F K : Type} (kd : Keyed T F K) (base localItems incoming : List T) (x : T) :
    Prop :=
  ((x ∈ localItems ∧ kd.key x ∉ incoming.map kd.key) ∨
    (x ∈ incoming ∧ kd.key x ∉ localItems.map kd.key)) ∧
  ∃ b ∈ base, kd.key b = kd.key x ∧ ∃ f, kd.fields.get f x ≠ kd.fields.get f b

def KeptEndsStay (base localSide incoming : Side) : Prop :=
  (∀ e, ModifiedAlone edgeKeyed base.edges localSide.edges incoming.edges e →
    NodeStays (some base) localSide incoming e.fromNodeId ∧
    NodeStays (some base) localSide incoming e.toNodeId) ∧
  (∀ l, ModifiedAlone linkKeyed base.links localSide.links incoming.links l →
    NodeStays (some base) localSide incoming l.nodeId)

theorem MergeRun.nodeStays_iff {base : Option Side} {localSide incoming : Side} {rewired : Entries}
    {broken : List PlanMirrorReport} {kept : Keeping} {m : PlanMirrorMerge}
    (h : MergeRun base localSide incoming rewired broken kept m) (hl : localSide.Tree)
    (hi : incoming.Tree) (id : String) :
    NodeStays base localSide incoming id ↔ id ∈ m.merged.nodes.map (·.id) := by
  have hparent : repairedParent base localSide incoming = rewired.parentOf := by
    unfold repairedParent
    rw [h.breaks]
  rw [h.live_iff hl hi, h.stays_iff hl hi, NodeStays, hparent]

/-! ## Reports of the keyed merge -/

namespace Keyed

variable {T F K : Type} (kd : Keyed T F K)

theorem differ_iff {x b : T} : kd.fields.differ kd.names x b = true ↔
    ∃ f, kd.fields.get f x ≠ kd.fields.get f b := by
  rw [← Bool.not_eq_false, Fields.differ_eq_false]
  simp [kd.mem_names]

theorem onlyItem_report {b : Option T} {x : T} {deletedBy : SideName} {r : PlanMirrorReport}
    (hr : r ∈ (kd.onlyItem b x deletedBy).2) :
    r = .keptModified (kd.subjectOf x) deletedBy ∧ (kd.onlyItem b x deletedBy).1 = [x] ∧
      ∃ b', b = some b' ∧ ∃ f, kd.fields.get f x ≠ kd.fields.get f b' := by
  cases b with
  | none => simp [onlyItem] at hr
  | some b =>
    by_cases hd : kd.fields.differ kd.names x b = true
    · simp only [onlyItem, hd, if_true, List.mem_singleton] at hr ⊢
      exact ⟨hr, trivial, b, rfl, kd.differ_iff.mp hd⟩
    · simp [onlyItem, hd] at hr

section
variable [DecidableEq K] {base localItems incoming : List T}

theorem report_cases (hb : (base.map kd.key).Nodup) (hl : (localItems.map kd.key).Nodup)
    (hi : (incoming.map kd.key).Nodup) {r : PlanMirrorReport}
    (hr : r ∈ (kd.mergeKeyed (some (.ofList base)) (.ofList localItems) (.ofList incoming)).2) :
    (∃ l ∈ localItems, ∃ i ∈ incoming, ∃ f lv iv, kd.key i = kd.key l ∧
      r = .localWins (kd.subjectOf l) (kd.reportField f) lv iv ∧
      kd.fields.get f l ≠ kd.fields.get f i ∧
      ∃ x ∈ (kd.mergeKeyed (some (.ofList base)) (.ofList localItems) (.ofList incoming)).1,
        kd.key x = kd.key l ∧ kd.fields.get f x = kd.fields.get f l) ∨
    (∃ x deletedBy, r = .keptModified (kd.subjectOf x) deletedBy ∧
      ModifiedAlone kd base localItems incoming x ∧
      x ∈ (kd.mergeKeyed (some (.ofList base)) (.ofList localItems) (.ofList incoming)).1) := by
  obtain ⟨key, hr⟩ := kd.mem_mergeKeyed_reports.mp hr
  have absent : ∀ {items : List T}, (Table.ofList items : Table T kd.key).find? key = none →
      key ∉ items.map kd.key := by
    intro items h hk
    exact Table.find?_eq_none.mp h (Table.mem_keys_ofList.mpr hk)
  cases hln : (Table.ofList localItems : Table T kd.key).find? key <;>
    cases hin : (Table.ofList incoming : Table T kd.key).find? key
  · simp [mergeKey, hln, hin] at hr
  · next x =>
    simp only [mergeKey, hln, hin] at hr
    obtain ⟨rfl, hitem, b, hbx, hf⟩ := kd.onlyItem_report hr
    obtain ⟨hmem, rfl⟩ := (Table.find?_ofList hi).mp hin
    obtain ⟨hbm, hbk⟩ := (Table.find?_ofList hb).mp hbx
    refine .inr ⟨x, _, rfl, ⟨.inr ⟨hmem, absent hln⟩, b, hbm, hbk, hf⟩, ?_⟩
    rw [mem_mergeKeyed]
    simp only [mergeKey, hln, hin, hitem, List.mem_singleton]
  · next x =>
    simp only [mergeKey, hln, hin] at hr
    obtain ⟨rfl, hitem, b, hbx, hf⟩ := kd.onlyItem_report hr
    obtain ⟨hmem, rfl⟩ := (Table.find?_ofList hl).mp hln
    obtain ⟨hbm, hbk⟩ := (Table.find?_ofList hb).mp hbx
    refine .inr ⟨x, _, rfl, ⟨.inl ⟨hmem, absent hin⟩, b, hbm, hbk, hf⟩, ?_⟩
    rw [mem_mergeKeyed]
    simp only [mergeKey, hln, hin, hitem, List.mem_singleton]
  · next l i =>
    simp only [mergeKey, hln, hin, mergeItem] at hr
    obtain ⟨f, _, hf⟩ := List.mem_filterMap.mp hr
    split at hf
    · next hc =>
      cases hf
      obtain ⟨hlm, rfl⟩ := (Table.find?_ofList hl).mp hln
      obtain ⟨him, hik⟩ := (Table.find?_ofList hi).mp hin
      refine .inl ⟨l, hlm, i, him, f, _, _, hik, rfl, ?_, ?_⟩
      · intro heq
        simp [pickField, heq] at hc
      · refine ⟨(kd.mergeItem ((Table.ofList base : Table T kd.key).find? (kd.key l)) l i).1, ?_, ?_, ?_⟩
        · have hkey : kd.key (kd.mergeItem ((Table.ofList base : Table T kd.key).find? (kd.key l)) l i).1 =
              kd.key l := (kd.setAll_key _ _ _).trans hik
          rw [mem_mergeKeyed, hkey]
          simp only [mergeKey, hln, hin, List.mem_singleton]
        · exact (kd.setAll_key _ _ _).trans hik
        · rw [mergeItem, kd.fields.get_setAll_of_mem (kd.mem_names f)]
          exact pick3_contested hc
    · cases hf

theorem reported_of_modifiedAlone (hb : (base.map kd.key).Nodup) (hl : (localItems.map kd.key).Nodup)
    (hi : (incoming.map kd.key).Nodup) {x : T} (hx : ModifiedAlone kd base localItems incoming x) :
    ∃ deletedBy, .keptModified (kd.subjectOf x) deletedBy ∈
      (kd.mergeKeyed (some (.ofList base)) (.ofList localItems) (.ofList incoming)).2 := by
  obtain ⟨hside, b, hbm, hbk, hf⟩ := hx
  have hbx : (Table.ofList base : Table T kd.key).find? (kd.key x) = some b :=
    (Table.find?_ofList hb).mpr ⟨hbm, hbk⟩
  have hd := kd.differ_iff.mpr hf
  have absent : ∀ {items : List T}, kd.key x ∉ items.map kd.key →
      (Table.ofList items : Table T kd.key).find? (kd.key x) = none := by
    intro items h
    exact Table.find?_eq_none.mpr fun hk => h (Table.mem_keys_ofList.mp hk)
  rcases hside with ⟨hmem, hno⟩ | ⟨hmem, hno⟩
  · have hln : (Table.ofList localItems : Table T kd.key).find? (kd.key x) = some x :=
      (Table.find?_ofList hl).mpr ⟨hmem, rfl⟩
    refine ⟨.incomingSide, kd.mem_mergeKeyed_reports.mpr ⟨kd.key x, ?_⟩⟩
    simp [mergeKey, hln, absent hno, onlyItem, hbx, hd]
  · have hin : (Table.ofList incoming : Table T kd.key).find? (kd.key x) = some x :=
      (Table.find?_ofList hi).mpr ⟨hmem, rfl⟩
    refine ⟨.localSide, kd.mem_mergeKeyed_reports.mpr ⟨kd.key x, ?_⟩⟩
    simp [mergeKey, hin, absent hno, onlyItem, hbx, hd]

end

end Keyed

/-! ## Reports about nodes -/

section
variable {base : Option Side} {localPayload : PlanMirrorPayload} {incoming : Side}
  {rewired : Entries} {broken : List PlanMirrorReport} {kept : Keeping} {m : PlanMirrorMerge}

/-- A step's entry is in the table, as cycle breaking left it. -/
theorem MergeRun.find_of_step {localSide : Side}
    (h : MergeRun base localSide incoming rewired broken kept m) (hl : localSide.Tree)
    (hi : incoming.Tree) {step : EntryStep} (hstep : step ∈ mergeSteps base localSide incoming) :
    ∃ e, rewired.find? step.entry.node.id = some e ∧ Rewired localSide step.entry e := by
  have hinit : (initialEntries base localSide incoming).find? step.entry.node.id = some step.entry := by
    refine Table.mem_rows_iff.mp ?_
    rw [initialEntries_rows base hl hi]
    exact List.mem_map_of_mem hstep
  have hk : step.entry.node.id ∈ rewired.keys := by
    rw [h.rewire.keys]
    exact Table.mem_keys_iff_find?.mpr ⟨_, hinit⟩
  obtain ⟨e, he⟩ := Table.mem_keys_iff_find?.mp hk
  obtain ⟨e₀, he₀, hrew⟩ := h.rewire.entry _ e he
  rw [hinit] at he₀
  cases he₀
  exact ⟨e, he, hrew⟩

theorem mem_nodes_of_entry {localSide : Side}
    (h : MergeRun base localSide incoming rewired broken kept m) {id : String} {e : Entry}
    (he : rewired.find? id = some e) (hc : e.candidate = none) :
    e.node ∈ m.merged.nodes ∧ e.node.id = id := by
  have hid : e.node.id = id := (Table.find?_key he :)
  exact ⟨h.mem_nodes.mpr ⟨⟨e, hid ▸ he, rfl⟩, ⟨id, e, he, hc, .inl hid.symm⟩⟩, hid⟩

theorem mergeOnly_report {b : Option MirrorNode} {only : MirrorNode} {inLocal : Bool} {rank : Nat}
    {r : PlanMirrorReport} (hr : r ∈ (mergeOnly b only inLocal rank).reported) :
    (∃ deletedBy, r = .keptModified (.node only.id) deletedBy) ∧
      (mergeOnly b only inLocal rank).entry.candidate = none := by
  cases b with
  | none => simp [mergeOnly] at hr
  | some b =>
    by_cases hm : nodeModified only b = true
    · simp only [mergeOnly, hm, if_true, List.mem_singleton] at hr ⊢
      exact ⟨⟨_, hr⟩, trivial⟩
    · simp [mergeOnly, hm] at hr

/-- The first loop's reports: what it kept survives, and where local won the local value stays. -/
theorem step_report_truthful (hwf : WellFormed localPayload) (hi : incoming.Tree)
    (h : MergeRun base (readSide localPayload) incoming rewired broken kept m) {step : EntryStep}
    (hstep : step ∈ mergeSteps base (readSide localPayload) incoming) {r : PlanMirrorReport}
    (hr : r ∈ step.reported) : r.Truthful localPayload m.merged := by
  have hl := readSide_tree hwf
  obtain ⟨id, rank, _, hme⟩ := mem_mergeSteps.mp hstep
  obtain ⟨e, he, hrew⟩ := h.find_of_step hl hi hstep
  rw [mergeEntry_id hme] at he
  have hcand : e.candidate = step.entry.candidate := by
    rcases hrew with rfl | ⟨_, rfl⟩ <;> rfl
  rcases mergeEntry_cases hme with ⟨l, i, hln, hin, hboth⟩ | ⟨l, hln, hin, heq⟩ | ⟨i, hln, hin, heq⟩
  · have hc : e.candidate = none := by
      rw [hcand]
      rcases hboth with ⟨_, rfl⟩ | ⟨s, _, rfl⟩ <;> rfl
    obtain ⟨hmem, hid⟩ := mem_nodes_of_entry h he hc
    obtain ⟨hlm, hlid⟩ := (readSide_find hwf).mp hln
    rcases hboth with ⟨_, rfl⟩ | ⟨s, _, rfl⟩
    · simp [mergeWithoutBase] at hr
    · simp only [mergeBoth, List.mem_append] at hr
      rcases hr with hr | hr
      · split at hr
        · next hcon =>
          rw [List.mem_singleton] at hr
          subst hr
          have hval := pick3_contested hcon
          refine ⟨e.node, hmem, hid.trans hlid.symm, l, hlm, rfl, ?_⟩
          rcases hrew with rfl | ⟨hfrom, _⟩
          · rw [mergeBoth_parentId, hval]
          · simp [mergeBoth, hval] at hfrom
        · cases hr
      · split at hr
        · next hcon =>
          rw [List.mem_singleton] at hr
          subst hr
          refine ⟨e.node, hmem, hid.trans hlid.symm, l, hlm, rfl, ?_⟩
          rw [hrew.ordinal_eq, mergeBoth_ordinal, pick3_contested hcon]
        · cases hr
  · subst heq
    obtain ⟨⟨deletedBy, rfl⟩, hc⟩ := mergeOnly_report hr
    obtain ⟨hmem, hid⟩ := mem_nodes_of_entry h he (hcand.trans hc)
    exact List.mem_map.mpr ⟨e.node, hmem, hid.trans (Table.find?_key hln :).symm⟩
  · subst heq
    obtain ⟨⟨deletedBy, rfl⟩, hc⟩ := mergeOnly_report hr
    obtain ⟨hmem, hid⟩ := mem_nodes_of_entry h he (hcand.trans hc)
    exact List.mem_map.mpr ⟨e.node, hmem, hid.trans (Table.find?_key hin :).symm⟩

/-- Every report about a node is true. -/
theorem node_report_truthful (hwf : WellFormed localPayload) (hi : incoming.Tree)
    (h : MergeRun base (readSide localPayload) incoming rewired broken kept m) {r : PlanMirrorReport}
    (hr : r ∈ kept.reported) : r.Truthful localPayload m.merged := by
  rcases h.keptInv.reports r hr with hr | ⟨id, e, deletedBy, rfl, he, hc⟩
  · rcases List.mem_append.mp hr with hr | hr
    · obtain ⟨step, hstep, hmem⟩ := List.mem_flatMap.mp hr
      exact step_report_truthful hwf hi h hstep hmem
    · obtain ⟨id, e, lv, iv, rfl, he, hin, hfrom, hc, _⟩ := h.brokenReports r hr
      obtain ⟨hmem, hid⟩ := mem_nodes_of_entry h he hc
      have hsound := h.sound.sound id e he
      obtain ⟨l, hln⟩ := Table.mem_keys_iff_find?.mp (hsound.inLocal.mp hin)
      rw [hid] at hln
      obtain ⟨hlm, hlid⟩ := (readSide_find hwf).mp hln
      refine ⟨e.node, hmem, hid, l, hlm, hlid, ?_⟩
      rw [hsound.localParent hin hfrom, hid, Side.parentOf_find hln]
  · show id ∈ m.merged.nodes.map (·.id)
    rw [h.nodes]
    exact mem_liveNodes_ids.mpr ⟨e, he, hc⟩

end

/-! ## The theorem -/

theorem readIncoming_links_nodup {localPayload incomingPayload : PlanMirrorPayload}
    (hl : WellFormed localPayload) (hi : WellFormed incomingPayload) :
    ((readIncoming (readSide localPayload) incomingPayload).links.map MirrorCodeLink.key).Nodup := by
  cases incomingPayload with
  | v1 nodes edges => exact hl.linkKeys
  | v2 mirror => exact hi.linkKeys

theorem readIncoming_edges (localSide : Side) (incomingPayload : PlanMirrorPayload) :
    (readIncoming localSide incomingPayload).edges = incomingPayload.edges := by
  cases incomingPayload <;> rfl

theorem readIncoming_link_end {localPayload incomingPayload : PlanMirrorPayload}
    (hl : WellFormed localPayload) (hi : WellFormed incomingPayload) {l i : MirrorCodeLink}
    (hlm : l ∈ localPayload.codeLinks)
    (him : i ∈ (readIncoming (readSide localPayload) incomingPayload).links)
    (hkey : i.key = l.key) (hne : i ≠ l) : i.nodeId ∈ incomingPayload.nodes.map (·.id) := by
  cases incomingPayload with
  | v1 nodes edges => exact absurd (List.inj_on_of_nodup_map hl.linkKeys him hlm hkey) hne
  | v2 mirror => exact hi.linkEnds i him

section
variable {base localPayload incomingPayload : PlanMirrorPayload} {rewired : Entries}
  {broken : List PlanMirrorReport} {kept : Keeping} {m : PlanMirrorMerge}

theorem survives_of_both (hl : WellFormed localPayload) (hi : WellFormed incomingPayload)
    (h : MergeRun (some (readSide base)) (readSide localPayload)
      (readIncoming (readSide localPayload) incomingPayload) rewired broken kept m) {id : String}
    (hid : id ∈ localPayload.nodes.map (·.id)) (hid' : id ∈ incomingPayload.nodes.map (·.id)) :
    id ∈ m.merged.nodes.map (·.id) := by
  have hlt := readSide_tree hl
  have hit := readIncoming_tree hi (readSide localPayload)
  refine h.survives_of_keptAlone hlt hit (.inl ⟨hlt.mem_keys.mpr hid, hit.mem_keys.mpr ?_⟩)
  cases incomingPayload <;> exact hid'

theorem edge_report_truthful (hb : WellFormed base) (hl : WellFormed localPayload)
    (hi : WellFormed incomingPayload)
    (h : MergeRun (some (readSide base)) (readSide localPayload)
      (readIncoming (readSide localPayload) incomingPayload) rewired broken kept m)
    (ends : ∀ e, ModifiedAlone edgeKeyed base.edges localPayload.edges incomingPayload.edges e →
      e.fromNodeId ∈ m.merged.nodes.map (·.id) ∧ e.toNodeId ∈ m.merged.nodes.map (·.id))
    {r : PlanMirrorReport} (hr : r ∈ (mergedEdges (some (readSide base)) (readSide localPayload)
      (readIncoming (readSide localPayload) incomingPayload)).2) :
    r.Truthful localPayload m.merged := by
  rw [mergedEdges, edgeMap, edgeMap, readIncoming_edges] at hr
  have hmerged : m.merged.edges = _ := h.edges
  rw [mergedEdges, edgeMap, edgeMap, readIncoming_edges] at hmerged
  rcases edgeKeyed.report_cases hb.edgeKeys hl.edgeKeys hi.edgeKeys hr with
    ⟨l, hlm, i, him, f, lv, iv, hkey, rfl, _, x, hx, hxk, hxf⟩ | ⟨x, deletedBy, rfl, halone, hx⟩
  · have hfrom : i.fromNodeId = l.fromNodeId := congrArg (·.1) hkey
    have hto : i.toNodeId = l.toNodeId := congrArg (·.2.1) hkey
    have hends := hl.edgeEnds l hlm
    have hends' := hi.edgeEnds i him
    rw [hfrom, hto] at hends'
    refine ⟨x, ?_, hxk, l, hlm, rfl, hxf⟩
    rw [hmerged, List.mem_filter, decide_eq_true_eq]
    have hxfrom : x.fromNodeId = l.fromNodeId := congrArg (·.1) hxk
    have hxto : x.toNodeId = l.toNodeId := congrArg (·.2.1) hxk
    rw [hxfrom, hxto]
    exact ⟨hx, survives_of_both hl hi h hends.1 hends'.1, survives_of_both hl hi h hends.2 hends'.2⟩
  · refine ⟨x, ?_, rfl⟩
    rw [hmerged, List.mem_filter, decide_eq_true_eq]
    exact ⟨hx, ends x halone⟩

theorem link_report_truthful (hb : WellFormed base) (hl : WellFormed localPayload)
    (hi : WellFormed incomingPayload)
    (h : MergeRun (some (readSide base)) (readSide localPayload)
      (readIncoming (readSide localPayload) incomingPayload) rewired broken kept m)
    (ends : ∀ l, ModifiedAlone linkKeyed base.codeLinks localPayload.codeLinks
      (readIncoming (readSide localPayload) incomingPayload).links l →
      l.nodeId ∈ m.merged.nodes.map (·.id))
    {r : PlanMirrorReport} (hr : r ∈ (mergedLinks (some (readSide base)) (readSide localPayload)
      (readIncoming (readSide localPayload) incomingPayload)).2) :
    r.Truthful localPayload m.merged := by
  rcases linkKeyed.report_cases hb.linkKeys hl.linkKeys (readIncoming_links_nodup hl hi) hr with
    ⟨l, hlm, i, him, f, lv, iv, hkey, rfl, hne, x, hx, hxk, hxf⟩ | ⟨x, deletedBy, rfl, halone, hx⟩
  · have hnode : i.nodeId = l.nodeId := congrArg (·.1) hkey
    have hend' := readIncoming_link_end hl hi hlm him hkey (by rintro rfl; exact hne rfl)
    rw [hnode] at hend'
    refine ⟨x, ?_, hxk, l, hlm, rfl, hxf⟩
    rw [h.links, List.mem_filter, decide_eq_true_eq]
    have hxnode : x.nodeId = l.nodeId := congrArg (·.1) hxk
    rw [hxnode]
    exact ⟨hx, survives_of_both hl hi h (hl.linkEnds l hlm) hend'⟩
  · refine ⟨x, ?_, rfl⟩
    rw [h.links, List.mem_filter, decide_eq_true_eq]
    exact ⟨hx, ends x halone⟩

end

/-- Two nodes under a root, with an edge between them. -/
def edgeSketch (note : Option String) : PlanMirror :=
  { sketch [("r", none, 0), ("a", some "r", 0), ("b", some "r", 1)] with
    edges := [⟨"a", "b", .dependsOn, note⟩] }

def withoutEnd : PlanMirror := sketch [("r", none, 0), ("a", some "r", 0)]

end Haive

import Haive.Mirror.Edits
import Haive.Mirror.Render
import Haive.Plan.Tree

/-!
# Two sides that delete

Both sides render the plan they have left and the merge compares what they
rendered. A deletion moves up the ordinals of the siblings that come later, so to
the merge those are modified: one that the other side deleted comes back.
`independent_deletions_commute_iff` says that nothing else can go wrong.
-/

namespace Haive

open Lib

/-! ## A plan without some of its nodes -/

/-- The plan without some nodes, their edges and their code links. -/
def PlanDb.without (db : PlanDb) (gone : List Uuid) : PlanDb :=
  { db with
    nodes := db.nodes.filter (·.id ∉ gone)
    edges := db.edges.filter fun e => e.fromNodeId ∉ gone ∧ e.toNodeId ∉ gone
    links := db.links.filter (·.nodeId ∉ gone) }

/-- Nodes that are not the root, with everything below them. -/
structure Prunable (db : PlanDb) (gone : List Uuid) : Prop where
  nonRoot : ∀ id ∈ gone, ∃ r ∈ db.nodes.find? id, r.parentId ≠ none
  closed : ∀ r ∈ db.nodes.rows, ∀ p ∈ r.parentId, p ∈ gone → r.id ∈ gone

section Without

variable {db : PlanDb} {gone : List Uuid}

theorem mem_without {r : PlanNodeRow} :
    r ∈ (db.without gone).nodes.rows ↔ r ∈ db.nodes.rows ∧ r.id ∉ gone := by
  simp [PlanDb.without, Table.filter]

theorem find?_without (id : Uuid) : (db.without gone).nodes.find? id =
    if id ∈ gone then none else db.nodes.find? id := by
  show (db.nodes.filter _).find? id = _
  rw [Table.find?_filter]
  cases hr : db.nodes.find? id with
  | none => simp
  | some r =>
    have hid : r.id = id := (Table.find?_key hr :)
    by_cases h : id ∈ gone
    · simp [Option.filter, hid, h]
    · simp [Option.filter, hid, h]

theorem PlanTree.without (h : PlanTree db) (hgone : Prunable db gone) : PlanTree (db.without gone) := by
  have hplanted : Settled db.spots := settled_iff_planTree.mpr h
  refine settled_iff_planTree.mp (?_ : Settled (db.without gone).spots)
  refine hplanted.delete (d := (· ∈ gone)) ?_ ?_ ?_
  · intro id hid
    rw [PlanDb.spots, find?_without, if_pos hid]
    rfl
  · intro id hid
    rw [PlanDb.spots, find?_without, if_neg hid, PlanDb.spots]
  · intro id s p hs hp hgoneP
    obtain ⟨r, hr, rfl⟩ := PlanDb.spots_eq_some.mp hs
    have := hgone.closed r (Table.find?_mem hr) p hp hgoneP
    rwa [(Table.find?_key hr : r.id = id)] at this

/-- A plan that has nodes keeps its root. -/
theorem without_ne_nil (h : PlanTree db) (hgone : Prunable db gone) (hne : db.nodes.rows ≠ []) :
    (db.without gone).nodes.rows ≠ [] := by
  obtain ⟨r, hr⟩ := List.exists_mem_of_ne_nil _ hne
  obtain ⟨ids, hids, _⟩ := h.path r hr
  obtain ⟨root, hroot, hparent⟩ := hids.exists_root
  refine List.ne_nil_of_mem (mem_without.mpr ⟨hroot, fun hmem => ?_⟩)
  obtain ⟨r', hr', hp'⟩ := hgone.nonRoot _ hmem
  rw [Option.mem_def, Table.mem_rows_iff.mp hroot, Option.some.injEq] at hr'
  exact hp' (hr' ▸ hparent)

theorem siblingsBefore_without_le (gone : List Uuid) (r : PlanNodeRow) :
    siblingsBefore (db.without gone).nodes r ≤ siblingsBefore db.nodes r :=
  List.Sublist.countP_le (List.filter_sublist)

theorem allowed_of_ordinal_le {r : PlanNodeRow} {k k' : Nat} (h : (r.portable k).trimmed.allowed = true)
    (hle : k' ≤ k) : (r.portable k').trimmed.allowed = true := by
  simp only [MirrorNode.allowed, MirrorNode.trimmed, PlanNodeRow.portable, Bool.and_eq_true] at h ⊢
  obtain ⟨⟨⟨⟨⟨hid, hparent⟩, hordinal⟩, hmin⟩, hmax⟩, hbody⟩ := h
  exact ⟨⟨⟨⟨⟨hid, hparent⟩, decide_eq_true (hle.trans (of_decide_eq_true hordinal))⟩, hmin⟩, hmax⟩, hbody⟩

/-- What renders still renders with fewer nodes. -/
theorem render_without {base : PlanMirror} (h : PlanTree db) (hbase : renderPlanMirror db = .ok (some base))
    (hgone : Prunable db gone) : ∃ m, renderPlanMirror (db.without gone) = .ok (some m) := by
  obtain ⟨hne, rfl, hallowed⟩ := renderPlanMirror_eq_ok.mp hbase
  have hne' := without_ne_nil h hgone hne
  refine ⟨_, renderPlanMirror_eq_ok.mpr ⟨hne', rfl, ?_⟩⟩
  simp only [PlanMirror.allowed, PlanMirror.trimmed, portableMirror, Bool.and_eq_true, decide_eq_true_eq,
    List.length_map, List.all_eq_true, length_portableNodes, (perm_loadPlanNodes _).length_eq] at hallowed ⊢
  obtain ⟨⟨⟨⟨⟨⟨_, hnodes⟩, hedges⟩, hlinks⟩, hnode⟩, hedge⟩, hlink⟩ := hallowed
  refine ⟨⟨⟨⟨⟨⟨?_, ?_⟩, ?_⟩, ?_⟩, ?_⟩, ?_⟩, ?_⟩
  · exact List.length_pos_of_ne_nil hne'
  · exact List.length_filter_le _ _ |>.trans hnodes
  · exact List.length_filter_le _ _ |>.trans hedges
  · exact List.length_filter_le _ _ |>.trans hlinks
  · intro n hn
    obtain ⟨_, hportable, rfl⟩ := List.mem_map.mp hn
    obtain ⟨r, hr, rfl⟩ := mem_portableNodes.mp hportable
    have hbefore := hnode _ (List.mem_map_of_mem (mem_portableNodes.mpr ⟨r, (mem_without.mp hr).1, rfl⟩))
    exact allowed_of_ordinal_le hbefore (siblingsBefore_without_le gone r)
  · intro e he
    obtain ⟨row, hrow, rfl⟩ := List.mem_map.mp he
    exact hedge _ (List.mem_map_of_mem (List.mem_filter.mp hrow).1)
  · intro l hl
    obtain ⟨_, hportable, rfl⟩ := List.mem_map.mp hl
    obtain ⟨row, hrow, rfl⟩ := List.mem_map.mp hportable
    exact hlink _ (List.mem_map_of_mem (List.mem_map_of_mem (List.mem_filter.mp hrow).1))

end Without

/-! ## Rendered sides -/

theorem rendered_tree {db : PlanDb} {m : PlanMirror} (h : PlanTree db)
    (hm : renderPlanMirror db = .ok (some m)) : (readSide (.v2 m)).Tree := by
  have hfind : ∀ {s n}, (readSide (.v2 m)).byId.find? s = some n ↔
      ∃ r ∈ db.nodes.rows, r.id.text = s ∧ n = mirrorNode db.nodes r := rendered_find hm
  have hparent : ∀ {r}, r ∈ db.nodes.rows →
      (readSide (.v2 m)).parentOf r.id.text = r.parentId.map (·.text) :=
    fun hr => Side.parentOf_find (hfind.mpr ⟨_, hr, rfl, rfl⟩)
  refine ⟨Table.ofList_rows (rendered_nodup hm), ?_, ?_⟩
  · intro s p hp
    obtain ⟨n, hn, hnp⟩ := Option.bind_eq_some_iff.mp hp
    obtain ⟨r, hr, _, rfl⟩ := hfind.mp hn
    obtain ⟨q, hq, rfl⟩ := Option.map_eq_some_iff.mp hnp
    obtain ⟨t, ht⟩ := Table.mem_keys_iff_find?.mp (h.parentLive r hr q hq)
    refine Table.mem_keys_iff_find?.mpr ⟨_, hfind.mpr ⟨t, Table.find?_mem ht, ?_, rfl⟩⟩
    rw [(Table.find?_key ht : t.id = q)]
  · intro s
    cases hs : (readSide (.v2 m)).byId.find? s with
    | none => exact .root (by simp [Side.parentOf, hs])
    | some n =>
      obtain ⟨r, hr, rfl, _⟩ := hfind.mp hs
      obtain ⟨ids, hids, hpath⟩ := h.path r hr
      -- A climb follows the lineage.
      clear hs hpath
      generalize r.id = id at hids
      induction hids with
      | @root id r hr hp =>
        refine .root ?_
        have := hparent (Table.find?_mem hr)
        rw [(Table.find?_key hr : r.id = id), hp] at this
        exact this
      | @child id p r ids hr hp _ ih =>
        refine .step ?_ ih
        have := hparent (Table.find?_mem hr)
        rw [(Table.find?_key hr : r.id = id), hp] at this
        exact this

/-- A deletion moves the node up among its siblings. -/
def Shifted (db : PlanDb) (gone : List Uuid) (r : PlanNodeRow) : Prop :=
  ∃ s ∈ db.nodes.rows, s.id ∈ gone ∧ s.parentId = r.parentId ∧ s.displayKey < r.displayKey

instance (db : PlanDb) (gone : List Uuid) (r : PlanNodeRow) : Decidable (Shifted db gone r) :=
  inferInstanceAs (Decidable (∃ s ∈ db.nodes.rows, _))

theorem nodeModified_iff_shifted {db : PlanDb} {gone : List Uuid} {r : PlanNodeRow} :
    nodeModified (mirrorNode (db.without gone).nodes r) (mirrorNode db.nodes r) = true ↔ Shifted db gone r := by
  have hordinal : (mirrorNode (db.without gone).nodes r).ordinal = (mirrorNode db.nodes r).ordinal ↔
      ¬ Shifted db gone r := by
    refine Iff.trans countP_filter_eq_iff ?_
    simp only [Bool.and_eq_true, decide_eq_true_eq, Shifted, not_exists, not_and]
    exact ⟨fun h s hs hg hp hlt => h s hs ⟨hp, hlt⟩ hg, fun h s hs hboth hg => h s hs hg hboth.1 hboth.2⟩
  rw [nodeModified_iff, ← not_iff_not, ← hordinal]
  constructor
  · intro h
    by_contra hne
    exact h (.inr (.inl hne))
  · rintro heq (hparent | hne | ⟨f, hf⟩)
    · exact hparent rfl
    · exact hne heq
    · cases f <;> exact hf rfl

/-! ## The merge of two sides that delete -/

/-- The merge of what both sides rendered has no conflict and keeps exactly the nodes that neither
side deleted. -/
def DeletionsCommute (db : PlanDb) (base : PlanMirror) (goneLocal goneIncoming : List Uuid) : Prop :=
  ∃ l i m, renderPlanMirror (db.without goneLocal) = .ok (some l) ∧
    renderPlanMirror (db.without goneIncoming) = .ok (some i) ∧
    mergePlanMirror (some (.v2 base)) (.v2 l) (.v2 i) = .ok m ∧ m.conflicts = [] ∧
    ∀ id, id ∈ m.merged.nodes.map (·.id) ↔
      ∃ r ∈ db.nodes.rows, r.id.text = id ∧ r.id ∉ goneLocal ∧ r.id ∉ goneIncoming

section Merge

variable {db : PlanDb} {base l i : PlanMirror} {gone goneLocal goneIncoming : List Uuid}

theorem side_find {m : PlanMirror} (hm : renderPlanMirror (db.without gone) = .ok (some m)) {r : PlanNodeRow}
    (hr : r ∈ db.nodes.rows) : (readSide (.v2 m)).byId.find? r.id.text =
      if r.id ∈ gone then none else some (mirrorNode (db.without gone).nodes r) := by
  by_cases hgone : r.id ∈ gone
  · rw [if_pos hgone, Option.eq_none_iff_forall_not_mem]
    intro n hn
    obtain ⟨s, hs, hid, _⟩ := (rendered_find hm).mp hn
    obtain ⟨hs, hkept⟩ := mem_without.mp hs
    exact hkept (Uuid.ext_text hid ▸ hgone)
  · rw [if_neg hgone]
    exact (rendered_find hm).mpr ⟨r, mem_without.mpr ⟨hr, hgone⟩, rfl, rfl⟩

theorem side_parentOf {m : PlanMirror} (hm : renderPlanMirror (db.without gone) = .ok (some m))
    {r : PlanNodeRow} (hr : r ∈ db.nodes.rows) (hgone : r.id ∉ gone) :
    (readSide (.v2 m)).parentOf r.id.text = r.parentId.map (·.text) := by
  rw [Side.parentOf, side_find hm hr, if_neg hgone]
  rfl

/-- A node that one side deleted survives on its own account exactly if the other side's deletions
moved it up. -/
theorem keptAlone_iff_rendered (hbase : renderPlanMirror db = .ok (some base))
    (hl : renderPlanMirror (db.without goneLocal) = .ok (some l))
    (hi : renderPlanMirror (db.without goneIncoming) = .ok (some i)) {id : String} :
    KeptAlone (some (readSide (.v2 base))) (readSide (.v2 l)) (readSide (.v2 i)) id ↔
      ∃ r ∈ db.nodes.rows, r.id.text = id ∧
        ((r.id ∉ goneLocal ∧ r.id ∉ goneIncoming) ∨
          (r.id ∉ goneLocal ∧ r.id ∈ goneIncoming ∧ Shifted db goneLocal r) ∨
          (r.id ∈ goneLocal ∧ r.id ∉ goneIncoming ∧ Shifted db goneIncoming r)) := by
  have hb : ∀ {r}, r ∈ db.nodes.rows →
      baseNode (some (readSide (.v2 base))) r.id.text = some (mirrorNode db.nodes r) :=
    fun hr => (rendered_find hbase).mpr ⟨_, hr, rfl, rfl⟩
  have hrow : ∀ {gone m n}, renderPlanMirror (db.without gone) = .ok (some m) →
      (readSide (.v2 m)).byId.find? id = some n → ∃ r ∈ db.nodes.rows, r.id.text = id ∧ r.id ∉ gone ∧
        n = mirrorNode (db.without gone).nodes r := by
    intro gone m n hm hn
    obtain ⟨r, hr, hid, rfl⟩ := (rendered_find hm).mp hn
    obtain ⟨hr, hkept⟩ := mem_without.mp hr
    exact ⟨r, hr, hid, hkept, rfl⟩
  constructor
  · rintro (⟨hinL, hinI⟩ | ⟨only, ⟨honly, hnone⟩ | ⟨hnone, honly⟩, hmod⟩)
    · obtain ⟨n, hn⟩ := Table.mem_keys_iff_find?.mp hinL
      obtain ⟨r, hr, rfl, hkept, _⟩ := hrow hl hn
      refine ⟨r, hr, rfl, .inl ⟨hkept, fun hgone => ?_⟩⟩
      obtain ⟨n', hn'⟩ := Table.mem_keys_iff_find?.mp hinI
      rw [side_find hi hr, if_pos hgone] at hn'
      cases hn'
    · obtain ⟨r, hr, rfl, hkept, rfl⟩ := hrow hl honly
      refine ⟨r, hr, rfl, .inr (.inl ⟨hkept, ?_, nodeModified_iff_shifted.mp (hmod _ (hb hr))⟩)⟩
      by_contra hgone
      rw [side_find hi hr, if_neg hgone] at hnone
      cases hnone
    · obtain ⟨r, hr, rfl, hkept, rfl⟩ := hrow hi honly
      refine ⟨r, hr, rfl, .inr (.inr ⟨?_, hkept, nodeModified_iff_shifted.mp (hmod _ (hb hr))⟩)⟩
      by_contra hgone
      rw [side_find hl hr, if_neg hgone] at hnone
      cases hnone
  · rintro ⟨r, hr, rfl, ⟨hkL, hkI⟩ | ⟨hkL, hgI, hshift⟩ | ⟨hgL, hkI, hshift⟩⟩
    · refine .inl ⟨?_, ?_⟩
      · rw [Table.mem_keys_iff_find?, side_find hl hr, if_neg hkL]
        exact ⟨_, rfl⟩
      · rw [Table.mem_keys_iff_find?, side_find hi hr, if_neg hkI]
        exact ⟨_, rfl⟩
    · refine .inr ⟨_, .inl ⟨by rw [side_find hl hr, if_neg hkL], by rw [side_find hi hr, if_pos hgI]⟩, ?_⟩
      intro b hbase'
      rw [hb hr, Option.some.injEq] at hbase'
      exact hbase' ▸ nodeModified_iff_shifted.mpr hshift
    · refine .inr ⟨_, .inr ⟨by rw [side_find hl hr, if_pos hgL], by rw [side_find hi hr, if_neg hkI]⟩, ?_⟩
      intro b hbase'
      rw [hb hr, Option.some.injEq] at hbase'
      exact hbase' ▸ nodeModified_iff_shifted.mpr hshift

/-- Both sides agree on the parent of every node. -/
theorem rewired_parent {rewired : Entries} (hs : rewired.Sound (readSide (.v2 l)) (readSide (.v2 i)))
    (hl : renderPlanMirror (db.without goneLocal) = .ok (some l))
    (hi : renderPlanMirror (db.without goneIncoming) = .ok (some i)) {r : PlanNodeRow}
    (hr : r ∈ db.nodes.rows) {p : String} (hp : rewired.parentOf r.id.text = some p) :
    r.parentId.map (·.text) = some p := by
  obtain ⟨e, he, hep⟩ := Option.bind_eq_some_iff.mp hp
  have hid : e.node.id = r.id.text := (Table.find?_key he :)
  have hsound := hs.sound _ e he
  -- The parent is that of a side which has the node.
  by_cases hf : e.inLocal = true ∧ e.parentFromIncoming = false
  · have hkey := hsound.inLocal.mp hf.1
    rw [hid, Table.mem_keys_iff_find?, side_find hl hr] at hkey
    by_cases hgone : r.id ∈ goneLocal
    · simp [hgone] at hkey
    · rw [← side_parentOf hl hr hgone, ← hid, ← hsound.localParent hf.1 hf.2]
      exact hep
  · have hf' : e.inLocal = false ∨ e.parentFromIncoming = true := by
      cases h₁ : e.inLocal with
      | false => exact .inl rfl
      | true =>
        cases h₂ : e.parentFromIncoming with
        | false => exact absurd ⟨h₁, h₂⟩ hf
        | true => exact .inr rfl
    have hparent := hsound.incomingParent hf'
    by_cases hgone : r.id ∈ goneIncoming
    · rw [hid, Side.parentOf, side_find hi hr, if_pos hgone] at hparent
      rw [hparent] at hep
      cases hep
    · rw [← side_parentOf hi hr hgone, ← hid, ← hparent]
      exact hep

/-- What is above a node that no side deleted was deleted by no side either. -/
theorem above_kept {rewired : Entries} (htree : PlanTree db) (hlocal : Prunable db goneLocal)
    (hincoming : Prunable db goneIncoming) (hl : renderPlanMirror (db.without goneLocal) = .ok (some l))
    (hi : renderPlanMirror (db.without goneIncoming) = .ok (some i))
    (hs : rewired.Sound (readSide (.v2 l)) (readSide (.v2 i))) {d id : String}
    (hd : ∃ r ∈ db.nodes.rows, r.id.text = d ∧ r.id ∉ goneLocal ∧ r.id ∉ goneIncoming)
    (habove : Above rewired.parentOf d id) :
    ∃ r ∈ db.nodes.rows, r.id.text = id ∧ r.id ∉ goneLocal ∧ r.id ∉ goneIncoming := by
  have hstep : ∀ {d id}, (∃ r ∈ db.nodes.rows, r.id.text = d ∧ r.id ∉ goneLocal ∧ r.id ∉ goneIncoming) →
      rewired.parentOf d = some id →
      ∃ r ∈ db.nodes.rows, r.id.text = id ∧ r.id ∉ goneLocal ∧ r.id ∉ goneIncoming := by
    rintro d id ⟨r, hr, rfl, hnl, hni⟩ hp
    obtain ⟨q, hq, rfl⟩ := Option.map_eq_some_iff.mp (rewired_parent hs hl hi hr hp)
    obtain ⟨t, ht⟩ := Table.mem_keys_iff_find?.mp (htree.parentLive r hr q hq)
    have htq : t.id = q := (Table.find?_key ht :)
    refine ⟨t, Table.find?_mem ht, congrArg _ htq, ?_, ?_⟩
    · rw [htq]
      exact fun hgone => hnl (hlocal.closed r hr q hq hgone)
    · rw [htq]
      exact fun hgone => hni (hincoming.closed r hr q hq hgone)
  induction habove with
  | single hp => exact hstep hd hp
  | tail _ hp ih => exact hstep ih hp

theorem mergeBoth_conflicts_nil {b : Option MirrorNode} {l i : MirrorNode} (rank : Nat)
    (h : ∀ f, askedFields.get f l = askedFields.get f i) : (mergeBoth b l i rank).conflicts = [] := by
  refine List.filterMap_eq_nil_iff.mpr fun f _ => ?_
  rw [askedConflict, pickAsked, h f, pick3, if_pos rfl]
  rfl

theorem mergeOnly_conflicts_nil (b : Option MirrorNode) (only : MirrorNode) (inLocal : Bool) (rank : Nat) :
    (mergeOnly b only inLocal rank).conflicts = [] := by
  unfold mergeOnly
  cases b with
  | none => rfl
  | some b =>
    dsimp only
    split <;> rfl

/-- No side edited a field that people are asked about. -/
theorem no_conflicts (hl : renderPlanMirror (db.without goneLocal) = .ok (some l))
    (hi : renderPlanMirror (db.without goneIncoming) = .ok (some i)) (base : Side) :
    (mergeSteps (some base) (readSide (.v2 l)) (readSide (.v2 i))).flatMap (·.conflicts) = [] := by
  rw [List.flatMap_eq_nil_iff]
  intro step hstep
  obtain ⟨id, rank, _, hentry⟩ := mem_mergeSteps.mp hstep
  rcases mergeEntry_cases hentry with ⟨ln, n, hln, hn, ⟨hnone, _⟩ | ⟨s, _, rfl⟩⟩ | ⟨n, _, _, rfl⟩ | ⟨n, _, _, rfl⟩
  · cases hnone
  · obtain ⟨r, hr, rfl, rfl⟩ := (rendered_find hl).mp hln
    obtain ⟨r', hr', hid, rfl⟩ := (rendered_find hi).mp hn
    have hrow : r' = r :=
      Table.key_injective (mem_without.mp hr').1 (mem_without.mp hr).1 (Uuid.ext_text hid)
    subst hrow
    exact mergeBoth_conflicts_nil rank fun f => by cases f <;> rfl
  · exact mergeOnly_conflicts_nil _ _ _ _
  · exact mergeOnly_conflicts_nil _ _ _ _

end Merge

section Commute

variable {db : PlanDb} {base : PlanMirror} {goneLocal goneIncoming : List Uuid}

/-- A node that was moved up comes back. -/
theorem DeletionsCommute.not_shifted (h : DeletionsCommute db base goneLocal goneIncoming)
    (htree : PlanTree db) (hbase : renderPlanMirror db = .ok (some base))
    (hlocal : Prunable db goneLocal) (hincoming : Prunable db goneIncoming) {r : PlanNodeRow}
    (hr : r ∈ db.nodes.rows) : (r.id ∈ goneIncoming → r.id ∉ goneLocal → ¬ Shifted db goneLocal r) ∧
      (r.id ∈ goneLocal → r.id ∉ goneIncoming → ¬ Shifted db goneIncoming r) := by
  obtain ⟨l, i, m, hl, hi, hok, _, hnodes⟩ := h
  have hlt := rendered_tree (htree.without hlocal) hl
  have hit := rendered_tree (htree.without hincoming) hi
  obtain ⟨rewired, broken, kept, m', hok', hrun⟩ := mergeSides_run (some (readSide (.v2 base))) hlt hit
  have hm : m' = m := by
    have heq : Except.ok m' = Except.ok m := hok'.symm.trans hok
    exact Except.ok.inj heq
  subst hm
  have hkept := fun id => (keptAlone_iff_rendered hbase hl hi : KeptAlone _ _ _ id ↔ _)
  have hout : KeptAlone (some (readSide (.v2 base))) (readSide (.v2 l)) (readSide (.v2 i)) r.id.text →
      r.id ∉ goneLocal ∧ r.id ∉ goneIncoming := by
    intro hk
    obtain ⟨r', _, hid, hnot⟩ := (hnodes r.id.text).mp (hrun.survives_of_keptAlone hlt hit hk)
    exact Uuid.ext_text hid ▸ hnot
  constructor
  · intro hgi hgl hshift
    exact (hout ((hkept _).mpr ⟨r, hr, rfl, .inr (.inl ⟨hgl, hgi, hshift⟩)⟩)).2 hgi
  · intro hgl hgi hshift
    exact (hout ((hkept _).mpr ⟨r, hr, rfl, .inr (.inr ⟨hgl, hgi, hshift⟩)⟩)).1 hgl

/-- Otherwise nothing does: what survives on its own account was deleted by no side, and so was
nothing above it. -/
theorem deletionsCommute_of_not_shifted (htree : PlanTree db) (hbase : renderPlanMirror db = .ok (some base))
    (hlocal : Prunable db goneLocal) (hincoming : Prunable db goneIncoming)
    (hshiftL : ∀ r ∈ db.nodes.rows, r.id ∈ goneIncoming → r.id ∉ goneLocal → ¬ Shifted db goneLocal r)
    (hshiftI : ∀ r ∈ db.nodes.rows, r.id ∈ goneLocal → r.id ∉ goneIncoming → ¬ Shifted db goneIncoming r) :
    DeletionsCommute db base goneLocal goneIncoming := by
  obtain ⟨l, hl⟩ := render_without htree hbase hlocal
  obtain ⟨i, hi⟩ := render_without htree hbase hincoming
  have hlt := rendered_tree (htree.without hlocal) hl
  have hit := rendered_tree (htree.without hincoming) hi
  obtain ⟨rewired, broken, kept, m, hok, hrun⟩ := mergeSides_run (some (readSide (.v2 base))) hlt hit
  have halone : ∀ id, KeptAlone (some (readSide (.v2 base))) (readSide (.v2 l)) (readSide (.v2 i)) id ↔
      ∃ r ∈ db.nodes.rows, r.id.text = id ∧ r.id ∉ goneLocal ∧ r.id ∉ goneIncoming := by
    intro id
    rw [keptAlone_iff_rendered hbase hl hi]
    refine exists_congr fun r => and_congr_right fun hr => and_congr_right fun _ => ?_
    constructor
    · rintro (h | ⟨hgl, hgi, hshift⟩ | ⟨hgl, hgi, hshift⟩)
      · exact h
      · exact absurd hshift (hshiftL r hr hgi hgl)
      · exact absurd hshift (hshiftI r hr hgl hgi)
    · exact .inl
  refine ⟨l, i, m, hl, hi, hok, ?_, fun id => ?_⟩
  · rw [hrun.conflicts]
    exact no_conflicts hl hi _
  · rw [hrun.live_iff hlt hit, hrun.stays_iff hlt hit]
    constructor
    · rintro ⟨d, hd, rfl | habove⟩
      · exact (halone d).mp hd
      · exact above_kept htree hlocal hincoming hl hi hrun.sound ((halone d).mp hd) habove
    · exact fun h => ⟨id, (halone id).mpr h, .inl rfl⟩

end Commute

/-- Deletions on both sides commute exactly if no node that only one side deleted has an earlier
sibling that the other side deleted. -/
theorem independent_deletions_commute_iff (db : PlanDb) (base : PlanMirror) (goneLocal goneIncoming : List Uuid)
    (hsound : PlanSound db) (hbase : renderPlanMirror db = .ok (some base))
    (hlocal : Prunable db goneLocal) (hincoming : Prunable db goneIncoming) :
    DeletionsCommute db base goneLocal goneIncoming ↔
      (∀ r ∈ db.nodes.rows, r.id ∈ goneIncoming → r.id ∉ goneLocal → ¬ Shifted db goneLocal r) ∧
      (∀ r ∈ db.nodes.rows, r.id ∈ goneLocal → r.id ∉ goneIncoming → ¬ Shifted db goneIncoming r) := by
  have htree := hsound.toPlanTree
  constructor
  · intro h
    constructor
    · exact fun r hr => (h.not_shifted htree hbase hlocal hincoming hr).1
    · exact fun r hr => (h.not_shifted htree hbase hlocal hincoming hr).2
  · rintro ⟨hshiftL, hshiftI⟩
    exact deletionsCommute_of_not_shifted htree hbase hlocal hincoming hshiftL hshiftI

namespace Sample

/-- A root with one child, which has the other. -/
def nested : PlanDb where
  repositoryExists := true
  nodes :=
    ⟨[ row root none "/00000000-0000-4000-8000-000000000000/" 0 1 "Plan",
       row api (some root) "/00000000-0000-4000-8000-000000000000/aaaaaaaa-aaaa-4aaa-8aaa-aaaaaaaaaaaa/"
         0 1 "Api",
       row web (some api) "/00000000-0000-4000-8000-000000000000/aaaaaaaa-aaaa-4aaa-8aaa-aaaaaaaaaaaa/bbbbbbbb-bbbb-4bbb-8bbb-bbbbbbbbbbbb/" 0 2 "Web" ], by decide⟩
  edges := ∅
  links := ∅
  mirror := some ⟨2, 0, none⟩

theorem runPatches_nested : runPatches start [move web api] = nested := by
  decide +kernel

def mirrorOf (db : PlanDb) : PlanMirror := (portableMirror db.nodes db.edges db.links).trimmed

theorem render_nested : renderPlanMirror nested = .ok (some (mirrorOf nested)) := by
  refine renderPlanMirror_eq_ok.mpr ⟨?_, rfl, ?_⟩
  · decide +kernel
  · decide +kernel

theorem render_start : renderPlanMirror start = .ok (some (mirrorOf start)) := by
  refine renderPlanMirror_eq_ok.mpr ⟨?_, rfl, ?_⟩
  · decide +kernel
  · decide +kernel

end Sample

open Sample in
/-- One side deletes the grandchild, the other the child with it. -/
theorem independent_deletions_commute_nested : PlanSound nested ∧ Prunable nested [web] ∧
    Prunable nested [api, web] ∧ DeletionsCommute nested (mirrorOf nested) [web] [api, web] := by
  have hsound : PlanSound nested := runPatches_nested ▸ runPatches_sound planSound_start [move web api]
  have hlocal : Prunable nested [web] := ⟨by decide +kernel, by decide +kernel⟩
  have hincoming : Prunable nested [api, web] := ⟨by decide +kernel, by decide +kernel⟩
  refine ⟨hsound, hlocal, hincoming, ?_⟩
  exact (independent_deletions_commute_iff _ _ _ _ hsound render_nested hlocal hincoming).mpr
    ⟨by decide +kernel, by decide +kernel⟩

open Sample in
/-- One side deletes the first child, the other the second: the second moves up, and comes back. -/
theorem sibling_deletions_do_not_commute : PlanSound Sample.start ∧
    renderPlanMirror Sample.start = .ok (some (mirrorOf Sample.start)) ∧ Prunable Sample.start [api] ∧
    Prunable Sample.start [web] ∧ ¬ DeletionsCommute Sample.start (mirrorOf Sample.start) [api] [web] := by
  have hsound := planSound_start
  have hlocal : Prunable Sample.start [api] := ⟨by decide +kernel, by decide +kernel⟩
  have hincoming : Prunable Sample.start [web] := ⟨by decide +kernel, by decide +kernel⟩
  refine ⟨hsound, render_start, hlocal, hincoming, fun h => ?_⟩
  have hshifted : ∃ r ∈ Sample.start.nodes.rows, r.id ∈ [web] ∧ r.id ∉ [api] ∧ Shifted Sample.start [api] r := by
    decide +kernel
  obtain ⟨r, hr, hgone, hkept, hshift⟩ := hshifted
  exact (h.not_shifted hsound.toPlanTree render_start hlocal hincoming hr).1 hgone hkept hshift

end Haive

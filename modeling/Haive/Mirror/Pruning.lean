import Haive.Mirror.Stable
import Haive.Mirror.Stages

/-!
# What stays out of the next base

The committed `plan.json` may give its nodes any parents. `PassesChecks` is all that
`reconcilePlanLocked` asks of it before the merge, and the merge repairs only its own copy of the
pointers: `withoutAbsentAsked` walks those of the file.

* `subtreeFrom_spins`: from a node that is its own ancestor the walk never ends;
* `absent_asked_pruned`: without such a node among the contested absent ones it does, and what is
  left out is what lies at or under one of them and is new;
* `pruning_spins_or_spares`: the first happens, and a node that the old base has is never left out.
-/

namespace Haive

open Lib

/-! ## The checks before the merge -/

def rootOf (nodes : List MirrorNode) : Option String :=
  (nodes.find? (·.parentId.isNone)).map (·.id)

def knownRoot (base : Option PlanMirrorPayload) (plan : PlanMirror) : Option String :=
  (rootOf plan.nodes).or (base.bind (rootOf ·.nodes))

/-- What `reconcilePlanLocked` asks of the committed file before it merges it. -/
structure PassesChecks (base : Option PlanMirrorPayload) (plan : PlanMirror)
    (incoming : PlanMirrorPayload) : Prop where
  parsed : parsePayload incoming = some incoming
  ids : (incoming.nodes.map (·.id)).Nodup
  parents : ∀ n ∈ incoming.nodes, ∀ p, n.parentId = some p → p ∈ incoming.nodes.map (·.id)
  root : ∀ id, knownRoot base plan = some id → rootOf incoming.nodes = some id

/-! ## The walk over a loop -/

section
variable {nodes : List StoredNode} {start : String}

/-- An ancestor of a node on a loop always waits in the queue, since popping one pushes another. -/
theorem subtreeFrom_spins (hids : (nodes.map (·.node.id)).Nodup)
    (hloop : Above (storedParent nodes) start start) (fuel : Nat) :
    subtreeFrom nodes fuel [start] [] = .error .spins := by
  have hrun : ∀ fuel queue subtree, (∃ q ∈ queue, Above (storedParent nodes) start q) →
      subtreeFrom nodes fuel queue subtree = .error .spins := by
    intro fuel
    induction fuel with
    | zero =>
      rintro (_ | ⟨next, queue⟩) subtree ⟨q, hq, _⟩
      · cases hq
      · rfl
    | succ fuel ih =>
      rintro (_ | ⟨next, queue⟩) subtree ⟨q, hq, habove⟩
      · cases hq
      · refine ih _ _ ?_
        rcases List.mem_cons.mp hq with rfl | hq
        · obtain ⟨c, hc, hchild⟩ := Relation.TransGen.tail'_iff.mp habove
          refine ⟨c, List.mem_append_left _ (List.mem_reverse.mpr ((mem_childrenOf hids).mpr hchild)), ?_⟩
          rcases Relation.reflTransGen_iff_eq_or_transGen.mp hc with rfl | hc
          · exact hloop
          · exact hc
        · exact ⟨q, List.mem_append_right _ hq, habove⟩
  exact hrun fuel [start] [] ⟨start, List.mem_singleton_self start, hloop⟩

theorem mem_subtreeOf (hids : (nodes.map (·.node.id)).Nodup)
    (hloop : ¬ Above (storedParent nodes) start start) (hstart : start ∈ nodes.map (·.node.id))
    {id : String} :
    id ∈ subtreeOf nodes start ↔ id = start ∨ Above (storedParent nodes) id start := by
  obtain ⟨hself, _, hchildren, hbelow⟩ := subtreeOf_spec hids hloop hstart
  refine ⟨hbelow id, ?_⟩
  rintro (rfl | habove)
  · exact hself
  · induction habove using Relation.TransGen.head_induction_on with
    | single hp => exact hchildren _ hself _ ((mem_childrenOf hids).mpr hp)
    | head hp _ ih => exact hchildren _ ih _ ((mem_childrenOf hids).mpr hp)

end

theorem mem_without_iff {payload : Snapshot} {absent : List String} {oldBase : StoredNodes}
    {drop : List String} {pushed : List StoredNode}
    (h : NextBase payload absent oldBase drop pushed) {id : String}
    (hid : id ∈ payload.nodes.map (·.node.id)) :
    id ∈ (payload.without drop oldBase pushed).nodes.map (·.node.id) ↔ id ∉ drop := by
  rw [without_ids, List.mem_append]
  constructor
  · rintro (hkept | hpushed)
    · obtain ⟨n, hn, rfl⟩ := List.mem_map.mp hkept
      simpa using (List.mem_filter.mp hn).2
    · obtain ⟨n, hn, rfl⟩ := List.mem_map.mp hpushed
      exact absurd hid (h.new n hn)
  · intro hkeep
    obtain ⟨n, hn, rfl⟩ := List.mem_map.mp hid
    exact .inl (List.mem_map_of_mem (List.mem_filter.mpr ⟨hn, by simpa using hkeep⟩))

/-! ## The questions of a merge -/

section
variable {base : Option PlanMirrorPayload} {plan : PlanMirror} {incoming : PlanMirrorPayload}
  {m : PlanMirrorMerge}

theorem mergeSides_conflicts {base : Option Side} {localSide incoming : Side}
    (h : mergeSides base localSide incoming = .ok m) :
    m.conflicts = (mergeSteps base localSide incoming).flatMap (·.conflicts) := by
  simp only [mergeSides, bind, Except.bind] at h
  split at h
  · cases h
  · split at h
    · cases h
    · split at h
      · cases h
      · cases h
        rfl

/-- Whatever the sides hold, a question is about a node of incoming and quotes the old base. -/
theorem conflict_at (h : mergePlanMirror base (.v2 plan) incoming = .ok m) {c : PlanMirrorConflict}
    (hc : c ∈ m.conflicts) :
    c.nodeId ∈ incoming.nodes.map (·.id) ∧
      c.base = (baseNode (base.map readSide) c.nodeId).map (MirrorNode.asked c.field) := by
  rw [mergeSides_conflicts h, List.mem_flatMap] at hc
  obtain ⟨step, hstep, hc⟩ := hc
  obtain ⟨id, rank, _, hentry⟩ := mem_mergeSteps.mp hstep
  rw [conflictsAt_step hentry] at hc
  obtain ⟨_, hkey, hbase⟩ := conflictsAt_base hc
  rw [readIncoming_byId] at hkey
  rw [conflictsAt_nodeId hc]
  exact ⟨Table.mem_keys_ofList.mp hkey, hbase⟩

theorem oldNodes_of_no_baseNode {id : String} (h : baseNode (base.map readSide) id = none) :
    (oldNodes base).find? id = none := by
  cases base with
  | none => rfl
  | some payload =>
    rw [Table.find?_eq_none]
    intro hkey
    have hid : id ∈ payload.stored.nodes.map (·.node.id) := Table.mem_keys_ofList.mp hkey
    rw [stored_ids] at hid
    exact Table.find?_eq_none.mp h (Table.mem_keys_ofList.mpr hid)

theorem absentAsked_inside (h : mergePlanMirror base (.v2 plan) incoming = .ok m) {a : String}
    (ha : a ∈ absentAsked m.conflicts) :
    a ∈ incoming.nodes.map (·.id) ∧ (oldNodes base).find? a = none := by
  obtain ⟨c, hc, rfl⟩ := List.mem_map.mp ha
  obtain ⟨hc, hnone⟩ := List.mem_filter.mp hc
  obtain ⟨hin, hbase⟩ := conflict_at h hc
  refine ⟨hin, oldNodes_of_no_baseNode ?_⟩
  rwa [Option.isNone_iff_eq_none, hbase, Option.map_eq_none_iff] at hnone

/-- Going back to the old base touches asked fields only. -/
theorem atOldBase_same {V : Type} (get : MirrorNode → V)
    (hset : ∀ f v x, get (askedFields.set f v x) = get x) (conflicts : List PlanMirrorConflict)
    (n : StoredNode) : get (atOldBase conflicts n).node = get n.node := by
  have hfold : ∀ (cs : List PlanMirrorConflict) (x : MirrorNode),
      get (cs.foldl (fun patched c =>
        c.base.elim patched fun v => askedFields.set c.field v patched) x) = get x := by
    intro cs
    induction cs with
    | nil => intros; rfl
    | cons c cs ih =>
      intro x
      rw [List.foldl_cons, ih]
      cases hb : c.base with
      | none => rfl
      | some v => exact hset c.field v x
  rw [atOldBase_node]
  exact hfold _ n.node

theorem atOldBase_id (conflicts : List PlanMirrorConflict) (n : StoredNode) :
    (atOldBase conflicts n).node.id = n.node.id :=
  atOldBase_same (·.id) (by intro f; cases f <;> intros <;> rfl) conflicts n

theorem atOldBase_parentId (conflicts : List PlanMirrorConflict) (n : StoredNode) :
    (atOldBase conflicts n).node.parentId = n.node.parentId :=
  atOldBase_same (·.parentId) (by intro f; cases f <;> intros <;> rfl) conflicts n

theorem patchedPayload_ids (incoming : PlanMirrorPayload) (conflicts : List PlanMirrorConflict) :
    (patchedPayload incoming conflicts).nodes.map (·.node.id) = incoming.nodes.map (·.id) := by
  rw [patchedPayload, List.map_map, ← stored_ids]
  exact List.map_congr_left fun n _ => atOldBase_id conflicts n

theorem patchedPayload_parent (incoming : PlanMirrorPayload) (conflicts : List PlanMirrorConflict) :
    storedParent (patchedPayload incoming conflicts).nodes = parentIn incoming.nodes := by
  rw [patchedPayload, storedParent_map (atOldBase_id conflicts) (atOldBase_parentId conflicts),
    storedParent, stored_nodes]

theorem cuttable (h : mergePlanMirror base (.v2 plan) incoming = .ok m)
    (hids : (incoming.nodes.map (·.id)).Nodup)
    (hloop : ∀ a ∈ absentAsked m.conflicts, ¬ Above (parentIn incoming.nodes) a a) :
    Cuttable (patchedPayload incoming m.conflicts) (absentAsked m.conflicts) (oldNodes base) := by
  refine ⟨?_, ?_, fun a ha => ?_, fun a ha => (absentAsked_inside h ha).2⟩
  · rw [patchedPayload_ids]
    exact hids
  · rw [patchedPayload_parent]
    exact hloop
  · rw [patchedPayload_ids]
    exact (absentAsked_inside h ha).1

end

/-! ## What is removed -/

def WorklistEnds (incoming : PlanMirrorPayload) (conflicts : List PlanMirrorConflict) : Prop :=
  ∀ a ∈ absentAsked conflicts, ∃ fuel subtree,
    subtreeFrom (patchedPayload incoming conflicts).nodes fuel [a] [] = .ok subtree

/-- The id is contested and absent, or a descendant of such a node. -/
def AtOrUnderAbsent (incoming : PlanMirrorPayload) (conflicts : List PlanMirrorConflict)
    (id : String) : Prop :=
  ∃ a ∈ absentAsked conflicts, id = a ∨ Above (parentIn incoming.nodes) id a

/-- Of the payload's nodes, those with `P` are the ones that the snapshot lacks. -/
def RemovesExactly (base : Option PlanMirrorPayload) (incoming : PlanMirrorPayload)
    (conflicts : List PlanMirrorConflict) (P : String → Prop) : Prop :=
  ∃ snapshot, nextSnapshot base incoming conflicts = .ok snapshot ∧
    ∀ id ∈ incoming.nodes.map (·.id), id ∉ snapshot.nodes.map (·.node.id) ↔ P id

/-- With no contested absent node on a loop of the file's parents, the loops end, and what is
removed is those nodes and the descendants of them that the old base lacks. -/
theorem absent_asked_pruned (base : Option PlanMirrorPayload) (plan : PlanMirror)
    (incoming : PlanMirrorPayload) (hchecks : PassesChecks base plan incoming)
    (m : PlanMirrorMerge) (hm : mergePlanMirror base (.v2 plan) incoming = .ok m)
    (hloop : ∀ a ∈ absentAsked m.conflicts, ¬ Above (parentIn incoming.nodes) a a) :
    WorklistEnds incoming m.conflicts ∧
      RemovesExactly base incoming m.conflicts fun id =>
        AtOrUnderAbsent incoming m.conflicts id ∧ (oldNodes base).find? id = none := by
  have hcut := cuttable hm hchecks.ids hloop
  refine ⟨fun a ha => ?_, ?_⟩
  · obtain ⟨subtree, hok, _⟩ := subtreeFrom_spec hcut.ids (hcut.loopless a ha) (hcut.inside a ha)
    exact ⟨_, subtree, hok⟩
  · obtain ⟨drop, pushed, hok, hnil, hsome, hnext⟩ := withoutAbsentAsked_spec hcut
    refine ⟨_, hok, fun id hid => ?_⟩
    have hdrop : id ∈ drop ↔
        AtOrUnderAbsent incoming m.conflicts id ∧ (oldNodes base).find? id = none := by
      by_cases habsent : absentAsked m.conflicts = []
      · rw [(hnil habsent).1]
        simp [AtOrUnderAbsent, habsent]
      · rw [(hsome habsent).1, List.mem_filter, Option.isNone_iff_eq_none, List.mem_flatMap]
        refine and_congr_left fun _ => exists_congr fun a => and_congr_right fun ha => ?_
        rw [mem_subtreeOf hcut.ids (hcut.loopless a ha) (hcut.inside a ha), patchedPayload_parent]
    rw [← patchedPayload_ids incoming m.conflicts] at hid
    rw [mem_without_iff hnext hid, not_not, hdrop]

/-! ## Two files -/

namespace Pruning.Sample

def r : String := "00000000-0000-4000-8000-000000000001"
def m : String := "00000000-0000-4000-8000-000000000002"
def x : String := "00000000-0000-4000-8000-000000000003"
def y : String := "00000000-0000-4000-8000-000000000004"

/-- Both sides add `x` under another title. There the old `m` moves under it. -/
def movedBase : PlanMirror := sketch [(r, none, 0), (m, some r, 0)]

def movedLocal : PlanMirror := sketch [(r, none, 0), (m, some r, 0), (x, some r, 1)]

def movedIncoming : PlanMirror :=
  retitled x "X" (sketch [(r, none, 0), (x, some r, 0), (m, some x, 0)])

/-- Both sides add `x` under another title. There it hangs under `y`, which hangs under it. -/
def loopingBase : PlanMirror := sketch [(r, none, 0)]

def loopingLocal : PlanMirror := sketch [(r, none, 0), (x, some r, 0)]

def loopingIncoming : PlanMirror :=
  retitled x "X" (sketch [(r, none, 0), (x, some y, 0), (y, some x, 0)])

end Pruning.Sample

open Pruning.Sample

set_option maxRecDepth 4000 in
theorem absent_asked_pruned_moved : ∃ merge,
    mergePlanMirror (some (.v2 movedBase)) (.v2 movedLocal) (.v2 movedIncoming) = .ok merge ∧
      absentAsked merge.conflicts = [x] ∧
      WorklistEnds (.v2 movedIncoming) merge.conflicts ∧
      RemovesExactly (some (.v2 movedBase)) (.v2 movedIncoming) merge.conflicts fun id =>
        AtOrUnderAbsent (.v2 movedIncoming) merge.conflicts id ∧
          (oldNodes (some (.v2 movedBase))).find? id = none := by
  have hrun : (mergePlanMirror (some (.v2 movedBase)) (.v2 movedLocal)
      (.v2 movedIncoming)).toOption.map (fun merge => absentAsked merge.conflicts) = some [x] := by
    decide
  obtain ⟨merge, hm, habsent⟩ := exists_ok_of_map hrun
  have hwell : WellFormed (.v2 movedIncoming) := by decide
  have hchecks : PassesChecks (some (.v2 movedBase)) movedLocal (.v2 movedIncoming) :=
    ⟨by decide, by decide, by decide, by decide⟩
  exact ⟨merge, hm, habsent, absent_asked_pruned _ _ _ hchecks merge hm fun a _ => hwell.acyclic a⟩

set_option maxRecDepth 4000 in
/-- The merge takes `x` from this side and so leaves no loop, but the walk is over the file's. And
`m`, a descendant of the absent `x`, stays, because the old base has it. -/
theorem pruning_spins_or_spares :
    (PassesChecks (some (.v2 loopingBase)) loopingLocal (.v2 loopingIncoming) ∧ ∃ merge,
      mergePlanMirror (some (.v2 loopingBase)) (.v2 loopingLocal) (.v2 loopingIncoming) = .ok merge ∧
        merge.merged.nodes.map (fun n => (n.id, n.parentId)) =
          [(r, none), (x, some r), (y, some x)] ∧
        ¬ WorklistEnds (.v2 loopingIncoming) merge.conflicts) ∧
    (PassesChecks (some (.v2 movedBase)) movedLocal (.v2 movedIncoming) ∧ ∃ merge,
      mergePlanMirror (some (.v2 movedBase)) (.v2 movedLocal) (.v2 movedIncoming) = .ok merge ∧
        ¬ RemovesExactly (some (.v2 movedBase)) (.v2 movedIncoming) merge.conflicts
          (AtOrUnderAbsent (.v2 movedIncoming) merge.conflicts)) := by
  refine ⟨⟨⟨by decide, by decide, by decide, by decide⟩, ?_⟩,
    ⟨⟨by decide, by decide, by decide, by decide⟩, ?_⟩⟩
  · have hrun : (mergePlanMirror (some (.v2 loopingBase)) (.v2 loopingLocal)
        (.v2 loopingIncoming)).toOption.map (fun merge =>
          (merge.merged.nodes.map (fun n => (n.id, n.parentId)), absentAsked merge.conflicts)) =
        some ([(r, none), (x, some r), (y, some x)], [x]) := by decide
    obtain ⟨merge, hm, hparts⟩ := exists_ok_of_map hrun
    obtain ⟨hplaced, habsent⟩ := Prod.mk.injEq _ _ _ _ ▸ hparts
    refine ⟨merge, hm, hplaced, fun hends => ?_⟩
    obtain ⟨fuel, subtree, hok⟩ := hends x (by rw [habsent]; exact List.mem_singleton_self x)
    have hids : ((patchedPayload (.v2 loopingIncoming) merge.conflicts).nodes.map
        (·.node.id)).Nodup := by
      rw [patchedPayload_ids]
      decide
    have hloop : Above (storedParent (patchedPayload (.v2 loopingIncoming) merge.conflicts).nodes)
        x x := by
      rw [patchedPayload_parent]
      exact (above_head (y := y) (by decide)).snoc (by decide)
    rw [subtreeFrom_spins hids hloop] at hok
    cases hok
  · have hrun : (mergePlanMirror (some (.v2 movedBase)) (.v2 movedLocal)
        (.v2 movedIncoming)).toOption.map (fun merge => (absentAsked merge.conflicts,
          (nextSnapshot (some (.v2 movedBase)) (.v2 movedIncoming) merge.conflicts).toOption.map
            fun snapshot => snapshot.nodes.map (·.node.id))) = some ([x], some [r, m]) := by decide
    obtain ⟨merge, hm, hparts⟩ := exists_ok_of_map hrun
    obtain ⟨habsent, hsnap⟩ := Prod.mk.injEq _ _ _ _ ▸ hparts
    refine ⟨merge, hm, fun ⟨snapshot, hok, hexact⟩ => ?_⟩
    rw [hok] at hsnap
    have hkept : snapshot.nodes.map (·.node.id) = [r, m] := Option.some.inj hsnap
    refine (hexact m (by decide)).mpr ⟨x, ?_, .inr (above_head (by decide))⟩ ?_
    · rw [habsent]
      exact List.mem_singleton_self x
    · rw [hkept]
      exact List.mem_cons_of_mem _ List.mem_cons_self

end Haive

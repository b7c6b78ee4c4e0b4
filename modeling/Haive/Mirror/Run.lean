import Haive.Mirror.Keep

/-!
# A whole merge run

`MergeRun` names the intermediate results of `mergeSides` (the entries after
cycle breaking, the entries after the ancestor pass, the deleted nodes with
their depth) with everything the previous modules prove about them.
`mergeSides_run` says that every merge of two trees is such a run, so no merge
throws or spins.
-/

namespace Haive

open Lib

/-! ## Local depth -/

section
variable {s : Side}

/-- The climb of a rooted node ends: it never meets a node of its path again, so the fuel only
has to exceed the nodes that are not on the path. -/
theorem depthFrom_ok (hs : s.Tree) {fuel : Nat} (path : List String) {cur : Option String}
    (hlinked : Linked s.parentOf path cur) (hfuel : s.byId.keys.countP (· ∉ path) < fuel) :
    ∃ d, depthFrom s fuel cur = .ok d := by
  induction fuel generalizing path cur with
  | zero => omega
  | succ fuel ih =>
    cases cur with
    | none => exact ⟨0, by simp [depthFrom]⟩
    | some c =>
      have hc : c ∉ path := by
        intro hmem
        have hlt : path.idxOf c < path.length := List.idxOf_lt_length_of_mem hmem
        have hdrop : path.drop (path.idxOf c) = c :: path.drop (path.idxOf c + 1) := by
          rw [List.drop_eq_getElem_cons hlt, List.getElem_idxOf hlt]
        have htrap := Linked.trapped (hdrop ▸ hlinked.drop (path.idxOf c))
        exact (hs.rooted c).not_trapped htrap List.mem_cons_self
      by_cases hk : c ∈ s.byId.keys
      · have hless : s.byId.keys.countP (· ∉ path ++ [c]) < fuel := by
          have := countP_not_mem_cons_lt hk hc
          have heq : s.byId.keys.countP (· ∉ path ++ [c]) = s.byId.keys.countP (· ∉ c :: path) := by
            apply List.countP_congr
            intro x _
            simp [or_comm]
          omega
        obtain ⟨d, hd⟩ := ih _ hlinked.snoc hless
        exact ⟨d + 1, by rw [depthFrom, hd]; rfl⟩
      · have hnone : s.parentOf c = none := by
          simp [Side.parentOf, Table.find?_eq_none.mpr hk]
        refine ⟨1, ?_⟩
        rw [depthFrom, hnone]
        cases fuel <;> rfl

theorem depthFrom_mono {fuel : Nat} {cur : Option String} {d : Nat}
    (h : depthFrom s fuel cur = .ok d) : depthFrom s (fuel + 1) cur = .ok d := by
  induction fuel generalizing cur d with
  | zero =>
    cases cur with
    | none => exact h
    | some c => simp [depthFrom] at h
  | succ fuel ih =>
    cases cur with
    | none => exact h
    | some c =>
      rw [depthFrom] at h ⊢
      cases hd : depthFrom s fuel (s.parentOf c) with
      | error e =>
        rw [hd] at h
        cases h
      | ok d' =>
        rw [hd] at h
        rw [ih hd]
        exact h

theorem localDepth_ok (hs : s.Tree) (id : String) : ∃ d, localDepth s id = .ok d := by
  refine depthFrom_ok hs [] trivial ?_
  have := List.countP_le_length (p := (· ∉ ([] : List String))) (l := s.byId.keys)
  rw [Table.keys, hs.rows, List.length_map] at this
  rw [Table.keys, hs.rows]
  omega

theorem localDepth_parent {id p : String} {d d' : Nat} (hp : s.parentOf id = some p)
    (hd : localDepth s id = .ok d) (hd' : localDepth s p = .ok d') : d = d' + 1 := by
  rw [localDepth, hp, depthFrom] at hd
  cases hq : depthFrom s s.nodes.length (s.parentOf p) with
  | error e =>
    rw [hq] at hd
    cases hd
  | ok q =>
    rw [hq] at hd
    rw [localDepth, depthFrom_mono hq] at hd'
    cases hd
    cases hd'
    rfl

/-- An ancestor is less deep. -/
theorem localDepth_above (hs : s.Tree) {x y : String} (h : Above s.parentOf x y) {d d' : Nat}
    (hd : localDepth s x = .ok d) (hd' : localDepth s y = .ok d') : d' < d := by
  induction h generalizing d' with
  | single hp =>
    have := localDepth_parent hp hd hd'
    omega
  | @tail b c _ hbc ih =>
    obtain ⟨db, hdb⟩ := localDepth_ok hs b
    have := localDepth_parent hbc hdb hd'
    have := ih hdb
    omega

end

/-! ## Deleted nodes -/

instance : Std.Total deeperFirst := ⟨fun a b => by unfold deeperFirst; omega⟩

instance : IsTrans DeletedNode deeperFirst := ⟨fun a b c hab hbc => by
  unfold deeperFirst at *; omega⟩

theorem deletedNode_ok {s : Side} (hs : s.Tree) (e : Entry) :
    ∃ g, deletedNode s e = .ok g ∧ g.id = e.node.id ∧ localDepth s g.id = .ok g.depth := by
  obtain ⟨d, hd⟩ := localDepth_ok hs e.node.id
  exact ⟨⟨e.node.id, d, e.rank⟩, by rw [deletedNode, hd]; rfl, rfl, hd⟩

theorem mapM_deletedNode {s : Side} (hs : s.Tree) (l : List Entry) :
    ∃ gone, l.mapM (deletedNode s) = .ok gone ∧ gone.map (·.id) = l.map (·.node.id) ∧
      ∀ g ∈ gone, localDepth s g.id = .ok g.depth := by
  induction l with
  | nil => exact ⟨[], rfl, rfl, by simp⟩
  | cons e l ih =>
    obtain ⟨g, hg, hid, hdepth⟩ := deletedNode_ok hs e
    obtain ⟨gone, hgone, hids, hall⟩ := ih
    refine ⟨g :: gone, ?_, by simp [hid, hids], ?_⟩
    · rw [List.mapM_cons, hg, hgone]
      rfl
    · intro g' hg'
      rcases List.mem_cons.mp hg' with rfl | hg'
      · exact hdepth
      · exact hall g' hg'

/-! ## Live nodes -/

theorem mem_liveNodes {entries : Entries} {n : MirrorNode} :
    n ∈ liveNodes entries ↔
      ∃ e, entries.find? n.id = some e ∧ e.candidate = none ∧ e.node = n := by
  simp only [liveNodes, List.mem_map, List.mem_insertionSort, List.mem_filter,
    Option.isNone_iff_eq_none]
  constructor
  · rintro ⟨e, ⟨he, hc⟩, rfl⟩
    exact ⟨e, Table.mem_rows_iff.mp he, hc, rfl⟩
  · rintro ⟨e, he, hc, rfl⟩
    exact ⟨e, ⟨Table.find?_mem he, hc⟩, rfl⟩

theorem mem_liveNodes_ids {entries : Entries} {id : String} :
    id ∈ (liveNodes entries).map (·.id) ↔ ∃ e, entries.find? id = some e ∧ e.candidate = none := by
  rw [List.mem_map]
  constructor
  · rintro ⟨n, hn, rfl⟩
    obtain ⟨e, he, hc, _⟩ := mem_liveNodes.mp hn
    exact ⟨e, he, hc⟩
  · rintro ⟨e, he, hc⟩
    have hid : e.node.id = id := (Table.find?_key he :)
    exact ⟨e.node, mem_liveNodes.mpr ⟨e, hid ▸ he, hc, rfl⟩, hid⟩

theorem liveNodes_nodup (entries : Entries) : ((liveNodes entries).map (·.id)).Nodup := by
  rw [liveNodes, List.map_map]
  have hperm := (List.perm_insertionSort ordinalThenRank (entries.rows.filter (·.candidate.isNone))).map
    ((·.id) ∘ (·.node))
  refine hperm.nodup_iff.mpr ?_
  exact entries.nodup.sublist (List.filter_sublist.map _)

/-! ## Keyed items -/

namespace Keyed

variable {T F K : Type} (kd : Keyed T F K)

theorem setAll_key (value : ∀ f, kd.fields.Val f) (names : List F) (x : T) :
    kd.key (kd.fields.setAll value names x) = kd.key x :=
  kd.fields.setAll_invariant kd.key kd.key_set value names x

variable [DecidableEq K] {base : Option (Table T kd.key)} {localItems incoming : Table T kd.key}

theorem mergeKey_items (base : Option (Table T kd.key)) (localItems incoming : Table T kd.key)
    (key : K) :
    (kd.mergeKey base localItems incoming key).1 = [] ∨
      ∃ x, (kd.mergeKey base localItems incoming key).1 = [x] ∧ kd.key x = key := by
  have only : ∀ b x deletedBy, kd.key x = key → (kd.onlyItem b x deletedBy).1 = [] ∨
      ∃ y, (kd.onlyItem b x deletedBy).1 = [y] ∧ kd.key y = key := by
    intro b x deletedBy hx
    unfold onlyItem
    cases b with
    | none => exact .inr ⟨x, rfl, hx⟩
    | some b =>
      dsimp only
      split
      · exact .inr ⟨x, rfl, hx⟩
      · exact .inl rfl
  unfold mergeKey
  cases hl : localItems.find? key <;> cases hi : incoming.find? key
  · exact .inl rfl
  · exact only _ _ _ (Table.find?_key hi)
  · exact only _ _ _ (Table.find?_key hl)
  · cases base with
    | none => exact .inr ⟨_, rfl, Table.find?_key hi⟩
    | some b => exact .inr ⟨_, rfl, (kd.setAll_key _ _ _).trans (Table.find?_key hi)⟩

theorem mem_mergeKeys {key : K} :
    key ∈ kd.mergeKeys localItems incoming ↔ key ∈ localItems.keys ∨ key ∈ incoming.keys := by
  simp only [mergeKeys, List.mem_append, List.mem_filter, Option.isNone_iff_eq_none,
    Table.find?_eq_none]
  tauto

theorem mergeKeys_nodup : (kd.mergeKeys localItems incoming).Nodup := by
  refine List.nodup_append.mpr ⟨incoming.nodup, localItems.nodup.filter _, ?_⟩
  intro a ha b hb hab
  subst hab
  rw [List.mem_filter, Option.isNone_iff_eq_none, Table.find?_eq_none] at hb
  exact hb.2 ha

theorem mem_mergeKeyed {x : T} : x ∈ (kd.mergeKeyed base localItems incoming).1 ↔
    x ∈ (kd.mergeKey base localItems incoming (kd.key x)).1 := by
  simp only [mergeKeyed, List.mem_flatMap, List.mem_map]
  constructor
  · rintro ⟨_, ⟨key, _, rfl⟩, hx⟩
    rcases kd.mergeKey_items base localItems incoming key with hnil | ⟨y, hy, hk⟩
    · simp [hnil] at hx
    · rw [hy, List.mem_singleton] at hx
      subst hx
      rw [hk, hy]
      exact List.mem_singleton_self x
  · intro hx
    refine ⟨_, ⟨kd.key x, ?_, rfl⟩, hx⟩
    rw [mem_mergeKeys]
    by_contra hnone
    rw [not_or, ← Table.find?_eq_none, ← Table.find?_eq_none] at hnone
    simp [mergeKey, hnone.1, hnone.2] at hx

theorem mem_mergeKeyed_reports {r : PlanMirrorReport} :
    r ∈ (kd.mergeKeyed base localItems incoming).2 ↔
      ∃ key, r ∈ (kd.mergeKey base localItems incoming key).2 := by
  simp only [mergeKeyed, List.mem_flatMap, List.mem_map]
  constructor
  · rintro ⟨_, ⟨key, _, rfl⟩, hr⟩
    exact ⟨key, hr⟩
  · rintro ⟨key, hr⟩
    refine ⟨_, ⟨key, ?_, rfl⟩, hr⟩
    rw [mem_mergeKeys]
    by_contra hnone
    rw [not_or, ← Table.find?_eq_none, ← Table.find?_eq_none] at hnone
    simp [mergeKey, hnone.1, hnone.2] at hr

theorem mergeKeyed_nodup : ((kd.mergeKeyed base localItems incoming).1.map kd.key).Nodup := by
  have sub : ∀ keys : List K,
      List.Sublist
        (((keys.map (kd.mergeKey base localItems incoming)).flatMap (·.1)).map kd.key) keys := by
    intro keys
    induction keys with
    | nil => exact List.nil_sublist _
    | cons key keys ih =>
      rw [List.map_cons, List.flatMap_cons, List.map_append]
      rcases kd.mergeKey_items base localItems incoming key with hnil | ⟨y, hy, hk⟩
      · rw [hnil]
        exact ih.cons key
      · rw [hy, List.map_singleton, hk]
        exact ih.cons_cons key
  exact kd.mergeKeys_nodup.sublist (sub _)

end Keyed

/-! ## The run -/

def mergedEdges (base : Option Side) (localSide incoming : Side) :
    List MirrorEdge × List PlanMirrorReport :=
  edgeKeyed.mergeKeyed (base.map edgeMap) (edgeMap localSide) (edgeMap incoming)

def mergedLinks (base : Option Side) (localSide incoming : Side) :
    List MirrorCodeLink × List PlanMirrorReport :=
  linkKeyed.mergeKeyed (base.map linkMap) (linkMap localSide) (linkMap incoming)

/-- A merge with its intermediate results: the entries after cycle breaking, the reports of the
broken cycles and the state after the ancestor pass. -/
structure MergeRun (base : Option Side) (localSide incoming : Side) (rewired : Entries)
    (broken : List PlanMirrorReport) (kept : Keeping) (m : PlanMirrorMerge) : Prop where
  breaks : breakCycles localSide ((initialEntries base localSide incoming).rows.length + 1)
      (initialEntries base localSide incoming) ((mergeSteps base localSide incoming).flatMap (·.reported)) =
    .ok (rewired, (mergeSteps base localSide incoming).flatMap (·.reported) ++ broken)
  sound : rewired.Sound localSide incoming
  rewire : (initialEntries base localSide incoming).Rewired localSide rewired
  rooted : ∀ x, Rooted rewired.parentOf x
  unbroken : (∀ x, Rooted (initialEntries base localSide incoming).parentOf x) →
    rewired = initialEntries base localSide incoming
  brokenReports : ∀ r ∈ broken, ∃ id e lv iv, r = .localWins (.node id) .parentId lv iv ∧
    rewired.find? id = some e ∧ e.inLocal = true ∧ e.parentFromIncoming = false ∧
    e.candidate = none ∧ lv = .nullable (localSide.parentOf id)
  moved : ∀ id e e', (initialEntries base localSide incoming).find? id = some e →
    rewired.find? id = some e' → e' ≠ e →
    .localWins (.node id) .parentId (.nullable e'.node.parentId) (.nullable e.node.parentId) ∈ broken
  keptInv : kept.Inv rewired ((mergeSteps base localSide incoming).flatMap (·.reported) ++ broken)
    ((mergeSteps base localSide incoming).flatMap (·.resurrected))
  stays : ∀ id e, kept.entries.find? id = some e → (e.candidate = none ↔ rewired.Stays id)
  nodes : m.merged.nodes = liveNodes kept.entries
  edges : m.merged.edges = (mergedEdges base localSide incoming).1.filter fun e =>
    e.fromNodeId ∈ m.merged.nodes.map (·.id) ∧ e.toNodeId ∈ m.merged.nodes.map (·.id)
  links : m.merged.codeLinks = (mergedLinks base localSide incoming).1.filter fun l =>
    l.nodeId ∈ m.merged.nodes.map (·.id)
  conflicts : m.conflicts = (mergeSteps base localSide incoming).flatMap (·.conflicts)
  deleted : ∃ gone : List DeletedNode, gone.map (·.id) =
      (kept.entries.rows.filter (·.candidate = some .deletedByIncoming)).map (·.node.id) ∧
    (∀ g ∈ gone, localDepth localSide g.id = .ok g.depth) ∧
    m.deleted = (gone.insertionSort deeperFirst).map (·.id)
  resurrected : m.resurrected = kept.resurrected
  reported : m.reported = kept.reported ++ (mergedEdges base localSide incoming).2 ++
    (mergedLinks base localSide incoming).2

theorem mergeSides_run (base : Option Side) {localSide incoming : Side} (hl : localSide.Tree)
    (hi : incoming.Tree) : ∃ rewired broken kept m,
      mergeSides base localSide incoming = .ok m ∧
        MergeRun base localSide incoming rewired broken kept m := by
  have hfuel : (initialEntries base localSide incoming).keys.countP
      (fun id => ((initialEntries base localSide incoming).find? id).any (·.parentFromIncoming)) <
      (initialEntries base localSide incoming).rows.length + 1 := by
    refine Nat.lt_succ_of_le (List.countP_le_length.trans ?_)
    simp [Table.keys]
  obtain ⟨rewired, broken, hbreak, hsound, hrewire, hrooted, hbroken, hmoved, hunbroken⟩ :=
    breakCycles_spec hl hi (initial_sound base hl hi)
      ((mergeSteps base localSide incoming).flatMap (·.reported)) hfuel
  obtain ⟨kept, hkeep, hinv, hstays⟩ := keepAncestors_spec rewired
    ((mergeSteps base localSide incoming).flatMap (·.reported) ++ broken)
    ((mergeSteps base localSide incoming).flatMap (·.resurrected))
  obtain ⟨gone, hgone, hids, hdepths⟩ := mapM_deletedNode hl
    (kept.entries.rows.filter (·.candidate = some .deletedByIncoming))
  have hlive : ∀ id, (liveNodes kept.entries).any (fun n => decide (n.id = id)) =
      decide (id ∈ (liveNodes kept.entries).map (·.id)) := by
    intro id
    rw [Bool.eq_iff_iff]
    simp
  have hmerge : mergeSides base localSide incoming = .ok
      { merged :=
          { nodes := liveNodes kept.entries
            edges := (mergedEdges base localSide incoming).1.filter fun e =>
              e.fromNodeId ∈ (liveNodes kept.entries).map (·.id) ∧
                e.toNodeId ∈ (liveNodes kept.entries).map (·.id)
            codeLinks := (mergedLinks base localSide incoming).1.filter fun l =>
              l.nodeId ∈ (liveNodes kept.entries).map (·.id) }
        conflicts := (mergeSteps base localSide incoming).flatMap (·.conflicts)
        deleted := (gone.insertionSort deeperFirst).map (·.id)
        resurrected := kept.resurrected
        reported := kept.reported ++ (mergedEdges base localSide incoming).2 ++
          (mergedLinks base localSide incoming).2 } := by
    have hbreak' := hbreak
    unfold initialEntries at hbreak'
    unfold mergeSides
    simp only [hbreak', hkeep, hgone, bind, Except.bind, hlive, Bool.decide_and]
    rfl
  exact ⟨rewired, broken, kept, _, hmerge, hbreak, hsound, hrewire, hrooted, hunbroken, hbroken, hmoved,
    hinv, hstays, rfl, rfl, rfl, rfl, ⟨gone, hids, hdepths, rfl⟩, rfl, rfl⟩

end Haive

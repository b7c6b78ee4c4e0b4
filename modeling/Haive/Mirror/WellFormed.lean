import Haive.Mirror.Run

/-!
# The merge is well formed

Which nodes a merge keeps (`MergeRun.live_iff`, `MergeRun.mem_nodes`) and the
consequence for the payload as a whole: from well-formed sides the merge returns
a well-formed payload, and its deletion list is deepest first.
-/

namespace Haive

open Lib

namespace MergeRun

variable {base : Option Side} {localSide incoming : Side} {rewired : Entries}
  {broken : List PlanMirrorReport} {kept : Keeping} {m : PlanMirrorMerge}

theorem parent_mem (h : MergeRun base localSide incoming rewired broken kept m)
    (hl : localSide.Tree) (hi : incoming.Tree) {id p : String} (hp : rewired.parentOf id = some p) :
    p ∈ rewired.keys :=
  h.sound.parent_mem hl hi hp

theorem stays_mem (h : MergeRun base localSide incoming rewired broken kept m)
    (hl : localSide.Tree) (hi : incoming.Tree) {id : String} (hs : rewired.Stays id) :
    id ∈ rewired.keys := by
  obtain ⟨d, e, hd, _, rfl | habove⟩ := hs
  · exact Table.mem_keys_iff_find?.mpr ⟨e, hd⟩
  · cases habove with
    | single hp => exact h.parent_mem hl hi hp
    | tail _ hp => exact h.parent_mem hl hi hp

/-- The merged nodes are the entries that stay, as cycle breaking left them. -/
theorem mem_nodes (h : MergeRun base localSide incoming rewired broken kept m) {n : MirrorNode} :
    n ∈ m.merged.nodes ↔ (∃ e, rewired.find? n.id = some e ∧ e.node = n) ∧ rewired.Stays n.id := by
  rw [h.nodes, mem_liveNodes]
  constructor
  · rintro ⟨e, he, hc, rfl⟩
    obtain ⟨e₀, c, he₀, heq, _⟩ := h.keptInv.start_find he
    exact ⟨⟨e₀, he₀, by rw [heq]⟩, (h.stays _ e he).mp hc⟩
  · rintro ⟨⟨e, he, rfl⟩, hs⟩
    obtain ⟨c, hfind, _⟩ := h.keptInv.entry _ e he
    exact ⟨_, hfind, (h.stays _ _ hfind).mpr hs, rfl⟩

theorem live_iff (h : MergeRun base localSide incoming rewired broken kept m) (hl : localSide.Tree)
    (hi : incoming.Tree) {id : String} : id ∈ m.merged.nodes.map (·.id) ↔ rewired.Stays id := by
  rw [List.mem_map]
  constructor
  · rintro ⟨n, hn, rfl⟩
    exact (h.mem_nodes.mp hn).2
  · intro hs
    obtain ⟨e, he⟩ := Table.mem_keys_iff_find?.mp (h.stays_mem hl hi hs)
    have hid : e.node.id = id := (Table.find?_key he :)
    exact ⟨e.node, h.mem_nodes.mpr ⟨⟨e, hid ▸ he, rfl⟩, hid ▸ hs⟩, hid⟩

/-- The first loop's step behind an entry of the rewired table. -/
theorem step_of_find (h : MergeRun base localSide incoming rewired broken kept m)
    (hl : localSide.Tree) (hi : incoming.Tree) {id : String} {e : Entry}
    (he : rewired.find? id = some e) : ∃ step ∈ mergeSteps base localSide incoming,
      mergeEntry base localSide incoming id e.rank = some step ∧ Rewired localSide step.entry e := by
  obtain ⟨e₀, he₀, hrew⟩ := h.rewire.entry id e he
  obtain ⟨step, hmem, hstep, rfl⟩ := initial_find hl hi he₀
  refine ⟨step, hmem, ?_, hrew⟩
  have hrank : e.rank = step.entry.rank := by rcases hrew with rfl | ⟨_, rfl⟩ <;> rfl
  rw [hrank]
  exact hstep

theorem candidate_iff (h : MergeRun base localSide incoming rewired broken kept m)
    (hl : localSide.Tree) (hi : incoming.Tree) {id : String} {e : Entry}
    (he : rewired.find? id = some e) :
    e.candidate = none ↔ KeptAlone base localSide incoming id := by
  obtain ⟨step, _, hstep, hrew⟩ := h.step_of_find hl hi he
  rw [← mergeEntry_candidate hstep]
  rcases hrew with rfl | ⟨_, rfl⟩ <;> rfl

theorem mark_of_find (h : MergeRun base localSide incoming rewired broken kept m)
    (hl : localSide.Tree) (hi : incoming.Tree) {id : String} {e : Entry} {c : Candidate}
    (he : rewired.find? id = some e) (hc : e.candidate = some c) :
    (c = .deletedByIncoming ∧ id ∈ localSide.byId.keys ∧ id ∉ incoming.byId.keys) ∨
    (c = .deletedByLocal ∧ id ∉ localSide.byId.keys ∧ id ∈ incoming.byId.keys) := by
  obtain ⟨step, _, hstep, hrew⟩ := h.step_of_find hl hi he
  refine mergeEntry_mark hstep ?_
  rcases hrew with rfl | ⟨_, rfl⟩ <;> exact hc

/-- A node stays exactly when it survives on its own account or is above such a node. -/
theorem stays_iff (h : MergeRun base localSide incoming rewired broken kept m)
    (hl : localSide.Tree) (hi : incoming.Tree) {id : String} :
    rewired.Stays id ↔ ∃ d, KeptAlone base localSide incoming d ∧
      (d = id ∨ Above rewired.parentOf d id) := by
  constructor
  · rintro ⟨d, e, hd, hc, hrel⟩
    exact ⟨d, (h.candidate_iff hl hi hd).mp hc, hrel⟩
  · rintro ⟨d, hkept, hrel⟩
    have hk : d ∈ rewired.keys := by
      refine (h.sound.keys d).mpr ?_
      rcases hkept with ⟨hk, _⟩ | ⟨only, ⟨honly, _⟩ | ⟨_, honly⟩, _⟩
      · exact .inl hk
      · exact .inl (Table.mem_keys_iff_find?.mpr ⟨only, honly⟩)
      · exact .inr (Table.mem_keys_iff_find?.mpr ⟨only, honly⟩)
    obtain ⟨e, he⟩ := Table.mem_keys_iff_find?.mp hk
    exact ⟨d, e, he, (h.candidate_iff hl hi he).mpr hkept, hrel⟩

theorem ids_nodup (h : MergeRun base localSide incoming rewired broken kept m) :
    (m.merged.nodes.map (·.id)).Nodup := by
  rw [h.nodes]
  exact liveNodes_nodup _

theorem parentIn_merged (h : MergeRun base localSide incoming rewired broken kept m)
    {id p : String} (hp : parentIn m.merged.nodes id = some p) : rewired.parentOf id = some p := by
  obtain ⟨n, hn, hnp⟩ := Option.bind_eq_some_iff.mp hp
  have hmem := List.mem_of_find?_eq_some hn
  have hid : n.id = id := by simpa using List.find?_some hn
  obtain ⟨⟨e, he, rfl⟩, _⟩ := h.mem_nodes.mp hmem
  rw [← hid, parentOf_find he]
  exact hnp

theorem wellFormed (h : MergeRun base localSide incoming rewired broken kept m)
    (hl : localSide.Tree) (hi : incoming.Tree) : WellFormed (.v2 m.merged) := by
  refine ⟨h.ids_nodup, ?_, ?_, ?_, ?_, ?_, ?_⟩
  · intro n hn p hp
    obtain ⟨⟨e, he, rfl⟩, hs⟩ := h.mem_nodes.mp hn
    exact (h.live_iff hl hi).mpr (hs.parent ((parentOf_find he).trans hp))
  · intro x hx
    refine (h.rooted x).not_above_self ?_
    exact Relation.TransGen.mono (fun _ _ => h.parentIn_merged) _ _ hx
  · intro e he
    have he' : e ∈ m.merged.edges := he
    rw [h.edges, List.mem_filter, decide_eq_true_eq] at he'
    exact he'.2
  · intro l hlink
    have hlink' : l ∈ m.merged.codeLinks := hlink
    rw [h.links, List.mem_filter, decide_eq_true_eq] at hlink'
    exact hlink'.2
  · show (m.merged.edges.map MirrorEdge.key).Nodup
    rw [h.edges]
    exact edgeKeyed.mergeKeyed_nodup.sublist (List.filter_sublist.map _)
  · show (m.merged.codeLinks.map MirrorCodeLink.key).Nodup
    rw [h.links]
    exact linkKeyed.mergeKeyed_nodup.sublist (List.filter_sublist.map _)

theorem mem_deleted_mark (h : MergeRun base localSide incoming rewired broken kept m) {id : String} :
    id ∈ m.deleted ↔
      ∃ e, kept.entries.find? id = some e ∧ e.candidate = some .deletedByIncoming := by
  obtain ⟨gone, hids, _, hdel⟩ := h.deleted
  have hperm := (List.perm_insertionSort deeperFirst gone).map (·.id)
  rw [hdel, hperm.mem_iff, hids, List.mem_map]
  constructor
  · rintro ⟨e, he, rfl⟩
    rw [List.mem_filter, decide_eq_true_eq] at he
    exact ⟨e, Table.mem_rows_iff.mp he.1, he.2⟩
  · rintro ⟨e, he, hc⟩
    refine ⟨e, ?_, (Table.find?_key he :)⟩
    rw [List.mem_filter, decide_eq_true_eq]
    exact ⟨Table.find?_mem he, hc⟩

/-- The deletion list holds the local nodes that the incoming side lacks and nothing keeps. -/
theorem mem_deleted (h : MergeRun base localSide incoming rewired broken kept m)
    (hl : localSide.Tree) (hi : incoming.Tree) {id : String} : id ∈ m.deleted ↔
      id ∈ localSide.byId.keys ∧ id ∉ incoming.byId.keys ∧ ¬ rewired.Stays id := by
  rw [h.mem_deleted_mark]
  constructor
  · rintro ⟨e, he, hc⟩
    have hstays : ¬ rewired.Stays id := by
      rw [← h.stays id e he, hc]
      simp
    obtain ⟨e₀, c, he₀, rfl, hor⟩ := h.keptInv.start_find he
    have hc₀ : e₀.candidate = some .deletedByIncoming := by
      rcases hor with rfl | rfl
      · exact hc
      · cases hc
    rcases h.mark_of_find hl hi he₀ hc₀ with ⟨_, hloc, hinc⟩ | ⟨hne, _⟩
    · exact ⟨hloc, hinc, hstays⟩
    · cases hne
  · rintro ⟨hloc, hinc, hstays⟩
    obtain ⟨e₀, he₀⟩ := Table.mem_keys_iff_find?.mp ((h.sound.keys id).mpr (.inl hloc))
    obtain ⟨c, hfind, hor⟩ := h.keptInv.entry id e₀ he₀
    refine ⟨_, hfind, ?_⟩
    cases c with
    | none => exact absurd ((h.stays id _ hfind).mp rfl) hstays
    | some c =>
      have hc₀ : e₀.candidate = some c := by
        rcases hor with hor | hor
        · exact hor.symm
        · cases hor
      rcases h.mark_of_find hl hi he₀ hc₀ with ⟨rfl, _⟩ | ⟨_, hno, _⟩
      · rfl
      · exact absurd hloc hno

theorem deleted_nodup (h : MergeRun base localSide incoming rewired broken kept m) :
    m.deleted.Nodup := by
  obtain ⟨gone, hids, _, hdel⟩ := h.deleted
  have hperm := (List.perm_insertionSort deeperFirst gone).map (·.id)
  rw [hdel, hperm.nodup_iff, hids]
  exact kept.entries.nodup.sublist (List.filter_sublist.map _)

/-- A deeper node is deleted first, so a node goes before its ancestors. -/
theorem deleted_deepest_first (h : MergeRun base localSide incoming rewired broken kept m)
    (hl : localSide.Tree) : m.deleted.Pairwise fun a b => ¬ Above localSide.parentOf b a := by
  obtain ⟨gone, _, hdepth, hdel⟩ := h.deleted
  rw [hdel, List.pairwise_map]
  refine (List.pairwise_insertionSort deeperFirst gone).imp_of_mem ?_
  intro a b ha hb hab habove
  rw [List.mem_insertionSort] at ha hb
  have := localDepth_above hl habove (hdepth b hb) (hdepth a ha)
  unfold deeperFirst at hab
  omega

end MergeRun

/-! ## Deciding well-formedness -/

/-- The nodes as entries, so that `findCycle` can look at them. -/
def plainEntries (nodes : List MirrorNode) : Entries :=
  .ofList (nodes.map fun n => ⟨n, 0, false, false, none⟩)

theorem plainEntries_parentOf {nodes : List MirrorNode} (h : (nodes.map (·.id)).Nodup) :
    (plainEntries nodes).parentOf = parentIn nodes := by
  funext id
  have hrows : (plainEntries nodes).rows = nodes.map fun n => ⟨n, 0, false, false, none⟩ :=
    Table.ofList_rows (by simpa [Function.comp_def] using h)
  simp only [Entries.parentOf, parentIn, Table.find?, hrows, List.find?_map, Function.comp_def]
  cases nodes.find? (fun n => n.id = id) <;> rfl

def noCycle (nodes : List MirrorNode) : Bool :=
  match findCycle (plainEntries nodes) with
  | .ok none => true
  | _ => false

theorem noCycle_iff {nodes : List MirrorNode} (hids : (nodes.map (·.id)).Nodup)
    (hparents : ∀ n ∈ nodes, ∀ p, n.parentId = some p → p ∈ nodes.map (·.id)) :
    noCycle nodes = true ↔ Acyclic (parentIn nodes) := by
  rw [← plainEntries_parentOf hids]
  unfold noCycle
  rcases findCycle_spec (plainEntries nodes) with ⟨hnone, hrooted⟩ | ⟨c, cs, hsome, htrap⟩
  · rw [hnone]
    exact iff_of_true rfl (acyclic_of_rooted hrooted)
  · rw [hsome]
    refine iff_of_false (by simp) fun hacyclic => ?_
    rw [plainEntries_parentOf hids] at htrap hacyclic
    have closed : ∀ id p, parentIn nodes id = some p → p ∈ nodes.map (·.id) := by
      intro id p hp
      obtain ⟨n, hn, hnp⟩ := Option.bind_eq_some_iff.mp hp
      exact hparents n (List.mem_of_find?_eq_some hn) p hnp
    obtain ⟨d, hd, _⟩ := htrap c List.mem_cons_self
    have hroot : Rooted (parentIn nodes) c := by
      refine .step hd (rooted_of_acyclic (s := (nodes.map (·.id)).toFinset) ?_ hacyclic ?_)
      · intro x _ y hy
        exact List.mem_toFinset.mpr (closed x y hy)
      · exact List.mem_toFinset.mpr (closed c d hd)
    exact hroot.not_trapped htrap List.mem_cons_self

instance (payload : PlanMirrorPayload) : Decidable (WellFormed payload) :=
  decidable_of_iff
    ((payload.nodes.map (·.id)).Nodup ∧
      (∀ n ∈ payload.nodes, ∀ p ∈ n.parentId, p ∈ payload.nodes.map (·.id)) ∧
      noCycle payload.nodes = true ∧
      (∀ e ∈ payload.edges,
        e.fromNodeId ∈ payload.nodes.map (·.id) ∧ e.toNodeId ∈ payload.nodes.map (·.id)) ∧
      (∀ l ∈ payload.codeLinks, l.nodeId ∈ payload.nodes.map (·.id)) ∧
      (payload.edges.map MirrorEdge.key).Nodup ∧
      (payload.codeLinks.map MirrorCodeLink.key).Nodup) <| by
    constructor
    · rintro ⟨hids, hparents, hcycle, hedges, hlinks, hek, hlk⟩
      exact ⟨hids, hparents, (noCycle_iff hids hparents).mp hcycle, hedges, hlinks, hek, hlk⟩
    · rintro ⟨hids, hparents, hacyclic, hedges, hlinks, hek, hlk⟩
      exact ⟨hids, hparents, (noCycle_iff hids hparents).mpr hacyclic, hedges, hlinks, hek, hlk⟩

/-! ## The merge of well-formed payloads -/

/-- Every merge over well-formed sides returns; `MergeRun` says what. -/
theorem mergePlanMirror_run (base : Option PlanMirrorPayload)
    {localPayload incomingPayload : PlanMirrorPayload} (hl : WellFormed localPayload)
    (hi : WellFormed incomingPayload) : ∃ rewired broken kept m,
      mergePlanMirror base localPayload incomingPayload = .ok m ∧
      MergeRun (base.map readSide) (readSide localPayload)
        (readIncoming (readSide localPayload) incomingPayload) rewired broken kept m :=
  mergeSides_run _ (readSide_tree hl) (readIncoming_tree hi _)

/-- From well-formed sides, and whatever the base, the merge terminates without throwing; its
payload is well formed, and its deletion list names local nodes, each before its ancestors. -/
theorem mergePlanMirror_wellFormed (base : Option PlanMirrorPayload)
    (localPayload incomingPayload : PlanMirrorPayload) (hl : WellFormed localPayload)
    (hi : WellFormed incomingPayload) :
    ∃ m, mergePlanMirror base localPayload incomingPayload = .ok m ∧
      WellFormed (.v2 m.merged) ∧
      (∀ id ∈ m.deleted, id ∈ localPayload.nodes.map (·.id)) ∧
      m.deleted.Pairwise fun a b => ¬ Above (parentIn localPayload.nodes) b a := by
  obtain ⟨rewired, broken, kept, m, hok, hrun⟩ := mergePlanMirror_run base hl hi
  have hlt := readSide_tree hl
  have hit := readIncoming_tree hi (readSide localPayload)
  refine ⟨m, hok, hrun.wellFormed hlt hit, ?_, ?_⟩
  · intro id hid
    exact hlt.mem_keys.mp ((hrun.mem_deleted hlt hit).mp hid).1
  · rw [← parentIn_eq hl]
    exact hrun.deleted_deepest_first hlt

/-- Reading one part of a result off an evaluation. -/
theorem exists_ok_of_map {ε α β : Type} {x : Except ε α} {f : α → β} {b : β}
    (h : x.toOption.map f = some b) : ∃ a, x = .ok a ∧ f a = b := by
  cases x with
  | error e => cases h
  | ok a => exact ⟨a, rfl, Option.some.inj h⟩

/-- A plan of titled nodes without edges or links, for concrete runs. -/
def sketch (nodes : List (String × Option String × Nat)) : PlanMirror where
  nodes := nodes.map fun (id, parentId, ordinal) =>
    { id, parentId, ordinal, title := id, kind := .component, body := none, status := .todo
      taskable := true }
  edges := []
  codeLinks := []

def crossBase : PlanMirror := sketch [("r", none, 0), ("a", some "r", 0), ("b", some "r", 1)]

def crossLocal : PlanMirror := sketch [("r", none, 0), ("a", some "b", 0), ("b", some "r", 1)]

/-- `b` moved under `a`. -/
def crossIncoming : PlanMirror := sketch [("r", none, 0), ("a", some "r", 0), ("b", some "a", 1)]

theorem mergePlanMirror_wellFormed_crossing :
    ∃ m, mergePlanMirror (some (.v2 crossBase)) (.v2 crossLocal) (.v2 crossIncoming) = .ok m ∧
      WellFormed (.v2 m.merged) := by
  obtain ⟨m, hok, hwf, _⟩ := mergePlanMirror_wellFormed (some (.v2 crossBase)) (.v2 crossLocal)
    (.v2 crossIncoming) (by decide) (by decide)
  exact ⟨m, hok, hwf⟩

end Haive

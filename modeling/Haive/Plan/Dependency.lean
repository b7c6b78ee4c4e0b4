import Haive.Plan.Tree
import Haive.Lib.Edges

/-!
# Dependencies that can be met

`Satisfiable` is what `unsatisfiableDependency` protects: the `depends_on` edges
have no cycle, and no node depends on a node above it. The link check keeps the
first part for good (`Checked.step`), because the cached graph never misses an
edge. It does not keep the second part, since a re-parent changes what is above a
node and is not checked: `link_then_move_unsatisfiable`. It is kept as long as no
node of a subtree that moves depends on what it moves under
(`runPatches_satisfiable`).
-/

namespace Haive

open Lib Patch

/-! ## The search -/

theorem mem_successors {graph : List (Uuid × Uuid)} {x y : Uuid} :
    y ∈ successors graph x ↔ (x, y) ∈ graph := by
  simp only [successors, List.mem_map, List.mem_filter, decide_eq_true_eq]
  constructor
  · rintro ⟨⟨a, b⟩, ⟨hmem, rfl⟩, rfl⟩
    exact hmem
  · exact fun h => ⟨(x, y), ⟨h, rfl⟩, rfl⟩

/-- What the inner loop leaves: everything is seen, and what is new is queued. -/
theorem enqueue_spec (next : List Uuid) (seen queue : List Uuid) :
    (∀ x ∈ seen, x ∈ (enqueue next (seen, queue)).1) ∧
      (∀ x ∈ next, x ∈ (enqueue next (seen, queue)).1) ∧
      (∀ x ∈ queue, x ∈ (enqueue next (seen, queue)).2) ∧
      ∀ x ∈ (enqueue next (seen, queue)).1, x ∈ seen ∨ x ∈ (enqueue next (seen, queue)).2 := by
  induction next generalizing seen queue with
  | nil => exact ⟨fun _ h => h, fun _ h => absurd h List.not_mem_nil, fun _ h => h, fun _ h => .inl h⟩
  | cons n next ih =>
    rw [enqueue]
    split
    · next hn =>
      obtain ⟨hseen, hnext, hqueue, hnew⟩ := ih seen queue
      refine ⟨hseen, fun x hx => ?_, hqueue, hnew⟩
      rcases List.mem_cons.mp hx with rfl | hx
      · exact hseen x hn
      · exact hnext x hx
    · obtain ⟨hseen, hnext, hqueue, hnew⟩ := ih (n :: seen) (queue ++ [n])
      refine ⟨fun x hx => hseen x (List.mem_cons_of_mem _ hx), fun x hx => ?_,
        fun x hx => hqueue x (List.mem_append_left _ hx), fun x hx => ?_⟩
      · rcases List.mem_cons.mp hx with rfl | hx
        · exact hseen x List.mem_cons_self
        · exact hnext x hx
      · rcases hnew x hx with hx | hx
        · rcases List.mem_cons.mp hx with rfl | hx
          · exact .inr (hqueue x (List.mem_append_right _ List.mem_cons_self))
          · exact .inl hx
        · exact .inr hx

/-- A search that finds nothing leaves a set without the target that no edge leaves. -/
theorem reaches_false {graph : List (Uuid × Uuid)} {target : Uuid} {fuel : Nat} {seen queue : List Uuid}
    (hinv : ∀ x ∈ seen, x ∈ queue ∨ x ≠ target ∧ ∀ y, (x, y) ∈ graph → y ∈ seen)
    (h : reaches graph target fuel seen queue = some false) :
    ∃ closed : List Uuid, seen ⊆ closed ∧
      ∀ x ∈ closed, x ≠ target ∧ ∀ y, (x, y) ∈ graph → y ∈ closed := by
  induction fuel generalizing seen queue with
  | zero =>
    cases queue with
    | nil => exact ⟨seen, fun _ hx => hx, fun x hx => (hinv x hx).resolve_left List.not_mem_nil⟩
    | cons _ _ => cases h
  | succ fuel ih =>
    cases queue with
    | nil => exact ⟨seen, fun _ hx => hx, fun x hx => (hinv x hx).resolve_left List.not_mem_nil⟩
    | cons current queue =>
      rw [reaches] at h
      split at h
      · cases h
      · next hne =>
        obtain ⟨hseen, hnext, hqueue, hnew⟩ := enqueue_spec (successors graph current) seen queue
        obtain ⟨closed, hsub, hclosed⟩ := ih (fun x hx => by
          rcases hnew x hx with hold | hq
          · rcases hinv x hold with hq | ⟨hxt, hsucc⟩
            · rcases List.mem_cons.mp hq with rfl | hq
              · exact .inr ⟨hne, fun y hy => hnext y (mem_successors.mpr hy)⟩
              · exact .inl (hqueue x hq)
            · exact .inr ⟨hxt, fun y hy => hseen y (hsucc y hy)⟩
          · exact .inl hq) h
        exact ⟨closed, fun x hx => hsub (hseen x hx), hclosed⟩

theorem length_enqueue (graph : List (Uuid × Uuid)) (next : List Uuid)
    (hnext : ∀ x ∈ next, ∃ e ∈ graph, e.2 = x) (seen queue : List Uuid) :
    (enqueue next (seen, queue)).2.length +
        graph.countP (fun e => e.2 ∉ (enqueue next (seen, queue)).1) ≤
      queue.length + graph.countP (fun e => e.2 ∉ seen) := by
  induction next generalizing seen queue with
  | nil => exact Nat.le_refl _
  | cons n next ih =>
    have htail : ∀ x ∈ next, ∃ e ∈ graph, e.2 = x := fun x hx => hnext x (List.mem_cons_of_mem _ hx)
    rw [enqueue]
    split
    · exact ih htail seen queue
    · next hn =>
      refine (ih htail (n :: seen) (queue ++ [n])).trans ?_
      obtain ⟨e, he, rfl⟩ := hnext n List.mem_cons_self
      have hlt : graph.countP (fun x => x.2 ∉ e.2 :: seen) < graph.countP (fun x => x.2 ∉ seen) := by
        refine countP_lt he (by simpa using hn) (by simp) fun x _ hx => ?_
        simp only [decide_eq_true_eq, List.mem_cons, not_or] at hx ⊢
        exact hx.2
      rw [List.length_append, List.length_singleton]
      omega

/-- The search ends: a round takes one node off the queue, and what it adds was not seen before. -/
theorem reaches_ends {graph : List (Uuid × Uuid)} {target : Uuid} {fuel : Nat} {seen queue : List Uuid}
    (hfuel : queue.length + graph.countP (fun e => e.2 ∉ seen) ≤ fuel) :
    ∃ found, reaches graph target fuel seen queue = some found := by
  induction fuel generalizing seen queue with
  | zero =>
    cases queue with
    | nil => exact ⟨false, rfl⟩
    | cons _ _ => simp at hfuel
  | succ fuel ih =>
    cases queue with
    | nil => exact ⟨false, rfl⟩
    | cons current queue =>
      rw [reaches]
      split
      · exact ⟨true, rfl⟩
      · refine ih ((length_enqueue graph _ (fun x hx => ?_) seen queue).trans ?_)
        · exact ⟨(current, x), mem_successors.mp hx, rfl⟩
        · rw [List.length_cons] at hfuel
          omega

/-- The search of the link check always answers. -/
theorem reaches_total (graph : List (Uuid × Uuid)) (fromId toId : Uuid) :
    ∃ found, reaches graph fromId (graph.length + 2) [toId] [toId] = some found := by
  refine reaches_ends ?_
  have hle : graph.countP (fun e => e.2 ∉ [toId]) ≤ graph.length := List.countP_le_length
  rw [List.length_singleton]
  omega

theorem not_reaches {graph : List (Uuid × Uuid)} {fromId toId : Uuid} {fuel : Nat}
    (h : reaches graph fromId fuel [toId] [toId] = some false) :
    ¬ Relation.ReflTransGen (fun x y => (x, y) ∈ graph) toId fromId := by
  obtain ⟨closed, hsub, hclosed⟩ := reaches_false (fun x hx => .inl hx) h
  intro hpath
  have hmem : fromId ∈ closed :=
    closed_reflTransGen (fun x y hx hxy => (hclosed x hx).2 y hxy) (hsub List.mem_cons_self) hpath
  exact (hclosed fromId hmem).1 rfl

/-! ## What the link check protects -/

def DependsOn (db : PlanDb) (x y : Uuid) : Prop :=
  ∃ e ∈ db.edges.rows, e.kind = .dependsOn ∧ e.fromNodeId = x ∧ e.toNodeId = y

/-- Every dependency can be met. -/
structure Satisfiable (db : PlanDb) : Prop where
  cycleFree : CycleFree (DependsOn db)
  notAbove : ∀ x y, DependsOn db x y → ¬ Above (parentFrom db.nodes) x y

def MovesFreely (db : PlanDb) : Query → Prop
  | .updateNode id set _ => ∀ p newPrefix, set.moved = some (p, newPrefix) → ∀ x y, DependsOn db x y →
    x = id ∨ Above (parentFrom db.nodes) x id → ¬ (p = y ∨ Above (parentFrom db.nodes) p y)
  | _ => True

/-- The cached graph of a patch misses no edge. -/
structure Checked (g : Ledger) (db : PlanDb) : Prop where
  sequential : Sequential g db
  ends : EndsLive db
  satisfiable : Satisfiable db
  cached : ∀ graph, g.graph = some graph → ∀ x y, DependsOn db x y → (x, y) ∈ graph

/-! ## What a statement does to dependencies -/

namespace PlanDb

variable {db : PlanDb} {q : Query} {r : q.Reply} {ws : List Write}

theorem dependsOn_effect (h : effect db db q = .ok (r, ws)) {x y : Uuid}
    (hxy : DependsOn (db.apply ws) x y) :
    DependsOn db x y ∨ ∃ e, q = .insertEdge e ∧ e.kind = .dependsOn ∧ e.fromNodeId = x ∧ e.toNodeId = y := by
  obtain ⟨e, he, hkind, hx, hy⟩ := hxy
  rcases mem_edges_apply he with hput | ⟨hold, _⟩
  · exact .inr ⟨e, (effect_putEdge h hput).1, hkind, hx, hy⟩
  · exact .inl ⟨e, hold, hkind, hx, hy⟩

theorem parentFrom_effect (h : effect db db q = .ok (r, ws)) (id : Uuid) :
    parentFrom (db.apply ws).nodes id =
      match nodeEffect db db id q with
      | none => parentFrom db.nodes id
      | some row => row.bind (·.parentId) := by
  rw [parentFrom, find?_effect h]
  cases nodeEffect db db id q <;> rfl

/-- The statements that leave every parent alone. -/
theorem parentFrom_same (h : effect db db q = .ok (r, ws)) (hinsert : ∀ row, q ≠ .insertNode row)
    (hdelete : ∀ id, q ≠ .deleteNode id)
    (hmove : ∀ id set asserted, q = .updateNode id set asserted → set.moved = none) :
    parentFrom (db.apply ws).nodes = parentFrom db.nodes := by
  funext id
  rw [parentFrom_effect h]
  cases q with
  | insertNode row => exact absurd rfl (hinsert row)
  | deleteNode k => exact absurd rfl (hdelete k)
  | rewriteDescendants m oldPrefix newPrefix updatedAt =>
    simp only [nodeEffect]
    cases hr : rewriteRow? db db oldPrefix id with
    | none => rfl
    | some row =>
      obtain ⟨hrow, _⟩ := Option.filter_eq_some_iff.mp hr
      simp [parentFrom, hrow, rewritten]
  | updateNode k set asserted =>
    by_cases hk : k = id
    · cases hr : db.nodes.find? id with
      | none => simp [nodeEffect, hk, hr]
      | some row => simp [nodeEffect, hk, hr, parentFrom, NodeSet.on, hmove k set asserted rfl]
    · simp [nodeEffect, hk]
  | _ => rfl

end PlanDb

/-- Ancestors have paths that start the descendant's. -/
theorem Settled.path_prefix {db : PlanDb} (h : Settled db.spots) {a b : Uuid}
    (hab : Above (parentFrom db.nodes) a b) :
    ∃ s t, db.spots a = some s ∧ db.spots b = some t ∧ t.path.toList <+: s.path.toList := by
  have step : ∀ {a b}, parentFrom db.nodes a = some b → ∃ s t, db.spots a = some s ∧
      db.spots b = some t ∧ t.path.toList <+: s.path.toList := by
    intro a b hp
    obtain ⟨s, hs, hp⟩ := PlanDb.parentFrom_eq_some.mp hp
    obtain ⟨t, ht, hpath⟩ := h.child hs hp
    exact ⟨s, t, hs, ht, hpath ▸ planNodePath_extends a (List.prefix_refl _)⟩
  induction hab with
  | single hp => exact step hp
  | tail _ hp ih =>
    obtain ⟨s, t, hs, ht, hpre⟩ := ih
    obtain ⟨t', u, ht', hu, hpre'⟩ := step hp
    rw [ht, Option.some.injEq] at ht'
    subst ht'
    exact ⟨s, u, hs, hu, hpre'.trans hpre⟩

/-- Fewer dependencies under the same ancestors, or fewer ancestors. -/
theorem Satisfiable.mono {db db' : PlanDb} (h : Satisfiable db)
    (hdep : ∀ x y, DependsOn db' x y → DependsOn db x y)
    (habove : ∀ x y, DependsOn db' x y → Above (parentFrom db'.nodes) x y →
      Above (parentFrom db.nodes) x y) : Satisfiable db' where
  cycleFree := h.cycleFree.mono hdep
  notAbove := fun x y hxy hab => h.notAbove x y (hdep x y hxy) (habove x y hxy hab)

theorem EndsLive.dependsOn {db : PlanDb} (h : EndsLive db) {x y : Uuid} (hxy : DependsOn db x y) :
    x ∈ db.nodes.keys ∧ y ∈ db.nodes.keys := by
  obtain ⟨e, he, _, rfl, rfl⟩ := hxy
  exact h.edges e he

namespace Checked

variable {g : Ledger} {db : PlanDb} {uuid : Nat → Uuid} {q : Query} {r : q.Reply} {ws : List Write}

/-- A statement that adds no dependency. -/
theorem dependsOn_old (he : PlanDb.effect db db q = .ok (r, ws)) (hq : ∀ e, q ≠ .insertEdge e)
    (x y : Uuid) (hxy : DependsOn (db.apply ws) x y) : DependsOn db x y := by
  rcases PlanDb.dependsOn_effect he hxy with hxy | ⟨e, hqe, _⟩
  · exact hxy
  · exact absurd hqe (hq e)

theorem insertNode {row : PlanNodeRow} {r : Unit} (h : Checked g db)
    (he : PlanDb.effect db db (.insertNode row) = .ok (r, ws)) : Satisfiable (db.apply ws) := by
  have hold := dependsOn_old he (fun _ hq => nomatch hq)
  refine h.satisfiable.mono hold fun x y hxy hab => ?_
  -- The parents of the nodes that were there are as before.
  have hnew := (PlanDb.effect_insertNode he).1
  have hsame : ∀ z, z ∈ db.nodes.keys → parentFrom (db.apply ws).nodes z = parentFrom db.nodes z := by
    intro z hz
    rw [PlanDb.parentFrom_effect he, PlanDb.nodeEffect, if_neg]
    rintro rfl
    exact hnew hz
  refine Above.congr (s := (· ∈ db.nodes.keys)) hsame ?_ (h.ends.dependsOn (hold x y hxy)).1 hab
  intro z w hz hzw
  rw [hsame z hz] at hzw
  obtain ⟨s, hs, hp⟩ := PlanDb.parentFrom_eq_some.mp hzw
  obtain ⟨t, ht, _⟩ := h.sequential.planted.child hs hp
  exact PlanDb.mem_keys_iff_spots.mpr ⟨t, ht⟩

theorem deleteNode {id : Uuid} {r : Unit} (h : Checked g db)
    (he : PlanDb.effect db db (.deleteNode id) = .ok (r, ws)) : Satisfiable (db.apply ws) := by
  refine h.satisfiable.mono (dependsOn_old he (fun _ hq => nomatch hq)) fun x y _ hab => ?_
  refine Relation.TransGen.mono (fun a b hab => ?_) x y hab
  rw [PlanDb.parentFrom_effect he, PlanDb.nodeEffect] at hab
  split at hab
  · exact hab
  · next hrow =>
    split at hrow
    · cases hrow
      cases hab
    · cases hrow

theorem insertEdge {e : PlanNodeEdgeRow} {r : Bool} (h : Checked g db)
    (hallow : g.Allows uuid (.insertEdge e))
    (he : PlanDb.effect db db (.insertEdge e) = .ok (r, ws)) : Satisfiable (db.apply ws) := by
  obtain ⟨hpend, fromRow, hfrom, hfromId, toRow, hto, htoId, _, hdep⟩ := hallow
  have hparent := PlanDb.parentFrom_same he (fun _ hq => nomatch hq) (fun _ hq => nomatch hq)
    (fun _ _ _ hq => nomatch hq)
  have hstep : ∀ x y, DependsOn (db.apply ws) x y →
      DependsOn db x y ∨ e.kind = .dependsOn ∧ x = e.fromNodeId ∧ y = e.toNodeId := by
    intro x y hxy
    rcases PlanDb.dependsOn_effect he hxy with hxy | ⟨e', hq, hkind, hx, hy⟩
    · exact .inl hxy
    · cases hq
      exact .inr ⟨hkind, hx.symm, hy.symm⟩
  by_cases hkind : e.kind = .dependsOn
  · obtain ⟨hpath, graph, hgraph, hreach⟩ := hdep hkind
    refine ⟨h.satisfiable.cycleFree.insert (a := e.fromNodeId) (b := e.toNodeId)
      (fun x y hxy => (hstep x y hxy).imp_right fun hnew => hnew.2) fun hback => ?_, ?_⟩
    · exact not_reaches hreach (Relation.ReflTransGen.mono (h.cached graph hgraph) _ _ hback)
    · intro x y hxy hab
      rw [hparent] at hab
      rcases hstep x y hxy with hxy | ⟨_, rfl, rfl⟩
      · exact h.satisfiable.notAbove x y hxy hab
      · -- The new edge does not lead to an ancestor, or the paths would show it.
        have hsettled := settled_of_pending h.sequential.planted hpend
        obtain ⟨s, t, hs, ht, hpre⟩ := hsettled.path_prefix hab
        rw [← hfromId, h.sequential.knownSpot hfrom, Option.some.injEq] at hs
        rw [← htoId, h.sequential.knownSpot hto, Option.some.injEq] at ht
        subst hs
        subst ht
        rw [startsWith_iff.mpr hpre] at hpath
        cases hpath
  · refine h.satisfiable.mono (fun x y hxy => (hstep x y hxy).resolve_right fun hnew => hkind hnew.1)
      fun x y _ hab => ?_
    rwa [hparent] at hab

theorem updateNode {id : Uuid} {set : NodeSet} {asserted : Option Nat} {r : Unit} (h : Checked g db)
    (hfree : MovesFreely db (.updateNode id set asserted))
    (he : PlanDb.effect db db (.updateNode id set asserted) = .ok (r, ws)) :
    Satisfiable (db.apply ws) := by
  have hold := dependsOn_old he (fun _ hq => by cases hq)
  have hsame : ∀ z, z ≠ id → parentFrom (db.apply ws).nodes z = parentFrom db.nodes z := by
    intro z hz
    rw [PlanDb.parentFrom_effect he, PlanDb.nodeEffect, if_neg (Ne.symm hz)]
  refine h.satisfiable.mono hold fun x y hxy hab => ?_
  cases hset : set.moved with
  | none =>
    have hparent := PlanDb.parentFrom_same he (fun _ hq => by cases hq) (fun _ hq => by cases hq)
      (fun _ _ _ hq => by cases hq; exact hset)
    rwa [hparent] at hab
  | some moved =>
    obtain ⟨p, newPrefix⟩ := moved
    cases hr : db.nodes.find? id with
    | none =>
      -- No row, no move.
      refine Relation.TransGen.mono (fun a b hab => ?_) x y hab
      by_cases ha : a = id
      · subst ha
        rw [PlanDb.parentFrom_effect he, PlanDb.nodeEffect, if_pos rfl, hr] at hab
        exact hab
      · rwa [hsame a ha] at hab
    | some row =>
      have hid : parentFrom (db.apply ws).nodes id = some p := by
        rw [PlanDb.parentFrom_effect he, PlanDb.nodeEffect, if_pos rfl, hr]
        simp [NodeSet.on, hset]
      rcases hab.of_move hsame hid with hab | ⟨hx, hp⟩
      · exact hab
      · exact absurd hp (hfree p newPrefix hset x y (hold x y hxy) hx)

/-- Each statement that the ledger allows keeps every dependency satisfiable, unless it moves a
subtree under what it depends on. -/
theorem step {db' : PlanDb} (h : Checked g db) (hallow : g.Allows uuid q) (hfree : MovesFreely db q)
    (hexec : db.exec q = .ok (r, db')) : q.Answers r ∧ Checked (g.note q r) db' := by
  obtain ⟨hans, hseq⟩ := h.sequential.step hallow hexec
  obtain ⟨ws, he, rfl⟩ := PlanDb.exec_eq_ok hexec
  have hends := h.ends.step he
  -- A statement that adds no dependency and leaves the parents and the cache alone.
  have quiet : (∀ e, q ≠ .insertEdge e) → parentFrom (db.apply ws).nodes = parentFrom db.nodes →
      (∀ graph, (g.note q r).graph = some graph → g.graph = some graph) →
      q.Answers r ∧ Checked (g.note q r) (db.apply ws) := by
    intro hq hparent hgraph
    have hold := dependsOn_old he hq
    refine ⟨hans, hseq, hends, h.satisfiable.mono hold fun x y _ hab => by rwa [hparent] at hab, ?_⟩
    exact fun graph hg x y hxy => h.cached graph (hgraph graph hg) x y (hold x y hxy)
  cases q with
  | insertNode row =>
    refine ⟨hans, hseq, hends, h.insertNode he, fun graph hg x y hxy => h.cached graph hg x y ?_⟩
    exact dependsOn_old he (fun _ hq => by cases hq) x y hxy
  | updateNode id set asserted =>
    refine ⟨hans, hseq, hends, h.updateNode hfree he, fun graph hg x y hxy => h.cached graph hg x y ?_⟩
    exact dependsOn_old he (fun _ hq => by cases hq) x y hxy
  | deleteNode id => exact ⟨hans, hseq, hends, h.deleteNode he, fun _ hg => by cases hg⟩
  | insertEdge e =>
    refine ⟨hans, hseq, hends, h.insertEdge hallow he, fun graph hg x y hxy => ?_⟩
    -- The new edge joins the cache too.
    rcases PlanDb.dependsOn_effect he hxy with hxy | ⟨e', hq, hkind, hx, hy⟩
    · by_cases hkind : e.kind = .dependsOn
      · rw [Ledger.note, if_pos hkind] at hg
        obtain ⟨graph, hold, rfl⟩ := Option.map_eq_some_iff.mp hg
        exact List.mem_append_left _ (h.cached graph hold x y hxy)
      · rw [Ledger.note, if_neg hkind] at hg
        exact h.cached graph hg x y hxy
    · cases hq
      rw [Ledger.note, if_pos hkind] at hg
      obtain ⟨graph, _, rfl⟩ := Option.map_eq_some_iff.mp hg
      exact List.mem_append_right _ (by rw [hx, hy]; exact List.mem_cons_self)
  | deleteEdge key =>
    refine quiet (fun _ hq => by cases hq) ?_ ?_
    · exact PlanDb.parentFrom_same he (fun _ hq => by cases hq) (fun _ hq => by cases hq)
        (fun _ _ _ hq => by cases hq)
    · intro graph hg
      cases r
      · exact hg
      · cases hg
  | dependsOnEdges =>
    cases he
    refine ⟨hans, hseq, hends, h.satisfiable, ?_⟩
    rintro graph hg x y ⟨e, hmem, hkind, rfl, rfl⟩
    cases hg
    exact List.mem_map.mpr ⟨e, List.mem_filter.mpr ⟨hmem, by simpa using hkind⟩, rfl⟩
  | loadNode id =>
    cases he
    refine ⟨hans, hseq, hends, h.satisfiable, fun graph hg => h.cached graph ?_⟩
    cases hr : db.nodes.find? id <;>
    · rw [hr] at hg
      exact hg
  | findRoot =>
    cases he
    refine ⟨hans, hseq, hends, h.satisfiable, fun graph hg => h.cached graph ?_⟩
    cases hr : db.root? <;>
    · rw [hr] at hg
      exact hg
  | _ =>
    refine quiet (fun _ hq => by cases hq) ?_ (fun _ hg => hg)
    exact PlanDb.parentFrom_same he (fun _ hq => by cases hq) (fun _ hq => by cases hq)
      (fun _ _ _ hq => by cases hq)

end Checked

/-! ## Runs -/

def PatchesMeet (met : PlanDb → Query → Prop) : PlanDb → List PatchCall → Prop
  | _, [] => True
  | db, call :: calls =>
    match runPatch db call with
    | .error _ => PatchesMeet met db calls
    | .ok (_, db') => (applyPlanPatch call).Asks PlanDb.exec met db ∧ PatchesMeet met db' calls

/-- `PatchesMeet`, for a condition that can be computed. -/
def patchesMeet (met : PlanDb → Query → Bool) : PlanDb → List PatchCall → Bool
  | _, [] => true
  | db, call :: calls =>
    match runPatch db call with
    | .error _ => patchesMeet met db calls
    | .ok (_, db') => (applyPlanPatch call).asks PlanDb.exec met db && patchesMeet met db' calls

theorem patchesMeet_sound {check : PlanDb → Query → Bool} {met : PlanDb → Query → Prop}
    (hmet : ∀ db q, check db q = true → met db q) (db : PlanDb) (calls : List PatchCall)
    (h : patchesMeet check db calls = true) : PatchesMeet met db calls := by
  induction calls generalizing db with
  | nil => trivial
  | cons call calls ih =>
    rw [patchesMeet] at h
    rw [PatchesMeet]
    split
    · next heq =>
      rw [heq] at h
      exact ih db h
    · next heq =>
      rw [heq] at h
      obtain ⟨hask, hrest⟩ := Bool.and_eq_true_iff.mp h
      exact ⟨Prog.Asks.of_asks hmet hask, ih _ hrest⟩

theorem runPatch_satisfiable {db db' : PlanDb} {call : PatchCall} {result : ApplyPlanPatchResult}
    (hsound : PlanSound db) (h : Satisfiable db)
    (hask : (applyPlanPatch call).Asks PlanDb.exec MovesFreely db)
    (hrun : runPatch db call = .ok (result, db')) : Satisfiable db' := by
  obtain ⟨hsettled, hends⟩ := planSound_iff.mp hsound
  obtain ⟨l, hrun⟩ := runPatch_eq_ok hrun
  obtain ⟨g, hchecked, _⟩ := Prog.run_inv (I := Checked)
    (fun g db q r db' hinv hallow hfree hexec => by
      obtain ⟨hans, hchecked⟩ := hinv.step hallow hfree hexec
      exact ⟨g.note q r, ⟨hans, rfl⟩, hchecked⟩)
    (applyPlanPatch_allowed call) hask
    ⟨Sequential.start hsettled, hends, h, fun _ hg => nomatch hg⟩ hrun
  exact hchecked.satisfiable

theorem satisfiable_empty : Satisfiable PlanDb.empty := by
  have hnone : ∀ x y, ¬ DependsOn PlanDb.empty x y := fun _ _ ⟨_, he, _⟩ => absurd he List.not_mem_nil
  refine ⟨fun x hx => ?_, fun x y hxy => absurd hxy (hnone x y)⟩
  obtain ⟨y, hxy, _⟩ := Relation.TransGen.head'_iff.mp hx
  exact hnone x y hxy

/-- Dependencies stay satisfiable in every sequence of patches from the empty plan in which no
subtree moves under what one of its nodes depends on. -/
theorem runPatches_satisfiable (calls : List PatchCall)
    (h : PatchesMeet MovesFreely PlanDb.empty calls) :
    Satisfiable (runPatches PlanDb.empty calls) := by
  have keeps : ∀ db, PlanSound db → Satisfiable db → PatchesMeet MovesFreely db calls →
      Satisfiable (runPatches db calls) := by
    clear h
    induction calls with
    | nil => exact fun _ _ h _ => h
    | cons call calls ih =>
      intro db hsound hsat hmeet
      rw [PatchesMeet] at hmeet
      rw [runPatches, List.foldl_cons]
      cases heq : runPatch db call with
      | error =>
        rw [heq] at hmeet
        exact ih db hsound hsat hmeet
      | ok out =>
        rw [heq] at hmeet
        exact ih _ (runPatch_sound hsound heq) (runPatch_satisfiable hsound hsat hmeet.1 heq) hmeet.2
  exact keeps _ planSound_empty satisfiable_empty h

/-! ## Two runs -/

def movesFreely (db : PlanDb) : Query → Bool
  | .updateNode id set _ =>
    match set.moved with
    | none => true
    | some (p, _) =>
      let above := Lib.climb (parentFrom db.nodes) (db.nodes.rows.length + 1)
      db.edges.rows.all fun e => e.kind ≠ .dependsOn ||
        match above e.fromNodeId, above p with
        | some up, some beyond =>
          !((e.fromNodeId = id || id ∈ up) && (p = e.toNodeId || e.toNodeId ∈ beyond))
        | _, _ => false
  | _ => true

theorem movesFreely_sound (db : PlanDb) (q : Query) (h : movesFreely db q = true) : MovesFreely db q := by
  cases q with
  | updateNode id set asserted =>
    rintro p newPrefix hset x y ⟨e, he, hkind, rfl, rfl⟩ hx hp
    rw [movesFreely, hset] at h
    have hedge := List.all_eq_true.mp h e he
    rw [hkind] at hedge
    simp only [ne_eq, not_true_eq_false, decide_false, Bool.false_or] at hedge
    split at hedge
    · next up beyond hup hbeyond =>
      rw [above_iff_mem_climb hup] at hx
      rw [above_iff_mem_climb hbeyond] at hp
      simp only [Bool.not_eq_true', Bool.and_eq_false_iff, Bool.or_eq_false_iff,
        decide_eq_false_iff_not] at hedge
      rcases hedge with hout | hout
      · exact hx.elim hout.1 hout.2
      · exact hp.elim hout.1 hout.2
    · cases hedge
  | _ => trivial

/-- A root with two children, of which `api` depends on `web`. -/
def Sample.linkSiblings : PatchCall := patch (plan.ops ++ [.link "api" "web" .dependsOn none])

open Sample in
theorem container_meets : patchesMeet movesFreely PlanDb.empty [linkSiblings, move web api] = true := by
  decide +kernel

open Sample in
/-- The node that is depended on moves under the one that depends on it. -/
theorem runPatches_satisfiable_container :
    PatchesMeet MovesFreely PlanDb.empty [linkSiblings, move web api] ∧
      Satisfiable (runPatches PlanDb.empty [linkSiblings, move web api]) := by
  have hmeet := patchesMeet_sound movesFreely_sound PlanDb.empty [linkSiblings, move web api] container_meets
  exact ⟨hmeet, runPatches_satisfiable [linkSiblings, move web api] hmeet⟩

open Sample in
/-- The node that depends on the other moves under it: both patches succeed. -/
theorem link_then_move_unsatisfiable :
    ∃ db, runAll PlanDb.empty [linkSiblings, move api web] = some db ∧ ¬ Satisfiable db := by
  have hrun : (runAll PlanDb.empty [linkSiblings, move api web]).any (fun db =>
      ⟨api, web, .dependsOn, none⟩ ∈ db.edges.rows ∧ parentFrom db.nodes api = some web) = true := by
    decide +kernel
  obtain ⟨db, hdb, hends⟩ := (Option.any_eq_true _ _).mp hrun
  obtain ⟨hedge, hparent⟩ := of_decide_eq_true hends
  have hdep : DependsOn db api web := ⟨⟨api, web, .dependsOn, none⟩, hedge, rfl, rfl, rfl⟩
  exact ⟨db, hdb, fun h => h.notAbove api web hdep (above_head hparent)⟩

end Haive

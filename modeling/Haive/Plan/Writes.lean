import Haive.Plan.Store

/-!
# What statements leave behind

`lastNode` reads the node table after a list of writes, `nodeEffect` the writes a
statement makes to it. `effect_lastNode` is the one place that opens `effect` for
that; `cascade_closed` says that a deletion takes whole subtrees.
-/

namespace Haive

open Lib

/-! ## Tables after writes -/

/-- What a write does to the row of `id`: nothing, or it leaves this. -/
def Write.onNode (id : Uuid) : Write → Option (Option PlanNodeRow)
  | .putNode row => if row.id = id then some (some row) else none
  | .delNode k => if k = id then some none else none
  | _ => none

/-- What a list of writes leaves of the row of `id`, if it touches it. -/
def lastNode : List Write → Uuid → Option (Option PlanNodeRow)
  | [], _ => none
  | w :: ws, id => (lastNode ws id).or (w.onNode id)

namespace PlanDb

theorem find?_write (db : PlanDb) (w : Write) (id : Uuid) :
    (db.write w).nodes.find? id = (w.onNode id).getD (db.nodes.find? id) := by
  cases w with
  | putNode row =>
    rw [write, Table.find?_put, Write.onNode]
    split <;> rfl
  | delNode k =>
    rw [write, Table.find?_del, Write.onNode]
    split <;> rfl
  | _ => rfl

theorem find?_apply (db : PlanDb) (ws : List Write) (id : Uuid) :
    (db.apply ws).nodes.find? id = (lastNode ws id).getD (db.nodes.find? id) := by
  induction ws generalizing db with
  | nil => rfl
  | cons w ws ih =>
    show ((db.write w).apply ws).nodes.find? id = _
    rw [ih, find?_write, lastNode]
    cases lastNode ws id <;> rfl

theorem apply_append (db : PlanDb) (ws ws' : List Write) :
    db.apply (ws ++ ws') = (db.apply ws).apply ws' :=
  List.foldl_append

theorem mem_edges_apply {db : PlanDb} {ws : List Write} {e : PlanNodeEdgeRow}
    (h : e ∈ (db.apply ws).edges.rows) :
    .putEdge e ∈ ws ∨ e ∈ db.edges.rows ∧ .delEdge e.key ∉ ws := by
  induction ws generalizing db with
  | nil => exact .inr ⟨h, List.not_mem_nil⟩
  | cons w ws ih =>
    rcases @ih (db.write w) h with h | ⟨h, hws⟩
    · exact .inl (List.mem_cons_of_mem _ h)
    · cases w with
      | putEdge row =>
        rcases Table.mem_rows_put.mp h with rfl | ⟨h, _⟩
        · exact .inl List.mem_cons_self
        · exact .inr ⟨h, by simpa using hws⟩
      | delEdge k =>
        obtain ⟨h, hk⟩ := List.mem_filter.mp h
        have hk' : e.key ≠ k := by simpa using hk
        exact .inr ⟨h, by simp [hk', hws]⟩
      | _ => exact .inr ⟨h, by simpa using hws⟩

theorem mem_links_apply {db : PlanDb} {ws : List Write} {k : PlanNodeCodeLinkRow}
    (h : k ∈ (db.apply ws).links.rows) :
    .putLink k ∈ ws ∨ k ∈ db.links.rows ∧ .delLink k.key ∉ ws := by
  induction ws generalizing db with
  | nil => exact .inr ⟨h, List.not_mem_nil⟩
  | cons w ws ih =>
    rcases @ih (db.write w) h with h | ⟨h, hws⟩
    · exact .inl (List.mem_cons_of_mem _ h)
    · cases w with
      | putLink row =>
        rcases Table.mem_rows_put.mp h with rfl | ⟨h, _⟩
        · exact .inl List.mem_cons_self
        · exact .inr ⟨h, by simpa using hws⟩
      | delLink key =>
        obtain ⟨h, hk⟩ := List.mem_filter.mp h
        have hk' : k.key ≠ key := by simpa using hk
        exact .inr ⟨h, by simp [hk', hws]⟩
      | _ => exact .inr ⟨h, by simpa using hws⟩

end PlanDb

theorem lastNode_append (ws ws' : List Write) (id : Uuid) :
    lastNode (ws ++ ws') id = (lastNode ws' id).or (lastNode ws id) := by
  induction ws with
  | nil => simp [lastNode]
  | cons w ws ih => rw [List.cons_append, lastNode, ih, lastNode, Option.or_assoc]

theorem lastNode_singleton (w : Write) (id : Uuid) : lastNode [w] id = w.onNode id := rfl

/-- Writes that touch no node row. -/
theorem lastNode_eq_none {ws : List Write} {id : Uuid} (h : ∀ w ∈ ws, w.onNode id = none) :
    lastNode ws id = none := by
  induction ws with
  | nil => rfl
  | cons w ws ih =>
    rw [lastNode, ih fun w' hw' => h w' (List.mem_cons_of_mem _ hw'), h w List.mem_cons_self]
    rfl

theorem mem_of_lastNode {ws : List Write} {id : Uuid} {row? : Option PlanNodeRow}
    (h : lastNode ws id = some row?) : ∃ w ∈ ws, w.onNode id = some row? := by
  induction ws with
  | nil => cases h
  | cons w ws ih =>
    rcases Option.or_eq_some_iff.mp h with hws | ⟨_, hw⟩
    · obtain ⟨w', hw', heq⟩ := ih hws
      exact ⟨w', List.mem_cons_of_mem _ hw', heq⟩
    · exact ⟨w, List.mem_cons_self, hw⟩

theorem mem_of_lastNode_put {ws : List Write} {id : Uuid} {row : PlanNodeRow}
    (h : lastNode ws id = some (some row)) : .putNode row ∈ ws := by
  obtain ⟨w, hw, heq⟩ := mem_of_lastNode h
  cases w with
  | putNode row' =>
    rw [Write.onNode, Option.ite_none_right_eq_some, Option.some.injEq, Option.some.injEq] at heq
    exact heq.2 ▸ hw
  | delNode k => simp [Write.onNode] at heq
  | _ => cases heq

theorem mem_of_lastNode_del {ws : List Write} {id : Uuid} (h : lastNode ws id = some none) :
    .delNode id ∈ ws := by
  obtain ⟨w, hw, heq⟩ := mem_of_lastNode h
  cases w with
  | putNode row => simp [Write.onNode] at heq
  | delNode k =>
    rw [Write.onNode, Option.ite_none_right_eq_some] at heq
    exact heq.1 ▸ hw
  | _ => cases heq

theorem lastNode_dels (ids : List Uuid) (id : Uuid) :
    lastNode (ids.map .delNode) id = if id ∈ ids then some none else none := by
  induction ids with
  | nil => rfl
  | cons k ids ih =>
    rw [List.map_cons, lastNode, ih, Write.onNode]
    by_cases hk : k = id
    · subst hk
      by_cases h : k ∈ ids <;> simp [h]
    · by_cases h : id ∈ ids <;> simp [h, hk, Ne.symm hk]

theorem lastNode_puts {rows : List PlanNodeRow} (hrows : (rows.map (·.id)).Nodup)
    {f : PlanNodeRow → PlanNodeRow} (hf : ∀ r, (f r).id = r.id) (id : Uuid) :
    lastNode (rows.map fun r => .putNode (f r)) id = (rows.find? (·.id = id)).map (some ∘ f) := by
  induction rows with
  | nil => rfl
  | cons r rows ih =>
    rw [List.map_cons, List.nodup_cons] at hrows
    rw [List.map_cons, lastNode, ih hrows.2, Write.onNode, hf, List.find?_cons]
    by_cases hr : r.id = id
    · have hnone : rows.find? (·.id = id) = none := by
        rw [List.find?_eq_none]
        intro r' hr' heq
        exact hrows.1 (List.mem_map.mpr ⟨r', hr', by simpa [hr] using heq⟩)
      simp [hr, hnone]
    · simp [hr]

/-! ## Deletions -/

namespace PlanDb

/-- With as many rounds as there are rows outside, no child of a doomed row is left. -/
theorem cascade_closed_of_le (db : PlanDb) (fuel : Nat) (doomed : List Uuid)
    (hfuel : db.nodes.rows.countP (fun r => r.id ∉ doomed) ≤ fuel) :
    ∀ r ∈ db.nodes.rows, ∀ p, r.parentId = some p → p ∈ db.cascade fuel doomed →
      r.id ∈ db.cascade fuel doomed := by
  induction fuel generalizing doomed with
  | zero =>
    intro r hr _ _ _
    have hnone := List.countP_eq_zero.mp (Nat.le_zero.mp hfuel) r hr
    rw [cascade]
    simpa using hnone
  | succ fuel ih =>
    simp only [cascade]
    split
    · next hnext =>
      intro r hr p hp hdoomed
      by_contra hout
      have hempty := List.map_eq_nil_iff.mp hnext
      rw [List.filter_eq_nil_iff] at hempty
      refine hempty r hr ?_
      simp [hp, hdoomed, hout]
    · next hnext =>
      refine ih _ (Nat.le_of_lt_succ (Nat.lt_of_lt_of_le ?_ hfuel))
      obtain ⟨x, hx⟩ := List.exists_mem_of_ne_nil _ hnext
      obtain ⟨r, hr, rfl⟩ := List.mem_map.mp hx
      obtain ⟨hr, hnew⟩ := List.mem_filter.mp hr
      refine countP_lt hr ?_ ?_ ?_
      · simpa using (of_decide_eq_true hnew).1
      · simp only [decide_eq_false_iff_not, not_not]
        exact List.mem_append_right _ hx
      · intro r' _ hr'
        simp only [decide_eq_true_eq, List.mem_append, not_or] at hr' ⊢
        exact hr'.1

/-- A deletion takes whole subtrees. -/
theorem cascade_closed (db : PlanDb) (id : Uuid) :
    ∀ r ∈ db.nodes.rows, ∀ p, r.parentId = some p → p ∈ db.doomedBy id → r.id ∈ db.doomedBy id := by
  unfold doomedBy
  split
  · exact db.cascade_closed_of_le _ _ List.countP_le_length
  · intro r _ p _ hp
    exact absurd hp List.not_mem_nil

theorem cascade_subset_keys (db : PlanDb) (fuel : Nat) (doomed : List Uuid) (h : doomed ⊆ db.nodes.keys) :
    db.cascade fuel doomed ⊆ db.nodes.keys := by
  induction fuel generalizing doomed with
  | zero => exact h
  | succ fuel ih =>
    simp only [cascade]
    split
    · exact h
    · refine ih _ (List.append_subset.mpr ⟨h, fun id hid => ?_⟩)
      obtain ⟨r, hr, rfl⟩ := List.mem_map.mp hid
      exact Table.mem_keys_of_mem (List.mem_filter.mp hr).1

theorem mem_keys_of_doomed {db : PlanDb} {id k : Uuid} (h : id ∈ db.doomedBy k) : id ∈ db.nodes.keys := by
  unfold doomedBy at h
  split at h
  · next hk => exact db.cascade_subset_keys _ _ (by simpa using hk) h
  · exact absurd h List.not_mem_nil

theorem lastNode_deleteWrites (db : PlanDb) (k id : Uuid) :
    lastNode (db.deleteWrites k) id = if id ∈ db.doomedBy k then some none else none := by
  have hquiet : lastNode ((db.links.rows.filter (·.nodeId ∈ db.doomedBy k)).map
      (fun l => Write.delLink l.key) ++
      (db.edges.rows.filter fun e => e.fromNodeId ∈ db.doomedBy k ∨ e.toNodeId ∈ db.doomedBy k).map
        (fun e => .delEdge e.key)) id = none := by
    refine lastNode_eq_none fun w hw => ?_
    rcases List.mem_append.mp hw with hw | hw
    · obtain ⟨_, _, rfl⟩ := List.mem_map.mp hw
      rfl
    · obtain ⟨_, _, rfl⟩ := List.mem_map.mp hw
      rfl
  rw [deleteWrites, lastNode_append, hquiet, lastNode_dels, Option.or_none]

/-! ## Statements -/

/-- The row that a subtree move rewrites, of all rows with this id. -/
def rewriteRow? (seen db : PlanDb) (oldPrefix : String) (id : Uuid) : Option PlanNodeRow :=
  (db.nodes.find? id).filter fun r =>
    like r.path (descendantsLikePattern oldPrefix) ∧ r.id ∈ seen.descendantIds oldPrefix

/-- What a statement that succeeds leaves of the row of `id`, if it touches it. -/
def nodeEffect (seen db : PlanDb) (id : Uuid) : Query → Option (Option PlanNodeRow)
  | .insertNode row => if row.id = id then some (some row) else none
  | .rewriteDescendants _ oldPrefix newPrefix updatedAt =>
    (rewriteRow? seen db oldPrefix id).map (some ∘ rewritten oldPrefix newPrefix updatedAt)
  | .updateNode k set _ => if k = id then (db.nodes.find? id).map (some ∘ set.on) else none
  | .deleteNode k => if id ∈ db.doomedBy k then some none else none
  | _ => none

theorem lastNode_rewrite (seen db : PlanDb) (oldPrefix newPrefix : String) (updatedAt : Nat)
    (id : Uuid) :
    lastNode ((seen.rewriteRows db oldPrefix).map fun r =>
      .putNode (rewritten oldPrefix newPrefix updatedAt r)) id =
    (rewriteRow? seen db oldPrefix id).map (some ∘ rewritten oldPrefix newPrefix updatedAt) := by
  have hnodup : ((seen.rewriteRows db oldPrefix).map (·.id)).Nodup :=
    db.nodes.nodup.sublist (List.filter_sublist.map _)
  rw [lastNode_puts hnodup (f := rewritten oldPrefix newPrefix updatedAt) (fun _ => rfl)]
  congr 1
  exact Table.find?_filter db.nodes _ id

theorem effect_lastNode {seen db : PlanDb} {q : Query} {r : q.Reply} {ws : List Write}
    (h : effect seen db q = .ok (r, ws)) (id : Uuid) : lastNode ws id = nodeEffect seen db id q := by
  cases q with
  | insertNode row =>
    simp only [effect] at h
    split at h
    · cases h
    · split at h
      · split at h
        · cases h
        · cases h
          rfl
      · split at h
        · cases h
          rfl
        · cases h
  | rewriteDescendants k oldPrefix newPrefix updatedAt =>
    cases h
    exact lastNode_rewrite seen db oldPrefix newPrefix updatedAt id
  | updateNode k set asserted =>
    simp only [effect] at h
    split at h
    · next hnone =>
      cases h
      by_cases hk : k = id
      · subst hk
        simp [nodeEffect, hnone, lastNode]
      · simp [nodeEffect, hk, lastNode]
    · next row hrow =>
      have hput : lastNode [.putNode (set.on row)] id = nodeEffect seen db id (.updateNode k set asserted) := by
        have hid : (set.on row).id = k := (Table.find?_key hrow :)
        rw [lastNode_singleton, Write.onNode, nodeEffect, hid]
        by_cases hk : k = id
        · subst hk
          simp [hrow]
        · simp [hk]
      split at h
      · cases h
        exact hput
      · split at h
        · cases h
          exact hput
        · cases h
  | deleteNode k =>
    cases h
    exact db.lastNode_deleteWrites k id
  | updateCodeLink key set =>
    simp only [effect] at h
    split at h <;>
    · cases h
      rfl
  | insertCodeLink row =>
    simp only [effect] at h
    split at h
    · cases h
    · split at h
      · cases h
        rfl
      · cases h
  | insertEdge row =>
    simp only [effect] at h
    split at h
    · cases h
      rfl
    · split at h
      · cases h
        rfl
      · cases h
  | deleteEdge key =>
    simp only [effect] at h
    split at h <;>
    · cases h
      rfl
  | _ =>
    cases h
    rfl

theorem effect_insertNode {seen db : PlanDb} {row : PlanNodeRow} {r : Unit} {ws : List Write}
    (h : effect seen db (.insertNode row) = .ok (r, ws)) :
    row.id ∉ db.nodes.keys ∧ (row.parentId = none → db.root? = none) ∧
      ∀ p, row.parentId = some p → p ∈ db.nodes.keys := by
  simp only [effect] at h
  split at h
  · cases h
  · next hid =>
    refine ⟨hid, ?_, ?_⟩
    · intro hp
      rw [hp] at h
      dsimp only at h
      split at h
      · cases h
      · next hroot => simpa using hroot
    · intro p hp
      rw [hp] at h
      dsimp only at h
      split at h
      · next hmem => exact hmem
      · cases h

/-- A row that was moved has a live parent. -/
theorem effect_updateNode {seen db : PlanDb} {id : Uuid} {set : NodeSet} {asserted : Option Nat}
    {r : Unit} {ws : List Write} {row : PlanNodeRow} {p : Uuid} {newPrefix : String}
    (h : effect seen db (.updateNode id set asserted) = .ok (r, ws)) (hrow : db.nodes.find? id = some row)
    (hmoved : set.moved = some (p, newPrefix)) : p ∈ db.nodes.keys := by
  simp only [effect, hrow, hmoved] at h
  split at h
  · next hmem => exact hmem
  · cases h

theorem root?_eq_none {db : PlanDb} : db.root? = none ↔ ∀ r ∈ db.nodes.rows, r.parentId ≠ none := by
  simp [root?, List.find?_eq_none]

end PlanDb

end Haive

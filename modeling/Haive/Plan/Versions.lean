import Haive.Plan.Concurrent
import Haive.Lib.Optimistic

/-!
# The version check under concurrency

`assertVersion` compares versions that were read; the `UPDATE` that follows has
`WHERE id = …` only. So between the two another patch can commit, and both commits
stand: `both_commit`.

`Fenced n` is what the missing `AND version = …` would check: each `UPDATE` of the
node `n` still finds it, at the version its transaction first read or itself left.
Under that condition the node is a row with fenced optimistic writers
(`writers_step`), and of two patches that both update `n` asserting the same version
at most one commits (`asserted_update_once`). The other is refused with the conflict
from its next load of `n` on.

The uuids that the two patches draw are assumed to be new and distinct
(`DrawnFresh`).
-/

namespace Haive

open Lib

/-- Every `UPDATE` of `n` finds the row at the version it was read at, which is the one that its
transaction left or first read. -/
def Fenced (n : Uuid) (s : Sys) : Action → Prop
  | .exec i =>
    match (s.tx i).prog with
    | .ask (.updateNode id set _) _ => id = n → ∃ r, (s.view i).nodes.find? n = some r ∧
      set.version = r.version + 1 ∧
      ((s.tx i).ledger.ownWrite.lookup n).or ((s.tx i).ledger.atStart.lookup n) = some r.version
    | _ => True
  | _ => True

structure DrawnFresh (db : PlanDb) (calls : TxId → PatchCall) (s : Sys) : Prop where
  new : ∀ i a, a < (s.tx i).ledger.inserted → (calls i).randomUUID a ∉ db.nodes.keys
  distinct : ∀ i a j b, a < (s.tx i).ledger.inserted → b < (s.tx j).ledger.inserted →
    (calls i).randomUUID a = (calls j).randomUUID b → i = j ∧ a = b

/-! ## The node as a row with optimistic writers -/

def Outcome.phase : Outcome → Phase
  | .running => .running
  | .committed _ => .committed
  | .aborted _ => .aborted

def Tx.writer (t : Tx) (n : Uuid) : Writer where
  phase := t.outcome.phase
  held := (lastNode t.writes n).map (·.map (·.version))
  began := t.ledger.atStart.lookup n
  own := t.ledger.ownWrite.lookup n
  asserted := (t.ledger.asserted.filter (·.1 = n)).map (·.2)

def Sys.writers (s : Sys) (n : Uuid) : Writers TxId where
  committed := (s.committed.nodes.find? n).map (·.version)
  writer := fun i => (s.tx i).writer n

theorem mem_writer_asserted {t : Tx} {n : Uuid} {v : Nat} :
    v ∈ (t.writer n).asserted ↔ (n, v) ∈ t.ledger.asserted := by
  simp only [Tx.writer, List.mem_map, List.mem_filter, decide_eq_true_eq]
  constructor
  · rintro ⟨⟨m, w⟩, ⟨hmem, rfl⟩, rfl⟩
    exact hmem
  · exact fun h => ⟨(n, v), ⟨h, rfl⟩, rfl⟩

theorem writers_visible (s : Sys) (n : Uuid) (i : TxId) :
    (s.writers n).visible i = ((s.view i).nodes.find? n).map (·.version) := by
  show ((lastNode (s.tx i).writes n).map (·.map (·.version))).getD _ = _
  rw [Sys.view, PlanDb.find?_apply]
  cases lastNode (s.tx i).writes n <;> rfl

theorem writers_set (s : Sys) (n : Uuid) (i : TxId) (t : Tx) :
    (s.set i t).writers n = (s.writers n).set i (t.writer n) := by
  rw [Sys.writers, Sys.writers, Writers.set]
  congr 1
  funext j
  by_cases hj : j = i <;> simp [Sys.set, hj]

/-- A change that leaves the row's bookkeeping alone is no step. -/
theorem writers_idle {s : Sys} {n : Uuid} {i : TxId} {w : Writer} (h : w = (s.tx i).writer n) :
    Writers.Step (s.writers n) ((s.writers n).set i w) := by
  have hsame : (s.writers n).set i w = s.writers n := by
    subst h
    rw [Writers.set]
    congr 1
    funext j
    by_cases hj : j = i
    · subst hj
      exact if_pos rfl
    · exact if_neg hj
  rw [hsame]
  exact .idle

theorem writers_free {s : Sys} {i : TxId} {q : Query} {r : q.Reply} {ws : List Write} {n : Uuid}
    (hfree : s.blocked i q = false) (heff : s.effect i q = .ok (r, ws)) (hn : lastNode ws n ≠ none) :
    (s.writers n).Free i := by
  intro j hj
  obtain rfl := (TxId.eq_or_eq_other i j).resolve_left hj
  show (lastNode (s.tx i.other).writes n).map _ = none
  rw [Sys.other_untouched hfree heff hn]
  rfl

/-! ## Statements -/

section Ask

variable {s : Sys} {i : TxId} {n : Uuid} {q : Query} {k : q.Reply → PatchProg} {r : q.Reply}
  {ws : List Write}

theorem asked_held (heff : s.effect i q = .ok (r, ws)) :
    (((s.tx i).asked q k r ws).writer n).held =
      ((PlanDb.nodeEffect (s.seen i) (s.view i) n q).or (lastNode (s.tx i).writes n)).map
        (·.map (·.version)) := by
  show (lastNode ((s.tx i).writes ++ ws) n).map _ = _
  rw [lastNode_append, PlanDb.effect_lastNode heff]

/-- A statement that neither writes the row nor notes anything of it. -/
theorem asked_idle (hrun : (s.tx i).outcome = .running) (heff : s.effect i q = .ok (r, ws))
    (hn : PlanDb.nodeEffect (s.seen i) (s.view i) n q = none)
    (hbegan : ((s.tx i).ledger.note q r).atStart.lookup n = (s.tx i).ledger.atStart.lookup n)
    (hown : ((s.tx i).ledger.note q r).ownWrite.lookup n = (s.tx i).ledger.ownWrite.lookup n)
    (hass : ((s.tx i).ledger.note q r).asserted.filter (·.1 = n) =
      (s.tx i).ledger.asserted.filter (·.1 = n)) :
    Writers.Step (s.writers n) ((s.writers n).set i (((s.tx i).asked q k r ws).writer n)) := by
  have hheld := asked_held (n := n) (k := k) heff
  rw [hn, Option.none_or] at hheld
  exact writers_idle (Writer.ext (congrArg Outcome.phase hrun).symm hheld hbegan hown
    (congrArg (List.map Prod.snd) hass))

theorem loadNode_step {id : Uuid} {r : Option NodeRow} {k : Option NodeRow → PatchProg}
    (hrun : (s.tx i).outcome = .running) (heff : s.effect i (.loadNode id) = .ok (r, ws)) :
    Writers.Step (s.writers n) ((s.writers n).set i (((s.tx i).asked (.loadNode id) k r ws).writer n)) := by
  have heff' := heff
  cases heff
  cases hr : (s.view i).nodes.find? id with
  | none =>
    rw [hr] at heff'
    exact asked_idle hrun heff' rfl rfl rfl rfl
  | some row =>
    rw [hr] at heff'
    have hid : row.id = id := (Table.find?_key hr :)
    by_cases hn : id = n
    · subst hn
      have hvis : (s.writers id).visible i = some row.version := by
        rw [writers_visible, hr]
        rfl
      have hwriter : ((s.tx i).asked (.loadNode id) k (some row.toNodeRow) []).writer id =
          { (s.tx i).writer id with began := ((s.tx i).writer id).began.or (some row.version) } := by
        simp only [Tx.writer, Tx.asked, Ledger.note, List.append_nil, hrun]
        congr 1
        simp only [PlanNodeRow.toNodeRow_id, PlanNodeRow.toNodeRow_version, hid]
        cases hb : (s.tx i).ledger.atStart.lookup id with
        | none => simp
        | some x => simp [hb]
      show Writers.Step _ ((s.writers id).set i
        (((s.tx i).asked (.loadNode id) k (some row.toNodeRow) []).writer id))
      rw [hwriter]
      exact .load (congrArg Outcome.phase hrun) hvis
    · refine asked_idle hrun heff' rfl ?_ rfl rfl
      show (Ledger.note _ (.loadNode id) (some row.toNodeRow)).atStart.lookup n = _
      simp only [Ledger.note]
      split
      · rfl
      · rw [List.lookup_cons]
        split
        · next heq =>
          rw [beq_iff_eq] at heq
          exact absurd (hid.symm.trans heq.symm) hn
        · rfl

theorem rewriteDescendants_step {m : Uuid} {oldPrefix newPrefix : String} {updatedAt : Nat} {r : Unit}
    {k : Unit → PatchProg} (hrun : (s.tx i).outcome = .running)
    (hfree : s.blocked i (.rewriteDescendants m oldPrefix newPrefix updatedAt) = false)
    (heff : s.effect i (.rewriteDescendants m oldPrefix newPrefix updatedAt) = .ok (r, ws)) :
    Writers.Step (s.writers n) ((s.writers n).set i
      (((s.tx i).asked (.rewriteDescendants m oldPrefix newPrefix updatedAt) k r ws).writer n)) := by
  have hnode := PlanDb.effect_lastNode heff n
  have hheld := asked_held (n := n) (k := k) heff
  simp only [PlanDb.nodeEffect] at hnode hheld
  cases hr : PlanDb.rewriteRow? (s.seen i) (s.view i) oldPrefix n with
  | none =>
    refine asked_idle hrun heff ?_ rfl rfl rfl
    simp [PlanDb.nodeEffect, hr]
  | some row =>
    rw [hr] at hnode hheld
    obtain ⟨hrow, _⟩ := Option.filter_eq_some_iff.mp hr
    have hvis : (s.writers n).visible i = some row.version := by
      rw [writers_visible, hrow]
      rfl
    have hwriter : ((s.tx i).asked (.rewriteDescendants m oldPrefix newPrefix updatedAt) k r ws).writer n =
        { (s.tx i).writer n with held := some (some row.version) } :=
      Writer.ext (congrArg Outcome.phase hrun).symm hheld rfl rfl rfl
    rw [hwriter]
    exact .touch (congrArg Outcome.phase hrun)
      (writers_free hfree heff (by rw [hnode]; exact fun hn => by cases hn)) hvis

theorem deleteNode_step {id : Uuid} {r : Unit} {k : Unit → PatchProg}
    (hrun : (s.tx i).outcome = .running) (hfree : s.blocked i (.deleteNode id) = false)
    (heff : s.effect i (.deleteNode id) = .ok (r, ws)) :
    Writers.Step (s.writers n) ((s.writers n).set i (((s.tx i).asked (.deleteNode id) k r ws).writer n)) := by
  have hnode := PlanDb.effect_lastNode heff n
  have hheld := asked_held (n := n) (k := k) heff
  by_cases hdoomed : n ∈ (s.view i).doomedBy id
  · simp only [PlanDb.nodeEffect, if_pos hdoomed] at hnode hheld
    obtain ⟨row, hrow⟩ := Table.mem_keys_iff_find?.mp (PlanDb.mem_keys_of_doomed hdoomed)
    have hvis : (s.writers n).visible i = some row.version := by
      rw [writers_visible, hrow]
      rfl
    have hwriter : ((s.tx i).asked (.deleteNode id) k r ws).writer n =
        { (s.tx i).writer n with held := some none } :=
      Writer.ext (congrArg Outcome.phase hrun).symm hheld rfl rfl rfl
    rw [hwriter]
    exact .delete (congrArg Outcome.phase hrun)
      (writers_free hfree heff (by rw [hnode]; exact fun hn => by cases hn)) hvis
  · exact asked_idle hrun heff (by simp [PlanDb.nodeEffect, hdoomed]) rfl rfl rfl

theorem updateNode_step {uuid : Nat → Uuid} {id : Uuid} {set : NodeSet} {asserted : Option Nat} {r : Unit}
    {k : Unit → PatchProg} (hrun : (s.tx i).outcome = .running)
    (hprog : (s.tx i).prog = .ask (.updateNode id set asserted) k)
    (hallow : (s.tx i).ledger.Allows uuid (.updateNode id set asserted)) (hfence : Fenced n s (.exec i))
    (hfree : s.blocked i (.updateNode id set asserted) = false)
    (heff : s.effect i (.updateNode id set asserted) = .ok (r, ws)) :
    Writers.Step (s.writers n) ((s.writers n).set i
      (((s.tx i).asked (.updateNode id set asserted) k r ws).writer n)) := by
  have hnode := PlanDb.effect_lastNode heff n
  have hheld := asked_held (n := n) (k := k) heff
  by_cases hn : id = n
  · subst hn
    simp only [Fenced, hprog] at hfence
    obtain ⟨row, hrow, hversion, hleft⟩ := hfence trivial
    simp only [PlanDb.nodeEffect, if_true, hrow] at hnode hheld
    have hvis : (s.writers id).visible i = some row.version := by
      rw [writers_visible, hrow]
      rfl
    have hwriter : ((s.tx i).asked (.updateNode id set asserted) k r ws).writer id =
        { (s.tx i).writer id with
          held := some (some (row.version + 1))
          own := some (row.version + 1)
          asserted := asserted.toList ++ ((s.tx i).writer id).asserted } := by
      refine Writer.ext (congrArg Outcome.phase hrun).symm (hheld.trans ?_) rfl ?_ ?_
      · simp [NodeSet.on, hversion]
      · simp [Tx.writer, Tx.asked, Ledger.note, hversion]
      · cases asserted <;> simp [Tx.writer, Tx.asked, Ledger.note]
    rw [hwriter]
    refine .update (congrArg Outcome.phase hrun)
      (writers_free hfree heff (by rw [hnode]; exact fun hn => by cases hn)) hvis hleft ?_
    intro v hv
    rcases List.mem_append.mp hv with hv | hv
    · obtain ⟨_, _, _, _, hasserted⟩ := hallow.1
      exact .inr (hasserted v (by simpa using hv)).1
    · exact .inl hv
  · have hlookup : ∀ {l : List (Uuid × Nat)} {x}, List.lookup n ((id, x) :: l) = l.lookup n := by
      intro l x
      rw [List.lookup_cons]
      have : (n == id) = false := by simpa using Ne.symm hn
      rw [this]
    refine asked_idle hrun heff (by simp [PlanDb.nodeEffect, hn]) rfl hlookup ?_
    simp only [Ledger.note]
    cases asserted with
    | none => rfl
    | some v => exact List.filter_cons_of_neg (by simpa using hn)

theorem asked_step {uuid : Nat → Uuid} (hrun : (s.tx i).outcome = .running)
    (hprog : (s.tx i).prog = .ask q k) (hallow : (s.tx i).ledger.Allows uuid q)
    (hfence : Fenced n s (.exec i)) (hfree : s.blocked i q = false)
    (heff : s.effect i q = .ok (r, ws)) (hinsert : ∀ row, q = .insertNode row → row.id ≠ n) :
    Writers.Step (s.writers n) ((s.writers n).set i (((s.tx i).asked q k r ws).writer n)) := by
  cases q with
  | loadNode id => exact loadNode_step hrun heff
  | rewriteDescendants m oldPrefix newPrefix updatedAt => exact rewriteDescendants_step hrun hfree heff
  | deleteNode id => exact deleteNode_step hrun hfree heff
  | updateNode id set asserted => exact updateNode_step hrun hprog hallow hfence hfree heff
  | insertNode row =>
    exact asked_idle hrun heff (by simp [PlanDb.nodeEffect, hinsert row rfl]) rfl rfl rfl
  | insertEdge row =>
    by_cases hk : row.kind = .dependsOn <;>
    exact asked_idle hrun heff rfl (by simp [Ledger.note, hk]) (by simp [Ledger.note, hk])
      (by simp [Ledger.note, hk])
  | deleteEdge key => cases r <;> exact asked_idle hrun heff rfl rfl rfl rfl
  | findRoot => cases r <;> exact asked_idle hrun heff rfl rfl rfl rfl
  | _ => exact asked_idle hrun heff rfl rfl rfl rfl

end Ask

/-! ## Runs -/

section Runs

variable {db : PlanDb} {calls : TxId → PatchCall} {s s' : Sys} {n : Uuid}

/-- Some node of the run has this id. -/
def Used (db : PlanDb) (calls : TxId → PatchCall) (s : Sys) (n : Uuid) : Prop :=
  n ∈ db.nodes.keys ∨ ∃ i a, a < (s.tx i).ledger.inserted ∧ (calls i).randomUUID a = n

/-- The node is a row with fenced writers, and an id that is not in use has no history. -/
structure Tracked (db : PlanDb) (calls : TxId → PatchCall) (n : Uuid) (s : Sys) : Prop where
  inv : (s.writers n).Inv
  unused : ¬ Used db calls s n → (s.writers n).Unused

theorem inserted_note (g : Ledger) (q : Query) (r : q.Reply) : g.inserted ≤ (g.note q r).inserted := by
  cases q with
  | loadNode id => cases r <;> exact Nat.le_refl _
  | findRoot => cases r <;> exact Nat.le_refl _
  | insertNode row => exact Nat.le_succ _
  | insertEdge row => by_cases hk : row.kind = .dependsOn <;> simp [Ledger.note, hk]
  | deleteEdge key => cases r <;> exact Nat.le_refl _
  | _ => exact Nat.le_refl _

/-- Counters only grow. -/
theorem inserted_step {a : Action} (h : Step s a s') (i : TxId) :
    (s.tx i).ledger.inserted ≤ (s'.tx i).ledger.inserted := by
  cases h with
  | @ask j q k r ws _ _ _ _ =>
    rcases TxId.eq_or_eq_other j i with rfl | rfl
    · rw [Sys.set_tx_self]
      exact inserted_note _ q r
    · rw [Sys.set_tx_other]
  | @wait j _ _ _ _ _ =>
    rcases TxId.eq_or_eq_other j i with rfl | rfl
    · rw [Sys.set_tx_self]
    · rw [Sys.set_tx_other]
  | @commit j _ _ _ _ =>
    rcases TxId.eq_or_eq_other j i with rfl | rfl
    · rw [Sys.set_tx_self]
    · rw [Sys.set_tx_other]
  | @rollback j _ _ _ =>
    rcases TxId.eq_or_eq_other j i with rfl | rfl
    · rw [Sys.set_tx_self]
      exact Nat.le_refl _
    · rw [Sys.set_tx_other]

theorem DrawnFresh.of_step {a : Action} (h : DrawnFresh db calls s') (hstep : Step s a s') :
    DrawnFresh db calls s where
  new i a ha := h.new i a (ha.trans_le (inserted_step hstep i))
  distinct i a j b ha hb := h.distinct i a j b (ha.trans_le (inserted_step hstep i))
    (hb.trans_le (inserted_step hstep j))

theorem Used.of_step {a : Action} (h : Used db calls s n) (hstep : Step s a s') : Used db calls s' n :=
  h.imp_right fun ⟨i, a, ha, heq⟩ => ⟨i, a, ha.trans_le (inserted_step hstep i), heq⟩

/-- A step of the row's fenced writers keeps the node tracked. -/
theorem Tracked.of_writers (h : Tracked db calls n s) {a : Action} (hstep : Step s a s')
    (hw : Writers.Step (s.writers n) (s'.writers n)) : Tracked db calls n s' where
  inv := h.inv.step hw
  unused := fun hnew => (h.unused fun hused => hnew (hused.of_step hstep)).step hw

theorem Tracked.step {a : Action} (h : Tracked db calls n s) (hconf : Conforms calls s)
    (hfence : Fenced n s a) (hfresh : DrawnFresh db calls s') (hstep : Step s a s') :
    Tracked db calls n s' := by
  cases hstep with
  | @ask i q k r ws hrun hprog hfree heff =>
    have hallow := hconf.allows hprog
    by_cases hinsert : ∃ row, q = .insertNode row ∧ row.id = n
    · -- The row is inserted: nobody knows it yet.
      obtain ⟨row, rfl, rfl⟩ := hinsert
      obtain ⟨_, hid, hversion, _⟩ := hallow
      have hcount : (((s.tx i).asked (.insertNode row) k r ws).ledger).inserted =
          (s.tx i).ledger.inserted + 1 := rfl
      have hlt : (s.tx i).ledger.inserted <
          ((s.set i ((s.tx i).asked (.insertNode row) k r ws)).tx i).ledger.inserted := by
        rw [Sys.set_tx_self, hcount]
        exact Nat.lt_succ_self _
      have hnew : ¬ Used db calls s row.id := by
        rintro (hkey | ⟨j, b, hb, heq⟩)
        · rw [hid] at hkey
          exact hfresh.new i _ hlt hkey
        · have hb' := hb.trans_le (inserted_step (.ask hrun hprog hfree heff) j)
          obtain ⟨rfl, rfl⟩ := hfresh.distinct i _ j b hlt hb' (hid.symm.trans heq.symm)
          exact Nat.lt_irrefl _ hb
      have hunused := h.unused hnew
      have hheld := asked_held (n := row.id) (k := k) heff
      simp only [PlanDb.nodeEffect, if_true] at hheld
      have hwriter : ((s.tx i).asked (.insertNode row) k r ws).writer row.id =
          { (s.tx i).writer row.id with held := some (some row.version) } :=
        Writer.ext (congrArg Outcome.phase hrun).symm hheld rfl rfl rfl
      refine ⟨?_, fun hused => absurd (.inr ⟨i, _, hlt, hid.symm⟩) hused⟩
      rw [writers_set, hwriter]
      exact h.inv.insert (congrArg Outcome.phase hrun) hunused
    · refine h.of_writers (.ask hrun hprog hfree heff) ?_
      rw [writers_set]
      exact asked_step hrun hprog hallow hfence hfree heff fun row hq hid => hinsert ⟨row, hq, hid⟩
  | @wait i q k hrun hprog hblocked =>
    refine h.of_writers (.wait hrun hprog hblocked) ?_
    rw [writers_set]
    exact writers_idle rfl
  | @commit i result l hrun hprog =>
    refine h.of_writers (.commit hrun hprog) ?_
    rw [writers_set]
    have hvis := writers_visible s n i
    show Writers.Step _ (Writers.set ⟨((s.view i).nodes.find? n).map (·.version), (s.writers n).writer⟩ i _)
    rw [← hvis]
    exact .commit (congrArg Outcome.phase hrun)
  | @rollback i a reason hrun =>
    refine h.of_writers (a := a) (.rollback hrun) ?_
    rw [writers_set]
    exact .abort (congrArg Outcome.phase hrun)

theorem Tracked.start (db : PlanDb) (calls : TxId → PatchCall) (n : Uuid) :
    Tracked db calls n (Sys.start db calls) where
  inv :=
    { exclusive := fun h => absurd rfl h
      ended := fun _ => rfl
      plain := fun _ h => nomatch h
      owned := fun _ h => nomatch h
      asserting := fun _ h => absurd h List.not_mem_nil
      passed := fun h => nomatch h
      apart := fun _ _ _ h => absurd h List.not_mem_nil }
  unused := by
    intro hnew
    refine ⟨?_, fun _ => ⟨rfl, rfl, rfl⟩⟩
    show (db.nodes.find? n).map _ = none
    rw [Table.find?_eq_none.mpr fun hkey => hnew (.inl hkey)]
    rfl

theorem tracked_of_run {acts : List Action} (hfresh : DrawnFresh db calls s)
    (hfence : Along Sys.step (Fenced n) (Sys.start db calls) acts)
    (hrun : runs Sys.step (Sys.start db calls) acts = some s) : Tracked db calls n s := by
  have hinv := runs_inv (I := fun s => Conforms calls s ∧ (DrawnFresh db calls s → Tracked db calls n s))
    (fun s a s' hinv hmet hstep => by
      have hcases := Sys.step_cases hstep
      refine ⟨hinv.1.step hcases, fun hfresh => ?_⟩
      exact (hinv.2 (hfresh.of_step hcases)).step hinv.1 hmet hfresh hcases)
    ⟨Conforms.start db calls, fun _ => Tracked.start db calls n⟩ hfence hrun
  exact hinv.2 hfresh

theorem assertVersion_refuses {row : NodeRow} {v opIndex : Nat} {l : Locals}
    (h : ¬ (Patch.Locals.began l row = v ∧
      (l.versionAfterOwnWrite.lookup row.id).getD (Patch.Locals.began l row) = row.version)) :
    ∃ message, Patch.assertVersion row (some v) opIndex l =
      .pure (.error (.refused .conflict message (some opIndex)), l) := by
  have hif : ∀ m, (if Patch.Locals.began l row = v ∧
      (l.versionAfterOwnWrite.lookup row.id).getD (Patch.Locals.began l row) = row.version
      then pure () else Script.throw m : PatchM Unit) l = .pure (.error m, l) := by
    intro m
    rw [if_neg h]
    rfl
  exact ⟨_, hif _⟩

/-- In a fenced run of two patches at most one of those that update `n` asserting the same version
commits. Once one has, `assertVersion` refuses the other with the conflict wherever it loads `n`. -/
theorem asserted_update_once {acts : List Action} {v : Nat} (hfresh : DrawnFresh db calls s)
    (hfence : Along Sys.step (Fenced n) (Sys.start db calls) acts)
    (hrun : runs Sys.step (Sys.start db calls) acts = some s) :
    (¬ ∀ i, (s.tx i).outcome.phase = .committed ∧ (n, v) ∈ (s.tx i).ledger.asserted) ∧
    ∀ i, (s.tx i).outcome.phase = .committed → (n, v) ∈ (s.tx i).ledger.asserted →
      (s.tx i.other).outcome = .running → ∀ row, (s.view i.other).nodes.find? n = some row →
      ∀ l opIndex, Agrees l ((s.tx i.other).ledger.note (.loadNode n) (some row.toNodeRow)) →
      ∃ message, Patch.assertVersion row.toNodeRow (some v) opIndex l =
        .pure (.error (.refused .conflict message (some opIndex)), l) := by
  have htracked := tracked_of_run hfresh hfence hrun
  refine ⟨fun hboth => ?_, ?_⟩
  · have hlive : ∀ i, ((s.writers n).writer i).phase ≠ .aborted := by
      intro i
      show (s.tx i).outcome.phase ≠ .aborted
      rw [(hboth i).1]
      exact fun h => nomatch h
    exact htracked.inv.apart (i := .one) (j := .two) (fun h => nomatch h) (hlive .one) (hlive .two)
      (mem_writer_asserted.mpr (hboth .one).2) (mem_writer_asserted.mpr (hboth .two).2)
  · intro i hcommitted hasserted hrunning row hrow l opIndex hagrees
    have hid : row.id = n := (Table.find?_key hrow :)
    have hvis : (s.writers n).visible i.other = some row.version := by
      rw [writers_visible, hrow]
      rfl
    -- The version that the patch began at, once it has loaded the row.
    have hbegan : Patch.Locals.began l row.toNodeRow =
        (((s.writers n).writer i.other).began.or (some row.version)).getD row.version := by
      show (l.versionAtStart.lookup row.id).getD row.version =
        (((s.tx i.other).ledger.atStart.lookup n).or (some row.version)).getD row.version
      rw [hagrees.atStart, hid]
      simp only [Ledger.note, PlanNodeRow.toNodeRow_id, PlanNodeRow.toNodeRow_version, hid]
      cases hb : (s.tx i.other).ledger.atStart.lookup n with
      | none => simp
      | some x => simp [hb]
    have hrefused : ¬ (Patch.Locals.began l row.toNodeRow = v ∧
        (l.versionAfterOwnWrite.lookup row.toNodeRow.id).getD (Patch.Locals.began l row.toNodeRow) =
          row.toNodeRow.version) := by
      rintro ⟨hv, hown⟩
      rw [hv, hagrees.ownWrite, PlanNodeRow.toNodeRow_id, PlanNodeRow.toNodeRow_version, hid] at hown
      refine htracked.inv.stale i.other_ne.symm hcommitted (mem_writer_asserted.mpr hasserted)
        (congrArg Outcome.phase hrunning) hvis ?_ hown
      cases hb : ((s.writers n).writer i.other).began with
      | none => rw [hbegan, hb] at hv; exact congrArg some hv
      | some x => rw [hbegan, hb] at hv; exact congrArg some hv
    exact assertVersion_refuses hrefused

end Runs

/-! ## Two schedules -/

namespace Sample

/-- Each patch renames `api`, asserting version 1. -/
def rename (i : TxId) : PatchCall := patch
  [.upsert
    { nodeRef := api.text
      title := some (match i with
        | .one => "One"
        | .two => "Two")
      expectedVersion := some 1 }]

end Sample

open Sample in
/-- Both patches read `api` before either updates it, and both commit: the first rename is gone. -/
theorem both_commit :
    (∀ i, ∃ op, .upsert op ∈ (rename i).ops ∧ op.nodeRef = api.text ∧ op.expectedVersion = some 1) ∧
    ∃ acts s, runs Sys.step (Sys.start Sample.start rename) acts = some s ∧
      (∀ i, (s.tx i).outcome.phase = .committed) ∧
      (s.committed.nodes.find? api).map (·.title) = some "Two" := by
  refine ⟨fun i => ?_, [.exec .one, .exec .one, .exec .two, .exec .two, .exec .one, .exec .one,
    .commit .one, .exec .two, .exec .two, .commit .two], ?_⟩
  · cases i <;> exact ⟨_, List.mem_singleton.mpr rfl, rfl, rfl⟩
  · have hrun : (runs Sys.step (Sys.start Sample.start rename)
        [.exec .one, .exec .one, .exec .two, .exec .two, .exec .one, .exec .one,
          .commit .one, .exec .two, .exec .two, .commit .two]).any (fun s =>
        (s.tx .one).outcome.phase = .committed ∧ (s.tx .two).outcome.phase = .committed ∧
          (s.committed.nodes.find? api).map (·.title) = some "Two") = true := by decide +kernel
    obtain ⟨s, hs, hends⟩ := (Option.any_eq_true _ _).mp hrun
    obtain ⟨hone, htwo, htitle⟩ := of_decide_eq_true hends
    refine ⟨s, hs, fun i => ?_, htitle⟩
    cases i
    · exact hone
    · exact htwo

/-- `Fenced`, computed. -/
def fenced (n : Uuid) (s : Sys) : Action → Bool
  | .exec i =>
    match (s.tx i).prog with
    | .ask (.updateNode id set _) _ => id ≠ n || ((s.view i).nodes.find? n).any fun r =>
      set.version = r.version + 1 &&
        ((s.tx i).ledger.ownWrite.lookup n).or ((s.tx i).ledger.atStart.lookup n) = some r.version
    | _ => true
  | _ => true

theorem fenced_sound (n : Uuid) (s : Sys) (a : Action) (h : fenced n s a = true) : Fenced n s a := by
  cases a with
  | exec i =>
    unfold fenced at h
    unfold Fenced
    dsimp only at h ⊢
    split at h
    · intro hid
      have hany := (Bool.or_eq_true_iff.mp h).resolve_left (by simpa using hid)
      obtain ⟨r, hr, hfence⟩ := (Option.any_eq_true _ _).mp hany
      obtain ⟨hversion, hleft⟩ := Bool.and_eq_true_iff.mp hfence
      exact ⟨r, hr, of_decide_eq_true hversion, of_decide_eq_true hleft⟩
    · trivial
  | _ => trivial

namespace Sample

def inTurn : List Action :=
  [.exec .one, .exec .one, .exec .one, .exec .one, .commit .one, .exec .two, .exec .two]

theorem inTurn_fenced : along Sys.step (fenced api) (Sys.start start rename) inTurn = true := by
  decide +kernel

theorem inTurn_ends : (runs Sys.step (Sys.start start rename) inTurn).any (fun s =>
    (s.tx .one).ledger.inserted = 0 ∧ (s.tx .two).ledger.inserted = 0 ∧
      (api, 1) ∈ (s.tx .one).ledger.asserted) = true := by
  decide +kernel

end Sample

open Sample in
/-- The second patch reads `api` after the first has committed. -/
theorem asserted_update_once_in_turn : ∃ s, runs Sys.step (Sys.start Sample.start rename) inTurn = some s ∧
    DrawnFresh Sample.start rename s ∧ Along Sys.step (Fenced api) (Sys.start Sample.start rename) inTurn ∧
    (api, 1) ∈ (s.tx .one).ledger.asserted ∧
    ¬ ∀ i, (s.tx i).outcome.phase = .committed ∧ (api, 1) ∈ (s.tx i).ledger.asserted := by
  obtain ⟨s, hs, hends⟩ := (Option.any_eq_true _ _).mp inTurn_ends
  obtain ⟨hone, htwo, hasserted⟩ := of_decide_eq_true hends
  have hnone : ∀ i, (s.tx i).ledger.inserted = 0 := fun i => by
    cases i
    · exact hone
    · exact htwo
  have hfresh : DrawnFresh Sample.start rename s := by
    refine ⟨fun i a ha => ?_, fun i a j b ha => ?_⟩
    · rw [hnone i] at ha
      exact absurd ha (Nat.not_lt_zero a)
    · rw [hnone i] at ha
      exact absurd ha (Nat.not_lt_zero a)
  have hfence := Along.of_along (fenced_sound api) inTurn_fenced
  exact ⟨s, hs, hfresh, hfence, hasserted, (asserted_update_once hfresh hfence hs).1⟩

end Haive

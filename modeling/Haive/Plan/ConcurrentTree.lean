import Haive.Plan.Concurrent
import Haive.Plan.Tree

/-!
# The tree under concurrency

A patch computes the paths it writes from paths it has read, and the locks it takes
do not keep those from changing: two re-parents that cross commit a parent cycle
(`crossing_moves_cycle`).

`Current` is what a patch would have to find at each such statement, in the plan as
it sees it and in the plan with the other patch's uncommitted writes added
(`Sys.joint`): the parent of a new node still has the path that was read; every row
below a moved node is one the statement rewrites; the new parent of a moved node
still has the path that was read and is outside its subtree, and every child of the
node carries its new prefix. Under that condition every state of every run keeps the
tree (`concurrent_planTree`). `TreeInv` is the invariant: what is committed is a tree,
and so is what each patch sees and what both make together, but for the children of
a move that is half done.
-/

namespace Haive

open Lib

def Sys.joint (s : Sys) : PlanDb := s.committed.apply ((s.tx .one).writes ++ (s.tx .two).writes)

/-- The path of `id` was made from a row of `p` that was loaded, and `p` has the same path in `v`. -/
def MadeFrom (g : Ledger) (v : PlanDb) (p id : Uuid) (path : String) : Prop :=
  ∃ parent ∈ g.known, parent.id = p ∧ path = planNodePath (some parent.path) id ∧
    ∀ r ∈ v.nodes.find? p, r.path = parent.path

/-- What the statement was computed from is so in `v`. -/
def CurrentIn (s : Sys) (i : TxId) (v : PlanDb) : Query → Prop
  | .insertNode row => ∀ p ∈ row.parentId, MadeFrom (s.tx i).ledger v p row.id row.path
  | .rewriteDescendants _ oldPrefix _ _ => ∀ r ∈ v.nodes.rows,
    like r.path (descendantsLikePattern oldPrefix) = true →
    r ∈ (s.seen i).rewriteRows (s.view i) oldPrefix
  | .updateNode id set _ => ∀ move ∈ set.moved, ∀ m ∈ v.nodes.find? id,
    MadeFrom (s.tx i).ledger v move.1 id move.2 ∧
    (∀ r ∈ v.nodes.find? move.1, wouldDetachSubtree m.path r.path = false) ∧
    ∀ c ∈ v.nodes.rows, c.parentId = some id → c.path = planNodePath (some move.2) c.id
  | _ => True

instance (g : Ledger) (v : PlanDb) (p id : Uuid) (path : String) : Decidable (MadeFrom g v p id path) :=
  inferInstanceAs (Decidable (∃ parent ∈ g.known, _))

instance (s : Sys) (i : TxId) (v : PlanDb) (q : Query) : Decidable (CurrentIn s i v q) := by
  cases q <;> dsimp only [CurrentIn] <;> infer_instance

/-- What the statement was computed from is still so. -/
def Current (s : Sys) : Action → Prop
  | .exec i =>
    match (s.tx i).prog with
    | .ask q _ => CurrentIn s i (s.view i) q ∧ CurrentIn s i s.joint q
    | _ => True
  | _ => True

instance (s : Sys) : (a : Action) → Decidable (Current s a)
  | .exec i =>
    match h : (s.tx i).prog with
    | .ask q _ => decidable_of_iff (CurrentIn s i (s.view i) q ∧ CurrentIn s i s.joint q) (by simp [Current, h])
    | .pure _ => .isTrue (by simp [Current, h])
  | .wait _ => .isTrue trivial
  | .commit _ => .isTrue trivial
  | .abort _ => .isTrue trivial

theorem MadeFrom.path_eq {g : Ledger} {v : PlanDb} {p id : Uuid} {path : String} {r : PlanNodeRow}
    (h : MadeFrom g v p id path) (hr : v.nodes.find? p = some r) : path = planNodePath (some r.path) id := by
  obtain ⟨parent, _, _, hpath, hsame⟩ := h
  rw [hpath, hsame r hr]

/-! ## The plan that both make together -/

/-- No row is written by both. -/
def Apart (s : Sys) : Prop :=
  ∀ i id, lastNode (s.tx i).writes id = none ∨ lastNode (s.tx i.other).writes id = none

theorem joint_find? {s : Sys} (h : Apart s) (i : TxId) (id : Uuid) :
    s.joint.nodes.find? id =
      (lastNode (s.tx i.other).writes id).getD ((s.view i).nodes.find? id) := by
  rw [Sys.joint, PlanDb.find?_apply, lastNode_append, Sys.view, PlanDb.find?_apply]
  rcases h .one id with hone | htwo
  · cases i
    · rw [hone, Option.or_none]
      rfl
    · show _ = (lastNode (s.tx .one).writes id).getD _
      rw [hone, Option.or_none]
      rfl
  · replace htwo : lastNode (s.tx .two).writes id = none := htwo
    cases i
    · show _ = (lastNode (s.tx .two).writes id).getD _
      rw [htwo]
      rfl
    · show _ = (lastNode (s.tx .one).writes id).getD _
      rw [htwo]
      rfl

theorem joint_eq_view {s : Sys} (h : Apart s) {i : TxId} {id : Uuid}
    (hid : lastNode (s.tx i.other).writes id = none) :
    s.joint.nodes.find? id = (s.view i).nodes.find? id := by
  rw [joint_find? h i, hid]
  rfl

/-- The children that a move of the transaction has left ahead of their parent. -/
def Tx.ahead (t : Tx) (p a : Uuid) (pref : String) : Prop :=
  t.ledger.pending = some (p, pref) ∧ GoodPath pref ∧ lastNode t.writes a ≠ none

def eitherAhead (s : Sys) (p a : Uuid) (pref : String) : Prop := ∃ i, (s.tx i).ahead p a pref

structure TreeInv (calls : TxId → PatchCall) (s : Sys) : Prop where
  conforms : Conforms calls s
  apart : Apart s
  committed : Settled s.committed.spots
  views : ∀ i, Planted (s.tx i).ahead (s.view i).spots
  joint : Planted (eitherAhead s) s.joint.spots
  /-- Loaded rows have the path of a node. -/
  known : ∀ i, ∀ row ∈ (s.tx i).ledger.known, Names row.id row.path ∧ GoodPath row.path

/-! ## A statement on a plan

`v` is the plan that the transaction sees or the one that both make. The statement
is computed on what the transaction sees; the rows that it writes are the same in
`v`. -/

section Statement

variable {s : Sys} {i : TxId} {q : Query} {r : q.Reply} {ws : List Write} {v v' : PlanDb}
  {odd : Uuid → Uuid → String → Prop}

/-- `v'` is `v` after the statement. -/
structure Applied (s : Sys) (i : TxId) (q : Query) (v v' : PlanDb) : Prop where
  find? : ∀ id, v'.nodes.find? id =
    (PlanDb.nodeEffect (s.seen i) (s.view i) id q).getD (v.nodes.find? id)
  same : ∀ id, PlanDb.nodeEffect (s.seen i) (s.view i) id q ≠ none →
    v.nodes.find? id = (s.view i).nodes.find? id

theorem Applied.quiet (h : Applied s i q v v')
    (hq : ∀ id, PlanDb.nodeEffect (s.seen i) (s.view i) id q = none) : v'.spots = v.spots := by
  funext id
  rw [PlanDb.spots, PlanDb.spots, h.find?, hq]
  rfl

theorem Applied.insertNode {row : PlanNodeRow} (h : Applied s i (.insertNode row) v v')
    (hplanted : Planted odd v.spots) (hnew : v.nodes.find? row.id = none)
    (hroot : row.parentId = none →
      row.path = planNodePath none row.id ∧ ∀ b t, v.spots b = some t → t.parentId ≠ none)
    (hchild : ∀ p, row.parentId = some p → p ∈ v.nodes.keys)
    (hcurrent : CurrentIn s i v (.insertNode row)) : Planted odd v'.spots := by
  have hspots : v'.spots = Function.update v.spots row.id (some row.spot) := by
    funext id
    rw [PlanDb.spots, h.find?, PlanDb.nodeEffect]
    by_cases hid : row.id = id
    · subst hid
      simp
    · rw [if_neg hid, Function.update_of_ne (Ne.symm hid), PlanDb.spots]
      rfl
  rw [hspots]
  refine hplanted.insert (by rw [PlanDb.spots, hnew]; rfl) hroot fun p hp => ?_
  obtain ⟨parent, hparent⟩ := Table.mem_keys_iff_find?.mp (hchild p hp)
  exact ⟨_, PlanDb.spots_of_find? hparent, (hcurrent p hp).path_eq hparent⟩

theorem Applied.rewrite {m : Uuid} {oldPrefix newPrefix : String} {updatedAt : Nat}
    {odd' : Uuid → Uuid → String → Prop}
    (h : Applied s i (.rewriteDescendants m oldPrefix newPrefix updatedAt) v v')
    (hplanted : Planted odd v.spots) (hcurrent : CurrentIn s i v
      (.rewriteDescendants m oldPrefix newPrefix updatedAt))
    (hname : Names m oldPrefix) (hold : PlainPath oldPrefix)
    (hodd : ∀ {p a pref}, odd p a pref →
      PlanDb.rewriteRow? (s.seen i) (s.view i) oldPrefix a = none)
    (hgood : ∀ {p a pref}, odd' p a pref → GoodPath pref)
    (hkeep : ∀ {p a pref}, odd p a pref → odd' p a pref)
    (hahead : ∀ {a}, PlanDb.rewriteRow? (s.seen i) (s.view i) oldPrefix a ≠ none → odd' m a newPrefix) :
    Planted odd' v'.spots := by
  -- A row of `v` is rewritten exactly if it is below the old prefix.
  have hbelow : ∀ {a r}, v.nodes.find? a = some r → isBelow oldPrefix r.path = true →
      PlanDb.rewriteRow? (s.seen i) (s.view i) oldPrefix a = some r := by
    intro a r hr hb
    have hrow := hcurrent r (Table.find?_mem hr) (by rw [like_descendantsLikePattern hold]; exact hb)
    obtain ⟨hmem, hsel⟩ := List.mem_filter.mp hrow
    have hid : r.id = a := (Table.find?_key hr :)
    exact Option.filter_eq_some_iff.mpr ⟨Table.find?_eq_some.mpr ⟨hmem, hid⟩, hsel⟩
  have hspots : v'.spots = fun a => (v.spots a).map (Spot.rewrite oldPrefix newPrefix) := by
    funext a
    rw [PlanDb.spots, h.find?, PlanDb.nodeEffect, PlanDb.spots]
    cases hr : PlanDb.rewriteRow? (s.seen i) (s.view i) oldPrefix a with
    | none =>
      cases hv : v.nodes.find? a with
      | none => rfl
      | some r =>
        have hnot : isBelow oldPrefix r.path = false := by
          rw [Bool.eq_false_iff]
          intro hb
          rw [hbelow hv hb] at hr
          cases hr
        simp [Spot.rewrite, PlanNodeRow.spot, hnot]
    | some r =>
      obtain ⟨hrow, hsel⟩ := Option.filter_eq_some_iff.mp hr
      have hv : v.nodes.find? a = some r :=
        (h.same a (by simp [PlanDb.nodeEffect, hr])).trans hrow
      have hb : isBelow oldPrefix r.path = true := by
        rw [← like_descendantsLikePattern hold]
        exact (of_decide_eq_true hsel).1
      simp [hv, Spot.rewrite, PlanNodeRow.spot, hb, PlanDb.rewritten]
  rw [hspots]
  refine hplanted.rewrite hname ?_ hgood hkeep ?_
  · intro p a t pref ho ha
    rw [Bool.eq_false_iff]
    intro hb
    obtain ⟨r, hr, rfl⟩ := PlanDb.spots_eq_some.mp ha
    have := hbelow hr hb
    rw [hodd ho] at this
    cases this
  · intro a t ha hp hb
    obtain ⟨r, hr, rfl⟩ := PlanDb.spots_eq_some.mp ha
    exact hahead (by rw [hbelow hr hb]; exact fun hn => by cases hn)

theorem Applied.updateFields {id : Uuid} {set : NodeSet} {asserted : Option Nat}
    (h : Applied s i (.updateNode id set asserted) v v') (hset : set.moved = none) :
    v'.spots = v.spots := by
  funext a
  rw [PlanDb.spots, PlanDb.spots, h.find?]
  by_cases hid : id = a
  · subst hid
    cases hr : (s.view i).nodes.find? id with
    | none => simp [PlanDb.nodeEffect, hr]
    | some r =>
      have hv : v.nodes.find? id = some r := (h.same id (by simp [PlanDb.nodeEffect, hr])).trans hr
      simp [PlanDb.nodeEffect, hr, hv, NodeSet.on, PlanNodeRow.spot, hset]
  · simp [PlanDb.nodeEffect, hid]

theorem Applied.move {id p : Uuid} {newPrefix : String} {set : NodeSet} {asserted : Option Nat}
    {odd' : Uuid → Uuid → String → Prop} (h : Applied s i (.updateNode id set asserted) v v')
    (hplanted : Planted odd v.spots) (hcurrent : CurrentIn s i v (.updateNode id set asserted))
    (hset : set.moved = some (p, newPrefix)) (hp : p ∈ v.nodes.keys)
    {m : PlanNodeRow} (hm : (s.view i).nodes.find? id = some m)
    (hgood : ∀ {p a pref}, odd' p a pref → GoodPath pref)
    (hkeep : ∀ {p a pref}, odd p a pref → p ≠ id → odd' p a pref) : Planted odd' v'.spots := by
  have hv : v.nodes.find? id = some m := (h.same id (by simp [PlanDb.nodeEffect, hm])).trans hm
  obtain ⟨parent, hparent⟩ := Table.mem_keys_iff_find?.mp hp
  obtain ⟨hmade, houtside, hchildren⟩ := hcurrent (p, newPrefix) hset m hv
  have hnew : newPrefix = planNodePath (some parent.path) id := hmade.path_eq hparent
  have hdetach := houtside parent hparent
  have hne : p ≠ id := by
    rintro rfl
    rw [hv, Option.some.injEq] at hparent
    subst hparent
    rw [wouldDetachSubtree, startsWith_iff.mpr (List.prefix_refl _)] at hdetach
    cases hdetach
  have hspots : v'.spots = Function.update v.spots id (some ⟨some p, newPrefix⟩) := by
    funext a
    rw [PlanDb.spots, h.find?]
    by_cases hid : id = a
    · subst hid
      simp [PlanDb.nodeEffect, hm, NodeSet.on, PlanNodeRow.spot, hset]
    · rw [Function.update_of_ne (Ne.symm hid), PlanDb.spots]
      simp [PlanDb.nodeEffect, hid]
  rw [hspots]
  refine hplanted.move (PlanDb.spots_of_find? hv) (PlanDb.spots_of_find? hparent) hne hnew ?_ hgood hkeep
  intro a u ha hu
  obtain ⟨c, hc, rfl⟩ := PlanDb.spots_eq_some.mp ha
  have := hchildren c (Table.find?_mem hc) hu
  rwa [(Table.find?_key hc : c.id = a)] at this

theorem Applied.delete {id : Uuid} (h : Applied s i (.deleteNode id) v v')
    (hplanted : Planted odd v.spots)
    (hclosed : ∀ {a t p}, v.spots a = some t → t.parentId = some p → p ∈ (s.view i).doomedBy id →
      a ∈ (s.view i).doomedBy id) : Planted odd v'.spots := by
  refine hplanted.delete (d := (· ∈ (s.view i).doomedBy id)) ?_ ?_ hclosed
  · intro a ha
    rw [PlanDb.spots, h.find?, PlanDb.nodeEffect, if_pos ha]
    rfl
  · intro a ha
    rw [PlanDb.spots, h.find?, PlanDb.nodeEffect, if_neg ha]
    rfl

end Statement

/-! ## A statement of a transaction -/

/-- The children that the transaction has left ahead, or another that is named by `rest`. -/
def aheadOr (t : Tx) (rest : Uuid → Uuid → String → Prop) (p a : Uuid) (pref : String) : Prop :=
  t.ahead p a pref ∨ rest p a pref

/-- A transaction that has no move half done has left no child ahead. -/
theorem planted_of_pending {t t' : Tx} {rest : Uuid → Uuid → String → Prop} {f : Spots}
    (h : Planted (aheadOr t rest) f) (hpend : t.ledger.pending = none)
    (hgood : ∀ {p a pref}, rest p a pref → GoodPath pref) : Planted (aheadOr t' rest) f := by
  refine h.weaken (fun ho => ho.elim (·.2.1) hgood) ?_
  rintro p a s t pref - - - (⟨hp, _⟩ | ho) -
  · rw [hpend] at hp
    cases hp
  · exact .inl (.inr ho)

/-- `v` is what the transaction sees, with the writes `os` of another added. -/
structure Overlay (s : Sys) (i : TxId) (os : List Write) (rest : Uuid → Uuid → String → Prop)
    (v : PlanDb) : Prop where
  find? : ∀ id, v.nodes.find? id = (lastNode os id).getD ((s.view i).nodes.find? id)
  apart : ∀ id, lastNode (s.tx i).writes id ≠ none → lastNode os id = none
  held : ∀ {p a pref}, rest p a pref → GoodPath pref ∧ lastNode os a ≠ none
  planted : Planted (aheadOr (s.tx i) rest) v.spots

section Ask

variable {uuid : Nat → Uuid} {s : Sys} {i : TxId} {q : Query} {r : q.Reply} {ws os : List Write}
  {rest : Uuid → Uuid → String → Prop} {v v' : PlanDb}

/-- A statement that the ledger allows and that need not wait for the holder of `os`. -/
structure Runs (uuid : Nat → Uuid) (s : Sys) (i : TxId) (q : Query) (r : q.Reply) (ws os : List Write) :
    Prop where
  allows : (s.tx i).ledger.Allows uuid q
  effect : s.effect i q = .ok (r, ws)
  free : waitsFor (s.view i) q ws os = false

namespace Overlay

theorem view_eq (h : Overlay s i os rest v) {id : Uuid} (hid : lastNode os id = none) :
    v.nodes.find? id = (s.view i).nodes.find? id := by
  rw [h.find?, hid]
  rfl

/-- A live parent stays one. -/
theorem live (h : Overlay s i os rest v) (hrun : Runs uuid s i q r ws os) (hws : ws ≠ []) {p : Uuid}
    (href : p ∈ q.references) (hp : p ∈ (s.view i).nodes.keys) : p ∈ v.nodes.keys := by
  rw [Table.mem_keys_iff_find?] at hp ⊢
  rw [h.find?]
  cases hlast : lastNode os p with
  | none => exact hp
  | some row? =>
    cases row? with
    | some row => exact ⟨row, rfl⟩
    | none => exact absurd (mem_of_lastNode_del hlast) ((waitsFor_eq_false hrun.free).2.2.1 hws p href)

theorem applied (h : Overlay s i os rest v) (hrun : Runs uuid s i q r ws os)
    (hv : ∀ id, v'.nodes.find? id = (lastNode ws id).getD (v.nodes.find? id)) : Applied s i q v v' where
  find? := by
    intro id
    rw [hv, PlanDb.effect_lastNode hrun.effect]
  same := by
    intro id hid
    rw [← PlanDb.effect_lastNode hrun.effect] at hid
    exact h.view_eq (untouched hrun.free hid)

theorem good (h : Overlay s i os rest v) {t : Tx} {p a : Uuid} {pref : String}
    (ho : aheadOr t rest p a pref) : GoodPath pref :=
  ho.elim (·.2.1) fun hr => (h.held hr).1

theorem insertNode {row : PlanNodeRow} {r : Unit} (h : Overlay s i os rest v)
    (hrun : Runs uuid s i (.insertNode row) r ws os) (happ : Applied s i (.insertNode row) v v')
    (hcurrent : CurrentIn s i v (.insertNode row)) : Planted (aheadOr (s.tx i) rest) v'.spots := by
  obtain ⟨_, _, _, hplace⟩ := hrun.allows
  obtain ⟨hnew, hroot, hchild⟩ := PlanDb.effect_insertNode hrun.effect
  have hws : lastNode ws row.id ≠ none := by
    rw [PlanDb.effect_lastNode hrun.effect, PlanDb.nodeEffect, if_pos rfl]
    exact fun hn => by cases hn
  refine happ.insertNode h.planted ?_ ?_ ?_ hcurrent
  · rw [h.view_eq (untouched hrun.free hws)]
    exact Table.find?_eq_none.mpr hnew
  · intro hp
    have hinsert : (Query.insertNode row).insertsRoot = true := decide_eq_true hp
    refine ⟨by rw [hp] at hplace; exact hplace.2, fun b t hspot ht => ?_⟩
    obtain ⟨root, hb, rfl⟩ := PlanDb.spots_eq_some.mp hspot
    -- A root of the other transaction would have made the insert wait.
    cases hlast : lastNode os b with
    | none =>
      rw [h.view_eq hlast] at hb
      exact PlanDb.root?_eq_none.mp (hroot hp) root (Table.find?_mem hb) ht
    | some row? =>
      rw [h.find?, hlast, Option.getD_some] at hb
      have hfree := (waitsFor_eq_false hrun.free).2.2.2.2 hinsert _ (mem_of_lastNode_put (hb ▸ hlast))
      simp only [Write.isRoot, Bool.or_eq_false_iff, decide_eq_false_iff_not] at hfree
      exact hfree.1 ht
  · intro p hp
    refine h.live hrun (fun hnil => hws (hnil ▸ rfl)) ?_ (hchild p hp)
    simp [Query.references, hp]

theorem rewriteDescendants {m : Uuid} {oldPrefix newPrefix : String} {updatedAt : Nat} {r : Unit}
    {t : Tx} (h : Overlay s i os rest v)
    (hrun : Runs uuid s i (.rewriteDescendants m oldPrefix newPrefix updatedAt) r ws os)
    (happ : Applied s i (.rewriteDescendants m oldPrefix newPrefix updatedAt) v v')
    (hknown : ∀ row ∈ (s.tx i).ledger.known, Names row.id row.path ∧ GoodPath row.path)
    (hcurrent : CurrentIn s i v (.rewriteDescendants m oldPrefix newPrefix updatedAt))
    (hpend : t.ledger.pending = some (m, newPrefix))
    (hwrites : ∀ id, lastNode ws id ≠ none → lastNode t.writes id ≠ none) :
    Planted (aheadOr t rest) v'.spots := by
  obtain ⟨hsettled, row, hrow, rfl, rfl, parent, hparent, rfl, _⟩ := hrun.allows
  have hnew : GoodPath (planNodePath (some parent.path) row.id) := by
    refine ⟨endsSlash_planNodePath _ _, plain_planNodePath row.id ?_⟩
    rintro _ ⟨⟩
    exact (hknown parent hparent).2.2
  have htouch : ∀ {a}, PlanDb.rewriteRow? (s.seen i) (s.view i) row.path a ≠ none → lastNode ws a ≠ none := by
    intro a ha
    rw [PlanDb.effect_lastNode hrun.effect, PlanDb.nodeEffect]
    simpa using ha
  refine happ.rewrite h.planted hcurrent (hknown row hrow).1 (hknown row hrow).2.2 ?_ h.good ?_ ?_
  · rintro p a pref (⟨hp, _⟩ | hr)
    · rw [hsettled] at hp
      cases hp
    · by_contra ha
      exact (h.held hr).2 (untouched hrun.free (htouch ha))
  · rintro p a pref (⟨hp, _⟩ | hr)
    · rw [hsettled] at hp
      cases hp
    · exact .inr hr
  · exact fun ha => .inl ⟨hpend, hnew, hwrites _ (htouch ha)⟩

theorem updateNode {id : Uuid} {set : NodeSet} {asserted : Option Nat} {r : Unit} {t : Tx}
    (h : Overlay s i os rest v) (hview : Planted (s.tx i).ahead (s.view i).spots)
    (hrun : Runs uuid s i (.updateNode id set asserted) r ws os)
    (happ : Applied s i (.updateNode id set asserted) v v')
    (hcurrent : CurrentIn s i v (.updateNode id set asserted)) : Planted (aheadOr t rest) v'.spots := by
  obtain ⟨_, hmove⟩ := hrun.allows
  cases hset : set.moved with
  | none =>
    rw [hset] at hmove
    rw [happ.updateFields hset]
    exact planted_of_pending h.planted hmove fun hr => (h.held hr).1
  | some moved =>
    obtain ⟨p, newPrefix⟩ := moved
    rw [hset] at hmove
    have hpend := hmove.1
    cases hm : (s.view i).nodes.find? id with
    | some m =>
      have hws : ws ≠ [] := by
        intro hnil
        have hlast := PlanDb.effect_lastNode hrun.effect id
        simp [hnil, lastNode, PlanDb.nodeEffect, hm] at hlast
      have hp := h.live hrun hws (by simp [Query.references, hset])
        (PlanDb.effect_updateNode hrun.effect hm hset)
      refine happ.move h.planted hcurrent hset hp hm h.good ?_
      rintro q a pref (⟨hq, _⟩ | hr) hne
      · rw [hpend] at hq
        cases hq
        exact absurd rfl hne
      · exact .inr hr
    | none =>
      -- The node is gone, and with it every child that was left ahead.
      have hspots : v'.spots = v.spots := by
        refine happ.quiet fun k => ?_
        by_cases hk : id = k
        · subst hk
          simp [PlanDb.nodeEffect, hm]
        · simp [PlanDb.nodeEffect, hk]
      rw [hspots]
      refine h.planted.weaken h.good ?_
      rintro q a u _ pref ha hq - (⟨hpref, _, htouch⟩ | hr) -
      · rw [hpend] at hpref
        cases hpref
        obtain ⟨c, hc, rfl⟩ := PlanDb.spots_eq_some.mp ha
        rw [h.view_eq (h.apart a htouch)] at hc
        obtain ⟨t', ht', _⟩ := hview.child (PlanDb.spots_of_find? hc) hq
        rw [PlanDb.spots, hm] at ht'
        cases ht'
      · exact .inl (.inr hr)

theorem deleteNode {id : Uuid} {r : Unit} (h : Overlay s i os rest v)
    (hrun : Runs uuid s i (.deleteNode id) r ws os) (happ : Applied s i (.deleteNode id) v v') :
    Planted (aheadOr (s.tx i) rest) v'.spots := by
  refine happ.delete h.planted ?_
  intro a t p ha hp hdoomed
  obtain ⟨c, hc, rfl⟩ := PlanDb.spots_eq_some.mp ha
  cases hlast : lastNode os a with
  | none =>
    rw [h.view_eq hlast] at hc
    have := (s.view i).cascade_closed id c (Table.find?_mem hc) p hp hdoomed
    rwa [(Table.find?_key hc : c.id = a)] at this
  | some row? =>
    -- The other transaction has put the row under a node that is deleted here.
    rw [h.find?, hlast, Option.getD_some] at hc
    have hdel : lastNode ws p = some none := by
      rw [PlanDb.effect_lastNode hrun.effect, PlanDb.nodeEffect, if_pos hdoomed]
    refine absurd ?_ ((waitsFor_eq_false hrun.free).2.2.2.1 p (mem_of_lastNode_del hdel) _
      (mem_of_lastNode_put (hc ▸ hlast)))
    replace hp : c.parentId = some p := hp
    simp [Write.references, hp]

/-- A statement keeps the tree. -/
theorem ask (h : Overlay s i os rest v) (hview : Planted (s.tx i).ahead (s.view i).spots)
    (hknown : ∀ row ∈ (s.tx i).ledger.known, Names row.id row.path ∧ GoodPath row.path)
    (hrun : Runs uuid s i q r ws os) (hcurrent : CurrentIn s i v q)
    (hv : ∀ id, v'.nodes.find? id = (lastNode ws id).getD (v.nodes.find? id)) (k : q.Reply → PatchProg) :
    Planted (aheadOr ((s.tx i).asked q k r ws) rest) v'.spots := by
  have happ := h.applied hrun hv
  have hgood : ∀ {p a pref}, rest p a pref → GoodPath pref := fun hr => (h.held hr).1
  cases q with
  | insertNode row => exact planted_of_pending (h.insertNode hrun happ hcurrent) hrun.allows.1 hgood
  | rewriteDescendants m oldPrefix newPrefix updatedAt =>
    refine h.rewriteDescendants hrun happ hknown hcurrent rfl fun id hid => ?_
    show lastNode ((s.tx i).writes ++ ws) id ≠ none
    rw [lastNode_append]
    simp [hid]
  | updateNode id set asserted => exact h.updateNode hview hrun happ hcurrent
  | deleteNode id => exact planted_of_pending (h.deleteNode hrun happ) hrun.allows hgood
  | insertEdge row =>
    rw [happ.quiet fun _ => rfl]
    exact planted_of_pending h.planted hrun.allows.1 hgood
  | _ =>
    rw [happ.quiet fun _ => rfl]
    exact planted_of_pending h.planted hrun.allows hgood

end Overlay

end Ask

/-! ## Steps -/

section Steps

variable {calls : TxId → PatchCall} {s s' : Sys} {i : TxId}

theorem eitherAhead_iff (i : TxId) {p a : Uuid} {pref : String} :
    eitherAhead s p a pref ↔ aheadOr (s.tx i) (s.tx i.other).ahead p a pref := by
  constructor
  · rintro ⟨j, hj⟩
    rcases TxId.eq_or_eq_other i j with rfl | rfl
    · exact .inl hj
    · exact .inr hj
  · rintro (h | h)
    · exact ⟨i, h⟩
    · exact ⟨i.other, h⟩

theorem Planted.congr {odd odd' : Uuid → Uuid → String → Prop} {f : Spots} (h : Planted odd f)
    (hodd : ∀ p a pref, odd p a pref ↔ odd' p a pref) : Planted odd' f :=
  h.weaken (fun ho => h.good ((hodd _ _ _).mpr ho)) fun _ _ _ ho _ => .inl ((hodd _ _ _).mp ho)

/-- Two transactions are apart if the rows that one writes are free in the other. -/
theorem apart_of (i : TxId) (h : ∀ id, lastNode (s.tx i).writes id = none ∨
    lastNode (s.tx i.other).writes id = none) : Apart s := by
  intro j id
  rcases TxId.eq_or_eq_other i j with rfl | rfl
  · exact h id
  · rw [TxId.other_other]
    exact (h id).symm

/-- A set of loaded rows after a statement. -/
theorem known_note {g : Ledger} {seen db : PlanDb} {q : Query} {r : q.Reply} {ws : List Write}
    {good : NodeRow → Prop} (heff : PlanDb.effect seen db q = .ok (r, ws))
    (hdb : ∀ row ∈ db.nodes.rows, good row.toNodeRow) (hg : ∀ row ∈ g.known, good row) :
    ∀ row ∈ (g.note q r).known, good row := by
  intro row hrow
  cases q with
  | loadNode id =>
    cases heff
    cases hr : db.nodes.find? id with
    | none =>
      rw [hr] at hrow
      exact hg row hrow
    | some loaded =>
      rw [hr] at hrow
      rcases List.mem_cons.mp hrow with rfl | hrow
      · exact hdb loaded (Table.find?_mem hr)
      · exact hg row hrow
  | rewriteDescendants m oldPrefix newPrefix updatedAt => exact hg row (List.mem_filter.mp hrow).1
  | updateNode id set asserted => exact hg row (List.mem_filter.mp hrow).1
  | deleteNode id => exact absurd hrow List.not_mem_nil
  | findRoot => cases r <;> exact hg row hrow
  | insertEdge e =>
    refine hg row ?_
    by_cases hk : e.kind = .dependsOn <;> simpa [Ledger.note, hk] using hrow
  | deleteEdge key => cases r <;> exact hg row hrow
  | _ => exact hg row hrow

namespace TreeInv

theorem overlay_view (h : TreeInv calls s) (i : TxId) :
    Overlay s i [] (fun _ _ _ => False) (s.view i) where
  find? := fun _ => rfl
  apart := fun _ _ => rfl
  held := fun hf => hf.elim
  planted := (h.views i).congr fun _ _ _ => (or_iff_left not_false).symm

theorem overlay_joint (h : TreeInv calls s) (i : TxId) :
    Overlay s i (s.tx i.other).writes (s.tx i.other).ahead s.joint where
  find? := joint_find? h.apart i
  apart := fun id hid => (h.apart i id).resolve_left hid
  held := fun ho => ho.2
  planted := h.joint.congr fun _ _ _ => eitherAhead_iff i

/-- The invariant where one of the two has written nothing. -/
theorem of_idle (i : TxId) (hconf : Conforms calls s) (hidle : (s.tx i).writes = [])
    (hcommitted : Settled s.committed.spots)
    (hother : Planted (s.tx i.other).ahead (s.view i.other).spots)
    (hknown : ∀ j, ∀ row ∈ (s.tx j).ledger.known, Names row.id row.path ∧ GoodPath row.path) :
    TreeInv calls s := by
  have hnone : ∀ id, lastNode (s.tx i).writes id = none := by
    intro id
    rw [hidle]
    rfl
  have hapart : Apart s := apart_of i fun id => .inl (hnone id)
  refine ⟨hconf, hapart, hcommitted, ?_, ?_, hknown⟩
  · intro j
    rcases TxId.eq_or_eq_other i j with rfl | rfl
    · rw [Sys.view, hidle]
      exact hcommitted.weaken (fun ho => ho.2.1) fun _ _ _ ho _ => ho.elim
    · exact hother
  · have hspots : s.joint.spots = (s.view i.other).spots := by
      funext id
      rw [PlanDb.spots, PlanDb.spots, joint_eq_view hapart]
      rw [TxId.other_other]
      exact hnone id
    rw [hspots]
    refine hother.congr fun p a pref => ?_
    rw [eitherAhead_iff i.other, aheadOr, TxId.other_other]
    exact (or_iff_left fun ho => ho.2.2 (hnone a)).symm

theorem start {db : PlanDb} (h : Settled db.spots) (calls : TxId → PatchCall) :
    TreeInv calls (Sys.start db calls) :=
  of_idle .one (Conforms.start db calls) rfl h (h.weaken (fun ho => ho.2.1) fun _ _ _ ho _ => ho.elim)
    fun _ _ hrow => absurd hrow List.not_mem_nil

theorem ask {q : Query} {k : q.Reply → PatchProg} {r : q.Reply} {ws : List Write} (h : TreeInv calls s)
    (hprog : (s.tx i).prog = .ask q k) (hfree : s.blocked i q = false)
    (heff : s.effect i q = .ok (r, ws))
    (hview : CurrentIn s i (s.view i) q) (hjoint : CurrentIn s i s.joint q)
    (hconf : Conforms calls (s.set i ((s.tx i).asked q k r ws))) :
    TreeInv calls (s.set i ((s.tx i).asked q k r ws)) := by
  have hallows := h.conforms.allows hprog
  have hwaits := Sys.not_waits hfree heff
  have happ : ∀ id, ((s.set i ((s.tx i).asked q k r ws)).view i).nodes.find? id =
      (lastNode ws id).getD ((s.view i).nodes.find? id) := by
    intro id
    rw [Sys.view, Sys.set_tx_self, Tx.asked, PlanDb.apply_append, PlanDb.find?_apply]
    rfl
  have hapart : Apart (s.set i ((s.tx i).asked q k r ws)) := by
    refine apart_of i fun id => ?_
    rw [Sys.set_tx_self, Sys.set_tx_other, Tx.asked, lastNode_append]
    cases hid : lastNode ws id with
    | none => exact h.apart i id
    | some row => exact .inr (untouched hwaits (by rw [hid]; exact fun hn => nomatch hn))
  have hjoin : ∀ id, (s.set i ((s.tx i).asked q k r ws)).joint.nodes.find? id =
      (lastNode ws id).getD (s.joint.nodes.find? id) := by
    intro id
    rw [joint_find? hapart i, joint_find? h.apart i, Sys.set_tx_other, happ]
    cases hid : lastNode ws id with
    | none => rfl
    | some row =>
      rw [untouched hwaits (by rw [hid]; exact fun hn => nomatch hn)]
      rfl
  refine ⟨hconf, hapart, h.committed, fun j => ?_, ?_, fun j => ?_⟩
  · rcases TxId.eq_or_eq_other i j with rfl | rfl
    · rw [Sys.set_tx_self]
      have hrun : Runs (calls j).randomUUID s j q r ws [] := ⟨hallows, heff, waitsFor_nil _ _ _⟩
      refine ((h.overlay_view j).ask (h.views j) (h.known j) hrun hview happ k).congr fun _ _ _ => ?_
      exact or_iff_left not_false
    · rw [Sys.set_tx_other, Sys.view, Sys.set_tx_other]
      exact h.views i.other
  · have hrun : Runs (calls i).randomUUID s i q r ws (s.tx i.other).writes := ⟨hallows, heff, hwaits⟩
    refine ((h.overlay_joint i).ask (h.views i) (h.known i) hrun hjoint hjoin k).congr fun p a pref => ?_
    rw [eitherAhead_iff i, Sys.set_tx_self, Sys.set_tx_other]
  · rcases TxId.eq_or_eq_other i j with rfl | rfl
    · rw [Sys.set_tx_self]
      refine known_note heff (fun row hrow => ?_) (h.known j)
      have hspot := PlanDb.spots_of_mem hrow
      exact ⟨(h.views j).names hspot, (h.views j).goodPath hspot⟩
    · rw [Sys.set_tx_other]
      exact h.known i.other

theorem commit {result : ApplyPlanPatchResult} {l : Locals} (h : TreeInv calls s)
    (hprog : (s.tx i).prog = .pure (.ok result, l))
    (hconf : Conforms calls (Sys.set { s with committed := s.view i } i
      { s.tx i with writes := [], outcome := .committed result })) :
    TreeInv calls (Sys.set { s with committed := s.view i } i
      { s.tx i with writes := [], outcome := .committed result }) := by
  have hpend := h.conforms.settled hprog
  refine of_idle i hconf (by rw [Sys.set_tx_self]) ?_ ?_ fun j => ?_
  · refine (h.views i).weaken (fun ho => ho.elim) fun _ _ _ ho _ => ?_
    have := ho.1
    rw [hpend] at this
    cases this
  · -- What the other sees now is what both had made together.
    have hspots : ((Sys.set { s with committed := s.view i } i
        { s.tx i with writes := [], outcome := .committed result }).view i.other).spots =
        s.joint.spots := by
      funext id
      rw [PlanDb.spots, PlanDb.spots, joint_find? h.apart i, Sys.view, PlanDb.find?_apply, Sys.set_tx_other]
      rfl
    rw [hspots, Sys.set_tx_other]
    refine h.joint.weaken (fun ho => ho.2.1) fun _ _ _ ho _ => ?_
    rcases (eitherAhead_iff i).mp ho with ho | ho
    · have := ho.1
      rw [hpend] at this
      cases this
    · exact .inl ho
  · rcases TxId.eq_or_eq_other i j with rfl | rfl
    · rw [Sys.set_tx_self]
      exact h.known j
    · rw [Sys.set_tx_other]
      exact h.known i.other

theorem rollback {reason : Option PatchFailure} (h : TreeInv calls s)
    (hconf : Conforms calls (s.set i ((s.tx i).rolledBack reason))) :
    TreeInv calls (s.set i ((s.tx i).rolledBack reason)) := by
  refine of_idle i hconf (by rw [Sys.set_tx_self]; rfl) h.committed ?_ fun j => ?_
  · rw [Sys.view, Sys.set_tx_other]
    exact h.views i.other
  · rcases TxId.eq_or_eq_other i j with rfl | rfl
    · rw [Sys.set_tx_self]
      exact h.known j
    · rw [Sys.set_tx_other]
      exact h.known i.other

/-- What a transaction waits for is no part of the invariant. -/
theorem wait {db : PlanDb} (h : TreeInv calls s)
    (hconf : Conforms calls (s.set i { s.tx i with waiting := some db })) :
    TreeInv calls (s.set i { s.tx i with waiting := some db }) := by
  have hwrites : ∀ j, ((s.set i { s.tx i with waiting := some db }).tx j).writes = (s.tx j).writes := by
    intro j
    rcases TxId.eq_or_eq_other i j with rfl | rfl
    · rw [Sys.set_tx_self]
    · rw [Sys.set_tx_other]
  have hledger : ∀ j, ((s.set i { s.tx i with waiting := some db }).tx j).ledger = (s.tx j).ledger := by
    intro j
    rcases TxId.eq_or_eq_other i j with rfl | rfl
    · rw [Sys.set_tx_self]
    · rw [Sys.set_tx_other]
  have hahead : ∀ j p a pref, ((s.set i { s.tx i with waiting := some db }).tx j).ahead p a pref ↔
      (s.tx j).ahead p a pref := by
    intro j p a pref
    rw [Tx.ahead, Tx.ahead, hwrites, hledger]
  refine ⟨hconf, ?_, h.committed, fun j => ?_, ?_, fun j => ?_⟩
  · intro j id
    rw [hwrites, hwrites]
    exact h.apart j id
  · rw [Sys.view, hwrites]
    exact (h.views j).congr fun p a pref => (hahead j p a pref).symm
  · rw [Sys.joint, hwrites, hwrites]
    refine h.joint.congr fun p a pref => ?_
    exact exists_congr fun j => (hahead j p a pref).symm
  · rw [hledger]
    exact h.known j

theorem step {a : Action} (h : TreeInv calls s) (hcurrent : Current s a) (hstep : s.step a = some s') :
    TreeInv calls s' := by
  have hcases := Sys.step_cases hstep
  have hconf := h.conforms.step hcases
  cases hcases with
  | @ask i q k r ws _ hprog hfree heff =>
    simp only [Current, hprog] at hcurrent
    exact h.ask hprog hfree heff hcurrent.1 hcurrent.2 hconf
  | wait => exact h.wait hconf
  | commit _ hprog => exact h.commit hprog hconf
  | rollback => exact h.rollback hconf

end TreeInv

end Steps

/-! ## Runs -/

/-- In every run in which what a statement was computed from is still so when it executes, what is
committed stays a tree, whatever the order of the statements of the two patches. -/
theorem concurrent_planTree (db : PlanDb) (calls : TxId → PatchCall) (acts : List Action) (s : Sys)
    (htree : PlanTree db) (hcurrent : Along Sys.step Current (Sys.start db calls) acts)
    (hrun : runs Sys.step (Sys.start db calls) acts = some s) : PlanTree s.committed := by
  have hinv : TreeInv calls s :=
    runs_inv (fun _ _ _ hinv hc hstep => hinv.step hc hstep)
      (TreeInv.start (settled_iff_planTree.mpr htree) calls) hcurrent hrun
  exact settled_iff_planTree.mp hinv.committed

namespace Sample

def moveAndRename : TxId → PatchCall
  | .one => move api web
  | .two => patch [.upsert { nodeRef := web.text, title := some "Site" }]

/-- The rename reads and writes `web` while the move is under way. -/
def moveAndRenameRun : List Action :=
  [.exec .one, .exec .one, .exec .two, .exec .one, .exec .two, .exec .two, .exec .one, .exec .one,
    .exec .one, .exec .one, .commit .one, .exec .two, .commit .two]

theorem moveAndRename_current :
    along Sys.step (fun s a => decide (Current s a)) (Sys.start start moveAndRename) moveAndRenameRun = true := by
  decide +kernel

theorem moveAndRename_ends : (runs Sys.step (Sys.start start moveAndRename) moveAndRenameRun).any (fun s =>
    (s.committed.nodes.find? api).any (fun r => r.parentId = some web) ∧
      (s.committed.nodes.find? web).any (fun r => r.title = "Site")) = true := by
  decide +kernel

/-- `api` goes under `web` while `web` goes under `api`. -/
def crossingMoves : TxId → PatchCall
  | .one => move api web
  | .two => move web api

/-- Both patches have loaded both rows before either writes one. -/
def crossingRun : List Action :=
  List.replicate 3 (.exec .one) ++ List.replicate 3 (.exec .two) ++
    List.replicate 4 (.exec .one) ++ [.commit .one] ++ List.replicate 4 (.exec .two) ++ [.commit .two]

theorem crossingMoves_ends : (runs Sys.step (Sys.start start crossingMoves) crossingRun).any (fun s =>
    (s.tx .one).outcome ≠ .running ∧ (s.tx .two).outcome ≠ .running ∧
      parentFrom s.committed.nodes api = some web ∧ parentFrom s.committed.nodes web = some api) = true := by
  decide +kernel

/-- The plan that the patches find is a tree. -/
theorem planTree_start : PlanTree start := planSound_start.toPlanTree

end Sample

open Sample in
theorem concurrent_planTree_rename : ∃ s, PlanTree Sample.start ∧
    Along Sys.step Current (Sys.start Sample.start moveAndRename) moveAndRenameRun ∧
    runs Sys.step (Sys.start Sample.start moveAndRename) moveAndRenameRun = some s ∧
    (s.committed.nodes.find? api).any (fun r => r.parentId = some web) = true ∧
    PlanTree s.committed := by
  obtain ⟨s, hs, hends⟩ := (Option.any_eq_true _ _).mp moveAndRename_ends
  have hcurrent := Along.of_along (fun _ _ => of_decide_eq_true) moveAndRename_current
  exact ⟨s, planTree_start, hcurrent, hs, (of_decide_eq_true hends).1,
    concurrent_planTree _ _ _ _ planTree_start hcurrent hs⟩

open Sample in
/-- Two re-parents that cross commit, and leave each node above the other. -/
theorem crossing_moves_cycle : PlanTree Sample.start ∧
    ∃ acts s, runs Sys.step (Sys.start Sample.start crossingMoves) acts = some s ∧ s.ended ∧
      parentFrom s.committed.nodes api = some web ∧ parentFrom s.committed.nodes web = some api ∧
      ¬ PlanTree s.committed := by
  obtain ⟨s, hs, hends⟩ := (Option.any_eq_true _ _).mp crossingMoves_ends
  obtain ⟨hone, htwo, hapi, hweb⟩ := of_decide_eq_true hends
  refine ⟨planTree_start, crossingRun, s, hs, fun i => ?_, hapi, hweb, fun htree => ?_⟩
  · cases i
    · exact hone
    · exact htwo
  · exact htree.acyclic api (.tail (.single hapi) hweb)

end Haive

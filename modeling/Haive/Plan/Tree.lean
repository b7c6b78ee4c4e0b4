import Haive.Plan.Spots
import Haive.Plan.Ledger

/-!
# Patches one after another keep the tree

`Sequential g db` relates the ledger of a patch that runs alone to the database:
the rows it knows are the current ones, the tree is planted, and between the two
statements of a move every child of the moved node is ahead of it. Each statement
that the ledger allows keeps it (`Sequential.step`), so every patch leaves a plan
that is sound if it found one (`runPatch_sound`), and every sequence of patches
from the empty plan ends in one (`runPatches_planSound`).
-/

namespace Haive

open Lib

/-- Both ends of every edge and the owner of every code link are live nodes. -/
structure EndsLive (db : PlanDb) : Prop where
  edges : ∀ e ∈ db.edges.rows, e.fromNodeId ∈ db.nodes.keys ∧ e.toNodeId ∈ db.nodes.keys
  links : ∀ k ∈ db.links.rows, k.nodeId ∈ db.nodes.keys

/-- What a repository's plan always is. -/
structure PlanSound (db : PlanDb) : Prop extends PlanTree db, EndsLive db

theorem planSound_iff {db : PlanDb} : PlanSound db ↔ Settled db.spots ∧ EndsLive db := by
  constructor
  · exact fun h => ⟨settled_iff_planTree.mpr h.toPlanTree, h.toEndsLive⟩
  · exact fun h => ⟨settled_iff_planTree.mp h.1, h.2⟩

/-! ## Ends of edges and links -/

namespace PlanDb

variable {seen db : PlanDb} {q : Query} {r : q.Reply} {ws : List Write}

theorem effect_putEdge (h : effect seen db q = .ok (r, ws)) {e : PlanNodeEdgeRow}
    (he : .putEdge e ∈ ws) :
    q = .insertEdge e ∧ e.fromNodeId ∈ db.nodes.keys ∧ e.toNodeId ∈ db.nodes.keys := by
  cases q with
  | insertEdge row =>
    simp only [effect] at h
    split at h
    · cases h
      cases he
    · split at h
      · next hends =>
        cases h
        rw [List.mem_singleton, Write.putEdge.injEq] at he
        subst he
        exact ⟨rfl, hends⟩
      · cases h
  | insertNode row =>
    simp only [effect] at h
    split at h
    · cases h
    · split at h <;> split at h <;> cases h <;> simp at he
  | insertCodeLink row =>
    simp only [effect] at h
    split at h
    · cases h
    · split at h <;> cases h
      simp at he
  | updateNode id set asserted =>
    simp only [effect] at h
    split at h
    · cases h
      cases he
    · split at h
      · cases h
        simp at he
      · split at h <;> cases h
        simp at he
  | updateCodeLink key set =>
    simp only [effect] at h
    split at h <;> cases h <;> simp at he
  | deleteEdge key =>
    simp only [effect] at h
    split at h <;> cases h <;> simp at he
  | _ =>
    cases h
    simp [deleteWrites] at he

theorem effect_putLink (h : effect seen db q = .ok (r, ws)) {k : PlanNodeCodeLinkRow}
    (hk : .putLink k ∈ ws) : k.nodeId ∈ db.nodes.keys ∨ ∃ l ∈ db.links.rows, l.nodeId = k.nodeId := by
  cases q with
  | insertCodeLink row =>
    simp only [effect] at h
    split at h
    · cases h
    · split at h
      · next hlive =>
        cases h
        rw [List.mem_singleton, Write.putLink.injEq] at hk
        exact .inl (hk ▸ hlive)
      · cases h
  | updateCodeLink key set =>
    simp only [effect] at h
    split at h
    · cases h
      cases hk
    · next l hl =>
      cases h
      rw [List.mem_singleton, Write.putLink.injEq] at hk
      exact .inr ⟨l, Table.find?_mem hl, by rw [hk]; rfl⟩
  | insertNode row =>
    simp only [effect] at h
    split at h
    · cases h
    · split at h <;> split at h <;> cases h <;> simp at hk
  | insertEdge row =>
    simp only [effect] at h
    split at h
    · cases h
      cases hk
    · split at h <;> cases h
      simp at hk
  | updateNode id set asserted =>
    simp only [effect] at h
    split at h
    · cases h
      cases hk
    · split at h
      · cases h
        simp at hk
      · split at h <;> cases h
        simp at hk
  | deleteEdge key =>
    simp only [effect] at h
    split at h <;> cases h <;> simp at hk
  | _ =>
    cases h
    simp [deleteWrites] at hk

/-- The node table after a statement. -/
theorem find?_effect (h : effect seen db q = .ok (r, ws)) (id : Uuid) :
    (db.apply ws).nodes.find? id = (nodeEffect seen db id q).getD (db.nodes.find? id) := by
  rw [find?_apply, effect_lastNode h]

/-- Only a deletion makes a row disappear, and only the doomed ones. -/
theorem live_effect (h : effect seen db q = .ok (r, ws)) {id : Uuid} (hid : id ∈ db.nodes.keys)
    (hdoomed : ∀ k, q = .deleteNode k → id ∉ db.doomedBy k) : id ∈ (db.apply ws).nodes.keys := by
  obtain ⟨row, hrow⟩ := Table.mem_keys_iff_find?.mp hid
  rw [Table.mem_keys_iff_find?, find?_effect h]
  cases q with
  | insertNode new =>
    simp only [nodeEffect]
    split
    · exact ⟨_, rfl⟩
    · exact ⟨_, hrow⟩
  | rewriteDescendants k oldPrefix newPrefix updatedAt =>
    simp only [nodeEffect]
    cases rewriteRow? seen db oldPrefix id with
    | none => exact ⟨_, hrow⟩
    | some r => exact ⟨_, rfl⟩
  | updateNode k set asserted =>
    simp only [nodeEffect]
    split
    · rw [hrow]
      exact ⟨_, rfl⟩
    · exact ⟨_, hrow⟩
  | deleteNode k =>
    simp only [nodeEffect]
    rw [if_neg (hdoomed k rfl)]
    exact ⟨_, hrow⟩
  | _ => exact ⟨_, hrow⟩

end PlanDb

theorem EndsLive.step {seen db : PlanDb} {q : Query} {r : q.Reply} {ws : List Write}
    (h : EndsLive db) (he : PlanDb.effect seen db q = .ok (r, ws)) : EndsLive (db.apply ws) where
  edges := by
    intro e hmem
    rcases PlanDb.mem_edges_apply hmem with hput | ⟨hold, hdel⟩
    · obtain ⟨rfl, hfrom, hto⟩ := PlanDb.effect_putEdge he hput
      exact ⟨PlanDb.live_effect he hfrom (fun k hk => nomatch hk),
        PlanDb.live_effect he hto (fun k hk => nomatch hk)⟩
    · -- An edge that stays has no doomed end.
      obtain ⟨hfrom, hto⟩ := h.edges e hold
      have hends : ∀ k, q = .deleteNode k → e.fromNodeId ∉ db.doomedBy k ∧ e.toNodeId ∉ db.doomedBy k := by
        rintro k rfl
        cases he
        rw [← not_or]
        intro hdoomed
        refine hdel (List.mem_append_left _ (List.mem_append_right _ (List.mem_map.mpr ⟨e, ?_, rfl⟩)))
        exact List.mem_filter.mpr ⟨hold, by simpa using hdoomed⟩
      exact ⟨PlanDb.live_effect he hfrom fun k hk => (hends k hk).1,
        PlanDb.live_effect he hto fun k hk => (hends k hk).2⟩
  links := by
    intro k hmem
    rcases PlanDb.mem_links_apply hmem with hput | ⟨hold, hdel⟩
    · have hq : ∀ id, q ≠ .deleteNode id := by
        rintro id rfl
        cases he
        simp [PlanDb.deleteWrites] at hput
      have hlive : k.nodeId ∈ db.nodes.keys := by
        rcases PlanDb.effect_putLink he hput with hlive | ⟨l, hl, hid⟩
        · exact hlive
        · exact hid ▸ h.links l hl
      exact PlanDb.live_effect he hlive fun id hid => absurd hid (hq id)
    · refine PlanDb.live_effect he (h.links k hold) ?_
      rintro id rfl hdoomed
      cases he
      refine hdel (List.mem_append_left _ (List.mem_append_left _ (List.mem_map.mpr ⟨k, ?_, rfl⟩)))
      exact List.mem_filter.mpr ⟨hold, by simpa using hdoomed⟩

/-! ## A patch that runs alone -/

/-- The children of a node whose move is half done. -/
def ahead (pending : Option (Uuid × String)) (p _a : Uuid) (pref : String) : Prop :=
  pending = some (p, pref) ∧ GoodPath pref

structure Sequential (g : Ledger) (db : PlanDb) : Prop where
  known : ∀ row ∈ g.known, ∃ r, db.nodes.find? row.id = some r ∧ r.toNodeRow = row
  rootless : g.rootless = true → ∀ a s, db.spots a = some s → s.parentId ≠ none
  planted : Planted (ahead g.pending) db.spots
  /-- Between the two statements of a move. -/
  moved : ∀ m newPrefix, g.pending = some (m, newPrefix) → ∀ a s, db.spots a = some s →
    s.parentId = some m → s.path = planNodePath (some newPrefix) a

theorem ahead_none_iff {p a : Uuid} {pref : String} : ahead none p a pref ↔ False := by
  simp [ahead]

theorem settled_of_pending {g : Ledger} {f : Spots} (h : Planted (ahead g.pending) f)
    (hp : g.pending = none) : Settled f :=
  h.weaken (fun ho => ho.elim) fun _ _ _ ho _ => absurd (hp ▸ ho) ahead_none_iff.mp

theorem planted_of_settled {f : Spots} (h : Settled f) (pending : Option (Uuid × String)) :
    Planted (ahead pending) f :=
  h.weaken (fun ho => ho.2) fun _ _ _ ho _ => ho.elim

namespace Sequential

variable {g g' : Ledger} {db db' : PlanDb} {uuid : Nat → Uuid}

theorem knownSpot (h : Sequential g db) {row : NodeRow} (hrow : row ∈ g.known) :
    db.spots row.id = some ⟨row.parentId, row.path⟩ := by
  obtain ⟨r, hr, rfl⟩ := h.known row hrow
  exact PlanDb.spots_of_find? hr

/-- A statement that leaves the node rows alone. -/
theorem quiet (h : Sequential g db) (hsame : ∀ id, db'.nodes.find? id = db.nodes.find? id)
    (hknown : g'.known = g.known) (hroot : g'.rootless = g.rootless) (hpend : g'.pending = g.pending) :
    Sequential g' db' := by
  have hspots : db'.spots = db.spots := by
    funext id
    rw [PlanDb.spots, PlanDb.spots, hsame]
  refine ⟨?_, ?_, ?_, ?_⟩
  · rw [hknown]
    intro row hrow
    rw [hsame]
    exact h.known row hrow
  · rw [hroot, hspots]
    exact h.rootless
  · rw [hpend, hspots]
    exact h.planted
  · rw [hpend, hspots]
    exact h.moved

theorem loadNode (h : Sequential g db) {id : Uuid} :
    Sequential (g.note (.loadNode id) ((db.nodes.find? id).map (·.toNodeRow))) db := by
  cases hr : db.nodes.find? id with
  | none => exact h
  | some r =>
    refine ⟨?_, h.rootless, h.planted, h.moved⟩
    intro row hrow
    rcases List.mem_cons.mp hrow with rfl | hrow
    · exact ⟨r, by rw [← hr, ← (Table.find?_key hr : r.id = id)]; rfl, rfl⟩
    · exact h.known row hrow

theorem findRoot (h : Sequential g db) :
    Sequential (g.note .findRoot (db.root?.map (·.id))) db := by
  cases hr : db.root? with
  | some r => exact h
  | none =>
    refine ⟨h.known, fun _ a s ha => ?_, h.planted, h.moved⟩
    obtain ⟨r, hfind, rfl⟩ := PlanDb.spots_eq_some.mp ha
    exact PlanDb.root?_eq_none.mp hr r (Table.find?_mem hfind)

theorem insertNode (h : Sequential g db) {row : PlanNodeRow} (hallow : g.Allows uuid (.insertNode row))
    (hid : row.id ∉ db.nodes.keys)
    (hfind : ∀ id, db'.nodes.find? id = if row.id = id then some row else db.nodes.find? id) :
    Sequential (g.note (.insertNode row) ()) db' := by
  obtain ⟨hpend, _, _, hplace⟩ := hallow
  have hnone : db.nodes.find? row.id = none := Table.find?_eq_none.mpr hid
  have hspots : db'.spots = Function.update db.spots row.id (some row.spot) := by
    funext id
    rw [PlanDb.spots, hfind]
    by_cases heq : row.id = id
    · subst heq
      simp
    · rw [if_neg heq, Function.update_of_ne (Ne.symm heq), PlanDb.spots]
  refine ⟨?_, ?_, ?_, ?_⟩
  · intro known hknown
    obtain ⟨r, hr, hrow⟩ := h.known known hknown
    refine ⟨r, ?_, hrow⟩
    rw [hfind, if_neg]
    · exact hr
    · intro heq
      rw [← heq, hnone] at hr
      cases hr
  · intro hfalse
    cases hfalse
  · show Planted (ahead g.pending) db'.spots
    rw [hspots]
    refine h.planted.insert (by rw [PlanDb.spots, hnone]; rfl) ?_ ?_
    · intro hp
      replace hp : row.parentId = none := hp
      rw [hp] at hplace
      exact ⟨hplace.2, h.rootless hplace.1⟩
    · intro p hp
      replace hp : row.parentId = some p := hp
      rw [hp] at hplace
      obtain ⟨parent, hparent, rfl, hpath⟩ := hplace
      exact ⟨_, h.knownSpot hparent, hpath⟩
  · intro m newPrefix hm
    replace hm : g.pending = some (m, newPrefix) := hm
    rw [hpend] at hm
    cases hm

/-- Alone, a subtree move rewrites exactly the rows below the old prefix. -/
theorem spots_rewrite {oldPrefix newPrefix : String} {updatedAt : Nat} (hold : PlainPath oldPrefix)
    (hfind : ∀ id, db'.nodes.find? id = ((PlanDb.rewriteRow? db db oldPrefix id).map
      (some ∘ PlanDb.rewritten oldPrefix newPrefix updatedAt)).getD (db.nodes.find? id)) :
    db'.spots = fun a => (db.spots a).map (Spot.rewrite oldPrefix newPrefix) := by
  funext id
  simp only [PlanDb.spots, hfind, PlanDb.rewriteRow?]
  cases hr : db.nodes.find? id with
  | none => rfl
  | some r =>
    have hsel : (like r.path (descendantsLikePattern oldPrefix) = true ∧
        r.id ∈ db.descendantIds oldPrefix) ↔ isBelow oldPrefix r.path = true := by
      rw [like_descendantsLikePattern hold, and_iff_left_iff_imp]
      intro hb
      refine List.mem_map.mpr ⟨r, List.mem_filter.mpr ⟨Table.find?_mem hr, ?_⟩, rfl⟩
      rw [like_descendantsLikePattern hold]
      exact hb
    simp only [Option.filter_some, hsel]
    by_cases hb : isBelow oldPrefix r.path = true
    · simp [hb, Spot.rewrite, PlanNodeRow.spot, PlanDb.rewritten]
    · simp [hb, Spot.rewrite, PlanNodeRow.spot]

theorem rewriteDescendants (h : Sequential g db) {m : Uuid} {oldPrefix newPrefix : String}
    {updatedAt : Nat} (hallow : g.Allows uuid (.rewriteDescendants m oldPrefix newPrefix updatedAt))
    (hfind : ∀ id, db'.nodes.find? id = ((PlanDb.rewriteRow? db db oldPrefix id).map
      (some ∘ PlanDb.rewritten oldPrefix newPrefix updatedAt)).getD (db.nodes.find? id)) :
    Sequential (g.note (.rewriteDescendants m oldPrefix newPrefix updatedAt) ()) db' := by
  obtain ⟨hpend, row, hrow, rfl, rfl, parent, hparent, rfl, _⟩ := hallow
  have hsettled := settled_of_pending h.planted hpend
  have hm := h.knownSpot hrow
  have hgood := hsettled.goodPath hm
  have hspots := spots_rewrite hgood.2 hfind
  have hgoodNew : GoodPath (planNodePath (some parent.path) row.id) := by
    refine ⟨endsSlash_planNodePath _ _, plain_planNodePath row.id ?_⟩
    rintro _ ⟨⟩
    exact (hsettled.goodPath (h.knownSpot hparent)).2
  refine ⟨?_, ?_, ?_, ?_⟩
  · intro known hknown
    obtain ⟨hknown, hout⟩ := List.mem_filter.mp hknown
    obtain ⟨r, hr, rfl⟩ := h.known known hknown
    refine ⟨r, ?_, rfl⟩
    have hbelow : isBelow row.path r.path = false := by simpa using hout
    have hnot : PlanDb.rewriteRow? db db row.path r.id = none := by
      rw [PlanNodeRow.toNodeRow_id] at hr
      rw [PlanDb.rewriteRow?, hr, Option.filter_some, like_descendantsLikePattern hgood.2, hbelow]
      simp
    exact (hfind r.id).trans (by rw [hnot]; exact hr)
  · intro hroot a s ha
    rw [hspots] at ha
    obtain ⟨t, ht, rfl⟩ := Option.map_eq_some_iff.mp ha
    rw [Spot.rewrite_parentId]
    exact h.rootless hroot a t ht
  · rw [hspots]
    refine hsettled.rewrite (m := row.id) (hsettled.names hm) ?_ (fun ho => ho.2) ?_ ?_
    · exact fun ho => ho.elim
    · exact fun ho => ho.elim
    · exact fun _ _ _ => ⟨rfl, hgoodNew⟩
  · rintro m newPrefix hpending a s ha hp
    cases hpending
    rw [hspots] at ha
    obtain ⟨t, ht, rfl⟩ := Option.map_eq_some_iff.mp ha
    rw [Spot.rewrite_parentId] at hp
    obtain ⟨u, hu, hpath⟩ := hsettled.child ht hp
    rw [hm, Option.some.injEq] at hu
    subst hu
    have hbelow : isBelow row.path t.path = true := by
      rw [hpath]
      exact isBelow_planNodePath a (List.prefix_refl _)
    rw [Spot.rewrite, if_pos hbelow]
    show sqlRewritePath row.path _ t.path = _
    rw [hpath, rewrite_planNodePath a (List.prefix_refl _), rewrite_self]

theorem updateNode (h : Sequential g db) {id : Uuid} {set : NodeSet} {asserted : Option Nat}
    (hallow : g.Allows uuid (.updateNode id set asserted))
    (hfind : ∀ k, db'.nodes.find? k =
      (if id = k then (db.nodes.find? k).map (some ∘ set.on) else none).getD (db.nodes.find? k)) :
    Sequential (g.note (.updateNode id set asserted) ()) db' := by
  obtain ⟨⟨row, hrow, rfl, _, _⟩, hmove⟩ := hallow
  obtain ⟨r, hr, rfl⟩ := h.known row hrow
  change db.nodes.find? r.id = some r at hr
  change ∀ k, db'.nodes.find? k =
    (if r.id = k then (db.nodes.find? k).map (some ∘ set.on) else none).getD (db.nodes.find? k) at hfind
  have hspots : db'.spots = Function.update db.spots r.id (some (set.on r).spot) := by
    funext k
    rw [PlanDb.spots, hfind]
    by_cases hk : r.id = k
    · subst hk
      simp [hr]
    · rw [if_neg hk, Function.update_of_ne (Ne.symm hk), PlanDb.spots]
      rfl
  have hknown : ∀ known ∈ g.known.filter (·.id ≠ r.id),
      ∃ r', db'.nodes.find? known.id = some r' ∧ r'.toNodeRow = known := by
    intro known hmem
    obtain ⟨hmem, hne⟩ := List.mem_filter.mp hmem
    rw [hfind, if_neg (Ne.symm (of_decide_eq_true hne))]
    exact h.known known hmem
  cases hset : set.moved with
  | none =>
    rw [hset] at hmove
    have hspot : (set.on r).spot = r.spot := by simp [NodeSet.on, PlanNodeRow.spot, hset]
    have hsame : db'.spots = db.spots := by
      rw [hspots, hspot, ← PlanDb.spots_of_find? hr, Function.update_eq_self]
    refine ⟨hknown, ?_, ?_, fun _ _ hm => by cases hm⟩
    · rw [hsame]
      exact h.rootless
    · rw [hsame]
      exact planted_of_settled (settled_of_pending h.planted hmove) none
  | some moved =>
    obtain ⟨p, newPrefix⟩ := moved
    rw [hset] at hmove
    obtain ⟨hpend, row, hrow, hid, parent, hparent, rfl, hnew, hdetach⟩ := hmove
    change row.id = r.id at hid
    change newPrefix = planNodePath (some parent.path) r.id at hnew
    have hnewSpot : (set.on r).spot = ⟨some parent.id, newPrefix⟩ := by
      simp [NodeSet.on, PlanNodeRow.spot, hset]
    have hne : parent.id ≠ r.id := by
      intro heq
      have hpath : parent.path = row.path := by
        have h₁ := h.knownSpot hparent
        rw [heq, ← hid, h.knownSpot hrow, Option.some.injEq] at h₁
        exact (congrArg Spot.path h₁).symm
      rw [wouldDetachSubtree, hpath] at hdetach
      rw [startsWith_iff.mpr (List.prefix_refl _)] at hdetach
      cases hdetach
    refine ⟨hknown, ?_, ?_, fun _ _ hm => by cases hm⟩
    · intro hroot a s ha
      rw [hspots, hnewSpot] at ha
      by_cases hak : a = r.id
      · subst hak
        rw [Function.update_self, Option.some.injEq] at ha
        subst ha
        exact fun hn => by cases hn
      · rw [Function.update_of_ne hak] at ha
        exact h.rootless hroot a s ha
    · rw [hspots, hnewSpot]
      refine h.planted.move (PlanDb.spots_of_find? hr) (h.knownSpot hparent) hne hnew
        (fun {a u} => h.moved _ _ hpend a u) (fun ho => ho.2) ?_
      rintro q a pref ⟨hq, hgood⟩ hqm
      rw [hpend] at hq
      cases hq
      exact absurd rfl hqm

theorem deleteNode (h : Sequential g db) {id : Uuid} (hallow : g.pending = none)
    (hfind : ∀ k, db'.nodes.find? k =
      (if k ∈ db.doomedBy id then some none else none).getD (db.nodes.find? k)) :
    Sequential (g.note (.deleteNode id) ()) db' := by
  have hgone : ∀ a, a ∈ db.doomedBy id → db'.spots a = none := by
    intro a ha
    rw [PlanDb.spots, hfind, if_pos ha]
    rfl
  have hkept : ∀ a, a ∉ db.doomedBy id → db'.spots a = db.spots a := by
    intro a ha
    rw [PlanDb.spots, hfind, if_neg ha]
    rfl
  refine ⟨fun row hrow => absurd hrow List.not_mem_nil, ?_, ?_, ?_⟩
  · intro hroot a s ha
    by_cases hd : a ∈ db.doomedBy id
    · rw [hgone a hd] at ha
      cases ha
    · rw [hkept a hd] at ha
      exact h.rootless hroot a s ha
  · refine h.planted.delete hgone hkept ?_
    intro a s p ha hp hd
    obtain ⟨r, hr, rfl⟩ := PlanDb.spots_eq_some.mp ha
    have := db.cascade_closed id r (Table.find?_mem hr) p hp hd
    rwa [(Table.find?_key hr : r.id = a)] at this
  · intro m newPrefix hm
    replace hm : g.pending = some (m, newPrefix) := hm
    rw [hallow] at hm
    cases hm

theorem step (h : Sequential g db) {q : Query} {r : q.Reply} (hallow : g.Allows uuid q)
    (hexec : db.exec q = .ok (r, db')) : q.Answers r ∧ Sequential (g.note q r) db' := by
  obtain ⟨ws, he, rfl⟩ := PlanDb.exec_eq_ok hexec
  have hfind := PlanDb.find?_effect he
  cases q with
  | loadNode id =>
    cases he
    refine ⟨?_, h.loadNode⟩
    cases hr : db.nodes.find? id with
    | none => trivial
    | some r => exact (Table.find?_key hr :)
  | findRoot =>
    cases he
    exact ⟨trivial, h.findRoot⟩
  | insertNode row =>
    refine ⟨trivial, h.insertNode hallow (PlanDb.effect_insertNode he).1 fun id => ?_⟩
    rw [hfind, PlanDb.nodeEffect]
    split <;> rfl
  | rewriteDescendants m oldPrefix newPrefix updatedAt =>
    exact ⟨trivial, h.rewriteDescendants hallow hfind⟩
  | updateNode id set asserted => exact ⟨trivial, h.updateNode hallow hfind⟩
  | deleteNode id => exact ⟨trivial, h.deleteNode hallow hfind⟩
  | insertEdge row =>
    refine ⟨trivial, ?_⟩
    by_cases hk : row.kind = .dependsOn
    · exact h.quiet hfind (by simp [Ledger.note, hk]) (by simp [Ledger.note, hk]) (by simp [Ledger.note, hk])
    · exact h.quiet hfind (by simp [Ledger.note, hk]) (by simp [Ledger.note, hk]) (by simp [Ledger.note, hk])
  | deleteEdge key =>
    refine ⟨trivial, ?_⟩
    cases r <;> exact h.quiet hfind rfl rfl rfl
  | _ => exact ⟨trivial, h.quiet hfind rfl rfl rfl⟩

/-- Where a patch begins. -/
theorem start (h : Settled db.spots) : Sequential {} db where
  known := fun _ hrow => absurd hrow List.not_mem_nil
  rootless := fun hr => nomatch hr
  planted := planted_of_settled h none
  moved := fun _ _ hm => nomatch hm

end Sequential

/-! ## Runs -/

theorem runPatch_eq_ok {db db' : PlanDb} {call : PatchCall} {result : ApplyPlanPatchResult}
    (h : runPatch db call = .ok (result, db')) :
    ∃ l, (applyPlanPatch call).run PlanDb.exec db = .ok ((.ok result, l), db') := by
  unfold runPatch at h
  split at h
  · cases h
  · cases h
  · next l _ heq =>
    cases h
    exact ⟨l, heq⟩

theorem runPatch_sound {db db' : PlanDb} {call : PatchCall} {result : ApplyPlanPatchResult}
    (h : PlanSound db) (hrun : runPatch db call = .ok (result, db')) : PlanSound db' := by
  obtain ⟨hsettled, hends⟩ := planSound_iff.mp h
  obtain ⟨l, hrun⟩ := runPatch_eq_ok hrun
  obtain ⟨g, ⟨hseq, hends'⟩, hpend⟩ := Prog.run_inv (I := fun g db => Sequential g db ∧ EndsLive db)
    (fun g db q r db' hinv hallow _ hexec => by
      obtain ⟨hans, hseq⟩ := hinv.1.step hallow hexec
      obtain ⟨ws, he, rfl⟩ := PlanDb.exec_eq_ok hexec
      exact ⟨g.note q r, ⟨hans, rfl⟩, hseq, hinv.2.step he⟩)
    (applyPlanPatch_allowed call) (Prog.asks_true _ _) ⟨Sequential.start hsettled, hends⟩ hrun
  exact planSound_iff.mpr ⟨settled_of_pending hseq.planted hpend, hends'⟩

theorem planSound_empty : PlanSound PlanDb.empty :=
  planSound_iff.mpr ⟨settled_empty, ⟨fun _ he => absurd he List.not_mem_nil, fun _ hk => absurd hk List.not_mem_nil⟩⟩

theorem runPatches_sound {db : PlanDb} (h : PlanSound db) (calls : List PatchCall) :
    PlanSound (runPatches db calls) := by
  induction calls generalizing db with
  | nil => exact h
  | cons call calls ih =>
    rw [runPatches, List.foldl_cons]
    refine ih ?_
    split
    · exact h
    · next hrun => exact runPatch_sound h hrun

theorem Sample.planSound_start : PlanSound Sample.start :=
  Sample.runPatches_plan ▸ runPatches_sound planSound_empty [Sample.plan]

/-- Every sequence of patches from the empty plan ends in a sound plan: at most one root, live
parents, paths that list the ids from the root, no parent cycle, live ends. -/
theorem runPatches_planSound (calls : List PatchCall) : PlanSound (runPatches PlanDb.empty calls) :=
  runPatches_sound planSound_empty calls

end Haive

import Haive.Plan.Dependency
import Haive.Lib.Follow

/-!
# Dropping ops and failing on them

Under `onUnresolvableRef: 'drop'` a patch loses ops in two places: before the loop
(`dropUnresolvableOps`) and in it. `drop_is_fail_on_remaining` says that this is the same as
running the ops that are left under `'fail'`.

The proof runs the two patches side by side. A turn that drops its op leaves the tables
alone and, of the variables, changes only what it read: the version of a node at its first
load and the cached dependency graph. `Alongside` says how far the variables of the two
runs may differ in that: a version noted only by the dropping run is still the node's
version, and both graphs have the edges of the table. A turn that keeps its op is followed
statement by statement (`applyOp_follows`).
-/

namespace Haive

open Lib Patch Script

/-! ## The ops that are left -/

/-- The ops whose turn of the loop adds no entry to `dropped`; `ops` are the ops as given and as
normalised, and those that `dropUnresolvableOps` took out have no turn. -/
def appliedOps (call : PatchCall) (kept : List PlanPatchOp) :
    Nat → List (PlanPatchOp × PlanPatchOp) → Locals → PlanDb → List PlanPatchOp
  | _, [], _, _ => []
  | opIndex, (given, op) :: rest, l, db =>
    if op ∉ kept then appliedOps call kept opIndex rest l db
    else
      match (applyOpOrDrop call op opIndex l).run PlanDb.exec db with
      | .ok ((.ok _, l'), db') =>
        if l'.result.dropped.length = l.result.dropped.length then
          given :: appliedOps call kept (opIndex + 1) rest l' db'
        else appliedOps call kept (opIndex + 1) rest l' db'
      | _ => []

def remainingOps (db : PlanDb) (call : PatchCall) : List PlanPatchOp :=
  match (dropUnresolvableOps (normalizeOpRefs call.ops) (seedSelf call)).run PlanDb.exec db with
  | .ok ((.ok kept, l), db') => appliedOps call kept 0 (call.ops.zip (normalizeOpRefs call.ops)) l db'
  | _ => []

def PatchCall.failing (call : PatchCall) (ops : List PlanPatchOp) : PatchCall :=
  { call with ops := ops, opts := { call.opts with onUnresolvableRef := .fail } }

/-- The ids that `randomUUID()` returns during the patch, at most one for each op, are ids that no node
has, and no two of them are the same. -/
structure PatchCall.DrawsFresh (call : PatchCall) (db : PlanDb) : Prop where
  new : ∀ n < call.ops.length, call.randomUUID n ∉ db.nodes.keys
  injective : ∀ m < call.ops.length, ∀ n < call.ops.length, call.randomUUID m = call.randomUUID n → m = n

/-! ## Two runs side by side -/

/-- The cached graph has the edges of the table. -/
def GraphCurrent (l : Locals) (db : PlanDb) : Prop :=
  ∀ graph, l.dependsOnGraph = some graph → ∀ x y, (x, y) ∈ graph ↔ DependsOn db x y

/-- A node of the plan that the patch began with, or one it made. -/
def Seen (call : PatchCall) (start : PlanDb) (l : Locals) (id : Uuid) : Prop :=
  id ∈ start.nodes.keys ∨ ∃ n < l.generated, id = call.randomUUID n

/-- `l` are the variables of a run under `drop` and `k` those of the run of the remaining ops, while
the tables of both are `db`. -/
structure Alongside (call : PatchCall) (start : PlanDb) (l k : Locals) (db : PlanDb) : Prop where
  refs : k.refs = l.refs
  dead : k.dead = l.dead
  own : k.versionAfterOwnWrite = l.versionAfterOwnWrite
  generated : k.generated = l.generated
  result : k.result = { l.result with dropped := [] }
  noted : ∀ id v, k.versionAtStart.lookup id = some v → l.versionAtStart.lookup id = some v
  current : ∀ id v, l.versionAtStart.lookup id = some v → k.versionAtStart.lookup id = none →
    ∀ r, db.nodes.find? id = some r → r.version = v
  graph : GraphCurrent l db
  graph' : GraphCurrent k db
  seenNote : ∀ id v, l.versionAtStart.lookup id = some v → Seen call start l id
  seenNode : ∀ id ∈ db.nodes.keys, Seen call start l id

section
variable {call : PatchCall} {start db db' : PlanDb} {l k : Locals}

theorem noteVersion_lookup (l : Locals) (id : Uuid) (v : Nat) (id' : Uuid) :
    (Locals.noteVersion l id v).versionAtStart.lookup id' =
      if id' = id then some ((l.versionAtStart.lookup id).getD v) else l.versionAtStart.lookup id' := by
  rw [Locals.noteVersion]
  split
  · next hsome =>
    split
    · next heq =>
      subst heq
      obtain ⟨w, hw⟩ := Option.isSome_iff_exists.mp hsome
      rw [hw]
      rfl
    · rfl
  · next hnone =>
    rw [List.lookup_cons]
    have hnone := Option.not_isSome_iff_eq_none.mp hnone
    split
    · next heq =>
      rw [beq_iff_eq] at heq
      rw [if_pos heq, hnone]
      rfl
    · next hne =>
      have hne : id' ≠ id := by simpa using hne
      rw [if_neg hne]

theorem noteVersion_eq (l : Locals) (id : Uuid) (v : Nat) :
    ∃ notes, Locals.noteVersion l id v = { l with versionAtStart := notes } := by
  rw [Locals.noteVersion]
  split
  · exact ⟨l.versionAtStart, rfl⟩
  · exact ⟨_, rfl⟩

namespace Alongside

/-- Only the dropping run loads a row. -/
theorem note_left (h : Alongside call start l k db) {r : PlanNodeRow} (hr : db.nodes.find? r.id = some r) :
    Alongside call start (Locals.noteVersion l r.id r.version) k db := by
  have hlookup := noteVersion_lookup l r.id r.version
  obtain ⟨notes, heq⟩ := noteVersion_eq l r.id r.version
  rw [heq] at hlookup ⊢
  refine ⟨h.refs, h.dead, h.own, h.generated, h.result, ?_, ?_, h.graph, h.graph', ?_, h.seenNode⟩
  · intro id v hv
    rw [hlookup]
    have hl := h.noted id v hv
    split
    · next heq =>
      subst heq
      rw [hl]
      rfl
    · exact hl
  · intro id v hv hk r' hr'
    rw [hlookup] at hv
    split at hv
    · next heq =>
      subst heq
      rw [hr] at hr'
      cases hr'
      cases hn : l.versionAtStart.lookup r.id with
      | none =>
        rw [hn] at hv
        exact Option.some.inj hv
      | some w =>
        rw [hn] at hv
        exact (h.current r.id w hn hk r hr).trans (Option.some.inj hv)
    · exact h.current id v hv hk r' hr'
  · intro id v hv
    rw [hlookup] at hv
    split at hv
    · next heq =>
      subst heq
      exact h.seenNode r.id (Table.mem_keys_iff_find?.mpr ⟨r, hr⟩)
    · exact h.seenNote id v hv

/-- Both runs load a row. -/
theorem note (h : Alongside call start l k db) {r : PlanNodeRow} (hr : db.nodes.find? r.id = some r) :
    Alongside call start (Locals.noteVersion l r.id r.version) (Locals.noteVersion k r.id r.version) db := by
  have hleft := h.note_left hr
  have hlookup := noteVersion_lookup k r.id r.version
  have hsame := noteVersion_lookup l r.id r.version
  obtain ⟨notes, heq⟩ := noteVersion_eq k r.id r.version
  rw [heq] at hlookup ⊢
  refine ⟨hleft.refs, hleft.dead, hleft.own, hleft.generated, hleft.result, ?_, ?_, hleft.graph, h.graph',
    hleft.seenNote, hleft.seenNode⟩
  · intro id v hv
    rw [hlookup] at hv
    split at hv
    · next heq =>
      subst heq
      rw [hsame, if_pos rfl]
      cases hk : k.versionAtStart.lookup r.id with
      | some w =>
        rw [hk] at hv
        rw [h.noted r.id w hk]
        exact hv
      | none =>
        rw [hk] at hv
        cases hl : l.versionAtStart.lookup r.id with
        | none => exact hv
        | some w =>
          rw [← h.current r.id w hl hk r hr]
          exact hv
    · exact hleft.noted id v hv
  · intro id v hv hk
    rw [hlookup] at hk
    split at hk
    · cases hk
    · exact hleft.current id v hv hk

/-- A statement that leaves alone the version of every node that the remaining run has not loaded. -/
theorem of_tables (h : Alongside call start l k db)
    (hversion : ∀ id v r', l.versionAtStart.lookup id = some v → k.versionAtStart.lookup id = none →
      db'.nodes.find? id = some r' → ∃ r, db.nodes.find? id = some r ∧ r.version = r'.version)
    (hnodes : ∀ id ∈ db'.nodes.keys, Seen call start l id)
    (hgraph : GraphCurrent l db') (hgraph' : GraphCurrent k db') : Alongside call start l k db' where
  refs := h.refs
  dead := h.dead
  own := h.own
  generated := h.generated
  result := h.result
  noted := h.noted
  current := by
    intro id v hl hk r' hr'
    obtain ⟨r, hr, hv⟩ := hversion id v r' hl hk hr'
    exact hv ▸ h.current id v hl hk r hr
  graph := hgraph
  graph' := hgraph'
  seenNote := h.seenNote
  seenNode := hnodes

end Alongside

theorem Alongside.forget (h : Alongside call start l k db) :
    Alongside call start { l with dependsOnGraph := none } { k with dependsOnGraph := none } db :=
  { h with graph := nofun, graph' := nofun }

theorem GraphCurrent.congr (h : GraphCurrent l db) (hedges : db'.edges = db.edges) : GraphCurrent l db' := by
  intro graph hg x y
  rw [h graph hg x y, DependsOn, DependsOn, hedges]

end

/-! ## Edges after a statement -/

namespace PlanDb

theorem edges_apply_puts (db : PlanDb) (rows : List PlanNodeRow) (f : PlanNodeRow → PlanNodeRow) :
    (db.apply (rows.map fun r => .putNode (f r))).edges = db.edges := by
  induction rows generalizing db with
  | nil => rfl
  | cons r rows ih => exact ih (db.write (.putNode (f r)))

/-- Only three statements touch an edge. -/
theorem edges_exec {db db' : PlanDb} {q : Query} {r : q.Reply} (h : db.exec q = .ok (r, db'))
    (hinsert : ∀ e, q ≠ .insertEdge e) (hdelete : ∀ key, q ≠ .deleteEdge key) (hnode : ∀ id, q ≠ .deleteNode id) :
    db'.edges = db.edges := by
  obtain ⟨ws, he, rfl⟩ := exec_eq_ok h
  cases q with
  | insertEdge e => exact absurd rfl (hinsert e)
  | deleteEdge key => exact absurd rfl (hdelete key)
  | deleteNode id => exact absurd rfl (hnode id)
  | rewriteDescendants k oldPrefix newPrefix updatedAt =>
    cases he
    exact edges_apply_puts db _ _
  | updateNode k set asserted =>
    simp only [effect] at he
    split at he
    · cases he
      rfl
    · split at he
      · cases he
        rfl
      · split at he <;> cases he
        rfl
  | insertNode row =>
    simp only [effect] at he
    split at he
    · cases he
    · split at he
      · split at he <;> cases he
        rfl
      · split at he <;> cases he
        rfl
  | updateCodeLink key set =>
    simp only [effect] at he
    split at he <;> cases he <;> rfl
  | insertCodeLink row =>
    simp only [effect] at he
    split at he
    · cases he
    · split at he <;> cases he
      rfl
  | _ =>
    cases he
    rfl

/-- What a statement that is no deletion leaves of a row that it did not insert. -/
theorem version_exec {db db' : PlanDb} {q : Query} {r : q.Reply} (h : db.exec q = .ok (r, db')) {id : Uuid}
    (hinsert : ∀ row, q = .insertNode row → row.id ≠ id) (hupdate : ∀ set v, q ≠ .updateNode id set v)
    {r' : PlanNodeRow} (hr' : db'.nodes.find? id = some r') :
    ∃ r, db.nodes.find? id = some r ∧ r.version = r'.version := by
  obtain ⟨ws, he, rfl⟩ := exec_eq_ok h
  rw [find?_effect he] at hr'
  cases q with
  | insertNode row =>
    rw [nodeEffect, if_neg (hinsert row rfl)] at hr'
    exact ⟨r', hr', rfl⟩
  | updateNode k set v =>
    have hk : k ≠ id := by
      rintro rfl
      exact hupdate set v rfl
    rw [nodeEffect, if_neg hk] at hr'
    exact ⟨r', hr', rfl⟩
  | rewriteDescendants k oldPrefix newPrefix updatedAt =>
    rw [nodeEffect] at hr'
    cases hrow : rewriteRow? db db oldPrefix id with
    | none =>
      rw [hrow] at hr'
      exact ⟨r', hr', rfl⟩
    | some row =>
      rw [hrow] at hr'
      cases hr'
      obtain ⟨hfind, _⟩ := Option.filter_eq_some_iff.mp hrow
      exact ⟨row, hfind, rfl⟩
  | deleteNode k =>
    rw [nodeEffect] at hr'
    split at hr'
    · cases hr'
    · exact ⟨r', hr', rfl⟩
  | _ => exact ⟨r', hr', rfl⟩

theorem keys_exec {db db' : PlanDb} {q : Query} {r : q.Reply} (h : db.exec q = .ok (r, db')) {id : Uuid}
    (hid : id ∈ db'.nodes.keys) : id ∈ db.nodes.keys ∨ ∃ row, q = .insertNode row ∧ row.id = id := by
  obtain ⟨r', hr'⟩ := Table.mem_keys_iff_find?.mp hid
  by_cases hinsert : ∃ row, q = .insertNode row ∧ row.id = id
  · exact .inr hinsert
  · refine .inl (Table.mem_keys_iff_find?.mpr ?_)
    by_cases hupdate : ∃ set v, q = .updateNode id set v
    · obtain ⟨set, v, rfl⟩ := hupdate
      obtain ⟨ws, he, rfl⟩ := exec_eq_ok h
      rw [find?_effect he, nodeEffect, if_pos rfl] at hr'
      cases hfind : db.nodes.find? id with
      | none =>
        rw [hfind] at hr'
        cases hr'
      | some row => exact ⟨row, rfl⟩
    · obtain ⟨row, hrow, _⟩ := version_exec h (fun row hq hid => hinsert ⟨row, hq, hid⟩)
        (fun set v hq => hupdate ⟨set, v, hq⟩) hr'
      exact ⟨row, hrow⟩

end PlanDb

/-! ## A dropped op leaves no trace -/

def PatchError.Skips : PatchError → Prop
  | .unresolvable .. => True
  | _ => False

/-- Nothing was reported as dropped, and at most `d` ids were drawn. -/
def Within (d : Nat) (l l' : Locals) : Prop :=
  l'.result.dropped = l.result.dropped ∧ l'.generated ≤ l.generated + d

theorem Within.refl (l : Locals) : Within 0 l l := ⟨rfl, Nat.le_refl _⟩

theorem Within.trans {d e : Nat} {l₁ l₂ l₃ : Locals} (h : Within d l₁ l₂) (h' : Within e l₂ l₃) :
    Within (d + e) l₁ l₃ :=
  ⟨h'.1.trans h.1, by have := h.2; have := h'.2; omega⟩

theorem Within.mono {d e : Nat} {l l' : Locals} (h : Within d l l') (hle : d ≤ e) : Within e l l' :=
  ⟨h.1, by have := h.2; omega⟩

section
variable (call : PatchCall) (start : PlanDb) {α β : Type} {d e : Nat}

/-- The body only reads: whichever way it ends, the tables are as they were. -/
def Reads (p : PatchM α) : Prop :=
  ∀ l k db, Alongside call start l k db → wp (exactly PlanDb.exec) p
    (fun _ l' db' => db' = db ∧ Alongside call start l' k db ∧ Within 0 l l')
    (fun _ l' db' => db' = db ∧ Alongside call start l' k db ∧ Within 0 l l') l db

/-- The body draws at most one id, and writes nothing before it throws what `drop` skips. -/
def Tries (p : PatchM α) : Prop :=
  ∀ l k db, Alongside call start l k db → wp (exactly PlanDb.exec) p
    (fun _ l' _ => Within 1 l l')
    (fun e l' db' => Within 1 l l' ∧ (e.Skips → db' = db ∧ Alongside call start l' k db)) l db

/-- The body draws at most `d` ids, and throws nothing that `drop` skips. -/
def Holds (d : Nat) (p : PatchM α) : Prop :=
  ∀ l db, wp (exactly PlanDb.exec) p (fun _ l' _ => Within d l l') (fun e l' _ => Within d l l' ∧ ¬ e.Skips) l db

variable {call start}

theorem Reads.tries {p : PatchM α} (h : Reads call start p) : Tries call start p := fun l k db hlk =>
  wp_mono (h l k db hlk) (fun _ _ _ h' => h'.2.2.mono (by omega))
    fun _ _ _ h' => ⟨h'.2.2.mono (by omega), fun _ => ⟨h'.1, h'.2.1⟩⟩

theorem Holds.tries {p : PatchM α} (h : Holds d p) (hd : d ≤ 1 := by omega) : Tries call start p :=
  fun l _ db _ => wp_mono (h l db) (fun _ _ _ h' => h'.mono hd)
    fun _ _ _ h' => ⟨h'.1.mono hd, fun hs => absurd hs h'.2⟩

theorem Reads.bind {p : PatchM β} {f : β → PatchM α} (hp : Reads call start p)
    (hf : ∀ b, Reads call start (f b)) : Reads call start (p >>= f) := by
  intro l k db h
  rw [wp_bind]
  refine wp_mono (hp l k db h) ?_ fun _ _ _ h' => h'
  rintro b l₁ _ ⟨rfl, h₁, hwithin⟩
  refine wp_mono (hf b l₁ k _ h₁) ?_ ?_ <;>
  · rintro _ l₂ _ ⟨rfl, h₂, hwithin₂⟩
    exact ⟨rfl, h₂, hwithin.trans hwithin₂⟩

theorem Reads.bind_tries {p : PatchM β} {f : β → PatchM α} (hp : Reads call start p)
    (hf : ∀ b, Tries call start (f b)) : Tries call start (p >>= f) := by
  intro l k db h
  rw [wp_bind]
  refine wp_mono (hp l k db h) ?_ fun _ _ _ h' => ⟨h'.2.2.mono (by omega), fun _ => ⟨h'.1, h'.2.1⟩⟩
  rintro b l₁ _ ⟨rfl, h₁, hwithin⟩
  refine wp_mono (hf b l₁ k _ h₁) ?_ ?_
  · intro _ l₂ _ hwithin₂
    exact (hwithin.trans hwithin₂).mono (by omega)
  · rintro e l₂ db₂ ⟨hwithin₂, hskips⟩
    exact ⟨(hwithin.trans hwithin₂).mono (by omega), hskips⟩

theorem Tries.bind_holds {p : PatchM β} {f : β → PatchM α} (hp : Tries call start p)
    (hf : ∀ b, Holds 0 (f b)) : Tries call start (p >>= f) := by
  intro l k db h
  rw [wp_bind]
  refine wp_mono (hp l k db h) ?_ fun _ _ _ h' => h'
  intro b l₁ db₁ hwithin
  refine wp_mono (hf b l₁ db₁) ?_ ?_
  · intro _ l₂ _ hwithin₂
    exact hwithin.trans hwithin₂
  · rintro e l₂ db₂ ⟨hwithin₂, hskips⟩
    exact ⟨hwithin.trans hwithin₂, fun hs => absurd hs hskips⟩

theorem Holds.bind_add {p : PatchM β} {f : β → PatchM α} (hp : Holds d p) (hf : ∀ b, Holds e (f b)) :
    Holds (d + e) (p >>= f) := by
  intro l db
  rw [wp_bind]
  refine wp_mono (hp l db) ?_ fun _ _ _ h' => ⟨h'.1.mono (by omega), h'.2⟩
  intro b l₁ db₁ hwithin
  refine wp_mono (hf b l₁ db₁) ?_ ?_
  · intro _ l₂ _ hwithin₂
    exact hwithin.trans hwithin₂
  · rintro e l₂ db₂ ⟨hwithin₂, hskips⟩
    exact ⟨hwithin.trans hwithin₂, hskips⟩

theorem Holds.bind {p : PatchM β} {f : β → PatchM α} (hp : Holds 0 p) (hf : ∀ b, Holds e (f b)) :
    Holds e (p >>= f) :=
  Nat.zero_add e ▸ hp.bind_add hf

theorem reads_pure (a : α) : Reads call start (pure a) := fun _ _ _ h => ⟨rfl, h, .refl _⟩

theorem reads_throw (e : PatchError) : Reads call start (throw e : PatchM α) := fun _ _ _ h => ⟨rfl, h, .refl _⟩

theorem reads_get : Reads call start (get : PatchM Locals) := fun _ _ _ h => ⟨rfl, h, .refl _⟩

theorem reads_query {q : Query} (hq : ∀ db r db', PlanDb.exec db q = .ok (r, db') → db' = db) :
    Reads call start (query q) := by
  intro l k db h
  refine ⟨trivial, fun r db' hexec => ?_⟩
  obtain rfl := hq db r db' hexec
  exact ⟨rfl, h, .refl _⟩

theorem holds_pure (a : α) : Holds 0 (pure a) := fun _ _ => .refl _

theorem holds_throw {e : PatchError} (he : ¬ e.Skips) : Holds 0 (throw e : PatchM α) := fun _ _ => ⟨.refl _, he⟩

theorem holds_query (q : Query) : Holds 0 (query q) := fun _ _ => ⟨trivial, fun _ _ _ => .refl _⟩

theorem holds_get : Holds 0 (get : PatchM Locals) := fun _ _ => .refl _

theorem holds_modify {f : Locals → Locals} (hf : ∀ l, Within d l (f l)) : Holds d (modify f) := fun l _ => hf l

/-! ### Reading -/

theorem loadNode_reads (id : Uuid) : Reads call start (loadNode id) := by
  intro l k db h
  rw [loadNode, wp_bind]
  refine ⟨trivial, fun r db' hexec => ?_⟩
  cases hexec
  cases hrow : db.nodes.find? id with
  | none => exact ⟨rfl, h, .refl _⟩
  | some row =>
    obtain rfl := Table.find?_key hrow
    refine ⟨rfl, h.note_left hrow, ?_⟩
    obtain ⟨notes, heq⟩ := noteVersion_eq l row.id row.version
    show Within 0 l (Locals.noteVersion l row.id row.version)
    rw [heq]
    exact .refl l

theorem resolveExisting_reads (ref : String) (opIndex : Nat) : Reads call start (resolveExisting ref opIndex) := by
  refine reads_get.bind fun l => ?_
  split
  · exact reads_throw _
  · split
    · exact reads_throw _
    · refine (loadNode_reads _).bind fun row => ?_
      cases row
      · exact reads_throw _
      · exact reads_pure _

theorem assertVersion_reads (row : NodeRow) (expected : Option Nat) (opIndex : Nat) :
    Reads call start (assertVersion row expected opIndex) := by
  refine reads_get.bind fun l => ?_
  split
  · exact reads_pure _
  · dsimp only
    split
    · exact reads_pure _
    · exact reads_throw _

theorem dependsOnEdges_iff {db : PlanDb} {rows : List (Uuid × Uuid)} {db' : PlanDb}
    (h : db.exec .dependsOnEdges = .ok (rows, db')) : db' = db ∧ ∀ x y, (x, y) ∈ rows ↔ DependsOn db x y := by
  cases h
  refine ⟨rfl, fun x y => ?_⟩
  simp only [List.mem_map, List.mem_filter, decide_eq_true_eq, Prod.mk.injEq, DependsOn]
  constructor
  · rintro ⟨e, ⟨he, hkind⟩, hx, hy⟩
    exact ⟨e, he, hkind, hx, hy⟩
  · rintro ⟨e, he, hkind, hx, hy⟩
    exact ⟨e, ⟨he, hkind⟩, hx, hy⟩

theorem dependsOnAdjacency_reads : Reads call start dependsOnAdjacency := by
  intro l k db h
  rw [dependsOnAdjacency, wp_bind, wp_get]
  split
  · exact ⟨rfl, h, .refl _⟩
  · rw [wp_bind]
    refine ⟨trivial, fun rows db' hexec => ?_⟩
    obtain ⟨rfl, hrows⟩ := dependsOnEdges_iff hexec
    refine ⟨rfl, { h with graph := fun graph hg x y => ?_ }, .refl l⟩
    cases hg
    exact hrows x y

theorem unsatisfiableDependency_reads (fromRow toRow : NodeRow) :
    Reads call start (unsatisfiableDependency fromRow toRow) := by
  rw [unsatisfiableDependency]
  split
  · exact reads_pure _
  · refine dependsOnAdjacency_reads.bind fun graph => ?_
    split
    · exact reads_throw _
    · exact reads_pure _
    · exact reads_pure _

theorem resolveParent_reads (parentRef : Option String) (opIndex : Nat) :
    Reads call start (resolveParent parentRef opIndex) := by
  cases parentRef with
  | some ref => exact (resolveExisting_reads ref opIndex).bind fun row => reads_pure _
  | none =>
    refine (reads_query fun db r db' hexec => by cases hexec; rfl).bind fun root => ?_
    cases root
    · exact reads_pure _
    · exact reads_throw _

/-! ### Writing -/

theorem nextOrdinal_holds (parentId : Option Uuid) : Holds 0 (nextOrdinal parentId) := by
  refine (holds_query _).bind fun highest => ?_
  cases highest <;> exact holds_pure _

theorem writeCodeLinks_holds (call : PatchCall) (nodeId : Uuid) (links : List PlanCodeLinkInput) :
    Holds 0 (writeCodeLinks call nodeId links) := by
  induction links with
  | nil => exact holds_pure _
  | cons link rest ih =>
    refine (holds_query _).bind fun existing => ?_
    cases existing <;>
    · refine (holds_query _).bind fun _ => ?_
      exact Holds.bind (holds_modify fun l => .refl l) fun _ => ih

theorem createNode_tries (op : UpsertOp) (opIndex : Nat) : Tries call start (createNode call op opIndex) := by
  rw [createNode]
  dsimp only
  split
  · exact (reads_throw _).tries
  · split
    · exact (reads_throw _).tries
    · refine (resolveParent_reads _ opIndex).bind_tries fun parent => ?_
      refine Holds.tries (d := 1) (holds_get.bind fun l => ?_)
      refine Holds.bind_add (d := 1) (e := 0) (holds_modify ?_) fun _ => ?_
      · intro l
        exact ⟨rfl, Nat.le_refl (l.generated + 1)⟩
      have hinsert : ∀ ordinal, Holds 0 (do
          query (.insertNode (newRow call op (op.title.getD "") (call.randomUUID l.generated) parent ordinal))
          modify fun k =>
            { k with
              refs := (op.nodeRef, call.randomUUID l.generated) :: k.refs
              result := { k.result with created := k.result.created ++ [call.randomUUID l.generated] } }
          writeCodeLinks call (call.randomUUID l.generated) op.codeLinks) := fun ordinal =>
        (holds_query _).bind fun _ => Holds.bind (holds_modify fun l => .refl l) fun _ => writeCodeLinks_holds call _ _
      split
      · exact (holds_pure _).bind hinsert
      · exact (nextOrdinal_holds _).bind hinsert

theorem moveNode_holds (row newParent : NodeRow) (set : NodeSet) (opIndex : Nat) :
    Holds 0 (moveNode call row newParent set opIndex) := by
  rw [moveNode]
  split
  · exact holds_throw id
  · dsimp only
    split
    · exact (holds_pure _).bind fun ordinal => (holds_query _).bind fun _ => holds_pure _
    · exact (nextOrdinal_holds _).bind fun ordinal => (holds_query _).bind fun _ => holds_pure _

theorem placeNode_tries (op : UpsertOp) (row : NodeRow) (set : NodeSet) (opIndex : Nat) :
    Tries call start (placeNode call op row set opIndex) := by
  rw [placeNode]
  split
  · exact (reads_pure _).tries
  · split
    · exact (reads_pure _).tries
    · exact (reads_throw _).tries
  · refine (resolveExisting_reads _ opIndex).bind_tries fun newParent => ?_
    split
    · exact (reads_pure _).tries
    · exact (moveNode_holds row newParent set opIndex).tries

theorem updateNode_tries (op : UpsertOp) (row : NodeRow) (opIndex : Nat) :
    Tries call start (updateNode call op row opIndex) := by
  rw [updateNode]
  split
  · exact (reads_throw _).tries
  · refine (assertVersion_reads row _ opIndex).bind_tries fun _ => ?_
    refine (placeNode_tries op row _ opIndex).bind_holds fun set => ?_
    refine (holds_query _).bind fun _ => ?_
    exact Holds.bind (holds_modify fun l => .refl l) fun _ => writeCodeLinks_holds call _ _

theorem applyUpsert_tries (op : UpsertOp) (opIndex : Nat) : Tries call start (applyUpsert call op opIndex) := by
  refine reads_get.bind_tries fun l => ?_
  split
  · exact createNode_tries op opIndex
  · dsimp only
    split
    · refine (reads_pure _).bind_tries fun existing => ?_
      cases existing
      · exact (reads_throw _).tries
      · exact updateNode_tries op _ opIndex
    · refine (loadNode_reads _).bind_tries fun existing => ?_
      cases existing
      · exact (reads_throw _).tries
      · exact updateNode_tries op _ opIndex

theorem applyDelete_tries (nodeRef : String) (expectedVersion : Option Nat) (opIndex : Nat) :
    Tries call start (applyDelete call nodeRef expectedVersion opIndex) := by
  refine (resolveExisting_reads nodeRef opIndex).bind_tries fun row => ?_
  split
  · exact (reads_throw _).tries
  · refine (assertVersion_reads row expectedVersion opIndex).bind_tries fun _ => ?_
    refine (reads_query fun db r db' hexec => by cases hexec; rfl).bind_tries fun doomed => ?_
    split
    · exact (reads_throw _).tries
    · exact (Holds.bind (holds_query _) fun _ => holds_modify fun l => .refl l).tries

theorem insertLink_holds (fromId toId : Uuid) (kind : PlanEdgeKind) (note : Option String) :
    Holds 0 (insertLink fromId toId kind note) :=
  Holds.bind (holds_query _) fun _ => holds_modify fun l => .refl l

theorem applyUnlink_tries (fromRef toRef : String) (kind : PlanEdgeKind) (opIndex : Nat) :
    Tries call start (applyUnlink fromRef toRef kind opIndex) := by
  refine (resolveExisting_reads fromRef opIndex).bind_tries fun fromRow => ?_
  refine (resolveExisting_reads toRef opIndex).bind_tries fun toRow => ?_
  exact (Holds.bind (holds_query _) fun _ => holds_modify fun l => .refl l).tries

/-- An op that returns was applied, or dropped without a trace. -/
def TurnReturns (call : PatchCall) (start : PlanDb) (l k : Locals) (db : PlanDb) (l' : Locals) (db' : PlanDb) :
    Prop :=
  l'.generated ≤ l.generated + 1 ∧
    (l'.result.dropped = l.result.dropped ∨
      ((∃ message, l'.result.dropped = l.result.dropped ++ [message]) ∧ db' = db ∧ Alongside call start l' k db))

/-- An op that throws what `drop` skips left no trace. -/
def TurnThrows (call : PatchCall) (start : PlanDb) (l k : Locals) (db : PlanDb) (e : PatchError) (l' : Locals)
    (db' : PlanDb) : Prop :=
  Within 1 l l' ∧ (e.Skips → db' = db ∧ Alongside call start l' k db)

theorem applyLink_turn (fromRef toRef : String) (kind : PlanEdgeKind) (note : Option String) (opIndex : Nat)
    {l k : Locals} {db : PlanDb} (h : Alongside call start l k db) :
    wp (exactly PlanDb.exec) (applyLink call fromRef toRef kind note opIndex)
      (fun _ => TurnReturns call start l k db) (TurnThrows call start l k db) l db := by
  rw [applyLink, wp_bind]
  refine wp_mono (resolveExisting_reads fromRef opIndex l k db h) ?_
    fun _ _ _ h' => ⟨h'.2.2.mono (by omega), fun _ => ⟨h'.1, h'.2.1⟩⟩
  rintro fromRow l₁ db₁ ⟨rfl, h₁, hwithin₁⟩
  rw [wp_bind]
  refine wp_mono (resolveExisting_reads toRef opIndex l₁ k _ h₁) ?_
    fun _ _ _ h' => ⟨(hwithin₁.trans h'.2.2).mono (by omega), fun _ => ⟨h'.1, h'.2.1⟩⟩
  rintro toRow l₂ db₂ ⟨rfl, h₂, hwithin₂⟩
  have hinsert : ∀ l' : Locals, Within 0 l l' → wp (exactly PlanDb.exec) (insertLink fromRow.id toRow.id kind note)
      (fun _ => TurnReturns call start l k db₂) (TurnThrows call start l k db₂) l' db₂ := by
    intro l' hl'
    refine wp_mono (insertLink_holds fromRow.id toRow.id kind note l' _) ?_ ?_
    · intro _ l'' _ h''
      have hwithin := (hl'.trans h'').mono (Nat.zero_le 1)
      exact ⟨hwithin.2, .inl hwithin.1⟩
    · rintro e l'' _ ⟨h'', hskips⟩
      exact ⟨(hl'.trans h'').mono (Nat.zero_le 1), fun hs => absurd hs hskips⟩
  have hwithin := hwithin₁.trans hwithin₂
  split
  · exact ⟨hwithin.mono (by omega), fun hs => hs.elim⟩
  · split
    · rw [wp_bind]
      refine wp_mono (unsatisfiableDependency_reads fromRow toRow l₂ k _ h₂) ?_
        fun _ _ _ h' => ⟨(hwithin.trans h'.2.2).mono (by omega), fun _ => ⟨h'.1, h'.2.1⟩⟩
      rintro refusal l₃ db₃ ⟨hdb, h₃, hwithin₃⟩
      have hwithin := hwithin.trans hwithin₃
      cases refusal with
      | some refusal =>
        dsimp only
        split
        · refine ⟨(hwithin.mono (Nat.zero_le 1)).2, .inr ⟨⟨s!"link dropped: {refusal}", ?_⟩, hdb, { h₃ with }⟩⟩
          rw [← hwithin.1]
        · exact ⟨hwithin.mono (by omega), fun hs => hs.elim⟩
      | none =>
        subst hdb
        rw [wp_bind]
        exact hinsert _ hwithin
    · exact hinsert l₂ hwithin

theorem applyOp_turn (op : PlanPatchOp) (opIndex : Nat) {l k : Locals} {db : PlanDb}
    (h : Alongside call start l k db) :
    wp (exactly PlanDb.exec) (applyOp call op opIndex)
      (fun _ => TurnReturns call start l k db) (TurnThrows call start l k db) l db := by
  have htries : ∀ {p : PatchM Unit}, Tries call start p → wp (exactly PlanDb.exec) p
      (fun _ => TurnReturns call start l k db) (TurnThrows call start l k db) l db :=
    fun hp => wp_mono (hp l k db h) (fun _ _ _ h' => ⟨h'.2, .inl h'.1⟩) fun _ _ _ h' => h'
  cases op with
  | upsert op => exact htries (applyUpsert_tries op opIndex)
  | delete nodeRef expectedVersion => exact htries (applyDelete_tries nodeRef expectedVersion opIndex)
  | link fromRef toRef kind note => exact applyLink_turn fromRef toRef kind note opIndex h
  | unlink fromRef toRef kind => exact htries (applyUnlink_tries fromRef toRef kind opIndex)

end

/-! ## A kept op does the same in both runs -/

/-- Both runs have read, and the remaining one has forgotten no version. -/
structure ReadOn (call : PatchCall) (start : PlanDb) (k : Locals) (db : PlanDb) (l' k' : Locals) (db' : PlanDb) :
    Prop where
  tables : db' = db
  alongside : Alongside call start l' k' db
  keeps : ∀ id, (k.versionAtStart.lookup id).isSome → (k'.versionAtStart.lookup id).isSome

/-- The row is the current one, and the remaining run has noted its version. -/
structure Fetched (k : Locals) (db : PlanDb) (row : NodeRow) : Prop where
  current : ∃ r, db.nodes.find? row.id = some r ∧ r.toNodeRow = row
  noted : (k.versionAtStart.lookup row.id).isSome

section
variable {call : PatchCall} {start db : PlanDb} {l k k' : Locals} {row : NodeRow}

theorem loadNode_follows (h : Alongside call start l k db) (id : Uuid) :
    Script.Follows PlanDb.exec (loadNode id) (loadNode id) (fun row l' k' db' => ReadOn call start k db l' k' db' ∧
      ∀ r ∈ row, Fetched k' db r) l k db := by
  rw [loadNode]
  refine follows_bind (M := fun row l' k' db' => l' = l ∧ k' = k ∧ db' = db ∧
    row = (db.nodes.find? id).map (·.toNodeRow)) (follows_ask fun row db' hexec => ?_) ?_
  · cases hexec
    exact ⟨rfl, rfl, rfl, rfl⟩
  · rintro row l₁ k₁ db₁ ⟨rfl, rfl, rfl, rfl⟩
    cases hrow : db₁.nodes.find? id with
    | none => exact follows_pure ⟨⟨rfl, h, fun _ hid => hid⟩, fun r hr => by cases hr⟩
    | some r =>
      obtain rfl := Table.find?_key hrow
      refine follows_bind (follows_modify (P := fun _ l' k' db' =>
        l' = Locals.noteVersion l₁ r.id r.version ∧ k' = Locals.noteVersion k₁ r.id r.version ∧ db' = db₁)
        ⟨rfl, rfl, rfl⟩) ?_
      rintro _ l₂ k₂ db₂ ⟨rfl, rfl, rfl⟩
      have hkeeps : ∀ id, (k₁.versionAtStart.lookup id).isSome →
          ((Locals.noteVersion k₁ r.id r.version).versionAtStart.lookup id).isSome := by
        intro id hid
        rw [noteVersion_lookup]
        split
        · rfl
        · exact hid
      refine follows_pure ⟨⟨rfl, h.note hrow, hkeeps⟩, fun r' hr' => ?_⟩
      cases hr'
      refine ⟨⟨r, hrow, rfl⟩, ?_⟩
      rw [noteVersion_lookup, PlanNodeRow.toNodeRow_id, if_pos rfl]
      rfl

theorem resolveExisting_follows (h : Alongside call start l k db) (ref : String) (i j : Nat) :
    Script.Follows PlanDb.exec (resolveExisting ref i) (resolveExisting ref j) (fun row l' k' db' =>
      ReadOn call start k db l' k' db' ∧ Fetched k' db row) l k db := by
  rw [resolveExisting, resolveExisting]
  refine follows_get ?_
  have hcandidate : Locals.candidate k ref = Locals.candidate l ref := by
    rw [Locals.candidate, Locals.candidate, h.refs]
  have hdead : Locals.isDead k = Locals.isDead l := by
    funext text
    rw [Locals.isDead, Locals.isDead, h.dead]
  rw [hcandidate, hdead]
  split
  · exact follows_throw _
  · next text id _ =>
    by_cases hgone : Locals.isDead l text = true
    · rw [if_pos hgone]
      exact follows_throw _
    · rw [if_neg hgone, if_neg hgone]
      refine follows_bind (loadNode_follows h id) ?_
      rintro row l₁ k₁ db₁ ⟨hread, hfetched⟩
      cases row with
      | none => exact follows_throw _
      | some row => exact follows_pure ⟨by cases hread.tables; exact hread, hfetched row rfl⟩

theorem assertVersion_follows (h : Alongside call start l k db) (hrow : Fetched k db row) (expected : Option Nat)
    (i j : Nat) :
    Script.Follows PlanDb.exec (assertVersion row expected i) (assertVersion row expected j) (fun _ l' k' db' =>
      l' = l ∧ k' = k ∧ db' = db) l k db := by
  rw [assertVersion, assertVersion]
  refine follows_get ?_
  cases expected with
  | none => exact follows_pure ⟨rfl, rfl, rfl⟩
  | some version =>
    obtain ⟨v, hv⟩ := Option.isSome_iff_exists.mp hrow.noted
    have hbegan : Locals.began k row = Locals.began l row := by
      rw [Locals.began, Locals.began, hv, h.noted _ v hv]
    dsimp only
    rw [hbegan, h.own]
    split
    · exact follows_pure ⟨rfl, rfl, rfl⟩
    · exact follows_throw _

/-! ### The dependency search -/

theorem mem_enqueue {next seen queue : List Uuid} {x : Uuid} (h : x ∈ (enqueue next (seen, queue)).2) :
    x ∈ queue ∨ x ∈ next := by
  induction next generalizing seen queue with
  | nil => exact .inl h
  | cons n next ih =>
    rw [enqueue] at h
    split at h
    · exact (ih h).imp_right (List.mem_cons_of_mem _)
    · rcases ih h with h | h
      · rcases List.mem_append.mp h with h | h
        · exact .inl h
        · exact .inr (List.mem_cons.mpr (.inl (List.mem_singleton.mp h)))
      · exact .inr (List.mem_cons_of_mem _ h)

theorem reaches_true {graph : List (Uuid × Uuid)} {target : Uuid} {fuel : Nat} {seen queue : List Uuid}
    (h : reaches graph target fuel seen queue = some true) :
    ∃ x ∈ queue, Relation.ReflTransGen (fun x y => (x, y) ∈ graph) x target := by
  induction fuel generalizing seen queue with
  | zero => cases queue <;> cases h
  | succ fuel ih =>
    cases queue with
    | nil => cases h
    | cons current queue =>
      rw [reaches] at h
      split at h
      · next heq => exact ⟨current, List.mem_cons_self, heq ▸ .refl⟩
      · obtain ⟨x, hx, hpath⟩ := ih h
        rcases mem_enqueue hx with hx | hx
        · exact ⟨x, List.mem_cons_of_mem _ hx, hpath⟩
        · exact ⟨current, List.mem_cons_self, .head (mem_successors.mp hx) hpath⟩

/-- The search depends on the edges of the graph only. -/
theorem reaches_congr {graph graph' : List (Uuid × Uuid)} (h : ∀ x y, (x, y) ∈ graph ↔ (x, y) ∈ graph')
    (fromId toId : Uuid) :
    reaches graph fromId (graph.length + 2) [toId] [toId] =
      reaches graph' fromId (graph'.length + 2) [toId] [toId] := by
  have hiff : ∀ graph : List (Uuid × Uuid), ∀ found,
      reaches graph fromId (graph.length + 2) [toId] [toId] = some found →
      (found = true ↔ Relation.ReflTransGen (fun x y => (x, y) ∈ graph) toId fromId) := by
    intro graph found hfound
    cases found with
    | false => exact iff_of_false Bool.false_ne_true (not_reaches hfound)
    | true =>
      obtain ⟨x, hx, hpath⟩ := reaches_true hfound
      exact iff_of_true rfl (List.mem_singleton.mp hx ▸ hpath)
  obtain ⟨found, hfound⟩ := reaches_total graph fromId toId
  obtain ⟨found', hfound'⟩ := reaches_total graph' fromId toId
  have hsame : (fun x y => (x, y) ∈ graph) = fun x y => (x, y) ∈ graph' := funext₂ fun x y => propext (h x y)
  have heq := (hiff graph found hfound).trans (hsame ▸ (hiff graph' found' hfound').symm)
  rw [hfound, hfound', Bool.eq_iff_iff.mpr heq]

/-- Loading the graph changes nothing but the cache. -/
theorem dependsOnAdjacency_ends (h : GraphCurrent l db) :
    ∃ graph, Ends PlanDb.exec dependsOnAdjacency l db (.ok graph) { l with dependsOnGraph := some graph } db ∧
      ∀ x y, (x, y) ∈ graph ↔ DependsOn db x y := by
  rw [dependsOnAdjacency]
  cases hg : l.dependsOnGraph with
  | some graph =>
    refine ⟨graph, ends_bind.mpr (.inl ⟨l, l, db, ends_get.mpr ⟨rfl, rfl, rfl⟩, ?_⟩), h graph hg⟩
    rw [hg]
    exact ends_pure.mpr ⟨rfl, by rw [← hg], rfl⟩
  | none =>
    obtain ⟨rows, db', hexec⟩ : ∃ rows db', db.exec .dependsOnEdges = .ok (rows, db') := ⟨_, _, rfl⟩
    obtain ⟨rfl, hrows⟩ := dependsOnEdges_iff hexec
    refine ⟨rows, ends_bind.mpr (.inl ⟨l, l, _, ends_get.mpr ⟨rfl, rfl, rfl⟩, ?_⟩), hrows⟩
    rw [hg]
    refine ends_bind.mpr (.inl ⟨rows, l, _, ends_ask.mpr ⟨rows, rfl, rfl, hexec⟩, ?_⟩)
    exact ends_bind.mpr (.inl ⟨(), _, _, ends_modify.mpr ⟨rfl, rfl, rfl⟩, ends_pure.mpr ⟨rfl, rfl, rfl⟩⟩)

theorem unsatisfiableDependency_follows (h : Alongside call start l k db) (fromRow toRow : NodeRow) :
    Script.Follows PlanDb.exec (unsatisfiableDependency fromRow toRow) (unsatisfiableDependency fromRow toRow)
      (fun _ l' k' db' => ReadOn call start k db l' k' db') l k db := by
  rw [unsatisfiableDependency]
  split
  · exact follows_pure ⟨rfl, h, fun _ hid => hid⟩
  · intro refusal l' db' hends
    obtain ⟨graph, hgraph, hedges⟩ := dependsOnAdjacency_ends h.graph
    obtain ⟨graph', hgraph', hedges'⟩ := dependsOnAdjacency_ends h.graph'
    refine ⟨{ k with dependsOnGraph := some graph' }, ?_⟩
    rcases ends_bind.mp hends with ⟨g, l₁, db₁, hl, hrest⟩ | ⟨e, he, _⟩
    · cases hgraph.symm.trans hl
      have hread : ReadOn call start k db { l with dependsOnGraph := some graph }
          { k with dependsOnGraph := some graph' } db := by
        refine ⟨rfl, { h with graph := fun g hg => ?_, graph' := fun g hg => ?_ }, fun _ hid => hid⟩
        · cases hg
          exact hedges
        · cases hg
          exact hedges'
      rw [reaches_congr (fun x y => (hedges x y).trans (hedges' x y).symm)] at hrest
      cases hreach : reaches graph' fromRow.id (graph'.length + 2) [toRow.id] [toRow.id] with
      | none =>
        rw [hreach] at hrest
        cases (ends_throw.mp hrest).1
      | some found =>
        rw [hreach] at hrest
        cases found with
        | true =>
          obtain ⟨hr, rfl, rfl⟩ := ends_pure.mp hrest
          cases hr
          refine ⟨ends_bind.mpr (.inl ⟨graph', _, _, hgraph', ?_⟩), hread⟩
          rw [hreach]
          exact ends_pure.mpr ⟨rfl, rfl, rfl⟩
        | false =>
          obtain ⟨hr, rfl, rfl⟩ := ends_pure.mp hrest
          cases hr
          refine ⟨ends_bind.mpr (.inl ⟨graph', _, _, hgraph', ?_⟩), hread⟩
          rw [hreach]
          exact ends_pure.mpr ⟨rfl, rfl, rfl⟩
    · cases he

/-! ### Statements -/

/-- A statement that inserts no node, touches no edge and updates only a node that the remaining run has
loaded. -/
def Modest (k : Locals) : Query → Prop
  | .insertNode _ | .insertEdge _ | .deleteEdge _ | .deleteNode _ => False
  | .updateNode id _ _ => (k.versionAtStart.lookup id).isSome
  | _ => True

theorem Alongside.exec (h : Alongside call start l k db) {q : Query} {r : q.Reply} {db' : PlanDb}
    (hexec : db.exec q = .ok (r, db')) (hq : Modest k q) : Alongside call start l k db' := by
  have hedges := PlanDb.edges_exec hexec (fun e he => by rw [he] at hq; exact hq)
    (fun key he => by rw [he] at hq; exact hq) (fun id he => by rw [he] at hq; exact hq)
  refine h.of_tables (fun id v r' _ hk hr' => ?_) (fun id hid => ?_) (h.graph.congr hedges) (h.graph'.congr hedges)
  · refine PlanDb.version_exec hexec (fun row he => ?_) (fun set v he => ?_) hr'
    · rw [he] at hq
      exact hq.elim
    · rw [he, Modest, hk] at hq
      cases hq
  · rcases PlanDb.keys_exec hexec hid with hid | ⟨row, he, _⟩
    · exact h.seenNode id hid
    · rw [he] at hq
      exact hq.elim

theorem query_follows (l k : Locals) (db : PlanDb) (q : Query) :
    Script.Follows PlanDb.exec (query q) (query q)
      (fun r l' k' db' => l' = l ∧ k' = k ∧ db.exec q = .ok (r, db')) l k db :=
  follows_ask fun _ _ hexec => ⟨rfl, rfl, hexec⟩

theorem nextOrdinal_follows (l k : Locals) (db : PlanDb) (parentId : Option Uuid) :
    Script.Follows PlanDb.exec (nextOrdinal parentId) (nextOrdinal parentId)
      (fun _ l' k' db' => l' = l ∧ k' = k ∧ db' = db) l k db := by
  refine follows_bind (query_follows l k db (.maxOrdinal parentId)) ?_
  rintro highest _ _ db' ⟨rfl, rfl, hexec⟩
  obtain rfl : db' = db := by cases hexec; rfl
  cases highest <;> exact follows_pure ⟨rfl, rfl, rfl⟩

theorem writeCodeLinks_follows (ops : List PlanPatchOp) (h : Alongside call start l k db) (nodeId : Uuid)
    (links : List PlanCodeLinkInput) :
    Script.Follows PlanDb.exec (writeCodeLinks call nodeId links) (writeCodeLinks (call.failing ops) nodeId links)
      (fun _ l' k' db' => Alongside call start l' k' db') l k db := by
  induction links generalizing l k db with
  | nil => exact follows_pure h
  | cons link rest ih =>
    have hcount : ∀ {l k : Locals} {db : PlanDb}, Alongside call start l k db →
        Script.Follows PlanDb.exec
          (do modify fun l => { l with result := { l.result with codeLinked := l.result.codeLinked + 1 } }
              writeCodeLinks call nodeId rest)
          (do modify fun l => { l with result := { l.result with codeLinked := l.result.codeLinked + 1 } }
              writeCodeLinks (call.failing ops) nodeId rest)
          (fun _ l' k' db' => Alongside call start l' k' db') l k db := by
      intro l k db h
      refine follows_bind (follows_modify (P := fun _ l' k' db' => Alongside call start l' k' db')
        { h with result := by simp [h.result] }) ?_
      intro _ l' k' db' h'
      exact ih h'
    refine follows_bind (query_follows l k db _) ?_
    rintro existing _ _ db₁ ⟨rfl, rfl, hexec⟩
    have h := h.exec hexec trivial
    cases existing with
    | none =>
      refine follows_bind (query_follows _ _ _ _) ?_
      rintro _ _ _ db₂ ⟨rfl, rfl, hexec⟩
      exact hcount (h.exec hexec trivial)
    | some key =>
      refine follows_bind (query_follows _ _ _ _) ?_
      rintro _ _ _ db₂ ⟨rfl, rfl, hexec⟩
      exact hcount (h.exec hexec trivial)

theorem moveNode_follows (ops : List PlanPatchOp) (h : Alongside call start l k db) (row newParent : NodeRow)
    (set : NodeSet) (i j : Nat) :
    Script.Follows PlanDb.exec (moveNode call row newParent set i) (moveNode (call.failing ops) row newParent set j)
      (fun _ l' k' db' => l' = l ∧ k' = k ∧ Alongside call start l k db') l k db := by
  rw [moveNode, moveNode]
  split
  · exact follows_throw _
  · dsimp only
    split
    · refine follows_bind (follows_pure (P := fun _ l' k' db' => l' = l ∧ k' = k ∧ db' = db) ⟨rfl, rfl, rfl⟩) ?_
      rintro ordinal _ _ _ ⟨rfl, rfl, rfl⟩
      refine follows_bind (query_follows _ _ _ _) ?_
      rintro _ _ _ db₂ ⟨rfl, rfl, hexec⟩
      exact follows_pure ⟨rfl, rfl, h.exec hexec trivial⟩
    · refine follows_bind (nextOrdinal_follows l k db _) ?_
      rintro ordinal _ _ _ ⟨rfl, rfl, rfl⟩
      refine follows_bind (query_follows _ _ _ _) ?_
      rintro _ _ _ db₂ ⟨rfl, rfl, hexec⟩
      exact follows_pure ⟨rfl, rfl, h.exec hexec trivial⟩

theorem placeNode_follows (ops : List PlanPatchOp) (h : Alongside call start l k db) (op : UpsertOp) (row : NodeRow)
    (set : NodeSet) (i j : Nat) :
    Script.Follows PlanDb.exec (placeNode call op row set i) (placeNode (call.failing ops) op row set j)
      (fun _ l' k' db' => Alongside call start l' k' db' ∧
        ∀ id, (k.versionAtStart.lookup id).isSome → (k'.versionAtStart.lookup id).isSome) l k db := by
  rw [placeNode, placeNode]
  split
  · exact follows_pure ⟨h, fun _ hid => hid⟩
  · split
    · exact follows_pure ⟨h, fun _ hid => hid⟩
    · exact follows_throw _
  · refine follows_bind (resolveExisting_follows h _ i j) ?_
    rintro newParent l₁ k₁ db₁ ⟨⟨rfl, h₁, hkeeps⟩, _⟩
    split
    · exact follows_pure ⟨h₁, hkeeps⟩
    · refine (moveNode_follows ops h₁ row newParent set i j).mono ?_
      rintro _ _ _ db₂ ⟨rfl, rfl, h₂⟩
      exact ⟨h₂, hkeeps⟩

theorem updateNode_follows (ops : List PlanPatchOp) (h : Alongside call start l k db) (hrow : Fetched k db row)
    (op : UpsertOp) (i j : Nat) :
    Script.Follows PlanDb.exec (updateNode call op row i) (updateNode (call.failing ops) op row j)
      (fun _ l' k' db' => Alongside call start l' k' db') l k db := by
  rw [updateNode, updateNode]
  split
  · exact follows_throw _
  · next hasserted =>
    have hasserted' : ¬ ((call.failing ops).opts.requireExpectedVersion && writesFields op &&
      op.expectedVersion.isNone) = true := hasserted
    rw [if_neg hasserted']
    refine follows_bind (assertVersion_follows h hrow _ i j) ?_
    rintro _ _ _ _ ⟨rfl, rfl, rfl⟩
    refine follows_bind (placeNode_follows ops h op row _ i j) ?_
    rintro set l₁ k₁ db₁ ⟨h₁, hkeeps⟩
    refine follows_bind (query_follows l₁ k₁ db₁ _) ?_
    rintro _ _ _ db₂ ⟨rfl, rfl, hexec⟩
    have h₂ := h₁.exec hexec (hkeeps row.id hrow.noted)
    refine follows_bind (follows_modify (P := fun _ l' k' db' => Alongside call start l' k' db')
      { h₂ with refs := by simp [h₂.refs], own := by simp [h₂.own], result := by simp [h₂.result] }) ?_
    intro _ l₃ k₃ db₃ h₃
    exact writeCodeLinks_follows ops h₃ row.id op.codeLinks

/-! ### Creating a node -/

theorem resolveParent_follows (h : Alongside call start l k db) (parentRef : Option String) (i j : Nat) :
    Script.Follows PlanDb.exec (resolveParent parentRef i) (resolveParent parentRef j)
      (fun _ l' k' db' => Alongside call start l' k' db') l k db := by
  cases parentRef with
  | some ref =>
    refine follows_bind (resolveExisting_follows h ref i j) ?_
    rintro row l₁ k₁ db₁ ⟨⟨rfl, h₁, _⟩, _⟩
    exact follows_pure h₁
  | none =>
    refine follows_bind (query_follows l k db .findRoot) ?_
    rintro root _ _ db₁ ⟨rfl, rfl, hexec⟩
    have h := h.exec hexec trivial
    cases root with
    | none => exact follows_pure h
    | some _ => exact follows_throw _

theorem Seen.not_next (hfresh : call.DrawsFresh start) (hroom : l.generated < call.ops.length) {id : Uuid}
    (h : Seen call start l id) : id ≠ call.randomUUID l.generated := by
  rintro rfl
  rcases h with hstart | ⟨n, hn, heq⟩
  · exact hfresh.new _ hroom hstart
  · exact absurd (hfresh.injective _ hroom n (by omega) heq) (by omega)

theorem Seen.mono {l' : Locals} (hle : l.generated ≤ l'.generated) {id : Uuid} (h : Seen call start l id) :
    Seen call start l' id :=
  h.imp_right fun ⟨n, hn, heq⟩ => ⟨n, by omega, heq⟩

/-- Both runs draw the same new id. -/
theorem Alongside.draw (h : Alongside call start l k db) :
    Alongside call start { l with generated := l.generated + 1 } { k with generated := k.generated + 1 } db :=
  { h with
    generated := congrArg (· + 1) h.generated
    seenNote := fun id v hv => (h.seenNote id v hv).mono (Nat.le_succ _)
    seenNode := fun id hid => (h.seenNode id hid).mono (Nat.le_succ _) }

theorem Alongside.insertNode (h : Alongside call start l k db) {new : PlanNodeRow} {db' : PlanDb}
    (hnew : ∀ v, l.versionAtStart.lookup new.id ≠ some v) (hseen : Seen call start l new.id)
    {r : Unit} (hexec : db.exec (.insertNode new) = .ok (r, db')) : Alongside call start l k db' := by
  have hedges := PlanDb.edges_exec hexec (by simp) (by simp) (by simp)
  refine h.of_tables (fun id v r' hl _ hr' => ?_) (fun id hid => ?_) (h.graph.congr hedges) (h.graph'.congr hedges)
  · refine PlanDb.version_exec hexec (fun row hq hid => ?_) (by simp) hr'
    cases hq
    exact hnew v (hid ▸ hl)
  · rcases PlanDb.keys_exec hexec hid with hid | ⟨row, hq, rfl⟩
    · exact h.seenNode id hid
    · cases hq
      exact hseen

theorem createNode_follows (hfresh : call.DrawsFresh start) (ops : List PlanPatchOp)
    (h : Alongside call start l k db) (hroom : l.generated < call.ops.length) (op : UpsertOp) (i j : Nat) :
    Script.Follows PlanDb.exec (createNode call op i) (createNode (call.failing ops) op j)
      (fun _ l' k' db' => Alongside call start l' k' db') l k db := by
  rw [createNode, createNode]
  dsimp only
  split
  · exact follows_throw _
  · split
    · exact follows_throw _
    · refine follows_bind ((resolveParent_follows h _ i j).and_wp (resolveParent_reads _ i l k db h)) ?_
      rintro parent l₁ k₁ db₁ ⟨h₁, _, _, _, hdrawn⟩
      have hroom₁ : l₁.generated < call.ops.length := by omega
      refine follows_get ?_
      rw [h₁.generated]
      have hnew : ∀ v, l₁.versionAtStart.lookup (call.randomUUID l₁.generated) ≠ some v :=
        fun v hv => (h₁.seenNote _ v hv).not_next hfresh hroom₁ rfl
      have hinsert : ∀ (ordinal : Nat) {l k : Locals}, Alongside call start l k db₁ →
          (∀ v, l.versionAtStart.lookup (call.randomUUID l₁.generated) ≠ some v) →
          Seen call start l (call.randomUUID l₁.generated) →
          Script.Follows PlanDb.exec
            (do query (.insertNode (newRow call op (op.title.getD "") (call.randomUUID l₁.generated) parent ordinal))
                modify fun l =>
                  { l with
                    refs := (op.nodeRef, call.randomUUID l₁.generated) :: l.refs
                    result := { l.result with created := l.result.created ++ [call.randomUUID l₁.generated] } }
                writeCodeLinks call (call.randomUUID l₁.generated) op.codeLinks)
            (do query (.insertNode (newRow call op (op.title.getD "") (call.randomUUID l₁.generated) parent ordinal))
                modify fun l =>
                  { l with
                    refs := (op.nodeRef, call.randomUUID l₁.generated) :: l.refs
                    result := { l.result with created := l.result.created ++ [call.randomUUID l₁.generated] } }
                writeCodeLinks (call.failing ops) (call.randomUUID l₁.generated) op.codeLinks)
            (fun _ l' k' db' => Alongside call start l' k' db') l k db₁ := by
        intro ordinal l k h hnew hseen
        refine follows_bind (query_follows l k db₁ _) ?_
        rintro _ _ _ db₂ ⟨rfl, rfl, hexec⟩
        have h₂ := h.insertNode hnew hseen hexec
        refine follows_bind (follows_modify (P := fun _ l' k' db' => Alongside call start l' k' db')
          { h₂ with refs := by simp [h₂.refs], result := by simp [h₂.result] }) ?_
        intro _ l₃ k₃ db₃ h₃
        exact writeCodeLinks_follows ops h₃ _ op.codeLinks
      refine follows_bind (follows_modify (P := fun _ l' k' db' => Alongside call start l' k' db' ∧ db' = db₁ ∧
        l' = { l₁ with generated := l₁.generated + 1 }) ⟨h₁.draw, rfl, rfl⟩) ?_
      rintro _ l₂ k₂ db₂ ⟨h₂, hdb, rfl⟩
      rw [hdb] at h₂ ⊢
      have hseen : Seen call start { l₁ with generated := l₁.generated + 1 } (call.randomUUID l₁.generated) :=
        .inr ⟨l₁.generated, Nat.lt_succ_self _, rfl⟩
      split
      · refine follows_bind (follows_pure (P := fun _ l' k' db' => l' = { l₁ with generated := l₁.generated + 1 } ∧
          k' = k₂ ∧ db' = db₁) ⟨rfl, rfl, rfl⟩) ?_
        rintro ordinal _ _ _ ⟨rfl, rfl, rfl⟩
        exact hinsert ordinal h₂ hnew hseen
      · refine follows_bind (nextOrdinal_follows _ _ _ _) ?_
        rintro ordinal _ _ _ ⟨rfl, rfl, rfl⟩
        exact hinsert ordinal h₂ hnew hseen

/-! ### One op -/

theorem applyUpsert_follows (hfresh : call.DrawsFresh start) (ops : List PlanPatchOp)
    (h : Alongside call start l k db) (hroom : l.generated < call.ops.length) (op : UpsertOp) (i j : Nat) :
    Script.Follows PlanDb.exec (applyUpsert call op i) (applyUpsert (call.failing ops) op j)
      (fun _ l' k' db' => Alongside call start l' k' db') l k db := by
  rw [applyUpsert, applyUpsert]
  refine follows_get ?_
  have hcandidate : Locals.candidate k op.nodeRef = Locals.candidate l op.nodeRef := by
    rw [Locals.candidate, Locals.candidate, h.refs]
  have hdead : Locals.isDead k = Locals.isDead l := by
    funext text
    rw [Locals.isDead, Locals.isDead, h.dead]
  rw [hcandidate, hdead]
  split
  · exact createNode_follows hfresh ops h hroom op i j
  · next text id _ =>
    dsimp only
    split
    · refine follows_bind (follows_pure (P := fun row l' k' db' => row = none ∧ l' = l ∧ k' = k ∧ db' = db)
        ⟨rfl, rfl, rfl, rfl⟩) ?_
      rintro row _ _ _ ⟨rfl, rfl, rfl, rfl⟩
      exact follows_throw _
    · refine follows_bind (loadNode_follows h id) ?_
      rintro row l₁ k₁ db₁ ⟨⟨rfl, h₁, _⟩, hfetched⟩
      cases row with
      | none => exact follows_throw _
      | some row => exact updateNode_follows ops h₁ (hfetched row rfl) op i j

theorem applyDelete_follows (ops : List PlanPatchOp) (h : Alongside call start l k db) (nodeRef : String)
    (expectedVersion : Option Nat) (i j : Nat) :
    Script.Follows PlanDb.exec (applyDelete call nodeRef expectedVersion i)
      (applyDelete (call.failing ops) nodeRef expectedVersion j)
      (fun _ l' k' db' => Alongside call start l' k' db') l k db := by
  rw [applyDelete, applyDelete]
  refine follows_bind (resolveExisting_follows h nodeRef i j) ?_
  rintro row l₁ k₁ db₁ ⟨⟨rfl, h₁, _⟩, hrow⟩
  split
  · exact follows_throw _
  · next hasserted =>
    have hasserted' : ¬ ((call.failing ops).opts.requireExpectedVersion && expectedVersion.isNone) = true :=
      hasserted
    rw [if_neg hasserted']
    refine follows_bind (assertVersion_follows h₁ hrow _ i j) ?_
    rintro _ _ _ _ ⟨rfl, rfl, rfl⟩
    refine follows_bind (query_follows _ _ _ (.selectSubtree row.path)) ?_
    rintro doomed _ _ db₂ ⟨rfl, rfl, hexec⟩
    have h₂ := h₁.exec hexec trivial
    split
    · exact follows_throw _
    · next halone =>
      have halone' : ¬ ((call.failing ops).opts.requireExpectedVersion && decide (1 < doomed.length)) = true :=
        halone
      rw [if_neg halone']
      refine follows_bind (query_follows _ _ _ (.deleteNode row.id)) ?_
      rintro _ _ _ db₃ ⟨rfl, rfl, hexec⟩
      refine follows_modify ?_
      -- Between the two statements the cached graphs are out of date; both runs forget them.
      have h₃ := h₂.forget
      refine { (@Alongside.of_tables _ _ _ db₃ _ _ h₃ (fun id v r' _ _ hr' => ?_) (fun id hid => ?_) nofun nofun) with
        dead := by simp [h₂.dead], result := by simp [h₂.result] }
      · exact PlanDb.version_exec hexec (by simp) (by simp) hr'
      · rcases PlanDb.keys_exec hexec hid with hid | ⟨_, hq, _⟩
        · exact h₂.seenNode id hid
        · cases hq

theorem dependsOn_insertEdge {db' : PlanDb} {e : PlanNodeEdgeRow} {inserted : Bool}
    (hexec : db.exec (.insertEdge e) = .ok (inserted, db')) (x y : Uuid) :
    DependsOn db' x y ↔ DependsOn db x y ∨ (e.kind = .dependsOn ∧ e.fromNodeId = x ∧ e.toNodeId = y) := by
  obtain ⟨ws, he, rfl⟩ := PlanDb.exec_eq_ok hexec
  constructor
  · intro h
    rcases PlanDb.dependsOn_effect he h with hold | ⟨e', hq, hnew⟩
    · exact .inl hold
    · cases hq
      exact .inr hnew
  · simp only [PlanDb.effect] at he
    split at he
    · next hkey =>
      cases he
      rintro (hold | ⟨hkind, rfl, rfl⟩)
      · exact hold
      · obtain ⟨e', he', hsame⟩ := Table.mem_keys.mp hkey
        simp only [PlanNodeEdgeRow.key, Prod.mk.injEq] at hsame
        exact ⟨e', he', hsame.2.2.trans hkind, hsame.1, hsame.2.1⟩
    · next hkey =>
      split at he
      · cases he
        have hmem : ∀ e', e' ∈ (db.apply [.putEdge e]).edges.rows ↔
            e' = e ∨ (e' ∈ db.edges.rows ∧ e'.key ≠ e.key) := fun _ => Table.mem_rows_put
        rintro (⟨e', he', hold⟩ | ⟨hkind, hx, hy⟩)
        · refine ⟨e', (hmem e').mpr (.inr ⟨he', fun hk => hkey ?_⟩), hold⟩
          rw [← hk]
          exact Table.mem_keys_of_mem he'
        · exact ⟨e, (hmem e).mpr (.inl rfl), hkind, hx, hy⟩
      · cases he

/-- A statement about edges leaves the nodes alone. -/
theorem Alongside.edges (h : Alongside call start l k db) {q : Query} {r : q.Reply} {db' : PlanDb}
    (hexec : db.exec q = .ok (r, db')) (hinsert : ∀ row, q ≠ .insertNode row)
    (hupdate : ∀ id set v, q ≠ .updateNode id set v) (hgraph : GraphCurrent l db') (hgraph' : GraphCurrent k db') :
    Alongside call start l k db' := by
  refine h.of_tables (fun id v r' _ _ hr' => ?_) (fun id hid => ?_) hgraph hgraph'
  · exact PlanDb.version_exec hexec (fun row hq => absurd hq (hinsert row)) (hupdate id) hr'
  · rcases PlanDb.keys_exec hexec hid with hid | ⟨row, hq, _⟩
    · exact h.seenNode id hid
    · exact absurd hq (hinsert row)

/-- Both runs insert an edge. What their graphs say is right once the edge is in the table. -/
theorem insertLink_follows {l₀ k₀ : Locals} (h : Alongside call start l₀ k₀ db) (fromId toId : Uuid)
    (kind : PlanEdgeKind) (note : Option String) {g g' : Option (List (Uuid × Uuid))}
    (hgraph : ∀ db' inserted, db.exec (.insertEdge ⟨fromId, toId, kind, note⟩) = .ok (inserted, db') →
      GraphCurrent { l₀ with dependsOnGraph := g } db' ∧ GraphCurrent { k₀ with dependsOnGraph := g' } db') :
    Script.Follows PlanDb.exec (insertLink fromId toId kind note) (insertLink fromId toId kind note)
      (fun _ l' k' db' => Alongside call start l' k' db') { l₀ with dependsOnGraph := g }
      { k₀ with dependsOnGraph := g' } db := by
  rw [insertLink]
  refine follows_bind (query_follows _ _ _ (.insertEdge ⟨fromId, toId, kind, note⟩)) ?_
  rintro inserted _ _ db₁ ⟨rfl, rfl, hexec⟩
  obtain ⟨hg, hg'⟩ := hgraph db₁ inserted hexec
  have h₁ := h.forget.edges hexec (by simp) (by simp) (fun _ h => by cases h) (fun _ h => by cases h)
  refine follows_modify { h₁ with graph := hg, graph' := hg', result := by simp [h.result] }

theorem GraphCurrent.insertOther (h : GraphCurrent l db) {e : PlanNodeEdgeRow} (hkind : e.kind ≠ .dependsOn)
    {db' : PlanDb} {inserted : Bool} (hexec : db.exec (.insertEdge e) = .ok (inserted, db')) :
    GraphCurrent l db' := by
  intro graph hg x y
  rw [h graph hg x y, dependsOn_insertEdge hexec]
  exact ⟨.inl, fun h' => h'.resolve_right fun h' => hkind h'.1⟩

theorem GraphCurrent.insertDependency (h : GraphCurrent l db) {e : PlanNodeEdgeRow} (hkind : e.kind = .dependsOn)
    {db' : PlanDb} {inserted : Bool} (hexec : db.exec (.insertEdge e) = .ok (inserted, db')) :
    GraphCurrent { l with dependsOnGraph := l.dependsOnGraph.map (· ++ [(e.fromNodeId, e.toNodeId)]) } db' := by
  intro graph hg x y
  obtain ⟨graph₀, hg₀, rfl⟩ := Option.map_eq_some_iff.mp hg
  rw [List.mem_append, h graph₀ hg₀ x y, dependsOn_insertEdge hexec, List.mem_singleton, Prod.mk.injEq]
  refine or_congr_right ⟨fun h' => ⟨hkind, h'.1.symm, h'.2.symm⟩, fun h' => ⟨h'.2.1.symm, h'.2.2.symm⟩⟩

theorem applyLink_follows (ops : List PlanPatchOp) (h : Alongside call start l k db) (fromRef toRef : String)
    (kind : PlanEdgeKind) (note : Option String) (i j : Nat) :
    FollowsIf PlanDb.exec (fun l' => l'.result.dropped = l.result.dropped)
      (applyLink call fromRef toRef kind note i) (applyLink (call.failing ops) fromRef toRef kind note j)
      (fun _ l' k' db' => Alongside call start l' k' db') l k db := by
  rw [applyLink, applyLink]
  refine followsIf_bind ((resolveExisting_follows h fromRef i j).and_wp (resolveExisting_reads fromRef i l k db h)) ?_
  rintro fromRow l₁ k₁ db₁ ⟨⟨⟨rfl, h₁, _⟩, _⟩, _, _, hwithin₁⟩
  refine followsIf_bind ((resolveExisting_follows h₁ toRef i j).and_wp (resolveExisting_reads toRef i l₁ k₁ _ h₁)) ?_
  rintro toRow l₂ k₂ db₂ ⟨⟨⟨rfl, h₂, _⟩, _⟩, _, _, hwithin₂⟩
  split
  · exact (follows_throw _).followsIf
  · split
    · next hkind =>
      refine followsIf_bind ((unsatisfiableDependency_follows h₂ fromRow toRow).and_wp
        (unsatisfiableDependency_reads fromRow toRow l₂ k₂ _ h₂)) ?_
      rintro refusal l₃ k₃ db₃ ⟨⟨rfl, h₃, _⟩, _, _, hwithin₃⟩
      cases refusal with
      | some refusal =>
        dsimp only
        split
        · -- The run under `drop` drops the link here.
          intro _ l' db' hends hsame
          obtain ⟨_, rfl, rfl⟩ := ends_modify.mp hends
          rw [← ((hwithin₁.trans hwithin₂).trans hwithin₃).1] at hsame
          simp at hsame
        · exact (follows_throw _).followsIf
      | none =>
        refine (follows_bind (follows_modify (P := fun _ l' k' db' =>
          l' = { l₃ with dependsOnGraph := l₃.dependsOnGraph.map (· ++ [(fromRow.id, toRow.id)]) } ∧
          k' = { k₃ with dependsOnGraph := k₃.dependsOnGraph.map (· ++ [(fromRow.id, toRow.id)]) } ∧
          db' = db₃) ⟨rfl, rfl, rfl⟩) ?_).followsIf
        rintro _ _ _ _ ⟨rfl, rfl, rfl⟩
        refine insertLink_follows h₃ fromRow.id toRow.id kind note fun db' inserted hexec => ?_
        exact ⟨h₃.graph.insertDependency hkind hexec, h₃.graph'.insertDependency hkind hexec⟩
    · next hkind =>
      refine (insertLink_follows h₂ fromRow.id toRow.id kind note fun db' inserted hexec => ?_).followsIf
      exact ⟨h₂.graph.insertOther hkind hexec, h₂.graph'.insertOther hkind hexec⟩

theorem applyUnlink_follows (h : Alongside call start l k db) (fromRef toRef : String) (kind : PlanEdgeKind)
    (i j : Nat) :
    Script.Follows PlanDb.exec (applyUnlink fromRef toRef kind i) (applyUnlink fromRef toRef kind j)
      (fun _ l' k' db' => Alongside call start l' k' db') l k db := by
  rw [applyUnlink, applyUnlink]
  refine follows_bind (resolveExisting_follows h fromRef i j) ?_
  rintro fromRow l₁ k₁ db₁ ⟨⟨rfl, h₁, _⟩, _⟩
  refine follows_bind (resolveExisting_follows h₁ toRef i j) ?_
  rintro toRow l₂ k₂ db₂ ⟨⟨rfl, h₂, _⟩, _⟩
  refine follows_bind (query_follows _ _ _ (.deleteEdge (fromRow.id, toRow.id, kind))) ?_
  rintro removed _ _ db₃ ⟨rfl, rfl, hexec⟩
  refine follows_modify ?_
  cases removed with
  | true =>
    have h₃ := h₂.forget.edges hexec (by simp) (by simp) (fun _ h => by cases h) (fun _ h => by cases h)
    exact { h₃ with result := by simp [h₂.result] }
  | false =>
    have hdb : db₃ = db₂ := by
      obtain ⟨ws, he, rfl⟩ := PlanDb.exec_eq_ok hexec
      simp only [PlanDb.effect] at he
      split at he <;> cases he
      rfl
    subst hdb
    exact { h₂ with result := by simp [h₂.result] }

theorem applyOp_follows (hfresh : call.DrawsFresh start) (ops : List PlanPatchOp)
    (h : Alongside call start l k db) (hroom : l.generated < call.ops.length) (op : PlanPatchOp) (i j : Nat) :
    FollowsIf PlanDb.exec (fun l' => l'.result.dropped = l.result.dropped) (applyOp call op i)
      (applyOp (call.failing ops) op j) (fun _ l' k' db' => Alongside call start l' k' db') l k db := by
  cases op with
  | upsert op => exact (applyUpsert_follows hfresh ops h hroom op i j).followsIf
  | delete nodeRef expectedVersion => exact (applyDelete_follows ops h nodeRef expectedVersion i j).followsIf
  | link fromRef toRef kind note => exact applyLink_follows ops h fromRef toRef kind note i j
  | unlink fromRef toRef kind => exact (applyUnlink_follows h fromRef toRef kind i j).followsIf

/-! ## The loop -/

/-- A turn of the loop under `drop` applies its op, as the other run does, or drops it and leaves no trace. -/
theorem applyOpOrDrop_turn (hfresh : call.DrawsFresh start) (hdrop : call.opts.onUnresolvableRef = .drop)
    (ops : List PlanPatchOp) (h : Alongside call start l k db) (hroom : l.generated < call.ops.length)
    (op : PlanPatchOp) (i j : Nat) {l' : Locals} {db' : PlanDb}
    (hends : Ends PlanDb.exec (applyOpOrDrop call op i) l db (.ok ()) l' db') :
    l'.generated ≤ l.generated + 1 ∧
    ((l'.result.dropped.length = l.result.dropped.length ∧
      ∃ k', Ends PlanDb.exec (applyOpOrDrop (call.failing ops) op j) k db (.ok ()) k' db' ∧
        Alongside call start l' k' db') ∨
    (l'.result.dropped.length = l.result.dropped.length + 1 ∧ db' = db ∧ Alongside call start l' k db)) := by
  rcases ends_catching.mp hends with ⟨_, _, hok⟩ | ⟨e, l₁, db₁, herr, hhandler⟩
  · have hturn : TurnReturns call start l k db l' db' := wp_exactly (applyOp_turn op i h) hok
    obtain ⟨hdrawn, hsame | ⟨⟨message, hmore⟩, hdb, hl'⟩⟩ := hturn
    · obtain ⟨k', hk', hl'⟩ := applyOp_follows hfresh ops h hroom op i j () l' db' hok hsame
      exact ⟨hdrawn, .inl ⟨congrArg List.length hsame, k', ends_catching.mpr (.inl ⟨(), rfl, hk'⟩), hl'⟩⟩
    · refine ⟨hdrawn, .inr ⟨?_, hdb, hl'⟩⟩
      rw [hmore, List.length_append, List.length_singleton]
  · have hturn : TurnThrows call start l k db e l₁ db₁ := wp_exactly (applyOp_turn op i h) herr
    obtain ⟨⟨hsame, hdrawn⟩, hskips⟩ := hturn
    cases e with
    | refused kind message opIndex => exact nomatch (ends_throw.mp hhandler).1
    | spins => exact nomatch (ends_throw.mp hhandler).1
    | unresolvable kind message opIndex =>
      obtain ⟨hdb, h₁⟩ := hskips trivial
      simp only [hdrop, if_true] at hhandler
      obtain ⟨_, rfl, rfl⟩ := ends_modify.mp hhandler
      refine ⟨hdrawn, .inr ⟨?_, hdb, { h₁ with }⟩⟩
      simp only [List.length_append, List.length_singleton, hsame]

theorem normalizeOpRefs_cons (op : PlanPatchOp) (ops : List PlanPatchOp) :
    normalizeOpRefs (op :: ops) = normalizeOpRefs [op] ++ normalizeOpRefs ops := rfl

/-- The loop over what the pre-flight kept, beside the loop over what is left in the end. -/
theorem applyAll_follows (hfresh : call.DrawsFresh start) (hdrop : call.opts.onUnresolvableRef = .drop)
    (ops kept : List PlanPatchOp) {pairs : List (PlanPatchOp × PlanPatchOp)}
    (hpairs : ∀ p ∈ pairs, normalizeOpRefs [p.1] = [p.2]) {i j : Nat} {l k l' : Locals} {db db' : PlanDb}
    (h : Alongside call start l k db)
    (hroom : l.generated + ((pairs.map (·.2)).filter (· ∈ kept)).length ≤ call.ops.length)
    (hends : Ends PlanDb.exec (applyAll call i ((pairs.map (·.2)).filter (· ∈ kept))) l db (.ok ()) l' db') :
    (∃ k', Ends PlanDb.exec (applyAll (call.failing ops) j (normalizeOpRefs (appliedOps call kept i pairs l db)))
        k db (.ok ()) k' db' ∧ Alongside call start l' k' db') ∧
      (appliedOps call kept i pairs l db).length + l'.result.dropped.length =
        ((pairs.map (·.2)).filter (· ∈ kept)).length + l.result.dropped.length ∧
      (appliedOps call kept i pairs l db).Sublist (pairs.map (·.1)) := by
  induction pairs generalizing i j l k db with
  | nil =>
    obtain ⟨_, rfl, rfl⟩ := ends_pure.mp hends
    exact ⟨⟨k, ends_pure.mpr ⟨rfl, rfl, rfl⟩, h⟩, rfl, List.Sublist.refl _⟩
  | cons p pairs ih =>
    obtain ⟨given, op⟩ := p
    have hrest : ∀ p ∈ pairs, normalizeOpRefs [p.1] = [p.2] := fun p hp => hpairs p (List.mem_cons_of_mem _ hp)
    by_cases hop : op ∈ kept
    · have hfilter : ((((given, op) :: pairs).map (·.2)).filter (· ∈ kept)) =
          op :: (pairs.map (·.2)).filter (· ∈ kept) := by
        rw [List.map_cons, List.filter_cons_of_pos (by simpa using hop)]
      rw [hfilter] at hends hroom ⊢
      rw [List.length_cons] at hroom
      rcases ends_bind.mp hends with ⟨_, l₁, db₁, hturn, hloop⟩ | ⟨e, he, _⟩
      · have hrun : (applyOpOrDrop call op i l).run PlanDb.exec db = .ok ((.ok (), l₁), db₁) := hturn
        rw [appliedOps, if_neg (not_not.mpr hop), hrun]
        dsimp only
        obtain ⟨hdrawn, hcases⟩ := applyOpOrDrop_turn hfresh hdrop ops h (by omega) op i j hturn
        rcases hcases with ⟨hlen, k₁, hk₁, h₁⟩ | ⟨hlen, rfl, h₁⟩
        · obtain ⟨⟨k', hk', h'⟩, hcount, hsub⟩ := ih hrest (i := i + 1) (j := j + 1) h₁ (by omega) hloop
          rw [if_pos hlen, normalizeOpRefs_cons, hpairs _ List.mem_cons_self]
          refine ⟨⟨k', ?_, h'⟩, ?_, hsub.cons_cons given⟩
          · exact ends_bind.mpr (.inl ⟨(), k₁, db₁, hk₁, hk'⟩)
          · simp only [List.length_cons]
            omega
        · obtain ⟨⟨k', hk', h'⟩, hcount, hsub⟩ := ih hrest (i := i + 1) (j := j) h₁ (by omega) hloop
          rw [if_neg (by omega)]
          refine ⟨⟨k', hk', h'⟩, ?_, hsub.cons given⟩
          simp only [List.length_cons]
          omega
      · cases he
    · have hfilter : ((((given, op) :: pairs).map (·.2)).filter (· ∈ kept)) =
          (pairs.map (·.2)).filter (· ∈ kept) := by
        rw [List.map_cons, List.filter_cons_of_neg (by simpa using hop)]
      rw [hfilter] at hends hroom ⊢
      rw [appliedOps, if_pos hop]
      obtain ⟨hk', hcount, hsub⟩ := ih hrest h hroom hends
      exact ⟨hk', hcount, hsub.cons given⟩

end

/-! ## Before the loop -/

theorem dropRounds_spec {live : List String} {fuel : Nat} {ops kept : List PlanPatchOp} {report report' : List String}
    (h : dropRounds live fuel ops report = some (kept, report')) :
    ops.filter (· ∈ kept) = kept ∧ kept.length + report'.length = ops.length + report.length := by
  induction fuel generalizing ops report with
  | zero => cases h
  | succ fuel ih =>
    rw [dropRounds] at h
    have hsplit : (ops.filter fun op => (badRefs live (ops.filterMap provides) op).isEmpty).length +
        (ops.filter fun op => !(badRefs live (ops.filterMap provides) op).isEmpty).length = ops.length :=
      (List.length_eq_length_filter_add _).symm
    split at h
    · cases h
      refine ⟨?_, ?_⟩
      · refine List.filter_congr fun op hop => ?_
        rw [Bool.eq_iff_iff, decide_eq_true_eq, List.mem_filter, and_iff_right hop]
      · rw [List.length_append, List.length_map]
        omega
    · obtain ⟨hkept, hlen⟩ := ih h
      refine ⟨?_, ?_⟩
      · rw [List.filter_filter] at hkept
        refine (List.filter_congr fun op hop => ?_).trans hkept
        have hmem : op ∈ kept → (badRefs live (ops.filterMap provides) op).isEmpty = true := by
          intro hk
          rw [← hkept, List.mem_filter] at hk
          simpa using (Bool.and_eq_true_iff.mp hk.2).2
        by_cases hk : op ∈ kept
        · simp [hk, hmem hk]
        · simp [hk]
      · rw [List.length_append, List.length_map] at hlen
        omega

theorem ends_query_bind {α : Type} {q : Query} {f : q.Reply → PatchM α} {l l' : Locals} {db db' : PlanDb}
    {r : Except PatchError α} : Ends PlanDb.exec (query q >>= f) l db r l' db' ↔
      ∃ a db₁, db.exec q = .ok (a, db₁) ∧ Ends PlanDb.exec (f a) l db₁ r l' db' :=
  ends_ask_bind

theorem dropUnresolvableOps_ends {ops kept : List PlanPatchOp} {l l' : Locals} {db db' : PlanDb}
    (h : Ends PlanDb.exec (dropUnresolvableOps ops) l db (.ok kept) l' db') :
    db' = db ∧ ops.filter (· ∈ kept) = kept ∧
      ∃ report, l' = { l with result := { l.result with dropped := l.result.dropped ++ report } } ∧
        kept.length + report.length = ops.length := by
  have hdone : ∀ {live kept' report} {db₁ : PlanDb}, dropRounds live (ops.length + 1) ops [] = some (kept', report) →
      Ends PlanDb.exec (do
          modify fun l => { l with result := { l.result with dropped := l.result.dropped ++ report } }
          pure kept' : PatchM (List PlanPatchOp)) l db₁ (.ok kept) l' db' →
      db' = db₁ ∧ ops.filter (· ∈ kept) = kept ∧
        ∃ report, l' = { l with result := { l.result with dropped := l.result.dropped ++ report } } ∧
          kept.length + report.length = ops.length := by
    intro live kept' report db₁ hkept h
    rw [ends_modify_bind, ends_pure] at h
    obtain ⟨hk, rfl, rfl⟩ := h
    cases hk
    obtain ⟨hfilter, hlen⟩ := dropRounds_spec hkept
    exact ⟨rfl, hfilter, report, rfl, hlen⟩
  rw [dropUnresolvableOps, ends_get_bind] at h
  dsimp only at h
  split at h
  · have h := ends_pure_bind.mp h
    split at h
    · cases (ends_throw.mp h).1
    · next hkept => exact hdone hkept h
  · obtain ⟨rows, db₁, hexec, hrest⟩ := ends_query_bind.mp h
    obtain rfl : db₁ = db := by
      cases hexec
      rfl
    split at hrest
    · cases (ends_throw.mp hrest).1
    · next hkept => exact hdone hkept hrest

theorem mayInsertPlanRows_ends {ops : List PlanPatchOp} {l l' : Locals} {db db' : PlanDb} {may : Bool} :
    Ends PlanDb.exec (mayInsertPlanRows ops) l db (.ok may) l' db' ↔
      may = (ops.any (insertsRow l) || !db.mirror.isSome) ∧ l' = l ∧ db' = db := by
  rw [mayInsertPlanRows, ends_get_bind]
  split
  · next hany =>
    rw [ends_pure, hany, Bool.true_or, Except.ok.injEq]
  · next hany =>
    have hexec : db.exec .findMirror = .ok (db.mirror.isSome, db) := rfl
    rw [ends_query_bind, Bool.eq_false_of_not_eq_true hany, Bool.false_or]
    constructor
    · rintro ⟨mirror, db₁, hexec', h⟩
      cases hexec.symm.trans hexec'
      obtain ⟨hmay, rfl, rfl⟩ := ends_pure.mp h
      exact ⟨Except.ok.inj hmay, rfl, rfl⟩
    · rintro ⟨rfl, rfl, rfl⟩
      exact ⟨_, _, hexec, ends_pure.mpr ⟨rfl, rfl, rfl⟩⟩

theorem lockRepositoryForPlanWrite_ends {call : PatchCall} {l l' : Locals} {db db' : PlanDb} :
    Ends PlanDb.exec (lockRepositoryForPlanWrite call) l db (.ok ()) l' db' ↔
      db.repositoryExists = true ∧ l' = l ∧ db' = db := by
  have hexec : db.exec .lockRepository = .ok (db.repositoryExists, db) := rfl
  rw [lockRepositoryForPlanWrite, ends_query_bind]
  constructor
  · rintro ⟨found, db₁, hexec', h⟩
    cases hexec.symm.trans hexec'
    split at h
    · next hfound =>
      obtain ⟨_, rfl, rfl⟩ := ends_pure.mp h
      exact ⟨hfound, rfl, rfl⟩
    · cases (ends_throw.mp h).1
  · rintro ⟨hfound, rfl, rfl⟩
    refine ⟨_, _, hexec, ?_⟩
    rw [if_pos hfound]
    exact ends_pure.mpr ⟨rfl, rfl, rfl⟩

/-- What `applyOps` does once it knows its ops. -/
def applyKept (call : PatchCall) (ops : List PlanPatchOp) : PatchM ApplyPlanPatchResult := do
  applyAll call 0 ops
  let l ← get
  if changed l.result then query .markPlanMirrorDirty else pure ()
  pure { l.result with refs := l.refs }

/-- The ops that the loop gets. -/
def keptOps (call : PatchCall) : PatchM (List PlanPatchOp) :=
  if call.opts.onUnresolvableRef = .drop then dropUnresolvableOps (normalizeOpRefs call.ops)
  else pure (normalizeOpRefs call.ops)

theorem applyOps_eq (call : PatchCall) :
    applyOps call = mayInsertPlanRows (normalizeOpRefs call.ops) >>= fun may =>
      if may then lockRepositoryForPlanWrite call >>= fun _ => keptOps call >>= applyKept call
      else keptOps call >>= applyKept call := by
  rw [applyOps, keptOps]
  by_cases hdrop : call.opts.onUnresolvableRef = .drop
  · simp only [hdrop, if_true]
    rfl
  · simp only [hdrop, if_false]
    rfl

theorem applyOps_ends {call : PatchCall} {l l' : Locals} {db db' : PlanDb} {result : ApplyPlanPatchResult} :
    Ends PlanDb.exec (applyOps call) l db (.ok result) l' db' ↔
      (((normalizeOpRefs call.ops).any (insertsRow l) || !db.mirror.isSome) = true → db.repositoryExists = true) ∧
      ∃ kept l₁ db₁, Ends PlanDb.exec (keptOps call) l db (.ok kept) l₁ db₁ ∧
        Ends PlanDb.exec (applyKept call kept) l₁ db₁ (.ok result) l' db' := by
  rw [applyOps_eq, ends_bind_ok]
  constructor
  · rintro ⟨may, l₁, db₁, hmay, h⟩
    obtain ⟨rfl, rfl, rfl⟩ := mayInsertPlanRows_ends.mp hmay
    split at h
    · obtain ⟨_, l₂, db₂, hlock, hrest⟩ := ends_bind_ok.mp h
      obtain ⟨hfound, rfl, rfl⟩ := lockRepositoryForPlanWrite_ends.mp hlock
      exact ⟨fun _ => hfound, ends_bind_ok.mp hrest⟩
    · next hno => exact ⟨fun hmay => absurd hmay hno, ends_bind_ok.mp h⟩
  · rintro ⟨hfound, h⟩
    refine ⟨_, l, db, mayInsertPlanRows_ends.mpr ⟨rfl, rfl, rfl⟩, ?_⟩
    split
    · next hmay =>
      refine ends_bind_ok.mpr ⟨(), l, db, lockRepositoryForPlanWrite_ends.mpr ⟨hfound hmay, rfl, rfl⟩, ?_⟩
      exact ends_bind_ok.mpr h
    · exact ends_bind_ok.mpr h

/-- The patch is done: what the loop left is reported, and the mirror is marked. -/
theorem applyKept_ends {call : PatchCall} {ops : List PlanPatchOp} {l l' : Locals} {db db' : PlanDb}
    {result : ApplyPlanPatchResult} :
    Ends PlanDb.exec (applyKept call ops) l db (.ok result) l' db' ↔
      ∃ db₁, Ends PlanDb.exec (applyAll call 0 ops) l db (.ok ()) l' db₁ ∧
        result = { l'.result with refs := l'.refs } ∧
        if changed l'.result = true then db₁.exec .markPlanMirrorDirty = .ok ((), db') else db' = db₁ := by
  rw [applyKept, ends_bind_ok]
  have htail : ∀ {l₁ : Locals} {db₁ : PlanDb}, Ends PlanDb.exec (do
        let l ← get
        if changed l.result then query .markPlanMirrorDirty else pure ()
        pure { l.result with refs := l.refs }) l₁ db₁ (.ok result) l' db' ↔
      l' = l₁ ∧ result = { l₁.result with refs := l₁.refs } ∧
        if changed l₁.result = true then db₁.exec .markPlanMirrorDirty = .ok ((), db') else db' = db₁ := by
    intro l₁ db₁
    rw [ends_get_bind]
    dsimp only
    split
    · rw [ends_query_bind]
      constructor
      · rintro ⟨_, db₂, hexec, h⟩
        obtain ⟨hr, rfl, rfl⟩ := ends_pure.mp h
        exact ⟨rfl, Except.ok.inj hr, hexec⟩
      · rintro ⟨rfl, rfl, hexec⟩
        exact ⟨(), db', hexec, ends_pure.mpr ⟨rfl, rfl, rfl⟩⟩
    · constructor
      · intro h
        obtain ⟨hr, rfl, rfl⟩ := ends_pure.mp h
        exact ⟨rfl, Except.ok.inj hr, rfl⟩
      · rintro ⟨rfl, rfl, rfl⟩
        exact ends_pure.mpr ⟨rfl, rfl, rfl⟩
  constructor
  · rintro ⟨_, l₁, db₁, hall, h⟩
    obtain ⟨rfl, hresult, hmark⟩ := htail.mp h
    exact ⟨db₁, hall, hresult, hmark⟩
  · rintro ⟨db₁, hall, hresult, hmark⟩
    exact ⟨(), l', db₁, hall, htail.mpr ⟨rfl, hresult, hmark⟩⟩

/-! ## The whole patch -/

theorem runPatch_ends {db db' : PlanDb} {call : PatchCall} {result : ApplyPlanPatchResult} :
    runPatch db call = .ok (result, db') ↔
      ∃ l', Ends PlanDb.exec (applyOps call) (seedSelf call) db (.ok result) l' db' := by
  constructor
  · exact runPatch_eq_ok
  · rintro ⟨l', h⟩
    have hrun : (applyPlanPatch call).run PlanDb.exec db = .ok ((.ok result, l'), db') := h
    rw [runPatch, hrun]

theorem zip_normalizeOpRefs (ops : List PlanPatchOp) :
    (ops.zip (normalizeOpRefs ops)).map (·.2) = normalizeOpRefs ops ∧
    (ops.zip (normalizeOpRefs ops)).map (·.1) = ops ∧
    ∀ p ∈ ops.zip (normalizeOpRefs ops), normalizeOpRefs [p.1] = [p.2] := by
  induction ops with
  | nil => exact ⟨rfl, rfl, fun p hp => absurd hp List.not_mem_nil⟩
  | cons op ops ih =>
    obtain ⟨hsnd, hfst, hpairs⟩ := ih
    refine ⟨congrArg (_ :: ·) hsnd, congrArg (_ :: ·) hfst, fun p hp => ?_⟩
    rcases List.mem_cons.mp hp with rfl | hp
    · rfl
    · exact hpairs p hp

theorem alongside_start {call : PatchCall} {db : PlanDb} (l : Locals) (hnotes : l.versionAtStart = [])
    (hgraph : l.dependsOnGraph = none) (report : List String) (hdropped : l.result.dropped = []) :
    Alongside call db { l with result := { l.result with dropped := report } } l db where
  refs := rfl
  dead := rfl
  own := rfl
  generated := rfl
  result := by rw [← hdropped]
  noted := fun id v hv => by rw [hnotes] at hv; cases hv
  current := fun id v hv => by rw [hnotes] at hv; cases hv
  graph := fun graph hg => by rw [hgraph] at hg; cases hg
  graph' := fun graph hg => by rw [hgraph] at hg; cases hg
  seenNote := fun id v hv => by rw [hnotes] at hv; cases hv
  seenNode := fun id hid => .inl hid

/-- A patch that succeeds under `drop` drops each op at most once, and the ops that are left, run under
`fail` on the same plan, succeed and end in the same plan. -/
theorem drop_is_fail_on_remaining {db db' : PlanDb} {call : PatchCall} {result : ApplyPlanPatchResult}
    (hdrop : call.opts.onUnresolvableRef = .drop) (hfresh : call.DrawsFresh db)
    (hrun : runPatch db call = .ok (result, db')) :
    (remainingOps db call).Sublist call.ops ∧
    (remainingOps db call).length + result.dropped.length = call.ops.length ∧
    runPatch db (call.failing (remainingOps db call)) = .ok ({ result with dropped := [] }, db') := by
  obtain ⟨l', hends⟩ := runPatch_ends.mp hrun
  obtain ⟨hfound, kept, l₁, db₁, hkept, hrest⟩ := applyOps_ends.mp hends
  rw [keptOps, if_pos hdrop] at hkept
  obtain ⟨rfl, hfilter, report, hl₁, hlen⟩ := dropUnresolvableOps_ends hkept
  obtain ⟨db₂, hall, hresult, hmark⟩ := applyKept_ends.mp hrest
  have hremaining : remainingOps db₁ call =
      appliedOps call kept 0 (call.ops.zip (normalizeOpRefs call.ops)) l₁ db₁ := by
    have hpre : (dropUnresolvableOps (normalizeOpRefs call.ops) (seedSelf call)).run PlanDb.exec db₁ =
      .ok ((.ok kept, l₁), db₁) := hkept
    rw [remainingOps, hpre]
  have hseed : (seedSelf call).versionAtStart = [] ∧ (seedSelf call).dependsOnGraph = none ∧
      (seedSelf call).result.dropped = [] := by
    rw [seedSelf]
    split <;> exact ⟨rfl, rfl, rfl⟩
  have halong : Alongside call db₁ l₁ (seedSelf call) db₁ := by
    rw [hl₁]
    exact alongside_start _ hseed.1 hseed.2.1 _ hseed.2.2
  obtain ⟨hsnd, hfst, hpairs⟩ := zip_normalizeOpRefs call.ops
  have hops : (normalizeOpRefs call.ops).length = call.ops.length := List.length_map _
  have hroom : l₁.generated + ((normalizeOpRefs call.ops).filter (· ∈ kept)).length ≤ call.ops.length := by
    have hdrawn : l₁.generated = 0 := by
      rw [hl₁, seedSelf]
      split <;> rfl
    rw [hfilter]
    omega
  rw [← hfilter, ← hsnd] at hall
  rw [← hsnd] at hroom
  obtain ⟨⟨k', hk', halong'⟩, hcount, hsub⟩ := applyAll_follows hfresh hdrop (remainingOps db₁ call) kept hpairs
    (i := 0) (j := 0) halong hroom hall
  rw [hsnd, hfilter, ← hremaining] at hcount
  rw [hfst, ← hremaining] at hsub
  rw [← hremaining] at hk'
  have hdropped₁ : l₁.result.dropped = report := by
    rw [hl₁, hseed.2.2]
    rfl
  have hchanged : changed k'.result = changed l'.result := by
    rw [halong'.result]
    rfl
  refine ⟨hsub, ?_, runPatch_ends.mpr ⟨k', applyOps_ends.mpr ⟨fun hmay => hfound ?_, ?_⟩⟩⟩
  · rw [hdropped₁] at hcount
    rw [hresult]
    show (remainingOps db₁ call).length + l'.result.dropped.length = _
    omega
  · -- Every op that is left was there before.
    rw [Bool.or_eq_true, List.any_eq_true] at hmay ⊢
    refine hmay.imp_left fun ⟨op, hop, hinserts⟩ => ⟨op, ?_, hinserts⟩
    exact (hsub.map _).mem hop
  · refine ⟨normalizeOpRefs (remainingOps db₁ call), seedSelf call, db₁, ends_pure.mpr ⟨rfl, rfl, rfl⟩, ?_⟩
    refine applyKept_ends.mpr ⟨db₂, hk', ?_, ?_⟩
    · rw [hresult, halong'.result, halong'.refs]
    · rw [hchanged]
      exact hmark

namespace Sample

def first : Uuid := ⟨"cccccccc-cccc-4ccc-8ccc-cccccccccccc", by decide⟩

theorem isUuidText_second : isUuidText "dddddddd-dddd-4ddd-8ddd-dddddddddddd".toList = true := by decide

def second : Uuid := ⟨"dddddddd-dddd-4ddd-8ddd-dddddddddddd", isUuidText_second⟩

/-- Two new nodes; the first link names a node that nothing makes, the second one comes too early. -/
def droppy : PatchCall where
  ops :=
    [ .upsert { nodeRef := "form", parentRef := some (some root.text), title := some "Form" },
      .link "form" "nowhere" .affects none,
      .link "form" "list" .dependsOn none,
      .upsert { nodeRef := "list", parentRef := some (some "form"), title := some "List" } ]
  opts := { repositoryId := "repo", origin := .user, onUnresolvableRef := .drop }
  randomUUID := fun n => [first, second, ⟨"eeeeeeee-eeee-4eee-8eee-eeeeeeeeeeee", by decide⟩].getD n
    ⟨"ffffffff-ffff-4fff-8fff-ffffffffffff", by decide⟩
  now := 0

theorem droppy_fresh : droppy.DrawsFresh start where
  new := by decide +kernel
  injective := by decide +kernel

theorem droppy_runs : (runPatch start droppy).toOption.any (fun r => r.1.dropped.length = 2) = true := by
  decide +kernel

end Sample

theorem drop_is_fail_on_remaining_links : ∃ result db',
    runPatch Sample.start Sample.droppy = .ok (result, db') ∧ result.dropped.length = 2 ∧
    (remainingOps Sample.start Sample.droppy).Sublist Sample.droppy.ops ∧
    (remainingOps Sample.start Sample.droppy).length + result.dropped.length = Sample.droppy.ops.length ∧
    runPatch Sample.start (Sample.droppy.failing (remainingOps Sample.start Sample.droppy)) =
      .ok ({ result with dropped := [] }, db') := by
  obtain ⟨⟨result, db'⟩, hsome, hdropped⟩ := (Option.any_eq_true _ _).mp Sample.droppy_runs
  have hrun : runPatch Sample.start Sample.droppy = .ok (result, db') := by
    cases h : runPatch Sample.start Sample.droppy with
    | error e =>
      rw [h] at hsome
      cases hsome
    | ok r =>
      rw [h] at hsome
      exact congrArg Except.ok (Option.some.inj hsome)
  exact ⟨result, db', hrun, by simpa using hdropped, drop_is_fail_on_remaining rfl Sample.droppy_fresh hrun⟩

end Haive

import Haive.Mirror.Merge

/-!
# The entries of a merge

What the first loop of `mergePlanMirror` leaves behind: one entry for every id
that a side has (`mem_initial_keys`), built by `mergeEntry` (`initial_find`).
`Entry.Sound` records where an entry's parent pointer came from; the loops that
follow only move a parent back to the local one and clear candidate marks.
-/

namespace Haive

open Lib

/-! ## Sides that are trees -/

/-- What the merge relies on in a side: the node list is keyed by id, parents are present and
every climb ends. -/
structure Side.Tree (s : Side) : Prop where
  rows : s.byId.rows = s.nodes
  closed : ∀ id p, s.parentOf id = some p → p ∈ s.byId.keys
  rooted : ∀ id, Rooted s.parentOf id

theorem readSide_find {payload : PlanMirrorPayload} (h : WellFormed payload) {id : String}
    {n : MirrorNode} : (readSide payload).byId.find? id = some n ↔ n ∈ payload.nodes ∧ n.id = id :=
  Table.find?_ofList h.ids

theorem parentIn_eq {payload : PlanMirrorPayload} (h : WellFormed payload) :
    (readSide payload).parentOf = parentIn payload.nodes := by
  funext id
  have hrows : (readSide payload).byId.rows = payload.nodes := Table.ofList_rows h.ids
  simp only [Side.parentOf, parentIn, Table.find?, hrows]

theorem readSide_tree {payload : PlanMirrorPayload} (h : WellFormed payload) :
    (readSide payload).Tree := by
  have closed : ∀ id p, (readSide payload).parentOf id = some p →
      p ∈ (readSide payload).byId.keys := by
    intro id p hp
    obtain ⟨n, hn, hnp⟩ := Option.bind_eq_some_iff.mp hp
    exact Table.mem_keys_ofList.mpr (h.parents n ((readSide_find h).mp hn).1 p hnp)
  refine ⟨Table.ofList_rows h.ids, closed, fun id => ?_⟩
  cases hp : (readSide payload).parentOf id with
  | none => exact .root hp
  | some p =>
    have hid : id ∈ (readSide payload).byId.keys.toFinset := by
      obtain ⟨n, hn, _⟩ := Option.bind_eq_some_iff.mp hp
      exact List.mem_toFinset.mpr (Table.mem_keys_iff_find?.mpr ⟨n, hn⟩)
    refine rooted_of_acyclic (s := (readSide payload).byId.keys.toFinset) ?_ ?_ hid
    · intro x _ y hy
      exact List.mem_toFinset.mpr (closed x y hy)
    · rw [parentIn_eq h]
      exact h.acyclic

theorem readIncoming_tree {payload : PlanMirrorPayload} (h : WellFormed payload)
    (localSide : Side) : (readIncoming localSide payload).Tree := by
  cases payload with
  | v2 mirror => exact readSide_tree h
  | v1 nodes edges => exact ⟨(readSide_tree h).rows, (readSide_tree h).closed, (readSide_tree h).rooted⟩

theorem Side.Tree.mem_keys {s : Side} (h : s.Tree) {id : String} :
    id ∈ s.byId.keys ↔ id ∈ s.nodes.map (·.id) := by
  rw [Table.keys, h.rows]

theorem Side.parentOf_find {s : Side} {id : String} {n : MirrorNode}
    (h : s.byId.find? id = some n) : s.parentOf id = n.parentId := by
  simp [Side.parentOf, h]

/-! ## One id -/

theorem setAll_id (value : ∀ f, askedFields.Val f) (names : List AskedField) (n : MirrorNode) :
    (askedFields.setAll value names n).id = n.id :=
  askedFields.setAll_invariant (·.id) (by intro f; cases f <;> intros <;> rfl) value names n

theorem setAll_parentId (value : ∀ f, askedFields.Val f) (names : List AskedField)
    (n : MirrorNode) : (askedFields.setAll value names n).parentId = n.parentId :=
  askedFields.setAll_invariant (·.parentId) (by intro f; cases f <;> intros <;> rfl) value names n

theorem setAll_ordinal (value : ∀ f, askedFields.Val f) (names : List AskedField)
    (n : MirrorNode) : (askedFields.setAll value names n).ordinal = n.ordinal :=
  askedFields.setAll_invariant (·.ordinal) (by intro f; cases f <;> intros <;> rfl) value names n

theorem pick3_value {T : Type} [DecidableEq T] (b : Option T) (l i : T) :
    (pick3 b l i).value = l ∨ (pick3 b l i).value = i := by
  unfold pick3
  split
  · exact .inl rfl
  · split
    · exact .inr rfl
    · split <;> exact .inl rfl

theorem pick3_contested {T : Type} [DecidableEq T] {b : Option T} {l i : T}
    (h : (pick3 b l i).contested = true) : (pick3 b l i).value = l := by
  unfold pick3 at h ⊢
  split at h
  · simp at h
  · split at h
    · simp at h
    · split at h
      · simp at h
      · rename_i h1 h2 h3
        simp [h1, h2, h3]

@[simp] theorem mergeOnly_node (b : Option MirrorNode) (only : MirrorNode) (inLocal : Bool)
    (rank : Nat) : (mergeOnly b only inLocal rank).entry.node = only := by
  unfold mergeOnly
  cases b with
  | none => rfl
  | some b => by_cases h : nodeModified only b = true <;> simp [h]

@[simp] theorem mergeOnly_rank (b : Option MirrorNode) (only : MirrorNode) (inLocal : Bool)
    (rank : Nat) : (mergeOnly b only inLocal rank).entry.rank = rank := by
  unfold mergeOnly
  cases b with
  | none => rfl
  | some b => by_cases h : nodeModified only b = true <;> simp [h]

@[simp] theorem mergeOnly_inLocal (b : Option MirrorNode) (only : MirrorNode) (inLocal : Bool)
    (rank : Nat) : (mergeOnly b only inLocal rank).entry.inLocal = inLocal := by
  unfold mergeOnly
  cases b with
  | none => rfl
  | some b => by_cases h : nodeModified only b = true <;> simp [h]

@[simp] theorem mergeOnly_parentFromIncoming (b : Option MirrorNode) (only : MirrorNode)
    (inLocal : Bool) (rank : Nat) :
    (mergeOnly b only inLocal rank).entry.parentFromIncoming = false := by
  unfold mergeOnly
  cases b with
  | none => rfl
  | some b => by_cases h : nodeModified only b = true <;> simp [h]

@[simp] theorem mergeBoth_id (b : Option MirrorNode) (l i : MirrorNode) (rank : Nat) :
    (mergeBoth b l i rank).entry.node.id = l.id := by
  simp [mergeBoth, setAll_id]

@[simp] theorem mergeBoth_parentId (b : Option MirrorNode) (l i : MirrorNode) (rank : Nat) :
    (mergeBoth b l i rank).entry.node.parentId =
      (pick3 (b.map (·.parentId)) l.parentId i.parentId).value := by
  simp [mergeBoth, setAll_parentId]

@[simp] theorem mergeBoth_ordinal (b : Option MirrorNode) (l i : MirrorNode) (rank : Nat) :
    (mergeBoth b l i rank).entry.node.ordinal =
      (pick3 (b.map (·.ordinal)) l.ordinal i.ordinal).value := by
  simp [mergeBoth, setAll_ordinal]

theorem mergeBoth_asked (b : Option MirrorNode) (l i : MirrorNode) (rank : Nat) (f : AskedField) :
    askedFields.get f (mergeBoth b l i rank).entry.node = askedValue b l i f :=
  askedFields.get_setAll_of_mem (mem_planMirrorAskedFields f)

section
variable {base : Option Side} {localSide incoming : Side} {id : String} {rank : Nat}

theorem mergeEntry_isSome (base : Option Side) (rank : Nat)
    (h : id ∈ localSide.byId.keys ∨ id ∈ incoming.byId.keys) :
    ∃ step, mergeEntry base localSide incoming id rank = some step := by
  simp only [Table.mem_keys_iff_find?] at h
  unfold mergeEntry
  cases hl : localSide.byId.find? id <;> cases hi : incoming.byId.find? id
  · simp [hl, hi] at h
  · exact ⟨_, rfl⟩
  · exact ⟨_, rfl⟩
  · cases base <;> exact ⟨_, rfl⟩

theorem mergeEntry_id {step : EntryStep}
    (h : mergeEntry base localSide incoming id rank = some step) : step.entry.node.id = id := by
  unfold mergeEntry at h
  cases hl : localSide.byId.find? id <;> cases hi : incoming.byId.find? id <;> simp only [hl, hi] at h
  · cases h
  · cases h
    rw [mergeOnly_node]
    exact Table.find?_key hi
  · cases h
    rw [mergeOnly_node]
    exact Table.find?_key hl
  · cases base <;> cases h
    · exact Table.find?_key hi
    · rw [mergeBoth_id]
      exact Table.find?_key hl

theorem mergeEntry_rank {step : EntryStep}
    (h : mergeEntry base localSide incoming id rank = some step) : step.entry.rank = rank := by
  unfold mergeEntry at h
  cases hl : localSide.byId.find? id <;> cases hi : incoming.byId.find? id <;> simp only [hl, hi] at h
  · cases h
  · cases h; exact mergeOnly_rank _ _ _ _
  · cases h; exact mergeOnly_rank _ _ _ _
  · cases base <;> cases h <;> rfl

end

def baseNode (base : Option Side) (id : String) : Option MirrorNode := base.bind (·.byId.find? id)

/-- All that `mergeEntry` can do: by who has the node. -/
theorem mergeEntry_cases {base : Option Side} {localSide incoming : Side} {id : String} {rank : Nat}
    {step : EntryStep} (h : mergeEntry base localSide incoming id rank = some step) :
    (∃ l i, localSide.byId.find? id = some l ∧ incoming.byId.find? id = some i ∧
      ((base = none ∧ step = mergeWithoutBase l i rank) ∨
        ∃ s, base = some s ∧ step = mergeBoth (s.byId.find? id) l i rank)) ∨
    (∃ l, localSide.byId.find? id = some l ∧ incoming.byId.find? id = none ∧
      step = mergeOnly (baseNode base id) l true rank) ∨
    (∃ i, localSide.byId.find? id = none ∧ incoming.byId.find? id = some i ∧
      step = mergeOnly (baseNode base id) i false rank) := by
  unfold mergeEntry at h
  cases hl : localSide.byId.find? id <;> cases hi : incoming.byId.find? id <;> simp only [hl, hi] at h
  · cases h
  · cases h
    exact .inr (.inr ⟨_, rfl, rfl, rfl⟩)
  · cases h
    exact .inr (.inl ⟨_, rfl, rfl, rfl⟩)
  · refine .inl ⟨_, _, rfl, rfl, ?_⟩
    cases base with
    | none =>
      cases h
      exact .inl ⟨rfl, rfl⟩
    | some s =>
      cases h
      exact .inr ⟨s, rfl, rfl⟩

/-- A node that one side has is marked exactly when the base has it too, unmodified. -/
theorem mergeOnly_candidate (b : Option MirrorNode) (only : MirrorNode) (inLocal : Bool) (rank : Nat) :
    ((mergeOnly b only inLocal rank).entry.candidate = none ∧
      ∀ b', b = some b' → nodeModified only b' = true) ∨
    ((mergeOnly b only inLocal rank).entry.candidate =
        some (if inLocal then .deletedByIncoming else .deletedByLocal) ∧
      ∃ b', b = some b' ∧ nodeModified only b' = false) := by
  unfold mergeOnly
  cases b with
  | none => exact .inl ⟨rfl, by simp⟩
  | some b =>
    by_cases h : nodeModified only b = true
    · refine .inl ⟨by simp [h], fun b' hb => ?_⟩
      cases hb
      exact h
    · refine .inr ⟨by simp [h], b, rfl, by simpa using h⟩

/-- The node survives on its own account: both sides have it, or the one side that has it added or
modified it. -/
def KeptAlone (base : Option Side) (localSide incoming : Side) (id : String) : Prop :=
  (id ∈ localSide.byId.keys ∧ id ∈ incoming.byId.keys) ∨
  (∃ only, ((localSide.byId.find? id = some only ∧ incoming.byId.find? id = none) ∨
      (localSide.byId.find? id = none ∧ incoming.byId.find? id = some only)) ∧
    ∀ b, baseNode base id = some b → nodeModified only b = true)

theorem mergeEntry_candidate {base : Option Side} {localSide incoming : Side} {id : String}
    {rank : Nat} {step : EntryStep} (h : mergeEntry base localSide incoming id rank = some step) :
    step.entry.candidate = none ↔ KeptAlone base localSide incoming id := by
  rcases mergeEntry_cases h with ⟨l, i, hl, hi, hstep⟩ | ⟨l, hl, hi, rfl⟩ | ⟨i, hl, hi, rfl⟩
  · have hc : step.entry.candidate = none := by
      rcases hstep with ⟨_, rfl⟩ | ⟨s, _, rfl⟩ <;> rfl
    refine iff_of_true hc (.inl ⟨?_, ?_⟩)
    · exact Table.mem_keys_iff_find?.mpr ⟨l, hl⟩
    · exact Table.mem_keys_iff_find?.mpr ⟨i, hi⟩
  · rcases mergeOnly_candidate (baseNode base id) l true rank with ⟨hc, hmod⟩ | ⟨hc, b, hb, hmod⟩
    · exact iff_of_true hc (.inr ⟨l, .inl ⟨hl, hi⟩, hmod⟩)
    · refine iff_of_false (by simp [hc]) ?_
      rintro (⟨_, hk⟩ | ⟨only, ⟨honly, _⟩ | ⟨hno, _⟩, hall⟩)
      · exact Table.find?_eq_none.mp hi hk
      · rw [hl] at honly
        cases honly
        simp [hall b hb] at hmod
      · simp [hl] at hno
  · rcases mergeOnly_candidate (baseNode base id) i false rank with ⟨hc, hmod⟩ | ⟨hc, b, hb, hmod⟩
    · exact iff_of_true hc (.inr ⟨i, .inr ⟨hl, hi⟩, hmod⟩)
    · refine iff_of_false (by simp [hc]) ?_
      rintro (⟨hk, _⟩ | ⟨only, ⟨hno, _⟩ | ⟨_, honly⟩, hall⟩)
      · exact Table.find?_eq_none.mp hl hk
      · simp [hl] at hno
      · rw [hi] at honly
        cases honly
        simp [hall b hb] at hmod

/-- A mark names the side that lacks the node. -/
theorem mergeEntry_mark {base : Option Side} {localSide incoming : Side} {id : String}
    {rank : Nat} {step : EntryStep} {c : Candidate}
    (h : mergeEntry base localSide incoming id rank = some step)
    (hc : step.entry.candidate = some c) :
    (c = .deletedByIncoming ∧ id ∈ localSide.byId.keys ∧ id ∉ incoming.byId.keys) ∨
    (c = .deletedByLocal ∧ id ∉ localSide.byId.keys ∧ id ∈ incoming.byId.keys) := by
  rcases mergeEntry_cases h with ⟨l, i, hl, hi, hstep⟩ | ⟨l, hl, hi, rfl⟩ | ⟨i, hl, hi, rfl⟩
  · rcases hstep with ⟨_, rfl⟩ | ⟨s, _, rfl⟩ <;> cases hc
  · rcases mergeOnly_candidate (baseNode base id) l true rank with ⟨hc', _⟩ | ⟨hc', _⟩
    · simp [hc'] at hc
    · rw [hc'] at hc
      cases hc
      exact .inl ⟨rfl, Table.mem_keys_iff_find?.mpr ⟨l, hl⟩, Table.find?_eq_none.mp hi⟩
  · rcases mergeOnly_candidate (baseNode base id) i false rank with ⟨hc', _⟩ | ⟨hc', _⟩
    · simp [hc'] at hc
    · rw [hc'] at hc
      cases hc
      exact .inr ⟨rfl, Table.find?_eq_none.mp hl, Table.mem_keys_iff_find?.mpr ⟨i, hi⟩⟩

/-! ## The table of entries -/

theorem mem_mergeIds {localSide incoming : Side} (hl : localSide.Tree) (hi : incoming.Tree)
    {id : String} : id ∈ mergeIds localSide incoming ↔
      id ∈ localSide.byId.keys ∨ id ∈ incoming.byId.keys := by
  simp only [mergeIds, List.mem_append, List.mem_filter, ← hi.mem_keys, ← hl.mem_keys,
    Option.isNone_iff_eq_none, Table.find?_eq_none]
  tauto

theorem mergeIds_nodup {localSide incoming : Side} (hl : localSide.Tree) (hi : incoming.Tree) :
    (mergeIds localSide incoming).Nodup := by
  have hli : (localSide.nodes.map (·.id)).Nodup := by
    rw [← hl.rows]; exact localSide.byId.nodup
  have hii : (incoming.nodes.map (·.id)).Nodup := by
    rw [← hi.rows]; exact incoming.byId.nodup
  refine List.nodup_append.mpr ⟨hii, hli.filter _, ?_⟩
  intro a ha b hb hab
  subst hab
  rw [List.mem_filter, Option.isNone_iff_eq_none, Table.find?_eq_none] at hb
  exact hb.2 (hi.mem_keys.mpr ha)

section
variable (base : Option Side) {localSide incoming : Side}

/-- The entries of the first loop, before any repair. -/
def initialEntries (base : Option Side) (localSide incoming : Side) : Entries :=
  .ofList ((mergeSteps base localSide incoming).map (·.entry))

variable {base} in
theorem mem_mergeSteps {step : EntryStep} : step ∈ mergeSteps base localSide incoming ↔
    ∃ id rank, (id, rank) ∈ (mergeIds localSide incoming).zipIdx ∧
      mergeEntry base localSide incoming id rank = some step := by
  simp [mergeSteps]

theorem mergeSteps_ids (hl : localSide.Tree) (hi : incoming.Tree) :
    (mergeSteps base localSide incoming).map (·.entry.node.id) = mergeIds localSide incoming := by
  have key : ∀ (ids : List String) (k : Nat), (∀ id ∈ ids, id ∈ mergeIds localSide incoming) →
      ((ids.zipIdx k).filterMap fun p => mergeEntry base localSide incoming p.1 p.2).map
        (·.entry.node.id) = ids := by
    intro ids
    induction ids with
    | nil => intros; rfl
    | cons id ids ih =>
      intro k hids
      obtain ⟨step, hstep⟩ := mergeEntry_isSome base k
        ((mem_mergeIds hl hi).mp (hids id List.mem_cons_self))
      rw [List.zipIdx_cons, List.filterMap_cons]
      simp only [hstep, List.map_cons]
      rw [mergeEntry_id hstep, ih _ fun x hx => hids x (List.mem_cons_of_mem _ hx)]
  exact key _ 0 fun _ h => h

theorem initialEntries_rows (hl : localSide.Tree) (hi : incoming.Tree) :
    (initialEntries base localSide incoming).rows =
      (mergeSteps base localSide incoming).map (·.entry) := by
  apply Table.ofList_rows
  rw [List.map_map]
  show ((mergeSteps base localSide incoming).map fun s => s.entry.node.id).Nodup
  rw [mergeSteps_ids base hl hi]
  exact mergeIds_nodup hl hi

theorem mem_initial_keys (hl : localSide.Tree) (hi : incoming.Tree) {id : String} :
    id ∈ (initialEntries base localSide incoming).keys ↔
      id ∈ localSide.byId.keys ∨ id ∈ incoming.byId.keys := by
  rw [← mem_mergeIds hl hi, ← mergeSteps_ids base hl hi, Table.keys,
    initialEntries_rows base hl hi, List.map_map]
  rfl

variable {base} in
theorem initial_find (hl : localSide.Tree) (hi : incoming.Tree) {id : String} {e : Entry}
    (h : (initialEntries base localSide incoming).find? id = some e) :
    ∃ step ∈ mergeSteps base localSide incoming,
      mergeEntry base localSide incoming id e.rank = some step ∧ step.entry = e := by
  have hmem := Table.find?_mem h
  rw [initialEntries_rows base hl hi, List.mem_map] at hmem
  obtain ⟨step, hstep, rfl⟩ := hmem
  refine ⟨step, hstep, ?_, rfl⟩
  obtain ⟨id', rank, _, hme⟩ := mem_mergeSteps.mp hstep
  have hid : id' = id := (mergeEntry_id hme).symm.trans (Table.find?_key h :)
  rw [mergeEntry_rank hme, ← hid]
  exact hme

end

/-! ## Where a parent pointer comes from -/

/-- The provenance of an entry's parent. A parent that differs from local's came from incoming, on
a node that both sides have. -/
structure Entry.Sound (localSide incoming : Side) (e : Entry) : Prop where
  inLocal : e.inLocal = true ↔ e.node.id ∈ localSide.byId.keys
  fromIncoming : e.parentFromIncoming = true → e.inLocal = true ∧ e.candidate = none
  localParent : e.inLocal = true → e.parentFromIncoming = false →
    e.node.parentId = localSide.parentOf e.node.id
  incomingParent : e.inLocal = false ∨ e.parentFromIncoming = true →
    e.node.parentId = incoming.parentOf e.node.id

theorem mergeEntry_sound {base : Option Side} {localSide incoming : Side} {id : String}
    {rank : Nat} {step : EntryStep}
    (h : mergeEntry base localSide incoming id rank = some step) :
    step.entry.Sound localSide incoming := by
  have hid := mergeEntry_id h
  unfold mergeEntry at h
  cases hl : localSide.byId.find? id <;> cases hi : incoming.byId.find? id <;> simp only [hl, hi] at h
  · cases h
  · next i =>
    cases h
    refine ⟨?_, ?_, ?_, fun _ => ?_⟩
    · rw [hid, mergeOnly_inLocal, ← Table.find?_isSome, hl]; simp
    · simp
    · simp
    · rw [hid, Side.parentOf_find hi, mergeOnly_node]
  · next l =>
    cases h
    refine ⟨?_, ?_, fun _ _ => ?_, ?_⟩
    · rw [hid, mergeOnly_inLocal, ← Table.find?_isSome, hl]; simp
    · simp
    · rw [hid, Side.parentOf_find hl, mergeOnly_node]
    · simp
  · next l i =>
    have hkey : id ∈ localSide.byId.keys := Table.mem_keys_iff_find?.mpr ⟨l, hl⟩
    cases base with
    | none =>
      cases h
      refine ⟨?_, fun _ => ⟨rfl, rfl⟩, fun _ hf => ?_, fun _ => ?_⟩
      · rw [hid]; simp [mergeWithoutBase, hkey]
      · rw [hid, Side.parentOf_find hl]
        simpa [mergeWithoutBase] using hf
      · rw [hid, Side.parentOf_find hi]
        rfl
    | some s =>
      cases h
      refine ⟨?_, fun _ => ⟨rfl, rfl⟩, fun _ hf => ?_, fun hf => ?_⟩
      · rw [hid]; simp [mergeBoth, hkey]
      · rw [hid, Side.parentOf_find hl, mergeBoth_parentId]
        simpa [mergeBoth] using hf
      · rw [hid, Side.parentOf_find hi, mergeBoth_parentId]
        have hne : (pick3 ((s.byId.find? id).map (·.parentId)) l.parentId i.parentId).value ≠
            l.parentId := by
          rcases hf with hf | hf
          · simp [mergeBoth] at hf
          · simpa [mergeBoth] using hf
        exact (pick3_value _ _ _).resolve_left hne

theorem Entry.Sound.parent_mem {localSide incoming : Side} (hl : localSide.Tree)
    (hi : incoming.Tree) {e : Entry} (h : e.Sound localSide incoming) {p : String}
    (hp : e.node.parentId = some p) : p ∈ localSide.byId.keys ∨ p ∈ incoming.byId.keys := by
  by_cases hf : e.inLocal = true ∧ e.parentFromIncoming = false
  · rw [h.localParent hf.1 hf.2] at hp
    exact .inl (hl.closed _ _ hp)
  · have hf' : e.inLocal = false ∨ e.parentFromIncoming = true := by
      cases h1 : e.inLocal
      · exact .inl rfl
      · refine .inr ?_
        cases h2 : e.parentFromIncoming
        · exact absurd ⟨h1, h2⟩ hf
        · rfl
    rw [h.incomingParent hf'] at hp
    exact .inr (hi.closed _ _ hp)

end Haive

import Haive.Mirror.Reconcile
import Haive.Mirror.Laws

/-!
# Reconciling the same payload again

While a question is open the same `plan.json` is merged again and again, each time over the
snapshot that the last reconcile stored. Such a second merge decides every field as before
(`pick3_again`), every edge and code link as before (`Keyed.mergeKeyed_again`), and every parent
as before as long as what the snapshot still has at its old parent cannot move
(`Side.Anchored`); `SecondMerge` collects what the argument needs of the stored base.
-/

namespace Haive

open Lib

/-! ## Deciding again -/

section
variable {T : Type} [DecidableEq T] {b b' : Option T} {l i : T}

/-- With the base left as it was, or at incoming's value for a field that was not contested, the
decision on what was decided is the decision. -/
theorem pick3_again (hb : b' = b ∨ (b' = some i ∧ (pick3 b l i).contested = false)) :
    pick3 b' (pick3 b l i).value i = pick3 b l i := by
  rcases hb with rfl | ⟨rfl, hcontested⟩
  · by_cases hli : l = i
    · subst hli
      simp
    · by_cases hbl : b' = some l
      · subst hbl
        simp
      · by_cases hbi : b' = some i
        · subst hbi
          simp
        · have hpick : pick3 b' l i = ⟨l, true⟩ := by simp [pick3, hli, hbl, hbi]
          rw [hpick]
          exact hpick
  · rw [pick3_unchanged_incoming]
    cases hp : pick3 b l i
    rw [hp] at hcontested
    cases hcontested
    rfl

theorem pick3_again_value (hb : b' = b ∨ b' = some i) :
    (pick3 b' (pick3 b l i).value i).value = (pick3 b l i).value := by
  rcases hb with rfl | rfl
  · rw [pick3_again (.inl rfl)]
  · rw [pick3_unchanged_incoming]

end

/-! ## Edges and code links again -/

namespace Keyed

variable {T F K : Type} (kd : Keyed T F K)

/-- Writing the fields of a merged item into incoming's item gives the merged item. -/
theorem setAll_merged (value : ∀ f, kd.fields.Val f) (i : T) :
    kd.fields.setAll (fun f => kd.fields.get f (kd.fields.setAll value kd.names i)) kd.names i =
      kd.fields.setAll value kd.names i := by
  have hget : (fun f => kd.fields.get f (kd.fields.setAll value kd.names i)) = value := by
    funext f
    exact kd.fields.get_setAll_of_mem (kd.mem_names f)
  rw [hget]

variable [DecidableEq K] {base : Option (Table T kd.key)} {base' localItems localItems' incoming : Table T kd.key}

/-- The base of the second merge, for the keys that incoming has: incoming's own item, or still
nothing. -/
def Followed (base : Option (Table T kd.key)) (base' incoming : Table T kd.key) : Prop :=
  (∀ key ∈ incoming.keys, base'.find? key = incoming.find? key ∨
    (base'.find? key = none ∧ ∃ b, base = some b ∧ b.find? key = none)) ∧
  ∀ key, key ∉ incoming.keys → base'.find? key = none

theorem mergeKey_again (hbase : kd.Followed base base' incoming) {key : K} (hkey : key ∈ incoming.keys)
    (hlocal : (localItems'.find? key).toList = (kd.mergeKey base localItems incoming key).1) :
    (kd.mergeKey (some base') localItems' incoming key).1 =
      (kd.mergeKey base localItems incoming key).1 := by
  obtain ⟨i, hi⟩ := Table.mem_keys_iff_find?.mp hkey
  have hb := hbase.1 key hkey
  rw [hi] at hb
  cases hl' : localItems'.find? key with
  | none =>
    rw [hl'] at hlocal
    rw [← hlocal]
    rcases hb with hb | ⟨_, b, rfl, hnone⟩
    · simp [mergeKey, hl', hi, onlyItem, hb, Fields.differ_self]
    · -- Nothing was in the base, so the first merge did not drop the key.
      cases hl : localItems.find? key <;> simp [mergeKey, hl, hi, onlyItem, hnone] at hlocal
  | some x =>
    rw [hl'] at hlocal
    -- The item is incoming's with some values written into it.
    have hx : ∃ value, x = kd.fields.setAll value kd.names i ∧
        (base'.find? key = none → ∃ l, ∀ f, value f = (pick3 none (kd.fields.get f l) (kd.fields.get f i)).value) := by
      have same : x = i → ∃ value, x = kd.fields.setAll value kd.names i ∧
          (base'.find? key = none →
            ∃ l, ∀ f, value f = (pick3 none (kd.fields.get f l) (kd.fields.get f i)).value) := by
        rintro rfl
        exact ⟨_, (kd.fields.setAll_get kd.names x).symm, fun _ => ⟨x, fun f => by rw [pick3_same]⟩⟩
      cases hl : localItems.find? key with
      | none =>
        refine same ?_
        have : x ∈ (kd.onlyItem (base.bind (·.find? key)) i .localSide).1 := by
          simp only [mergeKey, hl, hi] at hlocal
          rw [← hlocal]
          exact List.mem_singleton_self x
        unfold onlyItem at this
        split at this
        · simpa using this
        · split at this <;> simp at this
          exact this
      | some l =>
        cases base with
        | none =>
          refine same ?_
          simpa [mergeKey, hl, hi] using hlocal
        | some b =>
          simp only [mergeKey, hl, hi, mergeItem, Option.toList_some, List.cons.injEq, and_true] at hlocal
          refine ⟨_, hlocal, fun hnone => ⟨l, fun f => ?_⟩⟩
          rcases hb with hb | ⟨_, b', hb', hnone'⟩
          · rw [hnone] at hb
            cases hb
          · cases hb'
            rw [pickField, hnone']
            rfl
    obtain ⟨value, rfl, hvalue⟩ := hx
    rw [← hlocal]
    simp only [mergeKey, hl', hi, mergeItem, Option.toList_some, List.cons.injEq, and_true]
    have hpick : (fun f => (kd.pickField (base'.find? key) (kd.fields.setAll value kd.names i) i f).value) =
        fun f => kd.fields.get f (kd.fields.setAll value kd.names i) := by
      funext f
      rcases hb with hb | ⟨hb, _⟩
      · rw [pickField, hb, Option.map_some, pick3_unchanged_incoming]
      · obtain ⟨l, hl⟩ := hvalue hb
        rw [pickField, hb, Option.map_none, kd.fields.get_setAll_of_mem (kd.mem_names f), hl f,
          pick3_again_value (.inl rfl)]
    rw [hpick, kd.setAll_merged]

theorem find?_merged (p : K → Bool)
    (hrows : localItems'.rows =
      (kd.mergeKeyed base localItems incoming).1.filter (fun x => p (kd.key x)))
    (key : K) : (localItems'.find? key).toList =
      if p key then (kd.mergeKey base localItems incoming key).1 else [] := by
  have hmem : ∀ x, localItems'.find? key = some x ↔
      x ∈ (kd.mergeKey base localItems incoming key).1 ∧ p key = true := by
    intro x
    rw [Table.find?_eq_some, hrows, List.mem_filter, mem_mergeKeyed]
    constructor
    · rintro ⟨⟨hx, hp⟩, rfl⟩
      exact ⟨hx, hp⟩
    · rintro ⟨hx, hp⟩
      have hk : kd.key x = key := by
        rcases kd.mergeKey_items base localItems incoming key with hnil | ⟨y, hy, hk⟩
        · simp [hnil] at hx
        · rw [hy, List.mem_singleton] at hx
          exact hx ▸ hk
      subst hk
      exact ⟨⟨hx, hp⟩, rfl⟩
  cases hf : localItems'.find? key with
  | some x =>
    obtain ⟨hx, hp⟩ := (hmem x).mp hf
    rw [if_pos hp]
    rcases kd.mergeKey_items base localItems incoming key with hnil | ⟨y, hy, _⟩
    · simp [hnil] at hx
    · rw [hy, List.mem_singleton] at hx
      rw [hy, hx]
      rfl
  | none =>
    by_cases hp : p key = true
    · rw [if_pos hp]
      rcases kd.mergeKey_items base localItems incoming key with hnil | ⟨y, hy, _⟩
      · rw [hnil]
        rfl
      · have := (hmem y).mpr ⟨by rw [hy]; exact List.mem_singleton_self y, hp⟩
        rw [hf] at this
        cases this
    · rw [if_neg hp]
      rfl

theorem filter_flatMap_mergeKey (p : K → Bool) (base : Option (Table T kd.key))
    (localItems incoming : Table T kd.key) (keys : List K) :
    (keys.flatMap fun key => (kd.mergeKey base localItems incoming key).1).filter (fun x => p (kd.key x)) =
      keys.flatMap fun key => if p key then (kd.mergeKey base localItems incoming key).1 else [] := by
  rw [List.filter_flatMap]
  refine List.flatMap_congr fun key _ => ?_
  rcases kd.mergeKey_items base localItems incoming key with hnil | ⟨y, hy, hk⟩
  · simp [hnil]
  · rw [hy, List.filter_singleton, hk, cond_eq_ite]

theorem mergeKeyed_eq (base : Option (Table T kd.key)) (localItems incoming : Table T kd.key) :
    (kd.mergeKeyed base localItems incoming).1 =
      (kd.mergeKeys localItems incoming).flatMap fun key => (kd.mergeKey base localItems incoming key).1 := by
  simp [mergeKeyed, List.flatMap_map]

theorem mergeKeyed_again (p : K → Bool) (hbase : kd.Followed base base' incoming)
    (hrows : localItems'.rows =
      (kd.mergeKeyed base localItems incoming).1.filter (fun x => p (kd.key x))) :
    (kd.mergeKeyed (some base') localItems' incoming).1.filter (fun x => p (kd.key x)) =
      localItems'.rows := by
  have hfind := kd.find?_merged p hrows
  -- Keys of incoming contribute what they did before.
  have hfirst : (incoming.keys.flatMap fun key =>
        if p key then (kd.mergeKey (some base') localItems' incoming key).1 else []) =
      incoming.keys.flatMap fun key =>
        if p key then (kd.mergeKey base localItems incoming key).1 else [] := by
    refine List.flatMap_congr fun key hkey => ?_
    split
    · next hp =>
      refine kd.mergeKey_again hbase hkey ?_
      rw [hfind key, if_pos hp]
    · rfl
  -- Local's own keys contribute their item.
  have hown : ∀ keys : List K, (∀ key ∈ keys, key ∉ incoming.keys) →
      (keys.flatMap fun key => if p key then (kd.mergeKey (some base') localItems' incoming key).1 else []) =
        keys.flatMap fun key => (localItems'.find? key).toList := by
    intro keys hkeys
    refine List.flatMap_congr fun key hkey => ?_
    have hi := Table.find?_eq_none.mpr (hkeys key hkey)
    have hb := hbase.2 key (hkeys key hkey)
    cases hl : localItems'.find? key with
    | none => simp [mergeKey, hl, hi]
    | some x =>
      have hp : p key = true := by
        have := hfind key
        rw [hl] at this
        by_contra hp
        simp [hp] at this
      simp [hp, mergeKey, hl, hi, onlyItem, hb]
  have hkeysFind : ∀ (l : List T), (∀ x ∈ l, x ∈ localItems'.rows) →
      ((l.map kd.key).flatMap fun key => (localItems'.find? key).toList) = l := by
    intro l hl
    induction l with
    | nil => rfl
    | cons x l ih =>
      rw [List.map_cons, List.flatMap_cons, Table.mem_rows_iff.mp (hl x List.mem_cons_self),
        ih fun y hy => hl y (List.mem_cons_of_mem _ hy)]
      rfl
  rw [mergeKeyed_eq, mergeKeys, filter_flatMap_mergeKey, List.flatMap_append, hfirst,
    hown _ (fun key hkey => by simpa [Table.find?_eq_none] using (List.mem_filter.mp hkey).2)]
  have hsplit := hrows
  rw [mergeKeyed_eq, mergeKeys, filter_flatMap_mergeKey, List.flatMap_append] at hsplit
  generalize hA : (incoming.keys.flatMap fun key =>
    if p key then (kd.mergeKey base localItems incoming key).1 else []) = A at hsplit ⊢
  generalize hB : ((localItems.keys.filter fun k => (incoming.find? k).isNone).flatMap fun key =>
    if p key then (kd.mergeKey base localItems incoming key).1 else []) = B at hsplit
  have hkeyOf : ∀ key x, (x ∈ if p key then (kd.mergeKey base localItems incoming key).1 else []) →
      kd.key x = key := by
    intro key x hx
    split at hx
    · rcases kd.mergeKey_items base localItems incoming key with hnil | ⟨y, hy, hk⟩
      · simp [hnil] at hx
      · rw [hy, List.mem_singleton] at hx
        exact hx ▸ hk
    · simp at hx
  have hAin : ∀ x ∈ A, (incoming.find? (kd.key x)).isNone = false := by
    intro x hx
    rw [← hA] at hx
    obtain ⟨key, hkey, hx⟩ := List.mem_flatMap.mp hx
    obtain ⟨i, hi⟩ := Table.mem_keys_iff_find?.mp hkey
    rw [hkeyOf key x hx, hi]
    rfl
  have hBout : ∀ x ∈ B, (incoming.find? (kd.key x)).isNone = true := by
    intro x hx
    rw [← hB] at hx
    obtain ⟨key, hkey, hx⟩ := List.mem_flatMap.mp hx
    rw [hkeyOf key x hx]
    exact (List.mem_filter.mp hkey).2
  have hkeys : localItems'.keys.filter (fun k => (incoming.find? k).isNone) = B.map kd.key := by
    rw [Table.keys, hsplit, List.map_append, List.filter_append]
    have h1 : (A.map kd.key).filter (fun k => (incoming.find? k).isNone) = [] := by
      rw [List.filter_eq_nil_iff]
      intro k hk
      obtain ⟨x, hx, rfl⟩ := List.mem_map.mp hk
      simp [hAin x hx]
    have h2 : (B.map kd.key).filter (fun k => (incoming.find? k).isNone) = B.map kd.key := by
      rw [List.filter_eq_self]
      intro k hk
      obtain ⟨x, hx, rfl⟩ := List.mem_map.mp hk
      exact hBout x hx
    rw [h1, h2, List.nil_append]
  rw [hkeys, hkeysFind B fun x hx => by rw [hsplit]; exact List.mem_append_right _ hx]
  exact hsplit.symm

/-- Items merged with themselves stay as they are. -/
theorem mergeKeyed_self (base : Option (Table T kd.key)) (items : Table T kd.key) :
    (kd.mergeKeyed base items items).1 = items.rows := by
  have hkeys : kd.mergeKeys items items = items.keys := by
    have hnone : items.keys.filter (fun k => (items.find? k).isNone) = [] := by
      rw [List.filter_eq_nil_iff]
      intro k hk
      rw [Option.isNone_iff_eq_none, Table.find?_eq_none]
      exact fun h => h hk
    rw [mergeKeys, hnone, List.append_nil]
  have hitem : ∀ x ∈ items.rows, (kd.mergeKey base items items (kd.key x)).1 = [x] := by
    intro x hx
    have hfind := Table.mem_rows_iff.mp hx
    cases base with
    | none => simp [mergeKey, hfind]
    | some b => rw [kd.mergeKey_same, hfind]; rfl
  rw [mergeKeyed_eq, hkeys, Table.keys, List.flatMap_map]
  have : ∀ l : List T, (∀ x ∈ l, x ∈ items.rows) →
      (l.flatMap fun x => (kd.mergeKey base items items (kd.key x)).1) = l := by
    intro l hl
    induction l with
    | nil => rfl
    | cons x l ih =>
      rw [List.flatMap_cons, hitem x (hl x List.mem_cons_self), ih fun y hy => hl y (List.mem_cons_of_mem _ hy)]
      rfl
  exact this _ fun _ h => h

end Keyed

/-! ## Conflicts -/

section
variable (base : Option Side) (localSide incoming : Side)

/-- The questions about one id. -/
def conflictsAt (id : String) : List PlanMirrorConflict :=
  ((mergeEntry base localSide incoming id 0).map (·.conflicts)).getD []

/-- A question is asked about the field. -/
def Contested (id : String) (f : AskedField) : Prop :=
  ∃ c ∈ conflictsAt base localSide incoming id, c.field = f

variable {base localSide incoming}

@[simp] theorem mergeOnly_conflicts (b : Option MirrorNode) (only : MirrorNode) (inLocal : Bool)
    (rank : Nat) : (mergeOnly b only inLocal rank).conflicts = [] := by
  unfold mergeOnly
  cases b with
  | none => rfl
  | some b => by_cases h : nodeModified only b = true <;> simp [h]

theorem conflictsAt_step {id : String} {rank : Nat} {step : EntryStep}
    (h : mergeEntry base localSide incoming id rank = some step) :
    step.conflicts = conflictsAt base localSide incoming id := by
  unfold conflictsAt
  unfold mergeEntry at h ⊢
  cases hl : localSide.byId.find? id <;> cases hi : incoming.byId.find? id <;>
    simp only [hl, hi] at h ⊢
  · cases h
  · cases h; simp
  · cases h; simp
  · cases base <;> cases h <;> rfl

theorem conflictsAt_of_not_local {id : String} (h : localSide.byId.find? id = none) :
    conflictsAt base localSide incoming id = [] := by
  unfold conflictsAt mergeEntry
  cases hi : incoming.byId.find? id <;> simp [h]

theorem conflictsAt_of_not_incoming {id : String} (h : incoming.byId.find? id = none) :
    conflictsAt base localSide incoming id = [] := by
  unfold conflictsAt mergeEntry
  cases hl : localSide.byId.find? id <;> simp [h]

theorem conflictsAt_of_no_base (id : String) : conflictsAt none localSide incoming id = [] := by
  unfold conflictsAt mergeEntry
  cases hl : localSide.byId.find? id <;> cases hi : incoming.byId.find? id <;>
    simp [mergeWithoutBase]

theorem conflictsAt_both {s : Side} {id : String} {l i : MirrorNode}
    (hl : localSide.byId.find? id = some l) (hi : incoming.byId.find? id = some i) :
    conflictsAt (some s) localSide incoming id =
      planMirrorAskedFields.filterMap (askedConflict (s.byId.find? id) l i) := by
  simp [conflictsAt, mergeEntry, hl, hi, mergeBoth]

theorem conflictsAt_nodeId {id : String} {c : PlanMirrorConflict}
    (h : c ∈ conflictsAt base localSide incoming id) : c.nodeId = id := by
  cases hl : localSide.byId.find? id with
  | none => simp [conflictsAt_of_not_local hl] at h
  | some l =>
    cases hi : incoming.byId.find? id with
    | none => simp [conflictsAt_of_not_incoming hi] at h
    | some i =>
      cases base with
      | none => simp [conflictsAt_of_no_base] at h
      | some s =>
        rw [conflictsAt_both hl hi, List.mem_filterMap] at h
        obtain ⟨f, _, hc⟩ := h
        obtain ⟨_, hc⟩ := Option.ite_none_right_eq_some.mp hc
        cases hc
        exact (Table.find?_key hl :)

theorem contested_both {s : Side} {id : String} {l i : MirrorNode}
    (hl : localSide.byId.find? id = some l) (hi : incoming.byId.find? id = some i) {f : AskedField} :
    Contested (some s) localSide incoming id f ↔ (pickAsked (s.byId.find? id) l i f).contested = true := by
  rw [Contested, conflictsAt_both hl hi]
  constructor
  · rintro ⟨c, hc, rfl⟩
    obtain ⟨f, _, hc⟩ := List.mem_filterMap.mp hc
    obtain ⟨hcontested, hc⟩ := Option.ite_none_right_eq_some.mp hc
    cases hc
    exact hcontested
  · intro h
    have hc : askedConflict (s.byId.find? id) l i f =
        some ⟨l.id, f, (s.byId.find? id).map (askedFields.get f), askedFields.get f l,
          askedFields.get f i⟩ := by
      rw [askedConflict, if_pos h]
    exact ⟨_, List.mem_filterMap.mpr ⟨f, mem_planMirrorAskedFields f, hc⟩, rfl⟩

theorem mergeSteps_conflicts (hl : localSide.Tree) (hi : incoming.Tree) :
    (mergeSteps base localSide incoming).flatMap (·.conflicts) =
      (incoming.nodes.map (·.id)).flatMap (conflictsAt base localSide incoming) := by
  have hsteps : ∀ (ids : List String) (k : Nat), (∀ id ∈ ids, id ∈ mergeIds localSide incoming) →
      ((ids.zipIdx k).filterMap fun p => mergeEntry base localSide incoming p.1 p.2).flatMap
        (·.conflicts) = ids.flatMap (conflictsAt base localSide incoming) := by
    intro ids
    induction ids with
    | nil => intros; rfl
    | cons id ids ih =>
      intro k hids
      obtain ⟨step, hstep⟩ := mergeEntry_isSome base k
        ((mem_mergeIds hl hi).mp (hids id List.mem_cons_self))
      rw [List.zipIdx_cons, List.filterMap_cons]
      simp only [hstep, List.flatMap_cons]
      rw [conflictsAt_step hstep, ih _ fun x hx => hids x (List.mem_cons_of_mem _ hx)]
  rw [mergeSteps, hsteps _ 0 fun _ h => h, mergeIds, List.flatMap_append]
  have hnone : ((localSide.nodes.map (·.id)).filter (fun id => (incoming.byId.find? id).isNone)).flatMap
      (conflictsAt base localSide incoming) = [] := by
    rw [List.flatMap_eq_nil_iff]
    intro id hid
    exact conflictsAt_of_not_incoming (by simpa using (List.mem_filter.mp hid).2)
  rw [hnone, List.append_nil]

/-- The conflicts of the merge about one id. -/
theorem conflicts_filter (hi : incoming.Tree) (id : String) :
    ((incoming.nodes.map (·.id)).flatMap (conflictsAt base localSide incoming)).filter (·.nodeId = id) =
      conflictsAt base localSide incoming id := by
  have hids : (incoming.nodes.map (·.id)).Nodup := by
    rw [← hi.rows]
    exact incoming.byId.nodup
  have hone : ∀ id', (conflictsAt base localSide incoming id').filter (·.nodeId = id) =
      if id' = id then conflictsAt base localSide incoming id else [] := by
    intro id'
    split
    · next h =>
      subst h
      rw [List.filter_eq_self]
      intro c hc
      simpa using conflictsAt_nodeId hc
    · next h =>
      rw [List.filter_eq_nil_iff]
      intro c hc
      rw [conflictsAt_nodeId hc]
      simpa using h
  have hlist : ∀ ids : List String, ids.Nodup →
      (ids.flatMap (conflictsAt base localSide incoming)).filter (·.nodeId = id) =
        if id ∈ ids then conflictsAt base localSide incoming id else [] := by
    intro ids hnodup
    induction ids with
    | nil => rfl
    | cons id' ids ih =>
      rw [List.nodup_cons] at hnodup
      rw [List.flatMap_cons, List.filter_append, hone, ih hnodup.2]
      by_cases hid : id' = id
      · subst hid
        simp [hnodup.1]
      · simp [hid, Ne.symm hid]
  rw [hlist _ hids]
  split
  · rfl
  · next h =>
    refine (conflictsAt_of_not_incoming (Table.find?_eq_none.mpr fun hmem => h ?_)).symm
    exact hi.mem_keys.mp hmem

end

/-! ## The plan that is written -/

section
variable {base : Option Side} {localSide incoming : Side}

/-- Putting contested fields back writes local's values into them. -/
theorem targetNode_eq {conflicts : List PlanMirrorConflict} {n l : MirrorNode}
    (hl : localSide.byId.find? n.id = some l) : targetNode localSide conflicts n =
      askedFields.setAll (fun f => askedFields.get f l)
        ((conflicts.filter (·.nodeId = n.id)).map (·.field)) n := by
  rw [targetNode, hl]
  simp only [Fields.setAll, List.foldl_map]

@[simp] theorem targetNode_id (conflicts : List PlanMirrorConflict) (n : MirrorNode) :
    (targetNode localSide conflicts n).id = n.id := by
  cases hl : localSide.byId.find? n.id with
  | none => rw [targetNode, hl]
  | some l => rw [targetNode_eq hl, setAll_id]

@[simp] theorem targetNode_parentId (conflicts : List PlanMirrorConflict) (n : MirrorNode) :
    (targetNode localSide conflicts n).parentId = n.parentId := by
  cases hl : localSide.byId.find? n.id with
  | none => rw [targetNode, hl]
  | some l => rw [targetNode_eq hl, setAll_parentId]

@[simp] theorem targetNode_ordinal (conflicts : List PlanMirrorConflict) (n : MirrorNode) :
    (targetNode localSide conflicts n).ordinal = n.ordinal := by
  cases hl : localSide.byId.find? n.id with
  | none => rw [targetNode, hl]
  | some l => rw [targetNode_eq hl, setAll_ordinal]

/-- A node without a question is written as merged. -/
theorem targetNode_unasked {conflicts : List PlanMirrorConflict} {n : MirrorNode}
    (h : conflicts.filter (·.nodeId = n.id) = []) : targetNode localSide conflicts n = n := by
  cases hl : localSide.byId.find? n.id with
  | none => rw [targetNode, hl]
  | some l => rw [targetNode_eq hl, h]; rfl

end

namespace MergeRun

variable {base : Option Side} {localSide incoming : Side} {rewired : Entries}
  {broken : List PlanMirrorReport} {kept : Keeping} {m : PlanMirrorMerge}

theorem conflicts_eq (h : MergeRun base localSide incoming rewired broken kept m)
    (hl : localSide.Tree) (hi : incoming.Tree) : m.conflicts =
      (incoming.nodes.map (·.id)).flatMap (conflictsAt base localSide incoming) := by
  rw [h.conflicts, mergeSteps_conflicts hl hi]

theorem conflicts_at (h : MergeRun base localSide incoming rewired broken kept m)
    (hl : localSide.Tree) (hi : incoming.Tree) (id : String) :
    m.conflicts.filter (·.nodeId = id) = conflictsAt base localSide incoming id := by
  rw [h.conflicts_eq hl hi, conflicts_filter hi]

/-- How a node that is written was decided. -/
inductive Decided (base : Option Side) (localSide incoming : Side) (n : MirrorNode) : Prop
  | both (s : Side) (l i : MirrorNode) (hbase : base = some s)
      (hl : localSide.byId.find? n.id = some l) (hi : incoming.byId.find? n.id = some i)
      (ordinal : n.ordinal = (pick3 ((s.byId.find? n.id).map (·.ordinal)) l.ordinal i.ordinal).value)
      (asked : ∀ f, askedFields.get f n = (pickAsked (s.byId.find? n.id) l i f).value)
  | first (l i : MirrorNode) (hbase : base = none)
      (hl : localSide.byId.find? n.id = some l) (hi : incoming.byId.find? n.id = some i)
      (ordinal : n.ordinal = i.ordinal) (asked : ∀ f, askedFields.get f n = askedFields.get f i)
  | localOnly (hl : localSide.byId.find? n.id = some n) (hi : incoming.byId.find? n.id = none)
  | incomingOnly (hl : localSide.byId.find? n.id = none) (hi : incoming.byId.find? n.id = some n)

theorem decided (h : MergeRun base localSide incoming rewired broken kept m) (hl : localSide.Tree)
    (hi : incoming.Tree) {id : String} {e : Entry} (he : rewired.find? id = some e) :
    Decided base localSide incoming (targetNode localSide m.conflicts e.node) := by
  have hid : e.node.id = id := (Table.find?_key he :)
  obtain ⟨step, _, hstep, hrew⟩ := h.step_of_find hl hi he
  have hat := h.conflicts_at hl hi id
  rcases mergeEntry_cases hstep with ⟨l, i, hlf, hif, ⟨rfl, rfl⟩ | ⟨s, rfl, rfl⟩⟩ | ⟨l, hlf, hif, rfl⟩ |
    ⟨i, hlf, hif, rfl⟩
  · rw [conflictsAt_of_no_base] at hat
    rw [targetNode_unasked (by rw [hid]; exact hat)]
    refine .first l i rfl (hid ▸ hlf) (hid ▸ hif) hrew.ordinal_eq fun f => hrew.asked_eq f
  · refine .both s l i rfl (by rw [targetNode_id, hid]; exact hlf) (by rw [targetNode_id, hid]; exact hif)
      ?_ fun f => ?_
    · rw [targetNode_ordinal, hrew.ordinal_eq, mergeBoth_ordinal, targetNode_id, hid]
    · rw [targetNode_id, targetNode_eq (hid ▸ hlf), hid, hat]
      by_cases hc : Contested (some s) localSide incoming id f
      · have hmem : f ∈ (conflictsAt (some s) localSide incoming id).map (·.field) :=
          List.mem_map.mpr hc
        rw [askedFields.get_setAll_of_mem hmem]
        exact (pick3_contested ((contested_both hlf hif).mp hc)).symm
      · have hmem : f ∉ (conflictsAt (some s) localSide incoming id).map (·.field) :=
          fun hmem => hc (List.mem_map.mp hmem)
        rw [askedFields.get_setAll_of_not_mem _ _ hmem, hrew.asked_eq, mergeBoth_asked, askedValue,
          if_neg fun hcontested => hc ((contested_both hlf hif).mpr hcontested)]
  · rw [conflictsAt_of_not_incoming hif] at hat
    rw [targetNode_unasked (by rw [hid]; exact hat)]
    have hnode : e.node = l := by
      rcases hrew with heq | ⟨hf, _⟩
      · simpa using congrArg Entry.node heq
      · simp at hf
    rw [hnode] at hid ⊢
    exact .localOnly (hid ▸ hlf) (hid ▸ hif)
  · rw [conflictsAt_of_not_local hlf] at hat
    rw [targetNode_unasked (by rw [hid]; exact hat)]
    have hnode : e.node = i := by
      rcases hrew with heq | ⟨hf, _⟩
      · simpa using congrArg Entry.node heq
      · simp at hf
    rw [hnode] at hid ⊢
    exact .incomingOnly (hid ▸ hlf) (hid ▸ hif)

end MergeRun

/-! ## Display order -/

/-- In the order that the merge gives its nodes, `ids` being the order of the first loop. -/
def Before (ids : List String) (a b : MirrorNode) : Prop :=
  a.ordinal < b.ordinal ∨ (a.ordinal = b.ordinal ∧ ids.idxOf a.id ≤ ids.idxOf b.id)

instance : Std.Total ordinalThenRank := ⟨fun a b => by unfold ordinalThenRank; omega⟩

instance : IsTrans Entry ordinalThenRank := ⟨fun a b c hab hbc => by
  unfold ordinalThenRank at *; omega⟩

theorem pairwise_idxOf {ids : List String} (h : ids.Nodup) :
    ids.Pairwise fun a b => ids.idxOf a ≤ ids.idxOf b := by
  rw [List.pairwise_iff_getElem]
  intro a b ha hb hab
  rw [h.idxOf_getElem a ha, h.idxOf_getElem b hb]
  exact Nat.le_of_lt hab

namespace MergeRun

variable {base : Option Side} {localSide incoming : Side} {rewired : Entries}
  {broken : List PlanMirrorReport} {kept : Keeping} {m : PlanMirrorMerge}

theorem rank_eq (h : MergeRun base localSide incoming rewired broken kept m) (hl : localSide.Tree)
    (hi : incoming.Tree) {id : String} {e : Entry} (he : kept.entries.find? id = some e) :
    e.rank = (mergeIds localSide incoming).idxOf id := by
  obtain ⟨e₀, c, he₀, rfl, _⟩ := h.keptInv.start_find he
  obtain ⟨step, hmem, hstep, _⟩ := h.step_of_find hl hi he₀
  obtain ⟨id', rank, hzip, hstep'⟩ := mem_mergeSteps.mp hmem
  have hid : id' = id := (mergeEntry_id hstep').symm.trans (mergeEntry_id hstep)
  have hrank : rank = e₀.rank := (mergeEntry_rank hstep').symm.trans (mergeEntry_rank hstep)
  subst hid
  subst hrank
  obtain ⟨hlt, hget⟩ := List.getElem?_eq_some_iff.mp (List.mk_mem_zipIdx_iff_getElem?.mp hzip)
  show e₀.rank = _
  rw [← hget, (mergeIds_nodup hl hi).idxOf_getElem]

theorem nodes_ordered (h : MergeRun base localSide incoming rewired broken kept m)
    (hl : localSide.Tree) (hi : incoming.Tree) :
    m.merged.nodes.Pairwise (Before (mergeIds localSide incoming)) := by
  rw [h.nodes, liveNodes, List.pairwise_map]
  refine (List.pairwise_insertionSort ordinalThenRank _).imp_of_mem ?_
  intro a b ha hb hab
  have hrank : ∀ e ∈ (kept.entries.rows.filter (·.candidate.isNone)).insertionSort ordinalThenRank,
      e.rank = (mergeIds localSide incoming).idxOf e.node.id := by
    intro e he
    rw [List.mem_insertionSort] at he
    exact h.rank_eq hl hi (Table.mem_rows_iff.mp (List.mem_filter.mp he).1)
  unfold Before
  rw [← hrank a ha, ← hrank b hb]
  exact hab

end MergeRun

/-- The nodes of a plan that is in display order stay so when the plan itself becomes the local
side: its ids follow incoming's in the plan's own order. -/
theorem pairwise_before_again {localSide incoming plan : Side} (hplan : plan.Tree) (hi : incoming.Tree)
    (h : plan.nodes.Pairwise (Before (mergeIds localSide incoming))) :
    plan.nodes.Pairwise (Before (mergeIds plan incoming)) := by
  have hnodup : ((plan.nodes.map (·.id)).filter fun id => (incoming.byId.find? id).isNone).Nodup := by
    rw [← hplan.rows]
    exact plan.byId.nodup.filter _
  have hown := pairwise_idxOf hnodup
  rw [List.pairwise_filter, List.pairwise_map] at hown
  refine h.imp₂ (fun a b hab hidx => ?_) hown
  rcases hab with hlt | ⟨heq, hle⟩
  · exact .inl hlt
  · refine .inr ⟨heq, ?_⟩
    have hisNone : ∀ x : MirrorNode, x.id ∉ incoming.nodes.map (·.id) →
        (incoming.byId.find? x.id).isNone = true := by
      intro x hx
      rw [Option.isNone_iff_eq_none, Table.find?_eq_none, hi.mem_keys]
      exact hx
    by_cases ha : a.id ∈ incoming.nodes.map (·.id) <;> by_cases hb : b.id ∈ incoming.nodes.map (·.id)
    · rw [mergeIds, List.idxOf_append_of_mem ha, List.idxOf_append_of_mem hb] at hle ⊢
      exact hle
    · rw [mergeIds, List.idxOf_append_of_mem ha, List.idxOf_append_of_notMem hb]
      have := List.idxOf_lt_length_of_mem ha
      omega
    · rw [mergeIds, List.idxOf_append_of_notMem ha, List.idxOf_append_of_mem hb] at hle
      have := List.idxOf_lt_length_of_mem hb
      omega
    · rw [mergeIds, List.idxOf_append_of_notMem ha, List.idxOf_append_of_notMem hb]
      exact Nat.add_le_add_left (hidx (hisNone a ha) (hisNone b hb)) _

/-- Two lists with the same nodes in display order are the same list. -/
theorem eq_of_before {ids : List String} {l₁ l₂ : List MirrorNode} (hids : ∀ n ∈ l₁, n.id ∈ ids)
    (hnodup : (l₂.map (·.id)).Nodup) (h₁ : l₁.Pairwise (Before ids)) (h₂ : l₂.Pairwise (Before ids))
    (hperm : l₁.Perm l₂) : l₁ = l₂ := by
  refine List.Perm.eq_of_pairwise (fun a b ha hb hab hba => ?_) h₁ h₂ hperm
  unfold Before at hab hba
  have hidx : ids.idxOf a.id = ids.idxOf b.id := by omega
  have hid : a.id = b.id := (List.idxOf_inj (hids a ha)).mp hidx
  exact List.inj_on_of_nodup_map hnodup (hperm.mem_iff.mp ha) hb hid

/-! ## The second merge -/

/-- What a reconcile leaves in the base, next to the base before it: for a node of the payload the
old entry, or the payload's with the contested fields at their old base; else nothing or the old
entry. -/
structure BaseAfter (base : Option Side) (localSide incoming base' : Side) : Prop where
  shared : ∀ id x, incoming.byId.find? id = some x →
    base'.byId.find? id = baseNode base id ∨
    ∃ y, base'.byId.find? id = some y ∧ y.parentId = x.parentId ∧ y.ordinal = x.ordinal ∧
      ∀ f, (askedFields.get f y = askedFields.get f x ∧ ¬ Contested base localSide incoming id f) ∨
        (Contested base localSide incoming id f ∧
          (baseNode base id).map (askedFields.get f) = some (askedFields.get f y))
  other : ∀ id, incoming.byId.find? id = none →
    base'.byId.find? id = none ∨ base'.byId.find? id = baseNode base id

/-- Wherever the base has a node at its plan parent and incoming has it elsewhere, incoming's parent
is the node itself or under it in the plan, so the node cannot move there. -/
def Side.Anchored (base plan incoming : Side) : Prop :=
  ∀ id b n i, base.byId.find? id = some b → plan.byId.find? id = some n →
    incoming.byId.find? id = some i → b.parentId = n.parentId → i.parentId ≠ n.parentId →
    ∃ p, i.parentId = some p ∧ (p = id ∨ Above plan.parentOf p id)

/-- A second merge, of the plan that the first one wrote. -/
structure SecondMerge (base : Option Side) (localSide incoming : Side) (rewired : Entries)
    (m : PlanMirrorMerge) (base' plan incoming' : Side) : Prop where
  localTree : localSide.Tree
  incomingTree : incoming.Tree
  planTree : plan.Tree
  nodes : plan.nodes = m.merged.nodes.map (targetNode localSide m.conflicts)
  sameNodes : incoming'.nodes = incoming.nodes
  sameById : incoming'.byId = incoming.byId
  after : BaseAfter base localSide incoming base'
  anchored : base'.Anchored plan incoming

namespace SecondMerge

variable {base : Option Side} {localSide incoming base' plan incoming' : Side}
  {rewired rewired' : Entries} {broken broken' : List PlanMirrorReport} {kept kept' : Keeping}
  {m m' : PlanMirrorMerge}

theorem incomingTree' (h : SecondMerge base localSide incoming rewired m base' plan incoming') :
    incoming'.Tree := by
  have hparent : incoming'.parentOf = incoming.parentOf := by
    funext id
    rw [Side.parentOf, Side.parentOf, h.sameById]
  refine ⟨?_, ?_, ?_⟩
  · rw [h.sameById, h.sameNodes]
    exact h.incomingTree.rows
  · rw [hparent, h.sameById]
    exact h.incomingTree.closed
  · rw [hparent]
    exact h.incomingTree.rooted

theorem find_plan (h : SecondMerge base localSide incoming rewired m base' plan incoming')
    (hrun : MergeRun base localSide incoming rewired broken kept m) {id : String} {n : MirrorNode} :
    plan.byId.find? id = some n ↔ ∃ e, rewired.find? id = some e ∧ rewired.Stays id ∧
      targetNode localSide m.conflicts e.node = n := by
  rw [Table.find?_eq_some, h.planTree.rows, h.nodes, List.mem_map]
  constructor
  · rintro ⟨⟨x, hx, rfl⟩, hid⟩
    rw [targetNode_id] at hid
    obtain ⟨⟨e, he, rfl⟩, hstays⟩ := hrun.mem_nodes.mp hx
    exact ⟨e, hid ▸ he, hid ▸ hstays, rfl⟩
  · rintro ⟨e, he, hstays, rfl⟩
    have hid : e.node.id = id := (Table.find?_key he :)
    exact ⟨⟨e.node, hrun.mem_nodes.mpr ⟨⟨e, hid ▸ he, rfl⟩, hid ▸ hstays⟩, rfl⟩, by simpa using hid⟩

theorem mem_plan (h : SecondMerge base localSide incoming rewired m base' plan incoming')
    (hrun : MergeRun base localSide incoming rewired broken kept m) {id : String} :
    id ∈ plan.byId.keys ↔ rewired.Stays id := by
  rw [Table.mem_keys_iff_find?]
  constructor
  · rintro ⟨n, hn⟩
    obtain ⟨e, _, hstays, _⟩ := (h.find_plan hrun).mp hn
    exact hstays
  · intro hstays
    obtain ⟨e, he⟩ := Table.mem_keys_iff_find?.mp (hrun.stays_mem h.localTree h.incomingTree hstays)
    exact ⟨_, (h.find_plan hrun).mpr ⟨e, he, hstays, rfl⟩⟩

theorem parent_plan (h : SecondMerge base localSide incoming rewired m base' plan incoming')
    (hrun : MergeRun base localSide incoming rewired broken kept m) {id : String}
    (hid : id ∈ plan.byId.keys) : plan.parentOf id = rewired.parentOf id := by
  obtain ⟨n, hn⟩ := Table.mem_keys_iff_find?.mp hid
  obtain ⟨e, he, _, rfl⟩ := (h.find_plan hrun).mp hn
  rw [Side.parentOf_find hn, targetNode_parentId, parentOf_find he]

theorem decided (h : SecondMerge base localSide incoming rewired m base' plan incoming')
    (hrun : MergeRun base localSide incoming rewired broken kept m) {id : String} {n : MirrorNode}
    (hn : plan.byId.find? id = some n) : MergeRun.Decided base localSide incoming n := by
  obtain ⟨e, he, _, rfl⟩ := (h.find_plan hrun).mp hn
  exact hrun.decided h.localTree h.incomingTree he

theorem unmodified (h : SecondMerge base localSide incoming rewired m base' plan incoming')
    (hrun : MergeRun base localSide incoming rewired broken kept m) {id : String} {x : MirrorNode}
    (hx : incoming.byId.find? id = some x) (hplan : plan.byId.find? id = none) :
    ∃ b, base'.byId.find? id = some b ∧ nodeModified x b = false := by
  have hnot : ¬ rewired.Stays id := by
    rw [← h.mem_plan hrun]
    exact Table.find?_eq_none.mp hplan
  have hkept : ¬ KeptAlone base localSide incoming id := fun hk =>
    hnot ((hrun.stays_iff h.localTree h.incomingTree).mpr ⟨id, hk, .inl rfl⟩)
  have hlocal : localSide.byId.find? id = none := by
    rw [Table.find?_eq_none]
    exact fun hl => hkept (.inl ⟨hl, Table.mem_keys_iff_find?.mpr ⟨x, hx⟩⟩)
  obtain ⟨b, hb, hmod⟩ : ∃ b, baseNode base id = some b ∧ nodeModified x b = false := by
    by_contra hno
    refine hkept (.inr ⟨x, .inr ⟨hlocal, hx⟩, fun b hb => ?_⟩)
    by_contra hmod
    exact hno ⟨b, hb, by simpa using hmod⟩
  rcases h.after.shared id x hx with hsame | ⟨y, hy, hparent, hordinal, hasked⟩
  · exact ⟨b, hsame.trans hb, hmod⟩
  · refine ⟨y, hy, ?_⟩
    have hall : ∀ f, askedFields.get f x = askedFields.get f y := by
      intro f
      rcases hasked f with ⟨heq, _⟩ | ⟨⟨c, hc, _⟩, _⟩
      · exact heq.symm
      · rw [conflictsAt_of_not_local hlocal] at hc
        cases hc
    have hdiffer : askedFields.differ planMirrorAskedFields x y = false :=
      askedFields.differ_eq_false.mpr fun f _ => hall f
    simp [nodeModified, hparent, hordinal, hdiffer]

/-- A node that the first merge kept on its own account is kept so again. -/
theorem keptAlone (h : SecondMerge base localSide incoming rewired m base' plan incoming')
    (hrun : MergeRun base localSide incoming rewired broken kept m) {id : String}
    (hk : KeptAlone base localSide incoming id) : KeptAlone (some base') plan incoming' id := by
  have hplan : id ∈ plan.byId.keys := (h.mem_plan hrun).mpr
    ((hrun.stays_iff h.localTree h.incomingTree).mpr ⟨id, hk, .inl rfl⟩)
  by_cases hi : id ∈ incoming.byId.keys
  · exact .inl ⟨hplan, h.sameById ▸ hi⟩
  · have hnone := Table.find?_eq_none.mpr hi
    obtain ⟨n, hn⟩ := Table.mem_keys_iff_find?.mp hplan
    have hid : n.id = id := Table.find?_key hn
    have hlocal : localSide.byId.find? id = some n := by
      cases h.decided hrun hn with
      | both s l i _ _ hi' => simp [hid, hnone] at hi'
      | first l i _ _ hi' => simp [hid, hnone] at hi'
      | localOnly hl _ => exact hid ▸ hl
      | incomingOnly _ hi' => simp [hid, hnone] at hi'
    refine .inr ⟨n, .inl ⟨hn, h.sameById ▸ hnone⟩, fun b hb => ?_⟩
    rcases hk with ⟨_, hk⟩ | ⟨only, ⟨honly, _⟩ | ⟨_, honly⟩, hmod⟩
    · exact absurd hk hi
    · rw [hlocal] at honly
      cases honly
      rcases h.after.other id hnone with hb' | hb'
      · rw [baseNode, Option.bind_some, hb'] at hb
        cases hb
      · rw [baseNode, Option.bind_some, hb'] at hb
        exact hmod b hb
    · rw [hnone] at honly
      cases honly

/-- The parent of a node of the plan: the plan's, or, under a node that is still above it, incoming's. -/
theorem parent_or_under (h : SecondMerge base localSide incoming rewired m base' plan incoming')
    (hrun' : MergeRun (some base') plan incoming' rewired' broken' kept' m') {id : String}
    (hid : id ∈ plan.byId.keys) : rewired'.parentOf id = plan.parentOf id ∨
      ∃ p, rewired'.parentOf id = some p ∧ (p = id ∨ Above plan.parentOf p id) := by
  obtain ⟨e, he⟩ := Table.mem_keys_iff_find?.mp ((hrun'.sound.keys id).mpr (.inl hid))
  have heid : e.node.id = id := (Table.find?_key he :)
  have hsound := hrun'.sound.sound id e he
  have hlocal : e.inLocal = true := hsound.inLocal.mpr (heid.symm ▸ hid)
  cases hfrom : e.parentFromIncoming with
  | false =>
    refine .inl ?_
    rw [parentOf_find he, hsound.localParent hlocal hfrom, heid]
  | true =>
    right
    obtain ⟨step, _, hstep, hrew⟩ := hrun'.step_of_find h.planTree h.incomingTree' he
    have hsame : e = step.entry := by
      rcases hrew with hrew | ⟨_, hrew⟩
      · exact hrew
      · rw [hrew] at hfrom
        cases hfrom
    have hstepFrom : step.entry.parentFromIncoming = true := hsame ▸ hfrom
    rcases mergeEntry_cases hstep with ⟨n, i, hn, hi, ⟨hb, _⟩ | ⟨s, hs, rfl⟩⟩ | ⟨n, _, _, rfl⟩ | ⟨i, _, _, rfl⟩
    · cases hb
    · cases hs
      have hne : (pick3 ((base'.byId.find? id).map (·.parentId)) n.parentId i.parentId).value ≠
          n.parentId := by simpa [mergeBoth] using hstepFrom
      have hval := (pick3_value ((base'.byId.find? id).map (·.parentId)) n.parentId
        i.parentId).resolve_left hne
      have hbase : (base'.byId.find? id).map (·.parentId) = some n.parentId := by
        by_contra hb
        refine hne ?_
        unfold pick3
        split
        · rfl
        · split <;> rfl
      obtain ⟨b, hb, hbn⟩ := Option.map_eq_some_iff.mp hbase
      obtain ⟨p, hp, hrel⟩ := h.anchored id b n i hb hn (h.sameById ▸ hi) hbn (hval ▸ hne)
      refine ⟨p, ?_, hrel⟩
      rw [parentOf_find he, hsame, mergeBoth_parentId, hval, hp]
    · simp at hstepFrom
    · simp at hstepFrom

/-- No node of the plan moves: those at and under a node that did would never reach the root. -/
theorem parent_again (h : SecondMerge base localSide incoming rewired m base' plan incoming')
    (hrun' : MergeRun (some base') plan incoming' rewired' broken' kept' m') {id : String}
    (hid : id ∈ plan.byId.keys) : rewired'.parentOf id = plan.parentOf id := by
  rcases h.parent_or_under hrun' hid with hsame | ⟨p, hp, hrel⟩
  · exact hsame
  · have hkey : ∀ y, y = id ∨ Above plan.parentOf y id → y ∈ plan.byId.keys := by
      rintro y (rfl | habove)
      · exact hid
      · obtain ⟨z, hz, _⟩ := above_iff.mp habove
        obtain ⟨n, hn, _⟩ := Option.bind_eq_some_iff.mp hz
        exact Table.mem_keys_iff_find?.mpr ⟨n, hn⟩
    have htrap : Trapped rewired'.parentOf fun y => y = id ∨ Above plan.parentOf y id := by
      intro y hy
      by_cases hyid : y = id
      · exact ⟨p, hyid ▸ hp, hrel⟩
      · have habove := hy.resolve_left hyid
        rcases h.parent_or_under hrun' (hkey y hy) with hsame | ⟨q, hq, hrelq⟩
        · obtain ⟨z, hz, hzid⟩ := above_iff.mp habove
          exact ⟨z, hsame.trans hz, hzid⟩
        · refine ⟨q, hq, ?_⟩
          rcases hrelq with rfl | hqy
          · exact hy
          · exact .inr (hqy.trans habove)
    exact absurd (.inl rfl) ((hrun'.rooted id).not_trapped htrap)

theorem stays_again (h : SecondMerge base localSide incoming rewired m base' plan incoming')
    (hrun : MergeRun base localSide incoming rewired broken kept m)
    (hrun' : MergeRun (some base') plan incoming' rewired' broken' kept' m') {id : String} :
    rewired'.Stays id ↔ id ∈ plan.byId.keys := by
  have hparent : ∀ id p, id ∈ plan.byId.keys → rewired'.parentOf id = some p → p ∈ plan.byId.keys := by
    intro id p hid hp
    rw [h.parent_again hrun' hid] at hp
    exact h.planTree.closed id p hp
  constructor
  · intro hstays
    obtain ⟨d, hk, hrel⟩ := (hrun'.stays_iff h.planTree h.incomingTree').mp hstays
    have hd : d ∈ plan.byId.keys := by
      rcases hk with ⟨hd, _⟩ | ⟨only, ⟨honly, _⟩ | ⟨hnone, honly⟩, hmod⟩
      · exact hd
      · exact Table.mem_keys_iff_find?.mpr ⟨only, honly⟩
      · obtain ⟨b, hb, hun⟩ := h.unmodified hrun (h.sameById ▸ honly) hnone
        rw [hmod b hb] at hun
        cases hun
    rcases hrel with rfl | habove
    · exact hd
    · clear hstays
      induction habove with
      | single hp => exact hparent _ _ hd hp
      | tail _ hp ih => exact hparent _ _ ih hp
  · intro hid
    obtain ⟨d, hk, hrel⟩ := (hrun.stays_iff h.localTree h.incomingTree).mp ((h.mem_plan hrun).mp hid)
    refine (hrun'.stays_iff h.planTree h.incomingTree').mpr ⟨d, h.keptAlone hrun hk, hrel.imp_right ?_⟩
    have hd : rewired.Stays d :=
      (hrun.stays_iff h.localTree h.incomingTree).mpr ⟨d, hk, .inl rfl⟩
    refine Above.congr (s := rewired.Stays) (fun x hx => ?_) (fun x y hx hy => hx.parent hy) hd
    have hx' := (h.mem_plan hrun).mpr hx
    rw [h.parent_again hrun' hx', h.parent_plan hrun hx']

theorem pickAsked_again (h : SecondMerge base localSide incoming rewired m base' plan incoming')
    {s : Side} (hbase : base = some s) {id : String} {l i n : MirrorNode} (hl : localSide.byId.find? id = some l)
    (hi : incoming.byId.find? id = some i)
    (hasked : ∀ f, askedFields.get f n = (pickAsked (s.byId.find? id) l i f).value) (f : AskedField) :
    pickAsked (base'.byId.find? id) n i f = pickAsked (s.byId.find? id) l i f ∧
      (Contested base localSide incoming id f →
        (base'.byId.find? id).map (askedFields.get f) = (s.byId.find? id).map (askedFields.get f)) := by
  subst hbase
  have hb : (base'.byId.find? id).map (askedFields.get f) = (s.byId.find? id).map (askedFields.get f) ∨
      ((base'.byId.find? id).map (askedFields.get f) = some (askedFields.get f i) ∧
        ¬ Contested (some s) localSide incoming id f) := by
    rcases h.after.shared id i hi with hsame | ⟨y, hy, _, _, hf⟩
    · rw [hsame]
      exact .inl rfl
    · rw [hy, Option.map_some]
      rcases hf f with ⟨heq, hnot⟩ | ⟨_, heq⟩
      · exact .inr ⟨congrArg some heq, hnot⟩
      · exact .inl heq.symm
  constructor
  · unfold pickAsked
    rw [hasked f]
    refine pick3_again (hb.imp_right fun hb => ⟨hb.1, ?_⟩)
    rw [← Bool.not_eq_true]
    exact fun hc => hb.2 ((contested_both hl hi).mpr hc)
  · intro hc
    rcases hb with hb | ⟨_, hnot⟩
    · exact hb
    · exact absurd hc hnot

theorem asked_again (h : SecondMerge base localSide incoming rewired m base' plan incoming')
    (hrun : MergeRun base localSide incoming rewired broken kept m) {id : String} {n i : MirrorNode}
    (hn : plan.byId.find? id = some n) (hi : incoming.byId.find? id = some i) :
    (∀ f, (pickAsked (base'.byId.find? id) n i f).value = askedFields.get f n) ∧
      planMirrorAskedFields.filterMap (askedConflict (base'.byId.find? id) n i) =
        conflictsAt base localSide incoming id := by
  have hid : n.id = id := Table.find?_key hn
  have hunasked : (∀ f, askedFields.get f n = askedFields.get f i) →
      conflictsAt base localSide incoming id = [] →
      (∀ f, (pickAsked (base'.byId.find? id) n i f).value = askedFields.get f n) ∧
        planMirrorAskedFields.filterMap (askedConflict (base'.byId.find? id) n i) =
          conflictsAt base localSide incoming id := by
    intro hsame hnone
    have hpick : ∀ f, pickAsked (base'.byId.find? id) n i f = ⟨askedFields.get f n, false⟩ := by
      intro f
      rw [pickAsked, hsame f, pick3_same]
    refine ⟨fun f => by rw [hpick f], ?_⟩
    rw [hnone, List.filterMap_eq_nil_iff]
    intro f _
    rw [askedConflict, hpick f]
    rfl
  cases h.decided hrun hn with
  | both s l i' hbase hl hi' _ hasked =>
    rw [hid] at hl hi' hasked
    rw [hi] at hi'
    cases hi'
    have hagain := fun f => h.pickAsked_again hbase hl hi hasked f
    refine ⟨fun f => by rw [(hagain f).1, hasked f], ?_⟩
    subst hbase
    rw [conflictsAt_both hl hi]
    refine List.filterMap_congr fun f _ => ?_
    unfold askedConflict
    rw [(hagain f).1]
    split
    · next hc =>
      have hlocal : n.asked f = l.asked f := (hasked f).trans (pick3_contested hc)
      have hbefore : (base'.byId.find? id).map (MirrorNode.asked f) = (s.byId.find? id).map (MirrorNode.asked f) :=
        (hagain f).2 ((contested_both hl hi).mpr hc)
      have hlid : n.id = l.id := hid.trans (Table.find?_key hl : l.id = id).symm
      show some (⟨n.id, f, (base'.byId.find? id).map (MirrorNode.asked f), n.asked f, i.asked f⟩ :
          PlanMirrorConflict) =
        some ⟨l.id, f, (s.byId.find? id).map (MirrorNode.asked f), l.asked f, i.asked f⟩
      rw [hbefore, hlocal, hlid]
    · rfl
  | first l i' hbase hl hi' _ hasked =>
    rw [hid, hi] at hi'
    cases hi'
    refine hunasked hasked ?_
    rw [hbase]
    exact conflictsAt_of_no_base id
  | localOnly _ hi' =>
    rw [hid, hi] at hi'
    cases hi'
  | incomingOnly hl hi' =>
    rw [hid, hi] at hi'
    cases hi'
    exact hunasked (fun _ => rfl) (conflictsAt_of_not_local (hid ▸ hl))

theorem ordinal_again (h : SecondMerge base localSide incoming rewired m base' plan incoming')
    (hrun : MergeRun base localSide incoming rewired broken kept m) {id : String} {n i : MirrorNode}
    (hn : plan.byId.find? id = some n) (hi : incoming.byId.find? id = some i) :
    (pick3 ((base'.byId.find? id).map (·.ordinal)) n.ordinal i.ordinal).value = n.ordinal := by
  have hid : n.id = id := Table.find?_key hn
  cases h.decided hrun hn with
  | both s l i' hbase hl hi' hordinal _ =>
    rw [hid, hi] at hi'
    cases hi'
    rw [hid] at hordinal
    rw [hordinal]
    refine pick3_again_value ?_
    rcases h.after.shared id i hi with hsame | ⟨y, hy, _, hy', _⟩
    · rw [hsame, hbase]
      exact .inl rfl
    · rw [hy, Option.map_some, hy']
      exact .inr rfl
  | first l i' _ _ hi' hordinal _ =>
    rw [hid, hi] at hi'
    cases hi'
    rw [hordinal, pick3_same]
  | localOnly _ hi' =>
    rw [hid, hi] at hi'
    cases hi'
  | incomingOnly _ hi' =>
    rw [hid, hi] at hi'
    cases hi'
    rw [pick3_same]

/-- The second merge asks the same questions. -/
theorem conflicts_again (h : SecondMerge base localSide incoming rewired m base' plan incoming')
    (hrun : MergeRun base localSide incoming rewired broken kept m)
    (hrun' : MergeRun (some base') plan incoming' rewired' broken' kept' m') :
    m'.conflicts = m.conflicts := by
  rw [hrun'.conflicts_eq h.planTree h.incomingTree', hrun.conflicts_eq h.localTree h.incomingTree,
    h.sameNodes]
  refine List.flatMap_congr fun id hid => ?_
  obtain ⟨i, hi⟩ := Table.mem_keys_iff_find?.mp (h.incomingTree.mem_keys.mpr hid)
  cases hn : plan.byId.find? id with
  | some n =>
    rw [conflictsAt_both hn (h.sameById ▸ hi)]
    exact (h.asked_again hrun hn hi).2
  | none =>
    rw [conflictsAt_of_not_local hn]
    refine (conflictsAt_of_not_local ?_).symm
    rw [Table.find?_eq_none]
    intro hlocal
    refine Table.find?_eq_none.mp hn ((h.mem_plan hrun).mpr ?_)
    refine (hrun.stays_iff h.localTree h.incomingTree).mpr ⟨id, .inl ⟨hlocal, ?_⟩, .inl rfl⟩
    exact Table.mem_keys_iff_find?.mpr ⟨i, hi⟩

theorem node_again (h : SecondMerge base localSide incoming rewired m base' plan incoming')
    (hrun : MergeRun base localSide incoming rewired broken kept m)
    (hrun' : MergeRun (some base') plan incoming' rewired' broken' kept' m') {id : String} {e : Entry}
    {n : MirrorNode} (he : rewired'.find? id = some e) (hn : plan.byId.find? id = some n) :
    targetNode plan m'.conflicts e.node = n := by
  have hid : e.node.id = id := (Table.find?_key he :)
  have hnid : n.id = id := Table.find?_key hn
  have htid : (targetNode plan m'.conflicts e.node).id = id := by rw [targetNode_id, hid]
  have hparent : (targetNode plan m'.conflicts e.node).parentId = n.parentId := by
    rw [targetNode_parentId, ← parentOf_find he, ← Side.parentOf_find hn]
    exact h.parent_again hrun' (Table.mem_keys_iff_find?.mpr ⟨n, hn⟩)
  cases hrun'.decided h.planTree h.incomingTree' he with
  | both s l i hbase hl hi hordinal hasked =>
    cases hbase
    rw [htid] at hl hi hordinal hasked
    rw [hn] at hl
    cases hl
    rw [h.sameById] at hi
    refine MirrorNode.ext_fields (htid.trans hnid.symm) hparent ?_ fun f => ?_
    · rw [hordinal, h.ordinal_again hrun hn hi]
    · rw [hasked f, (h.asked_again hrun hn hi).1 f]
  | first l i hbase => cases hbase
  | localOnly hl _ =>
    rw [htid, hn] at hl
    exact (Option.some.inj hl).symm
  | incomingOnly hl _ =>
    rw [htid, hn] at hl
    cases hl

theorem nodes_again (h : SecondMerge base localSide incoming rewired m base' plan incoming')
    (hrun : MergeRun base localSide incoming rewired broken kept m)
    (hrun' : MergeRun (some base') plan incoming' rewired' broken' kept' m') :
    m'.merged.nodes.map (targetNode plan m'.conflicts) = plan.nodes := by
  have hplanIds : (plan.nodes.map (·.id)).Nodup := by
    rw [← h.planTree.rows]
    exact plan.byId.nodup
  have hids : (m'.merged.nodes.map (targetNode plan m'.conflicts)).map (·.id) =
      m'.merged.nodes.map (·.id) := by
    simp [Function.comp_def]
  have hmem : ∀ n, n ∈ m'.merged.nodes.map (targetNode plan m'.conflicts) ↔ n ∈ plan.nodes := by
    intro n
    rw [← h.planTree.rows, Table.mem_rows_iff, List.mem_map]
    constructor
    · rintro ⟨x, hx, rfl⟩
      obtain ⟨⟨e, he, rfl⟩, hstays⟩ := hrun'.mem_nodes.mp hx
      obtain ⟨n, hn⟩ := Table.mem_keys_iff_find?.mp ((h.stays_again hrun hrun').mp hstays)
      rw [targetNode_id, h.node_again hrun hrun' he hn]
      exact hn
    · intro hn
      have hkey : n.id ∈ plan.byId.keys := Table.mem_keys_iff_find?.mpr ⟨n, hn⟩
      obtain ⟨e, he⟩ := Table.mem_keys_iff_find?.mp ((hrun'.sound.keys n.id).mpr (.inl hkey))
      have hid : e.node.id = n.id := (Table.find?_key he :)
      refine ⟨e.node, hrun'.mem_nodes.mpr ⟨⟨e, hid ▸ he, rfl⟩, hid ▸ ?_⟩, h.node_again hrun hrun' he hn⟩
      exact (h.stays_again hrun hrun').mpr hkey
  have hperm : (m'.merged.nodes.map (targetNode plan m'.conflicts)).Perm plan.nodes := by
    refine (List.perm_ext_iff_of_nodup (.of_map (·.id) ?_) (.of_map (·.id) hplanIds)).mpr hmem
    rw [hids]
    exact hrun'.ids_nodup
  refine @eq_of_before (mergeIds plan incoming') _ _ ?_ hplanIds ?_ ?_ hperm
  · intro n hn
    refine (mem_mergeIds h.planTree h.incomingTree').mpr (.inl ?_)
    exact h.planTree.mem_keys.mpr (List.mem_map_of_mem ((hmem n).mp hn))
  · rw [List.pairwise_map]
    refine (hrun'.nodes_ordered h.planTree h.incomingTree').imp fun hab => ?_
    simpa [Before] using hab
  · refine @pairwise_before_again localSide incoming' plan h.planTree h.incomingTree' ?_
    rw [h.nodes, List.pairwise_map]
    have hmerge : mergeIds localSide incoming' = mergeIds localSide incoming := by
      rw [mergeIds, mergeIds, h.sameNodes, h.sameById]
    rw [hmerge]
    refine (hrun.nodes_ordered h.localTree h.incomingTree).imp fun hab => ?_
    simpa [Before] using hab

theorem deleted_again (h : SecondMerge base localSide incoming rewired m base' plan incoming')
    (hrun : MergeRun base localSide incoming rewired broken kept m)
    (hrun' : MergeRun (some base') plan incoming' rewired' broken' kept' m') : m'.deleted = [] := by
  rw [List.eq_nil_iff_forall_not_mem]
  intro id hid
  obtain ⟨hplan, _, hstays⟩ := (hrun'.mem_deleted h.planTree h.incomingTree').mp hid
  exact hstays ((h.stays_again hrun hrun').mpr hplan)

theorem resurrected_again (h : SecondMerge base localSide incoming rewired m base' plan incoming')
    (hrun : MergeRun base localSide incoming rewired broken kept m)
    (hrun' : MergeRun (some base') plan incoming' rewired' broken' kept' m') : m'.resurrected = [] := by
  rw [hrun'.resurrected, List.eq_nil_iff_forall_not_mem]
  intro id hid
  rcases hrun'.keptInv.revived id hid with hid | ⟨hstays, e, he, hmark⟩
  · obtain ⟨step, hmem, hid⟩ := List.mem_flatMap.mp hid
    obtain ⟨id', rank, _, hstep⟩ := mem_mergeSteps.mp hmem
    rcases mergeEntry_cases hstep with ⟨n, i, hn, hi, ⟨hb, _⟩ | ⟨s, hs, rfl⟩⟩ | ⟨n, _, _, rfl⟩ |
      ⟨i, hn, hi, rfl⟩
    · cases hb
    · cases hid
    · unfold mergeOnly at hid
      cases hb : baseNode (some base') id' with
      | none => simp [hb] at hid
      | some b => by_cases hmod : nodeModified n b = true <;> simp [hb, hmod] at hid
    · obtain ⟨b, hb, hmod⟩ := h.unmodified hrun (h.sameById ▸ hi) hn
      simp [mergeOnly, baseNode, hb, hmod] at hid
  · have hkey := (h.stays_again hrun hrun').mp hstays
    rcases hrun'.mark_of_find h.planTree h.incomingTree' he hmark with ⟨hc, _⟩ | ⟨_, hno, _⟩
    · cases hc
    · exact hno hkey

end SecondMerge

end Haive

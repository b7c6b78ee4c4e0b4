import Haive.Mirror.Entries

/-!
# Finding and breaking parent cycles

`findCycle` always answers; what it finds is a trap, and when it finds
nothing every climb ends (`findCycle_spec`).

`breakCycles` never throws: a cycle without a parent from incoming would be a
cycle of one of the two sides (`exists_fromIncoming`), and every round uses up
one such parent. `Rewired` is all it does to an entry.
-/

namespace Haive

open Lib

theorem parentOf_eq_none {entries : Entries} {id : String} (h : id ∉ entries.keys) :
    entries.parentOf id = none := by
  simp [Entries.parentOf, Table.find?_eq_none.mpr h]

theorem parentOf_find {entries : Entries} {id : String} {e : Entry}
    (h : entries.find? id = some e) : entries.parentOf id = e.node.parentId := by
  simp [Entries.parentOf, h]

/-! ## `findCycle` -/

@[simp] theorem climb_none (entries : Entries) (done : List String) (fuel : Nat)
    (path : List String) : climb entries done fuel path none = .ok (none, path) := by
  cases fuel <;> rfl

/-- A climb over grounded nodes either ends, and then everything on it is grounded, or closes a
trap. The fuel bounds the entries that are not on the path yet. -/
theorem climb_spec {entries : Entries} {done : List String}
    (hdone : ∀ x ∈ done, Rooted entries.parentOf x) {fuel : Nat} (path : List String)
    (cur : Option String) (hlinked : Linked entries.parentOf path cur)
    (hfuel : entries.keys.countP (· ∉ path) < fuel) :
    (∃ path', climb entries done fuel path cur = .ok (none, path') ∧
      (∀ x ∈ path', Rooted entries.parentOf x) ∧
      ∀ c, cur = some c → Rooted entries.parentOf c) ∨
    (∃ c cs path', climb entries done fuel path cur = .ok (some (c :: cs), path') ∧
      Trapped entries.parentOf (· ∈ c :: cs)) := by
  induction fuel generalizing path cur with
  | zero => omega
  | succ fuel ih =>
    cases cur with
    | none => exact .inl ⟨path, climb_none _ _ _ _, hlinked.rooted (by simp), by simp⟩
    | some cur =>
      by_cases hd : cur ∈ done
      · have hc : ∀ c, some cur = some c → Rooted entries.parentOf c := by
          intro c h
          cases h
          exact hdone cur hd
        exact .inl ⟨path, by simp [climb, hd], hlinked.rooted hc, hc⟩
      · by_cases hp : cur ∈ path
        · -- The path from the first visit of `cur` is the cycle.
          have hlt : path.idxOf cur < path.length := List.idxOf_lt_length_of_mem hp
          have hdrop : path.drop (path.idxOf cur) = cur :: path.drop (path.idxOf cur + 1) := by
            rw [List.drop_eq_getElem_cons hlt, List.getElem_idxOf hlt]
          refine .inr ⟨cur, path.drop (path.idxOf cur + 1), path, by simp [climb, hd, hp, hdrop], ?_⟩
          apply Linked.trapped
          rw [← hdrop]
          exact hlinked.drop _
        · have hstep : climb entries done (fuel + 1) path (some cur) =
              climb entries done fuel (path ++ [cur]) (entries.parentOf cur) := by
            simp [climb, hd, hp]
          have rooted_cur : (∀ c, entries.parentOf cur = some c → Rooted entries.parentOf c) →
              ∀ c, some cur = some c → Rooted entries.parentOf c := by
            intro h c hc
            cases hc
            cases hpar : entries.parentOf cur with
            | none => exact .root hpar
            | some q => exact .step hpar (h q hpar)
          rw [hstep]
          by_cases hk : cur ∈ entries.keys
          · have hless : entries.keys.countP (· ∉ path ++ [cur]) < fuel := by
              have := countP_not_mem_cons_lt hk hp
              have heq : entries.keys.countP (· ∉ path ++ [cur]) =
                  entries.keys.countP (· ∉ cur :: path) := by
                apply List.countP_congr
                intro x _
                simp [or_comm]
              omega
            rcases ih _ _ hlinked.snoc hless with ⟨path', hok, hrooted, hnext⟩ | hcycle
            · exact .inl ⟨path', hok, hrooted, rooted_cur hnext⟩
            · exact .inr hcycle
          · have hnone := parentOf_eq_none hk
            have hlinked' := hlinked.snoc
            rw [hnone] at hlinked' ⊢
            refine .inl ⟨path ++ [cur], climb_none _ _ _ _, hlinked'.rooted (by simp), ?_⟩
            exact rooted_cur (by simp [hnone])

theorem findCycleFrom_spec {entries : Entries} {starts : List String} (done : List String)
    (hdone : ∀ x ∈ done, Rooted entries.parentOf x) :
    (findCycleFrom entries starts done = .ok none ∧ ∀ x ∈ starts, Rooted entries.parentOf x) ∨
    (∃ c cs, findCycleFrom entries starts done = .ok (some (c :: cs)) ∧
      Trapped entries.parentOf (· ∈ c :: cs)) := by
  induction starts generalizing done with
  | nil => exact .inl ⟨rfl, by simp⟩
  | cons start rest ih =>
    by_cases hs : start ∈ done
    · rw [findCycleFrom, if_pos hs]
      refine (ih _ hdone).imp (fun h => ⟨h.1, fun x hx => ?_⟩) id
      rcases List.mem_cons.mp hx with rfl | hx
      · exact hdone x hs
      · exact h.2 x hx
    · have hfuel : entries.keys.countP (· ∉ ([] : List String)) < entries.rows.length + 2 := by
        have := List.countP_le_length (p := (· ∉ ([] : List String))) (l := entries.keys)
        simp only [Table.keys, List.length_map] at this ⊢
        omega
      rw [findCycleFrom, if_neg hs]
      rcases climb_spec hdone [] (some start) trivial hfuel with
        ⟨path, hok, hrooted, hstart⟩ | ⟨c, cs, path, hok, htrap⟩
      · rw [hok]
        have hdone' : ∀ x ∈ done ++ path, Rooted entries.parentOf x := by
          intro x hx
          rcases List.mem_append.mp hx with hx | hx
          · exact hdone x hx
          · exact hrooted x hx
        refine (ih _ hdone').imp (fun h => ⟨h.1, fun x hx => ?_⟩) id
        rcases List.mem_cons.mp hx with rfl | hx
        · exact hstart x rfl
        · exact h.2 x hx
      · rw [hok]
        exact .inr ⟨c, cs, rfl, htrap⟩

/-- `findCycle` ends: it finds a trap, or there is none and every climb ends. -/
theorem findCycle_spec (entries : Entries) :
    (findCycle entries = .ok none ∧ ∀ x, Rooted entries.parentOf x) ∨
    (∃ c cs, findCycle entries = .ok (some (c :: cs)) ∧
      Trapped entries.parentOf (· ∈ c :: cs)) := by
  refine (findCycleFrom_spec [] (by simp)).imp (fun h => ⟨h.1, fun x => ?_⟩) id
  by_cases hx : x ∈ entries.keys
  · exact h.2 x hx
  · exact .root (parentOf_eq_none hx)

/-! ## `breakCycles` -/

section
variable {localSide incoming : Side}

/-- What the two repairing loops rely on: entries for every id of a side, each with a parent that
one of the sides gave it. -/
structure Entries.Sound (localSide incoming : Side) (entries : Entries) : Prop where
  keys : ∀ id, id ∈ entries.keys ↔ id ∈ localSide.byId.keys ∨ id ∈ incoming.byId.keys
  sound : ∀ id e, entries.find? id = some e → e.Sound localSide incoming

theorem initial_sound (base : Option Side) (hl : localSide.Tree) (hi : incoming.Tree) :
    (initialEntries base localSide incoming).Sound localSide incoming := by
  refine ⟨fun _ => mem_initial_keys base hl hi, fun id e h => ?_⟩
  obtain ⟨step, _, hstep, rfl⟩ := initial_find hl hi h
  exact mergeEntry_sound hstep

theorem Entries.Sound.parent_mem (hl : localSide.Tree) (hi : incoming.Tree) {entries : Entries}
    (hs : entries.Sound localSide incoming) {id p : String} (hp : entries.parentOf id = some p) :
    p ∈ entries.keys := by
  obtain ⟨e, he, hep⟩ := Option.bind_eq_some_iff.mp hp
  exact (hs.keys p).mpr ((hs.sound id e he).parent_mem hl hi hep)

theorem Entries.Sound.rooted (hl : localSide.Tree) (hi : incoming.Tree) {entries : Entries}
    (hs : entries.Sound localSide incoming) (hacyclic : Acyclic entries.parentOf) (x : String) :
    Rooted entries.parentOf x := by
  cases hp : entries.parentOf x with
  | none => exact .root hp
  | some p =>
    refine .step hp (rooted_of_acyclic (s := entries.keys.toFinset) ?_ hacyclic ?_)
    · intro a _ b hb
      exact List.mem_toFinset.mpr (hs.parent_mem hl hi hb)
    · exact List.mem_toFinset.mpr (hs.parent_mem hl hi hp)

/-- Every cycle has a member whose parent came from incoming: the local nodes of a cycle without
one would be a trap of the local plan, and a cycle without local nodes one of the incoming plan. -/
theorem exists_fromIncoming (hl : localSide.Tree) (hi : incoming.Tree) {entries : Entries}
    (hs : entries.Sound localSide incoming) {c : String} {cs : List String}
    (htrap : Trapped entries.parentOf (· ∈ c :: cs)) :
    ∃ e ∈ (c :: cs).filterMap entries.find?, e.parentFromIncoming = true := by
  by_contra hnone
  have notFrom : ∀ id ∈ c :: cs, ∀ e, entries.find? id = some e → e.parentFromIncoming = false := by
    intro id hid e he
    cases hf : e.parentFromIncoming
    · rfl
    · exact absurd ⟨e, List.mem_filterMap.mpr ⟨id, hid, he⟩, hf⟩ hnone
  have entry : ∀ id ∈ c :: cs, ∃ e p, entries.find? id = some e ∧ e.node.id = id ∧
      e.node.parentId = some p ∧ p ∈ c :: cs := by
    intro id hid
    obtain ⟨p, hp, hpc⟩ := htrap id hid
    obtain ⟨e, he, hep⟩ := Option.bind_eq_some_iff.mp hp
    exact ⟨e, p, he, (Table.find?_key he :), hep, hpc⟩
  by_cases hlocal : ∃ id ∈ c :: cs, id ∈ localSide.byId.keys
  · obtain ⟨id, hid, hkey⟩ := hlocal
    refine (hl.rooted id).not_trapped (s := fun x => x ∈ c :: cs ∧ x ∈ localSide.byId.keys) ?_ ⟨hid, hkey⟩
    rintro x ⟨hx, hxk⟩
    obtain ⟨e, p, he, hid, hp, hpc⟩ := entry x hx
    have hsound := hs.sound x e he
    have hloc := hsound.localParent (hsound.inLocal.mpr (hid ▸ hxk)) (notFrom x hx e he)
    rw [hp, hid] at hloc
    exact ⟨p, hloc.symm, hpc, hl.closed x p hloc.symm⟩
  · refine (hi.rooted c).not_trapped (s := fun x => x ∈ c :: cs) ?_ List.mem_cons_self
    intro x hx
    obtain ⟨e, p, he, hid, hp, hpc⟩ := entry x hx
    have hsound := hs.sound x e he
    have hnotLocal : e.inLocal = false := by
      cases h : e.inLocal
      · rfl
      · exact absurd ⟨x, hx, hid ▸ hsound.inLocal.mp h⟩ hlocal
    have hinc := hsound.incomingParent (.inl hnotLocal)
    rw [hp, hid] at hinc
    exact ⟨p, hinc.symm, hpc⟩

/-- The entry after its parent went back to the local one. -/
def Entry.reset (e : Entry) (parentId : Option String) : Entry :=
  { e with node := { e.node with parentId }, parentFromIncoming := false }

/-- All that breaking cycles does to an entry: nothing, or its incoming parent is replaced by the
local one. -/
def Rewired (localSide : Side) (e e' : Entry) : Prop :=
  e' = e ∨ (e.parentFromIncoming = true ∧ e' = e.reset (localSide.parentOf e.node.id))

theorem Rewired.ordinal_eq {e e' : Entry} (h : Rewired localSide e e') :
    e'.node.ordinal = e.node.ordinal := by
  rcases h with rfl | ⟨_, rfl⟩ <;> rfl

theorem Rewired.asked_eq {e e' : Entry} (h : Rewired localSide e e') (f : AskedField) :
    askedFields.get f e'.node = askedFields.get f e.node := by
  rcases h with rfl | ⟨_, rfl⟩
  · rfl
  · cases f <;> rfl

structure Entries.Rewired (localSide : Side) (entries entries' : Entries) : Prop where
  keys : entries'.keys = entries.keys
  entry : ∀ id e', entries'.find? id = some e' →
    ∃ e, entries.find? id = some e ∧ Haive.Rewired localSide e e'

theorem Entries.Rewired.refl (entries : Entries) : entries.Rewired localSide entries :=
  ⟨rfl, fun _ e h => ⟨e, h, .inl rfl⟩⟩

theorem Entries.Rewired.trans {a b c : Entries} (hab : a.Rewired localSide b)
    (hbc : b.Rewired localSide c) : a.Rewired localSide c := by
  refine ⟨hbc.keys.trans hab.keys, fun id e'' he'' => ?_⟩
  obtain ⟨e', he', h'⟩ := hbc.entry id e'' he''
  obtain ⟨e, he, h⟩ := hab.entry id e' he'
  refine ⟨e, he, ?_⟩
  rcases h with rfl | ⟨hf, rfl⟩
  · exact h'
  · rcases h' with rfl | ⟨hf', _⟩
    · exact .inr ⟨hf, rfl⟩
    · simp [Entry.reset] at hf'

theorem reset_sound {e : Entry} (h : e.Sound localSide incoming) (hf : e.parentFromIncoming = true) :
    (e.reset (localSide.parentOf e.node.id)).Sound localSide incoming := by
  have hin := (h.fromIncoming hf).1
  refine ⟨h.inLocal, fun hf' => ?_, fun _ _ => rfl, fun hor => ?_⟩
  · simp [Entry.reset] at hf'
  · rcases hor with hin' | hf'
    · simp [Entry.reset, hin] at hin'
    · simp [Entry.reset] at hf'

theorem put_reset {entries : Entries} (hs : entries.Sound localSide incoming) {e : Entry}
    (he : entries.find? e.node.id = some e) (hf : e.parentFromIncoming = true) :
    Entries.Sound localSide incoming (entries.put (e.reset (localSide.parentOf e.node.id))) ∧
    Entries.Rewired localSide entries (entries.put (e.reset (localSide.parentOf e.node.id))) ∧
    (entries.put (e.reset (localSide.parentOf e.node.id))).keys.countP
        (fun id => ((entries.put (e.reset (localSide.parentOf e.node.id))).find? id).any
          (·.parentFromIncoming)) <
      entries.keys.countP (fun id => (entries.find? id).any (·.parentFromIncoming)) := by
  have hmem : e.node.id ∈ entries.keys := Table.mem_keys_iff_find?.mpr ⟨e, he⟩
  have hkeys : (entries.put (e.reset (localSide.parentOf e.node.id))).keys = entries.keys :=
    Table.keys_put_of_mem hmem
  refine ⟨⟨fun id => ?_, fun id e' he' => ?_⟩, ⟨hkeys, fun id e' he' => ?_⟩, ?_⟩
  · rw [hkeys]
    exact hs.keys id
  · rw [Table.find?_put] at he'
    split at he'
    · cases he'
      exact reset_sound (hs.sound _ e he) hf
    · exact hs.sound id e' he'
  · rw [Table.find?_put] at he'
    split at he'
    · next hid =>
      cases he'
      exact ⟨e, hid ▸ he, .inr ⟨hf, rfl⟩⟩
    · exact ⟨e', he', .inl rfl⟩
  · rw [hkeys]
    apply countP_lt hmem
    · simp [he, hf]
    · have := Table.find?_put_self entries (e.reset (localSide.parentOf e.node.id))
      simp only [Entry.reset] at this ⊢
      rw [this]
      rfl
    · intro id _ hid
      rw [Table.find?_put] at hid
      split at hid
      · simp [Entry.reset] at hid
      · exact hid

/-- The loop ends without throwing, on entries without a cycle. Each report it adds names a
parent that it put back. -/
theorem breakCycles_spec (hl : localSide.Tree) (hi : incoming.Tree) {fuel : Nat} {entries : Entries}
    (hs : entries.Sound localSide incoming) (reported : List PlanMirrorReport)
    (hfuel : entries.keys.countP (fun id => (entries.find? id).any (·.parentFromIncoming)) < fuel) :
    ∃ entries' broken, breakCycles localSide fuel entries reported = .ok (entries', reported ++ broken) ∧
      entries'.Sound localSide incoming ∧ entries.Rewired localSide entries' ∧
      (∀ x, Rooted entries'.parentOf x) ∧
      (∀ r ∈ broken, ∃ id e lv iv, r = .localWins (.node id) .parentId lv iv ∧
        entries'.find? id = some e ∧ e.inLocal = true ∧ e.parentFromIncoming = false ∧
        e.candidate = none ∧ lv = .nullable (localSide.parentOf id)) ∧
      (∀ id e e', entries.find? id = some e → entries'.find? id = some e' → e' ≠ e →
        .localWins (.node id) .parentId (.nullable e'.node.parentId) (.nullable e.node.parentId) ∈
          broken) ∧
      ((∀ x, Rooted entries.parentOf x) → entries' = entries) := by
  induction fuel generalizing entries reported with
  | zero => omega
  | succ fuel ih =>
    rw [breakCycles]
    rcases findCycle_spec entries with ⟨hnone, hrooted⟩ | ⟨c, cs, hsome, htrap⟩
    · refine ⟨entries, [], ?_, hs, .refl entries, hrooted, by simp, ?_, fun _ => rfl⟩
      · rw [hnone]
        simp [bind, Except.bind]
      · intro id e e' he he' hne
        rw [he] at he'
        cases he'
        exact absurd rfl hne
    · rw [hsome]
      simp only [bind, Except.bind]
      obtain ⟨m, hm, hmf⟩ := exists_fromIncoming hl hi hs htrap
      cases hsort : (((c :: cs).filterMap entries.find?).filter (·.parentFromIncoming)).insertionSort
          (fun a b => a.node.id ≤ b.node.id) with
      | nil =>
        have : m ∈ ([] : List Entry) := by
          rw [← hsort, List.mem_insertionSort, List.mem_filter]
          exact ⟨hm, hmf⟩
        simp at this
      | cons pick rest =>
        have hpick : pick ∈ ((c :: cs).filterMap entries.find?).filter (·.parentFromIncoming) := by
          rw [← List.mem_insertionSort (fun a b : Entry => a.node.id ≤ b.node.id), hsort]
          exact List.mem_cons_self
        rw [List.mem_filter, List.mem_filterMap] at hpick
        obtain ⟨⟨id, _, hfind⟩, hpf⟩ := hpick
        have hid : pick.node.id = id := (Table.find?_key hfind :)
        subst hid
        have hsound := hs.sound _ pick hfind
        obtain ⟨l, hlocal⟩ := Table.mem_keys_iff_find?.mp
          (hsound.inLocal.mp (hsound.fromIncoming hpf).1)
        simp only [hlocal]
        have hparent : localSide.parentOf pick.node.id = l.parentId := Side.parentOf_find hlocal
        obtain ⟨hs', hrew, hless⟩ := put_reset hs hfind hpf
        rw [hparent] at hs' hrew hless
        obtain ⟨entries', broken, hok, hsound', hrew', hrooted, hreports, hmoved, -⟩ :=
          ih hs' (reported ++ [.localWins (.node pick.node.id) .parentId (.nullable l.parentId)
            (.nullable pick.node.parentId)]) (by omega)
        -- A parent that went back stays back: its entry no longer has an incoming parent.
        have hfinal : ∀ e', entries'.find? pick.node.id = some e' → e' = pick.reset l.parentId := by
          intro e' he'
          obtain ⟨e, he, hre⟩ := hrew'.entry _ e' he'
          have heq : e = pick.reset l.parentId :=
            Option.some.inj (he.symm.trans (Table.find?_put_self entries (pick.reset l.parentId)))
          rcases hre with rfl | ⟨hf, _⟩
          · exact heq
          · rw [heq] at hf
            simp [Entry.reset] at hf
        refine ⟨entries', .localWins (.node pick.node.id) .parentId (.nullable l.parentId)
            (.nullable pick.node.parentId) :: broken, ?_, hsound', hrew.trans hrew', hrooted, ?_, ?_,
            fun hall => absurd List.mem_cons_self ((hall c).not_trapped htrap)⟩
        · rw [← List.append_cons] at hok
          exact hok
        · intro r hr
          rcases List.mem_cons.mp hr with rfl | hr
          · have hk : pick.node.id ∈ entries'.keys := by
              rw [hrew'.keys, hrew.keys]
              exact Table.mem_keys_iff_find?.mpr ⟨pick, hfind⟩
            obtain ⟨e', he'⟩ := Table.mem_keys_iff_find?.mp hk
            obtain ⟨hin, hcand⟩ := hsound.fromIncoming hpf
            refine ⟨pick.node.id, e', _, _, rfl, he', ?_, ?_, ?_, by rw [hparent]⟩
            · rw [hfinal e' he']
              exact hin
            · rw [hfinal e' he']
              rfl
            · rw [hfinal e' he']
              exact hcand
          · exact hreports r hr
        · intro id e e' he he' hne
          by_cases hid : pick.node.id = id
          · subst hid
            rw [hfind] at he
            cases he
            rw [hfinal e' he']
            exact List.mem_cons_self
          · have hput : (entries.put (pick.reset l.parentId)).find? id = some e := by
              rw [Table.find?_put, if_neg (by exact hid)]
              exact he
            exact List.mem_cons_of_mem _ (hmoved id e e' hput he' hne)

end

end Haive

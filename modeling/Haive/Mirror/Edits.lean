import Haive.Mirror.Laws

/-!
# No edit is lost

Which nodes a merge keeps and which value each of their fields gets, said
over the payloads alone (`EditsKept`). A field that one side changed gets that
side's value. The exception is a parent that only incoming changed: when the
parents taken field by field close a cycle (`fieldwiseParent`), the merge may put
it back to the local one, and then it reports `local-wins`.
-/

namespace Haive

open Lib

/-! ## What an edit is -/

def PlanMirrorPayload.node? (payload : PlanMirrorPayload) (id : String) : Option MirrorNode :=
  payload.nodes.find? (fun n => n.id = id)

def Modified (a b : MirrorNode) : Prop :=
  a.parentId ≠ b.parentId ∨ a.ordinal ≠ b.ordinal ∨ ∃ f, askedFields.get f a ≠ askedFields.get f b

theorem nodeModified_iff {a b : MirrorNode} : nodeModified a b = true ↔ Modified a b := by
  have hasked : askedFields.differ planMirrorAskedFields a b = true ↔
      ∃ f, askedFields.get f a ≠ askedFields.get f b := by
    rw [← Bool.not_eq_false, Fields.differ_eq_false]
    simp [mem_planMirrorAskedFields]
  simp [nodeModified, Modified, hasked, or_assoc]

def Survives (m : PlanMirrorMerge) (id : String) : Prop := id ∈ m.merged.nodes.map (·.id)

def OnOneSide (localPayload incomingPayload : PlanMirrorPayload) (id : String) (only : MirrorNode) :
    Prop :=
  (localPayload.node? id = some only ∧ incomingPayload.node? id = none) ∨
    (localPayload.node? id = none ∧ incomingPayload.node? id = some only)

/-- A field that one side changed has that side's value. -/
structure OneSided {T : Type} (baseValue : Option T) (localValue incomingValue merged : T) : Prop where
  localOnly : baseValue ≠ some localValue → baseValue = some incomingValue → merged = localValue
  incomingOnly : baseValue = some localValue → baseValue ≠ some incomingValue →
    merged = incomingValue

/-- Both sides changed the field, to different values. -/
def BothChanged {T : Type} (baseValue : Option T) (localValue incomingValue : T) : Prop :=
  baseValue ≠ some localValue ∧ baseValue ≠ some incomingValue ∧ localValue ≠ incomingValue

def fieldwiseParent (base localPayload incomingPayload : PlanMirrorPayload) (id : String) :
    Option String :=
  match localPayload.node? id, incomingPayload.node? id with
  | some l, some i => (pick3 ((base.node? id).map (·.parentId)) l.parentId i.parentId).value
  | some l, none => l.parentId
  | none, some i => i.parentId
  | none, none => none

/-- What the merge promises about the edits of the two sides. -/
structure EditsKept (base localPayload incomingPayload : PlanMirrorPayload)
    (m : PlanMirrorMerge) : Prop where
  /-- What a side added survives. -/
  added : ∀ id, base.node? id = none →
    localPayload.node? id ≠ none ∨ incomingPayload.node? id ≠ none → Survives m id
  /-- What both sides deleted is gone. -/
  deletedByBoth : ∀ id, localPayload.node? id = none → incomingPayload.node? id = none →
    ¬ Survives m id
  /-- What one side deleted survives exactly when the other one modified it or something that
  survives hangs under it. -/
  deletedByOne : ∀ id b only, base.node? id = some b →
    OnOneSide localPayload incomingPayload id only →
    (Survives m id ↔ Modified only b ∨ ∃ d, Survives m d ∧ Above (parentIn m.merged.nodes) d id)
  /-- A survivor that one side has is what that side has. -/
  onOneSide : ∀ n ∈ m.merged.nodes, ∀ only,
    OnOneSide localPayload incomingPayload n.id only → n = only
  ordinal : ∀ n ∈ m.merged.nodes, ∀ l i, localPayload.node? n.id = some l →
    incomingPayload.node? n.id = some i →
    OneSided ((base.node? n.id).map (·.ordinal)) l.ordinal i.ordinal n.ordinal ∧
    (BothChanged ((base.node? n.id).map (·.ordinal)) l.ordinal i.ordinal →
      .localWins (.node n.id) .ordinal (.number l.ordinal) (.number i.ordinal) ∈ m.reported ∧
      n.ordinal = l.ordinal)
  asked : ∀ n ∈ m.merged.nodes, ∀ l i, localPayload.node? n.id = some l →
    incomingPayload.node? n.id = some i → ∀ f : AskedField,
    OneSided ((base.node? n.id).map (askedFields.get f)) (askedFields.get f l) (askedFields.get f i)
      (askedFields.get f n) ∧
    (BothChanged ((base.node? n.id).map (askedFields.get f)) (askedFields.get f l)
        (askedFields.get f i) →
      ⟨n.id, f, (base.node? n.id).map (askedFields.get f), askedFields.get f l,
        askedFields.get f i⟩ ∈ m.conflicts)
  /-- As for the other fields, apart from an incoming parent that cycle breaking put back. -/
  parent : ∀ n ∈ m.merged.nodes, ∀ l i, localPayload.node? n.id = some l →
    incomingPayload.node? n.id = some i →
    (OneSided ((base.node? n.id).map (·.parentId)) l.parentId i.parentId n.parentId ∨
      (¬ Acyclic (fieldwiseParent base localPayload incomingPayload) ∧ n.parentId = l.parentId ∧
        .localWins (.node n.id) .parentId (.nullable l.parentId) (.nullable i.parentId) ∈
          m.reported)) ∧
    (BothChanged ((base.node? n.id).map (·.parentId)) l.parentId i.parentId →
      .localWins (.node n.id) .parentId (.nullable l.parentId) (.nullable i.parentId) ∈ m.reported ∧
      n.parentId = l.parentId)

/-! ## Picks -/

theorem pick3_oneSided {T : Type} [DecidableEq T] (b : Option T) (l i : T) :
    OneSided b l i (pick3 b l i).value := by
  refine ⟨fun hl hi => ?_, fun hl _ => ?_⟩
  · rw [hi, pick3_unchanged_incoming]
  · rw [hl, pick3_unchanged_local]

theorem pick3_bothChanged {T : Type} [DecidableEq T] {b : Option T} {l i : T}
    (h : BothChanged b l i) : pick3 b l i = ⟨l, true⟩ := by
  obtain ⟨hl, hi, hne⟩ := h
  simp [pick3, hne, hl, hi]

theorem askedValue_oneSided (b : Option MirrorNode) (l i : MirrorNode) (f : AskedField) :
    OneSided (b.map (askedFields.get f)) (askedFields.get f l) (askedFields.get f i)
      (askedValue b l i f) := by
  refine ⟨fun hl hi => ?_, fun hl _ => ?_⟩
  · simp [askedValue, pickAsked, hi]
  · simp [askedValue, pickAsked, hl]

/-! ## Payloads and sides -/

theorem readSide_node? {payload : PlanMirrorPayload} (h : WellFormed payload) (id : String) :
    (readSide payload).byId.find? id = payload.node? id := by
  have hrows : (readSide payload).byId.rows = payload.nodes := Table.ofList_rows h.ids
  simp only [Table.find?, PlanMirrorPayload.node?, hrows]

theorem readIncoming_node? {payload : PlanMirrorPayload} (h : WellFormed payload) (localSide : Side)
    (id : String) : (readIncoming localSide payload).byId.find? id = payload.node? id := by
  cases payload with
  | v1 nodes edges => exact readSide_node? h id
  | v2 mirror => exact readSide_node? h id

theorem parentIn_eq_some {nodes : List MirrorNode} (hnodup : (nodes.map (·.id)).Nodup)
    {n : MirrorNode} (hn : n ∈ nodes) : parentIn nodes n.id = n.parentId := by
  have hrows : (Table.ofList nodes : Table MirrorNode (·.id)).rows = nodes := Table.ofList_rows hnodup
  have hfind := Table.mem_rows_iff.mp (hrows.symm ▸ hn)
  rw [Table.find?, hrows] at hfind
  rw [parentIn, hfind]
  rfl

/-! ## Runs -/

theorem keptAlone_iff_of_oneSide {base : Option Side} {localSide incoming : Side} {id : String}
    {only : MirrorNode}
    (honly : (localSide.byId.find? id = some only ∧ incoming.byId.find? id = none) ∨
      (localSide.byId.find? id = none ∧ incoming.byId.find? id = some only)) :
    KeptAlone base localSide incoming id ↔
      ∀ b, baseNode base id = some b → nodeModified only b = true := by
  constructor
  · rintro (⟨hl, hi⟩ | ⟨other, hother, hall⟩)
    · rcases honly with ⟨_, hno⟩ | ⟨hno, _⟩
      · exact absurd hi (Table.find?_eq_none.mp hno)
      · exact absurd hl (Table.find?_eq_none.mp hno)
    · have heq : other = only := by
        rcases honly with ⟨h1, h2⟩ | ⟨h1, h2⟩ <;> rcases hother with ⟨h3, h4⟩ | ⟨h3, h4⟩ <;> simp_all
      exact heq ▸ hall
  · exact fun hall => .inr ⟨only, honly, hall⟩

namespace MergeRun

variable {base : Option Side} {localSide incoming : Side} {rewired : Entries}
  {broken : List PlanMirrorReport} {kept : Keeping} {m : PlanMirrorMerge}

theorem step_of_node (h : MergeRun base localSide incoming rewired broken kept m)
    (hl : localSide.Tree) (hi : incoming.Tree) {n : MirrorNode} (hn : n ∈ m.merged.nodes) :
    ∃ e, rewired.find? n.id = some e ∧ e.node = n ∧
      ∃ step ∈ mergeSteps base localSide incoming,
        mergeEntry base localSide incoming n.id e.rank = some step ∧
        Rewired localSide step.entry e := by
  obtain ⟨⟨e, he, hnode⟩, _⟩ := h.mem_nodes.mp hn
  exact ⟨e, he, hnode, h.step_of_find hl hi he⟩

theorem parentIn_eq_of_stays (h : MergeRun base localSide incoming rewired broken kept m)
    (hl : localSide.Tree) (hi : incoming.Tree) {id : String} (hs : rewired.Stays id) :
    rewired.parentOf id = parentIn m.merged.nodes id := by
  obtain ⟨n, hn, rfl⟩ := List.mem_map.mp ((h.live_iff hl hi).mpr hs)
  obtain ⟨⟨e, he, hnode⟩, _⟩ := h.mem_nodes.mp hn
  rw [parentOf_find he, hnode, parentIn_eq_some h.ids_nodup hn]

theorem survives_iff (h : MergeRun base localSide incoming rewired broken kept m)
    (hl : localSide.Tree) (hi : incoming.Tree) {id : String} :
    Survives m id ↔ ∃ d, KeptAlone base localSide incoming d ∧ Survives m d ∧
      (d = id ∨ Above (parentIn m.merged.nodes) d id) := by
  rw [Survives, h.live_iff hl hi]
  constructor
  · intro hs
    obtain ⟨d, hkept, hrel⟩ := (h.stays_iff hl hi).mp hs
    have hd : rewired.Stays d := (h.stays_iff hl hi).mpr ⟨d, hkept, .inl rfl⟩
    refine ⟨d, hkept, (h.live_iff hl hi).mpr hd, hrel.imp_right fun habove => ?_⟩
    exact Above.congr (fun x hx => h.parentIn_eq_of_stays hl hi hx)
      (fun x p hx hp => hx.parent hp) hd habove
  · rintro ⟨d, hkept, _, hrel⟩
    refine (h.stays_iff hl hi).mpr ⟨d, hkept, hrel.imp_right fun habove => ?_⟩
    exact Relation.TransGen.mono (fun _ _ => h.parentIn_merged) _ _ habove

theorem survives_of_keptAlone (h : MergeRun base localSide incoming rewired broken kept m)
    (hl : localSide.Tree) (hi : incoming.Tree) {id : String}
    (hkept : KeptAlone base localSide incoming id) : Survives m id :=
  (h.live_iff hl hi).mpr ((h.stays_iff hl hi).mpr ⟨id, hkept, .inl rfl⟩)

theorem survives_above (h : MergeRun base localSide incoming rewired broken kept m)
    (hl : localSide.Tree) (hi : incoming.Tree) {d id : String}
    (habove : Above (parentIn m.merged.nodes) d id) (hd : Survives m d) : Survives m id := by
  have hs := (h.live_iff hl hi).mp hd
  refine (h.live_iff hl hi).mpr ?_
  clear hd
  induction habove with
  | single hp => exact hs.parent (h.parentIn_merged hp)
  | tail _ hp ih => exact ih.parent (h.parentIn_merged hp)

/-- A merged node of which both sides have a version comes from `mergeBoth`. -/
theorem both_of_node {s : Side} (h : MergeRun (some s) localSide incoming rewired broken kept m)
    (hl : localSide.Tree) (hi : incoming.Tree) {n l i : MirrorNode} (hn : n ∈ m.merged.nodes)
    (hln : localSide.byId.find? n.id = some l) (hin : incoming.byId.find? n.id = some i) :
    ∃ rank e, rewired.find? n.id = some e ∧ e.node = n ∧
      mergeBoth (s.byId.find? n.id) l i rank ∈ mergeSteps (some s) localSide incoming ∧
      (initialEntries (some s) localSide incoming).find? n.id =
        some (mergeBoth (s.byId.find? n.id) l i rank).entry ∧
      Rewired localSide (mergeBoth (s.byId.find? n.id) l i rank).entry e := by
  obtain ⟨⟨e, he, hnode⟩, _⟩ := h.mem_nodes.mp hn
  obtain ⟨e₀, he₀, hrew⟩ := h.rewire.entry n.id e he
  obtain ⟨step, hmem, hstep, rfl⟩ := initial_find hl hi he₀
  have heq : step = mergeBoth (s.byId.find? n.id) l i step.entry.rank := by
    rcases mergeEntry_cases hstep with
      ⟨l', i', hl', hi', ⟨hb, _⟩ | ⟨s', hs', hstep'⟩⟩ | ⟨l', _, hi', _⟩ | ⟨i', hl', _, _⟩
    · cases hb
    · cases hs'
      rw [hln] at hl'
      rw [hin] at hi'
      cases hl'
      cases hi'
      exact hstep'
    · simp [hin] at hi'
    · simp [hln] at hl'
  refine ⟨step.entry.rank, e, he, hnode, ?_, ?_, ?_⟩
  · rw [← heq]
    exact hmem
  · rw [← heq]
    exact he₀
  · rw [← heq]
    exact hrew

theorem only_of_node (h : MergeRun base localSide incoming rewired broken kept m)
    (hl : localSide.Tree) (hi : incoming.Tree) {n only : MirrorNode} (hn : n ∈ m.merged.nodes)
    (honly : (localSide.byId.find? n.id = some only ∧ incoming.byId.find? n.id = none) ∨
      (localSide.byId.find? n.id = none ∧ incoming.byId.find? n.id = some only)) : n = only := by
  obtain ⟨e, _, hnode, step, _, hstep, hrew⟩ := h.step_of_node hl hi hn
  have hentry : step.entry.node = only ∧ step.entry.parentFromIncoming = false := by
    rcases mergeEntry_cases hstep with ⟨l, i, hl', hi', _⟩ | ⟨l, hl', hi', rfl⟩ | ⟨i, hl', hi', rfl⟩
    · rcases honly with ⟨_, hno⟩ | ⟨hno, _⟩
      · simp [hi'] at hno
      · simp [hl'] at hno
    · rcases honly with ⟨hsome, _⟩ | ⟨hno, _⟩
      · rw [hl'] at hsome
        cases hsome
        simp
      · simp [hl'] at hno
    · rcases honly with ⟨_, hno⟩ | ⟨_, hsome⟩
      · simp [hi'] at hno
      · rw [hi'] at hsome
        cases hsome
        simp
  rcases hrew with rfl | ⟨hfrom, _⟩
  · exact hnode.symm.trans hentry.1
  · simp [hentry.2] at hfrom

/-- The first loop's reports and the broken cycles' are all in the result. -/
theorem reported_of_step (h : MergeRun base localSide incoming rewired broken kept m)
    {r : PlanMirrorReport} {step : EntryStep} (hstep : step ∈ mergeSteps base localSide incoming)
    (hr : r ∈ step.reported) : r ∈ m.reported := by
  rw [h.reported, List.append_assoc]
  refine List.mem_append_left _ (h.keptInv.oldReports r (List.mem_append_left _ ?_))
  exact List.mem_flatMap.mpr ⟨step, hstep, hr⟩

theorem reported_of_broken (h : MergeRun base localSide incoming rewired broken kept m)
    {r : PlanMirrorReport} (hr : r ∈ broken) : r ∈ m.reported := by
  rw [h.reported, List.append_assoc]
  exact List.mem_append_left _ (h.keptInv.oldReports r (List.mem_append_right _ hr))

end MergeRun

theorem initial_parentOf {base localPayload incomingPayload : PlanMirrorPayload}
    (hb : WellFormed base) (hl : WellFormed localPayload) (hi : WellFormed incomingPayload) :
    (initialEntries (some (readSide base)) (readSide localPayload)
      (readIncoming (readSide localPayload) incomingPayload)).parentOf =
      fieldwiseParent base localPayload incomingPayload := by
  funext id
  have hlt := readSide_tree hl
  have hit := readIncoming_tree hi (readSide localPayload)
  unfold fieldwiseParent
  rw [← readSide_node? hb id, ← readSide_node? hl id, ← readIncoming_node? hi (readSide localPayload) id]
  cases hf : (initialEntries (some (readSide base)) (readSide localPayload)
      (readIncoming (readSide localPayload) incomingPayload)).find? id with
  | none =>
    have hno : ¬ (id ∈ (readSide localPayload).byId.keys ∨
        id ∈ (readIncoming (readSide localPayload) incomingPayload).byId.keys) := by
      rw [← mem_initial_keys (some (readSide base)) hlt hit]
      exact Table.find?_eq_none.mp hf
    rw [not_or, ← Table.find?_eq_none, ← Table.find?_eq_none] at hno
    rw [parentOf_eq_none (Table.find?_eq_none.mp hf), hno.1, hno.2]
  | some e =>
    obtain ⟨step, _, hstep, rfl⟩ := initial_find hlt hit hf
    rw [parentOf_find hf]
    rcases mergeEntry_cases hstep with
      ⟨l, i, hln, hin, ⟨hb, _⟩ | ⟨s, hs, heq⟩⟩ | ⟨l, hln, hin, heq⟩ | ⟨i, hln, hin, heq⟩
    · cases hb
    · cases hs
      rw [heq, hln, hin, mergeBoth_parentId]
    · rw [heq, hln, hin, mergeOnly_node]
    · rw [heq, hln, hin, mergeOnly_node]

/-! ## The theorem -/

section
variable {localSide incoming : Side} {rewired : Entries}
  {broken : List PlanMirrorReport} {kept : Keeping} {m : PlanMirrorMerge}

theorem ordinal_kept {s : Side} (h : MergeRun (some s) localSide incoming rewired broken kept m)
    (hl : localSide.Tree) (hi : incoming.Tree) {n l i : MirrorNode} (hn : n ∈ m.merged.nodes)
    (hln : localSide.byId.find? n.id = some l) (hin : incoming.byId.find? n.id = some i) :
    OneSided ((s.byId.find? n.id).map (·.ordinal)) l.ordinal i.ordinal n.ordinal ∧
    (BothChanged ((s.byId.find? n.id).map (·.ordinal)) l.ordinal i.ordinal →
      .localWins (.node n.id) .ordinal (.number l.ordinal) (.number i.ordinal) ∈ m.reported ∧
      n.ordinal = l.ordinal) := by
  obtain ⟨rank, e, _, hnode, hmem, _, hrew⟩ := h.both_of_node hl hi hn hln hin
  have hid : l.id = n.id := (Table.find?_key hln :)
  have hord : n.ordinal =
      (pick3 ((s.byId.find? n.id).map (·.ordinal)) l.ordinal i.ordinal).value := by
    have := hrew.ordinal_eq
    rwa [hnode, mergeBoth_ordinal] at this
  refine ⟨hord ▸ pick3_oneSided _ _ _, fun hboth => ⟨?_, ?_⟩⟩
  · refine h.reported_of_step hmem ?_
    simp [mergeBoth, pick3_bothChanged hboth, hid]
  · rw [hord, pick3_bothChanged hboth]

theorem asked_kept {s : Side} (h : MergeRun (some s) localSide incoming rewired broken kept m)
    (hl : localSide.Tree) (hi : incoming.Tree) {n l i : MirrorNode} (hn : n ∈ m.merged.nodes)
    (hln : localSide.byId.find? n.id = some l) (hin : incoming.byId.find? n.id = some i)
    (f : AskedField) :
    OneSided ((s.byId.find? n.id).map (askedFields.get f)) (askedFields.get f l)
      (askedFields.get f i) (askedFields.get f n) ∧
    (BothChanged ((s.byId.find? n.id).map (askedFields.get f)) (askedFields.get f l)
        (askedFields.get f i) →
      ⟨n.id, f, (s.byId.find? n.id).map (askedFields.get f), askedFields.get f l,
        askedFields.get f i⟩ ∈ m.conflicts) := by
  obtain ⟨rank, e, _, hnode, hmem, _, hrew⟩ := h.both_of_node hl hi hn hln hin
  have hid : l.id = n.id := (Table.find?_key hln :)
  have hval : askedFields.get f n = askedValue (s.byId.find? n.id) l i f := by
    have := hrew.asked_eq f
    rwa [hnode, mergeBoth_asked] at this
  refine ⟨hval ▸ askedValue_oneSided _ _ _ f, fun hboth => ?_⟩
  rw [h.conflicts]
  refine List.mem_flatMap.mpr ⟨_, hmem, List.mem_filterMap.mpr ⟨f, mem_planMirrorAskedFields f, ?_⟩⟩
  have hpick : pickAsked (s.byId.find? n.id) l i f = ⟨askedFields.get f l, true⟩ :=
    pick3_bothChanged hboth
  simp [askedConflict, hpick, hid]

theorem parent_kept {s : Side} (h : MergeRun (some s) localSide incoming rewired broken kept m)
    (hl : localSide.Tree) (hi : incoming.Tree) {n l i : MirrorNode} (hn : n ∈ m.merged.nodes)
    (hln : localSide.byId.find? n.id = some l) (hin : incoming.byId.find? n.id = some i) :
    (OneSided ((s.byId.find? n.id).map (·.parentId)) l.parentId i.parentId n.parentId ∨
      (¬ Acyclic (initialEntries (some s) localSide incoming).parentOf ∧ n.parentId = l.parentId ∧
        .localWins (.node n.id) .parentId (.nullable l.parentId) (.nullable i.parentId) ∈
          m.reported)) ∧
    (BothChanged ((s.byId.find? n.id).map (·.parentId)) l.parentId i.parentId →
      .localWins (.node n.id) .parentId (.nullable l.parentId) (.nullable i.parentId) ∈ m.reported ∧
      n.parentId = l.parentId) := by
  obtain ⟨rank, e, he, hnode, hmem, hinit, hrew⟩ := h.both_of_node hl hi hn hln hin
  have hid : l.id = n.id := (Table.find?_key hln :)
  have hlocal : localSide.parentOf n.id = l.parentId := Side.parentOf_find hln
  rcases hrew with heq | ⟨hfrom, heq⟩
  · have hpar : n.parentId =
        (pick3 ((s.byId.find? n.id).map (·.parentId)) l.parentId i.parentId).value := by
      have := congrArg (·.node.parentId) heq
      rwa [hnode, mergeBoth_parentId] at this
    refine ⟨.inl (hpar ▸ pick3_oneSided _ _ _), fun hboth => ⟨?_, ?_⟩⟩
    · refine h.reported_of_step hmem ?_
      simp [mergeBoth, pick3_bothChanged hboth, hid]
    · rw [hpar, pick3_bothChanged hboth]
  · -- The parent came from incoming, so it was not contested, and cycle breaking put it back.
    have hpick : (pick3 ((s.byId.find? n.id).map (·.parentId)) l.parentId i.parentId).value ≠
        l.parentId := by simpa [mergeBoth] using hfrom
    have hback : n.parentId = l.parentId := by
      have := congrArg (·.node.parentId) heq
      rw [hnode, mergeBoth_id, hid, hlocal] at this
      exact this
    have hincoming := (pick3_value _ _ _).resolve_left hpick
    have hvalue : (mergeBoth (s.byId.find? n.id) l i rank).entry.node.parentId = i.parentId := by
      rw [mergeBoth_parentId, hincoming]
    have hne : e ≠ (mergeBoth (s.byId.find? n.id) l i rank).entry := by
      rintro rfl
      rw [hnode, hback] at hvalue
      exact hpick (hincoming.trans hvalue.symm)
    have hreport := h.reported_of_broken (h.moved n.id _ e hinit he hne)
    rw [hnode, hback, hvalue] at hreport
    refine ⟨.inr ⟨?_, hback, hreport⟩, fun hboth => absurd ?_ hpick⟩
    · intro hacyclic
      rw [h.unbroken ((initial_sound (some s) hl hi).rooted hl hi hacyclic), hinit] at he
      exact hne (Option.some.inj he).symm
    · rw [pick3_bothChanged hboth]

end

end Haive

import Haive.Plan.Dropping

/-!
# What the pre-pass of drop mode keeps

`dropUnresolvableOps` resolves refs over a set of strings: the aliases, the uuids they stand
for and the ids of the rows found, as the database spells them. `resolveExisting` looks an alias up or
reads the uuid in either case. The two agree where the ops spell uuids as the database does and the
node of `self` is there (`keeps_greatest_iff`).
-/

namespace Haive

open Lib Patch Script

/-! ## Greatest sets -/

/-- Every ref of an op of `s` resolves, or another op of `s` gives it. -/
structure SelfSufficient (resolves : String → Prop) (gives : PlanPatchOp → Option String) (ops : List PlanPatchOp)
    (s : PlanPatchOp → Prop) : Prop where
  sub : ∀ op, s op → op ∈ ops
  refs : ∀ op, s op → ∀ r ∈ refsOf op, resolves r ∨ ∃ giver, s giver ∧ gives giver = some r

/-- The op is in the greatest such set. -/
def InGreatest (resolves : String → Prop) (gives : PlanPatchOp → Option String) (ops : List PlanPatchOp) (op : PlanPatchOp) :
    Prop :=
  ∃ s, SelfSufficient resolves gives ops s ∧ s op

/-- `resolveExisting` finds the ref before the first op. -/
def ResolvesLive (call : PatchCall) (db : PlanDb) (ref : String) : Prop :=
  ∃ text id, Locals.candidate (seedSelf call) ref = some (text, id) ∧ id ∈ db.nodes.keys

/-- The temp id of a create op: neither a uuid nor an alias. -/
def tempId (call : PatchCall) : PlanPatchOp → Option String
  | .upsert op =>
    if isPlanNodeId op.nodeRef || ((seedSelf call).refs.lookup op.nodeRef).isSome then none else some op.nodeRef
  | _ => none

/-- The pre-pass keeps the greatest set. -/
def KeepsGreatest (call : PatchCall) (db : PlanDb) (ops : List PlanPatchOp) : Prop :=
  ∃ kept l, Ends PlanDb.exec (dropUnresolvableOps ops) (seedSelf call) db (.ok kept) l db ∧
    ops.filter (· ∈ kept) = kept ∧ ∀ op, op ∈ kept ↔ InGreatest (ResolvesLive call db) (tempId call) ops op

/-- What `self` stands for. -/
def namesSelf (call : PatchCall) (ref : String) : Prop :=
  ∃ id, call.opts.selfNodeId = some id ∧ (ref = "self" ∨ ref = id.text)

/-- An alias, or the id of a node as the database spells it. -/
def SpelledLive (call : PatchCall) (db : PlanDb) (ref : String) : Prop :=
  namesSelf call ref ∨ ∃ id ∈ db.nodes.keys, ref = id.text

structure ResolvesAlike (call : PatchCall) (db : PlanDb) (ops : List PlanPatchOp) : Prop where
  spelled : ∀ op, InGreatest (ResolvesLive call db) (tempId call) ops op →
    ∀ r ∈ refsOf op, ∀ id, Uuid.parse? r = some id → r = id.text
  self : ∀ id, call.opts.selfNodeId = some id → id ∉ db.nodes.keys →
    ∀ op, InGreatest (SpelledLive call db) provides ops op → ∀ r ∈ refsOf op, ¬ namesSelf call r

variable {call : PatchCall} {db : PlanDb} {ops kept : List PlanPatchOp} {op : PlanPatchOp} {live report report' : List String}
  {resolves : String → Prop} {gives : PlanPatchOp → Option String} {fuel : Nat} {r : String} {id : Uuid}

theorem greatest_selfSufficient : SelfSufficient resolves gives ops (InGreatest resolves gives ops) where
  sub := fun op ⟨_, hs, hop⟩ => hs.sub op hop
  refs := fun op ⟨s, hs, hop⟩ r hr =>
    (hs.refs op hop r hr).imp_right fun ⟨giver, hgiver, hgives⟩ => ⟨giver, ⟨s, hs, hgiver⟩, hgives⟩

/-! ## The rounds -/

theorem badRefs_isEmpty {provided : List String} :
    (badRefs live provided op).isEmpty = true ↔ ∀ r ∈ refsOf op, r ∈ live ∨ r ∈ provided := by
  rw [List.isEmpty_iff, badRefs, List.filter_eq_nil_iff]
  refine forall_congr' fun r => imp_congr_right fun _ => ?_
  rw [decide_eq_true_eq, not_and_or, not_not, not_not]

/-- The rounds end within one more than there are ops. -/
theorem dropRounds_total (hfuel : ops.length < fuel) : ∃ kept report', dropRounds live fuel ops report = some (kept, report') := by
  induction fuel generalizing ops report with
  | zero => exact absurd hfuel (Nat.not_lt_zero _)
  | succ fuel ih =>
    rw [dropRounds]
    split
    · exact ⟨_, _, rfl⟩
    · next hless =>
      refine ih ?_
      have hle := List.length_filter_le (fun op => (badRefs live (ops.filterMap provides) op).isEmpty) ops
      omega

/-- A set that is closed within the ops of a round is within those of the next; the last round is such a
set. -/
theorem dropRounds_greatest (h : dropRounds live fuel ops report = some (kept, report')) :
    op ∈ kept ↔ InGreatest (· ∈ live) provides ops op := by
  induction fuel generalizing ops report with
  | zero => cases h
  | succ fuel ih =>
    rw [dropRounds] at h
    have hnext : ∀ s, SelfSufficient (· ∈ live) provides ops s →
        ∀ op, s op → (badRefs live (ops.filterMap provides) op).isEmpty = true := by
      intro s hs op hop
      refine badRefs_isEmpty.mpr fun r hr => (hs.refs op hop r hr).imp_right ?_
      rintro ⟨giver, hgiver, hgives⟩
      exact List.mem_filterMap.mpr ⟨giver, hs.sub giver hgiver, hgives⟩
    split at h
    · next hsame =>
      cases h
      have hall := List.length_filter_eq_length_iff.mp hsame
      rw [List.mem_filter]
      constructor
      · rintro ⟨hop, -⟩
        refine ⟨(· ∈ ops), ⟨fun _ h => h, fun op hop r hr => ?_⟩, hop⟩
        refine (badRefs_isEmpty.mp (hall op hop) r hr).imp_right fun hprovided => ?_
        exact List.mem_filterMap.mp hprovided
      · rintro ⟨s, hs, hop⟩
        exact ⟨hs.sub op hop, hnext s hs op hop⟩
    · rw [ih h]
      constructor
      · rintro ⟨s, hs, hop⟩
        exact ⟨s, ⟨fun op hop => (List.mem_filter.mp (hs.sub op hop)).1, hs.refs⟩, hop⟩
      · rintro ⟨s, hs, hop⟩
        exact ⟨s, ⟨fun op hop => List.mem_filter.mpr ⟨hs.sub op hop, hnext s hs op hop⟩, hs.refs⟩, hop⟩

/-! ## Spelling -/

theorem isLowerHex_toLower {c : Char} (h : isLowerHex c = true) : c.toLower = c := by
  unfold Char.toLower
  split
  · next hup =>
    rw [isLowerHex, Bool.or_eq_true, Bool.and_eq_true, Bool.and_eq_true] at h
    simp only [decide_eq_true_eq, Char.le_def, UInt32.le_iff_toNat_le] at h
    simp only [ge_iff_le, UInt32.le_iff_toNat_le] at hup
    have hcodes : '9'.val.toNat = 57 ∧ 'a'.val.toNat = 97 ∧ 'A'.val.toNat = 65 ∧ 'Z'.val.toNat = 90 := by decide
    omega
  · rfl

/-- A uuid as the database spells it is read as itself. -/
theorem Uuid.parse?_text (id : Uuid) : Uuid.parse? id.text = some id := by
  have hlower : lowercase id.text = id.text := by
    have hchars : id.text.toList.map Char.toLower = id.text.toList := by
      refine (List.map_congr_left fun c hc => ?_).trans (List.map_id _)
      obtain ⟨i, hi⟩ := List.mem_iff_getElem?.mp hc
      have hall := id.canonical
      rw [isUuidText, Bool.and_eq_true, List.all_eq_true] at hall
      have hc' := hall.2 (c, i) (List.mk_mem_zipIdx_iff_getElem?.mpr hi)
      dsimp only at hc'
      split at hc'
      · rw [decide_eq_true_eq] at hc'
        subst hc'
        decide
      · exact isLowerHex_toLower hc'
    rw [lowercase, hchars, String.ofList_toList]
  have hcanonical : isUuidText (lowercase id.text).toList = true := by
    rw [hlower]
    exact id.canonical
  rw [Uuid.parse?, dif_pos hcanonical, Option.some.injEq]
  exact Uuid.ext_text hlower

theorem self_ne_text (id : Uuid) : "self" ≠ id.text := by
  intro heq
  have hnone : Uuid.parse? "self" = none := by decide
  rw [heq, id.parse?_text] at hnone
  cases hnone

/-! ## The two resolutions -/

/-- The strings that the pre-pass takes as live. -/
def liveRefs (l : Locals) (rows : List Uuid) : List String :=
  l.refs.map (·.2.text) ++ l.refs.map (·.1) ++ rows.map (·.text)

theorem mem_liveRefs {rows : List Uuid} :
    r ∈ liveRefs (seedSelf call) rows ↔ namesSelf call r ∨ ∃ id ∈ rows, r = id.text := by
  have hrows : r ∈ rows.map (·.text) ↔ ∃ id ∈ rows, r = id.text :=
    List.mem_map.trans (exists_congr fun id => and_congr_right fun _ => eq_comm)
  rw [liveRefs, List.mem_append, List.mem_append, hrows]
  refine or_congr_left ?_
  rw [seedSelf, namesSelf]
  cases call.opts.selfNodeId with
  | none => simp
  | some id => simp [or_comm]

/-- The pre-pass ends, and keeps the greatest set over its strings. -/
theorem dropUnresolvableOps_keeps (call : PatchCall) (db : PlanDb) (ops : List PlanPatchOp) :
    ∃ kept l, Ends PlanDb.exec (dropUnresolvableOps ops) (seedSelf call) db (.ok kept) l db ∧
      ops.filter (· ∈ kept) = kept ∧ ∀ op, op ∈ kept ↔ InGreatest (SpelledLive call db) provides ops op := by
  let noted := fun report => { seedSelf call with
    result := { (seedSelf call).result with dropped := (seedSelf call).result.dropped ++ report } }
  have hrounds : ∀ rows : List Uuid, (∀ id ∈ rows, id ∈ db.nodes.keys) →
      (∀ op ∈ ops, ∀ r ∈ refsOf op, ∀ id ∈ db.nodes.keys, r = id.text → id ∈ rows) →
      ∃ kept report, dropRounds (liveRefs (seedSelf call) rows) (ops.length + 1) ops [] = some (kept, report) ∧
        ops.filter (· ∈ kept) = kept ∧ ∀ op, op ∈ kept ↔ InGreatest (SpelledLive call db) provides ops op := by
    intro rows hrows hfound
    obtain ⟨kept, report, hkept⟩ : ∃ kept report,
        dropRounds (liveRefs (seedSelf call) rows) (ops.length + 1) ops [] = some (kept, report) :=
      dropRounds_total (Nat.lt_succ_self ops.length)
    refine ⟨kept, report, hkept, (dropRounds_spec hkept).1, fun op => (dropRounds_greatest hkept).trans ?_⟩
    constructor
    · rintro ⟨s, hs, hop⟩
      refine ⟨s, ⟨hs.sub, fun op hop r hr => (hs.refs op hop r hr).imp_left fun hlive => ?_⟩, hop⟩
      exact (mem_liveRefs.mp hlive).imp_right fun ⟨id, hid, heq⟩ => ⟨id, hrows id hid, heq⟩
    · rintro ⟨s, hs, hop⟩
      refine ⟨s, ⟨hs.sub, fun op hop r hr => (hs.refs op hop r hr).imp_left fun hlive => ?_⟩, hop⟩
      exact mem_liveRefs.mpr (hlive.imp_right fun ⟨id, hid, heq⟩ => ⟨id, hfound op (hs.sub op hop) r hr id hid heq, heq⟩)
  have hwanted : ∀ op ∈ ops, ∀ r ∈ refsOf op, ∀ id : Uuid, r = id.text → id ∈ (ops.flatMap refsOf).filterMap Uuid.parse? := by
    rintro op hop r hr id rfl
    exact List.mem_filterMap.mpr ⟨_, List.mem_flatMap.mpr ⟨op, hop, hr⟩, id.parse?_text⟩
  rcases Decidable.em (((ops.flatMap refsOf).filterMap Uuid.parse?).isEmpty = true) with hempty | hsome
  · obtain ⟨kept, report, hkept, hfilter, hmem⟩ := hrounds [] (fun _ h => absurd h List.not_mem_nil) fun op hop r hr id _ heq => by
      have hin := hwanted op hop r hr id heq
      rw [List.isEmpty_iff.mp hempty] at hin
      exact hin
    refine ⟨kept, noted report, ?_, hfilter, hmem⟩
    rw [dropUnresolvableOps, ends_get_bind]
    dsimp only
    rw [if_pos hempty, ends_pure_bind]
    have hrun : dropRounds ((seedSelf call).refs.map (·.2.text) ++ (seedSelf call).refs.map (·.1) ++ [].map Uuid.text)
      (ops.length + 1) ops [] = some (kept, report) := hkept
    rw [hrun]
    exact ends_modify_bind.mpr (ends_pure.mpr ⟨rfl, rfl, rfl⟩)
  · obtain ⟨kept, report, hkept, hfilter, hmem⟩ :=
      hrounds (((ops.flatMap refsOf).filterMap Uuid.parse?).filter (· ∈ db.nodes.keys))
        (fun id hid => of_decide_eq_true (List.mem_filter.mp hid).2)
        fun op hop r hr id hid heq => List.mem_filter.mpr ⟨hwanted op hop r hr id heq, decide_eq_true hid⟩
    refine ⟨kept, noted report, ?_, hfilter, hmem⟩
    rw [dropUnresolvableOps, ends_get_bind]
    dsimp only
    rw [if_neg hsome]
    refine ends_query_bind.mpr ⟨_, db, rfl, ?_⟩
    have hrun : dropRounds ((seedSelf call).refs.map (·.2.text) ++ (seedSelf call).refs.map (·.1) ++
        (((ops.flatMap refsOf).filterMap Uuid.parse?).filter (· ∈ db.nodes.keys)).map Uuid.text)
      (ops.length + 1) ops [] = some (kept, report) := hkept
    rw [hrun]
    exact ends_modify_bind.mpr (ends_pure.mpr ⟨rfl, rfl, rfl⟩)

theorem parse?_self : Uuid.parse? "self" = none := by decide

/-- The alias of a node that is there, or a uuid of one in either case. -/
theorem resolvesLive_iff : ResolvesLive call db r ↔
    r = "self" ∧ (∃ id, call.opts.selfNodeId = some id ∧ id ∈ db.nodes.keys) ∨
      ∃ id, Uuid.parse? r = some id ∧ id ∈ db.nodes.keys := by
  have hplain : Locals.candidate {} r = (Uuid.parse? r).map fun id => (r, id) := rfl
  unfold ResolvesLive
  rw [seedSelf]
  cases hself : call.opts.selfNodeId with
  | none => simp [hplain]
  | some id =>
    rcases Decidable.em (r = "self") with rfl | hne
    · have halias : Locals.candidate { refs := [("self", id)] } "self" = some (id.text, id) := rfl
      simp [halias, parse?_self]
    · have hother : Locals.candidate { refs := [("self", id)] } r = (Uuid.parse? r).map fun id => (r, id) := by
        rw [Locals.candidate, List.lookup_cons, beq_false_of_ne hne]
        rfl
      simp [hother, hne]

theorem tempId_provides (h : tempId call op = some r) : provides op = some r ∧ ¬ namesSelf call r := by
  cases op with
  | upsert op =>
    rw [tempId] at h
    split at h
    · cases h
    · next hcond =>
      rw [Bool.or_eq_true, not_or] at hcond
      obtain rfl := Option.some.inj h
      refine ⟨by rw [provides, if_neg hcond.1], ?_⟩
      rintro ⟨id, hself, heq | heq⟩
      · rw [heq, seedSelf, hself] at hcond
        exact hcond.2 rfl
      · rw [heq, isPlanNodeId, id.parse?_text] at hcond
        exact hcond.1 rfl
  | delete _ _ => cases h
  | link _ _ _ _ => cases h
  | unlink _ _ _ => cases h

theorem provides_tempId (call : PatchCall) (h : provides op = some r) :
    Uuid.parse? r = none ∧ (tempId call op = some r ∨ tempId call op = none ∧ namesSelf call r) := by
  cases op with
  | upsert op =>
    rw [provides] at h
    split at h
    · cases h
    · next hcond =>
      obtain rfl := Option.some.inj h
      have hnone : Uuid.parse? op.nodeRef = none := by
        rw [isPlanNodeId, Option.isSome_iff_ne_none, not_not] at hcond
        exact hcond
      refine ⟨hnone, ?_⟩
      rw [tempId, Bool.eq_false_of_not_eq_true hcond, Bool.false_or]
      cases hlookup : (seedSelf call).refs.lookup op.nodeRef with
      | none => exact .inl rfl
      | some id =>
        refine .inr ⟨rfl, ?_⟩
        rw [seedSelf] at hlookup
        split at hlookup
        · cases hlookup
        · next id' hself =>
          refine ⟨id', hself, .inl (Classical.byContradiction fun hne => ?_)⟩
          rw [List.lookup_cons, beq_false_of_ne hne] at hlookup
          cases hlookup
  | delete _ _ => cases h
  | link _ _ _ _ => cases h
  | unlink _ _ _ => cases h

/-- A name of `self` resolves exactly where its node is there. -/
theorem namesSelf_resolves (h : namesSelf call r) : ResolvesLive call db r ↔
    ∃ id, call.opts.selfNodeId = some id ∧ id ∈ db.nodes.keys := by
  obtain ⟨id, hself, rfl | rfl⟩ := h
  · rw [resolvesLive_iff, parse?_self]
    simp
  · rw [resolvesLive_iff, id.parse?_text, hself]
    simp [(self_ne_text id).symm]

/-- The strings let through the ops that resolve. -/
theorem KeepsGreatest.inGreatest_iff (h : KeepsGreatest call db ops) (op : PlanPatchOp) :
    InGreatest (ResolvesLive call db) (tempId call) ops op ↔ InGreatest (SpelledLive call db) provides ops op := by
  obtain ⟨kept, l, hends, -, hkept⟩ := dropUnresolvableOps_keeps call db ops
  obtain ⟨kept', l', hends', -, hkept'⟩ := h
  have heq : (Except.ok (ε := PatchError) kept, l) = (Except.ok kept', l') :=
    congrArg Prod.fst (Except.ok.inj (Eq.trans (Eq.symm hends) hends'))
  cases heq
  exact (hkept' op).symm.trans (hkept op)

/-- The pre-pass keeps the greatest set of ops that resolve exactly where the ops of that set spell uuids as
the database does and, if the node of `self` is gone, no op that the strings let through names it. -/
theorem keeps_greatest_iff (call : PatchCall) (db : PlanDb) (ops : List PlanPatchOp) :
    KeepsGreatest call db ops ↔ ResolvesAlike call db ops := by
  constructor
  · intro h
    have hsame := h.inGreatest_iff
    refine ⟨fun op hop r hr id hparse => ?_, fun id hself hgone op hop r hr hname => ?_⟩
    · rcases greatest_selfSufficient.refs op ((hsame op).mp hop) r hr with (hname | ⟨id', -, rfl⟩) | ⟨giver, -, hgives⟩
      · obtain ⟨id', -, rfl | rfl⟩ := hname
        · rw [parse?_self] at hparse
          cases hparse
        · rw [id'.parse?_text] at hparse
          cases hparse
          rfl
      · rw [id'.parse?_text] at hparse
        cases hparse
        rfl
      · rw [(provides_tempId call hgives).1] at hparse
        cases hparse
    · have hgone' : ¬ ResolvesLive call db r := by
        rw [namesSelf_resolves hname]
        rintro ⟨id', hself', hlive⟩
        cases hself.symm.trans hself'
        exact hgone hlive
      rcases greatest_selfSufficient.refs op ((hsame op).mpr hop) r hr with hlive | ⟨giver, -, hgives⟩
      · exact hgone' hlive
      · exact (tempId_provides hgives).2 hname
  · rintro ⟨hspelled, hself⟩
    obtain ⟨kept, l, hends, hfilter, hkept⟩ := dropUnresolvableOps_keeps call db ops
    refine ⟨kept, l, hends, hfilter, fun op => (hkept op).trans ?_⟩
    constructor
    · intro hop
      refine ⟨_, ⟨greatest_selfSufficient.sub, fun op hop r hr => ?_⟩, hop⟩
      -- A name of `self` in a kept op resolves, since its node is there.
      have hnamed : namesSelf call r → ResolvesLive call db r := by
        intro hname
        rw [namesSelf_resolves hname]
        obtain ⟨id, hid, -⟩ := id hname
        refine ⟨id, hid, Classical.byContradiction fun hgone => hself id hid hgone op hop r hr hname⟩
      rcases greatest_selfSufficient.refs op hop r hr with (hname | ⟨id, hid, rfl⟩) | ⟨giver, hgiver, hgives⟩
      · exact .inl (hnamed hname)
      · exact .inl (resolvesLive_iff.mpr (.inr ⟨id, id.parse?_text, hid⟩))
      · rcases (provides_tempId call hgives).2 with htemp | ⟨-, hname⟩
        · exact .inr ⟨giver, hgiver, htemp⟩
        · exact .inl (hnamed hname)
    · intro hop
      refine ⟨_, ⟨greatest_selfSufficient.sub, fun op hop r hr => ?_⟩, hop⟩
      rcases greatest_selfSufficient.refs op hop r hr with hlive | ⟨giver, hgiver, hgives⟩
      · rcases resolvesLive_iff.mp hlive with ⟨rfl, id, hid, -⟩ | ⟨id, hparse, hid⟩
        · exact .inl (.inl ⟨id, hid, .inl rfl⟩)
        · exact .inl (.inr ⟨id, hid, hspelled op hop r hr id hparse⟩)
      · exact .inr ⟨giver, hgiver, (tempId_provides hgives).1⟩

/-! ## A uuid in upper case -/

namespace Sample

def shouted : String := "AAAAAAAA-AAAA-4AAA-8AAA-AAAAAAAAAAAA"

theorem parse?_shouted : Uuid.parse? shouted = some api := by decide

end Sample

open Haive.Sample in
/-- The node is there, and the op that names it in upper case is dropped. -/
theorem upper_case_dropped : ¬ ∀ call db ops, KeepsGreatest call db ops := by
  intro h
  have hsame := (h (patch []) start [.delete shouted none]).inGreatest_iff (.delete shouted none)
  have hresolves : InGreatest (ResolvesLive (patch []) start) (tempId (patch [])) [.delete shouted none]
      (.delete shouted none) := by
    refine ⟨(· ∈ [.delete shouted none]), ⟨fun _ h => h, fun op hop r hr => .inl ?_⟩, List.mem_cons_self⟩
    rw [List.mem_singleton.mp hop] at hr
    rw [List.mem_singleton.mp hr]
    exact resolvesLive_iff.mpr (.inr ⟨api, parse?_shouted, by decide⟩)
  have hspelled := greatest_selfSufficient.refs _ (hsame.mp hresolves) shouted List.mem_cons_self
  rcases hspelled with (⟨id, hself, -⟩ | ⟨id, -, heq⟩) | ⟨giver, hgiver, hgives⟩
  · cases hself
  · have hcanonical := id.canonical
    rw [← heq] at hcanonical
    exact absurd hcanonical (by decide)
  · rw [List.mem_singleton.mp (greatest_selfSufficient.sub giver hgiver)] at hgives
    cases hgives

end Haive

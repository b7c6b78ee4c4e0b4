import Haive.Plan.Numbering
import Haive.Plan.ApplyPatch

/-!
# Build order over any list of nodes

`computePlanSequence` takes a list whose parents may be missing and may stand behind their
children. The numbers are a build order whatever the list (`build_order_iff` shows it on the
way). The roll-ups count every descendant exactly where `WalkedFromAbove` holds: where a node
with a parent and children of its own is walked before its parent, the parent gets nothing
of what is below that node (`midFirst_miscounts`).
-/

namespace Haive

open Lib

variable {nodes : PlanNodes} {drift : Uuid → Nat} {order : List Uuid} {w : Walk} {a b id : Uuid}

/-! ## The result -/

/-- The numbers are 1 to `n`. Every node comes after its descendants and its earlier siblings, and is
rolled up against its descendants. -/
structure BuildOrder (nodes : PlanNodes) (touched : List PlanTouchedTask) (result : PlanSequenceResult) : Prop where
  numbered : ∀ id, (∃ k, result.sequenceById id = some k) ↔ id ∈ nodes.keys
  range : ∀ k, (∃ id, result.sequenceById id = some k) ↔ 1 ≤ k ∧ k ≤ nodes.rows.length
  injective : ∀ a b k, result.sequenceById a = some k → result.sequenceById b = some k → a = b
  below : ∀ a b i j, Above (parentFrom nodes) a b → result.sequenceById a = some i →
    result.sequenceById b = some j → i < j
  siblings : ∀ a b i j, parentFrom nodes a = parentFrom nodes b → Precedes nodes a b →
    result.sequenceById a = some i → result.sequenceById b = some j → i < j
  stats : ∀ n ∈ nodes.rows, result.statsById n.id = some
    { directChildren := (orderedChildren nodes (some n.id)).length
      totalDescendants := (descendants nodes n.id).length
      rolledStatus := rollUpStatus n.status ((descendants nodes n.id).map (·.status))
      driftedTasks := subtreeDrift nodes (driftOwn nodes touched) n.id }

/-- A node with a parent and children in the list is under a root, or something above it stands before
it. -/
def WalkedFromAbove (nodes : PlanNodes) : Prop :=
  ∀ m ∈ nodes.rows, (∃ p ∈ nodes.keys, m.parentId = some p) → (∃ c ∈ nodes.rows, c.parentId = some m.id) →
    (∃ r ∈ nodes.rows, r.parentId = none ∧ Above (parentFrom nodes) m.id r.id) ∨
      ∃ a ∈ nodes.rows, Above (parentFrom nodes) m.id a.id ∧ Precedes nodes a.id m.id

theorem grounded_of_acyclic (hacyclic : ∀ r ∈ nodes.rows, ¬ Above (parentFrom nodes) r.id r.id) : Grounded nodes := by
  intro r hr
  have hall : Acyclic (parentFrom nodes) := by
    intro x hx
    obtain ⟨y, hy, -⟩ := above_iff.mp hx
    obtain ⟨s, hs, rfl⟩ := Table.mem_keys.mp (parent_mem_keys hy)
    exact hacyclic s hs hx
  refine rooted_of_acyclic (s := (nodes.keys ++ nodes.keys.filterMap (parentFrom nodes)).toFinset) (fun x _ y hy => ?_)
    hall (List.mem_toFinset.mpr (List.mem_append_left _ (Table.mem_keys_of_mem hr)))
  exact List.mem_toFinset.mpr (List.mem_append_right _ (List.mem_filterMap.mpr ⟨x, parent_mem_keys hy, hy⟩))

theorem precedes_or (ha : a ∈ nodes.keys) (hne : a ≠ b) : Precedes nodes a b ∨ Precedes nodes b a := by
  rcases Nat.lt_trichotomy (nodes.keys.idxOf a) (nodes.keys.idxOf b) with h | h | h
  · exact .inl h
  · exact absurd ((List.idxOf_inj ha).mp h) hne
  · exact .inr h

/-- The list is walked from above exactly where no node that starts a walk has both a parent and children. -/
theorem walkedFromAbove_iff (hgrounded : Grounded nodes) : WalkedFromAbove nodes ↔
    ∀ p ∈ nodes.keys, ∀ c ∈ orderedChildren nodes (some p), StartsWalk nodes c.id → descendants nodes c.id = [] := by
  constructor
  · intro h p hp c hc hstart
    obtain ⟨hmem, hparent⟩ := mem_orderedChildren.mp hc
    refine List.eq_nil_iff_forall_not_mem.mpr fun d hd => ?_
    obtain ⟨-, habove⟩ := (mem_descendants hgrounded).mp hd
    obtain ⟨child, hchild, -⟩ := above_iff_child.mp habove
    obtain ⟨hcmem, hcp⟩ := mem_orderedChildren.mp hchild
    rcases h c hmem ⟨p, hp, hparent⟩ ⟨child, hcmem, hcp⟩ with ⟨r, hr, hroot, hup⟩ | ⟨a, ha, hup, hlt⟩
    · exact hstart.1 r hr hroot (.inr hup)
    · exact Nat.lt_asymm hlt (hstart.2 a ha hup)
  · rintro h m hm ⟨p, hp, hparent⟩ ⟨c, hc, hcp⟩
    have hmc : m ∈ orderedChildren nodes (some p) := mem_orderedChildren.mpr ⟨hm, hparent⟩
    have hc' : c ∈ descendants nodes m.id := (mem_descendants hgrounded).mpr
      ⟨hc, above_iff_child.mpr ⟨c, mem_orderedChildren.mpr ⟨hc, hcp⟩, .inl rfl⟩⟩
    refine Classical.byContradiction fun hnone => ?_
    rw [not_or] at hnone
    have hstart : StartsWalk nodes m.id := by
      refine ⟨fun r hr hroot hunder => ?_, fun a ha hup => ?_⟩
      · rcases hunder with heq | hup
        · obtain rfl := Table.key_injective hm hr heq
          rw [hroot] at hparent
          cases hparent
        · exact hnone.1 ⟨r, hr, hroot, hup⟩
      · refine (precedes_or (Table.mem_keys_of_mem hm) fun heq => ?_).resolve_right
          fun hlt => hnone.2 ⟨a, ha, hup, hlt⟩
        exact (hgrounded m hm).not_above_self (heq ▸ hup)
    exact List.not_mem_nil (h p hp m hmc hstart ▸ hc')

theorem Walk.Fits.inTurn (h : w.Fits nodes drift order) (hb : b ∈ order) (hlt : order.idxOf a < order.idxOf b) :
    InTurn nodes a b := by
  have hb' : order.idxOf b < order.length := List.idxOf_lt_length_iff.mpr hb
  have hturn := List.pairwise_iff_getElem.mp h.turns _ _ (hlt.trans hb') hb' hlt
  rwa [List.getElem_idxOf, List.getElem_idxOf] at hturn

theorem Walk.Fits.sequence_eq (h : w.Fits nodes drift order) {k : Nat} :
    w.sequenceById id = some k ↔ id ∈ order ∧ order.idxOf id + 1 = k := by
  rw [h.sequence]
  split
  · next hin => exact ⟨fun heq => ⟨hin, Option.some.inj heq⟩, fun heq => congrArg some heq.2⟩
  · next hout => exact ⟨nofun, fun heq => absurd heq.1 hout⟩

/-- The rows are numbered in build order whatever the list; they are rolled up against all of their
descendants where the list is walked from above. -/
theorem build_order_iff (nodes : PlanNodes) (edges : List PlanNodeEdgeRow) (touched : List PlanTouchedTask)
    (hacyclic : ∀ r ∈ nodes.rows, ¬ Above (parentFrom nodes) r.id r.id) :
    BuildOrder nodes touched (computePlanSequence nodes edges touched) ↔ WalkedFromAbove nodes := by
  have hgrounded := grounded_of_acyclic hacyclic
  obtain ⟨order, hfits, hmem⟩ := walkAll_fits hgrounded (driftOwn nodes touched)
  have hlength : order.length = nodes.rows.length := by
    have hnodup : order.Nodup := hfits.turns.imp fun h => h.1
    have hperm : order.Perm nodes.keys := (List.perm_ext_iff_of_nodup hnodup nodes.nodup).mpr hmem
    rw [hperm.length_eq, Table.keys, List.length_map]
  have hdistinct : ∀ a b, a ∈ order → b ∈ order → a ≠ b → order.idxOf b < order.idxOf a ∨ order.idxOf a < order.idxOf b := by
    intro a b ha hb hne
    rcases Nat.lt_trichotomy (order.idxOf a) (order.idxOf b) with h | h | h
    · exact .inr h
    · exact absurd ((List.idxOf_inj ha).mp h) hne
    · exact .inl h
  rw [walkedFromAbove_iff hgrounded]
  constructor
  · intro h p hp c hc hstart
    refine Classical.byContradiction fun hbelow => ?_
    obtain ⟨r, hr, rfl⟩ := Table.mem_keys.mp hp
    obtain ⟨statuses, hfolds, hstats⟩ := hfits.stats r hr ((hmem r.id).mpr hp)
    have hless := hfolds.length_lt hgrounded hc hstart hbelow
    have hcount : statuses.length = (descendants nodes r.id).length :=
      congrArg PlanNodeStats.totalDescendants (Option.some.inj (hstats.symm.trans (h.stats r hr)))
    exact Nat.ne_of_lt hless hcount
  · intro hleaves
    refine ⟨fun id => ?_, fun k => ⟨?_, fun hk => ?_⟩, fun a b k ha hb => ?_, fun a b i j habove hi hj => ?_,
      fun a b i j hp hlt hi hj => ?_, fun n hn => ?_⟩
    · rw [← hmem]
      constructor
      · rintro ⟨k, hk⟩
        exact (hfits.sequence_eq.mp hk).1
      · exact fun hin => ⟨_, hfits.sequence_eq.mpr ⟨hin, rfl⟩⟩
    · rintro ⟨id, hk⟩
      obtain ⟨hin, rfl⟩ := hfits.sequence_eq.mp hk
      exact ⟨Nat.le_add_left _ _, hlength ▸ List.idxOf_lt_length_iff.mpr hin⟩
    · obtain ⟨hpos, hle⟩ := hk
      have hk : k - 1 < order.length := by omega
      refine ⟨order[k - 1], hfits.sequence_eq.mpr ⟨List.getElem_mem hk, ?_⟩⟩
      have hnodup : order.Nodup := hfits.turns.imp fun h => h.1
      rw [hnodup.idxOf_getElem _ hk]
      exact Nat.sub_add_cancel hpos
    · obtain ⟨ha, rfl⟩ := hfits.sequence_eq.mp ha
      obtain ⟨hb, heq⟩ := hfits.sequence_eq.mp hb
      exact ((List.idxOf_inj hb).mp (Nat.succ.inj heq)).symm
    · obtain ⟨ha, rfl⟩ := hfits.sequence_eq.mp hi
      obtain ⟨hb, rfl⟩ := hfits.sequence_eq.mp hj
      have hne : a ≠ b := by
        rintro rfl
        obtain ⟨r, hr, rfl⟩ := Table.mem_keys.mp ((hmem a).mp ha)
        exact hacyclic r hr habove
      exact Nat.succ_lt_succ ((hdistinct a b ha hb hne).resolve_left fun hlt => (hfits.inTurn ha hlt).2.1 habove)
    · obtain ⟨ha, rfl⟩ := hfits.sequence_eq.mp hi
      obtain ⟨hb, rfl⟩ := hfits.sequence_eq.mp hj
      have hne : a ≠ b := fun heq => Nat.lt_irrefl _ (heq ▸ hlt)
      exact Nat.succ_lt_succ ((hdistinct a b ha hb hne).resolve_left fun hback =>
        (hfits.inTurn ha hback).2.2 ⟨hp.symm, hlt⟩)
    · have hkey : n.id ∈ nodes.keys := Table.mem_keys_of_mem hn
      obtain ⟨statuses, hfolds, hstats⟩ := hfits.stats n hn ((hmem n.id).mpr hkey)
      have hperm := hfolds.perm hgrounded hkey hleaves
      rw [rollUpStatus_perm hperm, hperm.length_eq, List.length_map] at hstats
      exact hstats

/-! ## A node walked on its own -/

namespace Sample

def missingParent : Uuid := ⟨"dddddddd-dddd-4ddd-8ddd-dddddddddddd", by decide⟩

/-- A node with a child stands before its parent, whose own parent is not in the list. -/
def midFirst : PlanNodes :=
  ⟨[row api (some root) "" 0 1 "Api", row web (some api) "" 0 1 "Web", row root (some missingParent) "" 0 1 "Plan"],
    by decide⟩

def topFirst : PlanNodes :=
  ⟨[row root (some missingParent) "" 0 1 "Plan", row api (some root) "" 0 1 "Api", row web (some api) "" 0 1 "Web"],
    by decide⟩

theorem chain_grounded {nodes : PlanNodes} (hrows : ∀ r ∈ nodes.rows, r.id = web ∨ r.id = api ∨ r.id = root)
    (hweb : parentFrom nodes web = some api) (hapi : parentFrom nodes api = some root)
    (hroot : parentFrom nodes root = some missingParent) (hmissing : parentFrom nodes missingParent = none) :
    ∀ r ∈ nodes.rows, ¬ Above (parentFrom nodes) r.id r.id := by
  have htop : Rooted (parentFrom nodes) root := .step hroot (.root hmissing)
  have hmid : Rooted (parentFrom nodes) api := .step hapi htop
  intro r hr
  rcases hrows r hr with h | h | h
  · exact h ▸ (Rooted.step hweb hmid).not_above_self
  · exact h ▸ hmid.not_above_self
  · exact h ▸ htop.not_above_self

theorem midFirst_acyclic : ∀ r ∈ midFirst.rows, ¬ Above (parentFrom midFirst) r.id r.id :=
  chain_grounded (by simp [midFirst, row]) rfl rfl rfl rfl

theorem topFirst_acyclic : ∀ r ∈ topFirst.rows, ¬ Above (parentFrom topFirst) r.id r.id :=
  chain_grounded (by simp [topFirst, row]) rfl rfl rfl rfl

end Sample

open Haive.Sample in
theorem topFirst_build_order : (∃ r ∈ topFirst.rows, r.parentId = some missingParent) ∧
    BuildOrder topFirst [] (computePlanSequence topFirst [] []) := by
  refine ⟨⟨_, List.mem_cons_self, rfl⟩, (build_order_iff topFirst [] [] topFirst_acyclic).mpr ?_⟩
  intro m hm hparent _
  have hrows : m = row root (some missingParent) "" 0 1 "Plan" ∨ m = row api (some root) "" 0 1 "Api" ∨
      m = row web (some api) "" 0 1 "Web" := by simpa [topFirst] using hm
  have hroot : row root (some missingParent) "" 0 1 "Plan" ∈ topFirst.rows := List.mem_cons_self
  rcases hrows with rfl | rfl | rfl
  · obtain ⟨p, hp, heq⟩ := hparent
    cases heq
    exact absurd hp (by decide)
  · exact .inr ⟨_, hroot, above_head rfl, by decide⟩
  · have hstep : parentFrom topFirst web = some api := rfl
    exact .inr ⟨_, hroot, .cons hstep (above_head rfl), by decide⟩

open Haive.Sample in
/-- The parent counts one of its two descendants. -/
theorem midFirst_miscounts : ¬ ∀ nodes edges touched, (∀ r ∈ nodes.rows, ¬ Above (parentFrom nodes) r.id r.id) →
    BuildOrder nodes touched (computePlanSequence nodes edges touched) := by
  intro h
  have hstats := (h midFirst [] [] midFirst_acyclic).stats (row root (some missingParent) "" 0 1 "Plan")
    (by simp [midFirst])
  have hcounted : ((computePlanSequence midFirst [] []).statsById root).map (·.totalDescendants) = some 1 := by decide
  have hbelow : (descendants midFirst root).length = 2 := by decide
  rw [show (row root (some missingParent) "" 0 1 "Plan").id = root from rfl] at hstats
  rw [hstats] at hcounted
  exact absurd (hbelow.symm.trans (Option.some.inj hcounted)) (by decide)

end Haive

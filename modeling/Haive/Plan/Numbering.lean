import Haive.Plan.Sequence

/-!
# What the walk numbers and folds

Any list of nodes whose parent chains end: a parent may be missing from the list, and a
child may stand before its parent. `walkAll` numbers each node once, after what is below
it and after its earlier siblings. The statuses of a subtree are kept for one walk only,
so a node that a walk of its own has numbered gives its parent its own status and
nothing from below.
-/

namespace Haive

open Lib

/-- No parent chain comes back. -/
def Grounded (nodes : PlanNodes) : Prop := ∀ r ∈ nodes.rows, Rooted (parentFrom nodes) r.id

def descendants (nodes : PlanNodes) (id : Uuid) : List PlanNodeRow :=
  nodes.rows.filter fun d => ((Lib.climb (parentFrom nodes) (nodes.rows.length + 1) d.id).getD []).contains id

/-- `a` stands before `b` in the list. -/
def Precedes (nodes : PlanNodes) (a b : Uuid) : Prop := nodes.keys.idxOf a < nodes.keys.idxOf b

instance (nodes : PlanNodes) (a b : Uuid) : Decidable (Precedes nodes a b) := Nat.decLt _ _

/-- The roots do not reach the node, and it stands before everything above it: the second loop of
`computePlanSequence` walks from here. -/
def StartsWalk (nodes : PlanNodes) (id : Uuid) : Prop :=
  (∀ r ∈ nodes.rows, r.parentId = none → ¬ Under nodes id r.id) ∧
    ∀ a ∈ nodes.rows, Above (parentFrom nodes) id a.id → Precedes nodes id a.id

/-- The statuses that reach a node: of each child its own, and what reached the child in the same
walk. -/
inductive Folds (nodes : PlanNodes) : Uuid → List PlanNodeStatus → Prop
  | node {id : Uuid} (kept : Uuid → List PlanNodeStatus) :
      (∀ c ∈ orderedChildren nodes (some id), StartsWalk nodes c.id → kept c.id = []) →
      (∀ c ∈ orderedChildren nodes (some id), ¬ StartsWalk nodes c.id → Folds nodes c.id (kept c.id)) →
      Folds nodes id ((orderedChildren nodes (some id)).flatMap fun c => c.status :: kept c.id)

variable {nodes : PlanNodes} {drift : Uuid → Nat} {order order₀ : List Uuid} {w w' : Walk} {n c d : PlanNodeRow}
  {a b id x : Uuid} {statuses : List PlanNodeStatus}

/-! ## Descendants -/

theorem parent_mem_keys (h : parentFrom nodes a = some b) : a ∈ nodes.keys := by
  obtain ⟨r, hr, -⟩ := Option.bind_eq_some_iff.mp h
  exact Table.mem_keys_iff_find?.mpr ⟨r, hr⟩

theorem mem_descendants (hgrounded : Grounded nodes) :
    d ∈ descendants nodes id ↔ d ∈ nodes.rows ∧ Above (parentFrom nodes) d.id id := by
  rw [descendants, List.mem_filter, List.contains_iff_mem]
  refine and_congr_right fun hd => ?_
  obtain ⟨ys, hys⟩ := climb_of_rooted (fun _ _ => parent_mem_keys) (hgrounded d hd)
  rw [Table.keys, List.length_map] at hys
  rw [hys, Option.getD_some, above_iff_mem_climb hys]

theorem descendants_nodup (nodes : PlanNodes) (id : Uuid) : (descendants nodes id).Nodup :=
  (List.Nodup.of_map _ nodes.nodup).filter _

theorem Grounded.apart (hgrounded : Grounded nodes) {p : Option Uuid} {c c' : PlanNodeRow}
    (hc : c ∈ orderedChildren nodes p) (hc' : c' ∈ orderedChildren nodes p) (hne : c.id ≠ c'.id)
    (hx : Under nodes x c.id) : ¬ Under nodes x c'.id := by
  have hparent : ∀ {c : PlanNodeRow}, c ∈ orderedChildren nodes p → parentFrom nodes c.id = p := by
    intro c hc
    obtain ⟨hmem, hp⟩ := mem_orderedChildren.mp hc
    exact (parentFrom_of_mem hmem).trans hp
  have key : ∀ {a b : PlanNodeRow}, a ∈ orderedChildren nodes p → b ∈ orderedChildren nodes p →
      a.id ≠ b.id → ¬ Under nodes a.id b.id := by
    intro a b ha hb hab hunder
    rcases hunder with heq | habove
    · exact hab heq
    · -- `b` would be above its own parent.
      obtain ⟨y, hy, hrest⟩ := above_iff.mp habove
      rw [hparent ha] at hy
      have hloop : Above (parentFrom nodes) b.id b.id := by
        rcases hrest with rfl | hrest
        · exact above_head ((hparent hb).trans hy)
        · exact Above.cons ((hparent hb).trans hy) hrest
      exact (hgrounded b (mem_orderedChildren.mp hb).1).not_above_self hloop
  intro hx'
  rcases hx.comparable hx' with h | h
  · exact key hc hc' hne h
  · exact key hc' hc hne.symm h

theorem Grounded.child_ne (hgrounded : Grounded nodes) (hc : c ∈ orderedChildren nodes (some id)) : c.id ≠ id := by
  rintro rfl
  have hmem := mem_orderedChildren.mp hc
  exact (hgrounded c hmem.1).not_above_self (above_iff_child.mpr ⟨c, hc, .inl rfl⟩)

theorem above_of_child (hc : c ∈ orderedChildren nodes (some id)) (h : Under nodes id x) :
    Above (parentFrom nodes) c.id x := by
  obtain ⟨hmem, hp⟩ := mem_orderedChildren.mp hc
  have hstep : parentFrom nodes c.id = some id := (parentFrom_of_mem hmem).trans hp
  rcases h with rfl | h
  · exact above_head hstep
  · exact h.cons hstep

theorem descendants_perm (hgrounded : Grounded nodes) (id : Uuid) :
    (descendants nodes id).Perm
      ((orderedChildren nodes (some id)).flatMap fun c => c :: descendants nodes c.id) := by
  have hchildren : (orderedChildren nodes (some id)).Nodup := .of_map _ (orderedChildren_ids _)
  refine (List.perm_ext_iff_of_nodup (descendants_nodup nodes id) ?_).mpr fun d => ?_
  · rw [List.nodup_flatMap]
    refine ⟨fun c hc => List.nodup_cons.mpr ⟨fun hself => ?_, descendants_nodup nodes c.id⟩, ?_⟩
    · have hmem := (mem_descendants hgrounded).mp hself
      exact (hgrounded c hmem.1).not_above_self hmem.2
    · refine hchildren.imp_of_mem fun {c c'} hc hc' hne d hd hd' => ?_
      have hunder : ∀ {c : PlanNodeRow}, d ∈ c :: descendants nodes c.id → Under nodes d.id c.id := by
        intro c hd
        rcases List.mem_cons.mp hd with rfl | hd
        · exact .inl rfl
        · exact .inr ((mem_descendants hgrounded).mp hd).2
      have hid : c.id ≠ c'.id := fun heq =>
        hne (Table.key_injective (mem_orderedChildren.mp hc).1 (mem_orderedChildren.mp hc').1 heq)
      exact hgrounded.apart hc hc' hid (hunder hd) (hunder hd')
  · rw [mem_descendants hgrounded, above_iff_child, List.mem_flatMap]
    constructor
    · rintro ⟨hd, c, hc, hunder⟩
      refine ⟨c, hc, List.mem_cons.mpr ?_⟩
      rcases hunder with heq | habove
      · exact .inl (Table.key_injective hd (mem_orderedChildren.mp hc).1 heq)
      · exact .inr ((mem_descendants hgrounded).mpr ⟨hd, habove⟩)
    · rintro ⟨c, hc, hd⟩
      rcases List.mem_cons.mp hd with rfl | hd
      · exact ⟨(mem_orderedChildren.mp hc).1, d, hc, .inl rfl⟩
      · obtain ⟨hmem, habove⟩ := (mem_descendants hgrounded).mp hd
        exact ⟨hmem, c, hc, .inr habove⟩

/-! ## What reaches a node -/

theorem Folds.length_le (hgrounded : Grounded nodes) (h : Folds nodes id statuses) :
    statuses.length ≤ (descendants nodes id).length := by
  induction h with
  | @node id kept hstarts _ ih =>
    rw [(descendants_perm hgrounded id).length_eq, List.length_flatMap, List.length_flatMap]
    refine List.sum_le_sum fun c hc => ?_
    rw [List.length_cons, List.length_cons, Nat.succ_le_succ_iff]
    rcases Classical.em (StartsWalk nodes c.id) with hstart | hinner
    · rw [hstarts c hc hstart]
      exact Nat.zero_le _
    · exact ih c hc hinner

theorem Folds.length_lt (hgrounded : Grounded nodes) (h : Folds nodes id statuses)
    (hc : c ∈ orderedChildren nodes (some id)) (hstart : StartsWalk nodes c.id)
    (hbelow : descendants nodes c.id ≠ []) : statuses.length < (descendants nodes id).length := by
  cases h with
  | node kept hstarts hinner =>
    rw [(descendants_perm hgrounded id).length_eq, List.length_flatMap, List.length_flatMap]
    refine List.sum_lt_sum _ _ (fun c hc => ?_) ⟨c, hc, ?_⟩
    · rw [List.length_cons, List.length_cons, Nat.succ_le_succ_iff]
      rcases Classical.em (StartsWalk nodes c.id) with hstart | hno
      · rw [hstarts c hc hstart]
        exact Nat.zero_le _
      · exact (hinner c hc hno).length_le hgrounded
    · rw [List.length_cons, List.length_cons, Nat.succ_lt_succ_iff, hstarts c hc hstart]
      exact List.length_pos_of_ne_nil hbelow

/-- Where every child that was walked on its own is a leaf, all statuses from below arrive. -/
theorem Folds.perm (hgrounded : Grounded nodes) (h : Folds nodes id statuses) (hid : id ∈ nodes.keys)
    (hleaves : ∀ p ∈ nodes.keys, ∀ c ∈ orderedChildren nodes (some p), StartsWalk nodes c.id →
      descendants nodes c.id = []) : statuses.Perm ((descendants nodes id).map (·.status)) := by
  induction h with
  | @node id kept hstarts _ ih =>
    refine .trans (.flatMap_left _ fun c hc => ?_)
      (.trans (.of_eq (List.map_flatMap ..).symm) ((descendants_perm hgrounded id).map _).symm)
    rw [List.map_cons, List.perm_cons]
    rcases Classical.em (StartsWalk nodes c.id) with hstart | hinner
    · rw [hstarts c hc hstart, hleaves id hid c hc hstart]
      exact .nil
    · exact ih c hc hinner (Table.mem_keys_of_mem (mem_orderedChildren.mp hc).1)

theorem rollUpStatus_perm {own : PlanNodeStatus} {ss ss' : List PlanNodeStatus} (h : ss.Perm ss') :
    rollUpStatus own ss = rollUpStatus own ss' := by
  have hany : ss.any (· ≠ .todo) = ss'.any (· ≠ .todo) := h.any_eq
  have hall : ss.all isSettled = ss'.all isSettled := h.all_eq
  rw [rollUpStatus, rollUpStatus, hany, hall, h.isEmpty_eq, h.contains_eq]

/-! ## The state of a walk -/

/-- `b` may be numbered after `a`: it is not below it and not an earlier sibling. -/
def InTurn (nodes : PlanNodes) (a b : Uuid) : Prop :=
  a ≠ b ∧ ¬ Above (parentFrom nodes) b a ∧ ¬ (parentFrom nodes a = parentFrom nodes b ∧ Precedes nodes b a)

/-- The nodes of a subtree bear these tasks. -/
def subtreeDrift (nodes : PlanNodes) (drift : Uuid → Nat) (id : Uuid) : Nat :=
  drift id + ((descendants nodes id).map fun d => drift d.id).sum

/-- The nodes of `order` are numbered, in that order. -/
structure Walk.Fits (nodes : PlanNodes) (drift : Uuid → Nat) (order : List Uuid) (w : Walk) : Prop where
  counter : w.counter = order.length
  sequence : ∀ id, w.sequenceById id = if id ∈ order then some (order.idxOf id + 1) else none
  turns : order.Pairwise (InTurn nodes)
  known : ∀ id ∈ order, id ∈ nodes.keys
  closed : ∀ p ∈ order, ∀ c ∈ orderedChildren nodes (some p), c.id ∈ order
  stats : ∀ n ∈ nodes.rows, n.id ∈ order → ∃ statuses, Folds nodes n.id statuses ∧
    w.statsById n.id = some
      ⟨(orderedChildren nodes (some n.id)).length, statuses.length, rollUpStatus n.status statuses,
        subtreeDrift nodes drift n.id⟩

/-- Of the nodes whose parent has no number yet, the statuses of those that this walk has numbered are
kept; those of `order₀` are of the walks before. -/
def Walk.Keeps (nodes : PlanNodes) (order₀ order : List Uuid) (w : Walk) : Prop :=
  ∀ c ∈ nodes.rows, c.id ∈ order → (∀ p, c.parentId = some p → p ∉ order) →
    (c.id ∈ order₀ → w.descendantStatuses c.id = none) ∧
      (c.id ∉ order₀ → ∃ statuses, w.descendantStatuses c.id = some statuses ∧ Folds nodes c.id statuses)

/-- What is below a numbered node is numbered. -/
theorem Walk.Fits.below (h : w.Fits nodes drift order) (hid : id ∈ order) (hx : Under nodes x id) : x ∈ order := by
  rcases hx with rfl | hx
  · exact hid
  · induction hx using Relation.TransGen.head_induction_on with
    | @single a ha =>
      obtain ⟨r, hr, hp⟩ := Option.bind_eq_some_iff.mp ha
      have := h.closed id hid r (mem_orderedChildren.mpr ⟨Table.find?_mem hr, hp⟩)
      rwa [Table.find?_key hr] at this
    | @head a b ha _ ih =>
      obtain ⟨r, hr, hp⟩ := Option.bind_eq_some_iff.mp ha
      have := h.closed b ih r (mem_orderedChildren.mpr ⟨Table.find?_mem hr, hp⟩)
      rwa [Table.find?_key hr] at this

/-- The children's statuses and what is below them, when all of them are numbered. -/
theorem foldl_gather (seq : Uuid → Option Nat) (stats : Uuid → Option PlanNodeStats)
    {ks : List PlanNodeRow} (g : Gathered) (hseq : ∀ c ∈ ks, (seq c.id).isSome)
    (hids : (ks.map (·.id)).Nodup) :
    (ks.foldl (gather seq stats) g).statuses =
        g.statuses ++ ks.flatMap (fun c => c.status :: (g.descendantStatuses c.id).getD []) ∧
      ∀ id, (∀ c ∈ ks, c.id ≠ id) →
        (ks.foldl (gather seq stats) g).descendantStatuses id = g.descendantStatuses id := by
  induction ks generalizing g with
  | nil => exact ⟨(List.append_nil _).symm, fun _ _ => rfl⟩
  | cons c ks ih =>
    rw [List.map_cons, List.nodup_cons] at hids
    have hc := hseq c List.mem_cons_self
    have hstep : gather seq stats g c =
        { statuses := g.statuses ++ c.status :: (g.descendantStatuses c.id).getD []
          drift := g.drift + ((stats c.id).map (·.driftedTasks)).getD 0
          descendantStatuses := Function.update g.descendantStatuses c.id none } := by
      rw [gather, if_neg]
      rw [Option.isNone_iff_eq_none]
      exact Option.isSome_iff_ne_none.mp hc
    have hne : ∀ c' ∈ ks, c'.id ≠ c.id := fun c' hc' heq =>
      hids.1 (heq ▸ List.mem_map_of_mem hc')
    obtain ⟨hstatuses, hframe⟩ := ih (gather seq stats g c)
      (fun c' hc' => hseq c' (List.mem_cons_of_mem _ hc')) hids.2
    rw [List.foldl_cons]
    constructor
    · rw [hstatuses, hstep, List.flatMap_cons, List.append_assoc, List.cons_append]
      refine congrArg (fun l => g.statuses ++ (c.status :: ((g.descendantStatuses c.id).getD [] ++ l))) ?_
      refine List.flatMap_congr fun c' hc' => ?_
      dsimp only
      rw [Function.update_of_ne (hne c' hc')]
    · intro id hid
      rw [hframe id fun c' hc' => hid c' (List.mem_cons_of_mem _ hc'), hstep]
      exact Function.update_of_ne (hid c List.mem_cons_self).symm _ _

/-- The drift of the children, all of them numbered. -/
theorem foldl_gather_drift (seq : Uuid → Option Nat) (stats : Uuid → Option PlanNodeStats)
    {ks : List PlanNodeRow} (g : Gathered) (hseq : ∀ c ∈ ks, (seq c.id).isSome) :
    (ks.foldl (gather seq stats) g).drift =
      g.drift + (ks.map fun c => ((stats c.id).map (·.driftedTasks)).getD 0).sum := by
  induction ks generalizing g with
  | nil => rfl
  | cons c ks ih =>
    have hc : (seq c.id).isNone = false := by
      rw [← Option.not_isSome, hseq c List.mem_cons_self]
      rfl
    have hstep : (gather seq stats g c).drift = g.drift + ((stats c.id).map (·.driftedTasks)).getD 0 := by
      rw [gather, hc]
      rfl
    rw [List.foldl_cons, ih _ fun c' hc' => hseq c' (List.mem_cons_of_mem _ hc'), hstep, List.map_cons,
      List.sum_cons, Nat.add_assoc]

theorem subtreeDrift_children (hgrounded : Grounded nodes) (drift : Uuid → Nat) (id : Uuid) :
    subtreeDrift nodes drift id =
      drift id + ((orderedChildren nodes (some id)).map fun c => subtreeDrift nodes drift c.id).sum := by
  rw [subtreeDrift, ((descendants_perm hgrounded id).map _).sum_eq, List.map_flatMap, List.flatMap_def,
    List.sum_flatten, List.map_map]
  rfl

/-- A node is numbered when its children are, none of its later siblings is, and the children with
statuses of an earlier walk are the ones that started it. -/
theorem Walk.Fits.leave (hgrounded : Grounded nodes) (h : w.Fits nodes drift order)
    (hkeeps : w.Keeps nodes order₀ order) (hn : n ∈ nodes.rows) (hnew : n.id ∉ order) (hold : n.id ∉ order₀)
    (hchildren : ∀ c ∈ orderedChildren nodes (some n.id), c.id ∈ order)
    (hlater : ∀ b ∈ order, parentFrom nodes b = parentFrom nodes n.id → ¬ Precedes nodes n.id b)
    (hstarts : ∀ c ∈ orderedChildren nodes (some n.id), c.id ∈ order₀ ↔ StartsWalk nodes c.id) :
    (w.leave drift n (orderedChildren nodes (some n.id))).Fits nodes drift (order ++ [n.id]) ∧
      (w.leave drift n (orderedChildren nodes (some n.id))).Keeps nodes order₀ (order ++ [n.id]) := by
  have hne : ∀ c ∈ orderedChildren nodes (some n.id), c.id ≠ n.id := fun c hc => hgrounded.child_ne hc
  have hseq : ∀ c ∈ orderedChildren nodes (some n.id),
      (Function.update w.sequenceById n.id (some (w.counter + 1)) c.id).isSome := by
    intro c hc
    rw [Function.update_of_ne (hne c hc), h.sequence, if_pos (hchildren c hc)]
    rfl
  obtain ⟨hstatuses, hframe⟩ := foldl_gather _ w.statsById ⟨[], drift n.id, w.descendantStatuses⟩ hseq
    (orderedChildren_ids (some n.id))
  have hdrift := foldl_gather_drift _ w.statsById ⟨[], drift n.id, w.descendantStatuses⟩ hseq
  have hfolds : Folds nodes n.id ((orderedChildren nodes (some n.id)).flatMap
      fun c => c.status :: (w.descendantStatuses c.id).getD []) := by
    have hkept : ∀ c ∈ orderedChildren nodes (some n.id), (c.id ∈ order₀ → w.descendantStatuses c.id = none) ∧
        (c.id ∉ order₀ → ∃ ss, w.descendantStatuses c.id = some ss ∧ Folds nodes c.id ss) := by
      intro c hc
      obtain ⟨hmem, hp⟩ := mem_orderedChildren.mp hc
      refine hkeeps c hmem (hchildren c hc) fun p hp' => ?_
      rw [hp, Option.some.injEq] at hp'
      exact hp' ▸ hnew
    refine .node (fun x => (w.descendantStatuses x).getD []) (fun c hc hs => ?_) fun c hc hs => ?_
    · rw [(hkept c hc).1 ((hstarts c hc).mpr hs)]
      rfl
    · obtain ⟨ss, hss, hbelow⟩ := (hkept c hc).2 fun hin => hs ((hstarts c hc).mp hin)
      rw [hss]
      exact hbelow
  rw [List.nil_append] at hstatuses
  have hsubtree : drift n.id + ((orderedChildren nodes (some n.id)).map fun c =>
      ((w.statsById c.id).map (·.driftedTasks)).getD 0).sum = subtreeDrift nodes drift n.id := by
    rw [subtreeDrift_children hgrounded]
    refine congrArg (fun l => drift n.id + List.sum l) (List.map_congr_left fun c hc => ?_)
    obtain ⟨ss, -, hstats⟩ := h.stats c (mem_orderedChildren.mp hc).1 (hchildren c hc)
    rw [hstats]
    rfl
  have hkept' : ∀ id, (w.leave drift n (orderedChildren nodes (some n.id))).descendantStatuses id =
      Function.update ((orderedChildren nodes (some n.id)).foldl
        (gather (Function.update w.sequenceById n.id (some (w.counter + 1))) w.statsById)
        ⟨[], drift n.id, w.descendantStatuses⟩).descendantStatuses n.id
        (some ((orderedChildren nodes (some n.id)).foldl
          (gather (Function.update w.sequenceById n.id (some (w.counter + 1))) w.statsById)
          ⟨[], drift n.id, w.descendantStatuses⟩).statuses) id := fun _ => rfl
  refine ⟨⟨?_, fun id => ?_, ?_, ?_, ?_, ?_⟩, ?_⟩
  · rw [List.length_append, ← h.counter]
    rfl
  · change Function.update w.sequenceById n.id (some (w.counter + 1)) id = _
    rcases Classical.em (id = n.id) with rfl | hid
    · rw [Function.update_self, if_pos (List.mem_append_right _ List.mem_cons_self), List.idxOf_append_of_notMem hnew,
        List.idxOf_cons_self, Nat.add_zero, h.counter]
    · rw [Function.update_of_ne hid, h.sequence]
      rcases Classical.em (id ∈ order) with hin | hout
      · rw [if_pos hin, if_pos (List.mem_append_left _ hin), List.idxOf_append_of_mem hin]
      · rw [if_neg hout, if_neg (by simp [hout, hid])]
  · refine List.pairwise_append.mpr ⟨h.turns, List.pairwise_singleton _ _, fun a ha b hb => ?_⟩
    rw [List.mem_singleton] at hb
    subst hb
    refine ⟨fun heq => hnew (heq ▸ ha), fun habove => hnew (h.below ha (.inr habove)), fun ⟨hp, hlt⟩ => ?_⟩
    exact hlater a ha hp hlt
  · intro id hid
    rcases List.mem_append.mp hid with hid | hid
    · exact h.known id hid
    · rw [List.mem_singleton.mp hid]
      exact Table.mem_keys_of_mem hn
  · intro p hp c hc
    rcases List.mem_append.mp hp with hp | hp
    · exact List.mem_append_left _ (h.closed p hp c hc)
    · rw [List.mem_singleton] at hp
      subst hp
      exact List.mem_append_left _ (hchildren c hc)
  · intro m hm hin
    change ∃ ss, Folds nodes m.id ss ∧ Function.update w.statsById n.id _ m.id = _
    rcases Classical.em (m.id = n.id) with heq | hid
    · obtain rfl := Table.key_injective hm hn heq
      refine ⟨_, hfolds, ?_⟩
      rw [Function.update_self, hstatuses, hdrift, hsubtree]
    · rw [Function.update_of_ne hid]
      exact h.stats m hm ((List.mem_append.mp hin).resolve_right fun hs => hid (List.mem_singleton.mp hs))
  · intro c hc hin hopen
    rw [hkept']
    rcases Classical.em (c.id = n.id) with heq | hid
    · obtain rfl := Table.key_injective hc hn heq
      rw [Function.update_self]
      exact ⟨fun hin₀ => absurd hin₀ hold, fun _ => ⟨_, rfl, hstatuses ▸ hfolds⟩⟩
    · have hmem : c.id ∈ order := (List.mem_append.mp hin).resolve_right fun hs => hid (List.mem_singleton.mp hs)
      have hout : ∀ p, c.parentId = some p → p ∉ order ∧ p ≠ n.id := fun p hp => by
        have := hopen p hp
        rw [List.mem_append, not_or, List.mem_singleton] at this
        exact this
      rw [Function.update_of_ne hid, hframe c.id fun c' hc' heq => ?_]
      · exact hkeeps c hc hmem fun p hp => (hout p hp).1
      · obtain rfl := Table.key_injective (mem_orderedChildren.mp hc').1 hc heq
        exact (hout n.id (mem_orderedChildren.mp hc').2).2 rfl

/-! ## One walk -/

/-- What a walk from `root` finds numbered. -/
structure Begins (nodes : PlanNodes) (order₀ : List Uuid) (root : Uuid) : Prop where
  siblings : ∀ a b, parentFrom nodes a = parentFrom nodes b → Precedes nodes a b → b ∈ order₀ → a ∈ order₀
  starts : ∀ p, Under nodes p root → p ∉ order₀ → ∀ c ∈ orderedChildren nodes (some p),
    c.id ∈ order₀ ↔ StartsWalk nodes c.id

/-- The frames of the ids in `opens` are on the stack; everything else that is visited is numbered. -/
structure Walk.At (nodes : PlanNodes) (drift : Uuid → Nat) (order₀ order : List Uuid) (opens : Uuid → Prop)
    (w : Walk) : Prop where
  fits : w.Fits nodes drift order
  keeps : w.Keeps nodes order₀ order
  visited : ∀ id, id ∈ w.visited ↔ id ∈ order ∨ opens id
  old : ∀ id ∈ order₀, id ∈ order

def Numbers (nodes : PlanNodes) (tops : Uuid → Prop) (order order' : List Uuid) : Prop :=
  ∀ id, id ∈ order' ↔ id ∈ order ∨ id ∈ nodes.keys ∧ ∃ top, tops top ∧ Under nodes id top

/-- The visit of a node numbers its subtree. -/
def VisitsSubtree (nodes : PlanNodes) (drift : Uuid → Nat) (order₀ : List Uuid) (root : Uuid) (fuel : Nat) : Prop :=
  ∀ n ∈ nodes.rows, Under nodes n.id root → ∀ (w : Walk) (order : List Uuid) (opens : Uuid → Prop),
    w.At nodes drift order₀ order opens → n.id ∉ order → opens n.id → (∀ a, opens a → Under nodes n.id a) →
    (∀ x ∈ order, Under nodes x n.id → x ∈ order₀) →
    (∀ b ∈ order, parentFrom nodes b = parentFrom nodes n.id → ¬ Precedes nodes n.id b) →
    nodes.keys.countP (· ∉ w.visited) < fuel →
    ∃ order', (visit (fun id => orderedChildren nodes (some id)) drift fuel n w).At nodes drift order₀ order' opens ∧
      Numbers nodes (· = n.id) order order'

theorem not_precedes {p : Option Uuid} {done ks : List PlanNodeRow} (hks : orderedChildren nodes p = done ++ ks)
    (hd : d ∈ done) (hc : c ∈ ks) : ¬ Precedes nodes c.id d.id := by
  have hrows : [d, c].Sublist nodes.rows := by
    refine .trans ?_ (List.filter_sublist (p := fun r : PlanNodeRow => r.parentId = p))
    change [d, c].Sublist (orderedChildren nodes p)
    rw [hks]
    exact (List.singleton_sublist.mpr hd).append (List.singleton_sublist.mpr hc)
  have hkeys : ([d, c].map (·.id)).Sublist nodes.keys := hrows.map _
  exact Nat.not_lt_of_le (idxOf_le_of_sublist hkeys nodes.nodup)

theorem visit_next (hgrounded : Grounded nodes) {root : Uuid} (hbegins : Begins nodes order₀ root) {fuel : Nat}
    (ih : VisitsSubtree nodes drift order₀ root fuel) (hn : Under nodes n.id root)
    {opens : Uuid → Prop} (habove : ∀ a, opens a → Under nodes n.id a) {done ks : List PlanNodeRow}
    (hks : orderedChildren nodes (some n.id) = done ++ ks) (hat : w.At nodes drift order₀ order opens)
    (hfresh : ∀ c ∈ ks, ∀ x ∈ order, Under nodes x c.id → x ∈ order₀)
    (hfuel : nodes.keys.countP (· ∉ w.visited) ≤ fuel) :
    ∃ order', (ks.foldl (fun w child => if w.visited.contains child.id then w else
        visit (fun id => orderedChildren nodes (some id)) drift fuel child (w.enter child.id)) w).At
          nodes drift order₀ order' opens ∧
      Numbers nodes (fun top => ∃ c ∈ ks, c.id = top) order order' := by
  induction ks generalizing w order done with
  | nil => exact ⟨order, hat, fun id => by simp⟩
  | cons c ks ihks =>
    have hc : c ∈ orderedChildren nodes (some n.id) := hks ▸ List.mem_append_right _ List.mem_cons_self
    obtain ⟨hmem, hparent⟩ := mem_orderedChildren.mp hc
    have hkey : c.id ∈ nodes.keys := Table.mem_keys_of_mem hmem
    have hstep : parentFrom nodes c.id = some n.id := (parentFrom_of_mem hmem).trans hparent
    have htail : orderedChildren nodes (some n.id) = (done ++ [c]) ++ ks := by rw [hks, List.append_assoc]; rfl
    have hclosed : ¬ opens c.id := fun hopen => (hgrounded c hmem).not_above_self (above_of_child hc (habove _ hopen))
    -- What the rest of the children number beside what the first has.
    have hsplit : ∀ {order₁ order₂}, Numbers nodes (· = c.id) order order₁ →
        Numbers nodes (fun top => ∃ c' ∈ ks, c'.id = top) order₁ order₂ →
        Numbers nodes (fun top => ∃ c' ∈ c :: ks, c'.id = top) order order₂ := by
      intro order₁ order₂ h₁ h₂ id
      rw [h₂, h₁]
      constructor
      · rintro ((h | ⟨hk, top, rfl, hunder⟩) | ⟨hk, top, ⟨c', hc', rfl⟩, hunder⟩)
        · exact .inl h
        · exact .inr ⟨hk, c.id, ⟨c, List.mem_cons_self, rfl⟩, hunder⟩
        · exact .inr ⟨hk, c'.id, ⟨c', List.mem_cons_of_mem _ hc', rfl⟩, hunder⟩
      · rintro (h | ⟨hk, top, ⟨c', hc', rfl⟩, hunder⟩)
        · exact .inl (.inl h)
        · rcases List.mem_cons.mp hc' with rfl | hc'
          · exact .inl (.inr ⟨hk, c'.id, rfl, hunder⟩)
          · exact .inr ⟨hk, c'.id, ⟨c', hc', rfl⟩, hunder⟩
    rw [List.foldl_cons]
    rcases Classical.em (c.id ∈ order) with hin | hout
    · rw [if_pos (List.contains_iff_mem.mpr ((hat.visited c.id).mpr (.inl hin)))]
      obtain ⟨order', hat', hnumbers⟩ := ihks htail hat (fun c' hc' => hfresh c' (List.mem_cons_of_mem _ hc')) hfuel
      refine ⟨order', hat', hsplit (fun id => ⟨.inl, ?_⟩) hnumbers⟩
      rintro (h | ⟨-, top, rfl, hunder⟩)
      · exact h
      · exact hat.fits.below hin hunder
    · have hunvisited : c.id ∉ w.visited := fun hv => ((hat.visited c.id).mp hv).elim hout hclosed
      rw [if_neg fun hv => hunvisited (List.contains_iff_mem.mp hv)]
      have hentered : (w.enter c.id).At nodes drift order₀ order (fun a => a = c.id ∨ opens a) := by
        refine ⟨⟨hat.fits.counter, hat.fits.sequence, hat.fits.turns, hat.fits.known, hat.fits.closed,
          hat.fits.stats⟩, hat.keeps, fun id => ?_, hat.old⟩
        change id ∈ c.id :: w.visited ↔ _
        rw [List.mem_cons, hat.visited]
        tauto
      -- A later sibling with a number has it from an earlier walk, and then so would `c`.
      have hlater : ∀ b ∈ order, parentFrom nodes b = parentFrom nodes c.id → ¬ Precedes nodes c.id b := by
        intro b hb hp hlt
        obtain ⟨r, hr, rfl⟩ := Table.mem_keys.mp (hat.fits.known b hb)
        have hchild : r ∈ orderedChildren nodes (some n.id) :=
          mem_orderedChildren.mpr ⟨hr, (parentFrom_of_mem hr).symm.trans (hp.trans hstep)⟩
        have hnext : r ∈ ks := by
          rw [hks] at hchild
          rcases List.mem_append.mp hchild with hdone | hrest
          · exact absurd hlt (not_precedes hks hdone List.mem_cons_self)
          · exact (List.mem_cons.mp hrest).resolve_left fun heq => Nat.lt_irrefl _ (heq ▸ hlt)
        have hold := hfresh r (List.mem_cons_of_mem _ hnext) r.id hb (.inl rfl)
        exact hout (hat.old _ (hbegins.siblings c.id r.id hp.symm hlt hold))
      obtain ⟨order₁, hat₁, hnumbers₁⟩ := ih c hmem (.inr (above_of_child hc hn)) (w.enter c.id) order
        (fun a => a = c.id ∨ opens a) hentered hout (.inl rfl)
        (fun a ha => ha.elim (fun heq => .inl heq.symm) fun ha => .inr (above_of_child hc (habove a ha)))
        (hfresh c List.mem_cons_self) hlater ((countP_not_mem_cons_lt hkey hunvisited).trans_le hfuel)
      generalize visit (fun id => orderedChildren nodes (some id)) drift fuel c (w.enter c.id) = w₁ at hat₁
      have hleft : w₁.At nodes drift order₀ order₁ opens := by
        refine ⟨hat₁.fits, hat₁.keeps, fun id => ?_, hat₁.old⟩
        rw [hat₁.visited]
        constructor
        · rintro (h | rfl | h)
          · exact .inl h
          · exact .inl ((hnumbers₁ c.id).mpr (.inr ⟨hkey, c.id, rfl, .inl rfl⟩))
          · exact .inr h
        · rintro (h | h)
          · exact .inl h
          · exact .inr (.inr h)
      have hids := @orderedChildren_ids nodes (some n.id)
      rw [hks, List.map_append, List.map_cons] at hids
      have hne : ∀ c' ∈ ks, c.id ≠ c'.id := fun c' hc' heq =>
        (List.nodup_cons.mp (List.nodup_append.mp hids).2.1).1 (heq ▸ List.mem_map_of_mem hc')
      obtain ⟨order₂, hat₂, hnumbers₂⟩ := ihks htail hleft (fun c' hc' x hx hunder => by
          rcases (hnumbers₁ x).mp hx with hx | ⟨-, top, rfl, hother⟩
          · exact hfresh c' (List.mem_cons_of_mem _ hc') x hx hunder
          · have hc'' : c' ∈ orderedChildren nodes (some n.id) := by
              rw [htail]
              exact List.mem_append_right _ hc'
            exact absurd hunder (hgrounded.apart hc hc'' (hne c' hc') hother))
        (le_trans (List.countP_mono_left fun x _ hx => by
          rw [decide_eq_true_eq] at hx ⊢
          refine fun hin => hx ((hleft.visited x).mpr ?_)
          exact ((hat.visited x).mp hin).imp_left fun h => (hnumbers₁ x).mpr (.inl h)) hfuel)
      exact ⟨order₂, hat₂, hsplit hnumbers₁ hnumbers₂⟩

theorem visits_subtree (hgrounded : Grounded nodes) {root : Uuid} (hbegins : Begins nodes order₀ root) (fuel : Nat) :
    VisitsSubtree nodes drift order₀ root fuel := by
  induction fuel with
  | zero =>
    intro n _ _ w order opens _ _ _ _ _ _ hfuel
    exact absurd hfuel (Nat.not_lt_zero _)
  | succ fuel ih =>
    intro n hn hroot w order opens hat hnew hopen habove hfresh hlater hfuel
    obtain ⟨order₁, hat₁, hnumbers⟩ := visit_next hgrounded hbegins ih hroot habove (List.nil_append _).symm hat
      (fun c hc x hx hunder => hfresh x hx (.inr (above_iff_child.mpr ⟨c, hc, hunder⟩)))
      (Nat.le_of_lt_succ hfuel)
    rw [visit]
    generalize (orderedChildren nodes (some n.id)).foldl (fun w child => if w.visited.contains child.id then w else
      visit (fun id => orderedChildren nodes (some id)) drift fuel child (w.enter child.id)) w = w₁ at hat₁
    have hself : n.id ∉ order₁ := by
      intro hin
      rcases (hnumbers n.id).mp hin with hin | ⟨-, top, ⟨c, hc, rfl⟩, hunder⟩
      · exact hnew hin
      · exact (hgrounded n hn).not_above_self (above_iff_child.mpr ⟨c, hc, hunder⟩)
    have hchildren : ∀ c ∈ orderedChildren nodes (some n.id), c.id ∈ order₁ := fun c hc =>
      (hnumbers c.id).mpr (.inr ⟨Table.mem_keys_of_mem (mem_orderedChildren.mp hc).1, c.id, ⟨c, hc, rfl⟩, .inl rfl⟩)
    have hsiblings : ∀ b ∈ order₁, parentFrom nodes b = parentFrom nodes n.id → ¬ Precedes nodes n.id b := by
      intro b hb hp
      rcases (hnumbers b).mp hb with hb | ⟨-, top, ⟨c, hc, rfl⟩, hunder⟩
      · exact hlater b hb hp
      · -- A node below `n` is no sibling of it.
        have hbelow : Above (parentFrom nodes) b n.id := above_iff_child.mpr ⟨c, hc, hunder⟩
        obtain ⟨y, hy, hrest⟩ := above_iff.mp hbelow
        rw [hp] at hy
        refine absurd ?_ (hgrounded n hn).not_above_self
        rcases hrest with rfl | hrest
        · exact above_head hy
        · exact hrest.cons hy
    have hold : n.id ∉ order₀ := fun hin => hnew (hat.old _ hin)
    obtain ⟨hfits, hkeeps⟩ := hat₁.fits.leave hgrounded hat₁.keeps hn hself hold hchildren hsiblings
      (hbegins.starts n.id hroot hold)
    refine ⟨order₁ ++ [n.id], ⟨hfits, hkeeps, fun id => ?_, fun id hid => List.mem_append_left _ (hat₁.old id hid)⟩,
      fun id => ?_⟩
    · rw [show (w₁.leave drift n (orderedChildren nodes (some n.id))).visited = w₁.visited from rfl, hat₁.visited,
        List.mem_append, List.mem_singleton]
      constructor
      · exact fun h => h.imp_left .inl
      · rintro ((h | rfl) | h)
        · exact .inl h
        · exact .inr hopen
        · exact .inr h
    · rw [List.mem_append, List.mem_singleton, hnumbers]
      constructor
      · rintro ((h | ⟨hk, top, ⟨c, hc, rfl⟩, hunder⟩) | rfl)
        · exact .inl h
        · exact .inr ⟨hk, n.id, rfl, .inr (above_iff_child.mpr ⟨c, hc, hunder⟩)⟩
        · exact .inr ⟨Table.mem_keys_of_mem hn, n.id, rfl, .inl rfl⟩
      · rintro (h | ⟨hk, top, rfl, hunder⟩)
        · exact .inl (.inl h)
        · rcases hunder with rfl | hunder
          · exact .inr rfl
          · obtain ⟨c, hc, hunder⟩ := above_iff_child.mp hunder
            exact .inl (.inr ⟨hk, c.id, ⟨c, hc, rfl⟩, hunder⟩)

/-! ## All walks -/

/-- Between two walks, what is at or below the nodes of `tops` is visited and numbered. -/
structure Walk.Rests (nodes : PlanNodes) (drift : Uuid → Nat) (tops : Uuid → Prop) (order : List Uuid) (w : Walk) :
    Prop where
  fits : w.Fits nodes drift order
  visited : ∀ id, id ∈ w.visited ↔ id ∈ order
  mem : ∀ id, id ∈ order ↔ id ∈ nodes.keys ∧ ∃ top, tops top ∧ Under nodes id top

theorem walkFrom_rests (hgrounded : Grounded nodes) {tops : Uuid → Prop} (h : w.Rests nodes drift tops order)
    (hn : n ∈ nodes.rows) (hnew : n.id ∉ order) (hbegins : Begins nodes order n.id) :
    ∃ order', (walkFrom nodes drift w n).Rests nodes drift (fun top => tops top ∨ top = n.id) order' := by
  have hentered : ({ w.enter n.id with descendantStatuses := fun _ => none } : Walk).At nodes drift order order
      (· = n.id) := by
    refine ⟨⟨h.fits.counter, h.fits.sequence, h.fits.turns, h.fits.known, h.fits.closed, h.fits.stats⟩,
      fun c _ hin _ => ⟨fun _ => rfl, fun hout => absurd hin hout⟩, fun id => ?_, fun _ hid => hid⟩
    change id ∈ n.id :: w.visited ↔ _
    rw [List.mem_cons, h.visited, or_comm]
  have hunvisited : n.id ∉ w.visited := fun hv => hnew ((h.visited _).mp hv)
  have hkey : n.id ∈ nodes.keys := Table.mem_keys_of_mem hn
  obtain ⟨order', hat, hnumbers⟩ := visits_subtree hgrounded hbegins nodes.rows.length n hn (.inl rfl) _ order
    (· = n.id) hentered hnew rfl (fun a ha => .inl ha.symm) (fun _ hx _ => hx)
    (fun b hb hp hlt => hnew (hbegins.siblings n.id b hp.symm hlt hb)) (by
      refine (countP_not_mem_cons_lt hkey hunvisited).trans_le (List.countP_le_length.trans ?_)
      rw [Table.keys, List.length_map])
  refine ⟨order', hat.fits, fun id => ?_, fun id => ?_⟩
  · refine (hat.visited id).trans ⟨fun hid => hid.elim (fun h => h) fun heq => ?_, .inl⟩
    exact (hnumbers id).mpr (.inr ⟨heq ▸ hkey, n.id, rfl, .inl heq⟩)
  · rw [hnumbers, h.mem]
    constructor
    · rintro (⟨hk, top, htop, hunder⟩ | ⟨hk, top, rfl, hunder⟩)
      · exact ⟨hk, top, .inl htop, hunder⟩
      · exact ⟨hk, n.id, .inr rfl, hunder⟩
    · rintro ⟨hk, top, htop | rfl, hunder⟩
      · exact .inl ⟨hk, top, htop, hunder⟩
      · exact .inr ⟨hk, n.id, rfl, hunder⟩

theorem sibling_above (hp : parentFrom nodes a = parentFrom nodes b) (h : Above (parentFrom nodes) b x) :
    Above (parentFrom nodes) a x := by
  obtain ⟨y, hy, hrest⟩ := above_iff.mp h
  exact above_iff.mpr ⟨y, hp.trans hy, hrest⟩

/-- A child of `p` that is at or below `x` is `x`, or `p` is at or below it. -/
theorem under_parent (hc : c ∈ orderedChildren nodes (some id)) (h : Under nodes c.id x) :
    c.id = x ∨ Under nodes id x := by
  refine h.imp_right fun habove => ?_
  obtain ⟨hmem, hp⟩ := mem_orderedChildren.mp hc
  obtain ⟨y, hy, hrest⟩ := above_iff.mp habove
  rw [(parentFrom_of_mem hmem).trans hp, Option.some.injEq] at hy
  exact hy ▸ hrest

theorem precedes_mem (h : Precedes nodes a b) : a ∈ nodes.keys :=
  List.idxOf_lt_length_iff.mp (h.trans_le List.idxOf_le_length)

theorem walk_roots (hgrounded : Grounded nodes) {done ks : List PlanNodeRow}
    (hks : orderedChildren nodes none = done ++ ks)
    (h : w.Rests nodes drift (fun top => ∃ r ∈ done, r.id = top) order) :
    ∃ order', (ks.foldl (walkFrom nodes drift) w).Rests nodes drift
      (fun top => ∃ r ∈ orderedChildren nodes none, r.id = top) order' := by
  induction ks generalizing done w order with
  | nil =>
    rw [List.append_nil] at hks
    exact ⟨order, hks ▸ h⟩
  | cons n ks ih =>
    have hn : n ∈ orderedChildren nodes none := hks ▸ List.mem_append_right _ List.mem_cons_self
    obtain ⟨hmem, hroot⟩ := mem_orderedChildren.mp hn
    have htail : orderedChildren nodes none = (done ++ [n]) ++ ks := by rw [hks, List.append_assoc]; rfl
    have hdone : ∀ r ∈ done, r ∈ orderedChildren nodes none := fun r hr => hks ▸ List.mem_append_left _ hr
    have hne : ∀ r ∈ done, r.id ≠ n.id := by
      have hids := @orderedChildren_ids nodes none
      rw [hks, List.map_append] at hids
      exact fun r hr heq => (List.nodup_append.mp hids).2.2 r.id (List.mem_map_of_mem hr) n.id
        (List.mem_map_of_mem List.mem_cons_self) heq
    have hnew : n.id ∉ order := by
      intro hin
      obtain ⟨-, top, ⟨r, hr, rfl⟩, hunder⟩ := (h.mem n.id).mp hin
      exact hgrounded.apart hn (hdone r hr) (hne r hr).symm (.inl rfl) hunder
    have hbegins : Begins nodes order n.id := by
      refine ⟨fun a b hp hlt hb => ?_, fun p hp hout c hc => ?_⟩
      · obtain ⟨-, top, ⟨r, hr, rfl⟩, hunder⟩ := (h.mem b).mp hb
        refine (h.mem a).mpr ⟨precedes_mem hlt, ?_⟩
        rcases hunder with rfl | habove
        · obtain ⟨s, hs, rfl⟩ := Table.mem_keys.mp (precedes_mem hlt)
          obtain ⟨hrow, hrp⟩ := mem_orderedChildren.mp (hdone r hr)
          have hs' : s ∈ orderedChildren nodes none :=
            mem_orderedChildren.mpr ⟨hs, (parentFrom_of_mem hs).symm.trans (hp.trans ((parentFrom_of_mem hrow).trans hrp))⟩
          rw [hks] at hs'
          rcases List.mem_append.mp hs' with hs' | hs'
          · exact ⟨s.id, ⟨s, hs', rfl⟩, .inl rfl⟩
          · exact absurd hlt (not_precedes hks hr hs')
        · exact ⟨r.id, ⟨r, hr, rfl⟩, .inr (sibling_above hp habove)⟩
      · refine iff_of_false (fun hin => ?_) fun hstart => ?_
        · obtain ⟨-, top, ⟨r, hr, rfl⟩, hunder⟩ := (h.mem c.id).mp hin
          rcases under_parent hc hunder with heq | hunder
          · obtain rfl := Table.key_injective (mem_orderedChildren.mp hc).1 (mem_orderedChildren.mp (hdone r hr)).1 heq
            have hnone := (mem_orderedChildren.mp hc).2.symm.trans (mem_orderedChildren.mp (hdone c hr)).2
            cases hnone
          · exact hgrounded.apart hn (hdone r hr) (hne r hr).symm hp hunder
        · exact hstart.1 n hmem hroot (.inr (above_of_child hc hp))
    obtain ⟨order', hnext⟩ := walkFrom_rests hgrounded h hmem hnew hbegins
    refine ih htail ⟨hnext.fits, hnext.visited, fun id => (hnext.mem id).trans (and_congr_right fun _ => ?_)⟩
    refine exists_congr fun top => and_congr_left fun _ => ?_
    simp [or_and_right, exists_or, eq_comm]

theorem precedes_iff {done ks : List PlanNodeRow} (hks : nodes.rows = done ++ n :: ks) :
    Precedes nodes a n.id ↔ a ∈ done.map (·.id) := by
  have hkeys : nodes.keys = done.map (·.id) ++ n.id :: ks.map (·.id) := by
    rw [Table.keys, hks, List.map_append, List.map_cons]
  have hout : n.id ∉ done.map (·.id) := by
    have hnodup : nodes.keys.Nodup := nodes.nodup
    rw [hkeys] at hnodup
    exact fun hin => (List.nodup_append.mp hnodup).2.2 _ hin _ List.mem_cons_self rfl
  rw [Precedes, hkeys]
  exact idxOf_lt_iff hout

/-- What stands before a row of the first part is in the first part. -/
theorem precedes_done {done ks : List PlanNodeRow} (hks : nodes.rows = done ++ ks) (hd : d ∈ done)
    (hlt : Precedes nodes a d.id) : a ∈ done.map (·.id) := by
  obtain ⟨before, after, rfl⟩ := List.append_of_mem hd
  rw [List.append_assoc, List.cons_append] at hks
  have hin := (precedes_iff hks).mp hlt
  rw [List.map_append]
  exact List.mem_append_left _ hin

/-- The walks of the second loop. -/
theorem walk_rest (hgrounded : Grounded nodes) {done ks : List PlanNodeRow} (hks : nodes.rows = done ++ ks)
    (h : w.Rests nodes drift
      (fun top => (∃ r ∈ orderedChildren nodes none, r.id = top) ∨ ∃ r ∈ done, r.id = top) order) :
    ∃ order', (ks.foldl (fun w node => if w.visited.contains node.id then w else walkFrom nodes drift w node) w).Rests
      nodes drift (fun top => (∃ r ∈ orderedChildren nodes none, r.id = top) ∨ ∃ r ∈ nodes.rows, r.id = top) order' := by
  induction ks generalizing done w order with
  | nil =>
    rw [List.append_nil] at hks
    exact ⟨order, hks ▸ h⟩
  | cons n ks ih =>
    have hn : n ∈ nodes.rows := hks ▸ List.mem_append_right _ List.mem_cons_self
    have htail : nodes.rows = (done ++ [n]) ++ ks := by rw [hks, List.append_assoc]; rfl
    have hdone : ∀ r ∈ done, r ∈ nodes.rows := fun r hr => hks ▸ List.mem_append_left _ hr
    rw [List.foldl_cons]
    rcases Classical.em (n.id ∈ order) with hin | hnew
    · rw [if_pos (List.contains_iff_mem.mpr ((h.visited _).mpr hin))]
      refine ih htail ⟨h.fits, h.visited, fun id => ⟨fun hid => ?_, fun ⟨hk, top, htop, hunder⟩ => ?_⟩⟩
      · obtain ⟨hk, top, htop, hunder⟩ := (h.mem id).mp hid
        exact ⟨hk, top, htop.imp_right fun ⟨r, hr, heq⟩ => ⟨r, List.mem_append_left _ hr, heq⟩, hunder⟩
      · rcases htop with hroot | ⟨r, hr, rfl⟩
        · exact (h.mem id).mpr ⟨hk, top, .inl hroot, hunder⟩
        · rcases List.mem_append.mp hr with hr | hr
          · exact (h.mem id).mpr ⟨hk, r.id, .inr ⟨r, hr, rfl⟩, hunder⟩
          · rw [List.mem_singleton.mp hr] at hunder
            exact h.fits.below hin hunder
    · rw [if_neg fun hv => hnew ((h.visited _).mp (List.contains_iff_mem.mp hv))]
      have hbegins : Begins nodes order n.id := by
        refine ⟨fun a b hp hlt hb => ?_, fun p hp hout c hc => ⟨fun hin => ?_, fun hstart => ?_⟩⟩
        · obtain ⟨-, top, htop, hunder⟩ := (h.mem b).mp hb
          refine (h.mem a).mpr ⟨precedes_mem hlt, ?_⟩
          rcases hunder with rfl | habove
          · obtain ⟨s, hs, rfl⟩ := Table.mem_keys.mp (precedes_mem hlt)
            rcases htop with ⟨r, hr, rfl⟩ | ⟨r, hr, rfl⟩
            · obtain ⟨hrow, hrp⟩ := mem_orderedChildren.mp hr
              have hs' : s ∈ orderedChildren nodes none := mem_orderedChildren.mpr
                ⟨hs, (parentFrom_of_mem hs).symm.trans (hp.trans ((parentFrom_of_mem hrow).trans hrp))⟩
              exact ⟨s.id, .inl ⟨s, hs', rfl⟩, .inl rfl⟩
            · obtain ⟨s', hs', heq⟩ := List.mem_map.mp (precedes_done hks hr hlt)
              exact ⟨s.id, .inr ⟨s', hs', heq⟩, .inl rfl⟩
          · exact ⟨top, htop, .inr (sibling_above hp habove)⟩
        · obtain ⟨hcrow, hcp⟩ := mem_orderedChildren.mp hc
          have hpk : p ∈ nodes.keys := by
            rcases hp with rfl | hp
            · exact Table.mem_keys_of_mem hn
            · obtain ⟨y, hy, -⟩ := above_iff.mp hp
              exact parent_mem_keys hy
          -- What `p` is at or below is no root and not in the first part: `p` has no number yet.
          have hroot : ∀ r ∈ orderedChildren nodes none, ¬ Under nodes c.id r.id := by
            intro r hr hunder
            rcases under_parent hc hunder with heq | hunder
            · obtain rfl := Table.key_injective hcrow (mem_orderedChildren.mp hr).1 heq
              have hnone := hcp.symm.trans (mem_orderedChildren.mp hr).2
              cases hnone
            · exact hout ((h.mem p).mpr ⟨hpk, r.id, .inl ⟨r, hr, rfl⟩, hunder⟩)
          have habove : ∀ r ∈ done, Under nodes c.id r.id → c = r := by
            intro r hr hunder
            rcases under_parent hc hunder with heq | hunder
            · exact Table.key_injective hcrow (hdone r hr) heq
            · exact absurd ((h.mem p).mpr ⟨hpk, r.id, .inr ⟨r, hr, rfl⟩, hunder⟩) hout
          refine ⟨fun r hr hrp hunder => hroot r (mem_orderedChildren.mpr ⟨hr, hrp⟩) hunder, fun a ha hup => ?_⟩
          have hcdone : c ∈ done := by
            obtain ⟨-, top, ⟨r, hr, rfl⟩ | ⟨r, hr, rfl⟩, hunder⟩ := (h.mem c.id).mp hin
            · exact absurd hunder (hroot r hr)
            · exact (habove r hr hunder) ▸ hr
          rcases Nat.lt_trichotomy (nodes.keys.idxOf c.id) (nodes.keys.idxOf a.id) with hlt | heq | hgt
          · exact hlt
          · have hsame := (List.idxOf_inj (Table.mem_keys_of_mem hcrow)).mp heq
            exact absurd (hsame ▸ hup) (hgrounded c hcrow).not_above_self
          · obtain ⟨r, hr, hra⟩ := List.mem_map.mp (precedes_done hks hcdone hgt)
            obtain rfl := Table.key_injective (hdone r hr) ha hra
            obtain rfl := habove r hr (.inr hup)
            exact absurd hup (hgrounded c hcrow).not_above_self
        · have hlt := hstart.2 n hn (above_of_child hc hp)
          obtain ⟨r, hr, hrc⟩ := List.mem_map.mp ((precedes_iff hks).mp hlt)
          exact (h.mem c.id).mpr ⟨Table.mem_keys_of_mem (mem_orderedChildren.mp hc).1, r.id, .inr ⟨r, hr, rfl⟩,
            .inl hrc.symm⟩
      obtain ⟨order', hnext⟩ := walkFrom_rests hgrounded h hn hnew hbegins
      refine ih htail ⟨hnext.fits, hnext.visited, fun id => (hnext.mem id).trans (and_congr_right fun _ => ?_)⟩
      refine exists_congr fun top => and_congr_left fun _ => ?_
      simp [or_and_right, exists_or, eq_comm, or_assoc]

theorem rests_nil (nodes : PlanNodes) (drift : Uuid → Nat) :
    Walk.Rests nodes drift (fun top => ∃ r ∈ ([] : List PlanNodeRow), r.id = top) []
      ⟨0, [], fun _ => none, fun _ => none, fun _ => none⟩ := by
  refine ⟨⟨rfl, fun id => (if_neg List.not_mem_nil).symm, .nil, ?_, ?_, ?_⟩, fun id => .rfl, fun id => ?_⟩
  · exact fun id hid => absurd hid List.not_mem_nil
  · exact fun p hp => absurd hp List.not_mem_nil
  · exact fun n _ hin => absurd hin List.not_mem_nil
  · refine iff_of_false List.not_mem_nil ?_
    rintro ⟨-, top, ⟨r, hr, -⟩, -⟩
    exact List.not_mem_nil hr

/-- Every node has its number at the end. -/
theorem walkAll_fits (hgrounded : Grounded nodes) (drift : Uuid → Nat) :
    ∃ order, (walkAll nodes drift).Fits nodes drift order ∧ ∀ id, id ∈ order ↔ id ∈ nodes.keys := by
  obtain ⟨order₁, hroots⟩ := walk_roots hgrounded (List.nil_append _).symm (rests_nil nodes drift)
  have hstart : Walk.Rests nodes drift (fun top => (∃ r ∈ orderedChildren nodes none, r.id = top) ∨
      ∃ r ∈ ([] : List PlanNodeRow), r.id = top) order₁ ((orderedChildren nodes none).foldl (walkFrom nodes drift)
        ⟨0, [], fun _ => none, fun _ => none, fun _ => none⟩) :=
    ⟨hroots.fits, hroots.visited, fun id => (hroots.mem id).trans (and_congr_right fun _ => by simp)⟩
  obtain ⟨order₂, hall⟩ := walk_rest hgrounded (List.nil_append _).symm hstart
  refine ⟨order₂, hall.fits, fun id => ⟨hall.fits.known id, fun hid => ?_⟩⟩
  obtain ⟨r, hr, rfl⟩ := Table.mem_keys.mp hid
  exact (hall.mem r.id).mpr ⟨hid, r.id, .inr ⟨r, hr, rfl⟩, .inl rfl⟩

/-- Every node of a plan is numbered and rolled up against the nodes below it. -/
theorem walkAll_rolls (drift : Uuid → Nat) (hforest : PlanForest nodes) (hd : d ∈ nodes.rows) :
    Rolls nodes (walkAll nodes drift) d := by
  have hgrounded : Grounded nodes := fun r hr => hforest.rooted hr
  obtain ⟨order, hfits, hmem⟩ := walkAll_fits hgrounded drift
  have hkey : d.id ∈ nodes.keys := Table.mem_keys_of_mem hd
  have hin : d.id ∈ order := (hmem d.id).mpr hkey
  obtain ⟨statuses, hfolds, hstats⟩ := hfits.stats d hd hin
  have hperm := hfolds.perm hgrounded hkey fun p _ c hc hstart => by
    obtain ⟨r, hr, hunder⟩ := exists_root hforest (mem_orderedChildren.mp hc).1
    obtain ⟨hrow, hroot⟩ := mem_orderedChildren.mp hr
    exact absurd hunder (hstart.1 r hrow hroot)
  refine ⟨?_, _, statuses, hstats, rfl, rfl, fun s => ?_⟩
  · rw [hfits.sequence, if_pos hin]
    rfl
  · rw [hperm.mem_iff, List.mem_map]
    exact exists_congr fun d' => by rw [mem_descendants hgrounded, and_assoc]

end Haive

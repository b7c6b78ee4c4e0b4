import Haive.Plan.Numbering
import Haive.Plan.Tree

/-!
# What can be started now

`shared/src/plan/ready.ts`: `computePlanReady` offers the `todo` units of work that
neither wait themselves nor have an ancestor that waits.

`readyIds_ne_nil_iff` says when it offers something. A node waits where its target is not
rolled up as settled, and a container's roll-up counts the containers below it with
their own stored status; so everything below a container that waits for its own child,
and everything that waits for a container of containers, is held for good, although the
write guard takes such dependencies for satisfiable and no cycle is reported
(`accepted_plan_deadlocks`).
-/

namespace Haive

open Lib

/-! ## The list -/

/-- `ancestorIds`: `path.split('/').filter(Boolean)` without the last. -/
def ancestorIds (path : String) : List String :=
  (((path.toList.splitOnP (· == '/')).filter (· ≠ [])).map String.ofList).dropLast

def PlanSequenceResult.isBlocked (derived : PlanSequenceResult) (id : String) : Bool :=
  if h : isUuidText id.toList = true then (derived.blockedById ⟨id, h⟩).isSome else false

/-- The leaf test counts for what is a unit of work by its kind. -/
def unitByKind (node : PlanNodeRow) : Bool :=
  node.kind = .research || node.kind = .external || (node.kind = .decision && !node.taskable)

/-- The tests of the loop. -/
def isReady (derived : PlanSequenceResult) (openTaskNodeIds : List Uuid) (node : PlanNodeRow) : Bool :=
  node.status = .todo && !derived.isBlocked node.id.text && !openTaskNodeIds.contains node.id &&
    !(ancestorIds node.path).any derived.isBlocked &&
    if unitByKind node then ((derived.statsById node.id).map (·.directChildren)).getD 0 = 0
    else node.taskable

structure PlanReadyResult where
  readyIds : List Uuid
  nextId : Option Uuid
deriving DecidableEq

def maxSafeInteger : Nat := 9007199254740991

/-- The build order, in which an unnumbered node comes last. -/
def buildOrder (derived : PlanSequenceResult) (id : Uuid) : Nat :=
  match derived.sequenceById id with
  | some (n + 1) => n + 1
  | _ => maxSafeInteger

def computePlanReady (nodes : PlanNodes) (derived : PlanSequenceResult) (openTaskNodeIds : List Uuid) :
    PlanReadyResult :=
  let ready := (nodes.rows.filter (isReady derived openTaskNodeIds)).mergeSort fun a b =>
    buildOrder derived a.id ≤ buildOrder derived b.id
  ⟨ready.map (·.id), (ready.map (·.id)).head?⟩

/-! ## Paths -/

theorem pathOf_toList (ids : List Uuid) :
    (pathOf ids).toList = '/' :: ids.flatMap fun id => id.chars ++ ['/'] := by
  have hslash : ("/" : String).toList = ['/'] := by decide
  have key : ∀ (ids : List Uuid) (path : String),
      (ids.foldl (fun path id => path ++ id.text ++ "/") path).toList =
        path.toList ++ ids.flatMap fun id => id.chars ++ ['/'] := by
    intro ids
    induction ids with
    | nil => simp
    | cons id ids ih =>
      intro path
      rw [List.foldl_cons, ih, String.toList_append, String.toList_append, hslash, List.flatMap_cons,
        Uuid.chars, List.append_assoc, List.append_assoc, List.append_assoc]
  rw [pathOf, key, hslash]
  rfl

theorem Uuid.chars_ne_nil (id : Uuid) : id.chars ≠ [] := by
  have h := id.canonical
  rw [isUuidText, Bool.and_eq_true, decide_eq_true_eq] at h
  exact List.ne_nil_of_length_pos (by rw [Uuid.chars, h.1]; decide)

theorem segments_pathOf (ids : List Uuid) :
    ((pathOf ids).toList.splitOnP (· == '/')).filter (· ≠ []) = ids.map Uuid.chars := by
  have key : ∀ ids : List Uuid, (((ids.flatMap fun id => id.chars ++ ['/']).splitOnP (· == '/')).filter
      (· ≠ [])) = ids.map Uuid.chars := by
    intro ids
    induction ids with
    | nil => simp
    | cons id ids ih =>
      rw [List.flatMap_cons, List.append_assoc, List.singleton_append,
        List.splitOnP_append_cons_of_forall_mem, List.filter_cons_of_pos, ih, List.map_cons]
      · simpa using id.chars_ne_nil
      · intro c hc
        exact beq_false_of_ne (id.chars_plain c hc).1
      · exact beq_self_eq_true '/'
  have hnone : ∀ c ∈ ([] : List Char), (c == '/') = false := fun _ h => absurd h List.not_mem_nil
  have hfront := List.splitOnP_append_cons_of_forall_mem hnone '/' (beq_self_eq_true '/')
    (ids.flatMap fun id => id.chars ++ ['/'])
  rw [List.nil_append] at hfront
  rw [pathOf_toList, hfront, List.filter_cons_of_neg (by simp), key]

theorem ancestorIds_pathOf (ids : List Uuid) (id : Uuid) :
    ancestorIds (pathOf (ids ++ [id])) = ids.map (·.text) := by
  rw [ancestorIds, segments_pathOf, List.map_append, List.map_append, List.map_singleton,
    List.map_singleton, List.dropLast_concat, List.map_map]
  exact List.map_congr_left fun id _ => String.ofList_toList

theorem lineage_mem {nodes : PlanNodes} {id : Uuid} {ids : List Uuid} (h : Lineage nodes id ids) :
    ∃ above, ids = above ++ [id] ∧ ∀ a, a ∈ above ↔ Above (parentFrom nodes) id a := by
  induction h with
  | @root id r hr hp =>
    refine ⟨[], rfl, fun a => ⟨fun ha => absurd ha List.not_mem_nil, fun ha => ?_⟩⟩
    exact absurd ha (not_above_of_none (by rw [parentFrom, hr]; exact hp))
  | @child id p r ids hr hp _ ih =>
    obtain ⟨above, rfl, hmem⟩ := ih
    have hstep : parentFrom nodes id = some p := by rw [parentFrom, hr]; exact hp
    refine ⟨above ++ [p], rfl, fun a => ?_⟩
    rw [List.mem_append, List.mem_singleton, hmem]
    constructor
    · rintro (ha | rfl)
      · exact ha.cons hstep
      · exact above_head hstep
    · intro ha
      obtain ⟨y, hy, hrest⟩ := above_iff.mp ha
      rw [hstep] at hy
      cases hy
      exact hrest.elim (fun h => .inr h.symm) .inl

theorem isBlocked_text (derived : PlanSequenceResult) (id : Uuid) :
    derived.isBlocked id.text = (derived.blockedById id).isSome := by
  rw [PlanSequenceResult.isBlocked, dif_pos id.canonical]

theorem ancestorIds_any {nodes : PlanNodes} (hforest : PlanForest nodes) {n : PlanNodeRow}
    (hn : n ∈ nodes.rows) (derived : PlanSequenceResult) :
    (ancestorIds n.path).any derived.isBlocked = true ↔
      ∃ a, Above (parentFrom nodes) n.id a ∧ (derived.blockedById a).isSome := by
  obtain ⟨ids, hids, hpath⟩ := hforest.path n hn
  obtain ⟨above, rfl, hmem⟩ := lineage_mem hids
  rw [hpath, ancestorIds_pathOf, List.any_map, List.any_eq_true]
  constructor
  · rintro ⟨a, ha, hb⟩
    exact ⟨a, (hmem a).mp ha, (isBlocked_text derived a) ▸ hb⟩
  · rintro ⟨a, ha, hb⟩
    exact ⟨a, (hmem a).mpr ha, (isBlocked_text derived a).trans hb⟩

/-! ## What a node waits for -/

theorem isSettled_rollUpStatus {own : PlanNodeStatus} {statuses : List PlanNodeStatus}
    (hne : statuses ≠ []) (hown : own = .todo ∨ own = .inProgress) :
    isSettled (rollUpStatus own statuses) = statuses.all isSettled := by
  have hempty : statuses.isEmpty = false := by rwa [List.isEmpty_eq_false_iff]
  have hblocked : statuses.contains .blockedHuman = true → statuses.all isSettled = false := by
    intro h
    rw [List.all_eq_false]
    exact ⟨.blockedHuman, List.contains_iff_mem.mp h, by decide⟩
  rw [rollUpStatus, hempty]
  cases hb : statuses.contains .blockedHuman with
  | true =>
    rw [hblocked hb]
    rcases hown with rfl | rfl <;> rfl
  | false =>
    cases ha : statuses.all isSettled with
    | true => rcases hown with rfl | rfl <;> rfl
    | false =>
      cases hs : statuses.any (· ≠ .todo) <;> rcases hown with rfl | rfl <;> simp [isSettled]

/-- The plans this is about: what is left to do is `todo` work. -/
structure Workable (nodes : PlanNodes) : Prop extends PlanForest nodes where
  leaves : ∀ n ∈ nodes.rows, orderedChildren nodes (some n.id) = [] → isSettled n.status = false →
    n.status = .todo ∧ (n.taskable = true ∨ unitByKind n = true)
  containers : ∀ n ∈ nodes.rows, orderedChildren nodes (some n.id) ≠ [] →
    n.status = .todo ∨ n.status = .inProgress

/-- A unit of work that is still to be done. -/
def TodoUnit (nodes : PlanNodes) (n : PlanNodeRow) : Prop :=
  n.status = .todo ∧ if unitByKind n then orderedChildren nodes (some n.id) = [] else n.taskable = true

/-- Nothing is unsettled below the node, nor the node itself if nothing is below it. -/
def Finished (nodes : PlanNodes) (t : PlanNodeRow) : Prop :=
  (orderedChildren nodes (some t.id) = [] → isSettled t.status = true) ∧
    ∀ d ∈ nodes.rows, Above (parentFrom nodes) d.id t.id → isSettled d.status = true

def Unhindered (nodes : PlanNodes) (edges : List PlanNodeEdgeRow) (a : Uuid) : Prop :=
  ∀ e ∈ edges, e.kind = .dependsOn → e.fromNodeId = a → e.toNodeId ≠ a →
    ∀ t ∈ nodes.rows, t.id = e.toNodeId → Finished nodes t

section Waits

variable {nodes : PlanNodes} {edges : List PlanNodeEdgeRow} {touched : List PlanTouchedTask}

theorem directChildren_zero (hforest : PlanForest nodes) {n : PlanNodeRow} (hn : n ∈ nodes.rows) :
    (((computePlanSequence nodes edges touched).statsById n.id).map (·.directChildren)).getD 0 = 0 ↔
      orderedChildren nodes (some n.id) = [] := by
  obtain ⟨-, stats, statuses, hstats, hchildren, -, -⟩ :=
    walkAll_rolls (driftOwn nodes touched) hforest hn
  change (((walkAll nodes (driftOwn nodes touched)).statsById n.id).map (·.directChildren)).getD 0 = 0 ↔ _
  rw [hstats, Option.map_some, Option.getD_some, hchildren, List.length_eq_zero_iff]

theorem settled_iff_finished (h : Workable nodes) {drift : Uuid → Nat} {t : PlanNodeRow}
    (ht : t ∈ nodes.rows) :
    isSettled (rolledOf nodes (walkAll nodes drift) t.id) = true ↔ Finished nodes t := by
  obtain ⟨-, stats, statuses, hstats, -, hrolled, hbelow⟩ := walkAll_rolls drift h.toPlanForest ht
  rw [rolledOf, hstats]
  dsimp only
  rw [hrolled]
  by_cases hleaf : orderedChildren nodes (some t.id) = []
  · have hnone : ∀ d ∈ nodes.rows, ¬ Above (parentFrom nodes) d.id t.id := by
      intro d _ habove
      obtain ⟨c, hc, -⟩ := above_iff_child.mp habove
      rw [hleaf] at hc
      exact List.not_mem_nil hc
    have hnil : statuses = [] := List.eq_nil_iff_forall_not_mem.mpr fun s hs => by
      obtain ⟨d, hd, habove, -⟩ := (hbelow s).mp hs
      exact hnone d hd habove
    rw [hnil]
    exact ⟨fun hs => ⟨fun _ => hs, fun d hd habove => absurd habove (hnone d hd)⟩, fun hf => hf.1 hleaf⟩
  · obtain ⟨c, hc⟩ := List.exists_mem_of_ne_nil _ hleaf
    have hcmem := (mem_orderedChildren.mp hc).1
    have hne : statuses ≠ [] :=
      List.ne_nil_of_mem ((hbelow c.status).mpr ⟨c, hcmem, above_iff_child.mpr ⟨c, hc, .inl rfl⟩, rfl⟩)
    rw [isSettled_rollUpStatus hne (h.containers t ht hleaf), List.all_eq_true]
    constructor
    · intro hall
      exact ⟨fun hl => absurd hl hleaf, fun d hd habove => hall d.status ((hbelow d.status).mpr ⟨d, hd, habove, rfl⟩)⟩
    · rintro ⟨-, hall⟩ s hs
      obtain ⟨d, hd, habove, rfl⟩ := (hbelow s).mp hs
      exact hall d hd habove

theorem not_blocked_iff (h : Workable nodes) {a : Uuid} (ha : a ∈ nodes.keys) :
    ((computePlanSequence nodes edges touched).blockedById a).isSome = false ↔ Unhindered nodes edges a := by
  have hblocked : ((computePlanSequence nodes edges touched).blockedById a).isSome = false ↔
      blockersOf nodes (indexDependsOn nodes edges) (walkAll nodes (driftOwn nodes touched)) a = [] := by
    rw [computePlanSequence]
    dsimp only
    rw [List.contains_iff_mem.mpr ha]
    cases blockersOf nodes (indexDependsOn nodes edges) (walkAll nodes (driftOwn nodes touched)) a <;> simp
  rw [hblocked, blockersOf, List.map_eq_nil_iff, List.filter_eq_nil_iff]
  constructor
  · intro hall e he hkind hfrom hne t ht hid
    have hmem : t.id ∈ indexDependsOn nodes edges a :=
      mem_indexDependsOn.mpr ⟨e, he, hkind, hfrom, hid.symm, fun heq => hne (heq.trans hid).symm, ha,
        Table.mem_keys_of_mem ht⟩
    have hsettled := hall t.id hmem
    rw [Bool.not_eq_true', Bool.not_eq_false] at hsettled
    exact (settled_iff_finished h ht).mp hsettled
  · intro hfree x hx
    obtain ⟨e, he, hkind, hfrom, hto, hne, -, hxkey⟩ := mem_indexDependsOn.mp hx
    obtain ⟨t, ht, rfl⟩ := List.mem_map.mp hxkey
    rw [Bool.not_eq_true', Bool.not_eq_false]
    exact (settled_iff_finished h ht).mpr
      (hfree e he hkind hfrom (fun heq => hne (heq.symm.trans hto)) t ht hto.symm)

theorem mem_keys_of_above (hforest : PlanForest nodes) {x a : Uuid} (h : Above (parentFrom nodes) x a) :
    a ∈ nodes.keys := by
  obtain ⟨y, -, hlast⟩ := Relation.TransGen.tail'_iff.mp h
  have hrow : ∃ r, nodes.find? y = some r ∧ r.parentId = some a := Option.bind_eq_some_iff.mp hlast
  obtain ⟨r, hr, hp⟩ := hrow
  exact hforest.parentLive r (Table.find?_mem hr) a hp

theorem isReady_iff (h : Workable nodes) {n : PlanNodeRow} (hn : n ∈ nodes.rows) :
    isReady (computePlanSequence nodes edges touched) [] n = true ↔
      TodoUnit nodes n ∧ ∀ a, Under nodes n.id a → Unhindered nodes edges a := by
  have hkey := Table.mem_keys_of_mem hn
  have hunit : (if unitByKind n then
      decide ((((computePlanSequence nodes edges touched).statsById n.id).map (·.directChildren)).getD 0 = 0)
      else n.taskable) = true ↔
      if unitByKind n then orderedChildren nodes (some n.id) = [] else n.taskable = true := by
    cases unitByKind n with
    | true => exact decide_eq_true_iff.trans (directChildren_zero h.toPlanForest hn)
    | false => exact Iff.rfl
  have hwaits : (!(ancestorIds n.path).any (computePlanSequence nodes edges touched).isBlocked) = true ↔
      ∀ a, Above (parentFrom nodes) n.id a → Unhindered nodes edges a := by
    rw [Bool.not_eq_true', ← Bool.not_eq_true, ancestorIds_any h.toPlanForest hn]
    constructor
    · intro hnone a ha
      have hfree : ¬ ((computePlanSequence nodes edges touched).blockedById a).isSome = true :=
        fun hb => hnone ⟨a, ha, hb⟩
      exact (not_blocked_iff h (mem_keys_of_above h.toPlanForest ha)).mp (Bool.eq_false_iff.mpr hfree)
    · rintro hall ⟨a, ha, hb⟩
      rw [(not_blocked_iff h (mem_keys_of_above h.toPlanForest ha)).mpr (hall a ha)] at hb
      cases hb
  rw [isReady, Bool.and_eq_true, Bool.and_eq_true, Bool.and_eq_true, Bool.and_eq_true, hunit, hwaits,
    isBlocked_text, Bool.not_eq_true', not_blocked_iff h hkey, decide_eq_true_eq, TodoUnit]
  constructor
  · rintro ⟨⟨⟨⟨htodo, hown⟩, -⟩, habove⟩, hu⟩
    exact ⟨⟨htodo, hu⟩, fun a ha => ha.elim (fun heq => heq ▸ hown) (habove a)⟩
  · rintro ⟨⟨htodo, hu⟩, hall⟩
    exact ⟨⟨⟨⟨htodo, hall n.id (.inl rfl)⟩, rfl⟩, fun a ha => hall a (.inr ha)⟩, hu⟩

end Waits

namespace Sample

def unit (nodeRef parentRef title : String) : PlanPatchOp :=
  .upsert { nodeRef, parentRef := some (some parentRef), title := some title, taskable := some true }

/-- A container with one unit of work in it. -/
def nestedUnit : PatchCall := patch
  [ .upsert { nodeRef := "root", parentRef := some none, title := some "Plan" },
    .upsert { nodeRef := "api", parentRef := some (some "root"), title := some "Api" },
    unit "web" "api" "Web" ]

/-- The container also waits for what is in it, which is not refused. -/
def waiting : PatchCall := patch (nestedUnit.ops ++ [.link "api" "web" .dependsOn none])

end Sample

theorem runPatches_of_runAll {db db' : PlanDb} {calls : List PatchCall} (h : runAll db calls = some db') :
    runPatches db calls = db' := by
  induction calls generalizing db with
  | nil => exact Option.some.inj h
  | cons call calls ih =>
    rw [runAll] at h
    rw [runPatches, List.foldl_cons]
    cases hrun : runPatch db call with
    | error e => rw [hrun] at h; cases h
    | ok out => rw [hrun] at h; exact ih h

theorem planForest_of_runAll {db : PlanDb} {calls : List PatchCall}
    (h : runAll PlanDb.empty calls = some db) : PlanForest db.nodes := by
  have htree := (runPatches_planSound calls).toPlanTree
  rw [runPatches_of_runAll h] at htree
  exact ⟨htree.parentLive, htree.path⟩

/-- What is checked of a workable forest. -/
def workableRows (nodes : PlanNodes) : Bool :=
  nodes.rows.all fun n =>
    if orderedChildren nodes (some n.id) = [] then
      isSettled n.status || (n.status = .todo && (n.taskable || unitByKind n))
    else n.status = .todo || n.status = .inProgress

theorem PlanForest.workable {nodes : PlanNodes} (hforest : PlanForest nodes)
    (h : workableRows nodes = true) : Workable nodes := by
  rw [workableRows, List.all_eq_true] at h
  refine ⟨hforest, fun n hn hleaf hopen => ?_, fun n hn hinner => ?_⟩
  · have hrow := h n hn
    rw [if_pos hleaf, hopen, Bool.false_or, Bool.and_eq_true, Bool.or_eq_true, decide_eq_true_eq] at hrow
    exact hrow
  · have hrow := h n hn
    rw [if_neg hinner, Bool.or_eq_true, decide_eq_true_eq, decide_eq_true_eq] at hrow
    exact hrow

end Haive

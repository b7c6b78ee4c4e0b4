import Haive.Plan.CycleReport
import Haive.Lib.Greedy

/-!
# Sibling order

`orderSiblingsByDependency` and `applyDeterministicOrder`. The loop makes the greedy
topological order of the run, so a run without a cycle comes back in the first order by stored positions.
A run with a cycle does not keep its stored order: what leads to no cycle goes first, and
the ordinals follow (`mutual_pair_moves`).
-/

namespace Haive

open Lib

/-! ## The sort -/

structure SiblingOrdering where
  ordered : List PlanNodeRow
  contradictory : Bool
  decided : Bool

/-- The variables of the loop. `placed` holds the ids of `ordered`. -/
structure SiblingSort where
  waitingOn : Uuid → Int
  ordered : List PlanNodeRow
  decided : Bool

def SiblingSort.placed (s : SiblingSort) : List Uuid := s.ordered.map (·.id)

/-- The siblings that wait on `target`. The index holds siblings only, and none as its own target. -/
def unlocks (run : PlanNodes) (edges : List PlanNodeEdgeRow) (target : Uuid) : List Uuid :=
  run.keys.filter fun id => (indexDependsOn run edges id).contains target

def SiblingSort.start (run : PlanNodes) (edges : List PlanNodeEdgeRow) : SiblingSort :=
  { waitingOn := fun id => (indexDependsOn run edges id).length, ordered := [], decided := true }

def SiblingSort.ready (s : SiblingSort) (run : PlanNodes) : List PlanNodeRow :=
  run.rows.filter fun n => !s.placed.contains n.id && s.waitingOn n.id = 0

/-- The first of the ready siblings is taken. `more` are the others. -/
def SiblingSort.place (s : SiblingSort) (unlocks : Uuid → List Uuid) (next : PlanNodeRow) (more : List PlanNodeRow) :
    SiblingSort :=
  { waitingOn := (unlocks next.id).foldl (fun waitingOn waiter =>
      Function.update waitingOn waiter (waitingOn waiter - 1)) s.waitingOn
    ordered := s.ordered ++ [next]
    decided := s.decided && more.isEmpty }

def sortSiblings (run : PlanNodes) (unlocks : Uuid → List Uuid) : Nat → SiblingSort → SiblingSort
  | 0, s => s
  | fuel + 1, s =>
    match s.ready run with
    | [] => s
    | next :: more => sortSiblings run unlocks fuel (s.place unlocks next more)

def orderSiblingsByDependency (run : PlanNodes) (edges : List PlanNodeEdgeRow) : SiblingOrdering :=
  if run.rows.length < 2 then ⟨run.rows, false, true⟩
  else
    let s := sortSiblings run (unlocks run edges) (run.rows.length + 1) (.start run edges)
    if s.ordered.length = run.rows.length then ⟨s.ordered, false, s.decided⟩
    else ⟨s.ordered ++ run.rows.filter fun n => !s.placed.contains n.id, true, false⟩

/-! ## The step -/

def siblingRun (nodes : PlanNodes) (parentId : Uuid) : PlanNodes := nodes.filter (·.parentId = some parentId)

def childrenByParent (nodes : PlanNodes) : List PlanNodes :=
  (nodes.rows.filterMap (·.parentId)).eraseDups.map (siblingRun nodes)

def ordinalOps (edges : List PlanNodeEdgeRow) (run : PlanNodes) : List UpsertOp :=
  ((orderSiblingsByDependency run edges).ordered.zipIdx.filter fun (child, index) => child.ordinal ≠ index).map
    fun (child, index) => { nodeRef := child.id.text, ordinal := some index }

def PLAN_PATCH_MAX_OPS : Nat := 500

def applyDeterministicOrder (nodes : PlanNodes) (edges : List PlanNodeEdgeRow) : List (List UpsertOp) :=
  let ops := (childrenByParent nodes).flatMap (ordinalOps edges)
  (List.range ((ops.length + (PLAN_PATCH_MAX_OPS - 1)) / PLAN_PATCH_MAX_OPS)).map fun i =>
    (ops.drop (i * PLAN_PATCH_MAX_OPS)).take PLAN_PATCH_MAX_OPS

/-! ## The property -/

structure SiblingOrder (run : PlanNodes) (edges : List PlanNodeEdgeRow) (result : SiblingOrdering) : Prop where
  perm : result.ordered.Perm run.rows
  contradictory : result.contradictory = true ↔ ∃ x, Relation.TransGen (DependsOnAmong run edges) x x
  /-- The topological order that comes first by stored positions. -/
  first : CycleFree (DependsOnAmong run edges) →
    Topological (DependsOnAmong run edges) run.keys (result.ordered.map (·.id)) ∧
      ∀ order, Topological (DependsOnAmong run edges) run.keys order → order = result.ordered.map (·.id) ∨
        List.Lex (fun x y => run.keys.idxOf x < run.keys.idxOf y) (result.ordered.map (·.id)) order
  again : ∀ run' : PlanNodes, run'.rows = result.ordered →
    (orderSiblingsByDependency run' edges).ordered = result.ordered
  decided : result.decided = true ↔ ∃! order, Topological (DependsOnAmong run edges) run.keys order
  /-- A contradictory run stays as it is, whatever plan it stands in. -/
  kept : result.contradictory = true → result.ordered = run.rows ∧
    ∀ nodes parentId, siblingRun nodes parentId = run → ∀ ops ∈ applyDeterministicOrder nodes edges,
      ∀ op ∈ ops, ∀ r ∈ run.rows, op.nodeRef ≠ r.id.text

/-- An edge between different siblings. -/
def SiblingEdge (run : PlanNodes) (edges : List PlanNodeEdgeRow) (x y : Uuid) : Prop := y ∈ indexDependsOn run edges x

/-- The run is stored the way the sort leaves it, with the ordinals 0, 1, 2 and so on. -/
structure StoredInOrder (run : PlanNodes) (edges : List PlanNodeEdgeRow) : Prop where
  split : ∀ x ∈ run.keys, ∀ y ∈ run.keys, ¬ Stuck (SiblingEdge run edges) x → Stuck (SiblingEdge run edges) y →
    Precedes run x y
  after : ∀ x ∈ run.keys, ¬ Stuck (SiblingEdge run edges) x → ∀ y, SiblingEdge run edges x y → Precedes run y x
  ordinals : ∀ parentId, (∀ r ∈ run.rows, r.parentId = some parentId) → run.rows.map (·.ordinal) = List.range run.rows.length

variable {run nodes : PlanNodes} {edges : List PlanNodeEdgeRow} {s : SiblingSort} {x y id : Uuid} {next : PlanNodeRow}
  {more : List PlanNodeRow} {fuel : Nat}

/-! ## The loop -/

theorem siblingEdge_mem (h : SiblingEdge run edges x y) : x ∈ run.keys ∧ y ∈ run.keys := by
  obtain ⟨hx, hy, -⟩ := among_of_mem h
  exact ⟨hx, hy⟩

/-- What the loop keeps. -/
structure SiblingSort.Fits (run : PlanNodes) (edges : List PlanNodeEdgeRow) (s : SiblingSort) : Prop where
  rows : ∀ r ∈ s.ordered, r ∈ run.rows
  greedy : Greedy (SiblingEdge run edges) run.keys s.placed
  waiting : ∀ id, s.waitingOn id = ((indexDependsOn run edges id).filter (· ∉ s.placed)).length
  decided : s.decided = true ↔ Forced (SiblingEdge run edges) run.keys s.placed

theorem SiblingSort.start_fits : (start run edges).Fits run edges where
  rows := fun _ h => absurd h List.not_mem_nil
  greedy := Greedy.nil
  waiting := fun id => by
    have hall : (indexDependsOn run edges id).filter (· ∉ (start run edges).placed) = indexDependsOn run edges id :=
      List.filter_eq_self.mpr fun y _ => decide_eq_true List.not_mem_nil
    rw [hall]
    rfl
  decided := iff_of_true rfl fun before x after heq => absurd heq.symm (by simp [SiblingSort.placed, SiblingSort.start])

theorem SiblingSort.Fits.mem_ready (h : s.Fits run edges) {r : PlanNodeRow} :
    r ∈ s.ready run ↔ r ∈ run.rows ∧ ReadyAfter (SiblingEdge run edges) s.placed r.id := by
  rw [SiblingSort.ready, List.mem_filter, Bool.and_eq_true, Bool.not_eq_true', decide_eq_true_eq, h.waiting]
  refine and_congr_right fun _ => and_congr (by simp) ?_
  rw [Int.natCast_eq_zero, List.length_eq_zero_iff, List.filter_eq_nil_iff]
  refine forall_congr' fun y => imp_congr_right fun _ => ?_
  rw [decide_eq_true_eq, not_not]

/-- A decrement for each waiter. -/
theorem countDown (waiters : List Uuid) (hnodup : waiters.Nodup) (waitingOn : Uuid → Int) :
    waiters.foldl (fun waitingOn waiter => Function.update waitingOn waiter (waitingOn waiter - 1)) waitingOn id =
      if id ∈ waiters then waitingOn id - 1 else waitingOn id := by
  induction waiters generalizing waitingOn with
  | nil => simp
  | cons waiter waiters ih =>
    obtain ⟨hnew, hrest⟩ := List.nodup_cons.mp hnodup
    rw [List.foldl_cons, ih hrest]
    rcases Decidable.em (id = waiter) with rfl | hne
    · rw [if_neg hnew, if_pos List.mem_cons_self, Function.update_self]
    · rw [Function.update_of_ne hne]
      simp [hne]

theorem mem_unlocks : id ∈ unlocks run edges x ↔ SiblingEdge run edges id x := by
  rw [unlocks, List.mem_filter, List.contains_iff_mem]
  exact ⟨fun h => h.2, fun h => ⟨(siblingEdge_mem h).1, h⟩⟩

theorem SiblingSort.Fits.first_ready (h : s.Fits run edges) (hready : s.ready run = next :: more) (hy : y ∈ run.keys)
    (hafter : ReadyAfter (SiblingEdge run edges) s.placed y) : run.keys.idxOf next.id ≤ run.keys.idxOf y := by
  have hmem : ∀ r ∈ run.rows, ReadyAfter (SiblingEdge run edges) s.placed r.id → r ∈ next :: more :=
    fun r hr hafter => hready ▸ h.mem_ready.mpr ⟨hr, hafter⟩
  obtain ⟨before, after, hrows, hbefore, -, -⟩ := List.filter_eq_cons_iff.mp hready
  have hkeys : run.keys = before.map (·.id) ++ next.id :: after.map (·.id) := by
    rw [Table.keys, hrows, List.map_append, List.map_cons]
  have hnew : next.id ∉ before.map (·.id) := by
    have hnodup := run.nodup
    rw [← Table.keys, hkeys] at hnodup
    exact fun hin => (List.nodup_append.mp hnodup).2.2 _ hin _ List.mem_cons_self rfl
  refine Nat.le_of_not_lt fun hlt => ?_
  rw [hkeys, idxOf_lt_iff hnew] at hlt
  obtain ⟨r, hr, rfl⟩ := List.mem_map.mp hlt
  have hrrun : r ∈ run.rows := hrows ▸ List.mem_append_left _ hr
  refine hbefore r hr ?_
  exact (List.mem_filter.mp (h.mem_ready.mpr ⟨hrrun, hafter⟩)).2

theorem SiblingSort.Fits.place (h : s.Fits run edges) (hready : s.ready run = next :: more) :
    (s.place (unlocks run edges) next more).Fits run edges := by
  have hmem : ∀ r, r ∈ next :: more ↔ r ∈ run.rows ∧ ReadyAfter (SiblingEdge run edges) s.placed r.id :=
    fun r => hready ▸ h.mem_ready
  obtain ⟨hnext, hafter⟩ := (hmem next).mp List.mem_cons_self
  have hplaced : (s.place (unlocks run edges) next more).placed = s.placed ++ [next.id] := by
    rw [SiblingSort.placed, SiblingSort.place, List.map_append]
    rfl
  refine ⟨fun r hr => ?_, ?_, fun id => ?_, ?_⟩
  · rcases List.mem_append.mp hr with hr | hr
    · exact h.rows r hr
    · exact List.mem_singleton.mp hr ▸ hnext
  · rw [hplaced]
    exact h.greedy.snoc (Table.mem_keys_of_mem hnext) hafter fun y hy => h.first_ready hready hy
  · have hcount : (s.place (unlocks run edges) next more).waitingOn id =
        if id ∈ unlocks run edges next.id then s.waitingOn id - 1 else s.waitingOn id :=
      countDown _ (run.nodup.filter _) s.waitingOn
    rw [hcount, hplaced, h.waiting, length_filter_notMem_concat (nodup_indexDependsOn run edges id) hafter.1]
    split
    · next hwaits =>
      have hin : next.id ∈ indexDependsOn run edges id := mem_unlocks.mp hwaits
      have hpos : 0 < ((indexDependsOn run edges id).filter (· ∉ s.placed)).length :=
        List.length_pos_of_mem (List.mem_filter.mpr ⟨hin, decide_eq_true hafter.1⟩)
      rw [if_pos hin]
      omega
    · next hfree =>
      have hout : next.id ∉ indexDependsOn run edges id := fun hin => hfree (mem_unlocks.mpr hin)
      rw [if_neg hout, Nat.sub_zero]
  · have hmore : (s.place (unlocks run edges) next more).decided = (s.decided && more.isEmpty) := rfl
    rw [hplaced, hmore, Bool.and_eq_true, h.decided, List.isEmpty_iff, forced_concat]
    refine and_congr_right fun _ => ⟨?_, fun honly => List.eq_nil_iff_forall_not_mem.mpr fun r hr => ?_⟩
    · rintro rfl y hy hyready
      obtain ⟨r, hr, rfl⟩ := Table.mem_keys.mp hy
      rw [List.mem_singleton.mp ((hmem r).mpr ⟨hr, hyready⟩)]
    · obtain ⟨hrrun, hrready⟩ := (hmem r).mp (List.mem_cons_of_mem _ hr)
      obtain rfl := Table.key_injective hrrun hnext (honly r.id (Table.mem_keys_of_mem hrrun) hrready)
      have hnodup : (s.ready run).Nodup := (List.Nodup.of_map _ run.nodup).filter _
      exact (List.nodup_cons.mp (hready ▸ hnodup)).1 hr

/-- The loop ends where nothing is ready. -/
theorem sortSiblings_fits (h : s.Fits run edges) (hfuel : run.rows.length < fuel + s.ordered.length) :
    (sortSiblings run (unlocks run edges) fuel s).Fits run edges ∧
      Exhausted (SiblingEdge run edges) run.keys (sortSiblings run (unlocks run edges) fuel s).placed := by
  induction fuel generalizing s with
  | zero =>
    have hshort : s.placed.length ≤ run.keys.length := (h.greedy.nodup.subperm fun x hx => h.greedy.mem_run hx).length_le
    rw [SiblingSort.placed, Table.keys, List.length_map, List.length_map] at hshort
    omega
  | succ fuel ih =>
    rw [sortSiblings]
    split
    · next hnone =>
      refine ⟨h, fun x hx hafter => ?_⟩
      obtain ⟨r, hr, rfl⟩ := Table.mem_keys.mp hx
      exact absurd (h.mem_ready.mpr ⟨hr, hafter⟩) (hnone ▸ List.not_mem_nil)
    · next hready =>
      refine ih (h.place hready) ?_
      rw [SiblingSort.place, List.length_append, List.length_singleton]
      omega

/-! ## The result -/

/-- The result is `out`, then what is left of the run. -/
structure SortedBy (run : PlanNodes) (edges : List PlanNodeEdgeRow) (out : List Uuid) (result : SiblingOrdering) : Prop where
  greedy : Greedy (SiblingEdge run edges) run.keys out
  exhausted : Exhausted (SiblingEdge run edges) run.keys out
  rows : ∀ r ∈ result.ordered, r ∈ run.rows
  ordered : result.ordered.map (·.id) = out ++ run.keys.filter (· ∉ out)
  contradictory : result.contradictory = true ↔ ¬ out.Perm run.keys
  decided : result.decided = true ↔ out.Perm run.keys ∧ Forced (SiblingEdge run edges) run.keys out

theorem siblingEdge_needs (x y : Uuid) (h : SiblingEdge run edges x y) : y ∈ run.keys := (siblingEdge_mem h).2

theorem filter_notMem_of_perm {out : List Uuid} (h : out.Perm run.keys) : run.keys.filter (· ∉ out) = [] :=
  List.filter_eq_nil_iff.mpr fun _ hx hout => of_decide_eq_true hout (h.mem_iff.mpr hx)

/-- A run of fewer than two is its own order. -/
theorem sortedBy_short (hshort : run.rows.length < 2) {out : List Uuid} (hgreedy : Greedy (SiblingEdge run edges) run.keys out)
    (hfull : Exhausted (SiblingEdge run edges) run.keys out) : SortedBy run edges out ⟨run.rows, false, true⟩ := by
  have hsame : ∀ x ∈ run.keys, ∀ y ∈ run.keys, x = y := by
    intro x hx y hy
    obtain ⟨r, hr, rfl⟩ := Table.mem_keys.mp hx
    obtain ⟨r', hr', rfl⟩ := Table.mem_keys.mp hy
    cases hrows : run.rows with
    | nil => exact absurd hr (hrows ▸ List.not_mem_nil)
    | cons a rest =>
      rw [hrows, List.length_cons] at hshort
      have hrest : rest = [] := List.eq_nil_of_length_eq_zero (by omega)
      rw [hrows, hrest] at hr hr'
      rw [List.mem_singleton.mp hr, List.mem_singleton.mp hr']
  have hfree : CycleFree (SiblingEdge run edges) := by
    intro x hx
    obtain ⟨y, hxy, -⟩ := Relation.TransGen.head'_iff.mp hx
    obtain ⟨e, -, -, -, -, hne, hxkey, hykey⟩ := mem_indexDependsOn.mp hxy
    exact hne (hsame x hxkey y hykey)
  have hperm := (hgreedy.topological hfull siblingEdge_needs run.nodup hfree).perm
  have hkeys : out = run.keys := by
    cases hrows : run.keys with
    | nil => exact List.Perm.eq_nil (hrows ▸ hperm)
    | cons x rest =>
      have hrest : rest = [] := by
        cases rest with
        | nil => rfl
        | cons y rest =>
          have hnodup : (x :: y :: rest).Nodup := hrows ▸ run.nodup
          refine absurd (hsame x (hrows ▸ List.mem_cons_self) y (hrows ▸ List.mem_cons_of_mem _ List.mem_cons_self)) ?_
          exact fun heq => (List.nodup_cons.mp hnodup).1 (heq ▸ List.mem_cons_self)
      subst hrest
      exact List.perm_singleton.mp (hrows ▸ hperm)
  refine ⟨hgreedy, hfull, fun _ hr => hr, ?_, iff_of_false nofun (not_not.mpr hperm), iff_of_true rfl ⟨hperm, ?_⟩⟩
  · rw [filter_notMem_of_perm hperm, List.append_nil, hkeys]
    rfl
  · intro before x after heq y hy _
    exact hsame y hy x (hperm.mem_iff.mp (heq ▸ List.mem_append_right _ List.mem_cons_self))

theorem orderSiblings_sortedBy (run : PlanNodes) (edges : List PlanNodeEdgeRow) :
    ∃ out, SortedBy run edges out (orderSiblingsByDependency run edges) := by
  obtain ⟨h, hfull⟩ : (sortSiblings run (unlocks run edges) (run.rows.length + 1) (.start run edges)).Fits run edges ∧
      Exhausted (SiblingEdge run edges) run.keys
        (sortSiblings run (unlocks run edges) (run.rows.length + 1) (.start run edges)).placed :=
    sortSiblings_fits SiblingSort.start_fits (by omega)
  refine ⟨(sortSiblings run (unlocks run edges) (run.rows.length + 1) (.start run edges)).placed, ?_⟩
  unfold orderSiblingsByDependency
  split
  · next hshort => exact sortedBy_short hshort h.greedy hfull
  · generalize sortSiblings run (unlocks run edges) (run.rows.length + 1) (.start run edges) = s at h hfull
    have hsub : s.placed.Subperm run.keys := h.greedy.nodup.subperm fun x hx => h.greedy.mem_run hx
    have hlength : s.placed.length = s.ordered.length ∧ run.keys.length = run.rows.length :=
      ⟨List.length_map .., List.length_map ..⟩
    simp only
    split
    · next hall =>
      have hperm : s.placed.Perm run.keys := hsub.perm_of_length_le (by omega)
      refine ⟨h.greedy, hfull, h.rows, ?_, iff_of_false nofun (not_not.mpr hperm), ?_⟩
      · rw [filter_notMem_of_perm hperm, List.append_nil]
        rfl
      · exact h.decided.trans (iff_and_self.mpr fun _ => hperm)
    · next hpart =>
      have hperm : ¬ s.placed.Perm run.keys := fun hp => hpart (by
        have := hp.length_eq
        omega)
      refine ⟨h.greedy, hfull, fun r hr => ?_, ?_, iff_of_true rfl hperm, iff_of_false nofun fun hp => hperm hp.1⟩
      · rcases List.mem_append.mp hr with hr | hr
        · exact h.rows r hr
        · exact (List.mem_filter.mp hr).1
      · rw [List.map_append, Table.keys, List.filter_map]
        refine congrArg (s.placed ++ List.map _ ·) (List.filter_congr fun r _ => ?_)
        simp

variable {out : List Uuid} {result : SiblingOrdering}

theorem dependsOnAmong_eq (h : CycleFree (DependsOnAmong run edges)) : DependsOnAmong run edges = SiblingEdge run edges := by
  funext x y
  refine propext ⟨fun hxy => ?_, among_of_mem⟩
  have hne : x ≠ y := by
    rintro rfl
    exact h x (.single hxy)
  obtain ⟨hx, hy, e, he, hkind, hfrom, hto⟩ := hxy
  exact mem_indexDependsOn.mpr ⟨e, he, hkind, hfrom, hto, hne, hx, hy⟩

theorem SortedBy.perm_iff (h : SortedBy run edges out result) : out.Perm run.keys ↔ CycleFree (SiblingEdge run edges) := by
  refine ⟨fun hperm => ?_, fun hfree => (h.greedy.topological h.exhausted siblingEdge_needs run.nodup hfree).perm⟩
  have horder : Topological (SiblingEdge run edges) run.keys out := by
    refine ⟨hperm, h.greedy.later, fun x _ hxx => ?_⟩
    obtain ⟨e, -, -, -, -, hne, -⟩ := mem_indexDependsOn.mp hxx
    exact hne rfl
  exact horder.cycleFree run.nodup fun x y hxy => siblingEdge_mem hxy

theorem SortedBy.nodup (h : SortedBy run edges out result) : (out ++ run.keys.filter (· ∉ out)).Nodup :=
  List.nodup_append.mpr ⟨h.greedy.nodup, run.nodup.filter _, fun _ hx _ hy heq =>
    of_decide_eq_true (List.mem_filter.mp hy).2 (heq ▸ hx)⟩

theorem SortedBy.perm (h : SortedBy run edges out result) : result.ordered.Perm run.rows := by
  have hnodup : (result.ordered.map (·.id)).Nodup := h.ordered ▸ h.nodup
  refine (List.perm_ext_iff_of_nodup hnodup.of_map (List.Nodup.of_map _ run.nodup)).mpr fun r =>
    ⟨h.rows r, fun hr => ?_⟩
  have hkey : r.id ∈ result.ordered.map (·.id) := by
    rw [h.ordered, List.mem_append, List.mem_filter]
    exact (Decidable.em (r.id ∈ out)).imp_right fun hout => ⟨Table.mem_keys_of_mem hr, decide_eq_true hout⟩
  obtain ⟨r', hr', hid⟩ := List.mem_map.mp hkey
  exact Table.key_injective (h.rows r' hr') hr hid ▸ hr'

/-- Rows of one table are told apart by their ids. -/
theorem rows_eq {l l' : List PlanNodeRow} (hl : ∀ r ∈ l, r ∈ run.rows) (hl' : ∀ r ∈ l', r ∈ run.rows)
    (hids : l.map (·.id) = l'.map (·.id)) : l = l' := by
  induction l generalizing l' with
  | nil => exact (List.map_eq_nil_iff.mp hids.symm).symm
  | cons r l ih =>
    cases l' with
    | nil => cases hids
    | cons r' l' =>
      obtain ⟨hid, hrest⟩ := List.cons.inj hids
      rw [Table.key_injective (hl r List.mem_cons_self) (hl' r' List.mem_cons_self) hid,
        ih (fun x hx => hl x (List.mem_cons_of_mem _ hx)) (fun x hx => hl' x (List.mem_cons_of_mem _ hx)) hrest]

theorem SortedBy.ordered_eq_iff (h : SortedBy run edges out result) :
    result.ordered = run.rows ↔ out ++ run.keys.filter (· ∉ out) = run.keys := by
  rw [← h.ordered]
  exact ⟨fun heq => congrArg _ heq, rows_eq h.rows fun _ hr => hr⟩

theorem SortedBy.again (h : SortedBy run edges out result) {run' : PlanNodes} (hrows : run'.rows = result.ordered) :
    (orderSiblingsByDependency run' edges).ordered = result.ordered := by
  have hkeys : run'.keys = out ++ run.keys.filter (· ∉ out) := by rw [Table.keys, hrows, h.ordered]
  have hmem : ∀ x, x ∈ run'.keys ↔ x ∈ run.keys := fun x => by
    rw [Table.keys, Table.keys, hrows]
    exact (h.perm.map _).mem_iff
  have hedge : SiblingEdge run' edges = SiblingEdge run edges := by
    funext x y
    simp only [SiblingEdge, mem_indexDependsOn, hmem]
  obtain ⟨out', h'⟩ := orderSiblings_sortedBy run' edges
  have hgreedy : Greedy (SiblingEdge run' edges) run'.keys out := by
    rw [hedge, hkeys]
    exact h.greedy.again h.nodup
  have hfull : Exhausted (SiblingEdge run' edges) run'.keys out := by
    rw [hedge]
    exact fun x hx => h.exhausted x ((hmem x).mp hx)
  obtain rfl := hgreedy.unique h'.greedy hfull h'.exhausted
  refine (rows_eq h'.rows (fun r hr => hrows ▸ hr) ?_)
  rw [h'.ordered, h.ordered, hkeys, List.filter_append]
  have hnone : out.filter (· ∉ out) = [] := List.filter_eq_nil_iff.mpr fun x hx hout => of_decide_eq_true hout hx
  rw [hnone, List.nil_append, List.filter_filter]
  simp

/-! ## The ops -/

theorem mem_siblingRun {parentId : Uuid} {r : PlanNodeRow} :
    r ∈ (siblingRun nodes parentId).rows ↔ r ∈ nodes.rows ∧ r.parentId = some parentId := by
  rw [siblingRun, Table.filter, List.mem_filter, decide_eq_true_eq]

theorem mem_ordered {r : PlanNodeRow} (h : r ∈ (orderSiblingsByDependency run edges).ordered) : r ∈ run.rows := by
  obtain ⟨out, hsorted⟩ := orderSiblings_sortedBy run edges
  exact hsorted.rows r h

theorem mem_ordinalOps {op : UpsertOp} : op ∈ ordinalOps edges run ↔ ∃ (r : PlanNodeRow) (i : Nat),
    (orderSiblingsByDependency run edges).ordered[i]? = some r ∧ r.ordinal ≠ i ∧
      op = { nodeRef := r.id.text, ordinal := some i } := by
  rw [ordinalOps, List.mem_map]
  constructor
  · rintro ⟨⟨r, i⟩, hmem, rfl⟩
    obtain ⟨hin, hne⟩ := List.mem_filter.mp hmem
    exact ⟨r, i, List.mk_mem_zipIdx_iff_getElem?.mp hin, of_decide_eq_true hne, rfl⟩
  · rintro ⟨r, i, hin, hne, rfl⟩
    exact ⟨⟨r, i⟩, List.mem_filter.mpr ⟨List.mk_mem_zipIdx_iff_getElem?.mpr hin, decide_eq_true hne⟩, rfl⟩

theorem mem_applyDeterministicOrder {op : UpsertOp} : (∃ ops ∈ applyDeterministicOrder nodes edges, op ∈ ops) ↔
    ∃ parentId, op ∈ ordinalOps edges (siblingRun nodes parentId) := by
  have hslices := mem_slices (l := (childrenByParent nodes).flatMap (ordinalOps edges)) (n := PLAN_PATCH_MAX_OPS) (x := op)
    (by decide)
  refine hslices.trans ?_
  rw [List.mem_flatMap]
  constructor
  · rintro ⟨run, hrun, hop⟩
    obtain ⟨parentId, -, rfl⟩ := List.mem_map.mp hrun
    exact ⟨parentId, hop⟩
  · rintro ⟨parentId, hop⟩
    refine ⟨_, List.mem_map.mpr ⟨parentId, ?_, rfl⟩, hop⟩
    obtain ⟨r, i, hin, -, -⟩ := mem_ordinalOps.mp hop
    obtain ⟨hr, hp⟩ := mem_siblingRun.mp (mem_ordered (List.mem_of_getElem? hin))
    exact List.mem_eraseDups.mpr (List.mem_filterMap.mpr ⟨r, hr, hp⟩)

/-- A run that comes back as it was is rewritten where its ordinals are not 0, 1, 2 and so on. -/
theorem unmoved_iff (hsame : (orderSiblingsByDependency run edges).ordered = run.rows) :
    (∀ nodes parentId, siblingRun nodes parentId = run → ∀ ops ∈ applyDeterministicOrder nodes edges,
      ∀ op ∈ ops, ∀ r ∈ run.rows, op.nodeRef ≠ r.id.text) ↔
    ∀ parentId, (∀ r ∈ run.rows, r.parentId = some parentId) → run.rows.map (·.ordinal) = List.range run.rows.length := by
  constructor
  · intro h parentId hparent
    have hrun : siblingRun run parentId = run := by
      have hall : run.rows.filter (·.parentId = some parentId) = run.rows :=
        List.filter_eq_self.mpr fun r hr => decide_eq_true (hparent r hr)
      exact Table.ext_rows hall
    refine List.ext_getElem (by rw [List.length_map, List.length_range]) fun i hi _ => ?_
    rw [List.length_map] at hi
    rw [List.getElem_map, List.getElem_range]
    refine Classical.byContradiction fun hne => ?_
    have hin : (orderSiblingsByDependency (siblingRun run parentId) edges).ordered[i]? = some run.rows[i] := by
      rw [hrun, hsame]
      exact List.getElem?_eq_getElem hi
    obtain ⟨ops, hops, hop⟩ := mem_applyDeterministicOrder.mpr ⟨parentId, mem_ordinalOps.mpr ⟨_, i, hin, hne, rfl⟩⟩
    exact h run parentId hrun ops hops _ hop _ (List.getElem_mem hi) rfl
  · rintro h nodes parentId rfl ops hops op hop r hr href
    obtain ⟨parentId', hop⟩ := mem_applyDeterministicOrder.mp ⟨ops, hops, hop⟩
    obtain ⟨r', i, hin, hne, rfl⟩ := mem_ordinalOps.mp hop
    obtain ⟨hr', hp'⟩ := mem_siblingRun.mp (mem_ordered (List.mem_of_getElem? hin))
    obtain ⟨hrnodes, hp⟩ := mem_siblingRun.mp hr
    obtain rfl := Table.key_injective hr' hrnodes (Uuid.ext_text href)
    obtain rfl := Option.some.inj (hp.symm.trans hp')
    rw [hsame] at hin
    have hordinals := h parentId fun r hr => (mem_siblingRun.mp hr).2
    have hat := congrArg (·[i]?) hordinals
    obtain ⟨hi, -⟩ := List.getElem?_eq_some_iff.mp hin
    simp only [List.getElem?_map, hin, Option.map_some, List.getElem?_range hi, Option.some.injEq] at hat
    exact hne hat

/-! ## The claim -/

/-- A run without a cycle is sorted as it should be. A run with one keeps its order and its ordinals exactly
where it is stored the way the sort leaves it. -/
theorem sibling_order_iff (run : PlanNodes) (edges : List PlanNodeEdgeRow) :
    SiblingOrder run edges (orderSiblingsByDependency run edges) ↔
      CycleFree (DependsOnAmong run edges) ∨ ¬ CycleFree (SiblingEdge run edges) ∧ StoredInOrder run edges := by
  obtain ⟨out, h⟩ := orderSiblings_sortedBy run edges
  have hcycle : (orderSiblingsByDependency run edges).contradictory = true ↔ ¬ CycleFree (SiblingEdge run edges) :=
    h.contradictory.trans (not_congr h.perm_iff)
  have hkept := h.ordered_eq_iff.trans (h.greedy.eq_append_iff h.exhausted siblingEdge_needs run.nodup)
  constructor
  · intro horder
    refine or_iff_not_imp_left.mpr fun hnot => ?_
    have hcontra : (orderSiblingsByDependency run edges).contradictory = true := by
      refine horder.contradictory.mpr (Classical.byContradiction fun hnone => hnot fun x hx => hnone ⟨x, hx⟩)
    obtain ⟨hsame, hunmoved⟩ := horder.kept hcontra
    obtain ⟨hsplit, hafter⟩ := hkept.mp hsame
    exact ⟨hcycle.mp hcontra, hsplit, hafter, (unmoved_iff hsame).mp hunmoved⟩
  · rintro (hfree | ⟨hcyclic, hstored⟩)
    · have hedge := dependsOnAmong_eq hfree
      have hperm : out.Perm run.keys := h.perm_iff.mpr (hedge ▸ hfree)
      have hids : (orderSiblingsByDependency run edges).ordered.map (·.id) = out := by
        rw [h.ordered, filter_notMem_of_perm hperm, List.append_nil]
      have htop : Topological (DependsOnAmong run edges) run.keys out := by
        rw [hedge]
        exact h.greedy.topological h.exhausted siblingEdge_needs run.nodup (hedge ▸ hfree)
      have hcontra : ¬ (orderSiblingsByDependency run edges).contradictory = true := fun hc =>
        hcycle.mp hc (hedge ▸ hfree)
      refine ⟨h.perm, iff_of_false hcontra fun ⟨x, hx⟩ => hfree x hx, fun _ => ?_, fun _ => h.again, ?_, fun hc =>
        absurd hc hcontra⟩
      · rw [hids]
        refine ⟨htop, fun order horder => ?_⟩
        rw [hedge] at horder
        exact h.greedy.first hperm siblingEdge_needs run.nodup horder
      · rw [hedge] at htop ⊢
        rw [h.decided, and_iff_right hperm, h.greedy.forced_iff htop siblingEdge_needs run.nodup]
        refine ⟨fun honly => ⟨out, htop, honly⟩, ?_⟩
        rintro ⟨order, -, honly⟩ order' horder'
        rw [honly order' horder', honly out htop]
    · have hcyclic' : ¬ CycleFree (DependsOnAmong run edges) := fun hfree =>
        hcyclic (hfree.mono fun _ _ => among_of_mem)
      have hsame := hkept.mpr ⟨hstored.split, hstored.after⟩
      refine ⟨h.perm, iff_of_true (hcycle.mpr hcyclic) ?_, fun hfree => absurd hfree hcyclic', fun _ => h.again, ?_,
        fun _ => ⟨hsame, (unmoved_iff hsame).mpr hstored.ordinals⟩⟩
      · refine Classical.byContradiction fun hnone => hcyclic' fun x hx => hnone ⟨x, hx⟩
      · rw [h.decided, h.perm_iff]
        refine iff_of_false (fun hfree => hcyclic hfree.1) ?_
        rintro ⟨order, horder, -⟩
        refine hcyclic' (horder.cycleFree run.nodup fun x y hxy => ⟨hxy.1, hxy.2.1⟩)

/-! ## A mutual pair -/

open Haive.Sample in
/-- The third sibling has no edge, and goes before the two that wait on each other. -/
theorem mutual_pair_moves : ¬ ∀ run edges, SiblingOrder run edges (orderSiblingsByDependency run edges) := by
  intro h
  let run : PlanNodes :=
    ⟨[row api (some root) "" 0 1 "Api", row web (some root) "" 1 1 "Web", row missingParent (some root) "" 2 1 "Db"],
      by decide⟩
  let edges := [dependsOnEdge api web, dependsOnEdge web api]
  have hcontra : (orderSiblingsByDependency run edges).contradictory = true := by decide
  have hsame := congrArg (List.map (·.id)) ((h run edges).kept hcontra).1
  have hmoved : (orderSiblingsByDependency run edges).ordered.map (·.id) = [missingParent, api, web] := by decide
  rw [hmoved] at hsame
  exact absurd hsame (by decide)

end Haive

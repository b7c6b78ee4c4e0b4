import Haive.Lib.Buckets
import Haive.Scheduling.FairPriority

/-!
# Priority decay

`worker/src/queues/cli-exec/priority-decay.ts`: queued jobs are priced again from the agents their task has
running and their place in the task's own backlog. One pass settles (`decayedPriorities_again`), since the new
prices are in the order that they were derived from. `Number(jobId)` is a parameter.
-/

namespace Haive.Scheduling

open Lib (bucket bucket_eq)

abbrev Text := List UInt16

structure QueuedJobView where
  jobId : Text
  taskId : Text
  invocationId : Text
  /-- `none` for NaN. -/
  priority : Option ℚ
  deriving DecidableEq

structure TaskLoad where
  runningCount : ℚ
  userTiebreak : ℚ
  voteScore : ℚ

structure Reprice where
  jobId : Text
  taskId : Text
  before : Option ℚ
  after : ℤ
  deriving DecidableEq

section Decay

variable (number : Text → Option ℚ) (loads : Text → Option TaskLoad) (live : Text → Bool)

/-- `byJobId(a, b) <= 0`, where `number` gives the ids that are finite numbers. -/
def byJobIdLe (a b : QueuedJobView) : Bool :=
  match number a.jobId, number b.jobId with
  | some x, some y => x ≤ y
  | _, _ => ! decide (b.jobId < a.jobId)

def QueuedJobView.price (j : QueuedJobView) : ℚ := j.priority.getD 0

/-- `a.priority - b.priority || byJobId(a, b)`, at most zero. -/
def ServedBefore (a b : QueuedJobView) : Prop := a.price < b.price ∨ a.price = b.price ∧ byJobIdLe number a b = true

instance : DecidableRel (ServedBefore number) := fun _ _ => inferInstanceAs (Decidable (_ ∨ _))

/-- A prioritised job that would run, of a task with figures. -/
def isRepriced (j : QueuedJobView) : Bool := j.price ≠ 0 && live j.invocationId && (loads j.taskId).isSome

def backlog (queued : List QueuedJobView) (task : Text) : List QueuedJobView :=
  (bucket (·.taskId) (queued.filter (isRepriced loads live)) task).insertionSort (ServedBefore number)

def TaskLoad.priceAt (load : TaskLoad) (i : Nat) : ℤ :=
  fairPriority ⟨load.runningCount + i + 1, load.userTiebreak, load.voteScore⟩

def repriceBacklog (load : TaskLoad) (task : Text) (jobs : List QueuedJobView) : List Reprice :=
  jobs.zipIdx.filterMap fun entry =>
    if some (load.priceAt entry.2 : ℚ) ≠ entry.1.priority then
      some ⟨entry.1.jobId, task, entry.1.priority, load.priceAt entry.2⟩
    else none

def decayedPriorities (queued : List QueuedJobView) : List Reprice :=
  ((queued.filter (isRepriced loads live)).map (·.taskId)).eraseDups.flatMap fun task =>
    match loads task with
    | none => []
    | some load => repriceBacklog load task (backlog number loads live queued task)

end Decay

def applyTo (changes : List Reprice) (j : QueuedJobView) : QueuedJobView :=
  match changes.find? (·.jobId = j.jobId) with
  | some change => { j with priority := some (change.after : ℚ) }
  | none => j

theorem TaskLoad.priceAt_pos (load : TaskLoad) (i : Nat) : 0 < load.priceAt i := by
  have hmin : (0 : ℤ) < fairPriorityMin := by decide
  exact hmin.trans_le (fairPriority_mem _).1

theorem TaskLoad.priceAt_mono (load : TaskLoad) {i j : Nat} (h : i ≤ j) : load.priceAt i ≤ load.priceAt j := by
  refine fairPriority_mono ?_ _ _
  have hcast : (i : ℚ) ≤ j := Nat.cast_le.mpr h
  linarith

/-! ## What a pass returns -/

section Pass

variable {number : Text → Option ℚ} {loads : Text → Option TaskLoad} {live : Text → Bool} {queued : List QueuedJobView}

theorem backlog_perm (task : Text) : (backlog number loads live queued task).Perm
    ((queued.filter (isRepriced loads live)).filter fun j => j.taskId = task) := by
  rw [backlog, bucket_eq]
  exact List.perm_insertionSort _ _

theorem mem_backlog {task : Text} {j : QueuedJobView} : j ∈ backlog number loads live queued task ↔
    j ∈ queued ∧ isRepriced loads live j = true ∧ j.taskId = task := by
  rw [(backlog_perm task).mem_iff, List.mem_filter, List.mem_filter, decide_eq_true_eq, and_assoc]

/-- The comparison of ids need not be an order: what counts is that the prices come first. -/
theorem backlog_sorted (task : Text) : ((backlog number loads live queued task).map QueuedJobView.price).Pairwise (· ≤ ·) := by
  rw [backlog]
  refine Lib.pairwise_insertionSort_key (fun a b h => ?_) (fun a b h => ?_) _
  · exact h.elim le_of_lt fun h => le_of_eq h.1
  · exact le_of_not_gt fun hlt => h (.inl hlt)

/-- Exactly the jobs whose price is not the one at their place. -/
theorem mem_decayedPriorities {r : Reprice} : r ∈ decayedPriorities number loads live queued ↔
    ∃ task load i j, loads task = some load ∧ (backlog number loads live queued task)[i]? = some j ∧
      some (load.priceAt i : ℚ) ≠ j.priority ∧ r = ⟨j.jobId, task, j.priority, load.priceAt i⟩ := by
  rw [decayedPriorities, List.mem_flatMap]
  constructor
  · rintro ⟨task, -, hr⟩
    split at hr
    · cases hr
    · next load hload =>
      obtain ⟨⟨j, i⟩, hmem, hsome⟩ := List.mem_filterMap.mp hr
      dsimp only at hsome
      split at hsome
      · next hne =>
        cases hsome
        exact ⟨task, load, i, j, hload, List.mem_zipIdx_iff_getElem?.mp hmem, hne, rfl⟩
      · cases hsome
  · rintro ⟨task, load, i, j, hload, hj, hne, rfl⟩
    obtain ⟨hqueued, hrepriced, htask⟩ := mem_backlog.mp (List.mem_of_getElem? hj)
    refine ⟨task, ?_, ?_⟩
    · rw [List.mem_eraseDups]
      exact List.mem_map.mpr ⟨j, List.mem_filter.mpr ⟨hqueued, hrepriced⟩, htask⟩
    · rw [hload]
      exact List.mem_filterMap.mpr ⟨(j, i), List.mem_zipIdx_iff_getElem?.mpr hj, if_pos hne⟩

theorem exists_place {j : QueuedJobView} (hj : j ∈ queued) (hrepriced : isRepriced loads live j = true) :
    ∃ load, ∃ i : Nat, loads j.taskId = some load ∧ (backlog number loads live queued j.taskId)[i]? = some j := by
  obtain ⟨load, hload⟩ := Option.isSome_iff_exists.mp (Bool.and_eq_true_iff.mp hrepriced).2
  obtain ⟨i, hi, hget⟩ := List.getElem_of_mem (mem_backlog.mpr ⟨hj, hrepriced, rfl⟩)
  exact ⟨load, i, hload, List.getElem?_eq_some_iff.mpr ⟨hi, hget⟩⟩

section Applied

variable (hids : (queued.map (·.jobId)).Nodup)

include hids

theorem eq_of_jobId {a b : QueuedJobView} (ha : a ∈ queued) (hb : b ∈ queued) (h : a.jobId = b.jobId) : a = b :=
  List.inj_on_of_nodup_map hids ha hb h

theorem backlog_nodup (task : Text) : (backlog number loads live queued task).Nodup :=
  (backlog_perm task).nodup_iff.mpr (((hids.of_map _).filter _).filter _)

theorem applyTo_repriced {load : TaskLoad} {i : Nat} {j : QueuedJobView} (hload : loads j.taskId = some load)
    (hplace : (backlog number loads live queued j.taskId)[i]? = some j) :
    applyTo (decayedPriorities number loads live queued) j = { j with priority := some (load.priceAt i : ℚ) } := by
  have hj := (mem_backlog.mp (List.mem_of_getElem? hplace)).1
  have hchange : ∀ change ∈ decayedPriorities number loads live queued, change.jobId = j.jobId →
      some (load.priceAt i : ℚ) ≠ j.priority ∧ change.after = load.priceAt i := by
    intro change hmem hid
    obtain ⟨task, load', i', j', hload', hplace', hne, rfl⟩ := mem_decayedPriorities.mp hmem
    obtain ⟨hj', -, htask⟩ := mem_backlog.mp (List.mem_of_getElem? hplace')
    obtain rfl := eq_of_jobId hids hj' hj hid
    subst htask
    obtain rfl : load' = load := Option.some.inj (hload'.symm.trans hload)
    have hsame : i' = i := (List.getElem?_inj (List.getElem?_eq_some_iff.mp hplace').1 (backlog_nodup hids _)).mp
      (hplace'.trans hplace.symm)
    subst hsame
    exact ⟨hne, rfl⟩
  rw [applyTo]
  split
  · next change hfind =>
    have hmem := List.mem_of_find?_eq_some hfind
    have hid : change.jobId = j.jobId := by simpa using List.find?_some hfind
    rw [(hchange change hmem hid).2]
  · next hnone =>
    have hkept : some (load.priceAt i : ℚ) = j.priority := by
      by_contra hne
      have hmem := mem_decayedPriorities.mpr ⟨j.taskId, load, i, j, hload, hplace, hne, rfl⟩
      exact absurd rfl (of_decide_eq_false (Bool.eq_false_iff.mpr (List.find?_eq_none.mp hnone _ hmem)))
    rw [hkept]

theorem applyTo_untouched {j : QueuedJobView} (hj : j ∈ queued) (hrepriced : isRepriced loads live j = false) :
    applyTo (decayedPriorities number loads live queued) j = j := by
  rw [applyTo]
  split
  · next change hfind =>
    obtain ⟨task, load, i, j', -, hplace, -, rfl⟩ := mem_decayedPriorities.mp (List.mem_of_find?_eq_some hfind)
    obtain ⟨hj', hrepriced', -⟩ := mem_backlog.mp (List.mem_of_getElem? hplace)
    have hid : j'.jobId = j.jobId := by simpa using List.find?_some hfind
    rw [eq_of_jobId hids hj' hj hid, hrepriced] at hrepriced'
    cases hrepriced'
  · rfl

omit hids in
theorem applyTo_fields (changes : List Reprice) (j : QueuedJobView) : (applyTo changes j).jobId = j.jobId ∧
    (applyTo changes j).taskId = j.taskId ∧ (applyTo changes j).invocationId = j.invocationId := by
  rw [applyTo]
  split <;> exact ⟨rfl, rfl, rfl⟩

theorem isRepriced_applyTo {j : QueuedJobView} (hj : j ∈ queued) :
    isRepriced loads live (applyTo (decayedPriorities number loads live queued) j) = isRepriced loads live j := by
  cases hrepriced : isRepriced loads live j with
  | false => rw [applyTo_untouched hids hj hrepriced, hrepriced]
  | true =>
    obtain ⟨load, i, hload, hplace⟩ := @exists_place number _ _ _ _ hj hrepriced
    rw [applyTo_repriced hids hload hplace]
    have hprice : (load.priceAt i : ℚ) ≠ 0 := Int.cast_ne_zero.mpr (load.priceAt_pos i).ne'
    simp only [isRepriced, Bool.and_eq_true, decide_eq_true_eq] at hrepriced ⊢
    exact ⟨⟨hprice, hrepriced.1.2⟩, hrepriced.2⟩

/-- The prices of a task's backlog after the pass: those at the places of before it. -/
theorem backlog_prices {task : Text} {load : TaskLoad} (hload : loads task = some load) :
    (backlog number loads live (queued.map (applyTo (decayedPriorities number loads live queued))) task).map QueuedJobView.price =
      (List.range (backlog number loads live queued task).length).map fun i => (load.priceAt i : ℚ) := by
  have hperm : (backlog number loads live (queued.map (applyTo (decayedPriorities number loads live queued))) task).Perm
      ((backlog number loads live queued task).map (applyTo (decayedPriorities number loads live queued))) := by
    refine (backlog_perm task).trans (List.Perm.trans (List.Perm.of_eq ?_) ((backlog_perm task).symm.map _))
    have hrepriced : queued.filter (isRepriced loads live ∘ applyTo (decayedPriorities number loads live queued)) =
        queued.filter (isRepriced loads live) := List.filter_congr fun j hj => isRepriced_applyTo hids hj
    have htask : (fun j : QueuedJobView => decide (j.taskId = task)) ∘ applyTo (decayedPriorities number loads live queued) =
        fun j => decide (j.taskId = task) := funext fun j => by
      rw [Function.comp, (applyTo_fields _ j).2.1]
    rw [List.filter_map, List.filter_map, hrepriced, htask]
  have hplaces : ((backlog number loads live queued task).map (applyTo (decayedPriorities number loads live queued))).map
      QueuedJobView.price = (List.range (backlog number loads live queued task).length).map fun i => (load.priceAt i : ℚ) := by
    refine List.ext_getElem? fun i => ?_
    rw [List.getElem?_map, List.getElem?_map, List.getElem?_map]
    cases hplace : (backlog number loads live queued task)[i]? with
    | none =>
      have hi := List.getElem?_eq_none_iff.mp hplace
      rw [List.getElem?_eq_none (by rwa [List.length_range])]
      rfl
    | some j =>
      obtain ⟨-, -, rfl⟩ := mem_backlog.mp (List.mem_of_getElem? hplace)
      rw [List.getElem?_range (List.getElem?_eq_some_iff.mp hplace).1, Option.map_some, applyTo_repriced hids hload hplace]
      rfl
  rw [← hplaces]
  refine (hperm.map _).eq_of_pairwise' (backlog_sorted task) ?_
  rw [hplaces]
  refine List.pairwise_map.mpr (List.pairwise_lt_range.imp fun hij => ?_)
  exact Int.cast_le.mpr (load.priceAt_mono hij.le)

/-- A second pass finds nothing to do. -/
theorem decayedPriorities_again :
    decayedPriorities number loads live (queued.map (applyTo (decayedPriorities number loads live queued))) = [] := by
  refine List.eq_nil_iff_forall_not_mem.mpr fun r hr => ?_
  obtain ⟨task, load, i, j, hload, hplace, hne, -⟩ := mem_decayedPriorities.mp hr
  have hprice : j.price = load.priceAt i := by
    have hget := congrArg (fun l : List ℚ => l[i]?) (@backlog_prices number loads live queued hids task load hload)
    rw [List.getElem?_map, hplace, Option.map_some, List.getElem?_map] at hget
    obtain ⟨i', hi', hsame⟩ := Option.map_eq_some_iff.mp hget.symm
    rw [List.getElem?_eq_some_iff] at hi'
    obtain ⟨_, rfl⟩ := hi'
    rw [← hsame, List.getElem_range]
  have hrepriced := (mem_backlog.mp (List.mem_of_getElem? hplace)).2.1
  cases hpriority : j.priority with
  | none =>
    rw [isRepriced, QueuedJobView.price, hpriority] at hrepriced
    simp at hrepriced
  | some p =>
    rw [QueuedJobView.price, hpriority, Option.getD_some] at hprice
    exact hne (hpriority ▸ congrArg some hprice.symm)

/-- Of two jobs that the pass may reprice, the one that came first does not come to stand behind. -/
theorem applyTo_keeps_order {a b : QueuedJobView} (ha : a ∈ queued) (hb : b ∈ queued)
    (hrepriced : isRepriced loads live a = true) (hrepriced' : isRepriced loads live b = true)
    (htask : a.taskId = b.taskId) (h : a.price < b.price) :
    (applyTo (decayedPriorities number loads live queued) a).price ≤
      (applyTo (decayedPriorities number loads live queued) b).price := by
  obtain ⟨load, i, hload, hplace⟩ := @exists_place number _ _ _ _ ha hrepriced
  obtain ⟨load', i', hload', hplace'⟩ := @exists_place number _ _ _ _ hb hrepriced'
  obtain rfl : load = load' := Option.some.inj (hload.symm.trans (htask ▸ hload'))
  rw [applyTo_repriced hids hload hplace, applyTo_repriced hids hload' hplace']
  refine Int.cast_le.mpr (load.priceAt_mono (Nat.le_of_not_lt fun hlt => ?_))
  rw [← htask] at hplace'
  obtain ⟨hi, hget⟩ := List.getElem?_eq_some_iff.mp hplace
  obtain ⟨hi', hget'⟩ := List.getElem?_eq_some_iff.mp hplace'
  have hsorted := List.pairwise_iff_getElem.mp (List.pairwise_map.mp (@backlog_sorted number loads live queued a.taskId)) i' i hi' hi hlt
  rw [hget, hget'] at hsorted
  exact absurd h (not_lt_of_ge hsorted)

end Applied

end Pass

namespace Sample

def idle : Text → Option TaskLoad := fun _ => some ⟨0, 0, 0⟩

/-- A live job that was queued behind a fan-out, and one whose run was superseded. -/
def withGhost : List QueuedJobView := [⟨[1], [7], [1], some 9012⟩, ⟨[2], [7], [2], some 6007⟩]

end Sample

theorem Sample.priceAt_idle : TaskLoad.priceAt ⟨0, 0, 0⟩ 0 = 6000 := by
  have hrank : (0 : ℚ) + ((0 : ℕ) : ℚ) + 1 = 1 := by norm_num
  rw [TaskLoad.priceAt, hrank]
  decide

end Haive.Scheduling

import Mathlib.Algebra.Order.Floor.Ring
import Mathlib.Data.Rat.Floor
import Mathlib.Data.List.Perm.Basic
import Haive.Lib.Runs

/-!
# Bounded concurrency

The limiter of `shared/src/utils/bounded-concurrency.ts`: at most so many tasks at once, the rest in a queue.
One event is one call of `run` or one microtask. A task that throws before its first await is invoked and
settles in the next event, and a task that calls `run` again does so between the two.

Every event keeps the limiter in order (`Ordered`): the slots are counted right, the tasks start as they were
submitted, and each caller is given what its own task came to.
-/

namespace Haive.Scheduling

open Lib (runs)

/-! ## The limiter -/

inductive Limit
  | finite (x : ℚ)
  | infinity
  | negInfinity

/-- `Math.max(1, Math.floor(limit))`; no number where there is no bound. -/
def Limit.slots : Limit → Option Nat
  | finite x => some (max 1 ⌊x⌋).toNat
  | infinity => none
  | negInfinity => some 1

theorem Limit.slots_pos {limit : Limit} {most : Nat} (h : limit.slots = some most) : 1 ≤ most := by
  cases limit with
  | finite x =>
    cases h
    have hpos : (1 : ℤ) ≤ max 1 ⌊x⌋ := le_max_left _ _
    omega
  | infinity => cases h
  | negInfinity =>
    cases h
    exact Nat.le_refl 1

/-- Tasks are numbered as they are submitted. Besides `active` and `queue` the state has the microtasks that
are due: those that invoke a task, in the order they were made, those that tell a settled task's caller, and
those that free its slot. -/
structure Limiter (R : Type) where
  submitted : Nat
  active : Nat
  queue : List Nat
  scheduled : List Nat
  started : List Nat
  running : List Nat
  settled : List Nat
  reported : List Nat
  released : List Nat
  outcome : Nat → Option R
  caller : Nat → Option R

def createBoundedConcurrency (R : Type) : Limiter R := ⟨0, 0, [], [], [], [], [], [], [], fun _ => none, fun _ => none⟩

inductive Event (R : Type)
  | submit
  | invoke
  | settle (task : Nat) (r : R)
  | report (task : Nat)
  | release (task : Nat)

section Step

variable {R : Type} (limit : Limit)

/-- `active >= max`. -/
def isFull (active : Nat) : Bool :=
  match limit.slots with
  | none => false
  | some most => most ≤ active

def pump (s : Limiter R) : Limiter R :=
  if isFull limit s.active then s
  else
    match s.queue with
    | [] => s
    | start :: rest => { s with queue := rest, active := s.active + 1, scheduled := s.scheduled ++ [start] }

/-- A call of `run`. -/
def submit (s : Limiter R) : Limiter R :=
  pump limit { s with queue := s.queue ++ [s.submitted], submitted := s.submitted + 1 }

def step (s : Limiter R) : Event R → Option (Limiter R)
  | .submit => some (submit limit s)
  | .invoke =>
    match s.scheduled with
    | [] => none
    | task :: rest => some { s with scheduled := rest, running := task :: s.running, started := s.started ++ [task] }
  | .settle task r =>
    if task ∈ s.running then
      some { s with
        running := s.running.erase task
        settled := task :: s.settled
        outcome := fun t => if t = task then some r else s.outcome t }
    else none
  | .report task =>
    if task ∈ s.settled then
      some { s with
        settled := s.settled.erase task
        reported := task :: s.reported
        caller := fun t => if t = task then s.outcome task else s.caller t }
    else none
  | .release task =>
    if task ∈ s.reported then
      some (pump limit { s with
        reported := s.reported.erase task
        released := task :: s.released
        active := s.active - 1 })
    else none

end Step

/-! ## What every event keeps -/

structure Ordered {R : Type} (limit : Limit) (s : Limiter R) : Prop where
  slots : s.active = s.scheduled.length + s.running.length + s.settled.length + s.reported.length
  capped : ∀ most, limit.slots = some most → s.active ≤ most
  waiting : s.queue ≠ [] → limit.slots = some s.active
  order : s.started ++ s.scheduled ++ s.queue = List.range s.submitted
  parts : s.started.Perm (s.running ++ (s.settled ++ (s.reported ++ s.released)))
  outcomes : ∀ task, (s.outcome task).isSome = true ↔ task ∈ s.settled ++ (s.reported ++ s.released)
  callers : ∀ task, s.caller task = if task ∈ s.reported ++ s.released then s.outcome task else none

section Kept

variable {R : Type} {limit : Limit} {s s' : Limiter R}

theorem ordered_create : Ordered limit (createBoundedConcurrency R) where
  slots := rfl
  capped _ _ := Nat.zero_le _
  waiting h := absurd rfl h
  order := rfl
  parts := List.Perm.refl _
  outcomes _ := by simp [createBoundedConcurrency]
  callers _ := by simp [createBoundedConcurrency]

theorem isFull_iff {active : Nat} : isFull limit active = true ↔ ∃ most, limit.slots = some most ∧ most ≤ active := by
  rw [isFull]
  cases limit.slots <;> simp

/-- A free slot takes the first of the queue. What `pump` is called on has one task more in the queue or one
slot less in use than a limiter in order. -/
theorem pump_ordered (slots : s.active = s.scheduled.length + s.running.length + s.settled.length + s.reported.length)
    (capped : ∀ most, limit.slots = some most → s.active ≤ most)
    (room : limit.slots = some s.active ∨ limit.slots = some (s.active + 1) ∨ s.queue.length ≤ 1)
    (order : s.started ++ s.scheduled ++ s.queue = List.range s.submitted)
    (parts : s.started.Perm (s.running ++ (s.settled ++ (s.reported ++ s.released))))
    (outcomes : ∀ task, (s.outcome task).isSome = true ↔ task ∈ s.settled ++ (s.reported ++ s.released))
    (callers : ∀ task, s.caller task = if task ∈ s.reported ++ s.released then s.outcome task else none) :
    Ordered limit (pump limit s) := by
  rw [pump]
  split
  · next hfull =>
    obtain ⟨most, hmost, hle⟩ := isFull_iff.mp hfull
    have hsame : most = s.active := Nat.le_antisymm hle (capped most hmost)
    exact ⟨slots, capped, fun _ => hsame ▸ hmost, order, parts, outcomes, callers⟩
  · next hfull =>
    have hfree : ∀ most, limit.slots = some most → s.active < most := fun most hmost =>
      Nat.lt_of_not_le fun hle => hfull (isFull_iff.mpr ⟨most, hmost, hle⟩)
    split
    · next hqueue => exact ⟨slots, capped, fun hne => absurd hqueue hne, order, parts, outcomes, callers⟩
    · next start rest hqueue =>
      rw [hqueue] at order room
      refine ⟨?_, hfree, fun hne => ?_, ?_, parts, outcomes, callers⟩
      · dsimp only
        rw [List.length_append, List.length_singleton]
        omega
      · rcases room with hslots | hslots | hlength
        · exact absurd (hfree _ hslots) (Nat.lt_irrefl _)
        · exact hslots
        · exact absurd (List.eq_nil_of_length_eq_zero (Nat.le_zero.mp (Nat.le_of_succ_le_succ hlength))) hne
      · rw [← order]
        simp only [List.append_assoc, List.singleton_append]

theorem step_ordered (h : Ordered limit s) {event : Event R} (hstep : step limit s event = some s') : Ordered limit s' := by
  have hnodup : (s.running ++ (s.settled ++ (s.reported ++ s.released))).Nodup := by
    refine h.parts.nodup_iff.mp (List.Nodup.sublist ?_ (List.nodup_range (n := s.submitted)))
    rw [← h.order, List.append_assoc]
    exact List.sublist_append_left _ _
  cases event with
  | submit =>
    cases hstep
    refine pump_ordered h.slots h.capped ?_ ?_ h.parts h.outcomes h.callers
    · by_cases hqueue : s.queue = []
      · exact .inr (.inr (by rw [hqueue]; exact Nat.le_refl 1))
      · exact .inl (h.waiting hqueue)
    · dsimp only
      rw [List.range_succ, ← h.order, List.append_assoc _ _ [s.submitted]]
  | invoke =>
    rw [step] at hstep
    split at hstep
    · cases hstep
    · next task rest hscheduled =>
      cases hstep
      have horder := h.order
      have hslots := h.slots
      rw [hscheduled] at horder hslots
      refine ⟨?_, h.capped, h.waiting, ?_, ?_, h.outcomes, h.callers⟩
      · simp only [List.length_cons] at hslots ⊢
        omega
      · rw [← horder]
        simp only [List.append_assoc, List.cons_append, List.nil_append]
      · exact (@List.perm_append_comm _ s.started [task]).trans (h.parts.cons task)
  | settle task r =>
    rw [step] at hstep
    split at hstep
    · next hmem =>
      cases hstep
      have herase := List.perm_cons_erase hmem
      have hfresh : task ∉ s.settled ++ (s.reported ++ s.released) := fun hlater =>
        (List.nodup_append.mp hnodup).2.2 task hmem task hlater rfl
      refine ⟨?_, h.capped, h.waiting, h.order, ?_, fun t => ?_, fun t => ?_⟩
      · have hlength := herase.length_eq
        have hslots := h.slots
        simp only [List.length_cons] at hlength ⊢
        omega
      · refine h.parts.trans ((herase.append_right _).trans ?_)
        exact List.perm_middle.symm
      · dsimp only
        by_cases ht : t = task
        · simp [ht]
        · rw [if_neg ht, h.outcomes, List.cons_append, List.mem_cons]
          exact (or_iff_right ht).symm
      · dsimp only
        rw [h.callers]
        by_cases ht : t = task
        · have hearlier : task ∉ s.reported ++ s.released := fun hmem => hfresh (List.mem_append_right _ hmem)
          rw [ht, if_neg hearlier, if_neg hearlier]
        · rw [if_neg ht]
    · cases hstep
  | report task =>
    rw [step] at hstep
    split at hstep
    · next hmem =>
      cases hstep
      have herase := List.perm_cons_erase hmem
      refine ⟨?_, h.capped, h.waiting, h.order, ?_, fun t => ?_, fun t => ?_⟩
      · have hlength := herase.length_eq
        have hslots := h.slots
        simp only [List.length_cons] at hlength ⊢
        omega
      · refine h.parts.trans (List.Perm.append_left _ ((herase.append_right _).trans ?_))
        exact List.perm_middle.symm
      · dsimp only
        rw [h.outcomes, (herase.append_right _).mem_iff, List.cons_append, List.mem_cons]
        simp only [List.cons_append, List.mem_append, List.mem_cons]
        exact or_left_comm
      · dsimp only
        by_cases ht : t = task
        · rw [if_pos ht, ht]
          exact (if_pos (List.mem_append_left _ List.mem_cons_self)).symm
        · rw [if_neg ht, h.callers]
          refine if_congr ?_ rfl rfl
          rw [List.cons_append, List.mem_cons]
          exact (or_iff_right ht).symm
    · cases hstep
  | release task =>
    rw [step] at hstep
    split at hstep
    · next hmem =>
      cases hstep
      have herase := List.perm_cons_erase hmem
      have hmoved : (s.reported ++ s.released).Perm (s.reported.erase task ++ task :: s.released) :=
        (herase.append_right _).trans List.perm_middle.symm
      have hlength := herase.length_eq
      have hslots := h.slots
      rw [List.length_cons] at hlength
      refine pump_ordered ?_ (fun most hmost => (Nat.sub_le _ _).trans (h.capped most hmost)) ?_ h.order ?_ (fun t => ?_)
        fun t => ?_
      · dsimp only
        omega
      · dsimp only
        by_cases hqueue : s.queue = []
        · exact .inr (.inr (by rw [hqueue]; exact Nat.zero_le 1))
        · exact .inr (.inl (by rw [h.waiting hqueue, Nat.sub_add_cancel (by omega)]))
      · exact h.parts.trans ((hmoved.append_left _).append_left _)
      · exact (h.outcomes t).trans (hmoved.append_left _).mem_iff
      · dsimp only
        rw [h.callers]
        simp only [hmoved.mem_iff]
    · cases hstep

theorem runs_ordered {events : List (Event R)} (h : runs (step limit) (createBoundedConcurrency R) events = some s) :
    Ordered limit s := Lib.runs_keep (fun _ _ _ h hstep => step_ordered h hstep) ordered_create h

/-- What a caller was given is not taken back. -/
theorem caller_kept (h : Ordered limit s) {event : Event R} (hstep : step limit s event = some s') {task : Nat} {r : R}
    (hgiven : s.caller task = some r) : s'.caller task = some r := by
  have hpump : ∀ s : Limiter R, (pump limit s).caller = s.caller := by
    intro s
    rw [pump]
    split
    · rfl
    · split <;> rfl
  cases event with
  | submit =>
    cases hstep
    rw [submit, hpump]
    exact hgiven
  | invoke =>
    rw [step] at hstep
    split at hstep
    · cases hstep
    · cases hstep
      exact hgiven
  | settle t r' =>
    rw [step] at hstep
    split at hstep
    · cases hstep
      exact hgiven
    · cases hstep
  | report t =>
    rw [step] at hstep
    split at hstep
    · cases hstep
      dsimp only
      split
      · next hsame =>
        rw [← hgiven, h.callers, hsame]
        refine (if_pos ?_).symm
        rw [h.callers] at hgiven
        by_cases hmem : task ∈ s.reported ++ s.released
        · exact hsame ▸ hmem
        · rw [if_neg hmem] at hgiven
          cases hgiven
      · exact hgiven
    · cases hstep
  | release t =>
    rw [step] at hstep
    split at hstep
    · cases hstep
      rw [hpump]
      exact hgiven
    · cases hstep

def Idle (s : Limiter R) : Prop := s.scheduled = [] ∧ s.running = [] ∧ s.settled = [] ∧ s.reported = []

/-- Where no task has a slot none is waiting, and every caller was given what its task came to. -/
theorem Ordered.idle (h : Ordered limit s) (hidle : Idle s) :
    s.queue = [] ∧ ∀ task < s.submitted, ∃ r, s.outcome task = some r ∧ s.caller task = some r := by
  obtain ⟨hscheduled, hrunning, hsettled, hreported⟩ := hidle
  have hactive : s.active = 0 := by
    rw [h.slots, hscheduled, hrunning, hsettled, hreported]
    rfl
  have hqueue : s.queue = [] := by
    by_contra hne
    have hpos := Limit.slots_pos (h.waiting hne)
    omega
  refine ⟨hqueue, fun task htask => ?_⟩
  have hstarted : task ∈ s.started := by
    have hmem := List.mem_range.mpr htask
    rwa [← h.order, hscheduled, hqueue, List.append_nil, List.append_nil] at hmem
  have hreleased := h.parts.subset hstarted
  rw [hrunning, hsettled, List.nil_append, List.nil_append] at hreleased
  obtain ⟨r, hr⟩ := Option.isSome_iff_exists.mp ((h.outcomes task).mpr (List.mem_append_right _ hreleased))
  exact ⟨r, hr, by rw [h.callers, if_pos hreleased, hr]⟩

end Kept

/-! ## What the limiter promises -/

/-- At most so many tasks run, they start in the order they were submitted and each at most once, a caller is
given what its own task came to, a task waits only while every slot is in use, and none is left over. -/
structure Promised {R : Type} (limit : Limit) (s : Limiter R) : Prop where
  running : ∀ most, limit.slots = some most → s.running.length ≤ s.active ∧ s.active ≤ most
  started : s.started <+: List.range s.submitted
  own : ∀ task r, s.caller task = some r → s.outcome task = some r
  waiting : ∀ task < s.submitted, task ∈ s.started ∨ task ∈ s.scheduled ∨ task ∈ s.queue ∧ limit.slots = some s.active
  quiet : s.scheduled = [] → s.settled = [] → s.reported = [] → s.active = s.running.length
  idle : Idle s → ∀ task < s.submitted, ∃ r, s.outcome task = some r ∧ s.caller task = some r

theorem Ordered.promised {R : Type} {limit : Limit} {s : Limiter R} (h : Ordered limit s) : Promised limit s where
  running most hmost := ⟨by rw [h.slots]; omega, h.capped most hmost⟩
  started := by
    rw [← h.order, List.append_assoc]
    exact List.prefix_append _ _
  own task r hgiven := by
    rw [h.callers] at hgiven
    split at hgiven
    · exact hgiven
    · cases hgiven
  waiting task htask := by
    have hmem := List.mem_range.mpr htask
    rw [← h.order, List.mem_append, List.mem_append, or_assoc] at hmem
    exact hmem.imp_right (Or.imp_right fun hqueue => ⟨hqueue, h.waiting (List.ne_nil_of_mem hqueue)⟩)
  quiet hscheduled hsettled hreported := by
    rw [h.slots, hscheduled, hsettled, hreported]
    simp
  idle hidle := (h.idle hidle).2

end Haive.Scheduling

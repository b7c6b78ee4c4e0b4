import Haive.Steps.Ownership

/-!
# The times of a step row

`packages/worker/src/queues/cli-park-timing.ts` with `computeStepContribution` of
`packages/shared/src/step-engine/timing.ts`, the pickup of `advanceStep`, the start and
the end of a run in `queues/cli-exec/handlers.ts` and the boot reconcile
(`recoverParkedStep`), over one `task_steps` row and its `cli_invocations`.

Every write is one action at the time the clock shows, and the clock ticks between
any two of them. `booked` is no column of the code: it lists the stretches of time the
folds have credited as idle. `booked_once` says that no stretch is booked twice, that
idle time never exceeds the time since the start, and that work and idle make up the
span of the step, in every state of a run in which

* the boot reconcile finds no unmarked row with a wait booked after its newest run's
  start, where it would book that wait again, and
* no run that starts closes the wait of a row that has already ended.

Times are microseconds, as the database keeps them; `new Date()` is a whole
millisecond. Forms, resets and the runtime-slot park's own writes are left out: a row
parked before its run is a start of the runs below.
-/

namespace Haive.Steps

open Lib

namespace Timing

/-! ## timing.ts -/

/-- The columns of the row that hold its times; `TaskTimingStep`. -/
structure StepTimes where
  status : StepStatus
  startedAt : Option Nat
  endedAt : Option Nat
  idleMs : Nat
  userActiveMs : Nat
  waitingStartedAt : Option Nat
  carriedWorkMs : Nat
  carriedIdleMs : Nat
  carriedUserActiveMs : Nat
  deriving DecidableEq, Repr

structure TaskTiming where
  workMs : Nat
  idleMs : Nat
  userActiveMs : Nat
  deriving DecidableEq, Repr

/-- The milliseconds of a time. -/
def toMs (t : Nat) : Nat := t / 1000

/-- `openWait` of `computeStepContribution`. -/
def openWait (step : StepTimes) (nowMs : Nat) : Nat :=
  match step.endedAt, step.waitingStartedAt with
  | none, some w =>
    if step.status = .waitingForm ∨ step.status = .waitingCli then nowMs - toMs w else 0
  | _, _ => 0

def computeStepContribution (step : StepTimes) (nowMs : Nat) (foldSit : Bool) : TaskTiming :=
  match step.startedAt with
  | none =>
    let openPark :=
      match step.endedAt, step.waitingStartedAt with
      | none, some w => nowMs - toMs w
      | _, _ => 0
    ⟨0, step.idleMs + openPark, step.userActiveMs⟩
  | some start =>
    let end_ := (step.endedAt.map toMs).getD nowMs
    let sit :=
      match step.endedAt with
      | some ended => if foldSit ∧ step.status = .failed then nowMs - toMs ended else 0
      | none => 0
    ⟨end_ - toMs start - step.idleMs - openWait step nowMs,
      step.idleMs + openWait step nowMs + sit, step.userActiveMs⟩

/-! ## cli-park-timing.ts -/

/-- A `cli_invocations` row of the step with where its job stands: `queued`, its start
stamped but the park not yet folded, executing, its end stamped but the park not yet
marked, or `gone`. -/
inductive JobStage
  | queued | starting | executing | ending | gone
  deriving DecidableEq, Repr

structure CliRun where
  startedAt : Option Nat
  endedAt : Option Nat
  superseded : Bool
  stage : JobStage
  deriving DecidableEq, Repr

/-- The run is live: `NOT EXISTS` of the park guards. -/
def CliRun.running (r : CliRun) : Bool := r.startedAt.isSome && r.endedAt.isNone && !r.superseded

def int4Max : Nat := 2147483647

/-- `foldPark` of a row that holds a marker. -/
def foldPark (now w : Nat) (step : StepTimes) : StepTimes :=
  let parkMs := (now - w) / 1000
  match step.startedAt with
  | none =>
    { step with carriedIdleMs := step.carriedIdleMs + min (int4Max - step.carriedIdleMs) parkMs,
                waitingStartedAt := none }
  | some _ =>
    { step with idleMs := step.idleMs + min (int4Max - step.idleMs) parkMs, waitingStartedAt := none }

def markCliParkBegin (now : Nat) (runs : List CliRun) (step : StepTimes) : StepTimes :=
  if step.status = .waitingCli ∧ step.waitingStartedAt = none ∧ runs.any CliRun.running = false then
    { step with waitingStartedAt := some now }
  else step

def newestStart (runs : List CliRun) : Option Nat :=
  (runs.filterMap fun r => if r.superseded then none else r.startedAt).max?

/-- `greatest` of two columns: a null counts for nothing. -/
def greatest : Option Nat → Option Nat → Option Nat
  | some a, some b => some (max a b)
  | some a, none => some a
  | none, b => b

/-- `gapStart` of `foldOrphanedCliParkOnBoot`. -/
def gapStart (now : Nat) (runs : List CliRun) (step : StepTimes) : Nat :=
  match step.waitingStartedAt with
  | some w => w
  | none => (greatest step.startedAt (newestStart runs)).getD now

/-- The guard of `foldOrphanedCliParkOnBoot`. -/
def orphaned (runs : List CliRun) (step : StepTimes) : Bool :=
  step.status = .waitingCli && !runs.any CliRun.running

/-- `foldOrphanedCliParkOnBoot` of a row the guard lets through. -/
def foldOrphanedCliParkOnBoot (now : Nat) (runs : List CliRun) (step : StepTimes) : StepTimes :=
  { step with
    idleMs := step.idleMs + min (int4Max - step.idleMs) ((now - gapStart now runs step) / 1000)
    waitingStartedAt := some now }

/-! ## The worker -/

/-- Where the worker stands: no pass on the step; a pass that read the row; one that folded
a pending row's park; one at work on the row; one that left it `waiting_cli` and has yet to
mark the park; no worker; a booting one that has ended the orphaned runs. -/
inductive Worker
  | idle | reading | folded | working | leaving | down | reconciled
  deriving DecidableEq, Repr

def Worker.isUp : Worker → Bool
  | .down | .reconciled => false
  | _ => true

structure State where
  now : Nat
  row : StepTimes
  runs : List CliRun
  worker : Worker
  /-- The stretches of time booked as idle. -/
  booked : List (Nat × Nat)
  deriving DecidableEq, Repr

/-- `new Date()`. -/
def jsDate (now : Nat) : Nat := now / 1000 * 1000

/-- A stretch that has a length is booked. -/
def book (booked : List (Nat × Nat)) (a b : Nat) : List (Nat × Nat) :=
  if a < b then booked ++ [(a, b)] else booked

def foldCliParkOnResume (s : State) : State :=
  match s.row.waitingStartedAt with
  | none => s
  | some w => { s with row := foldPark s.now w s.row, booked := book s.booked w s.now }

/-- One write of the run's job, which the job makes from the stages `from_`. -/
def jobStep (s : State) (i : Nat) (from_ : CliRun → Bool) (next : CliRun → CliRun) : Option State :=
  match s.runs[i]? with
  | some r =>
    if s.worker.isUp && from_ r then some { s with runs := s.runs.set i (next r) } else none
  | none => none

inductive Action
  /-- Time passes. -/
  | tick (d : Nat)
  /-- `advanceStep` reads a row that has not ended. -/
  | pickUp
  /-- It folds the park of the row it read. -/
  | foldPickedUp
  /-- It opens the pending row, as `running` or as `skipped`. -/
  | openRow (skip : Bool)
  /-- It records a run that the queue will start. -/
  | dispatch
  | supersede (i : Nat)
  /-- A pass answers `waiting_cli`, and the row says so. -/
  | toWaitingCli
  /-- The park of a step left `waiting_cli` begins. -/
  | markLeft
  | finish (failed : Bool)
  /-- The pass ends without a write. -/
  | release
  /-- The run's job stamps its start, folds the park, stamps its end, marks the park. -/
  | startRun (i : Nat)
  | foldStarted (i : Nat)
  | endRun (i : Nat)
  | markEnded (i : Nat)
  | crash
  /-- Boot ends the runs that had started, and those of `lost` that no job owes a run. -/
  | endOrphans (lost : List Nat)
  /-- Boot folds the orphaned park. -/
  | foldOrphaned
  deriving DecidableEq, Repr

def orphan (now : Nat) (lost : List Nat) (i : Nat) (r : CliRun) : CliRun :=
  if r.endedAt.isNone && !r.superseded && (r.startedAt.isSome || lost.contains i) then
    { r with endedAt := some (jsDate now) }
  else r

/-- One atomic write, or a tick of the clock. -/
def step (s : State) : Action → Option State
  | .tick d => some { s with now := s.now + d }
  | .pickUp =>
    if s.worker ≠ .idle then none
    else match s.row.status with
      | .pending | .waitingCli => some { s with worker := .reading }
      | .running => some { s with worker := .working }
      | _ => none
  | .foldPickedUp =>
    if s.worker ≠ .reading then none
    else some { foldCliParkOnResume s with
                  worker := if s.row.status = .pending then .folded else .working }
  | .openRow skip =>
    if s.worker ≠ .folded then none
    else if s.row.status ≠ .pending then some { s with worker := .idle }
    else if skip then
      some { s with row := { s.row with status := .skipped, endedAt := some (jsDate s.now) }, worker := .idle }
    else
      some { s with
        row := { s.row with status := .running, startedAt := some (s.row.startedAt.getD s.now) }
        worker := .working }
  | .dispatch =>
    if s.worker ≠ .working then none
    else some { s with runs := s.runs ++ [⟨none, none, false, .queued⟩] }
  | .supersede i => if s.worker ≠ .working then none
    else some { s with runs := s.runs.modify i fun r => { r with superseded := true } }
  | .toWaitingCli =>
    if s.worker ≠ .working then none
    else some { s with
      row := if s.row.status = .running then { s.row with status := .waitingCli } else s.row
      worker := .leaving }
  | .markLeft =>
    if s.worker ≠ .leaving then none
    else some { s with row := markCliParkBegin s.now s.runs s.row, worker := .idle }
  | .finish failed =>
    if s.worker ≠ .working then none
    else if s.row.status ≠ .running ∧ s.row.status ≠ .waitingCli then some { s with worker := .idle }
    else some { s with
      row := { s.row with status := if failed then .failed else .done, endedAt := some (jsDate s.now) }
      worker := .idle }
  | .release => if s.worker = .working then some { s with worker := .idle } else none
  | .startRun i =>
    jobStep s i (fun r => (r.stage = .queued || r.stage = .gone) && r.endedAt.isNone && !r.superseded)
      fun r => { r with startedAt := some (jsDate s.now), stage := .starting }
  | .foldStarted i =>
    (jobStep s i (·.stage = .starting) fun r => { r with stage := .executing }).map foldCliParkOnResume
  | .endRun i =>
    jobStep s i (·.stage = .executing) fun r => { r with endedAt := some (jsDate s.now), stage := .ending }
  | .markEnded i =>
    (jobStep s i (·.stage = .ending) fun r => { r with stage := .gone }).map fun s' =>
      { s' with row := markCliParkBegin s'.now s'.runs s'.row }
  | .crash =>
    some { s with
      worker := .down
      runs := s.runs.map fun r => if r.stage = .queued then r else { r with stage := .gone } }
  | .endOrphans lost =>
    if s.worker ≠ .down then none
    else some { s with runs := s.runs.mapIdx (orphan s.now lost), worker := .reconciled }
  | .foldOrphaned =>
    if s.worker ≠ .reconciled then none
    else if orphaned s.runs s.row then
      some { s with
        row := foldOrphanedCliParkOnBoot s.now s.runs s.row
        booked := book s.booked (gapStart s.now s.runs s.row) s.now
        worker := .idle }
    else some { s with worker := .idle }

/-! ## What every state keeps -/

/-- Idle time never exceeds the time since the start, work and idle make up the span of the
step, and no instant is booked as idle twice. -/
structure BookedOnce (s : State) : Prop where
  idle_le : ∀ t ∈ s.row.startedAt,
    s.row.idleMs + openWait s.row (toMs s.now) ≤ toMs s.now - toMs t
  adds_up : ∀ t ∈ s.row.startedAt,
    (computeStepContribution s.row (toMs s.now) false).workMs +
        (computeStepContribution s.row (toMs s.now) false).idleMs =
      (s.row.endedAt.map toMs).getD (toMs s.now) - toMs t
  once : ∀ τ, (s.booked.filter fun x => x.1 ≤ τ && τ < x.2).length ≤ 1

/-- The steps that book no stretch again: boot re-books nothing where it has to guess the start
of the wait, and no starting run closes the wait of an ended row. -/
def Anchored (s : State) : Action → Prop
  | .foldOrphaned => orphaned s.runs s.row = true → s.row.waitingStartedAt = none →
      ∀ x ∈ s.booked, x.2 ≤ gapStart s.now s.runs s.row
  | .foldStarted _ => s.row.endedAt ≠ none → s.row.waitingStartedAt = none
  | _ => True

/-- `Anchored`, to be computed. -/
def anchored (s : State) : Action → Bool
  | .foldOrphaned => !orphaned s.runs s.row || s.row.waitingStartedAt.isSome ||
      s.booked.all fun x => x.2 ≤ gapStart s.now s.runs s.row
  | .foldStarted _ => s.row.endedAt.isNone || s.row.waitingStartedAt.isNone
  | _ => true

theorem anchored_sound (s : State) (a : Action) (h : anchored s a = true) : Anchored s a := by
  cases a with
  | foldOrphaned =>
    intro ho hw x hx
    simp only [anchored, ho, hw, Bool.not_true, Option.isSome_none, Bool.or_false, Bool.false_or,
      List.all_eq_true, decide_eq_true_eq] at h
    exact h x hx
  | foldStarted =>
    intro he
    rw [anchored, Bool.or_eq_true, Option.isNone_iff_eq_none, Option.isNone_iff_eq_none] at h
    exact h.resolve_left he
  | _ => trivial

/-- A row no pass has opened, parked before its run or not. -/
structure Fresh (s : State) : Prop where
  status : s.row.status = .pending
  started : s.row.startedAt = none
  ended : s.row.endedAt = none
  idle : s.row.idleMs = 0
  marker : ∀ w ∈ s.row.waitingStartedAt, w ≤ s.now
  runs : ∀ r ∈ s.runs, ∀ t ∈ r.startedAt, t ≤ s.now
  worker : s.worker = .idle
  booked : s.booked = []

def State.upto (s : State) : Nat := s.row.waitingStartedAt.getD s.now

/-- The idle time since `t` fits before a booked stretch's end. -/
def Covered (idleMs t : Nat) (booked : List (Nat × Nat)) : Prop :=
  ∃ u, (u = t ∨ ∃ x ∈ booked, x.2 = u) ∧ idleMs * 1000 + t ≤ u

/-- What the writes rely on of one another. -/
structure Sound (s : State) : Prop where
  marker : ∀ w ∈ s.row.waitingStartedAt, w ≤ s.now
  starts : ∀ r ∈ s.runs, ∀ t ∈ r.startedAt, t ≤ s.now
  booked : ∀ x ∈ s.booked, x.1 < x.2 ∧ x.2 ≤ s.upto
  apart : s.booked.Pairwise fun x y => x.2 ≤ y.1
  pending : s.row.status = .pending → s.row.startedAt = none
  opened : s.row.status = .running ∨ s.row.status = .waitingCli → s.row.startedAt ≠ none
  live : s.row.status = .pending ∨ s.row.status = .running ∨ s.row.status = .waitingCli →
    s.row.endedAt = none
  unstarted : s.row.startedAt = none → s.row.idleMs = 0
  started : ∀ t ∈ s.row.startedAt, t ≤ s.upto ∧ Covered s.row.idleMs t s.booked
  ended : ∀ e ∈ s.row.endedAt, e ≤ s.now ∧
    ∀ t ∈ s.row.startedAt, s.row.idleMs + toMs t ≤ toMs e
  reading : s.worker = .reading → s.row.status = .pending ∨ s.row.status = .waitingCli
  folded : s.worker = .folded → s.row.status = .pending ∧ s.row.waitingStartedAt = none

theorem State.upto_of_none {s : State} (h : s.row.waitingStartedAt = none) : s.upto = s.now := by
  rw [State.upto, h]
  rfl

theorem State.upto_of_some {s : State} {w : Nat} (h : s.row.waitingStartedAt = some w) : s.upto = w := by
  rw [State.upto, h]
  rfl

theorem Sound.upto_le {s : State} (h : Sound s) : s.upto ≤ s.now := by
  unfold State.upto
  cases hw : s.row.waitingStartedAt with
  | none => exact Nat.le_refl _
  | some w => exact h.marker w hw

theorem Sound.covered_le {s : State} (h : Sound s) {t : Nat} (ht : t ∈ s.row.startedAt) :
    s.row.idleMs * 1000 + t ≤ s.upto := by
  obtain ⟨hle, u, hu, hfits⟩ := h.started t ht
  rcases hu with rfl | ⟨x, hx, rfl⟩
  · exact hfits.trans hle
  · exact hfits.trans (h.booked x hx).2

theorem Fresh.sound {s : State} (h : Fresh s) : Sound s where
  marker := h.marker
  starts := h.runs
  booked := by simp [h.booked]
  apart := by simp [h.booked]
  pending _ := h.started
  opened hs := by simp [h.status] at hs
  live _ := h.ended
  unstarted _ := h.idle
  started t ht := by simp [h.started] at ht
  ended e he := by simp [h.ended] at he
  reading hw := by simp [h.worker] at hw
  folded hw := by simp [h.worker] at hw

/-! ## Booking -/

theorem mem_book {booked : List (Nat × Nat)} {a b : Nat} {x : Nat × Nat} :
    x ∈ book booked a b ↔ x ∈ booked ∨ (a < b ∧ x = (a, b)) := by
  unfold book
  split <;> simp [*]

theorem pairwise_book {booked : List (Nat × Nat)} {a b : Nat}
    (h : booked.Pairwise fun x y => x.2 ≤ y.1) (ha : ∀ x ∈ booked, x.2 ≤ a) :
    (book booked a b).Pairwise fun x y => x.2 ≤ y.1 := by
  unfold book
  split
  · rw [List.pairwise_append]
    refine ⟨h, List.pairwise_singleton _ _, fun x hx y hy => ?_⟩
    rw [List.mem_singleton] at hy
    rw [hy]
    exact ha x hx
  · exact h

/-- Stretches that follow one another have no instant in common. -/
theorem filter_length_le {booked : List (Nat × Nat)} (h : booked.Pairwise fun x y => x.2 ≤ y.1)
    (τ : Nat) : (booked.filter fun x => x.1 ≤ τ && τ < x.2).length ≤ 1 := by
  induction h with
  | nil => exact Nat.zero_le _
  | @cons x rest hx hrest ih =>
    rw [List.filter_cons]
    split
    · next hin =>
      simp only [Bool.and_eq_true, decide_eq_true_eq] at hin
      have hnone : rest.filter (fun y => y.1 ≤ τ && τ < y.2) = [] := by
        rw [List.filter_eq_nil_iff]
        intro y hy
        have := hx y hy
        simp only [Bool.and_eq_true, decide_eq_true_eq]
        omega
      rw [hnone]
      exact Nat.le_refl _
    · exact ih

theorem min_div_mul_le (c d : Nat) : min c (d / 1000) * 1000 ≤ d :=
  (Nat.mul_le_mul_right 1000 (Nat.min_le_right c _)).trans (Nat.div_mul_le_self d 1000)

/-- A stretch booked from where the booked time ended keeps the idle time covered. -/
theorem Covered.book {idleMs t a b c : Nat} {booked : List (Nat × Nat)} (h : Covered idleMs t booked)
    (ht : t ≤ a) (ha : ∀ x ∈ booked, x.2 ≤ a) (hab : a ≤ b) :
    Covered (idleMs + min c ((b - a) / 1000)) t (book booked a b) := by
  obtain ⟨u, hu, hfits⟩ := h
  have hua : u ≤ a := by
    rcases hu with rfl | ⟨x, hx, rfl⟩
    · exact ht
    · exact ha x hx
  have hadded := min_div_mul_le c (b - a)
  generalize min c ((b - a) / 1000) = added at hadded
  rcases Nat.lt_or_ge a b with hlt | hge
  · exact ⟨b, .inr ⟨(a, b), mem_book.mpr (.inr ⟨hlt, rfl⟩), rfl⟩, by grind⟩
  · refine ⟨u, ?_, by grind⟩
    rcases hu with rfl | ⟨x, hx, rfl⟩
    · exact .inl rfl
    · exact .inr ⟨x, mem_book.mpr (.inl hx), rfl⟩

/-! ## The steps -/

section Steps

variable {s s' : State}

/-- What leaves the row and the bookings alone. -/
theorem Sound.frame (h : Sound s) (hnow : s'.now = s.now) (hrow : s'.row = s.row)
    (hbooked : s'.booked = s.booked) (hruns : ∀ r ∈ s'.runs, ∀ t ∈ r.startedAt, t ≤ s.now)
    (hworker : s'.worker ≠ .reading ∧ s'.worker ≠ .folded ∨ s'.worker = s.worker) : Sound s' := by
  have hupto : s'.upto = s.upto := by rw [State.upto, State.upto, hnow, hrow]
  exact {
    marker := by rw [hrow, hnow]; exact h.marker
    starts := by rw [hnow]; exact hruns
    booked := by rw [hbooked, hupto]; exact h.booked
    apart := by rw [hbooked]; exact h.apart
    pending := by rw [hrow]; exact h.pending
    opened := by rw [hrow]; exact h.opened
    live := by rw [hrow]; exact h.live
    unstarted := by rw [hrow]; exact h.unstarted
    started := by rw [hrow, hbooked, hupto]; exact h.started
    ended := by rw [hrow, hnow]; exact h.ended
    reading := by
      intro hw
      rcases hworker with hne | heq
      · exact absurd hw hne.1
      · rw [hrow]
        exact h.reading (heq ▸ hw)
    folded := by
      intro hw
      rcases hworker with hne | heq
      · exact absurd hw hne.2
      · rw [hrow]
        exact h.folded (heq ▸ hw) }

theorem Sound.tick (h : Sound s) (d : Nat) : Sound { s with now := s.now + d } := by
  have hupto : s.upto ≤ ({ s with now := s.now + d } : State).upto := by
    unfold State.upto
    cases s.row.waitingStartedAt with
    | none => exact Nat.le_add_right _ _
    | some w => exact Nat.le_refl _
  exact { h with
    marker := fun w hw => (h.marker w hw).trans (Nat.le_add_right _ _)
    starts := fun r hr t ht => (h.starts r hr t ht).trans (Nat.le_add_right _ _)
    booked := fun x hx => ⟨(h.booked x hx).1, (h.booked x hx).2.trans hupto⟩
    started := fun t ht => ⟨(h.started t ht).1.trans hupto, (h.started t ht).2⟩
    ended := fun e he => ⟨(h.ended e he).1.trans (Nat.le_add_right _ _), (h.ended e he).2⟩ }

@[simp] theorem foldPark_status (now w : Nat) (r : StepTimes) : (foldPark now w r).status = r.status := by
  unfold foldPark
  split <;> rfl

@[simp] theorem foldPark_startedAt (now w : Nat) (r : StepTimes) :
    (foldPark now w r).startedAt = r.startedAt := by
  unfold foldPark
  split <;> rfl

@[simp] theorem foldPark_endedAt (now w : Nat) (r : StepTimes) :
    (foldPark now w r).endedAt = r.endedAt := by
  unfold foldPark
  split <;> rfl

@[simp] theorem foldPark_marker (now w : Nat) (r : StepTimes) :
    (foldPark now w r).waitingStartedAt = none := by
  unfold foldPark
  split <;> rfl

theorem foldPark_idleMs {now w t : Nat} {r : StepTimes} (h : r.startedAt = some t) :
    (foldPark now w r).idleMs = r.idleMs + min (int4Max - r.idleMs) ((now - w) / 1000) := by
  rw [foldPark, h]

theorem foldPark_idleMs_unstarted {now w : Nat} {r : StepTimes} (h : r.startedAt = none) :
    (foldPark now w r).idleMs = r.idleMs := by
  rw [foldPark, h]

theorem Sound.fold (h : Sound s) (hlive : s.row.endedAt ≠ none → s.row.waitingStartedAt = none) :
    Sound (foldCliParkOnResume s) := by
  unfold foldCliParkOnResume
  cases hw : s.row.waitingStartedAt with
  | none => exact h
  | some w =>
    have hupto : s.upto = w := State.upto_of_some hw
    have hwn : w ≤ s.now := h.marker w hw
    have hbooked : ∀ x ∈ s.booked, x.2 ≤ w := fun x hx => hupto ▸ (h.booked x hx).2
    have hend : s.row.endedAt = none := by
      cases he : s.row.endedAt with
      | none => rfl
      | some e => rw [hlive (by simp [he])] at hw; cases hw
    exact {
      marker := by simp
      starts := h.starts
      booked := by
        intro x hx
        rw [State.upto_of_none (foldPark_marker _ _ _)]
        rcases mem_book.mp hx with hx | ⟨hlt, rfl⟩
        · exact ⟨(h.booked x hx).1, (hbooked x hx).trans hwn⟩
        · exact ⟨hlt, Nat.le_refl _⟩
      apart := pairwise_book h.apart hbooked
      pending := by simpa using h.pending
      opened := by simpa using h.opened
      live := by simpa using h.live
      unstarted := by
        intro hs
        rw [foldPark_startedAt] at hs
        exact (foldPark_idleMs_unstarted hs).trans (h.unstarted hs)
      started := by
        intro t ht
        have ht' : t ∈ s.row.startedAt := by simpa using ht
        have hs := h.started t ht'
        rw [hupto] at hs
        refine ⟨by simpa [State.upto] using hs.1.trans hwn, ?_⟩
        dsimp only
        rw [foldPark_idleMs ht']
        exact hs.2.book hs.1 hbooked hwn
      ended := by simp [hend]
      reading := by simpa using h.reading
      folded := by
        intro hf
        rw [(h.folded hf).2] at hw
        cases hw }

theorem Sound.mark (h : Sound s) :
    Sound { s with row := markCliParkBegin s.now s.runs s.row } := by
  unfold markCliParkBegin
  split
  · next hmark =>
    have hupto : s.upto = s.now := State.upto_of_none hmark.2.1
    exact { h with
      marker := by simp
      booked := fun x hx => by simpa [State.upto] using hupto ▸ h.booked x hx
      started := fun t ht => by simpa [State.upto] using hupto ▸ h.started t ht
      folded := fun hw => absurd (h.folded hw).1 (by simp [hmark.1]) }
  · exact h

theorem toMs_jsDate (n : Nat) : toMs (jsDate n) = toMs n := by
  rw [toMs, jsDate, toMs, Nat.mul_div_cancel _ (by decide)]

theorem jsDate_le (n : Nat) : jsDate n ≤ n := Nat.div_mul_le_self n 1000

/-- Milliseconds of idle time that fit between two times fit between their milliseconds. -/
theorem toMs_fits {idle t u : Nat} (h : idle * 1000 + t ≤ u) : idle + toMs t ≤ toMs u := by
  unfold toMs
  rw [Nat.le_div_iff_mul_le (by decide), Nat.add_mul]
  exact (Nat.add_le_add_left (Nat.div_mul_le_self t 1000) _).trans h

theorem Sound.finish (h : Sound s) {status : StepStatus}
    (hs : status ≠ .pending ∧ status ≠ .running ∧ status ≠ .waitingCli) :
    Sound { s with row := { s.row with status, endedAt := some (jsDate s.now) }, worker := .idle } :=
  { h with
    pending := fun hp => absurd hp hs.1
    opened := fun ho => absurd ho (by simp [hs])
    live := fun hl => absurd hl (by simp [hs])
    ended := by
      intro e he
      cases he
      refine ⟨jsDate_le _, fun t ht => ?_⟩
      rw [toMs_jsDate]
      exact toMs_fits ((h.covered_le ht).trans h.upto_le)
    reading := by simp
    folded := by simp }

theorem Sound.opens (h : Sound s) (hw : s.worker = .folded) :
    Sound { s with row := { s.row with status := .running, startedAt := some (s.row.startedAt.getD s.now) }, worker := .working } := by
  obtain ⟨hp, hmarker⟩ := h.folded hw
  have hs := h.pending hp
  have hidle := h.unstarted hs
  exact { h with
    pending := by simp
    opened := by simp
    live := fun _ => h.live (.inl hp)
    unstarted := by simp
    started := by
      intro t ht
      rw [hs] at ht
      cases ht
      refine ⟨by simp [State.upto, hmarker], s.now, .inl rfl, by simp [hidle]⟩
    ended := by simp [h.live (.inl hp)]
    reading := by simp
    folded := by simp }

theorem newestStart_le {now n : Nat} {runs : List CliRun}
    (h : ∀ r ∈ runs, ∀ t ∈ r.startedAt, t ≤ now) (hn : newestStart runs = some n) : n ≤ now := by
  obtain ⟨r, hr, hstart⟩ := List.mem_filterMap.mp (List.max?_mem hn)
  split at hstart
  · cases hstart
  · exact h r hr n hstart

/-- Boot takes up where the open wait, the newest run or the step itself began. -/
theorem Sound.gapStart_spec (h : Sound s) (ho : orphaned s.runs s.row = true)
    (hcond : s.row.waitingStartedAt = none → ∀ x ∈ s.booked, x.2 ≤ gapStart s.now s.runs s.row) :
    gapStart s.now s.runs s.row ≤ s.now ∧ (∀ x ∈ s.booked, x.2 ≤ gapStart s.now s.runs s.row) ∧
      ∀ t ∈ s.row.startedAt, t ≤ gapStart s.now s.runs s.row := by
  cases hw : s.row.waitingStartedAt with
  | some w =>
    have hgap : gapStart s.now s.runs s.row = w := by rw [gapStart, hw]
    have hupto : s.upto = w := State.upto_of_some hw
    rw [hgap]
    exact ⟨h.marker w hw, fun x hx => hupto ▸ (h.booked x hx).2, fun t ht => hupto ▸ (h.started t ht).1⟩
  | none =>
    refine ⟨?_, hcond hw, fun t ht => ?_⟩
    · have hwait : s.row.status = .waitingCli := by
        rw [orphaned, Bool.and_eq_true, decide_eq_true_eq] at ho
        exact ho.1
      cases hs : s.row.startedAt with
      | none => exact absurd hs (h.opened (.inr hwait))
      | some t =>
        have ht := (h.started t hs).1.trans h.upto_le
        rw [gapStart, hw, hs]
        cases hn : newestStart s.runs with
        | none => exact ht
        | some n => exact Nat.max_le.mpr ⟨ht, newestStart_le h.starts hn⟩
    · rw [Option.mem_def] at ht
      rw [gapStart, hw, ht]
      cases newestStart s.runs with
      | none => exact Nat.le_refl _
      | some n => exact Nat.le_max_left _ _

theorem Sound.orphaned (h : Sound s) (ho : orphaned s.runs s.row = true)
    (hcond : s.row.waitingStartedAt = none → ∀ x ∈ s.booked, x.2 ≤ gapStart s.now s.runs s.row) :
    Sound { s with
      row := foldOrphanedCliParkOnBoot s.now s.runs s.row
      booked := book s.booked (gapStart s.now s.runs s.row) s.now
      worker := .idle } := by
  obtain ⟨hgap, hbooked, hstarted⟩ := h.gapStart_spec ho hcond
  have hwait : s.row.status = .waitingCli := by
    rw [Timing.orphaned, Bool.and_eq_true, decide_eq_true_eq] at ho
    exact ho.1
  have hend : s.row.endedAt = none := h.live (.inr (.inr hwait))
  exact {
    marker := by simp [foldOrphanedCliParkOnBoot]
    starts := h.starts
    booked := by
      intro x hx
      rw [State.upto_of_some rfl]
      rcases mem_book.mp hx with hx | ⟨hlt, rfl⟩
      · exact ⟨(h.booked x hx).1, (hbooked x hx).trans hgap⟩
      · exact ⟨hlt, Nat.le_refl _⟩
    apart := pairwise_book h.apart hbooked
    pending := h.pending
    opened := h.opened
    live := h.live
    unstarted := fun hs => absurd hs (h.opened (.inr hwait))
    started := by
      intro t ht
      rw [State.upto_of_some rfl]
      exact ⟨(hstarted t ht).trans hgap, (h.started t ht).2.book (hstarted t ht) hbooked hgap⟩
    ended := by simp [foldOrphanedCliParkOnBoot, hend]
    reading := by simp
    folded := by simp }

theorem jobStep_eq_some {i : Nat} {from_ : CliRun → Bool} {next : CliRun → CliRun}
    (h : jobStep s i from_ next = some s') :
    ∃ r ∈ s.runs, s' = { s with runs := s.runs.set i (next r) } := by
  unfold jobStep at h
  split at h
  · next r hr =>
    split at h
    · cases h
      exact ⟨r, List.mem_of_getElem? hr, rfl⟩
    · cases h
  · cases h

/-- A job's write to its run, which leaves the starts behind the clock. -/
theorem Sound.job (h : Sound s) {i : Nat} {from_ : CliRun → Bool} {next : CliRun → CliRun}
    (hstep : jobStep s i from_ next = some s')
    (hnext : ∀ r t, (next r).startedAt = some t → r.startedAt = some t ∨ t ≤ s.now) :
    Sound s' ∧ s'.row = s.row ∧ s'.worker = s.worker := by
  obtain ⟨r, hr, rfl⟩ := jobStep_eq_some hstep
  refine ⟨h.frame rfl rfl rfl (fun r' hr' t ht => ?_) (.inr rfl), rfl, rfl⟩
  rcases List.mem_or_eq_of_mem_set hr' with hmem | rfl
  · exact h.starts r' hmem t ht
  · rcases hnext r t ht with hold | hle
    · exact h.starts r hr t hold
    · exact hle

theorem step_sound {a : Action} (h : Sound s) (hmet : Anchored s a) (hstep : step s a = some s') :
    Sound s' := by
  cases a with
  | tick d =>
    cases hstep
    exact h.tick d
  | pickUp =>
    simp only [step] at hstep
    split at hstep
    · cases hstep
    · split at hstep
      · next hs =>
        cases hstep
        have hidle : Sound { s with worker := .idle } := h.frame rfl rfl rfl h.starts (.inl (by simp))
        exact { hidle with
          reading := fun _ => .inl hs
          folded := by simp }
      · next hs =>
        cases hstep
        have hidle : Sound { s with worker := .idle } := h.frame rfl rfl rfl h.starts (.inl (by simp))
        exact { hidle with
          reading := fun _ => .inr hs
          folded := by simp }
      · cases hstep
        exact h.frame rfl rfl rfl h.starts (.inl (by simp))
      · cases hstep
  | foldPickedUp =>
    simp only [step] at hstep
    split at hstep
    · cases hstep
    · next hw =>
      cases hstep
      rw [ne_eq, not_not] at hw
      have hlive : s.row.endedAt = none := by
        rcases h.reading hw with hs | hs
        · exact h.live (.inl hs)
        · exact h.live (.inr (.inr hs))
      have hf := h.fold (fun hne => absurd hlive hne)
      have hrow : (foldCliParkOnResume s).row.waitingStartedAt = none ∧
          (foldCliParkOnResume s).row.status = s.row.status := by
        unfold foldCliParkOnResume
        split
        · next hm => exact ⟨hm, rfl⟩
        · exact ⟨foldPark_marker _ _ _, foldPark_status _ _ _⟩
      split
      · next hs =>
        have hidle : Sound { foldCliParkOnResume s with worker := .idle } :=
          hf.frame rfl rfl rfl hf.starts (.inl (by simp))
        exact { hidle with
          reading := by simp
          folded := fun _ => ⟨hrow.2.trans hs, hrow.1⟩ }
      · exact hf.frame rfl rfl rfl hf.starts (.inl (by simp))
  | openRow skip =>
    simp only [step] at hstep
    split at hstep
    · cases hstep
    · next hw =>
      rw [ne_eq, not_not] at hw
      split at hstep
      · cases hstep
        exact h.frame rfl rfl rfl h.starts (.inl (by simp))
      · split at hstep
        · cases hstep
          exact h.finish (by simp)
        · cases hstep
          exact h.opens hw
  | dispatch =>
    simp only [step] at hstep
    split at hstep
    · cases hstep
    · cases hstep
      refine h.frame rfl rfl rfl (fun r hr t ht => ?_) (.inr rfl)
      rcases List.mem_append.mp hr with hr | hr
      · exact h.starts r hr t ht
      · rw [List.mem_singleton.mp hr] at ht
        cases ht
  | supersede i =>
    simp only [step] at hstep
    split at hstep
    · cases hstep
    · cases hstep
      refine h.frame rfl rfl rfl (fun r hr t ht => ?_) (.inr rfl)
      obtain ⟨j, hj⟩ := List.mem_iff_getElem?.mp hr
      rw [List.getElem?_modify] at hj
      obtain ⟨r₀, hr₀, rfl⟩ := Option.map_eq_some_iff.mp hj
      refine h.starts r₀ (List.mem_of_getElem? hr₀) t ?_
      split at ht <;> exact ht
  | toWaitingCli =>
    simp only [step] at hstep
    split at hstep
    · cases hstep
    · cases hstep
      split
      · next hs =>
        exact { h with
          pending := by simp
          opened := fun _ => h.opened (.inl hs)
          live := fun _ => h.live (.inr (.inl hs))
          reading := by simp
          folded := by simp }
      · exact h.frame rfl rfl rfl h.starts (.inl (by simp))
  | markLeft =>
    simp only [step] at hstep
    split at hstep
    · cases hstep
    · cases hstep
      exact h.mark.frame rfl rfl rfl h.starts (.inl (by simp))
  | finish failed =>
    simp only [step] at hstep
    split at hstep
    · cases hstep
    · split at hstep
      · cases hstep
        exact h.frame rfl rfl rfl h.starts (.inl (by simp))
      · cases hstep
        exact h.finish (by split <;> simp)
  | release =>
    simp only [step] at hstep
    split at hstep
    · cases hstep
      exact h.frame rfl rfl rfl h.starts (.inl (by simp))
    · cases hstep
  | startRun i =>
    exact (h.job hstep fun r t ht => .inr (by cases ht; exact jsDate_le _)).1
  | foldStarted i =>
    obtain ⟨s₁, hjob, rfl⟩ := Option.map_eq_some_iff.mp hstep
    obtain ⟨hs₁, hrow, -⟩ := h.job hjob fun r t ht => .inl ht
    exact hs₁.fold (by rw [hrow]; exact hmet)
  | endRun i => exact (h.job hstep fun r t ht => .inl ht).1
  | markEnded i =>
    obtain ⟨s₁, hjob, rfl⟩ := Option.map_eq_some_iff.mp hstep
    exact (h.job hjob fun r t ht => .inl ht).1.mark
  | crash =>
    cases hstep
    refine h.frame rfl rfl rfl (fun r hr t ht => ?_) (.inl (by simp))
    obtain ⟨r₀, hr₀, rfl⟩ := List.mem_map.mp hr
    refine h.starts r₀ hr₀ t ?_
    split at ht <;> exact ht
  | endOrphans lost =>
    simp only [step] at hstep
    split at hstep
    · cases hstep
    · cases hstep
      refine h.frame rfl rfl rfl (fun r hr t ht => ?_) (.inl (by simp))
      obtain ⟨i, hi, rfl⟩ := List.mem_mapIdx.mp hr
      refine h.starts _ (List.getElem_mem hi) t ?_
      unfold orphan at ht
      split at ht <;> exact ht
  | foldOrphaned =>
    simp only [step] at hstep
    split at hstep
    · cases hstep
    · split at hstep
      · next ho =>
        cases hstep
        exact h.orphaned ho (hmet ho)
      · cases hstep
        exact h.frame rfl rfl rfl h.starts (.inl (by simp))

end Steps

/-! ## Runs -/

variable {s s' : State}

theorem toMs_le {a b : Nat} (h : a ≤ b) : toMs a ≤ toMs b := Nat.div_le_div_right h

theorem Sound.idle_fits (h : Sound s) {t : Nat} (ht : t ∈ s.row.startedAt) :
    s.row.idleMs + openWait s.row (toMs s.now) + toMs t ≤
      (s.row.endedAt.map toMs).getD (toMs s.now) := by
  unfold openWait
  cases he : s.row.endedAt with
  | some e => exact (h.ended e he).2 t ht
  | none =>
    have hfits := toMs_fits (h.covered_le ht)
    cases hw : s.row.waitingStartedAt with
    | none => exact hfits.trans (toMs_le h.upto_le)
    | some w =>
      rw [State.upto_of_some hw] at hfits
      have hle := toMs_le (h.marker w hw)
      simp only [Option.map_none, Option.getD_none]
      split <;> omega

theorem Sound.bookedOnce (h : Sound s) : BookedOnce s where
  idle_le t ht := by
    refine Nat.le_sub_of_add_le ((h.idle_fits ht).trans ?_)
    cases he : s.row.endedAt with
    | none => exact Nat.le_refl _
    | some e => exact toMs_le (h.ended e he).1
  adds_up t ht := by
    have hfits := h.idle_fits ht
    rw [Option.mem_def] at ht
    simp only [computeStepContribution, ht]
    cases he : s.row.endedAt with
    | none =>
      rw [he] at hfits
      simp only [Option.map_none, Option.getD_none] at hfits ⊢
      omega
    | some e =>
      rw [he] at hfits
      simp only [Option.map_some, Option.getD_some, Bool.false_eq_true, false_and, if_false] at hfits ⊢
      omega
  once := filter_length_le h.apart

/-- From a row no pass has opened, step time is counted once in every state of a run whose boot
reconciles find no wait booked after the start they anchor at, and whose starting runs close no
wait of an ended row. -/
theorem booked_once {as : List Action} (hfresh : Fresh s) (hmet : Along step Anchored s as)
    {as₁ : List Action} {s₁ : State} (hfirst : as₁ <+: as) (hrun : runs step s as₁ = some s₁) :
    BookedOnce s₁ :=
  Sound.bookedOnce (reached_inv (fun _ _ _ h hmet hstep => step_sound h hmet hstep) hfresh.sound hmet
    hfirst hrun)

namespace Sample

/-- A row waiting for its first pass. -/
def start : State where
  now := 0
  row := ⟨.pending, none, none, 0, 0, none, 0, 0, 0⟩
  runs := []
  worker := .idle
  booked := []

def second : Nat := 1000000

def dispatched : List Action :=
  [.pickUp, .foldPickedUp, .openRow false, .dispatch, .toWaitingCli, .markLeft, .tick second,
   .startRun 0, .foldStarted 0, .tick (9 * second)]

def boot : List Action := [.crash, .tick (10 * second), .endOrphans [], .foldOrphaned]

def diesInRun : List Action := dispatched ++ boot

def diesInApply : List Action :=
  dispatched ++ [.endRun 0, .markEnded 0, .tick (50 * second), .pickUp, .foldPickedUp] ++ boot

theorem fresh_start : Fresh start where
  status := rfl
  started := rfl
  ended := rfl
  idle := rfl
  marker := by simp [start]
  runs := by simp [start]
  worker := rfl
  booked := rfl

end Sample

open Haive.Steps.Timing.Sample

theorem booked_once_run_died : ∃ s', runs step start diesInRun = some s' ∧ BookedOnce s' := by
  have hmet : Along step Anchored start diesInRun := .of_along anchored_sound (by decide +kernel)
  exact ⟨_, rfl, booked_once fresh_start hmet (List.prefix_refl _) rfl⟩

/-- A worker that dies after a pickup has folded the wait since its run: boot books that wait
again, and two minutes of the first seventy seconds are idle. -/
theorem boot_books_folded_wait_again :
    (¬ ∀ (s s' : State) (as : List Action), Fresh s → runs step s as = some s' → BookedOnce s') ∧
      ∃ s', runs step start diesInApply = some s' ∧ s'.now = 70 * second ∧ s'.row.startedAt = some 0 ∧
        s'.row.idleMs = 120000 ∧ (10 * second, 60 * second) ∈ s'.booked ∧
        (second, 70 * second) ∈ s'.booked := by
  refine ⟨fun h => ?_, _, rfl, rfl, rfl, rfl, by decide, by decide⟩
  have hle := (h start _ diesInApply fresh_start rfl).idle_le 0 rfl
  revert hle
  decide

end Timing

end Haive.Steps

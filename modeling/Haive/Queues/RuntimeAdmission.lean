import Haive.Lib.Runs
import Haive.Lib.Table
import Mathlib

/-!
# Runtime admission

`worker/src/sandbox/runtime-admission.ts`: a task polls until what is free covers its runner and
every runner queued ahead of it. A poll reads the reservations, takes a ticket, reads the tickets
ahead, decides, and writes its reservation. Each Redis command is a step of its own.

`reserved_within_budget`: the reservations stay within the budget in a run in which a poll, where
it writes its reservation, has counted every reservation that is there. One that was written
after the poll had read the occupancy, and whose ticket was gone before it read the queue, is
not counted (`overlapping_polls_double_book`).

There is no runner: nothing boots between the admissions, and the governor is on.
-/

namespace Haive.Queues

open Lib

/-! ## The decision -/

structure RuntimeCaps where
  runtimeBudgetMb : Nat
  ddevWeightMb : Nat
  browserWeightMb : Nat
  maxConcurrentRuntimes : Option Nat
deriving DecidableEq, Repr

def heaviestWeightMb (caps : RuntimeCaps) : Nat := caps.ddevWeightMb + caps.browserWeightMb

structure RuntimeAdmissionInput where
  budgetMb : Option Nat
  busyMb : Nat
  myWeightMb : Nat
  weightsAheadMb : List Nat
  hasLiveRunner : Bool
  maxCount : Option Nat
  busyCount : Nat

inductive RuntimeVerdict
  | proceed | park
deriving DecidableEq, Repr

def runtimeAdmissionDecision (input : RuntimeAdmissionInput) : RuntimeVerdict :=
  match input.budgetMb with
  | none => .proceed
  | some budgetMb =>
    let aheadMb := input.weightsAheadMb.sum
    if input.hasLiveRunner then .proceed
    else if input.busyMb = 0 ∧ aheadMb = 0 ∧ input.busyCount = 0 then .proceed
    else if input.maxCount.any (· ≤ input.busyCount) then .park
    else if input.busyMb + aheadMb + input.myWeightMb ≤ budgetMb then .proceed
    else .park

/-! ## Redis -/

/-- A field of one of the hashes, keyed by task. -/
structure TaskField where
  task : String
  value : Nat
deriving DecidableEq, Repr

abbrev TaskHash := Table TaskField (·.task)

/-- `parsed > 0 ? parsed : heaviestWeightMb(caps)`. -/
def readWeight (caps : RuntimeCaps) (value : Option Nat) : Nat :=
  match value with
  | some weightMb => if weightMb > 0 then weightMb else heaviestWeightMb caps
  | none => heaviestWeightMb caps

def reservedWeights (caps : RuntimeCaps) (reserve : TaskHash) : List TaskField :=
  reserve.rows.map fun f => { f with value := readWeight caps (some f.value) }

def sumWeights (weights : List TaskField) : Nat := (weights.map (·.value)).sum

structure Ticket where
  task : String
  score : Int
deriving DecidableEq, Repr

def hsetnx (hash : TaskHash) (f : TaskField) : TaskHash := if f.task ∈ hash.keys then hash else hash.put f

/-- The park queue: `haive:runtime-park` with its companion hashes and liveness keys. -/
structure ParkQueue where
  tickets : Table Ticket (·.task)
  weights : TaskHash
  joined : TaskHash
  alive : List String

/-- Lower scores first, and members with one score by name. -/
def Ticket.before (a b : Ticket) : Prop := a.score < b.score ∨ (a.score = b.score ∧ a.task ≤ b.task)

instance : DecidableRel Ticket.before := fun a b =>
  inferInstanceAs (Decidable (a.score < b.score ∨ (a.score = b.score ∧ a.task ≤ b.task)))

/-- `ZRANGE`. -/
def ParkQueue.members (q : ParkQueue) : List String := (q.tickets.rows.insertionSort Ticket.before).map (·.task)

/-- `ZREM` and `HDEL`. -/
def ParkQueue.prune (q : ParkQueue) (dead : List String) : ParkQueue :=
  { q with
    tickets := q.tickets.filter (·.task ∉ dead)
    weights := q.weights.filter (·.task ∉ dead)
    joined := q.joined.filter (·.task ∉ dead) }

def ParkQueue.leave (q : ParkQueue) (task : String) : ParkQueue :=
  { q.prune [task] with alive := q.alive.filter (· ≠ task) }

/-- The `MULTI` of `joinParkQueue`. -/
def ParkQueue.take (q : ParkQueue) (task : String) (score : Int) (weightMb : Nat) : ParkQueue :=
  { q with
    tickets := q.tickets.put ⟨task, score⟩
    weights := q.weights.put ⟨task, weightMb⟩
    alive := if task ∈ q.alive then q.alive else q.alive ++ [task] }

def TASK_VOTE_MAX : Int := 5

def clampVoteScore (score : Int) : Int := max (-5) (min TASK_VOTE_MAX score)

def PARK_SCORE_BAND : Int := 10000000000000

def parkQueueScore (voteScore : Int) (joinedMs : Nat) : Int :=
  (TASK_VOTE_MAX - clampVoteScore voteScore) * PARK_SCORE_BAND + joinedMs

/-! ## Polls -/

/-- The next command of a poll, with what the commands before it left in its variables. -/
inductive PollStage
  | occupancy
  | join
  | readJoined (now : Nat)
  | ticket (joinedAt : Nat)
  | range
  | liveness (members : List String)
  | prune (live dead : List String)
  | weigh (ahead : List String)
  | reserve
  | leave
deriving DecidableEq, Repr

/-- One `runtimeAdmission` of a task. `occupancy` is what it read of the reservations, `ahead`
the tickets it counted ahead of its own. -/
structure Poll where
  task : String
  weightMb : Nat
  voteScore : Int
  occupancy : List TaskField
  ahead : List TaskField
  stage : PollStage
deriving DecidableEq, Repr

structure AdmissionSys where
  now : Nat
  reserve : TaskHash
  park : ParkQueue
  polls : Table Poll (·.task)

def Poll.decision (caps : RuntimeCaps) (p : Poll) : RuntimeVerdict :=
  runtimeAdmissionDecision
    { budgetMb := some caps.runtimeBudgetMb
      busyMb := sumWeights p.occupancy
      myWeightMb := p.weightMb
      weightsAheadMb := p.ahead.map (·.value)
      hasLiveRunner := false
      maxCount := caps.maxConcurrentRuntimes
      busyCount := p.occupancy.length }

def AdmissionSys.goto (s : AdmissionSys) (p : Poll) (stage : PollStage) : AdmissionSys :=
  { s with polls := s.polls.put { p with stage } }

def AdmissionSys.finish (s : AdmissionSys) (p : Poll) : AdmissionSys := { s with polls := s.polls.del p.task }

/-- The tail of `decideRuntimeAdmission`: a parked poll ends and its ticket stays. -/
def AdmissionSys.decide (s : AdmissionSys) (caps : RuntimeCaps) (p : Poll) (ahead : List TaskField) : AdmissionSys :=
  let p := { p with ahead }
  match p.decision caps with
  | .proceed => s.goto p .reserve
  | .park => s.finish p

/-- The tickets before this one. A poll that does not find its own counts none. -/
def aheadOf (live : List String) (task : String) : List String :=
  if task ∈ live then live.takeWhile (· ≠ task) else []

/-- After the live tickets are known. -/
def AdmissionSys.place (s : AdmissionSys) (caps : RuntimeCaps) (p : Poll) (live : List String) : AdmissionSys :=
  match aheadOf live p.task with
  | [] => s.decide caps p []
  | ahead => s.goto p (.weigh ahead)

/-- The next command of the poll `p`. -/
def AdmissionSys.advance (caps : RuntimeCaps) (s : AdmissionSys) (p : Poll) : AdmissionSys :=
  match p.stage with
  | .occupancy => s.goto { p with occupancy := reservedWeights caps s.reserve } .join
  | .join =>
    { s with park := { s.park with joined := hsetnx s.park.joined ⟨p.task, s.now⟩ } }.goto p (.readJoined s.now)
  | .readJoined now =>
    match s.park.joined.find? p.task with
    | some f => s.goto p (.ticket (if f.value > 0 then f.value else now))
    | none => s.goto p (.ticket now)
  | .ticket joinedAt =>
    { s with park := s.park.take p.task (parkQueueScore p.voteScore joinedAt) p.weightMb }.goto p .range
  | .range =>
    match s.park.members with
    | [] => s.decide caps p []
    | members => s.goto p (.liveness members)
  | .liveness members =>
    let live := members.filter (· ∈ s.park.alive)
    match members.filter (· ∉ s.park.alive) with
    | [] => s.place caps p live
    | dead => s.goto p (.prune live dead)
  | .prune live dead => { s with park := s.park.prune dead }.place caps p live
  | .weigh ahead =>
    s.decide caps p (ahead.map fun task => ⟨task, readWeight caps ((s.park.weights.find? task).map (·.value))⟩)
  | .reserve => { s with reserve := s.reserve.put ⟨p.task, p.weightMb⟩ }.goto p .leave
  | .leave => { s with park := s.park.leave p.task }.finish p

inductive AdmissionAction
  /-- The weight and the vote are read before the occupancy. -/
  | poll (task : String) (weightMb : Nat) (voteScore : Int)
  | advance (task : String)
  /-- A liveness key expires. -/
  | expire (task : String)
  | tick (ms : Nat)

def AdmissionSys.step (caps : RuntimeCaps) (s : AdmissionSys) : AdmissionAction → Option AdmissionSys
  | .poll task weightMb voteScore =>
    match s.polls.find? task with
    | some _ => none
    | none => some { s with polls := s.polls.put ⟨task, weightMb, voteScore, [], [], .occupancy⟩ }
  | .advance task => (s.polls.find? task).map (s.advance caps)
  | .expire task => some { s with park := { s.park with alive := s.park.alive.filter (· ≠ task) } }
  | .tick ms => some { s with now := s.now + ms }

/-! ## The reserved weights -/

variable {caps : RuntimeCaps} {s s' : AdmissionSys} {p q : Poll}

theorem sum_le_of_counted {R K : Type} {key : R → K} {weight : R → Nat} {rows counted : List R}
    (hkeys : (rows.map key).Nodup) (h : ∀ r ∈ rows, ∃ g ∈ counted, key g = key r ∧ weight r ≤ weight g) :
    (rows.map weight).sum ≤ (counted.map weight).sum := by
  induction rows generalizing counted with
  | nil => exact Nat.zero_le _
  | cons r rows ih =>
    rw [List.map_cons, List.nodup_cons] at hkeys
    obtain ⟨g, hg, hkey, hle⟩ := h r List.mem_cons_self
    obtain ⟨before, after, rfl⟩ := List.append_of_mem hg
    have hrest : ∀ x ∈ rows, ∃ y ∈ before ++ after, key y = key x ∧ weight x ≤ weight y := by
      intro x hx
      obtain ⟨y, hy, hyx, hle⟩ := h x (List.mem_cons_of_mem _ hx)
      refine ⟨y, ?_, hyx, hle⟩
      rcases List.mem_append.mp hy with hy | hy
      · exact List.mem_append_left _ hy
      rcases List.mem_cons.mp hy with rfl | hy
      · exact absurd (List.mem_map.mpr ⟨x, hx, hyx.symm.trans hkey⟩) hkeys.1
      · exact List.mem_append_right _ hy
    have := ih hkeys.2 hrest
    simp only [List.map_append, List.map_cons, List.sum_append, List.sum_cons] at this ⊢
    omega

def AdmissionSys.reservedMb (s : AdmissionSys) : Nat := sumWeights s.reserve.rows

theorem sumWeights_put (hash : TaskHash) (f : TaskField) :
    sumWeights (hash.put f).rows ≤ sumWeights hash.rows + f.value := by
  have h : ((hash.put f).rows.map (·.value)).sum ≤ ((f :: hash.rows).map (·.value)).sum := by
    refine sum_le_of_counted (hash.put f).nodup fun g hg => ?_
    rcases Table.mem_rows_put.mp hg with rfl | ⟨hg, -⟩
    · exact ⟨g, List.mem_cons_self, rfl, Nat.le_refl _⟩
    · exact ⟨g, List.mem_cons_of_mem _ hg, rfl, Nat.le_refl _⟩
  rw [List.map_cons, List.sum_cons, Nat.add_comm] at h
  exact h

/-! ## The budget -/

/-- The poll `p` has counted the reservation `f`: it read it, or the ticket was ahead of its own. -/
def Poll.Counted (p : Poll) (f : TaskField) : Prop :=
  ∃ g ∈ p.occupancy ++ p.ahead, g.task = f.task ∧ f.value ≤ g.value

def Covered (s : AdmissionSys) : AdmissionAction → Prop
  | .advance task => ∀ p, s.polls.find? task = some p → p.stage = .reserve → ∀ f ∈ s.reserve.rows, p.Counted f
  | _ => True

/-- No task outweighs the budget. -/
def WeightFits (caps : RuntimeCaps) : AdmissionAction → Prop
  | .poll _ weightMb _ => weightMb ≤ caps.runtimeBudgetMb
  | _ => True

/-- Where a poll writes its reservation, what it counted leaves room for it. -/
structure Poll.Fits (caps : RuntimeCaps) (p : Poll) : Prop where
  weight : p.weightMb ≤ caps.runtimeBudgetMb
  room : p.stage = .reserve → sumWeights p.occupancy + sumWeights p.ahead + p.weightMb ≤ caps.runtimeBudgetMb

structure AdmissionSys.Fits (caps : RuntimeCaps) (s : AdmissionSys) : Prop where
  budget : s.reservedMb ≤ caps.runtimeBudgetMb
  polls : ∀ p ∈ s.polls.rows, p.Fits caps

/-- No reservation and no poll. There may be tickets. -/
structure AdmissionSys.Idle (s : AdmissionSys) : Prop where
  reserve : s.reserve = ∅
  polls : s.polls = ∅

theorem proceed_room (hweight : p.weightMb ≤ caps.runtimeBudgetMb) (h : p.decision caps = .proceed) :
    sumWeights p.occupancy + sumWeights p.ahead + p.weightMb ≤ caps.runtimeBudgetMb := by
  have hahead : (p.ahead.map (·.value)).sum = sumWeights p.ahead := rfl
  simp only [Poll.decision, runtimeAdmissionDecision, Bool.false_eq_true, if_false, hahead] at h
  split at h
  · next hidle => omega
  split at h
  · cases h
  split at h
  · next hroom => exact hroom
  · cases h

/-- A poll that goes on, and the others. -/
theorem AdmissionSys.Fits.goto (h : s.Fits caps) (hp : p.Fits caps) (hstage : q.stage ≠ .reserve)
    (hweight : q.weightMb = p.weightMb) : AdmissionSys.Fits caps { s with polls := s.polls.put q } := by
  refine ⟨h.budget, fun r hr => ?_⟩
  rcases Table.mem_rows_put.mp hr with rfl | ⟨hr, -⟩
  · exact ⟨hweight ▸ hp.weight, fun hreserve => absurd hreserve hstage⟩
  · exact h.polls r hr

theorem AdmissionSys.Fits.finish (h : s.Fits caps) (p : Poll) : (s.finish p).Fits caps :=
  ⟨h.budget, fun r hr => h.polls r (List.mem_filter.mp hr).1⟩

theorem AdmissionSys.Fits.decide (h : s.Fits caps) (hp : p.Fits caps) (ahead : List TaskField) :
    (s.decide caps p ahead).Fits caps := by
  unfold AdmissionSys.decide
  simp only
  split
  · next hproceed =>
    refine ⟨h.budget, fun r hr => ?_⟩
    rcases Table.mem_rows_put.mp hr with rfl | ⟨hr, -⟩
    · exact ⟨hp.weight, fun _ => proceed_room (p := { p with ahead }) hp.weight hproceed⟩
    · exact h.polls r hr
  · exact h.finish _

theorem AdmissionSys.Fits.place (h : s.Fits caps) (hp : p.Fits caps) (live : List String) :
    (s.place caps p live).Fits caps := by
  unfold AdmissionSys.place
  split
  · exact h.decide hp []
  · exact h.goto hp (by simp) rfl

theorem AdmissionSys.Fits.queue (h : s.Fits caps) (park : ParkQueue) :
    AdmissionSys.Fits caps { s with park } := ⟨h.budget, h.polls⟩

theorem advance_fits (h : s.Fits caps) (hp : p.Fits caps)
    (hcovered : p.stage = .reserve → ∀ f ∈ s.reserve.rows, p.Counted f) : (s.advance caps p).Fits caps := by
  unfold AdmissionSys.advance
  split
  · exact h.goto hp (by simp) rfl
  · exact (h.queue _).goto hp (by simp) rfl
  · split
    · exact h.goto hp (by simp) rfl
    · exact h.goto hp (by simp) rfl
  · exact (h.queue _).goto hp (by simp) rfl
  · split
    · exact h.decide hp []
    · exact h.goto hp (by simp) rfl
  · simp only
    split
    · exact h.place hp _
    · exact h.goto hp (by simp) rfl
  · exact (h.queue _).place hp _
  · exact h.decide hp _
  · next hstage =>
    -- What is reserved is no more than what the poll counted, and that leaves room.
    have hcounted : s.reservedMb ≤ sumWeights p.occupancy + sumWeights p.ahead := by
      have hsum : (s.reserve.rows.map (·.value)).sum ≤ ((p.occupancy ++ p.ahead).map (·.value)).sum :=
        sum_le_of_counted s.reserve.nodup (hcovered hstage)
      rwa [List.map_append, List.sum_append] at hsum
    have hput := sumWeights_put s.reserve ⟨p.task, p.weightMb⟩
    have hroom := hp.room hstage
    have hbudget : sumWeights (s.reserve.put ⟨p.task, p.weightMb⟩).rows ≤ caps.runtimeBudgetMb := by
      change sumWeights s.reserve.rows ≤ _ at hcounted
      simp only at hput
      omega
    have hreserved : AdmissionSys.Fits caps { s with reserve := s.reserve.put ⟨p.task, p.weightMb⟩ } :=
      ⟨hbudget, h.polls⟩
    exact hreserved.goto hp (by simp) rfl
  · exact (h.queue _).finish p

theorem step_fits {a : AdmissionAction} (h : s.Fits caps) (hmet : WeightFits caps a ∧ Covered s a)
    (hstep : s.step caps a = some s') : s'.Fits caps := by
  cases a with
  | poll task weightMb voteScore =>
    rw [AdmissionSys.step] at hstep
    split at hstep
    · cases hstep
    · cases hstep
      refine ⟨h.budget, fun r hr => ?_⟩
      rcases Table.mem_rows_put.mp hr with rfl | ⟨hr, -⟩
      · exact ⟨hmet.1, fun hstage => by cases hstage⟩
      · exact h.polls r hr
  | advance task =>
    rw [AdmissionSys.step] at hstep
    cases hp : s.polls.find? task with
    | none =>
      rw [hp] at hstep
      cases hstep
    | some p =>
      rw [hp] at hstep
      cases hstep
      exact advance_fits h (h.polls p (Table.find?_mem hp)) (hmet.2 p hp)
  | expire task =>
    cases hstep
    exact h.queue _
  | tick ms =>
    cases hstep
    exact ⟨h.budget, h.polls⟩

theorem reserved_within_budget (caps : RuntimeCaps) (s₀ s : AdmissionSys) (as : List AdmissionAction)
    (hidle : s₀.Idle)
    (hmet : Along (AdmissionSys.step caps) (fun s a => WeightFits caps a ∧ Covered s a) s₀ as)
    (hrun : runs (AdmissionSys.step caps) s₀ as = some s) : s.reservedMb ≤ caps.runtimeBudgetMb := by
  have hstart : s₀.Fits caps := by
    refine ⟨?_, fun p hp => ?_⟩
    · rw [AdmissionSys.reservedMb, hidle.reserve]
      exact Nat.zero_le _
    · rw [hidle.polls] at hp
      cases hp
  exact (runs_inv (fun _ _ _ => step_fits) hstart hmet hrun).budget

/-! ## Two polls -/

namespace Sample

def smallHost : RuntimeCaps := ⟨4000, 3000, 1000, none⟩

def idlePool : AdmissionSys := ⟨1, ∅, ⟨∅, ∅, ∅, []⟩, ∅⟩

def advances (task : String) (n : Nat) : List AdmissionAction := List.replicate n (.advance task)

/-- Both have read the occupancy when the first takes its ticket, and it leaves the queue before
the second takes its own. -/
def overlapping : List AdmissionAction :=
  [.poll "web" 3000 0, .poll "api" 3000 0, .advance "web", .advance "api"] ++ advances "web" 7 ++ advances "api" 6

/-- The first writes its reservation after the second has read the queue. -/
def queued : List AdmissionAction :=
  [.poll "web" 3000 0, .poll "api" 3000 0, .advance "web", .advance "api"] ++ advances "web" 5 ++ [.tick 10] ++
    advances "api" 6 ++ advances "web" 2

def covered (s : AdmissionSys) : AdmissionAction → Bool
  | .advance task => (s.polls.find? task).all fun p => p.stage ≠ .reserve ||
    s.reserve.rows.all fun f => (p.occupancy ++ p.ahead).any fun g => g.task = f.task && f.value ≤ g.value
  | .poll _ weightMb _ => weightMb ≤ smallHost.runtimeBudgetMb
  | _ => true

theorem covered_sound (s : AdmissionSys) (a : AdmissionAction) (h : covered s a = true) :
    WeightFits smallHost a ∧ Covered s a := by
  cases a with
  | poll task weightMb voteScore =>
    have hweight : weightMb ≤ smallHost.runtimeBudgetMb := of_decide_eq_true h
    exact ⟨hweight, trivial⟩
  | advance task =>
    refine ⟨trivial, fun p hp hstage f hf => ?_⟩
    rw [covered, hp, Option.all_some, hstage] at h
    simp only [ne_eq, not_true_eq_false, decide_false, Bool.false_or, List.all_eq_true, List.any_eq_true,
      Bool.and_eq_true, decide_eq_true_eq] at h
    exact h f hf
  | _ => exact ⟨trivial, trivial⟩

def weightFits (_ : AdmissionSys) : AdmissionAction → Bool
  | .poll _ weightMb _ => weightMb ≤ smallHost.runtimeBudgetMb
  | _ => true

theorem weightFits_sound (s : AdmissionSys) (a : AdmissionAction) (h : weightFits s a = true) :
    WeightFits smallHost a := by
  cases a with
  | poll task weightMb voteScore =>
    have hweight : weightMb ≤ smallHost.runtimeBudgetMb := of_decide_eq_true h
    exact hweight
  | _ => trivial

end Sample

open Haive.Queues.Sample

theorem queued_polls_fit : ∃ s, runs (AdmissionSys.step smallHost) idlePool queued = some s ∧
    s.reservedMb ≤ smallHost.runtimeBudgetMb := by
  have hmet : Along (AdmissionSys.step smallHost) (fun s a => WeightFits smallHost a ∧ Covered s a) idlePool
      queued := .of_along covered_sound rfl
  have hsome : (runs (AdmissionSys.step smallHost) idlePool queued).isSome = true := rfl
  obtain ⟨s, hrun⟩ := Option.isSome_iff_exists.mp hsome
  exact ⟨s, hrun, reserved_within_budget smallHost idlePool s queued ⟨rfl, rfl⟩ hmet hrun⟩

/-- Two polls claim the same free megabytes. -/
theorem overlapping_polls_double_book :
    ¬ ∀ s as, Along (AdmissionSys.step smallHost) (fun _ a => WeightFits smallHost a) idlePool as →
      runs (AdmissionSys.step smallHost) idlePool as = some s → s.reservedMb ≤ smallHost.runtimeBudgetMb := by
  intro h
  have hweights : Along (AdmissionSys.step smallHost) (fun _ a => WeightFits smallHost a) idlePool overlapping :=
    .of_along weightFits_sound rfl
  have hover : (runs (AdmissionSys.step smallHost) idlePool overlapping).map (·.reservedMb) = some 6000 := rfl
  obtain ⟨s, hrun, hsum⟩ := Option.map_eq_some_iff.mp hover
  have hle := h s overlapping hweights hrun
  rw [hsum] at hle
  exact absurd hle (by decide)

end Haive.Queues

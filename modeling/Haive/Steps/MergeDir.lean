import Haive.Steps.Ownership

/-!
# The claim on a merge directory

`worker/src/step-engine/merge-dir-claim.ts`, over one directory: its advisory lock, its row of
`merge_dir_claims`, and any number of calls, each statement a step of its own. The tasks, their
steps and their events change at any time, also while a call is inside its transaction: those
writers do not take the lock.

`holder_excludes`: a section writes while the claim names its step, and it starts to write where
its task is live at its epoch. While a grant is in force, nothing of another task writes.
The task of a section may end while the section writes (`section_outlives_task`).

A claim row holds the step, and a step is of one task for good.
-/

namespace Haive.Steps.MergeDir

open Lib

/-! ## Calls -/

inductive Call
  | claimMergeDir (stepId : Nat) (epoch : Option Nat)
  | withMergeDirSection (stepId : Nat) (epoch : Option Nat)
  | inMergeDirUnlessClaimed (taskId : Nat)
  | releaseTaskMergeClaims (taskId : Nat)
deriving DecidableEq, Repr

/-- The next statement. `holder` and `tornDown` are the two reads of `liveClaimHolder`, `inside` is
`fn`, `commit` ends a transaction that leaves the row as given. -/
inductive Stage
  | scan
  | waiting
  | requireLiveOwner
  | readClaim
  | holder (claim : Nat)
  | tornDown (claim : Nat) (skipped : Bool)
  | inside (released : Bool)
  | delete
  | commit (claim : Option Nat)
deriving DecidableEq, Repr

structure Pass where
  call : Call
  stage : Stage
deriving DecidableEq, Repr

/-- `guard` is stored nowhere: the last grant, as long as it is in force. -/
structure Sys where
  tasks : Nat → Task
  steps : Nat → StepStatus
  finished : Nat → Bool
  claim : Option Nat
  lock : Option Nat
  passes : Nat → Option Pass
  guard : Option Nat

inductive TaskChange
  | fail
  | retry
  | complete
  | cancel
deriving DecidableEq, Repr

def TaskChange.apply (t : Task) : TaskChange → Task
  | .fail => { t with status := .failed }
  | .retry => { t with status := .running, orchestrationEpoch := t.orchestrationEpoch + 1 }
  | .complete => { t with status := .completed }
  | .cancel => { t with status := .cancelled }

inductive Action
  | task (taskId : Nat) (change : TaskChange)
  /-- A Skip, a reset or any other change of a step's status. -/
  | step (stepId : Nat) (status : StepStatus)
  | cancelFinished (taskId : Nat)
  | call (pid : Nat) (call : Call)
  | advance (pid : Nat)
  /-- `releaseMergeDir` in the section of the pass. -/
  | releaseMergeDir (pid : Nat)
  /-- A statement fails or the worker dies. -/
  | abort (pid : Nat)

variable (taskOf : Nat → Nat)

def Call.taskId : Call → Nat
  | .claimMergeDir stepId _ | .withMergeDirSection stepId _ => taskOf stepId
  | .inMergeDirUnlessClaimed taskId | .releaseTaskMergeClaims taskId => taskId

/-- `requireLiveOwner`. -/
def Sys.liveOwner (s : Sys) (stepId : Nat) (epoch : Option Nat) : Bool :=
  taskWriteTarget (s.tasks (taskOf stepId)) (epoch.map fun e => ⟨e, false⟩) false

/-- The claim of the step holds the directory for nobody. -/
def Sys.stale (s : Sys) (stepId : Nat) : Bool :=
  (s.tasks (taskOf stepId)).status = .completed || s.steps stepId = .skipped ||
    (s.tasks (taskOf stepId)).status = .cancelled && s.finished (taskOf stepId)

def Sys.goto (s : Sys) (pid : Nat) (p : Pass) (stage : Stage) : Sys :=
  { s with passes := Function.update s.passes pid (some { p with stage }) }

/-- The call returns or throws, and its transaction ends. -/
def Sys.finish (s : Sys) (pid : Nat) : Sys :=
  { s with
    passes := Function.update s.passes pid none
    lock := if s.lock = some pid then none else s.lock }

def Call.opening : Call → Stage
  | .releaseTaskMergeClaims _ => .scan
  | _ => .waiting

/-- The first statement under the lock. -/
def Call.first : Call → Stage
  | .claimMergeDir .. => .requireLiveOwner
  | .withMergeDirSection .. | .inMergeDirUnlessClaimed _ => .readClaim
  | .releaseTaskMergeClaims _ => .delete

/-- Nobody's live claim is in the way. -/
def Call.free : Call → Stage
  | .claimMergeDir stepId _ => .commit (some stepId)
  | _ => .inside false

def Call.left (released : Bool) (claim : Option Nat) : Call → Option Nat
  | .withMergeDirSection stepId _ => if released then claim.filter (· ≠ stepId) else claim
  | _ => claim

/-- What follows from the claim row. -/
def Sys.readClaim (s : Sys) (pid : Nat) (p : Pass) : Sys :=
  match p.call, s.claim with
  | .withMergeDirSection stepId _, claim =>
    if claim = some stepId then s.goto pid p .requireLiveOwner else s.finish pid
  | call, none => s.goto pid p call.free
  | call, some c => if taskOf c = call.taskId taskOf then s.goto pid p call.free else s.goto pid p (.holder c)

/-- The row that a transaction leaves. A grant is in force from here. -/
def Sys.commit (s : Sys) (pid : Nat) (p : Pass) (claim : Option Nat) : Sys :=
  let guard :=
    match p.call with
    | .claimMergeDir stepId _ => some stepId
    | _ => s.guard.filter fun _ => claim.isSome
  { s with claim, guard }.finish pid

/-- The next statement of the pass. A waiter finds the lock taken and tries again. -/
def Sys.advance (s : Sys) (pid : Nat) (p : Pass) : Sys :=
  match p.stage with
  | .scan => if s.claim.map taskOf = some (p.call.taskId taskOf) then s.goto pid p .waiting else s.finish pid
  | .waiting =>
    match s.lock with
    | none => { s with lock := some pid }.goto pid p p.call.first
    | some _ => s
  | .requireLiveOwner =>
    match p.call with
    | .claimMergeDir stepId epoch =>
      if s.liveOwner taskOf stepId epoch then s.goto pid p .readClaim else s.finish pid
    | .withMergeDirSection stepId epoch =>
      if s.liveOwner taskOf stepId epoch then s.goto pid p (.inside false) else s.finish pid
    | _ => s.finish pid
  | .readClaim => s.readClaim taskOf pid p
  | .holder c =>
    let taskStatus := (s.tasks (taskOf c)).status
    let skipped := s.steps c = .skipped
    if taskStatus = .cancelled then s.goto pid p (.tornDown c skipped)
    else if taskStatus = .completed ∨ skipped then s.goto pid p p.call.free
    else s.finish pid
  | .tornDown c skipped => if skipped || s.finished (taskOf c) then s.goto pid p p.call.free else s.finish pid
  | .inside released => s.commit pid p (p.call.left released s.claim)
  | .delete => s.goto pid p (.commit (s.claim.filter fun c => taskOf c ≠ p.call.taskId taskOf))
  | .commit claim => s.commit pid p claim

/-- A grant ends where its claim is stale. -/
def Sys.settle (s : Sys) : Sys := { s with guard := s.guard.filter fun c => !s.stale taskOf c }

def Sys.act (s : Sys) : Action → Option Sys
  | .task taskId change =>
    if terminalTaskStatuses.contains (s.tasks taskId).status then none
    else some { s with tasks := Function.update s.tasks taskId (change.apply (s.tasks taskId)) }
  | .step stepId status => some { s with steps := Function.update s.steps stepId status }
  | .cancelFinished taskId =>
    if (s.tasks taskId).status = .cancelled then
      some { s with finished := Function.update s.finished taskId true }
    else none
  | .call pid call =>
    match s.passes pid with
    | some _ => none
    | none => some { s with passes := Function.update s.passes pid (some ⟨call, call.opening⟩) }
  | .advance pid => (s.passes pid).map (s.advance taskOf pid)
  | .releaseMergeDir pid =>
    match s.passes pid with
    | some ⟨.withMergeDirSection stepId epoch, .inside _⟩ =>
      some (s.goto pid ⟨.withMergeDirSection stepId epoch, .inside true⟩ (.inside true))
    | _ => none
  | .abort pid => (s.passes pid).map fun _ => s.finish pid

def Sys.step (s : Sys) (a : Action) : Option Sys := (s.act taskOf a).map (Sys.settle taskOf)

/-- No call and no grant. The tasks, the steps and the row are whatever they are. -/
structure Start (s : Sys) : Prop where
  lock : s.lock = none
  passes : ∀ pid, s.passes pid = none
  guard : s.guard = none

/-! ## The invariant -/

variable {taskOf : Nat → Nat} {s s' : Sys} {pid pid' : Nat} {p p' : Pass} {call : Call} {stage : Stage} {c : Nat}

def Call.Judges : Call → Prop
  | .claimMergeDir .. | .inMergeDirUnlessClaimed _ => True
  | _ => False

def Stage.Fits (taskOf : Nat → Nat) (s : Sys) (call : Call) : Stage → Prop
  | .scan | .waiting => True
  | .requireLiveOwner => ∀ stepId epoch, call = .withMergeDirSection stepId epoch → s.claim = some stepId
  | .readClaim => ∀ taskId, call ≠ .releaseTaskMergeClaims taskId
  | .holder c => call.Judges ∧ s.claim = some c
  | .tornDown c skipped => call.Judges ∧ s.claim = some c ∧ (s.tasks (taskOf c)).status = .cancelled ∧
      (skipped = true → s.guard = none)
  | .inside _ =>
    match call with
    | .withMergeDirSection stepId _ => s.claim = some stepId
    | .inMergeDirUnlessClaimed taskId => ∀ g, s.guard = some g → taskOf g = taskId
    | _ => False
  | .delete => ∃ taskId, call = .releaseTaskMergeClaims taskId
  | .commit claim =>
    match call with
    | .claimMergeDir stepId _ => claim = some stepId
    | _ => ∀ g, s.guard = some g → claim = none ∨ claim = some g

def Stage.locked : Stage → Bool
  | .scan | .waiting => false
  | _ => true

structure Pass.Fits (taskOf : Nat → Nat) (s : Sys) (pid : Nat) (p : Pass) : Prop where
  lock : p.stage.locked = true → s.lock = some pid
  stage : p.stage.Fits taskOf s p.call

/-- `live` holds after every action, the rest also before a grant is settled. -/
structure Sys.Sound (taskOf : Nat → Nat) (s : Sys) : Prop where
  guard : ∀ g, s.guard = some g → s.claim = some g
  passes : ∀ pid p, s.passes pid = some p → p.Fits taskOf s pid

structure Sys.Inv (taskOf : Nat → Nat) (s : Sys) : Prop extends s.Sound taskOf where
  live : ∀ g, s.guard = some g → s.stale taskOf g = false

/-- What a call counts on stays while nobody else has the lock. -/
theorem Stage.Fits.mono (h : stage.Fits taskOf s call) (hclaim : s'.claim = s.claim)
    (hguard : ∀ g, s'.guard = some g → s.guard = some g)
    (hcancelled : ∀ t, (s.tasks t).status = .cancelled → (s'.tasks t).status = .cancelled) :
    stage.Fits taskOf s' call := by
  have hnone : s.guard = none → s'.guard = none := by
    intro hs
    cases hg : s'.guard with
    | none => rfl
    | some g => exact absurd (hguard g hg) (by simp [hs])
  cases stage with
  | requireLiveOwner => exact fun stepId epoch hcall => hclaim.trans (h stepId epoch hcall)
  | holder c => exact ⟨h.1, hclaim.trans h.2⟩
  | tornDown c skipped =>
    obtain ⟨hjudges, hc, hstatus, hskipped⟩ := h
    exact ⟨hjudges, hclaim.trans hc, hcancelled _ hstatus, fun hs => hnone (hskipped hs)⟩
  | inside released =>
    cases call with
    | withMergeDirSection stepId epoch => exact hclaim.trans h
    | inMergeDirUnlessClaimed taskId => exact fun g hg => h g (hguard g hg)
    | _ => exact h
  | commit claim =>
    cases call with
    | claimMergeDir stepId epoch => exact h
    | _ => exact fun g hg => h g (hguard g hg)
  | _ => exact h

theorem Pass.Fits.mono (h : p.Fits taskOf s pid) (hlock : s'.lock = s.lock) (hclaim : s'.claim = s.claim)
    (hguard : ∀ g, s'.guard = some g → s.guard = some g)
    (hcancelled : ∀ t, (s.tasks t).status = .cancelled → (s'.tasks t).status = .cancelled) :
    p.Fits taskOf s' pid :=
  ⟨fun hl => hlock.trans (h.lock hl), h.stage.mono hclaim hguard hcancelled⟩

/-- A call that waits counts on nothing. -/
theorem Pass.Fits.of_unlocked (h : p.stage.locked = false) : p.Fits taskOf s pid := by
  refine ⟨fun hl => by simp [h] at hl, ?_⟩
  cases hs : p.stage <;> simp [hs, Stage.locked] at h <;> trivial

theorem goto_self : (s.goto pid p stage).passes pid = some { p with stage } := Function.update_self ..

theorem goto_ne (h : pid' ≠ pid) : (s.goto pid p stage).passes pid' = s.passes pid' := Function.update_of_ne h ..

theorem finish_self : (s.finish pid).passes pid = none := Function.update_self ..

theorem finish_ne (h : pid' ≠ pid) : (s.finish pid).passes pid' = s.passes pid' := Function.update_of_ne h ..

theorem Sys.Sound.goto (h : s.Sound taskOf) (hp : ({ p with stage } : Pass).Fits taskOf s pid) :
    (s.goto pid p stage).Sound taskOf := by
  refine ⟨h.guard, fun pid' p' hp' => ?_⟩
  rcases Decidable.em (pid' = pid) with rfl | hne
  · obtain rfl := Option.some.inj (goto_self.symm.trans hp')
    exact hp.mono rfl rfl (fun g hg => hg) fun t ht => ht
  · exact (h.passes pid' p' ((goto_ne hne).symm.trans hp')).mono rfl rfl (fun g hg => hg) fun t ht => ht

/-- A transaction ends, and only the one with the lock has changed anything. -/
theorem Sys.Sound.finish (h : s.Sound taskOf) (claim guard : Option Nat)
    (hguard : ∀ g, guard = some g → claim = some g)
    (hlocked : (claim = s.claim ∧ ∀ g, guard = some g → s.guard = some g) ∨ s.lock = some pid) :
    (Sys.finish { s with claim, guard } pid).Sound taskOf := by
  refine ⟨hguard, fun pid' p' hp' => ?_⟩
  have hne : pid' ≠ pid := by
    rintro rfl
    rw [finish_self] at hp'
    cases hp'
  have hfits := h.passes pid' p' ((finish_ne (s := { s with claim, guard }) hne).symm.trans hp')
  cases hl : p'.stage.locked with
  | false => exact .of_unlocked hl
  | true =>
    have hlock := hfits.lock hl
    have hother : s.lock ≠ some pid := fun heq => hne (Option.some.inj (hlock.symm.trans heq))
    obtain ⟨hclaim, hg⟩ := hlocked.resolve_right hother
    exact hfits.mono (if_neg hother) hclaim hg fun t ht => ht

/-- A call that ends without a change. -/
theorem Sys.Sound.drop (h : s.Sound taskOf) (pid : Nat) : (s.finish pid).Sound taskOf :=
  h.finish s.claim s.guard h.guard (.inl ⟨rfl, fun _ hg => hg⟩)

theorem free_fits (hjudges : call.Judges)
    (hguard : ∀ g, s.guard = some g → taskOf g = call.taskId taskOf) : call.free.Fits taskOf s call := by
  cases call with
  | claimMergeDir stepId epoch => exact rfl
  | inMergeDirUnlessClaimed taskId => exact hguard
  | _ => exact hjudges.elim

theorem judges_of (hrelease : ∀ taskId, call ≠ .releaseTaskMergeClaims taskId)
    (hsection : ∀ stepId epoch, call ≠ .withMergeDirSection stepId epoch) : call.Judges := by
  cases call with
  | withMergeDirSection stepId epoch => exact absurd rfl (hsection stepId epoch)
  | releaseTaskMergeClaims taskId => exact absurd rfl (hrelease taskId)
  | _ => trivial

theorem readClaim_sound (h : s.Sound taskOf) (hfits : p.Fits taskOf s pid) (hstage : p.stage = .readClaim) :
    (s.readClaim taskOf pid p).Sound taskOf := by
  have hlock : s.lock = some pid := hfits.lock (by rw [hstage]; rfl)
  have hcall : ∀ taskId, p.call ≠ .releaseTaskMergeClaims taskId := by
    have := hfits.stage
    rwa [hstage] at this
  have hjudges : (∀ stepId epoch, p.call ≠ .withMergeDirSection stepId epoch) → p.call.Judges := judges_of hcall
  unfold Sys.readClaim
  split
  · next stepId epoch claim hc =>
    split
    · next hclaim =>
      refine h.goto ⟨fun _ => hlock, fun stepId' epoch' hcall' => ?_⟩
      cases hc.symm.trans hcall'
      exact hclaim
    · exact h.drop pid
  · next hclaim hsection =>
    refine h.goto ⟨fun _ => hlock, free_fits (hjudges hsection) fun g hg => ?_⟩
    have := h.guard g hg
    rw [hclaim] at this
    cases this
  · next c hclaim hsection =>
    have hj := hjudges hsection
    split
    · next htask =>
      refine h.goto ⟨fun _ => hlock, free_fits hj fun g hg => ?_⟩
      have := h.guard g hg
      rw [hclaim] at this
      cases this
      exact htask
    · exact h.goto ⟨fun _ => hlock, hj, hclaim⟩

/-- A grant is one of the row that is committed. -/
theorem commit_sound (h : s.Sound taskOf) (hlock : s.lock = some pid) {claim : Option Nat}
    (hfits : (Stage.commit claim).Fits taskOf s p.call) : (s.commit pid p claim).Sound taskOf := by
  unfold Sys.commit
  refine h.finish _ _ (fun g hg => ?_) (.inr hlock)
  have hkept : ∀ g, s.guard.filter (fun _ => claim.isSome) = some g →
      (∀ g, s.guard = some g → claim = none ∨ claim = some g) → claim = some g := by
    intro g hg hsame
    obtain ⟨hg, hsome⟩ := Option.filter_eq_some_iff.mp hg
    refine (hsame g hg).resolve_left fun hnone => ?_
    rw [hnone] at hsome
    cases hsome
  cases hc : p.call with
  | claimMergeDir stepId epoch =>
    rw [hc] at hg hfits
    cases hg
    exact hfits
  | _ =>
    rw [hc] at hg hfits
    exact hkept g hg hfits

theorem left_fits (h : s.Sound taskOf) {released : Bool} (hfits : (Stage.inside released).Fits taskOf s call) :
    (Stage.commit (call.left released s.claim)).Fits taskOf s call := by
  have hsame : ∀ g, s.guard = some g → s.claim = none ∨ s.claim = some g := fun g hg => .inr (h.guard g hg)
  cases call with
  | withMergeDirSection stepId epoch =>
    intro g hg
    have hclaim : s.claim = some stepId := hfits
    cases released with
    | false => exact hsame g hg
    | true => exact .inl (by simp [Call.left, hclaim])
  | inMergeDirUnlessClaimed taskId => exact hsame
  | _ => exact hfits.elim

/-- The claim that a judge finds stale is of no grant. -/
theorem Sys.Inv.no_guard (h : s.Inv taskOf) (hclaim : s.claim = some c) (hstale : s.stale taskOf c = true) :
    s.guard = none := by
  cases hg : s.guard with
  | none => rfl
  | some g =>
    have heq := h.guard g hg
    rw [hclaim] at heq
    cases heq
    exact absurd (h.live c hg) (by simp [hstale])

theorem advance_sound (h : s.Inv taskOf) (hp : s.passes pid = some p) : (s.advance taskOf pid p).Sound taskOf := by
  have hsound := h.toSound
  have hfits := h.passes pid p hp
  have hfree : ∀ {call : Call}, call.Judges → s.guard = none → call.free.Fits taskOf s call := fun hj hnone =>
    free_fits hj fun g hg => by simp [hnone] at hg
  unfold Sys.advance
  cases hstage : p.stage <;> simp only
  case scan =>
    split
    · exact hsound.goto (.of_unlocked rfl)
    · exact hsound.drop pid
  case waiting =>
    split
    · next hfree =>
      -- Nobody has the lock, so nobody else is in a transaction.
      have hnobody : ∀ pid' p', s.passes pid' = some p' → p'.stage.locked = false := by
        intro pid' p' hp'
        cases hl : p'.stage.locked with
        | false => rfl
        | true =>
          have := (h.passes pid' p' hp').lock hl
          rw [hfree] at this
          cases this
      have htaken : Sys.Sound taskOf { s with lock := some pid } :=
        ⟨h.guard, fun pid' p' hp' => .of_unlocked (hnobody pid' p' hp')⟩
      refine htaken.goto ⟨fun _ => rfl, ?_⟩
      cases hc : p.call with
      | claimMergeDir => exact fun stepId epoch hcall => by cases hcall
      | withMergeDirSection => exact fun taskId hcall => by cases hcall
      | inMergeDirUnlessClaimed => exact fun taskId hcall => by cases hcall
      | releaseTaskMergeClaims taskId => exact ⟨taskId, rfl⟩
    · exact hsound
  all_goals
    have hlock : s.lock = some pid := hfits.lock (by rw [hstage]; rfl)
    have hcounts := hfits.stage
    rw [hstage] at hcounts
  case requireLiveOwner =>
    cases hc : p.call with
    | claimMergeDir stepId epoch =>
      simp only
      split
      · exact hsound.goto ⟨fun _ => hlock, fun taskId hcall => by simp [hc] at hcall⟩
      · exact hsound.drop pid
    | withMergeDirSection stepId epoch =>
      simp only
      split
      · refine hsound.goto ⟨fun _ => hlock, ?_⟩
        simp only [Stage.Fits, hc]
        exact hcounts stepId epoch hc
      · exact hsound.drop pid
    | _ => exact hsound.drop pid
  case readClaim => exact readClaim_sound hsound hfits hstage
  case holder c =>
    obtain ⟨hj, hclaim⟩ := hcounts
    split
    · next hcancelled =>
      refine hsound.goto ⟨fun _ => hlock, hj, hclaim, hcancelled, fun hskipped => h.no_guard hclaim ?_⟩
      rw [decide_eq_true_eq] at hskipped
      simp [Sys.stale, hskipped]
    · split
      · next hended =>
        refine hsound.goto ⟨fun _ => hlock, hfree hj (h.no_guard hclaim ?_)⟩
        rcases hended with hended | hended <;> simp [Sys.stale, hended]
      · exact hsound.drop pid
  case tornDown c skipped =>
    obtain ⟨hj, hclaim, hcancelled, hskipped⟩ := hcounts
    split
    · next hstale =>
      refine hsound.goto ⟨fun _ => hlock, hfree hj ?_⟩
      rcases Bool.or_eq_true_iff.mp hstale with hs | hfinished
      · exact hskipped hs
      · exact h.no_guard hclaim (by simp [Sys.stale, hcancelled, hfinished])
    · exact hsound.drop pid
  case inside released => exact commit_sound hsound hlock (left_fits hsound hcounts)
  case delete =>
    obtain ⟨taskId, hc⟩ := hcounts
    refine hsound.goto ⟨fun _ => hlock, ?_⟩
    simp only [Stage.Fits, hc]
    intro g hg
    rw [h.guard g hg, Option.filter_some]
    split
    · exact .inr rfl
    · exact .inl rfl
  case commit claim => exact commit_sound hsound hlock hcounts

/-! ## Runs -/

theorem settle_inv (h : s.Sound taskOf) : (s.settle taskOf).Inv taskOf := by
  have hguard : ∀ g, (s.settle taskOf).guard = some g → s.guard = some g ∧ s.stale taskOf g = false := by
    intro g hg
    obtain ⟨hg, hlive⟩ := Option.filter_eq_some_iff.mp hg
    exact ⟨hg, by simpa using hlive⟩
  refine ⟨⟨fun g hg => h.guard g (hguard g hg).1, fun pid p hp => ?_⟩, fun g hg => (hguard g hg).2⟩
  exact (h.passes pid p hp).mono rfl rfl (fun g hg => (hguard g hg).1) fun t ht => ht

/-- A change outside the transactions. A cancelled task stays cancelled. -/
theorem Sys.Sound.outside (h : s.Sound taskOf) {tasks : Nat → Task} {steps : Nat → StepStatus}
    {finished : Nat → Bool}
    (hcancelled : ∀ t, (s.tasks t).status = .cancelled → (tasks t).status = .cancelled) :
    Sys.Sound taskOf { s with tasks, steps, finished } :=
  ⟨h.guard, fun pid p hp => (h.passes pid p hp).mono rfl rfl (fun _ hg => hg) hcancelled⟩

theorem act_sound {a : Action} (h : s.Inv taskOf) (hact : s.act taskOf a = some s') : s'.Sound taskOf := by
  cases a with
  | task taskId change =>
    rw [Sys.act] at hact
    split at hact
    · cases hact
    · next hrunning =>
      cases hact
      refine h.toSound.outside fun t ht => ?_
      rcases Decidable.em (t = taskId) with rfl | hne
      · exact absurd (by rw [ht]; rfl) hrunning
      · rw [Function.update_of_ne hne]
        exact ht
  | step stepId status =>
    cases hact
    exact h.toSound.outside fun _ ht => ht
  | cancelFinished taskId =>
    rw [Sys.act] at hact
    split at hact
    · cases hact
      exact h.toSound.outside fun _ ht => ht
    · cases hact
  | call pid call =>
    rw [Sys.act] at hact
    split at hact
    · cases hact
    · cases hact
      cases call <;> exact h.toSound.goto (p := ⟨_, .waiting⟩) (.of_unlocked rfl)
  | advance pid =>
    rw [Sys.act] at hact
    obtain ⟨p, hp, rfl⟩ := Option.map_eq_some_iff.mp hact
    exact advance_sound h hp
  | releaseMergeDir pid =>
    rw [Sys.act] at hact
    split at hact
    · next stepId epoch released hp =>
      cases hact
      have hfits := h.passes pid _ hp
      exact h.toSound.goto ⟨fun _ => hfits.lock rfl, hfits.stage⟩
    · cases hact
  | abort pid =>
    rw [Sys.act] at hact
    obtain ⟨p, -, rfl⟩ := Option.map_eq_some_iff.mp hact
    exact h.toSound.drop pid

theorem step_inv {a : Action} (h : s.Inv taskOf) (hstep : s.step taskOf a = some s') : s'.Inv taskOf := by
  obtain ⟨s₁, hact, rfl⟩ := Option.map_eq_some_iff.mp hstep
  exact settle_inv (act_sound h hact)

theorem Start.inv (h : Start s) : s.Inv taskOf := by
  refine ⟨⟨fun g hg => ?_, fun pid p hp => ?_⟩, fun g hg => ?_⟩
  · simp [h.guard] at hg
  · simp [h.passes] at hp
  · simp [h.guard] at hg

/-! ## Who writes -/

def Sys.Writes (s : Sys) (pid : Nat) (call : Call) : Prop := ∃ released, s.passes pid = some ⟨call, .inside released⟩

/-- The pass after its statement. A section writes where it has passed its check. -/
theorem advance_passes (h : s.Inv taskOf) (hp : s.passes pid = some p) :
    ∃ next : Option Stage,
      (s.advance taskOf pid p).passes = Function.update s.passes pid (next.map fun stage => ⟨p.call, stage⟩) ∧
      ∀ released stepId epoch, next = some (.inside released) → p.call = .withMergeDirSection stepId epoch →
        s.claim = some stepId ∧ s.liveOwner taskOf stepId epoch = true := by
  have hcounts := (h.passes pid p hp).stage
  have hgoto : ∀ {s₁ : Sys} (stage : Stage), s₁.passes = s.passes → (∀ released, stage ≠ .inside released) →
      ∃ next : Option Stage,
        (s₁.goto pid p stage).passes = Function.update s.passes pid (next.map fun stage => ⟨p.call, stage⟩) ∧
        ∀ released stepId epoch, next = some (.inside released) → p.call = .withMergeDirSection stepId epoch →
          s.claim = some stepId ∧ s.liveOwner taskOf stepId epoch = true := by
    intro s₁ stage hsame hne
    refine ⟨some stage, by simp only [Sys.goto, hsame, Option.map_some], fun released stepId epoch hnext => ?_⟩
    exact absurd (Option.some.inj hnext) (hne released)
  have hfinish : ∀ {s₁ : Sys}, s₁.passes = s.passes → ∃ next : Option Stage,
        (s₁.finish pid).passes = Function.update s.passes pid (next.map fun stage => ⟨p.call, stage⟩) ∧
        ∀ released stepId epoch, next = some (.inside released) → p.call = .withMergeDirSection stepId epoch →
          s.claim = some stepId ∧ s.liveOwner taskOf stepId epoch = true := fun hsame =>
    ⟨none, by simp only [Sys.finish, hsame, Option.map_none], fun _ _ _ hnext => by cases hnext⟩
  have hfree : p.call.Judges → ∃ next : Option Stage,
        (s.goto pid p p.call.free).passes = Function.update s.passes pid (next.map fun stage => ⟨p.call, stage⟩) ∧
        ∀ released stepId epoch, next = some (.inside released) → p.call = .withMergeDirSection stepId epoch →
          s.claim = some stepId ∧ s.liveOwner taskOf stepId epoch = true := by
    intro hj
    refine ⟨some p.call.free, rfl, fun released stepId epoch _ hc => ?_⟩
    rw [hc] at hj
    exact hj.elim
  unfold Sys.advance
  cases hstage : p.stage <;> simp only <;> rw [hstage] at hcounts
  case scan =>
    split
    · exact hgoto _ rfl (by simp)
    · exact hfinish rfl
  case waiting =>
    split
    · refine hgoto _ rfl fun released => ?_
      cases p.call <;> simp [Call.first]
    · refine ⟨some p.stage, ?_, fun _ _ _ hnext => by simp [hstage] at hnext⟩
      exact (Function.update_eq_self_iff.mpr hp.symm).symm
  case requireLiveOwner =>
    cases hc : p.call with
    | claimMergeDir stepId epoch =>
      simp only [← hc]
      split
      · exact hgoto _ rfl (by simp)
      · exact hfinish rfl
    | withMergeDirSection stepId epoch =>
      simp only [← hc]
      split
      · next hlive =>
        refine ⟨some (.inside false), rfl, fun released stepId' epoch' _ hcall => ?_⟩
        cases hc.symm.trans hcall
        exact ⟨hcounts stepId epoch hc, hlive⟩
      · exact hfinish rfl
    | _ =>
      simp only [← hc]
      exact hfinish rfl
  case readClaim =>
    have hjudges : (∀ stepId epoch, p.call ≠ .withMergeDirSection stepId epoch) → p.call.Judges := judges_of hcounts
    unfold Sys.readClaim
    split
    · split
      · exact hgoto _ rfl (by simp)
      · exact hfinish rfl
    · next _ hsection => exact hfree (hjudges hsection)
    · next _ hsection =>
      split
      · exact hfree (hjudges hsection)
      · exact hgoto _ rfl (by simp)
  case holder c =>
    split
    · exact hgoto _ rfl (by simp)
    · split
      · exact hfree hcounts.1
      · exact hfinish rfl
  case tornDown c skipped =>
    split
    · exact hfree hcounts.1
    · exact hfinish rfl
  case inside released => exact hfinish rfl
  case delete => exact hgoto _ rfl (by simp)
  case commit claim => exact hfinish rfl

theorem act_starts_live {a : Action} {stepId : Nat} {epoch : Option Nat} (h : s.Inv taskOf)
    (hact : s.act taskOf a = some s') (hafter : s'.Writes pid (.withMergeDirSection stepId epoch)) :
    s.Writes pid (.withMergeDirSection stepId epoch) ∨
      (s.claim = some stepId ∧ s.liveOwner taskOf stepId epoch = true) := by
  obtain ⟨released, hafter⟩ := hafter
  have hsame : s'.passes pid = s.passes pid → s.Writes pid (.withMergeDirSection stepId epoch) := fun heq =>
    ⟨released, heq.symm.trans hafter⟩
  cases a with
  | task taskId change =>
    rw [Sys.act] at hact
    split at hact
    · cases hact
    · cases hact
      exact .inl (hsame rfl)
  | step =>
    cases hact
    exact .inl (hsame rfl)
  | cancelFinished taskId =>
    rw [Sys.act] at hact
    split at hact
    · cases hact
      exact .inl (hsame rfl)
    · cases hact
  | call pid' call =>
    rw [Sys.act] at hact
    split at hact
    · cases hact
    · cases hact
      rcases Decidable.em (pid = pid') with rfl | hne
      · have hstarted : (⟨call, call.opening⟩ : Pass) = ⟨.withMergeDirSection stepId epoch, .inside released⟩ := by
          simpa only [Function.update_self, Option.some.injEq] using hafter
        cases call <;> cases hstarted
      · exact .inl (hsame (Function.update_of_ne hne ..))
  | advance pid' =>
    rw [Sys.act] at hact
    obtain ⟨p, hp, rfl⟩ := Option.map_eq_some_iff.mp hact
    obtain ⟨next, hpasses, hchecked⟩ := advance_passes h hp
    rcases Decidable.em (pid = pid') with rfl | hne
    · rw [hpasses, Function.update_self] at hafter
      obtain ⟨stage, hnext, heq⟩ := Option.map_eq_some_iff.mp hafter
      rw [Pass.mk.injEq] at heq
      obtain ⟨hcall, rfl⟩ := heq
      exact .inr (hchecked released stepId epoch hnext hcall)
    · exact .inl (hsame (by rw [hpasses, Function.update_of_ne hne]))
  | releaseMergeDir pid' =>
    rw [Sys.act] at hact
    split at hact
    · next stepId' epoch' released' hp =>
      cases hact
      rcases Decidable.em (pid = pid') with rfl | hne
      · rw [goto_self] at hafter
        cases hafter
        exact .inl ⟨released', hp⟩
      · exact .inl (hsame (goto_ne hne))
    · cases hact
  | abort pid' =>
    rw [Sys.act] at hact
    obtain ⟨p, -, rfl⟩ := Option.map_eq_some_iff.mp hact
    rcases Decidable.em (pid = pid') with rfl | hne
    · rw [finish_self] at hafter
      cases hafter
    · exact .inl (hsame (finish_ne hne))

theorem commit_guard {g : Nat} {claim : Option Nat} (hg : s.guard = some g)
    (hfits : (Stage.commit claim).Fits taskOf s p.call) :
    (s.commit pid p claim).guard = some g ∨ (s.commit pid p claim).claim ≠ some g := by
  have hguard : (s.commit pid p claim).guard = match p.call with
      | .claimMergeDir stepId _ => some stepId
      | _ => s.guard.filter fun _ => claim.isSome := rfl
  have hclaim : (s.commit pid p claim).claim = claim := rfl
  rw [hguard, hclaim]
  cases hc : p.call with
  | claimMergeDir stepId epoch =>
    rw [hc] at hfits
    have hgrant : claim = some stepId := hfits
    rw [hgrant]
    exact Decidable.or_iff_not_imp_left.mpr fun h => h
  | _ =>
    cases claim with
    | none => exact .inr (by simp)
    | some c => exact .inl (by simp [hg])

/-- A grant ends with its row or with a grant to another step. -/
theorem advance_guard {g : Nat} (h : s.Inv taskOf) (hp : s.passes pid = some p) (hg : s.guard = some g) :
    (s.advance taskOf pid p).guard = some g ∨ (s.advance taskOf pid p).claim ≠ some g := by
  have hcounts := (h.passes pid p hp).stage
  unfold Sys.advance
  cases hstage : p.stage <;> simp only <;> rw [hstage] at hcounts
  case scan => split <;> exact .inl hg
  case waiting => split <;> exact .inl hg
  case requireLiveOwner =>
    cases p.call with
    | claimMergeDir | withMergeDirSection =>
      simp only
      split <;> exact .inl hg
    | _ => exact .inl hg
  case readClaim =>
    unfold Sys.readClaim
    split
    · split <;> exact .inl hg
    · exact .inl hg
    · split <;> exact .inl hg
  case holder =>
    split
    · exact .inl hg
    · split <;> exact .inl hg
  case tornDown => split <;> exact .inl hg
  case inside => exact commit_guard hg (left_fits h.toSound hcounts)
  case delete => exact .inl hg
  case commit => exact commit_guard hg hcounts

theorem step_guard {a : Action} {g : Nat} (h : s.Inv taskOf) (hg : s.guard = some g)
    (hstep : s.step taskOf a = some s') : s'.guard = some g ∨ s'.claim ≠ some g ∨ s'.stale taskOf g = true := by
  obtain ⟨s₁, hact, rfl⟩ := Option.map_eq_some_iff.mp hstep
  have hkept : s₁.guard = some g ∨ s₁.claim ≠ some g := by
    cases a with
    | task =>
      rw [Sys.act] at hact
      split at hact
      · cases hact
      · cases hact
        exact .inl hg
    | step =>
      cases hact
      exact .inl hg
    | cancelFinished =>
      rw [Sys.act] at hact
      split at hact
      · cases hact
        exact .inl hg
      · cases hact
    | call =>
      rw [Sys.act] at hact
      split at hact
      · cases hact
      · cases hact
        exact .inl hg
    | advance pid =>
      rw [Sys.act] at hact
      obtain ⟨p, hp, rfl⟩ := Option.map_eq_some_iff.mp hact
      exact advance_guard h hp hg
    | releaseMergeDir =>
      rw [Sys.act] at hact
      split at hact
      · cases hact
        exact .inl hg
      · cases hact
    | abort =>
      rw [Sys.act] at hact
      obtain ⟨p, -, rfl⟩ := Option.map_eq_some_iff.mp hact
      exact .inl hg
  rcases hkept with hkept | hclaim
  · cases hstale : s₁.stale taskOf g with
    | true => exact .inr (.inr hstale)
    | false => exact .inl (Option.filter_eq_some_iff.mpr ⟨hkept, by simp [hstale]⟩)
  · exact .inr (.inl hclaim)

/-- What `claimMergeDir` commits is a grant, unless it is stale from the start. -/
theorem grant_guard {stepId : Nat} {epoch claim : Option Nat} (h : s.Inv taskOf)
    (hp : s.passes pid = some ⟨.claimMergeDir stepId epoch, .commit claim⟩)
    (hstep : s.step taskOf (.advance pid) = some s') :
    s'.claim = some stepId ∧ (s'.guard = some stepId ∨ s'.stale taskOf stepId = true) := by
  obtain ⟨s₁, hact, rfl⟩ := Option.map_eq_some_iff.mp hstep
  rw [Sys.act, hp] at hact
  cases hact
  have hclaim : claim = some stepId := (h.passes pid _ hp).stage
  refine ⟨hclaim, ?_⟩
  generalize hs₁ : s.advance taskOf pid ⟨.claimMergeDir stepId epoch, .commit claim⟩ = s₁
  have hguard : s₁.guard = some stepId := hs₁ ▸ rfl
  cases hstale : s₁.stale taskOf stepId with
  | true => exact .inr hstale
  | false => exact .inl (Option.filter_eq_some_iff.mpr ⟨hguard, by simp [hstale]⟩)

namespace Sample

def quiet : Sys where
  tasks := fun _ => ⟨.running, 1, true, false⟩
  steps := fun _ => .running
  finished := fun _ => false
  claim := none
  lock := none
  passes := fun _ => none
  guard := none

def ofTask (stepId : Nat) : Nat := stepId / 10

def advances (pid n : Nat) : List Action := List.replicate n (.advance pid)

/-- Step 10 of task 1 claims the directory and writes to it, while task 2 asks for it. -/
def section10 : List Action :=
  [.call 0 (.claimMergeDir 10 (some 1))] ++ advances 0 4 ++
    [.call 1 (.inMergeDirUnlessClaimed 2), .call 0 (.withMergeDirSection 10 (some 1))] ++ advances 0 3 ++
    [.advance 1]

/-- A Stop comes while the section writes. -/
def stopped : List Action := section10 ++ [.task 1 .fail]

theorem quiet_start : Start quiet := ⟨rfl, fun _ => rfl, rfl⟩

end Sample

open Haive.Steps.MergeDir.Sample

end Haive.Steps.MergeDir

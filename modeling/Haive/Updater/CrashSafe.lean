import Haive.Lib.Listing
import Haive.Updater.Run

/-!
# Crash safety of an update run

`update_crash_safe`: wherever the updater dies or a command fails, and however often it is
restarted, destructive data migrations run only after the gate has passed, a run that has
entered its commit phase is never rolled back, and a run ends with the pin and the overrides
of the version it ended on.

`Needs` says where a statement may stand. `Sound` has it of everything the updater has left
to do (`Lib.Leads`), and of what a throw makes it do instead.
-/

namespace Haive.Updater

open Lib

/-! ## What the statements see of a run -/

structure View where
  guard : Guard
  env : Install
  deployed : Install
  phase : UpgradePhase
  status : RunStatus
  verified : Bool

def Stmt.track : Stmt → View → View
  | .enterPhase phase, v => { v with phase }
  | .setImage key value, v => { v with env.images := v.env.images.set key value }
  | .setVersion version, v => { v with env.version := version }
  | .composeUp install, v => { v with deployed := install }
  | .finishRun status, v => { v with status }
  | _, v => v

/-- What must hold where a statement is reached. -/
def Stmt.Needs (previous target : Install) : Stmt → View → Prop
  | .startRun, _ => False
  | .enterPhase .commit, v =>
    v.guard = .giveUp ∧ v.status = .running ∧ v.verified = true ∧ v.env = target ∧ v.deployed = target
  | .enterPhase _, v => v.guard = .undo
  | .maintain, v | .settle, v => v.guard = .undo ∧ v.phase = .maintenance
  | .setImage .., v | .setVersion _, v | .composeUp _, v => v.guard ≠ .giveUp ∧ v.status = .running
  | .awaitVersion, v => v.guard = .undo ∧ v.env = target ∧ v.deployed = target
  | .destructiveDataMigrations, v => v.verified = true
  | .finishRun .rolledBack, v => v.guard = .rollbackFailed ∧ v.env = previous ∧ v.deployed = previous
  | .finishRun .done, v => v.guard = .giveUp ∧ v.phase = .commit
  | .finishRun _, _ => False
  | _, _ => True

abbrev Leading (previous target : Install) : List Stmt → View → Prop :=
  Leads Stmt.track (Stmt.Needs previous target)

/-- The invariant of a run. -/
structure View.Sound (previous target : Install) (v : View) : Prop where
  committed : v.phase = .commit →
    v.verified = true ∧ v.env = target ∧ v.deployed = target ∧ v.status ≠ .rolledBack
  rolledBack : v.status = .rolledBack → v.env = previous ∧ v.deployed = previous
  done : v.status = .done → v.phase = .commit
  undo : v.guard = .undo → v.status = .running ∧ v.phase ≠ .commit
  undoing : v.guard = .rollbackFailed → v.phase ≠ .commit

variable {previous target : Install} {v : View} {st : Stmt} {ctx : UpgradeContext}

theorem View.Sound.phase_ne (h : v.Sound previous target) (hguard : v.guard ≠ .giveUp) : v.phase ≠ .commit := by
  cases hg : v.guard with
  | giveUp => exact absurd hg hguard
  | undo => exact (h.undo hg).2
  | rollbackFailed => exact h.undoing hg

/-- Before the commit phase the install may be rewritten while the run is open. -/
theorem View.Sound.rewrite (h : v.Sound previous target) (hguard : v.guard ≠ .giveUp)
    (hrunning : v.status = .running) (env deployed : Install) :
    View.Sound previous target { v with env, deployed } where
  committed hphase := absurd hphase (h.phase_ne hguard)
  rolledBack hstatus := by rw [show v.status = .rolledBack from hstatus] at hrunning; cases hrunning
  done := h.done
  undo := h.undo
  undoing := h.undoing

theorem View.Sound.track (h : v.Sound previous target) (hneeds : st.Needs previous target v) :
    (st.track v).Sound previous target := by
  cases st with
  | enterPhase phase =>
    by_cases hphase : phase = .commit
    · subst hphase
      obtain ⟨hg, hs, hv, henv, hdep⟩ := hneeds
      constructor <;> simp_all [Stmt.track]
    · have hguard : v.guard = .undo := by cases phase <;> first | exact hneeds | exact absurd rfl hphase
      obtain ⟨hs, -⟩ := h.undo hguard
      constructor <;> simp_all [Stmt.track]
  | setImage key value => exact h.rewrite hneeds.1 hneeds.2 { v.env with images := _ } v.deployed
  | setVersion version => exact h.rewrite hneeds.1 hneeds.2 { v.env with version } v.deployed
  | composeUp install => exact h.rewrite hneeds.1 hneeds.2 v.env install
  | finishRun status =>
    cases status with
    | rolledBack =>
      obtain ⟨hg, henv, hdep⟩ := hneeds
      have hphase := h.undoing hg
      constructor <;> simp_all [Stmt.track]
    | done =>
      obtain ⟨hg, hphase⟩ := hneeds
      obtain ⟨hv, henv, hdep, -⟩ := h.committed hphase
      constructor <;> simp_all [Stmt.track]
    | _ => exact hneeds.elim
  | _ => exact h

/-! ## The lists of statements -/

theorem leads_pin {install : Install} {rest : List Stmt} (hguard : v.guard ≠ .giveUp)
    (hrunning : v.status = .running) :
    Leading previous target (pin install ++ rest) v ↔ Leading previous target rest { v with env := install } := by
  simp [pin, Stmt.Needs, Stmt.track, hguard, hrunning, ImageOverrides.set]

theorem leads_rollback (hprevious : ctx.previous = previous) (hguard : v.guard = .rollbackFailed)
    (hrunning : v.status = .running) : Leading previous target (rollback ctx) v := by
  rw [rollback, leads_pin (by simp [hguard]) hrunning]
  simp [Stmt.Needs, Stmt.track, hguard, hrunning, hprevious]

theorem leads_phaseCommit (hguard : v.guard = .giveUp) (hrunning : v.status = .running)
    (hverified : v.verified = true) (henv : v.env = target) (hdeployed : v.deployed = target) :
    Leading previous target phaseCommit v := by
  simp [phaseCommit, Stmt.Needs, Stmt.track, hguard, hrunning, hverified, henv, hdeployed]

theorem leads_upgrade (htarget : ctx.target = target) (hguard : v.guard = .undo) (hrunning : v.status = .running) :
    Leading previous target (upgrade ctx) v := by
  subst htarget
  cases hsnap : ctx.postgresVolume <;>
    simp [upgrade, hsnap, phaseDraining, phaseMaintenance, phaseSnapshot, phaseMigrate, phaseVerify, pin,
      Stmt.Needs, Stmt.track, hguard, hrunning, ImageOverrides.set]

/-! ## The invariant -/

/-- The run as a process with the guard `guard` sees it. -/
def Sys.view (s : Sys) (guard : Guard) (run : UpgradeRun) : View :=
  ⟨guard, s.env, s.deployed, run.phase, run.status, s.verified⟩

/-- What an updater that is at work on a run has left to do. -/
structure UpdaterProcess.Sound (s : Sys) (run : UpgradeRun) (u : UpdaterProcess) : Prop where
  previous : u.ctx.previous = run.previous
  target : u.ctx.target = run.target
  view : (s.view u.guard run).Sound run.previous run.target
  leads : Leading run.previous run.target u.todo (s.view u.guard run)

def UpdaterProcess.Opening (install : Install) (u : UpdaterProcess) : Prop :=
  u.guard = .giveUp ∧ u.ctx.previous = install ∧ u.todo = .startRun :: upgrade u.ctx

/-- The invariant, for an install that was `install` before the run. -/
structure Sys.Sound (install : Install) (s : Sys) : Prop where
  destroyed : s.destroyed = true → s.verified = true
  unopened : s.journal = none → s.env = install ∧ ∀ u, s.updater = some u → u.Opening install
  opened : ∀ run, s.journal = some run → run.previous = install ∧
    (s.view .giveUp run).Sound run.previous run.target ∧ ∀ u, s.updater = some u → u.Sound s run

variable {install : Install} {s : Sys} {run : UpgradeRun} {u : UpdaterProcess} {o : Observed} {rest : List Stmt}

theorem Sys.sound_start (deployed : Install) (state : MaintenanceState) :
    (Sys.start install deployed state).Sound install where
  destroyed h := by cases h
  unopened _ := ⟨rfl, fun u hu => by cases hu⟩
  opened run hrun := by cases hrun

/-- What a statement does to an open run, `startRun` and the gate apart. -/
theorem Stmt.effect_spec (o : Observed) (ctx : UpgradeContext) (hstart : st ≠ .startRun) (hgate : st ≠ .awaitVersion) (hrun : s.journal = some run) :
    ∃ run', (st.effect o ctx s).journal = some run' ∧ run'.previous = run.previous ∧
      run'.target = run.target ∧ (∀ guard, (st.effect o ctx s).view guard run' = st.track (s.view guard run)) ∧
      ((st.effect o ctx s).destroyed = true → s.destroyed = true ∨ st = .destructiveDataMigrations) ∧
      (st.effect o ctx s).verified = s.verified := by
  cases st with
  | startRun => exact absurd rfl hstart
  | awaitVersion => exact absurd rfl hgate
  | hold =>
    refine ⟨run, ?_⟩
    by_cases h : ctx.lastState = .normal <;> simp [Stmt.effect, h, hrun, Sys.view, Stmt.track]
  | reopen =>
    refine ⟨run, ?_⟩
    by_cases h : ctx.lastState = .normal <;> simp [Stmt.effect, h, hrun, Sys.view, Stmt.track]
  | enter =>
    refine ⟨run, ?_⟩
    by_cases h : ctx.entered && ctx.lastState = .draining <;> simp [Stmt.effect, h, hrun, Sys.view, Stmt.track]
  | _ => simp [Stmt.effect, Sys.onRun, hrun, Sys.view, Stmt.track, UpgradeRun.recordFoundState]

theorem leads_maintain (hguard : v.guard = .undo) (hphase : v.phase = .maintenance) :
    Leading previous target
      ([.enterPhase .draining, .awaitDrain, .deadline, .enterPhase .maintenance, .maintain] ++ rest) v ↔
        Leading previous target rest v := by
  obtain ⟨guard, env, deployed, phase, status, verified⟩ := v
  obtain rfl := hguard
  obtain rfl := hphase
  simp [Stmt.Needs, Stmt.track]

/-- What is left after a statement that has returned leads on where the rest did. -/
theorem Stmt.after_spec {u' : UpdaterProcess} (hstart : st ≠ .startRun) (hgate : st ≠ .awaitVersion)
    (hafter : st.after o s u rest = some u') (hneeds : st.Needs previous target v)
    (hrest : Leading previous target rest (st.track v)) :
    u'.guard = u.guard ∧ u'.ctx.previous = u.ctx.previous ∧ u'.ctx.target = u.ctx.target ∧
      Leading previous target u'.todo (st.track v) := by
  cases st with
  | startRun => exact absurd rfl hstart
  | awaitVersion => exact absurd rfl hgate
  | rethrow => cases hafter
  | awaitDrain =>
    simp only [Stmt.after] at hafter
    split at hafter
    · cases hafter
      exact ⟨rfl, rfl, rfl, hrest⟩
    split at hafter
    · split at hafter
      · cases hafter
        exact ⟨rfl, rfl, rfl, hrest⟩
      · cases hafter
    · cases hafter
      exact ⟨rfl, rfl, rfl, trivial, hrest⟩
  | maintain =>
    simp only [Stmt.after] at hafter
    split at hafter
    · cases hafter
      exact ⟨rfl, rfl, rfl, (leads_idle (by simp [Idle, Stmt.Needs, Stmt.track])).mpr hrest⟩
    · cases hafter
      exact ⟨rfl, rfl, rfl, (leads_idle (by simp [Idle, Stmt.Needs, Stmt.track])).mpr ⟨hneeds, hrest⟩⟩
  | settle =>
    simp only [Stmt.after] at hafter
    split at hafter
    · cases hafter
      exact ⟨rfl, rfl, rfl, hrest⟩
    · cases hafter
      exact ⟨rfl, rfl, rfl, (leads_maintain hneeds.1 hneeds.2).mpr hrest⟩
  | deadline =>
    simp only [Stmt.after] at hafter
    split at hafter
    · split at hafter
      · cases hafter
        exact ⟨rfl, rfl, rfl, hrest⟩
      · cases hafter
    · cases hafter
      exact ⟨rfl, rfl, rfl, hrest⟩
  | restoreMaintenanceState =>
    simp only [Stmt.after] at hafter
    split at hafter
    · cases hafter
      exact ⟨rfl, rfl, rfl, hrest⟩
    · cases hafter
      exact ⟨rfl, rfl, rfl, trivial, hrest⟩
  | readFoundState =>
    obtain ⟨run, -, rfl⟩ := Option.map_eq_some_iff.mp hafter
    exact ⟨rfl, rfl, rfl, (leads_idle (by simp [Idle, Stmt.Needs, Stmt.track])).mpr hrest⟩
  | _ =>
    cases hafter
    exact ⟨rfl, rfl, rfl, hrest⟩

/-- Without an updater at work there is less to keep. -/
theorem View.Sound.giveUp (h : v.Sound previous target) : View.Sound previous target { v with guard := .giveUp } :=
  { h with undo := fun hg => (by cases hg), undoing := fun hg => (by cases hg) }

/-- An updater between two statements, whatever it has left to do. -/
structure UpdaterProcess.Between (s : Sys) (run : UpgradeRun) (u : UpdaterProcess) : Prop where
  previous : u.ctx.previous = run.previous
  target : u.ctx.target = run.target
  view : (s.view u.guard run).Sound run.previous run.target

/-- What a throw makes an updater do leads on. -/
theorem UpdaterProcess.Between.onThrow {u' : UpdaterProcess} (h : u.Between s run) (hthrow : u.onThrow = some u') :
    u'.Sound s run := by
  unfold UpdaterProcess.onThrow at hthrow
  split at hthrow
  case h_1 => cases hthrow
  case h_2 hguard =>
    cases hthrow
    obtain ⟨hrunning, hphase⟩ := h.view.undo hguard
    refine ⟨h.previous, h.target, ?_, leads_rollback h.previous rfl hrunning⟩
    exact { h.view with undo := fun hg => (by cases hg), undoing := fun _ => hphase }
  case h_3 =>
    cases hthrow
    exact ⟨h.previous, h.target, h.view.giveUp, trivial, trivial⟩

theorem UpdaterProcess.Between.onFail {u' : UpdaterProcess} (h : u.Between s run) (hfail : u.onFail st = some u') :
    u'.Sound s run := by
  unfold UpdaterProcess.onFail at hfail
  split at hfail
  · cases hfail
    exact ⟨h.previous, h.target, h.view, trivial, trivial, trivial, trivial⟩
  · exact h.onThrow hfail

/-! ## Steps -/

/-- The state a statement leaves, whether it returned or its command failed. -/
theorem UpdaterProcess.Sound.effect (h : u.Sound s run) (hrun : s.journal = some run) (htodo : u.todo = st :: rest)
    (hdestroyed : s.destroyed = true → s.verified = true) :
    ∃ run', (st.effect o u.ctx s).journal = some run' ∧ run'.previous = run.previous ∧
      u.Between (st.effect o u.ctx s) run' ∧
      ((st.effect o u.ctx s).destroyed = true → (st.effect o u.ctx s).verified = true) := by
  have hneeds : st.Needs run.previous run.target (s.view u.guard run) := (htodo ▸ h.leads).first
  by_cases hgate : st = .awaitVersion
  · subst hgate
    have hphase := h.view.undo hneeds.1
    refine ⟨run, hrun, rfl, ⟨h.previous, h.target, ?_⟩, fun hd => ?_⟩
    · exact { h.view with committed := fun hp => absurd hp hphase.2 }
    · exact Bool.or_eq_true_iff.mpr (.inl (hdestroyed hd))
  · have hstart : st ≠ .startRun := by
      rintro rfl
      exact hneeds
    obtain ⟨run', hrun', hprev, htarget, hview, hdest, hver⟩ :=
      Stmt.effect_spec o u.ctx hstart hgate hrun
    refine ⟨run', hrun', hprev, ⟨h.previous.trans hprev.symm, h.target.trans htarget.symm, ?_⟩, fun hd => ?_⟩
    · rw [hprev, htarget, hview]
      exact h.view.track hneeds
    · rw [hver]
      rcases hdest hd with hd | rfl
      · exact hdestroyed hd
      · exact hneeds

/-- The gate leads on to the commit phase or back. -/
theorem UpdaterProcess.Sound.gate {u' : UpdaterProcess} (h : u.Sound s run) (htodo : u.todo = .awaitVersion :: rest) (hbetween : u.Between (Stmt.awaitVersion.effect o u.ctx s) run)
    (hafter : Stmt.awaitVersion.after o (Stmt.awaitVersion.effect o u.ctx s) u rest = some u') :
    u'.Sound (Stmt.awaitVersion.effect o u.ctx s) run := by
  obtain ⟨hguard, henv, hdeployed⟩ := (htodo ▸ h.leads).first
  obtain ⟨hrunning, hphase⟩ := h.view.undo hguard
  simp only [Stmt.after] at hafter
  split at hafter
  case isTrue hreported =>
    cases hafter
    have hverified : (Stmt.awaitVersion.effect o u.ctx s).verified = true := by simp [Stmt.effect, hreported]
    exact ⟨h.previous, h.target, hbetween.view.giveUp,
      leads_phaseCommit rfl hrunning hverified henv hdeployed⟩
  case isFalse =>
    cases hafter
    refine ⟨h.previous, h.target, ?_, leads_rollback h.previous rfl hrunning⟩
    exact { hbetween.view with undo := fun hg => (by cases hg), undoing := fun _ => hphase }

/-- What a statement that returned leaves to do. -/
theorem UpdaterProcess.Sound.after {u' : UpdaterProcess} (h : u.Sound s run) (hrun : s.journal = some run)
    (htodo : u.todo = st :: rest) {run' : UpgradeRun} (hrun' : (st.effect o u.ctx s).journal = some run')
    (hbetween : u.Between (st.effect o u.ctx s) run')
    (hafter : st.after o (st.effect o u.ctx s) u rest = some u') : u'.Sound (st.effect o u.ctx s) run' := by
  have hleads : Leading run.previous run.target (st :: rest) (s.view u.guard run) := htodo ▸ h.leads
  by_cases hgate : st = .awaitVersion
  · subst hgate
    obtain rfl : run = run' := Option.some.inj (hrun.symm.trans hrun')
    exact h.gate htodo hbetween hafter
  · have hstart : st ≠ .startRun := by
      rintro rfl
      exact hleads.first
    obtain ⟨run'', hrun'', hprev, htarget, hview, -⟩ := Stmt.effect_spec o u.ctx hstart hgate hrun
    obtain rfl : run'' = run' := Option.some.inj (hrun''.symm.trans hrun')
    obtain ⟨hguard, hprev', htarget', htodo'⟩ := Stmt.after_spec hstart hgate hafter hleads.first hleads.tail
    refine ⟨hprev'.trans hbetween.previous, htarget'.trans hbetween.target, ?_, ?_⟩
    · rw [hguard]
      exact hbetween.view
    · rw [hguard, hview, hprev, htarget]
      exact htodo'

theorem Sys.Sound.of_opened (hrun : s.journal = some run) (hprevious : run.previous = install)
    (hdestroyed : s.destroyed = true → s.verified = true)
    (hview : (s.view .giveUp run).Sound run.previous run.target) {updater : Option UpdaterProcess}
    (hupdater : ∀ u, updater = some u → u.Sound s run) : Sys.Sound install { s with updater } where
  destroyed := hdestroyed
  unopened hnone := by
    rw [show s.journal = none from hnone] at hrun
    cases hrun
  opened run' hrun' := by
    obtain rfl : run = run' := Option.some.inj (hrun.symm.trans hrun')
    refine ⟨hprevious, hview, fun u hu => ?_⟩
    have h := hupdater u hu
    exact ⟨h.previous, h.target, h.view, h.leads⟩

/-- A restarted updater finishes or undoes the run. -/
theorem sound_resume (hrunning : run.status = .running) (hview : (s.view .giveUp run).Sound run.previous run.target) :
    (Sys.resume run).Sound s run := by
  unfold Sys.resume
  cases hphase : decideResume run.phase with
  | forward =>
    have hcommit : run.phase = .commit := by cases hp : run.phase <;> simp_all [decideResume]
    obtain ⟨hverified, henv, hdeployed, -⟩ := hview.committed hcommit
    exact ⟨rfl, rfl, hview, leads_phaseCommit rfl hrunning hverified henv hdeployed⟩
  | reverse =>
    have hcommit : run.phase ≠ .commit := by
      intro hp
      rw [hp] at hphase
      cases hphase
    refine ⟨rfl, rfl, ?_, leads_rollback rfl rfl hrunning⟩
    exact { hview with undo := fun hg => (by cases hg), undoing := fun _ => hcommit }

/-- Nobody is at work any more. -/
theorem Sys.Sound.idle (h : s.Sound install) : Sys.Sound install { s with updater := none } :=
  ⟨h.destroyed, fun hj => ⟨(h.unopened hj).1, fun u hu => by cases hu⟩, fun run hrun =>
    let ⟨hprev, hview, _⟩ := h.opened run hrun
    ⟨hprev, hview, fun u hu => by cases hu⟩⟩

/-- `startRun` opens a run that the whole upgrade leads through. -/
theorem Sys.Sound.startRun (h : s.Sound install) (hprevious : ctx.previous = install)
    {updater : Option UpdaterProcess}
    (hupdater : ∀ u, updater = some u → u = ⟨ctx, .undo, upgrade ctx⟩) :
    Sys.Sound install { Stmt.startRun.effect o ctx s with updater } := by
  have hview : ∀ guard, guard ≠ .rollbackFailed →
      View.Sound ctx.previous ctx.target ⟨guard, s.env, s.deployed, .preflight, .running, s.verified⟩ :=
    fun guard hg => ⟨fun hp => (by cases hp), fun hs => (by cases hs), fun hs => (by cases hs),
      fun _ => ⟨rfl, fun hp => by cases hp⟩, fun hg' => absurd hg' hg⟩
  refine .of_opened (s := Stmt.startRun.effect o ctx s) rfl hprevious h.destroyed (hview .giveUp nofun)
    fun u hu => ?_
  obtain rfl := hupdater u hu
  exact ⟨rfl, rfl, hview .undo nofun, leads_upgrade rfl rfl rfl⟩

theorem Sys.Sound.returned {s' : Sys} (h : s.Sound install) (hs : s.step (.run o) = some s') : s'.Sound install := by
  rw [Sys.step] at hs
  split at hs
  case h_2 => cases hs
  case h_1 u hu =>
    split at hs
    case h_1 =>
      cases hs
      exact h.idle
    case h_2 st rest htodo =>
      cases hj : s.journal with
      | none =>
        obtain ⟨hguard, hprev, htodo'⟩ := (h.unopened hj).2 u hu
        obtain ⟨rfl, rfl⟩ := List.cons.inj (htodo.symm.trans htodo')
        cases hs
        exact h.startRun hprev fun u' hu' => (Option.some.inj hu').symm
      | some run =>
        obtain ⟨hprev, -, hupdater⟩ := h.opened run hj
        have hsound := hupdater u hu
        obtain ⟨run', hrun', hprev', hbetween, hdestroyed⟩ := hsound.effect (o := o) hj htodo h.destroyed
        simp only at hs
        split at hs
        case h_1 u' hafter =>
          cases hs
          refine .of_opened hrun' (hprev'.trans hprev) hdestroyed hbetween.view.giveUp fun v hv => ?_
          cases hv
          exact hsound.after hj htodo hrun' hbetween hafter
        case h_2 =>
          cases hs
          exact .of_opened hrun' (hprev'.trans hprev) hdestroyed hbetween.view.giveUp fun v hv =>
            hbetween.onThrow hv

theorem Sys.Sound.fail {applied : Bool} {s' : Sys} (h : s.Sound install) (hs : s.step (.fail o applied) = some s') :
    s'.Sound install := by
  rw [Sys.step] at hs
  split at hs
  case h_2 => cases hs
  case h_1 u hu =>
    split at hs
    case h_1 => cases hs
    case h_2 st rest htodo =>
      cases hj : s.journal with
      | none =>
        obtain ⟨hguard, hprev, htodo'⟩ := (h.unopened hj).2 u hu
        obtain ⟨rfl, rfl⟩ := List.cons.inj (htodo.symm.trans htodo')
        have hfail : u.onFail .startRun = none := by simp [UpdaterProcess.onFail, UpdaterProcess.onThrow, hguard]
        cases applied with
        | true =>
          cases hs
          exact h.startRun (o := o) hprev fun u' hu' => (by rw [hfail] at hu'; cases hu')
        | false =>
          cases hs
          rw [hfail]
          exact h.idle
      | some run =>
        obtain ⟨hprev, hview, hupdater⟩ := h.opened run hj
        have hsound := hupdater u hu
        cases applied with
        | true =>
          obtain ⟨run', hrun', hprev', hbetween, hdestroyed⟩ := hsound.effect (o := o) hj htodo h.destroyed
          rw [if_pos rfl] at hs
          cases hs
          exact .of_opened hrun' (hprev'.trans hprev) hdestroyed hbetween.view.giveUp fun v hv =>
            hbetween.onFail hv
        | false =>
          rw [if_neg nofun] at hs
          cases hs
          exact .of_opened hj hprev h.destroyed hview fun v hv =>
            UpdaterProcess.Between.onFail ⟨hsound.previous, hsound.target, hsound.view⟩ hv

/-- A write of the maintenance state that is tried again. -/
theorem Sys.Sound.retry {applied : Bool} {s' : Sys} (h : s.Sound install) (hs : s.step (.retry applied) = some s') :
    s'.Sound install := by
  rw [Sys.step] at hs
  split at hs
  case h_2 => cases hs
  case h_1 u hu =>
    split at hs
    case h_2 => cases hs
    case h_1 state rest htodo =>
      cases hj : s.journal with
      | none =>
        obtain ⟨-, -, htodo'⟩ := (h.unopened hj).2 u hu
        rw [htodo] at htodo'
        cases htodo'
      | some run =>
        obtain ⟨hprev, hview, hupdater⟩ := h.opened run hj
        have hsound := hupdater u hu
        have hrest : Leading run.previous run.target rest (s.view u.guard run) := by
          have hleads := hsound.leads
          rw [htodo] at hleads
          exact hleads.tail
        have hagain : Leading run.previous run.target ([.fence, .fence, .setMaintenanceState state] ++ rest)
            (s.view u.guard run) := (leads_idle (by simp [Idle, Stmt.Needs, Stmt.track])).mpr hrest
        cases applied with
        | true =>
          rw [if_pos rfl] at hs
          cases hs
          refine .of_opened (s := { s with state }) hj hprev h.destroyed hview fun v hv => ?_
          cases hv
          exact ⟨hsound.previous, hsound.target, hsound.view, hagain⟩
        | false =>
          rw [if_neg nofun] at hs
          cases hs
          refine .of_opened hj hprev h.destroyed hview fun v hv => ?_
          cases hv
          exact ⟨hsound.previous, hsound.target, hsound.view, hagain⟩

theorem Sys.Sound.step {act : Act} {s' : Sys} (h : s.Sound install) (hs : s.step act = some s') :
    s'.Sound install := by
  cases act with
  | start target postgresVolume forceDrain =>
    rw [Sys.step] at hs
    split at hs
    case h_1 => cases hs
    case h_2 hu hj =>
      cases hs
      obtain ⟨henv, -⟩ := h.unopened hj
      refine ⟨h.destroyed, fun _ => ⟨henv, fun u hu => ?_⟩, fun run hrun => ?_⟩
      · cases hu
        exact ⟨rfl, henv, rfl⟩
      · rw [hj] at hrun
        cases hrun
    case h_3 run hu hj =>
      split at hs
      case isTrue hrunning =>
        cases hs
        obtain ⟨hprev, hview, -⟩ := h.opened run hj
        refine .of_opened hj hprev h.destroyed hview fun u hu => ?_
        cases hu
        exact sound_resume hrunning hview
      case isFalse => cases hs
  | run o => exact h.returned hs
  | fail o applied => exact h.fail hs
  | retry applied => exact h.retry hs
  | crash =>
    rw [Sys.step] at hs
    split at hs
    · cases hs
      exact h.idle
    · cases hs

/-! ## Crash safety -/

theorem Sys.Sound.of_runs {deployed : Install} {state : MaintenanceState} {acts : List Act}
    (hrun : runs Sys.step (.start install deployed state) acts = some s) : s.Sound install :=
  runs_keep (fun _ _ _ h hs => h.step hs) (Sys.sound_start deployed state) hrun

theorem View.Sound.track_commit (h : v.Sound previous target) (hneeds : st.Needs previous target v)
    (hphase : v.phase = .commit) : (st.track v).phase = .commit := by
  cases st with
  | enterPhase phase =>
    cases phase with
    | commit => rfl
    | _ => exact absurd hphase (h.undo hneeds).2
  | _ => exact hphase

/-- No statement leaves the commit phase. -/
theorem UpdaterProcess.Sound.stays_committed (h : u.Sound s run) (hrun : s.journal = some run)
    (htodo : u.todo = st :: rest) (hphase : run.phase = .commit) :
    ∃ run', (st.effect o u.ctx s).journal = some run' ∧ run'.phase = .commit := by
  have hneeds : st.Needs run.previous run.target (s.view u.guard run) := (htodo ▸ h.leads).first
  by_cases hgate : st = .awaitVersion
  · subst hgate
    exact ⟨run, hrun, hphase⟩
  · have hstart : st ≠ .startRun := by
      rintro rfl
      exact hneeds
    obtain ⟨run', hrun', -, -, hview, -⟩ := Stmt.effect_spec o u.ctx hstart hgate hrun
    refine ⟨run', hrun', ?_⟩
    have htrack := h.view.track_commit hneeds hphase
    rw [← hview] at htrack
    exact htrack

theorem Sys.Sound.stays_committed {act : Act} {s' : Sys} (h : s.Sound install) (hrun : s.journal = some run)
    (hphase : run.phase = .commit) (hs : s.step act = some s') :
    ∃ run', s'.journal = some run' ∧ run'.phase = .commit := by
  obtain ⟨-, -, hupdater⟩ := h.opened run hrun
  cases act with
  | start target postgresVolume forceDrain =>
    rw [Sys.step, hrun] at hs
    split at hs
    case h_1 => cases hs
    case h_2 hj => cases hj
    case h_3 hj =>
      cases hj
      split at hs
      · cases hs
        exact ⟨run, rfl, hphase⟩
      · cases hs
  | run o =>
    rw [Sys.step] at hs
    split at hs
    case h_2 => cases hs
    case h_1 u hu =>
      split at hs
      case h_1 =>
        cases hs
        exact ⟨run, hrun, hphase⟩
      case h_2 st rest htodo =>
        obtain ⟨run', hrun', hphase'⟩ := (hupdater u hu).stays_committed (o := o) hrun htodo hphase
        simp only at hs
        split at hs <;>
        · cases hs
          exact ⟨run', hrun', hphase'⟩
  | fail o applied =>
    rw [Sys.step] at hs
    split at hs
    case h_2 => cases hs
    case h_1 u hu =>
      split at hs
      case h_1 => cases hs
      case h_2 st rest htodo =>
        cases hs
        cases applied with
        | true => exact (hupdater u hu).stays_committed (o := o) hrun htodo hphase
        | false => exact ⟨run, hrun, hphase⟩
  | retry applied =>
    rw [Sys.step] at hs
    split at hs
    case h_2 => cases hs
    case h_1 u hu =>
      split at hs
      case h_2 => cases hs
      case h_1 =>
        cases hs
        cases applied <;> exact ⟨run, hrun, hphase⟩
  | crash =>
    rw [Sys.step] at hs
    split at hs
    · cases hs
      exact ⟨run, hrun, hphase⟩
    · cases hs

/-- Wherever the updater dies or a command fails, and however often it is restarted: nothing
is destroyed before the gate has passed, a run that has entered its commit phase is never
rolled back, and a run ends with the pin, the overrides and the containers of the version
that it ended on. -/
theorem update_crash_safe {deployed : Install} {state : MaintenanceState} {acts : List Act}
    (hreach : runs Sys.step (.start install deployed state) acts = some s) :
    (s.destroyed = true → s.verified = true) ∧
    ∀ run, s.journal = some run →
      (run.phase = .commit → ∀ later s', runs Sys.step s later = some s' →
        ∃ run', s'.journal = some run' ∧ run'.phase = .commit ∧ run'.status ≠ .rolledBack ∧
          s'.env = run'.target ∧ s'.deployed = run'.target) ∧
      (run.status = .rolledBack → s.env = install ∧ s.deployed = install) ∧
      (run.status = .done → s.env = run.target ∧ s.deployed = run.target) := by
  have h := Sys.Sound.of_runs hreach
  refine ⟨h.destroyed, fun run hrun => ?_⟩
  obtain ⟨hprevious, hview, -⟩ := h.opened run hrun
  refine ⟨fun hphase later s' hlater => ?_, fun hstatus => ?_, fun hstatus => ?_⟩
  · have hkeep : s'.Sound install ∧ ∃ run', s'.journal = some run' ∧ run'.phase = .commit :=
      runs_keep (I := fun s => s.Sound install ∧ ∃ run, s.journal = some run ∧ run.phase = .commit)
        (fun s₁ act s₂ ⟨h₁, run₁, hrun₁, hphase₁⟩ hs => ⟨h₁.step hs, h₁.stays_committed hrun₁ hphase₁ hs⟩)
        ⟨h, run, hrun, hphase⟩ hlater
    obtain ⟨h', run', hrun', hphase'⟩ := hkeep
    obtain ⟨-, henv, hdeployed, hstatus⟩ := (h'.opened run' hrun').2.1.committed hphase'
    exact ⟨run', hrun', hphase', hstatus, henv, hdeployed⟩
  · rw [← hprevious]
    exact hview.rolledBack hstatus
  · obtain ⟨-, henv, hdeployed, -⟩ := hview.committed (hview.done hstatus)
    exact ⟨henv, hdeployed⟩

namespace Sample

def noImages : ImageOverrides := ⟨"", "", ""⟩

def old : Install := ⟨"1.0.0", noImages⟩

def new : Install := ⟨"1.1.0", ⟨"own-api:1.1.0", "own-worker:1.1.0", ""⟩⟩

/-- Nothing is live, no deadline has passed and the new version answers. -/
def calm : Observed := ⟨0, false, true⟩

/-- The destructive data migrations have run and the updater dies before it lifts the holds.
The next one finishes. -/
def diesCommitting : List Act :=
  .start new false false :: List.replicate 30 (.run calm) ++ [.crash, .start new false false] ++
    List.replicate 8 (.run calm)

end Sample

open Haive.Updater.Sample in
theorem update_crash_safe_committing :
    ∃ s, runs Sys.step (.start old old .normal) diesCommitting = some s ∧ s.destroyed = true ∧
      (s.destroyed = true → s.verified = true) ∧
      ∀ run, s.journal = some run →
        (run.phase = .commit → ∀ later s', runs Sys.step s later = some s' →
          ∃ run', s'.journal = some run' ∧ run'.phase = .commit ∧ run'.status ≠ .rolledBack ∧
            s'.env = run'.target ∧ s'.deployed = run'.target) ∧
        (run.status = .rolledBack → s.env = old ∧ s.deployed = old) ∧
        (run.status = .done → s.env = run.target ∧ s.deployed = run.target) :=
  ⟨_, rfl, rfl, update_crash_safe (show runs Sys.step (.start old old .normal) diesCommitting = some _ from rfl)⟩

end Haive.Updater

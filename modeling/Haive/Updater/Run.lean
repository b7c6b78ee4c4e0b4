import Haive.Lib.Runs

/-!
# An update run

`updater/src/run.ts`, `cli.ts`, `phases.ts` and `journal.ts`: one updater process at a time
works through the phases statement by statement, journals around them, and may die or have a
command fail anywhere. A command that fails may have had its effect all the same. A restarted
updater finds the run still marked `running` and finishes or undoes it.

`main` is modelled from where it has the lock and its preflight has passed; an attempt it
refuses changes nothing but the history of attempts. What docker and the api answer, how much
work is live and whether the drain deadline has passed is observed from outside (`Observed`).
Errors, log lines, file names and the text of messages are left out, nothing reads them back.
-/

namespace Haive.Updater

open Lib

/-! ## Phases -/

/-- `UPGRADE_PHASES`. -/
inductive UpgradePhase
  | preflight | draining | maintenance | snapshot | migrate | verify | commit
deriving DecidableEq

inductive RunStatus
  | running | done | failed | rolledBack | refused
deriving DecidableEq

inductive ResumeAction
  | reverse | forward
deriving DecidableEq

def decideResume : UpgradePhase → ResumeAction
  | .preflight | .draining | .maintenance | .snapshot | .migrate | .verify => .reverse
  | .commit => .forward

inductive MaintenanceState
  | normal | draining | maintenance
deriving DecidableEq

/-! ## The install and the journal -/

/-- `IMAGE_KEYS`. -/
inductive ImageKey
  | api | worker | web
deriving DecidableEq

structure ImageOverrides where
  api : String
  worker : String
  web : String
deriving DecidableEq

def ImageOverrides.set (images : ImageOverrides) (key : ImageKey) (value : String) : ImageOverrides :=
  match key with
  | .api => { images with api := value }
  | .worker => { images with worker := value }
  | .web => { images with web := value }

def ImageOverrides.get (images : ImageOverrides) : ImageKey → String
  | .api => images.api
  | .worker => images.worker
  | .web => images.web

/-- The pin `HAIVE_VERSION` and the image overrides, in `.env` or as handed to compose. -/
structure Install where
  version : String
  images : ImageOverrides
deriving DecidableEq

/-- The live row of `upgrade_runs`. `foundState` is its `metadata ->> 'foundState'`. -/
structure UpgradeRun where
  previous : Install
  target : Install
  phase : UpgradePhase
  status : RunStatus
  foundState : Option MaintenanceState
deriving DecidableEq

/-- `recordFoundState`: what is recorded already stays. -/
def UpgradeRun.recordFoundState (run : UpgradeRun) (state : MaintenanceState) : UpgradeRun :=
  { run with foundState := run.foundState.or (some state) }

/-- `readFoundState`: `parseMaintenanceState` makes `normal` of a row without one. -/
def UpgradeRun.readFoundState (run : UpgradeRun) : MaintenanceState := run.foundState.getD .normal

/-! ## Statements -/

/-- The awaited commands of the phases, and the points where the code branches on what it
has read. -/
inductive Stmt
  | startRun
  | enterPhase (phase : UpgradePhase)
  /-- The fence is taken or given back. -/
  | fence
  /-- `getFresh` of the maintenance state. -/
  | look
  | recordFoundState
  /-- `holdDraining` writes draining over normal. -/
  | hold
  | awaitDrain
  /-- The head of the loop of `phaseMaintenance`. -/
  | maintain
  /-- `liveWorkCount` on the fence, and `entered`. -/
  | count
  /-- `enterMaintenance` writes draining over normal. -/
  | reopen
  /-- `enterMaintenance` writes maintenance over draining. -/
  | enter
  /-- The loop goes on by what `enterMaintenance` returned. -/
  | settle
  /-- `reopenedAtDeadline`, where the deadline has passed. -/
  | deadline
  | setMaintenanceState (state : MaintenanceState)
  | composeStop
  | snapshotVolume
  | composeUpPostgres
  | awaitDatabase
  /-- The end of a `finally` block that a throw ran. -/
  | rethrow
  | recordSnapshot
  | migrate
  | setImage (key : ImageKey) (value : String)
  | setVersion (version : String)
  | composeUp (install : Install)
  | awaitVersion
  | destructiveDataMigrations
  | restoreMaintenanceState
  | readFoundState
  | finishRun (status : RunStatus)
  | recordRunError
deriving DecidableEq

/-- `UpgradeContext`. `forced` is `drainForced`, then the local of `phaseMaintenance`.
`entered` is what the last recount returned. -/
structure UpgradeContext where
  previous : Install
  target : Install
  postgresVolume : Bool
  forceDrain : Bool
  forced : Bool
  lastState : MaintenanceState
  entered : Bool
  stateUntouched : Bool
deriving DecidableEq

def pin (install : Install) : List Stmt :=
  [.setImage .api install.images.api, .setImage .worker install.images.worker,
   .setImage .web install.images.web, .setVersion install.version]

def phaseDraining : List Stmt :=
  [.enterPhase .draining, .fence, .look, .recordFoundState, .hold, .fence, .awaitDrain]

def phaseMaintenance : List Stmt := [.enterPhase .maintenance, .maintain]

def phaseSnapshot : List Stmt :=
  [.enterPhase .snapshot, .composeStop, .snapshotVolume, .composeUpPostgres, .awaitDatabase, .recordSnapshot]

def phaseMigrate : List Stmt := [.enterPhase .migrate, .migrate]

def phaseVerify (ctx : UpgradeContext) : List Stmt :=
  .enterPhase .verify :: pin ctx.target ++ [.composeUp ctx.target, .awaitVersion]

def phaseCommit : List Stmt :=
  [.enterPhase .commit, .destructiveDataMigrations, .restoreMaintenanceState, .finishRun .done]

def rollback (ctx : UpgradeContext) : List Stmt :=
  pin ctx.previous ++ [.composeUp ctx.previous, .restoreMaintenanceState, .finishRun .rolledBack]

/-- The `try` block of `main` before the commit phase. -/
def upgrade (ctx : UpgradeContext) : List Stmt :=
  phaseDraining ++ phaseMaintenance ++ (if ctx.postgresVolume then phaseSnapshot else []) ++ phaseMigrate ++
    phaseVerify ctx

/-! ## The updater -/

/-- Where a throw goes. -/
inductive Guard
  /-- Before `startRun` has returned, and in the commit phase: `main` gives up. -/
  | giveUp
  /-- The `try` block around `upgrade`: `undo`. -/
  | undo
  /-- The `try` block around `rollback`: `rollbackFailed`. -/
  | rollbackFailed
deriving DecidableEq

structure UpdaterProcess where
  ctx : UpgradeContext
  guard : Guard
  todo : List Stmt
deriving DecidableEq

/-- `destroyed`: a destructive data migration has been executed. `verified`: the gate of
`phaseVerify` has passed. Neither is stored anywhere. -/
structure Sys where
  env : Install
  deployed : Install
  state : MaintenanceState
  destroyed : Bool
  verified : Bool
  journal : Option UpgradeRun
  updater : Option UpdaterProcess
deriving DecidableEq

/-- What a statement finds outside: live work, a deadline that has passed, the version the api
reports. -/
structure Observed where
  live : Nat
  late : Bool
  reported : Bool
deriving DecidableEq

def Sys.onRun (s : Sys) (f : UpgradeRun → UpgradeRun) : Sys := { s with journal := s.journal.map f }

/-- What a statement does outside the updater. -/
def Stmt.effect (st : Stmt) (o : Observed) (ctx : UpgradeContext) (s : Sys) : Sys :=
  match st with
  | .startRun => { s with journal := some ⟨ctx.previous, ctx.target, .preflight, .running, none⟩ }
  | .enterPhase phase => s.onRun fun run => { run with phase }
  | .recordFoundState => s.onRun fun run => run.recordFoundState ctx.lastState
  | .hold | .reopen => if ctx.lastState = .normal then { s with state := .draining } else s
  | .enter => if ctx.entered && ctx.lastState = .draining then { s with state := .maintenance } else s
  | .setMaintenanceState state => { s with state }
  | .setImage key value => { s with env := { s.env with images := s.env.images.set key value } }
  | .setVersion version => { s with env := { s.env with version } }
  | .composeUp install => { s with deployed := install }
  | .awaitVersion => { s with verified := s.verified || o.reported }
  | .destructiveDataMigrations => { s with destroyed := true }
  | .finishRun status => s.onRun fun run => { run with status }
  | _ => s

/-- The updater after a statement that has returned, or `none` where the code throws. `s` is
the state it has left. -/
def Stmt.after (st : Stmt) (o : Observed) (s : Sys) (u : UpdaterProcess) (rest : List Stmt) : Option UpdaterProcess :=
  match st with
  | .startRun => some ⟨u.ctx, .undo, rest⟩
  | .look => some { u with ctx.lastState := s.state, todo := rest }
  | .recordFoundState => some { u with ctx.stateUntouched := false, todo := rest }
  | .awaitDrain =>
    if o.live = 0 then some { u with ctx.forced := false, todo := rest }
    else if o.late then
      if u.ctx.forceDrain then some { u with ctx.forced := true, todo := rest } else none
    else some { u with todo := .awaitDrain :: rest }
  | .maintain =>
    if u.ctx.forced then some { u with todo := [.fence, .setMaintenanceState .maintenance, .fence] ++ rest }
    else some { u with todo := [.fence, .look, .count, .reopen, .enter, .fence] ++ .settle :: rest }
  | .count => some { u with ctx.entered := u.ctx.lastState ≠ .normal && o.live = 0, todo := rest }
  | .settle =>
    if u.ctx.entered then some { u with todo := rest }
    else
      some { u with
        todo := [.enterPhase .draining, .awaitDrain, .deadline, .enterPhase .maintenance, .maintain] ++ rest }
  | .deadline =>
    if !u.ctx.forced && o.late then
      if u.ctx.forceDrain then some { u with ctx.forced := true, todo := rest } else none
    else some { u with todo := rest }
  | .rethrow => none
  | .awaitVersion =>
    if o.reported then some ⟨u.ctx, .giveUp, phaseCommit⟩
    else some ⟨u.ctx, .rollbackFailed, rollback u.ctx⟩
  | .restoreMaintenanceState =>
    if u.ctx.stateUntouched then some { u with todo := rest } else some { u with todo := .readFoundState :: rest }
  | .readFoundState =>
    s.journal.map fun run =>
      { u with todo := [.fence, .setMaintenanceState run.readFoundState, .fence] ++ rest }
  | _ => some { u with todo := rest }

/-- What is left to do after a throw. -/
def UpdaterProcess.onThrow (u : UpdaterProcess) : Option UpdaterProcess :=
  match u.guard with
  | .giveUp => none
  | .undo => some { u with guard := .rollbackFailed, todo := rollback u.ctx }
  | .rollbackFailed => some { u with guard := .giveUp, todo := [.recordRunError] }

/-- A command that fails throws. `phaseSnapshot` brings Postgres back first. -/
def UpdaterProcess.onFail (u : UpdaterProcess) (st : Stmt) : Option UpdaterProcess :=
  match st with
  | .snapshotVolume => some { u with todo := [.composeUpPostgres, .awaitDatabase, .rethrow] }
  | _ => u.onThrow

inductive Act
  /-- `main` is called for `target`. -/
  | start (target : Install) (postgresVolume forceDrain : Bool)
  /-- The next statement is executed. -/
  | run (o : Observed)
  /-- The command of the next statement fails, `applied` if it had its effect. -/
  | fail (o : Observed) (applied : Bool)
  /-- A write of the maintenance state fails and is tried again. -/
  | retry (applied : Bool)
  /-- The updater dies. -/
  | crash
deriving DecidableEq

namespace Sys

def start (install deployed : Install) (state : MaintenanceState) : Sys :=
  ⟨install, deployed, state, false, false, none, none⟩

/-- A run that nobody has started. -/
def freshContext (s : Sys) (target : Install) (postgresVolume forceDrain : Bool) : UpgradeContext :=
  ⟨s.env, target, postgresVolume, forceDrain, false, .normal, false, true⟩

/-- The context of a restarted updater, from the journal. -/
def resumedContext (run : UpgradeRun) : UpgradeContext :=
  ⟨run.previous, run.target, false, true, false, .normal, false, false⟩

def resume (run : UpgradeRun) : UpdaterProcess :=
  let ctx := resumedContext run
  match decideResume run.phase with
  | .forward => ⟨ctx, .giveUp, phaseCommit⟩
  | .reverse => ⟨ctx, .rollbackFailed, rollback ctx⟩

def step (s : Sys) : Act → Option Sys
  | .start target postgresVolume forceDrain =>
    match s.updater, s.journal with
    | some _, _ => none
    | none, none =>
      let ctx := s.freshContext target postgresVolume forceDrain
      some { s with updater := some ⟨ctx, .giveUp, .startRun :: upgrade ctx⟩ }
    | none, some run => if run.status = .running then some { s with updater := some (resume run) } else none
  | .run o =>
    match s.updater with
    | some u =>
      match u.todo with
      | [] => some { s with updater := none }
      | st :: rest =>
        let s' := st.effect o u.ctx s
        match st.after o s' u rest with
        | some u' => some { s' with updater := some u' }
        | none => some { s' with updater := u.onThrow }
    | none => none
  | .fail o applied =>
    match s.updater with
    | some u =>
      match u.todo with
      | [] => none
      | st :: _ =>
        let s' := if applied then st.effect o u.ctx s else s
        some { s' with updater := u.onFail st }
    | none => none
  | .retry applied =>
    match s.updater with
    | some u =>
      match u.todo with
      | .setMaintenanceState state :: rest =>
        let s' := if applied then { s with state } else s
        some { s' with updater := some { u with todo := [.fence, .fence, .setMaintenanceState state] ++ rest } }
      | _ => none
    | none => none
  | .crash =>
    match s.updater with
    | some _ => some { s with updater := none }
    | none => none

end Sys

end Haive.Updater

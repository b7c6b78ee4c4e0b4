import Haive.Updater.CrashSafe

/-!
# The maintenance state after an update run

`found_state_restored`: a run that has ended leaves the maintenance state it found, in a run
of the system in which no updater is restarted on a row without a found state, unless that
state is normal. The row has none until `holdDraining` has recorded one. A restarted updater
reads the missing one as normal and lifts a hold that an administrator had set
(`preflight_crash_lifts_hold`); an updater that rolls back in the same process leaves the
state alone there.

`Known` is what the statements left to do can count on. `none` is a state nothing is known of.
-/

namespace Haive.Updater

open Lib

/-! ## What is known of the state -/

/-- `recorded`: the row has a found state. `ended`: its run is over. -/
structure Known where
  state : Option MaintenanceState
  lastState : Option MaintenanceState
  untouched : Bool
  recorded : Bool
  ended : Bool

def Stmt.learn (found : MaintenanceState) : Stmt → Known → Known
  | .look, k => { k with lastState := k.state }
  | .recordFoundState, k => { k with untouched := false, recorded := true }
  | .hold, k | .reopen, k | .enter, k | .maintain, k | .settle, k => { k with state := none, lastState := none }
  | .setMaintenanceState state, k => { k with state := some state }
  | .restoreMaintenanceState, k => if k.untouched then k else { k with state := some found }
  | .readFoundState, k => { k with state := some found }
  | .finishRun status, k => { k with ended := status ≠ .running }
  | _, k => k

/-- What must be known where a statement is reached. -/
def Stmt.Counts (found : MaintenanceState) : Stmt → Known → Prop
  | .startRun, _ => False
  | .recordFoundState, k => k.lastState = some found
  | .hold, k | .reopen, k | .enter, k | .maintain, k | .settle, k =>
    k.recorded = true ∧ k.untouched = false ∧ k.ended = false
  | .setMaintenanceState state, k => (k.recorded = true ∨ state = found) ∧ k.untouched = false ∧ k.ended = false
  | .restoreMaintenanceState, k => k.ended = false
  | .readFoundState, k => k.untouched = false ∧ k.ended = false
  | .finishRun _, k => k.state = some found
  | _, _ => True

abbrev Restoring (found : MaintenanceState) : List Stmt → Known → Prop :=
  Leads (Stmt.learn found) (Stmt.Counts found)

structure Known.Le (k k' : Known) : Prop where
  state : ∀ x, k.state = some x → k'.state = some x
  lastState : ∀ x, k.lastState = some x → k'.lastState = some x
  untouched : k'.untouched = k.untouched
  recorded : k'.recorded = k.recorded
  ended : k'.ended = k.ended

variable {found : MaintenanceState} {k k' : Known} {st : Stmt} {ctx : UpgradeContext} {rest todo : List Stmt}

theorem Known.Le.learn (h : k.Le k') : (st.learn found k).Le (st.learn found k') := by
  obtain ⟨hs, hl, hu, hr, he⟩ := h
  cases st <;> constructor <;> simp_all [Stmt.learn] <;> grind

theorem Known.Le.counts (h : k.Le k') (hk : st.Counts found k) : st.Counts found k' := by
  obtain ⟨hs, hl, hu, hr, he⟩ := h
  cases st <;> simp_all [Stmt.Counts]

theorem restoring_mono (h : k.Le k') (hk : Restoring found todo k) : Restoring found todo k' :=
  hk.mono (fun _ _ _ (h : Known.Le _ _) hk => h.counts hk) (fun _ _ _ h => h.learn) h

/-! ## The lists of statements -/

theorem restoring_pin {install : Install} : Restoring found (pin install ++ rest) k ↔ Restoring found rest k :=
  leads_idle (by simp [pin, Idle, Stmt.Counts, Stmt.learn])

theorem restoring_rollback (hstate : k.untouched = true → k.state = some found) (hended : k.ended = false) :
    Restoring found (rollback ctx) k := by
  rw [rollback, restoring_pin]
  cases hu : k.untouched <;> simp_all [Stmt.Counts, Stmt.learn]

theorem restoring_phaseCommit (hstate : k.untouched = true → k.state = some found) (hended : k.ended = false) :
    Restoring found phaseCommit k := by
  cases hu : k.untouched <;> simp_all [phaseCommit, Stmt.Counts, Stmt.learn]

theorem restoring_upgrade (hstate : k.state = some found) (hended : k.ended = false) :
    Restoring found (upgrade ctx) k := by
  cases hsnap : ctx.postgresVolume <;>
    simp [upgrade, hsnap, phaseDraining, phaseMaintenance, phaseSnapshot, phaseMigrate, phaseVerify, pin,
      Stmt.Counts, Stmt.learn, hstate, hended]

/-! ## The invariant -/

/-- What holds of the journal row and the stored state. -/
structure UpgradeRun.Holds (found state : MaintenanceState) (run : UpgradeRun) : Prop where
  recorded : ∀ x, run.foundState = some x → x = found
  unrecorded : run.foundState = none → state = found
  ended : run.status ≠ .running → state = found

/-- What holds of the context of an updater at work. -/
structure UpgradeContext.Holds (found state : MaintenanceState) (run : UpgradeRun) (ctx : UpgradeContext) :
    Prop where
  untouched : ctx.stateUntouched = true → state = found
  touched : ctx.stateUntouched = false → run.readFoundState = found

/-- `k` is true of a state, a context and a row. -/
structure Known.Of (state : MaintenanceState) (ctx : UpgradeContext) (run : UpgradeRun) (k : Known) : Prop where
  state : ∀ x, k.state = some x → state = x
  lastState : ∀ x, k.lastState = some x → ctx.lastState = x
  untouched : k.untouched = ctx.stateUntouched
  recorded : k.recorded = run.foundState.isSome
  ended : k.ended = decide (run.status ≠ .running)

structure UpdaterProcess.Holds (found : MaintenanceState) (s : Sys) (run : UpgradeRun) (u : UpdaterProcess) :
    Prop where
  ctx : u.ctx.Holds found s.state run
  known : ∃ k : Known, k.Of s.state u.ctx run ∧ Restoring found u.todo k

structure Sys.Holds (found : MaintenanceState) (s : Sys) : Prop where
  unopened : s.journal = none → s.state = found ∧
    ∀ u, s.updater = some u → u.ctx.stateUntouched = true
  opened : ∀ run, s.journal = some run → run.Holds found s.state ∧ ∀ u, s.updater = some u → u.Holds found s run

variable {s : Sys} {run run' : UpgradeRun} {u : UpdaterProcess} {o : Observed} {state : MaintenanceState}

/-- The row after a statement. -/
def Stmt.row (st : Stmt) (ctx : UpgradeContext) (run : UpgradeRun) : UpgradeRun :=
  match st with
  | .enterPhase phase => { run with phase }
  | .recordFoundState => run.recordFoundState ctx.lastState
  | .finishRun status => { run with status }
  | _ => run

theorem Stmt.effect_row (o : Observed) (ctx : UpgradeContext) (hstart : st ≠ .startRun) (hrun : s.journal = some run) :
    (st.effect o ctx s).journal = some (st.row ctx run) := by
  cases st with
  | startRun => exact absurd rfl hstart
  | hold | reopen | enter =>
    simp only [Stmt.effect]
    split <;> exact hrun
  | _ => simp [Stmt.effect, Stmt.row, Sys.onRun, hrun]

/-- A statement that may write the state writes the one found, or the row has it. -/
theorem Stmt.effect_state (o : Observed) (ctx : UpgradeContext) (s : Sys) (hcounts : st.Counts found k) :
    (st.effect o ctx s).state = s.state ∨
      (k.ended = false ∧ k.untouched = false ∧ (k.recorded = true ∨ (st.effect o ctx s).state = found)) := by
  cases st with
  | hold | reopen | enter =>
    obtain ⟨hr, hu, he⟩ := hcounts
    exact .inr ⟨he, hu, .inl hr⟩
  | setMaintenanceState state =>
    obtain ⟨hr, hu, he⟩ := hcounts
    exact .inr ⟨he, hu, hr⟩
  | _ => exact .inl rfl

/-- What a statement leaves, whether it returned or its command failed. -/
theorem Stmt.effect_holds (hrun : run.Holds found s.state) (hctx : ctx.Holds found s.state run)
    (hk : k.Of s.state ctx run) (hcounts : st.Counts found k) :
    (st.row ctx run).Holds found (st.effect o ctx s).state ∧
      ctx.Holds found (st.effect o ctx s).state (st.row ctx run) := by
  have hsame : st.row ctx run = run → (st.row ctx run).Holds found (st.effect o ctx s).state ∧
      ctx.Holds found (st.effect o ctx s).state (st.row ctx run) := by
    intro hrow
    rw [hrow]
    rcases st.effect_state o ctx s hcounts with hst | ⟨hended, huntouched, hrec⟩
    · rw [hst]
      exact ⟨hrun, hctx⟩
    · have hstatus : run.status = .running := by simpa [hended] using hk.ended
      have htouched : ctx.stateUntouched = false := hk.untouched.symm.trans huntouched
      refine ⟨⟨hrun.recorded, fun hnone => ?_, fun hne => absurd hstatus hne⟩, fun hu => ?_, hctx.touched⟩
      · rcases hrec with hrec | hfound
        · rw [hk.recorded, hnone] at hrec
          cases hrec
        · exact hfound
      · rw [htouched] at hu
        cases hu
  cases st with
  | enterPhase phase =>
    exact ⟨⟨hrun.recorded, hrun.unrecorded, hrun.ended⟩, hctx.untouched, hctx.touched⟩
  | recordFoundState =>
    have hlast : ctx.lastState = found := hk.lastState found hcounts
    have hread : run.foundState.or (some ctx.lastState) = some found := by
      cases hf : run.foundState with
      | none => rw [hlast, Option.none_or]
      | some x => rw [hrun.recorded x hf, Option.some_or]
    refine ⟨⟨fun x hx => ?_, fun hnone => ?_, hrun.ended⟩, hctx.untouched, fun _ => ?_⟩
    · exact Option.some.inj (hx.symm.trans hread)
    · exact absurd (hnone.symm.trans hread) (by simp)
    · exact congrArg (Option.getD · .normal) hread
  | finishRun status =>
    have hstate : s.state = found := hk.state found hcounts
    exact ⟨⟨hrun.recorded, fun _ => hstate, fun _ => hstate⟩, hctx.untouched, hctx.touched⟩
  | _ => exact hsame rfl

/-- The context keeps what holds of it unless `recordFoundState` has returned, and then the row
has the state found. -/
theorem UpgradeContext.Holds.congr {ctx' : UpgradeContext} (h : ctx.Holds found state run)
    (hsame : ctx'.stateUntouched = ctx.stateUntouched) : ctx'.Holds found state run :=
  ⟨fun hu => h.untouched (hsame.symm.trans hu), fun hu => h.touched (hsame.symm.trans hu)⟩

theorem Stmt.after_holds {u' : UpdaterProcess} (hstart : st ≠ .startRun) (hgate : st ≠ .awaitVersion)
    (hjournal : s.journal = some run) (hrow : run.Holds found s.state) (hctx : u.ctx.Holds found s.state run)
    (hk : k.Of s.state u.ctx run) (hcounts : st.Counts found k) (hrest : Restoring found rest (st.learn found k))
    (hafter : st.after o (st.effect o u.ctx s) u rest = some u') :
    u'.Holds found (st.effect o u.ctx s) (st.row u.ctx run) := by
  obtain ⟨hrow', hctx'⟩ := Stmt.effect_holds (o := o) hrow hctx hk hcounts
  have hrun' := Stmt.effect_row o u.ctx hstart hjournal
  let unknown : Known := { k with state := none, lastState := none }
  have hunknown : ∀ state, unknown.Of state u.ctx run := fun state =>
    ⟨fun x hx => (by cases hx), fun x hx => (by cases hx), hk.untouched, hk.recorded, hk.ended⟩
  cases st with
  | startRun => exact absurd rfl hstart
  | awaitVersion => exact absurd rfl hgate
  | rethrow => cases hafter
  | look =>
    cases hafter
    exact ⟨hctx'.congr rfl, Stmt.look.learn found k,
      ⟨hk.state, hk.state, hk.untouched, hk.recorded, hk.ended⟩, hrest⟩
  | recordFoundState =>
    cases hafter
    have hlast : u.ctx.lastState = found := hk.lastState found hcounts
    have hfound : (run.recordFoundState u.ctx.lastState).foundState = some found := by
      cases hf : run.foundState with
      | none => simp [UpgradeRun.recordFoundState, hf, hlast]
      | some x => simp [UpgradeRun.recordFoundState, hf, hrow.recorded x hf]
    refine ⟨⟨by simp, fun _ => ?_⟩, Stmt.recordFoundState.learn found k,
      ⟨hk.state, hk.lastState, rfl, ?_, hk.ended⟩, hrest⟩
    · exact congrArg (Option.getD · .normal) hfound
    · exact (congrArg Option.isSome hfound).symm
  | hold | reopen | enter =>
    cases hafter
    exact ⟨hctx', unknown, hunknown _, hrest⟩
  | setMaintenanceState state =>
    cases hafter
    refine ⟨hctx', Stmt.learn found (.setMaintenanceState state) k,
      ⟨fun x hx => ?_, hk.lastState, hk.untouched, hk.recorded, hk.ended⟩, hrest⟩
    exact Option.some.inj hx
  | finishRun status =>
    cases hafter
    exact ⟨hctx', Stmt.learn found (.finishRun status) k,
      ⟨hk.state, hk.lastState, hk.untouched, hk.recorded, rfl⟩, hrest⟩
  | awaitDrain =>
    simp only [Stmt.after] at hafter
    split at hafter
    · cases hafter
      exact ⟨hctx'.congr rfl, k, ⟨hk.state, hk.lastState, hk.untouched, hk.recorded, hk.ended⟩, hrest⟩
    split at hafter
    · split at hafter
      · cases hafter
        exact ⟨hctx'.congr rfl, k, ⟨hk.state, hk.lastState, hk.untouched, hk.recorded, hk.ended⟩, hrest⟩
      · cases hafter
    · cases hafter
      exact ⟨hctx', k, hk, trivial, hrest⟩
  | maintain =>
    simp only [Stmt.after] at hafter
    split at hafter
    · cases hafter
      refine ⟨hctx', unknown, hunknown _, trivial, ⟨.inl hcounts.1, hcounts.2⟩, trivial, ?_⟩
      have hle : unknown.Le { unknown with state := some .maintenance } :=
        ⟨fun x hx => (by cases hx), fun x hx => (by cases hx), rfl, rfl, rfl⟩
      exact restoring_mono hle hrest
    · cases hafter
      exact ⟨hctx', unknown, hunknown _, trivial, trivial, trivial, hcounts, hcounts, trivial, hcounts, hrest⟩
  | settle =>
    simp only [Stmt.after] at hafter
    split at hafter
    · cases hafter
      exact ⟨hctx', unknown, hunknown _, hrest⟩
    · cases hafter
      exact ⟨hctx', unknown, hunknown _, trivial, trivial, trivial, trivial, hcounts, hrest⟩
  | deadline =>
    simp only [Stmt.after] at hafter
    split at hafter
    · split at hafter
      · cases hafter
        exact ⟨hctx'.congr rfl, k, ⟨hk.state, hk.lastState, hk.untouched, hk.recorded, hk.ended⟩, hrest⟩
      · cases hafter
    · cases hafter
      exact ⟨hctx', k, hk, hrest⟩
  | restoreMaintenanceState =>
    simp only [Stmt.after] at hafter
    rw [Stmt.learn] at hrest
    split at hafter
    case isTrue hu =>
      cases hafter
      rw [if_pos (hk.untouched.trans hu)] at hrest
      exact ⟨hctx', k, hk, hrest⟩
    case isFalse hu =>
      cases hafter
      have hu' : k.untouched = false := hk.untouched.trans (Bool.eq_false_iff.mpr hu)
      rw [if_neg (by simp [hu'])] at hrest
      exact ⟨hctx', k, hk, ⟨hu', hcounts⟩, hrest⟩
  | readFoundState =>
    simp only [Stmt.after, hrun', Option.map_some, Option.some.injEq] at hafter
    obtain rfl := hafter
    have hread : run.readFoundState = found := hctx.touched (hk.untouched.symm.trans hcounts.1)
    refine ⟨hctx', k, hk, trivial, ⟨.inr hread, hcounts⟩, trivial, ?_⟩
    rw [show Stmt.row .readFoundState u.ctx run = run from rfl, hread]
    exact hrest
  | _ =>
    cases hafter
    exact ⟨hctx'.congr rfl, k, ⟨hk.state, hk.lastState, hk.untouched, hk.recorded, hk.ended⟩, hrest⟩

/-! ## Steps -/

/-- What an updater is left with that has to undo, finish or give up. -/
theorem UpgradeContext.Holds.restarts (hctx : ctx.Holds found state run) :
    ∃ k : Known, k.Of state ctx run ∧ (k.untouched = true → k.state = some found) ∧
      (run.status = .running → k.ended = false) := by
  refine ⟨⟨if ctx.stateUntouched then some found else none, none, ctx.stateUntouched, run.foundState.isSome,
    decide (run.status ≠ .running)⟩, ⟨fun x hx => ?_, fun x hx => (by cases hx), rfl, rfl, rfl⟩, fun hu => if_pos hu,
    fun hr => by simp [hr]⟩
  split at hx
  case isTrue hu =>
    rw [← Option.some.inj hx]
    exact hctx.untouched hu
  case isFalse => cases hx

theorem UpdaterProcess.onThrow_holds {u' : UpdaterProcess} (hctx : u.ctx.Holds found s.state run)
    (hrunning : u.guard = .undo → run.status = .running)
    (hthrow : u.onThrow = some u') : u'.Holds found s run := by
  obtain ⟨k, hk, hstate, hended⟩ := hctx.restarts
  unfold UpdaterProcess.onThrow at hthrow
  split at hthrow
  case h_1 => cases hthrow
  case h_2 hguard =>
    cases hthrow
    exact ⟨hctx, k, hk, restoring_rollback hstate (hended (hrunning hguard))⟩
  case h_3 =>
    cases hthrow
    exact ⟨hctx, k, hk, trivial, trivial⟩

theorem UpdaterProcess.onFail_holds {u' : UpdaterProcess} (hctx : u.ctx.Holds found s.state run)
    (hrunning : u.guard = .undo → run.status = .running) (hfail : u.onFail st = some u') : u'.Holds found s run := by
  unfold UpdaterProcess.onFail at hfail
  split at hfail
  · cases hfail
    obtain ⟨k, hk, -⟩ := hctx.restarts
    exact ⟨hctx, k, hk, trivial, trivial, trivial, trivial⟩
  · exact UpdaterProcess.onThrow_holds hctx hrunning hfail

/-- The gate leads on to the commit phase or back, and both restore the state. -/
theorem UpdaterProcess.gate_holds {u' : UpdaterProcess} (hctx : u.ctx.Holds found s.state run)
    (hrunning : run.status = .running)
    (hafter : Stmt.awaitVersion.after o s u rest = some u') : u'.Holds found s run := by
  obtain ⟨k, hk, hstate, hended⟩ := hctx.restarts
  simp only [Stmt.after] at hafter
  split at hafter
  · cases hafter
    exact ⟨hctx, k, hk, restoring_phaseCommit hstate (hended hrunning)⟩
  · cases hafter
    exact ⟨hctx, k, hk, restoring_rollback hstate (hended hrunning)⟩

theorem Sys.Holds.of_opened (hrun : s.journal = some run) (hrow : run.Holds found s.state)
    {updater : Option UpdaterProcess} (hupdater : ∀ u, updater = some u → u.Holds found s run) :
    Sys.Holds found { s with updater } where
  unopened hnone := by
    rw [show s.journal = none from hnone] at hrun
    cases hrun
  opened run' hrun' := by
    obtain rfl : run = run' := Option.some.inj (hrun.symm.trans hrun')
    refine ⟨hrow, fun u hu => ?_⟩
    have h := hupdater u hu
    exact ⟨h.ctx, h.known⟩

theorem Sys.Holds.idle (h : s.Holds found) : Sys.Holds found { s with updater := none } :=
  ⟨fun hj => ⟨(h.unopened hj).1, fun u hu => by cases hu⟩, fun run hrun =>
    ⟨(h.opened run hrun).1, fun u hu => by cases hu⟩⟩

/-- A row that `startRun` has written has no found state yet, and the state is the one found. -/
theorem Sys.Holds.startRun (hstate : s.state = found) (huntouched : ctx.stateUntouched = true)
    {updater : Option UpdaterProcess} (hupdater : ∀ u, updater = some u → u = ⟨ctx, .undo, upgrade ctx⟩) :
    Sys.Holds found { Stmt.startRun.effect o ctx s with updater } := by
  refine .of_opened (s := Stmt.startRun.effect o ctx s) rfl
    ⟨fun x hx => (by cases hx), fun _ => hstate, fun _ => hstate⟩ fun u hu => ?_
  obtain rfl := hupdater u hu
  refine ⟨⟨fun _ => hstate, fun hu => (by rw [huntouched] at hu; cases hu)⟩,
    ⟨some found, none, true, false, false⟩, ⟨fun x hx => ?_, fun x hx => (by cases hx), huntouched.symm, rfl, rfl⟩,
    restoring_upgrade rfl rfl⟩
  rw [← Option.some.inj hx]
  exact hstate

def Sys.foundIsKnown (s : Sys) (act : Act) : Bool :=
  match act with
  | .start .. => s.journal.all fun run => run.foundState.isSome || s.state = .normal
  | _ => true

variable {install : Install}

/-- What a statement leaves of an open run, whether it returned or its command failed. -/
theorem Sys.Holds.effect (h : s.Holds found) (hsafe : s.Sound install) (hj : s.journal = some run)
    (hu : s.updater = some u) (htodo : u.todo = st :: rest) :
    st ≠ .startRun ∧ (st.effect o u.ctx s).journal = some (st.row u.ctx run) ∧
      (st.row u.ctx run).Holds found (st.effect o u.ctx s).state ∧
      u.ctx.Holds found (st.effect o u.ctx s).state (st.row u.ctx run) ∧
      (u.guard = .undo → (st.row u.ctx run).status = .running) := by
  obtain ⟨hrow, hupdater⟩ := h.opened run hj
  obtain ⟨hctx, k, hk, hrest⟩ := hupdater u hu
  rw [htodo] at hrest
  have hstart : st ≠ .startRun := by
    rintro rfl
    exact hrest.first
  obtain ⟨hrow', hctx'⟩ := Stmt.effect_holds (o := o) hrow hctx hk hrest.first
  have hjournal' := Stmt.effect_row o u.ctx hstart hj
  obtain ⟨run', hrun', -, hbetween, -⟩ := ((hsafe.opened run hj).2.2 u hu).effect (o := o) hj htodo hsafe.destroyed
  obtain rfl : st.row u.ctx run = run' := Option.some.inj (hjournal'.symm.trans hrun')
  exact ⟨hstart, hjournal', hrow', hctx', fun hg => (hbetween.view.undo hg).1⟩

theorem Sys.Holds.returned {s' : Sys} (h : s.Holds found) (hsafe : s.Sound install)
    (hs : s.step (.run o) = some s') : s'.Holds found := by
  rw [Sys.step] at hs
  split at hs
  case h_2 => cases hs
  case h_1 u hu =>
    split at hs
    case h_1 =>
      cases hs
      exact h.idle
    case h_2 st rest htodo =>
      cases hj : s.journal with
      | none =>
        obtain ⟨hguard, hprev, htodo'⟩ := (hsafe.unopened hj).2 u hu
        obtain ⟨rfl, rfl⟩ := List.cons.inj (htodo.symm.trans htodo')
        obtain ⟨hstate, huntouched⟩ := h.unopened hj
        cases hs
        exact .startRun hstate (huntouched u hu) fun u' hu' => (Option.some.inj hu').symm
      | some run =>
        obtain ⟨hstart, hjournal', hrow', hctx', hrunning⟩ := h.effect (o := o) hsafe hj hu htodo
        simp only at hs
        split at hs
        case h_2 =>
          cases hs
          exact .of_opened hjournal' hrow' fun v hv => UpdaterProcess.onThrow_holds hctx' hrunning hv
        case h_1 u' hafter =>
          cases hs
          refine .of_opened hjournal' hrow' fun v hv => ?_
          cases hv
          by_cases hgate : st = .awaitVersion
          · subst hgate
            have hneeds : u.guard = .undo ∧ _ := (htodo ▸ ((hsafe.opened run hj).2.2 u hu).leads).first
            exact UpdaterProcess.gate_holds hctx' (hrunning hneeds.1) hafter
          · obtain ⟨hrow, hupdater⟩ := h.opened run hj
            obtain ⟨hctx, k, hk, hrest⟩ := hupdater u hu
            rw [htodo] at hrest
            exact Stmt.after_holds hstart hgate hj hrow hctx hk hrest.first hrest.tail hafter

theorem Sys.Holds.fail {applied : Bool} {s' : Sys} (h : s.Holds found) (hsafe : s.Sound install)
    (hs : s.step (.fail o applied) = some s') : s'.Holds found := by
  rw [Sys.step] at hs
  split at hs
  case h_2 => cases hs
  case h_1 u hu =>
    split at hs
    case h_1 => cases hs
    case h_2 st rest htodo =>
      cases hj : s.journal with
      | none =>
        obtain ⟨hguard, hprev, htodo'⟩ := (hsafe.unopened hj).2 u hu
        obtain ⟨rfl, rfl⟩ := List.cons.inj (htodo.symm.trans htodo')
        obtain ⟨hstate, huntouched⟩ := h.unopened hj
        have hfail : u.onFail .startRun = none := by simp [UpdaterProcess.onFail, UpdaterProcess.onThrow, hguard]
        cases applied with
        | true =>
          cases hs
          exact .startRun (o := o) hstate (huntouched u hu) fun u' hu' => (by rw [hfail] at hu'; cases hu')
        | false =>
          cases hs
          rw [hfail]
          exact h.idle
      | some run =>
        cases applied with
        | true =>
          obtain ⟨-, hjournal', hrow', hctx', hrunning⟩ := h.effect (o := o) hsafe hj hu htodo
          rw [if_pos rfl] at hs
          cases hs
          exact .of_opened hjournal' hrow' fun v hv => UpdaterProcess.onFail_holds hctx' hrunning hv
        | false =>
          obtain ⟨hrow, hupdater⟩ := h.opened run hj
          rw [if_neg (by simp)] at hs
          cases hs
          exact .of_opened hj hrow fun v hv => UpdaterProcess.onFail_holds (hupdater u hu).ctx
            (fun hg => (((hsafe.opened run hj).2.2 u hu).view.undo hg).1) hv

theorem Sys.Holds.retry {applied : Bool} {s' : Sys} (h : s.Holds found) (hsafe : s.Sound install)
    (hs : s.step (.retry applied) = some s') : s'.Holds found := by
  rw [Sys.step] at hs
  split at hs
  case h_2 => cases hs
  case h_1 u hu =>
    split at hs
    case h_2 => cases hs
    case h_1 state rest htodo =>
      cases hj : s.journal with
      | none =>
        obtain ⟨-, -, htodo'⟩ := (hsafe.unopened hj).2 u hu
        rw [htodo] at htodo'
        cases htodo'
      | some run =>
        obtain ⟨hrow, hupdater⟩ := h.opened run hj
        obtain ⟨hctx, k, hk, hrest⟩ := hupdater u hu
        rw [htodo] at hrest
        cases applied with
        | true =>
          obtain ⟨-, -, hrow', hctx', -⟩ := h.effect (o := ⟨0, false, false⟩) hsafe hj hu htodo
          rw [if_pos rfl] at hs
          cases hs
          refine .of_opened (s := { s with state }) hj hrow' fun v hv => ?_
          cases hv
          refine ⟨hctx', { k with state := none }, ?_, trivial, trivial, hrest.first, hrest.tail⟩
          exact ⟨fun x hx => (by cases hx), hk.lastState, hk.untouched, hk.recorded, hk.ended⟩
        | false =>
          rw [if_neg (by simp)] at hs
          cases hs
          refine .of_opened hj hrow fun v hv => ?_
          cases hv
          exact ⟨hctx, k, hk, trivial, trivial, hrest.first, hrest.tail⟩

/-- A restarted updater restores the state where the journal has it, or where it is normal. -/
theorem resume_holds (hrow : run.Holds found s.state) (hrunning : run.status = .running)
    (hknown : run.foundState = none → s.state = .normal) : (Sys.resume run).Holds found s run := by
  have htouched : (Sys.resumedContext run).Holds found s.state run := by
    refine ⟨fun hu => (by cases hu), fun _ => ?_⟩
    cases hf : run.foundState with
    | none => rw [UpgradeRun.readFoundState, hf, ← hrow.unrecorded hf, hknown hf, Option.getD_none]
    | some x => rw [UpgradeRun.readFoundState, hf, hrow.recorded x hf, Option.getD_some]
  obtain ⟨k, hk, hstate, hended⟩ := htouched.restarts
  unfold Sys.resume
  split
  · exact ⟨htouched, k, hk, restoring_phaseCommit hstate (hended hrunning)⟩
  · exact ⟨htouched, k, hk, restoring_rollback hstate (hended hrunning)⟩

theorem Sys.Holds.step {act : Act} {s' : Sys} (h : s.Holds found) (hsafe : s.Sound install)
    (hknown : s.foundIsKnown act = true) (hs : s.step act = some s') : s'.Holds found := by
  cases act with
  | start target postgresVolume forceDrain =>
    rw [Sys.step] at hs
    split at hs
    case h_1 => cases hs
    case h_2 hu hj =>
      cases hs
      refine ⟨fun _ => ⟨(h.unopened hj).1, fun u hu => ?_⟩, fun run hrun => ?_⟩
      · cases hu
        rfl
      · rw [hj] at hrun
        cases hrun
    case h_3 run hu hj =>
      split at hs
      case isTrue hrunning =>
        cases hs
        obtain ⟨hrow, -⟩ := h.opened run hj
        refine .of_opened hj hrow fun u hu => ?_
        cases hu
        refine resume_holds hrow hrunning fun hnone => ?_
        simpa [Sys.foundIsKnown, hj, hnone] using hknown
      case isFalse => cases hs
  | run o => exact h.returned hsafe hs
  | fail o applied => exact h.fail hsafe hs
  | retry applied => exact h.retry hsafe hs
  | crash =>
    rw [Sys.step] at hs
    split at hs
    · cases hs
      exact h.idle
    · cases hs

/-! ## The state a run leaves -/

/-- A run that has ended leaves the maintenance state as it was before, in a run of the system
in which no updater is restarted on a row without a found state unless the state is normal. -/
theorem found_state_restored {deployed : Install} {acts : List Act}
    (hmet : Along Sys.step (fun s act => s.foundIsKnown act = true) (.start install deployed found) acts)
    (hreach : runs Sys.step (.start install deployed found) acts = some s) (hrun : s.journal = some run)
    (hended : run.status = .done ∨ run.status = .rolledBack) : s.state = found := by
  have hstart : (Sys.start install deployed found).Holds found :=
    ⟨fun _ => ⟨rfl, fun u hu => by cases hu⟩, fun run hrun => by cases hrun⟩
  have h : s.Holds found ∧ s.Sound install :=
    runs_inv (I := fun s => s.Holds found ∧ s.Sound install)
      (fun s₁ act s₂ ⟨h₁, hsafe⟩ hknown hs => ⟨h₁.step hsafe hknown hs, hsafe.step hs⟩)
      ⟨hstart, Sys.sound_start deployed found⟩ hmet hreach
  refine (h.1.opened run hrun).1.ended ?_
  rcases hended with hended | hended <;> simp [hended]

namespace Sample

/-- The updater dies between `startRun` and `holdDraining`. The next one rolls back. -/
def diesBeforeDraining : List Act :=
  [.start new false false, .run calm, .crash, .start new false false] ++ List.replicate 12 (.run calm)

/-- The updater dies while it drains. -/
def diesDraining : List Act :=
  .start new false false :: List.replicate 6 (.run calm) ++ [.crash, .start new false false] ++
    List.replicate 12 (.run calm)

end Sample

open Haive.Updater.Sample in
/-- An administrator's maintenance is lifted by a run that did nothing. -/
theorem preflight_crash_lifts_hold :
    ∃ s run, runs Sys.step (.start old old .maintenance) diesBeforeDraining = some s ∧ s.journal = some run ∧
      run.status = .rolledBack ∧ s.state = .normal :=
  ⟨_, _, rfl, rfl, rfl, rfl⟩

open Haive.Updater.Sample in
theorem found_state_restored_draining :
    ∃ s run, runs Sys.step (.start old old .maintenance) diesDraining = some s ∧ s.journal = some run ∧
      run.status = .rolledBack ∧ s.state = .maintenance :=
  ⟨_, _, rfl, rfl, rfl, found_state_restored (.of_along (fun _ _ h => h) (by decide))
    (show runs Sys.step (.start old old .maintenance) diesDraining = some _ from rfl) rfl (.inr rfl)⟩

end Haive.Updater

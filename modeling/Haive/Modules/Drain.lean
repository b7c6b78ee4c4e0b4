import Haive.Lib.Runs
import Mathlib.Data.List.Basic
import Mathlib.Logic.Function.Basic

/-!
# Draining a module

`shared/src/modularity-server/module-drain.ts` over one module: `beginModuleDrain`,
`cancelModuleDrain` and `finalizeModuleDrain` beside the transactions that create, bind, revive,
end, kill and unbind tasks. A statement reads what is committed where it runs, what a
transaction writes is seen when it commits, and its locks go with it. `FOR UPDATE` waits
for the `KEY SHARE` holders, a refused `NOWAIT` aborts.

`drain_airtight`: while the module drains, its live dependents are in the cohort, and where
`finalizeModuleDrain` commits there are none and no transaction past its guard adds one.

Whoever binds, unbinds or revives a task holds the lock on its integrations to the end, as every
caller does. The audit rows are left out.
-/

namespace Haive.Modules

open Lib

/-! ## Rows -/

/-- `live`: the status is one of `LIVE_TASK_STATUSES`. `depends`: `moduleTaskDependency`. -/
structure TaskRow where
  live : Bool
  dead : Bool
  depends : Bool
deriving DecidableEq, Repr

def TaskRow.dependent (t : TaskRow) : Bool := t.live && !t.dead && t.depends

/-- `cohort` is `module_drain_tasks`. -/
structure ModuleRow where
  draining : Bool
  deactivated : Bool
  cohort : Nat → Bool

inductive WriteKind
  | create | bind | revive | finish | kill | unbind
deriving DecidableEq, Repr

def WriteKind.write (t : TaskRow) : WriteKind → TaskRow
  | .create => ⟨true, false, true⟩
  | .bind => { t with depends := true }
  | .revive => { t with live := true, dead := false }
  | .finish => { t with live := false }
  | .kill => { t with dead := true }
  | .unbind => { t with depends := false }

/-- `leased`: it holds the task's integrations. `asked`: `guardTaskModuleAdmission` has found the
module. `member`: it has the `KEY SHARE` of a draining module. `passed guarded`: the write is
next, with or without the `KEY SHARE`. -/
inductive WriteStage
  | opened
  | leased
  | asked
  | member
  | passed (guarded : Bool)
deriving DecidableEq, Repr

inductive DrainKind
  | begin | cancel | finalize
deriving DecidableEq, Repr

/-- `listed`: `beginModuleDrain` has inserted the cohort. `counted`: `finalizeModuleDrain` has found
no dependent. -/
inductive DrainStage
  | opened
  | locked
  | listed (cohort : Nat → Bool)
  | counted

inductive Tx
  | write (kind : WriteKind) (task : Nat) (stage : WriteStage)
  | drain (kind : DrainKind) (stage : DrainStage)

/-- `shares` and `update` hold the module's row, `leases` the tasks' integrations. -/
structure Sys where
  known : List Nat
  task : Nat → TaskRow
  module : ModuleRow
  txs : Nat → Option Tx
  shares : List Nat
  update : Option Nat
  leases : Nat → Option Nat

inductive Action
  | write (pid : Nat) (kind : WriteKind) (task : Nat)
  | drain (pid : Nat) (kind : DrainKind)
  /-- `SELECT .. FOR KEY SHARE NOWAIT` of `moduleAdmissionFailures`. -/
  | guard (pid : Nat)
  /-- Any other statement, or the commit. -/
  | advance (pid : Nat)
  /-- A timeout, an error or a crash. -/
  | abort (pid : Nat)

/-! ## Statements -/

def Sys.goto (s : Sys) (pid : Nat) (tx : Tx) : Sys := { s with txs := Function.update s.txs pid (some tx) }

/-- The end of a transaction. -/
def Sys.release (s : Sys) (pid : Nat) : Sys :=
  { s with
    txs := Function.update s.txs pid none
    shares := s.shares.filter (· ≠ pid)
    update := s.update.filter (· ≠ pid)
    leases := fun t => (s.leases t).filter (· ≠ pid) }

def Sys.lease (s : Sys) (pid t : Nat) : Sys := { s with leases := Function.update s.leases t (some pid) }

/-- Whose first statement takes the lock on the task's integrations. -/
def WriteKind.leases : WriteKind → Bool
  | .bind | .revive | .unbind => true
  | _ => false

/-- `guardModuleAdmission(.., checkOff)`. A task that is being created has no id yet. -/
def WriteKind.checkOff : WriteKind → Bool
  | .create | .bind => true
  | _ => false

/-- The `KEY SHARE`, and what follows from the row. -/
def Sys.guard (s : Sys) (pid : Nat) (kind : WriteKind) (t : Nat) : Sys :=
  if s.update.isSome then s.release pid
  else if kind.checkOff && s.module.deactivated then s.release pid
  else if !s.module.draining then
    { s with shares := pid :: s.shares }.goto pid (.write kind t (.passed true))
  else if kind = .create then s.release pid
  else { s with shares := pid :: s.shares }.goto pid (.write kind t .member)

/-- The row of a new task must be new. -/
def Sys.commitWrite (s : Sys) (pid : Nat) (kind : WriteKind) (t : Nat) : Sys :=
  if kind = .create then
    if t ∈ s.known then s.release pid
    else { s with known := t :: s.known, task := Function.update s.task t (kind.write (s.task t)) }.release pid
  else { s with task := Function.update s.task t (kind.write (s.task t)) }.release pid

/-- A waiting `pg_advisory_xact_lock` tries again, a refused `pg_try_advisory_xact_lock` aborts. -/
def Sys.advanceWrite (s : Sys) (pid : Nat) (kind : WriteKind) (t : Nat) (stage : WriteStage) : Sys :=
  match stage with
  | .opened =>
    if kind.leases then
      match s.leases t with
      | none => (s.lease pid t).goto pid (.write kind t .leased)
      | some _ => if kind = .revive then s.release pid else s
    else if kind = .create then s
    else s.commitWrite pid kind t
  | .leased =>
    match kind with
    | .revive =>
      if (s.task t).depends || s.module.cohort t then s.goto pid (.write kind t .asked)
      else s.goto pid (.write kind t (.passed false))
    | .unbind => s.commitWrite pid kind t
    | _ => s
  | .asked => s
  | .member =>
    if s.module.cohort t then s.goto pid (.write kind t (.passed true)) else s.release pid
  | .passed _ => s.commitWrite pid kind t

def Sys.commitModule (s : Sys) (pid : Nat) (row : ModuleRow) : Sys := { s with module := row }.release pid

/-- `FOR UPDATE` waits, the rest reads what is committed since. -/
def Sys.advanceDrain (s : Sys) (pid : Nat) (kind : DrainKind) (stage : DrainStage) : Sys :=
  match stage with
  | .opened =>
    if s.update.isNone && s.shares.isEmpty then { s with update := some pid }.goto pid (.drain kind .locked) else s
  | .locked =>
    match kind with
    | .begin =>
      if s.module.deactivated || s.module.draining then s.release pid
      else s.goto pid (.drain kind (.listed fun t => decide (t ∈ s.known) && (s.task t).dependent))
    | .cancel =>
      if s.module.draining then s.commitModule pid { s.module with draining := false, cohort := fun _ => false }
      else s.release pid
    | .finalize =>
      if !s.module.draining || s.module.deactivated then s.release pid
      else if s.known.any fun t =>
          (s.task t).live && !(s.task t).dead && ((s.task t).depends || s.module.cohort t) then s.release pid
      else s.goto pid (.drain kind .counted)
  | .listed cohort =>
    s.commitModule pid { s.module with draining := true, cohort := fun t => s.module.cohort t || cohort t }
  | .counted => s.commitModule pid ⟨false, true, fun _ => false⟩

def Sys.step (s : Sys) : Action → Option Sys
  | .write pid kind t =>
    match s.txs pid with
    | some _ => none
    | none => if kind = .create || t ∈ s.known then some (s.goto pid (.write kind t .opened)) else none
  | .drain pid kind =>
    match s.txs pid with
    | some _ => none
    | none => some (s.goto pid (.drain kind .opened))
  | .guard pid =>
    match s.txs pid with
    | some (.write .create t .opened) => some (s.guard pid .create t)
    | some (.write .bind t .leased) => some (s.guard pid .bind t)
    | some (.write .revive t .asked) => some (s.guard pid .revive t)
    | _ => none
  | .advance pid =>
    match s.txs pid with
    | some (.write kind t stage) => some (s.advanceWrite pid kind t stage)
    | some (.drain kind stage) => some (s.advanceDrain pid kind stage)
    | none => none
  | .abort pid => (s.txs pid).map fun _ => s.release pid

/-- The module is not draining and nothing is in flight. -/
structure Start (s : Sys) : Prop where
  draining : s.module.draining = false
  txs : ∀ pid, s.txs pid = none
  shares : s.shares = []
  update : s.update = none
  leases : ∀ t, s.leases t = none

/-! ## The invariant -/

variable {s s' : Sys} {pid pid' t : Nat} {kind : WriteKind} {drainKind : DrainKind} {stage : WriteStage}
  {tx tx' : Tx}

def WriteStage.Fits (s : Sys) (pid : Nat) (kind : WriteKind) (t : Nat) : WriteStage → Prop
  | .opened => True
  | .leased | .asked => s.leases t = some pid
  | .member => kind ≠ .create ∧ s.leases t = some pid ∧ pid ∈ s.shares
  | .passed true => pid ∈ s.shares ∧ (kind = .bind → s.leases t = some pid) ∧
      (s.module.draining = true → kind ≠ .create ∧ s.module.cohort t = true)
  | .passed false => kind = .revive ∧ s.leases t = some pid ∧ (s.task t).depends = false

def DrainStage.Fits (s : Sys) (pid : Nat) : DrainStage → Prop
  | .opened => True
  | .locked => s.update = some pid
  | .listed cohort => s.update = some pid ∧ ∀ t ∈ s.known, (s.task t).dependent = true → cohort t = true
  | .counted => s.update = some pid ∧ ∀ t ∈ s.known, (s.task t).dependent = false

def Tx.Fits (s : Sys) (pid : Nat) : Tx → Prop
  | .write kind t stage => (kind ≠ .create → t ∈ s.known) ∧ stage.Fits s pid kind t
  | .drain _ stage => stage.Fits s pid

structure Sys.Inv (s : Sys) : Prop where
  alone : ∀ pid, s.update = some pid → s.shares = []
  cohort : s.module.draining = true → ∀ t ∈ s.known, (s.task t).dependent = true → s.module.cohort t = true
  txs : ∀ pid tx, s.txs pid = some tx → tx.Fits s pid

/-- What the others leave to a transaction. -/
structure Sys.Leaves (s s' : Sys) (pid : Nat) : Prop where
  known : ∀ t ∈ s.known, t ∈ s'.known
  leases : ∀ t, s.leases t = some pid → s'.leases t = some pid
  depends : ∀ t ∈ s.known, s.leases t = some pid → (s.task t).depends = false → (s'.task t).depends = false
  shares : pid ∈ s.shares → pid ∈ s'.shares ∧ s'.module = s.module
  update : s.update = some pid → s'.update = some pid ∧
    ∀ t ∈ s'.known, (s'.task t).dependent = true → t ∈ s.known ∧ (s.task t).dependent = true

theorem Tx.Fits.mono (h : tx.Fits s pid) (hleaves : s.Leaves s' pid) : tx.Fits s' pid := by
  cases tx with
  | write kind t stage =>
    refine ⟨fun hk => hleaves.known t (h.1 hk), ?_⟩
    have hstage := h.2
    cases stage with
    | opened => trivial
    | leased | asked => exact hleaves.leases t hstage
    | member => exact ⟨hstage.1, hleaves.leases t hstage.2.1, (hleaves.shares hstage.2.2).1⟩
    | passed guarded =>
      cases guarded with
      | true =>
        obtain ⟨hshare, hlease, hcohort⟩ := hstage
        obtain ⟨hshare', hmodule⟩ := hleaves.shares hshare
        exact ⟨hshare', fun hk => hleaves.leases t (hlease hk), fun hd => hmodule ▸ hcohort (hmodule ▸ hd)⟩
      | false =>
        obtain ⟨hrevive, hlease, hdepends⟩ := hstage
        have hknown := h.1 (by simp [hrevive])
        exact ⟨hrevive, hleaves.leases t hlease, hleaves.depends t hknown hlease hdepends⟩
  | drain kind stage =>
    cases stage with
    | opened => trivial
    | locked => exact (hleaves.update h).1
    | listed cohort =>
      obtain ⟨hupdate, hlisted⟩ := h
      obtain ⟨hupdate', hgrows⟩ := hleaves.update hupdate
      refine ⟨hupdate', fun t ht hdep => ?_⟩
      obtain ⟨hknown, hbefore⟩ := hgrows t ht hdep
      exact hlisted t hknown hbefore
    | counted =>
      obtain ⟨hupdate, hnone⟩ := h
      obtain ⟨hupdate', hgrows⟩ := hleaves.update hupdate
      refine ⟨hupdate', fun t ht => Bool.eq_false_iff.mpr fun hdep => ?_⟩
      obtain ⟨hknown, hbefore⟩ := hgrows t ht hdep
      exact absurd hbefore (by simp [hnone t hknown])

theorem goto_self : (s.goto pid tx).txs pid = some tx := Function.update_self ..

theorem goto_ne (h : pid' ≠ pid) : (s.goto pid tx).txs pid' = s.txs pid' := Function.update_of_ne h ..

theorem release_self : (s.release pid).txs pid = none := Function.update_self ..

theorem release_ne (h : pid' ≠ pid) : (s.release pid).txs pid' = s.txs pid' := Function.update_of_ne h ..

/-- The locks of the others outlive the end of a transaction. -/
theorem release_leases (h : pid' ≠ pid) (ht : s.leases t = some pid') : (s.release pid).leases t = some pid' :=
  Option.filter_eq_some_iff.mpr ⟨ht, by simpa using h⟩

theorem release_shares (h : pid' ≠ pid) (hs : pid' ∈ s.shares) : pid' ∈ (s.release pid).shares :=
  List.mem_filter.mpr ⟨hs, by simpa using h⟩

theorem release_update (h : pid' ≠ pid) (hu : s.update = some pid') : (s.release pid).update = some pid' :=
  Option.filter_eq_some_iff.mpr ⟨hu, by simpa using h⟩

theorem release_alone (h : ∀ p, s.update = some p → s.shares = []) (hu : (s.release pid).update = some pid') :
    (s.release pid).shares = [] := by
  obtain ⟨hbefore, -⟩ := Option.filter_eq_some_iff.mp hu
  have hshares : (s.release pid).shares = s.shares.filter (· ≠ pid) := rfl
  rw [hshares, h pid' hbefore, List.filter_nil]

theorem Sys.Inv.goto (h : s.Inv) (hfits : tx.Fits s pid) : (s.goto pid tx).Inv := by
  have hleaves : ∀ p, s.Leaves (s.goto pid tx) p := fun p =>
    ⟨fun _ ht => ht, fun _ ht => ht, fun _ _ _ hd => hd, fun hs => ⟨hs, rfl⟩,
      fun hu => ⟨hu, fun _ ht hd => ⟨ht, hd⟩⟩⟩
  refine ⟨h.alone, h.cohort, fun pid' tx' htx => ?_⟩
  rcases Decidable.em (pid' = pid) with rfl | hne
  · obtain rfl := Option.some.inj (goto_self.symm.trans htx)
    exact hfits.mono (hleaves pid')
  · exact (h.txs pid' tx' ((goto_ne hne).symm.trans htx)).mono (hleaves pid')

/-- A transaction ends, having written what it writes. -/
theorem Sys.Inv.finish (h : s.Inv) (hlocks : s'.shares = s.shares ∧ s'.update = s.update ∧ s'.leases = s.leases)
    (htxs : s'.txs = s.txs)
    (hcohort : s'.module.draining = true → ∀ t ∈ s'.known, (s'.task t).dependent = true → s'.module.cohort t = true)
    (hleaves : ∀ p, p ≠ pid → s.Leaves s' p) : (s'.release pid).Inv := by
  obtain ⟨hshares, hupdate, -⟩ := hlocks
  have halone : ∀ p, s'.update = some p → s'.shares = [] := fun p hp => by
    rw [hshares]
    exact h.alone p (hupdate ▸ hp)
  refine ⟨fun p hp => release_alone halone hp, hcohort, fun pid' tx htx => ?_⟩
  have hne : pid' ≠ pid := by
    rintro rfl
    rw [release_self] at htx
    cases htx
  rw [release_ne hne, htxs] at htx
  refine ((h.txs pid' tx htx).mono (hleaves pid' hne)).mono ?_
  exact ⟨fun _ ht => ht, fun _ ht => release_leases hne ht, fun _ _ _ hd => hd,
    fun hs => ⟨release_shares hne hs, rfl⟩, fun hu => ⟨release_update hne hu, fun _ ht hd => ⟨ht, hd⟩⟩⟩

/-- Nothing is written. -/
theorem Sys.Inv.drop (h : s.Inv) (pid : Nat) : (s.release pid).Inv :=
  h.finish ⟨rfl, rfl, rfl⟩ rfl h.cohort fun _ _ =>
    ⟨fun _ ht => ht, fun _ ht => ht, fun _ _ _ hd => hd, fun hs => ⟨hs, rfl⟩,
      fun hu => ⟨hu, fun _ ht hd => ⟨ht, hd⟩⟩⟩

/-! ## Writes -/

/-- A write that may commit. -/
structure Sys.Admits (s : Sys) (pid : Nat) (kind : WriteKind) (t : Nat) : Prop where
  known : kind ≠ .create → t ∈ s.known
  lease : kind = .bind → s.leases t = some pid
  cohort : s.module.draining = true → (kind.write (s.task t)).dependent = true → s.module.cohort t = true
  alone : s.shares = [] → (kind.write (s.task t)).dependent = false

theorem quiet_write (hkind : kind = .finish ∨ kind = .kill ∨ kind = .unbind) (row : TaskRow) :
    (kind.write row).dependent = false := by
  rcases hkind with rfl | rfl | rfl <;> simp [WriteKind.write, TaskRow.dependent]

theorem admits_quiet (hkind : kind = .finish ∨ kind = .kill ∨ kind = .unbind) (hknown : t ∈ s.known) :
    s.Admits pid kind t where
  known := fun _ => hknown
  lease := by
    rintro rfl
    rcases hkind with h | h | h <;> cases h
  cohort := fun _ hdep => by simp [quiet_write hkind] at hdep
  alone := fun _ => quiet_write hkind _

theorem admits_passed {guarded : Bool} (h : (Tx.write kind t (.passed guarded)).Fits s pid) : s.Admits pid kind t := by
  obtain ⟨hknown, hstage⟩ := h
  cases guarded with
  | true =>
    obtain ⟨hshare, hlease, hcohort⟩ := hstage
    exact ⟨hknown, hlease, fun hd _ => (hcohort hd).2, fun hnil => by simp [hnil] at hshare⟩
  | false =>
    obtain ⟨rfl, hlease, hdepends⟩ := hstage
    have hquiet : (WriteKind.revive.write (s.task t)).dependent = false := by
      simp [WriteKind.write, TaskRow.dependent, hdepends]
    exact ⟨hknown, nofun, fun _ hdep => by simp [hquiet] at hdep, fun _ => hquiet⟩

/-- Only a creation or a binding makes a task depend on the module. -/
theorem write_depends {row : TaskRow} (hcreate : kind ≠ .create) (hbind : kind ≠ .bind) (h : row.depends = false) :
    (kind.write row).depends = false := by
  cases kind with
  | create => exact absurd rfl hcreate
  | bind => exact absurd rfl hbind
  | unbind => rfl
  | _ => exact h

theorem Sys.Inv.written {known : List Nat} (h : s.Inv) (hadmits : s.Admits pid kind t)
    (hknown : ∀ t', t' ∈ known ↔ t' ∈ s.known ∨ kind = .create ∧ t' = t)
    (hnew : kind = .create → t ∉ s.known) :
    (Sys.release { s with known, task := Function.update s.task t (kind.write (s.task t)) } pid).Inv := by
  have hother : ∀ t', t' ≠ t → Function.update s.task t (kind.write (s.task t)) t' = s.task t' :=
    fun t' hne => Function.update_of_ne hne ..
  have hself : Function.update s.task t (kind.write (s.task t)) t = kind.write (s.task t) := Function.update_self ..
  have hbefore : ∀ t' ∈ known, t' ≠ t → t' ∈ s.known := fun t' ht hne =>
    ((hknown t').mp ht).resolve_right fun hc => hne hc.2
  refine h.finish ⟨rfl, rfl, rfl⟩ rfl (fun hd t' ht hdep => ?_) fun p hp =>
    ⟨fun t' ht => (hknown t').mpr (.inl ht), fun _ ht => ht, fun t' ht hlease hd => ?_, fun hs => ⟨hs, rfl⟩,
      fun hu => ⟨hu, fun t' ht hdep => ?_⟩⟩
  · rcases Decidable.em (t' = t) with rfl | hne
    · exact hadmits.cohort hd (hself ▸ hdep)
    · exact h.cohort hd t' (hbefore t' ht hne) (hother t' hne ▸ hdep)
  · rcases Decidable.em (t' = t) with rfl | hne
    · have hbind : kind ≠ .bind := fun hk => hp (Option.some.inj (hlease.symm.trans (hadmits.lease hk)))
      exact (congrArg TaskRow.depends hself).trans (write_depends (fun hk => hnew hk ht) hbind hd)
    · exact (congrArg TaskRow.depends (hother t' hne)).trans hd
  · rcases Decidable.em (t' = t) with rfl | hne
    · have hquiet := hadmits.alone (h.alone p hu)
      exact absurd (hself ▸ hdep) (by simp [hquiet])
    · exact ⟨hbefore t' ht hne, hother t' hne ▸ hdep⟩

theorem Sys.Inv.commitWrite (h : s.Inv) (hadmits : s.Admits pid kind t) : (s.commitWrite pid kind t).Inv := by
  unfold Sys.commitWrite
  split
  · next hcreate =>
    split
    · exact h.drop pid
    · next hnew =>
      refine h.written hadmits (fun t' => ?_) fun _ => hnew
      rw [List.mem_cons, or_comm]
      simp [hcreate]
  · next hkind =>
    have hsame : ∀ t', t' ∈ s.known ↔ t' ∈ s.known ∨ kind = .create ∧ t' = t := fun t' => by simp [hkind]
    exact h.written hadmits hsame fun hk => absurd hk hkind

theorem Sys.Inv.guard (h : s.Inv) (hknown : kind ≠ .create → t ∈ s.known)
    (hlease : kind ≠ .create → s.leases t = some pid) : (s.guard pid kind t).Inv := by
  unfold Sys.guard
  have hshare : s.update.isSome = false → Sys.Inv { s with shares := pid :: s.shares } := fun hu => by
    have hfree : s.update = none := by simpa using hu
    refine ⟨fun p hp => absurd (hfree.symm.trans hp) (by simp), h.cohort, fun p tx htx => (h.txs p tx htx).mono ?_⟩
    exact ⟨fun _ ht => ht, fun _ ht => ht, fun _ _ _ hd => hd, fun hs => ⟨List.mem_cons_of_mem _ hs, rfl⟩,
      fun hu => ⟨hu, fun _ ht hd => ⟨ht, hd⟩⟩⟩
  split
  · exact h.drop pid
  · next hfree =>
    have hinv := hshare (by simpa using hfree)
    split
    · exact h.drop pid
    · split
      · next hopen =>
        refine hinv.goto ⟨hknown, List.mem_cons_self, fun hk => hlease (by simp [hk]), fun hd => ?_⟩
        have hdraining : s.module.draining = true := hd
        simp [hdraining] at hopen
      · split
        · exact h.drop pid
        · next hcreate => exact hinv.goto ⟨hknown, hcreate, hlease hcreate, List.mem_cons_self⟩

theorem Sys.Inv.advanceWrite (h : s.Inv) (hfits : (Tx.write kind t stage).Fits s pid) :
    (s.advanceWrite pid kind t stage).Inv := by
  obtain ⟨hknown, hstage⟩ := hfits
  unfold Sys.advanceWrite
  cases stage with
  | opened =>
    simp only
    split
    · next hleases =>
      split
      · next hfree =>
        have hlease : (s.lease pid t).Inv := by
          refine ⟨h.alone, h.cohort, fun p tx htx => (h.txs p tx htx).mono ?_⟩
          refine ⟨fun _ ht => ht, fun t' ht => ?_, fun _ _ _ hd => hd, fun hs => ⟨hs, rfl⟩,
            fun hu => ⟨hu, fun _ ht hd => ⟨ht, hd⟩⟩⟩
          have hne : t' ≠ t := by
            rintro rfl
            simp [hfree] at ht
          exact (Function.update_of_ne hne ..).trans ht
        exact hlease.goto ⟨hknown, Function.update_self ..⟩
      · split
        · exact h.drop pid
        · exact h
    · next hleases =>
      split
      · exact h
      · next hcreate =>
        refine h.commitWrite (admits_quiet ?_ (hknown hcreate))
        cases kind <;> simp [WriteKind.leases] at hleases hcreate ⊢
  | leased =>
    cases kind with
    | revive =>
      simp only
      split
      · exact h.goto ⟨hknown, hstage⟩
      · next hfree =>
        refine h.goto ⟨hknown, rfl, hstage, ?_⟩
        rw [Bool.or_eq_true, not_or] at hfree
        exact Bool.eq_false_iff.mpr hfree.1
    | unbind => exact h.commitWrite (admits_quiet (.inr (.inr rfl)) (hknown nofun))
    | _ => exact h
  | asked => exact h
  | member =>
    obtain ⟨hcreate, hlease, hshare⟩ := hstage
    simp only
    split
    · next hcohort => exact h.goto ⟨hknown, hshare, fun _ => hlease, fun _ => ⟨hcreate, hcohort⟩⟩
    · exact h.drop pid
  | passed guarded => exact h.commitWrite (admits_passed ⟨hknown, hstage⟩)

/-! ## Drains -/

theorem Sys.Inv.commitModule {row : ModuleRow} (h : s.Inv) (hupdate : s.update = some pid)
    (hcohort : row.draining = true → ∀ t ∈ s.known, (s.task t).dependent = true → row.cohort t = true) :
    (s.commitModule pid row).Inv := by
  have hshares : s.shares = [] := h.alone pid hupdate
  refine h.finish ⟨rfl, rfl, rfl⟩ rfl hcohort fun p hp =>
    ⟨fun _ ht => ht, fun _ ht => ht, fun _ _ _ hd => hd, fun hs => ?_, fun hu => ?_⟩
  · simp [hshares] at hs
  · exact absurd (Option.some.inj (hu.symm.trans hupdate)) hp

theorem Sys.Inv.advanceDrain {stage : DrainStage} (h : s.Inv) (hfits : stage.Fits s pid) :
    (s.advanceDrain pid drainKind stage).Inv := by
  unfold Sys.advanceDrain
  cases stage with
  | opened =>
    simp only
    split
    · next hfree =>
      rw [Bool.and_eq_true, List.isEmpty_iff, Option.isNone_iff_eq_none] at hfree
      have hlocked : Sys.Inv { s with update := some pid } := by
        refine ⟨fun _ _ => hfree.2, h.cohort, fun p tx htx => (h.txs p tx htx).mono ?_⟩
        exact ⟨fun _ ht => ht, fun _ ht => ht, fun _ _ _ hd => hd, fun hs => ⟨hs, rfl⟩,
          fun hu => absurd (hfree.1.symm.trans hu) (by simp)⟩
      exact hlocked.goto rfl
    · exact h
  | locked =>
    have hupdate : s.update = some pid := hfits
    cases drainKind with
    | begin =>
      simp only
      split
      · exact h.drop pid
      · exact h.goto ⟨hupdate, fun t ht hdep => by simp [ht, hdep]⟩
    | cancel =>
      simp only
      split
      · exact h.commitModule hupdate nofun
      · exact h.drop pid
    | finalize =>
      simp only
      split
      · exact h.drop pid
      · split
        · exact h.drop pid
        · next hnone =>
          refine h.goto ⟨hupdate, fun t ht => Bool.eq_false_iff.mpr fun hdep => hnone ?_⟩
          rw [TaskRow.dependent, Bool.and_eq_true] at hdep
          exact List.any_eq_true.mpr ⟨t, ht, by simp [hdep.1, hdep.2]⟩
  | listed cohort =>
    exact h.commitModule hfits.1 fun _ t ht hdep => by simp [hfits.2 t ht hdep]
  | counted => exact h.commitModule hfits.1 nofun

/-! ## Runs -/

theorem step_inv {a : Action} (h : s.Inv) (hstep : s.step a = some s') : s'.Inv := by
  cases a with
  | write pid kind t =>
    rw [Sys.step] at hstep
    split at hstep
    · cases hstep
    · split at hstep
      · next hknown =>
        cases hstep
        refine h.goto ⟨fun hk => ?_, trivial⟩
        rw [Bool.or_eq_true, decide_eq_true_eq, decide_eq_true_eq] at hknown
        exact hknown.resolve_left hk
      · cases hstep
  | drain pid kind =>
    rw [Sys.step] at hstep
    split at hstep
    · cases hstep
    · cases hstep
      have hfits : (Tx.drain kind .opened).Fits s pid := trivial
      exact h.goto hfits
  | guard pid =>
    rw [Sys.step] at hstep
    split at hstep
    · cases hstep
      exact h.guard (fun hk => absurd rfl hk) fun hk => absurd rfl hk
    · next t htx =>
      cases hstep
      obtain ⟨hknown, hlease⟩ := h.txs pid _ htx
      exact h.guard hknown fun _ => hlease
    · next t htx =>
      cases hstep
      obtain ⟨hknown, hlease⟩ := h.txs pid _ htx
      exact h.guard hknown fun _ => hlease
    · cases hstep
  | advance pid =>
    rw [Sys.step] at hstep
    split at hstep
    · next kind t stage htx =>
      cases hstep
      exact h.advanceWrite (h.txs pid _ htx)
    · next kind stage htx =>
      cases hstep
      exact h.advanceDrain (h.txs pid _ htx)
    · cases hstep
  | abort pid =>
    rw [Sys.step] at hstep
    obtain ⟨tx, -, rfl⟩ := Option.map_eq_some_iff.mp hstep
    exact h.drop pid

theorem Start.inv (h : Start s) : s.Inv where
  alone := fun p hp => absurd (h.update.symm.trans hp) (by simp)
  cohort := fun hd => by simp [h.draining] at hd
  txs := fun p tx htx => absurd ((h.txs p).symm.trans htx) (by simp)

/-- No task depends on the module, and nobody is past its guard. -/
structure Sys.Drained (s : Sys) : Prop extends s.Inv where
  shares : s.shares = []
  none : ∀ t ∈ s.known, (s.task t).dependent = false

/-- The statements that take no `KEY SHARE` and write no task. -/
def Sys.Reads (s s' : Sys) : Prop := s'.shares ⊆ s.shares ∧ s'.known = s.known ∧ s'.task = s.task

theorem goto_reads : s.Reads (s.goto pid tx) := ⟨fun _ h => h, rfl, rfl⟩

theorem release_reads : s.Reads (s.release pid) := ⟨List.filter_subset_self .., rfl, rfl⟩

theorem Sys.Drained.reads (h : s.Drained) (hinv : s'.Inv) (hreads : s.Reads s') : s'.Drained := by
  obtain ⟨hshares, hknown, htask⟩ := hreads
  refine ⟨hinv, List.subset_nil.mp (h.shares ▸ hshares), fun t ht => ?_⟩
  rw [htask]
  exact h.none t (hknown ▸ ht)

theorem Sys.Drained.commitWrite (h : s.Drained) (hadmits : s.Admits pid kind t) :
    (s.commitWrite pid kind t).Drained := by
  refine ⟨h.toInv.commitWrite hadmits, ?_, ?_⟩
  · have hnil : s.shares.filter (· ≠ pid) = [] := by rw [h.shares, List.filter_nil]
    unfold Sys.commitWrite
    split
    · split <;> exact hnil
    · exact hnil
  · have hwritten : ∀ t', (t' = t ∨ t' ∈ s.known) →
        (Function.update s.task t (kind.write (s.task t)) t').dependent = false := by
      intro t' ht
      rcases Decidable.em (t' = t) with rfl | hne
      · rw [Function.update_self]
        exact hadmits.alone h.shares
      · rw [Function.update_of_ne hne]
        exact h.none t' (ht.resolve_left hne)
    unfold Sys.commitWrite
    split
    · split
      · exact h.none
      · exact fun t' ht => hwritten t' (List.mem_cons.mp ht)
    · exact fun t' ht => hwritten t' (.inr ht)

/-- The next statement of a write is its commit, or it writes nothing. -/
theorem advanceWrite_cases (hfits : (Tx.write kind t stage).Fits s pid) :
    (s.advanceWrite pid kind t stage = s.commitWrite pid kind t ∧ s.Admits pid kind t) ∨
      s.Reads (s.advanceWrite pid kind t stage) := by
  obtain ⟨hknown, hstage⟩ := hfits
  have hself : s.Reads s := ⟨fun _ h => h, rfl, rfl⟩
  unfold Sys.advanceWrite
  cases stage with
  | opened =>
    simp only
    split
    · split
      · exact .inr ⟨fun _ h => h, rfl, rfl⟩
      · split
        · exact .inr release_reads
        · exact .inr hself
    · next hleases =>
      split
      · exact .inr hself
      · next hcreate =>
        refine .inl ⟨rfl, admits_quiet ?_ (hknown hcreate)⟩
        cases kind <;> simp [WriteKind.leases] at hleases hcreate ⊢
  | leased =>
    cases kind with
    | revive =>
      simp only
      split <;> exact .inr goto_reads
    | unbind => exact .inl ⟨rfl, admits_quiet (.inr (.inr rfl)) (hknown nofun)⟩
    | _ => exact .inr hself
  | asked => exact .inr hself
  | member =>
    simp only
    split
    · exact .inr goto_reads
    · exact .inr release_reads
  | passed guarded => exact .inl ⟨rfl, admits_passed ⟨hknown, hstage⟩⟩

theorem advanceDrain_reads {stage : DrainStage} : s.Reads (s.advanceDrain pid drainKind stage) := by
  have hself : s.Reads s := ⟨fun _ h => h, rfl, rfl⟩
  unfold Sys.advanceDrain
  cases stage with
  | opened =>
    simp only
    split
    · exact goto_reads
    · exact hself
  | locked =>
    cases drainKind with
    | begin =>
      simp only
      split
      · exact release_reads
      · exact goto_reads
    | cancel =>
      simp only
      split
      · exact ⟨List.filter_subset_self .., rfl, rfl⟩
      · exact release_reads
    | finalize =>
      simp only
      split
      · exact release_reads
      · split
        · exact release_reads
        · exact goto_reads
  | listed | counted => exact ⟨List.filter_subset_self .., rfl, rfl⟩

def Action.NotGuard : Action → Prop
  | .guard _ => False
  | _ => True

theorem step_drained {a : Action} (h : s.Drained) (ha : a.NotGuard) (hstep : s.step a = some s') : s'.Drained := by
  have hinv := step_inv h.toInv hstep
  cases a with
  | write pid kind t =>
    rw [Sys.step] at hstep
    split at hstep
    · cases hstep
    · split at hstep
      · cases hstep
        exact h.reads hinv goto_reads
      · cases hstep
  | drain pid kind =>
    rw [Sys.step] at hstep
    split at hstep
    · cases hstep
    · cases hstep
      exact h.reads hinv goto_reads
  | guard pid => exact ha.elim
  | advance pid =>
    rw [Sys.step] at hstep
    split at hstep
    · next kind t stage htx =>
      cases hstep
      rcases advanceWrite_cases (h.txs pid _ htx) with ⟨heq, hadmits⟩ | hreads
      · rw [heq]
        exact h.commitWrite hadmits
      · exact h.reads hinv hreads
    · cases hstep
      exact h.reads hinv advanceDrain_reads
    · cases hstep
  | abort pid =>
    rw [Sys.step] at hstep
    obtain ⟨tx, -, rfl⟩ := Option.map_eq_some_iff.mp hstep
    exact h.reads hinv release_reads

theorem finalize_drained {kind : DrainKind} (h : s.Inv) (htx : s.txs pid = some (.drain kind .counted))
    (hstep : s.step (.advance pid) = some s') : s'.module.deactivated = true ∧ s'.Drained := by
  have hinv := step_inv h hstep
  rw [Sys.step, htx] at hstep
  cases hstep
  obtain ⟨hupdate, hnone⟩ := h.txs pid _ htx
  have hnil : s.shares.filter (· ≠ pid) = [] := by rw [h.alone pid hupdate, List.filter_nil]
  exact ⟨rfl, hinv, hnil, hnone⟩

/-- While the module drains, its dependents are in the cohort. When `finalizeModuleDrain` commits,
nothing depends on it, and nothing will but through a new guard. -/
theorem drain_airtight (s₀ : Sys) (as : List Action) (s : Sys) (hstart : Start s₀)
    (hrun : runs Sys.step s₀ as = some s) :
    (s.module.draining = true →
      ∀ t ∈ s.known, (s.task t).dependent = true → s.module.cohort t = true) ∧
    ∀ pid s', s.txs pid = some (.drain .finalize .counted) → s.step (.advance pid) = some s' →
      s'.module.deactivated = true ∧ (∀ t ∈ s'.known, (s'.task t).dependent = false) ∧
        ∀ bs s'', (∀ a ∈ bs, a.NotGuard) → runs Sys.step s' bs = some s'' →
          ∀ t ∈ s''.known, (s''.task t).dependent = false := by
  have h : s.Inv := runs_keep (fun _ _ _ hinv hstep => step_inv hinv hstep) hstart.inv hrun
  refine ⟨h.cohort, fun pid s' htx hstep => ?_⟩
  obtain ⟨hdeactivated, hdrained⟩ := finalize_drained h htx hstep
  refine ⟨hdeactivated, hdrained.none, fun bs s'' hbs hrun' => ?_⟩
  have hmet : Along Sys.step (fun _ a => a.NotGuard) s' bs := along_of_mem hbs
  have hall : s''.Drained := runs_inv (fun _ _ _ hd ha hs => step_drained hd ha hs) hdrained hmet hrun'
  exact hall.none

/-! ## A drain to its end -/

namespace Sample

/-- Task 1 runs on the module, task 2 does not. -/
def serving : Sys where
  known := [1, 2]
  task := fun t => ⟨true, false, t == 1⟩
  module := ⟨false, false, fun _ => false⟩
  txs := fun _ => none
  shares := []
  update := none
  leases := fun _ => none

def advances (pid n : Nat) : List Action := List.replicate n (.advance pid)

/-- The cohort is task 1, a binding of task 2 is refused, and task 1 ends. -/
def emptied : List Action :=
  [.drain 0 .begin] ++ advances 0 3 ++ [.write 1 .bind 2, .advance 1, .guard 1, .advance 1] ++
    [.write 2 .finish 1, .advance 2, .drain 3 .finalize] ++ advances 3 2

theorem serving_start : Start serving := ⟨rfl, fun _ => rfl, rfl, rfl, fun _ => rfl⟩

end Sample

open Haive.Modules.Sample

theorem emptied_airtight : ∃ s s', runs Sys.step serving emptied = some s ∧ s.module.draining = true ∧
    s.step (.advance 3) = some s' ∧ s'.module.deactivated = true ∧
    ∀ t ∈ s'.known, (s'.task t).dependent = false := by
  have hsome : (runs Sys.step serving emptied).isSome = true := rfl
  obtain ⟨s, hrun⟩ := Option.isSome_iff_exists.mp hsome
  have hdraining : (runs Sys.step serving emptied).map (·.module.draining) = some true := rfl
  have hcounted : (runs Sys.step serving emptied).map (·.txs 3) = some (some (.drain .finalize .counted)) := rfl
  rw [hrun] at hdraining hcounted
  have htx : s.txs 3 = some (.drain .finalize .counted) := Option.some.inj hcounted
  have hstep : s.step (.advance 3) = some (s.advanceDrain 3 .finalize .counted) := by
    rw [Sys.step, htx]
  obtain ⟨-, hends⟩ := drain_airtight serving emptied s serving_start hrun
  obtain ⟨hdeactivated, hnone, -⟩ := hends 3 _ htx hstep
  exact ⟨s, _, hrun, Option.some.inj hdraining, hstep, hdeactivated, hnone⟩

end Haive.Modules

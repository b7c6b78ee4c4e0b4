import Haive.Lib.Runs
import Haive.Lib.Table
import Mathlib.Order.Nat

/-!
# The agent pool

`worker/src/queues/cli-exec/agent-lease.ts`: one Redis hash of slot fields, each with its
own expiry. A reservation prunes what has expired and inserts its field where there is
room, in one script; a heartbeat overwrites its field whether it is still there or not.

`agent_cap_holds`: the pool never counts more than `cap` unexpired fields in a run in
which no heartbeat brings back a field that is gone from a full pool. One that comes
after its field was pruned and the slot given away does (`late_beat_exceeds_cap`).

A command is sent with the time it was sent at and runs at any later time, in any order.
A command that fails is one that never runs; a slot exists from its reservation on,
though its holder learns of it later.
-/

namespace Haive.Queues

open Lib

/-! ## The hash -/

structure LeaseField where
  name : String
  expiry : Nat
deriving DecidableEq

/-- `haive:agent-lease`. -/
abbrev LeaseHash := Table LeaseField (·.name)

/-- `LEASE_TTL_MS`. -/
def leaseTtlMs : Nat := 2 * 60000

/-- `ACQUIRE_LEASE_SCRIPT`: whether the field is reserved, and how many are live. -/
def acquireLease (hash : LeaseHash) (now expiry : Nat) (field : String) (cap : Nat) : (Bool × Nat) × LeaseHash :=
  let kept := hash.filter fun f => now < f.expiry
  let live := kept.rows.length
  if field ∈ kept.keys then ((true, live), kept.put ⟨field, expiry⟩)
  else if cap ≤ live then ((false, live), kept)
  else ((true, live), kept.put ⟨field, expiry⟩)

def unexpired (hash : LeaseHash) (now : Nat) : Nat := hash.rows.countP fun f => now < f.expiry

/-! ## Holders and commands -/

inductive LeaseCommand
  | acquire (now : Nat) (field : String)
  | beat (field : String) (expiry : Nat)
  | release (field : String)
deriving DecidableEq

/-- `slots`: the slots whose heartbeat runs. -/
structure LeaseSys where
  now : Nat
  hash : LeaseHash
  slots : List String
  inFlight : List LeaseCommand
deriving DecidableEq

inductive LeaseAct
  | tick (ms : Nat)
  /-- `reserve` is called. -/
  | reserve (field : String)
  /-- The interval of a slot fires. -/
  | heartbeat (field : String)
  /-- A holder calls `release`. -/
  | release (field : String)
  /-- A command in flight runs. -/
  | run (i : Nat)
deriving DecidableEq

namespace LeaseSys

def start : LeaseSys := ⟨0, ∅, [], []⟩

def send (s : LeaseSys) (c : LeaseCommand) : LeaseSys := { s with inFlight := s.inFlight ++ [c] }

def exec (cap : Nat) (s : LeaseSys) : LeaseCommand → LeaseSys
  | .acquire now field =>
    let ((reserved, _), hash) := acquireLease s.hash now (now + leaseTtlMs) field cap
    { s with hash, slots := if reserved && !s.slots.contains field then s.slots ++ [field] else s.slots }
  | .beat field expiry => { s with hash := s.hash.put ⟨field, expiry⟩ }
  | .release field => { s with hash := s.hash.del field }

def step (cap : Nat) (s : LeaseSys) : LeaseAct → Option LeaseSys
  | .tick ms => some { s with now := s.now + ms }
  | .reserve field => some (s.send (.acquire s.now field))
  | .heartbeat field =>
    if s.slots.contains field then some (s.send (.beat field (s.now + leaseTtlMs))) else none
  | .release field =>
    if s.slots.contains field then
      some (send { s with slots := s.slots.erase field } (.release field))
    else none
  | .run i =>
    match s.inFlight[i]? with
    | none => none
    | some c => some (exec cap { s with inFlight := s.inFlight.eraseIdx i } c)

def BeatFits (cap : Nat) (s : LeaseSys) : LeaseAct → Prop
  | .run i => ∀ field expiry, s.inFlight[i]? = some (.beat field expiry) →
      field ∈ s.hash.keys ∨ s.hash.rows.length < cap
  | _ => True

def beatFits (cap : Nat) (s : LeaseSys) : LeaseAct → Bool
  | .run i =>
    match s.inFlight[i]? with
    | some (.beat field _) => s.hash.keys.contains field || s.hash.rows.length < cap
    | _ => true
  | _ => true

theorem beatFits_sound {cap : Nat} (s : LeaseSys) (a : LeaseAct) (h : beatFits cap s a = true) :
    BeatFits cap s a := by
  cases a with
  | run i =>
    intro field expiry hi
    rw [beatFits, hi] at h
    simpa using h
  | _ => trivial

end LeaseSys

/-! ## The cap -/

section Cap

variable {cap : Nat} {hash : LeaseHash}

theorem length_put_of_mem {f : LeaseField} (h : f.name ∈ hash.keys) :
    (hash.put f).rows.length = hash.rows.length := by
  have hkeys := congrArg List.length (Table.keys_put_of_mem h)
  rwa [Table.keys, Table.keys, List.length_map, List.length_map] at hkeys

theorem length_put_le (f : LeaseField) : (hash.put f).rows.length ≤ hash.rows.length + 1 := by
  by_cases h : f.name ∈ hash.keys
  · rw [length_put_of_mem h]
    exact Nat.le_succ _
  · rw [Table.rows_put_of_not_mem h, List.length_append]
    exact Nat.le_refl _

/-- A reservation leaves no more than `cap` fields, whenever it was sent. -/
theorem length_acquireLease_le (h : hash.rows.length ≤ cap) (now expiry : Nat) (field : String) :
    (acquireLease hash now expiry field cap).2.rows.length ≤ cap := by
  have hkept : (hash.filter fun f => now < f.expiry).rows.length ≤ cap :=
    (List.length_filter_le _ hash.rows).trans h
  rw [acquireLease]
  split
  · next hheld => exact (length_put_of_mem (f := ⟨field, expiry⟩) hheld).le.trans hkept
  · split
    · exact hkept
    · next hroom => exact (length_put_le _).trans (by omega)

theorem LeaseSys.length_exec_le {s : LeaseSys} (h : s.hash.rows.length ≤ cap) (c : LeaseCommand)
    (hfits : ∀ field expiry, c = .beat field expiry → field ∈ s.hash.keys ∨ s.hash.rows.length < cap) :
    (exec cap s c).hash.rows.length ≤ cap := by
  cases c with
  | acquire now field => exact length_acquireLease_le h now (now + leaseTtlMs) field
  | beat field expiry =>
    rcases hfits field expiry rfl with hheld | hroom
    · exact (length_put_of_mem (f := ⟨field, expiry⟩) hheld).le.trans h
    · exact (length_put_le _).trans hroom
  | release field => exact (List.length_filter_le _ s.hash.rows).trans h

theorem LeaseSys.step_length_le {s s' : LeaseSys} {a : LeaseAct} (h : s.hash.rows.length ≤ cap)
    (hfits : BeatFits cap s a) (hstep : step cap s a = some s') : s'.hash.rows.length ≤ cap := by
  cases a with
  | tick ms =>
    cases hstep
    exact h
  | reserve field =>
    cases hstep
    exact h
  | heartbeat field =>
    rw [step] at hstep
    split at hstep
    · cases hstep
      exact h
    · cases hstep
  | release field =>
    rw [step] at hstep
    split at hstep
    · cases hstep
      exact h
    · cases hstep
  | run i =>
    rw [step] at hstep
    cases hi : s.inFlight[i]? with
    | none =>
      rw [hi] at hstep
      cases hstep
    | some c =>
      rw [hi] at hstep
      cases hstep
      refine length_exec_le (s := { s with inFlight := s.inFlight.eraseIdx i }) h c fun field expiry hc => ?_
      exact hfits field expiry (hc ▸ hi)

/-- Along a run in which every heartbeat that runs finds its field, or room for it, the unexpired
fields are never more than `cap`. -/
theorem agent_cap_holds (cap : Nat) (acts : List LeaseAct)
    (hfits : Along (LeaseSys.step cap) (LeaseSys.BeatFits cap) LeaseSys.start acts)
    (as : List LeaseAct) (hfirst : as <+: acts) (s : LeaseSys)
    (hrun : runs (LeaseSys.step cap) LeaseSys.start as = some s) : unexpired s.hash s.now ≤ cap := by
  have hlength := reached_inv (I := fun s : LeaseSys => s.hash.rows.length ≤ cap)
    (fun _ _ _ h hmet hstep => LeaseSys.step_length_le h hmet hstep)
    (s := LeaseSys.start) (Nat.zero_le cap) hfits hfirst hrun
  exact List.countP_le_length.trans hlength

/-! ## Two runs -/

namespace Sample

def handover : List LeaseAct :=
  [ .reserve "invoke:1", .run 0, .tick 30000, .heartbeat "invoke:1", .run 0, .release "invoke:1", .run 0,
    .reserve "lease:2", .run 0 ]

/-- The first holder's beats stop for longer than its lease, and go on after another reserved. -/
def lateBeat : List LeaseAct :=
  [ .reserve "invoke:1", .run 0, .tick 120000, .reserve "lease:2", .run 0, .heartbeat "invoke:1", .run 0 ]

end Sample

theorem agent_cap_holds_handover : ∃ s, runs (LeaseSys.step 1) LeaseSys.start Sample.handover = some s ∧
    unexpired s.hash s.now ≤ 1 := by
  have hrun : (runs (LeaseSys.step 1) LeaseSys.start Sample.handover).isSome = true := by decide +kernel
  obtain ⟨s, hs⟩ := Option.isSome_iff_exists.mp hrun
  exact ⟨s, hs, agent_cap_holds 1 Sample.handover
    (Along.of_along LeaseSys.beatFits_sound (by decide +kernel)) Sample.handover (List.prefix_refl _) s hs⟩

/-- Two unexpired fields under a cap of one. -/
theorem late_beat_exceeds_cap : ∃ s, runs (LeaseSys.step 1) LeaseSys.start Sample.lateBeat = some s ∧
    unexpired s.hash s.now = 2 := by
  have hrun : (runs (LeaseSys.step 1) LeaseSys.start Sample.lateBeat).any
      (fun s => unexpired s.hash s.now = 2) = true := by decide +kernel
  obtain ⟨s, hs, htwo⟩ := (Option.any_eq_true _ _).mp hrun
  exact ⟨s, hs, of_decide_eq_true htwo⟩

end Cap

end Haive.Queues

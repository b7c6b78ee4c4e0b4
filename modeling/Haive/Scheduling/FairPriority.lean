import Mathlib

/-!
# Fair priorities

`shared/src/scheduling/fair-priority.ts`: the priority of a queued run is a band and a tiebreak
in one integer, and a vote shifts it by whole bands. `priority_laws` says that the clamps of the
band are never reached, so a shifted priority is the fresh one.
-/

namespace Haive.Scheduling

def fairRankMultiplier : ℤ := 1000
def fairUserTiebreakMax : ℤ := fairRankMultiplier - 1
def fairTaskRankMax : ℤ := 2000
def taskVoteMin : ℤ := -5
def taskVoteMax : ℤ := 5
def voteBase : ℤ := taskVoteMax
def bandMin : ℤ := 1
def bandMax : ℤ := voteBase + fairTaskRankMax - taskVoteMin
def fairPriorityMin : ℤ := bandMin * fairRankMultiplier
def fairPriorityMax : ℤ := bandMax * fairRankMultiplier + fairUserTiebreakMax

/-- `Math.trunc`. -/
def truncate (x : ℚ) : ℤ := x.num.tdiv x.den

@[simp] theorem truncate_intCast (n : ℤ) : truncate n = n := by simp [truncate]

theorem truncate_of_nonneg {x : ℚ} (h : 0 ≤ x) : truncate x = ⌊x⌋ := by
  rw [truncate, Rat.floor_def']
  exact Int.tdiv_eq_ediv_of_nonneg (Rat.num_nonneg.mpr h)

theorem truncate_neg (x : ℚ) : truncate (-x) = -truncate x := by
  rw [truncate, truncate, Rat.neg_num, Rat.neg_den, Int.neg_tdiv]

theorem truncate_mono {x y : ℚ} (h : x ≤ y) : truncate x ≤ truncate y := by
  rcases le_total 0 x with hx | hx
  · rw [truncate_of_nonneg hx, truncate_of_nonneg (hx.trans h)]
    exact Int.floor_mono h
  · have hnegx : truncate x = -⌊-x⌋ := by rw [← truncate_of_nonneg (neg_nonneg.mpr hx), truncate_neg, neg_neg]
    rcases le_total 0 y with hy | hy
    · rw [hnegx, truncate_of_nonneg hy]
      exact (neg_nonpos.mpr (Int.floor_nonneg.mpr (neg_nonneg.mpr hx))).trans (Int.floor_nonneg.mpr hy)
    · have hnegy : truncate y = -⌊-y⌋ := by rw [← truncate_of_nonneg (neg_nonneg.mpr hy), truncate_neg, neg_neg]
      rw [hnegx, hnegy]
      exact neg_le_neg (Int.floor_mono (neg_le_neg h))

def clamp (value min max : ℤ) : ℤ := Min.min (Max.max value min) max

theorem clamp_mem {value min max : ℤ} (h : min ≤ max) : min ≤ clamp value min max ∧ clamp value min max ≤ max :=
  ⟨le_min (le_max_right _ _) h, min_le_right _ _⟩

theorem clamp_of_mem {value min max : ℤ} (hmin : min ≤ value) (hmax : value ≤ max) :
    clamp value min max = value := by
  rw [clamp, max_eq_left hmin, min_eq_left hmax]

theorem clamp_mono {value value' : ℤ} (h : value ≤ value') (min max : ℤ) : clamp value min max ≤ clamp value' min max :=
  min_le_min_right _ (max_le_max_right _ h)

structure FairPriorityInput where
  rank : ℚ
  tiebreak : ℚ
  score : ℚ

namespace FairPriorityInput

def clampedRank (input : FairPriorityInput) : ℤ := clamp (truncate input.rank) 1 fairTaskRankMax

def clampedTiebreak (input : FairPriorityInput) : ℤ := clamp (truncate input.tiebreak) 0 fairUserTiebreakMax

def clampedScore (input : FairPriorityInput) : ℤ := clamp (truncate input.score) taskVoteMin taskVoteMax

end FairPriorityInput

def fairPriority (input : FairPriorityInput) : ℤ :=
  let band := clamp (voteBase + input.clampedRank - input.clampedScore) bandMin bandMax
  band * fairRankMultiplier + input.clampedTiebreak

def repricedPriority (current : ℤ) (scoreDelta : ℚ) : ℤ :=
  clamp (current - truncate scoreDelta * fairRankMultiplier) fairPriorityMin fairPriorityMax

/-! ## Votes -/

abbrev VoteScore := Set.Icc taskVoteMin taskVoteMax

def clampVoteScore (score : ℚ) : VoteScore :=
  ⟨clamp (truncate score) taskVoteMin taskVoteMax, clamp_mem (by decide)⟩

/-- `repriceTaskCliJobs` on one job: nothing is written where the score stays. -/
def reprice (current : ℤ) (previous next : VoteScore) : ℤ :=
  if next.1 - previous.1 = 0 then current else repricedPriority current ((next.1 - previous.1 : ℤ) : ℚ)

/-- The job's priority after its task's score took the values `scores`, one after the other. -/
def repriceAlong (current : ℤ) (score : VoteScore) : List VoteScore → ℤ
  | [] => current
  | next :: scores => repriceAlong (reprice current score next) next scores

/-! ## The band -/

theorem clampedRank_mem (input : FairPriorityInput) : 1 ≤ input.clampedRank ∧ input.clampedRank ≤ 2000 :=
  clamp_mem (by decide)

theorem clampedTiebreak_mem (input : FairPriorityInput) : 0 ≤ input.clampedTiebreak ∧ input.clampedTiebreak ≤ 999 :=
  clamp_mem (by decide)

theorem clampedScore_mem (input : FairPriorityInput) : -5 ≤ input.clampedScore ∧ input.clampedScore ≤ 5 :=
  clamp_mem (by decide)

/-- The band is never clamped. -/
theorem fairPriority_eq (input : FairPriorityInput) :
    fairPriority input = (5 + input.clampedRank - input.clampedScore) * 1000 + input.clampedTiebreak := by
  obtain ⟨hrank₁, hrank₂⟩ := clampedRank_mem input
  obtain ⟨hscore₁, hscore₂⟩ := clampedScore_mem input
  have hband : clamp (voteBase + input.clampedRank - input.clampedScore) bandMin bandMax =
      5 + input.clampedRank - input.clampedScore := by
    refine clamp_of_mem ?_ ?_ <;> simp only [voteBase, bandMin, bandMax, taskVoteMax, taskVoteMin, fairTaskRankMax]
    · omega
    · omega
  rw [fairPriority, hband, fairRankMultiplier]

theorem fairPriority_mem (input : FairPriorityInput) :
    fairPriorityMin ≤ fairPriority input ∧ fairPriority input ≤ fairPriorityMax := by
  have hrank := clampedRank_mem input
  have htie := clampedTiebreak_mem input
  have hscore := clampedScore_mem input
  have hmin : fairPriorityMin = 1000 := by decide
  have hmax : fairPriorityMax = 2010999 := by decide
  rw [fairPriority_eq, hmin, hmax]
  omega

theorem repricedPriority_mem (current : ℤ) (scoreDelta : ℚ) :
    fairPriorityMin ≤ repricedPriority current scoreDelta ∧ repricedPriority current scoreDelta ≤ fairPriorityMax :=
  clamp_mem (by decide)

/-! ## Repricing -/

theorem clampedScore_voteScore (rank tiebreak : ℚ) (score : VoteScore) :
    (FairPriorityInput.mk rank tiebreak (score.1 : ℚ)).clampedScore = score.1 := by
  rw [FairPriorityInput.clampedScore, truncate_intCast]
  exact clamp_of_mem score.2.1 score.2.2

theorem reprice_fresh (rank tiebreak : ℚ) (previous next : VoteScore) :
    reprice (fairPriority ⟨rank, tiebreak, (previous.1 : ℚ)⟩) previous next =
      fairPriority ⟨rank, tiebreak, (next.1 : ℚ)⟩ := by
  have hshift : fairPriority ⟨rank, tiebreak, (next.1 : ℚ)⟩ =
      fairPriority ⟨rank, tiebreak, (previous.1 : ℚ)⟩ - (next.1 - previous.1) * fairRankMultiplier := by
    rw [fairPriority_eq, fairPriority_eq, clampedScore_voteScore, clampedScore_voteScore, fairRankMultiplier]
    simp only [FairPriorityInput.clampedRank, FairPriorityInput.clampedTiebreak]
    ring
  unfold reprice
  split
  · next heq => rw [hshift, heq, zero_mul, sub_zero]
  · have hlegal := fairPriority_mem ⟨rank, tiebreak, (next.1 : ℚ)⟩
    rw [repricedPriority, truncate_intCast, ← hshift]
    exact clamp_of_mem hlegal.1 hlegal.2

theorem repriceAlong_fresh (rank tiebreak : ℚ) (first : VoteScore) (scores : List VoteScore) :
    repriceAlong (fairPriority ⟨rank, tiebreak, (first.1 : ℚ)⟩) first scores =
      fairPriority ⟨rank, tiebreak, (((scores.getLastD first).1 : ℤ) : ℚ)⟩ := by
  induction scores generalizing first with
  | nil => rfl
  | cons next scores ih => rw [repriceAlong, reprice_fresh, ih, List.getLastD_cons]

/-! ## Order -/

/-- A later agent of a task never goes first. -/
theorem fairPriority_mono {rank rank' : ℚ} (h : rank ≤ rank') (tiebreak score : ℚ) :
    fairPriority ⟨rank, tiebreak, score⟩ ≤ fairPriority ⟨rank', tiebreak, score⟩ := by
  have hrank : (FairPriorityInput.mk rank tiebreak score).clampedRank ≤ (FairPriorityInput.mk rank' tiebreak score).clampedRank :=
    clamp_mono (truncate_mono h) _ _
  rw [fairPriority_eq, fairPriority_eq]
  simp only [FairPriorityInput.clampedScore, FairPriorityInput.clampedTiebreak]
  omega
/-- What a job is ordered by: how far its band is from the base, then the load of its user. -/
def FairPriorityInput.slot (input : FairPriorityInput) : ℤ ×ₗ ℤ :=
  toLex (input.clampedRank - input.clampedScore, input.clampedTiebreak)

theorem fairPriority_lt_iff (a b : FairPriorityInput) : fairPriority a < fairPriority b ↔ a.slot < b.slot := by
  have hta := clampedTiebreak_mem a
  have htb := clampedTiebreak_mem b
  rw [fairPriority_eq, fairPriority_eq, FairPriorityInput.slot, FairPriorityInput.slot, Prod.Lex.toLex_lt_toLex]
  -- A tiebreak is less than a band.
  omega

/-- Ranks, tiebreaks and scores that no clamp changes. -/
structure AdmittedInput where
  rank : Set.Icc 1 fairTaskRankMax
  tiebreak : Set.Icc 0 fairUserTiebreakMax
  score : VoteScore

def AdmittedInput.input (a : AdmittedInput) : FairPriorityInput :=
  ⟨(a.rank.1 : ℚ), (a.tiebreak.1 : ℚ), (a.score.1 : ℚ)⟩

theorem AdmittedInput.slot_input (a : AdmittedInput) :
    a.input.slot = toLex (a.rank.1 - a.score.1, a.tiebreak.1) := by
  have hrank : a.input.clampedRank = a.rank.1 := by
    rw [FairPriorityInput.clampedRank, input, truncate_intCast]
    exact clamp_of_mem a.rank.2.1 a.rank.2.2
  have htie : a.input.clampedTiebreak = a.tiebreak.1 := by
    rw [FairPriorityInput.clampedTiebreak, input, truncate_intCast]
    exact clamp_of_mem a.tiebreak.2.1 a.tiebreak.2.2
  rw [FairPriorityInput.slot, hrank, htie, input, clampedScore_voteScore]

/-- A priority that votes have shifted is the fresh one, every priority is legal, and priorities
order the jobs by `rank - score` and then by the tiebreak. -/
theorem priority_laws :
    (∀ (rank tiebreak : ℚ) (first : VoteScore) (scores : List VoteScore),
      repriceAlong (fairPriority ⟨rank, tiebreak, (first.1 : ℚ)⟩) first scores =
        fairPriority ⟨rank, tiebreak, (((scores.getLastD first).1 : ℤ) : ℚ)⟩) ∧
    (∀ input : FairPriorityInput, 1000 ≤ fairPriority input ∧ fairPriority input < 2 ^ 21) ∧
    (∀ (current : ℤ) (scoreDelta : ℚ),
      1000 ≤ repricedPriority current scoreDelta ∧ repricedPriority current scoreDelta < 2 ^ 21) ∧
    (∀ a b : FairPriorityInput, fairPriority a < fairPriority b ↔ a.slot < b.slot) ∧
    ∀ a b : AdmittedInput, fairPriority a.input < fairPriority b.input ↔
      toLex (a.rank.1 - a.score.1, a.tiebreak.1) < toLex (b.rank.1 - b.score.1, b.tiebreak.1) := by
  have hmin : 1000 ≤ fairPriorityMin := by decide
  have hmax : fairPriorityMax < 2 ^ 21 := by decide
  refine ⟨repriceAlong_fresh, fun input => ?_, fun current scoreDelta => ?_, fairPriority_lt_iff, fun a b => ?_⟩
  · obtain ⟨h₁, h₂⟩ := fairPriority_mem input
    exact ⟨hmin.trans h₁, h₂.trans_lt hmax⟩
  · obtain ⟨h₁, h₂⟩ := repricedPriority_mem current scoreDelta
    exact ⟨hmin.trans h₁, h₂.trans_lt hmax⟩
  · rw [fairPriority_lt_iff, a.slot_input, b.slot_input]

/-- A boosted fifth agent runs before a neutral first one. -/
example : fairPriority ⟨5, 0, 5⟩ < fairPriority ⟨1, 0, 0⟩ := by
  rw [fairPriority_lt_iff]
  decide

end Haive.Scheduling

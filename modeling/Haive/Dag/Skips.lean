import Haive.Dag.Moves

/-!
# What becomes of a replanner's skip list

A replanner answers with an action and, for CONTINUE and REDUCE_SCOPE, the issues to
skip. The executor reads the action alone: it skips the failed issues of the level and
goes on. So the list is honoured for the issues that are skipped anyway and for those
that were given up before, and an issue of a later level that it names is dispatched
when its level comes.
-/

namespace Dag

open Lib Issue

def Issue.givenUp (i : Issue) : Bool := i.resolution = some .skipped || i.resolution = some .split

/-- The run of the replanner that the plan waits for. -/
def Rows.replanner (d : Rows) : Option Invocation :=
  d.plan.replannerInvocationId.bind (d.plan.replanners[·]?)

/-- The answer is one that comes with a list of issues to skip. -/
def ReplannerOutput.lists (out : ReplannerOutput) : Bool :=
  out.action = .continue || out.action = .reduceScope

/-- What an answer names without a coder is skipped anyway: it failed at the current level, or it was
given up before. -/
def SkipsListed (d : Rows) : Action → Prop
  | .iterate _ => ∀ inv, d.replanner = some inv → inv.runIsLive = false →
      (parseReplanner inv).lists = true → ∀ l, d.curLevel = some l →
        ∀ i ∈ d.issues, i.issueKey ∈ (parseReplanner inv).skipDownstream → i.cliInvocationId = none →
          i.level = l.level ∧ i.stuckFailed = true ∨ i.givenUp = true
  | _ => True

/-! ## Issues at rest -/

/-- Nothing is sent for the issue: neither a coder claims it nor does a run of it start. -/
structure Unsent (i j : Issue) : Prop where
  issueKey : j.issueKey = i.issueKey
  claim : j.cliInvocationId = i.cliInvocationId
  runs : j.invocations.length = i.invocations.length

def AtRest (i : Issue) : Prop := i.givenUp = true ∧ (i.coded = true ∨ i.coderFailed = true)

def Rests (i j : Issue) : Prop := j.issueKey = i.issueKey ∧ (AtRest i → AtRest j ∧ Unsent i j)

theorem AtRest.resolved {i : Issue} (h : AtRest i) : i.resolution ≠ none ∧ i.failed = false := by
  have hg := h.1
  simp only [givenUp, Bool.or_eq_true, decide_eq_true_eq] at hg
  rcases hg with hg | hg <;> simp [hg, Issue.failed]

theorem Rests.of_same {i j : Issue} (hk : j.issueKey = i.issueKey) (hr : j.resolution = i.resolution)
    (ho : j.outcome = i.outcome) (hc : j.cliInvocationId = i.cliInvocationId)
    (hv : j.invocations.length = i.invocations.length) : Rests i j := by
  refine ⟨hk, fun h => ⟨?_, hk, hc, hv⟩⟩
  simpa [AtRest, givenUp, coded, coderFailed, hr, ho] using h

/-- A write that does not happen to an issue at rest. -/
theorem Rests.of_not {i j : Issue} (hk : j.issueKey = i.issueKey) (h : ¬ AtRest i) : Rests i j :=
  ⟨hk, fun hrest => absurd hrest h⟩

theorem not_atRest_of_open {i : Issue} (h : i.resolution = none) : ¬ AtRest i := fun hrest =>
  hrest.resolved.1 h

theorem not_atRest_of_failed {i : Issue} (h : i.failed = true) : ¬ AtRest i := fun hrest => by
  simp [hrest.resolved.2] at h

theorem not_atRest_of_unended {i : Issue} (h : i.coded = false ∧ i.coderFailed = false) : ¬ AtRest i :=
  fun hrest => hrest.2.elim (fun hc => by simp [h.1] at hc) fun hf => by simp [h.2] at hf

theorem move_rests {b : Bool} {i j : Issue} (h : Move b i j) : Rests i j := by
  cases h with
  | worktree => exact .of_same rfl rfl rfl rfl rfl
  | dispatched w hu =>
    exact .of_not (dispatchCoder_kept w i).issueKey (not_atRest_of_unended (not_coded_of_undispatched hu))
  | marked hb hf hr => exact .of_not rfl (not_atRest_of_open hr)
  | reviewed w hb hn =>
    rw [needsReview, Bool.and_eq_true, Option.isNone_iff_eq_none] at hn
    exact .of_not (Reviewed.reviewIssue w i).issueKey (not_atRest_of_open hn.2)
  | advised w taken hb hf => exact .of_not (adviseIssue_kept w taken i).row.issueKey (not_atRest_of_failed hf)
  | skipped hb hf => exact .of_not rfl (not_atRest_of_failed hf)
  | emptied => exact .of_same rfl rfl rfl rfl rfl
  | merged => exact .of_same rfl rfl rfl rfl rfl

theorem across_rests (b : Bool) : Across b Rests where
  refl := fun _ => .of_same rfl rfl rfl rfl rfl
  trans := fun {i j k} h h' => ⟨h'.1.trans h.1, fun hrest => by
    obtain ⟨hj, hij⟩ := h.2 hrest
    obtain ⟨hk, hjk⟩ := h'.2 hj
    exact ⟨hk, hjk.issueKey.trans hij.issueKey, hjk.claim.trans hij.claim, hjk.runs.trans hij.runs⟩⟩
  key := fun h => h.1
  move := move_rests

theorem step_rests {b : Bool} {d : Rows} (hd : Proper b d) (a : Action) : Rowwise b Rests d (step d a) := by
  refine step_rows (across_rests b) hd ?_ (fun _ _ hlen => .of_same rfl rfl rfl rfl hlen) ?_
  · intro w _ _ _ _ i _ hrun
    exact .of_not (ingestCoder_kept w i).issueKey (not_atRest_of_unended (not_coded_of_running hrun))
  · intro _ _ _ i _ hstuck
    refine .of_not rfl fun hrest => ?_
    simp only [stuckFailed, hrest.resolved.2, Bool.false_or, Bool.and_eq_true,
      Option.isNone_iff_eq_none] at hstuck
    exact hrest.resolved.1 hstuck.2

/-- An issue at rest is never sent for again. -/
theorem run_rests {b : Bool} {d : Rows} (hd : Proper b d) (actions : List Action) :
    Rowwise b Rests d (run d actions) := by
  induction actions generalizing d with
  | nil => exact .of_issues (across_rests b) hd rfl rfl
  | cons a as ih =>
    have h := step_rests hd a
    exact h.trans (across_rests b) (ih h.proper)

/-! ## The iteration that folds a replanner in -/

/-- The answers of replanners folded in so far. -/
def Rows.counted (d : Rows) : Nat := d.plan.replannerInvocations

section Counted

variable {w : World} {level : Nat} {d d' : Rows}

theorem sweepStage_plan {pick : Issue → Bool} {turn : List String → Issue → IssueTurn}
    {decide : Rows → List Note → Option Signal} (d : Rows) :
    (sweepStage pick turn level decide d).1.plan = d.plan := by
  unfold sweepStage
  dsimp only
  split <;> rfl

/-- A stage that folds no replanner in. -/
def Stage.KeepsCount (s : Stage) : Prop := ∀ d, (s d).1.counted = d.counted

theorem sweepStage_counted {pick : Issue → Bool} {turn : List String → Issue → IssueTurn}
    {decide : Rows → List Note → Option Signal} : (sweepStage pick turn level decide).KeepsCount :=
  fun d => by rw [Rows.counted, sweepStage_plan, Rows.counted]

/-- What folds a replanner in comes after the stages that fold none in. -/
theorem Stage.KeepsCount.passes {s t : Stage} (hs : s.KeepsCount)
    (h : ((s.andThen t) d).1.counted ≠ d.counted) :
    ∃ d', s d = (d', none) ∧ s.andThen t d = t d' ∧ (t d').1.counted ≠ d'.counted := by
  have hkept := hs d
  rcases hsd : s d with ⟨d', _ | e⟩
  · rw [hsd] at hkept
    rw [Stage.andThen_of_none hsd] at h ⊢
    exact ⟨d', rfl, rfl, hkept.symm ▸ h⟩
  · rw [hsd] at hkept
    rw [Stage.andThen_of_some hsd] at h
    exact absurd hkept h

theorem Stage.KeepsCount.andThen {s t : Stage} (hs : s.KeepsCount) (ht : t.KeepsCount) :
    (s.andThen t).KeepsCount := by
  intro d
  have h := hs d
  rcases hsd : s d with ⟨d', _ | e⟩
  · rw [hsd] at h
    rw [Stage.andThen_of_none hsd]
    exact (ht d').trans h
  · rw [hsd] at h
    rw [Stage.andThen_of_some hsd]
    exact h

theorem halt_counted (pick : Issue → Bool) : (haltForDagEnvironmentFailures level pick).KeepsCount := fun d => by
  rw [haltForDagEnvironmentFailures_fst]

theorem startConflictFix_counted (key : String) (cut : Bool) : (startConflictFix w level key cut).KeepsCount := by
  intro d
  unfold startConflictFix
  split
  case h_5 =>
    dsimp only
    split <;> rfl
  all_goals rfl

theorem foldFixer_counted (target : Option Issue) (inv : Invocation) (d : Rows) :
    (foldFixer w level target inv d).counted = d.counted := by
  unfold foldFixer
  dsimp only
  split
  · split <;> rfl
  · rfl

theorem afterFixer_counted (target : Option Issue) (inv : Invocation) :
    (afterFixer w level target inv).KeepsCount := by
  intro d
  unfold afterFixer
  dsimp only
  split
  · rfl
  · split
    · rfl
    · split
      · rfl
      · split
        · exact startConflictFix_counted _ _ d
        · rfl

theorem beforeMerge_counted : (beforeMerge w level).KeepsCount := by
  intro d
  unfold beforeMerge
  split
  · unfold ingestFixer
    split
    · rfl
    · dsimp only
      split
      · rfl
      · split
        · rfl
        · exact (afterFixer_counted _ _ _).trans (foldFixer_counted _ _ d)
  · split
    · split
      · exact startConflictFix_counted _ _ d
      · rfl
    · rfl

theorem resolveConflicts_counted (cs : List Issue) : (resolveConflicts w level cs).KeepsCount := by
  induction cs with
  | nil =>
    intro d
    rw [resolveConflicts]
    split <;> rfl
  | cons c cs ih =>
    intro d
    rw [resolveConflicts]
    split
    · exact (startConflictFix_counted _ _).andThen ih d
    · exact ih d

theorem decideConflicts_counted : (decideConflicts w level).KeepsCount := by
  intro d
  unfold decideConflicts
  split
  · rfl
  · split
    · exact resolveConflicts_counted _ d
    · rfl

/-- What follows the escalation folds no replanner in. -/
theorem mergeStages_counted : ((commitIssues w level).andThen (runLevelMerge w level)).KeepsCount :=
  .andThen (fun d => sweepStage_counted d) <| .andThen beforeMerge_counted <|
    .andThen (fun d => sweepStage_counted d) decideConflicts_counted

theorem callReplanner_counted : (callReplanner w level).KeepsCount := by
  intro d
  unfold callReplanner
  dsimp only
  split_ifs <;> rfl

theorem resolveEscalationPhase_counted (h : (resolveEscalationPhase w level d).1.counted ≠ d.counted) :
    ∃ inv, d.replanner = some inv ∧ inv.runIsLive = false ∧
      resolveEscalationPhase w level d = ingestReplanner level inv d := by
  unfold resolveEscalationPhase at h ⊢
  cases hid : d.plan.replannerInvocationId with
  | none =>
    exfalso
    rw [hid] at h
    dsimp only at h
    split at h
    · exact h rfl
    · have hadvise : (adviseFailed w level).KeepsCount := fun d => sweepStage_counted d
      exact h (hadvise.andThen callReplanner_counted d)
  | some n =>
    rw [hid] at h
    dsimp only at h ⊢
    unfold awaitReplanner at h ⊢
    cases hinv : d.plan.replanners[n]? with
    | none =>
      rw [hinv] at h
      exact absurd rfl h
    | some inv =>
      rw [hinv] at h
      dsimp only at h ⊢
      cases hlive : inv.runIsLive with
      | true => simp [hlive] at h
      | false =>
        simp only [hlive, Bool.false_eq_true, if_false] at h ⊢
        split at h
        · split at h <;> exact absurd rfl h
        · next hfinal => exact ⟨inv, by simp [Rows.replanner, hid, hinv], hlive, if_neg hfinal⟩

/-- A stage before the escalation leaves what is stuck: an issue that failed is still there, and
nothing was sent for it. -/
structure LeavesStuck (level : Nat) (d d' : Rows) : Prop where
  counted : d'.counted = d.counted
  replanner : d'.replanner = d.replanner
  rows : ∀ (n : Nat) (i : Issue), d.issues[n]? = some i → i.level = level → i.stuckFailed = true →
    ∃ j, d'.issues[n]? = some j ∧ j.level = level ∧ j.failed = true ∧ Unsent i j

theorem markCoderFailures_stuck (h : markCoderFailures level d = (d', none))
    (hreview : d.plan.reviewEnabled = true) : LeavesStuck level d d' := by
  unfold markCoderFailures at h
  rw [if_pos hreview] at h
  cases h
  refine ⟨rfl, rfl, fun n i hi hl hstuck => ?_⟩
  rw [List.getElem?_map, hi, Option.map_some]
  refine ⟨_, rfl, ?_⟩
  split
  · exact ⟨hl, by simp [Issue.failed], rfl, rfl, rfl⟩
  · next hmarked =>
    refine ⟨hl, ?_, rfl, rfl, rfl⟩
    simp only [hl, decide_true, Bool.true_and, Bool.and_eq_true, not_and] at hmarked
    simp only [stuckFailed, Bool.or_eq_true, Bool.and_eq_true] at hstuck
    exact hstuck.resolve_right fun hboth => hmarked hboth.1 hboth.2

theorem resolveReviewPhase_stuck (h : resolveReviewPhase w level d = (d', none)) (n : Nat) (i : Issue)
    (hi : d.issues[n]? = some i) (hf : i.failed = true) : d'.issues[n]? = some i := by
  have hrows : List.Forall₂ (fun i j : Issue => i.failed = true → j = i) d.issues
      (sweepLevel (·.needsReview) (fun _ i => { row := reviewIssue w i, note := .quiet }) level d).rows := by
    refine sweep_forall₂ (fun _ _ _ => rfl) fun _ i _ hp hf => ?_
    simp only [Bool.and_eq_true, needsReview, Option.isNone_iff_eq_none] at hp
    rw [failed_iff, hp.2.2] at hf
    cases hf
  obtain ⟨j, hj, hij⟩ := getElem?_of_forall₂ hrows n i hi
  obtain rfl := hij hf
  unfold resolveReviewPhase sweepStage at h
  dsimp only at h
  split at h
  · cases h
  · obtain ⟨rfl, -⟩ := Prod.mk.inj h
    rw [Rows.store, List.getElem?_append_left (List.getElem?_eq_some_iff.mp hj).1, hj]

def Skipped (i j : Issue) : Prop := j.resolution = some .skipped ∧ Unsent i j

theorem createWorktrees_counted : (createWorktrees w level).KeepsCount := by
  intro d
  unfold createWorktrees
  split
  · rfl
  · exact sweepStage_counted d

theorem dispatchCoders_counted : (dispatchCoders w level).KeepsCount := by
  intro d
  unfold dispatchCoders
  split
  · rfl
  · exact sweepStage_counted d

theorem ingestCoders_counted : (ingestCoders w level).KeepsCount := by
  intro d
  unfold ingestCoders
  split
  · rfl
  · exact sweepStage_counted d

theorem markCoderFailures_counted : (markCoderFailures level).KeepsCount := by
  intro d
  unfold markCoderFailures
  dsimp only
  split
  · rfl
  · split <;> rfl

theorem ingestReplanner_signal (inv : Invocation) (d : Rows) : (ingestReplanner level inv d).2 ≠ none := by
  unfold ingestReplanner
  dsimp only
  split <;> simp

theorem reviewAndEscalate_passes (h : (reviewAndEscalate w level d).1.counted ≠ d.counted) :
    d.plan.reviewEnabled = true ∧ ∃ d' inv, resolveReviewPhase w level d = (d', none) ∧
      d'.replanner = some inv ∧ inv.runIsLive = false ∧
      reviewAndEscalate w level d = ingestReplanner level inv d' := by
  unfold reviewAndEscalate at h ⊢
  split at h
  · next hon =>
    have hphase : (resolveReviewPhase w level).KeepsCount := sweepStage_counted
    obtain ⟨d₁, hreview, heq₁, h₁⟩ := hphase.passes h
    obtain ⟨d₂, hhalt, heq₂, h₂⟩ := (halt_counted _).passes h₁
    obtain rfl := haltForDagEnvironmentFailures_none hhalt
    obtain ⟨inv, hinv, hlive, hingest⟩ := resolveEscalationPhase_counted h₂
    exact ⟨hon, d₂, inv, hreview, hinv, hlive, by rw [if_pos hon, heq₁, heq₂, hingest]⟩
  · exact absurd rfl h

/-- The stages that come to a replanner's answer. -/
theorem levelStages_passes (h : (levelStages w level d).1.counted ≠ d.counted) :
    ∃ d₁ d₂ inv, markCoderFailures level d = (d₁, none) ∧ d.plan.reviewEnabled = true ∧
      resolveReviewPhase w level d₁ = (d₂, none) ∧ d₂.replanner = some inv ∧ inv.runIsLive = false ∧
      levelStages w level d = ingestReplanner level inv d₂ := by
  unfold levelStages at h ⊢
  obtain ⟨e₁, hworktrees, heq₁, h₁⟩ := createWorktrees_counted.passes h
  obtain ⟨e₂, hcoders, heq₂, h₂⟩ := dispatchCoders_counted.passes h₁
  obtain ⟨e₃, hingest, heq₃, h₃⟩ := ingestCoders_counted.passes h₂
  obtain ⟨e₄, hhalt, heq₄, h₄⟩ := (halt_counted _).passes h₃
  obtain ⟨d₁, hmark, heq₅, h₅⟩ := markCoderFailures_counted.passes h₄
  obtain rfl := haltForDagEnvironmentFailures_none hhalt
  obtain rfl := (ingestCoders_none hingest).1
  obtain rfl := (dispatchCoders_none hcoders).1
  obtain rfl := (createWorktrees_none hworktrees).1
  rw [heq₁, heq₂, heq₃, heq₄, heq₅]
  have hplan : d₁.plan.reviewEnabled = e₄.plan.reviewEnabled :=
    ((markCoderFailures_local level).stays hmark).reviewEnabled
  have hcounted : (reviewAndEscalate w level d₁).1.counted ≠ d₁.counted := by
    rcases hescalate : reviewAndEscalate w level d₁ with ⟨d', _ | e⟩
    · rwa [Stage.andThen_of_none hescalate, mergeStages_counted d'] at h₅
    · rwa [Stage.andThen_of_some hescalate] at h₅
  obtain ⟨hon, d₂, inv, hreview, hinv, hlive, heq⟩ := reviewAndEscalate_passes hcounted
  refine ⟨d₁, d₂, inv, hmark, hplan ▸ hon, hreview, hinv, hlive, ?_⟩
  rcases hsignal : ingestReplanner level inv d₂ with ⟨d', _ | e⟩
  · exact absurd (by rw [hsignal]) (@ingestReplanner_signal level inv d₂)
  · rw [Stage.andThen_of_some (heq.trans hsignal)]

/-- An iteration that folds an answer in does so in its stages, and they end it. -/
theorem iterate_counted {l : Level} (hl : d.curLevel = some l)
    (hcounted : (iterate w d).1.counted ≠ d.counted) :
    (levelStages w l.level d).1.counted ≠ d.counted ∧
      ((levelStages w l.level d).2 ≠ none → (iterate w d).1 = (levelStages w l.level d).1) := by
  unfold iterate at hcounted ⊢
  rw [hl] at hcounted ⊢
  dsimp only at hcounted ⊢
  split at hcounted
  · exact absurd rfl hcounted
  · next hne =>
    rw [if_neg hne]
    split at hcounted
    · next heq =>
      rw [heq]
      exact ⟨hcounted, fun _ => rfl⟩
    · next heq =>
      rw [heq]
      exact ⟨hcounted, fun h => absurd rfl h⟩

/-- An iteration that folds in an answer that does not abort skips what is stuck at its level. -/
theorem iterate_skips {l : Level} (hl : d.curLevel = some l)
    (hcounted : (iterate w d).1.counted ≠ d.counted) :
    ∃ inv, d.replanner = some inv ∧ inv.runIsLive = false ∧
      ((parseReplanner inv).action ≠ .abort → ∀ (n : Nat) (i : Issue), d.issues[n]? = some i →
        i.level = l.level → i.stuckFailed = true →
          ∃ j, (iterate w d).1.issues[n]? = some j ∧ Skipped i j) := by
  obtain ⟨hstages, hiterate⟩ := iterate_counted hl hcounted
  obtain ⟨d₁, d₂, inv, hmark, hon, hreview, hinv, hlive, heq⟩ := levelStages_passes hstages
  have hstuck := markCoderFailures_stuck hmark hon
  have hplan : d₂.plan = d₁.plan := by
    have : (resolveReviewPhase w l.level d₁).1.plan = d₁.plan := sweepStage_plan d₁
    rwa [hreview] at this
  refine ⟨inv, ?_, hlive, fun haction n i hi hlevel hs => ?_⟩
  · rw [← hstuck.replanner, Rows.replanner, ← hplan]
    exact hinv
  · obtain ⟨j, hj, hjl, hjf, hsame⟩ := hstuck.rows n i hi hlevel hs
    have hj₂ := resolveReviewPhase_stuck hreview n j hj hjf
    rw [hiterate (heq ▸ ingestReplanner_signal inv d₂), heq, ingestReplanner]
    dsimp only
    rw [if_neg haction]
    refine ⟨skipIssue j, ?_, rfl, hsame.issueKey, hsame.claim, hsame.runs⟩
    simp [skipFailed, hj₂, hjl, hjf]

end Counted

theorem not_lists_of_abort {out : ReplannerOutput} (h : out.lists = true) : out.action ≠ .abort := by
  intro habort
  simp [ReplannerOutput.lists, habort] at h

/-- In a run whose actions meet the condition, nothing is sent any more for an issue that a folded
answer lists, if it had no coder or had failed. -/
theorem skips_honoured {reviewEnabled autoResolveConflicts : Bool} {plan : SprintPlan} {d : Rows}
    (hfan : fanOutDag reviewEnabled autoResolveConflicts plan = some d) (before after : List Action)
    (w : World) (hmet : Along (fun d a => some (step d a)) SkipsListed d (before ++ .iterate w :: after))
    (hfolded : (run d (before ++ [.iterate w])).counted ≠ (run d before).counted) (inv : Invocation)
    (hinv : (run d before).replanner = some inv) (hlists : (parseReplanner inv).lists = true) (n : Nat)
    (i : Issue) (hi : (run d before).issues[n]? = some i)
    (hnamed : i.issueKey ∈ (parseReplanner inv).skipDownstream)
    (hopen : i.cliInvocationId = none ∨
      ∃ l, (run d before).curLevel = some l ∧ i.level = l.level ∧ i.stuckFailed = true) :
    ∃ j, (run d (before ++ .iterate w :: after)).issues[n]? = some j ∧ Unsent i j := by
  obtain ⟨hproper, hclosed⟩ := fanOutDag_closed hfan
  obtain ⟨hreached, hreachedClosed⟩ := run_closed hproper hclosed before
  have hrun : run d (before ++ .iterate w :: after) = run (iterate w (run d before)).1 after :=
    List.foldl_append
  have hstep : run d (before ++ [.iterate w]) = (iterate w (run d before)).1 := List.foldl_append
  rw [hstep] at hfolded
  obtain ⟨l, hl⟩ : ∃ l, (run d before).curLevel = some l := by
    cases hl : (run d before).curLevel with
    | none => exact absurd (by rw [iterate, hl]) hfolded
    | some l => exact ⟨l, rfl⟩
  have hiterated : Rowwise reviewEnabled (Closes reviewEnabled) (run d before) (iterate w (run d before)).1 :=
    step_closes hreached (.iterate w)
  obtain ⟨inv', hinv', hlive, hskips⟩ := iterate_skips hl hfolded
  obtain rfl : inv' = inv := Option.some.inj (hinv'.symm.trans hinv)
  -- The issue is at rest once the answer is folded in, and nothing was sent for it on the way.
  obtain ⟨j, hj, hrest, hij⟩ : ∃ j, (iterate w (run d before)).1.issues[n]? = some j ∧ AtRest j ∧ Unsent i j := by
    have hskipped : i.level = l.level ∧ i.stuckFailed = true ∨ i.givenUp = true := by
      rcases hopen with hunsent | ⟨l', hl', hfailed⟩
      · exact (along_append hmet).1 inv' hinv hlive hlists l hl i (List.mem_of_getElem? hi) hnamed hunsent
      · obtain rfl : l' = l := Option.some.inj (hl'.symm.trans hl)
        exact .inl hfailed
    rcases hskipped with ⟨hlevel, hstuck⟩ | hgiven
    · obtain ⟨j, hj, hskipped, hij⟩ := hskips (not_lists_of_abort hlists) n i hi hlevel hstuck
      have hjclosed := hiterated.closed hreachedClosed j (List.mem_of_getElem? hj)
      exact ⟨j, hj, ⟨by simp [givenUp, hskipped], hjclosed.ended (by simp [hskipped])⟩, hij⟩
    · obtain ⟨j, hj, -, hrests⟩ := (step_rests hreached (.iterate w)).rows n i hi
      have hres : i.resolution.isSome = true := by
        simp only [givenUp, Bool.or_eq_true, decide_eq_true_eq] at hgiven
        rcases hgiven with hg | hg <;> simp [hg]
      have hended := (hreachedClosed i (List.mem_of_getElem? hi)).ended hres
      exact ⟨j, hj, hrests ⟨hgiven, hended⟩⟩
  obtain ⟨k, hk, -, hrests⟩ := (run_rests hiterated.proper after).rows n j hj
  have hjk := (hrests hrest).2
  exact ⟨k, hrun ▸ hk, hjk.issueKey.trans hij.issueKey, hjk.claim.trans hij.claim, hjk.runs.trans hij.runs⟩

/-! ## A listed issue of a later level -/

/-- `B` comes after `A`. -/
def dependentPlan : SprintPlan where
  issues := [{ id := "A" }, { id := "B", level := 1 }]
  levels := [["A"], ["B"]]

def reviewedPlan (plan : SprintPlan) : Rows :=
  (fanOutDag true false plan).getD ⟨⟨true, false, none, 0, none, []⟩, [], []⟩

/-- The coder of `A`, a reviewer that blocks it, an advisor that leaves it to the replanner, and a
replanner that goes on without the listed issues. -/
def blockedRun (skipDownstream : List String) : List Action :=
  [.iterate smoothWorld, .iterate smoothWorld, .answer (.issue "A" 0) codedWell, .iterate smoothWorld,
    .iterate smoothWorld,
    .answer (.issue "A" 1) (saying { reviewer := some ⟨.block, [("c", false)], [], none⟩ }),
    .iterate smoothWorld,
    .answer (.issue "A" 2) (saying { advisor := some { action := .escalateToReplan } }),
    .iterate smoothWorld,
    .answer (.replanner 0) (saying { replanner := some { action := .continue, skipDownstream } })]

/-- The level of `A` is checkpointed, and that of `B` gets its worktree and its coder. -/
def nextLevel : List Action := List.replicate 3 (.iterate smoothWorld)

/-- The rows once the replanner answered. -/
def replannedRows (skipDownstream : List String) : Rows :=
  run (reviewedPlan dependentPlan) (blockedRun skipDownstream)

theorem listed_issue_dispatched :
    fanOutDag true false dependentPlan = some (reviewedPlan dependentPlan) ∧
      ∃ inv, (replannedRows ["B"]).replanner = some inv ∧ (parseReplanner inv).lists = true ∧
        (iterate smoothWorld (replannedRows ["B"])).1.counted ≠ (replannedRows ["B"]).counted ∧
        ∃ i, (replannedRows ["B"]).issues[1]? = some i ∧
          i.issueKey ∈ (parseReplanner inv).skipDownstream ∧ i.cliInvocationId = none ∧
          ∃ j, (run (replannedRows ["B"]) (.iterate smoothWorld :: nextLevel)).issues[1]? = some j ∧
            j.outcome = .running ∧ j.cliInvocationId = some 0 := by
  decide +kernel

instance (d : Rows) (a : Action) : Decidable (SkipsListed d a) :=
  match a with
  | .iterate _ => decidable_of_iff (∀ inv ∈ d.replanner, inv.runIsLive = false →
      (parseReplanner inv).lists = true → ∀ l ∈ d.curLevel, ∀ i ∈ d.issues,
        i.issueKey ∈ (parseReplanner inv).skipDownstream → i.cliInvocationId = none →
          i.level = l.level ∧ i.stuckFailed = true ∨ i.givenUp = true) .rfl
  | .retry | .enter _ | .answer _ _ => .isTrue trivial

def blockedIssue : Issue := (replannedRows ["A"]).issues.headD { issueKey := "", level := 0 }

def listingReplanner : Invocation := (replannedRows ["A"]).plan.replanners.headD codedWell

theorem skips_honoured_blocked : ∃ j,
    (run (reviewedPlan dependentPlan) (blockedRun ["A"] ++ .iterate smoothWorld :: nextLevel)).issues[0]? =
      some j ∧ Unsent blockedIssue j :=
  have hfan : fanOutDag true false dependentPlan = some (reviewedPlan dependentPlan) := by decide +kernel
  have hmet : Along (fun d a => some (step d a)) SkipsListed (reviewedPlan dependentPlan)
      (blockedRun ["A"] ++ .iterate smoothWorld :: nextLevel) :=
    .of_along (fun _ _ h => of_decide_eq_true h) (by decide +kernel :
      along (fun d a => some (step d a)) (fun d a => decide (SkipsListed d a)) (reviewedPlan dependentPlan)
        (blockedRun ["A"] ++ .iterate smoothWorld :: nextLevel) = true)
  have hfailed : ∃ l ∈ (replannedRows ["A"]).curLevel,
      blockedIssue.level = l.level ∧ blockedIssue.stuckFailed = true := by decide +kernel
  skips_honoured hfan (blockedRun ["A"]) nextLevel smoothWorld hmet (by decide +kernel) listingReplanner
    (by decide +kernel) (by decide +kernel) 0 blockedIssue (by decide +kernel) (by decide +kernel)
    (.inr hfailed)

end Dag

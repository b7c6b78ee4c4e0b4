import Haive.Dag.Stays

/-!
# What it takes to checkpoint a level

An iteration reaches the checkpoint of its level only when no stage before it gave a
signal. For each stage this module says what that means for the issues of the level,
and `settled_of_stages` puts it together: every one of them is merged, skipped or
split.
-/

namespace Dag

open Lib Issue

/-! ## What it takes to reach the checkpoint -/

section Level

variable {w : World} {level : Nat} {d d' : Rows}

theorem mem_atLevel {i : Issue} : i ∈ d.atLevel level ↔ i ∈ d.issues ∧ i.level = level := by
  simp [Rows.atLevel]

/-- A sweep that adds nothing and lets the next stage run took the turn of every picked issue. -/
theorem sweepStage_none {pick : Issue → Bool} {turn : List String → Issue → IssueTurn}
    {decide : Rows → List Note → Option Signal} {Q : Issue → Prop}
    (h : sweepStage pick turn level decide d = (d', none)) (hadded : ∀ ks i, (turn ks i).added = [])
    (hsame : ∀ i ∈ d.atLevel level, pick i = false → Q i)
    (hturn : ∀ ks, ∀ i ∈ d.atLevel level, pick i = true → (turn ks i).thrown = none →
      Q (turn ks i).row) :
    ∀ i ∈ d'.atLevel level, Q i := by
  unfold sweepStage at h
  dsimp only at h
  split at h
  · cases h
  · next hthrown =>
    simp only [Prod.mk.injEq] at h
    obtain ⟨rfl, -⟩ := h
    have hrows : ∀ x ∈ (sweepLevel pick turn level d).rows, x.level = level → Q x := by
      refine sweep_rows hthrown (fun i hi hp hl => ?_) fun ks i hi hp ht hl => ?_
      · refine hsame i (mem_atLevel.mpr ⟨hi, hl⟩) ?_
        simpa [hl] using hp
      · simp only [Bool.and_eq_true, decide_eq_true_eq] at hp
        exact hturn ks i (mem_atLevel.mpr ⟨hi, hp.1⟩) hp.2 ht
    have hnone : ∀ x ∈ (sweepLevel pick turn level d).added, False := by
      refine sweep_added fun ks i _ _ x hx => ?_
      simp [hadded] at hx
    intro i hi
    obtain ⟨hi, hl⟩ := mem_atLevel.mp hi
    rcases List.mem_append.mp hi with hi | hi
    · exact hrows i hi hl
    · exact (hnone i hi).elim

/-- What a sweep that lets the next stage run leaves to its decision. -/
theorem sweepStage_decide {pick : Issue → Bool} {turn : List String → Issue → IssueTurn}
    {decide : Rows → List Note → Option Signal}
    (h : sweepStage pick turn level decide d = (d', none)) : ∃ notes, decide d' notes = none := by
  unfold sweepStage at h
  dsimp only at h
  split at h
  · cases h
  · simp only [Prod.mk.injEq] at h
    obtain ⟨rfl, hdecide⟩ := h
    exact ⟨_, hdecide⟩

theorem createWorktrees_none (h : createWorktrees w level d = (d', none)) :
    d' = d ∧ ∀ i ∈ d.atLevel level, i.worktree = true := by
  unfold createWorktrees at h
  split at h
  · next hall =>
    cases h
    exact ⟨rfl, List.all_eq_true.mp hall⟩
  · obtain ⟨notes, hnone⟩ := sweepStage_decide h
    cases hnone

theorem dispatchCoders_none (h : dispatchCoders w level d = (d', none)) :
    d' = d ∧ ∀ i ∈ d.atLevel level, i.undispatched = false := by
  unfold dispatchCoders at h
  split at h
  · next hall =>
    cases h
    exact ⟨rfl, by simpa using hall⟩
  · obtain ⟨notes, hnone⟩ := sweepStage_decide h
    split at hnone <;> cases hnone

theorem ingestCoders_none (h : ingestCoders w level d = (d', none)) :
    d' = d ∧ ∀ i ∈ d.atLevel level, i.running = false := by
  unfold ingestCoders at h
  split at h
  · next hall =>
    cases h
    exact ⟨rfl, by simpa using hall⟩
  · obtain ⟨notes, hnone⟩ := sweepStage_decide h
    split at hnone <;> cases hnone

theorem haltForDagEnvironmentFailures_none {pick : Issue → Bool}
    (h : haltForDagEnvironmentFailures level pick d = (d', none)) : d' = d := by
  rw [← haltForDagEnvironmentFailures_fst level pick d, h]

structure Coded (i : Issue) : Prop where
  worktree : i.worktree = true
  ended : i.coded = true ∨ i.coderFailed = true

theorem Coded.of_ended {i : Issue} (hw : i.worktree = true) (hc : i.Claimed) (hu : i.undispatched = false)
    (hr : i.running = false) : Coded i := by
  refine ⟨hw, ?_⟩
  simp only [undispatched, running, coded, coderFailed] at *
  cases ho : i.outcome <;> simp_all [Claimed]

theorem markCoderFailures_none (h : markCoderFailures level d = (d', none))
    (hcoded : ∀ i ∈ d.atLevel level, Coded i) :
    ∀ i ∈ d'.atLevel level, Coded i ∧
      (i.coderFailed = true → d.plan.reviewEnabled = true ∧ i.resolution.isSome) := by
  unfold markCoderFailures at h
  dsimp only at h
  split at h
  · next hreview =>
    simp only [Prod.mk.injEq, and_true] at h
    subst h
    intro i hi
    obtain ⟨hi, hl⟩ := mem_atLevel.mp hi
    obtain ⟨x, hx, rfl⟩ := List.mem_map.mp hi
    split at hl
    · next hmark =>
      have hx' := hcoded x (mem_atLevel.mpr ⟨hx, hl⟩)
      rw [if_pos hmark]
      exact ⟨⟨hx'.worktree, hx'.ended⟩, fun _ => ⟨hreview, rfl⟩⟩
    · next hmark =>
      rw [if_neg hmark]
      refine ⟨hcoded x (mem_atLevel.mpr ⟨hx, hl⟩), fun hf => ⟨hreview, ?_⟩⟩
      cases hres : x.resolution with
      | some r => rfl
      | none =>
        simp [hf, hl, hres] at hmark
  · split at h
    · next hempty =>
      cases h
      intro i hi
      refine ⟨hcoded i hi, fun hf => absurd hf ?_⟩
      simpa using List.filter_eq_nil_iff.mp hempty i hi
    · cases h

/-- The merge takes the issue, or it was given up. -/
def Accepted (reviewEnabled : Bool) (i : Issue) : Prop :=
  i.mergeable reviewEnabled = true ∨ i.resolution = some .skipped ∨ i.resolution = some .split

theorem resolveEscalationPhase_none (h : resolveEscalationPhase w level d = (d', none)) :
    d' = d ∧ ∀ i ∈ d.atLevel level, i.failed = false := by
  have hreplanner : ∀ d₁, callReplanner w level d₁ ≠ (d', none) := by
    intro d₁ h₁
    unfold callReplanner at h₁
    dsimp only at h₁
    split_ifs at h₁ <;> simp at h₁
  have hawait : ∀ id, awaitReplanner w level id d ≠ (d', none) := by
    intro id h₁
    unfold awaitReplanner ingestReplanner at h₁
    split at h₁
    · simp at h₁
    · dsimp only at h₁
      split_ifs at h₁ <;> simp at h₁
  unfold resolveEscalationPhase at h
  split at h
  · exact absurd h (hawait _)
  · split at h
    · next hempty =>
      cases h
      refine ⟨rfl, fun i hi => ?_⟩
      simpa using List.filter_eq_nil_iff.mp hempty i hi
    · obtain ⟨d₁, -, h₁⟩ := Stage.andThen_none.mp h
      exact absurd h₁ (hreplanner d₁)

theorem reviewAndEscalate_none (h : reviewAndEscalate w level d = (d', none))
    (hcoded : ∀ i ∈ d.atLevel level, Coded i ∧
      (i.coderFailed = true → d.plan.reviewEnabled = true ∧ i.resolution.isSome)) :
    ∀ i ∈ d'.atLevel level, Accepted d.plan.reviewEnabled i := by
  unfold reviewAndEscalate at h
  split at h
  · next hreview =>
    obtain ⟨d₁, hphase, h⟩ := Stage.andThen_none.mp h
    obtain ⟨d₂, hhalt, hescalated⟩ := Stage.andThen_none.mp h
    obtain rfl := haltForDagEnvironmentFailures_none hhalt
    obtain ⟨rfl, hfailed⟩ := resolveEscalationPhase_none hescalated
    have hrows : ∀ i ∈ d'.atLevel level, i.worktree = true ∧ (i.coded = true ∨ i.resolution.isSome) := by
      refine sweepStage_none hphase (fun _ _ => rfl) (fun i hi _ => ?_) fun _ i hi hp _ => ?_
      · obtain ⟨⟨hw, hended⟩, hf⟩ := hcoded i hi
        exact ⟨hw, hended.imp_right fun hcf => (hf hcf).2⟩
      · have hr := Reviewed.reviewIssue w i
        rw [needsReview, Bool.and_eq_true] at hp
        exact ⟨hr.worktree.trans (hcoded i hi).1.worktree, .inl (hr.coded hp.1)⟩
    obtain ⟨_, hdecide⟩ := sweepStage_decide hphase
    have hdone : ∀ i ∈ d'.atLevel level, i.needsReview = false := by
      split at hdecide
      · next hall => simpa using hall
      · cases hdecide
    intro i hi
    obtain ⟨hw, hc⟩ := hrows i hi
    have hn := hdone i hi
    have hf := hfailed i hi
    have hres : i.resolution.isSome := by
      rcases hc with hc | hc
      · simpa [needsReview, hc, Option.isSome_iff_ne_none] using hn
      · exact hc
    rw [Accepted, hreview]
    obtain ⟨r, hr⟩ := Option.isSome_iff_exists.mp hres
    cases r <;> simp_all [mergeable, Issue.failed]
  · next hreview =>
    cases h
    intro i hi
    obtain ⟨⟨hw, hended⟩, hf⟩ := hcoded i hi
    refine .inl ?_
    rw [Bool.not_eq_true] at hreview
    rw [mergeable, hw, hreview]
    rcases hended with hc | hcf
    · simpa using hc
    · rw [hreview] at hf
      exact absurd (hf hcf).1 (by simp)

/-- The stages before the merge. -/
theorem commitIssues_none {b : Bool} (h : commitIssues w level d = (d', none))
    (haccepted : ∀ i ∈ d.atLevel level, Accepted b i) : ∀ i ∈ d'.atLevel level, Accepted b i := by
  refine sweepStage_none h (fun _ i => ?_) (fun i hi _ => haccepted i hi) fun _ i hi _ ht => ?_
  · dsimp only
    split_ifs <;> rfl
  · dsimp only at ht ⊢
    split_ifs at ht ⊢
    exact haccepted i hi

/-! ## The merge -/

/-- Only the merge status of the issue changed, and it was not lost. -/
structure Remarked (i j : Issue) : Prop where
  same : j = { i with mergeStatus := j.mergeStatus }
  tried : i.mergeStatus ≠ none → j.mergeStatus ≠ none

/-- Only merge statuses changed. -/
structure Remarks (d d' : Rows) : Prop where
  reviewEnabled : d'.plan.reviewEnabled = d.plan.reviewEnabled
  issues : ∀ j ∈ d'.issues, ∃ i ∈ d.issues, Remarked i j

theorem Remarked.refl (i : Issue) : Remarked i i := ⟨rfl, id⟩

theorem Remarked.trans {i j k : Issue} (h : Remarked i j) (h' : Remarked j k) : Remarked i k := by
  refine ⟨?_, h'.tried ∘ h.tried⟩
  rw [h'.same, h.same]

theorem Remarked.level_eq {i j : Issue} (h : Remarked i j) : j.level = i.level := by
  rw [h.same]

theorem Remarked.mergeable {i j : Issue} (h : Remarked i j) (b : Bool) : j.mergeable b = i.mergeable b := by
  rw [h.same]
  rfl

theorem Remarked.accepted {i j : Issue} {b : Bool} (h : Remarked i j) (hi : Accepted b i) : Accepted b j := by
  rw [h.same]
  exact hi

theorem remarked_markMerge (status : MergeStatus) (i : Issue) : Remarked i (markMerge status i) :=
  ⟨rfl, fun _ => by simp [markMerge]⟩

theorem Remarks.refl (d : Rows) : Remarks d d := ⟨rfl, fun j hj => ⟨j, hj, .refl j⟩⟩

theorem Remarks.trans {d d' d'' : Rows} (h : Remarks d d') (h' : Remarks d' d'') : Remarks d d'' := by
  refine ⟨h'.reviewEnabled.trans h.reviewEnabled, fun k hk => ?_⟩
  obtain ⟨j, hj, hjk⟩ := h'.issues k hk
  obtain ⟨i, hi, hij⟩ := h.issues j hj
  exact ⟨i, hi, hij.trans hjk⟩

theorem Remarks.of_issues (hplan : d'.plan.reviewEnabled = d.plan.reviewEnabled) (h : d'.issues = d.issues) :
    Remarks d d' :=
  ⟨hplan, fun j hj => ⟨j, h ▸ hj, .refl j⟩⟩

theorem remarks_setIssue (key : String) (status : MergeStatus) :
    Remarks d (d.setIssue level key (markMerge status)) := by
  refine ⟨rfl, fun j hj => ?_⟩
  obtain ⟨i, hi, rfl⟩ := List.mem_map.mp hj
  refine ⟨i, hi, ?_⟩
  split
  · exact remarked_markMerge status i
  · exact .refl i

theorem startConflictFix_remarks (w : World) (level : Nat) (key : String) (b : Bool) (d : Rows) :
    Remarks d (startConflictFix w level key b d).1 := by
  unfold startConflictFix
  split
  · exact .refl d
  · exact .refl d
  · exact .refl d
  · exact remarks_setIssue key .clean
  · dsimp only
    split
    · exact .refl d
    · exact .refl d
    · exact .of_issues rfl rfl

theorem foldFixer_remarks (w : World) (level : Nat) (target : Option Issue) (inv : Invocation) (d : Rows) :
    Remarks d (foldFixer w level target inv d) := by
  unfold foldFixer
  dsimp only
  split
  · split
    · exact (remarks_setIssue _ .resolved).trans (.of_issues rfl rfl)
    · exact .of_issues rfl rfl
  · exact .of_issues rfl rfl

theorem afterFixer_remarks (w : World) (level : Nat) (target : Option Issue) (inv : Invocation) (d : Rows) :
    Remarks d (afterFixer w level target inv d).1 := by
  unfold afterFixer
  dsimp only
  split
  · exact .refl d
  · split
    · exact .refl d
    · split
      · exact .refl d
      · split
        · exact startConflictFix_remarks ..
        · exact .refl d

theorem beforeMerge_remarks (w : World) (level : Nat) (d : Rows) : Remarks d (beforeMerge w level d).1 := by
  unfold beforeMerge
  split
  · unfold ingestFixer
    split
    · exact .refl d
    · dsimp only
      split
      · exact .refl d
      · split
        · exact .refl d
        · exact (foldFixer_remarks ..).trans (afterFixer_remarks ..)
  · split
    · split
      · exact startConflictFix_remarks ..
      · exact .refl d
    · exact .refl d

theorem mergeIssue_added (w : World) (i : Issue) : (mergeIssue w i).added = [] := by
  unfold mergeIssue
  split <;> rfl

def Tried (b : Bool) (i : Issue) : Prop := i.mergeable b = true → i.mergeStatus ≠ none

theorem mergePass_none (h : mergePass w level d = (d', none))
    (haccepted : ∀ i ∈ d.atLevel level, Accepted d.plan.reviewEnabled i) :
    d'.plan.reviewEnabled = d.plan.reviewEnabled ∧
      ∀ i ∈ d'.atLevel level, Accepted d.plan.reviewEnabled i ∧ Tried d.plan.reviewEnabled i := by
  refine ⟨?_, ?_⟩
  · exact ((mergePass_local w level).stays h).reviewEnabled
  refine sweepStage_none h (fun _ i => mergeIssue_added w i) (fun i hi hp => ?_) fun _ i hi hp ht => ?_
  · refine ⟨haccepted i hi, fun hm hs => ?_⟩
    simp [hm, hs] at hp
  · have hremark : Remarked i (mergeIssue w i).row ∧ (mergeIssue w i).row.mergeStatus ≠ none := by
      unfold mergeIssue at ht ⊢
      split at ht
      case h_5 =>
        exact ⟨remarked_markMerge .clean i, by simp [markMerge]⟩
      case h_6 =>
        exact ⟨remarked_markMerge .conflict i, by simp [markMerge]⟩
      all_goals cases ht
    exact ⟨hremark.1.accepted (haccepted i hi), fun _ => hremark.2⟩

theorem resolveConflicts_none {cs : List Issue} (h : resolveConflicts w level cs d = (d', none)) :
    Remarks d d' ∧ d'.conflicts level = [] := by
  induction cs generalizing d with
  | nil =>
    rw [resolveConflicts] at h
    split at h
    · next hnone =>
      cases h
      exact ⟨.refl _, hnone⟩
    · cases h
  | cons c cs ih =>
    rw [resolveConflicts] at h
    split at h
    · obtain ⟨d₁, hfix, hrest⟩ := Stage.andThen_none.mp h
      have hremarks := startConflictFix_remarks w level c.issueKey false d
      rw [hfix] at hremarks
      exact ⟨hremarks.trans (ih hrest).1, (ih hrest).2⟩
    · exact ih h

theorem decideConflicts_none (h : decideConflicts w level d = (d', none)) :
    Remarks d d' ∧ d'.conflicts level = [] := by
  unfold decideConflicts at h
  split at h
  · next hnone =>
    cases h
    exact ⟨.refl _, hnone⟩
  · split at h
    · exact resolveConflicts_none h
    · cases h

/-- Every branch that the merge takes is in the integration branch. -/
def Merged (b : Bool) (i : Issue) : Prop :=
  i.mergeable b = true → i.mergeStatus = some .clean ∨ i.mergeStatus = some .resolved

theorem runLevelMerge_none (h : runLevelMerge w level d = (d', none))
    (haccepted : ∀ i ∈ d.atLevel level, Accepted d.plan.reviewEnabled i) :
    ∀ i ∈ d'.atLevel level, Accepted d.plan.reviewEnabled i ∧ Merged d.plan.reviewEnabled i := by
  obtain ⟨d₁, hbefore, h⟩ := Stage.andThen_none.mp h
  obtain ⟨d₂, hpass, hdecide⟩ := Stage.andThen_none.mp h
  have hremarks := beforeMerge_remarks w level d
  rw [hbefore] at hremarks
  have haccepted₁ : ∀ i ∈ d₁.atLevel level, Accepted d₁.plan.reviewEnabled i := by
    intro j hj
    obtain ⟨hj, hl⟩ := mem_atLevel.mp hj
    obtain ⟨i, hi, hij⟩ := hremarks.issues j hj
    rw [hremarks.reviewEnabled]
    exact hij.accepted (haccepted i (mem_atLevel.mpr ⟨hi, hij.level_eq.symm.trans hl⟩))
  obtain ⟨hplan, htried⟩ := mergePass_none hpass haccepted₁
  obtain ⟨hlast, hnone⟩ := decideConflicts_none hdecide
  have hb : d'.plan.reviewEnabled = d.plan.reviewEnabled :=
    hlast.reviewEnabled.trans (hplan.trans hremarks.reviewEnabled)
  intro j hj
  obtain ⟨hmem, hl⟩ := mem_atLevel.mp hj
  obtain ⟨i, hi, hij⟩ := hlast.issues j hmem
  obtain ⟨hacc, htr⟩ := htried i (mem_atLevel.mpr ⟨hi, hij.level_eq.symm.trans hl⟩)
  rw [hremarks.reviewEnabled] at hacc htr
  refine ⟨hij.accepted hacc, fun hm => ?_⟩
  have hstatus := hij.tried (htr (hij.mergeable _ ▸ hm))
  have hconflict : j.mergeStatus ≠ some .conflict := by
    intro hc
    have : j ∈ d'.conflicts level := by
      simp only [Rows.conflicts, Rows.mergeables, List.mem_filter, decide_eq_true_eq]
      exact ⟨⟨hj, hb ▸ hm⟩, hc⟩
    simp [hnone] at this
  cases hs : j.mergeStatus with
  | none => exact absurd hs hstatus
  | some s => cases s <;> simp_all

end Level

/-! ## Settled issues -/

/-- Merged into the integration branch, or with an explicit skipped, split or failed outcome. -/
def Settled (i : Issue) : Prop :=
  i.mergeStatus = some .clean ∨ i.mergeStatus = some .resolved ∨ i.resolution = some .skipped ∨
    i.resolution = some .split ∨ i.resolution = some .failedUnrecoverable ∨
    i.outcome = .failedUnrecoverable

/-- A level whose iteration reaches the checkpoint has settled issues only. -/
theorem settled_of_stages {w : World} {level : Nat} {d d' : Rows} (h : levelStages w level d = (d', none))
    (hclaimed : ∀ i ∈ d.issues, i.Claimed) : ∀ i ∈ d'.atLevel level, Settled i := by
  obtain ⟨_, h₁, k₁⟩ := Stage.andThen_none.mp h
  obtain ⟨rfl, hworktree⟩ := createWorktrees_none h₁
  obtain ⟨_, h₂, k₂⟩ := Stage.andThen_none.mp k₁
  obtain ⟨rfl, hdispatched⟩ := dispatchCoders_none h₂
  obtain ⟨_, h₃, k₃⟩ := Stage.andThen_none.mp k₂
  obtain ⟨rfl, hended⟩ := ingestCoders_none h₃
  obtain ⟨_, h₄, k₄⟩ := Stage.andThen_none.mp k₃
  obtain rfl := haltForDagEnvironmentFailures_none h₄
  obtain ⟨d₅, h₅, k₅⟩ := Stage.andThen_none.mp k₄
  obtain ⟨d₆, h₆, k₆⟩ := Stage.andThen_none.mp k₅
  obtain ⟨d₇, h₇, h₈⟩ := Stage.andThen_none.mp k₆
  have hcoded : ∀ i ∈ Rows.atLevel _ level, Coded i := fun i hi =>
    .of_ended (hworktree i hi) (hclaimed i (mem_atLevel.mp hi).1) (hdispatched i hi) (hended i hi)
  have hmarked := markCoderFailures_none h₅ hcoded
  have hplan₅ := ((markCoderFailures_local level).stays h₅).reviewEnabled
  have hplan₆ := ((reviewAndEscalate_local w level).stays h₆).reviewEnabled
  have hplan₇ := ((commitIssues_local w level).stays h₇).reviewEnabled
  rw [← hplan₅] at hmarked
  have haccepted := commitIssues_none h₇ (reviewAndEscalate_none h₆ hmarked)
  rw [← hplan₆, ← hplan₇] at haccepted
  intro i hi
  obtain ⟨hacc, hmerged⟩ := runLevelMerge_none h₈ haccepted i hi
  rcases hacc with hm | hskipped | hsplit
  · exact (hmerged hm).imp_right .inl
  · exact .inr (.inr (.inl hskipped))
  · exact .inr (.inr (.inr (.inl hsplit)))

end Dag

import Haive.Dag.Executor

/-!
# What a stage leaves alone

A stage works on one level. `Stays` says what it leaves alone: the issues of the
other levels, which levels are checkpointed, and the settings of the plan; and that
an issue that waits for a coder holds no invocation. Every stage of the iteration
stays at its level, by one lemma for the turns of a sweep and one for stages in a
row.
-/

namespace Dag

open Lib

/-! ## Turns -/

namespace Issue

/-- An issue that waits for a coder holds no invocation. -/
def Claimed (i : Issue) : Prop := i.outcome = .pending → i.cliInvocationId = none

theorem Claimed.of_ne {i : Issue} (h : i.outcome ≠ .pending) : i.Claimed := fun hp => absurd hp h

theorem coded_iff {i : Issue} : i.coded = true ↔ i.outcome = .completed ∨ i.outcome = .completedWithDebt := by
  simp [coded]

theorem Claimed.of_coded {i : Issue} (h : i.coded = true) : i.Claimed := by
  apply Claimed.of_ne
  rcases coded_iff.mp h with h | h <;> simp [h]

/-- An advisor of the issue is in flight, or its answer is not folded in. -/
def advised (i : Issue) : Bool := i.latestAdvisor.any (!·.consumed)

theorem advised_spawn {i : Issue} {role : Role} {n : Nat} {b : Bool} (h : role ≠ .issueAdvisor) : (i.spawn role n b).advised = i.advised := by
  simp [advised, latestAdvisor, spawn, h]

theorem latestAdvisor_consume (i : Issue) (run : AgentRun) :
    (i.consume run).latestAdvisor = i.latestAdvisor.map fun r =>
      if r.cliInvocationId = run.cliInvocationId then { r with consumed := true } else r := by
  simp only [latestAdvisor, consume, List.filter_map, ← List.getLast?_map]
  congr 2
  refine List.filter_congr fun r _ => ?_
  simp only [Function.comp]
  split <;> rfl

theorem advised_consume {i : Issue} {run : AgentRun} (h : (i.consume run).advised = true) :
    i.advised = true := by
  rw [advised, latestAdvisor_consume] at h
  cases hl : i.latestAdvisor with
  | none => simp [hl] at h
  | some r =>
    simp only [hl, Option.map_some, Option.any_some] at h
    rw [advised, hl, Option.any_some]
    split at h
    · simp at h
    · exact h

/-- What the review of an issue keeps: its place, its worktree, its criteria and its merge status, that
it is coded, its advisors and its debt; and it sends runs only. -/
structure Reviewed (i j : Issue) : Prop where
  issueKey : j.issueKey = i.issueKey
  level : j.level = i.level
  worktree : j.worktree = i.worktree
  coded : i.coded = true → j.coded = true
  invocations : ∀ inv ∈ j.invocations, inv ∈ i.invocations ∨ inv.runIsLive = true
  advised : j.advised = true → i.advised = true
  advisorInvocations : j.advisorInvocations = i.advisorInvocations
  debtItems : ∀ x ∈ i.debtItems, x ∈ j.debtItems
  criteria : j.acceptanceCriteria = i.acceptanceCriteria
  mergeStatus : j.mergeStatus = i.mergeStatus

namespace Reviewed

variable {i j k : Issue}

theorem refl (i : Issue) : Reviewed i i :=
  ⟨rfl, rfl, rfl, id, fun _ => .inl, id, rfl, fun _ => id, rfl, rfl⟩

theorem trans (h : Reviewed i j) (h' : Reviewed j k) : Reviewed i k where
  issueKey := h'.issueKey.trans h.issueKey
  level := h'.level.trans h.level
  worktree := h'.worktree.trans h.worktree
  coded := h'.coded ∘ h.coded
  invocations := fun inv hk => (h'.invocations inv hk).elim (h.invocations inv) .inr
  advised := h.advised ∘ h'.advised
  advisorInvocations := h'.advisorInvocations.trans h.advisorInvocations
  debtItems := fun x hx => h'.debtItems x (h.debtItems x hx)
  criteria := h'.criteria.trans h.criteria
  mergeStatus := h'.mergeStatus.trans h.mergeStatus

/-- A write to fields that the review does not keep. -/
theorem write (h : Reviewed i j) (hi : k.issueKey = j.issueKey) (hl : k.level = j.level)
    (hw : k.worktree = j.worktree) (ho : k.outcome = j.outcome) (hv : k.invocations = j.invocations)
    (hr : k.runs = j.runs) (ha : k.advisorInvocations = j.advisorInvocations)
    (hd : k.debtItems = j.debtItems) (hc : k.acceptanceCriteria = j.acceptanceCriteria)
    (hm : k.mergeStatus = j.mergeStatus) : Reviewed i k := by
  refine h.trans ⟨hi, hl, hw, ?_, fun inv hk => .inl (hv ▸ hk), ?_, ha, fun x hx => hd ▸ hx, hc, hm⟩
  · simp [Issue.coded, ho]
  · simp [Issue.advised, latestAdvisor, hr]

theorem spawn (h : Reviewed i j) {role : Role} (hrole : role ≠ .issueAdvisor) (n : Nat) (b : Bool) :
    Reviewed i (j.spawn role n b) := by
  refine h.trans ⟨rfl, rfl, rfl, id, fun inv hk => ?_, fun ha => advised_spawn hrole ▸ ha, rfl, fun _ => id,
    rfl, rfl⟩
  rcases List.mem_append.mp hk with hk | hk
  · exact .inl hk
  · rw [List.mem_singleton.mp hk]
    exact .inr rfl

theorem consume (h : Reviewed i j) (run : AgentRun) : Reviewed i (j.consume run) :=
  h.trans ⟨rfl, rfl, rfl, id, fun _ => .inl, advised_consume, rfl, fun _ => id, rfl, rfl⟩

theorem setResolution (h : Reviewed i j) (r : Resolution) (m : Option String) :
    Reviewed i (j.setResolution r m) :=
  h.write rfl rfl rfl rfl rfl rfl rfl rfl rfl rfl

theorem acceptWithDebt (h : Reviewed i j) (items : List Debt) : Reviewed i (j.acceptWithDebt items) :=
  h.trans ⟨rfl, rfl, rfl, fun _ => rfl, fun _ => .inl, id, rfl, fun _ hx => List.mem_append_left _ hx, rfl,
    rfl⟩

/-- The counters of the loop and the verdict it keeps. -/
theorem round (h : Reviewed i j) (retries stuck iteration : Nat) (v : Option ReviewerOutput) :
    Reviewed i { j with
      reviewInfraRetries := retries
      stuckCount := stuck
      innerIteration := iteration
      reviewerVerdict := v } :=
  h.write rfl rfl rfl rfl rfl rfl rfl rfl rfl rfl

theorem keep (h : Reviewed i j) (v : ReviewerOutput) : Reviewed i (j.keep v) := by
  unfold Issue.keep
  split
  · exact h.round _ _ _ (some v)
  · exact h

theorem sendReviewer (h : Reviewed i j) (w : World) (n : Nat) (b : Bool) (m : Option String) :
    Reviewed i (j.sendReviewer w n b m) := by
  unfold Issue.sendReviewer
  split
  · exact h.spawn (by simp) ..
  · exact h.setResolution ..

theorem ingestFixRequired (h : Reviewed i j) (w : World) (v : ReviewerOutput) :
    Reviewed i (ingestFixRequired w j v) := by
  unfold Dag.ingestFixRequired
  dsimp only
  split
  · exact ((h.round _ _ _ _).keep v).acceptWithDebt _
  · split
    · exact (h.round _ _ _ (some v)).setResolution ..
    · split
      · exact (h.round _ _ _ (some v)).spawn (by simp) ..
      · exact (h.round _ _ _ (some v)).setResolution ..

theorem ingestVerdict (h : Reviewed i j) (w : World) (v : ReviewerOutput) :
    Reviewed i (ingestVerdict w j v) := by
  unfold Dag.ingestVerdict
  split
  · exact (h.keep _).setResolution ..
  · exact (h.keep _).setResolution ..
  · split
    · split
      · exact (h.keep _).setResolution ..
      · exact (h.keep _).acceptWithDebt _
    · exact h.ingestFixRequired ..

theorem ingestNoVerdict (h : Reviewed i j) (w : World) (inv : Invocation) :
    Reviewed i (ingestNoVerdict w j inv) := by
  unfold Dag.ingestNoVerdict
  dsimp only
  split
  · exact h.sendReviewer ..
  · split
    · exact (h.round _ _ _ _).sendReviewer ..
    · exact h.setResolution ..

theorem ingestReviewRun (w : World) (i : Issue) (run : AgentRun) (inv : Invocation) :
    Reviewed i (ingestReviewRun w i run inv) := by
  have h : Reviewed i (i.consume run) := (refl i).consume run
  unfold Dag.ingestReviewRun
  dsimp only
  split
  · exact h.setResolution ..
  · split
    · exact h.setResolution ..
    · split
      · split
        · exact ((refl i).spawn (by simp) ..).consume run
        · exact h.setResolution ..
      · split
        · unfold ingestReviewer
          split
          · exact h.ingestNoVerdict ..
          · exact h.ingestVerdict ..
        · exact h.sendReviewer ..

theorem reviewIssue (w : World) (i : Issue) : Reviewed i (reviewIssue w i) := by
  unfold Dag.reviewIssue
  split
  · exact (refl i).sendReviewer ..
  · split
    · unfold restartReview
      split
      · exact ((refl i).round _ _ _ _).sendReviewer ..
      · exact (refl i).setResolution ..
    · split
      · exact refl i
      · split
        · exact refl i
        · exact ingestReviewRun w i _ _

end Reviewed

/-- What every turn keeps. -/
structure Kept (i j : Issue) : Prop where
  issueKey : j.issueKey = i.issueKey
  level : j.level = i.level
  claimed : i.Claimed → j.Claimed

theorem Kept.refl (i : Issue) : Kept i i := ⟨rfl, rfl, id⟩

theorem Kept.trans {i j k : Issue} (h : Kept i j) (h' : Kept j k) : Kept i k :=
  ⟨h'.issueKey.trans h.issueKey, h'.level.trans h.level, h'.claimed ∘ h.claimed⟩

theorem Reviewed.kept {i j : Issue} (h : Reviewed i j) (hi : i.coded = true) : Kept i j :=
  ⟨h.issueKey, h.level, fun _ => .of_coded (h.coded hi)⟩

/-- A write that touches neither the place of an issue nor what it waits for. -/
theorem Kept.of_same {i j : Issue} (hk : j.issueKey = i.issueKey) (hl : j.level = i.level)
    (ho : j.outcome = i.outcome) (hc : j.cliInvocationId = i.cliInvocationId) : Kept i j :=
  ⟨hk, hl, fun h hp => hc ▸ h (ho ▸ hp)⟩

theorem Kept.of_ne {i j : Issue} (hk : j.issueKey = i.issueKey) (hl : j.level = i.level)
    (ho : j.outcome ≠ .pending) : Kept i j :=
  ⟨hk, hl, fun _ => .of_ne ho⟩

end Issue

open Issue

theorem CoderOutcome.toOutcome_ne (o : CoderOutcome) : o.toOutcome ≠ .pending := by
  cases o <;> simp [CoderOutcome.toOutcome]

theorem dispatchCoder_kept (w : World) (i : Issue) : Kept i (dispatchCoder w i).row := by
  unfold dispatchCoder
  split
  · exact .of_ne rfl rfl (by simp [Issue.claim])
  · exact .of_ne rfl rfl (by simp)

theorem recordCoder_kept {i : Issue} {result : ParsedCoder} {outcome : Outcome} {concerns : String}
    {m : Option String} (h : outcome ≠ .pending) : Kept i (recordCoder i result outcome concerns m) :=
  .of_ne rfl rfl h

theorem ingestFailedCoder_kept (w : World) (i : Issue) (id : Nat) (inv : Invocation) (result : ParsedCoder) :
    Kept i (ingestFailedCoder w i id inv result) := by
  unfold ingestFailedCoder
  dsimp only
  split
  · split
    · unfold redispatchFixCoder
      split
      · exact .of_ne rfl rfl (by simp [Issue.claim, Issue.consume])
      · exact .of_ne rfl rfl (by simp)
    · exact ⟨rfl, rfl, fun _ _ => rfl⟩
  · split
    · exact recordCoder_kept (by simp)
    · split <;> exact recordCoder_kept (by simp)

theorem ingestCoder_kept (w : World) (i : Issue) : Kept i (ingestCoder w i).row := by
  unfold ingestCoder
  split
  · exact .refl i
  · split
    · exact .refl i
    · next inv _ =>
      split
      · exact .refl i
      · dsimp only
        split
        · exact ingestFailedCoder_kept ..
        · refine recordCoder_kept ?_
          unfold parseCoderResult
          split
          · exact CoderOutcome.toOutcome_ne _
          · simp

theorem escalateIssueToReplan_kept (i : Issue) (reason : String) : Kept i (escalateIssueToReplan i reason) :=
  .of_same rfl rfl rfl rfl

theorem consume_kept (i : Issue) (run : AgentRun) : Kept i (i.consume run) := .of_same rfl rfl rfl rfl

structure TurnKept (i : Issue) (t : IssueTurn) : Prop where
  row : Kept i t.row
  added : ∀ x ∈ t.added, x.level = i.level ∧ x.Claimed

theorem TurnKept.of_row {i : Issue} {t : IssueTurn} (h : Kept i t.row) (hadded : t.added = []) :
    TurnKept i t :=
  ⟨h, by simp [hadded]⟩

theorem mem_insertSubs {taken : List String} {is : List Issue} :
    ∀ x ∈ (insertSubs taken is).1, x ∈ is := by
  induction is generalizing taken with
  | nil => simp [insertSubs]
  | cons i is ih =>
    intro x hx
    rw [insertSubs] at hx
    split at hx
    · rcases List.mem_cons.mp hx with rfl | hx
      · exact List.mem_cons_self
      · exact List.mem_cons_of_mem _ (ih x hx)
    · simp at hx

theorem splitIssue_kept (taken : List String) (i : Issue) (out : AdvisorOutput) :
    TurnKept i (splitIssue taken i out) := by
  have hadded : ∀ n, ∀ x ∈ (insertSubs taken ((List.range n).map fun m => subIssue i (m + 1))).1,
      x.level = i.level ∧ x.Claimed := by
    intro n x hx
    obtain ⟨m, -, rfl⟩ := List.mem_map.mp (mem_insertSubs x hx)
    exact ⟨rfl, fun _ => rfl⟩
  unfold splitIssue
  dsimp only
  split
  · exact ⟨.refl i, hadded _⟩
  · exact ⟨.of_same rfl rfl rfl rfl, hadded _⟩

theorem retryIssue_kept (w : World) (i : Issue) (out : AdvisorOutput) : Kept i (retryIssue w i out) := by
  unfold retryIssue
  dsimp only
  split
  · exact .of_ne rfl rfl (by simp [Issue.claim])
  · exact .of_same rfl rfl rfl rfl

theorem followAdvice_kept (w : World) (taken : List String) (i : Issue) (out : AdvisorOutput) :
    TurnKept i (followAdvice w taken i out) := by
  have hcounted : Kept i { i with
      advisorInvocations := i.advisorInvocations + 1
      lastAdvisorAction := some out.action } := .of_same rfl rfl rfl rfl
  unfold followAdvice
  dsimp only
  split
  · split
    · exact .of_row (hcounted.trans (escalateIssueToReplan_kept ..)) rfl
    · exact .of_row (.of_ne rfl rfl (by simp [Issue.acceptWithDebt])) rfl
  · exact .of_row hcounted rfl
  · have h := splitIssue_kept taken { i with
      advisorInvocations := i.advisorInvocations + 1
      lastAdvisorAction := some out.action } out
    exact ⟨hcounted.trans h.row, h.added⟩
  · exact .of_row (hcounted.trans (retryIssue_kept ..)) rfl
  · exact .of_row (hcounted.trans (retryIssue_kept ..)) rfl

theorem sendAdvisor_kept (w : World) (i : Issue) (b : Bool) : TurnKept i (sendAdvisor w i b) := by
  unfold sendAdvisor
  split
  · exact .of_row (.of_same rfl rfl rfl rfl) rfl
  · exact .of_row (escalateIssueToReplan_kept ..) rfl

theorem adviseIssue_kept (w : World) (taken : List String) (i : Issue) :
    TurnKept i (adviseIssue w taken i) := by
  unfold adviseIssue
  split
  · exact .of_row (.refl i) rfl
  · split
    · next run _ =>
      split
      · exact .of_row (.refl i) rfl
      · split
        · exact .of_row (.refl i) rfl
        · have hconsumed := consume_kept i run
          unfold ingestAdvisor
          dsimp only
          split
          · have h := sendAdvisor_kept w (i.consume run)
            exact ⟨hconsumed.trans (h _).row, (h _).added⟩
          · have h := followAdvice_kept w taken (i.consume run)
            exact ⟨hconsumed.trans (h _).row, (h _).added⟩
    · split
      · exact sendAdvisor_kept ..
      · exact .of_row (escalateIssueToReplan_kept ..) rfl

theorem mergeIssue_kept (w : World) (i : Issue) : TurnKept i (mergeIssue w i) := by
  unfold mergeIssue
  split
  all_goals exact .of_row (.of_same rfl rfl rfl rfl) rfl

/-! ## Stages -/

def Rows.marks (d : Rows) : List (Nat × Bool) := d.levels.map fun l => (l.level, l.checkpointed)

/-- What a stage of one level leaves alone. -/
structure Stays (level : Nat) (d d' : Rows) : Prop where
  marks : d'.marks = d.marks
  reviewEnabled : d'.plan.reviewEnabled = d.plan.reviewEnabled
  others : ∀ i : Issue, i.level ≠ level → (i ∈ d'.issues ↔ i ∈ d.issues)
  claimed : (∀ i ∈ d.issues, i.Claimed) → ∀ i ∈ d'.issues, i.Claimed

namespace Stays

variable {level : Nat} {d d' d'' : Rows}

theorem refl (level : Nat) (d : Rows) : Stays level d d := ⟨rfl, rfl, fun _ _ => .rfl, id⟩

theorem trans (h : Stays level d d') (h' : Stays level d' d'') : Stays level d d'' where
  marks := h'.marks.trans h.marks
  reviewEnabled := h'.reviewEnabled.trans h.reviewEnabled
  others := fun i hi => (h'.others i hi).trans (h.others i hi)
  claimed := h'.claimed ∘ h.claimed

/-- A change of the rows of the plan and the levels alone. -/
theorem of_issues (hmarks : d'.marks = d.marks) (hplan : d'.plan.reviewEnabled = d.plan.reviewEnabled)
    (h : d'.issues = d.issues) : Stays level d d' :=
  ⟨hmarks, hplan, fun _ _ => h ▸ .rfl, fun hc => h ▸ hc⟩

theorem map {f : Issue → Issue} (hf : ∀ i, i.level = level → Kept i (f i))
    (hother : ∀ i, i.level ≠ level → f i = i) : Stays level d { d with issues := d.issues.map f } where
  marks := rfl
  reviewEnabled := rfl
  others := by
    intro i hi
    simp only [List.mem_map]
    constructor
    · rintro ⟨x, hx, rfl⟩
      by_cases hl : x.level = level
      · exact absurd ((hf x hl).level.trans hl) hi
      · rwa [hother x hl]
    · intro h
      exact ⟨i, h, hother i hi⟩
  claimed := by
    intro hc i hi
    obtain ⟨x, hx, rfl⟩ := List.mem_map.mp hi
    by_cases hl : x.level = level
    · exact (hf x hl).claimed (hc x hx)
    · rw [hother x hl]
      exact hc x hx

theorem mem_iff_of_forall₂ {P : Issue → Issue → Prop} {l l' : List Issue} (h : List.Forall₂ P l l')
    {x : Issue} (hx : ∀ i j, P i j → (j = x ↔ i = x)) : x ∈ l' ↔ x ∈ l := by
  induction h with
  | nil => rfl
  | cons hp _ ih =>
    simp only [List.mem_cons, ih]
    rw [eq_comm, hx _ _ hp, eq_comm]

theorem store {pick : Issue → Bool} {turn : List String → Issue → IssueTurn}
    (hturn : ∀ ks i, i.level = level → pick i = true → TurnKept i (turn ks i)) :
    Stays level d (d.store (sweepLevel pick turn level d)) := by
  have hrows : List.Forall₂
      (fun i j : Issue => (i.level ≠ level → j = i) ∧ (i.level = level → Kept i j)) d.issues
      (sweepLevel pick turn level d).rows := by
    refine sweep_forall₂ (fun i _ => ⟨fun _ => rfl, fun _ => .refl i⟩) fun ks i _ hp => ?_
    simp only [Bool.and_eq_true, decide_eq_true_eq] at hp
    exact ⟨fun hne => absurd hp.1 hne, fun hl => (hturn ks i hl hp.2).row⟩
  have hadded : ∀ x ∈ (sweepLevel pick turn level d).added, x.level = level ∧ x.Claimed := by
    refine sweep_added fun ks i _ hp x hx => ?_
    simp only [Bool.and_eq_true, decide_eq_true_eq] at hp
    have := (hturn ks i hp.1 hp.2).added x hx
    exact ⟨this.1.trans hp.1, this.2⟩
  refine ⟨rfl, rfl, fun i hi => ?_, fun hc i hi => ?_⟩
  · have hnot : i ∉ (sweepLevel pick turn level d).added := fun hmem => hi (hadded i hmem).1
    simp only [Rows.store, List.mem_append, hnot, or_false]
    refine mem_iff_of_forall₂ hrows fun x y hxy => ?_
    by_cases hl : x.level = level
    · have hy := ((hxy.2 hl).level.trans hl)
      constructor
      · rintro rfl
        exact absurd hy hi
      · rintro rfl
        exact absurd hl hi
    · rw [hxy.1 hl]
  · rcases List.mem_append.mp hi with hi | hi
    · obtain ⟨x, hx, hxi⟩ := exists_of_forall₂ hrows i hi
      by_cases hl : x.level = level
      · exact (hxi.2 hl).claimed (hc x hx)
      · rw [hxi.1 hl]
        exact hc x hx
    · exact (hadded i hi).2

end Stays

def Stage.Local (level : Nat) (s : Stage) : Prop := ∀ d, Stays level d (s d).1

variable {level : Nat} {d d' : Rows} {signal : Option Signal} {s t : Stage}

theorem Stage.andThen_of_none (h : s d = (d', none)) : s.andThen t d = t d' := by
  simp [Stage.andThen, h]

theorem Stage.andThen_of_some {e : Signal} (h : s d = (d', some e)) : s.andThen t d = (d', some e) := by
  simp [Stage.andThen, h]

theorem Stage.andThen_none {d'' : Rows} :
    s.andThen t d = (d'', none) ↔ ∃ d', s d = (d', none) ∧ t d' = (d'', none) := by
  constructor
  · intro h
    rcases hs : s d with ⟨d', _ | e⟩
    · rw [Stage.andThen_of_none hs] at h
      exact ⟨d', rfl, h⟩
    · rw [Stage.andThen_of_some hs] at h
      cases h
  · rintro ⟨d', hs, ht⟩
    rw [Stage.andThen_of_none hs, ht]

namespace Stage.Local

theorem andThen (hs : s.Local level) (ht : t.Local level) : (s.andThen t).Local level := by
  intro d
  have h := hs d
  rcases hsd : s d with ⟨d', _ | e⟩
  · rw [hsd] at h
    rw [Stage.andThen_of_none hsd]
    exact h.trans (ht d')
  · rw [hsd] at h
    rw [Stage.andThen_of_some hsd]
    exact h

/-- A stage chosen by a condition on the rows. -/
theorem ite {p : Rows → Prop} [∀ d, Decidable (p d)] (hs : s.Local level) (ht : t.Local level) :
    Stage.Local level fun d => if p d then s d else t d := by
  intro d
  dsimp only
  split
  · exact hs d
  · exact ht d

/-- What a local stage leaves, for a result that is known. -/
theorem stays (hs : s.Local level) (h : s d = (d', signal)) : Stays level d d' := by
  have := hs d
  rwa [h] at this

theorem pass : Stage.Local level fun d => (d, none) := fun d => .refl level d

theorem sweep {pick : Issue → Bool} {turn : List String → Issue → IssueTurn}
    {decide : Rows → List Note → Option Signal}
    (hturn : ∀ ks i, i.level = level → pick i = true → TurnKept i (turn ks i)) :
    (sweepStage pick turn level decide).Local level := by
  intro d
  unfold sweepStage
  dsimp only
  split <;> exact Stays.store hturn

end Stage.Local

theorem Rows.marks_setLevel {f : Level → Level} (hf : ∀ l, ((f l).level, (f l).checkpointed) = (l.level, l.checkpointed)) :
    (d.setLevel level f).marks = d.marks := by
  simp only [Rows.marks, Rows.setLevel, List.map_map]
  refine List.map_congr_left fun l _ => ?_
  simp only [Function.comp]
  split
  · exact hf l
  · rfl

theorem setIssue_stays {key : String} {f : Issue → Issue} (hf : ∀ i, Kept i (f i)) :
    Stays level d (d.setIssue level key f) := by
  refine .map (fun i _ => ?_) fun i hi => ?_
  · split
    · exact hf i
    · exact .refl i
  · simp [hi]

theorem markMerge_kept (status : MergeStatus) (i : Issue) : Kept i (markMerge status i) :=
  .of_same rfl rfl rfl rfl

/-! ## The stages of an iteration -/

theorem createWorktrees_local (w : World) (level : Nat) : (createWorktrees w level).Local level := by
  refine .ite .pass (.sweep fun _ i _ _ => ?_)
  split
  · exact .of_row (.of_same rfl rfl rfl rfl) rfl
  · exact .of_row (.refl i) rfl

theorem dispatchCoder_added (w : World) (i : Issue) : (dispatchCoder w i).added = [] := by
  unfold dispatchCoder
  split <;> rfl

theorem dispatchCoders_local (w : World) (level : Nat) : (dispatchCoders w level).Local level :=
  .ite .pass (.sweep fun _ i _ _ => .of_row (dispatchCoder_kept w i) (dispatchCoder_added w i))

theorem ingestCoder_added (w : World) (i : Issue) : (ingestCoder w i).added = [] := by
  unfold ingestCoder
  split
  · rfl
  · split
    · rfl
    · split
      · rfl
      · dsimp only
        split <;> rfl

theorem ingestCoders_local (w : World) (level : Nat) : (ingestCoders w level).Local level :=
  .ite .pass (.sweep fun _ i _ _ => .of_row (ingestCoder_kept w i) (ingestCoder_added w i))

theorem haltForDagEnvironmentFailures_fst (level : Nat) (pick : Issue → Bool) (d : Rows) :
    (haltForDagEnvironmentFailures level pick d).1 = d := by
  unfold haltForDagEnvironmentFailures
  split <;> rfl

theorem haltForDagEnvironmentFailures_local (level : Nat) (pick : Issue → Bool) :
    (haltForDagEnvironmentFailures level pick).Local level := by
  intro d
  rw [haltForDagEnvironmentFailures_fst]
  exact .refl level d

theorem markCoderFailures_local (level : Nat) : (markCoderFailures level).Local level := by
  intro d
  unfold markCoderFailures
  dsimp only
  split
  · refine .map (fun i _ => ?_) fun i hi => by simp [hi]
    split
    · exact .of_same rfl rfl rfl rfl
    · exact .refl i
  · split <;> exact .refl level d

theorem resolveReviewPhase_local (w : World) (level : Nat) : (resolveReviewPhase w level).Local level := by
  refine .sweep fun _ i _ hp => .of_row ((Reviewed.reviewIssue w i).kept ?_) rfl
  rw [Issue.needsReview, Bool.and_eq_true] at hp
  exact hp.1

theorem skipFailed_stays (level : Nat) (d : Rows) : Stays level d (skipFailed level d) := by
  refine .map (fun i _ => ?_) fun i hi => by simp [hi]
  split
  · exact .of_same rfl rfl rfl rfl
  · exact .refl i

theorem ingestReplanner_local (level : Nat) (inv : Invocation) : (ingestReplanner level inv).Local level := by
  intro d
  unfold ingestReplanner
  dsimp only
  split
  · exact .of_issues rfl rfl rfl
  · refine Stays.trans ?_ (skipFailed_stays level _)
    exact .of_issues rfl rfl rfl

theorem awaitReplanner_local (w : World) (level id : Nat) : (awaitReplanner w level id).Local level := by
  intro d
  unfold awaitReplanner
  split
  · exact .refl level d
  · dsimp only
    split
    · exact .refl level d
    · split
      · split <;> exact .of_issues rfl rfl rfl
      · exact ingestReplanner_local level _ d

theorem callReplanner_local (w : World) (level : Nat) : (callReplanner w level).Local level := by
  intro d
  unfold callReplanner
  dsimp only
  split
  · exact .refl level d
  · split
    · exact .refl level d
    · split
      · exact .refl level d
      · split
        · exact .of_issues rfl rfl rfl
        · exact .refl level d

theorem adviseFailed_local (w : World) (level : Nat) : (adviseFailed w level).Local level :=
  fun d => Stage.Local.sweep (fun ks i _ _ => adviseIssue_kept w ks i) d

theorem resolveEscalationPhase_local (w : World) (level : Nat) :
    (resolveEscalationPhase w level).Local level := by
  intro d
  unfold resolveEscalationPhase
  split
  · exact awaitReplanner_local w level _ d
  · split
    · exact .refl level d
    · exact (adviseFailed_local w level).andThen (callReplanner_local w level) d

theorem reviewAndEscalate_local (w : World) (level : Nat) : (reviewAndEscalate w level).Local level :=
  .ite ((resolveReviewPhase_local w level).andThen
    ((haltForDagEnvironmentFailures_local level _).andThen (resolveEscalationPhase_local w level))) .pass

theorem commitIssues_local (w : World) (level : Nat) : (commitIssues w level).Local level := by
  intro d
  refine Stage.Local.sweep (fun _ i _ _ => ?_) d
  dsimp only
  split
  · exact .of_row (.refl i) rfl
  · split
    · exact .of_row (.refl i) rfl
    · exact .of_row (.of_same rfl rfl rfl rfl) rfl

theorem startConflictFix_local (w : World) (level : Nat) (key : String) (b : Bool) :
    (startConflictFix w level key b).Local level := by
  intro d
  unfold startConflictFix
  split
  · exact .refl level d
  · exact .refl level d
  · exact .refl level d
  · exact setIssue_stays (markMerge_kept .clean)
  · dsimp only
    split
    · exact .refl level d
    · exact .refl level d
    · exact .of_issues (Rows.marks_setLevel fun _ => rfl) rfl rfl

theorem foldFixer_stays (w : World) (level : Nat) (target : Option Issue) (inv : Invocation) (d : Rows) :
    Stays level d (foldFixer w level target inv d) := by
  unfold foldFixer
  dsimp only
  refine Stays.trans ?_ (.of_issues (Rows.marks_setLevel fun _ => rfl) rfl rfl)
  split
  · split
    · exact setIssue_stays (markMerge_kept .resolved)
    · exact .refl level d
  · exact .refl level d

theorem afterFixer_local (w : World) (level : Nat) (target : Option Issue) (inv : Invocation) :
    (afterFixer w level target inv).Local level := by
  intro d
  unfold afterFixer
  dsimp only
  split
  · exact .refl level d
  · split
    · exact .refl level d
    · split
      · exact .refl level d
      · split
        · exact startConflictFix_local w level _ _ d
        · exact .refl level d

theorem ingestFixer_local (w : World) (level id : Nat) : (ingestFixer w level id).Local level := by
  intro d
  unfold ingestFixer
  split
  · exact .refl level d
  · dsimp only
    split
    · exact .refl level d
    · split
      · exact .refl level d
      · exact (foldFixer_stays w level _ _ d).trans (afterFixer_local w level _ _ _)

theorem beforeMerge_local (w : World) (level : Nat) : (beforeMerge w level).Local level := by
  intro d
  unfold beforeMerge
  split
  · exact ingestFixer_local w level _ d
  · split
    · split
      · exact startConflictFix_local w level _ _ d
      · exact .refl level d
    · exact .refl level d

theorem mergePass_local (w : World) (level : Nat) : (mergePass w level).Local level :=
  fun d => Stage.Local.sweep (fun _ i _ _ => mergeIssue_kept w i) d

theorem resolveConflicts_local (w : World) (level : Nat) (cs : List Issue) :
    (resolveConflicts w level cs).Local level := by
  induction cs with
  | nil =>
    intro d
    rw [resolveConflicts]
    split <;> exact .refl level d
  | cons c cs ih =>
    intro d
    rw [resolveConflicts]
    split
    · exact (startConflictFix_local w level _ _).andThen ih d
    · exact ih d

theorem decideConflicts_local (w : World) (level : Nat) : (decideConflicts w level).Local level := by
  intro d
  unfold decideConflicts
  split
  · exact .refl level d
  · split
    · exact resolveConflicts_local w level _ d
    · exact .refl level d

theorem runLevelMerge_local (w : World) (level : Nat) : (runLevelMerge w level).Local level :=
  (beforeMerge_local w level).andThen ((mergePass_local w level).andThen (decideConflicts_local w level))

theorem levelStages_local (w : World) (level : Nat) : (levelStages w level).Local level :=
  (createWorktrees_local w level).andThen <| (dispatchCoders_local w level).andThen <|
  (ingestCoders_local w level).andThen <| (haltForDagEnvironmentFailures_local level _).andThen <|
  (markCoderFailures_local level).andThen <| (reviewAndEscalate_local w level).andThen <|
  (commitIssues_local w level).andThen (runLevelMerge_local w level)

end Dag

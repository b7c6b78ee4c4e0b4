import Haive.Dag.Settled

/-!
# No issue is lost, if it has a level

`Safe` is the invariant of the runs: the issues of a checkpointed level are settled.
The fan-out decides whether that is all of them. An issue that no wave names keeps
its own `level`, and where that is past the last wave there is no level row for it:
no iteration ever looks at it, and the phase resolves without it.
-/

namespace Dag

open Lib Issue

/-! ## Runs -/

/-- The invariant of the runs. -/
structure Safe (d : Rows) : Prop where
  claimed : ∀ i ∈ d.issues, i.Claimed
  levels : (d.marks.map (·.1)).Nodup
  settled : ∀ n, (n, true) ∈ d.marks → ∀ i ∈ d.atLevel n, Settled i

theorem curLevel_mem {d : Rows} {l : Level} (h : d.curLevel = some l) : (l.level, false) ∈ d.marks := by
  have hmem := List.mem_of_find?_eq_some h
  have hopen := List.find?_some h
  simp only [Rows.marks, List.mem_map]
  exact ⟨l, hmem, by simpa using hopen⟩

/-- No level is both checkpointed and the current one. -/
theorem Safe.ne_of_mem {d : Rows} (h : Safe d) {l : Level} (hl : d.curLevel = some l) {n : Nat}
    (hn : (n, true) ∈ d.marks) : n ≠ l.level := by
  rintro rfl
  have := List.inj_on_of_nodup_map h.levels hn (curLevel_mem hl) rfl
  simp at this

theorem Stays.atLevel {level n : Nat} {d d' : Rows} (h : Stays level d d') (hn : n ≠ level) {i : Issue} :
    i ∈ d'.atLevel n ↔ i ∈ d.atLevel n := by
  rw [mem_atLevel, mem_atLevel]
  constructor
  · rintro ⟨hi, rfl⟩
    exact ⟨(h.others i hn).mp hi, rfl⟩
  · rintro ⟨hi, rfl⟩
    exact ⟨(h.others i hn).mpr hi, rfl⟩

theorem Safe.stays {d d' : Rows} (h : Safe d) {l : Level} (hl : d.curLevel = some l)
    (hs : Stays l.level d d') : Safe d' where
  claimed := hs.claimed h.claimed
  levels := hs.marks ▸ h.levels
  settled := by
    intro n hn i hi
    rw [hs.marks] at hn
    exact h.settled n hn i ((hs.atLevel (h.ne_of_mem hl hn)).mp hi)

theorem marks_checkpoint (level : Nat) (d : Rows) :
    (checkpoint level d).marks = d.marks.map fun m => if m.1 = level then (m.1, true) else m := by
  simp only [Rows.marks, checkpoint, Rows.setLevel, List.map_map]
  refine List.map_congr_left fun l _ => ?_
  simp only [Function.comp]
  split <;> rfl

theorem Safe.checkpoint {d : Rows} (h : Safe d) {level : Nat}
    (hsettled : ∀ i ∈ d.atLevel level, Settled i) : Safe (checkpoint level d) where
  claimed := h.claimed
  levels := by
    rw [marks_checkpoint, List.map_map]
    have : (fun m : Nat × Bool => m.1) ∘ (fun m => if m.1 = level then (m.1, true) else m) = (·.1) := by
      funext m
      simp only [Function.comp]
      split <;> rfl
    rw [this]
    exact h.levels
  settled := by
    intro n hn i hi
    rw [marks_checkpoint] at hn
    obtain ⟨m, hm, heq⟩ := List.mem_map.mp hn
    split at heq
    · next hlevel =>
      simp only [Prod.mk.injEq, and_true] at heq
      rw [← heq, hlevel] at hi
      exact hsettled i hi
    · exact h.settled n (heq ▸ hm) i hi

theorem iterate_safe {d : Rows} (h : Safe d) (w : World) : Safe (iterate w d).1 := by
  unfold iterate
  split
  · exact h
  · next l hl =>
    split
    · next hempty =>
      refine h.checkpoint fun i hi => ?_
      simp [hempty] at hi
    · split
      · next d' signal hs => exact h.stays hl ((levelStages_local w l.level).stays hs)
      · next d' hs =>
        exact (h.stays hl ((levelStages_local w l.level).stays hs)).checkpoint
          (settled_of_stages hs h.claimed)

/-- A change of the invocations of issues, and of them alone. -/
theorem Safe.invocations {d d' : Rows} (h : Safe d) (hmarks : d'.marks = d.marks)
    (hissues : ∀ j ∈ d'.issues, ∃ i ∈ d.issues, j = { i with invocations := j.invocations }) : Safe d' where
  claimed := by
    intro j hj
    obtain ⟨i, hi, hij⟩ := hissues j hj
    rw [hij]
    exact h.claimed i hi
  levels := hmarks ▸ h.levels
  settled := by
    intro n hn j hj
    obtain ⟨hj, hl⟩ := mem_atLevel.mp hj
    obtain ⟨i, hi, hij⟩ := hissues j hj
    rw [hij] at hl ⊢
    exact h.settled n (hmarks ▸ hn) i (mem_atLevel.mpr ⟨hi, hl⟩)

theorem marks_mapInvocations (d : Rows) (f : Invocation → Invocation) :
    (d.mapInvocations f).marks = d.marks := by
  simp [Rows.marks, Rows.mapInvocations, Function.comp_def]

theorem enter_safe {d : Rows} (h : Safe d) (recent : Invocation → Bool) : Safe (enter recent d).1 := by
  unfold enter
  dsimp only
  split
  · refine h.invocations (marks_mapInvocations d _) fun j hj => ?_
    obtain ⟨i, hi, rfl⟩ := List.mem_map.mp hj
    exact ⟨i, hi, rfl⟩
  · exact h

theorem answer_safe {d : Rows} (h : Safe d) (agent : Agent) (final : Invocation) :
    Safe (answer agent final d) := by
  unfold answer
  split
  · refine h.invocations rfl fun j hj => ?_
    obtain ⟨i, hi, rfl⟩ := List.mem_map.mp hj
    refine ⟨i, hi, ?_⟩
    split <;> rfl
  · exact h.invocations rfl fun j hj => ⟨j, hj, rfl⟩
  · exact h.invocations (Rows.marks_setLevel fun _ => rfl) fun j hj => ⟨j, hj, rfl⟩

theorem resetDagCurrentLevelForRetry_stays {d : Rows} {l : Level} (hl : d.curLevel = some l) :
    Stays l.level d (resetDagCurrentLevelForRetry d) := by
  unfold resetDagCurrentLevelForRetry
  rw [hl]
  dsimp only
  split
  · exact .refl _ d
  · refine Stays.trans (.map (f := fun i => if i.level = l.level && i.stuckFailed then resetIssue i else i)
      (fun i _ => ?_) fun i hi => by simp [hi]) (.of_issues ?_ rfl rfl)
    · split
      · exact ⟨rfl, rfl, fun _ _ => rfl⟩
      · exact .refl i
    · simp only [Rows.marks, List.map_map]
      refine List.map_congr_left fun row _ => ?_
      simp only [Function.comp]
      split <;> rfl

theorem retry_safe {d : Rows} (h : Safe d) : Safe (resetDagCurrentLevelForRetry d) := by
  cases hl : d.curLevel with
  | none =>
    have : resetDagCurrentLevelForRetry d = d := by simp [resetDagCurrentLevelForRetry, hl]
    rwa [this]
  | some l => exact h.stays hl (resetDagCurrentLevelForRetry_stays hl)

theorem step_safe {d : Rows} (h : Safe d) (a : Action) : Safe (step d a) := by
  cases a with
  | enter recent => exact enter_safe h recent
  | iterate w => exact iterate_safe h w
  | answer agent final => exact answer_safe h agent final
  | retry => exact retry_safe h

theorem run_safe {d : Rows} (h : Safe d) (actions : List Action) : Safe (run d actions) := by
  induction actions generalizing d with
  | nil => exact h
  | cons a as ih => exact ih (step_safe h a)

/-! ## Issues without a level row -/

def Rows.numbers (d : Rows) : List Nat := d.marks.map (·.1)

def Covered (d : Rows) : Prop := ∀ i ∈ d.issues, i.level ∈ d.numbers

/-- As it was fanned out: pending, and never dispatched. -/
structure Untouched (i : Issue) : Prop where
  outcome : i.outcome = .pending
  invocations : i.invocations = []
  resolution : i.resolution = none
  mergeStatus : i.mergeStatus = none

theorem Untouched.not_settled {i : Issue} (h : Untouched i) : ¬ Settled i := by
  simp [Settled, h.outcome, h.resolution, h.mergeStatus]

def Stranded (d : Rows) : Prop := ∃ i ∈ d.issues, i.level ∉ d.numbers ∧ Untouched i

theorem curLevel_number {d : Rows} {l : Level} (h : d.curLevel = some l) : l.level ∈ d.numbers :=
  List.mem_map.mpr ⟨_, curLevel_mem h, rfl⟩

theorem numbers_checkpoint (level : Nat) (d : Rows) : (checkpoint level d).numbers = d.numbers := by
  rw [Rows.numbers, marks_checkpoint, List.map_map]
  refine List.map_congr_left fun m _ => ?_
  simp only [Function.comp]
  split <;> rfl

/-- What a step does to the issues: those of the current level may change, the others change in
their invocations at most. -/
structure Touches (d d' : Rows) : Prop where
  numbers : d'.numbers = d.numbers
  level : ∀ j ∈ d'.issues, j.level ∈ d.numbers ∨ ∃ i ∈ d.issues, i.level = j.level
  stranded : ∀ i ∈ d.issues, i.level ∉ d.numbers → i.invocations = [] → i ∈ d'.issues

theorem Touches.of_stays {d d' : Rows} {l : Level} (hl : d.curLevel = some l) (h : Stays l.level d d') :
    Touches d d' where
  numbers := by rw [Rows.numbers, h.marks, Rows.numbers]
  level := by
    intro j hj
    by_cases hjl : j.level = l.level
    · exact .inl (hjl ▸ curLevel_number hl)
    · exact .inr ⟨j, (h.others j hjl).mp hj, rfl⟩
  stranded := by
    intro i hi hlevel _
    refine (h.others i fun heq => hlevel ?_).mpr hi
    exact heq ▸ curLevel_number hl

theorem Touches.of_same {d d' : Rows} (hnumbers : d'.numbers = d.numbers) (h : d'.issues = d.issues) :
    Touches d d' :=
  ⟨hnumbers, fun j hj => .inr ⟨j, h ▸ hj, rfl⟩, fun _ hi _ _ => h ▸ hi⟩

/-- An update of invocations that finds none in an issue leaves the issue alone. -/
theorem Touches.of_map {d d' : Rows} {f : Issue → Issue} (hnumbers : d'.numbers = d.numbers)
    (h : d'.issues = d.issues.map f) (hlevel : ∀ i, (f i).level = i.level)
    (hsame : ∀ i, i.invocations = [] → f i = i) : Touches d d' where
  numbers := hnumbers
  level := by
    intro j hj
    rw [h] at hj
    obtain ⟨i, hi, rfl⟩ := List.mem_map.mp hj
    exact .inr ⟨i, hi, (hlevel i).symm⟩
  stranded := by
    intro i hi _ hnone
    rw [h]
    exact List.mem_map.mpr ⟨i, hi, hsame i hnone⟩

theorem iterate_touches (w : World) (d : Rows) : Touches d (iterate w d).1 := by
  unfold iterate
  split
  · exact .of_same rfl rfl
  · next l hl =>
    split
    · exact .of_same (numbers_checkpoint l.level d) rfl
    · split
      · next d' signal hs => exact .of_stays hl ((levelStages_local w l.level).stays hs)
      · next d' hs =>
        have h := Touches.of_stays hl ((levelStages_local w l.level).stays hs)
        exact ⟨(numbers_checkpoint l.level d').trans h.numbers, h.level, h.stranded⟩

theorem enter_touches (recent : Invocation → Bool) (d : Rows) : Touches d (enter recent d).1 := by
  unfold enter
  dsimp only
  split
  · refine .of_map ?_ rfl (fun _ => rfl) fun i hi => ?_
    · rw [Rows.numbers, marks_mapInvocations, Rows.numbers]
    · rw [hi, List.map_nil, ← hi]
  · exact .of_same rfl rfl

theorem answer_touches (agent : Agent) (final : Invocation) (d : Rows) :
    Touches d (answer agent final d) := by
  unfold answer
  split
  · refine .of_map rfl rfl (fun i => ?_) fun i hi => ?_
    · split <;> rfl
    · split
      · rw [hi, List.modify_nil, ← hi]
      · rfl
  · exact .of_same rfl rfl
  · next level id =>
    have hmarks : (d.setLevel level fun l => { l with fixers := l.fixers.modify id (finish final) }).marks =
        d.marks := Rows.marks_setLevel fun _ => rfl
    refine .of_same ?_ rfl
    rw [Rows.numbers, hmarks, Rows.numbers]

theorem retry_touches (d : Rows) : Touches d (resetDagCurrentLevelForRetry d) := by
  cases hl : d.curLevel with
  | none =>
    have : resetDagCurrentLevelForRetry d = d := by simp [resetDagCurrentLevelForRetry, hl]
    rw [this]
    exact .of_same rfl rfl
  | some l => exact .of_stays hl (resetDagCurrentLevelForRetry_stays hl)

theorem step_touches (d : Rows) (a : Action) : Touches d (step d a) := by
  cases a with
  | enter recent => exact enter_touches recent d
  | iterate w => exact iterate_touches w d
  | answer agent final => exact answer_touches agent final d
  | retry => exact retry_touches d

theorem run_covered {d : Rows} (h : Covered d) (actions : List Action) : Covered (run d actions) := by
  induction actions generalizing d with
  | nil => exact h
  | cons a as ih =>
    refine ih fun j hj => ?_
    have ht := step_touches d a
    rw [ht.numbers]
    rcases ht.level j hj with hj | ⟨i, hi, heq⟩
    · exact hj
    · exact heq ▸ h i hi

theorem run_stranded {d : Rows} (h : Stranded d) (actions : List Action) : Stranded (run d actions) := by
  induction actions generalizing d with
  | nil => exact h
  | cons a as ih =>
    obtain ⟨i, hi, hlevel, hu⟩ := h
    have ht := step_touches d a
    exact ih ⟨i, ht.stranded i hi hlevel hu.invocations, ht.numbers ▸ hlevel, hu⟩

/-! ## The fan-out -/

theorem insertAll_eq {rows is out : List Issue} (h : insertAll rows is = some out) : out = rows ++ is := by
  induction is generalizing rows with
  | nil =>
    cases h
    simp
  | cons i is ih =>
    rw [insertAll] at h
    split at h
    · rw [ih h]
      simp
    · cases h

/-- Where `fanOutDag` leaves no issue without a level row. -/
def SprintPlan.Covers (plan : SprintPlan) : Prop :=
  plan.levels = [] ∨ ∀ issue ∈ plan.issues,
    (∃ wave ∈ plan.levels, issue.id ∈ wave) ∨ issue.level < plan.levels.length

theorem levelByKey_lt {waves : List (List String)} {key : String} {n : Nat}
    (h : levelByKey waves key = some n) : n < waves.length := by
  simp only [levelByKey, Option.map_eq_some_iff] at h
  obtain ⟨⟨wave, m⟩, hlast, rfl⟩ := h
  have hmem := List.mem_of_mem_filter (List.mem_of_getLast? hlast)
  exact (List.mem_zipIdx' hmem).1

theorem levelByKey_none {waves : List (List String)} {key : String} :
    levelByKey waves key = none ↔ ∀ wave ∈ waves, key ∉ wave := by
  simp only [levelByKey, Option.map_eq_none_iff, List.getLast?_eq_none_iff, List.filter_eq_nil_iff,
    decide_eq_true_eq]
  constructor
  · intro h wave hwave
    obtain ⟨n, hn, rfl⟩ := List.getElem_of_mem hwave
    exact h (waves[n], n) (by simp [List.mem_zipIdx_iff_getElem?, hn])
  · rintro h ⟨wave, n⟩ hmem
    exact h wave (List.fst_mem_of_mem_zipIdx hmem)

theorem mem_deriveLevels {issues : List DagIssue} {issue : DagIssue} (h : issue ∈ issues) :
    ∃ wave ∈ deriveLevels issues, issue.id ∈ wave := by
  refine ⟨_, List.mem_map.mpr ⟨issue.level, ?_, rfl⟩, ?_⟩
  · simp only [sortedLevels, List.mem_mergeSort, List.mem_dedup, List.mem_map]
    exact ⟨issue, h, rfl⟩
  · simp only [List.mem_map, List.mem_filter, decide_eq_true_eq]
    exact ⟨issue, ⟨h, rfl⟩, rfl⟩

section FanOut

variable {reviewEnabled autoResolveConflicts : Bool} {plan : SprintPlan} {d : Rows}

theorem fanOutDag_eq (h : fanOutDag reviewEnabled autoResolveConflicts plan = some d) :
    d.issues = plan.issues.map (issueRow plan.waves) ∧
      d.marks = (List.range plan.waves.length).map fun n => (n, false) := by
  rw [fanOutDag, Option.map_eq_some_iff] at h
  obtain ⟨issues, hinsert, rfl⟩ := h
  refine ⟨by simpa using insertAll_eq hinsert, ?_⟩
  simp [Rows.marks, Function.comp_def]

theorem numbers_fanOutDag (h : fanOutDag reviewEnabled autoResolveConflicts plan = some d) :
    d.numbers = List.range plan.waves.length := by
  rw [Rows.numbers, (fanOutDag_eq h).2, List.map_map]
  exact List.map_id _

theorem fanOutDag_untouched (h : fanOutDag reviewEnabled autoResolveConflicts plan = some d) :
    ∀ i ∈ d.issues, Untouched i ∧ i.cliInvocationId = none := by
  intro i hi
  rw [(fanOutDag_eq h).1] at hi
  obtain ⟨issue, -, rfl⟩ := List.mem_map.mp hi
  exact ⟨⟨rfl, rfl, rfl, rfl⟩, rfl⟩

theorem fanOutDag_safe (h : fanOutDag reviewEnabled autoResolveConflicts plan = some d) : Safe d where
  claimed := fun i hi _ => (fanOutDag_untouched h i hi).2
  levels := by
    have := numbers_fanOutDag h
    rw [Rows.numbers] at this
    rw [this]
    exact List.nodup_range
  settled := by
    intro n hn
    rw [(fanOutDag_eq h).2] at hn
    simp at hn

/-- A plan that covers its issues is fanned out with a level row for each of them. -/
theorem fanOutDag_covered (h : fanOutDag reviewEnabled autoResolveConflicts plan = some d)
    (hcovers : plan.Covers) : Covered d := by
  intro i hi
  rw [(fanOutDag_eq h).1] at hi
  obtain ⟨issue, hissue, rfl⟩ := List.mem_map.mp hi
  rw [numbers_fanOutDag h, List.mem_range]
  cases hkey : levelByKey plan.waves issue.id with
  | some n =>
    rw [issueRow, hkey]
    exact levelByKey_lt hkey
  | none =>
    rw [issueRow, hkey]
    show issue.level < plan.waves.length
    have hnone := levelByKey_none.mp hkey
    rw [SprintPlan.waves] at hnone ⊢
    split at hnone
    · -- The derived waves name every issue.
      obtain ⟨wave, hwave, hmem⟩ := mem_deriveLevels hissue
      exact absurd hmem (hnone wave hwave)
    · next hne =>
      rw [if_neg hne]
      rcases hcovers.resolve_left hne issue hissue with ⟨wave, hwave, hmem⟩ | hlt
      · exact absurd hmem (hnone wave hwave)
      · exact hlt

/-- Any other plan leaves an issue behind. -/
theorem fanOutDag_stranded (h : fanOutDag reviewEnabled autoResolveConflicts plan = some d)
    (hcovers : ¬ plan.Covers) : Stranded d := by
  rw [SprintPlan.Covers, not_or] at hcovers
  obtain ⟨hne, hnot⟩ := hcovers
  push Not at hnot
  obtain ⟨issue, hissue, hnone, hlevel⟩ := hnot
  have hwaves : plan.waves = plan.levels := if_neg hne
  have hmem : issueRow plan.waves issue ∈ d.issues := by
    rw [(fanOutDag_eq h).1]
    exact List.mem_map.mpr ⟨issue, hissue, rfl⟩
  refine ⟨_, hmem, ?_, (fanOutDag_untouched h _ hmem).1⟩
  rw [numbers_fanOutDag h, List.mem_range, issueRow, levelByKey_none.mpr (hwaves ▸ hnone), hwaves]
  exact Nat.not_lt.mpr hlevel

end FanOut

/-! ## The end of a run -/

theorem iterate_resolved {w : World} {d : Rows} : (iterate w d).2 = .resolved ↔ d.curLevel = none := by
  unfold iterate
  split
  · next h => simp [h]
  · next l h =>
    simp only [h, reduceCtorEq, iff_false]
    split
    · simp
    · split <;> simp

theorem Safe.all_settled {d : Rows} (h : Safe d) (hcovered : Covered d) (hdone : d.curLevel = none) :
    ∀ i ∈ d.issues, Settled i := by
  intro i hi
  obtain ⟨⟨n, b⟩, hmark, hn⟩ := List.mem_map.mp (hcovered i hi)
  obtain ⟨l, hl, heq⟩ := List.mem_map.mp hmark
  have hb : b = true := by
    have := List.find?_eq_none.mp hdone l hl
    simp only [Prod.mk.injEq] at heq
    simpa [heq.2] using this
  subst hb
  exact h.settled n hmark i (mem_atLevel.mpr ⟨hi, hn.symm⟩)

/-- Whenever a run of the executor reports the phase resolved, every issue is settled, unless the
plan left one behind: then that one is still pending and was never dispatched. -/
theorem resolved_settles_iff {reviewEnabled autoResolveConflicts : Bool} {plan : SprintPlan} {d : Rows}
    (hfan : fanOutDag reviewEnabled autoResolveConflicts plan = some d) (actions : List Action) (w : World)
    (hresolved : (iterate w (run d actions)).2 = .resolved) :
    (∀ i ∈ (run d actions).issues, Settled i ∧ ¬ Untouched i) ↔ plan.Covers := by
  have hdone := iterate_resolved.mp hresolved
  constructor
  · intro hall
    by_contra hcovers
    obtain ⟨i, hi, -, hu⟩ := run_stranded (fanOutDag_stranded hfan hcovers) actions
    exact (hall i hi).2 hu
  · intro hcovers i hi
    have hsafe := run_safe (fanOutDag_safe hfan) actions
    have hsettled := hsafe.all_settled (run_covered (fanOutDag_covered hfan hcovers) actions) hdone i hi
    exact ⟨hsettled, fun hu => hu.not_settled hsettled⟩

/-! ## Two plans -/

/-- Every provider, every git command and every merge succeeds. -/
def smoothWorld : World where
  worktree := fun _ => true
  takes := fun _ _ => true
  skipReason := ""
  takesReplanner := true
  commits := fun _ => true
  hasChanges := fun _ => true
  merge := fun _ => .merged
  reopen := fun _ => .merged
  fixer := .ok
  aiFixContext := false
  indexHeld := false
  completes := true
  aborts := true

/-- A coder that finished its issue. -/
def codedWell : Invocation where
  truncationRetry := false
  started := true
  ended := true
  exitCode := some 0
  output := { coder := some { outcome := .completed } }

/-- Worktree, dispatch, the coder's answer, ingest, merge and checkpoint of the level of issue `A`. -/
def smoothRun : List Action :=
  [.iterate smoothWorld, .iterate smoothWorld, .answer (.issue "A" 0) codedWell, .iterate smoothWorld,
    .iterate smoothWorld]

/-- `B` is in no wave, and its own level is past the last one. -/
def forgetfulPlan : SprintPlan where
  issues := [{ id := "A" }, { id := "B", level := 1 }]
  levels := [["A"]]

def carefulPlan : SprintPlan where
  issues := [{ id := "A" }]
  levels := [["A"]]

def fannedOut (plan : SprintPlan) : Rows := (fanOutDag false false plan).getD ⟨⟨false, false, none, 0, none, []⟩, [], []⟩

theorem resolved_leaves_issue_pending :
    fanOutDag false false forgetfulPlan = some (fannedOut forgetfulPlan) ∧
      (iterate smoothWorld (run (fannedOut forgetfulPlan) smoothRun)).2 = .resolved ∧
      ∃ i ∈ (run (fannedOut forgetfulPlan) smoothRun).issues,
        i.issueKey = "B" ∧ i.outcome = .pending ∧ i.invocations = [] ∧ i.resolution = none ∧
          i.mergeStatus = none := by
  decide +kernel

theorem resolved_settles_careful_plan :
    fanOutDag false false carefulPlan = some (fannedOut carefulPlan) ∧
      (iterate smoothWorld (run (fannedOut carefulPlan) smoothRun)).2 = .resolved ∧
      ((∀ i ∈ (run (fannedOut carefulPlan) smoothRun).issues, Settled i ∧ ¬ Untouched i) ↔
        carefulPlan.Covers) :=
  have hfan : fanOutDag false false carefulPlan = some (fannedOut carefulPlan) := by decide +kernel
  have hresolved : (iterate smoothWorld (run (fannedOut carefulPlan) smoothRun)).2 = .resolved := by
    decide +kernel
  ⟨hfan, hresolved, resolved_settles_iff hfan smoothRun smoothWorld hresolved⟩

end Dag

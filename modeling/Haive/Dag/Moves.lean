import Haive.Dag.Finite

/-!
# What an action does to the row of an issue

`Move` lists the writes of an iteration to one issue, with what the executor checked
before each; `Ingests` says when the iteration folds coders in, which it does to the
rows it started from. `step_rows` is the rule for invariants about the history of an
issue: a relation that holds across each of these writes holds between every row
before an action and the same row after it.
-/

namespace Dag

open Lib Issue

/-- A write of an iteration to an issue, apart from the ingest of its coder; `b` says whether review
is on. -/
inductive Move (b : Bool) : Issue → Issue → Prop
  | worktree (i : Issue) : Move b i { i with worktree := true }
  | dispatched (w : World) {i : Issue} (h : i.undispatched = true) : Move b i (dispatchCoder w i).row
  | marked {i : Issue} (hb : b = true) (h : i.coderFailed = true) (hr : i.resolution = none) :
      Move b i { i with resolution := some .failedUnrecoverable }
  | reviewed (w : World) {i : Issue} (hb : b = true) (h : i.needsReview = true) :
      Move b i (reviewIssue w i)
  | advised (w : World) (taken : List String) {i : Issue} (hb : b = true) (h : i.failed = true) :
      Move b i (adviseIssue w taken i).row
  | skipped {i : Issue} (hb : b = true) (h : i.failed = true) : Move b i (skipIssue i)
  | emptied (i : Issue) (m : Option String) : Move b i { i with errorMessage := m }
  | merged (status : MergeStatus) {i : Issue} (h : i.mergeable b = true) : Move b i (markMerge status i)

/-- The iteration folds in the coders of its level: the worktrees are there and no issue waits for
a coder. -/
def Ingests (d : Rows) (level : Nat) : Prop :=
  (∀ i ∈ d.atLevel level, i.worktree = true) ∧ ∀ i ∈ d.atLevel level, i.undispatched = false

/-- What the moves are read against: whether review is on, and that no two rows have one key. -/
structure Proper (b : Bool) (d : Rows) : Prop where
  keys : d.keys.Nodup
  review : d.plan.reviewEnabled = b

/-- Every row is still there, and as `P` allows; so are the rows that were added. -/
structure Rowwise (b : Bool) (P : Issue → Issue → Prop) (d d' : Rows) : Prop where
  proper : Proper b d'
  rows : ∀ (n : Nat) (i : Issue), d.issues[n]? = some i → ∃ j, d'.issues[n]? = some j ∧ P i j
  added : ∀ (n : Nat) (j : Issue), d'.issues[n]? = some j → d.issues[n]? = none → ∃ x, Fresh x ∧ P x j

/-- A relation that holds across every write of an iteration but the ingest. -/
structure Across (b : Bool) (P : Issue → Issue → Prop) : Prop where
  refl : ∀ i, P i i
  trans : ∀ {i j k}, P i j → P j k → P i k
  key : ∀ {i j}, P i j → j.issueKey = i.issueKey
  move : ∀ {i j}, Move b i j → P i j

variable {b : Bool} {P : Issue → Issue → Prop} {level : Nat} {d d' d'' : Rows} {s t : Stage}

namespace Rowwise

theorem of_issues (hP : Across b P) (hd : Proper b d) (h : d'.issues = d.issues)
    (hplan : d'.plan.reviewEnabled = d.plan.reviewEnabled) : Rowwise b P d d' where
  proper := by
    refine ⟨?_, hplan.trans hd.review⟩
    rw [Rows.keys, h]
    exact hd.keys
  rows := fun _ i hi => ⟨i, h ▸ hi, hP.refl i⟩
  added := by
    intro n j hj hnone
    rw [h, hnone] at hj
    cases hj

theorem of_map (hP : Across b P) (hd : Proper b d) {f : Issue → Issue} (h : d'.issues = d.issues.map f)
    (hplan : d'.plan.reviewEnabled = d.plan.reviewEnabled) (hf : ∀ i ∈ d.issues, P i (f i)) :
    Rowwise b P d d' where
  proper := by
    have hkeys : d'.keys = d.keys := by
      rw [Rows.keys, h, List.map_map]
      exact List.map_congr_left fun i hi => hP.key (hf i hi)
    exact ⟨hkeys ▸ hd.keys, hplan.trans hd.review⟩
  rows := by
    intro n i hi
    refine ⟨f i, ?_, hf i (List.mem_of_getElem? hi)⟩
    rw [h, List.getElem?_map, hi, Option.map_some]
  added := by
    intro n j hj hnone
    rw [h, List.getElem?_map, hnone] at hj
    cases hj

/-- A change of the plan and the levels after it. -/
theorem congr (h : Rowwise b P d d') (hissues : d''.issues = d'.issues)
    (hplan : d''.plan.reviewEnabled = d'.plan.reviewEnabled) : Rowwise b P d d'' where
  proper := by
    refine ⟨?_, hplan.trans h.proper.review⟩
    rw [Rows.keys, hissues]
    exact h.proper.keys
  rows := fun n i hi => hissues ▸ h.rows n i hi
  added := fun n j hj => h.added n j (hissues ▸ hj)

theorem trans (hP : Across b P) (h : Rowwise b P d d') (h' : Rowwise b P d' d'') : Rowwise b P d d'' where
  proper := h'.proper
  rows := by
    intro n i hi
    obtain ⟨j, hj, hij⟩ := h.rows n i hi
    obtain ⟨k, hk, hjk⟩ := h'.rows n j hj
    exact ⟨k, hk, hP.trans hij hjk⟩
  added := by
    intro n k hk hnone
    cases hj : d'.issues[n]? with
    | none => exact h'.added n k hk hj
    | some j =>
      obtain ⟨x, hx, hxj⟩ := h.added n j hj hnone
      obtain ⟨k', hk', hjk⟩ := h'.rows n j hj
      obtain rfl : k' = k := Option.some.inj (hk'.symm.trans hk)
      exact ⟨x, hx, hP.trans hxj hjk⟩

/-- A sweep whose turns are as `P` allows. -/
theorem sweep (hP : Across b P) (hd : Proper b d) {pick : Issue → Bool}
    {turn : List String → Issue → IssueTurn} {decide : Rows → List Note → Option Signal}
    (hadded : ∀ ks i, AddsFresh ks (turn ks i))
    (hturn : ∀ ks, ∀ i ∈ d.atLevel level, pick i = true → P i (turn ks i).row) :
    Rowwise b P d (sweepStage pick turn level decide d).1 := by
  have hrows : List.Forall₂ P d.issues (sweepLevel pick turn level d).rows := by
    refine sweep_forall₂ (fun i _ => hP.refl i) fun ks i hi hp => ?_
    simp only [Bool.and_eq_true, decide_eq_true_eq] at hp
    exact hturn ks i (mem_atLevel.mpr ⟨hi, hp.1⟩) hp.2
  have hkeys : (sweepLevel pick turn level d).rows.map (·.issueKey) = d.keys :=
    map_key_of_forall₂ (hrows.imp fun _ _ h => hP.key h)
  have hnodup : (d.keys ++ (sweepLevel pick turn level d).added.map (·.issueKey)).Nodup :=
    sweep_keys hd.keys fun ks i _ hks _ => (hadded ks i).keys hks
  have hfresh : ∀ x ∈ (sweepLevel pick turn level d).added, Fresh x :=
    sweep_added fun ks i _ _ => (hadded ks i).fresh
  have hstored : Rowwise b P d (d.store (sweepLevel pick turn level d)) := by
    refine ⟨⟨?_, hd.review⟩, fun n i hi => ?_, fun n j hj hnone => ?_⟩
    · rw [Rows.keys, Rows.store, List.map_append, hkeys]
      exact hnodup
    · obtain ⟨j, hj, hij⟩ := getElem?_of_forall₂ hrows n i hi
      refine ⟨j, ?_, hij⟩
      rw [Rows.store, List.getElem?_append_left (List.getElem?_eq_some_iff.mp hj).1, hj]
    · have hle : (sweepLevel pick turn level d).rows.length ≤ n :=
        hrows.length_eq ▸ List.getElem?_eq_none_iff.mp hnone
      rw [Rows.store, List.getElem?_append_right hle] at hj
      exact ⟨j, hfresh j (List.mem_of_getElem? hj), hP.refl j⟩
  unfold sweepStage
  dsimp only
  split <;> exact hstored

theorem sweep_rows (hP : Across b P) (hd : Proper b d) {pick : Issue → Bool}
    {turn : List String → Issue → IssueTurn} {decide : Rows → List Note → Option Signal}
    (hadded : ∀ ks i, (turn ks i).added = [])
    (hturn : ∀ ks, ∀ i ∈ d.atLevel level, pick i = true → P i (turn ks i).row) :
    Rowwise b P d (sweepStage pick turn level decide d).1 :=
  .sweep hP hd (fun ks i => .of_nil (hadded ks i)) hturn

end Rowwise

/-- The stage is as `P` allows, whatever rows it starts from. -/
def Stage.Allowed (b : Bool) (P : Issue → Issue → Prop) (s : Stage) : Prop :=
  ∀ d, Proper b d → Rowwise b P d (s d).1

section Stages

variable (hP : Across b P) (w : World)

include hP

theorem Stage.Allowed.andThen (hs : s.Allowed b P) (ht : t.Allowed b P) : (s.andThen t).Allowed b P := by
  intro d hd
  have h := hs d hd
  rcases hsd : s d with ⟨d', _ | e⟩
  · rw [hsd] at h
    rw [Stage.andThen_of_none hsd]
    exact h.trans hP (ht d' h.proper)
  · rw [hsd] at h
    rw [Stage.andThen_of_some hsd]
    exact h

omit hP in
theorem Stage.Allowed.ite {p : Rows → Prop} [∀ d, Decidable (p d)] (hs : s.Allowed b P) (ht : t.Allowed b P) :
    Stage.Allowed b P fun d => if p d then s d else t d := by
  intro d hd
  dsimp only
  split
  · exact hs d hd
  · exact ht d hd

theorem Stage.Allowed.of_issues (hs : ∀ d, (s d).1.issues = d.issues)
    (hplan : ∀ d, (s d).1.plan.reviewEnabled = d.plan.reviewEnabled) : s.Allowed b P :=
  fun d hd => .of_issues hP hd (hs d) (hplan d)

theorem Stage.Allowed.of_fst (hs : ∀ d, (s d).1 = d) : s.Allowed b P :=
  .of_issues hP (fun d => by rw [hs]) fun d => by rw [hs]

theorem createWorktrees_allowed : (createWorktrees w level).Allowed b P := by
  refine .ite (.of_fst hP fun _ => rfl) fun d hd => .sweep_rows hP hd (fun _ i => ?_) fun _ i _ _ => ?_
  · split <;> rfl
  · split
    · exact hP.move (.worktree i)
    · exact hP.refl i

theorem dispatchCoders_allowed : (dispatchCoders w level).Allowed b P :=
  .ite (.of_fst hP fun _ => rfl) fun _ hd => .sweep_rows hP hd (fun _ i => dispatchCoder_added w i)
    fun _ _ _ hu => hP.move (.dispatched w hu)

theorem markCoderFailures_allowed : (markCoderFailures level).Allowed b P := by
  intro d hd
  unfold markCoderFailures
  dsimp only
  split
  · next hreview =>
    refine .of_map hP hd rfl rfl fun i _ => ?_
    split
    · next h =>
      simp only [Bool.and_eq_true, Option.isNone_iff_eq_none] at h
      exact hP.move (.marked (hd.review.symm.trans hreview) h.1.2 h.2)
    · exact hP.refl i
  · split <;> exact .of_issues hP hd rfl rfl

theorem skipFailed_rows (hb : b = true) (hd : Proper b d) : Rowwise b P d (skipFailed level d) := by
  refine .of_map hP hd rfl rfl fun i _ => ?_
  split
  · next h =>
    rw [Bool.and_eq_true] at h
    exact hP.move (.skipped hb h.2)
  · exact hP.refl i

theorem awaitReplanner_allowed (hb : b = true) (n : Nat) : (awaitReplanner w level n).Allowed b P := by
  intro d hd
  unfold awaitReplanner
  split
  · exact .of_issues hP hd rfl rfl
  · dsimp only
    split
    · exact .of_issues hP hd rfl rfl
    · split
      · split <;> exact .of_issues hP hd rfl rfl
      · unfold ingestReplanner
        dsimp only
        split
        · exact .of_issues hP hd rfl rfl
        · exact (skipFailed_rows hP hb hd).congr rfl rfl

omit hP in
theorem callReplanner_issues (w : World) (level : Nat) (d : Rows) :
    (callReplanner w level d).1.issues = d.issues ∧
      (callReplanner w level d).1.plan.reviewEnabled = d.plan.reviewEnabled := by
  unfold callReplanner
  dsimp only
  split_ifs <;> exact ⟨rfl, rfl⟩

theorem resolveEscalationPhase_allowed (hb : b = true) : (resolveEscalationPhase w level).Allowed b P := by
  intro d hd
  unfold resolveEscalationPhase
  split
  · exact awaitReplanner_allowed hP w hb _ d hd
  · split
    · exact .of_issues hP hd rfl rfl
    · have hcall := callReplanner_issues w level
      refine Stage.Allowed.andThen hP (fun d hd => ?_)
        (.of_issues hP (fun d => (hcall d).1) fun d => (hcall d).2) d hd
      exact Rowwise.sweep hP hd (adviseIssue_fresh w) fun ks _ _ hf => hP.move (.advised w ks hb hf)

theorem reviewAndEscalate_allowed : (reviewAndEscalate w level).Allowed b P := by
  intro d hd
  unfold reviewAndEscalate
  split
  · next hreview =>
    have hb : b = true := hd.review.symm.trans hreview
    refine Stage.Allowed.andThen hP (fun d hd => ?_)
      (.andThen hP ?_ (resolveEscalationPhase_allowed hP w hb)) d hd
    · exact .sweep_rows hP hd (fun _ _ => rfl) fun _ _ _ hn => hP.move (.reviewed w hb hn)
    · exact .of_fst hP (haltForDagEnvironmentFailures_fst level _)
  · exact .of_issues hP hd rfl rfl

theorem commitIssues_allowed : (commitIssues w level).Allowed b P := by
  intro d hd
  refine Rowwise.sweep_rows hP hd (fun _ i => ?_) fun _ i _ _ => ?_
  · dsimp only
    split_ifs <;> rfl
  · dsimp only
    split
    · exact hP.refl i
    · split
      · exact hP.refl i
      · exact hP.move (.emptied i _)

/-! ## The merge -/

omit hP in
def Takes (d : Rows) (level : Nat) (key : String) : Prop := ∃ i ∈ d.mergeables level, i.issueKey = key

omit hP in
theorem Takes.of_mem {i : Issue} (h : i ∈ d.mergeables level) : Takes d level i.issueKey := ⟨i, h, rfl⟩

omit hP in
theorem mem_mergeables {i : Issue} :
    i ∈ d.mergeables level ↔ i ∈ d.issues ∧ i.level = level ∧ i.mergeable d.plan.reviewEnabled = true := by
  rw [Rows.mergeables, List.mem_filter, mem_atLevel, and_assoc]

omit hP in
/-- What is marked is still taken. -/
theorem Takes.setIssue {key key' : String} (status : MergeStatus) (h : Takes d level key) :
    Takes (d.setIssue level key' (markMerge status)) level key := by
  obtain ⟨i, hi, rfl⟩ := h
  obtain ⟨hi, hl, hm⟩ := mem_mergeables.mp hi
  refine ⟨_, mem_mergeables.mpr ⟨List.mem_map_of_mem hi, ?_, ?_⟩, ?_⟩
  · split <;> exact hl
  · split <;> exact hm
  · split <;> rfl

theorem setIssue_rows (hd : Proper b d) {key : String} (h : Takes d level key) (status : MergeStatus) :
    Rowwise b P d (d.setIssue level key (markMerge status)) := by
  obtain ⟨x, hx, rfl⟩ := h
  obtain ⟨hx, -, hm⟩ := mem_mergeables.mp hx
  refine .of_map hP hd rfl rfl fun i hi => ?_
  split
  · next hkey =>
    simp only [Bool.and_eq_true, decide_eq_true_eq] at hkey
    obtain rfl := List.inj_on_of_nodup_map hd.keys hi hx hkey.2
    exact hP.move (.merged status (hd.review ▸ hm))
  · exact hP.refl i

theorem startConflictFix_rows (hd : Proper b d) {key : String} (h : Takes d level key) (cut : Bool) :
    Rowwise b P d (startConflictFix w level key cut d).1 ∧
      ∀ key', Takes d level key' → Takes (startConflictFix w level key cut d).1 level key' := by
  have hsame : ∀ d' : Rows, d'.issues = d.issues → d'.plan = d.plan →
      Rowwise b P d d' ∧ ∀ key', Takes d level key' → Takes d' level key' := by
    refine fun d' hissues hplan => ⟨.of_issues hP hd hissues (by rw [hplan]), fun key' hkey => ?_⟩
    obtain ⟨i, hi, rfl⟩ := hkey
    obtain ⟨hi, hl, hm⟩ := mem_mergeables.mp hi
    exact .of_mem (mem_mergeables.mpr ⟨hissues ▸ hi, hl, hplan ▸ hm⟩)
  unfold startConflictFix
  split
  · exact hsame _ rfl rfl
  · exact hsame _ rfl rfl
  · exact hsame _ rfl rfl
  · exact ⟨setIssue_rows hP hd h .clean, fun _ => Takes.setIssue .clean⟩
  · dsimp only
    split <;> exact hsame _ rfl rfl

theorem foldFixer_rows (hd : Proper b d) (target : Option Issue)
    (htarget : ∀ t ∈ target, Takes d level t.issueKey) (inv : Invocation) :
    Rowwise b P d (foldFixer w level target inv d) ∧
      ∀ t ∈ target, Takes (foldFixer w level target inv d) level t.issueKey := by
  unfold foldFixer
  dsimp only
  split
  · next t =>
    have htake := htarget t rfl
    split
    · exact ⟨(setIssue_rows hP hd htake .resolved).congr rfl rfl, fun t' ht =>
        (htarget t' ht).setIssue .resolved⟩
    · exact ⟨.of_issues hP hd rfl rfl, htarget⟩
  · exact ⟨.of_issues hP hd rfl rfl, htarget⟩

theorem afterFixer_rows (hd : Proper b d) (target : Option Issue)
    (htarget : ∀ t ∈ target, Takes d level t.issueKey) (inv : Invocation) :
    Rowwise b P d (afterFixer w level target inv d).1 := by
  unfold afterFixer
  dsimp only
  split
  · exact .of_issues hP hd rfl rfl
  · split
    · exact .of_issues hP hd rfl rfl
    · split
      · exact .of_issues hP hd rfl rfl
      · split
        · exact (startConflictFix_rows hP w hd (htarget _ rfl) _).1
        · exact .of_issues hP hd rfl rfl

theorem beforeMerge_allowed : (beforeMerge w level).Allowed b P := by
  intro d hd
  unfold beforeMerge
  split
  · unfold ingestFixer
    split
    · exact .of_issues hP hd rfl rfl
    · dsimp only
      split
      · exact .of_issues hP hd rfl rfl
      · split
        · exact .of_issues hP hd rfl rfl
        · have htarget : ∀ t ∈ (d.mergeables level).find? fun i =>
              some i.issueKey = (d.mergeState level).activeConflict, Takes d level t.issueKey :=
            fun t ht => .of_mem (List.mem_of_find?_eq_some ht)
          obtain ⟨hfold, htake⟩ := foldFixer_rows hP w hd _ htarget _
          exact hfold.trans hP (afterFixer_rows hP w hfold.proper _ htake _)
  · split
    · split
      · next target htarget =>
        have hmem := List.mem_of_mem_filter (List.mem_of_mem_head? htarget)
        exact (startConflictFix_rows hP w hd (.of_mem hmem) _).1
      · exact .of_issues hP hd rfl rfl
    · exact .of_issues hP hd rfl rfl

theorem mergePass_allowed : (mergePass w level).Allowed b P := by
  intro d hd
  refine Rowwise.sweep_rows hP hd (fun _ i => mergeIssue_added w i) fun _ i _ hp => ?_
  rw [Bool.and_eq_true, hd.review] at hp
  unfold mergeIssue
  split
  case h_5 => exact hP.move (.merged .clean hp.1)
  case h_6 => exact hP.move (.merged .conflict hp.1)
  all_goals exact hP.refl i

theorem resolveConflicts_rows {cs : List Issue} (hd : Proper b d)
    (hcs : ∀ c ∈ cs, Takes d level c.issueKey) : Rowwise b P d (resolveConflicts w level cs d).1 := by
  induction cs generalizing d with
  | nil =>
    rw [resolveConflicts]
    split <;> exact .of_issues hP hd rfl rfl
  | cons c cs ih =>
    have hrest : ∀ c ∈ cs, Takes d level c.issueKey := fun c hc => hcs c (List.mem_cons_of_mem _ hc)
    rw [resolveConflicts]
    split
    · obtain ⟨hrows, htake⟩ := startConflictFix_rows hP w hd (hcs c List.mem_cons_self) false
      rcases hstart : startConflictFix w level c.issueKey false d with ⟨d₁, _ | e⟩
      · rw [hstart] at hrows htake
        rw [Stage.andThen_of_none hstart]
        exact hrows.trans hP (ih hrows.proper fun c hc => htake _ (hrest c hc))
      · rw [hstart] at hrows
        rw [Stage.andThen_of_some hstart]
        exact hrows
    · exact ih hd hrest

theorem decideConflicts_allowed : (decideConflicts w level).Allowed b P := by
  intro d hd
  unfold decideConflicts
  split
  · exact .of_issues hP hd rfl rfl
  · split
    · exact resolveConflicts_rows hP w hd fun c hc => .of_mem (List.mem_of_mem_filter hc)
    · exact .of_issues hP hd rfl rfl

/-! ## Actions -/

/-- The stages after the ingest. -/
theorem laterStages_allowed : Stage.Allowed b P <|
    Stage.andThen (haltForDagEnvironmentFailures level (·.coderFailed)) <|
    Stage.andThen (markCoderFailures level) <|
    Stage.andThen (reviewAndEscalate w level) <|
    Stage.andThen (commitIssues w level) (runLevelMerge w level) :=
  .andThen hP (.of_fst hP (haltForDagEnvironmentFailures_fst level _)) <|
  .andThen hP (markCoderFailures_allowed hP) <| .andThen hP (reviewAndEscalate_allowed hP w) <|
  .andThen hP (commitIssues_allowed hP w) <| .andThen hP (beforeMerge_allowed hP w) <|
  .andThen hP (mergePass_allowed hP w) (decideConflicts_allowed hP w)

/-- An iteration, where `P` allows the ingests of the rows it starts from. -/
theorem iterate_rows (hd : Proper b d)
    (hingest : ∀ l, d.curLevel = some l → Ingests d l.level →
      ∀ i ∈ d.atLevel l.level, i.running = true → P i (ingestCoder w i).row) :
    Rowwise b P d (iterate w d).1 := by
  unfold iterate
  split
  · exact .of_issues hP hd rfl rfl
  next l hl =>
  split
  · exact .of_issues hP hd rfl rfl
  have hstages : Rowwise b P d (levelStages w l.level d).1 := by
    unfold levelStages
    rcases hw : createWorktrees w l.level d with ⟨d₁, _ | e⟩
    · rw [Stage.andThen_of_none hw]
      obtain ⟨rfl, hworktree⟩ := createWorktrees_none hw
      rcases hc : dispatchCoders w l.level d₁ with ⟨d₂, _ | e⟩
      · rw [Stage.andThen_of_none hc]
        obtain ⟨rfl, hdispatched⟩ := dispatchCoders_none hc
        have hingested : Rowwise b P d₂ (ingestCoders w l.level d₂).1 := by
          unfold ingestCoders
          split
          · exact .of_issues hP hd rfl rfl
          · exact .sweep_rows hP hd (fun _ i => ingestCoder_added w i) fun _ =>
              hingest l hl ⟨hworktree, hdispatched⟩
        rcases hi : ingestCoders w l.level d₂ with ⟨d₃, _ | e⟩
        · rw [Stage.andThen_of_none hi]
          rw [hi] at hingested
          exact hingested.trans hP (laterStages_allowed hP w d₃ hingested.proper)
        · rw [Stage.andThen_of_some hi]
          rwa [hi] at hingested
      · rw [Stage.andThen_of_some hc]
        have := @dispatchCoders_allowed b P l.level hP w d₁ hd
        rwa [hc] at this
    · rw [Stage.andThen_of_some hw]
      have := @createWorktrees_allowed b P l.level hP w d hd
      rwa [hw] at this
  split
  · next hs =>
    rw [hs] at hstages
    exact hstages
  · next hs =>
    rw [hs] at hstages
    exact hstages.trans hP (.of_issues hP hstages.proper rfl rfl)

end Stages

/-- An action, where `P` also allows the ingests, that agents end, and the issues that a retry starts
over. -/
theorem step_rows (hP : Across b P) (hd : Proper b d) {a : Action}
    (hingest : ∀ w, a = .iterate w → ∀ l, d.curLevel = some l → Ingests d l.level →
      ∀ i ∈ d.atLevel l.level, i.running = true → P i (ingestCoder w i).row)
    (hended : ∀ i invs, invs.length = i.invocations.length → P i { i with invocations := invs })
    (hreset : a = .retry → ∀ l, d.curLevel = some l →
      ∀ i ∈ d.atLevel l.level, i.stuckFailed = true → P i (resetIssue i)) :
    Rowwise b P d (step d a) := by
  cases a with
  | enter recent =>
    rw [step]
    unfold enter
    dsimp only
    split
    · exact .of_map hP hd rfl rfl fun i _ => hended i _ (List.length_map _)
    · exact .of_issues hP hd rfl rfl
  | iterate w => exact iterate_rows hP w hd (hingest w rfl)
  | answer agent final =>
    cases agent with
    | issue key n =>
      refine .of_map hP hd rfl rfl fun i _ => ?_
      split
      · exact hended i _ (List.length_modify ..)
      · exact hP.refl i
    | replanner n => exact .of_issues hP hd rfl rfl
    | fixer level n => exact .of_issues hP hd rfl rfl
  | retry =>
    rw [step]
    unfold resetDagCurrentLevelForRetry
    split
    · exact .of_issues hP hd rfl rfl
    · next l hl =>
      split
      · exact .of_issues hP hd rfl rfl
      · refine .of_map hP hd rfl rfl fun i hi => ?_
        split
        · next h =>
          simp only [Bool.and_eq_true, decide_eq_true_eq] at h
          exact hreset rfl l hl i (mem_atLevel.mpr ⟨hi, h.1⟩) h.2
        · exact hP.refl i

/-- What every action keeps, every run keeps. -/
theorem run_rows (hP : Across b P) {met : Rows → Action → Prop}
    (hstep : ∀ d a, Proper b d → met d a → Rowwise b P d (step d a)) (hd : Proper b d)
    {actions : List Action} (hmet : Along (fun d a => some (step d a)) met d actions) :
    Rowwise b P d (run d actions) := by
  induction actions generalizing d with
  | nil => exact .of_issues hP hd rfl rfl
  | cons a as ih =>
    have h := hstep d a hd hmet.1
    exact h.trans hP (ih h.proper hmet.2)

/-! ## Closed issues -/

/-- An issue has a resolution only once its coder ended, it is accepted only once its coder completed
it, and only what the merge takes is merged. -/
structure Closed (b : Bool) (i : Issue) : Prop where
  ended : i.resolution.isSome = true → i.coded = true ∨ i.coderFailed = true
  accepted : i.resolution = some .approved ∨ i.resolution = some .completedWithDebt → i.coded = true
  merged : ∀ status, i.mergeStatus = some status → i.mergeable b = true

theorem Closed.mergeable_coded {i : Issue} (h : Closed b i) (hm : i.mergeable b = true) : i.coded = true := by
  cases b with
  | true =>
    simp only [mergeable, Bool.and_eq_true, if_true, Bool.or_eq_true, decide_eq_true_eq] at hm
    exact h.accepted hm.2
  | false =>
    simp only [mergeable, Bool.and_eq_true, Bool.false_eq_true, if_false] at hm
    exact hm.2

theorem Closed.unmerged {i : Issue} (h : Closed b i) (hm : i.mergeable b = false) : i.mergeStatus = none := by
  cases hs : i.mergeStatus with
  | none => rfl
  | some s => simp [h.merged s hs] at hm

theorem Closed.of_open {i : Issue} (hr : i.resolution = none) (hs : i.mergeStatus = none) : Closed b i :=
  ⟨by simp [hr], by simp [hr], by simp [hs]⟩

theorem not_coded_of_running {i : Issue} (h : i.running = true) : i.coded = false ∧ i.coderFailed = false := by
  rw [running, decide_eq_true_eq] at h
  simp [coded, coderFailed, h]

theorem not_coded_of_undispatched {i : Issue} (h : i.undispatched = true) :
    i.coded = false ∧ i.coderFailed = false := by
  rw [undispatched, Bool.and_eq_true, decide_eq_true_eq] at h
  simp [coded, coderFailed, h.1]

theorem Closed.is_open {i : Issue} (h : Closed b i) (hc : i.coded = false ∧ i.coderFailed = false) :
    i.resolution = none ∧ i.mergeStatus = none := by
  constructor
  · cases hr : i.resolution with
    | none => rfl
    | some r => simpa [hc] using h.ended (by simp [hr])
  · cases hs : i.mergeStatus with
    | none => rfl
    | some s =>
      have hcoded := h.mergeable_coded (h.merged s hs)
      simp [hc.1] at hcoded

/-- What folding a coder in keeps: the place of the issue, its criteria and how it is resolved. -/
structure Ingested (i j : Issue) : Prop where
  issueKey : j.issueKey = i.issueKey
  criteria : j.acceptanceCriteria = i.acceptanceCriteria
  resolution : j.resolution = i.resolution
  mergeStatus : j.mergeStatus = i.mergeStatus

theorem ingestCoder_ingested (w : World) (i : Issue) : Ingested i (ingestCoder w i).row := by
  have hrecord : ∀ result outcome concerns m, Ingested i (recordCoder i result outcome concerns m) :=
    fun _ _ _ _ => ⟨rfl, rfl, rfl, rfl⟩
  unfold ingestCoder
  split
  · exact ⟨rfl, rfl, rfl, rfl⟩
  · split
    · exact ⟨rfl, rfl, rfl, rfl⟩
    · split
      · exact ⟨rfl, rfl, rfl, rfl⟩
      · dsimp only
        split
        · unfold ingestFailedCoder
          dsimp only
          split
          · split
            · unfold redispatchFixCoder
              split <;> exact ⟨rfl, rfl, rfl, rfl⟩
            · exact ⟨rfl, rfl, rfl, rfl⟩
          · split
            · exact hrecord ..
            · split <;> exact hrecord ..
        · exact hrecord ..

/-- What advice on an issue keeps: its place, its merge status and its debt; a criterion it drops is
debt. -/
structure Advised (i j : Issue) : Prop where
  issueKey : j.issueKey = i.issueKey
  mergeStatus : j.mergeStatus = i.mergeStatus
  items : ∀ x ∈ i.debtItems, x ∈ j.debtItems
  criteria : ∀ c ∈ i.acceptanceCriteria, c ∈ j.acceptanceCriteria ∨ .droppedCriterion c ∈ j.debtItems
  resolution : j.resolution = none ∨ j.coded = true ∨
    j.outcome = i.outcome ∧ j.resolution ≠ some .approved ∧ j.resolution ≠ some .completedWithDebt

theorem Advised.of_same {i j : Issue} (hf : i.failed = true) (hk : j.issueKey = i.issueKey)
    (hm : j.mergeStatus = i.mergeStatus) (hd : j.debtItems = i.debtItems)
    (hc : j.acceptanceCriteria = i.acceptanceCriteria) (ho : j.outcome = i.outcome)
    (hr : j.resolution = i.resolution) : Advised i j := by
  refine ⟨hk, hm, fun x hx => hd ▸ hx, fun c hc' => .inl (hc ▸ hc'), .inr (.inr ⟨ho, ?_⟩)⟩
  rw [hr, failed_iff.mp hf]
  simp

theorem retryIssue_advised {w : World} {i : Issue} (out : AdvisorOutput) : Advised i (retryIssue w i out) := by
  have hitems : ∀ x ∈ i.debtItems, x ∈ (retryIssue w i out).debtItems := by
    intro x hx
    unfold retryIssue
    dsimp only
    split <;> exact List.mem_append_left _ hx
  have hcriteria : ∀ c ∈ i.acceptanceCriteria, c ∈ (retryIssue w i out).acceptanceCriteria ∨
      .droppedCriterion c ∈ (retryIssue w i out).debtItems := by
    intro c hc
    unfold retryIssue
    dsimp only
    generalize (if out.action = .retryModified then out.dropCriteria else []) = dropped
    rcases em (c ∈ dropped) with hdrop | hdrop
    · right
      split <;> exact List.mem_append_right _ (List.mem_map_of_mem hdrop)
    · left
      split <;> exact List.mem_filter.mpr ⟨hc, by simpa using hdrop⟩
  refine ⟨?_, ?_, hitems, hcriteria, ?_⟩
  all_goals
    unfold retryIssue
    dsimp only
    split
  · rfl
  · rfl
  · rfl
  · rfl
  · exact .inl rfl
  · exact .inr (.inr ⟨rfl, by simp [setResolution], by simp [setResolution]⟩)

theorem followAdvice_advised {w : World} {taken : List String} {i : Issue} (hf : i.failed = true)
    (out : AdvisorOutput) : Advised i (followAdvice w taken i out).row := by
  unfold followAdvice
  dsimp only
  split
  · split
    · exact .of_same hf rfl rfl rfl rfl rfl rfl
    · exact ⟨rfl, rfl, fun x hx => List.mem_append_left _ hx, fun c hc => .inl hc, .inr (.inl rfl)⟩
  · exact .of_same hf rfl rfl rfl rfl rfl rfl
  · unfold splitIssue
    dsimp only
    split
    · exact .of_same hf rfl rfl rfl rfl rfl rfl
    · exact ⟨rfl, rfl, fun _ hx => hx, fun c hc => .inl hc, .inr (.inr ⟨rfl, by simp, by simp⟩)⟩
  all_goals
    have h := retryIssue_advised (w := w) (i := { i with
      advisorInvocations := i.advisorInvocations + 1
      lastAdvisorAction := some out.action }) out
    exact ⟨h.issueKey, h.mergeStatus, h.items, h.criteria, h.resolution⟩

theorem sendAdvisor_advised {w : World} {i : Issue} (hf : i.failed = true) (cut : Bool) :
    Advised i (sendAdvisor w i cut).row := by
  unfold sendAdvisor
  split <;> exact .of_same hf rfl rfl rfl rfl rfl rfl

theorem adviseIssue_advised {w : World} {taken : List String} {i : Issue} (hf : i.failed = true) :
    Advised i (adviseIssue w taken i).row := by
  have hsame : Advised i i := .of_same hf rfl rfl rfl rfl rfl rfl
  unfold adviseIssue
  split
  · exact hsame
  · split
    · next run _ =>
      split
      · exact hsame
      · split
        · exact hsame
        · unfold ingestAdvisor
          dsimp only
          split
          · have h := sendAdvisor_advised (w := w) (i := i.consume run) hf
            exact ⟨(h _).issueKey, (h _).mergeStatus, (h _).items, (h _).criteria, (h _).resolution⟩
          · have h := @followAdvice_advised w taken (i.consume run) hf
            exact ⟨(h _).issueKey, (h _).mergeStatus, (h _).items, (h _).criteria, (h _).resolution⟩
    · split
      · exact sendAdvisor_advised hf _
      · exact .of_same hf rfl rfl rfl rfl rfl rfl

/-- Across a write, a closed issue stays closed. -/
def Closes (b : Bool) (i j : Issue) : Prop := j.issueKey = i.issueKey ∧ (Closed b i → Closed b j)

theorem move_closes {i j : Issue} (h : Move b i j) : Closes b i j := by
  cases h with
  | worktree =>
    refine ⟨rfl, fun hc => ⟨hc.ended, hc.accepted, fun s hs => ?_⟩⟩
    have hm := hc.merged s hs
    rw [mergeable, Bool.and_eq_true] at hm
    exact Bool.and_eq_true_iff.mpr ⟨rfl, hm.2⟩
  | dispatched w hu =>
    refine ⟨(dispatchCoder_kept w i).issueKey, fun hc => ?_⟩
    obtain ⟨hr, hs⟩ := hc.is_open (not_coded_of_undispatched hu)
    unfold dispatchCoder
    split <;> exact .of_open hr hs
  | marked hb hf hr =>
    refine ⟨rfl, fun hc => ⟨fun _ => .inr hf, by simp, fun s hs => ?_⟩⟩
    have hcoded := hc.mergeable_coded (hc.merged s hs)
    rw [coderFailed, decide_eq_true_eq] at hf
    simp [coded, hf] at hcoded
  | reviewed w hb hn =>
    have hr := Reviewed.reviewIssue w i
    rw [needsReview, Bool.and_eq_true, Option.isNone_iff_eq_none] at hn
    refine ⟨hr.issueKey, fun hc => ⟨fun _ => .inl (hr.coded hn.1), fun _ => hr.coded hn.1, fun s hs => ?_⟩⟩
    rw [hr.mergeStatus, hc.unmerged (by simp [mergeable, hb, hn.2])] at hs
    cases hs
  | advised w taken hb hf =>
    have ha := @adviseIssue_advised w taken _ hf
    refine ⟨ha.issueKey, fun hc => ?_⟩
    have hunmerged : (adviseIssue w taken i).row.mergeStatus = none := by
      rw [ha.mergeStatus]
      exact hc.unmerged (by simp [mergeable, hb, failed_iff.mp hf])
    rcases ha.resolution with hr | hcoded | ⟨ho, hna, hnd⟩
    · exact .of_open hr hunmerged
    · exact ⟨fun _ => .inl hcoded, fun _ => hcoded, by simp [hunmerged]⟩
    · have hended := hc.ended (by rw [failed_iff.mp hf]; rfl)
      refine ⟨fun _ => ?_, fun h => (h.elim hna hnd).elim, by simp [hunmerged]⟩
      simpa [coded, coderFailed, ho] using hended
  | skipped hb hf =>
    refine ⟨rfl, fun hc => ⟨fun _ => hc.ended (by rw [failed_iff.mp hf]; rfl), by simp [skipIssue], ?_⟩⟩
    have : i.mergeStatus = none := hc.unmerged (by simp [mergeable, hb, failed_iff.mp hf])
    simp [skipIssue, this]
  | emptied m => exact ⟨rfl, fun hc => ⟨hc.ended, hc.accepted, hc.merged⟩⟩
  | merged s hm => exact ⟨rfl, fun hc => ⟨hc.ended, hc.accepted, fun _ _ => hm⟩⟩

theorem across_closes : Across b (Closes b) where
  refl := fun _ => ⟨rfl, id⟩
  trans := fun h h' => ⟨h'.1.trans h.1, h'.2 ∘ h.2⟩
  key := fun h => h.1
  move := move_closes

theorem ingestCoder_closes {i : Issue} (w : World) (hrun : i.running = true) :
    Closes b i (ingestCoder w i).row := by
  have h := ingestCoder_ingested w i
  refine ⟨h.issueKey, fun hc => ?_⟩
  obtain ⟨hr, hs⟩ := hc.is_open (not_coded_of_running hrun)
  exact .of_open (h.resolution.trans hr) (h.mergeStatus.trans hs)

theorem step_closes (hd : Proper b d) (a : Action) : Rowwise b (Closes b) d (step d a) :=
  step_rows across_closes hd (fun w _ _ _ _ _ _ hrun => ingestCoder_closes w hrun)
    (fun _ _ _ => ⟨rfl, fun hc => ⟨hc.ended, hc.accepted, hc.merged⟩⟩)
    fun _ _ _ _ _ _ => ⟨rfl, fun _ => .of_open rfl rfl⟩

/-- The rows after an action are closed if those before it are. -/
theorem Rowwise.closed (h : Rowwise b (Closes b) d d') (hc : ∀ i ∈ d.issues, Closed b i) :
    ∀ j ∈ d'.issues, Closed b j := by
  intro j hj
  obtain ⟨n, hn⟩ := List.mem_iff_getElem?.mp hj
  cases hi : d.issues[n]? with
  | none =>
    obtain ⟨x, ⟨-, parent, m, rfl⟩, hxj⟩ := h.added n j hn hi
    exact hxj.2 (.of_open rfl rfl)
  | some i =>
    obtain ⟨j', hj', hij⟩ := h.rows n i hi
    obtain rfl : j' = j := Option.some.inj (hj'.symm.trans hn)
    exact hij.2 (hc i (List.mem_of_getElem? hi))

/-- What holds in every state of a run. -/
theorem run_closed (hd : Proper b d) (hc : ∀ i ∈ d.issues, Closed b i) (actions : List Action) :
    Proper b (run d actions) ∧ ∀ i ∈ (run d actions).issues, Closed b i := by
  induction actions generalizing d with
  | nil => exact ⟨hd, hc⟩
  | cons a as ih =>
    have h := step_closes hd a
    exact ih h.proper (h.closed hc)

theorem fanOutDag_closed {auto : Bool} {plan : SprintPlan} (h : fanOutDag b auto plan = some d) :
    Proper b d ∧ ∀ i ∈ d.issues, Closed b i := by
  have huntouched := fanOutDag_untouched h
  refine ⟨⟨(fanOutDag_good h).keys, ?_⟩, fun i hi => ?_⟩
  · rw [fanOutDag, Option.map_eq_some_iff] at h
    obtain ⟨issues, -, rfl⟩ := h
    rfl
  · exact .of_open (huntouched i hi).1.resolution (huntouched i hi).1.mergeStatus

end Dag

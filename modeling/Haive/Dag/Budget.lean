import Haive.Dag.Stays

/-!
# What an issue may still cost

Every run that the executor sends for an issue is paid for by one of its counters.
`stage` is what is left of the current round (the coder, its reviewer, the advisor),
and `potential` adds the rounds that the counters still allow: an advisor's retry
starts the round again and costs one of `advisorInvocations`, a reviewer's
`fix_required` sends a coder and a reviewer again and costs one of `innerIteration`,
a restarted review one of `reviewInfraRetries`. `Spends` says of a turn that the
runs it sends are covered by what it takes from the potential, up to the price of a
fresh issue for each row that it adds.

This is about runs that answer: one that was preempted, killed or cut off is sent
again without a charge, or against the retry budgets for the infrastructure.
-/

namespace Dag

open Lib Issue

/-- The run ended by itself, with something to parse. -/
structure Answered (inv : Invocation) : Prop where
  answered : inv.runNeverAnswered = false
  finished : inv.failureClass ≠ .transient
  whole : inv.failureClass ≠ .truncated

namespace Issue

/-- What keeps the budget of an issue meaningful. -/
structure Sound (i : Issue) : Prop where
  key : i.issueKey.length ≤ maxKeyLength
  answers : ∀ inv ∈ i.invocations, inv.runIsLive = true ∨ Answered inv
  advisor : i.advised = true → i.advisorInvocations < maxAdvisorInvocations
  resolved : i.resolution.isSome = true → i.coded = true ∨ i.coderFailed = true

/-- What is left of a review, by its last run. -/
def reviewStage (i : Issue) : Nat :=
  match i.latest with
  | none => 3
  | some run => if run.consumed || run.role = .reviewer then 2 else 3

/-- What is left of the current round. -/
def stage (i : Issue) : Nat :=
  match i.resolution with
  | some .failedUnrecoverable => if i.advised then 0 else 1
  | some _ => 0
  | none =>
    match i.outcome with
    | .pending => 5
    | .running => 4
    | .failedUnrecoverable => 1
    | .completed | .completedWithDebt => i.reviewStage

/-- The runs the issue may still cost. -/
def potential (i : Issue) : Nat :=
  i.stage + 6 * (maxAdvisorInvocations - i.advisorInvocations) +
    2 * (maxReviewIters - i.innerIteration) + (dagMaxInfraRetries - i.reviewInfraRetries)

/-- The runs the issue has cost, and those it may still cost. -/
def cost (i : Issue) : Nat := i.potential + i.invocations.length

end Issue

namespace Issue

/-- The cost of an issue without its current round. -/
def base (i : Issue) : Nat :=
  6 * (maxAdvisorInvocations - i.advisorInvocations) + 2 * (maxReviewIters - i.innerIteration) +
    (dagMaxInfraRetries - i.reviewInfraRetries) + i.invocations.length

theorem cost_eq (i : Issue) : i.cost = i.stage + i.base := by
  rw [cost, potential, base]
  omega

end Issue

def freshPrice : Nat := 29

/-! ## The round of an issue -/

section Runs

variable {i : Issue} {run : AgentRun} {role : Role} {n : Nat} {b : Bool}

@[simp] theorem latest_spawn : (i.spawn role n b).latest =
    some { role, iteration := n, cliInvocationId := i.invocations.length } := by
  simp [latest, spawn]

@[simp] theorem reviewStage_spawn : (i.spawn role n b).reviewStage = if role = .reviewer then 2 else 3 := by
  simp [reviewStage]

@[simp] theorem base_spawn : (i.spawn role n b).base = i.base + 1 := by
  simp [base, spawn, invoke]
  omega

@[simp] theorem base_consume : (i.consume run).base = i.base := rfl

@[simp] theorem base_setResolution (r : Resolution) (m : Option String) : (i.setResolution r m).base = i.base :=
  rfl

@[simp] theorem base_acceptWithDebt (items : List Debt) : (i.acceptWithDebt items).base = i.base := rfl

@[simp] theorem base_keep (v : ReviewerOutput) : (i.keep v).base = i.base := by
  unfold keep
  split <;> rfl

theorem stage_failed (h : i.resolution = some .failedUnrecoverable) : i.stage ≤ 1 := by
  rw [stage, h]
  dsimp only
  split <;> omega

theorem stage_settled {r : Resolution} (h : i.resolution = some r) (hr : r ≠ .failedUnrecoverable) :
    i.stage = 0 := by
  rw [stage, h]
  cases r <;> simp_all

theorem stage_open (h : i.resolution = none) (hc : i.coded = true) : i.stage = i.reviewStage := by
  rw [stage, h]
  rcases coded_iff.mp hc with ho | ho <;> simp [ho]

theorem two_le_reviewStage : 2 ≤ i.reviewStage := by
  unfold reviewStage
  split
  · omega
  · split <;> omega

/-- What a coder that ended leaves to be done is at most a whole review. -/
theorem stage_coded (h : i.coded = true ∨ i.coderFailed = true) : i.stage ≤ 3 := by
  have hreview : i.reviewStage ≤ 3 := by
    unfold reviewStage
    split
    · omega
    · split <;> omega
  unfold stage
  split
  · split <;> omega
  · omega
  · rcases h with h | h
    · rcases coded_iff.mp h with ho | ho <;> simpa [ho] using hreview
    · have ho : i.outcome = .failedUnrecoverable := by simpa [coderFailed] using h
      simp [ho]

end Runs

/-! ## The review -/

section Review

variable {w : World} {i : Issue}

theorem failed_cost (i : Issue) (m : Option String) :
    (i.setResolution .failedUnrecoverable m).cost ≤ 1 + i.base := by
  have := @stage_failed (i.setResolution .failedUnrecoverable m) rfl
  rw [cost_eq, base_setResolution]
  omega

theorem approved_cost (i : Issue) (m : Option String) : (i.setResolution .approved m).cost = i.base := by
  rw [cost_eq, stage_settled rfl (by simp), base_setResolution, Nat.zero_add]

theorem acceptWithDebt_cost (i : Issue) (items : List Debt) : (i.acceptWithDebt items).cost = i.base := by
  rw [cost_eq, stage_settled rfl (by simp), base_acceptWithDebt, Nat.zero_add]

theorem spawn_cost {role : Role} (hc : i.coded = true) (hr : i.resolution = none) (n : Nat) (b : Bool) :
    (i.spawn role n b).cost = (if role = .reviewer then 2 else 3) + i.base + 1 := by
  have hopen : (i.spawn role n b).stage = (i.spawn role n b).reviewStage := stage_open hr hc
  rw [cost_eq, hopen, reviewStage_spawn, base_spawn, Nat.add_assoc]

/-- A reviewer costs the round its two last parts. -/
theorem sendReviewer_cost (hc : i.coded = true) (hr : i.resolution = none) (n : Nat) (b : Bool)
    (m : Option String) : (i.sendReviewer w n b m).cost ≤ 3 + i.base := by
  unfold sendReviewer
  split
  · rw [spawn_cost hc hr, if_pos rfl]
    omega
  · have := failed_cost i m
    omega

theorem ingestFixRequired_cost (hc : i.coded = true) (hr : i.resolution = none) (v : ReviewerOutput) :
    (ingestFixRequired w i v).cost ≤ 2 + i.base := by
  unfold ingestFixRequired
  dsimp only
  split
  · rw [acceptWithDebt_cost, base_keep]
    simp only [base]
    omega
  · split
    · refine (failed_cost _ _).trans ?_
      simp only [base]
      omega
    · next hiter =>
      -- The round after this one is paid by `innerIteration`, which is below its bound here.
      have hlt : i.innerIteration + 1 < 5 := Nat.not_le.mp hiter
      split
      · refine (spawn_cost ?_ ?_ _ _).le.trans ?_
        · exact hc
        · exact hr
        · simp only [reduceCtorEq, if_false, base, maxReviewIters]
          omega
      · refine (failed_cost _ _).trans ?_
        simp only [base]
        omega

theorem ingestVerdict_cost (hc : i.coded = true) (hr : i.resolution = none) (v : ReviewerOutput) :
    (ingestVerdict w i v).cost ≤ 2 + i.base := by
  unfold ingestVerdict
  split
  · rw [approved_cost, base_keep]
    omega
  · have := failed_cost (i.keep v) none
    rw [base_keep] at this
    omega
  · split
    · split
      · rw [approved_cost, base_keep]
        omega
      · rw [acceptWithDebt_cost, base_keep]
        omega
    · exact ingestFixRequired_cost hc hr v

theorem ingestReviewer_cost (hc : i.coded = true) (hr : i.resolution = none) {inv : Invocation}
    (hinv : Answered inv) : (ingestReviewer w i inv).cost ≤ 2 + i.base := by
  unfold ingestReviewer
  split
  · unfold ingestNoVerdict
    simp only [hinv.finished, hinv.whole, decide_false, Bool.false_and, Bool.false_eq_true, if_false]
    exact (failed_cost _ _).trans (by omega)
  · exact ingestVerdict_cost hc hr _

theorem ingestReviewRun_cost (hc : i.coded = true) (hr : i.resolution = none) {run : AgentRun}
    {inv : Invocation} (hinv : Answered inv) :
    (ingestReviewRun w i run inv).cost ≤ (if run.role = .reviewer then 2 else 3) + i.base := by
  have hfailed : ∀ m, ((i.consume run).setResolution .failedUnrecoverable m).cost ≤
      (if run.role = .reviewer then 2 else 3) + i.base := by
    intro m
    have := failed_cost (i.consume run) m
    rw [base_consume] at this
    split <;> omega
  unfold ingestReviewRun
  simp only [hinv.answered, hinv.whole, decide_false, Bool.and_false, Bool.false_and, Bool.or_false,
    Bool.false_eq_true, if_false]
  split
  · exact hfailed _
  · split
    · exact ingestReviewer_cost (i := i.consume run) hc hr hinv
    · exact sendReviewer_cost (i := i.consume run) hc hr ..

/-- One step of the review costs nothing: the runs it sends come off the round or the budgets. -/
theorem reviewIssue_cost (hsound : Sound i) (hneeds : i.needsReview = true) :
    (reviewIssue w i).cost ≤ i.cost := by
  rw [needsReview, Bool.and_eq_true, Option.isNone_iff_eq_none] at hneeds
  obtain ⟨hc, hr⟩ := hneeds
  have htwo := @two_le_reviewStage i
  rw [cost_eq i, stage_open hr hc]
  unfold reviewIssue
  split
  · next hlatest =>
    have : i.reviewStage = 3 := by simp [reviewStage, hlatest]
    rw [this]
    exact sendReviewer_cost hc hr ..
  · next run hlatest =>
    split
    · unfold restartReview
      split
      · next hretries =>
        have hlt : i.reviewInfraRetries < 2 := hretries
        refine (sendReviewer_cost (i := { i with reviewInfraRetries := i.reviewInfraRetries + 1 }) hc hr ..).trans ?_
        simp only [base, dagMaxInfraRetries]
        omega
      · exact (failed_cost _ _).trans (by omega)
    · next hconsumed =>
      have hstage : i.reviewStage = if run.role = .reviewer then 2 else 3 := by
        simp [reviewStage, hlatest, Bool.not_eq_true _ ▸ hconsumed]
      split
      · rw [cost_eq, stage_open hr hc]
      · next inv hinv =>
        split
        · rw [cost_eq, stage_open hr hc]
        · next hlive =>
          rw [hstage]
          refine ingestReviewRun_cost hc hr ?_
          exact (hsound.answers inv (List.mem_of_getElem? hinv)).resolve_left hlive

theorem Issue.Reviewed.sound {j : Issue} (h : Reviewed i j) (hsound : Sound i) (hc : i.coded = true) : Sound j where
  key := h.issueKey ▸ hsound.key
  answers := fun inv hj => (h.invocations inv hj).elim (hsound.answers inv) .inl
  advisor := fun ha => h.advisorInvocations ▸ hsound.advisor (h.advised ha)
  resolved := fun _ => .inl (h.coded hc)

end Review

/-! ## The coder -/

section Coder

variable {i : Issue} {w : World}

/-- A write to an issue that its cost covers. -/
structure Spends (i j : Issue) : Prop where
  sound : Sound j
  cost : j.cost ≤ i.cost

theorem Spends.refl (h : Sound i) : Spends i i := ⟨h, le_rfl⟩

theorem Issue.Sound.open_of_outcome (h : Sound i) (ho : i.outcome = .pending ∨ i.outcome = .running) :
    i.resolution = none := by
  cases hr : i.resolution with
  | none => rfl
  | some r =>
    rcases h.resolved (by simp [hr]) with hc | hf
    · rcases coded_iff.mp hc with hc | hc <;> rcases ho with ho | ho <;> simp [ho] at hc
    · rcases ho with ho | ho <;> simp [coderFailed, ho] at hf

theorem stage_running {j : Issue} (hr : j.resolution = none) (ho : j.outcome = .running) : j.stage = 4 := by
  simp [stage, hr, ho]

/-- A claim puts a dispatched issue where its coder has still to answer. -/
theorem dispatchCoder_spends (h : Sound i) (hu : i.undispatched = true) :
    Spends i (dispatchCoder w i).row := by
  rw [undispatched, Bool.and_eq_true, decide_eq_true_eq] at hu
  have hr := h.open_of_outcome (.inl hu.1)
  have hstage : i.stage = 5 := by simp [stage, hr, hu.1]
  unfold dispatchCoder
  split
  · refine ⟨⟨h.key, ?_, h.advisor, fun hres => ?_⟩, ?_⟩
    · intro inv hinv
      rcases List.mem_append.mp hinv with hinv | hinv
      · exact h.answers inv hinv
      · rw [List.mem_singleton.mp hinv]
        exact .inl rfl
    · rw [show (Issue.claim (i.invoke _) _).resolution = i.resolution from rfl, hr] at hres
      simp at hres
    · have hclaimed : ∀ b, ((i.invoke b).claim i.invocations.length).stage = 4 := fun b =>
        stage_running hr rfl
      have hbase : ∀ b, ((i.invoke b).claim i.invocations.length).base = i.base + 1 := fun b => by
        simp only [base, claim, invoke, List.length_append, List.length_singleton]
        omega
      dsimp only
      rw [cost_eq, cost_eq, hstage, hclaimed, hbase]
      omega
  · refine ⟨⟨h.key, h.answers, h.advisor, fun _ => .inr rfl⟩, ?_⟩
    rw [cost_eq, cost_eq, hstage]
    have := @stage_coded { i with
      outcome := .failedUnrecoverable
      errorMessage := some s!"no cli provider available: {w.skipReason}" } (.inr rfl)
    simp only [base] at *
    omega

theorem recordCoder_spends (h : Sound i) (hrun : i.running = true) {result : ParsedCoder} {outcome : Outcome}
    {concerns : String} {m : Option String} (ho : outcome ≠ .pending ∧ outcome ≠ .running) :
    Spends i (recordCoder i result outcome concerns m) := by
  have hended : (recordCoder i result outcome concerns m).coded = true ∨
      (recordCoder i result outcome concerns m).coderFailed = true := by
    cases outcome <;> simp_all [recordCoder, coded, coderFailed]
  rw [running, decide_eq_true_eq] at hrun
  refine ⟨⟨h.key, h.answers, h.advisor, fun _ => hended⟩, ?_⟩
  have hstage := stage_coded hended
  have hbase : (recordCoder i result outcome concerns m).base = i.base := rfl
  rw [cost_eq, cost_eq, stage_running (h.open_of_outcome (.inr hrun)) hrun]
  omega

theorem parseCoderResult_outcome (inv : Invocation) :
    (parseCoderResult inv).outcome ≠ .pending ∧ (parseCoderResult inv).outcome ≠ .running := by
  unfold parseCoderResult
  split
  · next result _ => cases hr : result.outcome <;> simp [CoderOutcome.toOutcome]
  · simp

/-- An answer of the coder is final: it is not sent again. -/
theorem ingestFailedCoder_spends (h : Sound i) (hrun : i.running = true) {inv : Invocation}
    (hinv : Answered inv) (id : Nat) (result : ParsedCoder) :
    Spends i (ingestFailedCoder w i id inv result) := by
  unfold ingestFailedCoder
  simp only [hinv.finished, hinv.whole, decide_false, Bool.false_and, Bool.or_false, Bool.false_eq_true,
    if_false]
  split
  · exact recordCoder_spends h hrun (by simp)
  · exact recordCoder_spends h hrun (by simp)

theorem ingestCoder_spends (h : Sound i) (hrun : i.running = true) : Spends i (ingestCoder w i).row := by
  unfold ingestCoder
  split
  · exact .refl h
  · split
    · exact .refl h
    · next inv hmem =>
      split
      · exact .refl h
      · next hlive =>
        dsimp only
        split
        · exact ingestFailedCoder_spends h hrun
            ((h.answers inv (List.mem_of_getElem? hmem)).resolve_left hlive) _ _
        · exact recordCoder_spends h hrun (parseCoderResult_outcome inv)

theorem reviewIssue_spends (h : Sound i) (hneeds : i.needsReview = true) : Spends i (reviewIssue w i) := by
  refine ⟨(Reviewed.reviewIssue w i).sound h ?_, reviewIssue_cost h hneeds⟩
  rw [needsReview, Bool.and_eq_true] at hneeds
  exact hneeds.1

end Coder

/-! ## The advisor -/

section Advisor

variable {i : Issue} {w : World} {taken : List String}

/-- What goes in is as the insert asks for it. -/
theorem insertSubs_key {is : List Issue} :
    ∀ x ∈ (insertSubs taken is).1, x.issueKey.length ≤ maxKeyLength := by
  induction is generalizing taken with
  | nil => simp [insertSubs]
  | cons i is ih =>
    rw [insertSubs]
    split
    · next hins =>
      simp only [insertable, Bool.and_eq_true, decide_eq_true_eq] at hins
      rintro x (_ | ⟨_, hx⟩)
      · exact hins.1.1
      · exact ih x hx
    · simp

theorem insertSubs_keys {is : List Issue} (hnodup : taken.Nodup) :
    (taken ++ (insertSubs taken is).1.map (·.issueKey)).Nodup := by
  induction is generalizing taken with
  | nil => simpa [insertSubs] using hnodup
  | cons i is ih =>
    rw [insertSubs]
    split
    · next hins =>
      simp only [insertable, Bool.and_eq_true, decide_eq_true_eq] at hins
      have hfresh : (taken ++ [i.issueKey]).Nodup := by
        rw [List.nodup_append_comm]
        exact List.nodup_cons.mpr ⟨hins.1.2, hnodup⟩
      simpa using ih hfresh
    · simpa using hnodup

/-- A row as a split inserts it. -/
structure Fresh (x : Issue) : Prop where
  key : x.issueKey.length ≤ maxKeyLength
  sub : ∃ parent n, x = subIssue parent n

theorem Fresh.sound {x : Issue} (h : Fresh x) : Sound x := by
  obtain ⟨hkey, parent, n, rfl⟩ := h
  exact ⟨hkey, by simp [subIssue], by simp [subIssue, advised, latestAdvisor], by simp [subIssue]⟩

theorem Fresh.cost {x : Issue} (h : Fresh x) : x.cost = freshPrice := by
  obtain ⟨-, parent, n, rfl⟩ := h
  rfl

structure AddsFresh (taken : List String) (t : IssueTurn) : Prop where
  fresh : ∀ x ∈ t.added, Fresh x
  keys : taken.Nodup → (taken ++ t.added.map (·.issueKey)).Nodup

theorem AddsFresh.of_nil {t : IssueTurn} (h : t.added = []) : AddsFresh taken t :=
  ⟨by simp [h], by simp [h]⟩

theorem splitIssue_fresh (taken : List String) (i : Issue) (out : AdvisorOutput) :
    AddsFresh taken (splitIssue taken i out) := by
  have h : ∀ (t : IssueTurn) n,
      t.added = (insertSubs taken ((List.range n).map fun m => subIssue i (m + 1))).1 →
        AddsFresh taken t := by
    refine fun t n ht => ⟨fun x hx => ?_, fun hnodup => ht ▸ insertSubs_keys hnodup⟩
    rw [ht] at hx
    have hkey := insertSubs_key x hx
    obtain ⟨m, -, rfl⟩ := List.mem_map.mp (mem_insertSubs x hx)
    exact ⟨hkey, i, m + 1, rfl⟩
  unfold splitIssue
  dsimp only
  split
  · exact h _ _ rfl
  · exact h _ _ rfl

theorem followAdvice_fresh (w : World) (taken : List String) (i : Issue) (out : AdvisorOutput) :
    AddsFresh taken (followAdvice w taken i out) := by
  unfold followAdvice
  dsimp only
  split
  · split <;> exact .of_nil rfl
  · exact .of_nil rfl
  · exact splitIssue_fresh ..
  · exact .of_nil rfl
  · exact .of_nil rfl

theorem sendAdvisor_added (w : World) (i : Issue) (b : Bool) : (sendAdvisor w i b).added = [] := by
  unfold sendAdvisor
  split <;> rfl

theorem adviseIssue_fresh (w : World) (taken : List String) (i : Issue) :
    AddsFresh taken (adviseIssue w taken i) := by
  unfold adviseIssue
  split
  · exact .of_nil rfl
  · split
    · split
      · exact .of_nil rfl
      · split
        · exact .of_nil rfl
        · unfold ingestAdvisor
          dsimp only
          split
          · exact .of_nil (sendAdvisor_added ..)
          · exact followAdvice_fresh ..
    · split
      · exact .of_nil (sendAdvisor_added ..)
      · exact .of_nil rfl

theorem failed_iff : i.failed = true ↔ i.resolution = some .failedUnrecoverable := decide_eq_true_iff

theorem Issue.Sound.ended (h : Sound i) (hf : i.failed = true) : i.coded = true ∨ i.coderFailed = true :=
  h.resolved (by rw [failed_iff.mp hf]; rfl)

/-- A failed issue without an advisor in flight has one part of its round left. -/
theorem stage_unadvised (hf : i.failed = true) (ha : i.advised = false) : i.stage = 1 := by
  simp [stage, failed_iff.mp hf, ha]

theorem escalateIssueToReplan_spends (h : Sound i) (hf : i.failed = true) (ha : i.advised = false)
    (reason : String) : Spends i (escalateIssueToReplan i reason) :=
  ⟨⟨h.key, h.answers, h.advisor, h.resolved⟩, le_of_eq (by
    rw [cost_eq, cost_eq, stage_unadvised hf ha, stage_unadvised (i := escalateIssueToReplan i reason) hf ha]
    rfl)⟩

/-- Sending an advisor takes the last part of the round. -/
theorem sendAdvisor_spends (h : Sound i) (hf : i.failed = true) (ha : i.advised = false)
    (hleft : i.advisorInvocations < maxAdvisorInvocations) (b : Bool) :
    Spends i (sendAdvisor w i b).row := by
  unfold sendAdvisor
  split
  · refine ⟨⟨h.key, fun inv hinv => ?_, fun _ => hleft, h.resolved⟩, ?_⟩
    · rcases List.mem_append.mp hinv with hinv | hinv
      · exact h.answers inv hinv
      · rw [List.mem_singleton.mp hinv]
        exact .inl rfl
    · have hsent : (i.spawn .issueAdvisor i.advisorInvocations b).advised = true := by
        simp [advised, latestAdvisor, spawn]
      have hstage : (i.spawn .issueAdvisor i.advisorInvocations b).stage = 0 := by
        have : (i.spawn .issueAdvisor i.advisorInvocations b).resolution = some .failedUnrecoverable :=
          failed_iff.mp hf
        simp [stage, this, hsent]
      dsimp only
      rw [cost_eq, cost_eq, hstage, base_spawn, stage_unadvised hf ha]
      omega
  · exact escalateIssueToReplan_spends h hf ha _

/-- A retry starts the round again. -/
theorem retryIssue_spends (h : Sound i) (hf : i.failed = true) (out : AdvisorOutput) :
    Sound (retryIssue w i out) ∧ (retryIssue w i out).cost ≤ 5 + i.base := by
  have hended := h.ended hf
  unfold retryIssue
  dsimp only
  split
  · refine ⟨⟨h.key, fun inv hinv => ?_, fun hadv => ?_, fun hres => ?_⟩, ?_⟩
    · rcases List.mem_append.mp hinv with hinv | hinv
      · exact h.answers inv hinv
      · rw [List.mem_singleton.mp hinv]
        exact .inl rfl
    · refine h.advisor ?_
      rw [← hadv]
      simp [advised, latestAdvisor, claim, spawn, pushDebt]
    · exact absurd hres (by simp [claim, spawn, invoke])
    · rw [cost_eq, stage_running rfl rfl]
      simp only [base, claim, spawn, invoke, pushDebt, List.length_append, List.length_singleton]
      omega
  · refine ⟨⟨h.key, h.answers, h.advisor, fun _ => hended⟩, (failed_cost _ _).trans ?_⟩
    simp only [base, pushDebt]
    omega

/-- An advisor's answer costs one of its invocations, which is worth a whole round. -/
theorem followAdvice_spends (h : Sound i) (hf : i.failed = true) (ha : i.advised = false)
    (hleft : i.advisorInvocations < maxAdvisorInvocations) (out : AdvisorOutput) :
    Sound (followAdvice w taken i out).row ∧
      ((followAdvice w taken i out).thrown = none → (followAdvice w taken i out).row.cost ≤ i.base) := by
  obtain ⟨j, hj⟩ : ∃ j : Issue, j = { i with
      advisorInvocations := i.advisorInvocations + 1
      lastAdvisorAction := some out.action } := ⟨_, rfl⟩
  have hbase : 5 + j.base < i.base := by
    rw [hj]
    simp only [base, maxAdvisorInvocations] at hleft ⊢
    omega
  have hadvised : j.advised = false := by rw [hj]; exact ha
  have hfailed : j.failed = true := by rw [hj]; exact hf
  have hsound : Sound j := by
    rw [hj]
    exact ⟨h.key, h.answers, fun hadv => absurd hadv (by simpa [advised, latestAdvisor] using ha), h.resolved⟩
  have hcost : j.cost = 1 + j.base := by rw [cost_eq, stage_unadvised hfailed hadvised]
  have hsplit : ∀ t : IssueTurn, t = splitIssue taken j out →
      Sound t.row ∧ (t.thrown = none → t.row.cost ≤ i.base) := by
    rintro t rfl
    have hended := hsound.ended hfailed
    unfold splitIssue
    dsimp only
    split
    · exact ⟨hsound, fun hnone => by cases hnone⟩
    · refine ⟨⟨hsound.key, hsound.answers, hsound.advisor, fun _ => hended⟩, fun _ => ?_⟩
      have : ({ j with resolution := some .split } : Issue).base = j.base := rfl
      dsimp only
      rw [cost_eq, stage_settled rfl (by simp)]
      omega
  unfold followAdvice
  rw [← hj]
  dsimp only
  split
  · split
    · have hspends := escalateIssueToReplan_spends hsound hfailed hadvised
        "advisor attempted ACCEPT_WITH_DEBT without any reported implementation changes"
      exact ⟨hspends.sound, fun _ => hspends.cost.trans (by omega)⟩
    · refine ⟨⟨hsound.key, hsound.answers, hsound.advisor, fun _ => .inl rfl⟩, fun _ => ?_⟩
      rw [acceptWithDebt_cost]
      omega
  · exact ⟨hsound, fun _ => hcost.trans_le (by omega)⟩
  · exact hsplit _ rfl
  all_goals
    have hretry := retryIssue_spends (w := w) hsound hfailed out
    exact ⟨hretry.1, fun _ => hretry.2.trans (by omega)⟩

theorem advised_consume_self {run : AgentRun} (h : i.latestAdvisor = some run) :
    (i.consume run).advised = false := by
  simp [advised, latestAdvisor_consume, h]

/-- One issue of the middle loop. -/
theorem adviseIssue_spends (h : Sound i) (hf : i.failed = true) :
    Sound (adviseIssue w taken i).row ∧
      ((adviseIssue w taken i).thrown = none → (adviseIssue w taken i).row.cost ≤ i.cost) := by
  unfold adviseIssue
  split
  · exact ⟨h, fun _ => le_rfl⟩
  · split
    · next run hrun =>
      obtain ⟨hlatest, hunread⟩ := Option.filter_eq_some_iff.mp hrun
      have hadvised : i.advised = true := by simpa [advised, hlatest] using hunread
      split
      · exact ⟨h, fun _ => le_rfl⟩
      · next inv hinv =>
        split
        · exact ⟨h, fun _ => le_rfl⟩
        · next hlive =>
          have hanswer := (h.answers inv (List.mem_of_getElem? hinv)).resolve_left hlive
          have hread := advised_consume_self hlatest
          have hconsumed : Sound (i.consume run) :=
            ⟨h.key, h.answers, fun ha => absurd ha (by simp [hread]), h.resolved⟩
          unfold ingestAdvisor
          simp only [hanswer.answered, hanswer.whole, decide_false, Bool.false_and, Bool.or_false,
            Bool.false_eq_true, if_false]
          obtain ⟨hs, hc⟩ := @followAdvice_spends _ w taken hconsumed hf hread (h.advisor hadvised)
            (parseAdvisor inv)
          refine ⟨hs, fun ht => (hc ht).trans ?_⟩
          rw [base_consume, cost_eq]
          omega
    · next hnone =>
      have hunadvised : i.advised = false := by
        cases hl : i.latestAdvisor with
        | none => simp [advised, hl]
        | some run => simpa [advised, hl] using hnone
      split
      · next hleft =>
        have hsent := sendAdvisor_spends (w := w) h hf hunadvised hleft false
        exact ⟨hsent.sound, fun _ => hsent.cost⟩
      · have hescalated := escalateIssueToReplan_spends h hf hunadvised "advisor retry budget exhausted"
        exact ⟨hescalated.sound, fun _ => hescalated.cost⟩

end Advisor

end Dag

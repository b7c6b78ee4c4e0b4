import Haive.Dag.Budget
import Haive.Dag.Coverage
import Haive.Lib.Runs

/-!
# A run of the DAG sends finitely many agents

The budget of a whole run: what the issues and the replanner have cost and may still
cost, and the price of every issue that could still be inserted. The last part is
finite because a key fits `varchar(64)` and no two issues share one, so that even an
advisor that only ever splits runs out of keys. No stage adds to the budget, hence
no run sends more agents than the budget it starts with.
-/

namespace Dag

open Lib Issue

/-! ## The budget of the rows -/

/-- No set of distinct keys is larger. -/
def BoundsKeys (capacity : Nat) : Prop :=
  ∀ keys : List String, keys.Nodup → (∀ k ∈ keys, k.length ≤ maxKeyLength) → keys.length ≤ capacity

instance finiteChar : Finite Char := by
  have hinj : Function.Injective fun c : Char => c.val.toFin := by
    intro c d h
    exact Char.ext (UInt32.toFin_inj.mp h)
  exact Finite.of_injective _ hinj

theorem exists_boundsKeys : ∃ capacity, BoundsKeys capacity := by
  have hchars : {l : List Char | l.length ≤ maxKeyLength}.Finite := List.finite_length_le Char maxKeyLength
  have hkeys : {k : String | k.length ≤ maxKeyLength}.Finite := by
    refine (hchars.preimage (f := String.toList) ?_).subset ?_
    · exact fun a _ b _ h => String.toList_inj.mp h
    · intro k hk
      simpa [String.length_toList] using hk
  refine ⟨hkeys.toFinset.card, fun keys hnodup hlength => ?_⟩
  rw [← List.toFinset_card_of_nodup hnodup]
  refine Finset.card_le_card fun k hk => ?_
  exact hkeys.mem_toFinset.mpr (hlength k (List.mem_toFinset.mp hk))

/-- What keeps the budget of the rows meaningful. -/
structure Good (d : Rows) : Prop where
  issues : ∀ i ∈ d.issues, Sound i
  keys : d.keys.Nodup
  answers : ∀ inv ∈ d.plan.replanners, inv.runIsLive = true ∨ Answered inv
  replanner : d.plan.replannerInvocationId.isSome = true →
    d.plan.replannerInvocations < maxReplannerInvocations

/-- The replanners sent, and those that may still be. -/
def replanCost (plan : PlanRow) : Nat :=
  2 * (maxReplannerInvocations - plan.replannerInvocations) +
    (if plan.replannerInvocationId.isSome then 0 else 1) + plan.replanners.length

/-- The agents sent, and those that may still be. -/
def budget (capacity : Nat) (d : Rows) : Nat :=
  (d.issues.map (·.cost)).sum + freshPrice * (capacity - d.issues.length) + replanCost d.plan

/-- The agent runs sent for the issues, and the replanners. -/
def dispatched (d : Rows) : Nat := (d.issues.map (·.invocations.length)).sum + d.plan.replanners.length

theorem dispatched_le_budget (capacity : Nat) (d : Rows) : dispatched d ≤ budget capacity d := by
  have hsum : (d.issues.map (·.invocations.length)).sum ≤ (d.issues.map (·.cost)).sum := by
    refine List.sum_le_sum fun i _ => ?_
    rw [cost]
    exact Nat.le_add_left _ _
  unfold dispatched budget replanCost
  omega

theorem Good.length_le {capacity : Nat} (hcapacity : BoundsKeys capacity) {d : Rows} (h : Good d) :
    d.issues.length ≤ capacity := by
  have := hcapacity d.keys h.keys fun k hk => by
    obtain ⟨i, hi, rfl⟩ := List.mem_map.mp hk
    exact (h.issues i hi).key
  simpa [Rows.keys] using this

/-- A step that the budget covers. -/
structure Pays (capacity : Nat) (d d' : Rows) : Prop where
  good : Good d'
  budget : budget capacity d' ≤ budget capacity d

/-- A stage that the budget covers, unless it fails the step; then the rows are still good. -/
def Stage.Cheap (capacity : Nat) (s : Stage) : Prop :=
  ∀ d d' signal, Good d → s d = (d', signal) →
    Good d' ∧ ((∀ e, signal ≠ some (.failed e)) → Pays capacity d d')

section Stages

variable {capacity : Nat} {d d' d'' : Rows} {s t : Stage}

theorem Pays.refl (h : Good d) : Pays capacity d d := ⟨h, le_rfl⟩

theorem Pays.trans (h : Pays capacity d d') (h' : Pays capacity d' d'') : Pays capacity d d'' :=
  ⟨h'.good, h'.budget.trans h.budget⟩

theorem Pays.of_same (h : Good d) (hissues : d'.issues = d.issues) (hplan : d'.plan = d.plan) :
    Pays capacity d d' := by
  refine ⟨⟨hissues ▸ h.issues, ?_, hplan ▸ h.answers, hplan ▸ h.replanner⟩, ?_⟩
  · rw [Rows.keys, hissues]
    exact h.keys
  · rw [Dag.budget, Dag.budget, hissues, hplan]

theorem Stage.Cheap.of_pays (hs : ∀ d d' signal, Good d → s d = (d', signal) → Pays capacity d d') :
    s.Cheap capacity := fun d d' signal h heq =>
  have hpays := hs d d' signal h heq
  ⟨hpays.good, fun _ => hpays⟩

theorem Stage.Cheap.andThen (hs : s.Cheap capacity) (ht : t.Cheap capacity) :
    (s.andThen t).Cheap capacity := by
  intro d d' signal h heq
  rcases hsd : s d with ⟨d₁, _ | e⟩
  · rw [Stage.andThen_of_none hsd] at heq
    have h₁ := (hs d d₁ none h hsd).2 (by simp)
    obtain ⟨hgood, hpays⟩ := ht d₁ d' signal h₁.good heq
    exact ⟨hgood, fun hfailed => h₁.trans (hpays hfailed)⟩
  · rw [Stage.andThen_of_some hsd] at heq
    cases heq
    exact hs d _ _ h hsd

/-- A stage that leaves the rows. -/
theorem Stage.Cheap.of_fst (hs : ∀ d, (s d).1 = d) : s.Cheap capacity := by
  refine .of_pays fun d d' signal h heq => ?_
  have hsame : d' = d := by rw [← hs d, heq]
  rw [hsame]
  exact .refl h

/-- An update of issues that their costs cover. -/
theorem Pays.map {f : Issue → Issue} (h : Good d) (hkey : ∀ i, (f i).issueKey = i.issueKey)
    (hf : ∀ i ∈ d.issues, Spends i (f i)) : Pays capacity d { d with issues := d.issues.map f } := by
  refine ⟨⟨?_, ?_, h.answers, h.replanner⟩, ?_⟩
  · intro i hi
    obtain ⟨x, hx, rfl⟩ := List.mem_map.mp hi
    exact (hf x hx).sound
  · have : Rows.keys { d with issues := d.issues.map f } = d.keys := by
      simp only [Rows.keys, List.map_map]
      exact List.map_congr_left fun i _ => hkey i
    rw [this]
    exact h.keys
  · have hsum : ((d.issues.map f).map (·.cost)).sum ≤ (d.issues.map (·.cost)).sum := by
      rw [List.map_map]
      exact List.sum_le_sum fun i hi => (hf i hi).cost
    simp only [Dag.budget, List.length_map]
    omega

theorem map_cost_fresh {l : List Issue} (h : ∀ x ∈ l, x.cost = freshPrice) :
    (l.map (·.cost)).sum = freshPrice * l.length := by
  rw [List.map_congr_left h]
  simp [Nat.mul_comm]

/-- Distinct keys stay distinct when every row keeps its key and the rows added are fresh. -/
theorem map_key_of_forall₂ {l l' : List Issue}
    (h : List.Forall₂ (fun i j : Issue => j.issueKey = i.issueKey) l l') :
    l'.map (·.issueKey) = l.map (·.issueKey) := by
  induction h with
  | nil => rfl
  | cons hkey _ ih => rw [List.map_cons, List.map_cons, hkey, ih]

theorem Stage.Cheap.sweep (hcapacity : BoundsKeys capacity) {pick : Issue → Bool}
    {turn : List String → Issue → IssueTurn} {level : Nat} {after : Rows → List Note → Option Signal}
    (hkept : ∀ ks i, (turn ks i).row.issueKey = i.issueKey)
    (hfresh : ∀ ks i, AddsFresh ks (turn ks i))
    (hspends : ∀ ks i, Sound i → pick i = true →
      Sound (turn ks i).row ∧ ((turn ks i).thrown = none → (turn ks i).row.cost ≤ i.cost)) :
    (sweepStage pick turn level after).Cheap capacity := by
  intro d d' signal h heq
  have hkeys : (sweepLevel pick turn level d).rows.map (·.issueKey) = d.keys :=
    map_key_of_forall₂ (sweep_forall₂ (fun _ _ => rfl) fun ks i _ _ => hkept ks i)
  have hlength : (sweepLevel pick turn level d).rows.length = d.issues.length := by
    simpa [Rows.keys] using congrArg List.length hkeys
  have hrows : ∀ x ∈ (sweepLevel pick turn level d).rows, Sound x := by
    have hforall : List.Forall₂ (fun i j => Sound i → Sound j) d.issues
        (sweepLevel pick turn level d).rows :=
      sweep_forall₂ (fun _ _ hs => hs) fun ks i _ hp hs =>
        (hspends ks i hs (Bool.and_eq_true_iff.mp hp).2).1
    intro x hx
    obtain ⟨i, hi, hix⟩ := exists_of_forall₂ hforall x hx
    exact hix (h.issues i hi)
  have hadded : ∀ x ∈ (sweepLevel pick turn level d).added, Fresh x :=
    sweep_added fun ks i _ _ => (hfresh ks i).fresh
  have hnodup : (d.keys ++ (sweepLevel pick turn level d).added.map (·.issueKey)).Nodup :=
    sweep_keys h.keys fun ks i _ hks _ => (hfresh ks i).keys hks
  have hgood : Good (d.store (sweepLevel pick turn level d)) := by
    refine ⟨fun i hi => ?_, ?_, h.answers, h.replanner⟩
    · rcases List.mem_append.mp hi with hi | hi
      · exact hrows i hi
      · exact (hadded i hi).sound
    · rw [Rows.keys, Rows.store, List.map_append, hkeys]
      exact hnodup
  unfold sweepStage at heq
  dsimp only at heq
  split at heq
  · cases heq
    exact ⟨hgood, fun hfailed => absurd rfl (hfailed _)⟩
  next hthrown =>
  obtain ⟨rfl, -⟩ := Prod.mk.inj heq
  refine ⟨hgood, fun _ => ⟨hgood, ?_⟩⟩
  have hsum := @sweep_sum _ _ _ _ _ _ _ _ _ (·.cost) freshPrice hthrown fun ks i hi hp ht => by
    have hcost := (hspends ks i (h.issues i hi) (Bool.and_eq_true_iff.mp hp).2).2 ht
    rw [map_cost_fresh fun x hx => ((hfresh ks i).fresh x hx).cost]
    omega
  change (((sweepLevel pick turn level d).rows).map (·.cost)).sum +
      (((sweepLevel pick turn level d).added).map (·.cost)).sum ≤
    (d.issues.map (·.cost)).sum + freshPrice * (sweepLevel pick turn level d).added.length at hsum
  have hfits := hgood.length_le hcapacity
  simp only [Rows.store, List.length_append, hlength] at hfits
  simp only [Dag.budget, Rows.store, List.map_append, List.sum_append, List.length_append, hlength]
  have hprice : freshPrice * (capacity - d.issues.length) =
      freshPrice * (capacity - (d.issues.length + (sweepLevel pick turn level d).added.length)) +
        freshPrice * (sweepLevel pick turn level d).added.length := by
    rw [← Nat.mul_add]
    congr 1
    omega
  omega

theorem Stage.Cheap.ite {p : Rows → Prop} [∀ d, Decidable (p d)] (hs : s.Cheap capacity)
    (ht : t.Cheap capacity) : Stage.Cheap capacity fun d => if p d then s d else t d := by
  intro d d' signal h heq
  dsimp only at heq
  split at heq
  · exact hs d d' signal h heq
  · exact ht d d' signal h heq

theorem Stage.Cheap.ends (f : Rows → Option Signal) : Stage.Cheap capacity fun d => (d, f d) :=
  .of_fst fun _ => rfl

theorem Stage.Cheap.sweep_rows (hcapacity : BoundsKeys capacity) {pick : Issue → Bool}
    {turn : List String → Issue → IssueTurn} {level : Nat} {after : Rows → List Note → Option Signal}
    (hadded : ∀ ks i, (turn ks i).added = []) (hkept : ∀ ks i, (turn ks i).row.issueKey = i.issueKey)
    (hspends : ∀ ks i, Sound i → pick i = true → Spends i (turn ks i).row) :
    (sweepStage pick turn level after).Cheap capacity :=
  .sweep hcapacity hkept (fun ks i => .of_nil (hadded ks i)) fun ks i h hp =>
    ⟨(hspends ks i h hp).sound, fun _ => (hspends ks i h hp).cost⟩

theorem Pays.setLevel (h : Good d) (level : Nat) (f : Level → Level) : Pays capacity d (d.setLevel level f) :=
  .of_same h rfl rfl

/-- What the merge marks costs nothing. -/
theorem Pays.markMerge (h : Good d) (level : Nat) (key : String) (status : MergeStatus) :
    Pays capacity d (d.setIssue level key (markMerge status)) := by
  refine .map h (fun i => ?_) fun i hi => ?_
  · split <;> rfl
  · have hsound := h.issues i hi
    split
    · exact ⟨⟨hsound.key, hsound.answers, hsound.advisor, hsound.resolved⟩, le_rfl⟩
    · exact .refl hsound

end Stages

/-! ## The stages -/

section Level

variable {capacity : Nat} (hcapacity : BoundsKeys capacity) (w : World) (level : Nat)

include hcapacity in
theorem createWorktrees_cheap : (createWorktrees w level).Cheap capacity := by
  refine .ite (.ends _) (.sweep_rows hcapacity (fun _ i => ?_) (fun _ i => ?_) fun _ i h _ => ?_)
  · split <;> rfl
  · split <;> rfl
  · split
    · exact ⟨⟨h.key, h.answers, h.advisor, h.resolved⟩, le_rfl⟩
    · exact .refl h

include hcapacity in
theorem dispatchCoders_cheap : (dispatchCoders w level).Cheap capacity :=
  .ite (.ends _) (.sweep_rows hcapacity (fun _ i => dispatchCoder_added w i)
    (fun _ i => (dispatchCoder_kept w i).issueKey) fun _ _ h hu => dispatchCoder_spends h hu)

include hcapacity in
theorem ingestCoders_cheap : (ingestCoders w level).Cheap capacity :=
  .ite (.ends _) (.sweep_rows hcapacity (fun _ i => ingestCoder_added w i)
    (fun _ i => (ingestCoder_kept w i).issueKey) fun _ _ h hr => ingestCoder_spends h hr)

theorem halt_cheap (pick : Issue → Bool) : (haltForDagEnvironmentFailures level pick).Cheap capacity :=
  .of_fst (haltForDagEnvironmentFailures_fst level pick)

/-- A coder that failed and is not marked yet has one part of its round left, as it has marked. -/
theorem markCoderFailures_cheap : (markCoderFailures level).Cheap capacity := by
  refine .of_pays fun d d' signal h heq => ?_
  unfold markCoderFailures at heq
  dsimp only at heq
  split at heq
  · cases heq
    refine .map h (fun i => ?_) fun i hi => ?_
    · split <;> rfl
    · have hsound := h.issues i hi
      split
      · next hp =>
        simp only [Bool.and_eq_true, decide_eq_true_eq, Option.isNone_iff_eq_none] at hp
        refine ⟨⟨hsound.key, hsound.answers, hsound.advisor, fun _ => .inr hp.1.2⟩, ?_⟩
        have hstage : i.stage = 1 := by
          have ho : i.outcome = .failedUnrecoverable := by simpa [coderFailed] using hp.1.2
          simp [stage, hp.2, ho]
        have hmarked := @stage_failed { i with resolution := some .failedUnrecoverable } rfl
        rw [cost_eq, cost_eq, hstage]
        exact Nat.add_le_add_right hmarked _
      · exact .refl hsound
  · split at heq <;> cases heq <;> exact .refl h

include hcapacity in
theorem resolveReviewPhase_cheap : (resolveReviewPhase w level).Cheap capacity :=
  .sweep_rows hcapacity (fun _ _ => rfl) (fun _ i => (Reviewed.reviewIssue w i).issueKey)
    fun _ _ h hneeds => reviewIssue_spends h hneeds

/-- The advisors leave the plan row alone. -/
theorem adviseFailed_plan (d : Rows) : (adviseFailed w level d).1.plan = d.plan := by
  unfold adviseFailed sweepStage
  dsimp only
  split <;> rfl

include hcapacity in
theorem adviseFailed_cheap : (adviseFailed w level).Cheap capacity := by
  intro d d' signal h heq
  have hsweep : ∀ after, (sweepStage (·.failed) (adviseIssue w) level after).Cheap capacity := fun _ =>
    .sweep hcapacity (fun ks i => (adviseIssue_kept w ks i).row.issueKey)
      (fun ks i => adviseIssue_fresh w ks i) fun _ _ hs hf => adviseIssue_spends hs hf
  unfold adviseFailed at heq
  exact hsweep _ d d' signal h heq

/-- Sending a replanner takes what is left of its round. -/
theorem spawnReplanner_pays {d : Rows} (h : Good d) (hnone : d.plan.replannerInvocationId = none)
    (hleft : d.plan.replannerInvocations < maxReplannerInvocations) (b : Bool) :
    Pays capacity d (spawnReplanner d b) := by
  refine ⟨⟨h.issues, h.keys, fun inv hinv => ?_, fun _ => hleft⟩, ?_⟩
  · rcases List.mem_append.mp hinv with hinv | hinv
    · exact h.answers inv hinv
    · rw [List.mem_singleton.mp hinv]
      exact .inl rfl
  · simp only [budget, replanCost, spawnReplanner, hnone, Option.isSome_some, Option.isSome_none,
      List.length_append, List.length_singleton, if_true, Bool.false_eq_true, if_false]
    omega

theorem callReplanner_pays {d d' : Rows} {signal : Option Signal} (h : Good d)
    (hnone : d.plan.replannerInvocationId = none) (heq : callReplanner w level d = (d', signal)) :
    Pays capacity d d' := by
  unfold callReplanner at heq
  dsimp only at heq
  split at heq
  · cases heq
    exact .refl h
  · split at heq
    · cases heq
      exact .refl h
    · split at heq
      · cases heq
        exact .refl h
      · next hleft =>
        split at heq <;> cases heq
        · exact spawnReplanner_pays h hnone (Nat.not_le.mp hleft) false
        · exact .refl h

theorem skipFailed_pays {d : Rows} (h : Good d) : Pays capacity d (skipFailed level d) := by
  refine .map h (fun i => ?_) fun i hi => ?_
  · split <;> rfl
  · have hsound := h.issues i hi
    split
    · next hp =>
      simp only [Bool.and_eq_true] at hp
      refine ⟨⟨hsound.key, hsound.answers, hsound.advisor, fun _ => hsound.ended hp.2⟩, ?_⟩
      rw [cost_eq, cost_eq, stage_settled (i := skipIssue i) rfl (by simp)]
      exact Nat.add_le_add_right (Nat.zero_le _) _
    · exact .refl hsound

/-- A replanner's answer costs one of its invocations, which is worth a whole round. -/
theorem ingestReplanner_pays {d d' : Rows} {signal : Option Signal} {inv : Invocation} (h : Good d)
    (hsome : d.plan.replannerInvocationId.isSome = true)
    (heq : ingestReplanner level inv d = (d', signal)) : Pays capacity d d' := by
  have hleft := h.replanner hsome
  have hcounted : Pays capacity d { d with
      plan := { d.plan with
        replannerInvocations := d.plan.replannerInvocations + 1
        lastReplannerAction := some (parseReplanner inv).action
        replannerInvocationId := none } } := by
    refine ⟨⟨h.issues, h.keys, h.answers, fun hs => by cases hs⟩, ?_⟩
    simp only [budget, replanCost, hsome, Option.isSome_none, if_true, Bool.false_eq_true, if_false]
    omega
  unfold ingestReplanner at heq
  dsimp only at heq
  split at heq
  · cases heq
    exact hcounted
  · cases heq
    exact hcounted.trans (skipFailed_pays level hcounted.good)

theorem awaitReplanner_pays {d d' : Rows} {signal : Option Signal} {id : Nat} (h : Good d)
    (hsome : d.plan.replannerInvocationId = some id) (heq : awaitReplanner w level id d = (d', signal)) :
    Pays capacity d d' := by
  unfold awaitReplanner at heq
  split at heq
  · cases heq
    exact .refl h
  · next inv hinv =>
    dsimp only at heq
    split at heq
    · cases heq
      exact .refl h
    · next hlive =>
      have hanswer := (h.answers inv (List.mem_of_getElem? hinv)).resolve_left hlive
      simp only [hanswer.answered, hanswer.whole, decide_false, Bool.false_and, Bool.or_false,
        Bool.false_eq_true, if_false] at heq
      exact ingestReplanner_pays level h (by rw [hsome]; rfl) heq

include hcapacity in
theorem resolveEscalationPhase_cheap : (resolveEscalationPhase w level).Cheap capacity := by
  intro d d' signal h heq
  unfold resolveEscalationPhase at heq
  split at heq
  · next id hsome =>
    have hpays := @awaitReplanner_pays capacity w level d d' signal id h hsome heq
    exact ⟨hpays.good, fun _ => hpays⟩
  · next hnone =>
    split at heq
    · cases heq
      exact ⟨h, fun _ => .refl h⟩
    · rcases hadvise : adviseFailed w level d with ⟨d₁, _ | e⟩
      · rw [Stage.andThen_of_none hadvise] at heq
        have h₁ := (adviseFailed_cheap hcapacity w level d d₁ none h hadvise).2 (by simp)
        have hplan : d₁.plan = d.plan := by rw [← adviseFailed_plan w level d, hadvise]
        have hpays := h₁.trans (callReplanner_pays w level h₁.good (hplan ▸ hnone) heq)
        exact ⟨hpays.good, fun _ => hpays⟩
      · rw [Stage.andThen_of_some hadvise] at heq
        cases heq
        exact adviseFailed_cheap hcapacity w level d _ _ h hadvise

include hcapacity in
theorem reviewAndEscalate_cheap : (reviewAndEscalate w level).Cheap capacity :=
  .ite ((resolveReviewPhase_cheap hcapacity w level).andThen
    ((halt_cheap level _).andThen (resolveEscalationPhase_cheap hcapacity w level))) (.ends _)

include hcapacity in
theorem commitIssues_cheap : (commitIssues w level).Cheap capacity := by
  intro d d' signal h heq
  refine Stage.Cheap.sweep_rows hcapacity (fun _ i => ?_) (fun _ i => ?_) (fun _ i hs _ => ?_) d d' signal h heq
  · dsimp only
    split
    · rfl
    · split <;> rfl
  · dsimp only
    split
    · rfl
    · split <;> rfl
  · dsimp only
    split
    · exact .refl hs
    · split
      · exact .refl hs
      · exact ⟨⟨hs.key, hs.answers, hs.advisor, hs.resolved⟩, le_rfl⟩

/-! ## The merge -/

theorem startConflictFix_pays {d d' : Rows} {signal : Option Signal} (key : String) (b : Bool) (h : Good d)
    (heq : startConflictFix w level key b d = (d', signal)) : Pays capacity d d' := by
  unfold startConflictFix at heq
  split at heq
  · cases heq
    exact .refl h
  · cases heq
    exact .refl h
  · cases heq
    exact .refl h
  · cases heq
    exact .markMerge h level key .clean
  · dsimp only at heq
    split at heq <;> cases heq
    · exact .refl h
    · exact .refl h
    · exact .setLevel h level _

theorem foldFixer_pays {d : Rows} (h : Good d) (target : Option Issue) (inv : Invocation) :
    Pays capacity d (foldFixer w level target inv d) := by
  unfold foldFixer
  dsimp only
  split
  · next t =>
    split
    · have hmarked := @Pays.markMerge capacity d h level t.issueKey .resolved
      exact hmarked.trans (.setLevel hmarked.good level _)
    · exact .setLevel h level _
  · exact .setLevel h level _

theorem afterFixer_pays {d d' : Rows} {signal : Option Signal} (target : Option Issue) (inv : Invocation)
    (h : Good d) (heq : afterFixer w level target inv d = (d', signal)) : Pays capacity d d' := by
  unfold afterFixer at heq
  dsimp only at heq
  split at heq
  · cases heq
    exact .refl h
  · split at heq
    · cases heq
      exact .refl h
    · split at heq
      · cases heq
        exact .refl h
      · split at heq
        · exact startConflictFix_pays w level _ _ h heq
        · cases heq
          exact .refl h

theorem beforeMerge_cheap : (beforeMerge w level).Cheap capacity := by
  refine .of_pays fun d d' signal h heq => ?_
  unfold beforeMerge at heq
  split at heq
  · unfold ingestFixer at heq
    split at heq
    · cases heq
      exact .refl h
    · dsimp only at heq
      split at heq
      · cases heq
        exact .refl h
      · split at heq
        · cases heq
          exact .refl h
        · have hfolded := fun target inv => @foldFixer_pays capacity w level d h target inv
          exact (hfolded _ _).trans (afterFixer_pays w level _ _ (hfolded _ _).good heq)
  · split at heq
    · split at heq
      · exact startConflictFix_pays w level _ _ h heq
      · cases heq
        exact .refl h
    · cases heq
      exact .refl h

include hcapacity in
theorem mergePass_cheap : (mergePass w level).Cheap capacity := by
  intro d d' signal h heq
  refine Stage.Cheap.sweep_rows hcapacity (fun _ i => ?_) (fun _ i => (mergeIssue_kept w i).row.issueKey)
    (fun _ i hs _ => ?_) d d' signal h heq
  · unfold mergeIssue
    split <;> rfl
  · unfold mergeIssue
    split
    case h_5 | h_6 => exact ⟨⟨hs.key, hs.answers, hs.advisor, hs.resolved⟩, le_rfl⟩
    all_goals exact .refl hs

theorem resolveConflicts_cheap (cs : List Issue) : (resolveConflicts w level cs).Cheap capacity := by
  induction cs with
  | nil =>
    refine .of_fst fun d => ?_
    rw [resolveConflicts]
    split <;> rfl
  | cons c cs ih =>
    intro d d' signal h heq
    rw [resolveConflicts] at heq
    split at heq
    · have hstart := Stage.Cheap.of_pays fun d d' signal h heq =>
        @startConflictFix_pays capacity w level d d' signal c.issueKey false h heq
      exact hstart.andThen ih d d' signal h heq
    · exact ih d d' signal h heq

theorem decideConflicts_cheap : (decideConflicts w level).Cheap capacity := by
  intro d d' signal h heq
  unfold decideConflicts at heq
  split at heq
  · cases heq
    exact ⟨h, fun _ => .refl h⟩
  · split at heq
    · exact resolveConflicts_cheap w level _ d d' signal h heq
    · cases heq
      exact ⟨h, fun _ => .refl h⟩

include hcapacity in
theorem levelStages_cheap : (levelStages w level).Cheap capacity :=
  (createWorktrees_cheap hcapacity w level).andThen <| (dispatchCoders_cheap hcapacity w level).andThen <|
  (ingestCoders_cheap hcapacity w level).andThen <| (halt_cheap level _).andThen <|
  (markCoderFailures_cheap level).andThen <| (reviewAndEscalate_cheap hcapacity w level).andThen <|
  (commitIssues_cheap hcapacity w level).andThen <| (beforeMerge_cheap w level).andThen <|
  (mergePass_cheap hcapacity w level).andThen (decideConflicts_cheap w level)

/-- The iteration did not fail the step. -/
def Report.goesOn : Report → Bool
  | .ended (.failed _) => false
  | _ => true

theorem checkpoint_pays {d : Rows} (h : Good d) (level : Nat) : Pays capacity d (checkpoint level d) :=
  .setLevel h level _

include hcapacity in
theorem iterate_cheap {d : Rows} (h : Good d) :
    Good (iterate w d).1 ∧ ((iterate w d).2.goesOn = true → Pays capacity d (iterate w d).1) := by
  unfold iterate
  split
  · exact ⟨h, fun _ => .refl h⟩
  · next l _ =>
    split
    · have hpays := @checkpoint_pays capacity d h l.level
      exact ⟨hpays.good, fun _ => hpays⟩
    · split
      · next hstages =>
        obtain ⟨hgood, hpays⟩ := levelStages_cheap hcapacity w l.level d _ _ h hstages
        refine ⟨hgood, fun hon => hpays fun e he => ?_⟩
        cases he
        cases hon
      · next hstages =>
        have hpays := (levelStages_cheap hcapacity w l.level d _ none h hstages).2 (by simp)
        have hchecked := hpays.trans (checkpoint_pays hpays.good l.level)
        exact ⟨hchecked.good, fun _ => hchecked⟩

end Level

/-! ## Runs -/

/-- An action of a step that goes on: it fails neither before its loop nor in an iteration, and it
is not set back. -/
def attempt (d : Rows) : Action → Option Rows
  | .enter recent => if (enter recent d).2.isNone then some (enter recent d).1 else none
  | .iterate w => if (iterate w d).2.goesOn then some (iterate w d).1 else none
  | .answer agent final => some (answer agent final d)
  | .retry => none

/-- An agent that ends returns something the parsers take, and no provider is down. -/
def AnswersWell (d : Rows) : Action → Prop
  | .answer (.fixer _ _) _ => True
  | .answer _ final => final.runIsLive = true ∨ Answered final
  | .enter recent => (enter recent d).2 = none
  | _ => True

theorem mem_modify_finish {invs : List Invocation} {n : Nat} {final inv : Invocation}
    (hfinal : final.runIsLive = true ∨ Answered final)
    (h : ∀ inv ∈ invs, inv.runIsLive = true ∨ Answered inv) (hmem : inv ∈ invs.modify n (finish final)) :
    inv.runIsLive = true ∨ Answered inv := by
  obtain ⟨m, hm, rfl⟩ := List.getElem_of_mem hmem
  have hlt : m < invs.length := by simpa using hm
  have hold := h invs[m] (List.getElem_mem hlt)
  rw [List.getElem_modify]
  split
  · unfold finish
    split
    · exact hfinal.imp (fun hlive => hlive) fun ha => ⟨ha.answered, ha.finished, ha.whole⟩
    · exact hold
  · exact hold

theorem answer_pays {capacity : Nat} {d : Rows} {agent : Agent} {final : Invocation} (h : Good d)
    (hwell : AnswersWell d (.answer agent final)) : Pays capacity d (answer agent final d) := by
  cases agent with
  | issue key n =>
    refine .map h (fun i => ?_) fun i hi => ?_
    · split <;> rfl
    · have hsound := h.issues i hi
      split
      · refine ⟨⟨hsound.key, fun inv => mem_modify_finish hwell hsound.answers, hsound.advisor,
          hsound.resolved⟩, le_of_eq ?_⟩
        simp only [cost, potential, stage, reviewStage, List.length_modify]
        rfl
      · exact .refl hsound
  | replanner n =>
    refine ⟨⟨h.issues, h.keys, fun inv => mem_modify_finish hwell h.answers, h.replanner⟩, le_of_eq ?_⟩
    simp only [budget, replanCost, answer, List.length_modify]
    rfl
  | fixer level n => exact .setLevel h level _

theorem enter_rows {d : Rows} {recent : Invocation → Bool} (h : (enter recent d).2 = none) :
    (enter recent d).1 = d := by
  unfold enter at h ⊢
  dsimp only at h ⊢
  split at h
  · cases h
  · simp_all

/-- A retry starts the issues that failed over, none of them with an agent in flight. -/
theorem retry_good {d : Rows} (h : Good d) : Good (resetDagCurrentLevelForRetry d) := by
  unfold resetDagCurrentLevelForRetry
  split
  · exact h
  · split
    · exact h
    · refine ⟨fun i hi => ?_, ?_, h.answers, h.replanner⟩
      · obtain ⟨x, hx, rfl⟩ := List.mem_map.mp hi
        have hsound := h.issues x hx
        split
        · exact ⟨hsound.key, hsound.answers, by simp [advised, latestAdvisor, resetIssue],
            by simp [resetIssue]⟩
        · exact hsound
      · have hkeys : ∀ p : Issue → Bool, (d.issues.map fun i => if p i then resetIssue i else i).map
            (·.issueKey) = d.keys := by
          intro p
          rw [List.map_map]
          refine List.map_congr_left fun i _ => ?_
          simp only [Function.comp]
          split <;> rfl
        simp only [Rows.keys, hkeys]
        exact h.keys

theorem step_good {d : Rows} {a : Action} (h : Good d) (hwell : AnswersWell d a) : Good (step d a) := by
  obtain ⟨capacity, hcapacity⟩ := exists_boundsKeys
  cases a with
  | enter recent =>
    rw [step, enter_rows hwell]
    exact h
  | iterate w => exact (iterate_cheap hcapacity w h).1
  | answer agent final => exact (@answer_pays capacity d agent final h hwell).good
  | retry => exact retry_good h

theorem attempt_pays {capacity : Nat} (hcapacity : BoundsKeys capacity) {d d' : Rows} {a : Action}
    (h : Good d) (hwell : AnswersWell d a) (heq : attempt d a = some d') : Pays capacity d d' := by
  cases a with
  | enter recent =>
    rw [attempt, Option.ite_none_right_eq_some] at heq
    obtain ⟨-, heq⟩ := heq
    cases heq
    rw [enter_rows hwell]
    exact .refl h
  | iterate w =>
    rw [attempt, Option.ite_none_right_eq_some] at heq
    obtain ⟨hon, heq⟩ := heq
    cases heq
    exact (iterate_cheap hcapacity w h).2 hon
  | answer agent final =>
    cases heq
    exact answer_pays h hwell
  | retry => cases heq

theorem insertAll_keys {rows is out : List Issue} (h : insertAll rows is = some out)
    (hrows : (rows.map (·.issueKey)).Nodup) :
    (out.map (·.issueKey)).Nodup ∧ ∀ i ∈ out, i ∈ rows ∨ i.issueKey.length ≤ maxKeyLength := by
  induction is generalizing rows with
  | nil =>
    cases h
    exact ⟨hrows, fun i hi => .inl hi⟩
  | cons i is ih =>
    rw [insertAll] at h
    split at h
    · next hins =>
      simp only [insertable, Bool.and_eq_true, decide_eq_true_eq] at hins
      have hnext : ((rows ++ [i]).map (·.issueKey)).Nodup := by
        rw [List.map_append, List.nodup_append_comm]
        exact List.nodup_cons.mpr ⟨hins.1.2, hrows⟩
      obtain ⟨hnodup, hkeys⟩ := ih h hnext
      refine ⟨hnodup, fun x hx => (hkeys x hx).elim (fun hmem => ?_) .inr⟩
      rcases List.mem_append.mp hmem with hmem | hmem
      · exact .inl hmem
      · rw [List.mem_singleton.mp hmem]
        exact .inr hins.1.1
    · cases h

theorem fanOutDag_good {reviewEnabled autoResolveConflicts : Bool} {plan : SprintPlan} {d : Rows}
    (h : fanOutDag reviewEnabled autoResolveConflicts plan = some d) : Good d := by
  rw [fanOutDag, Option.map_eq_some_iff] at h
  obtain ⟨issues, hinsert, rfl⟩ := h
  have hkeys := insertAll_keys hinsert (by simp)
  refine ⟨fun i hi => ?_, hkeys.1, by simp, by simp⟩
  have hkey := (hkeys.2 i hi).resolve_left (by simp)
  rw [insertAll_eq hinsert] at hi
  obtain ⟨issue, -, rfl⟩ := List.mem_map.mp (by simpa using hi)
  exact ⟨hkey, by simp [issueRow], by simp [issueRow, advised, latestAdvisor], by simp [issueRow]⟩

/-- The rows stay good, whatever fails and is retried. -/
theorem run_good {d : Rows} {actions : List Action} (h : Good d)
    (hwell : Along (fun d a => some (step d a)) AnswersWell d actions) : Good (run d actions) := by
  induction actions generalizing d with
  | nil => exact h
  | cons a as ih => exact ih (step_good h hwell.1) hwell.2

/-- From any point of a run, a step that goes on sends at most so many coders, reviewers, advisors and
replanners; the capacity is that of the keys, the same for every plan. -/
theorem dispatches_bounded : ∃ capacity, ∀ reviewEnabled autoResolveConflicts plan d before,
    fanOutDag reviewEnabled autoResolveConflicts plan = some d →
    Along (fun d a => some (step d a)) AnswersWell d before →
      ∀ actions d', Along attempt AnswersWell (run d before) actions →
        runs attempt (run d before) actions = some d' → dispatched d' ≤ budget capacity (run d before) := by
  obtain ⟨capacity, hcapacity⟩ := exists_boundsKeys
  refine ⟨capacity, fun _ _ _ d before hfan hbefore actions d' hwell hrun => ?_⟩
  have hgood := run_good (fanOutDag_good hfan) hbefore
  have hpays : Pays capacity (run d before) d' :=
    runs_inv (fun d₁ a d₂ h ha hstep => h.trans (attempt_pays hcapacity h.good ha hstep))
      (.refl hgood) hwell hrun
  exact (dispatched_le_budget capacity d').trans hpays.budget

/-! ## A run through every loop -/

instance (inv : Invocation) : Decidable (Answered inv) :=
  decidable_of_iff (inv.runNeverAnswered = false ∧ inv.failureClass ≠ .transient ∧
      inv.failureClass ≠ .truncated)
    ⟨fun h => ⟨h.1, h.2.1, h.2.2⟩, fun h => ⟨h.answered, h.finished, h.whole⟩⟩

instance (d : Rows) (a : Action) : Decidable (AnswersWell d a) :=
  match a with
  | .answer (.fixer _ _) _ => .isTrue trivial
  | .answer (.issue _ _) final | .answer (.replanner _) final =>
    inferInstanceAs (Decidable (final.runIsLive = true ∨ Answered final))
  | .enter recent => inferInstanceAs (Decidable ((enter recent d).2 = none))
  | .iterate _ | .retry => .isTrue trivial

/-- An agent that ended with the given output. -/
def saying (output : Output) : Invocation where
  truncationRetry := false
  started := true
  ended := true
  exitCode := some 0
  output := output

/-- The coder of issue `A`, a reviewer that blocks it, an advisor that asks for another approach, the
coder it sends, a reviewer that blocks again, and an advisor that leaves the issue to the replanner. -/
def contestedRun : List Action :=
  [.iterate smoothWorld, .iterate smoothWorld, .answer (.issue "A" 0) codedWell, .iterate smoothWorld,
    .iterate smoothWorld,
    .answer (.issue "A" 1) (saying { reviewer := some ⟨.block, [("c", false)], [], none⟩ }),
    .iterate smoothWorld,
    .answer (.issue "A" 2) (saying { advisor := some { action := .retryApproach } }),
    .iterate smoothWorld, .answer (.issue "A" 3) codedWell, .iterate smoothWorld, .iterate smoothWorld,
    .iterate smoothWorld,
    .answer (.issue "A" 4) (saying { reviewer := some ⟨.block, [("c", false)], [], none⟩ }),
    .iterate smoothWorld,
    .answer (.issue "A" 5) (saying { advisor := some { action := .escalateToReplan } }),
    .iterate smoothWorld]

def reviewedRows : Rows := (fanOutDag true false carefulPlan).getD ⟨⟨true, false, none, 0, none, []⟩, [], []⟩

def contestedRows : Rows := run reviewedRows contestedRun

example : dispatched contestedRows = 7 := by decide +kernel

theorem dispatches_bounded_contested : ∃ capacity, dispatched contestedRows ≤ budget capacity reviewedRows :=
  have hfan : fanOutDag true false carefulPlan = some reviewedRows := by decide +kernel
  have hwell : Along attempt AnswersWell reviewedRows contestedRun :=
    .of_along (fun _ _ h => of_decide_eq_true h)
      (by decide +kernel : along attempt (fun d a => decide (AnswersWell d a)) reviewedRows contestedRun = true)
  have hrun : runs attempt reviewedRows contestedRun = some contestedRows := by decide +kernel
  dispatches_bounded.imp fun _ h => h true false carefulPlan reviewedRows [] hfan trivial contestedRun
    contestedRows hwell hrun

end Dag

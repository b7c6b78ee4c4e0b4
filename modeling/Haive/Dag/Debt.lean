import Haive.Dag.Moves

/-!
# What becomes of recorded debt

The executor adds to an issue's `debt_items` where it accepts findings and where an
advisor drops criteria, and each of these keeps what is there. The ingest of a coder
does not: it writes the list of the coder's own result over the column. `Overwrites`
is the case where that loses an item; away from it, and as long as no retry starts
such an issue over, recorded debt stays in every later state and a merged issue
shows it to the levels after its own.
-/

namespace Dag

open Lib Issue

def buildUpstreamDebt (d : Rows) (level : Nat) : List (String × List Debt) :=
  if level = 0 then []
  else
    (d.issues.filter fun i => i.level < level && i.coded && i.debtItems ≠ []).map fun i =>
      (i.issueKey, i.debtItems)

/-- The executor added the item; it is not one a coder reported. -/
def Debt.recorded : Debt → Bool
  | .reported _ => false
  | .finding _ | .advisorAccept _ | .droppedCriterion _ => true

namespace Issue

/-- The debt that the ingest of the issue's coder would write: none while the coder runs or where it
is sent again. -/
def recording (i : Issue) : Option (List Debt) :=
  match i.cliInvocationId.bind (i.invocations[·]?) with
  | none => none
  | some inv =>
    let failed := inv.refused || (parseCoderResult inv).outcome = .failedUnrecoverable
    let again :=
      (inv.failureClass = .transient &&
        (inv.runNeverAnswered || i.infraRetries < dagMaxInfraRetries)) ||
      (inv.failureClass = .truncated && inv.truncationRetryable)
    if inv.runIsLive || (failed && again) then none else some (parseCoderResult inv).debtItems

/-- The ingest would lose a recorded item. -/
def Overwrites (i : Issue) : Prop :=
  ∃ items, i.recording = some items ∧ ∃ x ∈ i.debtItems, x.recorded = true ∧ x ∉ items

end Issue

/-- The action loses no recorded debt: no coder that is folded in writes over an item it does not
list, and no retry starts an issue over that holds one. -/
def KeepsDebt (d : Rows) : Action → Prop
  | .iterate _ => ∀ l, d.curLevel = some l → Ingests d l.level →
      ∀ i ∈ d.atLevel l.level, i.running = true → ¬ i.Overwrites
  | .retry => ∀ l, d.curLevel = some l →
      ∀ i ∈ d.atLevel l.level, i.stuckFailed = true → ∀ x ∈ i.debtItems, x.recorded = false
  | _ => True

/-- The later state of an issue owes what the earlier one did, and every criterion it no longer has. -/
structure Owes (i j : Issue) : Prop where
  issueKey : j.issueKey = i.issueKey
  items : ∀ x ∈ i.debtItems, x.recorded = true → x ∈ j.debtItems
  criteria : ∀ c ∈ i.acceptanceCriteria, c ∈ j.acceptanceCriteria ∨ .droppedCriterion c ∈ j.debtItems

namespace Owes

variable {i j k : Issue}

theorem of_same (hk : j.issueKey = i.issueKey) (hd : j.debtItems = i.debtItems)
    (hc : j.acceptanceCriteria = i.acceptanceCriteria) : Owes i j :=
  ⟨hk, fun _ hx _ => hd ▸ hx, fun _ h => .inl (hc ▸ h)⟩

theorem refl (i : Issue) : Owes i i := .of_same rfl rfl rfl

theorem trans (h : Owes i j) (h' : Owes j k) : Owes i k where
  issueKey := h'.issueKey.trans h.issueKey
  items := fun x hx hr => h'.items x (h.items x hx hr) hr
  criteria := by
    intro c hc
    rcases h.criteria c hc with hc | hdropped
    · exact h'.criteria c hc
    · exact .inr (h'.items _ hdropped rfl)

end Owes

theorem move_owes {b : Bool} {i j : Issue} (h : Move b i j) : Owes i j := by
  cases h with
  | worktree => exact .of_same rfl rfl rfl
  | dispatched w =>
    unfold dispatchCoder
    split <;> exact .of_same rfl rfl rfl
  | marked => exact .of_same rfl rfl rfl
  | reviewed w =>
    have hr := Reviewed.reviewIssue w i
    exact ⟨hr.issueKey, fun x hx _ => hr.debtItems x hx, fun c hc => .inl (hr.criteria ▸ hc)⟩
  | advised w taken hb hf =>
    have ha := @adviseIssue_advised w taken _ hf
    exact ⟨ha.issueKey, fun x hx _ => ha.items x hx, ha.criteria⟩
  | skipped => exact .of_same rfl rfl rfl
  | emptied => exact .of_same rfl rfl rfl
  | merged => exact .of_same rfl rfl rfl

theorem across_owes (b : Bool) : Across b Owes where
  refl := .refl
  trans := .trans
  key := fun h => h.issueKey
  move := move_owes

theorem ingestCoder_debt (w : World) (i : Issue) :
    (ingestCoder w i).row.debtItems = i.debtItems ∨
      i.recording = some (ingestCoder w i).row.debtItems := by
  unfold ingestCoder recording
  cases hid : i.cliInvocationId with
  | none => exact .inl rfl
  | some n =>
    dsimp only [Option.bind_some]
    cases hinv : i.invocations[n]? with
    | none => exact .inl rfl
    | some inv =>
      dsimp only
      cases hlive : inv.runIsLive with
      | true => exact .inl rfl
      | false =>
        rw [Bool.false_or, if_neg Bool.false_ne_true]
        cases hfailed : inv.refused || decide ((parseCoderResult inv).outcome = .failedUnrecoverable) with
        | false => exact .inr rfl
        | true =>
          rw [if_pos rfl, Bool.true_and]
          unfold ingestFailedCoder
          dsimp only
          split
          · left
            split
            · unfold redispatchFixCoder
              split <;> rfl
            · rfl
          · right
            split
            · rfl
            · split <;> rfl

theorem ingestCoder_owes (w : World) {i : Issue} (h : ¬ i.Overwrites) : Owes i (ingestCoder w i).row := by
  have hi := ingestCoder_ingested w i
  refine ⟨hi.issueKey, fun x hx hr => ?_, fun c hc => .inl (hi.criteria ▸ hc)⟩
  rcases ingestCoder_debt w i with hsame | hrecording
  · exact hsame ▸ hx
  · by_contra hlost
    exact h ⟨_, hrecording, x, hx, hr, hlost⟩

theorem step_owes {b : Bool} {d : Rows} (hd : Proper b d) {a : Action} (hkeeps : KeepsDebt d a) :
    Rowwise b Owes d (step d a) := by
  refine step_rows (across_owes b) hd ?_ (fun _ _ _ => .of_same rfl rfl rfl) ?_
  · rintro w rfl l hl hingests i hi hrun
    exact ingestCoder_owes w (hkeeps l hl hingests i hi hrun)
  · rintro rfl l hl i hi hstuck
    refine ⟨rfl, fun x hx hr => ?_, fun c hc => .inl hc⟩
    simp [hkeeps l hl i hi hstuck x hx] at hr

theorem mem_buildUpstreamDebt {b : Bool} {d : Rows} {j : Issue} {level : Nat} (hj : j ∈ d.issues)
    (hclosed : Closed b j) (hmerged : j.mergeStatus.isSome = true) (hlevel : j.level < level)
    (hdebt : j.debtItems ≠ []) : (j.issueKey, j.debtItems) ∈ buildUpstreamDebt d level := by
  obtain ⟨status, hs⟩ := Option.isSome_iff_exists.mp hmerged
  have hcoded := hclosed.mergeable_coded (hclosed.merged status hs)
  rw [buildUpstreamDebt, if_neg (Nat.ne_zero_of_lt hlevel)]
  refine List.mem_map.mpr ⟨j, List.mem_filter.mpr ⟨hj, ?_⟩, rfl⟩
  simp [hlevel, hcoded, hdebt]

/-- What a later state of an issue has to show of the debt of an earlier one. -/
structure DebtShown (d : Rows) (i j : Issue) : Prop where
  issueKey : j.issueKey = i.issueKey
  items : ∀ x ∈ i.debtItems, x.recorded = true → x ∈ j.debtItems
  dropped : ∀ c ∈ i.acceptanceCriteria, c ∉ j.acceptanceCriteria → .droppedCriterion c ∈ j.debtItems
  upstream : j.mergeStatus.isSome = true → ∀ level, j.level < level → j.debtItems ≠ [] →
    (j.issueKey, j.debtItems) ∈ buildUpstreamDebt d level

/-- In a run whose actions lose no debt, none is lost: whatever an issue owes at some point, it owes
at every later point, and a merged issue shows it to the levels after its own. -/
theorem debt_kept {reviewEnabled autoResolveConflicts : Bool} {plan : SprintPlan} {d : Rows}
    (hfan : fanOutDag reviewEnabled autoResolveConflicts plan = some d) (before after : List Action)
    (hkeeps : Along (fun d a => some (step d a)) KeepsDebt d (before ++ after)) (n : Nat) (i : Issue)
    (hi : (run d before).issues[n]? = some i) :
    ∃ j, (run d (before ++ after)).issues[n]? = some j ∧ DebtShown (run d (before ++ after)) i j := by
  obtain ⟨hproper, hclosed⟩ := fanOutDag_closed hfan
  have hreached := (run_closed hproper hclosed before).1
  have hrun : run d (before ++ after) = run (run d before) after := List.foldl_append
  have hrows : Rowwise reviewEnabled Owes (run d before) (run (run d before) after) :=
    run_rows (across_owes _) (fun d a hd hk => step_owes hd hk) hreached (along_append hkeeps)
  obtain ⟨j, hj, howes⟩ := hrows.rows n i hi
  rw [hrun]
  have hjclosed : Closed reviewEnabled j := by
    have hall := (run_closed hproper hclosed (before ++ after)).2
    rw [hrun] at hall
    exact hall j (List.mem_of_getElem? hj)
  refine ⟨j, hj, howes.issueKey, howes.items, fun c hc hnot => ?_, fun hm level hl hdebt => ?_⟩
  · exact (howes.criteria c hc).resolve_left hnot
  · exact mem_buildUpstreamDebt (List.mem_of_getElem? hj) hjclosed hm hl hdebt

/-! ## A criterion that is dropped -/

def criterionPlan : SprintPlan where
  issues := [{ id := "A", acceptanceCriteria := ["c"] }]
  levels := [["A"]]

def criterionRows : Rows := (fanOutDag true false criterionPlan).getD ⟨⟨true, false, none, 0, none, []⟩, [], []⟩

/-- The coder of `A`, a reviewer that blocks it, and an advisor that drops the criterion. -/
def droppingRun : List Action :=
  [.iterate smoothWorld, .iterate smoothWorld, .answer (.issue "A" 0) codedWell, .iterate smoothWorld,
    .iterate smoothWorld,
    .answer (.issue "A" 1) (saying { reviewer := some ⟨.block, [("c", false)], [], none⟩ }),
    .iterate smoothWorld,
    .answer (.issue "A" 2) (saying { advisor := some { action := .retryModified, dropCriteria := ["c"] } }),
    .iterate smoothWorld]

/-- The fix coder of the retry with the debt it lists, a reviewer that approves, and the merge. -/
def retriedRun (debtItems : List Debt) : List Action :=
  [.answer (.issue "A" 3) (saying { coder := some { outcome := .completed, debtItems } }),
    .iterate smoothWorld, .iterate smoothWorld,
    .answer (.issue "A" 4) (saying { reviewer := some ⟨.approve, [], [], none⟩ }), .iterate smoothWorld]

/-- The criterion is debt after the advice, and neither a criterion nor debt once the issue is merged. -/
theorem dropped_criterion_lost :
    fanOutDag true false criterionPlan = some criterionRows ∧
      ∃ i, (run criterionRows droppingRun).issues[0]? = some i ∧ .droppedCriterion "c" ∈ i.debtItems ∧
        ∃ j, (run criterionRows (droppingRun ++ retriedRun [])).issues[0]? = some j ∧
          j.mergeStatus = some .clean ∧ "c" ∉ j.acceptanceCriteria ∧ j.debtItems = [] ∧
          buildUpstreamDebt (run criterionRows (droppingRun ++ retriedRun [])) 1 = [] := by
  decide +kernel

instance (i : Issue) : Decidable i.Overwrites :=
  decidable_of_iff (∃ items ∈ i.recording, ∃ x ∈ i.debtItems, x.recorded = true ∧ x ∉ items) .rfl

instance (d : Rows) (level : Nat) : Decidable (Ingests d level) :=
  inferInstanceAs (Decidable (_ ∧ _))

instance (d : Rows) (a : Action) : Decidable (KeepsDebt d a) :=
  match a with
  | .iterate _ => decidable_of_iff (∀ l ∈ d.curLevel, Ingests d l.level →
      ∀ i ∈ d.atLevel l.level, i.running = true → ¬ i.Overwrites) .rfl
  | .retry => decidable_of_iff (∀ l ∈ d.curLevel,
      ∀ i ∈ d.atLevel l.level, i.stuckFailed = true → ∀ x ∈ i.debtItems, x.recorded = false) .rfl
  | .enter _ | .answer _ _ => .isTrue trivial

/-- A fix coder that lists the dropped criterion itself. -/
def listingRun : List Action := retriedRun [.droppedCriterion "c"]

/-- The issue after the advice. -/
def droppedIssue : Issue := (run criterionRows droppingRun).issues.headD { issueKey := "", level := 0 }

theorem debt_kept_when_listed : ∃ j,
    (run criterionRows (droppingRun ++ listingRun)).issues[0]? = some j ∧
      DebtShown (run criterionRows (droppingRun ++ listingRun)) droppedIssue j :=
  have hkeeps : Along (fun d a => some (step d a)) KeepsDebt criterionRows (droppingRun ++ listingRun) :=
    .of_along (fun _ _ h => of_decide_eq_true h) (by decide +kernel :
      along (fun d a => some (step d a)) (fun d a => decide (KeepsDebt d a)) criterionRows
        (droppingRun ++ listingRun) = true)
  have hfan : fanOutDag true false criterionPlan = some criterionRows := by decide +kernel
  debt_kept hfan droppingRun listingRun hkeeps 0 droppedIssue (by decide +kernel)

end Dag

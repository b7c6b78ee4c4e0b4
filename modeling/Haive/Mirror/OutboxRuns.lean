import Haive.Mirror.Deletions
import Haive.Mirror.Outbox

/-!
# What the outbox promises

`Outbox.Honest` is the invariant of the steps: what is committed is in `plan.json` or marked dirty, and
a flush whose revision is still the current one carries the current plan. It holds in every run in which
no flush that read revision 0 records at revision 1 (`Honest.step`), and with it `mirror_upToDate`.
`mirror_marked_written` is the run that the condition leaves out: an error that is recorded first makes a
row at revision 0, and `targetRevision` takes the patch that comes next for what was written.
-/

namespace Haive

open Lib

variable {numberText : Float → List UInt16}

/-! ## Questions that converge -/

theorem patch_id (n : MirrorNode) (q : PlanQuestion) : (PlanQuestion.patch n q).id = n.id := by
  rw [PlanQuestion.patch]
  split
  · cases q with
    | mk nodeId field incoming =>
      cases incoming with
      | none => rfl
      | some side => cases field <;> rfl
  · rfl

theorem asked_patch_of_ne {n : MirrorNode} {q : PlanQuestion} {f : AskedField} (h : f ≠ q.field) :
    (PlanQuestion.patch n q).asked f = n.asked f := by
  rw [PlanQuestion.patch]
  split
  · split
    · next side _ => exact askedFields.get_set_of_ne side n h.symm
    · rfl
  · rfl

theorem patch_of_agreed {n : MirrorNode} {q : PlanQuestion} (h : q.incoming = some (n.asked q.field)) :
    PlanQuestion.patch n q = n := by
  rw [PlanQuestion.patch, h]
  split
  · exact askedFields.set_get q.field n
  · rfl

/-- A question that holds the node's own value changes nothing. -/
theorem foldl_patch_filter {n : MirrorNode} {keep : PlanQuestion → Bool} {qs : List PlanQuestion}
    (hkeys : (qs.map PlanQuestion.key).Nodup)
    (hdrop : ∀ q ∈ qs, keep q = false → q.nodeId = n.id → q.incoming = some (n.asked q.field)) :
    (qs.filter keep).foldl PlanQuestion.patch n = qs.foldl PlanQuestion.patch n := by
  have key : ∀ p : MirrorNode, p.id = n.id → (∀ q ∈ qs, q.nodeId = n.id → p.asked q.field = n.asked q.field) →
      (qs.filter keep).foldl PlanQuestion.patch p = qs.foldl PlanQuestion.patch p := by
    induction qs with
    | nil => exact fun _ _ _ => rfl
    | cons q qs ih =>
      intro p hid hasked
      rw [List.map_cons, List.nodup_cons] at hkeys
      have hrest := ih hkeys.2 fun q' hq' => hdrop q' (List.mem_cons_of_mem _ hq')
      have htail : ∀ q' ∈ qs, q'.nodeId = n.id → (PlanQuestion.patch p q).asked q'.field = n.asked q'.field := by
        intro q' hq' hnode'
        rcases Classical.em (q.nodeId = n.id) with hnode | hnode
        · have hfield : q'.field ≠ q.field := fun heq => hkeys.1 (by
            have hkey : q.key = q'.key := by rw [PlanQuestion.key, PlanQuestion.key, hnode, hnode', heq]
            exact hkey ▸ List.mem_map_of_mem hq')
          rw [asked_patch_of_ne hfield]
          exact hasked q' (List.mem_cons_of_mem _ hq') hnode'
        · have hsame : PlanQuestion.patch p q = p := by rw [PlanQuestion.patch, if_neg (hid ▸ hnode)]
          rw [hsame]
          exact hasked q' (List.mem_cons_of_mem _ hq') hnode'
      cases hkeep : keep q with
      | true =>
        rw [List.filter_cons_of_pos hkeep, List.foldl_cons, List.foldl_cons]
        exact hrest _ ((patch_id p q).trans hid) htail
      | false =>
        have hsame : PlanQuestion.patch p q = p := by
          rcases Classical.em (q.nodeId = n.id) with hnode | hnode
          · refine patch_of_agreed ?_
            rw [hdrop q List.mem_cons_self hkeep hnode, hasked q List.mem_cons_self hnode]
          · rw [PlanQuestion.patch, if_neg (hid ▸ hnode)]
        rw [List.filter_cons_of_neg (by simp [hkeep]), List.foldl_cons, hsame]
        rw [hsame] at htail
        exact hrest p hid htail
  exact key n rfl fun _ _ _ => rfl

/-- A node that `convergePlanQuestions` judges looks as before to the questions that it leaves. -/
theorem patched_stays {m : PlanMirror} (hids : (m.nodes.map (·.id)).Nodup) (questions : PlanQuestions) :
    m.patched (questions.filter (PlanQuestion.stays m.nodes)) = m.patched questions := by
  rw [PlanMirror.patched, PlanMirror.patched]
  congr 1
  refine List.map_congr_left fun n hn => foldl_patch_filter questions.nodup fun q _ hgone hnode => ?_
  have hfind : m.nodes.find? (·.id = q.nodeId) = some n := by
    cases hfound : m.nodes.find? (·.id = q.nodeId) with
    | none =>
      have hno := List.find?_eq_none.mp hfound n hn
      exact absurd hnode.symm (by simpa using hno)
    | some n' =>
      have hid : n'.id = q.nodeId := by simpa using List.find?_some hfound
      rw [List.inj_on_of_nodup_map hids (List.mem_of_find?_eq_some hfound) hn (hid.trans hnode)]
  rw [PlanQuestion.stays, hfind] at hgone
  simpa using hgone

theorem files_stays {db : PlanDb} {mirror : Option PlanMirror} (h : renderRows db.nodes db.edges db.links = .ok mirror)
    (questions : PlanQuestions) :
    db.files numberText (questions.filter (PlanQuestion.stays (mirror.elim [] (·.nodes)))) =
      db.files numberText questions := by
  rw [PlanDb.files, PlanDb.files, renderPlanMirrorFiles, renderPlanMirrorFiles, h]
  cases mirror with
  | none => rfl
  | some m =>
    have hids : (m.nodes.map (·.id)).Nodup := @rendered_nodup db m h
    simp only [Option.elim_some, patched_stays hids]

/-- A plan without nodes has no file, whatever is asked. -/
theorem files_none {db : PlanDb} {questions : PlanQuestions} (h : db.files numberText questions = .ok none)
    (questions' : PlanQuestions) : db.files numberText questions' = .ok none := by
  rw [PlanDb.files, renderPlanMirrorFiles] at h ⊢
  cases hrows : renderRows db.nodes db.edges db.links with
  | error e => rw [hrows] at h; cases h
  | ok mirror =>
    rw [hrows] at h
    cases mirror with
    | none => rfl
    | some m =>
      dsimp only at h
      split at h <;> cases h

theorem files_congr {db db' : PlanDb} (hnodes : db'.nodes = db.nodes) (hedges : db'.edges = db.edges)
    (hlinks : db'.links = db.links) (questions : PlanQuestions) :
    db'.files numberText questions = db.files numberText questions := by
  rw [PlanDb.files, PlanDb.files, hnodes, hedges, hlinks]

/-! ## The invariant -/

/-- What a flush carries at each point, as long as no patch has overtaken it. -/
def FlushPhase.Holds (numberText : Float → List UInt16) (db : PlanDb) (questions : PlanQuestions)
    (file : Option (List UInt16)) (f : Flush) : FlushPhase → Prop
  | .locked => questions = f.asked
  | .loaded _ => questions = f.asked
  | .nodesRead revision nodes => questions = f.asked ∧ (revision = db.revision → nodes = db.nodes)
  | .edgesRead revision nodes edges =>
    questions = f.asked ∧ (revision = db.revision → nodes = db.nodes ∧ edges = db.edges)
  | .rendered revision json =>
    (revision = db.revision → db.files numberText questions = .ok json) ∧
      (¬ (f.before.getD db).Dirty → (f.before.getD db).files numberText f.asked = .ok json)
  | .converged revision json =>
    (revision = db.revision → db.files numberText questions = .ok json) ∧
      (¬ (f.before.getD db).Dirty → (f.before.getD db).files numberText f.asked = .ok json)
  | .written revision => revision = db.revision → db.files numberText questions = .ok file

structure Flush.Follows (numberText : Float → List UInt16) (db : PlanDb) (questions : PlanQuestions)
    (file : Option (List UInt16)) (f : Flush) : Prop where
  /-- Who has been overtaken leaves the row dirty. -/
  behind : ∀ r, f.phase.revision? = some r → r ≤ db.revision ∧ (r < db.revision → db.Dirty)
  /-- A flush that has written the row is not overtaken. A merge was no news to a clean row. -/
  held : ∀ c, f.before = some c → c.writtenRevision ≤ c.revision ∧ f.phase.revision? = some db.revision ∧
    (¬ c.Dirty → c.nodes = db.nodes ∧ c.edges = db.edges ∧ c.links = db.links)
  phase : f.phase.Holds numberText db questions file f

structure Outbox.Honest (numberText : Float → List UInt16) (o : Outbox) : Prop where
  bounded : o.db.writtenRevision ≤ o.db.revision
  clean : ¬ o.committed.Dirty → o.committed.files numberText o.committedQuestions = .ok o.file
  flush : ∀ f, o.flush = some f → f.Follows numberText o.db o.questions o.file

namespace Outbox.Honest

variable {o o' : Outbox} {f : Flush}

theorem committed_eq (hf : o.flush = some f) : o.committed = f.before.getD o.db := by
  rw [committed, hf]
  rfl

theorem committedQuestions_eq (hf : o.flush = some f) : o.committedQuestions = f.asked := by
  rw [committedQuestions, hf]
  rfl

/-- What an idle outbox needs. -/
theorem idle (hidle : o.flush = none) (hbounded : o.db.writtenRevision ≤ o.db.revision)
    (hclean : ¬ o.db.Dirty → o.db.files numberText o.questions = .ok o.file) : o.Honest numberText := by
  refine ⟨hbounded, ?_, fun f hf => ?_⟩
  · rw [committed, committedQuestions, hidle]
    exact hclean
  · rw [hidle] at hf
    cases hf

/-- The transaction leaves no trace but the file. -/
theorem rollback (h : o.Honest numberText) (hf : o.flush = some f) : (o.rollback f).Honest numberText := by
  have hclean := h.clean
  rw [committed_eq hf, committedQuestions_eq hf] at hclean
  refine idle rfl ?_ hclean
  cases hbefore : f.before with
  | none =>
    rw [Outbox.rollback, hbefore]
    exact h.bounded
  | some c =>
    rw [Outbox.rollback, hbefore]
    exact ((h.flush f hf).held c hbefore).1

theorem owe (h : o.Honest numberText) (owed : Nat) : ({ o with owed } : Outbox).Honest numberText :=
  ⟨h.bounded, h.clean, h.flush⟩

theorem fail (h : o.Honest numberText) (hf : o.flush = some f) : (o.fail f).Honest numberText := (h.rollback hf).owe _

/-- The flush goes on and nothing else changes. -/
theorem goTo (h : o.Honest numberText) (hf : o.flush = some f) {phase : FlushPhase}
    (hrevision : phase.revision? = f.phase.revision?)
    (hholds : phase.Holds numberText o.db o.questions o.file { f with phase }) : (o.goTo f phase).Honest numberText := by
  have hclean := h.clean
  rw [committed_eq hf, committedQuestions_eq hf] at hclean
  have hfollows := h.flush f hf
  refine ⟨h.bounded, hclean, fun f' hf' => ?_⟩
  cases hf'
  exact ⟨fun r hr => hfollows.behind r (hrevision ▸ hr), fun c hc => by
    obtain ⟨hbounded, hheld, hsame⟩ := hfollows.held c hc
    exact ⟨hbounded, hrevision.trans hheld, hsame⟩, hholds⟩

/-! ## One lemma for each step -/

theorem lock (h : o.Honest numberText) (hidle : o.flush = none) :
    ({ o with flush := some ⟨.locked, none, o.questions⟩ } : Outbox).Honest numberText := by
  have hclean := h.clean
  rw [committed, committedQuestions, hidle] at hclean
  refine ⟨h.bounded, hclean, fun f hf => ?_⟩
  cases hf
  exact ⟨fun r hr => (nomatch hr), fun c hc => (nomatch hc), rfl⟩

theorem commit (h : o.Honest numberText) (hfree : o.rowFree = true) {next : PlanDb}
    (hmarks : marks o.db.mirror next.mirror = true) : ({ o with db := next } : Outbox).Honest numberText := by
  obtain ⟨row, hrow, hlt, hwritten⟩ : ∃ row, next.mirror = some row ∧ o.db.revision < row.revision ∧
      row.writtenRevision = o.db.writtenRevision := by
    cases hrow : next.mirror with
    | none =>
      rw [hrow] at hmarks
      cases hmarks
    | some row =>
      rw [hrow, marks, Bool.and_eq_true, decide_eq_true_eq, decide_eq_true_eq] at hmarks
      exact ⟨row, rfl, hmarks.1, hmarks.2⟩
  have hrevision : next.revision = row.revision := by rw [PlanDb.revision, hrow]; rfl
  have hwrittenRevision : next.writtenRevision = o.db.writtenRevision := by
    rw [PlanDb.writtenRevision, hrow]
    exact hwritten
  have hbounded := h.bounded
  have hdirty : next.Dirty := by rw [PlanDb.Dirty]; omega
  have hbefore : ∀ f, o.flush = some f → f.before = none := fun f hf => by
    rw [rowFree, hf] at hfree
    exact Option.isNone_iff_eq_none.mp hfree
  have hcommitted : ({ o with db := next } : Outbox).committed = next := by
    rw [committed]
    cases hf : o.flush with
    | none => rfl
    | some f => rw [Option.bind_some, hbefore f hf]; rfl
  refine ⟨hdirty.le, fun hclean => absurd hdirty (hcommitted ▸ hclean), fun f hf => ?_⟩
  have hfollows := h.flush f hf
  have hlater : ∀ r, f.phase.revision? = some r → r < next.revision := fun r hr =>
    lt_of_le_of_lt (hfollows.behind r hr).1 (hrevision ▸ hlt)
  refine ⟨fun r hr => ⟨(hlater r hr).le, fun _ => hdirty⟩, fun c hc => ?_, ?_⟩
  · rw [hbefore f hf] at hc
    cases hc
  · have hholds := hfollows.phase
    have hnow : ¬ ¬ (f.before.getD next).Dirty := by
      rw [hbefore f hf]
      exact not_not_intro hdirty
    cases hphase : f.phase with
    | locked => rwa [hphase] at hholds
    | loaded r => rwa [hphase] at hholds
    | nodesRead r nodes =>
      rw [hphase] at hholds
      exact ⟨hholds.1, fun hr => absurd hr (hlater r (by rw [hphase]; rfl)).ne⟩
    | edgesRead r nodes edges =>
      rw [hphase] at hholds
      exact ⟨hholds.1, fun hr => absurd hr (hlater r (by rw [hphase]; rfl)).ne⟩
    | rendered r json => exact ⟨fun hr => absurd hr (hlater r (by rw [hphase]; rfl)).ne, fun hc => absurd hc hnow⟩
    | converged r json => exact ⟨fun hr => absurd hr (hlater r (by rw [hphase]; rfl)).ne, fun hc => absurd hc hnow⟩
    | written r => exact fun hr => absurd hr (hlater r (by rw [hphase]; rfl)).ne

theorem current (h : o.Honest numberText) (hf : o.flush = some f) {r : Nat} (hr : f.phase.revision? = some r)
    (hclean : ¬ o.db.Dirty) : r = o.db.revision := by
  obtain ⟨hle, hdirty⟩ := (h.flush f hf).behind r hr
  exact hle.eq_of_not_lt fun hlt => hclean (hdirty hlt)

theorem load (h : o.Honest numberText) (hf : o.flush = some f) (hphase : f.phase = .locked) :
    (o.load f).Honest numberText := by
  have hfollows := h.flush f hf
  have hbefore : f.before = none := by
    cases hc : f.before with
    | none => rfl
    | some c =>
      have hheld := (hfollows.held c hc).2.1
      rw [hphase] at hheld
      cases hheld
  have hasked : o.questions = f.asked := by
    have hholds := hfollows.phase
    rwa [hphase] at hholds
  have hclean := h.clean
  rw [committed_eq hf, committedQuestions_eq hf, hbefore, Option.getD_none] at hclean
  rw [Outbox.load]
  cases hmirror : o.db.mirror with
  | some row =>
    have hrevision : o.db.revision = row.revision := by rw [PlanDb.revision, hmirror]; rfl
    refine ⟨h.bounded, ?_, fun f' hf' => ?_⟩
    · rw [committed_eq rfl, committedQuestions_eq rfl]
      dsimp only
      rw [hbefore]
      exact hclean
    · cases hf'
      refine ⟨fun r hr => ?_, fun c hc => ?_, hasked⟩
      · cases hr
        exact ⟨hrevision.ge, fun hlt => absurd hrevision hlt.ne'⟩
      · rw [hbefore] at hc
        cases hc
  | none =>
    refine ⟨Nat.zero_le _, hclean, fun f' hf' => ?_⟩
    cases hf'
    refine ⟨fun r hr => ?_, fun c hc => ?_, hasked⟩
    · cases hr
      exact ⟨le_rfl, fun hlt => absurd hlt (lt_irrefl _)⟩
    · cases hc
      exact ⟨h.bounded, rfl, fun _ => ⟨rfl, rfl, rfl⟩⟩

theorem readNodes (h : o.Honest numberText) (hf : o.flush = some f) {r : Nat} (hphase : f.phase = .loaded r) :
    (o.goTo f (.nodesRead r o.db.nodes)).Honest numberText := by
  have hholds := (h.flush f hf).phase
  rw [hphase] at hholds
  exact h.goTo hf (by rw [hphase]; rfl) ⟨hholds, fun _ => rfl⟩

theorem readEdges (h : o.Honest numberText) (hf : o.flush = some f) {r : Nat} {nodes : PlanNodes}
    (hphase : f.phase = .nodesRead r nodes) : (o.goTo f (.edgesRead r nodes o.db.edges)).Honest numberText := by
  have hholds := (h.flush f hf).phase
  rw [hphase] at hholds
  exact h.goTo hf (by rw [hphase]; rfl) ⟨hholds.1, fun hr => ⟨hholds.2 hr, rfl⟩⟩

theorem render (h : o.Honest numberText) (hf : o.flush = some f) {r : Nat} {nodes : PlanNodes}
    {edges : Table PlanNodeEdgeRow PlanNodeEdgeRow.key} (hphase : f.phase = .edgesRead r nodes edges) :
    (o.render numberText f r nodes edges).Honest numberText := by
  have hfollows := h.flush f hf
  obtain ⟨hasked, hread⟩ : o.questions = f.asked ∧ (r = o.db.revision → nodes = o.db.nodes ∧ edges = o.db.edges) := by
    have hholds := hfollows.phase
    rwa [hphase] at hholds
  rw [Outbox.render]
  cases hfiles : renderPlanMirrorFiles numberText nodes edges o.db.links o.questions with
  | error e => exact h.fail hf
  | ok json =>
    have hcurrent : r = o.db.revision → o.db.files numberText o.questions = .ok json := fun hr => by
      obtain ⟨rfl, rfl⟩ := hread hr
      exact hfiles
    refine h.goTo hf (by rw [hphase]; rfl) ⟨hcurrent, fun hclean => ?_⟩
    cases hbefore : f.before with
    | none =>
      replace hclean : ¬ (f.before.getD o.db).Dirty := hclean
      rw [hbefore] at hclean
      exact hasked ▸ hcurrent (h.current hf (by rw [hphase]; rfl) hclean)
    | some c =>
      replace hclean : ¬ (f.before.getD o.db).Dirty := hclean
      rw [hbefore] at hclean
      obtain ⟨-, hheld, hsame⟩ := hfollows.held c hbefore
      obtain ⟨hnodes, hedges, hlinks⟩ := hsame hclean
      rw [hphase] at hheld
      have hfilesOf : c.files numberText f.asked = .ok json := by
        rw [files_congr hnodes hedges hlinks, ← hasked]
        exact hcurrent (Option.some.inj hheld)
      exact hfilesOf

theorem reconcile (h : o.Honest numberText) (hf : o.flush = some f) {r : Nat} {json : Option (List UInt16)}
    (hphase : f.phase = .rendered r json) (hother : o.file ≠ json) (next : PlanDb) (questions : PlanQuestions)
    (dirty : Bool) : (o.reconcile numberText f next questions dirty).Honest numberText := by
  have hfollows := h.flush f hf
  have hclean := h.clean
  rw [committed_eq hf, committedQuestions_eq hf] at hclean
  have hholds := hfollows.phase
  rw [hphase] at hholds
  -- A clean row's file is what the flush would write.
  have hdirty : ¬ ¬ (f.before.getD o.db).Dirty := fun hc => by
    have hsame := (hclean hc).symm.trans (hholds.2 hc)
    exact hother (Except.ok.inj hsame)
  have hcommitted : (f.before.getD o.db).writtenRevision ≤ (f.before.getD o.db).revision := by
    cases hbefore : f.before with
    | none => exact h.bounded
    | some c => exact (hfollows.held c hbefore).1
  rw [Outbox.reconcile]
  dsimp only
  split
  · exact h.fail hf
  · next json' hfiles =>
    refine ⟨?_, fun hc => absurd hc hdirty, fun f' hf' => ?_⟩
    · cases dirty with
      | false => exact h.bounded
      | true =>
        cases hmirror : o.db.mirror with
        | none => exact Nat.zero_le _
        | some row =>
          have hbounded := h.bounded
          rw [PlanDb.writtenRevision, PlanDb.revision, hmirror] at hbounded
          exact Nat.le_succ_of_le hbounded
    · cases hf'
      refine ⟨fun r' hr' => ?_, fun c hc => ?_, fun _ => hfiles, fun hc => absurd hc hdirty⟩
      · cases hr'
        exact ⟨le_rfl, fun hlt => absurd hlt (lt_irrefl _)⟩
      · cases hc
        exact ⟨hcommitted, rfl, fun hc => absurd hc hdirty⟩

theorem converge (h : o.Honest numberText) (hf : o.flush = some f) {r : Nat} {json : Option (List UInt16)}
    (hphase : f.phase = .rendered r json) : (o.converge f r json).Honest numberText := by
  have hfollows := h.flush f hf
  have hclean := h.clean
  rw [committed_eq hf, committedQuestions_eq hf] at hclean
  have hholds := hfollows.phase
  rw [hphase] at hholds
  rw [Outbox.converge]
  cases hrows : renderRows o.db.nodes o.db.edges o.db.links with
  | error e => exact h.fail hf
  | ok mirror =>
    refine ⟨h.bounded, hclean, fun f' hf' => ?_⟩
    cases hf'
    refine ⟨fun r' hr' => ?_, fun c hc => ?_, fun hr => ?_, hholds.2⟩
    · exact hfollows.behind r' (by rw [hphase]; exact hr')
    · obtain ⟨hbounded, hheld, hsame⟩ := hfollows.held c hc
      rw [hphase] at hheld
      exact ⟨hbounded, hheld, hsame⟩
    · exact (files_stays hrows o.questions).trans (hholds.1 hr)

theorem write (h : o.Honest numberText) (hf : o.flush = some f) {r : Nat} {json : Option (List UInt16)}
    (hphase : f.phase = .converged r json) :
    ({ o.goTo f (.written r) with
        file := json
        questions := if json.isNone then ∅ else o.questions } : Outbox).Honest numberText := by
  have hfollows := h.flush f hf
  have hholds := hfollows.phase
  rw [hphase] at hholds
  refine ⟨h.bounded, hholds.2, fun f' hf' => ?_⟩
  cases hf'
  refine ⟨fun r' hr' => ?_, fun c hc => ?_, fun hr => ?_⟩
  · exact hfollows.behind r' (by rw [hphase]; exact hr')
  · obtain ⟨hbounded, hheld, hsame⟩ := hfollows.held c hc
    rw [hphase] at hheld
    exact ⟨hbounded, hheld, hsame⟩
  · have hfiles := hholds.1 hr
    cases json with
    | none => exact files_none hfiles _
    | some json => exact hfiles

/-- Whatever was recorded before: what is not dirty after the flush is in the file. -/
theorem written_file (h : o.Honest numberText) (hf : o.flush = some f) {r : Nat} (hphase : f.phase = .written r)
    (hr : r = o.db.revision) : o.db.files numberText o.questions = .ok o.file := by
  have hholds := (h.flush f hf).phase
  rw [hphase] at hholds
  exact hholds hr

theorem leave (h : o.Honest numberText) (hf : o.flush = some f) {r : Nat} (hphase : f.phase = .written r) :
    ({ o with flush := none, owed := o.owed + 1 } : Outbox).Honest numberText :=
  idle rfl h.bounded fun hclean => h.written_file hf hphase (h.current hf (by rw [hphase]; rfl) hclean)

/-- The record says no more than the row did, or that the revision that was read is written. -/
theorem record_cases (o : Outbox) (r : Nat) :
    let db := { o.db with mirror := o.db.mirror.map (recordWritten (targetRevision r)) }
    db.revision = o.db.revision ∧
      (db.writtenRevision = o.db.writtenRevision ∨
        o.db.revision = targetRevision r ∧ db.writtenRevision = o.db.revision) := by
  intro db
  cases hmirror : o.db.mirror with
  | none =>
    have hdb : db.mirror = none := by rw [show db.mirror = o.db.mirror.map _ from rfl, hmirror]; rfl
    rw [PlanDb.revision, PlanDb.writtenRevision, PlanDb.revision, PlanDb.writtenRevision, hdb, hmirror]
    exact ⟨rfl, .inl rfl⟩
  | some row =>
    have hdb : db.mirror = some (recordWritten (targetRevision r) row) := by
      rw [show db.mirror = o.db.mirror.map _ from rfl, hmirror]
      rfl
    rw [PlanDb.revision, PlanDb.writtenRevision, PlanDb.revision, PlanDb.writtenRevision, hdb, hmirror, recordWritten]
    split
    · next htarget => exact ⟨rfl, .inr ⟨htarget, htarget.symm⟩⟩
    · exact ⟨rfl, .inl rfl⟩

/-- Where a patch came in between, the record leaves the row dirty. -/
theorem record_dirty (h : o.Honest numberText) (hf : o.flush = some f) {r : Nat} (hphase : f.phase = .written r)
    (hrecord : r = 0 → o.db.revision ≠ 1) (hr : r ≠ o.db.revision) :
    { o.db with mirror := o.db.mirror.map (recordWritten (targetRevision r)) : PlanDb }.Dirty := by
  obtain ⟨hle, hdirty⟩ := (h.flush f hf).behind r (by rw [hphase]; rfl)
  have hlt := lt_of_le_of_ne hle hr
  obtain ⟨hrevision, hwritten | ⟨htarget, -⟩⟩ := record_cases o r
  · rw [PlanDb.Dirty, hrevision, hwritten]
    exact hdirty hlt
  · rw [targetRevision] at htarget
    have hzero : r = 0 := by omega
    exact absurd (by omega) (hrecord hzero)

theorem record (h : o.Honest numberText) (hf : o.flush = some f) {r : Nat} (hphase : f.phase = .written r)
    (hrecord : r = 0 → o.db.revision ≠ 1) :
    ({ o with
        db := { o.db with mirror := o.db.mirror.map (recordWritten (targetRevision r)) }
        flush := none } : Outbox).Honest numberText := by
  refine idle rfl ?_ fun hclean => ?_
  · obtain ⟨hrevision, hwritten | ⟨-, hwritten⟩⟩ := record_cases o r
    · dsimp only
      rw [hrevision, hwritten]
      exact h.bounded
    · dsimp only
      rw [hrevision, hwritten]
  · refine h.written_file hf hphase (Classical.byContradiction fun hr => hclean ?_)
    exact h.record_dirty hf hphase hrecord hr

theorem recordError (h : o.Honest numberText) (hfree : o.rowFree = true) (message : String) (owed : Nat) :
    ({ o with db := { o.db with mirror := some (withError message o.db.mirror) }, owed } : Outbox).Honest numberText := by
  have hrevision : { o.db with mirror := some (withError message o.db.mirror) : PlanDb }.revision = o.db.revision := by
    cases hmirror : o.db.mirror <;> rw [PlanDb.revision, PlanDb.revision, hmirror] <;> rfl
  have hwritten : { o.db with mirror := some (withError message o.db.mirror) : PlanDb }.writtenRevision =
      o.db.writtenRevision := by
    cases hmirror : o.db.mirror <;> rw [PlanDb.writtenRevision, PlanDb.writtenRevision, hmirror] <;> rfl
  have hdirty : { o.db with mirror := some (withError message o.db.mirror) : PlanDb }.Dirty ↔ o.db.Dirty := by
    rw [PlanDb.Dirty, PlanDb.Dirty, hrevision, hwritten]
  have hbounded := h.bounded
  rw [← hrevision, ← hwritten] at hbounded
  have hclean := h.clean
  cases hf : o.flush with
  | none =>
    rw [committed, committedQuestions, hf] at hclean
    exact idle rfl hbounded fun hc => hclean (hdirty.not.mp hc)
  | some f =>
    have hfollows := h.flush f hf
    have hbefore : f.before = none := by
      rw [rowFree, hf] at hfree
      exact Option.isNone_iff_eq_none.mp hfree
    rw [committed_eq hf, committedQuestions_eq hf, hbefore] at hclean
    refine ⟨hbounded, ?_, fun f' hf' => ?_⟩
    · rw [committed_eq rfl, committedQuestions_eq rfl, hbefore]
      exact fun hc => hclean (hdirty.not.mp hc)
    · cases hf'
      have hholds := hfollows.phase
      refine ⟨fun r hr => ?_, fun c hc => ?_, ?_⟩
      · rw [hdirty, hrevision]
        exact hfollows.behind r hr
      · rw [hbefore] at hc
        cases hc
      · cases hphase : f.phase with
        | locked => rwa [hphase] at hholds
        | loaded r => rwa [hphase] at hholds
        | nodesRead r nodes =>
          rw [hphase] at hholds
          exact ⟨hholds.1, fun hr => hholds.2 (hr.trans hrevision)⟩
        | edgesRead r nodes edges =>
          rw [hphase] at hholds
          exact ⟨hholds.1, fun hr => hholds.2 (hr.trans hrevision)⟩
        | rendered r json =>
          rw [hphase] at hholds
          rw [FlushPhase.Holds, hbefore] at hholds ⊢
          exact ⟨fun hr => hholds.1 (hr.trans hrevision), fun hc => hholds.2 (hdirty.not.mp hc)⟩
        | converged r json =>
          rw [hphase] at hholds
          rw [FlushPhase.Holds, hbefore] at hholds ⊢
          exact ⟨fun hr => hholds.1 (hr.trans hrevision), fun hc => hholds.2 (hdirty.not.mp hc)⟩
        | written r =>
          rw [hphase] at hholds
          exact fun hr => hholds (hr.trans hrevision)

/-- One step of a flush or of another transaction. -/
theorem step (h : o.Honest numberText) {act : OutboxAct} (hact : o.Recordable act)
    (hstep : o.step numberText act = some o') : o'.Honest numberText := by
  have inFlush : ∀ {act : OutboxAct}, (o.flush.bind fun f => o.flushStep numberText f act) = some o' →
      ∃ f, o.flush = some f ∧ o.flushStep numberText f act = some o' := fun hbind => Option.bind_eq_some_iff.mp hbind
  cases act with
  | commit next =>
    rw [Outbox.step, Option.ite_none_right_eq_some] at hstep
    obtain ⟨⟨hfree, hmarks⟩, hstep⟩ := hstep
    cases hstep
    exact h.commit hfree hmarks
  | recordPlanMirrorError message =>
    rw [Outbox.step, Option.ite_none_right_eq_some] at hstep
    obtain ⟨⟨hfree, -⟩, hstep⟩ := hstep
    cases hstep
    exact h.recordError hfree message _
  | lock =>
    rw [Outbox.step] at hstep
    cases hf : o.flush with
    | some f =>
      rw [hf] at hstep
      cases hstep
    | none =>
      rw [hf] at hstep
      cases hstep
      exact h.lock hf
  | load =>
    obtain ⟨f, hf, hstep⟩ := inFlush hstep
    rw [flushStep] at hstep
    split at hstep
    · next hphase =>
      cases hstep
      exact h.load hf hphase
    · cases hstep
  | readNodes =>
    obtain ⟨f, hf, hstep⟩ := inFlush hstep
    rw [flushStep] at hstep
    split at hstep
    · next hphase =>
      cases hstep
      exact h.readNodes hf hphase
    · cases hstep
  | readEdges =>
    obtain ⟨f, hf, hstep⟩ := inFlush hstep
    rw [flushStep] at hstep
    split at hstep
    · next hphase =>
      cases hstep
      exact h.readEdges hf hphase
    · cases hstep
  | readLinks =>
    obtain ⟨f, hf, hstep⟩ := inFlush hstep
    rw [flushStep] at hstep
    split at hstep
    · next hphase =>
      cases hstep
      exact h.render hf hphase
    · cases hstep
  | reconcile next questions dirty =>
    obtain ⟨f, hf, hstep⟩ := inFlush hstep
    rw [flushStep] at hstep
    split at hstep
    · next hphase =>
      rw [Option.ite_none_right_eq_some] at hstep
      obtain ⟨⟨-, hother⟩, hstep⟩ := hstep
      cases hstep
      exact h.reconcile hf hphase hother next questions dirty
    · cases hstep
  | converge =>
    obtain ⟨f, hf, hstep⟩ := inFlush hstep
    rw [flushStep] at hstep
    split at hstep
    · next hphase =>
      cases hstep
      exact h.converge hf hphase
    · cases hstep
  | write =>
    obtain ⟨f, hf, hstep⟩ := inFlush hstep
    rw [flushStep] at hstep
    split at hstep
    · next hphase =>
      cases hstep
      exact h.write hf hphase
    · cases hstep
  | record =>
    obtain ⟨f, hf, hstep⟩ := inFlush hstep
    rw [flushStep] at hstep
    split at hstep
    · next r hphase =>
      cases hstep
      refine h.record hf hphase fun hr => hact rfl f hf ?_
      rw [hphase, hr]
      rfl
    · cases hstep
  | leave =>
    obtain ⟨f, hf, hstep⟩ := inFlush hstep
    rw [flushStep] at hstep
    split at hstep
    · next hphase =>
      cases hstep
      exact h.leave hf hphase
    · cases hstep
  | throw =>
    obtain ⟨f, hf, hstep⟩ := inFlush hstep
    cases hstep
    exact h.fail hf
  | crash =>
    obtain ⟨f, hf, hstep⟩ := inFlush hstep
    cases hstep
    exact h.rollback hf

theorem start (h : o.Start numberText) : o.Honest numberText := idle h.idle h.bounded h.file

theorem upToDate (h : o.Honest numberText) : o.UpToDate numberText := by
  intro hidle hasked hwritten
  have hclean := h.clean
  rw [committed, committedQuestions, hidle] at hclean
  have hnone : o.questions = ∅ := Table.ext_rows hasked
  exact hnone ▸ hclean (not_lt.mpr hwritten)

theorem leavesDirty (h : o.Honest numberText) : o.LeavesDirty numberText := by
  intro f r o' hf hr hlater hrecord hstep
  obtain ⟨f', hf', hstep⟩ := Option.bind_eq_some_iff.mp hstep
  rw [hf, Option.some.injEq] at hf'
  subst hf'
  rw [flushStep] at hstep
  split at hstep
  · next r' hphase =>
    rw [hphase] at hr
    cases hr
    cases hstep
    refine h.record_dirty hf hphase (fun hzero => hrecord rfl f hf ?_) hlater
    rw [hphase, hzero]
    rfl
  · cases hstep

end Outbox.Honest

/-- In every run where no flush that read revision 0 records at revision 1: an idle outbox that is not
dirty has its plan in `plan.json`, and whom a patch overtook leaves the row dirty. -/
theorem mirror_upToDate (numberText : Float → List UInt16) {o o' : Outbox} {acts : List OutboxAct}
    (hstart : o.Start numberText) (hacts : Along (Outbox.step numberText) Outbox.Recordable o acts)
    (hrun : runs (Outbox.step numberText) o acts = some o') :
    o'.UpToDate numberText ∧ o'.LeavesDirty numberText := by
  have h := runs_inv (fun _ _ _ h hact hstep => Outbox.Honest.step h hact hstep) (Outbox.Honest.start hstart) hacts hrun
  exact ⟨h.upToDate, h.leavesDirty⟩

namespace Sample

/-- A repository without a plan. -/
def noPlan : Outbox := ⟨PlanDb.empty, ∅, none, none, 0⟩

theorem noPlan_start : noPlan.Start (fun _ => []) := ⟨rfl, le_rfl, fun _ => rfl⟩

def patchThenFlush : List OutboxAct :=
  [.commit Sample.start, .lock, .load, .readNodes, .readEdges, .readLinks, .converge, .write, .record]

/-- A flush is held and its error recorded; while the next one finds no plan, a patch makes it. -/
def patchBetween : List OutboxAct :=
  [.lock, .load, .throw, .recordPlanMirrorError "held", .lock, .load, .readNodes, .readEdges, .readLinks, .converge,
    .commit Sample.start, .write, .record]

end Sample

open Sample in
/-- A patch and a flush of its own. -/
theorem mirror_upToDate_patched : ∃ o, runs (Outbox.step fun _ => []) noPlan patchThenFlush = some o ∧
    o.UpToDate (fun _ => []) ∧ o.LeavesDirty (fun _ => []) := by
  obtain ⟨text, htext⟩ : ∃ text, Sample.start.files (fun _ => []) ∅ = .ok (some text) := by
    have hkeys : (mirrorOf Sample.start).DistinctKeys := ⟨rendered_nodup render_start, List.nodup_nil, List.nodup_nil⟩
    obtain ⟨text, htext, -⟩ := serializePlanMirror_perm (fun _ => []) hkeys .rfl .rfl .rfl
    have hpatched : (mirrorOf Sample.start).patched ∅ = mirrorOf Sample.start := by
      rw [PlanMirror.patched]
      exact congrArg (fun nodes => { mirrorOf Sample.start with nodes }) (List.map_id _)
    refine ⟨text, ?_⟩
    rw [PlanDb.files, renderPlanMirrorFiles, show renderRows _ _ _ = _ from render_start]
    dsimp only
    rw [hpatched, htext]
  let o (file : Option (List UInt16)) (phase : FlushPhase) : Outbox := ⟨Sample.start, ∅, file, some ⟨phase, none, ∅⟩, 0⟩
  have hread : (o none (.edgesRead 1 Sample.start.nodes Sample.start.edges)).step (fun _ => []) .readLinks =
      some (o none (.rendered 1 (some text))) := by
    change some (Outbox.render _ _ _ _ _ _) = _
    rw [Outbox.render, show renderPlanMirrorFiles _ _ _ _ _ = _ from htext]
    rfl
  have hconverge : (o none (.rendered 1 (some text))).step (fun _ => []) .converge = some (o none (.converged 1 (some text))) := by
    change some (Outbox.converge _ _ _ _) = _
    rw [Outbox.converge, show renderRows _ _ _ = _ from render_start]
    rfl
  have hother : ∀ {o : Outbox} {act : OutboxAct}, act ≠ .record → o.Recordable act := fun hact h => absurd h hact
  have hrecord : (o (some text) (.written 1)).Recordable .record := by
    intro _ f hf hzero
    cases hf
    cases hzero
  have hrun : runs (Outbox.step fun _ => []) noPlan patchThenFlush =
      some ⟨{ Sample.start with mirror := some ⟨1, 1, none⟩ }, ∅, some text, none, 0⟩ := by
    refine (runs_cons rfl).trans ((runs_cons rfl).trans ((runs_cons rfl).trans ((runs_cons rfl).trans ?_)))
    exact (runs_cons rfl).trans ((runs_cons hread).trans ((runs_cons hconverge).trans rfl))
  refine ⟨_, hrun, mirror_upToDate _ noPlan_start ?_ hrun⟩
  refine along_cons (hother nofun) rfl (along_cons (hother nofun) rfl (along_cons (hother nofun) rfl ?_))
  refine along_cons (hother nofun) rfl (along_cons (hother nofun) rfl (along_cons (hother nofun) hread ?_))
  exact along_cons (hother nofun) hconverge (along_cons (hother nofun) rfl ⟨hrecord, trivial⟩)

open Sample in
/-- The patch between makes the row clean that has nothing written. -/
theorem mirror_marked_written : noPlan.Start (fun _ => []) ∧
    (∃ result, runPatch { PlanDb.empty with mirror := some ⟨0, 0, some "held"⟩ } Sample.plan = .ok (result, Sample.start)) ∧
    ∃ o, runs (Outbox.step fun _ => []) noPlan patchBetween = some o ∧ ¬ o.UpToDate (fun _ => []) := by
  refine ⟨noPlan_start, ?_, ?_⟩
  · have hok : (runPatch { PlanDb.empty with mirror := some ⟨0, 0, some "held"⟩ } Sample.plan).toOption.map (·.2) =
        some Sample.start := by decide +kernel
    cases hrun : runPatch { PlanDb.empty with mirror := some ⟨0, 0, some "held"⟩ } Sample.plan with
    | error e => rw [hrun] at hok; cases hok
    | ok r =>
      rw [hrun] at hok
      exact ⟨r.1, congrArg (fun db => Except.ok (r.1, db)) (Option.some.inj hok)⟩
  · refine ⟨⟨{ Sample.start with mirror := some ⟨1, 1, none⟩ }, ∅, none, none, 0⟩, rfl, fun h => ?_⟩
    have hfile := h rfl rfl le_rfl
    rw [PlanDb.files, renderPlanMirrorFiles, show renderRows _ _ _ = _ from render_start] at hfile
    dsimp only at hfile
    split at hfile <;> cases hfile

end Haive

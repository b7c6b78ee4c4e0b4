import Haive.Dag.Escalation

/-!
# Merging a level

`runLevelMerge`: a fixer in flight is folded in, the branches that were not tried
yet are merged in order, and the conflicts that remain go to a fixer or halt the
step. Every part is a stage of the iteration: no signal is the source's `ok`, a
halt is a failure of the step.

Where a conflict no longer reproduces, the source records the branch as merged and
runs the level merge again; every branch has been tried by then, so what is left of
that run is the choice among the conflicts after it, and `resolveConflicts` goes on
with them.
-/

namespace Dag

open Lib

def maxAutoConflictRetries : Nat := 4

namespace MergeState

def retriesOf (s : MergeState) (key : String) : Option Nat := s.conflictRetries.lookup key

def setRetries (s : MergeState) (key : String) (n : Nat) : MergeState :=
  { s with conflictRetries := (key, n) :: s.conflictRetries.filter (·.1 ≠ key) }

end MergeState

namespace Rows

def setIssue (d : Rows) (level : Nat) (key : String) (f : Issue → Issue) : Rows :=
  { d with
    issues := d.issues.map fun i => if i.level = level && i.issueKey = key then f i else i }

/-- The branches the merge of a level takes. -/
def mergeables (d : Rows) (level : Nat) : List Issue :=
  (d.atLevel level).filter (·.mergeable d.plan.reviewEnabled)

/-- The branches that conflict. -/
def conflicts (d : Rows) (level : Nat) : List Issue :=
  (d.mergeables level).filter (·.mergeStatus = some .conflict)

def mergeState (d : Rows) (level : Nat) : MergeState :=
  ((d.levels.find? (·.level = level)).map (·.mergeState)).getD {}

def saveMergeState (d : Rows) (level : Nat) (s : MergeState) : Rows :=
  d.setLevel level fun l => { l with mergeState := s }

end Rows

def markMerge (status : MergeStatus) (i : Issue) : Issue := { i with mergeStatus := some status }

/-- One conflict goes to a fixer; no signal means that it no longer reproduced and is merged. -/
def startConflictFix (w : World) (level : Nat) (key : String) (afterTruncation : Bool) : Stage :=
  fun d =>
  match w.reopen key with
  | .held note => (d, some (.failed s!"Merge halted on {key}. {note}"))
  | .unaborted => (d, some (.failed s!"Merge halted on {key}."))
  | .refused detail =>
    (d, some (.failed s!"Merge halted — git refused to merge {key}: {detail}. Nothing was merged; clear what git names, then retry."))
  | .merged => (d.setIssue level key (markMerge .clean), none)
  | .conflict =>
    let state := d.mergeState level
    match w.fixer with
    | .alreadyLive => (d, some .waiting)
    | .noProvider =>
      (d, some (.failed s!"Merge halted — no CLI provider for merge resolution: {key}"))
    | .ok =>
      let sent : Invocation := { truncationRetry := afterTruncation || state.lastFixerCut }
      let d' := d.setLevel level fun l =>
        { l with
          mergeState := { state.setRetries key ((state.retriesOf key).getD 0 + 1) with
            activeConflict := some key
            fixInvocationId := some l.fixers.length
            lastFixerCut := false }
          fixers := l.fixers ++ [sent] }
      (d', some .waiting)

/-- The fixer was cut at the output limit, and may be sent once more. -/
def fixerCut (inv : Invocation) : Bool :=
  !inv.runNeverAnswered && inv.failureClass = .truncated && inv.truncationRetryable

/-- The fixer is sent again without spending an attempt. -/
def fixerAgain (inv : Invocation) : Bool := inv.runNeverAnswered || fixerCut inv

/-- The fixer's edits finish the merge. -/
def fixerCommitted (w : World) (inv : Invocation) : Bool :=
  !fixerAgain inv && inv.runFinishedCleanly && w.completes

def stateAfterFixer (state : MergeState) (target : Option Issue) (inv : Invocation) : MergeState :=
  let counted := match target with
    | some t =>
      if fixerAgain inv then state.setRetries t.issueKey ((state.retriesOf t.issueKey).getD 1 - 1)
      else state
    | none => state
  { counted with
    activeConflict := none
    fixInvocationId := none
    lastFixerCut := state.lastFixerCut || (!inv.runNeverAnswered && inv.failureClass = .truncated) }

def foldFixer (w : World) (level : Nat) (target : Option Issue) (inv : Invocation) (d : Rows) : Rows :=
  let merged := match target with
    | some t => if fixerCommitted w inv then d.setIssue level t.issueKey (markMerge .resolved) else d
    | none => d
  merged.saveMergeState level (stateAfterFixer (d.mergeState level) target inv)

/-- After the fixer: its merge has to be aborted unless it was finished, a refusal halts, and a
fixer that was cut is sent again. -/
def afterFixer (w : World) (level : Nat) (target : Option Issue) (inv : Invocation) : Stage := fun d =>
  let aborting := fixerAgain inv || (target.isSome && !fixerCommitted w inv)
  if aborting && !w.aborts then (d, some (.failed "Merge halted: the open merge was not aborted"))
  else
    match target with
    | none => (d, none)
    | some t =>
      if inv.refused then
        (d, some (.failed s!"Merge halted — the provider refused the merge fixer, so it is not sent again: {t.issueKey}"))
      else if fixerCut inv then startConflictFix w level t.issueKey true d
      else (d, none)

/-- The fixer in flight: wait for it, or fold it in. -/
def ingestFixer (w : World) (level id : Nat) : Stage := fun d =>
  match (d.levels.find? (·.level = level)).bind (·.fixers[id]?) with
  | none => (d, some .waiting)
  | some inv =>
    let target := (d.mergeables level).find? fun i =>
      some i.issueKey = (d.mergeState level).activeConflict
    if inv.runIsLive then (d, some .waiting)
    else if w.indexHeld then (d, some (.failed "Merge halted: the index is held"))
    else afterFixer w level target inv (foldFixer w level target inv d)

/-- The merge of one branch that was not tried yet. -/
def mergeIssue (w : World) (i : Issue) : IssueTurn :=
  match w.merge i.issueKey with
  | .held note => { row := i, note := .quiet, thrown := some s!"Merge halted on {i.issueKey}. {note}" }
  | .uncleared | .unaborted => { row := i, note := .quiet, thrown := some s!"Merge halted on {i.issueKey}." }
  | .refused detail =>
    { row := i, note := .quiet,
      thrown := some s!"Merge halted — git refused to merge {i.issueKey}: {detail}. Nothing was merged; clear what git names, then retry." }
  | .merged => { row := markMerge .clean i, note := .quiet }
  | .conflict => { row := markMerge .conflict i, note := .quiet }

def mergePass (w : World) (level : Nat) : Stage := fun d =>
  sweepStage (fun i => i.mergeable d.plan.reviewEnabled && i.mergeStatus.isNone)
    (fun _ => mergeIssue w) level (fun _ _ => none) d

/-- The conflicts that may still be tried, one after the other. -/
def resolveConflicts (w : World) (level : Nat) : List Issue → Stage
  | [], d =>
    if d.conflicts level = [] then (d, none)
    else
      (d, some (.failed s!"Merge halted — auto-resolution exhausted after {maxAutoConflictRetries} attempts per branch"))
  | c :: cs, d =>
    if ((d.mergeState level).retriesOf c.issueKey).getD 0 < maxAutoConflictRetries then
      Stage.andThen (startConflictFix w level c.issueKey false) (resolveConflicts w level cs) d
    else resolveConflicts w level cs d

/-- Conflicts remain: a fixer, or a halt for a person. -/
def decideConflicts (w : World) (level : Nat) : Stage := fun d =>
  if d.conflicts level = [] then (d, none)
  else if d.plan.autoResolveConflicts then resolveConflicts w level (d.conflicts level) d
  else
    (d, some (.failed s!"Merge halted — {(d.conflicts level).length} branch(es) conflict. Resolve with \"Retry with LLM\""))

/-- The fixer before the merge pass: one in flight, or the one a person asked for. -/
def beforeMerge (w : World) (level : Nat) : Stage := fun d =>
  match (d.mergeState level).fixInvocationId with
  | some id => ingestFixer w level id d
  | none =>
    if w.aiFixContext then
      match (d.conflicts level).head? with
      | some target => startConflictFix w level target.issueKey false d
      | none => (d, none)
    else (d, none)

def runLevelMerge (w : World) (level : Nat) : Stage :=
  Stage.andThen (beforeMerge w level) (Stage.andThen (mergePass w level) (decideConflicts w level))

end Dag

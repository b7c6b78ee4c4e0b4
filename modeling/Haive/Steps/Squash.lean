import Haive.Lib.Prog
import Haive.Lib.Runs
import Mathlib.Logic.Relation
import Mathlib.Data.List.Basic

/-!
# Squashing a merge

`squashMergeCommit` of `step-engine/git-merge.ts` turns the merge of a feature branch into one
commit on the base: `reset --soft` to the base tip, then `commit`. A worker that is killed in
between is run again and finds out from HEAD, ORIG_HEAD, their parents and the index what is left
to do. `At` lists what it can find, and `squash_crash_safe` is about any sequence of such runs.

Each git command is atomic. A git that cannot be started is left out: what a command exits with is
what it says about the repository.
-/

namespace Haive.Steps.Squash

open Lib

/-! ## Git -/

/-- The commits. A sha names the same one for ever, so those still to be made are here too. -/
structure Objects (Sha Tree : Type) where
  parents : Sha → List Sha
  tree : Sha → Tree
  message : Sha → String
  /-- `git merge-base --is-ancestor`. -/
  isAncestor : Sha → Sha → Bool
  isAncestor_iff : ∀ a d, isAncestor a d = true ↔ Relation.ReflTransGen (fun c p => p ∈ parents c) d a

inductive Rev (Sha : Type)
  | head
  | origHead
  | mergeHead
  /-- `featureRef`. -/
  | feature
  | sha (sha : Sha)
deriving DecidableEq

/-- The checkout, and the tip of the feature branch. -/
structure Repo (Sha Tree : Type) where
  head : Sha
  /-- `none` where it names no commit. -/
  origHead : Option Sha
  mergeHead : Option Sha
  index : Tree
  feature : Sha
deriving DecidableEq

variable {Sha Tree : Type}

def Repo.resolve (r : Repo Sha Tree) : Rev Sha → Option Sha
  | .head => some r.head
  | .origHead => r.origHead
  | .mergeHead => r.mergeHead
  | .feature => some r.feature
  | .sha sha => some sha

inductive Git (Sha : Type)
  /-- `rev-list --parents -n 1 <rev>`. -/
  | revList (rev : Rev Sha)
  /-- `rev-parse <rev>^{commit}`. -/
  | commitOf (rev : Rev Sha)
  /-- `rev-parse <rev>^2^{commit}`. -/
  | secondParent (rev : Rev Sha)
  /-- `rev-parse <rev>^{tree}`. -/
  | treeOf (rev : Rev Sha)
  | isAncestor (ancestor descendant : Sha)
  | writeTree
  | resetSoft (target : Sha)
  | commit (message : String)

/-- What it prints; `none` and `false` where it fails. -/
@[reducible] def Reply (Sha Tree : Type) : Git Sha → Type
  | .revList _ => Option (List Sha)
  | .commitOf _ => Option Sha
  | .secondParent _ => Option Sha
  | .treeOf _ => Option Tree
  | .isAncestor _ _ => Option Bool
  | .writeTree => Option Tree
  | .resetSoft _ => Bool
  | .commit _ => Bool

section
variable [DecidableEq Sha] [DecidableEq Tree] (o : Objects Sha Tree)

def exec (made : Sha) (r : Repo Sha Tree) : (q : Git Sha) → Option (Reply Sha Tree q × Repo Sha Tree)
  | .revList rev => some ((r.resolve rev).map fun c => c :: o.parents c, r)
  | .commitOf rev => some (r.resolve rev, r)
  | .secondParent rev => some ((r.resolve rev).bind fun c => (o.parents c)[1]?, r)
  | .treeOf rev => some ((r.resolve rev).map o.tree, r)
  | .isAncestor a d => some (some (o.isAncestor a d), r)
  | .writeTree => some (some r.index, r)
  | .resetSoft target => some (true, { r with head := target, origHead := some r.head })
  | .commit message =>
    if r.index = o.tree r.head then some (false, r)
    else if o.parents made = [r.head] ∧ o.tree made = r.index ∧ o.message made = message then
      some (true, { r with head := made })
    else none

end

/-! ## The function -/

inductive SquashError
  /-- `Could not check feature ancestry before squash`. -/
  | ancestry
  /-- `Cannot resume squash: HEAD is unreadable; …`. -/
  | headUnreadable
  /-- `Cannot resume squash: <reason>; <action> in …, then Retry.`. -/
  | cannotResume (reason action : String)
  /-- `git write-tree failed: …`. -/
  | writeTree
  /-- `Could not read the base tree before squash`. -/
  | baseTree
  /-- `git reset --soft … failed: …`. -/
  | reset
  /-- `git commit (squash) failed: …`. -/
  | commit
  /-- `git rev-parse HEAD failed in …`. -/
  | revParseHead
deriving DecidableEq

/-- The commit that HEAD is on, or `null`, with what `onSkipped` is told. -/
inductive Returned (Sha : Type)
  | sha (sha : Sha)
  | null (skipped : Option String)
deriving DecidableEq

abbrev GitM (Sha Tree : Type) : Type → Type := Script (Git Sha) (Reply Sha Tree) SquashError Unit

def git (q : Git Sha) : GitM Sha Tree (Reply Sha Tree q) := Script.ask q

section
variable [DecidableEq Sha] [DecidableEq Tree] (baseShaBefore : Sha) (squashMergeSha : Option Sha)

def isCommitAncestor (ancestor descendant : Sha) : GitM Sha Tree Bool := do
  if ancestor = descendant then pure true
  else
    match ← git (.isAncestor ancestor descendant) with
    | some answer => pure answer
    | none => Script.throw .ancestry

def onBase (headCommits : List Sha) : Bool :=
  headCommits[0]? = some baseShaBefore || (headCommits.length = 2 && headCommits[1]? = some baseShaBefore)

/-- `feature`: the branch's tip, or the tip that was merged where the branch has only moved on. -/
def featureTip (headParents : Option (List Sha)) : GitM Sha Tree (Option Sha) := do
  match squashMergeSha with
  | some merge => git (.secondParent (.sha merge))
  | none =>
    let tip ← git (.commitOf .feature)
    match tip, headParents with
    | some feature, some headCommits =>
      let featureMerge := if onBase baseShaBefore headCommits then .origHead else .head
      match ← git (.secondParent featureMerge) with
      | some mergedFeature =>
        if ← isCommitAncestor mergedFeature feature then pure (some mergedFeature) else pure tip
      | none => pure tip
    | _, _ => pure tip

def recoveringSquash (headParents origParents : Option (List Sha)) : Bool :=
  (match headParents, origParents with
    | some headCommits, some origCommits =>
      onBase baseShaBefore headCommits && origCommits.length = 3 && origCommits[1]? = some baseShaBefore
    | _, _ => false) ||
  squashMergeSha.any fun merge =>
    headParents.any (·[0]? = some merge) || origParents.any (·[0]? = some merge)

/-- The feature is in the base already. -/
def contained (feature : Option Sha) (recovering : Bool) : GitM Sha Tree Bool := do
  match feature, recovering with
  | some feature, false =>
    match ← git (.isAncestor feature baseShaBefore) with
    | some answer => pure answer
    | none => Script.throw .ancestry
  | _, _ => pure false

/-- `matchesMerge`: the candidate is the recorded merge, or one of what the feature holds. -/
def matchesMerge (feature : Option Sha) (parents : Option (List Sha)) : GitM Sha Tree Bool := do
  match squashMergeSha with
  | some merge => pure (parents.any (·[0]? = some merge))
  | none =>
    match parents, feature with
    | some [_, _, merged], some feature => isCommitAncestor merged feature
    | _, _ => pure false

def skip (resuming : Bool) (reason action : String) : GitM Sha Tree (Returned Sha) :=
  if resuming then Script.throw (.cannotResume reason action)
  else pure (.null (some s!"Squash skipped; merge history kept: {reason}."))

def commitSquash (message : String) : GitM Sha Tree (Returned Sha) := do
  if ← git (.commit message) then
    match ← git (.commitOf .head) with
    | some sha => pure (.sha sha)
    | none => Script.throw .revParseHead
  else Script.throw .commit

def resetAndCommit (message : String) (mergedTree : Tree) : GitM Sha Tree (Returned Sha) := do
  match ← git (.treeOf (.sha baseShaBefore)) with
  | none => Script.throw .baseTree
  | some baseTree =>
    if mergedTree = baseTree then
      skip false "the feature merge has an empty net diff" "restore the feature merge"
    else if ← git (.resetSoft baseShaBefore) then commitSquash message
    else Script.throw .reset

/-- What follows once the candidate is known to be the merge `commits`. -/
def finishSquash (message : String) (head merge : Sha) (resetAlready committedAlready : Bool) :
    GitM Sha Tree (Returned Sha) := do
  let mergedTree ← git (.treeOf (.sha merge))
  if committedAlready then
    let headTree ← git (.treeOf .head)
    if mergedTree.isSome && headTree = mergedTree then pure (.sha head)
    else skip true "the tip tree differs from the feature merge" "restore HEAD to the squash commit"
  else
    match ← git .writeTree with
    | none => Script.throw .writeTree
    | some index =>
      if mergedTree ≠ some index then
        let baseTree ←
          if resetAlready then git (.treeOf (.sha baseShaBefore)) else pure none
        skip resetAlready "the staged tree differs from the feature merge"
          (if baseTree = some index then "restore the staged tree from the feature merge"
            else "unstage the other changes")
      else if resetAlready then commitSquash message
      else resetAndCommit baseShaBefore message index

/-- What follows where the feature is not in the base and no merge is open. -/
def squashTip (message : String) (shaText : Sha → String) (headParents : Option (List Sha))
    (feature : Option Sha) : GitM Sha Tree (Returned Sha) := do
  match ← git (.commitOf .head) with
  | none => Script.throw .headUnreadable
  | some head =>
    let resetAlready := decide (head = baseShaBefore)
    let committedAlready := !resetAlready &&
      headParents.any fun headCommits => headCommits.length = 2 && headCommits[1]? = some baseShaBefore
    let resuming := resetAlready || committedAlready
    let parents ← git (.revList (if resuming then .origHead else .head))
    let isMerge ← matchesMerge squashMergeSha feature parents
    match parents, isMerge with
    | some [merge, firstParent, _], true =>
      if firstParent ≠ baseShaBefore then
        skip resuming "the merge first parent differs from the recorded base tip"
          (restoreMerge shaText)
      else finishSquash baseShaBefore message head merge resetAlready committedAlready
    | _, _ => skip resuming "the tip is not the recorded feature merge" (restoreMerge shaText)
where
  restoreMerge (shaText : Sha → String) : String :=
    "restore ORIG_HEAD to the feature merge" ++ (squashMergeSha.map fun merge => " " ++ shaText merge).getD ""

def squashMergeCommit (message : String) (shaText : Sha → String) : GitM Sha Tree (Returned Sha) := do
  let headParents ← git (.revList .head)
  let feature ← featureTip baseShaBefore squashMergeSha headParents
  let origParents ← git (.revList .origHead)
  if ← contained baseShaBefore feature
      (recoveringSquash baseShaBefore squashMergeSha headParents origParents) then pure (.null none)
  else if (← git (.commitOf .mergeHead)).isSome then pure (.null none)
  else squashTip baseShaBefore squashMergeSha message shaText headParents feature

end

/-! ## Calls -/

/-- A merge of a feature that the base does not hold, with changes. -/
structure FeatureMerge (o : Objects Sha Tree) (base feature merge : Sha) : Prop where
  parents : o.parents merge = [base, feature]
  new : o.isAncestor feature base = false
  changes : o.tree merge ≠ o.tree base

/-- The checkout, the call that is running and what the calls before it returned or threw. -/
structure Sys (Sha Tree : Type) where
  repo : Repo Sha Tree
  call : Option (Prog (Git Sha) (Reply Sha Tree) (Except SquashError (Returned Sha) × Unit))
  results : List (Except SquashError (Returned Sha))

inductive Action (Sha : Type)
  /-- A call, with or without the merge as the recorded one. -/
  | call (recorded : Bool)
  /-- The next command of the call. -/
  | git (made : Sha)
  /-- The call is through its commands. -/
  | finish
  | kill
  /-- The feature branch moves on. -/
  | push (tip : Sha)

section
variable [DecidableEq Sha] [DecidableEq Tree] (o : Objects Sha Tree) (base merge : Sha) (message : String)
  (shaText : Sha → String)

def Sys.step (s : Sys Sha Tree) : Action Sha → Option (Sys Sha Tree)
  | .call recorded =>
    if s.call.isNone then
      some { s with
        call := some (squashMergeCommit base (if recorded then some merge else none) message shaText ()) }
    else none
  | .git made =>
    match s.call with
    | some (.ask q k) => (exec o made s.repo q).map fun (reply, repo) => { s with repo, call := some (k reply) }
    | _ => none
  | .finish =>
    match s.call with
    | some (.pure (result, _)) => some { s with call := none, results := s.results ++ [result] }
    | _ => none
  | .kill => some { s with call := none }
  | .push tip =>
    if o.isAncestor s.repo.feature tip then some { s with repo := { s.repo with feature := tip } } else none

end

/-! ## What a call finds -/

/-- How far the squash is. -/
inductive Stage
  | merged
  | reset
  | squashed

section
variable (o : Objects Sha Tree) (base feature merge : Sha)

structure At (stage : Stage) (c : Sha) (r : Repo Sha Tree) : Prop where
  head : r.head = c
  index : r.index = o.tree merge
  mergeHead : r.mergeHead = none
  feature : o.isAncestor feature r.feature = true
  place :
    match stage with
    | .merged => c = merge
    | .reset => c = base ∧ r.origHead = some merge
    | .squashed => o.parents c = [base] ∧ o.tree c = o.tree merge ∧ r.origHead = some merge

/-- The feature branch may have moved on between two commands. -/
def Moves (r r' : Repo Sha Tree) : Prop :=
  ∃ tip, o.isAncestor r.feature tip = true ∧ r' = { r with feature := tip }

def allowed (message : String) (r : Repo Sha Tree) : Git Sha → Prop
  | .resetSoft target => target = base ∧ At o base feature merge .merged merge r
  | .commit text => text = message ∧ At o base feature merge .reset base r
  | _ => True

variable [DecidableEq Sha] [DecidableEq Tree]

/-- The call's side of it, with pushes before every command. -/
def gitLogic (message : String) : Logic (Git Sha) (Reply Sha Tree) (Repo Sha Tree) where
  may r q := (∃ stage c, At o base feature merge stage c r) ∧ allowed o base feature merge message r q
  reply r q reply r' := ∃ r₁ made, Moves o r r₁ ∧ exec o made r₁ q = some (reply, r')

end

section
variable {o : Objects Sha Tree} {base feature merge c : Sha} {stage : Stage} {r r' r₁ : Repo Sha Tree}

theorem isAncestor_trans {a b d : Sha} (hab : o.isAncestor a b = true) (hbd : o.isAncestor b d = true) :
    o.isAncestor a d = true := by
  rw [o.isAncestor_iff] at hab hbd ⊢
  exact hbd.trans hab

theorem isAncestor_self (a : Sha) : o.isAncestor a a = true :=
  (o.isAncestor_iff a a).mpr .refl

theorem Moves.refl (r : Repo Sha Tree) : Moves o r r := ⟨r.feature, isAncestor_self _, rfl⟩

theorem Moves.trans (h : Moves o r r₁) (h' : Moves o r₁ r') : Moves o r r' := by
  obtain ⟨tip, hon, rfl⟩ := h
  obtain ⟨tip', hon', rfl⟩ := h'
  exact ⟨tip', isAncestor_trans hon hon', rfl⟩

theorem At.moves (h : At o base feature merge stage c r) (hm : Moves o r r') :
    At o base feature merge stage c r' := by
  obtain ⟨tip, hon, rfl⟩ := hm
  exact ⟨h.head, h.index, h.mergeHead, isAncestor_trans h.feature hon, h.place⟩

/-! ## Reading -/

variable [DecidableEq Sha] [DecidableEq Tree] {message : String} {α : Type}
  {thrown : SquashError → Unit → Repo Sha Tree → Prop}

/-- The call is where it was after a command that only reads, and has what that reads. -/
theorem wp_read {q : Git Sha} {value : Repo Sha Tree → Reply Sha Tree q}
    {post : Reply Sha Tree q → Unit → Repo Sha Tree → Prop}
    (h : At o base feature merge stage c r) (hread : ∀ made r', exec o made r' q = some (value r', r'))
    (hallowed : allowed o base feature merge message r q)
    (hpost : ∀ r', At o base feature merge stage c r' → post (value r') () r') :
    Script.wp (gitLogic o base feature merge message) (git q) post thrown () r := by
  rw [git, Script.wp_ask]
  refine ⟨⟨⟨stage, c, h⟩, hallowed⟩, ?_⟩
  rintro reply r' ⟨r₁, made, hmoves, hexec⟩
  rw [hread, Option.some.injEq, Prod.mk.injEq] at hexec
  obtain ⟨rfl, rfl⟩ := hexec
  exact hpost _ (h.moves hmoves)

theorem wp_isCommitAncestor {a d : Sha} {post : Bool → Unit → Repo Sha Tree → Prop}
    (h : At o base feature merge stage c r)
    (hpost : ∀ r', At o base feature merge stage c r' → post (o.isAncestor a d) () r') :
    Script.wp (gitLogic o base feature merge message) (isCommitAncestor a d) post thrown () r := by
  unfold isCommitAncestor
  split
  · next heq =>
    subst heq
    rw [Script.wp_pure, ← isAncestor_self (o := o) a]
    exact hpost r h
  · rw [Script.wp_bind]
    exact wp_read h (fun _ _ => rfl) trivial fun r' h' => hpost r' h'

def Stage.mergeRev : Stage → Rev Sha
  | .merged => .head
  | .reset => .origHead
  | .squashed => .origHead

omit [DecidableEq Sha] [DecidableEq Tree] in
theorem At.resolve (h : At o base feature merge stage c r) : r.resolve stage.mergeRev = some merge := by
  cases stage with
  | merged => exact congrArg some (h.head.trans h.place)
  | reset => exact h.place.2
  | squashed => exact h.place.2.2

omit [DecidableEq Tree] in
theorem At.onBase (hmerge : FeatureMerge o base feature merge) (h : At o base feature merge stage c r) :
    onBase base (c :: o.parents c) = true ↔ stage ≠ .merged := by
  cases stage with
  | merged =>
    have hc : c = merge := h.place
    have hne : merge ≠ base := fun heq => hmerge.changes (congrArg o.tree heq)
    simp [Squash.onBase, hc, hmerge.parents, hne]
  | reset => simp [Squash.onBase, h.place.1]
  | squashed => simp [Squash.onBase, h.place.1]

theorem wp_featureTip (hmerge : FeatureMerge o base feature merge) {recorded : Option Sha}
    (hrecorded : recorded = none ∨ recorded = some merge) {post : Option Sha → Unit → Repo Sha Tree → Prop}
    (h : At o base feature merge stage c r)
    (hpost : ∀ r', At o base feature merge stage c r' → post (some feature) () r') :
    Script.wp (gitLogic o base feature merge message)
      (featureTip base recorded (some (c :: o.parents c))) post thrown () r := by
  unfold featureTip
  rcases hrecorded with rfl | rfl
  · -- The merge is where HEAD says it is, and its feature is one that the branch has moved on from.
    have hrev : (if Squash.onBase base (c :: o.parents c) then .origHead else .head : Rev Sha) = stage.mergeRev := by
      cases stage with
      | merged => exact if_neg fun hon => (h.onBase hmerge).mp hon rfl
      | reset => exact if_pos ((h.onBase hmerge).mpr nofun)
      | squashed => exact if_pos ((h.onBase hmerge).mpr nofun)
    rw [Script.wp_bind]
    refine wp_read h (fun _ _ => rfl) trivial fun r₁ h₁ => ?_
    simp only [Repo.resolve]
    rw [Script.wp_bind]
    refine wp_read h₁ (fun _ _ => rfl) trivial fun r₂ h₂ => ?_
    simp only [hrev, h₂.resolve, Option.bind_some, hmerge.parents, List.getElem?_cons_succ, List.getElem?_cons_zero]
    rw [Script.wp_bind]
    refine wp_isCommitAncestor h₂ fun r₃ h₃ => ?_
    rw [h₁.feature]
    exact hpost r₃ h₃
  · refine wp_read h (fun _ _ => rfl) trivial fun r₁ h₁ => ?_
    simpa [Repo.resolve, hmerge.parents] using hpost r₁ h₁

theorem wp_contained (hmerge : FeatureMerge o base feature merge) {recovering : Bool}
    {post : Bool → Unit → Repo Sha Tree → Prop} (h : At o base feature merge stage c r)
    (hpost : ∀ r', At o base feature merge stage c r' → post false () r') :
    Script.wp (gitLogic o base feature merge message)
      (contained base (some feature) recovering) post thrown () r := by
  unfold contained
  cases recovering with
  | true => exact hpost r h
  | false =>
    simp only
    rw [Script.wp_bind]
    refine wp_read h (fun _ _ => rfl) trivial fun r₁ h₁ => ?_
    rw [hmerge.new]
    exact hpost r₁ h₁

theorem wp_matchesMerge (hmerge : FeatureMerge o base feature merge) {recorded : Option Sha}
    (hrecorded : recorded = none ∨ recorded = some merge) {post : Bool → Unit → Repo Sha Tree → Prop}
    (h : At o base feature merge stage c r)
    (hpost : ∀ r', At o base feature merge stage c r' → post true () r') :
    Script.wp (gitLogic o base feature merge message)
      (matchesMerge recorded (some feature) (some (merge :: o.parents merge))) post thrown () r := by
  unfold matchesMerge
  rcases hrecorded with rfl | rfl
  · rw [hmerge.parents]
    refine wp_isCommitAncestor h fun r₁ h₁ => ?_
    rw [isAncestor_self]
    exact hpost r₁ h₁
  · simpa using hpost r h

/-! ## Writing -/

theorem wp_commitSquash (hmerge : FeatureMerge o base feature merge)
    {post : Returned Sha → Unit → Repo Sha Tree → Prop} (h : At o base feature merge .reset base r)
    (hpost : ∀ c r', At o base feature merge .squashed c r' → post (.sha c) () r') :
    Script.wp (gitLogic o base feature merge message) (commitSquash message) post thrown () r := by
  unfold commitSquash
  rw [Script.wp_bind, git, Script.wp_ask]
  refine ⟨⟨⟨.reset, base, h⟩, rfl, h⟩, ?_⟩
  rintro reply r' ⟨r₁, made, hmoves, hexec⟩
  have h₁ := h.moves hmoves
  have hchanged : ¬ r₁.index = o.tree r₁.head := by
    rw [h₁.index, h₁.head]
    exact hmerge.changes
  rw [exec, if_neg hchanged] at hexec
  split at hexec
  · next hmade =>
    obtain ⟨hparents, htree, _⟩ := hmade
    cases hexec
    have hsquashed : At o base feature merge .squashed made { r₁ with head := made } :=
      ⟨rfl, h₁.index, h₁.mergeHead, h₁.feature, by rw [hparents, h₁.head], by rw [htree, h₁.index],
        h₁.place.2⟩
    simp only [if_true]
    rw [Script.wp_bind]
    refine wp_read hsquashed (fun _ _ => rfl) trivial fun r₂ h₂ => ?_
    simp only [Repo.resolve, h₂.head]
    exact hpost made r₂ h₂
  · cases hexec

theorem wp_resetAndCommit (hmerge : FeatureMerge o base feature merge)
    {post : Returned Sha → Unit → Repo Sha Tree → Prop} (h : At o base feature merge .merged merge r)
    (hpost : ∀ c r', At o base feature merge .squashed c r' → post (.sha c) () r') :
    Script.wp (gitLogic o base feature merge message)
      (resetAndCommit base message (o.tree merge)) post thrown () r := by
  unfold resetAndCommit
  rw [Script.wp_bind]
  refine wp_read h (fun _ _ => rfl) trivial fun r₁ h₁ => ?_
  simp only [Repo.resolve, Option.map_some, if_neg hmerge.changes]
  rw [Script.wp_bind, git, Script.wp_ask]
  refine ⟨⟨⟨.merged, merge, h₁⟩, rfl, h₁⟩, ?_⟩
  rintro reply r' ⟨r₂, made, hmoves, hexec⟩
  have h₂ := h₁.moves hmoves
  cases hexec
  have hreset : At o base feature merge .reset base { r₂ with head := base, origHead := some r₂.head } :=
    ⟨rfl, h₂.index, h₂.mergeHead, h₂.feature, rfl, congrArg some h₂.head⟩
  exact wp_commitSquash hmerge hreset hpost

/-- A call that gets as far as the merge returns the squash. -/
theorem wp_finishSquash (hmerge : FeatureMerge o base feature merge)
    {post : Returned Sha → Unit → Repo Sha Tree → Prop} (h : At o base feature merge stage c r)
    {resetAlready committedAlready : Bool} (hreset : resetAlready = true ↔ stage = .reset)
    (hcommitted : committedAlready = true ↔ stage = .squashed)
    (hpost : ∀ c' r', At o base feature merge .squashed c' r' → post (.sha c') () r') :
    Script.wp (gitLogic o base feature merge message)
      (finishSquash base message c merge resetAlready committedAlready) post thrown () r := by
  unfold finishSquash
  rw [Script.wp_bind]
  refine wp_read h (fun _ _ => rfl) trivial fun r₁ h₁ => ?_
  cases stage with
  | merged =>
    obtain rfl : resetAlready = false := by simpa using hreset
    obtain rfl : committedAlready = false := by simpa using hcommitted
    obtain rfl : c = merge := h.place
    simp only [Bool.false_eq_true, if_false]
    rw [Script.wp_bind]
    refine wp_read h₁ (fun _ _ => rfl) trivial fun r₂ h₂ => ?_
    simp only [Repo.resolve, h₂.index, Option.map_some, ne_eq, not_true_eq_false, if_false]
    exact wp_resetAndCommit hmerge h₂ hpost
  | reset =>
    obtain rfl : resetAlready = true := hreset.mpr rfl
    obtain rfl : committedAlready = false := by simpa using hcommitted
    obtain rfl : c = base := h.place.1
    simp only [Bool.false_eq_true, if_false]
    rw [Script.wp_bind]
    refine wp_read h₁ (fun _ _ => rfl) trivial fun r₂ h₂ => ?_
    simp only [Repo.resolve, h₂.index, Option.map_some, ne_eq, not_true_eq_false, if_false, if_true]
    exact wp_commitSquash hmerge h₂ hpost
  | squashed =>
    obtain rfl : committedAlready = true := hcommitted.mpr rfl
    simp only [if_true]
    rw [Script.wp_bind]
    refine wp_read h₁ (fun _ _ => rfl) trivial fun r₂ h₂ => ?_
    simp only [Repo.resolve, h₂.head, h.place.2.1, Option.map_some, Option.isSome_some, Bool.true_and,
      decide_true, if_true]
    exact hpost c r₂ h₂

omit [DecidableEq Tree] in
theorem At.resetAlready (hmerge : FeatureMerge o base feature merge)
    (h : At o base feature merge stage c r) : decide (c = base) = true ↔ stage = .reset := by
  rw [decide_eq_true_eq]
  cases stage with
  | merged =>
    have hc : c = merge := h.place
    exact iff_of_false (fun heq => hmerge.changes (by rw [← hc, heq])) nofun
  | reset => exact iff_of_true h.place.1 rfl
  | squashed => exact iff_of_false (fun heq => hmerge.changes (by rw [← h.place.2.1, heq])) nofun

omit [DecidableEq Tree] in
theorem At.committedAlready (hmerge : FeatureMerge o base feature merge)
    (h : At o base feature merge stage c r) :
    (!decide (c = base) && (some (c :: o.parents c)).any fun headCommits =>
      headCommits.length = 2 && headCommits[1]? = some base) = true ↔ stage = .squashed := by
  have hreset := h.resetAlready hmerge
  rw [decide_eq_true_eq] at hreset
  cases stage with
  | merged =>
    have hc : c = merge := h.place
    simp [hc, hmerge.parents]
  | reset => simp [hreset.mpr rfl]
  | squashed =>
    have hne : c ≠ base := fun heq => nomatch hreset.mp heq
    simp [hne, h.place.1]

theorem wp_squashTip (hmerge : FeatureMerge o base feature merge) {recorded : Option Sha}
    (hrecorded : recorded = none ∨ recorded = some merge) (shaText : Sha → String)
    {post : Returned Sha → Unit → Repo Sha Tree → Prop} (h : At o base feature merge stage c r)
    (hpost : ∀ c' r', At o base feature merge .squashed c' r' → post (.sha c') () r') :
    Script.wp (gitLogic o base feature merge message)
      (squashTip base recorded message shaText (some (c :: o.parents c)) (some feature)) post thrown () r := by
  have hreset := h.resetAlready hmerge
  have hcommitted := h.committedAlready hmerge
  have hresuming : (decide (c = base) || (!decide (c = base) && (some (c :: o.parents c)).any
      fun headCommits => headCommits.length = 2 && headCommits[1]? = some base)) = true ↔
      stage ≠ .merged := by
    rw [Bool.or_eq_true, hreset, hcommitted]
    cases stage <;> simp
  have hrev : (if decide (c = base) || (!decide (c = base) && (some (c :: o.parents c)).any
      fun headCommits => headCommits.length = 2 && headCommits[1]? = some base)
      then .origHead else .head : Rev Sha) = stage.mergeRev := by
    cases stage with
    | merged => exact if_neg fun hon => hresuming.mp hon rfl
    | reset => exact if_pos (hresuming.mpr nofun)
    | squashed => exact if_pos (hresuming.mpr nofun)
  unfold squashTip
  rw [Script.wp_bind]
  refine wp_read h (fun _ _ => rfl) trivial fun r₁ h₁ => ?_
  simp only [Repo.resolve, h₁.head]
  rw [Script.wp_bind]
  refine wp_read h₁ (fun _ _ => rfl) trivial fun r₂ h₂ => ?_
  rw [Script.wp_bind, hrev, h₂.resolve, Option.map_some]
  refine wp_matchesMerge hmerge hrecorded h₂ fun r₃ h₃ => ?_
  simp only [hmerge.parents, ne_eq, not_true_eq_false, if_false]
  exact wp_finishSquash hmerge h₃ hreset hcommitted hpost

theorem wp_squashMergeCommit (hmerge : FeatureMerge o base feature merge) {recorded : Option Sha}
    (hrecorded : recorded = none ∨ recorded = some merge) (shaText : Sha → String)
    {post : Returned Sha → Unit → Repo Sha Tree → Prop} (h : At o base feature merge stage c r)
    (hpost : ∀ c' r', At o base feature merge .squashed c' r' → post (.sha c') () r') :
    Script.wp (gitLogic o base feature merge message)
      (squashMergeCommit base recorded message shaText) post thrown () r := by
  unfold squashMergeCommit
  rw [Script.wp_bind]
  refine wp_read h (fun _ _ => rfl) trivial fun r₁ h₁ => ?_
  simp only [Repo.resolve, Option.map_some, h₁.head]
  rw [Script.wp_bind]
  refine wp_featureTip hmerge hrecorded h₁ fun r₂ h₂ => ?_
  rw [Script.wp_bind]
  refine wp_read h₂ (fun _ _ => rfl) trivial fun r₃ h₃ => ?_
  rw [Script.wp_bind]
  refine wp_contained hmerge h₃ fun r₄ h₄ => ?_
  simp only [Bool.false_eq_true, if_false]
  rw [Script.wp_bind]
  refine wp_read h₄ (fun _ _ => rfl) trivial fun r₅ h₅ => ?_
  simp only [Repo.resolve, h₅.mergeHead, Option.isSome_none, Bool.false_eq_true, if_false]
  exact wp_squashTip hmerge hrecorded shaText h₅ hpost

end

/-! ## Runs -/

def Repo.checkout (r : Repo Sha Tree) : Sha × Option Sha × Option Sha × Tree :=
  (r.head, r.origHead, r.mergeHead, r.index)

section
variable (o : Objects Sha Tree) (base feature merge : Sha)

/-- The call is through, with the squash. -/
def Done (result : Except SquashError (Returned Sha) × Unit) (r : Repo Sha Tree) : Prop :=
  ∃ c, result.1 = .ok (.sha c) ∧ At o base feature merge .squashed c r

structure Sys.Sound [DecidableEq Sha] [DecidableEq Tree] (message : String) (s : Sys Sha Tree) : Prop where
  place : ∃ stage c, At o base feature merge stage c s.repo
  call : ∀ p, s.call = some p →
    p.wp (gitLogic o base feature merge message) (Done o base feature merge) s.repo
  results : ∀ result ∈ s.results, Done o base feature merge (result, ()) s.repo

end

section
variable {o : Objects Sha Tree} {base feature merge c : Sha} {r r' : Repo Sha Tree}

theorem Moves.checkout (h : Moves o r r') : r'.checkout = r.checkout := by
  obtain ⟨tip, _, rfl⟩ := h
  rfl

theorem Done.moves {result : Except SquashError (Returned Sha) × Unit}
    (h : Done o base feature merge result r) (hm : Moves o r r') : Done o base feature merge result r' := by
  obtain ⟨c, hresult, hat⟩ := h
  exact ⟨c, hresult, hat.moves hm⟩

theorem At.squashed_alone (hmerge : FeatureMerge o base feature merge)
    (h : At o base feature merge .squashed c r) :
    ¬ At o base feature merge .merged merge r ∧ ¬ At o base feature merge .reset base r := by
  refine ⟨fun h' => ?_, fun h' => ?_⟩
  · have hparents := h.place.1
    rw [← h.head, h'.head, hmerge.parents] at hparents
    cases hparents
  · have htree := h.place.2.1
    rw [← h.head, h'.head] at htree
    exact hmerge.changes htree.symm

variable [DecidableEq Sha] [DecidableEq Tree] {message : String}
  {p : Prog (Git Sha) (Reply Sha Tree) (Except SquashError (Returned Sha) × Unit)}

theorem wp_moves (h : p.wp (gitLogic o base feature merge message) (Done o base feature merge) r)
    (hm : Moves o r r') : p.wp (gitLogic o base feature merge message) (Done o base feature merge) r' := by
  cases p with
  | pure result => exact Done.moves h hm
  | ask q k =>
    obtain ⟨⟨⟨stage, c, hat⟩, hallowed⟩, hnext⟩ := h
    refine ⟨⟨⟨stage, c, hat.moves hm⟩, ?_⟩, ?_⟩
    · cases q with
      | resetSoft target => exact ⟨hallowed.1, hallowed.2.moves hm⟩
      | commit text => exact ⟨hallowed.1, hallowed.2.moves hm⟩
      | _ => trivial
    · rintro reply r'' ⟨r₁, made, hm', hexec⟩
      exact hnext reply r'' ⟨r₁, made, hm.trans hm', hexec⟩

theorem place_of_wp (h : p.wp (gitLogic o base feature merge message) (Done o base feature merge) r) :
    ∃ stage c, At o base feature merge stage c r := by
  cases p with
  | pure result =>
    obtain ⟨c, _, hat⟩ := h
    exact ⟨.squashed, c, hat⟩
  | ask q k => exact h.1.1

/-- Nothing that a call may ask for changes the squash. -/
theorem exec_squashed (hmerge : FeatureMerge o base feature merge) {q : Git Sha} {made : Sha}
    {reply : Reply Sha Tree q} (h : At o base feature merge .squashed c r)
    (hallowed : allowed o base feature merge message r q) (hexec : exec o made r q = some (reply, r')) :
    r' = r := by
  obtain ⟨hmerged, hreset⟩ := h.squashed_alone hmerge
  cases q with
  | resetSoft target => exact absurd hallowed.2 hmerged
  | commit text => exact absurd hallowed.2 hreset
  | _ =>
    cases hexec
    rfl

variable {shaText : Sha → String} {s s' : Sys Sha Tree} {a : Action Sha}

theorem step_sound (hmerge : FeatureMerge o base feature merge)
    (h : s.Sound o base feature merge message) (hs : s.step o base merge message shaText a = some s') :
    s'.Sound o base feature merge message ∧
      ∀ c, At o base feature merge .squashed c s.repo →
        At o base feature merge .squashed c s'.repo ∧ s'.repo.checkout = s.repo.checkout := by
  cases a with
  | call recorded =>
    obtain ⟨_, hs⟩ := Option.ite_none_right_eq_some.mp hs
    cases hs
    refine ⟨⟨h.place, fun p hp => ?_, h.results⟩, fun c hc => ⟨hc, rfl⟩⟩
    cases hp
    obtain ⟨stage, c, hat⟩ := h.place
    have hrecorded : (if recorded then some merge else none) = none ∨
        (if recorded then some merge else none) = some merge := by cases recorded <;> simp
    have hwp : Script.wp (gitLogic o base feature merge message)
        (squashMergeCommit base (if recorded then some merge else none) message shaText)
        (fun returned _ r => ∃ c, returned = .sha c ∧ At o base feature merge .squashed c r)
        (fun _ _ _ => False) () s.repo :=
      wp_squashMergeCommit hmerge hrecorded shaText hat fun c r hc => ⟨c, rfl, hc⟩
    refine Prog.wp_mono ?_ hwp
    rintro ⟨result, _⟩ r hr
    cases result with
    | ok returned =>
      obtain ⟨c, rfl, hc⟩ := hr
      exact ⟨c, rfl, hc⟩
    | error e => exact hr.elim
  | git made =>
    rw [Sys.step] at hs
    split at hs
    case h_2 => cases hs
    case h_1 q k hcall =>
      obtain ⟨⟨reply, repo⟩, hexec, hs⟩ := Option.map_eq_some_iff.mp hs
      cases hs
      obtain ⟨⟨_, hallowed⟩, hnext⟩ := h.call _ hcall
      have hwp := hnext reply repo ⟨s.repo, made, .refl _, hexec⟩
      have hsame : ∀ c, At o base feature merge .squashed c s.repo → repo = s.repo :=
        fun c hc => exec_squashed hmerge hc hallowed hexec
      refine ⟨⟨place_of_wp hwp, fun p hp => ?_, fun result hresult => ?_⟩, fun c hc => ?_⟩
      · cases hp
        exact hwp
      · obtain ⟨c, hok, hc⟩ := h.results result hresult
        exact ⟨c, hok, by rw [hsame c hc]; exact hc⟩
      · rw [hsame c hc]
        exact ⟨hc, rfl⟩
  | finish =>
    rw [Sys.step] at hs
    split at hs
    case h_2 => cases hs
    case h_1 result _ hcall =>
      cases hs
      have hdone : Done o base feature merge (result, ()) s.repo := h.call _ hcall
      refine ⟨⟨h.place, nofun, fun result' hresult => ?_⟩, fun c hc => ⟨hc, rfl⟩⟩
      rcases List.mem_append.mp hresult with hold | hnew
      · exact h.results result' hold
      · rw [List.mem_singleton.mp hnew]
        exact hdone
  | kill =>
    cases hs
    exact ⟨⟨h.place, nofun, h.results⟩, fun c hc => ⟨hc, rfl⟩⟩
  | push tip =>
    obtain ⟨hon, hs⟩ := Option.ite_none_right_eq_some.mp hs
    cases hs
    have hm : Moves o s.repo { s.repo with feature := tip } := ⟨tip, hon, rfl⟩
    obtain ⟨stage, c, hat⟩ := h.place
    exact ⟨⟨⟨stage, c, hat.moves hm⟩, fun p hp => wp_moves (h.call p hp) hm,
      fun result hresult => (h.results result hresult).moves hm⟩, fun c hc => ⟨hc.moves hm, hm.checkout⟩⟩

end

/-- The merge was made, and no call yet. -/
structure Starts (o : Objects Sha Tree) (feature merge : Sha) (s : Sys Sha Tree) : Prop where
  head : s.repo.head = merge
  index : s.repo.index = o.tree merge
  mergeHead : s.repo.mergeHead = none
  feature : s.repo.feature = feature
  call : s.call = none
  results : s.results = []

/-- However often the squash is called, killed between two commands and called again: the index keeps
the merge's tree and HEAD or ORIG_HEAD the merge, or HEAD is the squash; every call that ends returns
the squash, HEAD by then, and from the first such call on the checkout stays as it is. -/
theorem squash_crash_safe [DecidableEq Sha] [DecidableEq Tree] (o : Objects Sha Tree)
    (base feature merge : Sha) (message : String) (shaText : Sha → String)
    (hmerge : FeatureMerge o base feature merge) (start : Sys Sha Tree)
    (hstart : Starts o feature merge start) (actions : List (Action Sha)) (s : Sys Sha Tree)
    (hrun : runs (Sys.step o base merge message shaText) start actions = some s) :
    s.repo.index = o.tree merge ∧ (s.repo.head = merge ∨ s.repo.origHead = some merge) ∧
      (∀ result ∈ s.results, result = .ok (.sha s.repo.head) ∧
        o.parents s.repo.head = [base] ∧ o.tree s.repo.head = o.tree merge) ∧
      ∀ later s', runs (Sys.step o base merge message shaText) s later = some s' → s.results ≠ [] →
        s'.repo.checkout = s.repo.checkout := by
  have hsound₀ : start.Sound o base feature merge message := by
    refine ⟨⟨.merged, merge, hstart.head, hstart.index, hstart.mergeHead, ?_, rfl⟩, ?_, ?_⟩
    · rw [hstart.feature]
      exact isAncestor_self feature
    · rw [hstart.call]
      exact nofun
    · rw [hstart.results]
      exact nofun
  have hsound := runs_keep (fun s a s' h hs => (step_sound hmerge h hs).1) hsound₀ hrun
  obtain ⟨stage, c, hat⟩ := hsound.place
  refine ⟨hat.index, ?_, fun result hresult => ?_, fun later s' hlater hne => ?_⟩
  · cases stage with
    | merged => exact .inl (hat.head.trans hat.place)
    | reset => exact .inr hat.place.2
    | squashed => exact .inr hat.place.2.2
  · obtain ⟨c', hok, hc'⟩ := hsound.results result hresult
    rw [hc'.head]
    exact ⟨hok, hc'.place.1, hc'.place.2.1⟩
  · obtain ⟨result, hresult⟩ := List.exists_mem_of_ne_nil _ hne
    obtain ⟨c', _, hc'⟩ := hsound.results result hresult
    have hkept := runs_keep (I := fun t : Sys Sha Tree => t.Sound o base feature merge message ∧
      At o base feature merge .squashed c' t.repo ∧ t.repo.checkout = s.repo.checkout)
      (fun t a t' h hs => by
        obtain ⟨hsound', hsame⟩ := step_sound hmerge h.1 hs
        obtain ⟨hat', hcheckout⟩ := hsame c' h.2.1
        exact ⟨hsound', hat', hcheckout.trans h.2.2⟩)
      ⟨hsound, hc', rfl⟩ hlater
    exact hkept.2.2

namespace Sample

def parents : Fin 4 → List (Fin 4)
  | 0 => []
  | 1 => [0]
  | 2 => [0, 1]
  | 3 => [0]

/-- Base, feature, merge and squash. -/
def objects : Objects (Fin 4) Nat where
  parents := parents
  tree c := if c = 0 then 0 else 1
  message _ := "feat: squashed"
  isAncestor a d := a = d || a ∈ parents d
  isAncestor_iff a d := by
    constructor
    · intro h
      rcases Bool.or_eq_true _ _ ▸ h with h | h
      · rw [of_decide_eq_true h]
      · exact .single (of_decide_eq_true h)
    · have hclosed : ∀ a p d : Fin 4, p ∈ parents d → (a = p || a ∈ parents p) = true →
          (a = d || a ∈ parents d) = true := by decide
      intro h
      induction h using Relation.ReflTransGen.head_induction_on with
      | refl => simp
      | head hp _ ih => exact hclosed _ _ _ hp ih

def start : Sys (Fin 4) Nat := ⟨⟨2, some 0, none, 1, 1⟩, none, []⟩

/-- Killed after the reset, called again to the end, and once more with the merge recorded. -/
def actions : List (Action (Fin 4)) :=
  .call false :: List.replicate 12 (.git 3) ++ [.kill] ++
    .call false :: List.replicate 11 (.git 3) ++ [.finish] ++
    .call true :: List.replicate 8 (.git 3) ++ [.finish]

end Sample

set_option maxRecDepth 8000 in
theorem squash_crash_safe_resumed : ∃ s,
    runs (Sys.step Sample.objects 0 2 "feat: squashed" toString) Sample.start Sample.actions = some s ∧
      s.results = [.ok (.sha 3), .ok (.sha 3)] ∧ s.repo.head = 3 ∧
      (∀ result ∈ s.results, result = .ok (.sha s.repo.head)) ∧ s.repo.index = 1 := by
  have hrun : (runs (Sys.step Sample.objects 0 2 "feat: squashed" toString) Sample.start
      Sample.actions).map (fun s => (s.results, s.repo.head)) = some ([.ok (.sha 3), .ok (.sha 3)], 3) := by
    decide
  obtain ⟨s, hs, hparts⟩ := Option.map_eq_some_iff.mp hrun
  obtain ⟨hresults, hhead⟩ := Prod.mk.injEq _ _ _ _ ▸ hparts
  have hmerge : FeatureMerge Sample.objects 0 1 2 := ⟨rfl, by decide, by decide⟩
  have hstart : Starts Sample.objects 1 2 Sample.start := ⟨rfl, rfl, rfl, rfl, rfl, rfl⟩
  obtain ⟨hindex, _, hall, _⟩ := squash_crash_safe Sample.objects 0 1 2 "feat: squashed" toString hmerge
    Sample.start hstart Sample.actions s hs
  exact ⟨s, hs, hresults, hhead, fun result hresult => (hall result hresult).1, hindex⟩

end Haive.Steps.Squash

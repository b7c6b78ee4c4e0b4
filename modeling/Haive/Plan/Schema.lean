import Haive.Plan.Vocabulary
import Haive.Lib.Table
import Haive.Lib.Text

/-!
# Rows and patches

The rows of one repository's plan (`database/src/schema/plan.ts`) and the parsed
patch (`planPatchSchema`, `shared/src/schemas/plan.ts`). Every table of the model
is that of one repository, so the `repository_id` column and its filters are left
out; so are the surrogate keys of edges and code links, which the unique indexes
make redundant, and the columns that nothing reads (`confidence`, the timestamps
of edges and links).
-/

namespace Haive

open Lib

/-! ## Ids -/

def isLowerHex (c : Char) : Bool := ('0' ≤ c && c ≤ '9') || ('a' ≤ c && c ≤ 'f')

/-- The canonical spelling of a uuid: `8-4-4-4-12` lowercase hexadecimal digits. -/
def isUuidText (s : List Char) : Bool :=
  s.length = 36 && s.zipIdx.all fun (c, i) =>
    if i = 8 || i = 13 || i = 18 || i = 23 then c = '-' else isLowerHex c

/-- A uuid, in the spelling the database returns. -/
structure Uuid where
  text : String
  canonical : isUuidText text.toList = true
deriving DecidableEq

def Uuid.chars (id : Uuid) : List Char := id.text.toList

theorem Uuid.ext_text {a b : Uuid} (h : a.text = b.text) : a = b := by
  cases a
  cases b
  simp_all

/-- The lowercase spelling. -/
def lowercase (s : String) : String := String.ofList (s.toList.map Char.toLower)

/-- The uuid that a text matching `UUID_RE` names. The pattern ignores case, and so does the
database's cast. -/
def Uuid.parse? (s : String) : Option Uuid :=
  if h : isUuidText (lowercase s).toList = true then some ⟨lowercase s, h⟩ else none

def isPlanNodeId (ref : String) : Bool := (Uuid.parse? ref).isSome

theorem isLowerHex_plain {c : Char} (h : isLowerHex c = true) :
    c ≠ '/' ∧ c ≠ '%' ∧ c ≠ '_' ∧ c ≠ '\\' := by
  refine ⟨?_, ?_, ?_, ?_⟩ <;>
  · rintro rfl
    exact absurd h (by decide)

/-- No character of a uuid is a slash or means anything to `LIKE`. -/
theorem Uuid.chars_plain (id : Uuid) : ∀ c ∈ id.chars, c ≠ '/' ∧ c ≠ '%' ∧ c ≠ '_' ∧ c ≠ '\\' := by
  intro c hc
  have hall := id.canonical
  rw [isUuidText, Bool.and_eq_true, List.all_eq_true] at hall
  obtain ⟨i, hi⟩ := List.mem_iff_getElem?.mp hc
  have hc' := hall.2 (c, i) (List.mk_mem_zipIdx_iff_getElem?.mpr hi)
  dsimp only at hc'
  split at hc'
  · rw [decide_eq_true_eq] at hc'
    subst hc'
    decide
  · exact isLowerHex_plain hc'

/-! ## Rows -/

structure PlanNodeRow where
  id : Uuid
  /-- `none` is the plan root. -/
  parentId : Option Uuid
  path : String
  ordinal : Nat
  title : String
  kind : PlanNodeKind
  body : Option String
  status : PlanNodeStatus
  doneAt : Option Nat
  taskable : Bool
  version : Nat
  lastReviewedAt : Option Nat
  createdBy : PlanNodeOrigin
  sourceTaskId : Option String
  createdAt : Nat
  updatedAt : Nat
deriving DecidableEq

structure PlanNodeEdgeRow where
  fromNodeId : Uuid
  toNodeId : Uuid
  kind : PlanEdgeKind
  note : Option String
deriving DecidableEq

/-- `plan_node_edges_unique_idx`. -/
def PlanNodeEdgeRow.key (e : PlanNodeEdgeRow) : Uuid × Uuid × PlanEdgeKind :=
  (e.fromNodeId, e.toNodeId, e.kind)

structure PlanNodeCodeLinkRow where
  nodeId : Uuid
  repoPath : String
  symbol : Option String
  role : PlanCodeLinkRole
  evidence : Option String
  derivedAtCommit : Option String
  stale : Bool
deriving DecidableEq

/-- `plan_node_code_links_unique_idx`, over `coalesce(symbol, '')`. -/
def PlanNodeCodeLinkRow.key (l : PlanNodeCodeLinkRow) : Uuid × String × String :=
  (l.nodeId, l.repoPath, l.symbol.getD "")

structure PlanMirrorStateRow where
  revision : Nat
  writtenRevision : Nat
  lastError : Option String
deriving DecidableEq, Repr

/-! ## Patches -/

structure PlanCodeLinkInput where
  repoPath : String
  symbol : Option String
  evidence : Option String
  role : Option PlanCodeLinkRole
deriving DecidableEq, Repr

/-- `planUpsertOpSchema`. The outer option of `parentRef` and `body` is a field left out, the
inner one `null`. -/
structure UpsertOp where
  nodeRef : String
  parentRef : Option (Option String) := none
  title : Option String := none
  body : Option (Option String) := none
  kind : Option PlanNodeKind := none
  status : Option PlanNodeStatus := none
  taskable : Option Bool := none
  ordinal : Option Nat := none
  codeLinks : List PlanCodeLinkInput := []
  expectedVersion : Option Nat := none
deriving DecidableEq, Repr

inductive PlanPatchOp
  | upsert (op : UpsertOp)
  | delete (nodeRef : String) (expectedVersion : Option Nat)
  | link (fromRef toRef : String) (kind : PlanEdgeKind) (note : Option String)
  | unlink (fromRef toRef : String) (kind : PlanEdgeKind)
deriving DecidableEq, Repr

def PlanPatchOp.name : PlanPatchOp → String
  | .upsert _ => "upsert"
  | .delete .. => "delete"
  | .link .. => "link"
  | .unlink .. => "unlink"

/-- What to do with an op that names a node that does not exist. -/
inductive OnUnresolvableRef
  | fail | drop
deriving DecidableEq, Repr

structure ApplyPlanPatchOptions where
  repositoryId : String
  origin : PlanNodeOrigin
  derivedAtCommit : Option String := none
  sourceTaskId : Option String := none
  onUnresolvableRef : OnUnresolvableRef := .fail
  selfNodeId : Option Uuid := none
  marksReviewed : Bool := false
  requireExpectedVersion : Bool := false
deriving DecidableEq

structure ApplyPlanPatchResult where
  created : List Uuid := []
  updated : List Uuid := []
  deleted : List Uuid := []
  linked : Nat := 0
  unlinked : Nat := 0
  codeLinked : Nat := 0
  /-- Patch-local ref to real uuid, newest binding first. -/
  refs : List (String × Uuid) := []
  dropped : List String := []
deriving DecidableEq

inductive PlanPatchErrorKind
  | invalid | conflict | notFound | repositoryGone
deriving DecidableEq, Repr

end Haive

import Haive.Plan.Ledger
import Haive.Plan.Writes
import Haive.Lib.Runs

/-!
# Two patches at the same time

`Sys` is the committed plan and two `applyPlanPatch` transactions, each with the
writes it holds back. A statement is one step. It sees the committed rows and its
own writes (READ COMMITTED), and it waits while the other transaction holds a
lock it needs (`Sys.blocked`): a row that both write, a key that both insert, a row
that one references and the other deletes, the root. A statement that had to wait
keeps the rows it selected when it began and checks its `WHERE` again on what they
are by then; that is the `seen` of `PlanDb.effect`.

`lockRepositoryForPlanWrite` asks for `KEY SHARE`, which two patches may hold
together, so it blocks nobody here. A transaction may be aborted at any time: a
failed patch, a deadlock, a lost connection.

`Step` is the inversion of `Sys.step`; `Conforms` carries over from the applier
that each transaction only asks what its ledger allows.
-/

namespace Haive

open Lib

inductive TxId
  | one | two
deriving DecidableEq, Repr

def TxId.other : TxId → TxId
  | .one => .two
  | .two => .one

inductive Outcome
  | running
  | committed (result : ApplyPlanPatchResult)
  | aborted (reason : Option PatchFailure)
deriving DecidableEq

structure Tx where
  prog : PatchProg
  ledger : Ledger := {}
  writes : List Write := []
  /-- What the statement that waits saw when it began. -/
  waiting : Option PlanDb := none
  outcome : Outcome := .running

structure Sys where
  committed : PlanDb
  tx : TxId → Tx

/-! ## Locks -/

inductive RowKey
  | node (id : Uuid)
  | edge (key : Uuid × Uuid × PlanEdgeKind)
  | link (key : Uuid × String × String)
  | mirror
deriving DecidableEq

def Write.key : Write → RowKey
  | .putNode row => .node row.id
  | .delNode id => .node id
  | .putEdge row => .edge row.key
  | .delEdge key => .edge key
  | .putLink row => .link row.key
  | .delLink key => .link key
  | .setMirror _ => .mirror

/-- The foreign keys of a row that is written. -/
def Write.references : Write → List Uuid
  | .putNode row => row.parentId.toList
  | .putEdge row => [row.fromNodeId, row.toNodeId]
  | .putLink row => [row.nodeId]
  | _ => []

def Query.inserts : Query → Option RowKey
  | .insertNode row => some (.node row.id)
  | .insertEdge row => some (.edge row.key)
  | .insertCodeLink row => some (.link row.key)
  | _ => none

/-- The rows whose existence a statement checks. -/
def Query.references : Query → List Uuid
  | .insertNode row => row.parentId.toList
  | .updateNode _ set _ => (set.moved.map (·.1)).toList
  | .insertEdge row => [row.fromNodeId, row.toNodeId]
  | .insertCodeLink row => [row.nodeId]
  | _ => []

def Query.insertsRoot : Query → Bool
  | .insertNode row => row.parentId = none
  | _ => false

def Write.isRoot (view : PlanDb) : Write → Bool
  | .putNode row => row.parentId = none || view.root?.any (·.id = row.id)
  | .delNode id => view.root?.any (·.id = id)
  | _ => false

/-- The statement, which would write `ws`, waits for the transaction that holds `others`. -/
def waitsFor (view : PlanDb) (q : Query) (ws others : List Write) : Bool :=
  ws.any (fun w => others.any (·.key = w.key)) ||
  q.inserts.any (fun key => others.any (·.key = key)) ||
  (!ws.isEmpty && q.references.any (fun id => .delNode id ∈ others)) ||
  ws.any (fun
    | .delNode id => others.any (id ∈ ·.references)
    | _ => false) ||
  (q.insertsRoot && others.any (·.isRoot view))

namespace Sys

def view (s : Sys) (i : TxId) : PlanDb := s.committed.apply (s.tx i).writes

/-- What the statement of a transaction that comes next saw when it began. -/
def seen (s : Sys) (i : TxId) : PlanDb := (s.tx i).waiting.getD (s.view i)

def effect (s : Sys) (i : TxId) (q : Query) : Except DbError (q.Reply × List Write) :=
  PlanDb.effect (s.seen i) (s.view i) q

def blocked (s : Sys) (i : TxId) (q : Query) : Bool :=
  let ws := match s.effect i q with
    | .error _ => []
    | .ok (_, ws) => ws
  waitsFor (s.view i) q ws (s.tx i.other).writes

def set (s : Sys) (i : TxId) (t : Tx) : Sys := { s with tx := fun j => if j = i then t else s.tx j }

end Sys

/-! ## Steps -/

inductive Action
  /-- The next statement of the transaction. -/
  | exec (i : TxId)
  /-- The next statement starts to wait. -/
  | wait (i : TxId)
  | commit (i : TxId)
  | abort (i : TxId)
deriving DecidableEq, Repr

/-- A transaction that ends without a trace. -/
def Tx.rolledBack (t : Tx) (reason : Option PatchFailure) : Tx :=
  { t with writes := [], waiting := none, outcome := .aborted reason }

/-- A transaction after a statement. -/
def Tx.asked (t : Tx) (q : Query) (k : q.Reply → PatchProg) (r : q.Reply)
    (ws : List Write) : Tx where
  prog := k r
  ledger := t.ledger.note q r
  writes := t.writes ++ ws

def Sys.step (s : Sys) : Action → Option Sys
  | .exec i =>
    match (s.tx i).outcome, (s.tx i).prog with
    | .running, .ask q k =>
      if s.blocked i q then none
      else
        match s.effect i q with
        | .error e => some (s.set i ((s.tx i).rolledBack (some (.database e))))
        | .ok (r, ws) => some (s.set i ((s.tx i).asked q k r ws))
    | _, _ => none
  | .wait i =>
    match (s.tx i).outcome, (s.tx i).prog with
    | .running, .ask q _ =>
      if s.blocked i q && (s.tx i).waiting.isNone then
        some (s.set i { s.tx i with waiting := some (s.view i) })
      else none
    | _, _ => none
  | .commit i =>
    match (s.tx i).outcome, (s.tx i).prog with
    | .running, .pure (.ok result, _) =>
      some (Sys.set { s with committed := s.view i } i
        { s.tx i with writes := [], outcome := .committed result })
    | _, _ => none
  | .abort i =>
    match (s.tx i).outcome, (s.tx i).prog with
    | .running, .pure (.error e, _) => some (s.set i ((s.tx i).rolledBack (some (.patch e))))
    | .running, _ => some (s.set i ((s.tx i).rolledBack none))
    | _, _ => none

/-- Two patches about to begin. -/
def Sys.start (db : PlanDb) (calls : TxId → PatchCall) : Sys where
  committed := db
  tx := fun i => { prog := applyPlanPatch (calls i) }

def Sys.ended (s : Sys) : Prop := ∀ i, (s.tx i).outcome ≠ .running

/-! ## What a step can do -/

theorem TxId.eq_or_eq_other (i j : TxId) : j = i ∨ j = i.other := by
  cases i <;> cases j <;> simp [TxId.other]

theorem TxId.other_ne (i : TxId) : i.other ≠ i := by
  cases i <;> simp [TxId.other]

@[simp] theorem TxId.other_other (i : TxId) : i.other.other = i := by
  cases i <;> rfl

namespace Sys

@[simp] theorem set_committed (s : Sys) (i : TxId) (t : Tx) : (s.set i t).committed = s.committed := rfl

@[simp] theorem set_tx_self (s : Sys) (i : TxId) (t : Tx) : (s.set i t).tx i = t := if_pos rfl

@[simp] theorem set_tx_other (s : Sys) (i : TxId) (t : Tx) : (s.set i t).tx i.other = s.tx i.other :=
  if_neg i.other_ne

end Sys

/-- What a step can do, one constructor for each. -/
inductive Step (s : Sys) : Action → Sys → Prop
  | ask {i : TxId} {q : Query} {k : q.Reply → PatchProg} {r : q.Reply} {ws : List Write} :
      (s.tx i).outcome = .running → (s.tx i).prog = .ask q k → s.blocked i q = false →
      s.effect i q = .ok (r, ws) → Step s (.exec i) (s.set i ((s.tx i).asked q k r ws))
  | wait {i : TxId} {q : Query} {k : q.Reply → PatchProg} :
      (s.tx i).outcome = .running → (s.tx i).prog = .ask q k → s.blocked i q = true →
      Step s (.wait i) (s.set i { s.tx i with waiting := some (s.view i) })
  | commit {i : TxId} {result : ApplyPlanPatchResult} {l : Locals} :
      (s.tx i).outcome = .running → (s.tx i).prog = .pure (.ok result, l) →
      Step s (.commit i) (Sys.set { s with committed := s.view i } i
        { s.tx i with writes := [], outcome := .committed result })
  | rollback {i : TxId} {a : Action} {reason : Option PatchFailure} :
      (s.tx i).outcome = .running → Step s a (s.set i ((s.tx i).rolledBack reason))

theorem Sys.step_cases {s s' : Sys} {a : Action} (h : s.step a = some s') : Step s a s' := by
  cases a with
  | exec i =>
    simp only [step] at h
    split at h
    · next q k hrun hprog =>
      split at h
      · cases h
      · next hfree =>
        split at h
        · cases h
          exact .rollback hrun
        · next r ws heff =>
          cases h
          exact .ask hrun hprog (by simpa using hfree) heff
    · cases h
  | wait i =>
    simp only [step] at h
    split at h
    · next q k hrun hprog =>
      split at h
      · next hblocked =>
        cases h
        exact .wait hrun hprog (Bool.and_eq_true_iff.mp hblocked).1
      · cases h
    · cases h
  | commit i =>
    simp only [step] at h
    split at h
    · next hrun hprog =>
      cases h
      exact .commit hrun hprog
    · cases h
  | abort i =>
    simp only [step] at h
    split at h
    · next hrun _ =>
      cases h
      exact .rollback hrun
    · next hrun _ =>
      cases h
      exact .rollback hrun
    · cases h

/-! ## Locks on node rows -/

theorem Write.onNode_eq_none {w : Write} {id : Uuid} (h : w.key ≠ .node id) : w.onNode id = none := by
  cases w with
  | putNode row => exact if_neg fun heq => h (congrArg RowKey.node heq)
  | delNode k => exact if_neg fun heq => h (congrArg RowKey.node heq)
  | _ => rfl

theorem exists_key_of_lastNode {ws : List Write} {id : Uuid} (h : lastNode ws id ≠ none) :
    ∃ w ∈ ws, w.key = .node id := by
  by_contra hnone
  refine h (lastNode_eq_none fun w hw => Write.onNode_eq_none fun hkey => hnone ⟨w, hw, hkey⟩)

theorem waitsFor_nil (view : PlanDb) (q : Query) (ws : List Write) : waitsFor view q ws [] = false := by
  have hdels : ws.any (fun
      | .delNode id => ([] : List Write).any (id ∈ ·.references)
      | _ => false) = false := by
    rw [List.any_eq_false]
    intro w _
    cases w <;> simp
  rw [waitsFor, hdels]
  cases q.inserts <;> simp

theorem waitsFor_eq_false {view : PlanDb} {q : Query} {ws others : List Write}
    (h : waitsFor view q ws others = false) :
    (∀ w ∈ ws, ∀ o ∈ others, o.key ≠ w.key) ∧ (∀ key, q.inserts = some key → ∀ o ∈ others, o.key ≠ key) ∧
      (ws ≠ [] → ∀ id ∈ q.references, .delNode id ∉ others) ∧
      (∀ id, .delNode id ∈ ws → ∀ o ∈ others, id ∉ o.references) ∧
      (q.insertsRoot = true → ∀ o ∈ others, o.isRoot view = false) := by
  simp only [waitsFor, Bool.or_eq_false_iff] at h
  obtain ⟨⟨⟨⟨hrows, hkeys⟩, hrefs⟩, hdels⟩, hroot⟩ := h
  refine ⟨?_, ?_, ?_, ?_, ?_⟩
  · intro w hw o ho
    have := List.any_eq_false.mp hrows w hw
    simp only [List.any_eq_true, decide_eq_true_eq, not_exists, not_and] at this
    exact this o ho
  · intro key hkey o ho
    rw [hkey] at hkeys
    have := List.any_eq_false.mp hkeys o ho
    simpa using this
  · intro hne id hid
    have hws : ws.isEmpty = false := by simpa using hne
    rw [hws, Bool.not_false, Bool.true_and] at hrefs
    have := List.any_eq_false.mp hrefs id hid
    simpa using this
  · intro id hid o ho
    have := List.any_eq_false.mp hdels (.delNode id) hid
    simp only [List.any_eq_true, decide_eq_true_eq, not_exists, not_and] at this
    exact this o ho
  · intro hr o ho
    rw [hr, Bool.true_and] at hroot
    have := List.any_eq_false.mp hroot o ho
    simpa using this

/-- A statement writes no row whose holder it does not wait for. -/
theorem untouched {view : PlanDb} {q : Query} {ws others : List Write}
    (h : waitsFor view q ws others = false) {id : Uuid} (hid : lastNode ws id ≠ none) :
    lastNode others id = none := by
  obtain ⟨w, hw, hkey⟩ := exists_key_of_lastNode hid
  by_contra hother
  obtain ⟨o, ho, hokey⟩ := exists_key_of_lastNode hother
  exact (waitsFor_eq_false h).1 w hw o ho (hokey.trans hkey.symm)

namespace Sys

variable {s : Sys} {i : TxId} {q : Query} {r : q.Reply} {ws : List Write}

theorem not_waits (hfree : s.blocked i q = false) (heff : s.effect i q = .ok (r, ws)) :
    waitsFor (s.view i) q ws (s.tx i.other).writes = false := by
  rw [blocked, heff] at hfree
  exact hfree

/-- A statement that does not wait writes no row that the other transaction holds. -/
theorem other_untouched (hfree : s.blocked i q = false) (heff : s.effect i q = .ok (r, ws)) {id : Uuid}
    (hid : lastNode ws id ≠ none) : lastNode (s.tx i.other).writes id = none :=
  untouched (not_waits hfree heff) hid

end Sys

/-! ## Each transaction asks what its ledger allows -/

def Conforms (calls : TxId → PatchCall) (s : Sys) : Prop :=
  ∀ i, (s.tx i).prog.wp (ledgerLogic (calls i).randomUUID) (fun _ g => g.pending = none) (s.tx i).ledger

theorem PlanDb.effect_answers {seen db : PlanDb} {q : Query} {r : q.Reply} {ws : List Write}
    (h : effect seen db q = .ok (r, ws)) : q.Answers r := by
  cases q with
  | loadNode id =>
    cases h
    cases hr : db.nodes.find? id with
    | none => trivial
    | some row => exact (Table.find?_key hr :)
  | _ => trivial

namespace Conforms

variable {calls : TxId → PatchCall} {s s' : Sys} {i : TxId} {q : Query}
  {k : q.Reply → PatchProg}

theorem start (db : PlanDb) (calls : TxId → PatchCall) : Conforms calls (Sys.start db calls) :=
  fun i => applyPlanPatch_allowed (calls i)

theorem allows (h : Conforms calls s) (hprog : (s.tx i).prog = .ask q k) :
    (s.tx i).ledger.Allows (calls i).randomUUID q := by
  have hi := h i
  rw [hprog] at hi
  exact hi.1

theorem settled (h : Conforms calls s) {r : Except PatchError ApplyPlanPatchResult × Locals}
    (hprog : (s.tx i).prog = .pure r) : (s.tx i).ledger.pending = none := by
  have hi := h i
  rw [hprog] at hi
  exact hi

/-- A change of one transaction that keeps its program and its ledger together. -/
theorem set (h : Conforms calls s) {t : Tx} {db : PlanDb}
    (ht : t.prog.wp (ledgerLogic (calls i).randomUUID) (fun _ g => g.pending = none) t.ledger) :
    Conforms calls (Sys.set { s with committed := db } i t) := by
  intro j
  rcases TxId.eq_or_eq_other i j with rfl | rfl
  · rw [Sys.set_tx_self]
    exact ht
  · rw [Sys.set_tx_other]
    exact h i.other

theorem step (h : Conforms calls s) {a : Action} (hstep : Step s a s') : Conforms calls s' := by
  cases hstep with
  | @ask i q k r ws hrun hprog hfree heff =>
    have hi := h i
    rw [hprog] at hi
    refine h.set ?_
    exact hi.2 _ _ ⟨PlanDb.effect_answers heff, rfl⟩
  | wait => exact h.set (h _)
  | commit => exact h.set (h _)
  | rollback => exact h.set (h _)

end Conforms

end Haive

import Haive.Plan.Schema

/-!
# Path arithmetic

`shared/src/plan/paths.ts`. A path is `/<rootId>/…/<selfId>/`. The lemmas say
what the prefix tests of the applier mean for paths that are built this way:
`planNodePath_injective` (a path names its node), `prefix_planNodePath` (what is
below a node's path is the node itself or below its parent's), and
`rewrite_planNodePath` (the SQL rewrite of a subtree commutes with taking a child).
-/

namespace Haive

open Lib

def planNodePath (parentPath : Option String) (id : Uuid) : String :=
  parentPath.getD "/" ++ id.text ++ "/"

def descendantPathSqlOffset (oldPrefix : String) : Nat := oldPrefix.length + 1

def descendantsLikePattern (nodePath : String) : String := nodePath ++ "_%"

def subtreeLikePattern (nodePath : String) : String := nodePath ++ "%"

def wouldDetachSubtree (nodePath newParentPath : String) : Bool := startsWith newParentPath nodePath

def isBelow (nodePath path : String) : Bool := startsWith path nodePath && path != nodePath

/-- The SQL of a subtree move: `newPrefix || substring(path from offset)`. -/
def sqlRewritePath (oldPrefix newPrefix path : String) : String :=
  newPrefix ++ sliceFrom path (descendantPathSqlOffset oldPrefix - 1)

/-- `rewriteDescendantPath`, the same move in the host language. -/
def rewriteDescendantPath (oldPrefix newPrefix path : String) : String :=
  if startsWith path oldPrefix then newPrefix ++ sliceFrom path oldPrefix.length else path

/-- The two spellings of a move agree on the rows the statement selects. -/
theorem sqlRewritePath_eq {oldPrefix newPrefix path : String}
    (h : startsWith path oldPrefix = true) :
    sqlRewritePath oldPrefix newPrefix path = rewriteDescendantPath oldPrefix newPrefix path := by
  simp [sqlRewritePath, rewriteDescendantPath, h, descendantPathSqlOffset]

/-! ## Characters of a path -/

theorem planNodePath_toList (parentPath : Option String) (id : Uuid) :
    (planNodePath parentPath id).toList = (parentPath.getD "/").toList ++ (id.chars ++ ['/']) := by
  have hslash : ("/" : String).toList = ['/'] := by decide
  rw [planNodePath, String.toList_append, String.toList_append, hslash, List.append_assoc, Uuid.chars]

theorem planNodePath_getLast (parentPath : Option String) (id : Uuid) :
    (planNodePath parentPath id).toList.getLast? = some '/' := by
  rw [planNodePath_toList, ← List.append_assoc, List.getLast?_append]
  rfl

theorem slash_not_mem (id : Uuid) : '/' ∉ id.chars := fun h => (id.chars_plain _ h).1 rfl

/-- A path is made of plain characters. -/
def PlainPath (path : String) : Prop := Plain path.toList

theorem plain_planNodePath {parentPath : Option String} (id : Uuid)
    (h : ∀ p, parentPath = some p → PlainPath p) : PlainPath (planNodePath parentPath id) := by
  intro c hc
  rw [planNodePath_toList, List.mem_append, List.mem_append, List.mem_singleton] at hc
  rcases hc with hc | hc | rfl
  · cases parentPath with
    | none =>
      have : c = '/' := by
        have hslash : ("/" : String).toList = ['/'] := by decide
        rw [Option.getD_none, hslash, List.mem_singleton] at hc
        exact hc
      subst this
      decide
    | some p => exact h p rfl c hc
  · exact (id.chars_plain c hc).2
  · decide

/-! ## Paths as ancestry -/

/-- Slash-terminated. -/
def EndsSlash (path : String) : Prop := path.toList.getLast? = some '/'

theorem endsSlash_planNodePath (parentPath : Option String) (id : Uuid) :
    EndsSlash (planNodePath parentPath id) :=
  planNodePath_getLast parentPath id

theorem length_planNodePath_lt (p : String) (id : Uuid) :
    p.toList.length < (planNodePath (some p) id).toList.length := by
  rw [planNodePath_toList, Option.getD_some]
  simp

/-- What is below `s` and is a child's path is the child itself or below the parent's. -/
theorem prefix_planNodePath {s p : String} {id : Uuid} (hs : EndsSlash s)
    (h : s.toList <+: (planNodePath (some p) id).toList) :
    s.toList <+: p.toList ∨ s = planNodePath (some p) id := by
  rw [planNodePath_toList, Option.getD_some] at h
  refine (prefix_step hs (slash_not_mem id) h).imp_right fun heq => ?_
  rw [← String.toList_inj, planNodePath_toList, Option.getD_some, heq]

theorem planNodePath_extends {s p : String} (id : Uuid) (h : s.toList <+: p.toList) :
    s.toList <+: (planNodePath (some p) id).toList := by
  rw [planNodePath_toList, Option.getD_some]
  exact h.trans (List.prefix_append _ _)

theorem planNodePath_injective {p q : Option String} {id id' : Uuid}
    (hp : EndsSlash (p.getD "/")) (hq : EndsSlash (q.getD "/"))
    (h : planNodePath p id = planNodePath q id') : id = id' ∧ p.getD "/" = q.getD "/" := by
  have hlist : (p.getD "/").toList ++ (id.chars ++ ['/']) =
      (q.getD "/").toList ++ (id'.chars ++ ['/']) := by
    rw [← planNodePath_toList, ← planNodePath_toList, h]
  have hpq : (p.getD "/").toList <+: (q.getD "/").toList := by
    refine (prefix_step hp (slash_not_mem id') ⟨_, hlist⟩).resolve_right fun heq => ?_
    have := congrArg List.length hlist
    rw [heq] at this
    simp at this
  have hqp : (q.getD "/").toList <+: (p.getD "/").toList := by
    refine (prefix_step hq (slash_not_mem id) ⟨_, hlist.symm⟩).resolve_right fun heq => ?_
    have := congrArg List.length hlist
    rw [heq] at this
    simp at this
  have heq : (p.getD "/").toList = (q.getD "/").toList :=
    hpq.eq_of_length_le hqp.length_le
  rw [heq, List.append_cancel_left_eq, List.append_cancel_right_eq] at hlist
  exact ⟨Uuid.ext_text (String.toList_inj.mp hlist), String.toList_inj.mp heq⟩

theorem isBelow_iff {nodePath path : String} :
    isBelow nodePath path = true ↔ nodePath.toList <+: path.toList ∧ path ≠ nodePath := by
  rw [isBelow, Bool.and_eq_true, startsWith_iff, bne_iff_ne]

theorem like_descendantsLikePattern {nodePath path : String} (h : PlainPath nodePath) :
    like path (descendantsLikePattern nodePath) = isBelow nodePath path := by
  rw [Bool.eq_iff_iff, isBelow_iff]
  exact like_descendants h

theorem isBelow_planNodePath {nodePath p : String} (id : Uuid) (h : nodePath.toList <+: p.toList) :
    isBelow nodePath (planNodePath (some p) id) = true := by
  refine isBelow_iff.mpr ⟨planNodePath_extends id h, ?_⟩
  rintro rfl
  exact absurd h.length_le (Nat.not_le.mpr (length_planNodePath_lt p id))

/-- A child is strictly below `nodePath` exactly if its parent is below or there. -/
theorem isBelow_planNodePath_iff {nodePath p : String} {id : Uuid} (hs : EndsSlash nodePath) :
    isBelow nodePath (planNodePath (some p) id) = true ↔ p = nodePath ∨ isBelow nodePath p = true := by
  constructor
  · intro h
    obtain ⟨hpre, hne⟩ := isBelow_iff.mp h
    have hp := (prefix_planNodePath hs hpre).resolve_right (Ne.symm hne)
    by_cases heq : p = nodePath
    · exact .inl heq
    · exact .inr (isBelow_iff.mpr ⟨hp, heq⟩)
  · rintro (rfl | h)
    · exact isBelow_planNodePath id (List.prefix_refl _)
    · exact isBelow_planNodePath id (isBelow_iff.mp h).1

theorem not_isBelow_root {q : Option String} {m id : Uuid} (hq : EndsSlash (q.getD "/")) :
    isBelow (planNodePath q m) (planNodePath none id) = false := by
  rw [Bool.eq_false_iff]
  intro h
  obtain ⟨hpre, hne⟩ := isBelow_iff.mp h
  rw [planNodePath_toList none id] at hpre
  rcases prefix_step (endsSlash_planNodePath q m) (slash_not_mem id) hpre with hpre | heq
  · have hlen := hpre.length_le
    rw [planNodePath_toList, List.length_append, List.length_append] at hlen
    have hpos : 0 < (q.getD "/").toList.length := by
      rw [List.length_pos_iff]
      intro hnil
      rw [EndsSlash, hnil] at hq
      cases hq
    have hslash : ((none : Option String).getD "/").toList.length = 1 := by decide
    rw [hslash, List.length_singleton] at hlen
    omega
  · refine hne (String.toList_inj.mp ?_)
    rw [heq, planNodePath_toList]

theorem sqlOffset_eq (oldPrefix : String) :
    descendantPathSqlOffset oldPrefix - 1 = oldPrefix.toList.length := by
  rw [String.length_toList]
  rfl

/-- Rewriting a subtree commutes with taking a child. -/
theorem rewrite_planNodePath {oldPrefix newPrefix p : String} (id : Uuid)
    (h : oldPrefix.toList <+: p.toList) :
    sqlRewritePath oldPrefix newPrefix (planNodePath (some p) id) =
      planNodePath (some (sqlRewritePath oldPrefix newPrefix p)) id := by
  obtain ⟨t, ht⟩ := h
  rw [← String.toList_inj, planNodePath_toList, Option.getD_some]
  simp only [sqlRewritePath, sliceFrom, String.toList_append, String.toList_ofList, sqlOffset_eq,
    planNodePath_toList, Option.getD_some, ← ht, List.append_assoc, List.drop_left]

/-- The moved node's own prefix becomes the new one. -/
theorem rewrite_self (oldPrefix newPrefix : String) :
    sqlRewritePath oldPrefix newPrefix oldPrefix = newPrefix := by
  rw [← String.toList_inj]
  simp only [sqlRewritePath, sliceFrom, sqlOffset_eq, String.toList_append, String.toList_ofList,
    List.drop_length, List.append_nil]

end Haive

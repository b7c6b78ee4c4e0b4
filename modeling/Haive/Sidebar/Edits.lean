import Haive.Lib.Edges
import Haive.Lib.Runs
import Haive.Lib.Siblings
import Haive.Sidebar.Tree

/-!
# Edits of the sidebar tree

What the user does to the folders: add, rename, move, reorder, delete, prune. Every edit keeps the folders a
forest (`Forest`), where a folder's parent is a folder and nothing is above itself.
-/

namespace Haive.Sidebar

open Lib.Units
open Lib (CycleFree Above AtOrBelow Acyclic Rooted above_head above_iff runs)

/-! ## The edits -/

/-- `new Map(folders.map((f) => [f.id, f.parentId]))`. -/
def parentOf (folders : List SidebarFolder) (id : Text) : Option Text :=
  (folders.reverse.find? (·.id = id)).bind (·.parentId)

def climbsTo (parent : Text → Option Text) (candidate : Text) : Nat → Option Text → List Text → Bool
  | 0, _, _ => false
  | _, none, _ => false
  | fuel + 1, some cursor, seen =>
    if cursor = [] then false
    else if cursor = candidate then true
    else if seen.contains cursor then false
    else climbsTo parent candidate fuel (parent cursor) (cursor :: seen)

def isDescendant (folders : List SidebarFolder) (folderId candidate : Text) : Bool :=
  climbsTo (parentOf folders) candidate (folders.length + 1) (some folderId) []

def hasFolder (tree : SidebarTree) (id : Text) : Bool := tree.folders.any (·.id = id)

def targetMissing (tree : SidebarTree) (target : Option Text) : Bool := target.any fun id => ! hasFolder tree id

/-- The folder would come to stand in its own subtree. -/
def intoOwn (tree : SidebarTree) (dragged : SidebarFolder) (target : Option Text) : Bool :=
  target.any fun id => isDescendant tree.folders id dragged.id

def moveNode (tree : SidebarTree) (dragKey : Text) (target : Option Text) : SidebarTree :=
  if targetMissing tree target then tree
  else
    match tree.folders.find? (·.id = dragKey) with
    | some dragged =>
      if dragged.parentId = target then tree
      else if intoOwn tree dragged target then tree
      else { tree with folders := tree.folders.map fun f => if f.id = dragged.id then { f with parentId := target } else f }
    | none =>
      if tree.placements dragKey = target then tree
      else { tree with placements := fun key => if key = dragKey then target else tree.placements key }

def isRepoContainer (container : Text) : Bool := (units "repo:").isPrefixOf container

def containerParent (container : Text) : Option Text := if container = [] then none else some container

/-- `siblingKeys.forEach((key, i) => { order[key] = i; })`. -/
def stampOrder (order : Text → Option Nat) (siblingKeys : List Text) : Text → Option Nat :=
  siblingKeys.zipIdx.foldl (fun order entry key => if key = entry.1 then some entry.2 else order key) order

def reorderNode (tree : SidebarTree) (dragKey container : Text) (siblingKeys : List Text) : SidebarTree :=
  if ! siblingKeys.contains dragKey then tree
  else if isRepoContainer container then
    { tree with
      placements := fun key => if key = dragKey then none else tree.placements key
      order := stampOrder tree.order siblingKeys }
  else
    let target := containerParent container
    if targetMissing tree target then tree
    else if (tree.folders.find? (·.id = dragKey)).any fun dragged => intoOwn tree dragged target then tree
    else
      let next := moveNode tree dragKey target
      { next with order := stampOrder next.order siblingKeys }

/-- `f`, and behind it the time and a count, both in base 36. -/
def newFolderId (stamp : Text) : Text := units "f" ++ stamp

def addFolder (tree : SidebarTree) (newId name : Text) (parentId : Option Text) : SidebarTree :=
  if trim name = [] then tree
  else
    let order := tree.folders.foldl (fun m f => max m f.order) 0 + 1
    { tree with folders := tree.folders ++ [⟨newId, trim name, parentId, order⟩] }

def renameFolder (tree : SidebarTree) (id name : Text) : SidebarTree :=
  if trim name = [] then tree
  else { tree with folders := tree.folders.map fun f => if f.id = id then { f with name := trim name } else f }

def deleteFolder (tree : SidebarTree) (id : Text) : SidebarTree :=
  match tree.folders.find? (·.id = id) with
  | none => tree
  | some target =>
    { folders := (tree.folders.filter (·.id ≠ id)).map fun f =>
        if f.parentId = some id then { f with parentId := target.parentId } else f
      placements := fun key => (tree.placements key).bind fun folderId => if folderId ≠ id then some folderId else target.parentId
      closed := tree.closed.filter (· ≠ id)
      order := fun key => if key = id then none else tree.order key }

def pruneTree (tree : SidebarTree) (liveTaskIds : List Text) : SidebarTree :=
  let stale : Text → Bool := fun key => (units "task:").isPrefixOf key && ! (liveTaskIds.map taskKey).contains key
  { tree with
    placements := fun key => if stale key then none else tree.placements key
    order := fun key => if stale key then none else tree.order key }

inductive Edit
  | addFolder (newId name : Text) (parentId : Option Text)
  | renameFolder (id name : Text)
  | moveNode (dragKey : Text) (target : Option Text)
  | reorderNode (dragKey container : Text) (siblingKeys : List Text)
  | deleteFolder (id : Text)
  | pruneTree (liveTaskIds : List Text)

def Edit.apply (tree : SidebarTree) : Edit → SidebarTree
  | addFolder newId name parentId => Sidebar.addFolder tree newId name parentId
  | renameFolder id name => Sidebar.renameFolder tree id name
  | moveNode dragKey target => Sidebar.moveNode tree dragKey target
  | reorderNode dragKey container siblingKeys => Sidebar.reorderNode tree dragKey container siblingKeys
  | deleteFolder id => Sidebar.deleteFolder tree id
  | pruneTree liveTaskIds => Sidebar.pruneTree tree liveTaskIds

/-- A new folder has a parent that is there and a fresh id that is not the empty one, as `newFolderId` makes
them; the other edits take anything. -/
def Edit.fits (tree : SidebarTree) : Edit → Bool
  | addFolder newId _ parentId => newId ≠ [] && ! hasFolder tree newId && ! targetMissing tree parentId
  | _ => true

def editStep (tree : SidebarTree) (edit : Edit) : Option SidebarTree :=
  if edit.fits tree then some (edit.apply tree) else none

/-! ## Forests -/

structure Forest (folders : List SidebarFolder) : Prop where
  ids : (folders.map (·.id)).Nodup
  named : ∀ f ∈ folders, f.id ≠ []
  parents : ∀ f ∈ folders, ∀ id, f.parentId = some id → ∃ g ∈ folders, g.id = id
  acyclic : Acyclic (parentOf folders)

theorem parentOf_of_mem {folders : List SidebarFolder} (hids : (folders.map (·.id)).Nodup) {f : SidebarFolder}
    (hf : f ∈ folders) : parentOf folders f.id = f.parentId := by
  have hfind : folders.reverse.find? (·.id = f.id) = some f := by
    cases hfind : folders.reverse.find? (·.id = f.id) with
    | none =>
      exact absurd rfl (of_decide_eq_false (Bool.eq_false_iff.mpr (List.find?_eq_none.mp hfind f (List.mem_reverse.mpr hf))))
    | some g =>
      have hsame : g.id = f.id := by simpa using List.find?_some hfind
      rw [List.inj_on_of_nodup_map hids (List.mem_reverse.mp (List.mem_of_find?_eq_some hfind)) hf hsame]
  rw [parentOf, hfind, Option.bind_some]

theorem parentOf_eq_some {folders : List SidebarFolder} {id parent : Text} (h : parentOf folders id = some parent) :
    ∃ f ∈ folders, f.id = id ∧ f.parentId = some parent := by
  obtain ⟨f, hfind, hparent⟩ := Option.bind_eq_some_iff.mp h
  exact ⟨f, List.mem_reverse.mp (List.mem_of_find?_eq_some hfind), by simpa using List.find?_some hfind, hparent⟩

namespace Forest

variable {folders : List SidebarFolder} (h : Forest folders)

include h

theorem eq_of_id {f g : SidebarFolder} (hf : f ∈ folders) (hg : g ∈ folders) (hid : f.id = g.id) : f = g :=
  List.inj_on_of_nodup_map h.ids hf hg hid

theorem exists_of_above {x y : Text} (hxy : Above (parentOf folders) x y) : ∃ f ∈ folders, f.id = y := by
  obtain ⟨z, -, hlast⟩ := Relation.TransGen.tail'_iff.mp hxy
  obtain ⟨f, hf, -, hparent⟩ := parentOf_eq_some hlast
  exact h.parents f hf y hparent

theorem rooted {f : SidebarFolder} (hf : f ∈ folders) : Rooted (parentOf folders) f.id := by
  refine Lib.rooted_of_acyclic (s := (folders.map (·.id)).toFinset) (fun x _ y hy => ?_) h.acyclic
    (List.mem_toFinset.mpr (List.mem_map_of_mem hf))
  obtain ⟨g, hg, hid⟩ := h.exists_of_above (above_head hy)
  exact List.mem_toFinset.mpr (List.mem_map.mpr ⟨g, hg, hid⟩)

theorem climbsTo_iff {candidate : Text} {fuel : Nat} {x : Text} {ys seen : List Text}
    (hclimb : Lib.climb (parentOf folders) fuel x = some ys) (hnamed : ∀ y, AtOrBelow (parentOf folders) x y → y ≠ [])
    (hseen : ∀ z ∈ seen, Above (parentOf folders) z x) :
    climbsTo (parentOf folders) candidate fuel (some x) seen = true ↔ AtOrBelow (parentOf folders) x candidate := by
  induction fuel generalizing x ys seen with
  | zero => cases hclimb
  | succ fuel ih =>
    rw [climbsTo, if_neg (hnamed x (.inl rfl))]
    split
    · next hsame => exact iff_of_true rfl (.inl hsame)
    · next hne =>
      have hfresh : seen.contains x = false := by
        rw [Bool.eq_false_iff, Ne, List.contains_iff_mem]
        exact fun hmem => h.acyclic x (hseen x hmem)
      rw [hfresh, if_neg Bool.false_ne_true]
      rw [Lib.climb] at hclimb
      cases hp : parentOf folders x with
      | none =>
        have hend : climbsTo (parentOf folders) candidate fuel none (x :: seen) = false := by cases fuel <;> rfl
        rw [hend]
        exact iff_of_false Bool.false_ne_true fun hat => hat.elim hne (Lib.not_above_of_none hp)
      | some y =>
        rw [hp] at hclimb
        obtain ⟨ws, hws, -⟩ := Option.map_eq_some_iff.mp hclimb
        rw [ih hws (fun z hz => hnamed z (.inr (above_iff.mpr ⟨y, hp, hz⟩))) fun z hz => ?_]
        · constructor
          · exact fun hat => .inr (above_iff.mpr ⟨y, hp, hat⟩)
          · rintro (hsame | habove)
            · exact absurd hsame hne
            · obtain ⟨y', hy', hat⟩ := above_iff.mp habove
              rw [hp, Option.some.injEq] at hy'
              exact hy' ▸ hat
        · rcases List.mem_cons.mp hz with rfl | hz
          · exact above_head hp
          · exact (hseen z hz).snoc hp

theorem isDescendant_iff {f : SidebarFolder} (hf : f ∈ folders) {candidate : Text} :
    isDescendant folders f.id candidate = true ↔ AtOrBelow (parentOf folders) f.id candidate := by
  have hmem : ∀ x y, parentOf folders x = some y → x ∈ folders.map (·.id) := by
    intro x y hxy
    obtain ⟨g, hg, hid, -⟩ := parentOf_eq_some hxy
    exact List.mem_map.mpr ⟨g, hg, hid⟩
  obtain ⟨ys, hys⟩ := Lib.climb_of_rooted hmem (h.rooted hf)
  rw [List.length_map] at hys
  refine h.climbsTo_iff hys ?_ (fun z hz => absurd hz List.not_mem_nil)
  rintro y (rfl | hy)
  · exact h.named f hf
  · obtain ⟨g, hg, rfl⟩ := h.exists_of_above hy
    exact h.named g hg

end Forest

/-! ## Every edit keeps the forest -/

theorem forest_nil : Forest [] where
  ids := List.nodup_nil
  named f hf := absurd hf List.not_mem_nil
  parents f hf := absurd hf List.not_mem_nil
  acyclic := by
    intro x hx
    obtain ⟨y, hy, -⟩ := above_iff.mp hx
    cases hy

theorem hasFolder_iff {tree : SidebarTree} {id : Text} : hasFolder tree id = true ↔ ∃ f ∈ tree.folders, f.id = id := by
  simp [hasFolder]

theorem targetMissing_eq_false {tree : SidebarTree} {target : Option Text} :
    targetMissing tree target = false ↔ ∀ id, target = some id → ∃ f ∈ tree.folders, f.id = id := by
  cases target with
  | none => simp [targetMissing]
  | some id =>
    simp only [targetMissing, Option.any_some, Bool.not_eq_false', Option.some.injEq, forall_eq']
    exact hasFolder_iff

def ParentEdge (folders : List SidebarFolder) (x y : Text) : Prop := ∃ f ∈ folders, f.id = x ∧ f.parentId = some y

theorem parentOf_of_edge {folders : List SidebarFolder} (h : Forest folders) {x y : Text} (hxy : ParentEdge folders x y) :
    parentOf folders x = some y := by
  obtain ⟨f, hf, rfl, hparent⟩ := hxy
  exact (parentOf_of_mem h.ids hf).trans hparent

theorem Forest.cycleFree {folders : List SidebarFolder} (h : Forest folders) : CycleFree (ParentEdge folders) :=
  CycleFree.mono (s := fun x y => parentOf folders x = some y) h.acyclic fun _ _ => parentOf_of_edge h

/-- Folders with the ids they had, some of them gone: a forest when the parents are still there and close no
cycle. -/
theorem Forest.map {folders kept : List SidebarFolder} (h : Forest folders) (hkept : kept.Sublist folders)
    {change : SidebarFolder → SidebarFolder} (hid : ∀ f, (change f).id = f.id)
    (hparents : ∀ f ∈ kept, ∀ id, (change f).parentId = some id → ∃ g ∈ kept, g.id = id)
    (hfree : CycleFree fun x y => ∃ f ∈ kept, f.id = x ∧ (change f).parentId = some y) : Forest (kept.map change) := by
  have hids : (kept.map change).map (·.id) = kept.map (·.id) := by
    rw [List.map_map]
    exact List.map_congr_left fun f _ => hid f
  refine ⟨hids ▸ h.ids.sublist (hkept.map _), ?_, ?_, hfree.mono fun x y hxy => ?_⟩
  · rintro _ hmem
    obtain ⟨f, hf, rfl⟩ := List.mem_map.mp hmem
    rw [hid]
    exact h.named f (hkept.subset hf)
  · rintro _ hmem id hparent
    obtain ⟨f, hf, rfl⟩ := List.mem_map.mp hmem
    obtain ⟨g, hg, hgid⟩ := hparents f hf id hparent
    exact ⟨change g, List.mem_map_of_mem hg, (hid g).trans hgid⟩
  · obtain ⟨_, hmem, hgid, hparent⟩ := parentOf_eq_some hxy
    obtain ⟨f, hf, rfl⟩ := List.mem_map.mp hmem
    exact ⟨f, hf, (hid f).symm.trans hgid, hparent⟩

theorem moveNode_forest {tree : SidebarTree} (h : Forest tree.folders) (dragKey : Text) (target : Option Text) :
    Forest (moveNode tree dragKey target).folders := by
  rw [moveNode]
  split
  · exact h
  · next hpresent =>
    have hpresent := targetMissing_eq_false.mp (Bool.eq_false_iff.mpr hpresent)
    split
    · next dragged hfind =>
      split
      · exact h
      · split
        · exact h
        · next hown =>
          refine h.map (List.Sublist.refl _) (fun f => by split <;> rfl) (fun f hf id hparent => ?_) ?_
          · split at hparent
            · exact hpresent id hparent
            · exact h.parents f hf id hparent
          · cases target with
            | none =>
              refine h.cycleFree.mono ?_
              rintro x y ⟨f, hf, hid, hparent⟩
              split at hparent
              · cases hparent
              · exact ⟨f, hf, hid, hparent⟩
            | some b =>
              -- The climb from the target did not come to the folder that is moved.
              refine h.cycleFree.insert (a := dragged.id) (b := b) ?_ fun hback => hown ?_
              · rintro x y ⟨f, hf, rfl, hparent⟩
                split at hparent
                · next hsame => exact .inr ⟨hsame, (Option.some.inj hparent).symm⟩
                · exact .inl ⟨f, hf, rfl, hparent⟩
              · obtain ⟨g, hg, rfl⟩ := hpresent b rfl
                refine (h.isDescendant_iff hg).mpr ?_
                exact (Relation.reflTransGen_iff_eq_or_transGen.mp hback).imp Eq.symm
                  (Relation.TransGen.mono (fun _ _ => parentOf_of_edge h) _ _)
    · split <;> exact h

theorem addFolder_forest {tree : SidebarTree} (h : Forest tree.folders) {newId : Text} (name : Text) {parentId : Option Text}
    (hnamed : newId ≠ []) (hfresh : ∀ f ∈ tree.folders, f.id ≠ newId)
    (hparent : ∀ id, parentId = some id → ∃ f ∈ tree.folders, f.id = id) :
    Forest (addFolder tree newId name parentId).folders := by
  rw [addFolder]
  split
  · exact h
  · dsimp only
    refine ⟨?_, ?_, ?_, ?_⟩
    · rw [List.map_append, List.map_cons, List.map_nil]
      refine List.nodup_append.mpr ⟨h.ids, List.nodup_singleton _, fun x hx y hy => ?_⟩
      obtain ⟨f, hf, rfl⟩ := List.mem_map.mp hx
      rw [List.mem_singleton.mp hy]
      exact hfresh f hf
    · intro f hf
      rcases List.mem_append.mp hf with hf | hf
      · exact h.named f hf
      · rw [List.mem_singleton.mp hf]
        exact hnamed
    · intro f hf id hid
      have hold : ∃ g ∈ tree.folders, g.id = id := by
        rcases List.mem_append.mp hf with hf | hf
        · exact h.parents f hf id hid
        · rw [List.mem_singleton.mp hf] at hid
          exact hparent id hid
      obtain ⟨g, hg, hgid⟩ := hold
      exact ⟨g, List.mem_append_left _ hg, hgid⟩
    · have hedge : ∀ order x y, parentOf (tree.folders ++ [⟨newId, trim name, parentId, order⟩]) x = some y →
          ParentEdge tree.folders x y ∨ x = newId ∧ parentId = some y := by
        intro order x y hxy
        obtain ⟨f, hf, rfl, hp⟩ := parentOf_eq_some hxy
        rcases List.mem_append.mp hf with hf | hf
        · exact .inl ⟨f, hf, rfl, hp⟩
        · rw [List.mem_singleton.mp hf] at hp ⊢
          exact .inr ⟨rfl, hp⟩
      cases parentId with
      | none => exact h.cycleFree.mono fun x y hxy => (hedge _ x y hxy).resolve_right fun h => nomatch h.2
      | some b =>
        refine h.cycleFree.insert (a := newId) (b := b) (fun x y hxy => ?_) fun hback => ?_
        · exact (hedge _ x y hxy).imp id fun h => ⟨h.1, (Option.some.inj h.2).symm⟩
        · -- Nothing leads to an id that no folder has.
          obtain ⟨g, hg, hgid⟩ := hparent b rfl
          rcases Relation.reflTransGen_iff_eq_or_transGen.mp hback with heq | hpath
          · exact hfresh g hg (hgid.trans heq.symm)
          · obtain ⟨f, hf, hid⟩ := h.exists_of_above (Relation.TransGen.mono (fun _ _ => parentOf_of_edge h) _ _ hpath)
            exact hfresh f hf hid

theorem renameFolder_forest {tree : SidebarTree} (h : Forest tree.folders) (id name : Text) :
    Forest (renameFolder tree id name).folders := by
  rw [renameFolder]
  split
  · exact h
  · have hparent : ∀ f : SidebarFolder, (if f.id = id then { f with name := trim name } else f).parentId = f.parentId :=
      fun f => by split <;> rfl
    refine h.map (List.Sublist.refl _) (fun f => by split <;> rfl) (fun f hf id hid => ?_) (h.cycleFree.mono ?_)
    · exact h.parents f hf id ((hparent f).symm.trans hid)
    · rintro x y ⟨f, hf, hid, hp⟩
      exact ⟨f, hf, hid, (hparent f).symm.trans hp⟩

theorem deleteFolder_forest {tree : SidebarTree} (h : Forest tree.folders) (id : Text) :
    Forest (deleteFolder tree id).folders := by
  rw [deleteFolder]
  split
  · exact h
  · next target hfind =>
    have htarget := List.mem_of_find?_eq_some hfind
    obtain rfl : target.id = id := by simpa using List.find?_some hfind
    have hself : target.parentId ≠ some target.id := fun hp => h.cycleFree target.id (.single ⟨target, htarget, rfl, hp⟩)
    refine h.map List.filter_sublist (fun f => by split <;> rfl) (fun f hf id hid => ?_) fun x hx => ?_
    · have hmem := List.mem_of_mem_filter hf
      have hkept : ∀ g ∈ tree.folders, g.id = id → id ≠ target.id →
          ∃ g ∈ tree.folders.filter fun f => decide (f.id ≠ target.id), g.id = id :=
        fun g hg hgid hne => ⟨g, List.mem_filter.mpr ⟨hg, decide_eq_true (hgid ▸ hne)⟩, hgid⟩
      split at hid
      · obtain ⟨g, hg, hgid⟩ := h.parents target htarget id hid
        exact hkept g hg hgid fun heq => hself (heq ▸ hid)
      · next hother =>
        obtain ⟨g, hg, hgid⟩ := h.parents f hmem id hid
        exact hkept g hg hgid fun heq => hother (heq ▸ hid)
    · -- A folder's new parent was its parent or the parent of its parent.
      refine h.cycleFree x (Relation.transGen_eq_self.le _ _ (Relation.TransGen.mono (fun x y hxy => ?_) _ _ hx))
      obtain ⟨f, hf, rfl, hp⟩ := hxy
      have hmem := List.mem_of_mem_filter hf
      split at hp
      · next hchild => exact .tail (.single ⟨f, hmem, rfl, hchild⟩) ⟨target, htarget, rfl, hp⟩
      · exact .single ⟨f, hmem, rfl, hp⟩

theorem reorderNode_forest {tree : SidebarTree} (h : Forest tree.folders) (dragKey container : Text)
    (siblingKeys : List Text) : Forest (reorderNode tree dragKey container siblingKeys).folders := by
  rw [reorderNode]
  split
  · exact h
  · split
    · exact h
    · dsimp only
      split
      · exact h
      · split
        · exact h
        · exact moveNode_forest h _ _

theorem Edit.apply_forest {tree : SidebarTree} (h : Forest tree.folders) (edit : Edit) (hfits : edit.fits tree = true) :
    Forest (edit.apply tree).folders := by
  cases edit with
  | addFolder newId name parentId =>
    simp only [Edit.fits, Bool.and_eq_true, decide_eq_true_eq, Bool.not_eq_true'] at hfits
    refine addFolder_forest h name hfits.1.1 (fun f hf hid => ?_) (targetMissing_eq_false.mp hfits.2)
    exact absurd (hasFolder_iff.mpr ⟨f, hf, hid⟩) (Bool.eq_false_iff.mp hfits.1.2)
  | renameFolder id name => exact renameFolder_forest h id name
  | moveNode dragKey target => exact moveNode_forest h dragKey target
  | reorderNode dragKey container siblingKeys => exact reorderNode_forest h dragKey container siblingKeys
  | deleteFolder id => exact deleteFolder_forest h id
  | pruneTree liveTaskIds => exact h

theorem runs_forest {edits : List Edit} {tree : SidebarTree} (h : runs editStep EMPTY_SIDEBAR_TREE edits = some tree) :
    Forest tree.folders := by
  refine Lib.runs_keep (I := fun tree => Forest tree.folders) (fun tree edit tree' hforest hstep => ?_) forest_nil h
  rw [editStep] at hstep
  split at hstep
  · next hfits =>
    cases hstep
    exact edit.apply_forest hforest hfits
  · cases hstep

end Haive.Sidebar

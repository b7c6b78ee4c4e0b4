import Haive.Lib.Buckets
import Haive.Lib.Units

/-!
# The sidebar tree

The folders a user keeps in the sidebar and what is rendered of them, as `web/src/lib/sidebar-tree.ts` folds
the fetched tasks into the stored arrangement. A record is a function here, and the comparison of names by
locale a parameter.
-/

namespace Haive.Sidebar

open Lib.Units
open Lib (push bucket)

abbrev Text := List UInt16

structure SidebarFolder where
  id : Text
  name : Text
  parentId : Option Text
  order : Nat

structure SidebarTree where
  folders : List SidebarFolder
  placements : Text → Option Text
  closed : List Text
  order : Text → Option Nat

def EMPTY_SIDEBAR_TREE : SidebarTree := ⟨[], fun _ => none, [], fun _ => none⟩

def SIDEBAR_HIDDEN_TYPES : List Text := [units "plan_chat", units "plan_build"]

def NO_REPO_KEY : Text := units "repo:none"
def NO_REPO_LABEL : Text := units "No repository"

structure TaskRepository where
  id : Text
  name : Text

class SidebarTaskLike (T : Type) where
  id : T → Text
  type : T → Text
  repository : T → Option TaskRepository
  repositoryId : T → Option Text

def taskKey (id : Text) : Text := units "task:" ++ id

def repoKey : Option Text → Text
  | none | some [] => NO_REPO_KEY
  | some id => units "repo:" ++ id

/-! ## Rendered nodes -/

structure RenderedTask (T : Type) where
  key : Text
  task : T

structure RenderedRepo (T : Type) where
  key : Text
  name : Text
  tasks : List (RenderedTask T)

inductive RenderedNode (T : Type)
  | folder (key : Text) (folder : SidebarFolder) (children : List (RenderedNode T)) (taskCount : Nat)
  | repo (group : RenderedRepo T)
  | task (node : RenderedTask T)

variable {T : Type}

def orderKey : RenderedNode T → Text
  | .folder _ folder _ _ => folder.id
  | .repo group => group.key
  | .task node => node.key

/-- An unpositioned node comes last. -/
def positionLe : Option Nat → Option Nat → Bool
  | some a, some b => a ≤ b
  | none, some _ => false
  | _, none => true

def applyOrder {N : Type} (key : N → Text) (order : Text → Option Nat) (nodes : List N) : List N :=
  if nodes.length < 2 then nodes
  else nodes.insertionSort fun a b => positionLe (order (key a)) (order (key b)) = true

def countTasks (nodes : List (RenderedNode T)) : Nat :=
  nodes.foldl (fun n node =>
    match node with
    | .task _ => n + 1
    | .repo group => n + group.tasks.length
    | .folder _ _ _ taskCount => n + taskCount) 0

/-! ## Building -/

def placedIn (tree : SidebarTree) (key : Text) : Option Text :=
  (tree.placements key).filter fun id => id ≠ [] && tree.folders.any (·.id = id)

structure Filed (T : Type) where
  loose : Text → List (RenderedTask T)
  repoGroups : List (RenderedRepo T)

def addToGroup (key name : Text) (node : RenderedTask T) : List (RenderedRepo T) → List (RenderedRepo T)
  | [] => [⟨key, name, [node]⟩]
  | group :: rest =>
    if group.key = key then { group with tasks := group.tasks ++ [node] } :: rest
    else group :: addToGroup key name node rest

section Build

variable [SidebarTaskLike T] (localeCompare : Text → Text → Ordering) (tree : SidebarTree)

def isListed (task : T) : Bool := ! SIDEBAR_HIDDEN_TYPES.contains (SidebarTaskLike.type task)

def renderTask (task : T) : RenderedTask T := ⟨taskKey (SidebarTaskLike.id task), task⟩

def fileTask (filed : Filed T) (task : T) : Filed T :=
  let node := renderTask task
  match placedIn tree node.key with
  | some folder => { filed with loose := push filed.loose folder node }
  | none =>
    let repository := SidebarTaskLike.repository task
    let key := repoKey ((repository.map TaskRepository.id).or (SidebarTaskLike.repositoryId task))
    let name := (repository.map TaskRepository.name).getD NO_REPO_LABEL
    { filed with repoGroups := addToGroup key name node filed.repoGroups }

def fileTasks (tasks : List T) : Filed T := (tasks.filter isListed).foldl (fileTask tree) ⟨fun _ => [], []⟩

def shownParent (folder : SidebarFolder) : Option Text :=
  folder.parentId.filter fun id => id ≠ [] && tree.folders.any (·.id = id)

def foldersByParent : Option Text → List SidebarFolder := bucket (shownParent tree) tree.folders

def orderedGroups (filed : Filed T) : List (RenderedRepo T) :=
  filed.repoGroups.map fun group => { group with tasks := applyOrder RenderedTask.key tree.order group.tasks }

def reposByFolder (filed : Filed T) : Option Text → List (RenderedRepo T) :=
  bucket (fun group => placedIn tree group.key) (orderedGroups tree filed)

def byName {N : Type} (name : N → Text) (a b : N) : Bool := localeCompare (name a) (name b) ≠ .gt

def sortFolders (folders : List SidebarFolder) : List SidebarFolder :=
  folders.insertionSort fun a b => a.order < b.order ∨ a.order = b.order ∧ byName localeCompare (·.name) a b = true

def sortRepos (groups : List (RenderedRepo T)) : List (RenderedNode T) :=
  (groups.insertionSort fun a b => byName localeCompare (·.name) a b = true).map .repo

/-- `folders.map(renderFolder)`: each sees what the ones before it have marked. -/
def renderEach (render : SidebarFolder → List Text → Option (RenderedNode T × List Text)) :
    List SidebarFolder → List Text → Option (List (RenderedNode T) × List Text)
  | [], seen => some ([], seen)
  | folder :: rest, seen =>
    (render folder seen).bind fun (node, seen) =>
      (renderEach render rest seen).map fun (nodes, seen) => (node :: nodes, seen)

/-- `none` when the fuel does not last. -/
def renderFolder (filed : Filed T) : Nat → SidebarFolder → List Text → Option (RenderedNode T × List Text)
  | 0, _, _ => none
  | fuel + 1, folder, seen =>
    let seen := folder.id :: seen
    let below := (foldersByParent tree (some folder.id)).filter fun f => ! seen.contains f.id
    (renderEach (renderFolder filed fuel) (sortFolders localeCompare below) seen).map fun (rendered, seen) =>
      let children := applyOrder orderKey tree.order
        (rendered ++ sortRepos localeCompare (reposByFolder tree filed (some folder.id)) ++
          (filed.loose folder.id).map .task)
      (.folder folder.id folder children (countTasks children), seen)

def buildSidebarTree (tasks : List T) : Option (List (RenderedNode T)) :=
  let filed := fileTasks tree tasks
  (renderEach (renderFolder localeCompare tree filed (tree.folders.length + 1))
    (sortFolders localeCompare (foldersByParent tree none)) []).map fun (rendered, _) =>
      applyOrder orderKey tree.order (rendered ++ sortRepos localeCompare (reposByFolder tree filed none))

end Build

end Haive.Sidebar

import Haive.Sidebar.Edits

/-!
# What the sidebar shows

Of folders that are a forest every one is rendered once, with all that hangs off it (`Shows`), so every listed
task is rendered once and every folder counts the tasks beneath it (`buildSidebarTree_shows`).
-/

namespace Haive.Sidebar

open Lib.Units
open Lib (Above AtOrBelow above_head above_iff above_iff_childOf not_atOrBelow_siblings bucket_eq perm_of_buckets runs)

variable {T : Type}

/-! ## What is beneath a node -/

mutual

def RenderedNode.tasksBeneath : RenderedNode T → List T
  | .folder _ _ children _ => tasksIn children
  | .repo group => group.tasks.map (·.task)
  | .task node => [node.task]

def tasksIn : List (RenderedNode T) → List T
  | [] => []
  | node :: rest => node.tasksBeneath ++ tasksIn rest

end

mutual

/-- The folder itself and those beneath it. -/
def RenderedNode.foldersBeneath : RenderedNode T → List SidebarFolder
  | .folder _ folder children _ => folder :: foldersIn children
  | .repo _ => []
  | .task _ => []

def foldersIn : List (RenderedNode T) → List SidebarFolder
  | [] => []
  | node :: rest => node.foldersBeneath ++ foldersIn rest

end

mutual

/-- Every folder says how many tasks are beneath it. -/
def RenderedNode.Counted : RenderedNode T → Prop
  | .folder _ _ children taskCount => taskCount = (tasksIn children).length ∧ AllCounted children
  | .repo _ => True
  | .task _ => True

def AllCounted : List (RenderedNode T) → Prop
  | [] => True
  | node :: rest => node.Counted ∧ AllCounted rest

end

theorem tasksIn_eq (nodes : List (RenderedNode T)) : tasksIn nodes = nodes.flatMap RenderedNode.tasksBeneath := by
  induction nodes with
  | nil => rfl
  | cons node rest ih => rw [tasksIn, ih, List.flatMap_cons]

theorem foldersIn_eq (nodes : List (RenderedNode T)) : foldersIn nodes = nodes.flatMap RenderedNode.foldersBeneath := by
  induction nodes with
  | nil => rfl
  | cons node rest ih => rw [foldersIn, ih, List.flatMap_cons]

theorem allCounted_iff {nodes : List (RenderedNode T)} : AllCounted nodes ↔ ∀ node ∈ nodes, node.Counted := by
  induction nodes with
  | nil => exact iff_of_true trivial fun node hnode => absurd hnode List.not_mem_nil
  | cons node rest ih => rw [AllCounted, ih, List.forall_mem_cons]

theorem tasksIn_append (nodes nodes' : List (RenderedNode T)) : tasksIn (nodes ++ nodes') = tasksIn nodes ++ tasksIn nodes' := by
  rw [tasksIn_eq, tasksIn_eq, tasksIn_eq, List.flatMap_append]

theorem foldersIn_append (nodes nodes' : List (RenderedNode T)) :
    foldersIn (nodes ++ nodes') = foldersIn nodes ++ foldersIn nodes' := by
  rw [foldersIn_eq, foldersIn_eq, foldersIn_eq, List.flatMap_append]

theorem tasksIn_perm {nodes nodes' : List (RenderedNode T)} (h : nodes.Perm nodes') : (tasksIn nodes).Perm (tasksIn nodes') := by
  rw [tasksIn_eq, tasksIn_eq]
  exact h.flatMap_right _

theorem foldersIn_perm {nodes nodes' : List (RenderedNode T)} (h : nodes.Perm nodes') :
    (foldersIn nodes).Perm (foldersIn nodes') := by
  rw [foldersIn_eq, foldersIn_eq]
  exact h.flatMap_right _

theorem countTasks_eq {nodes : List (RenderedNode T)} (h : ∀ node ∈ nodes, node.Counted) :
    countTasks nodes = (tasksIn nodes).length := by
  have hfold : ∀ count : Nat → RenderedNode T → Nat,
      (∀ n, ∀ node : RenderedNode T, node.Counted → count n node = n + node.tasksBeneath.length) →
      ∀ n, nodes.foldl count n = n + (tasksIn nodes).length := by
    intro count hcount
    induction nodes with
    | nil => exact fun n => rfl
    | cons node rest ih =>
      intro n
      rw [List.forall_mem_cons] at h
      rw [List.foldl_cons, ih h.2, tasksIn, List.length_append, ← Nat.add_assoc, hcount n node h.1]
  rw [countTasks, hfold _ (fun n node hnode => ?_) 0, Nat.zero_add]
  cases node with
  | folder key folder children taskCount => exact congrArg (n + ·) hnode.1
  | repo group => exact congrArg (n + ·) (List.length_map _).symm
  | task node => rfl

theorem applyOrder_perm {N : Type} (key : N → Text) (order : Text → Option Nat) (nodes : List N) :
    (applyOrder key order nodes).Perm nodes := by
  rw [applyOrder]
  split
  · exact List.Perm.refl _
  · exact List.perm_insertionSort _ _

/-! ## Filing -/

def RenderedRepo.ownTasks (group : RenderedRepo T) : List T := group.tasks.map (·.task)

theorem addToGroup_perm (key name : Text) (node : RenderedTask T) (groups : List (RenderedRepo T)) :
    ((addToGroup key name node groups).flatMap RenderedRepo.ownTasks).Perm
      (groups.flatMap RenderedRepo.ownTasks ++ [node.task]) := by
  induction groups with
  | nil => exact List.Perm.refl _
  | cons group rest ih =>
    rw [addToGroup]
    split
    · rw [List.flatMap_cons, List.flatMap_cons, RenderedRepo.ownTasks, List.map_append, List.append_assoc, List.append_assoc]
      exact List.perm_append_comm.append_left _
    · rw [List.flatMap_cons, List.flatMap_cons, List.append_assoc]
      exact ih.append_left _

section Tree

variable {localeCompare : Text → Text → Ordering} {tree : SidebarTree}

theorem orderedGroups_perm (filed : Filed T) : ((orderedGroups tree filed).flatMap RenderedRepo.ownTasks).Perm
    (filed.repoGroups.flatMap RenderedRepo.ownTasks) := by
  rw [orderedGroups, List.flatMap_map]
  exact List.Perm.flatMap_left _ fun group _ => (applyOrder_perm _ _ _).map _

theorem tasksIn_sortRepos (groups : List (RenderedRepo T)) :
    (tasksIn (sortRepos localeCompare groups)).Perm (groups.flatMap RenderedRepo.ownTasks) := by
  rw [sortRepos, tasksIn_eq, List.flatMap_map]
  exact (List.perm_insertionSort _ _).flatMap_right RenderedRepo.ownTasks

theorem foldersIn_sortRepos (groups : List (RenderedRepo T)) : foldersIn (sortRepos localeCompare groups) = [] := by
  rw [sortRepos, foldersIn_eq, List.flatMap_map]
  exact List.flatMap_eq_nil_iff.mpr fun _ _ => rfl

theorem tasksIn_tasks (nodes : List (RenderedTask T)) : tasksIn (nodes.map .task) = nodes.map (·.task) := by
  rw [tasksIn_eq, List.flatMap_map, List.map_eq_flatMap]
  rfl

theorem foldersIn_tasks (nodes : List (RenderedTask T)) : foldersIn (nodes.map .task) = [] := by
  rw [foldersIn_eq, List.flatMap_map]
  exact List.flatMap_eq_nil_iff.mpr fun _ _ => rfl

/-- The tasks that hang off a folder: those of its repository groups and those filed there on their own. -/
def ownTasks (tree : SidebarTree) (filed : Filed T) (id : Text) : List T :=
  (reposByFolder tree filed (some id)).flatMap RenderedRepo.ownTasks ++ (filed.loose id).map (·.task)

section Filing

variable [SidebarTaskLike T]

def ownFolder (tree : SidebarTree) (task : T) : Option Text := placedIn tree (renderTask task).key

theorem fileAll_loose (tasks : List T) (filed : Filed T) (id : Text) :
    ((tasks.foldl (fileTask tree) filed).loose id).map (·.task) =
      (filed.loose id).map (·.task) ++ tasks.filter fun task => ownFolder tree task = some id := by
  induction tasks generalizing filed with
  | nil => exact (List.append_nil _).symm
  | cons task tasks ih =>
    rw [List.foldl_cons, ih, fileTask]
    dsimp only
    cases hplaced : placedIn tree (renderTask task).key with
    | none => rw [List.filter_cons_of_neg (by simp [ownFolder, hplaced])]
    | some folder =>
      dsimp only
      rw [Lib.push]
      by_cases hid : id = folder
      · rw [if_pos hid, List.filter_cons_of_pos (by simp [ownFolder, hplaced, hid]), List.map_append, List.append_assoc]
        rfl
      · rw [if_neg hid, List.filter_cons_of_neg (by simpa [ownFolder, hplaced] using fun h => hid h.symm)]

theorem fileAll_repoGroups (tasks : List T) (filed : Filed T) :
    ((tasks.foldl (fileTask tree) filed).repoGroups.flatMap RenderedRepo.ownTasks).Perm
      (filed.repoGroups.flatMap RenderedRepo.ownTasks ++ tasks.filter fun task => ownFolder tree task = none) := by
  induction tasks generalizing filed with
  | nil => exact List.Perm.of_eq (List.append_nil _).symm
  | cons task tasks ih =>
    rw [List.foldl_cons]
    refine (ih _).trans ?_
    rw [fileTask]
    dsimp only
    cases hplaced : placedIn tree (renderTask task).key with
    | none =>
      rw [List.filter_cons_of_pos (by simp [ownFolder, hplaced])]
      refine ((addToGroup_perm _ _ _ _).append_right _).trans ?_
      rw [List.append_assoc]
      exact List.Perm.refl _
    | some folder => rw [List.filter_cons_of_neg (by simp [ownFolder, hplaced])]

/-- No task is lost between the folders and the root. -/
theorem filed_perm (hids : (tree.folders.map (·.id)).Nodup) (tasks : List T) :
    ((reposByFolder tree (fileTasks tree tasks) none).flatMap RenderedRepo.ownTasks ++
      tree.folders.flatMap fun f => ownTasks tree (fileTasks tree tasks) f.id).Perm (tasks.filter isListed) := by
  have hplaced : ∀ key id, placedIn tree key = some id → id ∈ tree.folders.map (·.id) := by
    intro key id h
    have hmem := (Option.filter_eq_some_iff.mp h).2
    simpa using (Bool.and_eq_true_iff.mp hmem).2
  have hgroups := perm_of_buckets (fun group : RenderedRepo T => placedIn tree group.key)
    (orderedGroups tree (fileTasks tree tasks)) hids fun group _ id h => hplaced _ id h
  have hloose := perm_of_buckets (ownFolder tree) (tasks.filter isListed) hids fun task _ id h => hplaced _ id h
  have hfolders : (tree.folders.flatMap fun f => (reposByFolder tree (fileTasks tree tasks) (some f.id)).flatMap
      RenderedRepo.ownTasks) = ((tree.folders.map (·.id)).flatMap fun id =>
        (orderedGroups tree (fileTasks tree tasks)).filter fun group => placedIn tree group.key = some id).flatMap
          RenderedRepo.ownTasks := by
    rw [List.flatMap_map, List.flatMap_assoc]
    exact List.flatMap_congr fun f _ => by rw [reposByFolder, bucket_eq]
  have hroot : reposByFolder tree (fileTasks tree tasks) none =
      (orderedGroups tree (fileTasks tree tasks)).filter fun group => placedIn tree group.key = none := bucket_eq _ _ _
  have hnone : ((orderedGroups tree (fileTasks tree tasks)).flatMap RenderedRepo.ownTasks).Perm
      ((tasks.filter isListed).filter fun task => ownFolder tree task = none) :=
    (orderedGroups_perm _).trans (fileAll_repoGroups _ _)
  have hsome : (tree.folders.flatMap fun f => ((fileTasks tree tasks).loose f.id).map (·.task)) =
      (tree.folders.map (·.id)).flatMap fun id => (tasks.filter isListed).filter fun task => ownFolder tree task = some id := by
    rw [List.flatMap_map]
    exact List.flatMap_congr fun f _ => fileAll_loose _ _ _
  refine ((List.flatMap_append_perm _ _ _).symm.append_left _).trans ?_
  rw [hfolders, hroot, hsome, ← List.append_assoc, ← List.flatMap_append]
  exact (((hgroups.flatMap_right _).trans hnone).append_right _).trans hloose

end Filing

/-! ## Rendering -/

/-- `nodes` are the folders `fs` as rendered: all that is at or below them, each once, with what hangs off it. -/
structure Shows (tree : SidebarTree) (filed : Filed T) (fs : List SidebarFolder) (seen seen' : List Text)
    (nodes : List (RenderedNode T)) : Prop where
  once : (foldersIn nodes).Nodup
  all : ∀ g, g ∈ foldersIn nodes ↔ g ∈ tree.folders ∧ ∃ f ∈ fs, AtOrBelow (parentOf tree.folders) g.id f.id
  tasks : (tasksIn nodes).Perm ((foldersIn nodes).flatMap fun f => ownTasks tree filed f.id)
  counted : ∀ node ∈ nodes, node.Counted
  marked : ∀ id ∈ seen', id ∈ seen ∨ ∃ f ∈ fs, AtOrBelow (parentOf tree.folders) id f.id

variable {filed : Filed T} (hforest : Forest tree.folders)

/-- Folders with one parent: nothing is below two of them. -/
def Siblings (tree : SidebarTree) (fs : List SidebarFolder) : Prop :=
  fs.Pairwise fun f g => f.id ≠ g.id ∧ parentOf tree.folders f.id = parentOf tree.folders g.id

include hforest

theorem renderEach_shows {render : SidebarFolder → List Text → Option (RenderedNode T × List Text)} {fs : List SidebarFolder}
    (hsiblings : Siblings tree fs)
    (hrender : ∀ f ∈ fs, ∀ seen, (∀ id ∈ seen, ¬ AtOrBelow (parentOf tree.folders) id f.id) →
      ∃ node seen', render f seen = some (node, seen') ∧ Shows tree filed [f] seen seen' [node]) :
    ∀ seen, (∀ f ∈ fs, ∀ id ∈ seen, ¬ AtOrBelow (parentOf tree.folders) id f.id) →
      ∃ nodes seen', renderEach render fs seen = some (nodes, seen') ∧ Shows tree filed fs seen seen' nodes := by
  induction fs with
  | nil =>
    intro seen _
    refine ⟨[], seen, rfl, List.nodup_nil, fun g => ?_, List.Perm.refl _, fun node h => absurd h List.not_mem_nil, fun id => .inl⟩
    exact iff_of_false List.not_mem_nil fun ⟨_, f, hf, _⟩ => List.not_mem_nil hf
  | cons f rest ih =>
    intro seen hseen
    obtain ⟨hfirst, hrest⟩ := List.pairwise_cons.mp hsiblings
    obtain ⟨node, seen₁, hnode, hshows⟩ := hrender f List.mem_cons_self seen (hseen f List.mem_cons_self)
    have hapart : ∀ g ∈ rest, ∀ id, AtOrBelow (parentOf tree.folders) id f.id → ¬ AtOrBelow (parentOf tree.folders) id g.id :=
      fun g hg id => not_atOrBelow_siblings hforest.acyclic (hfirst g hg).1 (hfirst g hg).2
    obtain ⟨nodes, seen₂, hnodes, hshows'⟩ := ih hrest (fun g hg => hrender g (List.mem_cons_of_mem f hg)) seen₁
      fun g hg id hid => by
        rcases hshows.marked id hid with hid | ⟨f', hf', hat⟩
        · exact hseen g (List.mem_cons_of_mem f hg) id hid
        · exact hapart g hg id (List.mem_singleton.mp hf' ▸ hat)
    have hfolders : foldersIn (node :: nodes) = foldersIn [node] ++ foldersIn nodes := foldersIn_append [node] nodes
    have heach : renderEach render (f :: rest) seen = some (node :: nodes, seen₂) := by
      rw [renderEach, hnode, Option.bind_some]
      dsimp only
      rw [hnodes]
      rfl
    refine ⟨node :: nodes, seen₂, heach, ?_, fun g => ?_, ?_, ?_, ?_⟩
    · rw [hfolders]
      refine List.nodup_append.mpr ⟨hshows.once, hshows'.once, fun a ha b hb hab => ?_⟩
      obtain ⟨-, f', hf', hat⟩ := (hshows.all a).mp ha
      obtain ⟨-, g, hg, hat'⟩ := (hshows'.all b).mp hb
      exact hapart g hg a.id (List.mem_singleton.mp hf' ▸ hat) (hab ▸ hat')
    · rw [hfolders, List.mem_append, hshows.all, hshows'.all, ← and_or_left]
      simp
    · have htasks : tasksIn (node :: nodes) = tasksIn [node] ++ tasksIn nodes := tasksIn_append [node] nodes
      rw [htasks, hfolders, List.flatMap_append]
      exact hshows.tasks.append hshows'.tasks
    · exact List.forall_mem_cons.mpr ⟨hshows.counted node List.mem_cons_self, hshows'.counted⟩
    · intro id hid
      rcases hshows'.marked id hid with hid | ⟨g, hg, hat⟩
      · rcases hshows.marked id hid with hid | ⟨f', hf', hat⟩
        · exact .inl hid
        · exact .inr ⟨f, List.mem_cons_self, List.mem_singleton.mp hf' ▸ hat⟩
      · exact .inr ⟨g, List.mem_cons_of_mem f hg, hat⟩

theorem mem_foldersByParent {parent : Option Text} {f : SidebarFolder} :
    f ∈ foldersByParent tree parent ↔ f ∈ tree.folders ∧ parentOf tree.folders f.id = parent := by
  rw [foldersByParent, bucket_eq, List.mem_filter, decide_eq_true_eq]
  refine and_congr_right fun hf => ?_
  have hshown : shownParent tree f = parentOf tree.folders f.id := by
    rw [parentOf_of_mem hforest.ids hf, shownParent]
    cases hparent : f.parentId with
    | none => rfl
    | some id =>
      obtain ⟨g, hg, rfl⟩ := hforest.parents f hf id hparent
      have hthere : tree.folders.any (·.id = g.id) = true := List.any_eq_true.mpr ⟨g, hg, decide_eq_true rfl⟩
      rw [Option.filter_some, hthere, decide_eq_true (hforest.named g hg)]
      rfl
  rw [hshown]

theorem siblings_of_sublist {parent : Option Text} {fs fs' : List SidebarFolder} (hfs : fs.Sublist (foldersByParent tree parent))
    (hperm : fs'.Perm fs) : Siblings tree fs' := by
  have hmem : ∀ f ∈ fs', f ∈ tree.folders ∧ parentOf tree.folders f.id = parent := fun f hf =>
    (mem_foldersByParent hforest).mp (hfs.subset (hperm.subset hf))
  have hnodup : (fs'.map (·.id)).Nodup := by
    refine ((hperm.map _).nodup_iff).mpr (hforest.ids.sublist ((hfs.trans ?_).map _))
    rw [foldersByParent, bucket_eq]
    exact List.filter_sublist
  refine (List.pairwise_map.mp hnodup).imp_of_mem fun hf hg hne => ⟨hne, ?_⟩
  rw [(hmem _ hf).2, (hmem _ hg).2]

omit hforest in
theorem tasksIn_children (rendered : List (RenderedNode T)) (id : Text) :
    (tasksIn (applyOrder orderKey tree.order (rendered ++ sortRepos localeCompare (reposByFolder tree filed (some id)) ++
      (filed.loose id).map .task))).Perm (tasksIn rendered ++ ownTasks tree filed id) := by
  refine (tasksIn_perm (applyOrder_perm _ _ _)).trans ?_
  rw [tasksIn_append, tasksIn_append, tasksIn_tasks, List.append_assoc, ownTasks]
  exact ((tasksIn_sortRepos _).append_right _).append_left _

omit hforest in
theorem foldersIn_children (rendered : List (RenderedNode T)) (id : Text) :
    (foldersIn (applyOrder orderKey tree.order (rendered ++ sortRepos localeCompare (reposByFolder tree filed (some id)) ++
      (filed.loose id).map .task))).Perm (foldersIn rendered) := by
  refine (foldersIn_perm (applyOrder_perm _ _ _)).trans (List.Perm.of_eq ?_)
  rw [foldersIn_append, foldersIn_append, foldersIn_tasks, foldersIn_sortRepos, List.append_nil, List.append_nil]

omit hforest in
theorem counted_children {rendered : List (RenderedNode T)} (h : ∀ node ∈ rendered, node.Counted) (id : Text) :
    ∀ node ∈ applyOrder orderKey tree.order (rendered ++ sortRepos localeCompare (reposByFolder tree filed (some id)) ++
      (filed.loose id).map .task), node.Counted := by
  intro node hnode
  rcases List.mem_append.mp ((applyOrder_perm _ _ _).subset hnode) with hnode | hnode
  · rcases List.mem_append.mp hnode with hnode | hnode
    · exact h node hnode
    · obtain ⟨group, -, rfl⟩ := List.mem_map.mp hnode
      exact trivial
  · obtain ⟨task, -, rfl⟩ := List.mem_map.mp hnode
    exact trivial

theorem shows_folder {f : SidebarFolder} (hf : f ∈ tree.folders) {below : List SidebarFolder}
    (hbelow : ∀ id, (∃ c ∈ below, AtOrBelow (parentOf tree.folders) id c.id) ↔ Above (parentOf tree.folders) id f.id)
    {seen seen' : List Text} {rendered : List (RenderedNode T)}
    (h : Shows tree filed below (f.id :: seen) seen' rendered) :
    let children := applyOrder orderKey tree.order
      (rendered ++ sortRepos localeCompare (reposByFolder tree filed (some f.id)) ++ (filed.loose f.id).map .task)
    Shows tree filed [f] seen seen' [.folder f.id f children (countTasks children)] := by
  intro children
  have hfolders : (foldersIn [.folder f.id f children (countTasks children)]).Perm (f :: foldersIn rendered) := by
    rw [foldersIn, foldersIn, List.append_nil, RenderedNode.foldersBeneath]
    exact (foldersIn_children rendered f.id).cons f
  have hcounted : ∀ node ∈ children, node.Counted := counted_children h.counted f.id
  refine ⟨?_, fun g => ?_, ?_, ?_, ?_⟩
  · refine hfolders.nodup_iff.mpr (List.nodup_cons.mpr ⟨fun hmem => ?_, h.once⟩)
    exact hforest.acyclic f.id ((hbelow f.id).mp ((h.all f).mp hmem).2)
  · rw [hfolders.mem_iff, List.mem_cons, h.all, hbelow]
    constructor
    · rintro (rfl | ⟨hg, habove⟩)
      · exact ⟨hf, g, List.mem_cons_self, .inl rfl⟩
      · exact ⟨hg, f, List.mem_cons_self, .inr habove⟩
    · rintro ⟨hg, f', hf', hat⟩
      rw [List.mem_singleton.mp hf'] at hat
      exact hat.imp (hforest.eq_of_id hg hf) fun habove => ⟨hg, habove⟩
  · rw [tasksIn, tasksIn, List.append_nil, RenderedNode.tasksBeneath]
    refine (tasksIn_children rendered f.id).trans ?_
    refine ((h.tasks.append_right _).trans List.perm_append_comm).trans ?_
    exact (hfolders.flatMap_right fun f => ownTasks tree filed f.id).symm
  · intro node hnode
    rw [List.mem_singleton.mp hnode]
    exact ⟨countTasks_eq hcounted, allCounted_iff.mpr hcounted⟩
  · intro id hid
    rcases h.marked id hid with hid | hat
    · exact (List.mem_cons.mp hid).elim (fun heq => .inr ⟨f, List.mem_cons_self, .inl heq⟩) .inl
    · exact .inr ⟨f, List.mem_cons_self, .inr ((hbelow id).mp hat)⟩

open Classical in
theorem renderFolder_shows {fuel : Nat} : ∀ {f : SidebarFolder}, f ∈ tree.folders →
    tree.folders.countP (fun g => Above (parentOf tree.folders) g.id f.id) < fuel →
    ∀ seen, (∀ id ∈ seen, ¬ AtOrBelow (parentOf tree.folders) id f.id) →
      ∃ node seen', renderFolder localeCompare tree filed fuel f seen = some (node, seen') ∧
        Shows tree filed [f] seen seen' [node] := by
  induction fuel with
  | zero => exact fun _ h => absurd h (Nat.not_lt_zero _)
  | succ fuel ih =>
    intro f hf hfuel seen hseen
    rw [renderFolder]
    generalize hbelow : sortFolders localeCompare ((foldersByParent tree (some f.id)).filter
      fun g => ! (f.id :: seen).contains g.id) = below
    have hperm : below.Perm ((foldersByParent tree (some f.id)).filter fun g => ! (f.id :: seen).contains g.id) :=
      hbelow ▸ List.perm_insertionSort _ _
    have hchild : ∀ c ∈ tree.folders, parentOf tree.folders c.id = some f.id → c.id ∉ f.id :: seen := by
      intro c _ hparent hmem
      rcases List.mem_cons.mp hmem with hsame | hmem
      · exact hforest.acyclic f.id (above_head (hsame ▸ hparent))
      · exact hseen c.id hmem (.inr (above_head hparent))
    have hmem : ∀ c, c ∈ below ↔ c ∈ tree.folders ∧ parentOf tree.folders c.id = some f.id := by
      intro c
      rw [hperm.mem_iff, List.mem_filter, mem_foldersByParent hforest]
      exact and_iff_left_of_imp fun h => by simpa using hchild c h.1 h.2
    have hrender : ∀ c ∈ below, ∀ seen, (∀ id ∈ seen, ¬ AtOrBelow (parentOf tree.folders) id c.id) →
        ∃ node seen', renderFolder localeCompare tree filed fuel c seen = some (node, seen') ∧
          Shows tree filed [c] seen seen' [node] := by
      intro c hc
      obtain ⟨hcmem, hparent⟩ := (hmem c).mp hc
      refine ih hcmem (Nat.lt_of_lt_of_le ?_ (Nat.le_of_lt_succ hfuel))
      refine Lib.countP_lt hcmem (decide_eq_true (above_head hparent)) ?_ fun g _ hg => ?_
      · exact decide_eq_false (hforest.acyclic c.id)
      · exact decide_eq_true ((of_decide_eq_true hg).snoc hparent)
    obtain ⟨rendered, seen', heach, hshows⟩ := renderEach_shows hforest
      (siblings_of_sublist hforest List.filter_sublist hperm) hrender (f.id :: seen) fun c hc id hid hat => by
        obtain ⟨hcmem, hparent⟩ := (hmem c).mp hc
        rcases List.mem_cons.mp hid with rfl | hid
        · exact hforest.acyclic f.id (hat.elim (fun h => above_head (h ▸ hparent)) fun h => h.snoc hparent)
        · exact hseen id hid (.inr (above_iff_childOf.mpr ⟨c.id, hparent, hat⟩))
    have hat : ∀ id, (∃ c ∈ below, AtOrBelow (parentOf tree.folders) id c.id) ↔ Above (parentOf tree.folders) id f.id := by
      intro id
      rw [above_iff_childOf]
      constructor
      · rintro ⟨c, hc, hat⟩
        exact ⟨c.id, ((hmem c).mp hc).2, hat⟩
      · rintro ⟨y, hparent, hat⟩
        obtain ⟨c, hc, rfl, -⟩ := parentOf_eq_some hparent
        exact ⟨c, (hmem c).mpr ⟨hc, hparent⟩, hat⟩
    rw [heach]
    refine ⟨_, seen', rfl, ?_⟩
    exact shows_folder hforest hf hat hshows

theorem exists_root {f : SidebarFolder} (hf : f ∈ tree.folders) :
    ∃ g ∈ foldersByParent tree none, AtOrBelow (parentOf tree.folders) f.id g.id := by
  have hclimb : ∀ {id : Text}, Lib.Rooted (parentOf tree.folders) id → ∀ f ∈ tree.folders, f.id = id →
      ∃ g ∈ foldersByParent tree none, AtOrBelow (parentOf tree.folders) id g.id := by
    intro id hrooted
    induction hrooted with
    | root hnone =>
      rintro f hf rfl
      exact ⟨f, (mem_foldersByParent hforest).mpr ⟨hf, hnone⟩, .inl rfl⟩
    | step hparent _ ih =>
      intro _ _ _
      obtain ⟨g, hg, hid⟩ := hforest.exists_of_above (above_head hparent)
      obtain ⟨root, hroot, hat⟩ := ih g hg hid
      exact ⟨root, hroot, .inr (above_iff.mpr ⟨_, hparent, hat⟩)⟩
  exact hclimb (hforest.rooted hf) f hf rfl

end Tree

theorem buildSidebarTree_shows [SidebarTaskLike T] {localeCompare : Text → Text → Ordering} {tree : SidebarTree}
    (hforest : Forest tree.folders) (tasks : List T) :
    ∃ nodes, buildSidebarTree localeCompare tree tasks = some nodes ∧ (tasksIn nodes).Perm (tasks.filter isListed) ∧
      (foldersIn nodes).Perm tree.folders ∧ AllCounted nodes := by
  have hperm : (sortFolders localeCompare (foldersByParent tree none)).Perm (foldersByParent tree none) :=
    List.perm_insertionSort _ _
  have hmem : ∀ f ∈ sortFolders localeCompare (foldersByParent tree none), f ∈ tree.folders := fun f hf =>
    ((mem_foldersByParent hforest).mp (hperm.subset hf)).1
  classical
  obtain ⟨rendered, seen, heach, hshows⟩ := renderEach_shows hforest
    (siblings_of_sublist hforest (List.Sublist.refl _) hperm)
    (fun f hf => @renderFolder_shows T localeCompare tree (fileTasks tree tasks) hforest _ f (hmem f hf)
      (Nat.lt_succ_of_le List.countP_le_length)) [] fun f _ id hid => absurd hid List.not_mem_nil
  have hnodup : tree.folders.Nodup := hforest.ids.of_map _
  have hfolders : (foldersIn rendered).Perm tree.folders := by
    refine (List.perm_ext_iff_of_nodup hshows.once hnodup).mpr fun g => ?_
    rw [hshows.all]
    refine and_iff_left_of_imp fun hg => ?_
    obtain ⟨root, hroot, hat⟩ := exists_root hforest hg
    exact ⟨root, hperm.symm.subset hroot, hat⟩
  rw [buildSidebarTree]
  dsimp only
  rw [heach, Option.map_some]
  refine ⟨_, rfl, ?_, ?_, ?_⟩
  · refine (tasksIn_perm (applyOrder_perm _ _ _)).trans ?_
    rw [tasksIn_append]
    refine ((hshows.tasks.trans (hfolders.flatMap_right _)).append (tasksIn_sortRepos _)).trans ?_
    exact List.perm_append_comm.trans (filed_perm hforest.ids tasks)
  · refine (foldersIn_perm (applyOrder_perm _ _ _)).trans ?_
    rw [foldersIn_append, foldersIn_sortRepos, List.append_nil]
    exact hfolders
  · refine allCounted_iff.mpr fun node hnode => ?_
    rcases List.mem_append.mp ((applyOrder_perm _ _ _).subset hnode) with hnode | hnode
    · exact hshows.counted node hnode
    · obtain ⟨group, -, rfl⟩ := List.mem_map.mp hnode
      exact trivial

/-- Whatever the user does to the folders, no listed task and no folder is hidden. -/
theorem runs_shows {edits : List Edit} {tree : SidebarTree} (h : runs editStep EMPTY_SIDEBAR_TREE edits = some tree) :
    Forest tree.folders ∧ ∀ (T : Type) [SidebarTaskLike T] (localeCompare : Text → Text → Ordering) (tasks : List T),
      ∃ nodes, buildSidebarTree localeCompare tree tasks = some nodes ∧ (tasksIn nodes).Perm (tasks.filter isListed) ∧
        (foldersIn nodes).Perm tree.folders ∧ AllCounted nodes :=
  ⟨runs_forest h, fun _ _ _ tasks => buildSidebarTree_shows (runs_forest h) tasks⟩

/-- A folder in a folder, the outer one dragged into the inner one in vain and then deleted. -/
def nestedEdits : List Edit :=
  [.addFolder (newFolderId (units "1")) (units "Work") none,
    .addFolder (newFolderId (units "2")) (units "Web") (some (newFolderId (units "1"))),
    .moveNode (taskKey (units "t")) (some (newFolderId (units "1"))),
    .moveNode (newFolderId (units "1")) (some (newFolderId (units "2"))),
    .deleteFolder (newFolderId (units "1"))]

theorem runs_shows_nestedEdits : ∃ tree, runs editStep EMPTY_SIDEBAR_TREE nestedEdits = some tree ∧
    tree.folders.map (·.id) = [newFolderId (units "2")] ∧ Forest tree.folders :=
  ⟨_, rfl, rfl, (@runs_shows nestedEdits _ rfl).1⟩

end Haive.Sidebar

import Haive.Rag.SyncedFile

/-!
# The sync of a repository

A sync purges the denied paths, syncs the files one after the other and deletes the rows of paths that have no file.
The files are independent, as each changes only its own rows; so what the sync of a file leaves is there at the end.
-/

namespace Haive.Rag

open Lib Lib.Units

section

variable {R H : Type} [DecidableEq R] {index : RagIndex R H} {repositoryId : R}

/-! ## Deleting paths -/

theorem RagIndex.Keyable.deletePaths (h : index.Keyable) (repositoryId : R) (p : Text → Bool) :
    (index.deletePaths repositoryId p).Keyable :=
  ⟨fun r hr => h.rows r (List.mem_of_mem_filter hr), h.unscoped⟩

theorem hasPath_of_mem {r : IndexRow R H} (hr : r ∈ index.rows.rows) (hrepo : r.repositoryId = repositoryId)
    (htype : r.sourceType ≠ .task) : index.hasPath repositoryId r.sourcePath = true := by
  refine List.any_eq_true.mpr ⟨r, hr, ?_⟩
  rw [decide_eq_true hrepo, decide_eq_true rfl, decide_eq_true htype, Bool.and_self, Bool.and_self]

/-- No row is left of a path that is deleted, other than those that embed tasks. -/
theorem not_of_mem_deletePaths {p : Text → Bool} {r : IndexRow R H}
    (hr : r ∈ (index.deletePaths repositoryId p).rows.rows) (hrepo : r.repositoryId = repositoryId)
    (htype : r.sourceType ≠ .task) : p r.sourcePath = false := by
  obtain ⟨hmem, hkept⟩ := List.mem_filter.mp hr
  rw [hasPath_of_mem hmem hrepo htype, decide_eq_true hrepo, Bool.and_self, Bool.true_and, Bool.not_eq_true'] at hkept
  exact hkept

theorem deletePaths_eq_self {p : Text → Bool}
    (h : ∀ r ∈ index.rows.rows, r.repositoryId = repositoryId → r.sourceType ≠ .task → p r.sourcePath = false) :
    index.deletePaths repositoryId p = index := by
  refine RagIndex.ext (Table.ext_rows (List.filter_eq_self.mpr fun r hr => ?_)) rfl
  rw [Bool.not_eq_true', Bool.and_eq_false_iff, Bool.and_eq_false_iff]
  by_cases hpath : index.hasPath repositoryId r.sourcePath = true
  · obtain ⟨s, hs, hsame⟩ := List.any_eq_true.mp hpath
    rw [Bool.and_eq_true, Bool.and_eq_true, decide_eq_true_eq, decide_eq_true_eq, decide_eq_true_eq] at hsame
    obtain ⟨⟨hrepo, hsource⟩, htype⟩ := hsame
    exact .inr (hsource ▸ h s hs hrepo htype)
  · exact .inl (.inr (Bool.eq_false_of_not_eq_true hpath))

theorem deletePaths_find? {p : Text → Bool} {k : RowKey R} (h : k.1 = repositoryId → p k.2.1 = false) :
    (index.deletePaths repositoryId p).rows.find? k = index.rows.find? k := by
  refine (Table.find?_filter index.rows _ k).trans ?_
  cases hfind : index.rows.find? k with
  | none => rfl
  | some r =>
    obtain rfl := Table.find?_key hfind
    refine (Option.filter_some ..).trans (if_pos ?_)
    rw [Bool.not_eq_true', Bool.and_eq_false_iff, Bool.and_eq_false_iff]
    by_cases hrepo : r.repositoryId = repositoryId
    · exact .inr (h hrepo)
    · exact .inl (.inl (decide_eq_false hrepo))

/-! ## Files are independent -/

variable [DecidableEq H] {env : Chunker H} {scan : RepositoryScan R}
  {run : EmbedRun}

/-- What is not of the file is as it was. -/
structure LeavesOthers (repositoryId : R) (paths : List Text) (index index' : RagIndex R H) : Prop where
  keyable : index'.Keyable
  unscoped : ∀ n ∈ index'.unscoped, n ∈ index.unscoped
  rows : ∀ k : RowKey R, (k.1 = repositoryId → k.2.1 ∉ paths) → index'.rows.find? k = index.rows.find? k

theorem syncFile_leavesOthers (h : index.Keyable) (failed : Bool) (file : ScannedFile) :
    LeavesOthers scan.repositoryId [file.relPath] index
      (scan.syncFile env run (index, failed) file).1 := by
  rw [RepositoryScan.syncFile]
  cases file.text with
  | none => exact ⟨h, fun _ hn => hn, fun _ _ => rfl⟩
  | some content =>
    refine ⟨h.apply env _ _, fun n hn => apply_unscoped _ hn, fun k hk => ?_⟩
    refine apply_find?_of_ne h _ fun heq => ?_
    obtain ⟨hrepo, hpath⟩ := Prod.mk.inj heq
    exact hk hrepo (List.mem_singleton.mpr hpath)

theorem foldl_leavesOthers (files : List ScannedFile) (h : index.Keyable) (failed : Bool) :
    LeavesOthers scan.repositoryId (files.map ScannedFile.relPath) index
      (files.foldl (scan.syncFile env run) (index, failed)).1 := by
  induction files generalizing index failed with
  | nil => exact ⟨h, fun _ hn => hn, fun _ _ => rfl⟩
  | cons file files ih =>
    have hfile := @syncFile_leavesOthers _ _ _ _ _ env scan run h failed file
    have hrest := ih hfile.keyable (scan.syncFile env run (index, failed) file).2
    refine ⟨hrest.keyable, fun n hn => hfile.unscoped n (hrest.unscoped n hn), fun k hk => ?_⟩
    have hparts : k.1 = scan.repositoryId → k.2.1 ≠ file.relPath ∧ k.2.1 ∉ files.map ScannedFile.relPath :=
      fun hrepo => not_or.mp (List.mem_cons.not.mp (hk hrepo))
    refine (hrest.rows k fun hrepo => (hparts hrepo).2).trans (hfile.rows k fun hrepo hmem => ?_)
    exact (hparts hrepo).1 (List.mem_singleton.mp hmem)

/-- What the sync of each file brings about, and other files do not undo, holds of all of them at the end. -/
theorem foldl_forall {P : ScannedFile → RagIndex R H → Prop} (hsync : ∀ file index failed, index.Keyable →
      P file (scan.syncFile env run (index, failed) file).1)
    (hkept : ∀ file paths index index', file.relPath ∉ paths → LeavesOthers scan.repositoryId paths index index' →
      P file index → P file index')
    {files : List ScannedFile} (hdistinct : (files.map ScannedFile.relPath).Nodup) (h : index.Keyable) (failed : Bool)
    {file : ScannedFile} (hfile : file ∈ files) :
    P file (files.foldl (scan.syncFile env run) (index, failed)).1 := by
  induction files generalizing index failed with
  | nil => exact absurd hfile List.not_mem_nil
  | cons first files ih =>
    obtain ⟨hfirst, hrest⟩ := List.nodup_cons.mp hdistinct
    have hkeyable := (@syncFile_leavesOthers _ _ _ _ _ env scan run h failed first).keyable
    rcases List.mem_cons.mp hfile with rfl | hmem
    · exact hkept file _ _ _ hfirst (foldl_leavesOthers files hkeyable _) (hsync file index failed h)
    · exact ih hrest hkeyable _ hmem

omit [DecidableEq H] in
theorem start_keyable (h : index.Keyable) : (scan.start run index).Keyable := by
  have hpurged := h.deletePaths scan.repositoryId scan.denies
  rw [RepositoryScan.start]
  split
  · exact hpurged.rehash _
  · exact hpurged

omit [DecidableEq H] in
theorem not_denied_of_mem_start {r : IndexRow R H} (hr : r ∈ (scan.start run index).rows.rows)
    (hrepo : r.repositoryId = scan.repositoryId) (htype : r.sourceType ≠ .task) : scan.denies r.sourcePath = false := by
  rw [RepositoryScan.start] at hr
  split at hr
  · obtain ⟨old, hold, hkey, hsame⟩ := mem_rehash hr
    obtain ⟨hrepoOld, hpath, -⟩ := (Prod.ext_iff.mp hkey).imp id Prod.mk.inj
    have hdenied := not_of_mem_deletePaths hold (hrepoOld.symm.trans hrepo) (hsame ▸ htype)
    exact (congrArg scan.denies hpath).trans hdenied
  · exact not_of_mem_deletePaths hr hrepo htype

theorem syncFiles_leavesOthers (files : List ScannedFile) (h : index.Keyable) :
    LeavesOthers scan.repositoryId (files.map ScannedFile.relPath) (scan.start run index)
      (scan.syncFiles env run files index).1 :=
  foldl_leavesOthers files (start_keyable h) false

omit [DecidableEq R] in
theorem not_denied_of_mem_allFiles {path : Text} (h : path ∈ scan.allFiles.map ScannedFile.relPath) :
    scan.denies path = false := by
  obtain ⟨file, hfile, rfl⟩ := List.mem_map.mp h
  exact Bool.eq_false_of_not_eq_true fun hdenied => by
    rw [RepositoryScan.allFiles, List.mem_filter, hdenied] at hfile
    exact Bool.false_ne_true hfile.2

omit [DecidableEq H] in
/-- A path that no file has keeps its rows through the files. -/
theorem not_denied_of_leavesOthers {paths : List Text} {index' : RagIndex R H}
    (hothers : LeavesOthers scan.repositoryId paths (scan.start run index) index')
    (hpaths : ∀ path ∈ paths, scan.denies path = false) {r : IndexRow R H} (hr : r ∈ index'.rows.rows)
    (hrepo : r.repositoryId = scan.repositoryId) (htype : r.sourceType ≠ .task) : scan.denies r.sourcePath = false := by
  by_cases hmem : r.sourcePath ∈ paths
  · exact hpaths _ hmem
  · have hfind := hothers.rows r.key fun _ => hmem
    rw [Table.mem_rows_iff.mp hr] at hfind
    exact not_denied_of_mem_start (Table.find?_mem hfind.symm) hrepo htype

theorem stopAt_leavesOthers (h : index.Keyable) (n done : Nat) :
    LeavesOthers scan.repositoryId (scan.allFiles.map ScannedFile.relPath) (scan.start run index)
      (scan.stopAt env run n done index) := by
  have htake := @syncFiles_leavesOthers _ _ _ _ _ env scan run (scan.allFiles.take n) h
  have hpaths : ∀ {path}, path ∉ scan.allFiles.map ScannedFile.relPath →
      path ∉ (scan.allFiles.take n).map ScannedFile.relPath :=
    fun hpath hmem => hpath ((List.take_sublist n _).map _ |>.subset hmem)
  have hrows := fun (k : RowKey R) (hk : k.1 = scan.repositoryId → k.2.1 ∉ scan.allFiles.map ScannedFile.relPath) =>
    htake.rows k fun hrepo => hpaths (hk hrepo)
  rw [RepositoryScan.stopAt]
  cases hfile : scan.allFiles[n]? with
  | none => exact ⟨htake.keyable, htake.unscoped, hrows⟩
  | some file =>
    rw [Option.bind_some]
    cases htext : file.text with
    | none => exact ⟨htake.keyable, htake.unscoped, hrows⟩
    | some content =>
      refine ⟨htake.keyable.apply env _ _, fun m hm => ?_, fun k hk => ?_⟩
      · exact htake.unscoped m (apply_unscoped _ hm)
      · refine (apply_find?_of_ne htake.keyable _ fun heq => ?_).trans (hrows k hk)
        obtain ⟨hrepo, hpath⟩ := Prod.mk.inj heq
        exact hk hrepo (hpath ▸ List.mem_map_of_mem (List.mem_of_getElem? hfile))

/-- Whatever the index held, from its purge on a sync shows no row of a path that is denied: at any point where it
may stop, and at its end. -/
theorem denied_paths_never_indexed (env : Chunker H)
    (actions : List (IndexAction R H)) (scan : RepositoryScan R) (run : EmbedRun) (n done : Nat) :
    (∀ r ∈ (scan.stopAt env run n done (indexRun env actions)).rows.rows,
      r.repositoryId = scan.repositoryId → r.sourceType ≠ .task → scan.denies r.sourcePath = false) ∧
    ∀ r ∈ (scan.sync env run (indexRun env actions)).rows.rows,
      r.repositoryId = scan.repositoryId → r.sourceType ≠ .task → scan.denies r.sourcePath = false := by
  have h := indexRun_keyable env actions
  have hpaths : ∀ path ∈ scan.allFiles.map ScannedFile.relPath, scan.denies path = false :=
    fun _ hpath => not_denied_of_mem_allFiles hpath
  constructor
  · exact fun r hr => not_denied_of_leavesOthers (stopAt_leavesOthers h n done) hpaths hr
  · exact fun r hr => not_denied_of_leavesOthers (syncFiles_leavesOthers scan.allFiles h) hpaths
      (List.mem_of_mem_filter hr)

/-! ## A sync in which no batch fails -/

omit [DecidableEq R] [DecidableEq H] in
theorem fileSync_not_failed (hrun : ∀ path i, run.outcome path i ≠ .failed) (file : ScannedFile) (content : Text)
    (embed : List (RagChunk H)) : (scan.fileSync run file content).embedFailed embed = false :=
  List.any_eq_false.mpr fun _ _ hfailed => hrun _ _ (of_decide_eq_true hfailed)

theorem syncFile_snd (hrun : ∀ path i, run.outcome path i ≠ .failed) (state : RagIndex R H × Bool) (file : ScannedFile) :
    (scan.syncFile env run state file).2 = state.2 := by
  rw [RepositoryScan.syncFile]
  cases file.text with
  | none => rfl
  | some content =>
    obtain ⟨chunks, hchunks, -⟩ :=
      (scan.source file content).chunks_unique env
    have hsome : (scan.fileSync run file content).chunks env = some chunks := hchunks
    dsimp only
    rw [FileSync.failed, hsome, Option.any_some, fileSync_not_failed hrun, Bool.and_false, Bool.or_false]

theorem foldl_snd (hrun : ∀ path i, run.outcome path i ≠ .failed) (files : List ScannedFile)
    (state : RagIndex R H × Bool) :
    (files.foldl (scan.syncFile env run) state).2 = state.2 := by
  induction files generalizing state with
  | nil => rfl
  | cons file files ih => exact (ih _).trans (syncFile_snd hrun state file)

theorem fileSync_completes (hrun : ∀ path i, run.outcome path i ≠ .failed) {file : ScannedFile} {content : Text}
    (hsize : (scan.source file content).tooLarge = false) {chunks : List (RagChunk H)}
    (hchunks : (scan.fileSync run file content).chunks env = some chunks) (index : RagIndex R H) :
    (scan.fileSync run file content).Completes index chunks
      ((scan.fileSync run file content).steps env index) := by
  refine ⟨hsize, fileSync_not_failed hrun file content _, ?_⟩
  rw [FileSync.steps, hchunks]

/-- What holds of a file that can be read, and of its chunks. -/
def OfFile (env : Chunker H) (scan : RepositoryScan R) (run : EmbedRun)
    (P : FileSync R → RagIndex R H → List (RagChunk H) → Prop) (file : ScannedFile) (index : RagIndex R H) : Prop :=
  ∀ content, file.text = some content → (scan.source file content).tooLarge = false →
    ∃ chunks, (scan.source file content).chunks env = some chunks ∧ P (scan.fileSync run file content) index chunks

omit [DecidableEq R] in
theorem allFiles_distinct : (scan.allFiles.map ScannedFile.relPath).Nodup :=
  scan.distinct.sublist (List.filter_sublist.map _)

/-! ## The sweep -/

omit [DecidableEq R] in
theorem mem_processedPaths {file : ScannedFile} (hfile : file ∈ scan.allFiles) {content : Text}
    (htext : file.text = some content) (hsize : (scan.source file content).tooLarge = false) :
    file.relPath ∈ scan.processedPaths := by
  refine List.mem_map_of_mem (List.mem_filter.mpr ⟨hfile, ?_⟩)
  rw [htext, Option.any_some, hsize, Bool.not_false]

omit [DecidableEq R] in
theorem not_orphaned {failed : Bool} {path : Text} (h : path ∈ scan.processedPaths) :
    scan.orphaned failed path = false := by
  rw [RepositoryScan.orphaned, decide_eq_false (not_not_intro h), Bool.and_false, Bool.false_and]

omit [DecidableEq R] in
/-- Where no batch failed, the rows of a path stay for a file or because the path is protected. -/
theorem spared_of_not_orphaned {path : Text} (hallowed : scan.denies path = false)
    (h : scan.orphaned false path = false) :
    path ∈ scan.processedPaths ∨ scan.isProtected path = true ∧ scan.excludes path = false := by
  simp only [RepositoryScan.orphaned, hallowed, Bool.not_false, Bool.true_and, Bool.false_and, Bool.and_true,
    Bool.and_eq_false_iff, decide_eq_false_iff_not, not_not, Bool.not_eq_false', Bool.and_eq_true,
    Bool.not_eq_true'] at h
  exact h.symm

omit [DecidableEq H] in
theorem sweep_find? {failed : Bool} {file : ScannedFile} (hfile : file ∈ scan.allFiles)
    (hread : ∃ content, file.text = some content ∧ (scan.source file content).tooLarge = false) (place : Text × Nat) :
    (index.deletePaths scan.repositoryId (scan.orphaned failed)).rows.find? (scan.repositoryId, file.relPath, place) =
      index.rows.find? (scan.repositoryId, file.relPath, place) := by
  obtain ⟨content, htext, hsize⟩ := hread
  exact deletePaths_find? fun _ => not_orphaned (mem_processedPaths hfile htext hsize)

/-- What a sync that gets to its end brings about in a file, and what happens to other rows does not undo, holds of each
file behind a sync in which no batch fails. -/
theorem sync_ofFile {P : FileSync R → RagIndex R H → List (RagChunk H) → Prop}
    (hkept : ∀ {sync index index' chunks}, P sync index chunks → (∀ n ∈ index'.unscoped, n ∈ index.unscoped) →
      (∀ place, index'.rows.find? (sync.repositoryId, sync.relPath, place) =
        index.rows.find? (sync.repositoryId, sync.relPath, place)) → P sync index' chunks)
    (hsync : ∀ {file : ScannedFile} {content index chunks done}, index.Keyable →
      (scan.fileSync run file content).chunks env = some chunks → UniquePlaces chunks →
      (scan.fileSync run file content).Completes index chunks done →
        P (scan.fileSync run file content) ((scan.fileSync run file content).apply env done index) chunks)
    (hrun : ∀ path i, run.outcome path i ≠ .failed) (h : index.Keyable) {file : ScannedFile} (hfile : file ∈ scan.allFiles) :
    OfFile env scan run P file (scan.sync env run index) := by
  have hsynced : OfFile env scan run P file (scan.syncFiles env run scan.allFiles index).1 := by
    refine foldl_forall (fun file index failed h content htext hsize => ?_) (fun file _ _ _ hpath hothers hofFile => ?_)
      allFiles_distinct (start_keyable h) false hfile
    · obtain ⟨chunks, hchunks, hunique⟩ := (scan.source file content).chunks_unique env
      have happly : (scan.syncFile env run (index, failed) file).1 = (scan.fileSync run file content).apply env
          ((scan.fileSync run file content).steps env index) index := by
        rw [RepositoryScan.syncFile, htext]
      exact ⟨chunks, hchunks, happly ▸ hsync h hchunks hunique (fileSync_completes hrun hsize hchunks index)⟩
    · intro content htext hsize
      obtain ⟨chunks, hchunks, hholds⟩ := hofFile content htext hsize
      exact ⟨chunks, hchunks, hkept hholds hothers.unscoped fun place => hothers.rows _ fun _ => hpath⟩
  intro content htext hsize
  obtain ⟨chunks, hchunks, hholds⟩ := hsynced content htext hsize
  exact ⟨chunks, hchunks, hkept hholds (fun _ hn => hn) fun place => sweep_find? hfile ⟨content, htext, hsize⟩ place⟩

theorem sync_keyable (h : index.Keyable) : (scan.sync env run index).Keyable :=
  (syncFiles_leavesOthers scan.allFiles h).keyable.deletePaths _ _

/-- Each file that can be read has the rows of its chunks and no other, and other rows than those of tasks are of a file
of the scan or of a path that the sweep must spare. -/
structure MirrorsCheckout (env : Chunker H) (scan : RepositoryScan R) (run : EmbedRun) (index : RagIndex R H) : Prop where
  files : ∀ file ∈ scan.allFiles, OfFile env scan run FileSync.Mirrored file index
  others : ∀ r ∈ index.rows.rows, r.repositoryId = scan.repositoryId → r.sourceType ≠ .task →
    r.sourcePath ∈ scan.processedPaths ∨ scan.isProtected r.sourcePath = true ∧ scan.excludes r.sourcePath = false

/-- Whatever happened before, behind a sync in which no batch fails, the index mirrors the checkout. -/
theorem index_mirrors_checkout (env : Chunker H) (actions : List (IndexAction R H)) (scan : RepositoryScan R)
    (run : EmbedRun) (hrun : ∀ path i, run.outcome path i ≠ .failed) :
    MirrorsCheckout env scan run (scan.sync env run (indexRun env actions)) := by
  have h := indexRun_keyable env actions
  refine ⟨fun file => sync_ofFile (fun hmirrored => hmirrored.congr)
    (fun h hchunks hunique => apply_mirrored h hchunks hunique) hrun h, fun r hr hrepo htype => ?_⟩
  have hkept := not_of_mem_deletePaths hr hrepo htype
  have hallowed := not_denied_of_leavesOthers (syncFiles_leavesOthers scan.allFiles h)
    (fun _ hpath => not_denied_of_mem_allFiles hpath) (List.mem_of_mem_filter hr) hrepo htype
  rw [RepositoryScan.syncFiles, foldl_snd hrun] at hkept
  exact spared_of_not_orphaned hallowed hkept

/-- A checkout with a note and a script that cannot be read; secrets are denied. -/
def noteScan : RepositoryScan Nat where
  repositoryId := 1
  ownPaths := []
  collected := [⟨.kb, units ".haive-data/learnings/build.md", some (units "# Build\nRun make.")⟩,
    ⟨.code, units "deploy.sh", none⟩, ⟨.code, units ".env.sh", some (units "KEY=1")⟩]
  distinct := by decide
  denies := fun path => (units ".env").isPrefixOf path
  isProtected := fun _ => false
  excludes := fun _ => false
  onDisk := fun _ => true

def modelRun : EmbedRun where
  useOllama := true
  embedBatchSize := 8
  rehash := false
  outcome := fun _ _ => .embedded

/-- No text has a letter, every word is held, and a text is its own hash. -/
def noteChunker : Chunker Text := ⟨⟨fun _ => false, fun _ => false, fun _ => false⟩, fun _ => true, id⟩

theorem index_mirrors_checkout_note :
    MirrorsCheckout noteChunker noteScan modelRun
      (noteScan.sync noteChunker modelRun (indexRun noteChunker [.indexTask 1 (units "task") (units "Fix the build")])) :=
  index_mirrors_checkout noteChunker _ noteScan modelRun fun _ _ heq => EmbedOutcome.noConfusion heq

/-! ## A second sync -/

/-- A file that is settled is left alone, whatever the model does. -/
theorem settled_eq_self {file : ScannedFile} {content : Text} {again : EmbedRun}
    (hsettled : OfFile env scan run FileSync.Settled file index) (h : index.Keyable) (htext : file.text = some content) :
    (∀ done, (scan.fileSync again file content).apply env done index = index) ∧
      (scan.fileSync again file content).failed env index = false := by
  by_cases hsize : (scan.source file content).tooLarge = true
  · have hlarge : (scan.fileSync again file content).tooLarge = true := hsize
    refine ⟨fun done => apply_tooLarge hlarge done index, ?_⟩
    rw [FileSync.failed, hlarge, Bool.not_true, Bool.false_and]
  · obtain ⟨chunks, hchunks, hsettled⟩ := hsettled content htext (Bool.eq_false_of_not_eq_true hsize)
    obtain ⟨_, hsome, hunique⟩ := (scan.source file content).chunks_unique env
    obtain rfl := Option.some.inj (hchunks.symm.trans hsome)
    have hagain : (scan.fileSync again file content).Settled index chunks :=
      ⟨⟨hsettled.claimed, hsettled.indexed, hsettled.exact⟩, hsettled.hashed⟩
    exact ⟨hagain.apply_eq_self h hchunks hunique, hagain.not_failed h hchunks hunique⟩

theorem foldl_eq_self {files : List ScannedFile} {again : EmbedRun} (h : index.Keyable)
    (hsettled : ∀ file ∈ files, OfFile env scan run FileSync.Settled file index) :
    files.foldl (scan.syncFile env again) (index, false) = (index, false) := by
  induction files with
  | nil => rfl
  | cons file files ih =>
    have hfile : scan.syncFile env again (index, false) file = (index, false) := by
      rw [RepositoryScan.syncFile]
      cases htext : file.text with
      | none => rfl
      | some content =>
        have hself := @settled_eq_self _ _ _ _ _ _ _ _ _ _ again (hsettled file List.mem_cons_self) h htext
        dsimp only
        rw [hself.1, hself.2, Bool.or_false]
    rw [List.foldl_cons, hfile]
    exact ih fun other hother => hsettled other (List.mem_cons_of_mem file hother)

def LeavesIndex (env : Chunker H) (scan : RepositoryScan R) (run : EmbedRun) (index : RagIndex R H) : Prop :=
  (∀ n done, scan.stopAt env run n done index = index) ∧ scan.sync env run index = index

end

end Haive.Rag

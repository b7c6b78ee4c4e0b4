import Haive.Lib.TableWrites
import Haive.Rag.FileChunks

/-!
# The index of chunks

The rows of the RAG table and what writes them: the sync of a file (`_rag-index.ts`), which adopts rows without a
repository, writes the chunks that are new and deletes the keys that the file no longer has; the population of
onboarding (`10-rag-populate.ts`); the embedding of a task. A run may stop between any two statements.
-/

namespace Haive.Rag

open Lib Lib.Units

/-! ## Rows -/

/-- `RagSourceType`, and that of a row which embeds a task. -/
inductive SourceType
  | kb
  | code
  | learning
  | runbook
  | task
  deriving DecidableEq

def LEARNINGS_DIR : Text := units ".haive-data/learnings"
def INVESTIGATIONS_DIR : Text := units ".haive-data/knowledge_base/investigations"

def classifyKbSourceType (relPath : Text) : SourceType :=
  if (INVESTIGATIONS_DIR ++ units "/").isPrefixOf relPath then .runbook
  else if (LEARNINGS_DIR ++ units "/").isPrefixOf relPath then .learning
  else .kb

/-- A row; `chunkHash` is `none` for a hash that is `NULL`. -/
structure IndexRow (R H : Type) where
  repositoryId : R
  sourceType : SourceType
  sourcePath : Text
  sectionId : Text
  chunkIndex : Nat
  chunkHash : Option H
  content : Text

/-- The columns of the unique index. -/
abbrev RowKey (R : Type) := R × Text × Text × Nat

def IndexRow.key {R H : Type} (r : IndexRow R H) : RowKey R := (r.repositoryId, r.sourcePath, r.sectionId, r.chunkIndex)

def IndexRow.inRepository {R H : Type} (repositoryId : R) (n : IndexRow Unit H) : IndexRow R H := { n with repositoryId }

/-- The rows of repositories, which the unique index keeps apart, and those without one, in the order of `ctid`. -/
@[ext]
structure RagIndex (R H : Type) where
  rows : Table (IndexRow R H) IndexRow.key := ∅
  unscoped : List (IndexRow Unit H) := []

section

variable {R H : Type} [DecidableEq R] [DecidableEq H]

/-! ## Adopting rows without a repository -/

/-- The first `DELETE` of the claim: of two rows of the path with one key, the one with the greater `ctid`. -/
def collapseUnscoped (relPath : Text) : List (IndexRow Unit H) → List (IndexRow Unit H)
  | [] => []
  | b :: rest => b :: (collapseUnscoped relPath rest).filter fun a => ! (a.sourcePath = relPath && a.key = b.key)

/-- The transaction that claims the rows of a file for a repository. -/
def adoptUnscoped (index : RagIndex R H) (repositoryId : R) (relPath : Text) : RagIndex R H :=
  let collapsed := collapseUnscoped relPath index.unscoped
  let kept := collapsed.filter fun n =>
    ! (n.sourcePath = relPath && (n.inRepository repositoryId).key ∈ index.rows.keys)
  { rows := ((kept.filter fun n => n.sourcePath = relPath).map (IndexRow.inRepository repositoryId)).foldl Table.put
      index.rows
    unscoped := kept.filter fun n => n.sourcePath ≠ relPath }

/-! ## Updates of many rows -/

/-- An update of the hashes. -/
def RagIndex.rehash (index : RagIndex R H) (hash : IndexRow R H → Option H) : RagIndex R H :=
  { index with rows := (index.rows.rows.map fun r => { r with chunkHash := hash r }).foldl Table.put index.rows }

def RagIndex.hasPath (index : RagIndex R H) (repositoryId : R) (path : Text) : Bool :=
  index.rows.rows.any fun r => r.repositoryId = repositoryId && r.sourcePath = path && r.sourceType ≠ .task

/-- Reads the distinct paths, then deletes all rows of each that `p` selects. -/
def RagIndex.deletePaths (index : RagIndex R H) (repositoryId : R) (p : Text → Bool) : RagIndex R H :=
  { index with
    rows := index.rows.filter fun r =>
      ! (r.repositoryId = repositoryId && index.hasPath repositoryId r.sourcePath && p r.sourcePath) }

/-! ## The sync of a file -/

inductive EmbedOutcome
  | failed
  | embedded
  | hashed
  deriving DecidableEq

/-- The type that a sync gives to the rows of the file. -/
def SourceFile.sourceType (file : SourceFile) : SourceType :=
  if file.kind = .code then .code else classifyKbSourceType file.relPath

/-- A file that a sync reads, with what happens to it: `outcome` is that of the nth batch. -/
structure FileSync (R : Type) extends SourceFile where
  repositoryId : R
  useOllama : Bool
  embedBatchSize : Nat
  outcome : Nat → EmbedOutcome

def existingMap (rows : Table (IndexRow R H) IndexRow.key) (repositoryId : R) (relPath : Text) :
    Table (Text × Option H) Prod.fst :=
  .ofList ((rows.rows.filter fun r => r.repositoryId = repositoryId && r.sourcePath = relPath).map fun r =>
    (chunkKey r.sectionId r.chunkIndex, r.chunkHash))

def toEmbed (existing : Table (Text × Option H) Prod.fst) (chunks : List (RagChunk H)) : List (RagChunk H) :=
  chunks.filter fun chunk =>
    (existing.find? (chunkKey chunk.sectionId chunk.chunkIndex)).map Prod.snd ≠ some (some chunk.chunkHash)

def FileSync.embeds (sync : FileSync R) (rows : Table (IndexRow R H) IndexRow.key) (chunks : List (RagChunk H)) :
    List (RagChunk H) := toEmbed (existingMap rows sync.repositoryId sync.relPath) chunks

abbrev FileSync.adopted (sync : FileSync R) (index : RagIndex R H) : RagIndex R H :=
  adoptUnscoped index sync.repositoryId sync.relPath

/-- The row of a chunk; a vector that stands for a missing model is stored without the hash. -/
def FileSync.row (sync : FileSync R) (chunk : RagChunk H) (outcome : EmbedOutcome) : IndexRow R H where
  repositoryId := sync.repositoryId
  sourceType := sync.sourceType
  sourcePath := sync.relPath
  sectionId := chunk.sectionId
  chunkIndex := chunk.chunkIndex
  chunkHash := if outcome = .hashed && sync.useOllama then none else some chunk.chunkHash
  content := chunk.content

/-- The outcome for the ith chunk that is embedded. -/
def FileSync.outcomeOf (sync : FileSync R) (i : Nat) : EmbedOutcome := sync.outcome (i / sync.embedBatchSize)

/-- The upserts of the batches that were embedded. -/
def FileSync.upserts (sync : FileSync R) (embed : List (RagChunk H)) : List (IndexRow R H) :=
  (embed.zipIdx.filter fun chunk => sync.outcomeOf chunk.2 ≠ .failed).map fun chunk =>
    sync.row chunk.1 (sync.outcomeOf chunk.2)

/-- `fileEmbedFailed`. -/
def FileSync.embedFailed (sync : FileSync R) (embed : List (RagChunk H)) : Bool :=
  (List.range embed.length).any fun i => sync.outcomeOf i = .failed

attribute [local instance] lawfulBEq_units in
/-- The keys that are deleted: the stored ones that were not seen, each split again. -/
def FileSync.stale (sync : FileSync R) (existing : Table (Text × Option H) Prod.fst) (chunks : List (RagChunk H)) :
    List (RowKey R) :=
  let seenKeys := chunks.map fun chunk => chunkKey chunk.sectionId chunk.chunkIndex
  (existing.keys.filter fun key => key ∉ seenKeys).filterMap fun key =>
    (splitKey key).2.bind fun chunkIdx => chunkIdx.toNat?.map fun chunkIdx =>
      (sync.repositoryId, sync.relPath, (splitKey key).1, chunkIdx)

/-- The statements for a file, in order, once its rows are adopted. -/
def FileSync.statements (sync : FileSync R) (rows : Table (IndexRow R H) IndexRow.key) (chunks : List (RagChunk H)) :
    List (Lib.Write (IndexRow R H) (RowKey R)) :=
  (sync.upserts (sync.embeds rows chunks)).map .put ++
    if sync.embedFailed (sync.embeds rows chunks) then []
    else (sync.stale (existingMap rows sync.repositoryId sync.relPath) chunks).map .del

/-! ## Runs -/

/-- What happens to the index. -/
inductive IndexAction (R H : Type)
  /-- A sync that gets as far as its first `done` statements behind the adoption. -/
  | sync (sync : FileSync R) (done : Nat)
  /-- Onboarding inserts the ith chunk of a file. -/
  | insertChunk (file : SourceFile) (repositoryId : Option R) (upsert hashed : Bool) (i : Nat)
  | indexTask (repositoryId : R) (taskId text : Text)
  /-- An update of hashes. -/
  | rehash (hash : IndexRow R H → Option H)
  /-- A deletion of rows: denied paths, orphans, stale chunks of onboarding, a truncation. -/
  | delete (rows : IndexRow R H → Bool) (unscoped : IndexRow Unit H → Bool)

def TASK_EMBED_SECTION : Text := units "task"

variable (env : Chunker H)

/-- A file that is too large, or whose chunks are a `TypeError`, is left alone. -/
def FileSync.apply (sync : FileSync R) (done : Nat) (index : RagIndex R H) : RagIndex R H :=
  if sync.tooLarge then index
  else
    match sync.chunks env with
    | none => index
    | some chunks =>
      let adopted := sync.adopted index
      { adopted with rows := adopted.rows.writes ((sync.statements adopted.rows chunks).take done) }

/-- `insertChunk`: without `upsert`, a row that the unique index refuses is an error. -/
def insertRow (index : RagIndex R H) (repositoryId : Option R) (upsert : Bool) (row : IndexRow Unit H) : RagIndex R H :=
  match repositoryId with
  | none => { index with unscoped := index.unscoped ++ [row] }
  | some repositoryId =>
    let row := row.inRepository repositoryId
    if ! upsert && row.key ∈ index.rows.keys then index else { index with rows := index.rows.put row }

def SourceFile.insert (file : SourceFile) (repositoryId : Option R) (upsert hashed : Bool) (i : Nat)
    (index : RagIndex R H) : RagIndex R H :=
  match (file.chunks env).bind (·[i]?) with
  | none => index
  | some chunk =>
    insertRow index repositoryId upsert
      { repositoryId := ()
        sourceType := if file.kind = .code then .code else .kb
        sourcePath := file.relPath
        sectionId := chunk.sectionId
        chunkIndex := chunk.chunkIndex
        chunkHash := if hashed then none else some chunk.chunkHash
        content := chunk.content }

/-- The number of statements for a file. -/
def FileSync.steps (sync : FileSync R) (index : RagIndex R H) : Nat :=
  match sync.chunks env with
  | none => 0
  | some chunks => (sync.statements (sync.adopted index).rows chunks).length

/-- Whether a batch of the file failed. -/
def FileSync.failed (sync : FileSync R) (index : RagIndex R H) : Bool :=
  ! sync.tooLarge &&
    (sync.chunks env).any fun chunks =>
      sync.embedFailed (sync.embeds (sync.adopted index).rows chunks)

def indexStep (index : RagIndex R H) : IndexAction R H → RagIndex R H
  | .sync sync done => sync.apply env done index
  | .insertChunk file repositoryId upsert hashed i =>
    file.insert env repositoryId upsert hashed i index
  | .indexTask repositoryId taskId text =>
    let chunkHash := (index.rows.find? (repositoryId, taskId, TASK_EMBED_SECTION, 0)).bind IndexRow.chunkHash
    { index with rows := index.rows.put ⟨repositoryId, .task, taskId, TASK_EMBED_SECTION, 0, chunkHash, text⟩ }
  | .rehash hash => index.rehash hash
  | .delete rows unscoped =>
    { rows := index.rows.filter fun r => ! rows r, unscoped := index.unscoped.filter fun r => ! unscoped r }

def indexRun (actions : List (IndexAction R H)) : RagIndex R H := actions.foldl (indexStep env) {}

/-! ## The sync of a repository -/

/-- A file of the scan; `text` is `none` where it cannot be read. -/
structure ScannedFile where
  kind : FileKind
  relPath : Text
  text : Option Text

/-- What a sync finds in a checkout, and its rules for paths. -/
structure RepositoryScan (R : Type) where
  repositoryId : R
  ownPaths : List Text
  /-- The knowledge files, then the code files. -/
  collected : List ScannedFile
  /-- Knowledge lies in a directory that the collection of code leaves out. -/
  distinct : (collected.map ScannedFile.relPath).Nodup
  /-- `secretMaskDeniesPath`. -/
  denies : Text → Bool
  /-- `sweepProtectedPaths`. -/
  isProtected : Text → Bool
  /-- `isCollectExcluded`. -/
  excludes : Text → Bool
  onDisk : Text → Bool

/-- What the model does in a sync; `rehash` is whether the hashes are reset first. -/
structure EmbedRun where
  useOllama : Bool
  embedBatchSize : Nat
  rehash : Bool
  outcome : Text → Nat → EmbedOutcome

namespace RepositoryScan

variable (scan : RepositoryScan R) (run : EmbedRun)

def allFiles : List ScannedFile := scan.collected.filter fun file => ! scan.denies file.relPath

def source (file : ScannedFile) (content : Text) : SourceFile := ⟨scan.ownPaths, file.kind, file.relPath, content⟩

def processedPaths : List Text :=
  (scan.allFiles.filter fun file => ! file.text.any fun content => (scan.source file content).tooLarge).map
    ScannedFile.relPath

def fileSync (file : ScannedFile) (content : Text) : FileSync R where
  toSourceFile := scan.source file content
  repositoryId := scan.repositoryId
  useOllama := run.useOllama
  embedBatchSize := run.embedBatchSize
  outcome := run.outcome file.relPath

/-- `purgeDeniedRagRows`, and the reset of the hashes. -/
def start (index : RagIndex R H) : RagIndex R H :=
  let purged := index.deletePaths scan.repositoryId scan.denies
  if run.rehash then
    purged.rehash fun r => if r.repositoryId = scan.repositoryId then none else r.chunkHash
  else purged

/-- One file, with whether a batch failed so far. -/
def syncFile (state : RagIndex R H × Bool) (file : ScannedFile) : RagIndex R H × Bool :=
  match file.text with
  | none => state
  | some content =>
    let sync := scan.fileSync run file content
    (sync.apply env (sync.steps env state.1) state.1,
      state.2 || sync.failed env state.1)

def syncFiles (files : List ScannedFile) (index : RagIndex R H) : RagIndex R H × Bool :=
  files.foldl (scan.syncFile env run) (scan.start run index, false)

attribute [local instance] lawfulBEq_units in
/-- A path without a file whose rows go. -/
def orphaned (failed : Bool) (path : Text) : Bool :=
  ! scan.denies path && ! (scan.isProtected path && ! scan.excludes path) && path ∉ scan.processedPaths &&
    ! (failed && ! scan.excludes path && ! scan.onDisk path)

/-- `syncRepositoryIndex`, up to the row of the task. -/
def sync (index : RagIndex R H) : RagIndex R H :=
  let synced := scan.syncFiles env run scan.allFiles index
  synced.1.deletePaths scan.repositoryId (scan.orphaned synced.2)

/-- The sync of a repository that stops behind `done` statements of its nth file. -/
def stopAt (n done : Nat) (index : RagIndex R H) : RagIndex R H :=
  let synced := (scan.syncFiles env run (scan.allFiles.take n) index).1
  match (scan.allFiles[n]?).bind fun file => file.text.map (scan.fileSync run file) with
  | none => synced
  | some sync => sync.apply env done synced

end RepositoryScan

end

end Haive.Rag

import Haive.Rag.RagIndex

/-!
# Runs of the index

Whatever happened before, every id in the index is without a colon, so that a stored key splits into the columns
it was made of: a sync deletes the keys that the file no longer has and no other, and none of its statements is
about the key of another.
-/

namespace Haive.Rag

open Lib Lib.Units

section

variable {R H : Type} [DecidableEq R]

/-! ## Ids in the index -/

/-- No id in the index has a colon. -/
structure RagIndex.Keyable (index : RagIndex R H) : Prop where
  rows : ∀ r ∈ index.rows.rows, ch ':' ∉ r.sectionId
  unscoped : ∀ r ∈ index.unscoped, ch ':' ∉ r.sectionId

variable {index : RagIndex R H}

theorem collapseUnscoped_sublist (relPath : Text) (rows : List (IndexRow Unit H)) :
    (collapseUnscoped relPath rows).Sublist rows := by
  induction rows with
  | nil => exact List.Sublist.refl _
  | cons b rest ih => exact (List.filter_sublist.trans ih).cons_cons b

theorem RagIndex.Keyable.adopt (h : index.Keyable) (repositoryId : R) (relPath : Text) :
    (adoptUnscoped index repositoryId relPath).Keyable := by
  have hcollapsed : ∀ n ∈ collapseUnscoped relPath index.unscoped, ch ':' ∉ n.sectionId :=
    fun n hn => h.unscoped n ((collapseUnscoped_sublist relPath _).subset hn)
  refine ⟨fun r hr => ?_, fun n hn => hcollapsed n (List.mem_of_mem_filter (List.mem_of_mem_filter hn))⟩
  rcases Table.mem_of_mem_foldl_put hr with hr | hr
  · exact h.rows r hr
  · obtain ⟨n, hn, rfl⟩ := List.mem_map.mp hr
    exact hcollapsed n (List.mem_of_mem_filter (List.mem_of_mem_filter hn))

theorem RagIndex.Keyable.put (h : index.Keyable) {row : IndexRow R H} (hrow : ch ':' ∉ row.sectionId) :
    RagIndex.Keyable { index with rows := index.rows.put row } := by
  refine ⟨fun r hr => ?_, h.unscoped⟩
  rcases Table.mem_rows_put.mp hr with rfl | ⟨hr, -⟩
  · exact hrow
  · exact h.rows r hr

theorem RagIndex.Keyable.insertRow (h : index.Keyable) {row : IndexRow Unit H} (hrow : ch ':' ∉ row.sectionId)
    (repositoryId : Option R) (upsert : Bool) : (insertRow index repositoryId upsert row).Keyable := by
  cases repositoryId with
  | none => exact ⟨h.rows, List.forall_mem_append.mpr ⟨h.unscoped, List.forall_mem_singleton.mpr hrow⟩⟩
  | some repositoryId =>
    rw [Rag.insertRow]
    split
    · exact h
    · exact h.put hrow

theorem mem_rehash {hash : IndexRow R H → Option H} {r : IndexRow R H} (h : r ∈ (index.rehash hash).rows.rows) :
    ∃ old ∈ index.rows.rows, r.key = old.key ∧ r.sourceType = old.sourceType := by
  rcases Table.mem_of_mem_foldl_put h with hold | hnew
  · exact ⟨r, hold, rfl, rfl⟩
  · obtain ⟨old, hold, rfl⟩ := List.mem_map.mp hnew
    exact ⟨old, hold, rfl, rfl⟩

theorem RagIndex.Keyable.rehash (h : index.Keyable) (hash : IndexRow R H → Option H) : (index.rehash hash).Keyable := by
  refine ⟨fun r hr => ?_, h.unscoped⟩
  obtain ⟨old, hold, hkey, -⟩ := mem_rehash hr
  have hid : r.sectionId = old.sectionId := congrArg (fun key => key.2.2.1) hkey
  exact hid ▸ h.rows old hold

/-! ## The stored rows of a file -/

variable {rows : Table (IndexRow R H) IndexRow.key} {sync : FileSync R} {chunks : List (RagChunk H)}

/-- `existingRows`. -/
def fileRows (rows : Table (IndexRow R H) IndexRow.key) (repositoryId : R) (relPath : Text) : List (IndexRow R H) :=
  rows.rows.filter fun r => r.repositoryId = repositoryId && r.sourcePath = relPath

def IndexRow.place (r : IndexRow R H) : Text × Nat := (r.sectionId, r.chunkIndex)

theorem mem_fileRows {repositoryId : R} {relPath : Text} {r : IndexRow R H} :
    r ∈ fileRows rows repositoryId relPath ↔ r ∈ rows.rows ∧ r.repositoryId = repositoryId ∧ r.sourcePath = relPath := by
  rw [fileRows, List.mem_filter, Bool.and_eq_true, decide_eq_true_eq, decide_eq_true_eq]

theorem key_of_mem_fileRows {repositoryId : R} {relPath : Text} {r : IndexRow R H}
    (h : r ∈ fileRows rows repositoryId relPath) : r.key = (repositoryId, relPath, r.place) := by
  obtain ⟨-, rfl, rfl⟩ := mem_fileRows.mp h
  rfl

theorem existingKeys_nodup (hrows : ∀ r ∈ rows.rows, ch ':' ∉ r.sectionId) (repositoryId : R) (relPath : Text) :
    (((fileRows rows repositoryId relPath).map fun r => (chunkKey r.sectionId r.chunkIndex, r.chunkHash)).map
      Prod.fst).Nodup := by
  rw [List.map_map]
  refine List.Nodup.map_on (fun r hr s hs heq => ?_) (List.Nodup.of_map _ (rows.nodup.sublist (List.filter_sublist.map _)))
  have hplace : r.place = s.place :=
    Prod.ext_iff.mpr (chunkKey_inj (hrows r (mem_fileRows.mp hr).1) (hrows s (mem_fileRows.mp hs).1) heq)
  refine Table.key_injective (mem_fileRows.mp hr).1 (mem_fileRows.mp hs).1 ?_
  rw [key_of_mem_fileRows hr, key_of_mem_fileRows hs, hplace]

theorem existingMap_rows (hrows : ∀ r ∈ rows.rows, ch ':' ∉ r.sectionId) (repositoryId : R) (relPath : Text) :
    (existingMap rows repositoryId relPath).rows =
      (fileRows rows repositoryId relPath).map fun r => (chunkKey r.sectionId r.chunkIndex, r.chunkHash) :=
  Table.ofList_rows (existingKeys_nodup hrows repositoryId relPath)

omit [DecidableEq R] in
theorem chunkKey_mem_seen (hchunks : UniquePlaces chunks) {r : IndexRow R H} (hr : ch ':' ∉ r.sectionId) :
    chunkKey r.sectionId r.chunkIndex ∈ chunks.map (fun chunk => chunkKey chunk.sectionId chunk.chunkIndex) ↔
      r.place ∈ chunks.map RagChunk.place := by
  constructor
  · intro hmem
    obtain ⟨chunk, hchunk, heq⟩ := List.mem_map.mp hmem
    refine List.mem_map.mpr ⟨chunk, hchunk, Prod.ext_iff.mpr ?_⟩
    exact chunkKey_inj (hchunks.keyable chunk hchunk) hr heq
  · intro hmem
    obtain ⟨chunk, hchunk, heq⟩ := List.mem_map.mp hmem
    obtain ⟨hid, hindex⟩ := Prod.mk.inj heq
    exact List.mem_map.mpr ⟨chunk, hchunk, by rw [hid, hindex]⟩

/-- The keys that a sync deletes are those of the file's rows that have no chunk: each splits as it was made. -/
theorem stale_eq (hrows : ∀ r ∈ rows.rows, ch ':' ∉ r.sectionId) (hchunks : UniquePlaces chunks) :
    sync.stale (existingMap rows sync.repositoryId sync.relPath) chunks =
      ((fileRows rows sync.repositoryId sync.relPath).filter fun r => r.place ∉ chunks.map RagChunk.place).map
        IndexRow.key := by
  have hkeyable : ∀ r ∈ fileRows rows sync.repositoryId sync.relPath, ch ':' ∉ r.sectionId :=
    fun r hr => hrows r (mem_fileRows.mp hr).1
  rw [FileSync.stale, Table.keys, existingMap_rows hrows, List.map_map, List.filter_map, List.filterMap_map]
  have hfilter : (fileRows rows sync.repositoryId sync.relPath).filter
        ((fun key => decide (key ∉ chunks.map fun chunk => chunkKey chunk.sectionId chunk.chunkIndex)) ∘
          (Prod.fst ∘ fun r => (chunkKey r.sectionId r.chunkIndex, r.chunkHash))) =
      (fileRows rows sync.repositoryId sync.relPath).filter fun r => r.place ∉ chunks.map RagChunk.place :=
    List.filter_congr fun r hr => decide_eq_decide.mpr (not_congr (chunkKey_mem_seen hchunks (hkeyable r hr)))
  rw [hfilter]
  refine (List.filterMap_congr (g := some ∘ IndexRow.key) fun r hr => ?_).trans (congrFun List.filterMap_eq_map _)
  have hr := List.mem_of_mem_filter hr
  dsimp only [Function.comp]
  rw [splitKey_chunkKey (hkeyable r hr), Option.bind_some, key_of_mem_fileRows hr]
  rfl

theorem mem_rows_of_place (hrows : ∀ r ∈ rows.rows, ch ':' ∉ r.sectionId) {repositoryId : R} {relPath id : Text}
    {n : Nat} (hid : ch ':' ∉ id) {hash : Option H} :
    (chunkKey id n, hash) ∈ (existingMap rows repositoryId relPath).rows ↔
      ∃ r, rows.find? (repositoryId, relPath, id, n) = some r ∧ r.chunkHash = hash := by
  rw [existingMap_rows hrows]
  constructor
  · intro hmem
    obtain ⟨r, hr, heq⟩ := List.mem_map.mp hmem
    obtain ⟨hkey, hhash⟩ := Prod.mk.inj heq
    obtain ⟨rfl, rfl⟩ := chunkKey_inj (hrows r (mem_fileRows.mp hr).1) hid hkey
    exact ⟨r, Table.find?_eq_some.mpr ⟨(mem_fileRows.mp hr).1, key_of_mem_fileRows hr⟩, hhash⟩
  · rintro ⟨r, hfind, rfl⟩
    obtain ⟨hr, hkey⟩ := Table.find?_eq_some.mp hfind
    obtain ⟨rfl, rfl, rfl, rfl⟩ := hkey
    exact List.mem_map.mpr ⟨r, mem_fileRows.mpr ⟨hr, rfl, rfl⟩, rfl⟩

theorem existing_hash (hrows : ∀ r ∈ rows.rows, ch ':' ∉ r.sectionId) {repositoryId : R} {relPath id : Text} {n : Nat}
    (hid : ch ':' ∉ id) :
    ((existingMap rows repositoryId relPath).find? (chunkKey id n)).map Prod.snd =
      (rows.find? (repositoryId, relPath, id, n)).map IndexRow.chunkHash := by
  refine Option.ext fun hash => ?_
  rw [Option.map_eq_some_iff, Option.map_eq_some_iff, ← mem_rows_of_place hrows hid]
  constructor
  · rintro ⟨⟨key, _⟩, hfind, rfl⟩
    obtain ⟨hmem, rfl⟩ := Table.find?_eq_some.mp hfind
    exact hmem
  · intro hmem
    exact ⟨_, Table.find?_eq_some.mpr ⟨hmem, rfl⟩, rfl⟩

/-! ## The statements of a sync -/

variable [DecidableEq H]

omit [DecidableEq R] [DecidableEq H] in
theorem upserts_nodup {embed : List (RagChunk H)} (h : (embed.map RagChunk.place).Nodup) :
    ((sync.upserts embed).map IndexRow.key).Nodup := by
  have hplaces : (embed.map fun chunk => (sync.repositoryId, sync.relPath, chunk.place)).Nodup := by
    rw [← Function.comp_def (fun place => (sync.repositoryId, sync.relPath, place)) RagChunk.place, ← List.map_map]
    exact h.map fun p q hpq => (Prod.mk.inj (Prod.mk.inj hpq).2).2
  rw [FileSync.upserts, List.map_map]
  rw [← List.zipIdx_map_fst 0 embed, List.map_map] at hplaces
  exact hplaces.sublist (List.filter_sublist.map _)

omit [DecidableEq R] in
theorem mem_upserts {existing : Table (Text × Option H) Prod.fst} {row : IndexRow R H}
    (h : row ∈ sync.upserts (toEmbed existing chunks)) : ∃ chunk ∈ chunks, ∃ outcome, row = sync.row chunk outcome := by
  obtain ⟨chunk, hchunk, rfl⟩ := List.mem_map.mp h
  exact ⟨chunk.1, List.mem_of_mem_filter (List.fst_mem_of_mem_zipIdx (List.mem_of_mem_filter hchunk)), _, rfl⟩

theorem mem_statements_put {row : IndexRow R H} (h : .put row ∈ sync.statements rows chunks) :
    row ∈ sync.upserts (sync.embeds rows chunks) := by
  rcases List.mem_append.mp h with h | h
  · obtain ⟨row', hrow, heq⟩ := List.mem_map.mp h
    cases heq
    exact hrow
  · split at h
    · cases h
    · obtain ⟨key, -, heq⟩ := List.mem_map.mp h
      cases heq

theorem mem_statements_del (hrows : ∀ r ∈ rows.rows, ch ':' ∉ r.sectionId) (hchunks : UniquePlaces chunks) {k : RowKey R}
    (h : .del k ∈ sync.statements rows chunks) :
    ∃ place, place ∉ chunks.map RagChunk.place ∧ k = (sync.repositoryId, sync.relPath, place) := by
  rcases List.mem_append.mp h with h | h
  · obtain ⟨row, -, heq⟩ := List.mem_map.mp h
    cases heq
  · split at h
    · cases h
    · obtain ⟨key, hkey, heq⟩ := List.mem_map.mp h
      cases heq
      rw [stale_eq hrows hchunks] at hkey
      obtain ⟨r, hr, rfl⟩ := List.mem_map.mp hkey
      obtain ⟨hr, hplace⟩ := List.mem_filter.mp hr
      exact ⟨r.place, of_decide_eq_true hplace, key_of_mem_fileRows hr⟩

theorem statements_nodup (hrows : ∀ r ∈ rows.rows, ch ':' ∉ r.sectionId) (hchunks : UniquePlaces chunks) :
    ((sync.statements rows chunks).map (Lib.Write.at IndexRow.key)).Nodup := by
  have hembed := hchunks.nodup.sublist
    ((List.filter_sublist : (sync.embeds rows chunks).Sublist chunks).map
      RagChunk.place)
  have hstale : (sync.stale (existingMap rows sync.repositoryId sync.relPath) chunks).Nodup := by
    rw [stale_eq hrows hchunks]
    exact rows.nodup.sublist ((List.filter_sublist.trans List.filter_sublist).map _)
  rw [FileSync.statements, List.map_append, List.map_map]
  refine List.nodup_append.mpr ⟨upserts_nodup hembed, ?_, fun k hk k' hk' heq => ?_⟩
  · split
    · exact List.nodup_nil
    · rw [List.map_map]
      exact (List.map_id _).symm ▸ hstale
  · -- what is put has a chunk, what is deleted has none
    subst heq
    obtain ⟨row, hrow, hput⟩ := List.mem_map.mp hk
    obtain ⟨chunk, hchunk, _, rfl⟩ := mem_upserts hrow
    obtain ⟨w, hw, hdel⟩ := List.mem_map.mp hk'
    have hdelmem : w ∈ sync.statements rows chunks := List.mem_append_right _ hw
    split at hw
    · cases hw
    · obtain ⟨key, -, rfl⟩ := List.mem_map.mp hw
      obtain ⟨place, hplace, hkey⟩ := mem_statements_del hrows hchunks hdelmem
      have hsame : key = (sync.repositoryId, sync.relPath, chunk.place) := hdel.trans hput.symm
      rw [hkey] at hsame
      obtain rfl : place = chunk.place := (Prod.mk.inj (Prod.mk.inj hsame).2).2
      exact hplace (List.mem_map_of_mem hchunk)

/-! ## The invariant -/

variable (env : Chunker H)

theorem RagIndex.Keyable.writes (h : index.Keyable) (hchunks : UniquePlaces chunks) (done : Nat) :
    RagIndex.Keyable
      { index with rows := index.rows.writes ((sync.statements index.rows chunks).take done) } := by
  refine ⟨fun r hr => ?_, h.unscoped⟩
  rcases Table.mem_of_mem_writes hr with hput | hr
  · obtain ⟨chunk, hchunk, _, rfl⟩ := mem_upserts (mem_statements_put (List.mem_of_mem_take hput))
    exact hchunks.keyable chunk hchunk
  · exact h.rows r hr

theorem RagIndex.Keyable.apply (h : index.Keyable) (sync : FileSync R) (done : Nat) :
    (sync.apply env done index).Keyable := by
  rw [FileSync.apply]
  split
  · exact h
  · obtain ⟨chunks, hsome, hchunks⟩ := sync.chunks_unique env
    rw [hsome]
    exact (h.adopt sync.repositoryId sync.relPath).writes hchunks done

omit [DecidableEq H] in
theorem RagIndex.Keyable.insert (h : index.Keyable) (file : SourceFile) (repositoryId : Option R) (upsert hashed : Bool)
    (i : Nat) : (file.insert env repositoryId upsert hashed i index).Keyable := by
  obtain ⟨chunks, hsome, hchunks⟩ := file.chunks_unique env
  rw [SourceFile.insert, hsome, Option.bind_some]
  cases hchunk : chunks[i]? with
  | none => exact h
  | some chunk => exact h.insertRow (hchunks.keyable chunk (List.mem_of_getElem? hchunk)) repositoryId upsert

/-- Every action keeps the ids of the index without a colon. -/
theorem indexStep_keyable (h : index.Keyable) (action : IndexAction R H) :
    (indexStep env index action).Keyable := by
  cases action with
  | sync sync done => exact h.apply env sync done
  | insertChunk file repositoryId upsert hashed i =>
    exact h.insert env file repositoryId upsert hashed i
  | indexTask repositoryId taskId text =>
    have hsection : ch ':' ∉ TASK_EMBED_SECTION := by decide
    exact h.put hsection
  | rehash hash => exact h.rehash hash
  | delete rows unscoped =>
    exact ⟨fun r hr => h.rows r (List.mem_of_mem_filter hr), fun r hr => h.unscoped r (List.mem_of_mem_filter hr)⟩

theorem foldl_keyable (actions : List (IndexAction R H)) (h : index.Keyable) :
    (actions.foldl (indexStep env) index).Keyable := by
  induction actions generalizing index with
  | nil => exact h
  | cons action actions ih => exact ih (indexStep_keyable env h action)

theorem indexRun_keyable (actions : List (IndexAction R H)) :
    (indexRun env actions).Keyable :=
  foldl_keyable env actions
    ⟨fun _ hr => absurd hr List.not_mem_nil, fun _ hr => absurd hr List.not_mem_nil⟩

end

end Haive.Rag

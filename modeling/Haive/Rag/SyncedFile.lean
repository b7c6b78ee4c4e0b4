import Haive.Rag.IndexRuns

/-!
# A file in the index

What a sync of a file does to the index, wherever it stops: only the rows of the file change, and a row of the file
is lost only once every chunk has one. A file whose sync came to its end is settled: any other sync of the same text
leaves the index as it is, and so does the sync of another file.
-/

namespace Haive.Rag

open Lib Lib.Units

section

variable {R H : Type} [DecidableEq R] {index : RagIndex R H}

/-! ## Adoption -/

theorem collapseUnscoped_filter (relPath : Text) (rows : List (IndexRow Unit H)) :
    (collapseUnscoped relPath rows).filter (fun n => n.sourcePath ≠ relPath) =
      rows.filter fun n => n.sourcePath ≠ relPath := by
  induction rows with
  | nil => rfl
  | cons b rest ih =>
    have hothers : ((collapseUnscoped relPath rest).filter fun a => ! (a.sourcePath = relPath && a.key = b.key)).filter
          (fun n => n.sourcePath ≠ relPath) =
        (collapseUnscoped relPath rest).filter fun n => n.sourcePath ≠ relPath := by
      rw [List.filter_filter]
      refine List.filter_congr fun n _ => ?_
      by_cases hpath : n.sourcePath = relPath <;> simp [hpath]
    rw [collapseUnscoped, List.filter_cons, List.filter_cons, hothers, ih]

/-- The rows without a repository that are left: those of other paths. -/
theorem adoptUnscoped_unscoped (index : RagIndex R H) (repositoryId : R) (relPath : Text) :
    (adoptUnscoped index repositoryId relPath).unscoped = index.unscoped.filter fun n => n.sourcePath ≠ relPath := by
  rw [← collapseUnscoped_filter, adoptUnscoped]
  refine (List.filter_filter ..).trans (List.filter_congr fun n _ => ?_)
  by_cases hpath : n.sourcePath = relPath <;> simp [hpath]

theorem adoptUnscoped_find?_of_ne {repositoryId : R} {relPath : Text} {k : RowKey R}
    (h : (k.1, k.2.1) ≠ (repositoryId, relPath)) :
    (adoptUnscoped index repositoryId relPath).rows.find? k = index.rows.find? k := by
  refine Table.find?_foldl_put_of_notMem fun hk => h ?_
  obtain ⟨row, hrow, rfl⟩ := List.mem_map.mp hk
  obtain ⟨n, hn, rfl⟩ := List.mem_map.mp hrow
  exact Prod.ext_iff.mpr ⟨rfl, of_decide_eq_true (List.mem_filter.mp hn).2⟩

/-- Where no row of the path is without a repository, the adoption does nothing. -/
theorem adoptUnscoped_eq_self (repositoryId : R) {relPath : Text} (h : ∀ n ∈ index.unscoped, n.sourcePath ≠ relPath) :
    adoptUnscoped index repositoryId relPath = index := by
  have hunscoped := adoptUnscoped_unscoped index repositoryId relPath
  rw [List.filter_eq_self.mpr fun n hn => decide_eq_true (h n hn)] at hunscoped
  have hnone : ((((collapseUnscoped relPath index.unscoped).filter fun n =>
      ! (n.sourcePath = relPath && (n.inRepository repositoryId).key ∈ index.rows.keys)).filter fun n =>
        n.sourcePath = relPath)) = [] := by
    refine List.filter_eq_nil_iff.mpr fun n hn hpath => ?_
    exact h n ((collapseUnscoped_sublist relPath _).subset (List.mem_of_mem_filter hn)) (of_decide_eq_true hpath)
  have hrows : (adoptUnscoped index repositoryId relPath).rows = index.rows := by
    rw [adoptUnscoped, hnone, List.map_nil, List.foldl_nil]
  exact RagIndex.ext hrows hunscoped

/-! ## Statements -/

variable [DecidableEq H] {rows : Table (IndexRow R H) IndexRow.key} {sync : FileSync R} {chunks : List (RagChunk H)}

def FileSync.Indexed (sync : FileSync R) (rows : Table (IndexRow R H) IndexRow.key) (chunk : RagChunk H) : Prop :=
  ∃ r, rows.find? (sync.repositoryId, sync.relPath, chunk.place) = some r ∧
    (r.chunkHash = some chunk.chunkHash ∨ r.chunkHash = none ∧ r.content = chunk.content)

theorem statements_at (hrows : ∀ r ∈ rows.rows, ch ':' ∉ r.sectionId) (hchunks : UniquePlaces chunks) {k : RowKey R}
    (hk : k ∈ (sync.statements rows chunks).map (Lib.Write.at IndexRow.key)) :
    (k.1, k.2.1) = (sync.repositoryId, sync.relPath) := by
  obtain ⟨w, hw, rfl⟩ := List.mem_map.mp hk
  cases w with
  | put row =>
    obtain ⟨chunk, -, _, rfl⟩ := mem_upserts (mem_statements_put hw)
    rfl
  | del key =>
    obtain ⟨place, -, rfl⟩ := mem_statements_del hrows hchunks hw
    rfl

omit [DecidableEq R] [DecidableEq H] in
theorem outcomeOf_ne_failed {embed : List (RagChunk H)} (h : sync.embedFailed embed = false) {i : Nat}
    (hi : i < embed.length) : sync.outcomeOf i ≠ .failed := by
  have hnot := List.any_eq_false.mp h i (List.mem_range.mpr hi)
  exact fun heq => hnot (decide_eq_true heq)

omit [DecidableEq R] [DecidableEq H] in
/-- Where no batch failed, what is embedded is put. -/
theorem mem_upserts_of_mem {embed : List (RagChunk H)} (h : sync.embedFailed embed = false) {chunk : RagChunk H}
    (hchunk : chunk ∈ embed) : ∃ i < embed.length, sync.row chunk (sync.outcomeOf i) ∈ sync.upserts embed := by
  obtain ⟨i, hi, rfl⟩ := List.mem_iff_getElem.mp hchunk
  refine ⟨i, hi, List.mem_map.mpr ⟨(embed[i], i), List.mem_filter.mpr ⟨?_, ?_⟩, rfl⟩⟩
  · exact List.mem_zipIdx_iff_getElem?.mpr (List.getElem?_eq_getElem hi)
  · exact decide_eq_true (outcomeOf_ne_failed h hi)

omit [DecidableEq R] [DecidableEq H] in
theorem row_indexed (chunk : RagChunk H) (outcome : EmbedOutcome) :
    (sync.row chunk outcome).chunkHash = some chunk.chunkHash ∨
      (sync.row chunk outcome).chunkHash = none ∧ (sync.row chunk outcome).content = chunk.content := by
  rw [FileSync.row]
  split
  · exact .inr ⟨rfl, rfl⟩
  · exact .inl rfl

theorem find?_of_notMem_toEmbed (hrows : ∀ r ∈ rows.rows, ch ':' ∉ r.sectionId) (hchunks : UniquePlaces chunks)
    {chunk : RagChunk H} (hchunk : chunk ∈ chunks)
    (h : chunk ∉ sync.embeds rows chunks) :
    ∃ r, rows.find? (sync.repositoryId, sync.relPath, chunk.place) = some r ∧ r.chunkHash = some chunk.chunkHash := by
  rw [FileSync.embeds, toEmbed, List.mem_filter, decide_eq_true_eq, not_and_not_right] at h
  have hstored := h hchunk
  rw [existing_hash hrows (hchunks.keyable chunk hchunk), Option.map_eq_some_iff] at hstored
  exact hstored

/-- Once all that is embedded is put, every chunk has a row, whichever of the rows without a chunk are gone. -/
theorem find?_of_upserts (hrows : ∀ r ∈ rows.rows, ch ':' ∉ r.sectionId) (hchunks : UniquePlaces chunks) {done : Nat}
    (hfailed : sync.embedFailed (sync.embeds rows chunks) = false)
    (hdone : (sync.upserts (sync.embeds rows chunks)).length ≤ done)
    {chunk : RagChunk H} (hchunk : chunk ∈ chunks) :
    ∃ r, (rows.writes ((sync.statements rows chunks).take done)).find? (sync.repositoryId, sync.relPath, chunk.place) =
        some r ∧ (r.chunkHash = some chunk.chunkHash ∨ ∃ i, r = sync.row chunk (sync.outcomeOf i)) := by
  have hnodup := (@statements_nodup _ _ _ _ sync _ _ hrows hchunks).sublist ((List.take_sublist done _).map _)
  by_cases hembed : chunk ∈ sync.embeds rows chunks
  · obtain ⟨i, -, hput⟩ := mem_upserts_of_mem hfailed hembed
    have hmem : .put (sync.row chunk (sync.outcomeOf i)) ∈ (sync.statements rows chunks).take done := by
      rw [FileSync.statements, List.take_append, List.take_of_length_le (by rwa [List.length_map])]
      exact List.mem_append_left _ (List.mem_map_of_mem hput)
    exact ⟨_, Table.find?_writes_put hnodup hmem, .inr ⟨i, rfl⟩⟩
  · obtain ⟨r, hfind, hhash⟩ := find?_of_notMem_toEmbed hrows hchunks hchunk hembed
    refine ⟨r, (Table.find?_writes_of_notMem fun hk => ?_).trans hfind, .inl hhash⟩
    -- its key is neither put, as the places are unique, nor deleted, as it has a chunk
    obtain ⟨w, hw, hat⟩ := List.mem_map.mp hk
    cases w with
    | put row =>
      obtain ⟨written, hwritten, rfl⟩ := List.mem_map.mp (mem_statements_put (List.mem_of_mem_take hw))
      have hmem := List.fst_mem_of_mem_zipIdx (List.mem_of_mem_filter hwritten)
      have hplace : written.1.place = chunk.place := (Prod.mk.inj (Prod.mk.inj hat).2).2
      have hsame := List.inj_on_of_nodup_map hchunks.nodup (List.mem_of_mem_filter hmem) hchunk hplace
      exact hembed (hsame ▸ hmem)
    | del key =>
      obtain ⟨place, hplace, hkey⟩ := mem_statements_del hrows hchunks (List.mem_of_mem_take hw)
      have hsame : place = chunk.place := (Prod.mk.inj (Prod.mk.inj (hkey.symm.trans hat)).2).2
      exact hplace (hsame ▸ List.mem_map_of_mem hchunk)

theorem indexed_of_upserts (hrows : ∀ r ∈ rows.rows, ch ':' ∉ r.sectionId) (hchunks : UniquePlaces chunks) {done : Nat}
    (hfailed : sync.embedFailed (sync.embeds rows chunks) = false)
    (hdone : (sync.upserts (sync.embeds rows chunks)).length ≤ done)
    {chunk : RagChunk H} (hchunk : chunk ∈ chunks) :
    sync.Indexed (rows.writes ((sync.statements rows chunks).take done)) chunk := by
  obtain ⟨r, hfind, hrow⟩ := find?_of_upserts hrows hchunks hfailed hdone hchunk
  refine ⟨r, hfind, ?_⟩
  rcases hrow with hhash | ⟨i, rfl⟩
  · exact .inl hhash
  · exact row_indexed chunk _

/-- A sync deletes only once everything that is embedded is put. -/
theorem upserts_done {done : Nat} {k : RowKey R} (h : .del k ∈ (sync.statements rows chunks).take done) :
    sync.embedFailed (sync.embeds rows chunks) = false ∧
      (sync.upserts (sync.embeds rows chunks)).length ≤ done := by
  rw [FileSync.statements, List.take_append, List.mem_append, List.length_map] at h
  rcases h with hput | hdel
  · obtain ⟨row, -, heq⟩ := List.mem_map.mp (List.mem_of_mem_take hput)
    cases heq
  · constructor
    · rw [← Bool.not_eq_true]
      intro hfailed
      rw [if_pos hfailed, List.take_nil] at hdel
      exact List.not_mem_nil hdel
    · by_contra hshort
      rw [Nat.sub_eq_zero_of_le (Nat.le_of_not_le hshort), List.take_zero] at hdel
      exact List.not_mem_nil hdel

theorem lost_key (hrows : ∀ r ∈ rows.rows, ch ':' ∉ r.sectionId) (hchunks : UniquePlaces chunks) {done : Nat}
    {k : RowKey R} (hk : k ∈ rows.keys) (hlost : k ∉ (rows.writes ((sync.statements rows chunks).take done)).keys) :
    ((k.1, k.2.1) = (sync.repositoryId, sync.relPath) ∧ k.2.2 ∉ chunks.map RagChunk.place) ∧
      ∀ chunk ∈ chunks, sync.Indexed (rows.writes ((sync.statements rows chunks).take done)) chunk := by
  have hnodup := (@statements_nodup _ _ _ _ sync _ _ hrows hchunks).sublist ((List.take_sublist done _).map _)
  rw [Table.mem_keys_writes hnodup, not_or, not_and_not_right] at hlost
  have hdel := hlost.2 hk
  obtain ⟨hfailed, hdone⟩ := upserts_done hdel
  obtain ⟨place, hplace, rfl⟩ := mem_statements_del hrows hchunks (List.mem_of_mem_take hdel)
  exact ⟨⟨rfl, hplace⟩, fun chunk hchunk => indexed_of_upserts hrows hchunks hfailed hdone hchunk⟩

/-! ## The sync of a file -/

variable {env : Chunker H}

theorem apply_eq (hsize : sync.tooLarge = false)
    (hchunks : sync.chunks env = some chunks) (done : Nat) (index : RagIndex R H) :
    sync.apply env done index =
      { sync.adopted index with
        rows := (sync.adopted index).rows.writes
          ((sync.statements (sync.adopted index).rows chunks).take done) } := by
  rw [FileSync.apply, hsize, if_neg Bool.false_ne_true, hchunks]

theorem apply_tooLarge (hsize : sync.tooLarge = true) (done : Nat)
    (index : RagIndex R H) : sync.apply env done index = index := by
  rw [FileSync.apply, if_pos hsize]

/-- A sync leaves the rows of other files and repositories alone. -/
theorem apply_find?_of_ne (h : index.Keyable) (done : Nat) {k : RowKey R}
    (hk : (k.1, k.2.1) ≠ (sync.repositoryId, sync.relPath)) :
    (sync.apply env done index).rows.find? k = index.rows.find? k := by
  obtain ⟨chunks, hchunks, hunique⟩ := sync.chunks_unique env
  by_cases hsize : sync.tooLarge = true
  · rw [apply_tooLarge hsize]
  · rw [apply_eq (Bool.eq_false_of_not_eq_true hsize) hchunks]
    refine (Table.find?_writes_of_notMem fun hmem => hk ?_).trans (adoptUnscoped_find?_of_ne hk)
    obtain ⟨w, hw, hat⟩ := List.mem_map.mp hmem
    exact statements_at (h.adopt _ _).rows hunique (List.mem_map.mpr ⟨w, List.mem_of_mem_take hw, hat⟩)

theorem apply_unscoped (done : Nat) {n : IndexRow Unit H}
    (hn : n ∈ (sync.apply env done index).unscoped) : n ∈ index.unscoped := by
  obtain ⟨chunks, hchunks, -⟩ := sync.chunks_unique env
  by_cases hsize : sync.tooLarge = true
  · rwa [apply_tooLarge hsize] at hn
  · rw [apply_eq (Bool.eq_false_of_not_eq_true hsize) hchunks] at hn
    exact List.mem_of_mem_filter ((adoptUnscoped_unscoped index sync.repositoryId sync.relPath) ▸ hn)

/-! ## A file that is up to date -/

structure FileSync.Mirrored (sync : FileSync R) (index : RagIndex R H) (chunks : List (RagChunk H)) : Prop where
  claimed : ∀ n ∈ index.unscoped, n.sourcePath ≠ sync.relPath
  indexed : ∀ chunk ∈ chunks, sync.Indexed index.rows chunk
  exact : ∀ r ∈ fileRows index.rows sync.repositoryId sync.relPath, r.place ∈ chunks.map RagChunk.place

/-- Nothing is left to do for the file: each chunk has a row with its hash. -/
structure FileSync.Settled (sync : FileSync R) (index : RagIndex R H) (chunks : List (RagChunk H)) : Prop
    extends sync.Mirrored index chunks where
  hashed : ∀ chunk ∈ chunks, ∃ r, index.rows.find? (sync.repositoryId, sync.relPath, chunk.place) = some r ∧
    r.chunkHash = some chunk.chunkHash

/-- The sync got to its end, and no batch failed. -/
structure FileSync.Completes (sync : FileSync R) (index : RagIndex R H) (chunks : List (RagChunk H)) (done : Nat) : Prop
    where
  size : sync.tooLarge = false
  embedded : sync.embedFailed (sync.embeds (sync.adopted index).rows chunks) = false
  done : (sync.statements (sync.adopted index).rows chunks).length ≤ done

theorem FileSync.Completes.upserts_le {done : Nat} (h : sync.Completes index chunks done) :
    (sync.upserts (sync.embeds (sync.adopted index).rows chunks)).length ≤ done := by
  refine le_trans ?_ h.done
  rw [FileSync.statements, List.length_append, List.length_map]
  exact Nat.le_add_right _ _

theorem apply_mirrored (h : index.Keyable) (hchunks : sync.chunks env = some chunks)
    (hunique : UniquePlaces chunks) {done : Nat} (hcompletes : sync.Completes index chunks done) :
    sync.Mirrored (sync.apply env done index) chunks := by
  have hrows := (h.adopt sync.repositoryId sync.relPath).rows
  rw [apply_eq hcompletes.size hchunks]
  refine ⟨fun n hn => ?_, fun chunk hchunk => ?_, fun r hr => ?_⟩
  · rw [adoptUnscoped_unscoped] at hn
    exact of_decide_eq_true (List.mem_filter.mp hn).2
  · exact indexed_of_upserts hrows hunique hcompletes.embedded hcompletes.upserts_le hchunk
  · -- a row of the file that has no chunk was there before, and is deleted
    obtain ⟨hmem, hrepo, hpath⟩ := mem_fileRows.mp hr
    rw [List.take_of_length_le hcompletes.done] at hmem
    rcases Table.mem_of_mem_writes hmem with hput | hold
    · obtain ⟨chunk, hchunk, _, rfl⟩ := mem_upserts (mem_statements_put hput)
      exact List.mem_map_of_mem hchunk
    · by_contra hplace
      have hdel : .del r.key ∈ sync.statements (sync.adopted index).rows chunks := by
        rw [FileSync.statements, hcompletes.embedded, if_neg Bool.false_ne_true, stale_eq hrows hunique]
        refine List.mem_append_right _ (List.mem_map_of_mem (List.mem_map_of_mem (List.mem_filter.mpr ⟨?_, ?_⟩)))
        · exact mem_fileRows.mpr ⟨hold, hrepo, hpath⟩
        · exact decide_eq_true hplace
      have hgone := Table.find?_writes_del (t := (sync.adopted index).rows)
        (statements_nodup hrows hunique) hdel
      exact Table.find?_eq_none.mp hgone (Table.mem_keys_of_mem hmem)

theorem apply_settled (h : index.Keyable) (hchunks : sync.chunks env = some chunks)
    (hunique : UniquePlaces chunks) {done : Nat} (hcompletes : sync.Completes index chunks done)
    (hhashed : ∀ i, sync.outcome i = .hashed → sync.useOllama = false) :
    sync.Settled (sync.apply env done index) chunks := by
  refine ⟨apply_mirrored h hchunks hunique hcompletes, fun chunk hchunk => ?_⟩
  rw [apply_eq hcompletes.size hchunks]
  obtain ⟨r, hfind, hrow⟩ :=
    find?_of_upserts (h.adopt sync.repositoryId sync.relPath).rows hunique hcompletes.embedded
      hcompletes.upserts_le hchunk
  refine ⟨r, hfind, ?_⟩
  rcases hrow with hhash | ⟨i, rfl⟩
  · exact hhash
  · rw [FileSync.row, if_neg]
    rw [Bool.and_eq_true, decide_eq_true_eq, not_and, Bool.not_eq_true]
    exact hhashed _

omit [DecidableEq H] in
/-- What happens to other rows leaves the file as it was. -/
theorem FileSync.Mirrored.congr (h : sync.Mirrored index chunks) {index' : RagIndex R H}
    (hunscoped : ∀ n ∈ index'.unscoped, n ∈ index.unscoped)
    (hrows : ∀ place, index'.rows.find? (sync.repositoryId, sync.relPath, place) =
      index.rows.find? (sync.repositoryId, sync.relPath, place)) : sync.Mirrored index' chunks := by
  refine ⟨fun n hn => h.claimed n (hunscoped n hn), fun chunk hchunk => ?_, fun r hr => ?_⟩
  · rw [FileSync.Indexed, hrows]
    exact h.indexed chunk hchunk
  · refine h.exact r (mem_fileRows.mpr ⟨?_, (mem_fileRows.mp hr).2⟩)
    have hfind := hrows r.place
    rw [← key_of_mem_fileRows hr, Table.mem_rows_iff.mp (mem_fileRows.mp hr).1] at hfind
    exact Table.find?_mem hfind.symm

omit [DecidableEq H] in
theorem FileSync.Settled.congr (h : sync.Settled index chunks) {index' : RagIndex R H}
    (hunscoped : ∀ n ∈ index'.unscoped, n ∈ index.unscoped)
    (hrows : ∀ place, index'.rows.find? (sync.repositoryId, sync.relPath, place) =
      index.rows.find? (sync.repositoryId, sync.relPath, place)) : sync.Settled index' chunks :=
  ⟨h.toMirrored.congr hunscoped hrows, fun chunk hchunk => (hrows chunk.place).symm ▸ h.hashed chunk hchunk⟩

theorem FileSync.Settled.toEmbed_eq_nil (hsettled : sync.Settled index chunks) (h : index.Keyable)
    (hunique : UniquePlaces chunks) : sync.embeds index.rows chunks = [] := by
  refine List.filter_eq_nil_iff.mpr fun chunk hchunk => ?_
  obtain ⟨r, hfind, hhash⟩ := hsettled.hashed chunk hchunk
  rw [RagChunk.place] at hfind
  rw [existing_hash h.rows (hunique.keyable chunk hchunk), hfind, Option.map_some, hhash, decide_eq_true_eq]
  exact not_not_intro rfl

omit [DecidableEq H] in
theorem FileSync.Settled.stale_eq_nil (hsettled : sync.Settled index chunks) (h : index.Keyable)
    (hunique : UniquePlaces chunks) : sync.stale (existingMap index.rows sync.repositoryId sync.relPath) chunks = [] := by
  rw [stale_eq h.rows hunique, List.map_eq_nil_iff, List.filter_eq_nil_iff]
  exact fun r hr hplace => of_decide_eq_true hplace (hsettled.exact r hr)

omit [DecidableEq H] in
theorem FileSync.Settled.adopted_eq (hsettled : sync.Settled index chunks) : sync.adopted index = index :=
  adoptUnscoped_eq_self sync.repositoryId hsettled.claimed

/-- A file that is settled is left alone, whatever the model would answer and wherever the sync stops. -/
theorem FileSync.Settled.apply_eq_self (hsettled : sync.Settled index chunks) (h : index.Keyable)
    (hchunks : sync.chunks env = some chunks) (hunique : UniquePlaces chunks) (done : Nat) :
    sync.apply env done index = index := by
  by_cases hsize : sync.tooLarge = true
  · exact apply_tooLarge hsize done index
  have hstatements : sync.statements index.rows chunks = [] := by
    rw [FileSync.statements, hsettled.toEmbed_eq_nil h hunique, hsettled.stale_eq_nil h hunique, FileSync.upserts,
      List.zipIdx_nil, List.filter_nil, List.map_nil, List.map_nil, List.nil_append, List.map_nil, ite_self]
  rw [apply_eq (Bool.eq_false_of_not_eq_true hsize) hchunks, hsettled.adopted_eq, hstatements, List.take_nil]
  rfl

theorem FileSync.Settled.not_failed (hsettled : sync.Settled index chunks) (h : index.Keyable)
    (hchunks : sync.chunks env = some chunks) (hunique : UniquePlaces chunks) :
    sync.failed env index = false := by
  rw [FileSync.failed, hchunks, Option.any_some, hsettled.adopted_eq,
    hsettled.toEmbed_eq_nil h hunique, FileSync.embedFailed, List.length_nil, List.range_zero, List.any_nil,
    Bool.and_false]

/-! ## Runs -/

/-- Whatever happened before, a sync of a file, wherever it stops, changes no row of another file or repository, and
of the rows of the file it loses only keys that have no chunk, once every chunk has a row. -/
theorem lost_key_superseded (env : Chunker H) (actions : List (IndexAction R H)) (sync : FileSync R) (done : Nat) :
    (∀ k : RowKey R, (k.1, k.2.1) ≠ (sync.repositoryId, sync.relPath) →
      (sync.apply env done (indexRun env actions)).rows.find? k =
        (indexRun env actions).rows.find? k) ∧
    ∀ k ∈ (indexRun env actions).rows.keys,
      k ∉ (sync.apply env done (indexRun env actions)).rows.keys →
      ∃ chunks, sync.chunks env = some chunks ∧
        (k.1, k.2.1) = (sync.repositoryId, sync.relPath) ∧ k.2.2 ∉ chunks.map RagChunk.place ∧
        ∀ chunk ∈ chunks,
          sync.Indexed
            (sync.apply env done (indexRun env actions)).rows chunk := by
  have hkeyable := indexRun_keyable env actions
  refine ⟨fun k hk => apply_find?_of_ne hkeyable done hk, fun k hk hlost => ?_⟩
  obtain ⟨chunks, hchunks, hunique⟩ := sync.chunks_unique env
  by_cases hsize : sync.tooLarge = true
  · rw [apply_tooLarge hsize] at hlost
    exact absurd hk hlost
  · rw [apply_eq (Bool.eq_false_of_not_eq_true hsize) hchunks] at hlost ⊢
    obtain ⟨⟨hfile, hplace⟩, hindexed⟩ := lost_key (hkeyable.adopt sync.repositoryId sync.relPath).rows hunique
      (Table.mem_keys_foldl_put.mpr (.inl hk)) hlost
    exact ⟨chunks, hchunks, hfile, hplace, hindexed⟩

end

end Haive.Rag

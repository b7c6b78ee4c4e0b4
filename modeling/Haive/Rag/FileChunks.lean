import Haive.Rag.Extract

/-!
# Chunks and keys of a file

What a file adds to the index: its sections, cut into chunks with a context header, up to a budget. A chunk is
known by its section's id and its number; `_rag-index.ts` makes a text of the two and splits it again at the
first colon.
-/

namespace Haive.Rag

open Lib.Units

/-! ## Keys -/

def chunkKey (sectionId : Text) (chunkIndex : Nat) : Text := sectionId ++ ch ':' :: numeral chunkIndex

/-- `parseInt(text, 10)`; `none` is `NaN`. -/
def parseInt (text : Text) : Option Int :=
  let text := text.dropWhile isTrimmed
  let signed := text.head? = some (ch '-') || text.head? = some (ch '+')
  let digits := (if signed then text.tail else text).takeWhile isDigit
  if digits = [] then none
  else some (if text.head? = some (ch '-') then - (digitsValue digits : Int) else digitsValue digits)

/-- A key at its first colon. -/
def splitKey (key : Text) : Text × Option Int :=
  (key.takeWhile (· ≠ ch ':'), parseInt ((key.dropWhile (· ≠ ch ':')).drop 1))

theorem isTrimmed_of_isDigit {u : UInt16} (h : isDigit u = true) : isTrimmed u = false := by
  simp only [isDigit, isTrimmed, Bool.and_eq_true, Bool.or_eq_false_iff, Bool.and_eq_false_iff, decide_eq_true_eq,
    decide_eq_false_iff_not, UInt16.le_iff_toNat_le, ← UInt16.toNat_inj] at h ⊢
  obtain ⟨hlow, hhigh⟩ := h
  change 0x30 ≤ u.toNat at hlow
  change u.toNat ≤ 0x39 at hhigh
  simp only [UInt16.reduceToNat]
  omega

theorem parseInt_numeral (n : Nat) : parseInt (numeral n) = some (n : Int) := by
  obtain ⟨u, rest, hnumeral⟩ := List.exists_cons_of_ne_nil (numeral_ne_nil n)
  have hdigits : ∀ v ∈ numeral n, isDigit v = true := fun v hv => isDigit_of_mem_numeral hv
  have hu : isDigit u = true := hdigits u (hnumeral ▸ List.mem_cons_self)
  have hfront : (numeral n).dropWhile isTrimmed = numeral n := by
    rw [hnumeral, List.dropWhile_cons_of_neg (Bool.eq_false_iff.mp (isTrimmed_of_isDigit hu))]
  have hsign : ∀ c, isDigit (ch c) = false → (numeral n).head? ≠ some (ch c) := by
    intro c hc heq
    rw [hnumeral, List.head?_cons, Option.some.injEq] at heq
    exact Bool.eq_false_iff.mp hc (heq ▸ hu)
  have hminus := hsign '-' (by decide)
  have hplus := hsign '+' (by decide)
  have htake : (numeral n).takeWhile isDigit = numeral n := List.takeWhile_eq_self_iff.mpr hdigits
  rw [parseInt, hfront, decide_eq_false hminus, decide_eq_false hplus, Bool.or_false, if_neg Bool.false_ne_true, htake,
    if_neg (numeral_ne_nil n), if_neg hminus, digitsValue_numeral]

/-- A key splits into the id, which has no colon, and the number. -/
theorem splitKey_chunkKey {id : Text} (h : ch ':' ∉ id) (n : Nat) : splitKey (chunkKey id n) = (id, some (n : Int)) := by
  have hid : ∀ u ∈ id, decide (u ≠ ch ':') = true := fun u hu => decide_eq_true fun heq => h (heq ▸ hu)
  have htake : (chunkKey id n).takeWhile (· ≠ ch ':') = id := by
    rw [chunkKey, List.takeWhile_append_of_pos hid, List.takeWhile_cons, if_neg (by decide), List.append_nil]
  have hdrop : (chunkKey id n).dropWhile (· ≠ ch ':') = ch ':' :: numeral n := by
    rw [chunkKey, List.dropWhile_append_of_pos hid, List.dropWhile_cons, if_neg (by decide)]
  rw [splitKey, htake, hdrop, List.drop_one, List.tail_cons, parseInt_numeral]

theorem chunkKey_inj {a b : Text} {m n : Nat} (ha : ch ':' ∉ a) (hb : ch ':' ∉ b) (h : chunkKey a m = chunkKey b n) :
    a = b ∧ m = n := by
  have hsplit := (splitKey_chunkKey ha m).symm.trans ((congrArg splitKey h).trans (splitKey_chunkKey hb n))
  rw [Prod.mk.injEq, Option.some.injEq, Nat.cast_inj] at hsplit
  exact hsplit

/-! ## Budgets -/

def MAX_FILE_BYTES : Nat := 512000
def MAX_OWN_FILE_BYTES : Nat := 2000000
def MAX_CHUNKS_PER_FILE : Nat := 80

def isOwnPath (relPath entry : Text) : Bool :=
  let base := entry.rdropWhile (· = ch '/')
  relPath = base || (base ++ [ch '/']).isPrefixOf relPath

/-- What a file may take; a number of chunks that is `none` is infinite. -/
structure Budget where
  maxBytes : Nat
  maxChunks : Option Nat

def fileBudget (relPath : Text) (kind : FileKind) (ownPaths : List Text) : Budget :=
  if kind = .kb || ownPaths.any (isOwnPath relPath) then { maxBytes := MAX_OWN_FILE_BYTES, maxChunks := none }
  else { maxBytes := MAX_FILE_BYTES, maxChunks := some MAX_CHUNKS_PER_FILE }

/-- The bytes of a code point; half a pair is replaced by one that takes three. -/
def pointBytes (c : Nat) : Nat := if c < 0x80 then 1 else if c < 0x800 then 2 else if c < 0x10000 then 3 else 4

/-- `Buffer.byteLength(text, 'utf8')`. -/
def byteLength : Text → Nat
  | [] => 0
  | [u] => pointBytes u.toNat
  | u :: v :: rest => if isPair u v then 4 + byteLength rest else pointBytes u.toNat + byteLength (v :: rest)

/-! ## Chunks -/

def contextHeader (root : Text) (breadcrumb : List Text) : Text :=
  let parts := root :: breadcrumb
  (units " > ").intercalate
    ((parts.zipIdx.filter fun part => part.2 = 0 || parts[part.2 - 1]? ≠ some part.1).map Prod.fst)

def capChunks {H : Type} (chunks : List (RagChunk H)) (maxChunks : Option Nat) : List (RagChunk H) :=
  match maxChunks with
  | none => chunks
  | some maxChunks => chunks.take maxChunks

structure SourceFile where
  ownPaths : List Text
  kind : FileKind
  relPath : Text
  content : Text

/-- What the chunks of a file depend on besides the file. -/
structure Chunker (H : Type) where
  U : Unicode
  holdsWord : Text → Bool
  computeChunkHash : Text → H

namespace SourceFile

variable {H : Type} (env : Chunker H) (file : SourceFile)

def budget : Budget := fileBudget file.relPath file.kind file.ownPaths

/-- The file is skipped. -/
def tooLarge : Bool := file.budget.maxBytes < byteLength file.content

def sections : Option (List RagSection) := extractSections env.U env.holdsWord file.kind file.content file.relPath

/-- The chunks of the file; `none` is a `TypeError`. -/
def chunks : Option (List (RagChunk H)) :=
  (file.sections env).map fun sections =>
    capChunks
      (sections.flatMap fun s =>
        chunkSection env.computeChunkHash s { header := some (contextHeader file.relPath s.breadcrumb) })
      file.budget.maxChunks

end SourceFile

/-! ## Chunks of one file have their own keys -/

variable {H : Type}

def RagChunk.place (chunk : RagChunk H) : Text × Nat := (chunk.sectionId, chunk.chunkIndex)

theorem chunkSection_place (computeChunkHash : Text → H) (s : RagSection) (opts : ChunkOptions) :
    ∃ n, (chunkSection computeChunkHash s opts).map RagChunk.place = (List.range n).map fun i => (s.sectionId, i) := by
  rw [chunkSection]
  split
  · exact ⟨0, rfl⟩
  split
  · exact ⟨1, rfl⟩
  · exact ⟨_, List.ext_getElem (by rw [List.length_map, List.length_mapIdx, List.length_map, List.length_range])
      fun i hi hi' => by simp only [List.getElem_map, List.getElem_mapIdx, List.getElem_range, RagChunk.place]⟩

variable {sections : List RagSection} {computeChunkHash : Text → H} {opts : RagSection → ChunkOptions}

theorem mem_chunkSection_place {s : RagSection} {place : Text × Nat}
    (h : place ∈ (chunkSection computeChunkHash s (opts s)).map RagChunk.place) : place.1 = s.sectionId := by
  obtain ⟨n, hplaces⟩ := chunkSection_place computeChunkHash s (opts s)
  rw [hplaces] at h
  obtain ⟨i, -, rfl⟩ := List.mem_map.mp h
  rfl

theorem places_nodup (h : (sectionIds sections).Nodup) :
    ((sections.flatMap fun s => chunkSection computeChunkHash s (opts s)).map RagChunk.place).Nodup := by
  rw [List.map_flatMap, List.nodup_flatMap]
  refine ⟨fun s _ => ?_, (List.pairwise_map.mp h).imp fun hne => ?_⟩
  · obtain ⟨n, hplaces⟩ := chunkSection_place computeChunkHash s (opts s)
    rw [hplaces]
    exact List.nodup_range.map fun i j hij => (Prod.mk.inj hij).2
  · intro place hs ht
    exact hne ((mem_chunkSection_place hs).symm.trans (mem_chunkSection_place ht))

theorem capChunks_sublist (chunks : List (RagChunk H)) (maxChunks : Option Nat) :
    (capChunks chunks maxChunks).Sublist chunks := by
  rw [capChunks.eq_def]
  split
  · exact List.Sublist.refl _
  · exact List.take_sublist _ _

/-- The places of the chunks are pairwise distinct, and their ids have no `:`. -/
structure UniquePlaces (chunks : List (RagChunk H)) : Prop where
  nodup : (chunks.map RagChunk.place).Nodup
  keyable : ∀ chunk ∈ chunks, ch ':' ∉ chunk.sectionId

variable (env : Chunker H) (file : SourceFile)

/-- What is extracted from a file, and the chunks it is cut into. -/
theorem SourceFile.chunks_sections :
    ∃ sections chunks, file.sections env = some sections ∧ file.chunks env = some chunks ∧
      UniqueIds (sectionIds sections) ∧ (chunks.map RagChunk.place).Nodup ∧
      ∀ chunk ∈ chunks, chunk.sectionId ∈ sectionIds sections := by
  obtain ⟨sections, hsections, hunique⟩ :=
    extractSections_unique env.U env.holdsWord file.kind file.content file.relPath
  refine ⟨sections, _, hsections, congrArg (Option.map _) hsections, hunique, ?_, fun chunk hchunk => ?_⟩
  · exact (places_nodup hunique.nodup).sublist ((capChunks_sublist _ _).map _)
  · obtain ⟨s, hs, hmem⟩ := List.mem_flatMap.mp ((capChunks_sublist _ _).subset hchunk)
    have hid := @mem_chunkSection_place _ _ (fun s => { header := some (contextHeader file.relPath s.breadcrumb) }) _ _
      (List.mem_map_of_mem hmem)
    exact (congrArg (· ∈ sectionIds sections) hid).mpr (List.mem_map_of_mem hs)

theorem SourceFile.chunks_unique : ∃ chunks, file.chunks env = some chunks ∧ UniquePlaces chunks := by
  obtain ⟨sections, chunks, -, hchunks, hunique, hnodup, hids⟩ := file.chunks_sections env
  exact ⟨chunks, hchunks, hnodup, fun chunk hchunk => hunique.keyable _ (hids chunk hchunk)⟩

/-- The section ids of any file are distinct and have no colon, so that a key splits into the columns it was made of,
and no two chunks have one key. -/
theorem chunk_keys_faithful :
    ∃ sections chunks, file.sections env = some sections ∧ file.chunks env = some chunks ∧
      (sectionIds sections).Nodup ∧
      (∀ id ∈ sectionIds sections, ch ':' ∉ id ∧ ∀ n : Nat, splitKey (chunkKey id n) = (id, some (n : Int))) ∧
      (∀ chunk ∈ chunks, chunk.sectionId ∈ sectionIds sections) ∧
      (chunks.map fun chunk => chunkKey chunk.sectionId chunk.chunkIndex).Nodup := by
  obtain ⟨sections, chunks, hsections, hchunks, hunique, hnodup, hids⟩ := file.chunks_sections env
  refine ⟨sections, chunks, hsections, hchunks, hunique.nodup, fun id hid => ?_, hids, ?_⟩
  · have hcolon := hunique.keyable id hid
    exact ⟨hcolon, splitKey_chunkKey hcolon⟩
  · refine (List.Nodup.of_map RagChunk.place hnodup).map_on fun a ha b hb heq => ?_
    obtain ⟨hid, hindex⟩ := chunkKey_inj (hunique.keyable _ (hids a ha)) (hunique.keyable _ (hids b hb)) heq
    exact List.inj_on_of_nodup_map hnodup ha hb (Prod.ext_iff.mpr ⟨hid, hindex⟩)

end Haive.Rag

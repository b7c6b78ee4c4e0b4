import Haive.Lib.Units
import Mathlib

/-!
# Clean transcript buffer

`worker/src/queues/cli-exec/clean-transcript-buffer.ts`: the segments that are stored for the Clean tab,
with four running totals beside them. A push extends the last segment or opens one, and then whole
segments go from the middle until the budget is met. `Balanced` compares the totals with the segments
and with what was ever appended; `run_balanced` is its induction over the operations.
-/

namespace Haive.CleanBuffer

open Lib.Units

abbrev Text := List UInt16

def CLEAN_TRANSCRIPT_MAX_CHARS : Nat := 1024 * 1024
def CLEAN_TRANSCRIPT_MAX_CHUNKS : Nat := 8192

/-- One of `proseChunks`, where `time` is the source's `at` and `stop` its `end`. -/
structure ProseChunk where
  time : Nat
  start : Nat
  stop : Nat
  deriving DecidableEq

/-- `CleanTranscriptSegment`, in the two shapes that the buffer makes: only model segments have
`proseChunks`, and they always do. -/
inductive CleanTranscriptSegment
  | model (text : Text) (time : Nat) (proseChunks : List ProseChunk)
  | user (text : Text) (time : Nat) (steerId : Option Text) (consumed : Option Bool)
  deriving DecidableEq

namespace CleanTranscriptSegment

def text : CleanTranscriptSegment → Text
  | model text _ _ => text
  | user text _ _ _ => text

/-- `segment.proseChunks ?? []`. -/
def chunks : CleanTranscriptSegment → List ProseChunk
  | model _ _ proseChunks => proseChunks
  | user _ _ _ _ => []

def isModel : CleanTranscriptSegment → Bool
  | model _ _ _ => true
  | user _ _ _ _ => false

end CleanTranscriptSegment

/-- The totals are integers, so that a subtraction too many would show. -/
structure CleanTranscriptBuffer where
  segments : List CleanTranscriptSegment := []
  chars : Int := 0
  chunkCount : Int := 0
  elidedSegments : Nat := 0
  elidedChars : Nat := 0
  deriving DecidableEq

def createCleanTranscriptBuffer : CleanTranscriptBuffer := {}

/-! ## The budget -/

def victim (segments : List CleanTranscriptSegment) : Nat :=
  match (segments.drop 1).findIdx? (·.isModel) with
  | some i => i + 1
  | none => 1

/-- The first loop of `enforceBudget`; each turn takes a segment out. -/
def dropSegments (maxChars : Nat) : Nat → CleanTranscriptBuffer → CleanTranscriptBuffer
  | 0, buffer => buffer
  | fuel + 1, buffer =>
    if maxChars < buffer.chars ∧ 1 < buffer.segments.length then
      match buffer.segments[victim buffer.segments]? with
      | none => buffer
      | some dropped =>
        dropSegments maxChars fuel {
          segments := buffer.segments.eraseIdx (victim buffer.segments)
          chars := buffer.chars - dropped.text.length
          chunkCount := buffer.chunkCount - dropped.chunks.length
          elidedChars := buffer.elidedChars + dropped.text.length
          elidedSegments := buffer.elidedSegments + 1 }
    else buffer

/-- `proseChunks.shift()` on the first segment that has one. -/
def shiftChunk : List CleanTranscriptSegment → Option (List CleanTranscriptSegment)
  | [] => none
  | .model text time (_ :: chunks) :: rest => some (.model text time chunks :: rest)
  | segment :: rest => (shiftChunk rest).map (segment :: ·)

/-- The second loop of `enforceBudget`; each turn takes a chunk out. -/
def dropChunks : Nat → CleanTranscriptBuffer → CleanTranscriptBuffer
  | 0, buffer => buffer
  | fuel + 1, buffer =>
    if CLEAN_TRANSCRIPT_MAX_CHUNKS < buffer.chunkCount then
      match shiftChunk buffer.segments with
      | none => buffer
      | some segments =>
        dropChunks fuel { buffer with segments := segments, chunkCount := buffer.chunkCount - 1 }
    else buffer

def charsHeld (segments : List CleanTranscriptSegment) : Nat := (segments.map (·.text.length)).sum

def chunksHeld (segments : List CleanTranscriptSegment) : Nat := (segments.map (·.chunks.length)).sum

def enforceBudget (maxChars : Nat) (buffer : CleanTranscriptBuffer) : CleanTranscriptBuffer :=
  let fitting := dropSegments maxChars buffer.segments.length buffer
  dropChunks (chunksHeld fitting.segments) fitting

/-! ## The operations -/

/-- The separator between two model texts: they are paragraphs of their own. -/
def separator (last : Text) : Text :=
  if [10, 10].isSuffixOf last then [] else if [10].isSuffixOf last then [10] else [10, 10]

/-- `pushModel` before the budget. -/
def appendModel (buffer : CleanTranscriptBuffer) (text : Text) (time : Nat) : CleanTranscriptBuffer :=
  match buffer.segments.getLast? with
  | some (.model last lastTime chunks) =>
    let sep := separator last
    let extended := last ++ sep ++ text
    { buffer with
      segments := buffer.segments.dropLast ++
        [.model extended lastTime (chunks ++ [⟨time, last.length + sep.length, extended.length⟩])]
      chars := buffer.chars + (sep.length + text.length)
      chunkCount := buffer.chunkCount + 1 }
  | _ =>
    { buffer with
      segments := buffer.segments ++ [.model text time [⟨time, 0, text.length⟩]]
      chars := buffer.chars + text.length
      chunkCount := buffer.chunkCount + 1 }

def pushModel (maxChars : Nat) (buffer : CleanTranscriptBuffer) (text : Text) (time : Nat) : CleanTranscriptBuffer :=
  if text = [] then buffer else enforceBudget maxChars (appendModel buffer text time)

/-- `pushUser` before the budget. -/
def appendUser (buffer : CleanTranscriptBuffer) (text steerId : Text) (time : Nat) : CleanTranscriptBuffer :=
  { buffer with
    segments := buffer.segments ++ [.user text time (if steerId = [] then none else some steerId) none]
    chars := buffer.chars + text.length }

def pushUser (maxChars : Nat) (buffer : CleanTranscriptBuffer) (text steerId : Text) (time : Nat) :
    CleanTranscriptBuffer :=
  if text = [] then buffer else enforceBudget maxChars (appendUser buffer text steerId time)

def consume (steerId : Text) : CleanTranscriptSegment → CleanTranscriptSegment
  | .user text time (some id) consumed => .user text time (some id) (if id = steerId then some true else consumed)
  | segment => segment

def markConsumed (buffer : CleanTranscriptBuffer) (steerId : Text) : CleanTranscriptBuffer :=
  if steerId = [] then buffer else { buffer with segments := buffer.segments.map (consume steerId) }

structure Elided where
  segments : Nat
  chars : Nat
  afterIndex : Nat
  deriving DecidableEq

structure CleanTranscript where
  segments : List CleanTranscriptSegment
  elided : Option Elided
  deriving DecidableEq

def toTranscript (buffer : CleanTranscriptBuffer) : Option CleanTranscript :=
  if ¬ buffer.segments.any (·.isModel) then none
  else if buffer.elidedSegments = 0 then some ⟨buffer.segments, none⟩
  else some ⟨buffer.segments, some ⟨buffer.elidedSegments, buffer.elidedChars, 0⟩⟩

/-- A call of the buffer, with the time that `Date.now()` gives it. -/
inductive Op
  | pushModel (text : Text) (time : Nat)
  | pushUser (text steerId : Text) (time : Nat)
  | markConsumed (steerId : Text)
  deriving DecidableEq

def exec (maxChars : Nat) (buffer : CleanTranscriptBuffer) : Op → CleanTranscriptBuffer
  | .pushModel text time => pushModel maxChars buffer text time
  | .pushUser text steerId time => pushUser maxChars buffer text steerId time
  | .markConsumed steerId => markConsumed buffer steerId

def run (maxChars : Option Nat) (ops : List Op) : CleanTranscriptBuffer :=
  ops.foldl (exec (maxChars.getD CLEAN_TRANSCRIPT_MAX_CHARS)) createCleanTranscriptBuffer

/-! ## What was ever appended -/

/-- Segments opened and characters appended, separators included. -/
structure Appended where
  segments : Nat := 0
  chars : Nat := 0

/-- What a call appends, before anything is elided. -/
def Appended.after (made : Appended) (buffer : CleanTranscriptBuffer) : Op → Appended
  | .pushModel text _ =>
    if text = [] then made
    else
      match buffer.segments.getLast? with
      | some (.model last _ _) => { made with chars := made.chars + (separator last ++ text).length }
      | _ => { segments := made.segments + 1, chars := made.chars + text.length }
  | .pushUser text _ _ =>
    if text = [] then made else { segments := made.segments + 1, chars := made.chars + text.length }
  | .markConsumed _ => made

/-- What a run of calls from this buffer appends. -/
def Appended.through (maxChars : Nat) (made : Appended) (buffer : CleanTranscriptBuffer) : List Op → Appended
  | [] => made
  | op :: ops => (made.after buffer op).through maxChars (exec maxChars buffer op) ops

def appended (maxChars : Option Nat) (ops : List Op) : Appended :=
  Appended.through (maxChars.getD CLEAN_TRANSCRIPT_MAX_CHARS) {} createCleanTranscriptBuffer ops

def modelPushes (ops : List Op) : List (Text × Nat) :=
  ops.filterMap fun op =>
    match op with
    | .pushModel text time => if text = [] then none else some (text, time)
    | _ => none

def slice (text : Text) (start stop : Nat) : Text := (text.take stop).drop start

def CleanTranscriptSegment.Sliced (pushes : List (Text × Nat)) (segment : CleanTranscriptSegment) : Prop :=
  ∀ chunk ∈ segment.chunks,
    (slice segment.text chunk.start chunk.stop, chunk.time) ∈ pushes ∧ chunk.stop ≤ segment.text.length

/-- The totals, the segments and what was appended agree. -/
structure Balanced (made : Appended) (pushes : List (Text × Nat)) (buffer : CleanTranscriptBuffer) : Prop where
  chars_eq : buffer.chars = charsHeld buffer.segments
  chunkCount_eq : buffer.chunkCount = chunksHeld buffer.segments
  segments_eq : buffer.elidedSegments + buffer.segments.length = made.segments
  elidedChars_eq : buffer.elidedChars + charsHeld buffer.segments = made.chars
  sliced : ∀ segment ∈ buffer.segments, segment.Sliced pushes

variable {made : Appended} {pushes : List (Text × Nat)} {buffer : CleanTranscriptBuffer} {maxChars : Nat}

@[simp] theorem charsHeld_append (a b : List CleanTranscriptSegment) :
    charsHeld (a ++ b) = charsHeld a + charsHeld b := by
  rw [charsHeld, List.map_append, List.sum_append]
  rfl

@[simp] theorem charsHeld_cons (segment : CleanTranscriptSegment) (rest : List CleanTranscriptSegment) :
    charsHeld (segment :: rest) = segment.text.length + charsHeld rest := rfl

@[simp] theorem charsHeld_nil : charsHeld [] = 0 := rfl

@[simp] theorem chunksHeld_append (a b : List CleanTranscriptSegment) :
    chunksHeld (a ++ b) = chunksHeld a + chunksHeld b := by
  rw [chunksHeld, List.map_append, List.sum_append]
  rfl

@[simp] theorem chunksHeld_cons (segment : CleanTranscriptSegment) (rest : List CleanTranscriptSegment) :
    chunksHeld (segment :: rest) = segment.chunks.length + chunksHeld rest := rfl

@[simp] theorem chunksHeld_nil : chunksHeld [] = 0 := rfl

/-! ## Enforcing the budget -/

theorem victim_lt {segments : List CleanTranscriptSegment} (h : 1 < segments.length) :
    victim segments < segments.length := by
  rw [victim]
  split
  · next i hi =>
    have hlt := (List.findIdx?_eq_some_iff_findIdx_eq.mp hi).1
    rw [List.length_drop] at hlt
    omega
  · exact h

theorem Balanced.drop (h : Balanced made pushes buffer) {front back : List CleanTranscriptSegment}
    {dropped : CleanTranscriptSegment} (hsplit : buffer.segments = front ++ dropped :: back) :
    Balanced made pushes {
      segments := front ++ back
      chars := buffer.chars - dropped.text.length
      chunkCount := buffer.chunkCount - dropped.chunks.length
      elidedChars := buffer.elidedChars + dropped.text.length
      elidedSegments := buffer.elidedSegments + 1 } := by
  have hchars := h.chars_eq
  have hchunks := h.chunkCount_eq
  have hsegments := h.segments_eq
  have helided := h.elidedChars_eq
  have hsliced := h.sliced
  rw [hsplit] at hchars hchunks hsegments helided hsliced
  simp only [charsHeld_append, charsHeld_cons, chunksHeld_append, chunksHeld_cons, List.length_append,
    List.length_cons] at hchars hchunks hsegments helided
  refine ⟨?_, ?_, ?_, ?_, ?_⟩
  · simp only [charsHeld_append]
    omega
  · simp only [chunksHeld_append]
    omega
  · simp only [List.length_append]
    omega
  · simp only [charsHeld_append]
    omega
  · intro segment hmem
    refine hsliced segment ?_
    rcases List.mem_append.mp hmem with hfront | hback
    · exact List.mem_append_left _ hfront
    · exact List.mem_append_right _ (List.mem_cons_of_mem _ hback)

theorem Balanced.dropSegments (h : Balanced made pushes buffer) (maxChars fuel : Nat) :
    Balanced made pushes (dropSegments maxChars fuel buffer) := by
  induction fuel generalizing buffer with
  | zero => exact h
  | succ fuel ih =>
    rw [CleanBuffer.dropSegments]
    split
    · next hover =>
      have hlt := victim_lt hover.2
      rw [List.getElem?_eq_getElem hlt]
      have hsplit := (List.take_append_drop (victim buffer.segments) buffer.segments).symm
      rw [List.drop_eq_getElem_cons hlt] at hsplit
      rw [List.eraseIdx_eq_take_drop_succ]
      exact ih (h.drop hsplit)
    · exact h

/-- With a turn for each segment, the loop ends by its condition. -/
theorem dropSegments_fits (fuel : Nat) (h : buffer.segments.length ≤ fuel + 1) :
    (dropSegments maxChars fuel buffer).chars ≤ maxChars ∨ (dropSegments maxChars fuel buffer).segments.length ≤ 1 := by
  induction fuel generalizing buffer with
  | zero => exact .inr h
  | succ fuel ih =>
    rw [dropSegments]
    split
    · next hover =>
      have hlt := victim_lt hover.2
      rw [List.getElem?_eq_getElem hlt]
      refine ih ?_
      rw [List.length_eraseIdx_of_lt hlt]
      omega
    · next hfits => omega

/-- What `shift` leaves. -/
theorem shiftChunk_spec {segments segments' : List CleanTranscriptSegment} (h : shiftChunk segments = some segments') :
    charsHeld segments' = charsHeld segments ∧ chunksHeld segments' + 1 = chunksHeld segments ∧
      segments'.length = segments.length ∧
      ((∀ segment ∈ segments, segment.Sliced pushes) → ∀ segment ∈ segments', segment.Sliced pushes) := by
  fun_induction shiftChunk segments generalizing segments' with
  | case1 => cases h
  | case2 text time chunk chunks rest =>
    cases h
    refine ⟨rfl, ?_, rfl, fun hsliced => ?_⟩
    · simp only [chunksHeld_cons, CleanTranscriptSegment.chunks, List.length_cons]
      omega
    · rw [List.forall_mem_cons] at hsliced ⊢
      exact ⟨fun c hc => hsliced.1 c (List.mem_cons_of_mem _ hc), hsliced.2⟩
  | case3 segment rest _ ih =>
    obtain ⟨rest', hrest, rfl⟩ := Option.map_eq_some_iff.mp h
    obtain ⟨hchars, hchunks, hlen, hsliced⟩ := ih hrest
    refine ⟨by rw [charsHeld_cons, charsHeld_cons, hchars], ?_, by rw [List.length_cons, List.length_cons, hlen], ?_⟩
    · rw [chunksHeld_cons, chunksHeld_cons]
      omega
    · intro hall
      rw [List.forall_mem_cons] at hall ⊢
      exact ⟨hall.1, hsliced hall.2⟩

theorem shiftChunk_none {segments : List CleanTranscriptSegment} (h : shiftChunk segments = none) :
    chunksHeld segments = 0 := by
  fun_induction shiftChunk segments with
  | case1 => rfl
  | case2 => cases h
  | case3 segment rest hno ih =>
    rw [chunksHeld_cons, ih (Option.map_eq_none_iff.mp h), Nat.add_zero]
    cases segment with
    | user text time steerId consumed => rfl
    | model text time chunks =>
      cases chunks with
      | nil => rfl
      | cons chunk chunks => exact absurd rfl (hno text time chunk chunks)

theorem Balanced.shift (h : Balanced made pushes buffer) {segments : List CleanTranscriptSegment}
    (hshift : shiftChunk buffer.segments = some segments) :
    Balanced made pushes { buffer with segments := segments, chunkCount := buffer.chunkCount - 1 } := by
  obtain ⟨hchars, hchunks, hlen, hsliced⟩ := @shiftChunk_spec pushes _ _ hshift
  refine ⟨?_, ?_, ?_, ?_, hsliced h.sliced⟩
  · rw [h.chars_eq, hchars]
  · show buffer.chunkCount - 1 = chunksHeld segments
    rw [h.chunkCount_eq]
    omega
  · rw [← h.segments_eq, hlen]
  · rw [← h.elidedChars_eq, hchars]

theorem Balanced.dropChunks (h : Balanced made pushes buffer) (fuel : Nat) :
    Balanced made pushes (dropChunks fuel buffer) ∧ (dropChunks fuel buffer).chars = buffer.chars ∧
      (dropChunks fuel buffer).segments.length = buffer.segments.length := by
  induction fuel generalizing buffer with
  | zero => exact ⟨h, rfl, rfl⟩
  | succ fuel ih =>
    rw [CleanBuffer.dropChunks]
    split
    · split
      · exact ⟨h, rfl, rfl⟩
      · next segments hshift =>
        obtain ⟨hkept, hchars, hlen⟩ := ih (h.shift hshift)
        exact ⟨hkept, hchars, hlen.trans (@shiftChunk_spec pushes _ _ hshift).2.2.1⟩
    · exact ⟨h, rfl, rfl⟩

/-- With a turn for each chunk, the loop ends by its condition. -/
theorem dropChunks_capped (h : Balanced made pushes buffer) (fuel : Nat) (hfuel : chunksHeld buffer.segments ≤ fuel) :
    (dropChunks fuel buffer).chunkCount ≤ CLEAN_TRANSCRIPT_MAX_CHUNKS := by
  have hcount := h.chunkCount_eq
  induction fuel generalizing buffer with
  | zero =>
    rw [dropChunks]
    omega
  | succ fuel ih =>
    rw [dropChunks]
    split
    · next hover =>
      cases hshift : shiftChunk buffer.segments with
      | none =>
        have hnone := shiftChunk_none hshift
        omega
      | some segments =>
        have hchunks := (@shiftChunk_spec pushes _ _ hshift).2.1
        have hleft : chunksHeld segments ≤ fuel := by omega
        exact ih (h.shift hshift) hleft (h.shift hshift).chunkCount_eq
    · next hfits => exact Int.not_lt.mp hfits

/-- The budget, and the cap on the chunks. -/
structure Bounded (maxChars : Nat) (buffer : CleanTranscriptBuffer) : Prop where
  chunks_le : buffer.chunkCount ≤ CLEAN_TRANSCRIPT_MAX_CHUNKS
  chars_le : buffer.chars ≤ maxChars ∨ buffer.segments.length = 1

theorem Balanced.enforceBudget (h : Balanced made pushes buffer) (maxChars : Nat) :
    Balanced made pushes (enforceBudget maxChars buffer) ∧ Bounded maxChars (enforceBudget maxChars buffer) := by
  have hfitting := h.dropSegments maxChars buffer.segments.length
  obtain ⟨hkept, hchars, hlen⟩ := hfitting.dropChunks
    (chunksHeld (CleanBuffer.dropSegments maxChars buffer.segments.length buffer).segments)
  refine ⟨hkept, dropChunks_capped hfitting _ (Nat.le_refl _), ?_⟩
  rw [CleanBuffer.enforceBudget, hchars, hlen]
  rcases dropSegments_fits buffer.segments.length (Nat.le_succ _) with hfits | hone
  · exact .inl hfits
  · rcases Nat.le_one_iff_eq_zero_or_eq_one.mp hone with hzero | hone
    · left
      rw [hfitting.chars_eq, List.length_eq_zero_iff.mp hzero]
      exact Int.natCast_nonneg _
    · exact .inr hone

/-! ## The operations keep the accounts -/

theorem slice_append {text more : Text} {start stop : Nat} (h : stop ≤ text.length) :
    slice (text ++ more) start stop = slice text start stop := by
  rw [slice, List.take_append_of_le_length h, slice]

theorem slice_last (before text : Text) : slice (before ++ text) before.length (before ++ text).length = text := by
  rw [slice, List.take_length, List.drop_left]

theorem CleanTranscriptSegment.Sliced.mono {segment : CleanTranscriptSegment} (h : segment.Sliced pushes)
    (more : List (Text × Nat)) : segment.Sliced (pushes ++ more) :=
  fun chunk hchunk => ⟨List.mem_append_left _ (h chunk hchunk).1, (h chunk hchunk).2⟩

theorem Balanced.open (h : Balanced made pushes buffer) (more : List (Text × Nat)) {segment : CleanTranscriptSegment}
    (hsliced : segment.Sliced (pushes ++ more)) :
    Balanced { segments := made.segments + 1, chars := made.chars + segment.text.length } (pushes ++ more)
      { buffer with
        segments := buffer.segments ++ [segment]
        chars := buffer.chars + segment.text.length
        chunkCount := buffer.chunkCount + segment.chunks.length } := by
  refine ⟨?_, ?_, ?_, ?_, ?_⟩
  · simp [h.chars_eq]
  · simp [h.chunkCount_eq]
  · simp [← h.segments_eq, Nat.add_assoc]
  · simp [← h.elidedChars_eq, Nat.add_assoc]
  · rw [List.forall_mem_append, List.forall_mem_singleton]
    exact ⟨fun old hold => (h.sliced old hold).mono more, hsliced⟩

theorem Balanced.extend (h : Balanced made pushes buffer) {front : List CleanTranscriptSegment} {last : Text}
    {lastTime : Nat} {chunks : List ProseChunk} (hsegments : buffer.segments = front ++ [.model last lastTime chunks])
    (sep text : Text) (time : Nat) :
    Balanced { made with chars := made.chars + (sep ++ text).length } (pushes ++ [(text, time)])
      { buffer with
        segments := front ++ [.model (last ++ sep ++ text) lastTime
          (chunks ++ [⟨time, last.length + sep.length, (last ++ sep ++ text).length⟩])]
        chars := buffer.chars + (sep.length + text.length)
        chunkCount := buffer.chunkCount + 1 } := by
  have hchars := h.chars_eq
  have hchunks := h.chunkCount_eq
  have hcount := h.segments_eq
  have helided := h.elidedChars_eq
  have hsliced := h.sliced
  rw [hsegments] at hchars hchunks hcount helided hsliced
  simp only [charsHeld_append, charsHeld_cons, charsHeld_nil, chunksHeld_append, chunksHeld_cons, chunksHeld_nil,
    CleanTranscriptSegment.text, CleanTranscriptSegment.chunks, List.length_append, List.length_singleton]
    at hchars hchunks hcount helided
  rw [List.forall_mem_append, List.forall_mem_singleton] at hsliced
  refine ⟨?_, ?_, ?_, ?_, ?_⟩
  · simp only [charsHeld_append, charsHeld_cons, charsHeld_nil, CleanTranscriptSegment.text, List.length_append]
    omega
  · simp only [chunksHeld_append, chunksHeld_cons, chunksHeld_nil, CleanTranscriptSegment.chunks, List.length_append,
      List.length_singleton]
    omega
  · simp only [List.length_append, List.length_singleton]
    omega
  · simp only [charsHeld_append, charsHeld_cons, charsHeld_nil, CleanTranscriptSegment.text, List.length_append]
    omega
  · rw [List.forall_mem_append, List.forall_mem_singleton]
    refine ⟨fun old hold => (hsliced.1 old hold).mono _, ?_⟩
    intro chunk hchunk
    rcases List.mem_append.mp hchunk with hold | hnew
    · -- what the segment had already sliced is still in front
      obtain ⟨hmem, hle⟩ := hsliced.2 chunk hold
      have hfits : chunk.stop ≤ last.length := hle
      refine ⟨List.mem_append_left _ ?_, ?_⟩
      · show (slice (last ++ sep ++ text) chunk.start chunk.stop, chunk.time) ∈ pushes
        rwa [List.append_assoc, slice_append hfits]
      · show chunk.stop ≤ (last ++ sep ++ text).length
        simp only [List.length_append]
        omega
    · rw [List.mem_singleton.mp hnew]
      refine ⟨List.mem_append_right _ ?_, Nat.le_refl _⟩
      show (slice (last ++ sep ++ text) (last.length + sep.length) (last ++ sep ++ text).length, time) ∈ [(text, time)]
      rw [← List.length_append, slice_last]
      exact List.mem_cons_self

theorem sliced_single (text : Text) (time : Nat) :
    (CleanTranscriptSegment.model text time [⟨time, 0, text.length⟩]).Sliced (pushes ++ [(text, time)]) := by
  intro chunk hchunk
  rw [List.mem_singleton.mp hchunk]
  refine ⟨List.mem_append_right _ ?_, Nat.le_refl _⟩
  show (slice text 0 text.length, time) ∈ [(text, time)]
  rw [slice, List.take_length, List.drop_zero]
  exact List.mem_cons_self

theorem Balanced.appendModel (h : Balanced made pushes buffer) {text : Text} (hne : text ≠ []) (time : Nat) :
    Balanced (made.after buffer (.pushModel text time)) (pushes ++ [(text, time)]) (appendModel buffer text time) := by
  rw [Appended.after, if_neg hne, CleanBuffer.appendModel]
  have hopen := h.open [(text, time)] (sliced_single text time)
  match hlast : buffer.segments.getLast? with
  | some (.model last lastTime chunks) =>
    obtain ⟨front, hfront⟩ := List.getLast?_eq_some_iff.mp hlast
    have hextend := h.extend hfront (separator last) text time
    rw [hfront, List.dropLast_concat]
    exact hextend
  | some (.user _ _ _ _) => exact hopen
  | none => exact hopen

theorem Balanced.appendUser (h : Balanced made pushes buffer) {text : Text} (hne : text ≠ []) (steerId : Text) (time : Nat) :
    Balanced (made.after buffer (.pushUser text steerId time)) pushes (appendUser buffer text steerId time) := by
  have hsliced : (CleanTranscriptSegment.user text time (if steerId = [] then none else some steerId) none).Sliced
      (pushes ++ []) := fun chunk hchunk => absurd hchunk List.not_mem_nil
  have hopen := h.open [] hsliced
  rw [List.append_nil] at hopen
  have hcount : buffer.chunkCount + (CleanTranscriptSegment.user text time (if steerId = [] then none else some steerId)
      none).chunks.length = buffer.chunkCount := Int.add_zero _
  rw [hcount] at hopen
  rw [Appended.after, if_neg hne]
  exact hopen

theorem consume_text (steerId : Text) (segment : CleanTranscriptSegment) :
    (consume steerId segment).text = segment.text ∧ (consume steerId segment).chunks = segment.chunks := by
  unfold consume
  split <;> exact ⟨rfl, rfl⟩

theorem Balanced.markConsumed (h : Balanced made pushes buffer) (steerId : Text) :
    Balanced made pushes (markConsumed buffer steerId) := by
  have htext : (fun segment : CleanTranscriptSegment => segment.text.length) ∘ consume steerId = (·.text.length) :=
    funext fun segment => congrArg List.length (consume_text steerId segment).1
  have hchunks : (fun segment : CleanTranscriptSegment => segment.chunks.length) ∘ consume steerId =
      (·.chunks.length) := funext fun segment => congrArg List.length (consume_text steerId segment).2
  have hchars : charsHeld (buffer.segments.map (consume steerId)) = charsHeld buffer.segments := by
    rw [charsHeld, List.map_map, htext, charsHeld]
  have hcount : chunksHeld (buffer.segments.map (consume steerId)) = chunksHeld buffer.segments := by
    rw [chunksHeld, List.map_map, hchunks, chunksHeld]
  rw [CleanBuffer.markConsumed]
  split
  · exact h
  · refine ⟨?_, ?_, ?_, ?_, ?_⟩
    · rw [hchars, h.chars_eq]
    · rw [hcount, h.chunkCount_eq]
    · rw [List.length_map, h.segments_eq]
    · rw [hchars, h.elidedChars_eq]
    · intro segment hmem
      obtain ⟨old, hold, rfl⟩ := List.mem_map.mp hmem
      intro chunk hchunk
      rw [(consume_text steerId old).2] at hchunk
      rw [(consume_text steerId old).1]
      exact h.sliced old hold chunk hchunk

theorem markConsumed_bounded (h : Bounded maxChars buffer) (steerId : Text) :
    Bounded maxChars (markConsumed buffer steerId) := by
  rw [markConsumed]
  split
  · exact h
  · exact ⟨h.chunks_le, h.chars_le.imp_right fun hone => by rw [List.length_map, hone]⟩

/-- One call. -/
theorem exec_balanced (h : Balanced made pushes buffer) (hbounded : Bounded maxChars buffer) (op : Op) :
    Balanced (made.after buffer op) (pushes ++ modelPushes [op]) (exec maxChars buffer op) ∧
      Bounded maxChars (exec maxChars buffer op) := by
  cases op with
  | pushModel text time =>
    rw [exec, pushModel]
    split
    · next hnil =>
      have hnone : modelPushes [.pushModel text time] = [] := by simp [modelPushes, hnil]
      rw [Appended.after, if_pos hnil, hnone, List.append_nil]
      exact ⟨h, hbounded⟩
    · next hne =>
      have hone : modelPushes [.pushModel text time] = [(text, time)] := by simp [modelPushes, hne]
      rw [hone]
      exact (h.appendModel hne time).enforceBudget maxChars
  | pushUser text steerId time =>
    have hnone : modelPushes [.pushUser text steerId time] = [] := rfl
    rw [exec, pushUser, hnone, List.append_nil]
    split
    · next hnil =>
      rw [Appended.after, if_pos hnil]
      exact ⟨h, hbounded⟩
    · next hne => exact (h.appendUser hne steerId time).enforceBudget maxChars
  | markConsumed steerId =>
    have hnone : modelPushes [.markConsumed steerId] = [] := rfl
    rw [exec, hnone, List.append_nil]
    exact ⟨h.markConsumed steerId, markConsumed_bounded hbounded steerId⟩

theorem foldl_balanced (h : Balanced made pushes buffer) (hbounded : Bounded maxChars buffer) (ops : List Op) :
    Balanced (made.through maxChars buffer ops) (pushes ++ modelPushes ops) (ops.foldl (exec maxChars) buffer) ∧
      Bounded maxChars (ops.foldl (exec maxChars) buffer) := by
  induction ops generalizing made pushes buffer with
  | nil =>
    have hnone : modelPushes [] = [] := rfl
    rw [hnone, List.append_nil]
    exact ⟨h, hbounded⟩
  | cons op ops ih =>
    obtain ⟨hnext, hnextBounded⟩ := exec_balanced h hbounded op
    have hsplit : modelPushes (op :: ops) = modelPushes [op] ++ modelPushes ops := by
      rw [modelPushes, ← List.singleton_append, List.filterMap_append]
      rfl
    rw [hsplit, ← List.append_assoc]
    exact ih hnext hnextBounded

theorem run_balanced (maxChars : Option Nat) (ops : List Op) :
    Balanced (appended maxChars ops) (modelPushes ops) (run maxChars ops) ∧
      Bounded (maxChars.getD CLEAN_TRANSCRIPT_MAX_CHARS) (run maxChars ops) := by
  have hempty : Balanced {} [] createCleanTranscriptBuffer := ⟨rfl, rfl, rfl, rfl, List.forall_mem_nil _⟩
  exact foldl_balanced hempty ⟨Int.natCast_nonneg _, .inl (Int.natCast_nonneg _)⟩ ops

/-- The accounts of the buffer after any calls. -/
theorem run_accounts (maxChars : Option Nat) (ops : List Op) :
    let buffer := run maxChars ops
    let made := appended maxChars ops
    buffer.chars = charsHeld buffer.segments ∧ buffer.chunkCount = chunksHeld buffer.segments ∧
      (∀ segment ∈ buffer.segments, ∀ chunk ∈ segment.chunks,
        (slice segment.text chunk.start chunk.stop, chunk.time) ∈ modelPushes ops) ∧
      (buffer.elidedSegments : Int) = made.segments - buffer.segments.length ∧
      (buffer.elidedChars : Int) = made.chars - charsHeld buffer.segments ∧
      buffer.chunkCount ≤ CLEAN_TRANSCRIPT_MAX_CHUNKS ∧
      (buffer.chars ≤ maxChars.getD CLEAN_TRANSCRIPT_MAX_CHARS ∨ buffer.segments.length = 1) := by
  intro buffer made
  obtain ⟨h, hbounded⟩ := run_balanced maxChars ops
  have hsegments : buffer.elidedSegments + buffer.segments.length = made.segments := h.segments_eq
  have hchars : buffer.elidedChars + charsHeld buffer.segments = made.chars := h.elidedChars_eq
  refine ⟨h.chars_eq, h.chunkCount_eq, fun segment hmem chunk hchunk => (h.sliced segment hmem chunk hchunk).1,
    ?_, ?_, hbounded.chunks_le, hbounded.chars_le⟩
  · omega
  · omega

/-- What the stored transcript holds and what it says is missing are all that was appended. -/
theorem toTranscript_accounts {maxChars : Option Nat} {ops : List Op} {transcript : CleanTranscript}
    (h : toTranscript (run maxChars ops) = some transcript) :
    transcript.elided.elim 0 (·.segments) + transcript.segments.length = (appended maxChars ops).segments ∧
      ∀ elided ∈ transcript.elided, elided.chars + charsHeld transcript.segments = (appended maxChars ops).chars := by
  obtain ⟨hbalanced, -⟩ := run_balanced maxChars ops
  rw [toTranscript] at h
  split at h
  · cases h
  · split at h
    · next hnone =>
      rw [← Option.some.inj h, ← hbalanced.segments_eq, hnone]
      exact ⟨rfl, fun _ helided => nomatch helided⟩
    · rw [← Option.some.inj h, ← hbalanced.segments_eq, ← hbalanced.elidedChars_eq]
      refine ⟨rfl, fun elided helided => ?_⟩
      rw [← Option.some.inj helided]

end Haive.CleanBuffer

import Haive.Lib.Units

/-!
# Stream log buffer

`worker/src/queues/cli-exec/stream-log-buffer.ts`: the transcript that is stored for a CLI run, which
keeps the first characters and the last ones of what the run wrote. What does not fit into the head
goes to the tail as a chunk of its own, and the tail drops whole chunks from its front until it fits.
`Holds` is what stays true from push to push; `pushes_ends` reads the stored text off it.
-/

namespace Haive.StreamLog

open Lib.Units

abbrev Text := List UInt16

def STREAM_LOG_HEAD_CHARS : Nat := 2 * 1024 * 1024
def STREAM_LOG_TAIL_CHARS : Nat := 2 * 1024 * 1024

structure StreamLogBufferOptions where
  headChars : Option Nat := none
  tailChars : Option Nat := none

def StreamLogBufferOptions.headLimit (opts : StreamLogBufferOptions) : Nat :=
  opts.headChars.getD STREAM_LOG_HEAD_CHARS

def StreamLogBufferOptions.tailLimit (opts : StreamLogBufferOptions) : Nat :=
  opts.tailChars.getD STREAM_LOG_TAIL_CHARS

structure StreamLogBuffer where
  head : List Text := []
  tail : List Text := []
  headLen : Nat := 0
  tailLen : Nat := 0
  elided : Nat := 0
  deriving DecidableEq

def createStreamLogBuffer : StreamLogBuffer := {}

/-! ## Pushing -/

/-- The `while` loop: whole chunks off the front of the tail, until it fits or one is left. -/
def dropWhole (tailLimit : Nat) (buffer : StreamLogBuffer) : List Text → StreamLogBuffer
  | dropped :: next :: rest =>
    if tailLimit < buffer.tailLen then
      dropWhole tailLimit
        { buffer with
          tailLen := buffer.tailLen - dropped.length
          elided := buffer.elided + dropped.length }
        (next :: rest)
    else { buffer with tail := dropped :: next :: rest }
  | tail => { buffer with tail := tail }

/-- One chunk larger than the whole tail budget: its end is kept. -/
def keepEnd (tailLimit : Nat) (buffer : StreamLogBuffer) : StreamLogBuffer :=
  if tailLimit < buffer.tailLen then
    match buffer.tail with
    | only :: rest =>
      let kept := only.drop (only.length - tailLimit)
      { buffer with
        elided := buffer.elided + (only.length - kept.length)
        tail := kept :: rest
        tailLen := kept.length }
    | [] => buffer
  else buffer

/-- What `push` does with the part of a chunk that is not the head's. -/
def pushTail (tailLimit : Nat) (buffer : StreamLogBuffer) (rest : Text) : StreamLogBuffer :=
  keepEnd tailLimit
    (dropWhole tailLimit { buffer with tailLen := buffer.tailLen + rest.length } (buffer.tail ++ [rest]))

def push (headLimit tailLimit : Nat) (buffer : StreamLogBuffer) (chunk : Text) : StreamLogBuffer :=
  if chunk = [] then buffer
  else if buffer.headLen < headLimit then
    let room := headLimit - buffer.headLen
    if chunk.length ≤ room then
      { buffer with head := buffer.head ++ [chunk], headLen := buffer.headLen + chunk.length }
    else
      pushTail tailLimit { buffer with head := buffer.head ++ [chunk.take room], headLen := headLimit }
        (chunk.drop room)
  else pushTail tailLimit buffer chunk

def pushes (opts : StreamLogBufferOptions) (chunks : List Text) : StreamLogBuffer :=
  chunks.foldl (push opts.headLimit opts.tailLimit) createStreamLogBuffer

/-- `after` is `before` without some characters at the front of its tail, which it counts. -/
structure Trims (tailLimit : Nat) (before after : StreamLogBuffer) : Prop where
  head_eq : after.head = before.head
  headLen_eq : after.headLen = before.headLen
  tailLen_eq : after.tailLen = after.tail.flatten.length
  gone : ∃ gone, before.tail.flatten = gone ++ after.tail.flatten ∧
    after.elided = before.elided + gone.length ∧ (gone ≠ [] → tailLimit < before.tailLen)

variable {tailLimit : Nat}

theorem Trims.refl {buffer : StreamLogBuffer} (h : buffer.tailLen = buffer.tail.flatten.length) :
    Trims tailLimit buffer buffer :=
  ⟨rfl, rfl, h, [], rfl, rfl, fun hne => absurd rfl hne⟩

theorem Trims.trans {a b c : StreamLogBuffer} (hab : Trims tailLimit a b)
    (ha : a.tailLen = a.tail.flatten.length) (hbc : Trims tailLimit b c) : Trims tailLimit a c := by
  obtain ⟨gone, hgone, helided, hover⟩ := hab.gone
  obtain ⟨gone', hgone', helided', hover'⟩ := hbc.gone
  refine ⟨hbc.head_eq.trans hab.head_eq, hbc.headLen_eq.trans hab.headLen_eq, hbc.tailLen_eq,
    gone ++ gone', ?_, ?_, ?_⟩
  · rw [hgone, hgone', List.append_assoc]
  · rw [helided', helided, List.length_append, Nat.add_assoc]
  · intro hne
    by_cases hnil : gone = []
    · have hshrunk : b.tailLen ≤ a.tailLen := by
        rw [hab.tailLen_eq, ha, hgone, List.length_append]
        exact Nat.le_add_left _ _
      exact (hover' (by simpa [hnil] using hne)).trans_le hshrunk
    · exact hover hnil

theorem dropWhole_trims {buffer : StreamLogBuffer} {tail : List Text} (h : buffer.tailLen = tail.flatten.length) :
    Trims tailLimit { buffer with tail := tail } (dropWhole tailLimit buffer tail) ∧
      ((dropWhole tailLimit buffer tail).tailLen ≤ tailLimit ∨ (dropWhole tailLimit buffer tail).tail.length ≤ 1) := by
  fun_induction dropWhole tailLimit buffer tail with
  | case1 buffer dropped next rest hover ih =>
    have hrest : buffer.tailLen - dropped.length = (next :: rest).flatten.length := by
      rw [h, List.flatten_cons, List.length_append, Nat.add_sub_cancel_left]
    obtain ⟨htrims, hdone⟩ := ih hrest
    refine ⟨?_, hdone⟩
    have hfirst : Trims tailLimit { buffer with tail := dropped :: next :: rest }
        { buffer with
          tail := next :: rest
          tailLen := buffer.tailLen - dropped.length
          elided := buffer.elided + dropped.length } :=
      ⟨rfl, rfl, hrest, dropped, rfl, rfl, fun _ => hover⟩
    exact hfirst.trans h htrims
  | case2 buffer dropped next rest hfits => exact ⟨Trims.refl h, .inl (Nat.le_of_not_lt hfits)⟩
  | case3 buffer tail hshort =>
    refine ⟨Trims.refl h, .inr ?_⟩
    match tail, hshort with
    | [], _ => exact Nat.zero_le 1
    | [_], _ => exact Nat.le_refl 1
    | dropped :: next :: rest, hshort => exact absurd rfl (hshort dropped next rest)

theorem keepEnd_trims {buffer : StreamLogBuffer} (h : buffer.tailLen = buffer.tail.flatten.length)
    (hdone : buffer.tailLen ≤ tailLimit ∨ buffer.tail.length ≤ 1) :
    Trims tailLimit buffer (keepEnd tailLimit buffer) ∧ (keepEnd tailLimit buffer).tailLen ≤ tailLimit := by
  rw [keepEnd]
  split
  · next hover =>
    have hone : buffer.tail.length ≤ 1 := hdone.resolve_left (Nat.not_le_of_lt hover)
    match htail : buffer.tail, hone with
    | [], _ =>
      rw [htail] at h
      rw [h] at hover
      exact absurd hover (Nat.not_lt_zero _)
    | [only], _ =>
      have hlen : buffer.tailLen = only.length := by rw [h, htail, List.flatten_singleton]
      refine ⟨⟨rfl, rfl, by simp, only.take (only.length - tailLimit), ?_, ?_, fun _ => hover⟩, ?_⟩
      · simp [htail]
      · simp only [List.length_take, List.length_drop]
        omega
      · simp only [List.length_drop]
        omega
  · next hfits => exact ⟨Trims.refl h, Nat.le_of_not_lt hfits⟩

theorem pushTail_trims {buffer : StreamLogBuffer} (h : buffer.tailLen = buffer.tail.flatten.length) (rest : Text) :
    Trims tailLimit { buffer with tail := buffer.tail ++ [rest], tailLen := buffer.tailLen + rest.length }
        (pushTail tailLimit buffer rest) ∧ (pushTail tailLimit buffer rest).tailLen ≤ tailLimit := by
  have hpushed : buffer.tailLen + rest.length = (buffer.tail ++ [rest]).flatten.length := by
    simp [h]
  obtain ⟨hdropped, hdone⟩ :=
    @dropWhole_trims tailLimit { buffer with tailLen := buffer.tailLen + rest.length } _ hpushed
  obtain ⟨hkept, hfits⟩ := keepEnd_trims hdropped.tailLen_eq hdone
  exact ⟨hdropped.trans hpushed hkept, hfits⟩

/-! ## What holds between two pushes -/

/-- `stream` is what was pushed so far. -/
structure Holds (headLimit tailLimit : Nat) (stream : Text) (buffer : StreamLogBuffer) : Prop where
  headLen_eq : buffer.headLen = buffer.head.flatten.length
  headLen_le : buffer.headLen ≤ headLimit
  tailLen_eq : buffer.tailLen = buffer.tail.flatten.length
  tailLen_le : buffer.tailLen ≤ tailLimit
  /-- Until the head is full, there is nothing else. -/
  head_first : buffer.headLen < headLimit → stream = buffer.head.flatten
  middle : ∃ middle, stream = buffer.head.flatten ++ (middle ++ buffer.tail.flatten) ∧
    buffer.elided = middle.length ∧ (middle ≠ [] → headLimit + tailLimit < stream.length)

variable {headLimit : Nat} {stream : Text} {buffer : StreamLogBuffer}

theorem holds_create (headLimit tailLimit : Nat) : Holds headLimit tailLimit [] createStreamLogBuffer where
  headLen_eq := rfl
  headLen_le := Nat.zero_le _
  tailLen_eq := rfl
  tailLen_le := Nat.zero_le _
  head_first _ := rfl
  middle := ⟨[], rfl, rfl, fun hne => absurd rfl hne⟩

theorem Holds.pushTail (h : Holds headLimit tailLimit stream buffer) (hfull : buffer.headLen = headLimit)
    (rest : Text) : Holds headLimit tailLimit (stream ++ rest) (pushTail tailLimit buffer rest) := by
  obtain ⟨htrims, hfits⟩ := @pushTail_trims tailLimit _ h.tailLen_eq rest
  obtain ⟨middle, hstream, helided, hover⟩ := h.middle
  obtain ⟨gone, hgone, hcount, hcut⟩ := htrims.gone
  rw [List.flatten_append, List.flatten_singleton] at hgone
  have hlen : buffer.tailLen + rest.length = gone.length + (StreamLog.pushTail tailLimit buffer rest).tailLen := by
    rw [htrims.tailLen_eq, h.tailLen_eq, ← List.length_append, hgone, List.length_append]
  have hall : (stream ++ rest).length = headLimit + middle.length + buffer.tailLen + rest.length := by
    rw [List.length_append, hstream, List.length_append, List.length_append, ← hfull, h.headLen_eq, h.tailLen_eq,
      ← Nat.add_assoc]
  refine ⟨?_, ?_, htrims.tailLen_eq, hfits, ?_, middle ++ gone, ?_, ?_, ?_⟩
  · rw [htrims.headLen_eq, htrims.head_eq, h.headLen_eq]
  · rw [htrims.headLen_eq]
    exact h.headLen_le
  · intro hroom
    rw [htrims.headLen_eq, hfull] at hroom
    exact absurd hroom (Nat.lt_irrefl _)
  · rw [htrims.head_eq, hstream, List.append_assoc, List.append_assoc, List.append_assoc, ← hgone]
  · rw [hcount, helided, List.length_append]
  · intro hne
    by_cases hnil : gone = []
    · have hmiddle : headLimit + tailLimit < stream.length := hover (by simpa [hnil] using hne)
      rw [List.length_append]
      omega
    · have hcut : tailLimit < buffer.tailLen + rest.length := hcut hnil
      omega

/-- A chunk that the head takes whole. -/
theorem Holds.pushHead (h : Holds headLimit tailLimit stream buffer) (hroom : buffer.headLen < headLimit)
    {chunk : Text} (hle : chunk.length ≤ headLimit - buffer.headLen) :
    Holds headLimit tailLimit (stream ++ chunk)
      { buffer with head := buffer.head ++ [chunk], headLen := buffer.headLen + chunk.length } := by
  obtain ⟨middle, hstream, helided, -⟩ := h.middle
  have hempty : middle ++ buffer.tail.flatten = [] := by
    have hfirst := h.head_first hroom
    rw [hstream] at hfirst
    exact List.append_right_eq_self.mp hfirst
  obtain ⟨hmiddle, htail⟩ := List.append_eq_nil_iff.mp hempty
  have hhead : (buffer.head ++ [chunk]).flatten = stream ++ chunk := by
    rw [List.flatten_append, List.flatten_singleton, h.head_first hroom]
  refine ⟨?_, ?_, h.tailLen_eq, h.tailLen_le, fun _ => hhead.symm, [], ?_, ?_, fun hne => absurd rfl hne⟩
  · simp [h.headLen_eq]
  · have := h.headLen_le
    show buffer.headLen + chunk.length ≤ headLimit
    omega
  · rw [hhead, htail, List.append_nil, List.append_nil]
  · rw [helided, hmiddle]

theorem Holds.push (h : Holds headLimit tailLimit stream buffer) (chunk : Text) :
    Holds headLimit tailLimit (stream ++ chunk) (push headLimit tailLimit buffer chunk) := by
  rw [StreamLog.push]
  split
  · next hnil =>
    rw [hnil, List.append_nil]
    exact h
  · simp only
    split
    · next hroom =>
      split
      · next hle => exact h.pushHead hroom hle
      · next hgt =>
        -- the head takes what it has room for, and is full then
        have hroomy : (chunk.take (headLimit - buffer.headLen)).length ≤ headLimit - buffer.headLen := by
          rw [List.length_take]
          exact Nat.min_le_left _ _
        have hfilled := h.pushHead hroom hroomy
        have hlen : buffer.headLen + (chunk.take (headLimit - buffer.headLen)).length = headLimit := by
          rw [List.length_take]
          omega
        rw [hlen] at hfilled
        have hpushed := hfilled.pushTail rfl (chunk.drop (headLimit - buffer.headLen))
        rw [List.append_assoc, List.take_append_drop] at hpushed
        exact hpushed
    · next hfull => exact h.pushTail (Nat.le_antisymm h.headLen_le (Nat.le_of_not_lt hfull)) chunk

theorem holds_pushes (opts : StreamLogBufferOptions) (chunks : List Text) :
    Holds opts.headLimit opts.tailLimit chunks.flatten (pushes opts chunks) := by
  induction chunks using List.reverseRecOn with
  | nil => exact holds_create _ _
  | append_singleton chunks chunk ih =>
    rw [pushes, List.foldl_append, List.flatten_append, List.flatten_singleton]
    exact ih.push chunk

theorem Holds.head_eq (h : Holds headLimit tailLimit stream buffer) :
    buffer.head.flatten = stream.take headLimit := by
  obtain ⟨middle, hstream, -, -⟩ := h.middle
  rcases Nat.lt_or_ge buffer.headLen headLimit with hroom | hfull
  · have hshort : stream.length ≤ headLimit := by
      rw [h.head_first hroom, ← h.headLen_eq]
      exact hroom.le
    rw [List.take_of_length_le hshort, h.head_first hroom]
  · have hlen : buffer.head.flatten.length = headLimit := by
      rw [← h.headLen_eq]
      exact Nat.le_antisymm h.headLen_le hfull
    rw [hstream, List.take_append_of_le_length hlen.ge, List.take_of_length_le hlen.le]

/-- Something is cut out if and only if the stream is longer than both limits together. -/
theorem Holds.elided_eq_zero_iff (h : Holds headLimit tailLimit stream buffer) :
    buffer.elided = 0 ↔ stream.length ≤ headLimit + tailLimit := by
  obtain ⟨middle, hstream, helided, hover⟩ := h.middle
  rw [helided, List.length_eq_zero_iff]
  constructor
  · intro hnil
    have hhead := h.headLen_le
    have htail := h.tailLen_le
    rw [h.headLen_eq] at hhead
    rw [h.tailLen_eq] at htail
    rw [hstream, hnil, List.nil_append, List.length_append]
    exact Nat.add_le_add hhead htail
  · intro hle
    by_contra hne
    exact absurd (hover hne) (Nat.not_lt_of_le hle)

/-! ## The stored text -/

def markerStart : Text := units "[haive] --- "

def markerCount : Text := units " characters elided: "

/-- The line that `toString` writes in place of the middle, with the line ends around it. -/
def marker (headLimit tailLimit elided : Nat) : Text :=
  0x0a :: (markerStart ++ numeral elided ++ markerCount ++
    units "this CLI transcript exceeded the " ++ numeral headLimit ++ units " head / " ++
    numeral tailLimit ++ units " tail character cap and only its start and end were persisted ---\n")

def StreamLogBuffer.toString (headLimit tailLimit : Nat) (buffer : StreamLogBuffer) : Text :=
  if buffer.elided = 0 then buffer.head.flatten ++ buffer.tail.flatten
  else buffer.head.flatten ++ marker headLimit tailLimit buffer.elided ++ buffer.tail.flatten

/-- `ELISION_MARKER_RE` at one place of the text. -/
def markerHere (t : Text) : Bool :=
  markerStart.isPrefixOf t &&
    ((t.drop markerStart.length).takeWhile isDigit != [] &&
      markerCount.isPrefixOf ((t.drop markerStart.length).dropWhile isDigit))

/-- `ELISION_MARKER_RE` at the start of a later line. -/
def markerBelow : Text → Bool
  | [] => false
  | u :: t => (isLineEnd u && markerHere t) || markerBelow t

def isElidedStreamLog (streamLog : Text) : Bool := markerHere streamLog || markerBelow streamLog

theorem markerHere_marker (n : Nat) (rest : Text) :
    markerHere (markerStart ++ numeral n ++ markerCount ++ rest) = true := by
  have hcount : isDigit 0x20 = false := by decide
  have hspace : markerCount = 0x20 :: markerCount.tail := by decide
  have hdrop : (markerStart ++ numeral n ++ markerCount ++ rest).drop markerStart.length =
      numeral n ++ (markerCount ++ rest) := by
    rw [List.append_assoc, List.append_assoc, List.drop_left]
  have hall : ∀ u ∈ numeral n, isDigit u = true := fun u hu => isDigit_of_mem_numeral hu
  have hstop : (markerCount ++ rest).takeWhile isDigit = [] := by
    rw [hspace, List.cons_append, List.takeWhile_cons_of_neg (by simp [hcount])]
  have hstay : (markerCount ++ rest).dropWhile isDigit = markerCount ++ rest := by
    rw [hspace, List.cons_append, List.dropWhile_cons_of_neg (by simp [hcount])]
  rw [markerHere, hdrop, List.takeWhile_append_of_pos hall, List.dropWhile_append_of_pos hall, hstop, hstay,
    List.append_nil, Bool.and_eq_true, Bool.and_eq_true]
  refine ⟨?_, ?_, ?_⟩
  · exact List.isPrefixOf_iff_prefix.mpr ⟨numeral n ++ markerCount ++ rest, by simp⟩
  · simpa using numeral_ne_nil n
  · exact List.isPrefixOf_iff_prefix.mpr ⟨rest, rfl⟩

theorem markerBelow_append {before t : Text} (h : markerBelow t = true) : markerBelow (before ++ t) = true := by
  induction before with
  | nil => exact h
  | cons u before ih => rw [List.cons_append, markerBelow, ih, Bool.or_true]

/-- A reader finds the marker behind any text. -/
theorem isElidedStreamLog_marker (before after : Text) (n : Nat) :
    isElidedStreamLog (before ++ marker headLimit tailLimit n ++ after) = true := by
  have hline : markerBelow (marker headLimit tailLimit n ++ after) = true := by
    have hstart := markerHere_marker n (units "this CLI transcript exceeded the " ++ numeral headLimit ++
      units " head / " ++ numeral tailLimit ++
      units " tail character cap and only its start and end were persisted ---\n" ++ after)
    rw [marker, List.cons_append, markerBelow]
    simp only [List.append_assoc] at hstart ⊢
    rw [hstart]
    rfl
  rw [isElidedStreamLog, List.append_assoc, markerBelow_append hline, Bool.or_true]

/-- However the stream is cut into pushes: a stream within the two limits is stored as it is, and of a
longer one the head, the count of what is missing, and an end that the tail limit allows. -/
theorem pushes_ends (opts : StreamLogBufferOptions) (chunks : List Text) :
    let stream := chunks.flatten
    let buffer := pushes opts chunks
    let text := buffer.toString opts.headLimit opts.tailLimit
    let head := buffer.head.flatten
    let tail := buffer.tail.flatten
    (stream.length ≤ opts.headLimit + opts.tailLimit → text = stream) ∧
      (opts.headLimit + opts.tailLimit < stream.length →
        text = head ++ marker opts.headLimit opts.tailLimit (stream.length - (head.length + tail.length)) ++ tail ∧
          head = stream.take opts.headLimit ∧ tail <:+ stream ∧ tail.length ≤ opts.tailLimit ∧
          isElidedStreamLog text = true) := by
  intro stream buffer text head tail
  have h : Holds opts.headLimit opts.tailLimit stream buffer := holds_pushes opts chunks
  obtain ⟨middle, hstream, helided, -⟩ := h.middle
  constructor
  · intro hle
    have hnone : buffer.elided = 0 := h.elided_eq_zero_iff.mpr hle
    have hnil : middle = [] := List.length_eq_zero_iff.mp (helided.symm.trans hnone)
    have htext : text = head ++ tail := if_pos hnone
    rw [htext, hstream, hnil, List.nil_append]
  · intro hlong
    have hsome : buffer.elided ≠ 0 := fun hnone => absurd (h.elided_eq_zero_iff.mp hnone) (Nat.not_le_of_lt hlong)
    have hcount : buffer.elided = stream.length - (head.length + tail.length) := by
      rw [helided, hstream, List.length_append, List.length_append]
      show middle.length = head.length + (middle.length + tail.length) - (head.length + tail.length)
      omega
    have htext : text = head ++ marker opts.headLimit opts.tailLimit buffer.elided ++ tail := if_neg hsome
    refine ⟨hcount ▸ htext, h.head_eq, ⟨head ++ middle, ?_⟩, h.tailLen_eq ▸ h.tailLen_le, ?_⟩
    · rw [hstream, List.append_assoc]
    · rw [htext]
      exact isElidedStreamLog_marker head tail buffer.elided

theorem pushes_ends_straddling :
    let opts : StreamLogBufferOptions := { headChars := some 2, tailChars := some 2 }
    let chunks := [units "abc", units "de", units "f"]
    opts.headLimit + opts.tailLimit < chunks.flatten.length ∧
      (pushes opts chunks).toString opts.headLimit opts.tailLimit = units "ab" ++ marker 2 2 3 ++ units "f" ∧
      isElidedStreamLog ((pushes opts chunks).toString opts.headLimit opts.tailLimit) = true := by
  intro opts chunks
  obtain ⟨htext, -, -, -, hmarked⟩ := (pushes_ends opts chunks).2 (by decide)
  have hhead : (pushes opts chunks).head.flatten = units "ab" := by decide
  have htail : (pushes opts chunks).tail.flatten = units "f" := by decide
  rw [hhead, htail] at htext
  exact ⟨by decide, htext, hmarked⟩

end Haive.StreamLog

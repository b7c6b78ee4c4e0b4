import Haive.Queues.CleanTranscriptBuffer

/-!
# The ends of a clean transcript

`enforceBudget` means to keep the head and the recent tail of the transcript and to eat the middle. The
segments are numbered here in the order in which they were opened, and `dropNumbered` is its first loop with
the numbers beside the segments (`dropNumbered_segments`). The head always stays. The segment of the push goes
when the budget cannot hold it: a model segment goes before the user segments between the ends do
(`mem_dropNumbered_last_iff`).
-/

namespace Haive.CleanBuffer

open Lib.Units

abbrev NumberedSegment := Nat × CleanTranscriptSegment

/-- The first loop of `enforceBudget` over numbered segments. -/
def dropNumbered (maxChars : Nat) : Nat → List NumberedSegment → List NumberedSegment
  | 0, entries => entries
  | fuel + 1, entries =>
    if maxChars < charsHeld (entries.map Prod.snd) ∧ 1 < entries.length then
      dropNumbered maxChars fuel (entries.eraseIdx (victim (entries.map Prod.snd)))
    else entries

/-- A buffer, the numbers of its segments and how many were opened. -/
structure Tracked where
  buffer : CleanTranscriptBuffer := createCleanTranscriptBuffer
  numbers : List Nat := []
  opened : Nat := 0

def Op.isPush : Op → Bool
  | .pushModel text _ => text ≠ []
  | .pushUser text _ _ => text ≠ []
  | .markConsumed _ => false

def extendsLast (segments : List CleanTranscriptSegment) : Op → Bool
  | .pushModel _ _ => segments.getLast?.any (·.isModel)
  | _ => false

def append (buffer : CleanTranscriptBuffer) : Op → CleanTranscriptBuffer
  | .pushModel text time => appendModel buffer text time
  | .pushUser text steerId time => appendUser buffer text steerId time
  | .markConsumed _ => buffer

def Tracked.append (t : Tracked) (op : Op) : Tracked :=
  if extendsLast t.buffer.segments op then { t with buffer := CleanBuffer.append t.buffer op }
  else
    { buffer := CleanBuffer.append t.buffer op
      numbers := t.numbers ++ [t.opened]
      opened := t.opened + 1 }

theorem Tracked.append_buffer (t : Tracked) (op : Op) : (t.append op).buffer = CleanBuffer.append t.buffer op := by
  rw [Tracked.append]
  split <;> rfl

def Tracked.entries (t : Tracked) : List NumberedSegment := t.numbers.zip t.buffer.segments

def Tracked.exec (maxChars : Nat) (t : Tracked) (op : Op) : Tracked :=
  if op.isPush then
    let pushed := t.append op
    { pushed with
      buffer := enforceBudget maxChars pushed.buffer
      numbers := (dropNumbered maxChars pushed.buffer.segments.length pushed.entries).map Prod.fst }
  else { t with buffer := CleanBuffer.exec maxChars t.buffer op }

/-- `run` with the numbers. -/
def track (maxChars : Option Nat) (ops : List Op) : Tracked :=
  ops.foldl (Tracked.exec (maxChars.getD CLEAN_TRANSCRIPT_MAX_CHARS)) {}

/-- Behind the push, the first segment ever opened and the one of the push are held, and what went was
opened between them. -/
structure EndsKept (maxChars : Nat) (t : Tracked) (op : Op) : Prop where
  first : 0 ∈ (t.exec maxChars op).numbers
  latest : ∀ n ∈ (t.append op).numbers.getLast?, n ∈ (t.exec maxChars op).numbers
  gone : ∀ n ∈ (t.append op).numbers, n ∉ (t.exec maxChars op).numbers →
    0 < n ∧ ∀ last ∈ (t.append op).numbers.getLast?, n < last

/-- The text of the segment behind the first that a model push opens or extends. -/
def latestText (rest : List CleanTranscriptSegment) (text : Text) : Text :=
  match rest.getLast? with
  | some (.model last _ _) => last ++ separator last ++ text
  | _ => text

def EndsFit (maxChars : Nat) (segments : List CleanTranscriptSegment) (op : Op) : Prop :=
  match segments, op with
  | first :: rest, .pushModel text _ =>
    (rest = [] ∧ first.isModel = true) ∨
      first.text.length + charsHeld (rest.filter (! ·.isModel)) + (latestText rest text).length ≤ maxChars
  | first :: _, .pushUser text _ _ => first.text.length + text.length ≤ maxChars
  | _, _ => True

/-! ## The first loop -/

variable {maxChars : Nat}

theorem charsHeld_eraseIdx {segments : List CleanTranscriptSegment} {i : Nat} (h : i < segments.length) :
    charsHeld (segments.eraseIdx i) + segments[i].text.length = charsHeld segments := by
  have hsplit := (List.take_append_drop i segments).symm
  rw [List.drop_eq_getElem_cons h] at hsplit
  conv_rhs => rw [hsplit]
  rw [List.eraseIdx_eq_take_drop_succ, charsHeld_append, charsHeld_append, charsHeld_cons]
  omega

/-- The numbers do not change what the loop does. -/
theorem dropNumbered_segments {buffer : CleanTranscriptBuffer} {entries : List NumberedSegment}
    (hsegments : buffer.segments = entries.map Prod.snd) (hchars : buffer.chars = charsHeld buffer.segments)
    (fuel : Nat) :
    (dropSegments maxChars fuel buffer).segments = (dropNumbered maxChars fuel entries).map Prod.snd := by
  induction fuel generalizing buffer entries with
  | zero => exact hsegments
  | succ fuel ih =>
    have hguard : (maxChars < buffer.chars ∧ 1 < buffer.segments.length) ↔
        maxChars < charsHeld (entries.map Prod.snd) ∧ 1 < entries.length := by
      rw [hchars, hsegments, List.length_map]
      exact and_congr_left' Int.ofNat_lt
    rw [dropSegments, dropNumbered]
    by_cases hover : maxChars < charsHeld (entries.map Prod.snd) ∧ 1 < entries.length
    · rw [if_pos (hguard.mpr hover), if_pos hover]
      have hlt := victim_lt (hguard.mpr hover).2
      rw [List.getElem?_eq_getElem hlt]
      refine ih ?_ ?_
      · rw [← List.eraseIdx_map, ← hsegments]
      · have hheld := charsHeld_eraseIdx hlt
        show buffer.chars - buffer.segments[victim buffer.segments].text.length =
          (charsHeld (buffer.segments.eraseIdx (victim buffer.segments)) : Int)
        omega
    · rw [if_neg (hguard.not.mpr hover), if_neg hover]
      exact hsegments

theorem dropNumbered_sublist (fuel : Nat) (entries : List NumberedSegment) :
    (dropNumbered maxChars fuel entries).Sublist entries := by
  induction fuel generalizing entries with
  | zero => exact List.Sublist.refl _
  | succ fuel ih =>
    rw [dropNumbered]
    split
    · exact (ih _).trans (List.eraseIdx_sublist _ _)
    · exact List.Sublist.refl _

theorem victim_cons (first : CleanTranscriptSegment) (rest : List CleanTranscriptSegment) :
    victim (first :: rest) = (rest.findIdx? (·.isModel)).getD 0 + 1 := by
  rw [victim, List.drop_one, List.tail_cons]
  cases rest.findIdx? (·.isModel) <;> rfl

/-- The head is no victim. -/
theorem dropNumbered_cons (fuel : Nat) (first : NumberedSegment) (rest : List NumberedSegment) :
    ∃ rest', dropNumbered maxChars fuel (first :: rest) = first :: rest' := by
  induction fuel generalizing rest with
  | zero => exact ⟨rest, rfl⟩
  | succ fuel ih =>
    rw [dropNumbered]
    split
    · rw [List.map_cons, victim_cons, List.eraseIdx_cons_succ]
      exact ih _
    · exact ⟨rest, rfl⟩

def endsNeed (first : CleanTranscriptSegment) (between : List CleanTranscriptSegment) (last : CleanTranscriptSegment) :
    Nat :=
  first.text.length + (if last.isModel then charsHeld (between.filter (! ·.isModel)) else 0) + last.text.length

theorem charsHeld_filter_le (p : CleanTranscriptSegment → Bool) (segments : List CleanTranscriptSegment) :
    charsHeld (segments.filter p) ≤ charsHeld segments :=
  List.Sublist.sum_le_sum (List.filter_sublist.map _) fun _ _ => Nat.zero_le _

theorem findIdx?_first {a b : List CleanTranscriptSegment} {model : CleanTranscriptSegment}
    (ha : ∀ segment ∈ a, segment.isModel = false) (hmodel : model.isModel = true) :
    (a ++ model :: b).findIdx? (·.isModel) = some a.length := by
  induction a with
  | nil => rw [List.nil_append, List.findIdx?_cons, hmodel, if_pos rfl, List.length_nil]
  | cons segment a ih =>
    rw [List.cons_append, List.findIdx?_cons, ha segment List.mem_cons_self, if_neg Bool.false_ne_true,
      ih fun s hs => ha s (List.mem_cons_of_mem _ hs)]
    rfl

theorem eraseIdx_length_append {α : Type} (a b : List α) (x : α) : (a ++ x :: b).eraseIdx a.length = a ++ b := by
  rw [List.eraseIdx_append_of_length_le (Nat.le_refl _), Nat.sub_self, List.eraseIdx_cons_zero]

theorem eraseIdx_victim (first last : NumberedSegment) (between : List NumberedSegment) :
    (∃ a e b, between = a ++ e :: b ∧
      (first :: (between ++ [last])).eraseIdx (victim ((first :: (between ++ [last])).map Prod.snd)) =
        first :: (a ++ b ++ [last]) ∧
      endsNeed first.2 ((a ++ b).map Prod.snd) last.2 = endsNeed first.2 (between.map Prod.snd) last.2) ∨
    ((first :: (between ++ [last])).eraseIdx (victim ((first :: (between ++ [last])).map Prod.snd)) =
        first :: between ∧
      endsNeed first.2 (between.map Prod.snd) last.2 =
        first.2.text.length + charsHeld (between.map Prod.snd) + last.2.text.length) := by
  rw [List.map_cons, victim_cons, List.eraseIdx_cons_succ]
  cases hfind : between.find? (·.2.isModel) with
  | some model =>
    left
    obtain ⟨hmodel, a, b, rfl, ha⟩ := List.find?_eq_some_iff_append.mp hfind
    have husers : ∀ segment ∈ a.map Prod.snd, segment.isModel = false := by
      intro segment hmem
      obtain ⟨e, he, rfl⟩ := List.mem_map.mp hmem
      simpa using ha e he
    refine ⟨a, model, b, rfl, ?_, by simp [endsNeed, hmodel]⟩
    rw [List.append_assoc, List.cons_append, List.map_append, List.map_cons, findIdx?_first husers hmodel,
      List.length_map, Option.getD_some, eraseIdx_length_append, List.append_assoc]
  | none =>
    have husers : ∀ segment ∈ between.map Prod.snd, segment.isModel = false := by
      intro segment hmem
      obtain ⟨e, he, rfl⟩ := List.mem_map.mp hmem
      simpa using List.find?_eq_none.mp hfind e he
    by_cases hmodel : last.2.isModel = true
    · right
      have hall : (between.map Prod.snd).filter (! ·.isModel) = between.map Prod.snd :=
        List.filter_eq_self.mpr fun segment hmem => by rw [husers segment hmem]; rfl
      rw [List.map_append, List.map_singleton, findIdx?_first husers hmodel, List.length_map, Option.getD_some,
        eraseIdx_length_append, List.append_nil, endsNeed, if_pos hmodel, hall]
      exact ⟨rfl, rfl⟩
    · have hnone : ((between ++ [last]).map Prod.snd).findIdx? (·.isModel) = none := by
        rw [List.findIdx?_eq_none_iff, List.map_append, List.forall_mem_append]
        exact ⟨husers, by simpa using hmodel⟩
      rw [hnone, Option.getD_none]
      cases between with
      | nil => exact .inr ⟨rfl, by simp [endsNeed, hmodel]⟩
      | cons user between => exact .inl ⟨[], user, between, rfl, rfl, by simp [endsNeed, hmodel]⟩

theorem mem_dropNumbered_last_iff {first last : NumberedSegment} {between : List NumberedSegment} {fuel : Nat}
    (hlast : last.1 ∉ (first :: between).map Prod.fst) (hfuel : between.length < fuel) :
    last.1 ∈ (dropNumbered maxChars fuel (first :: (between ++ [last]))).map Prod.fst ↔
      endsNeed first.2 (between.map Prod.snd) last.2 ≤ maxChars := by
  induction fuel generalizing between with
  | zero => exact absurd hfuel (Nat.not_lt_zero _)
  | succ fuel ih =>
    have hheld : charsHeld ((first :: (between ++ [last])).map Prod.snd) =
        first.2.text.length + charsHeld (between.map Prod.snd) + last.2.text.length := by
      rw [List.map_cons, List.map_append, charsHeld_cons, charsHeld_append]
      simp [Nat.add_assoc]
    have hlong : 1 < (first :: (between ++ [last])).length := by
      rw [List.length_cons, List.length_append, List.length_singleton]
      omega
    rw [dropNumbered, hheld]
    by_cases hover : maxChars < first.2.text.length + charsHeld (between.map Prod.snd) + last.2.text.length
    · rw [if_pos ⟨hover, hlong⟩]
      rcases eraseIdx_victim first last between with ⟨a, e, b, rfl, herased, hneed⟩ | ⟨herased, hneed⟩
      · rw [herased, ← hneed]
        refine ih (fun hmem => hlast ?_) ?_
        · simp only [List.map_cons, List.map_append, List.mem_cons, List.mem_append] at hmem ⊢
          tauto
        · simp only [List.length_append, List.length_cons] at hfuel ⊢
          omega
      · rw [herased, hneed]
        refine iff_of_false (fun hmem => hlast ?_) (Nat.not_le.mpr hover)
        exact ((dropNumbered_sublist fuel (first :: between)).map _).subset hmem
    · rw [if_neg fun h => hover h.1]
      refine iff_of_true (by simp) ?_
      have hle := charsHeld_filter_le (! ·.isModel) (between.map Prod.snd)
      rw [endsNeed]
      split <;> omega

/-! ## What holds of the numbers -/

/-- The buffer is in balance, the numbers are those of the segments in the order in which they were opened,
and the first segment ever opened stands first. -/
structure Tracked.Sound (t : Tracked) : Prop where
  balanced : ∃ made pushes, Balanced made pushes t.buffer
  lengths : t.numbers.length = t.buffer.segments.length
  ordered : t.numbers.Pairwise (· < ·)
  below : ∀ n ∈ t.numbers, n < t.opened
  head : (t.numbers = [] ∧ t.opened = 0) ∨ t.numbers.head? = some 0

namespace Tracked.Sound

variable {t : Tracked} {op : Op}

theorem entries_segments (h : t.Sound) : t.entries.map Prod.snd = t.buffer.segments :=
  List.map_snd_zip (Nat.le_of_eq h.lengths.symm)

theorem entries_numbers (h : t.Sound) : t.entries.map Prod.fst = t.numbers :=
  List.map_fst_zip (Nat.le_of_eq h.lengths)

theorem balanced_append {buffer : CleanTranscriptBuffer} (h : ∃ made pushes, Balanced made pushes buffer)
    (hpush : op.isPush = true) : ∃ made pushes, Balanced made pushes (CleanBuffer.append buffer op) := by
  obtain ⟨made, pushes, h⟩ := h
  cases op with
  | pushModel text time => exact ⟨_, _, h.appendModel (by simpa [Op.isPush] using hpush) time⟩
  | pushUser text steerId time => exact ⟨_, _, h.appendUser (by simpa [Op.isPush] using hpush) steerId time⟩
  | markConsumed steerId => cases hpush

theorem append_length (segments : List CleanTranscriptSegment) (buffer : CleanTranscriptBuffer)
    (hsegments : buffer.segments = segments) (hpush : op.isPush = true) :
    (CleanBuffer.append buffer op).segments.length =
      if extendsLast segments op then segments.length else segments.length + 1 := by
  subst hsegments
  cases op with
  | pushModel text time =>
    rw [CleanBuffer.append, appendModel, extendsLast]
    cases hlast : buffer.segments.getLast? with
    | none => simp
    | some last =>
      obtain ⟨front, hfront⟩ := List.getLast?_eq_some_iff.mp hlast
      cases last with
      | model last lastTime chunks => simp [hfront, CleanTranscriptSegment.isModel]
      | user last lastTime steerId consumed => simp [CleanTranscriptSegment.isModel]
  | pushUser text steerId time => simp [CleanBuffer.append, appendUser, extendsLast]
  | markConsumed steerId => cases hpush

theorem append (h : t.Sound) (hpush : op.isPush = true) : (t.append op).Sound := by
  have hbalanced := balanced_append h.balanced hpush
  have hlength := append_length t.buffer.segments t.buffer rfl hpush
  rw [Tracked.append]
  split
  · next hextends =>
    rw [if_pos hextends] at hlength
    exact ⟨hbalanced, h.lengths.trans hlength.symm, h.ordered, h.below, h.head⟩
  · next hopens =>
    rw [if_neg hopens] at hlength
    refine ⟨hbalanced, ?_, ?_, ?_, .inr ?_⟩
    · rw [List.length_append, List.length_singleton, h.lengths, hlength]
    · rw [List.pairwise_append]
      refine ⟨h.ordered, List.pairwise_singleton _ _, fun a ha b hb => ?_⟩
      rw [List.mem_singleton.mp hb]
      exact h.below a ha
    · rw [List.forall_mem_append, List.forall_mem_singleton]
      exact ⟨fun n hn => Nat.lt_succ_of_lt (h.below n hn), Nat.lt_succ_self _⟩
    · rcases h.head with ⟨hnil, hzero⟩ | hhead
      · rw [hnil, hzero, List.nil_append, List.head?_cons]
      · rw [List.head?_append, hhead, Option.some_or]

/-- The loop keeps the head of the numbers. -/
theorem dropNumbered_head (h : t.Sound) (maxChars fuel : Nat) :
    ((dropNumbered maxChars fuel t.entries).map Prod.fst).head? = t.numbers.head? := by
  rw [← h.entries_numbers]
  cases t.entries with
  | nil => cases fuel <;> rfl
  | cons first rest =>
    obtain ⟨rest', hrest⟩ := @dropNumbered_cons maxChars fuel first rest
    rw [hrest]
    rfl

theorem enforce (h : t.Sound) (maxChars : Nat) :
    Tracked.Sound { t with
      buffer := enforceBudget maxChars t.buffer
      numbers := (dropNumbered maxChars t.buffer.segments.length t.entries).map Prod.fst } := by
  obtain ⟨made, pushes, hbalanced⟩ := h.balanced
  have hsublist : ((dropNumbered maxChars t.buffer.segments.length t.entries).map Prod.fst).Sublist t.numbers := by
    rw [← h.entries_numbers]
    exact (dropNumbered_sublist _ _).map _
  refine ⟨⟨made, pushes, (hbalanced.enforceBudget maxChars).1⟩, ?_, h.ordered.sublist hsublist,
    fun n hn => h.below n (hsublist.subset hn), ?_⟩
  · have hfitting := hbalanced.dropSegments maxChars t.buffer.segments.length
    have hsegments := @dropNumbered_segments maxChars _ _ h.entries_segments.symm hbalanced.chars_eq
      t.buffer.segments.length
    show _ = (dropChunks _ (dropSegments maxChars t.buffer.segments.length t.buffer)).segments.length
    rw [(hfitting.dropChunks _).2.2, hsegments, List.length_map, List.length_map]
  · rcases h.head with ⟨hnil, hzero⟩ | hhead
    · exact .inl ⟨List.sublist_nil.mp (hnil ▸ hsublist), hzero⟩
    · exact .inr ((h.dropNumbered_head maxChars _).trans hhead)

theorem exec (h : t.Sound) (maxChars : Nat) (op : Op) : (t.exec maxChars op).Sound := by
  rw [Tracked.exec]
  split
  · next hpush => exact (h.append hpush).enforce maxChars
  · next hignored =>
    obtain ⟨made, pushes, hbalanced⟩ := h.balanced
    cases op with
    | pushModel text time =>
      have hnil : text = [] := by simpa [Op.isPush] using hignored
      rw [CleanBuffer.exec, pushModel, if_pos hnil]
      exact h
    | pushUser text steerId time =>
      have hnil : text = [] := by simpa [Op.isPush] using hignored
      rw [CleanBuffer.exec, pushUser, if_pos hnil]
      exact h
    | markConsumed steerId =>
      refine ⟨⟨made, pushes, hbalanced.markConsumed steerId⟩, ?_, h.ordered, h.below, h.head⟩
      rw [h.lengths, CleanBuffer.exec, markConsumed]
      split
      · rfl
      · exact (List.length_map _).symm

end Tracked.Sound

/-- The numbers stand beside the buffer and change nothing in it. -/
theorem Tracked.exec_buffer (maxChars : Nat) (t : Tracked) (op : Op) :
    (t.exec maxChars op).buffer = CleanBuffer.exec maxChars t.buffer op := by
  rw [Tracked.exec]
  split
  · next hpush =>
    show enforceBudget maxChars (t.append op).buffer = _
    rw [Tracked.append_buffer]
    cases op with
    | pushModel text time => exact (if_neg (by simpa [Op.isPush] using hpush)).symm
    | pushUser text steerId time => exact (if_neg (by simpa [Op.isPush] using hpush)).symm
    | markConsumed steerId => cases hpush
  · rfl

theorem track_concat (maxChars : Option Nat) (ops : List Op) (op : Op) :
    track maxChars (ops ++ [op]) = (track maxChars ops).exec (maxChars.getD CLEAN_TRANSCRIPT_MAX_CHARS) op := by
  rw [track, List.foldl_append]
  rfl

theorem track_buffer (maxChars : Option Nat) (ops : List Op) : (track maxChars ops).buffer = run maxChars ops := by
  induction ops using List.reverseRecOn with
  | nil => rfl
  | append_singleton ops op ih =>
    rw [track_concat, Tracked.exec_buffer, ih, run, run, List.foldl_append]
    rfl

theorem track_sound (maxChars : Option Nat) (ops : List Op) : (track maxChars ops).Sound := by
  induction ops using List.reverseRecOn with
  | nil =>
    exact ⟨⟨_, _, (run_balanced maxChars []).1⟩, rfl, List.Pairwise.nil, List.forall_mem_nil _, .inl ⟨rfl, rfl⟩⟩
  | append_singleton ops op ih =>
    rw [track_concat]
    exact ih.exec _ op

/-! ## When the ends stay -/

theorem append_ends {buffer : CleanTranscriptBuffer} {op : Op} (hpush : op.isPush = true) :
    ((append buffer op).segments.length = 1 ∧ EndsFit maxChars buffer.segments op) ∨
      ∃ first between last, (append buffer op).segments = first :: (between ++ [last]) ∧
        (EndsFit maxChars buffer.segments op ↔ endsNeed first between last ≤ maxChars) := by
  cases op with
  | pushModel text time =>
    rw [append, appendModel]
    cases hsegments : buffer.segments with
    | nil => exact .inl ⟨rfl, trivial⟩
    | cons first rest =>
      rcases List.eq_nil_or_concat rest with rfl | ⟨front, last, rfl⟩
      · cases first with
        | model firstText firstTime chunks => exact .inl ⟨rfl, .inl ⟨rfl, rfl⟩⟩
        | user firstText firstTime steerId consumed =>
          refine .inr ⟨_, [], _, rfl, ?_⟩
          simp [EndsFit, endsNeed, latestText, CleanTranscriptSegment.isModel, CleanTranscriptSegment.text]
      · have hlast : (first :: (front ++ [last])).getLast? = some last := by
          rw [← List.cons_append, List.getLast?_concat]
        have hdrop : (first :: (front ++ [last])).dropLast = first :: front := by
          rw [← List.cons_append, List.dropLast_concat]
        rw [List.concat_eq_append, hlast]
        cases last with
        | model lastText lastTime chunks =>
          refine .inr ⟨first, front, _, by rw [hdrop]; rfl, ?_⟩
          simp [EndsFit, endsNeed, latestText, CleanTranscriptSegment.isModel, CleanTranscriptSegment.text]
        | user lastText lastTime steerId consumed =>
          refine .inr ⟨first, front ++ [.user lastText lastTime steerId consumed], _, rfl, ?_⟩
          simp [EndsFit, endsNeed, latestText, CleanTranscriptSegment.isModel, CleanTranscriptSegment.text]
  | pushUser text steerId time =>
    rw [append, appendUser]
    cases hsegments : buffer.segments with
    | nil => exact .inl ⟨rfl, trivial⟩
    | cons first rest =>
      refine .inr ⟨first, rest, _, rfl, ?_⟩
      simp [EndsFit, endsNeed, CleanTranscriptSegment.isModel, CleanTranscriptSegment.text]
  | markConsumed steerId => cases hpush

theorem dropNumbered_singleton (fuel : Nat) (entry : NumberedSegment) : dropNumbered maxChars fuel [entry] = [entry] := by
  obtain ⟨rest, hrest⟩ := @dropNumbered_cons maxChars fuel entry []
  have hlength := (@dropNumbered_sublist maxChars fuel [entry]).length_le
  rw [hrest] at hlength ⊢
  simpa using hlength

section Push

variable {t : Tracked} {op : Op} (h : t.Sound) (hpush : op.isPush = true)

include h hpush

theorem latest_kept_iff :
    (∀ n ∈ (t.append op).numbers.getLast?, n ∈ (t.exec maxChars op).numbers) ↔
      EndsFit maxChars t.buffer.segments op := by
  have hpushed := h.append hpush
  have hsegments := hpushed.entries_segments
  have hnumbers := hpushed.entries_numbers
  have hexec : (t.exec maxChars op).numbers =
      (dropNumbered maxChars (t.append op).buffer.segments.length (t.append op).entries).map Prod.fst := by
    rw [Tracked.exec, if_pos hpush]
  rw [hexec, ← hnumbers]
  rw [t.append_buffer] at hsegments ⊢
  rcases @append_ends maxChars t.buffer _ hpush with
    ⟨hone, hfit⟩ | ⟨first, between, last, hsplit, hfit⟩
  · obtain ⟨entry, hentry⟩ : ∃ entry, (t.append op).entries = [entry] := by
      rw [← List.length_eq_one_iff, ← hone, ← hsegments, List.length_map]
    rw [hentry, dropNumbered_singleton]
    refine iff_of_true (fun n hn => ?_) hfit
    simpa using hn.symm
  · rw [hsplit] at hsegments
    obtain ⟨entry, entries, hentries, rfl, hrest⟩ := List.map_eq_cons_iff.mp hsegments
    obtain ⟨middle, end', rfl, rfl, hend⟩ := List.map_eq_append_iff.mp hrest
    obtain ⟨final, rfl, rfl⟩ := List.map_eq_singleton_iff.mp hend
    rw [hfit, hsplit, hentries, ← @mem_dropNumbered_last_iff maxChars _ _ _ (entry.2 :: (middle.map Prod.snd ++ [final.2])).length]
    · rw [List.map_cons, List.map_append, List.map_singleton, ← List.cons_append, List.getLast?_concat]
      simp
    · -- the numbers increase, so the last is none of the others
      have hordered := hpushed.ordered
      rw [← hnumbers, hentries, List.map_cons, List.map_append, List.map_singleton, ← List.cons_append,
        List.pairwise_append] at hordered
      exact fun hmem => Nat.lt_irrefl _ (hordered.2.2 _ hmem _ List.mem_cons_self)
    · rw [List.length_cons, List.length_append, List.length_map]
      omega

/-- **A push keeps both ends just when the budget holds them.** -/
theorem endsKept_iff : EndsKept maxChars t op ↔ EndsFit maxChars t.buffer.segments op := by
  refine ⟨fun hkept => (latest_kept_iff h hpush).mp hkept.latest, fun hfit => ?_⟩
  have hlatest := (latest_kept_iff h hpush).mpr hfit
  have hpushed := h.append hpush
  have hne : (t.append op).numbers ≠ [] := by
    intro hnil
    have hlength := hpushed.lengths
    rw [hnil, t.append_buffer, Tracked.Sound.append_length _ _ rfl hpush] at hlength
    split at hlength
    · next hextends =>
      -- what the push extends is a segment
      rw [List.length_eq_zero_iff.mp hlength.symm] at hextends
      cases op <;> cases hextends
    · cases hlength
  have hhead : (t.exec maxChars op).numbers.head? = some 0 := by
    rw [Tracked.exec, if_pos hpush, hpushed.dropNumbered_head]
    exact hpushed.head.resolve_left fun hnil => hne hnil.1
  have hfirst : 0 ∈ (t.exec maxChars op).numbers := List.mem_of_mem_head? hhead
  refine ⟨hfirst, hlatest, fun n hn hgone => ⟨Nat.pos_of_ne_zero ?_, fun last hlast => ?_⟩⟩
  · rintro rfl
    exact hgone hfirst
  · obtain ⟨front, hfront⟩ := List.getLast?_eq_some_iff.mp hlast
    have hordered := hpushed.ordered
    rw [hfront, List.pairwise_append] at hordered
    rw [hfront, List.mem_append, List.mem_singleton] at hn
    rcases hn with hn | rfl
    · exact hordered.2.2 n hn last List.mem_cons_self
    · exact absurd (hlatest n hlast) hgone

end Push

/-- **Over a run, every push keeps the first segment ever pushed and its own just when the budget holds them
at each push.** -/
theorem ends_kept_iff (maxChars : Option Nat) (ops : List Op) :
    (∀ before op, before ++ [op] <+: ops → op.isPush = true →
      EndsKept (maxChars.getD CLEAN_TRANSCRIPT_MAX_CHARS) (track maxChars before) op) ↔
    ∀ before op, before ++ [op] <+: ops → op.isPush = true →
      EndsFit (maxChars.getD CLEAN_TRANSCRIPT_MAX_CHARS) (run maxChars before).segments op := by
  refine forall_congr' fun before => forall_congr' fun op => imp_congr_right fun _ => forall_congr' fun hpush => ?_
  rw [← track_buffer]
  exact endsKept_iff (track_sound maxChars before) hpush

/-- Two characters each and a budget of three: the model segment goes as it is pushed. -/
theorem latest_segment_evicted :
    ¬ ∀ (maxChars : Option Nat) (ops before : List Op) (op : Op), before ++ [op] <+: ops → op.isPush = true →
      EndsKept (maxChars.getD CLEAN_TRANSCRIPT_MAX_CHARS) (track maxChars before) op := by
  intro hall
  have hkept := (hall (some 3) _ [.pushUser (units "ab") [] 0] (.pushModel (units "cd") 1) (List.prefix_refl _)
    (by decide)).latest 1 (by decide)
  revert hkept
  decide

end Haive.CleanBuffer

import Haive.Lib.TextSpans
import Haive.Lib.Units

/-!
# Chunks of a section

`chunkSection` of `_rag-chunkers.ts`: a section is cut into chunks that overlap. A cut moves to the last
paragraph, line or sentence of the window, and off the middle of a CRLF; the next chunk starts some units
before it. `chunkSection_covers`: whatever the sizes, the chunks are the slices of a chain of spans that
covers the trimmed content.
-/

namespace Haive.Rag

open Lib.Spans Lib.Units

abbrev Text := List UInt16

structure RagSection where
  sectionId : Text
  content : Text
  breadcrumb : List Text

structure RagChunk (H : Type) where
  sectionId : Text
  chunkIndex : Nat
  content : Text
  chunkHash : H

structure ChunkOptions where
  header : Option Text := none
  maxSize : Option Nat := none
  overlap : Option Nat := none

def DEFAULT_MAX_SIZE : Nat := 2000
def DEFAULT_OVERLAP : Nat := 200

/-- `text.slice(start, stop)`. -/
def slice (text : Text) (start stop : Nat) : Text := (text.take stop).drop start

/-! ## Breaks -/

/-- The matches of `\r\n|[\r\n\u2028\u2029]` from `pos` on. -/
def lineBreaks (pos : Nat) : Text → List Span
  | [] => []
  | [u] => if isLineEnd u then [(pos, pos + 1)] else []
  | u :: v :: rest =>
    if u = 13 ∧ v = 10 then (pos, pos + 2) :: lineBreaks (pos + 2) rest
    else if isLineEnd u then (pos, pos + 1) :: lineBreaks (pos + 1) (v :: rest)
    else lineBreaks (pos + 1) (v :: rest)

/-- Line breaks that touch, two at a time. -/
def paragraphBreaks : List Span → List Span
  | a :: b :: rest => if a.2 = b.1 then (a.1, b.2) :: paragraphBreaks (b :: rest) else paragraphBreaks (b :: rest)
  | _ => []

def searchBreak (breaks : List Span) (limit lo hi : Nat) : Nat :=
  if lo < hi then
    let mid := (lo + hi) / 2
    if (breaks[mid]?.map Prod.fst).any (· ≤ limit) then searchBreak breaks limit (mid + 1) hi
    else searchBreak breaks limit lo mid
  else lo
termination_by hi - lo

def lastBreak (breaks : List Span) (limit : Nat) : Option Span :=
  match searchBreak breaks limit 0 breaks.length with
  | 0 => none
  | lo + 1 => breaks[lo]?

/-- `text.lastIndexOf('. ', limit)`. -/
def lastSentence (text : Text) : Nat → Option Nat
  | 0 => if (text.take 2) = [0x2e, 0x20] then some 0 else none
  | limit + 1 => if (text.drop (limit + 1)).take 2 = [0x2e, 0x20] then some (limit + 1) else lastSentence text limit

/-! ## Cutting -/

/-- The position stands between a carriage return and its line feed. -/
def splitsReturn (text : Text) (i : Nat) : Bool := text[i - 1]? = some 13 && text[i]? = some 10

section

variable (text : Text) (maxSize overlap : Nat)

def preferredCut (start stop : Nat) : Nat :=
  let breaks := lineBreaks 0 text
  match (lastBreak (paragraphBreaks breaks) stop).filter (2 * start + maxSize < 2 * ·.1) with
  | some paragraph => paragraph.2
  | none =>
    match (lastBreak breaks stop).filter (2 * start + maxSize < 2 * ·.1) with
    | some line => line.2
    | none =>
      match (lastSentence text stop).filter (2 * start + maxSize < 2 * ·) with
      | some sentBreak => sentBreak + 2
      | none => stop

def splitAt (start : Nat) : Nat :=
  let stop := min text.length (start + maxSize)
  if stop < text.length then
    let cut := preferredCut text maxSize start stop
    if splitsReturn text cut then cut - 1 else cut
  else stop

def nextStart (start cut : Nat) : Nat :=
  let next := max (cut - overlap) (start + 1)
  if splitsReturn text next then next + 1 else next

theorem lt_nextStart (start cut : Nat) : start < nextStart text overlap start cut := by
  rw [nextStart]
  split <;> omega

/-- The loop, as the spans that it slices. -/
def chunkSpans (start : Nat) : List Span :=
  if start < text.length then
    let cut := splitAt text maxSize start
    if text.length ≤ cut then [(start, cut)]
    else (start, cut) :: chunkSpans (nextStart text overlap start cut)
  else []
termination_by text.length - start
decreasing_by
  have hlt := lt_nextStart text overlap start (splitAt text maxSize start)
  omega

end

/-- `header`. -/
def headerText (opts : ChunkOptions) : Text :=
  match opts.header with
  | none => []
  | some header => if header = [] then [] else 0x5b :: (header ++ [0x5d, 10, 10])

def chunkSection {H : Type} (computeChunkHash : Text → H) (section' : RagSection) (opts : ChunkOptions) :
    List (RagChunk H) :=
  let maxSize := opts.maxSize.getD DEFAULT_MAX_SIZE
  let overlap := opts.overlap.getD DEFAULT_OVERLAP
  let trimmed := trim section'.content
  let emit := fun (i : Nat) (span : Span) =>
    let content := headerText opts ++ slice trimmed span.1 span.2
    (⟨section'.sectionId, i, content, computeChunkHash content⟩ : RagChunk H)
  if trimmed = [] then []
  else if trimmed.length ≤ maxSize then [emit 0 (0, trimmed.length)]
  else (chunkSpans trimmed maxSize overlap 0).mapIdx emit

/-! ## The breaks that are found -/

theorem lineBreaks_spec {pos : Nat} {text : Text} {span : Span} (h : span ∈ lineBreaks pos text) :
    span.1 < span.2 ∧ span.2 ≤ span.1 + 2 ∧ span.2 ≤ pos + text.length := by
  fun_induction lineBreaks pos text with
  | case1 => cases h
  | case2 pos u hend =>
    rw [List.mem_singleton.mp h]
    exact ⟨Nat.lt_succ_self _, Nat.le_succ _, Nat.le_refl _⟩
  | case3 => cases h
  | case4 pos u v rest hreturn ih =>
    rw [List.length_cons, List.length_cons]
    rcases List.mem_cons.mp h with rfl | h
    · exact ⟨by omega, by omega, by omega⟩
    · obtain ⟨hlt, htwo, hle⟩ := ih h
      exact ⟨hlt, htwo, by omega⟩
  | case5 pos u v rest hreturn hend ih =>
    simp only [List.length_cons] at ih ⊢
    rcases List.mem_cons.mp h with rfl | h
    · exact ⟨by omega, by omega, by omega⟩
    · obtain ⟨hlt, htwo, hle⟩ := ih h
      exact ⟨hlt, htwo, by omega⟩
  | case6 pos u v rest hreturn hend ih =>
    simp only [List.length_cons] at ih ⊢
    obtain ⟨hlt, htwo, hle⟩ := ih h
    exact ⟨hlt, htwo, by omega⟩

theorem mem_paragraphBreaks {breaks : List Span} {span : Span} (h : span ∈ paragraphBreaks breaks) :
    ∃ a ∈ breaks, ∃ b ∈ breaks, a.2 = b.1 ∧ span = (a.1, b.2) := by
  fun_induction paragraphBreaks breaks with
  | case1 a b rest htouch ih =>
    rcases List.mem_cons.mp h with rfl | h
    · exact ⟨a, List.mem_cons_self, b, List.mem_cons_of_mem _ List.mem_cons_self, htouch, rfl⟩
    · obtain ⟨c, hc, d, hd, hcd⟩ := ih h
      exact ⟨c, List.mem_cons_of_mem _ hc, d, List.mem_cons_of_mem _ hd, hcd⟩
  | case2 a b rest _ ih =>
    obtain ⟨c, hc, d, hd, hcd⟩ := ih h
    exact ⟨c, List.mem_cons_of_mem _ hc, d, List.mem_cons_of_mem _ hd, hcd⟩
  | case3 => cases h

/-- Whatever the order of the breaks, the one in front of where the search ends does not start behind `limit`. -/
theorem searchBreak_spec {breaks : List Span} {limit lo hi : Nat}
    (hlo : lo = 0 ∨ ∃ span, breaks[lo - 1]? = some span ∧ span.1 ≤ limit) :
    searchBreak breaks limit lo hi = 0 ∨
      ∃ span, breaks[searchBreak breaks limit lo hi - 1]? = some span ∧ span.1 ≤ limit := by
  fun_induction searchBreak breaks limit lo hi with
  | case1 lo hi hlt mid hfits ih =>
    refine ih (.inr ?_)
    rw [Nat.add_sub_cancel]
    cases hget : breaks[mid]? with
    | none =>
      rw [hget] at hfits
      cases hfits
    | some span =>
      rw [hget] at hfits
      exact ⟨span, rfl, of_decide_eq_true hfits⟩
  | case2 lo hi hlt mid hfits ih => exact ih hlo
  | case3 lo hi hlt => exact hlo

theorem lastBreak_spec {breaks : List Span} {limit : Nat} {span : Span} (h : lastBreak breaks limit = some span) :
    span ∈ breaks ∧ span.1 ≤ limit := by
  have hsearch := @searchBreak_spec breaks limit 0 breaks.length (.inl rfl)
  rw [lastBreak] at h
  split at h
  · cases h
  · next lo hlo =>
    rw [hlo, Nat.succ_sub_one] at hsearch
    obtain ⟨span', hspan', hle⟩ := hsearch.resolve_left (Nat.succ_ne_zero lo)
    cases h.symm.trans hspan'
    exact ⟨List.mem_of_getElem? h, hle⟩

theorem lastSentence_spec {text : Text} {limit i : Nat} (h : lastSentence text limit = some i) :
    i ≤ limit ∧ i + 2 ≤ text.length := by
  have hfits : ∀ i, (text.drop i).take 2 = [0x2e, 0x20] → i + 2 ≤ text.length := by
    intro i hi
    have hlen := congrArg List.length hi
    rw [List.length_take, List.length_drop, List.length_cons, List.length_singleton] at hlen
    omega
  induction limit with
  | zero =>
    rw [lastSentence] at h
    split at h
    · next hdot =>
      cases h
      exact ⟨Nat.le_refl _, hfits 0 hdot⟩
    · cases h
  | succ limit ih =>
    rw [lastSentence] at h
    split at h
    · next hdot =>
      cases h
      exact ⟨Nat.le_refl _, hfits _ hdot⟩
    · exact ⟨Nat.le_succ_of_le (ih h).1, (ih h).2⟩

/-! ## Where a chunk ends and the next one starts -/

variable {text : Text} {maxSize overlap : Nat}

theorem preferredCut_spec (hsize : 2 ≤ maxSize) {start stop : Nat} (hstop : stop = start + maxSize)
    (hlt : stop < text.length) :
    start + 2 ≤ preferredCut text maxSize start stop ∧ preferredCut text maxSize start stop ≤ text.length ∧
      preferredCut text maxSize start stop ≤ stop + 4 := by
  rw [preferredCut]
  split
  · next paragraph hparagraph =>
    obtain ⟨hbreak, hlate⟩ := Option.filter_eq_some_iff.mp hparagraph
    obtain ⟨hmem, hle⟩ := lastBreak_spec hbreak
    obtain ⟨a, ha, b, hb, htouch, rfl⟩ := mem_paragraphBreaks hmem
    obtain ⟨hlt, htwo, -⟩ := lineBreaks_spec ha
    obtain ⟨hlt', htwo', hend⟩ := lineBreaks_spec hb
    have hlate := of_decide_eq_true hlate
    dsimp only at hlate hle ⊢
    omega
  · split
    · next line hline =>
      obtain ⟨hbreak, hlate⟩ := Option.filter_eq_some_iff.mp hline
      obtain ⟨hmem, hle⟩ := lastBreak_spec hbreak
      obtain ⟨hlt', htwo, hend⟩ := lineBreaks_spec hmem
      have hlate := of_decide_eq_true hlate
      omega
    · split
      · next sentBreak hsentence =>
        obtain ⟨hbreak, hlate⟩ := Option.filter_eq_some_iff.mp hsentence
        obtain ⟨hle, hend⟩ := lastSentence_spec hbreak
        have hlate := of_decide_eq_true hlate
        omega
      · omega

theorem splitsReturn_iff {i : Nat} : splitsReturn text i = true ↔ text[i - 1]? = some 13 ∧ text[i]? = some 10 := by
  rw [splitsReturn, Bool.and_eq_true, decide_eq_true_eq, decide_eq_true_eq]

theorem splitAt_spec (hsize : 2 ≤ maxSize) {start : Nat} (hstart : start < text.length) :
    start < splitAt text maxSize start ∧ splitAt text maxSize start ≤ text.length ∧
      splitAt text maxSize start ≤ start + maxSize + 4 ∧ splitsReturn text (splitAt text maxSize start) = false := by
  rw [splitAt]
  dsimp only
  split
  · next hlt =>
    have hstop : min text.length (start + maxSize) = start + maxSize := by omega
    rw [hstop] at hlt ⊢
    obtain ⟨hlow, hend, hfour⟩ := preferredCut_spec hsize rfl hlt
    split
    · next hreturn =>
      refine ⟨by omega, by omega, by omega, Bool.eq_false_iff.mpr fun hagain => ?_⟩
      -- what stands behind the cut is the carriage return, which is no line feed
      have hcr := (splitsReturn_iff.mp hreturn).1
      rw [(splitsReturn_iff.mp hagain).2] at hcr
      exact absurd hcr (by decide)
    · next hreturn => exact ⟨by omega, hend, hfour, Bool.eq_false_iff.mpr hreturn⟩
  · refine ⟨by omega, by omega, by omega, Bool.eq_false_iff.mpr fun hreturn => ?_⟩
    have hbehind := (splitsReturn_iff.mp hreturn).2
    rw [List.getElem?_eq_none (by omega)] at hbehind
    cases hbehind

theorem nextStart_spec {start cut : Nat} (hcut : start < cut) (hreturn : splitsReturn text cut = false) :
    nextStart text overlap start cut ≤ cut ∧ splitsReturn text (nextStart text overlap start cut) = false := by
  rw [nextStart]
  split
  · next hsplits =>
    have hne : max (cut - overlap) (start + 1) ≠ cut := by
      intro heq
      rw [heq, hreturn] at hsplits
      cases hsplits
    refine ⟨by omega, Bool.eq_false_iff.mpr fun hagain => ?_⟩
    have hlf := (splitsReturn_iff.mp hsplits).2
    rw [← Nat.add_sub_cancel (n := max (cut - overlap) (start + 1)) (m := 1), (splitsReturn_iff.mp hagain).1] at hlf
    exact absurd hlf (by decide)
  · next hsplits => exact ⟨by omega, Bool.eq_false_iff.mpr hsplits⟩

/-! ## The whole section -/

/-- The spans go from `start` to the end of the text: each starts behind the start of the one before and no
later than its end, none is longer than the window and a break of two CRLFs, and none cuts a CRLF. -/
structure Covers (text : Text) (maxSize start : Nat) (spans : List Span) : Prop where
  first : spans.head?.map Prod.fst = some start
  last : spans.getLast?.map Prod.snd = some text.length
  chain : spans.IsChain fun a b => a.1 < b.1 ∧ b.1 ≤ a.2
  each : ∀ span ∈ spans, span.1 < span.2 ∧ span.2 ≤ text.length ∧ span.2 - span.1 ≤ maxSize + 4 ∧
    splitsReturn text span.1 = false ∧ splitsReturn text span.2 = false

theorem chunkSpans_covers (hsize : 2 ≤ maxSize) {start : Nat} (hstart : start < text.length)
    (hreturn : splitsReturn text start = false) : Covers text maxSize start (chunkSpans text maxSize overlap start) := by
  fun_induction chunkSpans text maxSize overlap start with
  | case1 start hlt cut hend =>
    obtain ⟨hcut, hle, hfour, hsplits⟩ := splitAt_spec hsize hstart
    have hlast : cut = text.length := Nat.le_antisymm hle hend
    refine ⟨rfl, congrArg some hlast, List.isChain_singleton _, List.forall_mem_singleton.mpr ?_⟩
    exact ⟨hcut, hle, by omega, hreturn, hsplits⟩
  | case2 start hlt cut hmore ih =>
    obtain ⟨hcut, hle, hfour, hsplits⟩ := splitAt_spec hsize hstart
    obtain ⟨hnext, hnextReturn⟩ := @nextStart_spec _ overlap _ _ hcut hsplits
    have hrest := ih (hnext.trans_lt (Nat.lt_of_not_le hmore)) hnextReturn
    have hlater := lt_nextStart text overlap start cut
    obtain ⟨second, more, hspans⟩ : ∃ second more,
        chunkSpans text maxSize overlap (nextStart text overlap start cut) = second :: more := by
      refine List.exists_cons_of_ne_nil fun hnil => ?_
      have hfirst := hrest.first
      rw [hnil] at hfirst
      cases hfirst
    have hsecond : second.1 = nextStart text overlap start cut := by
      have hfirst := hrest.first
      rw [hspans] at hfirst
      exact Option.some.inj hfirst
    refine ⟨rfl, ?_, ?_, List.forall_mem_cons.mpr ⟨⟨hcut, hle, by omega, hreturn, hsplits⟩, hrest.each⟩⟩
    · rw [List.getLast?_cons_of_ne_nil (hspans ▸ List.cons_ne_nil _ _)]
      exact hrest.last
    · have hchain := hrest.chain
      rw [hspans] at hchain ⊢
      exact List.isChain_cons_cons.mpr ⟨⟨hsecond ▸ hlater, hsecond ▸ hnext⟩, hchain⟩
  | case3 start hge => exact absurd hstart hge

/-- **The chunks of a section are the slices of spans that cover its trimmed content, numbered in order; a
blank section has none.** -/
theorem chunkSection_covers {H : Type} (computeChunkHash : Text → H) (section' : RagSection) (opts : ChunkOptions)
    (hsize : 2 ≤ opts.maxSize.getD DEFAULT_MAX_SIZE) :
    (trim section'.content = [] → chunkSection computeChunkHash section' opts = []) ∧
    (trim section'.content ≠ [] →
      ∃ spans, Covers (trim section'.content) (opts.maxSize.getD DEFAULT_MAX_SIZE) 0 spans ∧
        chunkSection computeChunkHash section' opts = spans.mapIdx fun i span =>
          { sectionId := section'.sectionId
            chunkIndex := i
            content := headerText opts ++ slice (trim section'.content) span.1 span.2
            chunkHash := computeChunkHash (headerText opts ++ slice (trim section'.content) span.1 span.2) }) := by
  refine ⟨fun hnil => by rw [chunkSection, if_pos hnil], fun hne => ?_⟩
  have hstart : splitsReturn (trim section'.content) 0 = false := by
    refine Bool.eq_false_iff.mpr fun hreturn => ?_
    have hcr := (splitsReturn_iff.mp hreturn).1
    rw [(splitsReturn_iff.mp hreturn).2] at hcr
    exact absurd hcr (by decide)
  rw [chunkSection, if_neg hne]
  split
  · next hsmall =>
    refine ⟨[(0, (trim section'.content).length)], ⟨rfl, rfl, List.isChain_singleton _, ?_⟩, rfl⟩
    refine List.forall_mem_singleton.mpr ⟨List.length_pos_iff.mpr hne, Nat.le_refl _, by omega, hstart, ?_⟩
    refine Bool.eq_false_iff.mpr fun hreturn => ?_
    have hbehind := (splitsReturn_iff.mp hreturn).2
    rw [List.getElem?_eq_none (Nat.le_refl _)] at hbehind
    cases hbehind
  · exact ⟨_, chunkSpans_covers hsize (List.length_pos_iff.mpr hne) hstart, rfl⟩

theorem chunkSection_covers_long_overlap :
    ∃ spans, Covers (trim (units "ab cd")) 2 0 spans ∧
      chunkSection id ⟨units "s", units "ab cd", []⟩ { maxSize := some 2, overlap := some 5 } =
        spans.mapIdx fun i span =>
          { sectionId := units "s", chunkIndex := i, content := [] ++ slice (trim (units "ab cd")) span.1 span.2,
            chunkHash := [] ++ slice (trim (units "ab cd")) span.1 span.2 } :=
  (chunkSection_covers id ⟨units "s", units "ab cd", []⟩ { maxSize := some 2, overlap := some 5 } (by decide)).2
    (by decide)

end Haive.Rag

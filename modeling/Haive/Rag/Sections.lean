import Haive.Rag.Literals

/-!
# Sections of a file

`assembleSections` of `_rag-chunkers.ts`: the ranges that extractors found become sections, and what stands
between them becomes a section of its own or joins a neighbour. `Placed` says what is true of the slices at
any position of the walk; `assembleSections_covers` that every character which is not blank ends up in exactly
one section, unless the file has no range and is short.
-/

namespace Haive.Rag

open Lib.Spans Lib.Units

/-- A range that an extractor found; `stop` is the source's `end`. -/
structure SectionRange where
  sectionId : Text
  breadcrumb : List Text
  start : Nat
  stop : Nat
  commentStart : Option Nat

def MIN_GAP_CHARS : Nat := 120

/-! ## Ids -/

def safeSectionId (id : Text) : Text := id.map fun u => if u = 0x3a then 0x2d else u

/-- The id of the nth section that wants it. -/
def numberedId (id : Text) (n : Nat) : Text := if n = 1 then id else id ++ 0x7e :: numeral n

/-- `uniqueSectionIds`, from where `seen` counts the ids so far. -/
def uniqueFrom (seen : Text → Nat) : List RagSection → List RagSection
  | [] => []
  | first :: rest =>
    let n := seen first.sectionId + 1
    { first with sectionId := numberedId first.sectionId n } ::
      uniqueFrom (fun id => if id = first.sectionId then n else seen id) rest

def uniqueSectionIds (sections : List RagSection) : List RagSection := uniqueFrom (fun _ => 0) sections

/-! ## Gaps -/

/-- `[)\]};,]`. -/
def isCloser (u : UInt16) : Bool := u = 0x29 || u = 0x5d || u = 0x7d || u = 0x3b || u = 0x2c

def behindBreak : Text → Option Text
  | [] => none
  | [u] => if isLineEnd u then some [] else none
  | u :: v :: rest => if u = 13 ∧ v = 10 then some rest else if isLineEnd u then some (v :: rest) else none

/-- What stands behind a first line of closing brackets, semicolons and commas. -/
def behindClosingLine (text : Text) : Option Text :=
  behindBreak (((text.dropWhile isBlank).dropWhile isCloser).dropWhile isBlank)

theorem behindBreak_lt {text rest : Text} (h : behindBreak text = some rest) : rest.length < text.length := by
  fun_cases behindBreak text with
  | case1 => cases h
  | case2 u hend =>
    rw [behindBreak, if_pos hend] at h
    cases h
    exact Nat.zero_lt_one
  | case3 u hend =>
    rw [behindBreak, if_neg hend] at h
    cases h
  | case4 u v tail hreturn =>
    rw [behindBreak, if_pos hreturn] at h
    cases h
    exact Nat.lt_succ_of_lt (Nat.lt_succ_self _)
  | case5 u v tail hreturn hend =>
    rw [behindBreak, if_neg hreturn, if_pos hend] at h
    cases h
    exact Nat.lt_succ_self _
  | case6 u v tail hreturn hend =>
    rw [behindBreak, if_neg hreturn, if_neg hend] at h
    cases h

theorem behindClosingLine_lt {text rest : Text} (h : behindClosingLine text = some rest) : rest.length < text.length :=
  (behindBreak_lt h).trans_le (((List.dropWhile_suffix _).length_le.trans (List.dropWhile_suffix _).length_le).trans
    (List.dropWhile_suffix _).length_le)

def behindClosingLines (text : Text) : Text :=
  match _h : behindClosingLine text with
  | none => text
  | some rest => behindClosingLines rest
termination_by text.length
decreasing_by exact behindClosingLine_lt _h

def closingLength (text : Text) : Nat := text.length - (behindClosingLines text).length

/-- `text.trimEnd().length`. -/
def trimEndLength (text : Text) : Nat := (text.rdropWhile isTrimmed).length

/-- `text.trimStart().length`. -/
def trimStartLength (text : Text) : Nat := (text.dropWhile isTrimmed).length

/-- One of `slices`; `start` and `stop` are the source's `from` and `to`. -/
structure SectionSlice where
  sectionId : Text
  breadcrumb : List Text
  start : Nat
  stop : Nat

/-- What the walk has made so far. -/
structure Walk where
  slices : List SectionSlice := []
  gapIndex : Nat := 0

/-- `previous.to = stop`. -/
def Walk.extend (w : Walk) (stop : Nat) : Walk :=
  match w.slices.getLast? with
  | none => w
  | some previous => { w with slices := w.slices.dropLast ++ [{ previous with stop }] }

section

-- `holdsWord`: the text holds a character that `[\p{L}\p{N}_]` takes, which Unicode's tables say.
variable (holdsWord : Text → Bool) (content : Text)

def continuesLine (start : Nat) (text : Text) : Bool :=
  ! (start ≠ 0 && (content[start - 1]?).any isLineEnd) && (behindBreak (text.dropWhile isBlank)).isNone

def placeGap (w : Walk) (start stop : Nat) (hasNext : Bool) : Walk × Nat :=
  let text := slice content start stop
  let length := (trim text).length
  if length = 0 then (w, stop)
  else if MIN_GAP_CHARS ≤ length then
    ({ slices := w.slices ++ [⟨units "chunk-" ++ numeral w.gapIndex, [], start, stop⟩], gapIndex := w.gapIndex + 1 }, stop)
  else if w.slices ≠ [] ∧ (! hasNext || continuesLine content start text || ! holdsWord text) then
    (w.extend (start + trimEndLength text), stop)
  else
    let closing := if w.slices = [] then 0 else closingLength text
    let w := if w.slices ≠ [] ∧ trim (text.take closing) ≠ [] then w.extend (start + trimEndLength (text.take closing)) else w
    (w, start + text.length - trimStartLength (text.drop closing))

/-- The turns of the loop over the ranges, from `cursor` on. -/
def placeRanges (w : Walk) (cursor : Nat) : List SectionRange → Walk × Nat
  | [] => (w, cursor)
  | r :: rest =>
    let start := ((r.commentStart.filter (cursor ≤ ·)).getD r.start)
    if start < cursor then placeRanges w cursor rest
    else
      let placed := placeGap holdsWord content w cursor start true
      placeRanges { placed.1 with slices := placed.1.slices ++ [⟨safeSectionId r.sectionId, r.breadcrumb, placed.2, r.stop⟩] }
        r.stop rest

end

/-- The second range lies in the first one and is not all of it. -/
def strictlyInside (r s : SectionRange) : Bool :=
  r.start ≤ s.start && s.stop ≤ r.stop && (r.start < s.start || s.stop < r.stop)

def rangeOrder (a b : SectionRange) : Bool := a.start < b.start || (a.start = b.start && a.stop ≤ b.stop)

def keptRanges (ranges : List SectionRange) : List SectionRange :=
  (ranges.filter fun r => ! ranges.any (strictlyInside r)).mergeSort rangeOrder

/-- `slices` in the end. -/
def sectionSlices (holdsWord : Text → Bool) (content : Text) (ranges : List SectionRange) : List SectionSlice :=
  let walked := placeRanges holdsWord content {} 0 (keptRanges ranges)
  (placeGap holdsWord content walked.1 walked.2 content.length false).1.slices

def assembleSections (holdsWord : Text → Bool) (content : Text) (ranges : List SectionRange) : List RagSection :=
  uniqueSectionIds ((sectionSlices holdsWord content ranges).map fun s =>
    ⟨s.sectionId, slice content s.start s.stop, s.breadcrumb⟩)

/-! ## Blank stretches -/

/-- What stands between the two positions is white space. -/
def Blank (text : Text) (start stop : Nat) : Prop :=
  ∀ i, start ≤ i → i < stop → ∀ u, text[i]? = some u → isTrimmed u = true

variable {content text : Text} {start stop : Nat}

theorem blank_of_forall (h : ∀ u ∈ slice text start stop, isTrimmed u = true) : Blank text start stop := by
  intro i hstart hstop u hu
  refine h u (List.mem_of_getElem? (i := i - start) ?_)
  rw [slice, List.getElem?_drop, Nat.add_sub_cancel' hstart, List.getElem?_take_of_lt hstop, hu]

/-- A blank stretch of a slice is a blank stretch of the text. -/
theorem Blank.of_slice {a b : Nat} (h : Blank (slice content start stop) a b) (hfits : start + b ≤ stop) :
    Blank content (start + a) (start + b) := by
  intro i hstart hstop u hu
  refine h (i - start) (by omega) (by omega) u ?_
  rw [slice, List.getElem?_drop, Nat.add_sub_cancel' (by omega), List.getElem?_take_of_lt (by omega), hu]

theorem blank_of_trim_eq_nil (h : trim text = []) : Blank text 0 text.length :=
  blank_of_forall fun u hu => trim_eq_nil_iff.mp h u (List.mem_of_mem_take (List.mem_of_mem_drop hu))

theorem trimEndLength_le (text : Text) : trimEndLength text ≤ text.length := (List.rdropWhile_prefix _ _).length_le

theorem blank_trimEnd (text : Text) : Blank text (trimEndLength text) text.length := by
  refine blank_of_forall fun u hu => ?_
  have hsplit : text.rdropWhile isTrimmed ++ text.rtakeWhile isTrimmed = text := by
    rw [List.rdropWhile, List.rtakeWhile, ← List.reverse_append, List.takeWhile_append_dropWhile, List.reverse_reverse]
  have htail : text.drop (trimEndLength text) = text.rtakeWhile isTrimmed :=
    (congrArg (List.drop (trimEndLength text)) hsplit.symm).trans List.drop_left
  rw [slice, List.take_length, htail] at hu
  exact List.mem_rtakeWhile_imp hu

theorem trimStartLength_le (text : Text) : trimStartLength text ≤ text.length := (List.dropWhile_suffix _).length_le

theorem blank_trimStart (text : Text) (k : Nat) : Blank text k (text.length - trimStartLength (text.drop k)) := by
  refine blank_of_forall fun u hu => ?_
  have hlength := congrArg List.length (List.takeWhile_append_dropWhile (p := isTrimmed) (l := text.drop k))
  rw [List.length_append, List.length_drop] at hlength
  have htake : text.length - trimStartLength (text.drop k) - k = ((text.drop k).takeWhile isTrimmed).length := by
    rw [trimStartLength]
    omega
  have hhead : (text.drop k).take ((text.drop k).takeWhile isTrimmed).length = (text.drop k).takeWhile isTrimmed :=
    (congrArg (List.take _) (List.takeWhile_append_dropWhile (p := isTrimmed)).symm).trans List.take_left
  rw [slice, List.drop_take, htake, hhead] at hu
  exact List.mem_takeWhile_imp hu

/-! ## The walk -/

def SectionSlice.span (s : SectionSlice) : Span := (s.start, s.stop)

/-- At position `p`, the slices stand in order and hold what is not blank so far. -/
structure Placed (content : Text) (p : Nat) (w : Walk) : Prop where
  ordered : Ordered 0 p (w.slices.map SectionSlice.span)
  held : ∀ i < p, ∀ u, content[i]? = some u → isTrimmed u = false → ∃ s ∈ w.slices, s.span.Holds i

variable {w : Walk} {p q : Nat}

theorem Placed.skip (h : Placed content p w) (hle : p ≤ q) (hblank : Blank content p q) : Placed content q w := by
  refine ⟨h.ordered.mono hle, fun i hi u hu hdark => ?_⟩
  rcases Nat.lt_or_ge i p with hlt | hge
  · exact h.held i hlt u hu hdark
  · rw [hblank i hge hi u hu] at hdark
    cases hdark

theorem Placed.push (h : Placed content p w) {s : SectionSlice} {gapIndex : Nat} (hstart : p = s.start)
    (hstop : s.start ≤ s.stop) : Placed content s.stop { slices := w.slices ++ [s], gapIndex } := by
  refine ⟨?_, fun i hi u hu hdark => ?_⟩
  · rw [List.map_append]
    exact @Ordered.concat _ _ _ s.span h.ordered hstart.le hstop
  · rcases Nat.lt_or_ge i p with hlt | hge
    · obtain ⟨t, ht, hheld⟩ := h.held i hlt u hu hdark
      exact ⟨t, List.mem_append_left _ ht, hheld⟩
    · exact ⟨s, List.mem_append_right _ (List.mem_singleton_self s), hstart.symm.trans_le hge, hi⟩

theorem Walk.extend_concat {slices : List SectionSlice} {previous : SectionSlice} {gapIndex stop : Nat} :
    Walk.extend { slices := slices ++ [previous], gapIndex } stop =
      { slices := slices ++ [{ previous with stop }], gapIndex } := by
  rw [Walk.extend, List.getLast?_concat]
  dsimp only
  rw [List.dropLast_concat]

/-- The last slice grows over what is in front of the next one. -/
theorem Placed.extend (h : Placed content p w) (hne : w.slices ≠ []) (hle : p ≤ q) : Placed content q (w.extend q) := by
  obtain ⟨slices, gapIndex⟩ := w
  obtain ⟨front, previous, rfl⟩ := List.eq_nil_or_concat' slices |>.resolve_left hne
  have hordered := h.ordered
  rw [List.map_append] at hordered
  obtain ⟨mid, hfront, hlast⟩ := ordered_append.mp hordered
  obtain ⟨hstart, hstop, hend⟩ := ordered_singleton.mp hlast
  rw [Walk.extend_concat]
  refine ⟨?_, fun i hi u hu hdark => ?_⟩
  · rw [List.map_append]
    exact hfront.append (ordered_singleton.mpr ⟨hstart, hstop.trans (hend.trans hle), Nat.le_refl _⟩)
  · rcases Nat.lt_or_ge i p with hlt | hge
    · obtain ⟨t, ht, hheld⟩ := h.held i hlt u hu hdark
      rcases List.mem_append.mp ht with ht | ht
      · exact ⟨t, List.mem_append_left _ ht, hheld⟩
      · cases List.mem_singleton.mp ht
        exact ⟨_, List.mem_append_right _ (List.mem_singleton_self _), hheld.1, hi⟩
    · exact ⟨_, List.mem_append_right _ (List.mem_singleton_self _), (hstop.trans hend).trans hge, hi⟩

variable {holdsWord : Text → Bool}

/-- A gap leaves the walk placed where the next section starts; with no next section, only a short gap behind
no slice leaves something out. -/
theorem placeGap_spec (h : Placed content start w) (hle : start ≤ stop) (hstop : stop ≤ content.length) (hasNext : Bool) :
    start ≤ (placeGap holdsWord content w start stop hasNext).2 ∧
      (placeGap holdsWord content w start stop hasNext).2 ≤ stop ∧
      Placed content (placeGap holdsWord content w start stop hasNext).2 (placeGap holdsWord content w start stop hasNext).1 ∧
      (hasNext = false → w.slices ≠ [] ∨ trim (slice content start stop) = [] ∨
          MIN_GAP_CHARS ≤ (trim (slice content start stop)).length →
        (placeGap holdsWord content w start stop hasNext).2 = stop) := by
  rw [placeGap]
  dsimp only
  have hlength : (slice content start stop).length = stop - start := by
    rw [slice, List.length_drop, List.length_take_of_le hstop]
  generalize htext : slice content start stop = text at hlength ⊢
  have hblank : ∀ {a b : Nat}, Blank text a b → start + b ≤ stop → Blank content (start + a) (start + b) := by
    intro a b hab
    rw [← htext] at hab
    exact hab.of_slice
  have hend : start + text.length = stop := by omega
  split
  · next hempty =>
    have hall := hblank (blank_of_trim_eq_nil (List.length_eq_zero_iff.mp hempty)) hend.le
    rw [Nat.add_zero, hend] at hall
    exact ⟨hle, Nat.le_refl _, h.skip hle hall, fun _ _ => rfl⟩
  split
  · next hempty hlong =>
    exact ⟨hle, Nat.le_refl _, h.push (s := ⟨_, _, start, stop⟩) rfl hle, fun _ _ => rfl⟩
  split
  · next hempty hshort hjoins =>
    have htail := hblank (blank_trimEnd text) hend.le
    rw [hend] at htail
    have hfits := trimEndLength_le text
    exact ⟨hle, Nat.le_refl _, (h.extend hjoins.1 (Nat.le_add_right _ _)).skip (by omega) htail, fun _ _ => rfl⟩
  · next hempty hshort hparts =>
    generalize hclosing : (if w.slices = [] then 0 else closingLength text) = closing
    have hclose : closing ≤ text.length := by
      rw [← hclosing]
      split
      · exact Nat.zero_le _
      · exact Nat.sub_le _ _
    have hrest : trimStartLength (text.drop closing) ≤ text.length - closing := by
      have := trimStartLength_le (text.drop closing)
      rwa [List.length_drop] at this
    have hresult : start + text.length - trimStartLength (text.drop closing) =
        start + (text.length - trimStartLength (text.drop closing)) := by omega
    have hbehind := hblank (blank_trimStart text closing) (by omega)
    rw [hresult]
    refine ⟨Nat.le_add_right _ _, by omega, ?_, ?_⟩
    · have hfront : Placed content (start + closing) (if w.slices ≠ [] ∧ trim (text.take closing) ≠ [] then
          w.extend (start + trimEndLength (text.take closing)) else w) := by
        have htake : (text.take closing).length = closing := List.length_take_of_le hclose
        have hinner : ∀ {a : Nat}, Blank (text.take closing) a closing → Blank text a closing := by
          intro a ha i hi hlt u hu
          exact ha i hi hlt u ((List.getElem?_take_of_lt hlt).trans hu)
        split
        · next hcloses =>
          have htail := blank_trimEnd (text.take closing)
          rw [htake] at htail
          have hfits := trimEndLength_le (text.take closing)
          refine (h.extend hcloses.1 (Nat.le_add_right _ _)).skip (by omega) (hblank (hinner htail) (by omega))
        · next hcloses =>
          refine h.skip (Nat.le_add_right _ _) ?_
          by_cases hnil : w.slices = []
          · rw [if_pos hnil] at hclosing
            rw [← hclosing]
            exact fun i hi hlt => absurd (hi.trans_lt hlt) (Nat.lt_irrefl _)
          · have hall := blank_of_trim_eq_nil (not_not.mp (not_and.mp hcloses hnil))
            rw [htake] at hall
            exact hblank (hinner hall) (by omega)
      exact hfront.skip (by omega) hbehind
    · intro hlast hcovered
      rcases hcovered with hne | hnil | hlong
      · exact absurd ⟨hne, by rw [hlast]; rfl⟩ hparts
      · exact absurd (List.length_eq_zero_iff.mpr hnil) hempty
      · exact absurd hlong hshort

/-! ## All ranges -/

/-- The range lies in the text, and so does the comment in front of it. -/
structure SectionRange.InBounds (content : Text) (r : SectionRange) : Prop where
  start_le : r.start ≤ r.stop
  stop_le : r.stop ≤ content.length
  comment_le : ∀ c ∈ r.commentStart, c ≤ r.stop

theorem SectionRange.InBounds.from_le {r : SectionRange} (h : r.InBounds content) (cursor : Nat) :
    (r.commentStart.filter (cursor ≤ ·)).getD r.start ≤ r.stop := by
  cases hfilter : r.commentStart.filter (cursor ≤ ·) with
  | none => exact h.start_le
  | some c => exact h.comment_le c (Option.filter_eq_some_iff.mp hfilter).1

theorem placeRanges_spec {ranges : List SectionRange} (hranges : ∀ r ∈ ranges, r.InBounds content) {cursor : Nat}
    (h : Placed content cursor w) (hcursor : cursor ≤ content.length) :
    Placed content (placeRanges holdsWord content w cursor ranges).2 (placeRanges holdsWord content w cursor ranges).1 ∧
      (placeRanges holdsWord content w cursor ranges).2 ≤ content.length := by
  induction ranges generalizing w cursor with
  | nil => exact ⟨h, hcursor⟩
  | cons r rest ih =>
    have hrest := fun s hs => hranges s (List.mem_cons_of_mem r hs)
    have hr := hranges r List.mem_cons_self
    have hfrom := hr.from_le cursor
    rw [placeRanges]
    dsimp only
    split
    · exact ih hrest h hcursor
    · next hafter =>
      obtain ⟨-, hle, hplaced, -⟩ := @placeGap_spec _ _ _ _ holdsWord h (Nat.le_of_not_lt hafter)
        (hfrom.trans hr.stop_le) true
      exact ih hrest (hplaced.push (s := ⟨_, _, _, r.stop⟩) rfl (hle.trans hfrom)) hr.stop_le

theorem placeRanges_ne_nil {ranges : List SectionRange} {cursor : Nat} (h : w.slices ≠ [] ∨ cursor = 0 ∧ ranges ≠ []) :
    (placeRanges holdsWord content w cursor ranges).1.slices ≠ [] := by
  induction ranges generalizing w cursor with
  | nil => exact h.resolve_right fun hzero => hzero.2 rfl
  | cons r rest ih =>
    rw [placeRanges]
    dsimp only
    split
    · next hbefore =>
      refine ih (.inl (h.resolve_right fun hzero => ?_))
      rw [hzero.1] at hbefore
      exact Nat.not_lt_zero _ hbefore
    · exact ih (.inl (List.append_ne_nil_of_right_ne_nil _ (List.cons_ne_nil _ _)))

theorem mem_keptRanges {ranges : List SectionRange} {r : SectionRange} :
    r ∈ keptRanges ranges ↔ r ∈ ranges ∧ ∀ s ∈ ranges, strictlyInside r s = false := by
  rw [keptRanges, List.mem_mergeSort, List.mem_filter, Bool.not_eq_true', List.any_eq_false]
  exact and_congr_right fun _ => forall₂_congr fun s _ => Bool.eq_false_iff.symm

theorem keptRanges_ne_nil {ranges : List SectionRange} (hranges : ∀ r ∈ ranges, r.InBounds content) (hne : ranges ≠ []) :
    keptRanges ranges ≠ [] := by
  obtain ⟨r, hr, hmin⟩ := Set.exists_min_image {r | r ∈ ranges} (fun r => r.stop - r.start) (List.finite_toSet _)
    (List.exists_mem_of_ne_nil ranges hne)
  refine List.ne_nil_of_mem (mem_keptRanges.mpr ⟨hr, fun s hs => Bool.eq_false_iff.mpr fun hinside => ?_⟩)
  have hshortest := hmin s hs
  have hs := (hranges s hs).start_le
  rw [strictlyInside, Bool.and_eq_true, Bool.and_eq_true, Bool.or_eq_true, decide_eq_true_eq, decide_eq_true_eq,
    decide_eq_true_eq, decide_eq_true_eq] at hinside
  omega

theorem uniqueFrom_content (seen : Text → Nat) (sections : List RagSection) :
    (uniqueFrom seen sections).map RagSection.content = sections.map RagSection.content := by
  induction sections generalizing seen with
  | nil => rfl
  | cons first rest ih =>
    rw [uniqueFrom, List.map_cons, List.map_cons]
    exact congrArg _ (ih _)

theorem assembleSections_content (holdsWord : Text → Bool) (content : Text) (ranges : List SectionRange) :
    (assembleSections holdsWord content ranges).map RagSection.content =
      ((sectionSlices holdsWord content ranges).map SectionSlice.span).map fun span => slice content span.1 span.2 := by
  rw [assembleSections, uniqueSectionIds, uniqueFrom_content, List.map_map, List.map_map]
  rfl

/-- A file without a range that holds little has no section. -/
def TooShort (content : Text) (ranges : List SectionRange) : Prop :=
  ranges = [] ∧ trim content ≠ [] ∧ (trim content).length < MIN_GAP_CHARS

theorem sectionSlices_of_tooShort {ranges : List SectionRange} (h : TooShort content ranges) :
    sectionSlices holdsWord content ranges = [] := by
  obtain ⟨rfl, hne, hshort⟩ := h
  have hall : slice content 0 content.length = content := List.take_length
  rw [sectionSlices, keptRanges, List.filter_nil, List.mergeSort_nil, placeRanges, placeGap]
  dsimp only
  rw [hall, if_neg (List.length_eq_zero_iff.not.mpr hne), if_neg (Nat.not_le_of_lt hshort),
    if_neg (fun hjoins => hjoins.1 rfl), if_neg (fun hcloses : ([] : List SectionSlice) ≠ [] ∧ _ => hcloses.1 rfl)]

theorem sectionSlices_placed {ranges : List SectionRange} (hranges : ∀ r ∈ ranges, r.InBounds content)
    (h : ¬ TooShort content ranges) :
    Placed content content.length { slices := sectionSlices holdsWord content ranges } := by
  have hkept : ∀ r ∈ keptRanges ranges, r.InBounds content := fun r hr => hranges r (mem_keptRanges.mp hr).1
  have hnone : Placed content 0 {} := ⟨Nat.le_refl 0, fun i hi => absurd hi (Nat.not_lt_zero i)⟩
  obtain ⟨hwalked, hle⟩ := @placeRanges_spec _ _ holdsWord _ hkept _ hnone (Nat.zero_le _)
  obtain ⟨-, -, hplaced, hall⟩ := @placeGap_spec _ _ _ _ holdsWord hwalked hle (Nat.le_refl _) false
  rw [hall rfl ?_] at hplaced
  · exact ⟨hplaced.ordered, hplaced.held⟩
  · rcases eq_or_ne ranges [] with rfl | hne
    · right
      rw [keptRanges, List.filter_nil, List.mergeSort_nil, placeRanges]
      have hall : slice content 0 content.length = content := List.take_length
      rw [hall]
      by_contra hno
      rw [not_or, Nat.not_le] at hno
      exact h ⟨rfl, hno.1, hno.2⟩
    · exact .inl (placeRanges_ne_nil (.inr ⟨rfl, keptRanges_ne_nil hranges hne⟩))

def SectionsCover (content : Text) (sections : List RagSection) : Prop :=
  ∃ spans, Ordered 0 content.length spans ∧
    sections.map RagSection.content = spans.map (fun span => slice content span.1 span.2) ∧
    ∀ i u, content[i]? = some u → isTrimmed u = false → ∃! k : Fin spans.length, (spans.get k).Holds i

/-- **The sections of a file cover it exactly once, unless it has no range and fewer than `MIN_GAP_CHARS`
characters: then it has none.** -/
theorem assembleSections_covers (holdsWord : Text → Bool) (content : Text) (ranges : List SectionRange)
    (hranges : ∀ r ∈ ranges, r.InBounds content) :
    (¬ TooShort content ranges → SectionsCover content (assembleSections holdsWord content ranges)) ∧
      (TooShort content ranges → assembleSections holdsWord content ranges = []) := by
  refine ⟨fun h => ?_, fun h => ?_⟩
  · have hplaced := @sectionSlices_placed _ holdsWord _ hranges h
    refine ⟨_, hplaced.ordered, assembleSections_content holdsWord content ranges, fun i u hu hdark => ?_⟩
    obtain ⟨hi, -⟩ := List.getElem?_eq_some_iff.mp hu
    obtain ⟨s, hs, hheld⟩ := hplaced.held i hi u hu hdark
    exact hplaced.ordered.existsUnique ⟨s.span, List.mem_map_of_mem hs, hheld⟩
  · rw [assembleSections, sectionSlices_of_tooShort h]
    rfl

/-- A file of one letter has no section. -/
theorem assembleSections_short_file :
    ¬ SectionsCover (units "x") (assembleSections (fun _ => true) (units "x") []) := by
  rintro ⟨spans, -, hcontent, hheld⟩
  obtain ⟨k, -, -⟩ := hheld 0 0x78 rfl rfl
  have hnone : assembleSections (fun _ => true) (units "x") [] = [] := by decide +kernel
  rw [hnone] at hcontent
  cases List.map_eq_nil_iff.mp hcontent.symm
  exact k.elim0

theorem assembleSections_covers_nested :
    SectionsCover (units "a \x7bb\x7d\n\x7d\n") (assembleSections (fun _ => true) (units "a \x7bb\x7d\n\x7d\n")
      [⟨units "class-a", [], 0, 7, none⟩, ⟨units "method-b", [], 3, 4, some 2⟩]) :=
  (assembleSections_covers (fun _ => true) (units "a \x7bb\x7d\n\x7d\n")
    [⟨units "class-a", [], 0, 7, none⟩, ⟨units "method-b", [], 3, 4, some 2⟩]
    (List.forall_mem_cons.mpr ⟨⟨by decide, by decide, fun c hc => by cases hc⟩,
      List.forall_mem_singleton.mpr ⟨by decide, by decide, fun c hc => by cases hc; decide⟩⟩)).1
    fun h => absurd h.1 (List.cons_ne_nil _ _)

end Haive.Rag

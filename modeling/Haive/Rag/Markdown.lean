import Haive.Rag.LineRanges
import Haive.Rag.SectionIds

/-!
# Sections of a Markdown file

`extractMarkdownSections` of `_rag-chunkers.ts`: a section for each heading of the first three levels, with the
headings above it. A section that holds nothing but its heading is kept only if all of them do.
-/

namespace Haive.Rag

open Lib.Spans Lib.Units
open Lib (Regex)

/-! ## Headings -/

def HEADING_RE : Regex UInt16 :=
  .seqs [.group 1 (.seq (exactly "#") (.loop true (some 2) (exactly "#"))), spaces1,
    .group 2 (.some1 (.unit fun u => ! isLineEnd u)), atEnd]

/-- `[a-z0-9]`. -/
def isSlugUnit (u : UInt16) : Bool := isLower u || isDigit u

/-- `replace(/[^a-z0-9]+/g, '-')`. -/
def dashRuns : Text → Text
  | [] => []
  | u :: rest =>
    if isSlugUnit u then u :: dashRuns rest else ch '-' :: dashRuns (rest.dropWhile fun v => ! isSlugUnit v)
termination_by text => text.length
decreasing_by
  · exact Nat.lt_succ_self _
  · exact Nat.lt_succ_of_le (List.dropWhile_suffix _).length_le

def slugifyHeading (text : Text) : Text :=
  (((dashRuns (text.flatMap lowerUnit)).dropWhile (· = ch '-')).rdropWhile (· = ch '-')).take 48

def isHeadingOnlyMarkdown (text : Text) : Bool :=
  match (sourceLines text).filter fun line => trim line.text ≠ [] with
  | [line] => startsWith HEADING_RE line.text
  | _ => false

/-! ## The walk over the lines -/

/-- The variables of `extractMarkdownSections`; `stack` has the heading of each level. -/
structure MarkdownWalk where
  sections : List RagSection := []
  headingOnly : List RagSection := []
  stack : List (Option Text) := [none, none, none]
  currentId : Text := units "intro"
  currentBreadcrumb : List Text := []
  currentStart : Nat := 0

def MarkdownWalk.flush (content : Text) (w : MarkdownWalk) (stop : Nat) : MarkdownWalk :=
  let text := trim (slice content w.currentStart stop)
  let current : RagSection := { sectionId := w.currentId, content := text, breadcrumb := w.currentBreadcrumb }
  if text = [] then w
  else if isHeadingOnlyMarkdown text then { w with headingOnly := w.headingOnly ++ [current] }
  else { w with sections := w.sections ++ [current] }

def MarkdownWalk.line (content : Text) (w : MarkdownWalk) (line : SourceLine) : MarkdownWalk :=
  match Regex.matchAt HEADING_RE line.text 0 with
  | none => w
  | some m =>
    let level := (held line.text (0, m) 1).length
    let title := trim (held line.text (0, m) 2)
    let stack := w.stack.take (level - 1) ++ some title :: List.replicate (3 - level) none
    { w.flush content line.offset with
      stack
      currentId := safeSectionId (slugifyHeading title)
      currentBreadcrumb := (stack.take level).filterMap fun heading => heading.filter (· ≠ [])
      currentStart := line.offset }

def extractMarkdownSections (content : Text) : List RagSection :=
  let w := ((sourceLines content).foldl (MarkdownWalk.line content) {}).flush content content.length
  uniqueSectionIds (if w.sections ≠ [] then w.sections else w.headingOnly)

/-! ## Ids -/

theorem mem_dashRuns {text : Text} {u : UInt16} (h : u ∈ dashRuns text) : isSlugUnit u = true ∨ u = ch '-' := by
  fun_induction dashRuns text with
  | case1 => exact absurd h List.not_mem_nil
  | case2 v rest hslug ih =>
    rcases List.mem_cons.mp h with rfl | h
    · exact .inl hslug
    · exact ih h
  | case3 v rest hslug ih =>
    rcases List.mem_cons.mp h with rfl | h
    · exact .inr rfl
    · exact ih h

theorem mem_slugifyHeading {text : Text} {u : UInt16} (h : u ∈ slugifyHeading text) :
    isSlugUnit u = true ∨ u = ch '-' :=
  mem_dashRuns ((List.dropWhile_suffix _).subset ((List.rdropWhile_prefix _ _).subset (List.mem_of_mem_take h)))

theorem slugifyHeading_plain (text : Text) : Plain (slugifyHeading text) := by
  intro u hu
  rintro rfl
  rcases mem_slugifyHeading hu with hslug | hdash
  · exact absurd hslug (by decide)
  · exact absurd hdash (by decide)

/-- The sections so far and the one that is read want ids. -/
structure MarkdownWalk.WantedIds (w : MarkdownWalk) : Prop where
  sections : ∀ s ∈ w.sections, Wanted s.sectionId
  headingOnly : ∀ s ∈ w.headingOnly, Wanted s.sectionId
  current : Wanted w.currentId

variable {content : Text} {w : MarkdownWalk}

theorem MarkdownWalk.WantedIds.flush (h : w.WantedIds) (stop : Nat) : (w.flush content stop).WantedIds := by
  rw [MarkdownWalk.flush]
  split
  · exact h
  split
  · exact ⟨h.sections, List.forall_mem_append.mpr ⟨h.headingOnly, List.forall_mem_singleton.mpr h.current⟩, h.current⟩
  · exact ⟨List.forall_mem_append.mpr ⟨h.sections, List.forall_mem_singleton.mpr h.current⟩, h.headingOnly, h.current⟩

theorem MarkdownWalk.WantedIds.line (h : w.WantedIds) (line : SourceLine) : (w.line content line).WantedIds := by
  rw [MarkdownWalk.line]
  split
  · exact h
  · have hflushed := @MarkdownWalk.WantedIds.flush content _ h line.offset
    exact ⟨hflushed.sections, hflushed.headingOnly, safeSectionId_wanted (slugifyHeading_plain _)⟩

theorem MarkdownWalk.WantedIds.lines (h : w.WantedIds) (lines : List SourceLine) :
    (lines.foldl (MarkdownWalk.line content) w).WantedIds := by
  induction lines generalizing w with
  | nil => exact h
  | cons first rest ih => exact ih (h.line first)

theorem extractMarkdownSections_unique (content : Text) :
    UniqueIds (sectionIds (extractMarkdownSections content)) := by
  have hintro : Wanted (units "intro") := ⟨plain_of_all (by decide), by decide⟩
  have hstart : MarkdownWalk.WantedIds {} :=
    ⟨fun s hs => absurd hs List.not_mem_nil, fun s hs => absurd hs List.not_mem_nil, hintro⟩
  have hwalked := @MarkdownWalk.WantedIds.flush content _
    (@MarkdownWalk.WantedIds.lines content _ hstart (sourceLines content)) content.length
  refine uniqueSectionIds_unique fun s hs => ?_
  split at hs
  · exact hwalked.sections s hs
  · exact hwalked.headingOnly s hs

end Haive.Rag

import Haive.Steps.InnerQuotes
import Haive.Steps.JsonAnchor

/-!
# The last object that a caller accepts

`parseJsonLooseValidated` of `worker/src/step-engine/steps/_fenced-json.ts` reads every object that
stands in an agent's text and takes the last one that its caller accepts. `jsonrepair` is the package
of that name; on a text whose objects are valid JSON it is not called.
-/

namespace Haive.FencedJson

open Lib.Units
open Lib (Json)
open Lib.Json (Machine Accepts Kind isSpace accepts_cons accepts_nil)

/-! ## Candidates -/

/-- `/\{\s*"/` at the start of the text. -/
def isCandidate : Text → Bool
  | [] => false
  | u :: rest => u = 0x7b && (rest.dropWhile isTrimmed).head? = some quote

def candidateIdx : Text → Option Nat
  | [] => none
  | u :: rest => if isCandidate (u :: rest) then some 0 else (candidateIdx rest).map (· + 1)

def extractFencedJsonObjects (text : Text) : List Text :=
  match text with
  | [] => []
  | u :: rest =>
    match candidateIdx (u :: rest) with
    | none => []
    | some start =>
      match findBalancedEnd (u :: rest) start with
      | none => []
      | some stop => ((u :: rest).take (stop + 1)).drop start :: extractFencedJsonObjects (rest.drop stop)
termination_by text.length
decreasing_by
  simp only [List.length_cons, List.length_drop]
  omega

/-! ## Parsing -/

section Loose

-- `none` where it throws.
variable (jsonrepair : Text → Option Text)

def parseCandidate (slice : Text) : Option Json :=
  match Json.parse slice with
  | some j => some j
  | none => (jsonrepair slice).bind Json.parse

def rawJsonTail (text : Text) : Option Text :=
  let scanned := (afterFence text).getD text
  if scanned.any isOpener then some (scanned.dropWhile (! isOpener ·)) else none

def ticks : Text := [0x60, 0x60, 0x60]

/-- What is behind the first three backticks, `json` if it follows, and white space. -/
def afterTicks : Text → Option Text
  | [] => none
  | u :: rest =>
    if ticks <+: u :: rest then
      let rest := (u :: rest).drop ticks.length
      some ((if (rest.take 4).map lower = fence.drop 3 then rest.drop 4 else rest).dropWhile isTrimmed)
    else afterTicks rest

def beforeTicks : Text → Option Text
  | [] => none
  | u :: rest => if ticks <+: u :: rest then some [] else (beforeTicks rest).map (u :: ·)

def beforeLastTicks : Text → Option Text
  | [] => none
  | u :: rest =>
    match beforeLastTicks rest with
    | some before => some (u :: before)
    | none => if ticks <+: u :: rest then some [] else none

/-- `parseJsonLoose`; `none` is null. -/
def parseJsonLoose (text : Text) : Option Json :=
  let present := fun (candidates : List (Option Text)) => (candidates.filterMap id).filter fun c => trim c ≠ []
  let candidates := present [extractFencedJson text, (afterTicks text).bind beforeLastTicks, (afterTicks text).bind beforeTicks]
  match candidates.findSome? Json.parse with
  | some j => some j
  | none =>
    match (present (candidates.map some ++ [rawJsonTail text])).findSome? fun c => (jsonrepair c).bind Json.parse with
    | some j => some j
    | none =>
      (rawJsonTail text).bind fun tail =>
        let escaped := escapeInnerQuotes tail
        if escaped = tail then none
        else parseCandidate jsonrepair ((extractFencedJson escaped).getD escaped)

variable {T : Type} (accept : Json → Option T)

/-- One candidate of the loop of `parseJsonLooseValidated`. -/
def considerSlice (last : Option T) (slice : Text) : Option T :=
  match parseCandidate jsonrepair slice with
  | none | some .null => last
  | some value => (accept value).or last

def parseJsonLooseValidated (text : Text) : Option T :=
  match (extractFencedJsonObjects text).foldl (considerSlice jsonrepair accept) none with
  | some last => some last
  | none =>
    match parseJsonLoose jsonrepair text with
    | none | some .null => none
    | some loose => accept loose

end Loose

/-! ## Agents' texts -/

def Quiet (prose : Text) : Prop := ∀ a, a <:+ prose → isCandidate a = false

structure AnswerPart where
  prose : Text
  object : Text
  fields : List (Text × Json)
  quiet : Quiet prose
  parse : Json.parse object = some (.obj fields)
  opens : object.head? = some Kind.obj.opener
  ends : ∀ u ∈ object.getLast?, isSpace u = false
  nonempty : fields ≠ []

theorem AnswerPart.container (part : AnswerPart) : ContainerText part.object (.obj part.fields) :=
  ⟨part.parse, ⟨.obj, part.opens⟩, part.ends⟩

structure AgentText where
  parts : List AnswerPart
  rest : Text
  quiet : Quiet rest

def spell (parts : List AnswerPart) (rest : Text) : Text :=
  parts.foldr (fun part text => part.prose ++ (part.object ++ text)) rest

def AgentText.text (a : AgentText) : Text := spell a.parts a.rest

def AgentText.values (a : AgentText) : List Json := a.parts.map fun part => .obj part.fields

/-! ## Scanning an agent's text -/

theorem Quiet.tail {u : UInt16} {prose : Text} (h : Quiet (u :: prose)) : Quiet prose :=
  fun a ha => h a (ha.trans (List.suffix_cons u prose))

theorem candidateIdx_of_quiet {prose : Text} (h : Quiet prose) : candidateIdx prose = none := by
  induction prose with
  | nil => rfl
  | cons u prose ih =>
    rw [candidateIdx, h _ List.suffix_rfl, if_neg Bool.false_ne_true, ih h.tail]
    rfl

theorem quiet_of_candidateIdx {prose : Text} (h : candidateIdx prose = none) : Quiet prose := by
  induction prose with
  | nil =>
    intro a ha
    rw [List.suffix_nil.mp ha]
    rfl
  | cons u prose ih =>
    rw [candidateIdx] at h
    split at h
    · cases h
    · next hno =>
      intro a ha
      rcases List.suffix_cons_iff.mp ha with rfl | ha
      · exact Bool.eq_false_iff.mpr hno
      · exact ih (Option.map_eq_none_iff.mp h) a ha

instance (prose : Text) : Decidable (Quiet prose) :=
  decidable_of_iff (candidateIdx prose = none) ⟨quiet_of_candidateIdx, candidateIdx_of_quiet⟩

/-- No candidate runs from prose into a bracket. -/
theorem isCandidate_append {prose : Text} (h : Quiet prose) (hne : prose ≠ []) (k : Kind) (t : Text) :
    isCandidate (prose ++ k.opener :: t) = false := by
  cases prose with
  | nil => exact absurd rfl hne
  | cons u prose =>
    have hno := h _ List.suffix_rfl
    have hspace : ¬ isTrimmed k.opener = true := by cases k <;> decide
    rw [isCandidate, Bool.and_eq_false_iff] at hno
    rw [List.cons_append, isCandidate, Bool.and_eq_false_iff]
    refine hno.imp_right fun hno => ?_
    rw [decide_eq_false_iff_not] at hno ⊢
    by_cases hall : ∀ v ∈ prose, isTrimmed v = true
    · rw [List.dropWhile_append_of_pos hall, List.dropWhile_cons_of_neg hspace]
      exact fun heq => opener_ne_quote k (Option.some.inj heq)
    · rw [List.dropWhile_append, if_neg]
      · have hhead : (prose.dropWhile isTrimmed ++ k.opener :: t).head? = (prose.dropWhile isTrimmed).head? := by
          cases hdrop : prose.dropWhile isTrimmed with
          | nil => exact absurd (List.dropWhile_eq_nil_iff.mp hdrop) hall
          | cons v rest => rfl
        rwa [hhead]
      · rw [List.isEmpty_iff, List.dropWhile_eq_nil_iff]
        exact hall

/-- In an object that is not empty, a name follows the bracket. -/
theorem head?_of_accepts_name {j : Json} {t : Text} (h : Accepts ⟨[], .name [] true⟩ t j) (hj : j ≠ .obj []) :
    (t.dropWhile isTrimmed).head? = some quote := by
  induction t with
  | nil => cases accepts_nil.mp h
  | cons u t ih =>
    obtain ⟨m, hstep, hrest⟩ := accepts_cons.mp h
    unfold Lib.Json.step at hstep
    dsimp only at hstep
    split at hstep
    · next hspace =>
      cases hstep
      have htrim : isTrimmed u = true := by
        simp only [isSpace, Bool.or_eq_true, decide_eq_true_eq] at hspace
        rcases hspace with ((rfl | rfl) | rfl) | rfl <;> decide
      rw [List.dropWhile_cons_of_pos htrim]
      exact ih hrest
    · split at hstep
      · cases hstep
        exact absurd (Lib.Json.accepts_read_nil hrest).1 hj
      · split at hstep
        · next hquote =>
          subst hquote
          rfl
        · cases hstep

theorem AnswerPart.object_eq (part : AnswerPart) : ∃ rest, part.object = Kind.obj.opener :: rest ∧
    (rest.dropWhile isTrimmed).head? = some quote := by
  have hparse := Lib.Json.parse_eq_some.mp part.parse
  have hopens := part.opens
  cases hobject : part.object with
  | nil =>
    rw [hobject] at hopens
    cases hopens
  | cons u rest =>
    rw [hobject] at hopens hparse
    obtain rfl : u = Kind.obj.opener := Option.some.inj hopens
    obtain ⟨m, hstep, hrest⟩ := accepts_cons.mp hparse
    obtain rfl := Option.some.inj hstep
    refine ⟨rest, rfl, head?_of_accepts_name hrest fun heq => part.nonempty ?_⟩
    injection heq

theorem AnswerPart.isCandidate_object (part : AnswerPart) (t : Text) : isCandidate (part.object ++ t) = true := by
  obtain ⟨rest, hobject, hhead⟩ := part.object_eq
  have hnot : (rest.dropWhile isTrimmed).isEmpty ≠ true := by
    intro hnil
    rw [List.isEmpty_iff.mp hnil] at hhead
    cases hhead
  have hhead' : ((rest ++ t).dropWhile isTrimmed).head? = some quote := by
    rw [List.dropWhile_append, if_neg hnot]
    cases hdrop : rest.dropWhile isTrimmed with
    | nil => exact absurd (List.isEmpty_iff.mpr hdrop) hnot
    | cons v rest' =>
      rw [hdrop] at hhead
      exact hhead
  rw [hobject, List.cons_append, isCandidate, hhead']
  rfl

theorem candidateIdx_part (part : AnswerPart) (t : Text) :
    candidateIdx (part.prose ++ (part.object ++ t)) = some part.prose.length := by
  have hquiet := part.quiet
  generalize part.prose = prose at hquiet
  have hstart := part.isCandidate_object t
  obtain ⟨rest, hobject, -⟩ := part.object_eq
  rw [hobject, List.cons_append] at hstart ⊢
  induction prose with
  | nil => rw [List.nil_append, candidateIdx, if_pos hstart, List.length_nil]
  | cons u prose ih =>
    have hno := isCandidate_append hquiet (List.cons_ne_nil u prose) .obj (rest ++ t)
    rw [List.cons_append] at hno ⊢
    rw [candidateIdx, hno, if_neg Bool.false_ne_true, ih hquiet.tail]
    rfl

/-- The scan finds the objects, one after the other. -/
theorem extractFencedJsonObjects_spell (parts : List AnswerPart) {rest : Text} (h : Quiet rest) :
    extractFencedJsonObjects (spell parts rest) = parts.map (·.object) := by
  induction parts with
  | nil =>
    rw [spell, List.foldr_nil]
    cases rest with
    | nil => rw [extractFencedJsonObjects, List.map_nil]
    | cons u rest => rw [extractFencedJsonObjects, candidateIdx_of_quiet h, List.map_nil]
  | cons part parts ih =>
    set text := spell parts rest with htext
    have hbalanced := findBalancedEnd_container part.container part.prose text
    have hcandidate := candidateIdx_part part text
    obtain ⟨more, hobject, -⟩ := part.object_eq
    have hlen : part.prose.length + (part.object.length - 1) + 1 = (part.prose ++ part.object).length := by
      rw [List.length_append, hobject, List.length_cons]
      omega
    have hne : part.prose ++ (part.object ++ text) ≠ [] := by
      rw [hobject]
      exact List.append_ne_nil_of_right_ne_nil _ (List.cons_ne_nil _ _)
    show extractFencedJsonObjects (part.prose ++ (part.object ++ text)) = _
    obtain ⟨u, tail, hspell⟩ := List.exists_cons_of_ne_nil hne
    rw [hspell] at hbalanced hcandidate ⊢
    have hslice : ((u :: tail).take (part.prose.length + (part.object.length - 1) + 1)).drop part.prose.length =
        part.object := by
      rw [hlen, ← hspell, ← List.append_assoc, List.take_left, List.drop_left]
    have hnext : tail.drop (part.prose.length + (part.object.length - 1)) = text := by
      rw [← List.drop_succ_cons (a := u), hlen, ← hspell, ← List.append_assoc, List.drop_left]
    rw [extractFencedJsonObjects, hcandidate]
    dsimp only
    rw [hbalanced]
    dsimp only
    rw [hslice, hnext, ih, List.map_cons]

/-! ## The last object -/

variable (jsonrepair : Text → Option Text) {T : Type} (accept : Json → Option T)

theorem parseCandidate_part (part : AnswerPart) : parseCandidate jsonrepair part.object = some (.obj part.fields) := by
  rw [parseCandidate, part.parse]

theorem considerSlice_part (last : Option T) (part : AnswerPart) :
    considerSlice jsonrepair accept last part.object = (accept (.obj part.fields)).or last := by
  rw [considerSlice, parseCandidate_part]

/-- The loop keeps the last object accepted so far. -/
theorem considerSlice_foldl (parts : List AnswerPart) (last : Option T) :
    (parts.map (·.object)).foldl (considerSlice jsonrepair accept) last =
      ((parts.map fun part => Json.obj part.fields).filterMap accept).getLast?.or last := by
  induction parts generalizing last with
  | nil => rfl
  | cons part parts ih =>
    rw [List.map_cons, List.foldl_cons, considerSlice_part, ih, List.map_cons]
    cases haccept : accept (.obj part.fields) with
    | none => rw [List.filterMap_cons_none haccept, Option.none_or]
    | some value =>
      rw [List.filterMap_cons_some haccept, List.getLast?_cons]
      cases ((parts.map fun part => Json.obj part.fields).filterMap accept).getLast? <;> rfl

/-- The last object that the caller accepts is the answer. -/
theorem parseJsonLooseValidated_text (a : AgentText) {r : T} (h : (a.values.filterMap accept).getLast? = some r) :
    parseJsonLooseValidated jsonrepair accept a.text = some r := by
  have hobjects := extractFencedJsonObjects_spell a.parts a.quiet
  have hlast := considerSlice_foldl jsonrepair accept a.parts none
  rw [AgentText.values] at h
  rw [h, Option.some_or] at hlast
  rw [parseJsonLooseValidated, AgentText.text, hobjects, hlast]

end Haive.FencedJson

import Haive.Modularity.PromptSteps

/-!
# Markers in rendered prompt steps

A template that passes its checks is rendered, and the reserved opening stands in what is rendered only
where the markers of its own agents start (`renderPromptTemplate_marked`). An occurrence that a value
has no part in could only be one of the template's own text, which the checks refuse, or start a
persona marker: no occurrence runs into one from outside.
-/

namespace Haive.Modularity

open Lib.Units
open Lib (insertAt removeAt tailsAt)

/-! ## Chunks -/

/-- What a piece of a template is rendered to: its unit, a marker or a value. -/
inductive Chunk
  | unit (u : UInt16)
  | marker (raw id : Text)
  | value (raw text : Text)

namespace Chunk

def raw : Chunk → Text
  | unit u => [u]
  | marker raw _ => raw
  | value raw _ => raw

def text : Chunk → Text
  | unit u => [u]
  | marker _ id => personaMarker id
  | value _ text => text

def id? : Chunk → Option Text
  | marker _ id => some id
  | _ => none

def range (p : Nat) : Chunk → List (Nat × Nat)
  | value _ text => [(p, p + text.length)]
  | _ => []

end Chunk

def textOf (cs : List Chunk) : Text := cs.flatMap Chunk.text

def rawOf (cs : List Chunk) : Text := cs.flatMap Chunk.raw

/-- The ranges of the values, from position `p` on. -/
def rangesFrom : Nat → List Chunk → List (Nat × Nat)
  | _, [] => []
  | p, c :: cs => c.range p ++ rangesFrom (p + c.text.length) cs

theorem textOf_cons (c : Chunk) (cs : List Chunk) : textOf (c :: cs) = c.text ++ textOf cs := List.flatMap_cons

theorem rangesFrom_append (p : Nat) (as bs : List Chunk) :
    rangesFrom p (as ++ bs) = rangesFrom p as ++ rangesFrom (p + (textOf as).length) bs := by
  induction as generalizing p with
  | nil => rfl
  | cons c as ih =>
    rw [List.cons_append, rangesFrom, rangesFrom, ih, List.append_assoc, textOf_cons, List.length_append, Nat.add_assoc]

theorem bounds_of_mem_rangesFrom {p : Nat} {cs : List Chunk} {range : Nat × Nat} (h : range ∈ rangesFrom p cs) :
    p ≤ range.1 ∧ range.1 ≤ range.2 ∧ range.2 ≤ p + (textOf cs).length := by
  induction cs generalizing p with
  | nil => cases h
  | cons c cs ih =>
    rw [textOf_cons, List.length_append]
    rcases List.mem_append.mp h with h | h
    · cases c with
      | value raw text =>
        obtain rfl := List.mem_singleton.mp h
        exact ⟨Nat.le_refl _, Nat.le_add_right _ _, Nat.add_le_add_left (Nat.le_add_right _ _) p⟩
      | _ => cases h
    · have hrest := ih h
      omega

def valueText (values : PromptTemplateValues) (token : TokenBody) (ownLine : Bool) : Text :=
  let value := (tokenValue token values).getD []
  if keepsLines token ownLine then value else collapseToLine value

def chunkOf (values : PromptTemplateValues) : Piece → Chunk
  | .unit u => .unit u
  | .token raw none _ => .value raw raw
  | .token raw (some token) ownLine =>
    match token with
    | .agent id => .marker raw id
    | token => .value raw (valueText values token ownLine)

def chunks (values : PromptTemplateValues) (template : Text) : List Chunk := (scanTemplate template).map (chunkOf values)

def substitution (values : PromptTemplateValues) (template : Text) : Text := textOf (chunks values template)

def agentIds (template : Text) : List Text :=
  (scanTemplate template).filterMap fun piece => match piece with
    | .token _ (some (.agent id)) _ => some id
    | _ => none

/-! ## Scanning -/

theorem tokenAt_prefix {t body : Text} (h : tokenAt t = some body) : opening ++ (body ++ closing) <+: t := by
  rw [tokenAt] at h
  split at h
  · next hopen =>
    dsimp only at h
    split at h
    · next hclose =>
      have hbody := Option.some.inj h
      rw [hbody] at hclose
      obtain ⟨rest, rfl⟩ := hopen
      have hdrop : (opening ++ rest).drop 2 = rest := List.drop_left' rfl
      rw [hdrop] at hbody
      obtain ⟨tail, rfl⟩ : body <+: rest := hbody ▸ List.takeWhile_prefix _
      have htail : (opening ++ (body ++ tail)).drop (2 + body.length) = tail := by
        rw [← List.append_assoc]
        exact List.drop_left' List.length_append
      rw [htail] at hclose
      exact (List.prefix_append_right_inj _).mpr ((List.prefix_append_right_inj _).mpr hclose)
    · cases h
  · cases h

/-- The pieces are the template. -/
theorem scanFrom_raw (skip : Nat) (atStart : Bool) (t : Text) :
    (scanFrom skip atStart t).flatMap Piece.raw = t.drop skip := by
  induction t generalizing skip atStart with
  | nil => rw [scanFrom, List.drop_nil, List.flatMap_nil]
  | cons u rest ih =>
    cases skip with
    | succ skip => rw [scanFrom, ih, List.drop_succ_cons]
    | zero =>
      rw [scanFrom]
      split
      · next body htoken =>
        obtain ⟨tail, htail⟩ := tokenAt_prefix htoken
        have hraw : opening ++ body ++ closing = opening ++ (body ++ closing) := List.append_assoc _ _ _
        have hpos : 0 < (opening ++ (body ++ closing)).length := Nat.succ_pos _
        have hrest : rest.drop ((opening ++ (body ++ closing)).length - 1) = tail := by
          rw [← List.drop_succ_cons (a := u), Nat.sub_add_cancel hpos, ← htail, List.drop_left]
        rw [List.flatMap_cons, ih, Piece.raw, List.drop_zero, hraw, hrest, htail]
      · rw [List.flatMap_cons, ih]
        rfl

theorem rawOf_chunks (values : PromptTemplateValues) (template : Text) : rawOf (chunks values template) = template := by
  have hraw : ∀ piece, (chunkOf values piece).raw = piece.raw := by
    intro piece
    cases piece with
    | unit u => rfl
    | token raw body ownLine =>
      cases body with
      | none => rfl
      | some token => cases token <;> rfl
  have hall := scanFrom_raw 0 true template
  rw [rawOf, chunks, List.flatMap_map]
  simp only [hraw]
  exact hall

/-! ## Accepted templates -/

/-- What the checks leave of a piece. -/
def Acceptable : Piece → Prop
  | .unit _ => True
  | .token _ none _ => False
  | .token _ (some token) ownLine =>
    match token with
    | .agent id => isPersonaId id = true
    | .integration id => accountRequirementId id ≠ none
    | .step _ => ownLine = true
    | _ => True

theorem acceptable_of_tokenProblems {entry : PromptStepEntry} {ctx : ValidationContext} {start : Nat} {piece : Piece}
    (h : tokenProblems entry ctx start piece = []) : Acceptable piece := by
  cases piece with
  | unit u => trivial
  | token raw body ownLine =>
    cases body with
    | none => cases h
    | some token =>
      cases token with
      | agent id =>
        show isPersonaId id = true
        by_contra hno
        rw [tokenProblems] at h
        simp [hno] at h
      | integration id =>
        intro hnone
        rw [tokenProblems] at h
        simp [hnone] at h
      | step id =>
        show ownLine = true
        by_contra hno
        rw [tokenProblems] at h
        simp [hno] at h
      | _ => trivial

theorem acceptable_of_piecesProblems {entry : PromptStepEntry} {ctx : ValidationContext} {start : Nat}
    {pieces : List Piece} (h : piecesProblems entry ctx start pieces = []) : ∀ piece ∈ pieces, Acceptable piece := by
  induction pieces generalizing start with
  | nil => exact fun _ hmem => absurd hmem List.not_mem_nil
  | cons piece pieces ih =>
    rw [piecesProblems, List.append_eq_nil_iff] at h
    exact List.forall_mem_cons.mpr ⟨acceptable_of_tokenProblems h.1, ih h.2⟩

theorem of_validatePromptStep {entry : PromptStepEntry} {ctx : ValidationContext} {others : List PromptStepProblem}
    (h : validatePromptStep entry ctx others = []) :
    (∀ piece ∈ scanTemplate entry.template, Acceptable piece) ∧ ¬ RESERVED_MARKER_OPEN <:+: entry.template := by
  rw [validatePromptStep] at h
  simp only [List.append_eq_nil_iff] at h
  obtain ⟨⟨⟨⟨⟨⟨⟨⟨hunknown, htokens⟩, hreserved⟩, -⟩, -⟩, -⟩, -⟩, -⟩, -⟩ := h
  refine ⟨@acceptable_of_piecesProblems entry ctx 0 _ ?_, fun hinfix => ?_⟩
  · refine List.eq_nil_iff_forall_not_mem.mpr fun problem hmem => ?_
    have h₁ := List.filter_eq_nil_iff.mp hunknown problem hmem
    have h₂ := List.filter_eq_nil_iff.mp htokens problem hmem
    rw [Bool.not_eq_true'] at h₂
    exact h₁ (by simpa using h₂)
  · rw [if_pos] at hreserved
    · cases hreserved
    · rw [carriesReserved, decide_eq_true hinfix]
      rfl

/-! ## Rendering an accepted template -/

/-- A piece that the checks leave is rendered, without an error, to its chunk. -/
theorem renderPiece_of_acceptable (values : PromptTemplateValues) (r : Rendered) {piece : Piece}
    (h : Acceptable piece) : renderPiece values r piece =
      .ok ⟨r.out ++ (chunkOf values piece).text, r.dynamic ++ (chunkOf values piece).range r.out.length⟩ := by
  have hempty : r.dynamic = r.dynamic ++ [] := (List.append_nil _).symm
  cases piece with
  | unit u => exact congrArg (fun dynamic => Except.ok (Rendered.mk (r.out ++ [u]) dynamic)) hempty
  | token raw body ownLine =>
    cases body with
    | none => exact h.elim
    | some token =>
      cases token with
      | agent id =>
        have hid : isPersonaId id = true := h
        rw [renderPiece, if_pos hid]
        exact congrArg (fun dynamic => Except.ok (Rendered.mk (r.out ++ personaMarker id) dynamic)) hempty
      | integration id =>
        obtain ⟨requirementId, hid⟩ := Option.ne_none_iff_exists'.mp h
        have hvalue : tokenValue (.integration id) values = some (own values.integrations requirementId) :=
          congrArg (Option.map (own values.integrations)) hid
        have hchunk : chunkOf values (.token raw (some (.integration id)) ownLine) =
            .value raw (valueText values (.integration id) ownLine) := rfl
        rw [hchunk, Chunk.text, Chunk.range, valueText, hvalue]
        simp only [renderPiece, hvalue]
        rfl
      | step id =>
        obtain rfl : ownLine = true := h
        rfl
      | field | taskTitle | taskDescription => rfl

theorem renderPieces_of_acceptable (values : PromptTemplateValues) {pieces : List Piece}
    (h : ∀ piece ∈ pieces, Acceptable piece) (r : Rendered) :
    pieces.foldlM (renderPiece values) r = .ok ⟨r.out ++ textOf (pieces.map (chunkOf values)),
      r.dynamic ++ rangesFrom r.out.length (pieces.map (chunkOf values))⟩ := by
  induction pieces generalizing r with
  | nil =>
    show Except.ok r = _
    rw [List.map_nil, textOf, List.flatMap_nil, List.append_nil, rangesFrom, List.append_nil]
  | cons piece pieces ih =>
    obtain ⟨hpiece, hpieces⟩ := List.forall_mem_cons.mp h
    rw [List.foldlM_cons, renderPiece_of_acceptable values r hpiece, List.map_cons, textOf_cons, rangesFrom]
    refine (ih hpieces _).trans ?_
    dsimp only
    rw [List.length_append, List.append_assoc, List.append_assoc]

/-! ## The opening and the marker -/

abbrev PERSONA_OPEN : Text := units "[[HAIVE_TEMPLATE_PERSONA:"

theorem blank_not_mem_opening : blank ∉ RESERVED_MARKER_OPEN := by decide

theorem opening_ne_nil : RESERVED_MARKER_OPEN ≠ [] := by decide

theorem opening_prefix_marker (id : Text) : RESERVED_MARKER_OPEN <+: personaMarker id :=
  List.IsPrefix.trans (by decide : RESERVED_MARKER_OPEN <+: PERSONA_OPEN) (List.prefix_append _ _)

/-- Nothing of the opening but all of it runs into a marker. -/
theorem not_tail_prefix_marker : ∀ w ∈ RESERVED_MARKER_OPEN.tail.tails, w ≠ [] → ¬ w <+: PERSONA_OPEN := by decide

theorem not_suffix_prefix_marker {w : Text} (hw : w <:+ RESERVED_MARKER_OPEN.tail) (hne : w ≠ []) (id t : Text) :
    ¬ w <+: personaMarker id ++ t := by
  intro h
  rw [personaMarker, List.append_assoc] at h
  refine not_tail_prefix_marker w ((List.mem_tails w _).mpr hw) hne ?_
  exact List.prefix_of_prefix_length_le h (List.prefix_append _ _) (hw.length_le.trans (by decide))

theorem plain_of_isPersonaId {id : Text} (h : isPersonaId id = true) : 0x5b ∉ id ∧ 0x3c ∉ id := by
  rw [isPersonaId, Bool.and_eq_true] at h
  exact ⟨fun hmem => absurd (List.all_eq_true.mp h.2 _ hmem) (by decide),
    fun hmem => absurd (List.all_eq_true.mp h.2 _ hmem) (by decide)⟩

theorem bracket_not_mem_marker {id : Text} (h : isPersonaId id = true) : 0x5b ∉ (personaMarker id).drop 2 := by
  rw [personaMarker, List.drop_append_of_le_length (by decide), List.mem_append, List.mem_append]
  rintro (hmem | hmem | hmem)
  · exact absurd hmem (by decide)
  · exact (plain_of_isPersonaId h).1 hmem
  · exact absurd hmem (by decide)

theorem angle_not_mem_marker {id : Text} (h : isPersonaId id = true) : 0x3c ∉ personaMarker id := by
  rw [personaMarker, List.mem_append, List.mem_append]
  rintro (hmem | hmem | hmem)
  · exact absurd hmem (by decide)
  · exact (plain_of_isPersonaId h).2 hmem
  · exact absurd hmem (by decide)

theorem le_length_marker (id : Text) : 25 ≤ (personaMarker id).length := by
  rw [personaMarker, List.length_append]
  exact Nat.le_add_right 25 _

/-- The opening stands in a marker only at its start. -/
theorem not_opening_drop_marker {id : Text} (h : isPersonaId id = true) {i : Nat} (hpos : 0 < i)
    (hi : i < (personaMarker id).length) (t : Text) : ¬ RESERVED_MARKER_OPEN <+: (personaMarker id ++ t).drop i := by
  intro hp
  rw [List.drop_append_of_le_length hi.le] at hp
  rcases Nat.lt_or_ge i 2 with hlt | hge
  · obtain rfl : i = 1 := by omega
    have hdrop : (personaMarker id).drop 1 = units "[HAIVE_TEMPLATE_PERSONA:" ++ (id ++ units "]]") := rfl
    rw [hdrop, List.append_assoc] at hp
    have hshort : RESERVED_MARKER_OPEN <+: units "[HAIVE_TEMPLATE_PERSONA:" :=
      List.prefix_of_prefix_length_le hp (List.prefix_append _ _) (by decide)
    exact absurd hshort (by decide)
  · obtain ⟨rest, hrest⟩ := hp
    have hne : (personaMarker id).drop i ≠ [] := List.drop_eq_nil_iff.not.mpr (Nat.not_le.mpr hi)
    obtain ⟨u, tail, hcons⟩ := List.exists_cons_of_ne_nil hne
    rw [hcons] at hrest
    obtain rfl : (0x5b : UInt16) = u := (List.cons.inj hrest).1
    refine bracket_not_mem_marker h ?_
    obtain ⟨j, rfl⟩ := Nat.exists_eq_add_of_le hge
    rw [← List.drop_drop] at hcons
    exact (List.drop_suffix j _).subset (hcons ▸ List.mem_cons_self)

/-! ## Seams -/

/-- What is left of the opening runs over units of the template, or a value stands in its way. -/
theorem prefix_textOf {w : Text} (hw : w <:+ RESERVED_MARKER_OPEN.tail) {cs : List Chunk} (h : w <+: textOf cs)
    (p : Nat) : (∃ range ∈ rangesFrom p cs, range.1 < p + w.length) ∨ w <+: rawOf cs := by
  induction cs generalizing w p with
  | nil =>
    obtain rfl := List.prefix_nil.mp h
    exact .inr List.nil_prefix
  | cons c cs ih =>
    cases w with
    | nil => exact .inr List.nil_prefix
    | cons v w =>
      cases c with
      | unit u =>
        rw [textOf_cons, Chunk.text, List.singleton_append, List.cons_prefix_cons] at h
        rcases ih ((List.suffix_cons v w).trans hw) h.2 (p + 1) with ⟨range, hmem, hlt⟩ | hraw
        · refine .inl ⟨range, hmem, ?_⟩
          rw [List.length_cons]
          omega
        · refine .inr ?_
          rw [rawOf, List.flatMap_cons, Chunk.raw, List.singleton_append, List.cons_prefix_cons]
          exact ⟨h.1, hraw⟩
      | marker raw id =>
        rw [textOf_cons] at h
        exact absurd h (not_suffix_prefix_marker hw (List.cons_ne_nil v w) id _)
      | value raw text =>
        refine .inl ⟨(p, p + text.length), List.mem_cons_self, ?_⟩
        rw [List.length_cons]
        omega

section Cuts

variable {before behind : List Chunk} {c : Chunk}

def chunkCuts (cs : List Chunk) : List Nat := cutsOf (textOf cs) (rangesFrom 0 cs)

theorem textOf_append (as bs : List Chunk) : textOf (as ++ bs) = textOf as ++ textOf bs := List.flatMap_append

theorem mem_markerCuts {text : Text} {dynamic : List (Nat × Nat)} {index : Nat} : index + 2 ∈ markerCuts text dynamic ↔
    RESERVED_MARKER_OPEN <+: text.drop index ∧ ∃ range ∈ dynamic, index < range.2 ∧ range.1 < index + 8 := by
  rw [markerCuts, List.mem_map]
  constructor
  · rintro ⟨i, hi, heq⟩
    obtain rfl : i = index := Nat.add_right_cancel heq
    obtain ⟨-, hcut⟩ := List.mem_filter.mp hi
    rw [Bool.and_eq_true, decide_eq_true_eq, List.any_eq_true] at hcut
    obtain ⟨hat, range, hmem, hrange⟩ := hcut
    rw [Bool.and_eq_true, decide_eq_true_eq, decide_eq_true_eq] at hrange
    exact ⟨hat, range, hmem, hrange⟩
  · rintro ⟨hat, range, hmem, hrange⟩
    refine ⟨index, List.mem_filter.mpr ⟨List.mem_range.mpr ?_, ?_⟩, rfl⟩
    · have hlen := hat.length_le
      rw [List.length_drop] at hlen
      have hopen : RESERVED_MARKER_OPEN.length = 8 := rfl
      omega
    · rw [Bool.and_eq_true, decide_eq_true_eq, List.any_eq_true]
      refine ⟨hat, range, hmem, ?_⟩
      rw [Bool.and_eq_true, decide_eq_true_eq, decide_eq_true_eq]
      exact hrange

/-- The text from inside a chunk on. -/
theorem drop_textOf (i : Nat) :
    (textOf (before ++ c :: behind)).drop ((textOf before).length + i) = (c.text ++ textOf behind).drop i := by
  rw [textOf_append, textOf_cons, ← List.drop_drop, List.drop_left]

theorem mem_rangesFrom {range : Nat × Nat} : range ∈ rangesFrom 0 (before ++ c :: behind) ↔
    range ∈ rangesFrom 0 before ∨ range ∈ c.range (textOf before).length ∨
      range ∈ rangesFrom ((textOf before).length + c.text.length) behind := by
  rw [rangesFrom_append, Nat.zero_add, rangesFrom, List.mem_append, List.mem_append]

/-- Every occurrence that starts outside the markers is cut. -/
theorem cut_of_opening (hraw : ¬ RESERVED_MARKER_OPEN <:+: rawOf (before ++ c :: behind)) (hc : c.id? = none) {i : Nat}
    (hi : i < c.text.length) (h : RESERVED_MARKER_OPEN <+: (c.text ++ textOf behind).drop i) :
    (textOf before).length + i + 2 ∈ chunkCuts (before ++ c :: behind) := by
  refine List.mem_append_left _ (mem_markerCuts.mpr ⟨by rwa [drop_textOf], ?_⟩)
  cases c with
  | unit u =>
    obtain rfl : i = 0 := Nat.lt_one_iff.mp hi
    rw [List.drop_zero, Chunk.text, List.singleton_append] at h
    have htail : RESERVED_MARKER_OPEN.tail <+: textOf behind := (List.cons_prefix_cons.mp h).2
    have hhead := (List.cons_prefix_cons.mp h).1
    rcases prefix_textOf List.suffix_rfl htail ((textOf before).length + 1) with ⟨range, hmem, hlt⟩ | hp
    · obtain ⟨hle, hle', -⟩ := bounds_of_mem_rangesFrom hmem
      have hlength : RESERVED_MARKER_OPEN.tail.length = 7 := rfl
      exact ⟨range, mem_rangesFrom.mpr (.inr (.inr hmem)), by omega, by omega⟩
    · refine absurd ?_ hraw
      have hinfix : RESERVED_MARKER_OPEN <+: u :: rawOf behind := List.cons_prefix_cons.mpr ⟨hhead, hp⟩
      rw [rawOf, List.flatMap_append, List.flatMap_cons]
      exact hinfix.isInfix.trans (List.suffix_append _ _).isInfix
  | marker raw id => cases hc
  | value raw text =>
    refine ⟨((textOf before).length, (textOf before).length + text.length),
      mem_rangesFrom.mpr (.inr (.inl List.mem_cons_self)), ?_, ?_⟩
    · exact Nat.add_lt_add_left hi _
    · show (textOf before).length < (textOf before).length + i + 8
      omega

theorem uncut_marker {raw id : Text} (hid : isPersonaId id = true) {i : Nat} (hpos : 0 < i)
    (hi : i < (personaMarker id).length) :
    (textOf before).length + i ∉ chunkCuts (before ++ .marker raw id :: behind) := by
  have hdrop : ∀ j, (textOf (before ++ .marker raw id :: behind)).drop ((textOf before).length + j) =
      (personaMarker id ++ textOf behind).drop j := drop_textOf
  intro hmem
  rcases List.mem_append.mp hmem with hmem | hmem
  · obtain ⟨index, -, heq⟩ := List.mem_map.mp hmem
    rw [← heq] at hmem
    obtain ⟨hopen, range, hrange, hend, hstart⟩ := mem_markerCuts.mp hmem
    rcases Nat.lt_or_ge index (textOf before).length with hlt | hge
    · -- The opening would run from the unit before into the marker.
      obtain rfl : i = 1 := by omega
      have hone : (textOf (before ++ .marker raw id :: behind)).drop (index + 1) = personaMarker id ++ textOf behind := by
        have hindex : index + 1 = (textOf before).length + 0 := by omega
        rw [hindex, hdrop, List.drop_zero]
      have htail : RESERVED_MARKER_OPEN.tail <+: personaMarker id ++ textOf behind := by
        obtain ⟨rest, hrest⟩ := hopen
        have hdropped := congrArg (List.drop 1) hrest
        rw [List.drop_drop, hone] at hdropped
        exact ⟨rest, hdropped⟩
      exact not_suffix_prefix_marker List.suffix_rfl (by decide) id _ htail
    · obtain ⟨k, rfl⟩ := Nat.exists_eq_add_of_le hge
      rw [hdrop] at hopen
      rcases Nat.eq_zero_or_pos k with rfl | hk
      · rcases mem_rangesFrom.mp hrange with hrange | hrange | hrange
        · have hbefore := (bounds_of_mem_rangesFrom hrange).2.2
          omega
        · cases hrange
        · have hbehind := (bounds_of_mem_rangesFrom hrange).1
          have hlength : 25 ≤ (Chunk.marker raw id).text.length := le_length_marker id
          omega
      · exact not_opening_drop_marker hid hk (by omega) _ hopen
  · rw [leadCut] at hmem
    split at hmem
    · next hlead =>
      -- The bracket in front of the cut would stand in the marker.
      have heq := List.mem_singleton.mp hmem
      obtain ⟨j, rfl⟩ := Nat.exists_eq_add_of_lt hpos
      rw [Nat.zero_add, ← Nat.add_assoc] at heq
      rw [← Nat.add_right_cancel heq, hdrop, List.drop_append_of_le_length (by omega)] at hlead
      have hne : (personaMarker id).drop j ≠ [] := List.drop_eq_nil_iff.not.mpr (by omega)
      obtain ⟨u, tail, hcons⟩ := List.exists_cons_of_ne_nil hne
      rw [hcons] at hlead
      obtain rfl : (0x3c : UInt16) = u := (List.cons_prefix_cons.mp hlead).1
      exact angle_not_mem_marker hid ((List.drop_suffix j _).subset (hcons ▸ List.mem_cons_self))
    · cases hmem

end Cuts

/-! ## Rendered templates -/

/-- From a chunk on, the opening stands where the markers of the chunks start and nowhere else. -/
theorem tailsAt_chunks {before behind : List Chunk} (hraw : ¬ RESERVED_MARKER_OPEN <:+: rawOf (before ++ behind))
    (hids : ∀ c ∈ behind, ∀ id, c.id? = some id → isPersonaId id = true) :
    (behind.filterMap Chunk.id?).Forall₂ (fun id tail => personaMarker id <+: tail)
      (tailsAt RESERVED_MARKER_OPEN
        (insertAt blank (chunkCuts (before ++ behind)) (textOf before).length (textOf behind))) := by
  induction behind generalizing before with
  | nil =>
    have hnone := Lib.tailsAt_replicate blank_not_mem_opening opening_ne_nil
      ((chunkCuts (before ++ [])).count (textOf before).length) []
    rw [List.append_nil] at hnone
    show List.Forall₂ _ [] (tailsAt _ (insertAt blank _ _ []))
    rw [insertAt, hnone]
    exact .nil
  | cons c behind ih =>
    obtain ⟨hc, hbehind⟩ := List.forall_mem_cons.mp hids
    have hsplit : before ++ c :: behind = (before ++ [c]) ++ behind := List.append_cons before c behind
    have hlength : (textOf before).length + c.text.length = (textOf (before ++ [c])).length := by
      rw [textOf_append, textOf_cons, List.length_append, List.length_append]
      rfl
    have hrest := @ih (before ++ [c]) (hsplit ▸ hraw) hbehind
    rw [← hsplit, ← hlength] at hrest
    rw [textOf_cons]
    cases hid : c.id? with
    | none =>
      have hcut : ∀ i < c.text.length, RESERVED_MARKER_OPEN <+: (c.text ++ textOf behind).drop i → ∃ j, 0 < j ∧
          j < RESERVED_MARKER_OPEN.length ∧ (textOf before).length + i + j ∈ chunkCuts (before ++ c :: behind) :=
        fun i hi hopen => ⟨2, Nat.two_pos, by decide, cut_of_opening hraw hid hi hopen⟩
      rw [Lib.tailsAt_insertAt_of_cut blank_not_mem_opening opening_ne_nil hcut, List.filterMap_cons_none hid]
      exact hrest
    | some id =>
      cases c with
      | marker raw own =>
        obtain rfl : own = id := Option.some.inj hid
        have hown := hc own rfl
        have huncut : ∀ i, 0 < i → i < (personaMarker own).length →
            (textOf before).length + i ∉ chunkCuts (before ++ .marker raw own :: behind) :=
          fun i hpos hi => uncut_marker hown hpos hi
        have honce : ∀ i, 0 < i → i < (personaMarker own).length →
            ¬ RESERVED_MARKER_OPEN <+: (personaMarker own ++ textOf behind).drop i :=
          fun i hpos hi => not_opening_drop_marker hown hpos hi _
        rw [Chunk.text, Lib.tailsAt_insertAt_of_uncut blank_not_mem_opening opening_ne_nil (opening_prefix_marker own) huncut
          honce, List.filterMap_cons_some hid]
        exact .cons (List.prefix_append _ _) hrest
      | _ => cases hid

/-- The white space in front is not cut, nor the unit behind it from it. -/
theorem uncut_spaces {text : Text} {dynamic : List (Nat × Nat)} {i : Nat}
    (hi : i ≤ (text.takeWhile isTrimmed).length) : i ∉ cutsOf text dynamic := by
  intro hmem
  rcases List.mem_append.mp hmem with hmem | hmem
  · obtain ⟨index, -, rfl⟩ := List.mem_map.mp hmem
    have hat := (mem_markerCuts.mp hmem).1
    have hlt : index < (text.takeWhile isTrimmed).length := by omega
    -- White space is no bracket.
    obtain ⟨rest, hrest⟩ := hat
    have hbracket : text[index]? = some 0x5b := by
      have hhead := congrArg List.head? hrest
      rw [List.head?_drop] at hhead
      exact hhead.symm
    have hspace := List.prefix_iff_getElem?.mp (List.takeWhile_prefix isTrimmed) index hlt
    rw [hbracket] at hspace
    have hmem : 0x5b ∈ text.takeWhile isTrimmed := Option.some.inj hspace ▸ List.getElem_mem hlt
    exact absurd (List.mem_takeWhile_imp hmem) (by decide)
  · rw [leadCut] at hmem
    split at hmem
    · have heq := List.mem_singleton.mp hmem
      omega
    · cases hmem

/-- The text opens, behind white space, with no block tag. -/
theorem not_preamble_neutralise (text : Text) (dynamic : List (Nat × Nat)) :
    ¬ PREAMBLE_OPEN <+: (neutralise text dynamic).dropWhile isTrimmed := by
  let spaces := text.takeWhile isTrimmed
  let rest := text.dropWhile isTrimmed
  have htext : spaces ++ rest = text := List.takeWhile_append_dropWhile
  have hspaces : ∀ u ∈ spaces, isTrimmed u = true := fun u hu => List.mem_takeWhile_imp hu
  have hdrop : text.drop spaces.length = rest := by rw [← htext, List.drop_left]
  have huncut : ∀ i ≤ spaces.length, i ∉ cutsOf text dynamic := fun i hi hmem => uncut_spaces hi hmem
  have hstart : ∀ i < spaces.length, 0 + i ∉ cutsOf text dynamic := fun i hi => (Nat.zero_add i).symm ▸ huncut i hi.le
  have hneutral : neutralise text dynamic = spaces ++ insertAt blank (cutsOf text dynamic) spaces.length rest := by
    have happend := @Lib.insertAt_append_of_uncut _ blank _ _ 0 hstart rest
    rwa [htext, Nat.zero_add] at happend
  rw [hneutral, List.dropWhile_append_of_pos hspaces]
  have hcount : (cutsOf text dynamic).count spaces.length = 0 := List.count_eq_zero.mpr (huncut _ (Nat.le_refl _))
  cases hrest : rest with
  | nil =>
    rw [insertAt, hcount]
    exact List.prefix_nil.not.mpr (by decide)
  | cons u t =>
    have hu : isTrimmed u = false := by
      have hhead := List.head?_dropWhile_not isTrimmed text
      rw [show text.dropWhile isTrimmed = u :: t from hrest] at hhead
      exact hhead
    rw [insertAt, hcount, List.replicate_zero, List.nil_append, List.dropWhile_cons_of_neg (Bool.eq_false_iff.mp hu),
      Lib.prefix_cons_insertAt_iff (by decide)]
    rintro ⟨hlead, hnone⟩
    refine hnone 1 Nat.one_pos (by decide) (List.mem_append_right _ ?_)
    rw [leadCut, if_pos (hdrop ▸ hrest ▸ hlead)]
    exact List.mem_singleton_self _

theorem filterMap_chunks (values : PromptTemplateValues) (template : Text) :
    (chunks values template).filterMap Chunk.id? = agentIds template := by
  rw [chunks, List.filterMap_map, agentIds]
  congr 1
  funext piece
  cases piece with
  | unit u => rfl
  | token raw body ownLine =>
    cases body with
    | none => rfl
    | some token => cases token <;> rfl

theorem isPersonaId_of_acceptable {values : PromptTemplateValues} {piece : Piece} (h : Acceptable piece) {id : Text}
    (hid : (chunkOf values piece).id? = some id) : isPersonaId id = true := by
  cases piece with
  | unit u => cases hid
  | token raw body ownLine =>
    cases body with
    | none => cases hid
    | some token =>
      cases token with
      | agent own =>
        obtain rfl : own = id := Option.some.inj hid
        exact h
      | _ => cases hid

/-- An accepted template is rendered without an error: the opening stands only where the markers of its
own agents start, in their order, no block tag leads, and without the blanks that were put in the text is
the plain substitution. -/
theorem renderPromptTemplate_marked (entry : PromptStepEntry) (ctx : ValidationContext)
    (others : List PromptStepProblem) (values : PromptTemplateValues) (h : validatePromptStep entry ctx others = []) :
    ∃ r output, renderPieces values (scanTemplate entry.template) = .ok r ∧ r.out = substitution values entry.template ∧
      output = neutralise r.out r.dynamic ∧ renderPromptTemplate entry.template values = .ok output ∧
      (agentIds entry.template).Forall₂ (fun id tail => personaMarker id <+: tail)
        (tailsAt RESERVED_MARKER_OPEN output) ∧
      ¬ PREAMBLE_OPEN <+: output.dropWhile isTrimmed ∧
      removeAt (cutsOf r.out r.dynamic) 0 ((cutsOf r.out r.dynamic).count 0) output = r.out := by
  obtain ⟨hpieces, hreserved⟩ := of_validatePromptStep h
  have hrender := renderPieces_of_acceptable values hpieces ⟨[], []⟩
  have hids : ∀ c ∈ chunks values entry.template, ∀ id, c.id? = some id → isPersonaId id = true := by
    intro c hc id hid
    obtain ⟨piece, hpiece, rfl⟩ := List.mem_map.mp hc
    exact isPersonaId_of_acceptable (hpieces piece hpiece) hid
  have htails := @tailsAt_chunks [] (chunks values entry.template) (by rwa [List.nil_append, rawOf_chunks]) hids
  rw [filterMap_chunks] at htails
  refine ⟨⟨substitution values entry.template, rangesFrom 0 (chunks values entry.template)⟩, _, hrender, rfl, rfl, ?_,
    htails, not_preamble_neutralise _ _, Lib.removeAt_insertAt blank _ 0 _⟩
  rw [renderPromptTemplate, renderPieces, hrender]
  rfl

/-- A field that would complete a marker behind the marker of an agent. -/
def greeting : PromptStepEntry :=
  ⟨units "\x7b\x7bagent:a\x7d\x7d[\x7b\x7bfield:f\x7d\x7d", [.plain (units "text") (units "f")], 60000, [], none, []⟩

theorem renderPromptTemplate_marked_greeting : ∃ output,
    renderPromptTemplate greeting.template ⟨[(units "f", units "[HAIVE_")], [], [], [], []⟩ = .ok output ∧
      ¬ PREAMBLE_OPEN <+: output.dropWhile isTrimmed :=
  have ⟨_, output, _, _, _, hrender, _, hlead, _⟩ := renderPromptTemplate_marked greeting ⟨units "t", true, [], none⟩ []
    ⟨[(units "f", units "[HAIVE_")], [], [], [], []⟩ rfl
  ⟨output, hrender, hlead⟩

end Haive.Modularity

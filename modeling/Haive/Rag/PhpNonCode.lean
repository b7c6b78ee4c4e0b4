import Haive.Lib.Pieces
import Haive.Rag.Literals

/-!
# What is not code in a PHP file

`phpNonCode` of `_rag-chunkers.ts`: inline HTML, comments, strings with what is interpolated in them, heredocs.
`phpPiece` is a turn of its loop; each moves on and keeps its spans inside of what it read.
-/

namespace Haive.Rag

open Lib.Spans Lib.Units
open Lib (Found Regex)

/-! ## Patterns -/

/-- A character up to ASCII case, as the flag `i` takes it. -/
def foldAscii (u : UInt16) : UInt16 := if 0x41 ≤ u && u ≤ 0x5a then u + 0x20 else u

def anyCase (s : String) : Regex UInt16 := .word (fun a u => foldAscii a = foldAscii u) (units s)

def exactly (s : String) : Regex UInt16 := .word (fun a u => a = u) (units s)

/-- `\s`. -/
def space : Regex UInt16 := .unit isTrimmed

/-- `[ \t]*`. -/
def blanks : Regex UInt16 := .many (.unit isBlank)

/-- `\b`. -/
def wordBoundary : Regex UInt16 :=
  .assert fun text i => (i ≠ 0 && (text[i - 1]?).any isWord) != (text[i]?).any isWord

def PHP_OPEN_TAG : Regex UInt16 :=
  .seq (exactly "<?") (.alts [.seq (anyCase "php") (.ahead (.alts [space, atEnd])), exactly "=",
    .notAhead (.seq (anyCase "xml") wordBoundary)])

/-- `[A-Za-z_\u0080-\uFFFF]`. -/
def isLabelStart (u : UInt16) : Bool := isLetter u || u = ch '_' || 0x80 ≤ u

/-- `PHP_LABEL_CHAR`. -/
def isLabelChar (u : UInt16) : Bool := isWord u || 0x80 ≤ u

def PHP_LABEL : Regex UInt16 := .seq (.unit isLabelStart) (.many (.unit isLabelChar))

def PHP_HEREDOC : Regex UInt16 :=
  .seqs [exactly "<<<", blanks,
    .alts [.seqs [.unit (· = 0x27), .group 1 PHP_LABEL, .unit (· = 0x27)],
      .seqs [.unit (· = 0x22), .group 2 PHP_LABEL, .unit (· = 0x22)], .group 3 PHP_LABEL],
    .alts [.seq (.unit (· = 13)) (.opt (.unit (· = 10))), .unit (· = 10)]]

/-! ## Strings and heredocs -/

def interpolationEndFrom (text : Text) (depth : Int) (i : Nat) : Nat :=
  if i < text.length then
    if isAt text i '"' || isAt text i '\'' then interpolationEndFrom text depth (quotedEnd text i)
    else if isAt text i '{' then interpolationEndFrom text (depth + 1) (i + 1)
    else if isAt text i '}' then
      if depth - 1 = 0 then i + 1 else interpolationEndFrom text (depth - 1) (i + 1)
    else interpolationEndFrom text depth (i + 1)
  else text.length
termination_by text.length - i
decreasing_by
  · next hlt _ =>
    have hend := (quotedEnd_bounds hlt).1
    omega
  all_goals omega

def interpolationEnd (text : Text) (start : Nat) : Nat := interpolationEndFrom text 0 start

theorem interpolationEndFrom_bounds {text : Text} {depth : Int} {i : Nat} (hi : i ≤ text.length) :
    i ≤ interpolationEndFrom text depth i ∧ interpolationEndFrom text depth i ≤ text.length := by
  fun_induction interpolationEndFrom text depth i with
  | case1 depth i hlt hquote ih =>
    have hend := quotedEnd_bounds hlt
    exact ⟨hend.1.le.trans (ih hend.2).1, (ih hend.2).2⟩
  | case2 depth i hlt hquote hopen ih => exact ⟨(Nat.le_succ i).trans (ih hlt).1, (ih hlt).2⟩
  | case3 depth i hlt hquote hopen hclose hlast => exact ⟨Nat.le_succ i, hlt⟩
  | case4 depth i hlt hquote hopen hclose hlast ih => exact ⟨(Nat.le_succ i).trans (ih hlt).1, (ih hlt).2⟩
  | case5 depth i hlt hquote hopen hclose ih => exact ⟨(Nat.le_succ i).trans (ih hlt).1, (ih hlt).2⟩
  | case6 depth i hge => exact ⟨hi, Nat.le_refl _⟩

/-- At an opening bracket it moves on. -/
theorem interpolationEnd_bounds {text : Text} {i : Nat} (h : isAt text i '{' = true) :
    i < interpolationEnd text i ∧ interpolationEnd text i ≤ text.length := by
  have hlt := lt_length_of_isAt h
  have hother : ∀ c, ch '{' ≠ ch c → isAt text i c = false := by
    intro c hc
    refine Bool.eq_false_iff.mpr fun hat => hc ?_
    exact Option.some.inj ((of_decide_eq_true h).symm.trans (of_decide_eq_true hat))
  have hquote : (isAt text i '"' || isAt text i '\'') = false := by
    rw [hother '"' (by decide), hother '\'' (by decide)]
    rfl
  rw [interpolationEnd, interpolationEndFrom, if_pos hlt, hquote, if_neg Bool.false_ne_true, if_pos h]
  exact interpolationEndFrom_bounds hlt

def phpDoubleQuotedEndFrom (text : Text) (i : Nat) : Nat :=
  if i < text.length then
    if isAt text i '\\' then phpDoubleQuotedEndFrom text (i + 2)
    else if isAt text i '"' then i + 1
    else if _h : isAt text i '{' ∧ isAt text (i + 1) '$' then phpDoubleQuotedEndFrom text (interpolationEnd text i)
    else if _h : isAt text i '$' ∧ isAt text (i + 1) '{' then
      phpDoubleQuotedEndFrom text (interpolationEnd text (i + 1))
    else phpDoubleQuotedEndFrom text (i + 1)
  else text.length
termination_by text.length - i
decreasing_by
  · omega
  · have hend := (interpolationEnd_bounds _h.1).1
    omega
  · have hend := (interpolationEnd_bounds _h.2).1
    omega
  · omega

def phpDoubleQuotedEnd (text : Text) (start : Nat) : Nat := phpDoubleQuotedEndFrom text (start + 1)

theorem phpDoubleQuotedEnd_bounds {text : Text} {i : Nat} (h : i < text.length) :
    i < phpDoubleQuotedEnd text i ∧ phpDoubleQuotedEnd text i ≤ text.length := by
  have hgoal : ∀ k, min k text.length ≤ phpDoubleQuotedEndFrom text k ∧ phpDoubleQuotedEndFrom text k ≤ text.length := by
    intro k
    fun_induction phpDoubleQuotedEndFrom text k with
    | case1 k hlt hescape ih => exact ⟨by omega, ih.2⟩
    | case2 k hlt hescape hquote => exact ⟨by omega, hlt⟩
    | case3 k hlt hescape hquote hopen ih =>
      have hend := interpolationEnd_bounds hopen.1
      exact ⟨by omega, ih.2⟩
    | case4 k hlt hescape hquote hopen hdollar ih =>
      have hend := interpolationEnd_bounds hdollar.2
      exact ⟨by omega, ih.2⟩
    | case5 k hlt hescape hquote hopen hdollar ih => exact ⟨by omega, ih.2⟩
    | case6 k hge => exact ⟨Nat.min_le_right _ _, Nat.le_refl _⟩
  have hbounds := hgoal (i + 1)
  rw [Nat.min_eq_left h] at hbounds
  exact hbounds

/-- The loop of `heredocAt` over the lines: the body and the end. -/
def heredocFrom (text label : Text) (bodyStart line : Nat) : Span × Nat :=
  if line < text.length then
    let i := pass text isBlank line
    if label.isPrefixOf (text.drop i) && ! isLabelChar ((text[i + label.length]?).getD (ch ' ')) then
      ((bodyStart, line), i + label.length)
    else
      match _h : lineEnd text line true with
      | none => ((bodyStart, text.length), text.length)
      | some newline =>
        heredocFrom text label bodyStart
          (newline + if isAt text newline '\r' && isAt text (newline + 1) '\n' then 2 else 1)
  else ((bodyStart, text.length), text.length)
termination_by text.length - line
decreasing_by
  have hle := (lineEnd_bounds _h).1
  split <;> omega

def heredocAt (text : Text) (start : Nat) : Option (Span × Nat) :=
  (Regex.matchAt PHP_HEREDOC text start).map fun m =>
    let label := ((m.group text 1).or ((m.group text 2).or (m.group text 3))).getD []
    heredocFrom text label m.stop m.stop

/-! ## The loop -/

def openAfter (text : Text) (start : Nat) : Option (Nat × Found) := Regex.exec (fun _ => 1) PHP_OPEN_TAG text start

/-- The markup from `start` to the next open tag, which is not code. -/
def phpMarkup (text : Text) (start : Nat) : Scan :=
  match openAfter text start with
  | none => ([(start, text.length)], text.length)
  | some tag => ([(start, tag.1)], tag.2.stop)

def phpLineCommentEnd (text : Text) (i : Nat) : Nat :=
  (firstAt (fun j => (text[j]?).any (isLineTerminator true) || (isAt text j '?' && isAt text (j + 1) '>'))
    text.length i).getD text.length

/-- A turn of the loop of `phpNonCode`. -/
def phpPiece (text : Text) (i : Nat) : Scan :=
  if isAt text i '?' && isAt text (i + 1) '>' then phpMarkup text (i + 2)
  else if isAt text i '/' && isAt text (i + 1) '/' || isAt text i '#' && ! isAt text (i + 1) '[' then
    let start := i + if isAt text i '#' then 1 else 2
    ([(start, phpLineCommentEnd text start)], phpLineCommentEnd text start)
  else if isAt text i '/' && isAt text (i + 1) '*' then
    let start := i + if startsAt text "/**" i && ! isAt text (i + 3) '/' then 3 else 2
    match indexOf text (units "*/") (i + 2) with
    | none => ([(start, text.length)], text.length)
    | some close => ([(start, close)], close + 2)
  else if isAt text i '\'' || isAt text i '"' || isAt text i '`' then
    let stop := if isAt text i '"' then phpDoubleQuotedEnd text i else quotedEnd text i
    ([stringBody text i stop], stop)
  else
    match if isAt text i '<' then heredocAt text i else none with
    | some heredoc => ([heredoc.1], heredoc.2)
    | none => ([], i + 1)

variable {text : Text} {i j : Nat}

theorem heredocFrom_bounds {label : Text} {bodyStart line : Nat} (hbody : bodyStart ≤ line) (hline : line ≤ text.length) :
    (heredocFrom text label bodyStart line).1.1 = bodyStart ∧
      bodyStart ≤ (heredocFrom text label bodyStart line).1.2 ∧
      (heredocFrom text label bodyStart line).1.2 ≤ (heredocFrom text label bodyStart line).2 ∧
      (heredocFrom text label bodyStart line).2 ≤ text.length := by
  fun_induction heredocFrom text label bodyStart line with
  | case1 line hlt k hlabel =>
    have hle := (List.isPrefixOf_iff_prefix.mp ((Bool.and_eq_true _ _).mp hlabel).1).length_le
    rw [List.length_drop] at hle
    have hstart := le_pass text isBlank line
    have hstop := pass_le text isBlank hline
    exact ⟨rfl, hbody, hstart.trans (Nat.le_add_right _ _), by dsimp only; omega⟩
  | case2 line hlt k hlabel hnone => exact ⟨rfl, hbody.trans hline, Nat.le_refl _, Nat.le_refl _⟩
  | case3 line hlt k hlabel newline hsome ih =>
    obtain ⟨hle, hend⟩ := lineEnd_bounds hsome
    refine ih (by omega) ?_
    split
    · next hreturn =>
      have hfeed := lt_length_of_isAt ((Bool.and_eq_true _ _).mp hreturn).2
      omega
    · exact hend
  | case4 line hge => exact ⟨rfl, hbody.trans hline, Nat.le_refl _, Nat.le_refl _⟩

theorem heredocAt_bounds {heredoc : Span × Nat} (hi : i ≤ text.length) (h : heredocAt text i = some heredoc) :
    i < heredoc.1.1 ∧ heredoc.1.1 ≤ heredoc.1.2 ∧ heredoc.1.2 ≤ heredoc.2 ∧ heredoc.2 ≤ text.length := by
  obtain ⟨m, hm, rfl⟩ := Option.map_eq_some_iff.mp h
  obtain ⟨hstart, hstop⟩ := Regex.matchAt_bounds hi hm
  have hleast : 0 < PHP_HEREDOC.least := by decide
  obtain ⟨heq, hbody, hend, hlength⟩ := @heredocFrom_bounds text
    (((m.group text 1).or ((m.group text 2).or (m.group text 3))).getD []) _ _ (Nat.le_refl m.stop) hstop
  refine ⟨?_, heq.trans_le hbody, hend, hlength⟩
  dsimp only
  omega

theorem phpMarkup_spec (hi : i ≤ text.length) :
    i ≤ (phpMarkup text i).2 ∧ (phpMarkup text i).2 ≤ text.length ∧
      Ordered i (phpMarkup text i).2 (phpMarkup text i).1 := by
  rw [phpMarkup]
  split
  · exact ⟨hi, Nat.le_refl _, Nat.le_refl _, hi, Nat.le_refl _⟩
  · next tag htag =>
    obtain ⟨hstart, hstop, hend⟩ := Regex.exec_bounds htag
    have hle : tag.1 ≤ tag.2.stop := (Nat.le_add_right _ _).trans hstop
    exact ⟨hstart.trans hle, hend, Nat.le_refl _, hstart, hle⟩

theorem phpLineCommentEnd_bounds (hi : i ≤ text.length) :
    i ≤ phpLineCommentEnd text i ∧ phpLineCommentEnd text i ≤ text.length := by
  rw [phpLineCommentEnd]
  cases hfirst : firstAt (fun j => (text[j]?).any (isLineTerminator true) || (isAt text j '?' && isAt text (j + 1) '>'))
      text.length i with
  | none => exact ⟨hi, Nat.le_refl _⟩
  | some j => exact ⟨(firstAt_spec hfirst).1, (firstAt_spec hfirst).2.1.le⟩

/-- The third unit of a docblock comment's opening does not close it. -/
theorem blockComment_start_le (h : i + 2 ≤ text.length) :
    i + (if (startsAt text "/**" i && ! isAt text (i + 3) '/') = true then 3 else 2) ≤ text.length ∧
      ∀ close, indexOf text (units "*/") (i + 2) = some close →
        i + (if (startsAt text "/**" i && ! isAt text (i + 3) '/') = true then 3 else 2) ≤ close := by
  have hclose : ∀ close, indexOf text (units "*/") (i + 2) = some close → i + 2 ≤ close :=
    fun close hat => (indexOf_bounds (by decide) hat).1
  split
  · next hdoc =>
    obtain ⟨hstarts, hslash⟩ := (Bool.and_eq_true _ _).mp hdoc
    refine ⟨startsAt_bounds (by decide) hstarts, fun close hat => ?_⟩
    have hle := hclose close hat
    have hne : close ≠ i + 2 := by
      rintro rfl
      have hat := isAt_of_startsAt (startsAt_of_indexOf hat) (k := 1) (c := '/') rfl
      rw [hat] at hslash
      cases hslash
    omega
  · exact ⟨h, hclose⟩

/-- Every turn moves on and keeps its spans in what it read. -/
theorem phpPiece_moves (hi : i < text.length) : Moves i text.length (phpPiece text i) := by
  rw [phpPiece]
  split
  · next htag =>
    have hlt := lt_length_of_isAt ((Bool.and_eq_true _ _).mp htag).2
    obtain ⟨hle, hend, hordered⟩ := @phpMarkup_spec text (i + 2) hlt
    exact ⟨(by omega : i < i + 2).trans_le hle, hend, hordered.behind (Nat.le_add_right i 2)⟩
  split
  · next hcomment =>
    dsimp only
    have hstart : i + (if isAt text i '#' = true then 1 else 2) ≤ text.length := by
      split
      · exact hi
      · next hhash =>
        rw [Bool.or_eq_true, Bool.eq_false_iff.mpr hhash, Bool.false_and, Bool.and_eq_true] at hcomment
        exact lt_length_of_isAt (hcomment.resolve_right Bool.false_ne_true).2
    have hpos : 0 < (if isAt text i '#' = true then 1 else 2) := by split <;> omega
    obtain ⟨hle, hend⟩ := phpLineCommentEnd_bounds hstart
    exact .one (by omega) hend (by dsimp only; omega) hle (Nat.le_refl _)
  split
  · next hcomment hblock =>
    have hstar := lt_length_of_isAt ((Bool.and_eq_true _ _).mp hblock).2
    obtain ⟨hstart, hbefore⟩ := @blockComment_start_le text i hstar
    dsimp only
    have hpos : 0 < if (startsAt text "/**" i && ! isAt text (i + 3) '/') = true then 3 else 2 := by split <;> omega
    split
    · exact .one hi (Nat.le_refl _) (Nat.le_add_right _ _) hstart (Nat.le_refl _)
    · next close hclose =>
      have hend := (@indexOf_bounds text _ _ _ (by decide) hclose).2
      have hle := hbefore close hclose
      exact .one (by omega) hend (Nat.le_add_right _ _) hle (Nat.le_add_right _ _)
  split
  · next hquote =>
    have hstop : i < (if isAt text i '"' = true then phpDoubleQuotedEnd text i else quotedEnd text i) ∧
        (if isAt text i '"' = true then phpDoubleQuotedEnd text i else quotedEnd text i) ≤ text.length := by
      split
      · exact phpDoubleQuotedEnd_bounds hi
      · exact quotedEnd_bounds hi
    obtain ⟨hfirst, hbody, hend⟩ := @stringBody_bounds text _ _ hstop.1
    exact .one hstop.1 hstop.2 (by omega) hbody hend
  split
  · next heredoc hheredoc =>
    split at hheredoc
    · obtain ⟨hstart, hbody, hend, hlength⟩ := heredocAt_bounds hi.le hheredoc
      exact .one (hstart.trans_le (hbody.trans hend)) hlength hstart.le hbody hend
    · cases hheredoc
  · exact .none (Nat.lt_succ_self i) hi

def phpNonCode (text : Text) : List Span :=
  scan (phpPiece text) text.length (fun _ hi => phpPiece_moves hi) (phpMarkup text 0)

end Haive.Rag

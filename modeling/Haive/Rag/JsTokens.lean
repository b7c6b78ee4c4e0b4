import Haive.Rag.PhpNonCode

/-!
# Tokens of JavaScript and tags of JSX

What the JS reader of `_rag-chunkers.ts` and its bounded lookaheads share: words, whether a slash may open a
regular expression, one token of a lookahead, the tags of JSX. Each reads on from where it starts.
-/

namespace Haive.Rag

open Lib.Spans Lib.Units
open Lib (Regex)

def MAX_PARAMS_CHARS : Nat := 4000

def names (words : List String) : List Text := words.map units

def REGEX_AFTER_WORD : List Text :=
  names ["return", "typeof", "instanceof", "in", "new", "delete", "void", "throw", "case", "do", "else"]

def CONTEXTUAL_WORDS : List Text := names ["of", "yield", "await"]

def TS_RESERVED_NAME : List Text :=
  names ["break", "case", "catch", "class", "const", "continue", "debugger", "default", "delete", "do", "else", "enum",
    "export", "extends", "false", "finally", "for", "function", "if", "import", "in", "instanceof", "new", "null",
    "return", "super", "switch", "this", "throw", "true", "try", "typeof", "var", "void", "while", "with"]

section

variable (U : Unicode) (text : Text)

/-! ## Words -/

theorem pointWidth_pos (rest : Text) : 0 < pointWidth rest := by
  rw [pointWidth.eq_def]
  split
  · split <;> omega
  · omega

theorem pointWidth_le {rest : Text} (h : rest ≠ []) : pointWidth rest ≤ rest.length := by
  rw [pointWidth.eq_def]
  split
  · next u v tail =>
    rw [List.length_cons, List.length_cons]
    split <;> omega
  · exact List.length_pos_iff.mpr h

/-- Where the characters of a word that stand at `i` end. -/
def passWord (i : Nat) : Nat :=
  if i < text.length then
    if isWordChar U (codePoint (text.drop i)) then passWord (i + pointWidth (text.drop i)) else i
  else i
termination_by text.length - i
decreasing_by
  have hpos := pointWidth_pos (text.drop i)
  omega

def wordStartsAt (i : Nat) : Bool := i < text.length && isWordStart U (codePoint (text.drop i))

def wordEnd (i : Nat) : Nat := passWord U text (i + pointWidth (text.drop i))

/-- `BARE_NAME`. -/
def isBareName (name : Text) : Bool := wordStartsAt U name 0 && wordEnd U name 0 = name.length

def regexMayStart : Option Text → Bool
  | none => true
  | some prev =>
    if isWordStart U (codePoint prev) then REGEX_AFTER_WORD.elem prev
    else prev ≠ [] && ! (names [")", "]", "\x7d", ">", "<", "."]).elem prev

def spacedOperatorBefore (slash : Nat) : Bool :=
  let isAngle := fun u : UInt16 => u = ch '<' || u = ch '>'
  match passBack text isBlank slash with
  | 0 => false
  | j + 1 =>
    if j + 1 = slash || ! (text[j]?).any isAngle then false
    else
      let k := passBack text isAngle j
      0 < k && (text[k - 1]?).any isBlank

/-! ## Tokens -/

structure HeadToken where
  text : Text
  word : Bool
  stop : Nat

/-- The white space and the comments that `jsxHeadToken` skips. -/
def jsxTrivia (i : Nat) : Nat :=
  if i < text.length then
    if (text[i]?).any isTrimmed then jsxTrivia (i + 1)
    else if startsAt text "//" i then
      match _h : lineEnd text (i + 2) false with
      | none => text.length
      | some stop => jsxTrivia stop
    else if startsAt text "/*" i then
      match _h : indexOf text (units "*/") (i + 2) with
      | none => text.length
      | some stop => jsxTrivia (stop + 2)
    else i
  else i
termination_by text.length - i
decreasing_by
  · omega
  · have hle := (lineEnd_bounds _h).1
    omega
  · have hle := (indexOf_bounds (by decide) _h).1
    omega

def jsxTokenEnd (start : Nat) : Nat :=
  if wordStartsAt U text start then wordEnd U text start
  else if isAt text start '"' || isAt text start '\'' || isAt text start '`' then quotedEnd text start
  else if startsAt text "=>" start then start + 2
  else if start < text.length then start + 1
  else start

def jsxHeadToken (i : Nat) : HeadToken :=
  let start := jsxTrivia text i
  { text := slice text start (jsxTokenEnd U text start)
    word := wordStartsAt U text start
    stop := jsxTokenEnd U text start }

def tsxGenericHead : Bool :=
  let first := jsxHeadToken U text 1
  let name := if first.text = units "const" then jsxHeadToken U text first.stop else first
  if ! name.word || TS_RESERVED_NAME.elem name.text then false
  else
    let next := jsxHeadToken U text name.stop
    if next.text = units "," || next.text = units "=" then true
    else if next.text ≠ units "extends" then false
    else
      let constraint := (jsxHeadToken U text next.stop).text
      constraint ≠ [] && ! (names ["=", ">", "/"]).elem constraint

end

/-! ## Tags -/

/-- A tag: its name, where it ends, and whether it closes itself. -/
structure JsxTag where
  name : Text
  stop : Nat
  selfClosing : Bool

/-- `[A-Za-z][\w.:-]*`, the first group. -/
def JSX_NAME : Regex UInt16 :=
  .group 1 (.seq (.unit isLetter) (.many (.unit fun u => isWord u || oneOf ".:-" u)))

/-- The pattern of `jsxTagHeader`. -/
def JSX_HEAD : Regex UInt16 :=
  .seq (exactly "<") (.alts [.seq JSX_NAME (.ahead (.unit fun u => isTrimmed u || oneOf "/>" u)), .ahead (exactly ">")])

def JSX_CLOSING : Regex UInt16 := .seqs [exactly "</", .opt JSX_NAME, .many space, exactly ">"]

/-- The loop of `jsxTagHeader`: where the `>` of the tag stands. -/
def jsxTagEndFrom (header : Text) (braces : Int) (i : Nat) : Option Nat :=
  if i < header.length then
    if (isAt header i '"' || isAt header i '\'') && braces = 0 then
      match _h : indexOf header (slice header i (i + 1)) (i + 1) with
      | none => none
      | some close => jsxTagEndFrom header braces (close + 1)
    else if isAt header i '"' || isAt header i '\'' || isAt header i '`' then
      jsxTagEndFrom header braces (quotedEnd header i)
    else if isAt header i '{' then jsxTagEndFrom header (braces + 1) (i + 1)
    else if isAt header i '}' then jsxTagEndFrom header (braces - 1) (i + 1)
    else if isAt header i '>' && braces = 0 then some i
    else jsxTagEndFrom header braces (i + 1)
  else none
termination_by header.length - i
decreasing_by
  · have hle := (firstAt_spec _h).1
    omega
  · next hlt _ _ =>
    have hlt := (quotedEnd_bounds hlt).1
    omega
  all_goals omega

def jsxTagHeader (text : Text) (start : Nat) : Option JsxTag :=
  let header := slice text start (start + MAX_PARAMS_CHARS)
  (Regex.matchAt JSX_HEAD (header.take 256) 0).bind fun head =>
    (jsxTagEndFrom header 0 head.stop).map fun i =>
      { name := (head.group header 1).getD [], stop := start + i + 1, selfClosing := isAt header (i - 1) '/' }

/-- `jsxClosingTag`: the name and where the tag ends. -/
def jsxClosingTag (text : Text) (start : Nat) : Option (Text × Nat) :=
  let header := slice text start (start + MAX_PARAMS_CHARS)
  (Regex.matchAt JSX_CLOSING header 0).map fun m => ((m.group header 1).getD [], start + m.stop)

/-! ## Bounds -/

variable {U : Unicode} {text : Text} {i : Nat}

theorem point_bounds (h : i < text.length) :
    i < i + pointWidth (text.drop i) ∧ i + pointWidth (text.drop i) ≤ text.length := by
  have hpos := pointWidth_pos (text.drop i)
  have hle := pointWidth_le (List.drop_eq_nil_iff.not.mpr (Nat.not_le_of_lt h))
  rw [List.length_drop] at hle
  omega

theorem passWord_bounds (h : i ≤ text.length) : i ≤ passWord U text i ∧ passWord U text i ≤ text.length := by
  fun_induction passWord U text i with
  | case1 i hlt hword ih =>
    have hpoint := point_bounds hlt
    exact ⟨hpoint.1.le.trans (ih hpoint.2).1, (ih hpoint.2).2⟩
  | case2 i hlt hword => exact ⟨Nat.le_refl _, h⟩
  | case3 i hge => exact ⟨Nat.le_refl _, h⟩

theorem wordEnd_bounds (h : i < text.length) : i < wordEnd U text i ∧ wordEnd U text i ≤ text.length := by
  have hpoint := point_bounds h
  have hword := passWord_bounds (U := U) hpoint.2
  exact ⟨hpoint.1.trans_le hword.1, hword.2⟩

theorem jsxTrivia_bounds (h : i ≤ text.length) : i ≤ jsxTrivia text i ∧ jsxTrivia text i ≤ text.length := by
  fun_induction jsxTrivia text i with
  | case1 i hlt hspace ih => exact ⟨(Nat.le_succ i).trans (ih hlt).1, (ih hlt).2⟩
  | case2 i hlt hspace hline hnone => exact ⟨h, Nat.le_refl _⟩
  | case3 i hlt hspace hline stop hstop ih =>
    obtain ⟨hle, hend⟩ := lineEnd_bounds hstop
    exact ⟨((Nat.le_add_right i 2).trans hle).trans (ih hend.le).1, (ih hend.le).2⟩
  | case4 i hlt hspace hline hblock hnone => exact ⟨h, Nat.le_refl _⟩
  | case5 i hlt hspace hline hblock stop hstop ih =>
    obtain ⟨hle, hend⟩ := indexOf_bounds (by decide) hstop
    exact ⟨by have := (ih hend).1; omega, (ih hend).2⟩
  | case6 i hlt hspace hline hblock => exact ⟨Nat.le_refl _, h⟩
  | case7 i hge => exact ⟨Nat.le_refl _, h⟩

theorem jsxTokenEnd_bounds (h : i ≤ text.length) :
    i ≤ jsxTokenEnd U text i ∧ jsxTokenEnd U text i ≤ text.length ∧ (i < text.length → i < jsxTokenEnd U text i) := by
  rw [jsxTokenEnd]
  split
  · next hword =>
    have hend := wordEnd_bounds (U := U) (of_decide_eq_true ((Bool.and_eq_true _ _).mp hword).1)
    exact ⟨hend.1.le, hend.2, fun _ => hend.1⟩
  split
  · next hquote =>
    rw [Bool.or_eq_true, Bool.or_eq_true] at hquote
    have hlt : i < text.length := hquote.elim (fun h => h.elim lt_length_of_isAt lt_length_of_isAt) lt_length_of_isAt
    have hend := quotedEnd_bounds hlt
    exact ⟨hend.1.le, hend.2, fun _ => hend.1⟩
  split
  · next harrow =>
    have hend := startsAt_bounds (s := "=>") (by decide) harrow
    exact ⟨Nat.le_add_right _ _, hend, fun _ => Nat.lt_add_of_pos_right (by decide)⟩
  split
  · next hlt => exact ⟨Nat.le_succ i, hlt, fun _ => Nat.lt_succ_self i⟩
  · next hge => exact ⟨Nat.le_refl _, h, fun hlt => absurd hlt hge⟩

/-- A token that is not empty ends behind where the lookahead starts, by its length at least. -/
theorem jsxHeadToken_bounds (h : (jsxHeadToken U text i).text ≠ []) :
    i < (jsxHeadToken U text i).stop ∧ (jsxHeadToken U text i).stop ≤ text.length ∧
      i + (jsxHeadToken U text i).text.length ≤ (jsxHeadToken U text i).stop := by
  have hi : i ≤ text.length := by
    by_contra hgt
    refine h (List.drop_eq_nil_of_le ?_)
    rw [jsxTrivia, if_neg (by omega)]
    exact (List.length_take_le' _ _).trans (by omega)
  obtain ⟨hstart, hlength⟩ := jsxTrivia_bounds hi
  obtain ⟨hle, hend, -⟩ := jsxTokenEnd_bounds (U := U) hlength
  have hpos := List.length_pos_iff.mpr h
  have hsize : (jsxHeadToken U text i).text.length =
      jsxTokenEnd U text (jsxTrivia text i) - jsxTrivia text i := by
    rw [jsxHeadToken, slice, List.length_drop, List.length_take_of_le hend]
  rw [hsize] at hpos ⊢
  have hlt : i < jsxTokenEnd U text (jsxTrivia text i) := by omega
  exact ⟨hlt, hend, (by omega : i + (_ - jsxTrivia text i) ≤ jsxTokenEnd U text (jsxTrivia text i))⟩

theorem jsxTagEndFrom_bounds {header : Text} {braces : Int} {j : Nat} (h : jsxTagEndFrom header braces i = some j) :
    i ≤ j ∧ j < header.length := by
  fun_induction jsxTagEndFrom header braces i with
  | case1 => cases h
  | case2 braces i hlt hquote close hclose ih =>
    have hle := (firstAt_spec hclose).1
    exact ⟨by have := (ih h).1; omega, (ih h).2⟩
  | case3 braces i hlt hquote hmark ih =>
    have hend := (quotedEnd_bounds hlt).1
    exact ⟨hend.le.trans (ih h).1, (ih h).2⟩
  | case4 braces i hlt hquote hmark hopen ih => exact ⟨(Nat.le_succ i).trans (ih h).1, (ih h).2⟩
  | case5 braces i hlt hquote hmark hopen hclose ih => exact ⟨(Nat.le_succ i).trans (ih h).1, (ih h).2⟩
  | case6 braces i hlt hquote hmark hopen hclose hend =>
    cases h
    exact ⟨Nat.le_refl _, hlt⟩
  | case7 braces i hlt hquote hmark hopen hclose hend ih => exact ⟨(Nat.le_succ i).trans (ih h).1, (ih h).2⟩
  | case8 => cases h

theorem length_slice_le (text : Text) (start stop : Nat) : (slice text start stop).length ≤ text.length - start := by
  rw [slice, List.length_drop]
  exact Nat.sub_le_sub_right (List.length_take_le' _ _) _

/-- A tag has two characters at least. -/
theorem jsxTagHeader_bounds {tag : JsxTag} (h : jsxTagHeader text i = some tag) :
    i + 1 < tag.stop ∧ tag.stop ≤ text.length := by
  obtain ⟨head, hhead, htag⟩ := Option.bind_eq_some_iff.mp h
  obtain ⟨j, hj, rfl⟩ := Option.map_eq_some_iff.mp htag
  have hstart := (Regex.matchAt_bounds (Nat.zero_le _) hhead).1
  have hleast : JSX_HEAD.least = 1 := by decide
  obtain ⟨hle, hlt⟩ := jsxTagEndFrom_bounds hj
  have hheader := length_slice_le text i (i + MAX_PARAMS_CHARS)
  dsimp only
  omega

theorem jsxClosingTag_bounds {tag : Text × Nat} (h : jsxClosingTag text i = some tag) :
    i + 2 < tag.2 ∧ tag.2 ≤ text.length := by
  obtain ⟨m, hm, rfl⟩ := Option.map_eq_some_iff.mp h
  obtain ⟨hstart, hstop⟩ := Regex.matchAt_bounds (Nat.zero_le _) hm
  have hleast : JSX_CLOSING.least = 3 := by decide
  have hheader := length_slice_le text i (i + MAX_PARAMS_CHARS)
  dsimp only
  omega

end Haive.Rag

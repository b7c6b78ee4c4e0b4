import Haive.Lib.Regex
import Haive.Rag.Chunks

/-!
# Literals and lines of a source file

What the readers of `_rag-chunkers.ts` share: characters at an index, line ends, where a quoted string, a text
block or a regular expression closes. An index may point behind the text, where a character is `undefined`.
Each end is bounded here, from below by where the scan starts.
-/

namespace Haive.Rag

open Lib.Spans Lib.Units
open Lib (Regex)

/-! ## Characters -/

/-- The code unit of a character of the first plane. -/
def ch (c : Char) : UInt16 := c.toNat.toUInt16

/-- `text[i] === c`. -/
def isAt (text : Text) (i : Nat) (c : Char) : Bool := text[i]? = some (ch c)

/-- `text.startsWith(s, i)`. -/
def startsAt (text : Text) (s : String) (i : Nat) : Bool := (units s).isPrefixOf (text.drop i)

/-- The unit is one of these characters. -/
def oneOf (s : String) (u : UInt16) : Bool := (units s).elem u

def isLetter (u : UInt16) : Bool := (0x41 ≤ u && u ≤ 0x5a) || (0x61 ≤ u && u ≤ 0x7a)

def isLower (u : UInt16) : Bool := 0x61 ≤ u && u ≤ 0x7a

/-- `[ \t]`. -/
def isBlank (u : UInt16) : Bool := u = 0x20 || u = 9

/-- `\w`. -/
def isWord (u : UInt16) : Bool := isLetter u || isDigit u || u = 0x5f

/-- Unicode's tables, for what is not ASCII. -/
structure Unicode where
  idStart : Nat → Bool
  idContinue : Nat → Bool
  upper : Nat → Bool

def isPair (u v : UInt16) : Bool := (0xd800 ≤ u && u ≤ 0xdbff) && (0xdc00 ≤ v && v ≤ 0xdfff)

def codePoint : Text → Nat
  | [] => 0
  | [u] => u.toNat
  | u :: v :: _ => if isPair u v then 0x10000 + (u.toNat - 0xd800) * 0x400 + (v.toNat - 0xdc00) else u.toNat

/-- `codePointAt(text, at).length`. -/
def pointWidth : Text → Nat
  | u :: v :: _ => if isPair u v then 2 else 1
  | _ => 1

/-- A code point that is ASCII is one of these units. -/
def asciiPoint (p : UInt16 → Bool) (c : Nat) : Bool := c < 0x80 && p c.toUInt16

/-- `WORD_START`. -/
def isWordStart (U : Unicode) (c : Nat) : Bool :=
  asciiPoint (fun u => isLetter u || u = ch '_' || u = ch '$') c || (0x80 ≤ c && U.idStart c)

/-- `WORD_CHAR`. -/
def isWordChar (U : Unicode) (c : Nat) : Bool :=
  asciiPoint (fun u => isWord u || u = ch '$') c || (0x80 ≤ c && (U.idContinue c || c = 0x200c || c = 0x200d))

/-! ## Searches -/

/-- The first place from `i` on and before `stop` with the property. -/
def firstAt (p : Nat → Bool) (stop i : Nat) : Option Nat :=
  if i < stop then if p i then some i else firstAt p stop (i + 1) else none
termination_by stop - i

def indexOf (text : Text) (s : Text) (i : Nat) : Option Nat :=
  firstAt (fun j => s.isPrefixOf (text.drop j)) text.length i

def pass (text : Text) (p : UInt16 → Bool) (i : Nat) : Nat := i + ((text.drop i).takeWhile p).length

/-- Where the units of `p` that stand in front of `i` start. -/
def passBack (text : Text) (p : UInt16 → Bool) (i : Nat) : Nat := ((text.take i).rdropWhile p).length

def isLineTerminator (lfCrOnly : Bool) (u : UInt16) : Bool :=
  u = 10 || u = 13 || (! lfCrOnly && (u = 0x2028 || u = 0x2029))

def lineEnd (text : Text) (i : Nat) (lfCrOnly : Bool) : Option Nat :=
  firstAt (fun j => (text[j]?).any (isLineTerminator lfCrOnly)) text.length i

def atLineStart (text : Text) (i : Nat) : Bool :=
  match passBack text isBlank i with
  | 0 => true
  | j + 1 => (text[j]?).any (isLineTerminator false)

/-- `$` without flags. -/
def atEnd : Regex UInt16 := .assert fun text i => i = text.length

def URL_SCHEME : Regex UInt16 :=
  .seqs [.unit isLetter, .many (.unit fun u => isLetter u || isDigit u || oneOf "+.-" u), .unit (· = ch ':'), atEnd]

def isUrlScheme (text : Text) (slash : Nat) : Bool :=
  let head := slice text (slash - 40) slash
  match Regex.exec (fun _ => 1) URL_SCHEME head 0 with
  | none => false
  | some m =>
    let before := (head.take m.1).rdropWhile isTrimmed
    ! (before = [] && slash ≤ 40) && ! (before.getLast?).any (oneOf "\x7b\x7d;)")

/-! ## Where a literal ends -/

def quotedEndFrom (text : Text) (mark : Option UInt16) (i : Nat) : Nat :=
  if i < text.length then
    if isAt text i '\\' then quotedEndFrom text mark (i + 2)
    else if text[i]? = mark then i + 1
    else quotedEndFrom text mark (i + 1)
  else text.length
termination_by text.length - i

def quotedEnd (text : Text) (start : Nat) : Nat := quotedEndFrom text text[start]? (start + 1)

def lineStringEndFrom (text : Text) (mark : Option UInt16) (java : Bool) (i : Nat) : Option Nat :=
  if i < text.length then
    if isAt text i '\\' then
      lineStringEndFrom text mark java (i + (if isAt text (i + 1) '\r' && isAt text (i + 2) '\n' then 2 else 1) + 1)
    else if text[i]? = mark then some (i + 1)
    else if (text[i]?).any (isLineTerminator java) then none
    else lineStringEndFrom text mark java (i + 1)
  else none
termination_by text.length - i

def lineStringEnd (text : Text) (start : Nat) (java : Bool) : Option Nat :=
  lineStringEndFrom text text[start]? java (start + 1)

def textBlockEndFrom (text : Text) (i : Nat) : Option Nat :=
  if i < text.length then
    if isAt text i '\\' then textBlockEndFrom text (i + 2)
    else if (List.replicate 3 0x22).isPrefixOf (text.drop i) then some (i + 3)
    else textBlockEndFrom text (i + 1)
  else none
termination_by text.length - i

def textBlockEnd (text : Text) (start : Nat) : Option Nat := textBlockEndFrom text (start + 3)

def stringBody (text : Text) (start stop : Nat) : Span :=
  (start + 1, if start < stop - 1 && text[stop - 1]? = text[start]? then stop - 1 else stop)

def MAX_REGEX_CHARS : Nat := 20000

def regexCloseFrom (text : Text) (java multiline : Bool) (limit : Nat) (inClass : Bool) (i : Nat) : Option Nat :=
  if i < limit then
    if ! multiline && (text[i]?).any (isLineTerminator java) then none
    else if isAt text i '\\' then regexCloseFrom text java multiline limit inClass (i + 2)
    else if isAt text i '[' then regexCloseFrom text java multiline limit true (i + 1)
    else if isAt text i ']' then regexCloseFrom text java multiline limit false (i + 1)
    else if isAt text i '/' && ! inClass then some i
    else regexCloseFrom text java multiline limit inClass (i + 1)
  else none
termination_by limit - i

def regexClose (text : Text) (start : Nat) (java : Bool) (multiline : Bool := false) : Option Nat :=
  regexCloseFrom text java multiline (min text.length (start + MAX_REGEX_CHARS)) false (start + 1)

/-! ## Bounds -/

theorem firstAt_spec {p : Nat → Bool} {stop i j : Nat} (h : firstAt p stop i = some j) :
    i ≤ j ∧ j < stop ∧ p j = true := by
  fun_induction firstAt p stop i with
  | case1 i hlt hp =>
    cases h
    exact ⟨Nat.le_refl _, hlt, hp⟩
  | case2 i hlt hp ih => exact ⟨(Nat.le_succ i).trans (ih h).1, (ih h).2⟩
  | case3 => cases h

variable {text : Text} {i j : Nat}

theorem length_le_of_isPrefixOf {s : Text} (hs : s ≠ []) (h : s.isPrefixOf (text.drop i) = true) :
    i + s.length ≤ text.length := by
  have hle := (List.isPrefixOf_iff_prefix.mp h).length_le
  have hpos := List.length_pos_iff.mpr hs
  rw [List.length_drop] at hle
  omega

theorem indexOf_bounds {s : Text} (hs : s ≠ []) (h : indexOf text s i = some j) : i ≤ j ∧ j + s.length ≤ text.length :=
  ⟨(firstAt_spec h).1, length_le_of_isPrefixOf hs (firstAt_spec h).2.2⟩

theorem startsAt_of_indexOf {s : String} (h : indexOf text (units s) i = some j) : startsAt text s j = true :=
  (firstAt_spec h).2.2

theorem lineEnd_bounds {lfCrOnly : Bool} (h : lineEnd text i lfCrOnly = some j) : i ≤ j ∧ j < text.length :=
  ⟨(firstAt_spec h).1, (firstAt_spec h).2.1⟩

theorem le_pass (text : Text) (p : UInt16 → Bool) (i : Nat) : i ≤ pass text p i := Nat.le_add_right _ _

theorem pass_le (text : Text) (p : UInt16 → Bool) (h : i ≤ text.length) : pass text p i ≤ text.length := by
  have hle := (List.takeWhile_prefix p (l := text.drop i)).length_le
  rw [List.length_drop] at hle
  rw [pass]
  omega

theorem lt_length_of_isAt {c : Char} (h : isAt text i c = true) : i < text.length :=
  (List.getElem?_eq_some_iff.mp (of_decide_eq_true h)).1

theorem isAt_of_startsAt {s : String} {k : Nat} {c : Char} (h : startsAt text s i = true)
    (hc : (units s)[k]? = some (ch c)) : isAt text (i + k) c = true := by
  obtain ⟨rest, hrest⟩ := List.isPrefixOf_iff_prefix.mp h
  refine decide_eq_true ?_
  rw [← List.getElem?_drop, ← hrest, List.getElem?_append_left (List.getElem?_eq_some_iff.mp hc).1, hc]

theorem startsAt_bounds {s : String} (hs : units s ≠ []) (h : startsAt text s i = true) :
    i + (units s).length ≤ text.length := length_le_of_isPrefixOf hs h

theorem quotedEndFrom_bounds (mark : Option UInt16) (h : i ≤ text.length) :
    i ≤ quotedEndFrom text mark i ∧ quotedEndFrom text mark i ≤ text.length := by
  have hgoal : min i text.length ≤ quotedEndFrom text mark i ∧ quotedEndFrom text mark i ≤ text.length := by
    clear h
    fun_induction quotedEndFrom text mark i with
    | case1 i hlt hescape ih => exact ⟨by omega, ih.2⟩
    | case2 i hlt hescape hmark => exact ⟨by omega, hlt⟩
    | case3 i hlt hescape hmark ih => exact ⟨by omega, ih.2⟩
    | case4 i hge => exact ⟨Nat.min_le_right _ _, Nat.le_refl _⟩
  exact ⟨(Nat.min_eq_left h).symm.trans_le hgoal.1, hgoal.2⟩

theorem quotedEnd_bounds (h : i < text.length) : i < quotedEnd text i ∧ quotedEnd text i ≤ text.length :=
  quotedEndFrom_bounds _ h

theorem lineStringEnd_bounds {java : Bool} (h : lineStringEnd text i java = some j) : i < j ∧ j ≤ text.length := by
  have hgoal : ∀ mark k, lineStringEndFrom text mark java k = some j → k < j ∧ j ≤ text.length := by
    intro mark k hk
    fun_induction lineStringEndFrom text mark java k with
    | case1 k hlt hescape ih => exact ⟨by have := (ih hk).1; omega, (ih hk).2⟩
    | case2 k hlt hescape hmark =>
      cases hk
      exact ⟨Nat.lt_succ_self _, hlt⟩
    | case3 => cases hk
    | case4 k hlt hescape hmark hline ih => exact ⟨by have := (ih hk).1; omega, (ih hk).2⟩
    | case5 => cases hk
  exact ⟨(Nat.lt_succ_self i).trans (hgoal _ _ h).1, (hgoal _ _ h).2⟩

theorem textBlockEnd_bounds (h : textBlockEnd text i = some j) : i + 6 ≤ j ∧ j ≤ text.length := by
  have hgoal : ∀ k, textBlockEndFrom text k = some j → k + 3 ≤ j ∧ j ≤ text.length := by
    intro k hk
    fun_induction textBlockEndFrom text k with
    | case1 k hlt hescape ih => exact ⟨by have := (ih hk).1; omega, (ih hk).2⟩
    | case2 k hlt hescape hquotes =>
      cases hk
      exact ⟨Nat.le_refl _, length_le_of_isPrefixOf (by decide) hquotes⟩
    | case3 k hlt hescape hquotes ih => exact ⟨by have := (ih hk).1; omega, (ih hk).2⟩
    | case4 => cases hk
  exact hgoal _ h

theorem stringBody_bounds (h : i < j) :
    (stringBody text i j).1 = i + 1 ∧ (stringBody text i j).1 ≤ (stringBody text i j).2 ∧ (stringBody text i j).2 ≤ j := by
  rw [stringBody]
  dsimp only
  split
  · next hcloses =>
    have hlt : i < j - 1 := of_decide_eq_true ((Bool.and_eq_true _ _).mp hcloses).1
    exact ⟨rfl, hlt, Nat.sub_le _ _⟩
  · exact ⟨rfl, h, Nat.le_refl _⟩

theorem regexClose_bounds {java multiline : Bool} (h : regexClose text i java multiline = some j) :
    i < j ∧ j < text.length := by
  have hgoal : ∀ limit inClass k, regexCloseFrom text java multiline limit inClass k = some j → k ≤ j ∧ j < limit := by
    intro limit inClass k hk
    fun_induction regexCloseFrom text java multiline limit inClass k with
    | case1 => cases hk
    | case2 inClass k hlt hline hescape ih => exact ⟨by have := (ih hk).1; omega, (ih hk).2⟩
    | case3 inClass k hlt hline hescape hopen ih => exact ⟨(Nat.le_succ k).trans (ih hk).1, (ih hk).2⟩
    | case4 inClass k hlt hline hescape hopen hclose ih => exact ⟨(Nat.le_succ k).trans (ih hk).1, (ih hk).2⟩
    | case5 inClass k hlt hline hescape hopen hclose hslash =>
      cases hk
      exact ⟨Nat.le_refl _, hlt⟩
    | case6 inClass k hlt hline hescape hopen hclose hslash ih => exact ⟨(Nat.le_succ k).trans (ih hk).1, (ih hk).2⟩
    | case7 => cases hk
  obtain ⟨hle, hlt⟩ := hgoal _ _ _ h
  exact ⟨hle, hlt.trans_le (Nat.min_le_left _ _)⟩

end Haive.Rag

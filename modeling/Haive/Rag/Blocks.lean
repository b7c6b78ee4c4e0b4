import Haive.Rag.NonCode
import Haive.Rag.Sections

/-!
# Blocks and signatures

What the extractors of `_rag-chunkers.ts` share: the block behind a brace, the parameter list behind a
parenthesis, what may stand between a signature and its body. A name that a pattern captures has no `~`.
-/

namespace Haive.Rag

open Lib.Spans Lib.Units
open Lib (Found Regex)

/-! ## Blocks -/

def braceBlockEndFrom (content : Text) (depth : Int) (i : Nat) : Nat :=
  if i < content.length then
    if isAt content i '{' then braceBlockEndFrom content (depth + 1) (i + 1)
    else if isAt content i '}' then
      if depth - 1 = 0 then i + 1 else braceBlockEndFrom content (depth - 1) (i + 1)
    else braceBlockEndFrom content depth (i + 1)
  else content.length
termination_by content.length - i

def braceBlockEnd (content : Text) (start : Nat) : Option Nat :=
  if isAt content start '{' then some (braceBlockEndFrom content 0 start) else none

def blockEndFromMatch (content : Text) (stop : Nat) : Option Nat :=
  (indexOf content [ch '{'] (stop - 1)).bind (braceBlockEnd content)

/-- Where the quote stands that closes the string in a parameter list, or where the list is cut. -/
def parenQuote (content : Text) (limit : Nat) (mark : Option UInt16) (i : Nat) : Nat :=
  if i < limit then
    if content[i]? = mark then i
    else parenQuote content limit mark (i + if isAt content i '\\' then 2 else 1)
  else i
termination_by limit - i
decreasing_by split <;> omega

theorem le_parenQuote (content : Text) (limit : Nat) (mark : Option UInt16) (i : Nat) :
    i ≤ parenQuote content limit mark i := by
  fun_induction parenQuote content limit mark i with
  | case1 => exact Nat.le_refl _
  | case2 i hlt hmark ih => exact (Nat.le_add_right _ _).trans ih
  | case3 => exact Nat.le_refl _

def parenEndFrom (content : Text) (limit : Nat) (depth : Int) (i : Nat) : Option Nat :=
  if i < limit then
    if isAt content i '(' then parenEndFrom content limit (depth + 1) (i + 1)
    else if isAt content i ')' then
      if depth - 1 = 0 then some (i + 1) else parenEndFrom content limit (depth - 1) (i + 1)
    else if isAt content i '"' || isAt content i '\'' || isAt content i '`' then
      parenEndFrom content limit depth (parenQuote content limit content[i]? (i + 1) + 1)
    else parenEndFrom content limit depth (i + 1)
  else none
termination_by limit - i
decreasing_by
  · omega
  · omega
  · have hle := le_parenQuote content limit content[i]? (i + 1)
    omega
  · omega

def parenEnd (content : Text) (start : Nat) : Option Nat :=
  parenEndFrom content (min content.length (start + MAX_PARAMS_CHARS)) 0 start

/-! ## Signatures -/

/-- `\s*`. -/
def spaces : Regex UInt16 := .many space

/-- `\s+`. -/
def spaces1 : Regex UInt16 := .some1 space

/-- A unit that is none of these characters. -/
def noneOf (s : String) : Regex UInt16 := .unit fun u => ! oneOf s u

def RETURN_TYPE : Regex UInt16 :=
  .opt (.seqs [exactly ":", .many (noneOf ";\x7b\x7d=()"),
    .unit fun u => ! (isTrimmed u || oneOf ";\x7b\x7d=:<,()|&?" u)])

def BLOCK_TAIL : Regex UInt16 := .seqs [spaces, RETURN_TYPE, spaces, exactly "\x7b"]

def ARROW_TAIL : Regex UInt16 := .seqs [spaces, RETURN_TYPE, spaces, exactly "=>", spaces, exactly "\x7b"]

def bodyAfterParams (content : Text) (start : Nat) (tail : Regex UInt16) : Option Nat :=
  (parenEnd content start).bind fun close => (Regex.matchAt tail content close).map fun m => m.stop - 1

/-- `\w+`. -/
def word1 : Regex UInt16 := .some1 (.unit isWord)

/-- What a group of a match holds, which is there for the groups that the source takes so. -/
def held (content : Text) (m : Nat × Found) (n : Nat) : Text := (m.2.group content n).getD []

/-! ## Names -/

/-- A text without the `~` that numbers the sections of one id. -/
def Plain (id : Text) : Prop := ∀ u ∈ id, u ≠ ch '~'

theorem Plain.append {a b : Text} (ha : Plain a) (hb : Plain b) : Plain (a ++ b) :=
  List.forall_mem_append.mpr ⟨ha, hb⟩

/-- A text that is checked to have no `~`. -/
theorem plain_of_all {id : Text} (h : id.all (· ≠ ch '~') = true) : Plain id :=
  fun u hu => of_decide_eq_true (List.all_eq_true.mp h u hu)

theorem ne_tilde_of_isWord {u : UInt16} (h : isWord u = true) : u ≠ ch '~' := by
  rintro rfl
  exact absurd h (by decide)

theorem word1_within : word1.Within (· ≠ ch '~') :=
  ⟨Regex.within_unit fun _ => ne_tilde_of_isWord, Regex.within_unit fun _ => ne_tilde_of_isWord⟩

theorem exactly_within {s : String} (h : Plain (units s)) : (exactly s).Within (· ≠ ch '~') := by
  refine Regex.within_seqs fun r hr => ?_
  obtain ⟨a, ha, rfl⟩ := List.mem_map.mp hr
  refine Regex.within_unit fun u hu => ?_
  exact of_decide_eq_true hu ▸ h a ha

/-- The names that a group captures are plain. -/
theorem plain_held {content : Text} {m : Nat × Found} {r : Regex UInt16} {n : Nat}
    (hr : r.GroupWithin (· ≠ ch '~') n) (hm : r.matchAt content m.1 = some m.2) : Plain (held content m n) := by
  rw [held]
  cases hheld : m.2.group content n with
  | none => exact fun u hu => absurd hu List.not_mem_nil
  | some name => exact Regex.forall_mem_group hr hm hheld

def PlainRanges (ranges : List SectionRange) : Prop := ∀ r ∈ ranges, Plain r.sectionId

end Haive.Rag

import Haive.Rag.Blocks
import Haive.Rag.RubyExpression

/-!
# Functions and classes of a Python or a Ruby file

`pythonRanges` and `rubyRanges` of `_rag-chunkers.ts`, which read line by line: the indentation says where a
body ends. An endless `def` of Ruby ends where its expression does.
-/

namespace Haive.Rag

open Lib.Spans Lib.Units
open Lib (Found Regex)

/-! ## Lines -/

structure SourceLine where
  text : Text
  offset : Nat

/-- `\r\n|[\r\n]`. -/
def LINE_BREAK : Regex UInt16 := .alts [.seq (.unit (· = 13)) (.unit (· = 10)), .unit fun u => u = 13 || u = 10]

/-- The lines between the breaks, from `start` on. -/
def linesFrom (text : Text) (start : Nat) : List Span → List SourceLine
  | [] => [{ text := text.drop start, offset := start }]
  | stop :: rest => { text := slice text start stop.1, offset := start } :: linesFrom text stop.2 rest

def sourceLines (text : Text) : List SourceLine :=
  linesFrom text 0 ((Regex.execAll (fun _ => 1) LINE_BREAK text 0).map fun m => (m.1, m.2.stop))

/-- `line.length - line.trimStart().length`. -/
def lineIndent (line : Text) : Nat := line.length - trimStartLength line

/-- `[ \t]+`. -/
def blanks1 : Regex UInt16 := .some1 (.unit isBlank)

/-- Where the lines start that are left, or the end of the file. -/
def offsetOf (content : Text) (lines : List SourceLine) : Nat := (lines.head?.map SourceLine.offset).getD content.length

def definitionKind (word : Text) : Text := if word = units "class" then units "class" else units "function"

/-! ## Python -/

/-- `defRe`. -/
def PYTHON_DEFINITION : Regex UInt16 :=
  .seqs [.group 1 blanks, .opt (.seq (exactly "async") blanks1), .group 2 (.alts [exactly "def", exactly "class"]),
    blanks1, .group 3 word1]

def behindPythonBody (indent : Nat) (lines : List SourceLine) : List SourceLine :=
  lines.dropWhile fun line => trim line.text = [] || indent < lineIndent line.text

def pythonRangesFrom (content : Text) : List SourceLine → List SectionRange
  | [] => []
  | line :: rest =>
    match Regex.matchAt PYTHON_DEFINITION line.text 0 with
    | none => pythonRangesFrom content rest
    | some m =>
      let kind := definitionKind (held line.text (0, m) 2)
      let name := held line.text (0, m) 3
      let behind := behindPythonBody (held line.text (0, m) 1).length rest
      { sectionId := kind ++ units "-" ++ name
        start := line.offset
        stop := offsetOf content behind
        breadcrumb := [kind ++ units " " ++ name]
        commentStart := none } :: pythonRangesFrom content behind
termination_by lines => lines.length
decreasing_by
  · exact Nat.lt_succ_self _
  · exact Nat.lt_succ_of_le (List.dropWhile_suffix _).length_le

def pythonRanges (U : Unicode) (content : Text) : List SectionRange :=
  pythonRangesFrom content (sourceLines (maskNonCode U content (.simple .python) .off))

/-! ## Ruby -/

def RUBY_END : Regex UInt16 := .seq (exactly "end") wordBoundary

def RUBY_CLAUSE : Regex UInt16 := .seq (.alts [exactly "rescue", exactly "ensure", exactly "else"]) wordBoundary

/-- The pattern of a module. -/
def RUBY_MODULE : Regex UInt16 :=
  .seqs [blanks, exactly "module", blanks1, .group 1 (.some1 (.unit fun u => isWord u || u = ch ':'))]

def RUBY_DEFINITION : Regex UInt16 :=
  .seqs [blanks, .group 1 (.alts [exactly "def", exactly "class"]), blanks1,
    .group 2 (.seqs [.opt (exactly "self."), word1, .opt (.unit (oneOf "!?="))])]

/-- `\s*=(?!=|>)`. -/
def RUBY_ENDLESS : Regex UInt16 := .seqs [spaces, exactly "=", .notAhead (.alts [exactly "=", exactly ">"])]

structure RubyModule where
  indent : Nat
  name : Text

def startsWith (pattern : Regex UInt16) (line : Text) : Bool := (Regex.matchAt pattern (trim line) 0).isSome

/-- The lines behind a body of this indentation and its `end`. -/
def behindRubyBody (indent : Nat) (lines : List SourceLine) : List SourceLine :=
  let behind := lines.dropWhile fun line =>
    trim line.text = [] || indent < lineIndent line.text ||
      (lineIndent line.text = indent && startsWith RUBY_CLAUSE line.text)
  if behind.head?.any fun line => startsWith RUBY_END line.text && lineIndent line.text = indent then behind.tail
  else behind

/-- Where the parameters end of an endless definition, of which this stands behind the name. -/
def endlessClose (kind tail : Text) : Option Nat :=
  if kind = units "function" then
    (if isAt tail 0 '(' then parenEnd tail 0 else some 0).filter fun close =>
      (Regex.matchAt RUBY_ENDLESS (tail.drop close) 0).isSome
  else none

section

variable (U : Unicode) (content : Text)

/-- Where the expression of an endless definition ends. -/
def endlessStop (line : SourceLine) (tail : Text) (close : Nat) : Option Nat :=
  let expressionStart :=
    line.offset + line.text.length - tail.length + close + (indexOf (tail.drop close) [ch '='] 0).getD 0 + 1
  let parameters := if isAt tail 0 '(' then slice tail 1 (close - 1) else []
  (rubyExpressionEnd U parameters 0 [] true).bind fun read =>
    (rubyExpressionEnd U content expressionStart read.2).map Prod.fst

/-- The lines behind the definition that the line starts. -/
def behindRubyDefinition (line : SourceLine) (m : Found) (rest : List SourceLine) : Option (List SourceLine) :=
  let tail := (line.text.drop m.stop).dropWhile isTrimmed
  match endlessClose (definitionKind (held line.text (0, m) 1)) tail with
  | some close => (endlessStop U content line tail close).map fun stop => rest.dropWhile fun line => line.offset < stop
  | none => some (behindRubyBody (lineIndent line.text) rest)

theorem behindRubyBody_le (indent : Nat) (lines : List SourceLine) :
    (behindRubyBody indent lines).length ≤ lines.length := by
  rw [behindRubyBody]
  split
  · exact ((List.tail_suffix _).trans (List.dropWhile_suffix _)).length_le
  · exact (List.dropWhile_suffix _).length_le

theorem behindRubyDefinition_le {line : SourceLine} {m : Found} {rest behind : List SourceLine}
    (h : behindRubyDefinition U content line m rest = some behind) : behind.length ≤ rest.length := by
  rw [behindRubyDefinition] at h
  split at h
  · obtain ⟨stop, -, rfl⟩ := Option.map_eq_some_iff.mp h
    exact (List.dropWhile_suffix _).length_le
  · cases h
    exact behindRubyBody_le _ rest

/-- The loop of `rubyRanges`; `none` is a `TypeError`. -/
def rubyRangesFrom (modules : List RubyModule) : List SourceLine → Option (List SectionRange)
  | [] => some []
  | line :: rest =>
    if startsWith RUBY_END line.text && modules.getLast?.any (lineIndent line.text ≤ ·.indent) then
      rubyRangesFrom modules.dropLast rest
    else
      match Regex.matchAt RUBY_MODULE line.text 0, Regex.matchAt RUBY_DEFINITION line.text 0 with
      | some m, _ => rubyRangesFrom (modules ++ [⟨lineIndent line.text, held line.text (0, m) 1⟩]) rest
      | none, none => rubyRangesFrom modules rest
      | none, some m =>
        match _h : behindRubyDefinition U content line m rest with
        | none => none
        | some behind =>
          let kind := definitionKind (held line.text (0, m) 1)
          let name := held line.text (0, m) 2
          (rubyRangesFrom modules behind).map fun ranges =>
            { sectionId := kind ++ units "-" ++ name
              start := line.offset
              stop := offsetOf content behind
              breadcrumb := modules.map (fun owner => units "module " ++ owner.name) ++ [kind ++ units " " ++ name]
              commentStart := none } :: ranges
termination_by lines => lines.length
decreasing_by
  · exact Nat.lt_succ_self _
  · exact Nat.lt_succ_self _
  · exact Nat.lt_succ_self _
  · exact Nat.lt_succ_of_le (behindRubyDefinition_le U content _h)

def rubyRanges : Option (List SectionRange) := rubyRangesFrom U content [] (sourceLines content)

end

/-! ## Ids -/

theorem definitionKind_plain (word : Text) : Plain (definitionKind word) := by
  rw [definitionKind]
  split <;> exact plain_of_all (by decide)

theorem definition_plain (word : Text) {name : Text} (hname : Plain name) :
    Plain (definitionKind word ++ units "-" ++ name) := by
  have hdash : Plain (units "-") := plain_of_all (by decide)
  exact ((definitionKind_plain word).append hdash).append hname

theorem pythonName_within : PYTHON_DEFINITION.GroupWithin (· ≠ ch '~') 3 := List.forall_mem_singleton.mpr word1_within

theorem pythonRangesFrom_plain (content : Text) (lines : List SourceLine) :
    PlainRanges (pythonRangesFrom content lines) := by
  fun_induction pythonRangesFrom content lines with
  | case1 => exact fun r hr => absurd hr List.not_mem_nil
  | case2 line rest hnone ih => exact ih
  | case3 line rest m hm kind name behind ih =>
    exact List.forall_mem_cons.mpr ⟨definition_plain _ (plain_held (m := (0, m)) pythonName_within hm), ih⟩

theorem pythonRanges_plain (U : Unicode) (content : Text) : PlainRanges (pythonRanges U content) :=
  pythonRangesFrom_plain content _

theorem rubyName_within : RUBY_DEFINITION.GroupWithin (· ≠ ch '~') 2 := by
  refine List.forall_mem_singleton.mpr ⟨exactly_within (plain_of_all (by decide)), word1_within, ?_⟩
  refine Regex.within_unit fun u hu => ?_
  rintro rfl
  exact absurd hu (by decide)

/-- The two walks over an endless definition come to their ends. -/
theorem behindRubyDefinition_ne_none (U : Unicode) (content : Text) (line : SourceLine) (m : Found)
    (rest : List SourceLine) : behindRubyDefinition U content line m rest ≠ none := by
  rw [behindRubyDefinition]
  split
  · next close hclose =>
    rw [endlessStop]
    obtain ⟨_, _, -, hparameters, -⟩ := rubyRun_stops U _ 0 [] true
    rw [hparameters, Option.bind_some]
    obtain ⟨_, _, -, hexpression, -⟩ := rubyRun_stops U content _ _ false
    rw [hexpression]
    exact Option.some_ne_none _
  · exact Option.some_ne_none _

theorem rubyRangesFrom_plain (U : Unicode) (content : Text) (modules : List RubyModule) (lines : List SourceLine) :
    ∃ ranges, rubyRangesFrom U content modules lines = some ranges ∧ PlainRanges ranges := by
  fun_induction rubyRangesFrom U content modules lines with
  | case1 modules => exact ⟨[], rfl, fun r hr => absurd hr List.not_mem_nil⟩
  | case2 modules line rest hends ih => exact ih
  | case3 modules line rest hends m hmodule ih => exact ih
  | case4 modules line rest hends hdefinition hmodule ih => exact ih
  | case5 modules line rest hends m hdefinition hmodule hnone =>
    exact absurd hnone (behindRubyDefinition_ne_none U content line m rest)
  | case6 modules line rest hends m hdefinition hmodule behind hbehind kind name ih =>
    obtain ⟨ranges, hranges, hplain⟩ := ih
    refine ⟨_, congrArg (Option.map _) hranges, List.forall_mem_cons.mpr ⟨?_, hplain⟩⟩
    exact definition_plain _ (plain_held (m := (0, m)) rubyName_within hdefinition)

theorem rubyRanges_plain (U : Unicode) (content : Text) :
    ∃ ranges, rubyRanges U content = some ranges ∧ PlainRanges ranges := rubyRangesFrom_plain U content [] _

end Haive.Rag

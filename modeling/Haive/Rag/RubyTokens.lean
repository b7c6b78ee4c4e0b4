import Haive.Rag.Tsx

/-!
# Tokens of Ruby

The state in which `rubyExpressionEnd` of `_rag-chunkers.ts` reads code, one token of it, and what opens a
percent literal. The sets of local names are shared between frames and change in place, so they live in a
store; a frame holds where its set is. A token always moves on, at the end of the text even behind it.
-/

namespace Haive.Rag

open Lib.Spans Lib.Units
open Lib (Regex)

/-! ## Sets of local names -/

abbrev LocalSets := List (List Text)

/-- The set at a place of the store. -/
def LocalSets.at (sets : LocalSets) (ref : Nat) : List Text := (sets[ref]?).getD []

/-- `locals.add(word)`. -/
def LocalSets.add (sets : LocalSets) (ref : Nat) (word : Text) : LocalSets :=
  sets.modify ref fun names => if names.elem word then names else names ++ [word]

/-! ## State -/

inductive NameContext
  | bare
  | receiver
  | constant
  | value
  deriving DecidableEq

structure RubyCodeState where
  depth : Nat := 0
  continues : Bool := false
  operandExpected : Bool := true
  nameContext : NameContext := .bare
  commandName : Bool := false
  parameterBinding : Bool := false

def rubyCodeState (parameters : Bool := false) : RubyCodeState := { parameterBinding := parameters }

def rubyValue (state : RubyCodeState) : RubyCodeState :=
  { state with continues := false, operandExpected := false, nameContext := .bare, commandName := false }

def RUBY_PREFIX_OPERATORS : List Text := names ["not", "and", "or", "defined?"]

/-- The names that are no commands. -/
def RUBY_VALUE_NAMES : List Text :=
  names ["true", "false", "nil", "self", "__FILE__", "__LINE__", "__ENCODING__", "_1", "_2", "_3", "_4", "_5", "_6",
    "_7", "_8", "_9"]

def rubyCommandArgument (content : Text) (i : Nat) (state : RubyCodeState) : Bool :=
  state.commandName && (i ≠ 0 && (content[i - 1]?).any isBlank) &&
    ! ((content[i + 1]?).getD (ch ' ') = ch '=' || isTrimmed ((content[i + 1]?).getD (ch ' ')))

/-! ## Tokens -/

/-- `\\(?:[CM]-|c)`. -/
def RUBY_CHARACTER_PREFIX : Regex UInt16 :=
  .seq (.unit (· = 0x5c)) (.alts [.seq (.unit (oneOf "CM")) (exactly "-"), exactly "c"])

/-- The pattern of an assignment behind a name. -/
def RUBY_ASSIGNMENT : Regex UInt16 :=
  .seq blanks (.alts [.seq (exactly "=") (.notAhead (.alts [exactly "=", exactly "~", exactly ">"])),
    .seq (.alts [.unit (oneOf "-+*/%&|^"), exactly "<<", exactly ">>", exactly "**", exactly "&&", exactly "||"])
      (exactly "=")])

def characterPrefixesEnd (content : Text) (i : Nat) : Nat :=
  match _h : Regex.matchAt RUBY_CHARACTER_PREFIX (content.drop i) 0 with
  | none => i
  | some m => characterPrefixesEnd content (i + m.stop)
termination_by content.length - i
decreasing_by
  obtain ⟨hstart, hstop⟩ := Regex.matchAt_bounds (Nat.zero_le _) _h
  have hleast : RUBY_CHARACTER_PREFIX.least = 2 := by decide
  rw [List.length_drop] at hstop
  omega

/-- Where the character literal at `i` ends, which may be behind the text. -/
def rubyCharacterEnd (content : Text) (i : Nat) : Nat :=
  let stop := characterPrefixesEnd content (i + 1)
  let stop := if isAt content stop '\\' then stop + 1 else stop
  stop + pointWidth (content.drop stop)

def rubyNameEnd (content : Text) (i : Nat) : Nat :=
  let stop := pass content isLabelChar (i + 1)
  if isAt content stop '?' || (isAt content stop '!' && ! (isAt content (stop + 1) '=' || isAt content (stop + 1) '~'))
  then stop + 1 else stop

/-- A code point that starts with a capital letter, `\p{Lu}`. -/
def isUpper (U : Unicode) (c : Nat) : Bool := asciiPoint (fun u => 0x41 ≤ u && u ≤ 0x5a) c || (0x80 ≤ c && U.upper c)

/-- What a token leaves: where it ends, the state, the sets of local names. -/
structure RubyToken where
  stop : Nat
  state : RubyCodeState
  sets : LocalSets

section

variable (U : Unicode) (content : Text)

def rubyName (i : Nat) (state : RubyCodeState) (sets : LocalSets) (locals : Nat) : RubyToken :=
  let stop := rubyNameEnd content i
  let word := slice content i stop
  let continues := state.nameContext = .bare && RUBY_PREFIX_OPERATORS.elem word
  let binds := state.parameterBinding ||
    (state.nameContext = .bare && (Regex.matchAt RUBY_ASSIGNMENT (content.drop stop) 0).isSome)
  let sets := if binds then sets.add locals word else sets
  { stop
    sets
    state := { state with
      continues
      commandName := ! continues && (state.nameContext = .receiver || (state.nameContext ≠ .value &&
        ! (i ≠ 0 && (content[i - 1]?).any isDigit) && ! isUpper U (codePoint word) &&
        (state.nameContext = .constant || ! (sets.at locals).elem word) && ! RUBY_VALUE_NAMES.elem word))
      operandExpected := continues
      nameContext := .bare } }

/-- What a `.`, `:`, `@` or `$` does. -/
def rubySigil (i : Nat) (state : RubyCodeState) (parameters : Bool) : RubyCodeState :=
  { state with
    nameContext :=
      if isAt content i '.' then .receiver
      else if isAt content i ':' && ((i ≠ 0 && isAt content (i - 1) ':') || isAt content (i + 1) ':') then .constant
      else .value
    parameterBinding := if parameters && state.depth = 0 && isAt content i ':' then false else state.parameterBinding
    commandName := false
    continues := isAt content i '.' || isAt content i ':'
    operandExpected := ! isAt content i '.' }

/-- What other punctuation does. -/
def rubyPunctuation (i : Nat) (state : RubyCodeState) (parameters : Bool) : RubyCodeState :=
  let continues := (content[i]?).any (oneOf "-+*/%&|^,?=<>!~\\")
  { state with
    parameterBinding :=
      if parameters && state.depth = 0 then
        if isAt content i ',' || isAt content i ';' then true
        else if isAt content i '=' then false else state.parameterBinding
      else state.parameterBinding
    continues
    operandExpected := continues
    nameContext := .bare
    commandName := false }

def rubyCodeToken (i : Nat) (state : RubyCodeState) (sets : LocalSets) (locals : Nat) (parameters : Bool) : RubyToken :=
  if isAt content i '?' && state.operandExpected && (content[i + 1]?).any fun u => ! isTrimmed u then
    { stop := rubyCharacterEnd content i, state := rubyValue state, sets }
  else if (content[i]?).any isLabelStart then rubyName U content i state sets locals
  else if isAt content i '#' then { stop := (lineEnd content i true).getD content.length, state, sets }
  else
    { stop := i + 1
      sets
      state :=
        if (content[i]?).any (oneOf "([\x7b") then
          { rubyValue { state with depth := state.depth + 1 } with operandExpected := true }
        else if (content[i]?).any (oneOf ")]\x7d") then rubyValue { state with depth := state.depth - 1 }
        else if (content[i]?).any (oneOf ".:@$") then rubySigil content i state parameters
        else if (content[i]?).any isTrimmed then state
        else rubyPunctuation content i state parameters }

end

/-! ## Literals -/

structure RubyLiteralFrame where
  openMark : UInt16
  close : UInt16
  paired : Bool
  interpolates : Bool
  regexp : Bool
  options : Bool
  depth : Int := 1
  inClass : Bool := false
  body : Nat
  locals : Nat

def closingMark (u : UInt16) : UInt16 :=
  if u = ch '(' then ch ')' else if u = ch '[' then ch ']' else if u = ch '{' then ch '}'
  else if u = ch '<' then ch '>' else u

def rubyPercentAt (content : Text) (i : Nat) (locals : Nat) : Option RubyLiteralFrame :=
  let kind := (content[i + 1]?).filter (oneOf "qQwWiIrxs")
  let start := if kind.isSome then i + 2 else i + 1
  (content[start]?).bind fun delimiter =>
    if isLetter delimiter || isDigit delimiter || 0x80 ≤ delimiter || (kind.isNone && isTrimmed delimiter) then none
    else
      some
        { openMark := delimiter
          close := closingMark delimiter
          paired := closingMark delimiter ≠ delimiter
          interpolates := ! kind.any (oneOf "qwis")
          regexp := false
          options := kind = some (ch 'r')
          body := start + 1
          locals }

/-! ## Every token moves on -/

variable {U : Unicode} {content : Text} {i : Nat}

theorem le_characterPrefixesEnd (content : Text) (i : Nat) : i ≤ characterPrefixesEnd content i := by
  fun_induction characterPrefixesEnd content i with
  | case1 => exact Nat.le_refl _
  | case2 i m hm ih => exact (Nat.le_add_right _ _).trans ih

theorem lt_rubyNameEnd (content : Text) (i : Nat) : i < rubyNameEnd content i := by
  have hpass := le_pass content isLabelChar (i + 1)
  rw [rubyNameEnd]
  split <;> omega

theorem rubyCodeToken_lt {state : RubyCodeState} {sets : LocalSets} {locals : Nat} {parameters : Bool}
    (hi : i < content.length) : i < (rubyCodeToken U content i state sets locals parameters).stop := by
  rw [rubyCodeToken]
  split
  · have hprefix := le_characterPrefixesEnd content (i + 1)
    rw [rubyCharacterEnd]
    dsimp only
    split <;> omega
  split
  · exact lt_rubyNameEnd content i
  split
  · next hhash =>
    dsimp only
    cases hend : lineEnd content i true with
    | none => exact hi
    | some stop =>
      obtain ⟨hle, -, hbreak⟩ := firstAt_spec hend
      refine Nat.lt_of_le_of_ne hle ?_
      rintro rfl
      rw [(of_decide_eq_true hhash : content[i]? = some (ch '#'))] at hbreak
      cases hbreak
  · exact Nat.lt_succ_self i

theorem rubyPercentAt_body {locals : Nat} {frame : RubyLiteralFrame} (h : rubyPercentAt content i locals = some frame) :
    i < frame.body := by
  obtain ⟨delimiter, -, hframe⟩ := Option.bind_eq_some_iff.mp h
  split at hframe
  · cases hframe
  · cases hframe
    dsimp only
    split <;> omega

end Haive.Rag

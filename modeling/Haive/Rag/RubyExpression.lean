import Haive.Rag.RubyTokens

/-!
# The end of a Ruby expression

`rubyExpressionEnd` of `_rag-chunkers.ts`: one walk over code, literals and what is interpolated in them, with a
stack of frames. A turn that stays where it is pops a frame or reads a header that waited to be read, so the rank
counts what is left of the text, then the headers that wait, then the frames. The frame at the bottom is never
popped, which `Grounded` says, so no turn fails: `rubyExpressionEnd_bounds`.
-/

namespace Haive.Rag

open Lib.Loop Lib.Spans Lib.Units
open Lib (Regex)

/-! ## Frames -/

/-- What closes a scope: its bracket, its `end`, or the statement of an endless method. -/
inductive ScopeClose
  | bracket
  | keyword
  | statement
  deriving DecidableEq

inductive MethodHeader
  | name
  | receiverName
  | signature
  | signatureDone
  | body
  deriving DecidableEq

structure RubyMethod where
  header : MethodHeader
  receiverLocals : Nat
  endingBase : Nat

/-- `id` tells the scopes apart, as their addresses do; only a method ends with its statement. -/
structure RubyBlockScope where
  id : Nat
  close : ScopeClose
  depth : Nat
  locals : Nat
  awaitingParameters : Bool
  method : Option RubyMethod
  statement : close = .statement → method.isSome = true

inductive EndingKind
  | block
  | loop
  | keyword
  | method
  deriving DecidableEq

structure RubyEnding where
  kind : EndingKind
  depth : Nat
  scope : Option Nat := none
  header : Bool := false

structure RubyLambda where
  depth : Nat
  locals : Nat
  headerRead : Bool

inductive FrameEnd
  | bracket
  | paren
  | bar
  | lambdaBody
  | methodBody
  | expression
  deriving DecidableEq

/-- `stop` is the source's `end`; the innermost scope comes first, and the innermost ending. -/
structure RubyCodeFrame where
  stop : FrameEnd
  state : RubyCodeState
  locals : Nat
  scopes : List RubyBlockScope := []
  endings : List RubyEnding := []
  lambda : Option RubyLambda := none
  parameters : Bool
  statementStart : Bool := true
  argumentlessControl : Bool := false

inductive RubyFrame
  | literal (frame : RubyLiteralFrame)
  | code (frame : RubyCodeFrame)

/-- The variables of `rubyExpressionEnd`; `scopeCount` is the next scope's id. -/
structure RubyState where
  cursor : Nat
  frames : List RubyFrame
  sets : LocalSets
  scopeCount : Nat := 0

/-- What the walk returns, with the sets as it leaves them; `none` is a `TypeError`. -/
abbrev RubyResult := Option (Nat × LocalSets)

def rubyCodeFrame (locals : Nat) (stop : FrameEnd := .bracket)
    (parameters : Bool := stop ≠ .bracket && stop ≠ .expression) : RubyCodeFrame :=
  { stop, state := rubyCodeState parameters, locals, parameters }

def rubyFrameLocals (frame : RubyCodeFrame) : Nat := (frame.scopes.head?.map (·.locals)).getD frame.locals

def rubyCodeStart (frame : RubyCodeFrame) : RubyCodeFrame :=
  { frame with
    state := { rubyCodeState with depth := frame.state.depth }
    statementStart := true
    argumentlessControl := false }

def RubyBlockScope.withHeader (scope : RubyBlockScope) (header : MethodHeader) : RubyBlockScope :=
  { scope with
    method := scope.method.map ({ · with header })
    statement := fun h => (Option.isSome_map ..).trans (scope.statement h) }

def RubyCodeFrame.withHeader (frame : RubyCodeFrame) (header : MethodHeader) : RubyCodeFrame :=
  { frame with scopes := frame.scopes.modifyHead (·.withHeader header) }

/-! ## Literals -/

section

variable (U : Unicode) (content : Text)

/-- A class of a regular expression opens or closes. -/
def RubyLiteralFrame.readClass (frame : RubyLiteralFrame) (i : Nat) : RubyLiteralFrame :=
  if frame.regexp && isAt content i '[' then { frame with inClass := true }
  else if frame.regexp && isAt content i ']' then { frame with inClass := false }
  else frame

def rubyLiteralTurn (s : RubyState) (frame : RubyLiteralFrame) (rest : List RubyFrame) : RubyState ⊕ RubyResult :=
  if isAt content s.cursor '\\' then .inl { s with cursor := min content.length (s.cursor + 2) }
  else if frame.interpolates && startsAt content "#\x7b" s.cursor then
    .inl { s with frames := .code (rubyCodeFrame frame.locals) :: s.frames, cursor := s.cursor + 2 }
  else
    let frame := frame.readClass content s.cursor
    if frame.paired && content[s.cursor]? = some frame.openMark then
      .inl { s with frames := .literal { frame with depth := frame.depth + 1 } :: rest, cursor := s.cursor + 1 }
    else if content[s.cursor]? = some frame.close && ! frame.inClass then
      if frame.depth - 1 = 0 then
        let cursor := if frame.options then pass content (oneOf "imoxnesu") (s.cursor + 1) else s.cursor + 1
        match rest with
        | [] => .inr (some (cursor, s.sets))
        | .code parent :: outer =>
          .inl { s with frames := .code { parent with state := rubyValue parent.state } :: outer, cursor }
        | .literal parent :: outer => .inl { s with frames := .literal parent :: outer, cursor }
      else .inl { s with frames := .literal { frame with depth := frame.depth - 1 } :: rest, cursor := s.cursor + 1 }
    else .inl { s with frames := .literal frame :: rest, cursor := s.cursor + 1 }

/-! ## Headers -/

/-- `wordAt`. -/
def rubyWordAt (i : Nat) : Option Text :=
  if (content[i]?).any isLabelStart then
    let stop := pass content isLabelChar i
    some (slice content i (if isAt content stop '!' || isAt content stop '?' then stop + 1 else stop))
  else none

/-- White space and comments. -/
def isTrivia (i : Nat) : Bool := (content[i]?).any isTrimmed || isAt content i '#'

/-- A line end, where `;` and brackets are none. -/
def endsLine (i : Nat) : Bool := (content[i]?).any (isLineTerminator true)

/-- The pattern of a method's name with its receiver. -/
def RUBY_METHOD_NAME : Regex UInt16 :=
  let name : Regex UInt16 := .seq (.unit isLabelStart) (.many (.unit isLabelChar))
  .seq
    (.many (.seqs [.alts [exactly "self", name], blanks, .alts [exactly ".", exactly "::"], blanks]))
    (.alts [.seq name (.opt (.unit (oneOf "!?="))), .seq (exactly "[]") (.opt (exactly "=")), exactly "<=>",
      exactly "===", exactly "==", exactly "!=", exactly "=~", exactly "!~", exactly "<=", exactly ">=", exactly "<<",
      exactly ">>", exactly "**", .seq (.unit (oneOf "+-*/%&|^~<>!")) (.opt (exactly "@"))])

/-- The scopes of endless methods whose statement ends here are closed. -/
def closeStatements (frame : RubyCodeFrame) (i : Nat) (word : Option Text) : RubyCodeFrame :=
  let boundary := (content[i]?).any (isLineTerminator true) || (content[i]?).any (oneOf ";)]\x7d") ||
    (word = some (units "end") && frame.state.nameContext = .bare)
  { frame with
    scopes := frame.scopes.dropWhile fun scope =>
      scope.close = .statement && scope.depth = frame.state.depth && ! frame.state.continues &&
        scope.method.map (·.endingBase) = some frame.endings.length && boundary }

/-- The method whose signature is read has no `end`: its scope ends with its statement. -/
def RubyCodeFrame.endless (frame : RubyCodeFrame) (scope : RubyBlockScope) (method : RubyMethod)
    (outer : List RubyBlockScope) : RubyCodeFrame :=
  let endings := (frame.endings.reverse.eraseP fun ending => ending.scope = some scope.id).reverse
  let started := rubyCodeStart { frame with
    endings
    scopes := { scope with
      close := .statement
      method := some { method with header := .body, endingBase := endings.length }
      statement := fun _ => rfl } :: outer }
  { started with state := { started.state with continues := true } }

/-- The name of a method: the walk goes on behind it, or the frame does here. -/
def rubyMethodName (s : RubyState) (frame : RubyCodeFrame) (rest : List RubyFrame) (method : RubyMethod) :
    RubyState ⊕ RubyCodeFrame :=
  if method.header = .name && isAt content s.cursor '(' then
    .inl { s with
      frames := .code (rubyCodeFrame method.receiverLocals .paren false) :: .code (frame.withHeader .receiverName) :: rest
      cursor := s.cursor + 1 }
  else if method.header = .receiverName && isAt content s.cursor '.' then
    .inl { s with frames := .code frame :: rest, cursor := s.cursor + 1 }
  else
    match Regex.matchAt RUBY_METHOD_NAME (slice content s.cursor (s.cursor + MAX_PARAMS_CHARS)) 0 with
    | some head =>
      .inl { s with
        frames := .code (rubyCodeStart (frame.withHeader .signature)) :: rest
        cursor := s.cursor + head.stop }
    | none => .inr (frame.withHeader .signature)

def rubyMethodSignature (s : RubyState) (frame : RubyCodeFrame) (rest : List RubyFrame) (scope : RubyBlockScope)
    (outer : List RubyBlockScope) (method : RubyMethod) : RubyState ⊕ RubyCodeFrame :=
  if endsLine content s.cursor || isAt content s.cursor ';' then .inr (frame.withHeader .body)
  else if isTrivia content s.cursor then .inr frame
  else if isAt content s.cursor '(' && method.header = .signature then
    .inl { s with
      frames := .code (rubyCodeFrame scope.locals .paren) :: .code (frame.withHeader .signatureDone) :: rest
      cursor := s.cursor + 1 }
  else if isAt content s.cursor '=' && ! (isAt content (s.cursor + 1) '=' || isAt content (s.cursor + 1) '>') then
    .inl { s with frames := .code (frame.endless scope method outer) :: rest, cursor := s.cursor + 1 }
  else if method.header ≠ .signatureDone && ! isAt content s.cursor '{' &&
      rubyWordAt content s.cursor ≠ some (units "end") then
    .inl { s with frames := .code (rubyCodeFrame scope.locals .methodBody) :: .code (frame.withHeader .body) :: rest }
  else .inr (frame.withHeader .body)

def rubyMethodHeader (s : RubyState) (frame : RubyCodeFrame) (rest : List RubyFrame) : RubyState ⊕ RubyCodeFrame :=
  match frame.scopes with
  | [] => .inr frame
  | scope :: outer =>
    match scope.method with
    | none => .inr frame
    | some method =>
      match method.header with
      | .body => .inr frame
      | .name | .receiverName =>
        if isTrivia content s.cursor then .inr frame else rubyMethodName content s frame rest method
      | .signature | .signatureDone => rubyMethodSignature content s frame rest scope outer method

/-- The parameters of a block between bars, if the innermost scope waits for them. -/
def rubyBlockParameters (s : RubyState) (frame : RubyCodeFrame) (rest : List RubyFrame) : RubyState ⊕ RubyCodeFrame :=
  match frame.scopes with
  | [] => .inr frame
  | scope :: outer =>
    if scope.awaitingParameters && ! isTrivia content s.cursor then
      let frame := { frame with scopes := { scope with awaitingParameters := false } :: outer }
      if isAt content s.cursor '|' then
        if isAt content (s.cursor + 1) '|' then
          .inl { s with frames := .code (rubyCodeStart frame) :: rest, cursor := s.cursor + 2 }
        else
          .inl { s with
            frames := .code (rubyCodeFrame scope.locals .bar) :: .code frame :: rest
            cursor := s.cursor + 1 }
      else .inr frame
    else .inr frame

/-- The parameters of a lambda, with or without brackets, if they were not read. -/
def rubyLambdaHeader (s : RubyState) (frame : RubyCodeFrame) (rest : List RubyFrame) : RubyState ⊕ RubyCodeFrame :=
  match frame.lambda with
  | none => .inr frame
  | some lambda =>
    if ! lambda.headerRead && ! isTrivia content s.cursor then
      let frame := { frame with lambda := some { lambda with headerRead := true } }
      if isAt content s.cursor '(' then
        .inl { s with
          frames := .code (rubyCodeFrame lambda.locals .paren) :: .code frame :: rest
          cursor := s.cursor + 1 }
      else if ! isAt content s.cursor '{' && rubyWordAt content s.cursor ≠ some (units "do") then
        .inl { s with frames := .code (rubyCodeFrame lambda.locals .lambdaBody) :: .code frame :: rest }
      else .inr frame
    else .inr frame

/-- A lambda, or a literal that the walk goes into. -/
def rubyOperand (s : RubyState) (frame : RubyCodeFrame) (rest : List RubyFrame) : Option RubyState :=
  let locals := rubyFrameLocals frame
  let valueExpected := frame.state.operandExpected || rubyCommandArgument content s.cursor frame.state
  if startsAt content "->" s.cursor then
    some { s with
      sets := s.sets ++ [s.sets.at locals]
      frames := .code { frame with
        lambda := some { depth := frame.state.depth, locals := s.sets.length, headerRead := false }
        state := { frame.state with operandExpected := true, continues := true, commandName := false }
        statementStart := false } :: rest
      cursor := s.cursor + 2 }
  else
    let percent := if isAt content s.cursor '%' && valueExpected then rubyPercentAt content s.cursor locals else none
    let regexp := isAt content s.cursor '/' && valueExpected && (regexClose content s.cursor true true).isSome
    let quoted := isAt content s.cursor '\'' || isAt content s.cursor '"' || isAt content s.cursor '`'
    let mark := (content[s.cursor]?).getD 0
    let plain : RubyLiteralFrame :=
      { openMark := mark
        close := mark
        paired := false
        interpolates := ! isAt content s.cursor '\''
        regexp
        options := regexp
        body := s.cursor + 1
        locals }
    (percent.or (if quoted || regexp then some plain else none)).map fun literal =>
      { s with
        frames := .literal literal :: .code { frame with statementStart := false } :: rest
        cursor := literal.body }

/-! ## Tokens -/

/-- A frame with what its tokens change beside it. -/
structure RubyStep where
  frame : RubyCodeFrame
  sets : LocalSets
  scopeCount : Nat

/-- A block opens, with the names of the lambda whose body it is, or with a copy of those around it. -/
def RubyStep.openBlock (step : RubyStep) (pending : Option RubyLambda) (close : ScopeClose)
    (hclose : close ≠ .statement) (depth : Nat) : RubyStep :=
  { scopeCount := step.scopeCount + 1
    sets := if pending.isSome then step.sets else step.sets ++ [step.sets.at (rubyFrameLocals step.frame)]
    frame := { step.frame with
      lambda := if pending.isSome then none else step.frame.lambda
      scopes :=
        { id := step.scopeCount
          close
          depth
          locals := (pending.map (·.locals)).getD step.sets.length
          awaitingParameters := pending.isNone
          method := none
          statement := fun h => absurd h hclose } :: step.frame.scopes } }

/-- What was before the token. -/
structure RubyBefore where
  pending : Option RubyLambda
  depth : Nat
  operandExpected : Bool
  statementStart : Bool
  controlModifier : Bool

/-- `do` opens a block, unless it ends the header of a loop. -/
def rubyDo (step : RubyStep) (before : RubyBefore) : RubyStep :=
  let loops := step.frame.endings.head?.any fun top => top.kind = .loop && top.header && top.depth = before.depth
  if loops then
    { step with
      frame := rubyCodeStart { step.frame with endings := step.frame.endings.modifyHead ({ · with header := false }) } }
  else
    let opened := step.openBlock before.pending .keyword ScopeClose.noConfusion before.depth
    { opened with
      frame := rubyCodeStart { opened.frame with
        endings := { kind := .block, depth := before.depth, scope := some step.scopeCount } :: step.frame.endings } }

/-- `end` closes the innermost ending and its scope; a scope that is not found is the innermost one. -/
def rubyEnd (frame : RubyCodeFrame) : RubyCodeFrame :=
  let scopes :=
    match (frame.endings.head?.bind (·.scope)) with
    | none => frame.scopes
    | some id => if frame.scopes.any (·.id = id) then frame.scopes.eraseP (·.id = id) else frame.scopes.tail
  { frame with endings := frame.endings.tail, scopes, state := rubyValue frame.state }

/-- `def` opens a scope with names of its own. -/
def rubyDef (step : RubyStep) (before : RubyBefore) : RubyStep :=
  { scopeCount := step.scopeCount + 1
    sets := step.sets ++ [[]]
    frame := rubyCodeStart { step.frame with
      scopes :=
        { id := step.scopeCount
          close := .keyword
          depth := before.depth
          locals := step.sets.length
          awaitingParameters := false
          method := some { header := .name, receiverLocals := rubyFrameLocals step.frame,
                           endingBase := step.frame.endings.length }
          statement := ScopeClose.noConfusion } :: step.frame.scopes
      endings := { kind := .method, depth := before.depth, scope := some step.scopeCount, header := true } ::
        step.frame.endings } }

def rubyKeyword (word : Text) (step : RubyStep) (before : RubyBefore) : RubyStep :=
  if word = units "do" then rubyDo step before
  else if word = units "end" then { step with frame := rubyEnd step.frame }
  else if (names ["if", "unless", "while", "until"]).elem word then
    { step with
      frame := { step.frame with
        endings :=
          if ! before.controlModifier && (before.operandExpected || before.statementStart) then
            { kind := if (names ["while", "until"]).elem word then .loop else .keyword, depth := before.depth,
              header := true } :: step.frame.endings
          else step.frame.endings
        state := { step.frame.state with operandExpected := true, continues := true, commandName := false } } }
  else if word = units "def" then rubyDef step before
  else if (names ["case", "begin", "for", "class", "module"]).elem word then
    { step with
      frame := rubyCodeStart { step.frame with
        endings := { kind := if word = units "for" then .loop else .keyword, depth := before.depth, header := true } ::
          step.frame.endings } }
  else if (names ["return", "break", "next", "yield", "redo", "retry"]).elem word then
    { step with frame := { rubyCodeStart step.frame with argumentlessControl := true, statementStart := false } }
  else if (names ["then", "else", "elsif", "when", "rescue", "ensure", "in"]).elem word then
    { step with frame := rubyCodeStart step.frame }
  else step

/-- The words behind which a statement may start. -/
def RUBY_STATEMENT_WORDS : List Text :=
  names ["do", "begin", "then", "else", "elsif", "when", "rescue", "ensure", "in", "return", "break", "next", "yield"]

def rubyStatement (frame : RubyCodeFrame) (i : Nat) (word : Option Text) : RubyCodeFrame :=
  if endsLine content i && ! frame.state.continues then
    let frame := { frame with
      endings := frame.endings.modifyHead fun top =>
        if top.header && top.depth = frame.state.depth then { top with header := false } else top }
    if ! frame.parameters && frame.state.depth = (frame.scopes.head?.map (·.depth)).getD 0 then rubyCodeStart frame
    else frame
  else if isAt content i ';' && ! frame.parameters then rubyCodeStart frame
  else if ! isTrivia content i && ! RUBY_STATEMENT_WORDS.elem (word.getD []) then { frame with statementStart := false }
  else frame

/-- An opening bracket that no value is expected of opens a block. -/
def rubyBracket (s : RubyState) (frame : RubyCodeFrame) (pending : Option RubyLambda) : RubyStep :=
  let step : RubyStep := { frame, sets := s.sets, scopeCount := s.scopeCount }
  if isAt content s.cursor '{' && (pending.isSome || ! frame.state.operandExpected) then
    step.openBlock pending .bracket ScopeClose.noConfusion (frame.state.depth + 1)
  else step

/-- The step behind its token; `first` is the frame in front of it, whose innermost scope a bracket may close. -/
def RubyStep.behind (step : RubyStep) (first : RubyCodeFrame) (i : Nat) (token : RubyToken) : RubyStep :=
  let closes := isAt content i '}' &&
    first.scopes.head?.any fun scope => scope.close = .bracket && scope.depth = first.state.depth
  { step with
    sets := token.sets
    frame := { step.frame with
      state := token.state
      scopes := if closes then step.frame.scopes.tail else step.frame.scopes } }

def RubyStep.word (step : RubyStep) (first : RubyCodeFrame) (stop : Nat) (word : Option Text) (before : RubyBefore) :
    RubyStep :=
  let label := isAt content stop ':' && ! isAt content (stop + 1) ':'
  match word with
  | none => step
  | some keyword =>
    if first.state.nameContext = NameContext.bare && ! label then rubyKeyword keyword step before else step

/-- A token of code, which moves the walk on. -/
def rubyToken (s : RubyState) (frame : RubyCodeFrame) (rest : List RubyFrame) (controlModifier : Bool) : RubyState :=
  let word := rubyWordAt content s.cursor
  let pending := frame.lambda.filter (·.depth = frame.state.depth)
  let before : RubyBefore :=
    { pending, depth := frame.state.depth, operandExpected := frame.state.operandExpected,
      statementStart := frame.statementStart, controlModifier }
  let opened := rubyBracket content s frame pending
  let token := rubyCodeToken U content s.cursor opened.frame.state opened.sets (rubyFrameLocals opened.frame)
    frame.parameters
  let step := (opened.behind content frame s.cursor token).word content frame token.stop word before
  { cursor := token.stop
    frames := .code (rubyStatement content step.frame s.cursor word) :: rest
    sets := step.sets
    scopeCount := step.scopeCount }

/-! ## The walk -/

/-- The code frame ends with this character. -/
def FrameEnd.closesAt (stop : FrameEnd) (i : Nat) : Bool :=
  match stop with
  | .bracket => isAt content i '}'
  | .paren => isAt content i ')'
  | .bar => isAt content i '|'
  | _ => false

def rubyBodyEnds (frame : RubyCodeFrame) (i : Nat) : Bool :=
  (frame.stop = .methodBody && frame.state.depth = 0 &&
      (isAt content i ';' || (endsLine content i && ! frame.state.continues))) ||
    (frame.stop = .lambdaBody && frame.state.depth = 0 && ! frame.state.operandExpected &&
      (isAt content i '{' || rubyWordAt content i = some (units "do")))

/-- The frame is popped; behind parameters, the frame around it expects an operand. -/
def rubyPop (s : RubyState) (frame : RubyCodeFrame) (rest : List RubyFrame) (cursor : Nat) : RubyState ⊕ RubyResult :=
  match rest with
  | [] => .inr none
  | .literal parent :: outer => .inl { s with frames := .literal parent :: outer, cursor }
  | .code parent :: outer =>
    .inl { s with
      cursor
      frames := .code (
        if frame.parameters then
          { parent with
            state := { parent.state with operandExpected := true, continues := false, commandName := false } }
        else parent) :: outer }

/-- The headers, then an operand, then a token. -/
def rubyCodeStep (s : RubyState) (frame : RubyCodeFrame) (rest : List RubyFrame) (controlModifier : Bool) : RubyState :=
  match rubyMethodHeader content s frame rest with
  | .inl next => next
  | .inr frame =>
    match rubyBlockParameters content s frame rest with
    | .inl next => next
    | .inr frame =>
      match rubyLambdaHeader content s frame rest with
      | .inl next => next
      | .inr frame => (rubyOperand content s frame rest).getD (rubyToken U content s frame rest controlModifier)

def rubyCodeTurn (s : RubyState) (frame : RubyCodeFrame) (rest : List RubyFrame) : RubyState ⊕ RubyResult :=
  let word := rubyWordAt content s.cursor
  let frame := closeStatements content frame s.cursor word
  if frame.stop = .expression && frame.state.depth = 0 && ! frame.state.continues && frame.endings.isEmpty &&
      frame.lambda.isNone && endsLine content s.cursor then
    .inr (some (s.cursor + if isAt content s.cursor '\r' && isAt content (s.cursor + 1) '\n' then 2 else 1, s.sets))
  else if rubyBodyEnds content frame s.cursor then rubyPop s frame rest s.cursor
  else if frame.state.depth = 0 && frame.stop.closesAt content s.cursor then rubyPop s frame rest (s.cursor + 1)
  else
    let controlModifier := frame.argumentlessControl && frame.state.nameContext = .bare &&
      (names ["if", "unless", "while", "until"]).elem (word.getD [])
    let settles := (endsLine content s.cursor && ! frame.state.continues) ||
      (! isTrivia content s.cursor && ! (isAt content s.cursor '\\' && endsLine content (s.cursor + 1)))
    let frame := if settles then { frame with argumentlessControl := false } else frame
    .inl (rubyCodeStep U content s frame rest controlModifier)

/-- A turn of the loop of `rubyExpressionEnd`. -/
def rubyTurn (s : RubyState) : RubyState ⊕ RubyResult :=
  if s.cursor < content.length then
    match s.frames with
    | [] => .inr none
    | .literal frame :: rest => rubyLiteralTurn content s frame rest
    | .code frame :: rest => rubyCodeTurn U content s frame rest
  else .inr (some (content.length, s.sets))

end

/-! ## The rank -/

def RubyBlockScope.waits (scope : RubyBlockScope) : Nat := if scope.method.any (·.header ≠ .body) then 1 else 0

def RubyCodeFrame.waiting (frame : RubyCodeFrame) : Nat :=
  (frame.scopes.map RubyBlockScope.waits).sum + if frame.lambda.any (! ·.headerRead) then 1 else 0

def RubyFrame.waiting : RubyFrame → Nat
  | .literal _ => 0
  | .code frame => frame.waiting

def rubyRank (content : Text) (s : RubyState) : Nat × Nat × Nat :=
  (content.length - s.cursor, (s.frames.map RubyFrame.waiting).sum, s.frames.length)

def Grounded (frames : List RubyFrame) : Prop := ∃ frame, frames.getLast? = some (.code frame) ∧ frame.stop = .expression

/-- A turn lowers the rank, does not go back and leaves the bottom alone. -/
structure RubyMoves (content : Text) (s t : RubyState) : Prop where
  rank : Prod.Lex (· < ·) (Prod.Lex (· < ·) (· < ·)) (rubyRank content t) (rubyRank content s)
  le : s.cursor ≤ t.cursor
  grounded : Grounded s.frames → Grounded t.frames

variable {U : Unicode} {content : Text} {s t : RubyState} {frame later : RubyCodeFrame} {rest : List RubyFrame}

theorem Grounded.tail {top next : RubyFrame} (h : Grounded (top :: next :: rest)) : Grounded (next :: rest) := by
  obtain ⟨bottom, hlast, hstop⟩ := h
  exact ⟨bottom, hlast, hstop⟩

theorem Grounded.cons (h : Grounded rest) (top : RubyFrame) : Grounded (top :: rest) := by
  obtain ⟨bottom, hlast, hstop⟩ := h
  refine ⟨bottom, ?_, hstop⟩
  rw [List.getLast?_cons, hlast]
  rfl

/-- The frame may change as long as it ends with the same. -/
theorem Grounded.replace (h : Grounded (.code frame :: rest)) (hstop : later.stop = frame.stop) :
    Grounded (.code later :: rest) := by
  obtain ⟨bottom, hlast, hend⟩ := h
  cases rest with
  | nil =>
    cases hlast
    exact ⟨later, rfl, hstop.trans hend⟩
  | cons next outer => exact ⟨bottom, hlast, hend⟩

/-- A literal is never at the bottom, and neither is a frame that ends with a bracket or a body. -/
theorem Grounded.ne_nil {top : RubyFrame} (h : Grounded (top :: rest))
    (htop : ∀ frame, top = .code frame → frame.stop ≠ .expression) : rest ≠ [] := by
  rintro rfl
  obtain ⟨bottom, hlast, hstop⟩ := h
  exact htop bottom (Option.some.inj hlast) hstop

theorem RubyMoves.ahead (hi : s.cursor < content.length) (hlt : s.cursor < t.cursor)
    (hgrounded : Grounded s.frames → Grounded t.frames) : RubyMoves content s t :=
  ⟨.left _ _ (by omega), hlt.le, hgrounded⟩

theorem RubyMoves.code (hframes : s.frames = .code frame :: rest) (ht : t.frames = .code later :: rest)
    (hi : s.cursor < content.length) (hlt : s.cursor < t.cursor) (hstop : later.stop = frame.stop) :
    RubyMoves content s t :=
  .ahead hi hlt fun h => by
    rw [hframes] at h
    rw [ht]
    exact h.replace hstop

/-- The walk moves on into a frame over this one. -/
theorem RubyMoves.push {top : RubyFrame} (hframes : s.frames = .code frame :: rest)
    (ht : t.frames = top :: .code later :: rest) (hi : s.cursor < content.length) (hlt : s.cursor < t.cursor)
    (hstop : later.stop = frame.stop) : RubyMoves content s t :=
  .ahead hi hlt fun h => by
    rw [hframes] at h
    rw [ht]
    exact (h.replace hstop).cons top

/-- The walk stays and goes into a frame over this one, with a header fewer that waits. -/
theorem RubyMoves.stay {locals : Nat} {stop : FrameEnd} (hframes : s.frames = .code frame :: rest)
    (ht : t.frames = .code (rubyCodeFrame locals stop) :: .code later :: rest) (hcursor : t.cursor = s.cursor)
    (hstop : later.stop = frame.stop) (hwaiting : later.waiting < frame.waiting) : RubyMoves content s t := by
  refine ⟨?_, hcursor.ge, fun h => ?_⟩
  · rw [rubyRank, rubyRank, hcursor, ht, hframes]
    refine .right _ (.left _ _ ?_)
    have hnew : RubyFrame.waiting (.code (rubyCodeFrame locals stop)) = 0 := rfl
    rw [List.map_cons, List.map_cons, List.map_cons, List.sum_cons, List.sum_cons, List.sum_cons, hnew, Nat.zero_add]
    exact Nat.add_lt_add_right hwaiting _
  · rw [hframes] at h
    rw [ht]
    exact (h.replace hstop).cons _

/-- A frame that is read further ends with the same and waits for no more headers. -/
structure Later (frame later : RubyCodeFrame) : Prop where
  stop : later.stop = frame.stop
  waiting : later.waiting ≤ frame.waiting

theorem Later.refl (frame : RubyCodeFrame) : Later frame frame := ⟨rfl, Nat.le_refl _⟩

theorem Later.trans {last : RubyCodeFrame} (h : Later frame later) (h' : Later later last) : Later frame last :=
  ⟨h'.stop.trans h.stop, h'.waiting.trans h.waiting⟩

/-! ## Headers that are read -/

section

variable {scope : RubyBlockScope} {outer : List RubyBlockScope} {method : RubyMethod}

theorem waits_le_one (scope : RubyBlockScope) : scope.waits ≤ 1 := by
  rw [RubyBlockScope.waits]
  split <;> omega

theorem waits_eq_one (hmethod : scope.method = some method) (hheader : method.header ≠ .body) : scope.waits = 1 := by
  rw [RubyBlockScope.waits, hmethod, Option.any_some]
  exact if_pos (decide_eq_true hheader)

theorem waits_withHeader_body (scope : RubyBlockScope) : (scope.withHeader .body).waits = 0 := by
  obtain ⟨id, close, depth, locals, awaitingParameters, method, statement⟩ := scope
  cases method with
  | none => rfl
  | some method => rfl

theorem waiting_eq (hscopes : frame.scopes = scope :: outer) :
    frame.waiting = scope.waits + ((outer.map RubyBlockScope.waits).sum +
      if frame.lambda.any (! ·.headerRead) then 1 else 0) := by
  rw [RubyCodeFrame.waiting, hscopes, List.map_cons, List.sum_cons, Nat.add_assoc]

theorem scopes_withHeader (hscopes : frame.scopes = scope :: outer) (header : MethodHeader) :
    (frame.withHeader header).scopes = scope.withHeader header :: outer := by
  rw [RubyCodeFrame.withHeader, hscopes]
  rfl

theorem later_withHeader (hscopes : frame.scopes = scope :: outer) (hwaits : scope.waits = 1) (header : MethodHeader) :
    Later frame (frame.withHeader header) := by
  refine ⟨rfl, ?_⟩
  rw [waiting_eq hscopes, waiting_eq (scopes_withHeader hscopes header), hwaits]
  exact Nat.add_le_add_right (waits_le_one _) _

theorem waiting_withHeader_body (hscopes : frame.scopes = scope :: outer) (hwaits : scope.waits = 1) :
    (frame.withHeader .body).waiting < frame.waiting := by
  rw [waiting_eq hscopes, waiting_eq (scopes_withHeader hscopes .body), hwaits, waits_withHeader_body]
  exact Nat.add_lt_add_right Nat.zero_lt_one _

end

/-- What a part of the turn leaves: a state that moved on, or the frame read further. -/
def RubyReads (content : Text) (s : RubyState) (first : RubyCodeFrame) : RubyState ⊕ RubyCodeFrame → Prop
  | .inl t => RubyMoves content s t
  | .inr later => Later first later

section

variable {first : RubyCodeFrame} (hframes : s.frames = .code first :: rest) (hi : s.cursor < content.length)
  (h : Later first frame)

include hframes hi h

theorem rubyMethodName_reads {scope : RubyBlockScope} {outer : List RubyBlockScope} {method : RubyMethod}
    (hscopes : frame.scopes = scope :: outer) (hmethod : scope.method = some method) (hheader : method.header ≠ .body) :
    RubyReads content s first (rubyMethodName content s frame rest method) := by
  rw [rubyMethodName]
  split
  · exact .push hframes rfl hi (Nat.lt_succ_self _) h.stop
  split
  · exact .code hframes rfl hi (Nat.lt_succ_self _) h.stop
  split
  · next head hhead =>
    have hstart := (Regex.matchAt_bounds (Nat.zero_le _) hhead).1
    have hleast : RUBY_METHOD_NAME.least = 1 := by decide
    exact .code hframes rfl hi (by dsimp only; omega) h.stop
  · exact h.trans (later_withHeader hscopes (waits_eq_one hmethod hheader) _)

theorem rubyMethodSignature_reads {scope : RubyBlockScope} {outer : List RubyBlockScope} {method : RubyMethod}
    (hscopes : frame.scopes = scope :: outer) (hmethod : scope.method = some method) (hheader : method.header ≠ .body) :
    RubyReads content s first (rubyMethodSignature content s frame rest scope outer method) := by
  have hwaits := waits_eq_one hmethod hheader
  have hbody := h.trans (later_withHeader hscopes hwaits .body)
  rw [rubyMethodSignature]
  split
  · exact hbody
  split
  · exact h
  split
  · exact .push hframes rfl hi (Nat.lt_succ_self _) h.stop
  split
  · exact .code hframes rfl hi (Nat.lt_succ_self _) h.stop
  split
  · exact .stay hframes rfl rfl h.stop ((waiting_withHeader_body hscopes hwaits).trans_le h.waiting)
  · exact hbody

theorem rubyMethodHeader_reads : RubyReads content s first (rubyMethodHeader content s frame rest) := by
  rw [rubyMethodHeader]
  split
  · exact h
  · next scope outer hscopes =>
    split
    · exact h
    · next method hmethod =>
      split
      · exact h
      · next hheader =>
        split
        · exact h
        · exact rubyMethodName_reads hframes hi h hscopes hmethod (hheader ▸ MethodHeader.noConfusion)
      · next hheader =>
        split
        · exact h
        · exact rubyMethodName_reads hframes hi h hscopes hmethod (hheader ▸ MethodHeader.noConfusion)
      · next hheader =>
        exact rubyMethodSignature_reads hframes hi h hscopes hmethod (hheader ▸ MethodHeader.noConfusion)
      · next hheader =>
        exact rubyMethodSignature_reads hframes hi h hscopes hmethod (hheader ▸ MethodHeader.noConfusion)

theorem rubyBlockParameters_reads : RubyReads content s first (rubyBlockParameters content s frame rest) := by
  rw [rubyBlockParameters]
  split
  · exact h
  · next scope outer hscopes =>
    split
    · dsimp only
      split
      · split
        · exact .code hframes rfl hi (Nat.lt_add_of_pos_right (by decide)) h.stop
        · exact .push hframes rfl hi (Nat.lt_succ_self _) h.stop
      · refine h.trans ⟨rfl, le_of_eq ?_⟩
        rw [waiting_eq hscopes]
        exact @waiting_eq _ { scope with awaitingParameters := false } _ rfl
    · exact h

theorem rubyLambdaHeader_reads : RubyReads content s first (rubyLambdaHeader content s frame rest) := by
  rw [rubyLambdaHeader]
  split
  · exact h
  · next lambda hlambda =>
    split
    · next hread =>
      have hwaits : frame.lambda.any (! ·.headerRead) = true := by
        rw [hlambda]
        exact ((Bool.and_eq_true _ _).mp hread).1
      have hless : (RubyCodeFrame.waiting { frame with lambda := some { lambda with headerRead := true } }) <
          frame.waiting := by
        rw [RubyCodeFrame.waiting, RubyCodeFrame.waiting, hwaits, if_pos rfl]
        exact Nat.lt_succ_self _
      dsimp only
      split
      · exact .push hframes rfl hi (Nat.lt_succ_self _) h.stop
      split
      · exact .stay hframes rfl rfl h.stop (hless.trans_le h.waiting)
      · exact h.trans ⟨rfl, hless.le⟩
    · exact h

theorem rubyOperand_moves (ht : rubyOperand content s frame rest = some t) : RubyMoves content s t := by
  rw [rubyOperand] at ht
  split at ht
  · cases ht
    exact .code hframes rfl hi (Nat.lt_add_of_pos_right (by decide)) h.stop
  · obtain ⟨literal, hliteral, rfl⟩ := Option.map_eq_some_iff.mp ht
    have hbody : s.cursor < literal.body := by
      rcases Option.or_eq_some_iff.mp hliteral with hpercent | ⟨-, hplain⟩
      · split at hpercent
        · exact rubyPercentAt_body hpercent
        · cases hpercent
      · split at hplain
        · cases hplain
          exact Nat.lt_succ_self _
        · cases hplain
    exact .push hframes rfl hi hbody h.stop

end

/-! ## Tokens -/

theorem rubyKeyword_stop (word : Text) (step : RubyStep) (before : RubyBefore) :
    (rubyKeyword word step before).frame.stop = step.frame.stop := by
  rw [rubyKeyword]
  split
  · rw [rubyDo]
    split <;> rfl
  split
  · rfl
  split
  · rfl
  split
  · rfl
  split
  · rfl
  split
  · rfl
  split <;> rfl

theorem rubyStatement_stop (i : Nat) (word : Option Text) :
    (rubyStatement content frame i word).stop = frame.stop := by
  rw [rubyStatement]
  split
  · dsimp only
    split <;> rfl
  split
  · rfl
  split <;> rfl

theorem rubyBracket_stop (pending : Option RubyLambda) :
    (rubyBracket content s frame pending).frame.stop = frame.stop := by
  rw [rubyBracket]
  split <;> rfl

theorem RubyStep.word_stop (step : RubyStep) (first : RubyCodeFrame) (stop : Nat) (word : Option Text)
    (before : RubyBefore) : (step.word content first stop word before).frame.stop = step.frame.stop := by
  rw [RubyStep.word.eq_def]
  split
  · rfl
  · dsimp only
    split
    · exact rubyKeyword_stop _ _ _
    · rfl

/-- A token moves the walk on and leaves the frame on top of what it stands on. -/
theorem rubyToken_moves {first : RubyCodeFrame} (hframes : s.frames = .code first :: rest)
    (hi : s.cursor < content.length) (h : Later first frame) (controlModifier : Bool) :
    RubyMoves content s (rubyToken U content s frame rest controlModifier) := by
  refine .code hframes rfl hi (rubyCodeToken_lt hi) ?_
  rw [rubyStatement_stop, RubyStep.word_stop]
  exact (rubyBracket_stop _).trans h.stop

/-! ## Turns -/

theorem rubyCodeStep_moves {first : RubyCodeFrame} (hframes : s.frames = .code first :: rest)
    (hi : s.cursor < content.length) (h : Later first frame) (controlModifier : Bool) :
    RubyMoves content s (rubyCodeStep U content s frame rest controlModifier) := by
  have hmethod := rubyMethodHeader_reads hframes hi h
  rw [rubyCodeStep]
  split
  · next hnext =>
    rw [hnext] at hmethod
    exact hmethod
  · next signed hsigned =>
    rw [hsigned] at hmethod
    have hblock := rubyBlockParameters_reads hframes hi hmethod
    split
    · next hnext =>
      rw [hnext] at hblock
      exact hblock
    · next bound hbound =>
      rw [hbound] at hblock
      have hlambda := rubyLambdaHeader_reads hframes hi hblock
      split
      · next hnext =>
        rw [hnext] at hlambda
        exact hlambda
      · next last hlast =>
        rw [hlast] at hlambda
        cases hoperand : rubyOperand content s last rest with
        | none => exact rubyToken_moves hframes hi hlambda controlModifier
        | some t => exact rubyOperand_moves hframes hi hlambda hoperand

/-- What a turn returns is a place in the text, behind where the turn is. -/
def RubyStops (content : Text) (s : RubyState) (result : RubyResult) : Prop :=
  ∃ stop sets, result = some (stop, sets) ∧ s.cursor ≤ stop ∧ stop ≤ content.length

def RubyTurns (content : Text) (s : RubyState) : RubyState ⊕ RubyResult → Prop
  | .inl t => RubyMoves content s t
  | .inr result => Grounded s.frames → RubyStops content s result

/-- A frame fewer, and no header more. -/
theorem rank_of_pop (hi : s.cursor < content.length) (hcursor : s.cursor ≤ t.cursor)
    (hwaiting : (t.frames.map RubyFrame.waiting).sum ≤ (s.frames.map RubyFrame.waiting).sum)
    (hlength : t.frames.length < s.frames.length) :
    Prod.Lex (· < ·) (Prod.Lex (· < ·) (· < ·)) (rubyRank content t) (rubyRank content s) := by
  rw [rubyRank, rubyRank]
  rcases hcursor.eq_or_lt with heq | hlt
  · rw [← heq]
    refine .right _ ?_
    rcases hwaiting.eq_or_lt with hsame | hless
    · rw [hsame]
      exact .right _ hlength
    · exact .left _ _ hless
  · exact .left _ _ (by omega)

theorem rubyPop_turns {first : RubyCodeFrame} {cursor : Nat} (hframes : s.frames = .code first :: rest)
    (hi : s.cursor < content.length) (hstop : first.stop ≠ .expression) (hcursor : s.cursor ≤ cursor) :
    RubyTurns content s (rubyPop s frame rest cursor) := by
  have hbottom : Grounded s.frames → rest ≠ [] := by
    rw [hframes]
    exact fun h => h.ne_nil fun frame heq => by cases heq; exact hstop
  have hpop : ∀ t next outer, rest = next :: outer → ∀ later, later.waiting = next.waiting →
      t.cursor = cursor → t.frames = later :: outer → (Grounded (next :: outer) → Grounded (later :: outer)) →
      RubyMoves content s t := by
    intro t next outer hrest later hwaiting ht hlater hgrounded
    refine ⟨rank_of_pop hi (hcursor.trans_eq ht.symm) ?_ ?_, hcursor.trans_eq ht.symm, fun h => ?_⟩
    · rw [hframes, hlater, hrest, List.map_cons, List.map_cons, List.map_cons, List.sum_cons, List.sum_cons,
        List.sum_cons, hwaiting]
      exact Nat.le_add_left _ _
    · rw [hframes, hlater, hrest]
      exact Nat.lt_succ_self _
    · rw [hframes, hrest] at h
      rw [hlater]
      exact hgrounded h.tail
  rw [rubyPop.eq_def]
  split
  · exact fun h => absurd rfl (hbottom h)
  · exact hpop _ _ _ rfl _ rfl rfl rfl id
  · next parent outer =>
    refine hpop _ _ _ rfl _ ?_ rfl rfl fun h => h.replace ?_
    · split <;> rfl
    · split <;> rfl

theorem rubyLiteralTurn_turns {literal : RubyLiteralFrame} (hframes : s.frames = .literal literal :: rest)
    (hi : s.cursor < content.length) : RubyTurns content s (rubyLiteralTurn content s literal rest) := by
  have hrest : Grounded s.frames → Grounded rest := by
    intro h
    rw [hframes] at h
    cases rest with
    | nil => exact absurd rfl (h.ne_nil fun frame heq => by cases heq)
    | cons next outer => exact h.tail
  have hstay : ∀ cursor literal, s.cursor < cursor →
      RubyMoves content s { s with frames := .literal literal :: rest, cursor } :=
    fun cursor literal hlt => .ahead hi hlt fun h => (hrest h).cons _
  rw [rubyLiteralTurn]
  split
  · refine RubyMoves.ahead hi ?_ id
    dsimp only
    omega
  split
  · exact .ahead hi (Nat.lt_add_of_pos_right (by decide)) fun h => h.cons _
  dsimp only
  split
  · exact hstay _ _ (Nat.lt_succ_self _)
  split
  · split
    · have hcursor : ∀ options : Bool, s.cursor <
          if options = true then pass content (oneOf "imoxnesu") (s.cursor + 1) else s.cursor + 1 := by
        intro options
        split
        · exact Nat.lt_of_succ_le (le_pass _ _ _)
        · exact Nat.lt_succ_self _
      have hend : ∀ options : Bool,
          (if options = true then pass content (oneOf "imoxnesu") (s.cursor + 1) else s.cursor + 1) ≤ content.length := by
        intro options
        split
        · exact pass_le _ _ hi
        · exact hi
      split
      · exact fun _ => ⟨_, _, rfl, (hcursor _).le, hend _⟩
      · exact .ahead hi (hcursor _) fun h => (hrest h).replace rfl
      · exact .ahead hi (hcursor _) hrest
    · exact hstay _ _ (Nat.lt_succ_self _)
  · exact hstay _ _ (Nat.lt_succ_self _)

theorem closeStatements_later (i : Nat) (word : Option Text) : Later frame (closeStatements content frame i word) := by
  refine ⟨rfl, Nat.add_le_add_right ?_ _⟩
  exact ((List.dropWhile_suffix _).sublist.map _).sum_le_sum fun _ _ => Nat.zero_le _

theorem closesAt_expression (i : Nat) : FrameEnd.expression.closesAt content i = false := rfl

theorem rubyCodeTurn_turns {first : RubyCodeFrame} (hframes : s.frames = .code first :: rest)
    (hi : s.cursor < content.length) : RubyTurns content s (rubyCodeTurn U content s first rest) := by
  have hlater := @closeStatements_later content first s.cursor (rubyWordAt content s.cursor)
  rw [rubyCodeTurn]
  generalize closeStatements content first s.cursor (rubyWordAt content s.cursor) = frame at hlater ⊢
  dsimp only
  split
  · intro _
    refine ⟨_, _, rfl, Nat.le_add_right _ _, ?_⟩
    split
    · next hreturn => exact lt_length_of_isAt ((Bool.and_eq_true _ _).mp hreturn).2
    · exact hi
  split
  · next hbody =>
    refine rubyPop_turns hframes hi (fun hstop => ?_) (Nat.le_refl _)
    rw [rubyBodyEnds, hlater.stop, hstop] at hbody
    cases hbody
  split
  · next hcloses =>
    refine rubyPop_turns hframes hi (fun hstop => ?_) (Nat.le_succ _)
    rw [hlater.stop, hstop, closesAt_expression, Bool.and_false] at hcloses
    cases hcloses
  · refine rubyCodeStep_moves hframes hi (hlater.trans ?_) _
    split
    · exact ⟨rfl, Nat.le_refl _⟩
    · exact .refl frame

theorem rubyTurn_turns (hi : s.cursor < content.length) : RubyTurns content s (rubyTurn U content s) := by
  rw [rubyTurn.eq_def, if_pos hi]
  split
  · next hnil =>
    rintro ⟨bottom, hlast, -⟩
    rw [hnil] at hlast
    cases hlast
  · next literal rest hframes => exact rubyLiteralTurn_turns hframes hi
  · next frame rest hframes => exact rubyCodeTurn_turns hframes hi

theorem rubyTurn_moves (ht : rubyTurn U content s = .inl t) : RubyMoves content s t := by
  by_cases hi : s.cursor < content.length
  · have hturns := rubyTurn_turns (U := U) hi
    rw [ht] at hturns
    exact hturns
  · rw [rubyTurn.eq_def, if_neg hi] at ht
    cases ht

/-- Behind the end of the text the walk stops at its end. -/
theorem rubyTurn_stops {result : RubyResult} {start : Nat} (hstart : start ≤ content.length) (hle : start ≤ s.cursor)
    (hgrounded : Grounded s.frames) (hresult : rubyTurn U content s = .inr result) :
    ∃ stop sets, result = some (stop, sets) ∧ start ≤ stop ∧ stop ≤ content.length := by
  by_cases hi : s.cursor < content.length
  · have hturns := rubyTurn_turns (U := U) hi
    rw [hresult] at hturns
    obtain ⟨stop, sets, heq, hbehind, hend⟩ := hturns hgrounded
    exact ⟨stop, sets, heq, hle.trans hbehind, hend⟩
  · rw [rubyTurn.eq_def, if_neg hi] at hresult
    cases hresult
    exact ⟨content.length, s.sets, rfl, hstart, Nat.le_refl _⟩

/-! ## The whole run -/

/-- Every turn that goes on lowers the rank. -/
theorem falls_rubyTurn (U : Unicode) (content : Text) : Falls (rubyTurn U content) (rubyRank content) := by
  intro s t ht
  exact (rubyTurn_moves ht).rank

/-- The walk starts with the expression's own frame; the caller's names are the first set. -/
def rubyStart (start : Nat) (locals : List Text) (parameters : Bool) : RubyState :=
  { cursor := start, frames := [.code (rubyCodeFrame 0 .expression parameters)], sets := [locals] }

/-- `rubyExpressionEnd`: the offset, and the names in the caller's set; `none` is a `TypeError`. -/
def rubyExpressionEnd (U : Unicode) (content : Text) (start : Nat) (locals : List Text) (parameters : Bool := false) :
    Option (Nat × List Text) :=
  (run (rubyTurn U content) (rubyRank content) (falls_rubyTurn U content) (rubyStart start locals parameters)).map
    fun result => (result.1, result.2.at 0)

theorem grounded_rubyStart (start : Nat) (locals : List Text) (parameters : Bool) :
    Grounded (rubyStart start locals parameters).frames := ⟨_, rfl, rfl⟩

theorem rubyRun_stops (U : Unicode) (content : Text) (start : Nat) (locals : List Text) (parameters : Bool) :
    ∃ stop sets, Returns (rubyTurn U content) (rubyStart start locals parameters) (some (stop, sets)) ∧
      rubyExpressionEnd U content start locals parameters = some (stop, sets.at 0) ∧
      min start content.length ≤ stop ∧ stop ≤ content.length := by
  have hreturns := returns_run (falls_rubyTurn U content) (rubyStart start locals parameters)
  obtain ⟨stop, sets, hresult, hle, hend⟩ := hreturns.invariant
    (P := fun s => Grounded s.frames ∧ min start content.length ≤ s.cursor)
    (Q := fun result => ∃ stop sets, result = some (stop, sets) ∧ min start content.length ≤ stop ∧ stop ≤ content.length)
    (fun s t hP ht => ⟨(rubyTurn_moves ht).grounded hP.1, hP.2.trans (rubyTurn_moves ht).le⟩)
    (fun s result hP hresult => rubyTurn_stops (Nat.min_le_right _ _) hP.2 hP.1 hresult)
    ⟨grounded_rubyStart start locals parameters, Nat.min_le_left _ _⟩
  refine ⟨stop, sets, hresult ▸ hreturns, ?_, hle, hend⟩
  rw [rubyExpressionEnd, hresult]
  rfl

/-- **The scanner comes to an end from every start in the text, with an offset from the start to the end of the
text.** -/
theorem rubyExpressionEnd_bounds (U : Unicode) (content : Text) (start : Nat) (locals : List Text) (parameters : Bool)
    (hstart : start ≤ content.length) :
    ∃ stop sets, Returns (rubyTurn U content) (rubyStart start locals parameters) (some (stop, sets)) ∧
      rubyExpressionEnd U content start locals parameters = some (stop, sets.at 0) ∧
      start ≤ stop ∧ stop ≤ content.length := by
  obtain ⟨stop, sets, hreturns, hresult, hle, hend⟩ := rubyRun_stops U content start locals parameters
  rw [Nat.min_eq_left hstart] at hle
  exact ⟨stop, sets, hreturns, hresult, hle, hend⟩

theorem rubyExpressionEnd_bounds_open_literal :
    ∃ stop sets, Returns (rubyTurn ⟨fun _ => false, fun _ => false, fun _ => false⟩ (units "x = %w[a"))
        (rubyStart 3 [] false) (some (stop, sets)) ∧
      rubyExpressionEnd ⟨fun _ => false, fun _ => false, fun _ => false⟩ (units "x = %w[a") 3 [] false =
        some (stop, sets.at 0) ∧ 3 ≤ stop ∧ stop ≤ (units "x = %w[a").length :=
  rubyExpressionEnd_bounds _ (units "x = %w[a") 3 [] false (by decide)

end Haive.Rag

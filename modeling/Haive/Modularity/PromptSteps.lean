import Haive.Lib.Insertions
import Haive.Lib.Surrogates

/-!
# Prompt steps

The templates of `shared/src/modularity/prompt-steps.ts`, over UTF-16 code units: how a template is
read, checked and rendered. A template is the list of its units and tokens in order; the positions of
the source are the lengths of what stands before. The checks of the integrations and of the tools add
problems of their own and are a parameter.
-/

namespace Haive.Modularity

open Lib.Units

abbrev Text := List UInt16

abbrev lineFeed : UInt16 := 10
abbrev blank : UInt16 := 0x20

def RESERVED_MARKER_OPEN : Text := units "[[HAIVE_"
def PREAMBLE_OPEN : Text := units "<haive_"

/-! ## Tokens -/

/-- `PromptTokenBody`. -/
inductive TokenBody
  | field (id : Text)
  | agent (id : Text)
  | step (id : Text)
  | integration (id : Text)
  | taskTitle
  | taskDescription

def classifyToken (body : Text) : Option TokenBody :=
  if body = units "task.title" then some .taskTitle
  else if body = units "task.description" then some .taskDescription
  else
    let head := body.takeWhile (· ≠ 0x3a)
    let id := body.drop (head.length + 1)
    if head = body then none
    else if head = units "field" ∧ id ≠ [] then some (.field id)
    else if head = units "agent" then some (.agent id)
    else if head = units "step" then some (.step id)
    else if head = units "integration" then some (.integration id)
    else none

/-- What stands in a template: a unit that belongs to no token, or a token. -/
inductive Piece
  | unit (u : UInt16)
  /-- `ownLine`: the token is the only thing on its line. -/
  | token (raw : Text) (body : Option TokenBody) (ownLine : Bool)

def Piece.raw : Piece → Text
  | .unit u => [u]
  | .token raw _ _ => raw

def opening : Text := [0x7b, 0x7b]
def closing : Text := [0x7d, 0x7d]

/-- The body of the token that the text starts with: `/\{\{([^{}\n]*)\}\}/`. -/
def tokenAt (t : Text) : Option Text :=
  if opening <+: t then
    let body := (t.drop 2).takeWhile fun u => u ≠ 0x7b && u ≠ 0x7d && u ≠ lineFeed
    if closing <+: t.drop (2 + body.length) then some body else none
  else none

def endsLine (t : Text) : Bool := t = [] || t.head? = some lineFeed || [13, lineFeed] <+: t

/-- Reads the template from left to right, passing over `skip` units of a token first; `atStart`: the
unit before is a line feed, or there is none. -/
def scanFrom : Nat → Bool → Text → List Piece
  | _, _, [] => []
  | skip + 1, _, u :: rest => scanFrom skip (u = lineFeed) rest
  | 0, atStart, u :: rest =>
    match tokenAt (u :: rest) with
    | some body =>
      let raw := opening ++ body ++ closing
      .token raw (classifyToken body) (atStart && endsLine ((u :: rest).drop raw.length)) ::
        scanFrom (raw.length - 1) (u = lineFeed) rest
    | none => .unit u :: scanFrom 0 (u = lineFeed) rest

def scanTemplate (template : Text) : List Piece := scanFrom 0 true template

/-- `template.replace(TOKEN_PATTERN, '')`. -/
def staticText (pieces : List Piece) : Text :=
  pieces.flatMap fun piece => match piece with
    | .unit u => [u]
    | .token _ _ _ => []

/-! ## Rendering -/

/-- `/^[a-z0-9-]+$/`. -/
def isPersonaId (id : Text) : Bool :=
  id ≠ [] && id.all fun u => (0x61 ≤ u && u ≤ 0x7a) || (0x30 ≤ u && u ≤ 0x39) || u = 0x2d

structure PromptTemplateValues where
  fields : List (Text × Text)
  taskTitle : Text
  taskDescription : Text
  steps : List (Text × Text)
  integrations : List (Text × Text)

inductive RenderErrorKind
  | stepTokenNotOwnLine
  | personaIdInvalid

/-- `PromptTemplateRenderError`. -/
structure RenderError where
  kind : RenderErrorKind
  token : Text

def own (values : List (Text × Text)) (key : Text) : Text := (values.lookup key).getD []

def ACCOUNT_SUFFIX : Text := units ".account"

def accountRequirementId (body : Text) : Option Text :=
  if ACCOUNT_SUFFIX <:+ body then
    let id := body.take (body.length - ACCOUNT_SUFFIX.length)
    if id ≠ [] ∧ 0x2e ∉ id then some id else none
  else none

def tokenValue (token : TokenBody) (values : PromptTemplateValues) : Option Text :=
  match token with
  | .field id => some (own values.fields id)
  | .taskTitle => some values.taskTitle
  | .taskDescription => some values.taskDescription
  | .step id => some (own values.steps id)
  | .integration id => (accountRequirementId id).map (own values.integrations)
  | .agent _ => none

/-- `LINE_WHITESPACE`: white space, the controls and both line separators. -/
def isLineWhitespace (u : UInt16) : Bool := isTrimmed u || u ≤ 0x1f || (0x7f ≤ u && u ≤ 0x9f) || u = 0x2028 || u = 0x2029

def collapseRuns : Bool → Text → Text
  | _, [] => []
  | inRun, u :: rest =>
    if isLineWhitespace u then if inRun then collapseRuns true rest else blank :: collapseRuns true rest
    else u :: collapseRuns false rest

def collapseToLine (s : Text) : Text := trim (collapseRuns false s)

/-- `[[HAIVE_TEMPLATE_PERSONA:<id>]]`. -/
def personaMarker (id : Text) : Text := units "[[HAIVE_TEMPLATE_PERSONA:" ++ (id ++ units "]]")

def keepsLines (token : TokenBody) (ownLine : Bool) : Bool :=
  match token with
  | .step _ => true
  | .integration _ => false
  | _ => ownLine

/-- The text so far and the ranges of it that values are in. -/
structure Rendered where
  out : Text
  dynamic : List (Nat × Nat)

def renderPiece (values : PromptTemplateValues) (r : Rendered) : Piece → Except RenderError Rendered
  | .unit u => .ok { r with out := r.out ++ [u] }
  | .token raw none _ => .ok { r with out := r.out ++ raw }
  | .token raw (some token) ownLine =>
    match token with
    | .agent id =>
      if isPersonaId id then .ok { r with out := r.out ++ personaMarker id }
      else .error ⟨.personaIdInvalid, raw⟩
    | token =>
      match tokenValue token values with
      | none => .ok { r with out := r.out ++ raw }
      | some value =>
        let notAlone := match token with
          | .step _ => ! ownLine
          | _ => false
        if notAlone then .error ⟨.stepTokenNotOwnLine, raw⟩
        else
          let text := if keepsLines token ownLine then value else collapseToLine value
          .ok ⟨r.out ++ text, r.dynamic ++ [(r.out.length, r.out.length + text.length)]⟩

def renderPieces (values : PromptTemplateValues) (pieces : List Piece) : Except RenderError Rendered :=
  pieces.foldlM (renderPiece values) ⟨[], []⟩

/-! ## Neutralising -/

/-- A marker that a value has part in is cut behind its brackets. An occurrence of the opening does
not overlap another one, so that each is a match. -/
def markerCuts (text : Text) (dynamic : List (Nat × Nat)) : List Nat :=
  ((List.range text.length).filter fun index =>
    RESERVED_MARKER_OPEN <+: text.drop index &&
      dynamic.any fun range => index < range.2 && range.1 < index + RESERVED_MARKER_OPEN.length).map (· + 2)

/-- A block tag that the text opens with is cut behind its bracket. -/
def leadCut (text : Text) : List Nat :=
  let spaces := text.takeWhile isTrimmed
  if PREAMBLE_OPEN <+: text.drop spaces.length then [spaces.length + 1] else []

def cutsOf (text : Text) (dynamic : List (Nat × Nat)) : List Nat := markerCuts text dynamic ++ leadCut text

def neutralise (text : Text) (dynamic : List (Nat × Nat)) : Text := Lib.insertAt blank (cutsOf text dynamic) 0 text

def renderPromptTemplate (template : Text) (values : PromptTemplateValues) : Except RenderError Text :=
  (renderPieces values (scanTemplate template)).map fun r => neutralise r.out r.dynamic

/-! ## Checking -/

inductive ProblemKind
  | unknownToken
  | fieldNotDeclared
  | personaIdInvalid
  | personaWithoutRepository
  | integrationPropertyUnknown
  | integrationNotDeclared
  | stepTokenNotEarlier
  | stepTokenNotQuotable
  | stepTokenNotOwnLine
  | reservedMarkerInTemplate
  | templateTooLarge
  | timeoutOutOfRange
  | capabilityNotAllowed
  | stepIdTooLong
  | fileWriteWithoutRepository
  /-- A problem of an integration or of a tool. -/
  | other

structure PromptStepProblem where
  kind : ProblemKind
  message : Text
  raw : Text
  start : Nat

inductive FormField
  | plain (type id : Text)
  | accordion (items : List (List (Text × Text)))

def FormField.leaves : FormField → List (Text × Text)
  | .plain type id => [(type, id)]
  | .accordion items => items.flatten

def DISPLAY_ONLY_FIELD_TYPES : List Text := ["note", "global-kb-status"].map units

structure PromptStepEntry where
  template : Text
  fields : List FormField
  timeoutMs : Int
  capabilities : List Text
  slug : Option Text
  /-- The ids of the integrations that parse. -/
  requirementIds : List Text

structure ValidationContext where
  typeSlug : Text
  requiresRepository : Bool
  stepIdsBefore : List Text
  quotableStepIds : Option (List Text)

def PROMPT_STEP_TEMPLATE_MAX_BYTES : Nat := 16 * 1024
def PROMPT_STEP_TIMEOUT_MIN_MS : Int := 60000
def PROMPT_STEP_TIMEOUT_MAX_MS : Int := 30 * 60000
def STEP_ID_MAX_LENGTH : Nat := 128
def PROMPT_STEP_CAPABILITIES : List Text := ["tool_use", "file_write", "vision"].map units

/-- The length in UTF-8; a surrogate alone is written as three bytes. -/
def utf8Bytes : Text → Nat
  | [] => 0
  | [u] => if u < 0x80 then 1 else if u < 0x800 then 2 else 3
  | u :: v :: rest =>
    if isLeading u && isTrailing v then 4 + utf8Bytes rest
    else (if u < 0x80 then 1 else if u < 0x800 then 2 else 3) + utf8Bytes (v :: rest)

def declaredFields (entry : PromptStepEntry) : List Text :=
  ((entry.fields.flatMap FormField.leaves).filter fun f => ! DISPLAY_ONLY_FIELD_TYPES.contains f.1).map Prod.snd

def promptStepId (typeSlug stepSlug : Text) : Text := units "custom." ++ typeSlug ++ units "." ++ stepSlug

def tokenProblems (entry : PromptStepEntry) (ctx : ValidationContext) (start : Nat) : Piece → List PromptStepProblem
  | .unit _ => []
  | .token raw none _ => [⟨.unknownToken, raw ++ units " is not a template token.", raw, start⟩]
  | .token raw (some token) ownLine =>
    let add := fun kind (message : String) => PromptStepProblem.mk kind (raw ++ units message) raw start
    match token with
    | .field id =>
      if (declaredFields entry).contains id then []
      else [add .fieldNotDeclared " names a field the step's form does not declare."]
    | .agent id =>
      (if isPersonaId id then [] else [add .personaIdInvalid " is not a persona id."]) ++
        (if ctx.requiresRepository then []
          else [add .personaWithoutRepository " needs a repository to read the persona from."])
    | .integration id =>
      match accountRequirementId id with
      | none =>
        [add .integrationPropertyUnknown
          " must be written \x7b\x7bintegration:<id>.account\x7d\x7d; account is the only property an integration has."]
      | some requirementId =>
        if entry.requirementIds.contains requirementId then []
        else [add .integrationNotDeclared " names an integration the step does not declare."]
    | .step id =>
      (if ! ctx.stepIdsBefore.contains id then
          [add .stepTokenNotEarlier " is not a step that runs before this one."]
        else if ctx.quotableStepIds.any (! ·.contains id) then
          [PromptStepProblem.mk .stepTokenNotQuotable (raw ++ units " names " ++ id ++ units
            ", whose output can carry a person's words; a step can quote only a step whose output an agent wrote.")
            raw start]
        else []) ++
        (if ownLine then [] else [add .stepTokenNotOwnLine " must be alone on its line."])
    | .taskTitle | .taskDescription => []

def piecesProblems (entry : PromptStepEntry) (ctx : ValidationContext) : Nat → List Piece → List PromptStepProblem
  | _, [] => []
  | start, piece :: pieces =>
    tokenProblems entry ctx start piece ++ piecesProblems entry ctx (start + piece.raw.length) pieces

def carriesReserved (template : Text) : Bool :=
  RESERVED_MARKER_OPEN <:+: template || RESERVED_MARKER_OPEN <:+: staticText (scanTemplate template) ||
    PREAMBLE_OPEN <+: (staticText (scanTemplate template)).dropWhile isTrimmed

/-- `validatePromptStep`; `others` are the problems of the integrations and of the tools. The source
lists unknown tokens before the others. -/
def validatePromptStep (entry : PromptStepEntry) (ctx : ValidationContext) (others : List PromptStepProblem) :
    List PromptStepProblem :=
  let tokens := piecesProblems entry ctx 0 (scanTemplate entry.template)
  let isUnknown := fun (problem : PromptStepProblem) => match problem.kind with
    | .unknownToken => true
    | _ => false
  let add := fun kind (message : Text) => PromptStepProblem.mk kind message [] 0
  tokens.filter isUnknown ++ tokens.filter (! isUnknown ·) ++
    (if carriesReserved entry.template then
        [add .reservedMarkerInTemplate (units "The template may not carry [[HAIVE_ or open with <haive_.")] else []) ++
    (if PROMPT_STEP_TEMPLATE_MAX_BYTES < utf8Bytes entry.template then
        [add .templateTooLarge (units "The template is over 16384 bytes.")] else []) ++
    (if PROMPT_STEP_TIMEOUT_MIN_MS ≤ entry.timeoutMs ∧ entry.timeoutMs ≤ PROMPT_STEP_TIMEOUT_MAX_MS then []
      else [add .timeoutOutOfRange (units "The timeout must be between 60000 and 1800000 ms.")]) ++
    (entry.capabilities.flatMap fun capability =>
      if PROMPT_STEP_CAPABILITIES.contains capability then []
      else [add .capabilityNotAllowed
        (units "The capability " ++ capability ++ units " is not allowed on a prompt step.")]) ++
    (match entry.slug with
      | some slug =>
        if STEP_ID_MAX_LENGTH < (promptStepId ctx.typeSlug slug).length then
          [add .stepIdTooLong (units "The step id " ++ promptStepId ctx.typeSlug slug ++
            units " is longer than 128 characters; use a shorter slug.")]
        else []
      | none => []) ++
    (if ! ctx.requiresRepository && entry.capabilities.contains (units "file_write") then
        [add .fileWriteWithoutRepository
          (units "A prompt step can write files only in a task type that requires a repository.")] else []) ++
    others

end Haive.Modularity

import Haive.Lib.Json
import Haive.Lib.LineFeed

/-!
# Stream collector

`worker/src/queues/cli-exec/stream.ts`: the collector that exec-core feeds a CLI's stdout in chunks
and asks for the result, the usage and the rest when the CLI is done. Each line is a JSON event. The
getters that flush read the last line whether or not it ended, and a usage snapshot is such a getter,
taken on a timer while the CLI still writes. `getter_agrees_iff` says when a getter answers what the
events of the whole text come to.
-/

namespace Haive.Stream

open Lib.Units
open Lib (Json LineHandler LineFeed FeedOp)

abbrev Text := List UInt16

/-! ## Usage -/

structure CliTokenUsage where
  inputTokens : Float
  outputTokens : Float
  totalTokens : Float
  cacheReadTokens : Option Float
  cacheCreationTokens : Option Float
  costUsd : Option Float
  peakPromptTokens : Option Float
  contextWindow : Option Float

/-- `typeof v === 'number' && Number.isFinite(v) ? v : null`. -/
def num (v : Option Json) : Option Float := (v.bind Json.num?).filter (·.isFinite)

def positive (n : Float) : Option Float := if 0 < n then some n else none

def normalizeClaudeUsage (raw : Option Json) : Option CliTokenUsage :=
  match raw with
  | some (.obj _) | some (.arr _) =>
    let field := fun key => num (raw.bind (·.get (units key)))
    let input := field "input_tokens"
    let output := field "output_tokens"
    if input.isNone && output.isNone then none
    else
      let cacheRead := (field "cache_read_input_tokens").getD 0
      let cacheCreation := (field "cache_creation_input_tokens").getD 0
      some {
        inputTokens := input.getD 0
        outputTokens := output.getD 0
        totalTokens := input.getD 0 + output.getD 0 + cacheRead + cacheCreation
        cacheReadTokens := positive cacheRead
        cacheCreationTokens := positive cacheCreation
        costUsd := none
        peakPromptTokens := none
        contextWindow := none }
  | _ => none

def sumTokenUsage : Option CliTokenUsage → Option CliTokenUsage → Option CliTokenUsage
  | none, b => b
  | a, none => a
  | some a, some b =>
    let windows := [a.contextWindow, b.contextWindow].filterMap fun w => w.filter (0 < ·)
    some {
      inputTokens := a.inputTokens + b.inputTokens
      outputTokens := a.outputTokens + b.outputTokens
      totalTokens := a.totalTokens + b.totalTokens
      cacheReadTokens := positive (a.cacheReadTokens.getD 0 + b.cacheReadTokens.getD 0)
      cacheCreationTokens := positive (a.cacheCreationTokens.getD 0 + b.cacheCreationTokens.getD 0)
      costUsd := positive (a.costUsd.getD 0 + b.costUsd.getD 0)
      peakPromptTokens := positive (max (a.peakPromptTokens.getD 0) (b.peakPromptTokens.getD 0))
      contextWindow := windows.head?.map fun w => windows.tail.foldl min w }

/-! ## State -/

structure StreamRetryInfo where
  attempt : Float
  maxRetries : Option Float
  errorStatus : Option Float
  error : Option Text

structure CompactionEvent where
  trigger : Option Text
  preTokens : Option Float
  postTokens : Option Float
  cumulativeDroppedTokens : Option Float
  durationMs : Option Float

inductive Callback
  /-- `onProgress`, with what `describeToolUse` makes its line of. -/
  | progress (toolName : Text) (input : Option Json)
  | text (text : Text)
  | result
  | boundary
  | retry (info : StreamRetryInfo)
  | retryResolved

/-- `ToolUsageTally`, which the caller passes in: its state, what it makes of an event and a tool, and
its report. It `refuses` a tool where it throws at it, or where the making of the progress line does. -/
structure ToolUsageTally (τ ω : Type) where
  claudeInit : Json → τ → τ
  claudeToolUse : Text → Option Json → τ → τ
  refuses : Text → Option Json → Bool
  finalize : τ → ω

/-- The variables of `createStreamJsonCollector`, without the buffer. -/
structure Collected (τ : Type) where
  retryPending : Bool
  resultText : Option Text
  resultFired : Bool
  eventCount : Nat
  malformedLineCount : Nat
  assistantText : Text
  lastResultSubtype : Option Text
  lastResultError : Option Text
  lastResultStopReason : Option Text
  lastResultErrors : List Text
  resultIsError : Bool
  resultErrorText : Option Text
  resultTerminalReason : Option Text
  resultUsage : Option CliTokenUsage
  reportedWindow : Option Float
  resultApiDurationMs : Option Float
  /-- By message id; an event without one is its own message. -/
  assistantUsageByMessage : List (Option Text × CliTokenUsage)
  requestedModel : Option Text
  failedMcpServers : List Text
  compactions : List CompactionEvent
  servedModel : Option Text
  billedModels : List Text
  costUsd : Option Float
  lastRateLimit : Option Json
  toolUsage : τ
  callbacks : List Callback

def Collected.initial {τ : Type} (toolUsage : τ) : Collected τ where
  retryPending := false
  resultText := none
  resultFired := false
  eventCount := 0
  malformedLineCount := 0
  assistantText := []
  lastResultSubtype := none
  lastResultError := none
  lastResultStopReason := none
  lastResultErrors := []
  resultIsError := false
  resultErrorText := none
  resultTerminalReason := none
  resultUsage := none
  reportedWindow := none
  resultApiDurationMs := none
  assistantUsageByMessage := []
  requestedModel := none
  failedMcpServers := []
  compactions := []
  servedModel := none
  billedModels := []
  costUsd := none
  lastRateLimit := none
  toolUsage := toolUsage
  callbacks := []

variable {τ ω : Type}

/-! ## Events -/

def field (event : Json) (key : String) : Option Json := event.get (units key)

def textField (event : Json) (key : String) : Option Text := (field event key).bind Json.str?

/-- `typeof v === 'string' && v.trim()`, trimmed. -/
def filled (v : Option Text) : Option Text := (v.map trim).filter (· ≠ [])

/-- `s.add(t)`, which keeps the place of what is there. -/
def addTo (s : List Text) (t : Text) : List Text := if t ∈ s then s else s ++ [t]

/-- `/^<.*>$/` on the trimmed value; the dot takes no line end. -/
def isPlaceholderModel (value : Text) : Bool :=
  let value := trim value
  2 ≤ value.length && value.head? = some 0x3c && value.getLast? = some 0x3e &&
    value.all fun u => u ≠ 10 && u ≠ 13 && u ≠ 0x2028 && u ≠ 0x2029

/-- `e.replace(/\s+/g, ' ')`. -/
def collapseSpace : Text → Text
  | [] => []
  | [u] => if isTrimmed u then [0x20] else [u]
  | u :: v :: rest =>
    if isTrimmed u then (if isTrimmed v then collapseSpace (v :: rest) else 0x20 :: collapseSpace (v :: rest))
    else u :: collapseSpace (v :: rest)

def noteRetry (event : Json) (type : Text) (c : Collected τ) : Collected τ :=
  if type = units "system" && textField event "subtype" = some (units "api_retry") then
    { c with
      retryPending := true
      callbacks := c.callbacks ++ [.retry {
        attempt := ((field event "attempt").bind Json.num?).getD 1
        maxRetries := (field event "max_retries").bind Json.num?
        errorStatus := (field event "error_status").bind Json.num?
        error := textField event "error" }] }
  else if c.retryPending then { c with retryPending := false, callbacks := c.callbacks ++ [.retryResolved] }
  else c

def noteRateLimit (event : Json) (type : Text) (c : Collected τ) : Collected τ :=
  if type = units "rate_limit_event" then
    match (field event "rate_limit_info").filter (·.truthy) with
    | some info => { c with lastRateLimit := some info }
    | none => c
  else c

def failedServers (event : Json) (servers : List Text) : List Text :=
  (((field event "mcp_servers").bind Json.arr?).getD []).foldl
    (fun servers server =>
      if textField server "status" = some (units "failed") then
        match filled (textField server "name") with
        | some name => addTo servers name
        | none => servers
      else servers)
    servers

def noteInit (tally : ToolUsageTally τ ω) (event : Json) (type : Text) (c : Collected τ) : Collected τ :=
  if type = units "system" && textField event "subtype" = some (units "init") && c.requestedModel.isNone then
    { c with
      toolUsage := tally.claudeInit event c.toolUsage
      requestedModel := filled (textField event "model")
      failedMcpServers := failedServers event c.failedMcpServers }
  else c

def noteCompaction (event : Json) (type : Text) (c : Collected τ) : Collected τ :=
  if type = units "system" && textField event "subtype" = some (units "compact_boundary") then
    let metadata := fun key => (field event "compact_metadata").bind (field · key)
    { c with
      compactions := c.compactions ++ [{
        trigger := ((metadata "trigger").bind Json.str?).filter (· ≠ [])
        preTokens := num (metadata "pre_tokens")
        postTokens := num (metadata "post_tokens")
        cumulativeDroppedTokens := num (metadata "cumulative_dropped_tokens")
        durationMs := num (metadata "duration_ms") }] }
  else c

/-- The models that a result bills and the window that the entry of one of ours reports. -/
def noteModelUsage (modelUsage : Json) (c : Collected τ) : Collected τ :=
  let named := modelUsage.keys.filterMap fun key => if isPlaceholderModel key then none else filled (some key)
  let window := ([c.requestedModel, c.servedModel].filterMap id).findSome? fun key =>
    (num ((modelUsage.get key).bind (field · "contextWindow"))).bind positive
  { c with billedModels := named.foldl addTo c.billedModels, reportedWindow := window <|> c.reportedWindow }

/-- A `result` event; `true` where the handler returns. -/
def noteResult (event : Json) (type : Text) (c : Collected τ) : Collected τ × Bool :=
  if type = units "result" then
    let subtype := textField event "subtype"
    let c := if c.resultFired then c else { c with resultFired := true, callbacks := c.callbacks ++ [.result] }
    let c := { c with
      lastResultSubtype := subtype <|> c.lastResultSubtype
      resultUsage := normalizeClaudeUsage (field event "usage") <|> c.resultUsage
      resultApiDurationMs := num (field event "duration_api_ms") <|> c.resultApiDurationMs
      costUsd := num (field event "total_cost_usd") <|> c.costUsd }
    let c :=
      match field event "modelUsage" with
      | some (.obj fields) => noteModelUsage (.obj fields) c
      | some (.arr elems) => noteModelUsage (.arr elems) c
      | _ => c
    let resultIsError := c.resultIsError ||
      match field event "is_error" with
      | some (.bool true) => true
      | _ => false
    let c := { c with
      lastResultError := filled (textField event "error") <|> c.lastResultError
      lastResultStopReason := textField event "stop_reason" <|> c.lastResultStopReason
      lastResultErrors :=
        match (field event "errors").bind Json.arr? with
        | some errors => ((errors.filterMap Json.str?).map fun e => trim (collapseSpace e)).filter (· ≠ [])
        | none => c.lastResultErrors
      resultIsError := resultIsError
      resultTerminalReason := filled (textField event "terminal_reason") <|> c.resultTerminalReason
      resultErrorText :=
        if resultIsError then filled (textField event "result") <|> c.resultErrorText else c.resultErrorText }
    match textField event "result" with
    | some text =>
      if subtype = some (units "success") && !resultIsError then ({ c with resultText := some text }, true)
      else (c, false)
    | none => (c, false)
  else (c, false)

/-- `map.set(id, usage)`. -/
def setUsage (usages : List (Option Text × CliTokenUsage)) (id : Option Text) (usage : CliTokenUsage) :
    List (Option Text × CliTokenUsage) :=
  if id.isSome && usages.any (·.1 = id) then usages.map fun entry => if entry.1 = id then (id, usage) else entry
  else usages ++ [(id, usage)]

def ofBlock (b : Json) (type key : String) : Option Text :=
  if textField b "type" = some (units type) then textField b key else none

/-- The loop over the blocks of a message; `true` where it throws, at a block that is `null` or at a
tool that the tally refuses. -/
def noteContent (tally : ToolUsageTally τ ω) : List Json → Collected τ → Collected τ × Bool
  | [], c => (c, false)
  | .null :: _, c => (c, true)
  | b :: blocks, c =>
    match ofBlock b "text" "text" with
    | some text =>
      noteContent tally blocks
        { c with assistantText := c.assistantText ++ text, callbacks := c.callbacks ++ [.text text] }
    | none =>
      match ofBlock b "tool_use" "name" with
      | some toolName =>
        let input := field b "input"
        let toolUsage := tally.claudeToolUse toolName input c.toolUsage
        if tally.refuses toolName input then ({ c with toolUsage := toolUsage }, true)
        else
          noteContent tally blocks
            { c with toolUsage := toolUsage, callbacks := c.callbacks ++ [.progress toolName input] }
      | none => noteContent tally blocks c

def noteAssistant (tally : ToolUsageTally τ ω) (event : Json) (type : Text) (c : Collected τ) : Collected τ × Bool :=
  if type = units "assistant" then
    let message := fun key => (field event "message").bind (field · key)
    let usage :=
      match message "usage" with
      | none | some .null => normalizeClaudeUsage (field event "usage")
      | usage => normalizeClaudeUsage usage
    let c := { c with
      servedModel :=
        (filled ((message "model").bind Json.str?)).filter (fun model => !isPlaceholderModel model) <|> c.servedModel
      assistantUsageByMessage :=
        match usage with
        | some usage => setUsage c.assistantUsageByMessage (((message "id").bind Json.str?).filter (· ≠ [])) usage
        | none => c.assistantUsageByMessage }
    noteContent tally (((message "content").bind Json.arr?).getD []) c
  else (c, false)

def noteUser (event : Json) (type : Text) (c : Collected τ) : Collected τ :=
  let content := (((field event "message").bind (field · "content")).bind Json.arr?).getD []
  if type = units "user" && content.any fun b => textField b "type" = some (units "tool_result") then
    { c with callbacks := c.callbacks ++ [.boundary] }
  else c

/-- `processLine` from the read of `event.type` on. -/
def processEvent (tally : ToolUsageTally τ ω) (event : Json) (c : Collected τ) : Collected τ × Bool :=
  match textField event "type" with
  | none => (c, false)
  | some type =>
    let c := { c with eventCount := c.eventCount + 1 }
    let c := noteCompaction event type (noteInit tally event type (noteRateLimit event type (noteRetry event type c)))
    let (c, done) := noteResult event type c
    if done then (c, false)
    else
      let (c, threw) := noteAssistant tally event type c
      if threw then (c, true) else (noteUser event type c, false)

/-- `processLine` behind its first two lines: `line` is trimmed and not blank. `true` where it
throws, which reading a property of `null` does. -/
def processLine (tally : ToolUsageTally τ ω) (line : Text) (c : Collected τ) : Collected τ × Bool :=
  match Json.parse line with
  | none => ({ c with malformedLineCount := c.malformedLineCount + 1 }, false)
  | some .null => (c, true)
  | some event => processEvent tally event c

/-! ## `failure-class.ts` -/

/-- A pattern without repetition, as the texts it takes, unit by unit. -/
abbrev Pattern := List (List (UInt16 → Bool))

def lowerCase (u : UInt16) : UInt16 := if 0x41 ≤ u && u ≤ 0x5a then u + 0x20 else u

/-- A literal under the flag `i`. -/
def word (s : String) : Pattern := [(units s).map fun u v => lowerCase v = lowerCase u]

def both (p q : Pattern) : Pattern := p.flatMap fun a => q.map (a ++ ·)

def maybe (p : Pattern) : Pattern := [] :: p

/-- `[_\s-]?`. -/
def gap : Pattern := maybe [[fun u => u = 0x5f || u = 0x2d || isTrimmed u]]

def startsWith (p : Pattern) (s : Text) : Bool :=
  p.any fun units => units.length ≤ s.length && (units.zip s).all fun (matching, u) => matching u

def test (p : Pattern) (s : Text) : Bool := s.tails.any (startsWith p)

/-- `\w`. -/
def isWord (u : UInt16) : Bool :=
  (0x30 ≤ u && u ≤ 0x39) || (0x41 ≤ u && u ≤ 0x5a) || (0x61 ≤ u && u ≤ 0x7a) || u = 0x5f

/-- `/\bmax_tokens\b/i`: `before` is the unit in front. -/
def testMaxTokens (before : Option UInt16) : Text → Bool
  | [] => false
  | u :: rest =>
    (!before.any isWord && startsWith (word "max_tokens") (u :: rest) && !((u :: rest)[10]?).any isWord) ||
      testMaxTokens (some u) rest

def OUTPUT_TRUNCATION_RE (s : Text) : Bool :=
  testMaxTokens none s || test (word "max_output_tokens") s ||
    test (both (word "output") (both gap (both (word "token") (both gap (word "limit"))))) s

def CONTEXT_OVERFLOW_RE (s : Text) : Bool :=
  test (word "prompt is too long") s ||
    test (both (word "context") (both gap (both (word "length") (both gap (word "exceeded"))))) s ||
    test (word "model_context_window_exceeded") s ||
    test (both (word "exceed") (both (maybe (word "s" ++ word "ed")) (both (word " the ")
      (both (maybe (both (word "model") (both (maybe (word "'")) (word "s "))))
        (both (word "context ") (word "window" ++ word "length")))))) s

inductive CliFailureClass
  | outputTruncated
  | contextOverflow
  | generic
deriving DecidableEq

def classifyStreamFailure (subtype error : Option Text) : CliFailureClass :=
  let haystack := subtype.getD [] ++ units " " ++ error.getD []
  if CONTEXT_OVERFLOW_RE haystack then .contextOverflow
  else if OUTPUT_TRUNCATION_RE haystack then .outputTruncated
  else .generic

/-! ## Getters -/

inductive RateLimitReset
  /-- `resets …`, of the time in seconds. -/
  | resets (resetsAt : Json)
  | reason (overageDisabledReason : Json)
  /-- `no reset time reported`. -/
  | unreported

/-- What the sentence that `getNoResultReason` answers is made of. -/
inductive NoResultReason
  /-- `buildOutputTruncationMessage(source)`. -/
  | outputTruncated (source : Text)
  /-- `LLM stopped: the prompt exceeded the model's context window (source). …`. -/
  | contextOverflow (source : Text)
  /-- `LLM stream ended with result source`. -/
  | resultSubtype (source : Text)
  /-- `LLM blocked by rate limit (kind, resets)`. -/
  | rateLimit (kind : Option Json) (resets : RateLimitReset)
  /-- `LLM blocked by rate limit (reason)`, or `(overage rejected)`. -/
  | overage (reason : Option Json)
  /-- `LLM run reported a failure (terminal_reason "…"): detail`. -/
  | failure (terminalReason detail : Option Text)
  /-- `LLM emitted no result event (…)`. -/
  | noResult

/-- `v ?? undefined`. -/
def present (v : Option Json) : Option Json :=
  match v with
  | some .null => none
  | v => v

def noResultReason (c : Collected τ) : Option NoResultReason :=
  if c.resultText.isSome then none
  else if c.eventCount = 0 then none
  else
    match c.lastResultSubtype.filter fun subtype => subtype ≠ [] ∧ subtype ≠ units "success" with
    | some subtype =>
      let errorsDetail := (units "; ").intercalate c.lastResultErrors
      let detail :=
        match c.lastResultError.filter (· ≠ []) with
        | some error => units ": " ++ error
        | none => if errorsDetail ≠ [] then units ": " ++ errorsDetail else []
      let source := units "subtype \"" ++ subtype ++ units "\"" ++ detail
      let class' :=
        if c.lastResultStopReason = some (units "max_tokens") then .outputTruncated
        else classifyStreamFailure (some subtype) c.lastResultError
      match class' with
      | .outputTruncated => some (.outputTruncated source)
      | .contextOverflow => some (.contextOverflow source)
      | .generic => some (.resultSubtype source)
    | none =>
      let limit := fun key => c.lastRateLimit.bind (field · key)
      let isRejected := fun key => (limit key).bind Json.str? = some (units "rejected")
      if isRejected "status" then
        let resets :=
          match (limit "resetsAt").filter (·.truthy), present (limit "overageDisabledReason") with
          | some resetsAt, _ => .resets resetsAt
          | none, some reason => .reason reason
          | none, none => .unreported
        some (.rateLimit ((limit "rateLimitType").filter (·.truthy)) resets)
      else if isRejected "overageStatus" && (limit "isUsingOverage").any (·.truthy) then
        some (.overage (present (limit "overageDisabledReason")))
      else if c.resultIsError then some (.failure c.resultTerminalReason (c.resultErrorText <|> c.lastResultError))
      else some .noResult

structure StreamModelReport where
  requested : Option Text
  served : Option Text
  billed : List Text

def modelIdentity (c : Collected τ) : Option StreamModelReport :=
  if c.requestedModel.isNone && c.servedModel.isNone && c.billedModels = [] then none
  else some ⟨c.requestedModel, c.servedModel, c.billedModels⟩

def promptTokens (u : CliTokenUsage) : Float :=
  u.inputTokens + u.cacheReadTokens.getD 0 + u.cacheCreationTokens.getD 0

def tokenUsage (c : Collected τ) : Option CliTokenUsage :=
  let usages := c.assistantUsageByMessage.map Prod.snd
  let assistantUsage := usages.foldl (fun sum u => sumTokenUsage sum (some u)) none
  let peak := usages.foldl (fun peak u => max peak (promptTokens u)) 0
  let peak := if peak == 0 && usages.length = 1 then (c.resultUsage.map promptTokens).getD peak else peak
  (c.resultUsage <|> assistantUsage).map fun base => { base with
    costUsd := c.costUsd <|> base.costUsd
    peakPromptTokens := positive peak <|> base.peakPromptTokens
    contextWindow := c.reportedWindow <|> base.contextWindow }

inductive Getter
  | getResult
  | isStreamJson
  | getNoResultReason
  | hadResultError
  | getAssistantText
  | getMalformedLineCount
  | getFailedMcpServers
  | getCompactions
  | getToolUsage
  | getModelIdentity
  | getApiDurationMs
  | getTokenUsage
deriving DecidableEq

namespace Getter

/-- The getter reads what is left in the buffer first. -/
def flushes : Getter → Bool
  | getResult | getCompactions | getToolUsage | getModelIdentity | getApiDurationMs | getTokenUsage => true
  | _ => false

def Answer (ω : Type) : Getter → Type
  | getResult => Option Text
  | isStreamJson | hadResultError => Bool
  | getNoResultReason => Option NoResultReason
  | getAssistantText => Text
  | getMalformedLineCount => Nat
  | getFailedMcpServers => List Text
  | getCompactions => List CompactionEvent
  | getToolUsage => ω
  | getModelIdentity => Option StreamModelReport
  | getApiDurationMs => Option Float
  | getTokenUsage => Option CliTokenUsage

def read (tally : ToolUsageTally τ ω) (c : Collected τ) : (g : Getter) → g.Answer ω
  | getResult => c.resultText
  | isStreamJson => decide (0 < c.eventCount)
  | getNoResultReason => noResultReason c
  | hadResultError => c.resultIsError
  | getAssistantText => c.assistantText
  | getMalformedLineCount => c.malformedLineCount
  | getFailedMcpServers => c.failedMcpServers
  | getCompactions => c.compactions
  | getToolUsage => tally.finalize c.toolUsage
  | getModelIdentity => modelIdentity c
  | getApiDurationMs => c.resultApiDurationMs
  | getTokenUsage => tokenUsage c

end Getter

/-! ## The collector -/

/-- `onChunk` and what flushes, over lines that `processLine` gets. -/
def collector (tally : ToolUsageTally τ ω) : LineHandler UInt16 (Collected τ) where
  sep := 10
  white := isTrimmed
  step := processLine tally

/-- What is done with a collector. -/
inductive Op
  | onChunk (chunk : Text)
  | call (g : Getter)

def Op.feed : Op → FeedOp UInt16
  | .onChunk chunk => .chunk chunk
  | .call g => if g.flushes then .flush else .peek

/-- The text that the chunks are cut from. -/
def stdout (ops : List Op) : Text := FeedOp.fed (ops.map Op.feed)

/-- The collector after some calls, and whether one of them threw. -/
def exec (tally : ToolUsageTally τ ω) (toolUsage : τ) (ops : List Op) : LineFeed UInt16 (Collected τ) × Bool :=
  (collector tally).exec (ops.map Op.feed) ⟨[], .initial toolUsage, []⟩

def Getter.answer (tally : ToolUsageTally τ ω) (g : Getter) (f : LineFeed UInt16 (Collected τ)) :
    Option (g.Answer ω) :=
  let (f, threw) := (collector tally).apply (Op.call g).feed f
  if threw then none else some (g.read tally f.state)

/-- The events of a text, its last line included: the lines, trimmed, that are not blank. -/
def events (tally : ToolUsageTally τ ω) (text : Text) : List Text :=
  (collector tally).toHand ((collector tally).lines text)

/-- What `processLine` makes of the events of a text, each taken once and in order. -/
def collected (tally : ToolUsageTally τ ω) (toolUsage : τ) (text : Text) : Collected τ :=
  (collector tally).fold (events tally text) (.initial toolUsage)

/-- A getter that is called after `ops` answers what the text comes to, and the events have been
processed once each by then, with nothing thrown. -/
structure Agrees (tally : ToolUsageTally τ ω) (toolUsage : τ) (ops : List Op) (g : Getter) : Prop where
  quiet : (exec tally toolUsage (ops ++ [.call g])).2 = false
  once : (exec tally toolUsage (ops ++ [.call g])).1.handed = events tally (stdout ops)
  answer : g.answer tally (exec tally toolUsage ops).1 =
    some (g.read tally (collected tally toolUsage (stdout ops)))

def blockThrows (tally : ToolUsageTally τ ω) (b : Json) : Bool :=
  match b with
  | .null => true
  | b => (ofBlock b "tool_use" "name").any fun toolName => tally.refuses toolName (field b "input")

def messageThrows (tally : ToolUsageTally τ ω) (event : Json) : Bool :=
  textField event "type" = some (units "assistant") &&
    ((((field event "message").bind (field · "content")).bind Json.arr?).getD []).any (blockThrows tally)

/-- A line that `processLine` throws at: `null`, or such a message. -/
def throws (tally : ToolUsageTally τ ω) (line : Text) : Bool :=
  match Json.parse line with
  | none => false
  | some .null => true
  | some event => messageThrows tally event

/-- No getter that flushes is called inside a line: with something but white space in it before the
call and after it. -/
def Undisturbed (tally : ToolUsageTally τ ω) (ops : List Op) : Prop :=
  (collector tally).Undisturbed [] (ops.map Op.feed)

/-- What has come since the last line end or the last call of a getter that flushes. -/
def pending (tally : ToolUsageTally τ ω) (ops : List Op) : Text := (collector tally).pending [] (ops.map Op.feed)

theorem ofBlock_text {b : Json} (h : ofBlock b "text" "text" = some text) : ofBlock b "tool_use" "name" = none := by
  rw [ofBlock] at h ⊢
  split at h
  next htype =>
    rw [htype, if_neg (by decide)]
  next => cases h

theorem noteContent_throws (tally : ToolUsageTally τ ω) (blocks : List Json) (c : Collected τ) :
    (noteContent tally blocks c).2 = blocks.any (blockThrows tally) := by
  fun_induction noteContent tally blocks c with
  | case1 => rfl
  | case2 => rfl
  | case3 b blocks c hb text htext ih =>
    rw [ih, List.any_cons, blockThrows, ofBlock_text htext]
    · rfl
    · exact hb
  | case4 b blocks c hb htext toolName htool input toolUsage hrefuses =>
    rw [List.any_cons, blockThrows, htool]
    · rw [Option.any_some, hrefuses]
      rfl
    · exact hb
  | case5 b blocks c hb htext toolName htool input toolUsage hrefuses ih =>
    rw [ih, List.any_cons, blockThrows, htool]
    · rw [Option.any_some, Bool.eq_false_iff.mpr hrefuses, Bool.false_or]
    · exact hb
  | case6 b blocks c hb htext htool ih =>
    rw [ih, List.any_cons, blockThrows, htool]
    · rfl
    · exact hb

theorem noteResult_done {event : Json} {type : Text} {c : Collected τ} (h : (noteResult event type c).2 = true) :
    type = units "result" := by
  rw [noteResult] at h
  split at h
  · assumption
  · cases h

theorem noteAssistant_throws (tally : ToolUsageTally τ ω) {event : Json} {type : Text} (c : Collected τ)
    (htype : textField event "type" = some type) : (noteAssistant tally event type c).2 = messageThrows tally event := by
  rw [noteAssistant, messageThrows, htype]
  split
  next hassistant => rw [noteContent_throws, hassistant, decide_eq_true rfl, Bool.true_and]
  next hassistant => rw [decide_eq_false fun heq => hassistant (Option.some.inj heq), Bool.false_and]

theorem processEvent_throws (tally : ToolUsageTally τ ω) (event : Json) (c : Collected τ) :
    (processEvent tally event c).2 = messageThrows tally event := by
  rw [processEvent]
  split
  next htype => rw [messageThrows, htype]; rfl
  next type htype =>
    dsimp only
    generalize noteCompaction event type _ = c'
    have hdone := @noteResult_done _ event type c'
    have hthrows := noteAssistant_throws tally (noteResult event type c').1 htype
    split
    next hreturns =>
      rw [messageThrows, htype, hdone hreturns]
      rfl
    next =>
      rw [← hthrows]
      split
      next hthrew => exact hthrew.symm
      next hthrew => exact (Bool.eq_false_iff.mpr hthrew).symm

theorem processLine_throws (tally : ToolUsageTally τ ω) (line : Text) (c : Collected τ) :
    (processLine tally line c).2 = throws tally line := by
  rw [processLine, throws]
  split
  · rfl
  · rfl
  · exact processEvent_throws tally _ c

theorem feed_call (g : Getter) : FeedOp.fed [(Op.call g).feed] = [] := by
  rw [Op.feed]
  split <;> rfl

theorem pending_call (tally : ToolUsageTally τ ω) (ops : List Op) (g : Getter) :
    (collector tally).Blank ((collector tally).pending [] (ops.map Op.feed ++ [(Op.call g).feed])) ↔
      g.flushes = true ∨ ∀ u ∈ pending tally ops, isTrimmed u = true := by
  rw [LineHandler.pending_concat, Op.feed]
  split
  next hflushes =>
    refine iff_of_true ?_ (.inl hflushes)
    rw [LineHandler.pending, LineHandler.pending]
    split
    · assumption
    · intro u hu
      cases hu
  next hflushes => exact ⟨.inr, fun h => h.resolve_left hflushes⟩

/-- **A getter agrees with the text just when no line throws, no getter flushed inside a line and it
flushes itself or nothing is left to flush.** -/
theorem getter_agrees_iff (tally : ToolUsageTally τ ω) (toolUsage : τ) (ops : List Op) (g : Getter) :
    Agrees tally toolUsage ops g ↔
      (∀ line ∈ events tally (stdout ops), throws tally line = false) ∧ Undisturbed tally ops ∧
        (g.flushes = true ∨ ∀ u ∈ pending tally ops, isTrimmed u = true) := by
  have hcomplete := LineHandler.exec_complete_iff (h := collector tally) (processLine_throws tally)
    (ops.map Op.feed ++ [(Op.call g).feed]) (.initial toolUsage)
  rw [LineHandler.fed_concat (feed_call g), LineHandler.undisturbed_concat (feed_call g), pending_call] at hcomplete
  refine Iff.trans ⟨fun h => ?_, fun ⟨hquiet, honce⟩ => ?_⟩ hcomplete
  · have hquiet := h.quiet
    have honce := h.once
    rw [exec, List.map_append] at hquiet honce
    exact ⟨hquiet, honce⟩
  · have hstate := LineHandler.exec_state (h := collector tally) (s := Collected.initial toolUsage) rfl hquiet
    rw [honce] at hstate
    refine ⟨?_, ?_, ?_⟩
    · rw [exec, List.map_append]
      exact hquiet
    · rw [exec, List.map_append]
      exact honce
    · rw [LineHandler.exec_concat] at hquiet hstate
      rw [Getter.answer, exec]
      dsimp only
      rw [if_neg (Bool.eq_false_iff.mp (Bool.or_eq_false_iff.mp hquiet).2)]
      rw [show ((collector tally).apply (Op.call g).feed _).1.state = _ from hstate]
      rfl

/-! ## A usage snapshot inside the result -/

namespace Sample

/-- A tally that keeps nothing. -/
def noTally : ToolUsageTally Unit Unit := ⟨fun _ t => t, fun _ _ t => t, fun _ _ => false, id⟩

/-- A result that comes in two chunks, with the timer's snapshot between them. -/
def cutResult : List Op := [
  .onChunk (units "\x7b\"type\":\"result\",\"subtype\":\"success\",\"re"),
  .call .getTokenUsage,
  .onChunk (units "sult\":\"ok\"\x7d\n")]

end Sample

open Haive.Stream.Sample in
/-- The snapshot takes the result apart, and both parts count as malformed. -/
theorem snapshot_loses_result :
    Getter.getResult.answer noTally (exec noTally () cutResult).1 = some none ∧
      Getter.getMalformedLineCount.answer noTally (exec noTally () cutResult).1 = some (2 : Nat) ∧
      (collected noTally () (stdout cutResult)).resultText = some (units "ok") ∧
      (collected noTally () (stdout cutResult)).malformedLineCount = 0 := by
  refine ⟨rfl, rfl, rfl, rfl⟩

end Haive.Stream

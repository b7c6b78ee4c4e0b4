import Haive.Lib.JsonText
import Haive.Lib.WebAddress
import Haive.Modularity.PromptSteps

/-!
# Custom tools

The tools of `shared/src/modularity/custom-tools.ts`, over UTF-16 code units: how a tool is checked,
which arguments it takes and which address a call of it fetches. The URL parser, the Unicode
normalisation and the table of hidden characters are a parameter (`Platform`).
-/

namespace Haive.Modularity

open Lib.Units Lib.Web
open Lib.Json (quoted)

/-- What the language answers. -/
structure Platform where
  /-- `new URL(text)`. -/
  parse : Text → Option Address
  /-- `new URL(text, base)`. -/
  parseAt : Text → Text → Option Address
  /-- `text.normalize('NFKC')`. -/
  nfkc : Text → Text
  /-- `HIDDEN_CHARACTER.test(text)`. -/
  hidden : Text → Bool

/-- What the parser answers for `https` addresses, and that plain text is in normal form. -/
structure Platform.Standard (platform : Platform) (host : Text → Option Host) : Prop where
  parse_https : ∀ rest, platform.parse (units "https://" ++ rest) = readHttps host rest
  nfkc_plain : ∀ text, (∀ u ∈ text, u < 0x80) → platform.nfkc text = text

def CUSTOM_TOOL_PARAMS_MAX : Nat := 10
def CUSTOM_TOOL_NAME_MAX_LENGTH : Nat := 40
def CUSTOM_TOOL_RESERVED_NAMES : List Text := ["rag_search", "ddev_status", "ddev_logs", "ddev_restart"].map units
def CUSTOM_TOOL_DESCRIPTION_MAX_LENGTH : Nat := 1024
def CUSTOM_TOOL_PARAM_DESCRIPTION_MAX_LENGTH : Nat := 300
def CUSTOM_TOOL_URL_MAX_LENGTH : Nat := 2048
def CUSTOM_TOOL_TIMEOUT_MIN_MS : Int := 1000
def CUSTOM_TOOL_TIMEOUT_MAX_MS : Int := 30000
def CUSTOM_TOOL_RESPONSE_MIN_BYTES : Int := 1024
def CUSTOM_TOOL_RESPONSE_MAX_BYTES : Int := 65536
def RAG_QUERY_TOP_K_MIN : Int := 1
def RAG_QUERY_TOP_K_MAX : Int := 20
def CUSTOM_TOOL_STRING_MAX_LENGTH : Int := 512
def CUSTOM_TOOL_ENUM_MAX_VALUES : Nat := 20
def CUSTOM_TOOL_ENUM_VALUE_MAX_LENGTH : Nat := 64

/-! ## Tools -/

inductive ParamType
  | string (maxLength : ℚ)
  | integer (min max : Option ℚ)
  | boolean
  | enum (values : List Text)

structure CustomToolParam where
  name : Text
  description : Text
  required : Bool
  type : ParamType

structure HttpGetTool where
  name : Text
  description : Text
  maxResponseBytes : ℚ
  url : Text
  query : List Text
  params : List CustomToolParam
  timeoutMs : ℚ

structure RagQueryTool where
  name : Text
  description : Text
  maxResponseBytes : ℚ
  scope : Text
  topK : ℚ

inductive CustomTool
  | httpGet (tool : HttpGetTool)
  | ragQuery (tool : RagQueryTool)

inductive CustomToolProblemKind
  | toolNameInvalid
  | toolNameReserved
  | toolDescriptionInvalid
  | toolUrlInvalid
  | toolUrlNotHttps
  | toolUrlUserinfo
  | toolUrlFragment
  | toolHostIpLiteral
  | toolHostNotPublic
  | toolPlaceholderOutsidePath
  | toolParamUndeclared
  | toolParamUnused
  | toolParamReused
  | toolParamDuplicate
  | toolParamInvalid
  | toolTooManyParams
  | toolTimeoutOutOfRange
  | toolResponseCapOutOfRange
  | toolTopKOutOfRange
  | toolScopeNeedsRepository

structure CustomToolProblem where
  kind : CustomToolProblemKind
  tool : Text
  param : Option Text
  message : Text

/-! ## Texts -/

def isDigit (u : UInt16) : Bool := 0x30 ≤ u && u ≤ 0x39

def isLower (u : UInt16) : Bool := 0x61 ≤ u && u ≤ 0x7a

def isUpper (u : UInt16) : Bool := 0x41 ≤ u && u ≤ 0x5a

/-- C0, DEL and C1. -/
def hasControl (text : Text) : Bool := text.any fun u => u < 0x20 || (0x7f ≤ u && u ≤ 0x9f)

/-- `TOOL_NAME_PATTERN`. -/
def isToolName (name : Text) : Bool :=
  match name with
  | [] => false
  | u :: rest => isLower u && rest.length < CUSTOM_TOOL_NAME_MAX_LENGTH &&
    rest.all fun v => isLower v || isDigit v || v = 0x5f

/-- The decimal numeral of a natural number. -/
def decimal (n : Nat) : Text := (Nat.toDigits 10 n).map fun c => c.toNat.toUInt16

def inRange (value : ℚ) (min max : Int) : Bool := value.den = 1 && min ≤ value && value ≤ max

section Checks

variable (platform : Platform)

def isPlainText (value : Text) (max : Nat) : Bool :=
  1 ≤ value.length && value.length ≤ max && ! hasControl value && ! platform.hidden value && isWellFormed value

/-- A separator in the text, or a dot segment. -/
def refusedInPath (text : Text) : Bool :=
  (text.any isSlash) || [units ".", units ".."].contains (platform.nfkc text)

end Checks

/-! ## The URL of a tool -/

structure UrlParts where
  scheme : Text
  authority : Text
  path : Text
  query : Option Text
  fragment : Option Text

def isSchemeUnit (u : UInt16) : Bool := isLower u || isUpper u || isDigit u || [0x2b, 0x2d, 0x2e].contains u

/-- `URL_PARTS`. -/
def splitUrl (url : Text) : Option UrlParts :=
  let scheme := url.takeWhile isSchemeUnit
  let rest := url.dropWhile isSchemeUnit
  if scheme.head?.any (fun u => isLower u || isUpper u) && units "://" <+: rest then
    let tail := rest.drop 3
    let inAuthority := fun (u : UInt16) => u ≠ 0x2f && ! endsPath u
    let behind := tail.dropWhile inAuthority
    let after := behind.dropWhile (! endsPath ·)
    let query := match after with
      | 0x3f :: query => some (query.takeWhile (· ≠ 0x23))
      | _ => none
    let fragment := match after.dropWhile (· ≠ 0x23) with
      | _ :: fragment => some fragment
      | [] => none
    some ⟨scheme, tail.takeWhile inAuthority, behind.takeWhile (! endsPath ·), query, fragment⟩
  else none

/-- What stands in a part of the URL: a unit of its own, or a placeholder. -/
inductive PathPiece
  | unit (u : UInt16)
  | slot (name : Text)

namespace PathPiece

def raw : PathPiece → Text
  | unit u => [u]
  | slot name => 0x7b :: (name ++ [0x7d])

def name? : PathPiece → Option Text
  | unit _ => none
  | slot name => some name

def filled (value : Text → Text) : PathPiece → Text
  | unit u => [u]
  | slot name => value name

end PathPiece

/-- The name of the placeholder that the text starts with: `/\{([^{}]*)\}/`. -/
def slotAt : Text → Option Text
  | [] => none
  | u :: rest =>
    let name := rest.takeWhile fun v => v ≠ 0x7b && v ≠ 0x7d
    if u = 0x7b && (rest.drop name.length).head? = some 0x7d then some name else none

/-- Reads the text from left to right, passing over `skip` units of a placeholder first. -/
def scanSlots : Nat → Text → List PathPiece
  | _, [] => []
  | skip + 1, _ :: rest => scanSlots skip rest
  | 0, u :: rest =>
    match slotAt (u :: rest) with
    | some name => .slot name :: scanSlots (name.length + 1) rest
    | none => .unit u :: scanSlots 0 rest

def pieces (text : Text) : List PathPiece := scanSlots 0 text

def placeholdersIn (text : Text) : List Text := (pieces text).filterMap PathPiece.name?

def pathPlaceholders (url : Text) : List Text := ((splitUrl url).map fun parts => placeholdersIn parts.path).getD []

/-- A brace that belongs to no placeholder. -/
def hasLooseBrace (text : Text) : Bool :=
  (pieces text).any fun piece => match piece with
    | .unit u => u = 0x7b || u = 0x7d
    | .slot _ => false

/-- `IPV4`. -/
def isIpv4 (host : Text) : Bool :=
  let numbers := host.splitOn 0x2e
  numbers.length = 4 && numbers.all fun number => 1 ≤ number.length && number.length ≤ 3 && number.all isDigit

/-- `INTERNAL_SUFFIX`. -/
def INTERNAL_SUFFIXES : List Text := [".local", ".internal", ".localhost"].map units

section Url

variable (platform : Platform) (tool : Text)

def add (kind : CustomToolProblemKind) (message : Text) : CustomToolProblem := ⟨kind, tool, none, message⟩

def addParam (kind : CustomToolProblemKind) (param message : Text) : CustomToolProblem := ⟨kind, tool, some param, message⟩

def checkHost (authority : Text) : List CustomToolProblem :=
  let invalid := add tool .toolUrlInvalid (units "The URL host is not valid.")
  match platform.parse (units "https://" ++ (authority ++ units "/")) with
  | none => [invalid]
  | some url =>
    let host := url.hostname
    let bare := host.rdropWhile (· = 0x2e)
    let shown := units "The URL host " ++ host
    if bare.head? = some 0x5b || isIpv4 bare then
      [add tool .toolHostIpLiteral (shown ++ units " is an IP address; use a DNS name.")]
    else if ! bare.contains 0x2e || INTERNAL_SUFFIXES.any (· <:+ bare) then
      [add tool .toolHostNotPublic (shown ++ units
        " is not a public DNS name: not localhost, not a single-label name, and not a .local, .internal or .localhost name.")]
    else if ((if host.getLast? = some 0x2e then host.dropLast else host).splitOn 0x2e).contains [] then [invalid]
    else []

/-- The problems of the URL, and the names that it uses where it can be read. -/
def checkUrl (url : Text) : List CustomToolProblem × Option (List Text) :=
  if url = [] || CUSTOM_TOOL_URL_MAX_LENGTH < url.length || hasControl url ||
      url.any (fun u => isTrimmed u || u = 0x5c) then
    ([add tool .toolUrlInvalid (units
      "The URL must be one https:// address of at most 2048 characters, with no spaces, control characters or backslashes.")],
      none)
  else
    let notHttps := add tool .toolUrlNotHttps (units "The URL must start with https://.")
    match splitUrl url with
    | none => ([notHttps], none)
    | some parts =>
      let first := (if parts.scheme = units "https" then [] else [notHttps]) ++
        (if parts.authority.contains 0x40 then
          [add tool .toolUrlUserinfo (units "The URL must not carry a user name or password.")] else []) ++
        (if parts.fragment.isSome then
          [add tool .toolUrlFragment (units "The URL must not carry a # fragment.")] else [])
      let outside := [parts.authority, parts.query.getD [], parts.fragment.getD []]
      if (parts.path :: outside).any hasLooseBrace then
        (first ++ [add tool .toolUrlInvalid (units
          "Every brace in the URL must belong to a \x7bname\x7d placeholder.")], none)
      else
        (first ++
          (if outside.flatMap placeholdersIn = [] then [] else
            [add tool .toolPlaceholderOutsidePath (units
              "A \x7bplaceholder\x7d may only stand in the path of the URL.")]) ++
          (if parts.authority.contains 0x40 || parts.authority.any (fun u => u = 0x7b || u = 0x7d) then []
            else checkHost platform tool parts.authority),
          some (placeholdersIn parts.path ++ outside.flatMap placeholdersIn))

/-! ## Checking a tool -/

def paramProblem (param : CustomToolParam) (inPath : Bool) : Option Text :=
  if ! isToolName param.name then
    some (units ("its name must start with a lowercase letter and use only lowercase letters, digits and underscores, " ++
      "up to 40 characters"))
  else if ! isPlainText platform param.description CUSTOM_TOOL_PARAM_DESCRIPTION_MAX_LENGTH then
    some (units "its description must be 1 to 300 characters with no control or invisible characters")
  else match param.type with
    | .string maxLength =>
      if inRange maxLength 1 CUSTOM_TOOL_STRING_MAX_LENGTH then none
      else some (units "maxLength must be a whole number from 1 to 512")
    | .integer min max =>
      if min.any (fun min => min.den ≠ 1) || max.any (fun max => max.den ≠ 1) then
        some (units "min and max must be whole numbers")
      else if min.any (fun min => max.any fun max => max < min) then some (units "min must not be above max")
      else none
    | .boolean => none
    | .enum values =>
      if values.length < 1 || CUSTOM_TOOL_ENUM_MAX_VALUES < values.length then
        some (units "values must list 1 to 20 choices")
      else if ! values.all (fun value => isPlainText platform value CUSTOM_TOOL_ENUM_VALUE_MAX_LENGTH) then
        some (units "each value must be 1 to 64 characters with no control or invisible characters")
      else if inPath && values.any (refusedInPath platform) then
        some (units "a value used in the URL path must not be . or .., and must not contain / or \\")
      else if values.Nodup then none
      else some (units "values must not repeat")

/-- The names that an earlier one of the list has, in the order in which that shows. -/
def repeatedNames : List Text → List Text → List Text
  | _, [] => []
  | seen, name :: names => (if seen.contains name then [name] else []) ++ repeatedNames (name :: seen) names

def checkParams (params : List CustomToolParam) (inPath : List Text) : List CustomToolProblem :=
  (if CUSTOM_TOOL_PARAMS_MAX < params.length then
    [add tool .toolTooManyParams (units "A tool can have at most 10 parameters.")] else []) ++
  (params.flatMap fun param =>
    match paramProblem platform param (inPath.contains param.name) with
    | some problem => [addParam tool .toolParamInvalid param.name
        (units "The parameter " ++ quoted param.name ++ units " is not valid: " ++ problem ++ units ".")]
    | none => []) ++
  (repeatedNames [] (params.map CustomToolParam.name)).eraseDups.map fun name =>
    addParam tool .toolParamDuplicate name (units "Two parameters are named " ++ name ++ units ".")

def checkUsage (declared used : List Text) : List CustomToolProblem :=
  (used.eraseDups.flatMap fun name =>
    if declared.contains name then []
    else [addParam tool .toolParamUndeclared name
      (units "The URL or query list uses " ++ quoted name ++ units ", which is not a declared parameter.")]) ++
  declared.eraseDups.flatMap fun name =>
    let times := used.count name
    if times = 0 then
      [addParam tool .toolParamUnused name
        (units "The parameter " ++ name ++ units " is not used in the URL path or the query list.")]
    else if 1 < times then
      [addParam tool .toolParamReused name (units "The parameter " ++ name ++ units " is used " ++ decimal times ++
        units " times; use each parameter once, in the URL path or the query list.")]
    else []

end Url

def checkBase (platform : Platform) (name description : Text) : List CustomToolProblem :=
  (if ! isToolName name then
    [add name .toolNameInvalid (units "The tool name " ++ quoted name ++ units (" must start with a lowercase letter and " ++
      "use only lowercase letters, digits and underscores, up to 40 characters."))]
  else if CUSTOM_TOOL_RESERVED_NAMES.contains name then
    [add name .toolNameReserved (units "The tool name " ++ name ++ units
      " is kept for Haive's own tools (rag_search, ddev_status, ddev_logs, ddev_restart).")]
  else []) ++
  (if isPlainText platform description CUSTOM_TOOL_DESCRIPTION_MAX_LENGTH then [] else
    [add name .toolDescriptionInvalid (units
      "The tool description must be 1 to 1024 characters with no control or invisible characters.")])

def checkCap (name : Text) (maxResponseBytes : ℚ) : List CustomToolProblem :=
  if inRange maxResponseBytes CUSTOM_TOOL_RESPONSE_MIN_BYTES CUSTOM_TOOL_RESPONSE_MAX_BYTES then []
  else [add name .toolResponseCapOutOfRange (units "The response cap must be a whole number of bytes from 1024 to 65536.")]

def validateHttpGet (platform : Platform) (tool : HttpGetTool) : List CustomToolProblem :=
  let read := checkUrl platform tool.name tool.url
  read.1 ++ checkParams platform tool.name tool.params (pathPlaceholders tool.url) ++
    (match read.2 with
      | some used => checkUsage tool.name (tool.params.map CustomToolParam.name) (used ++ tool.query)
      | none => []) ++
    (if inRange tool.timeoutMs CUSTOM_TOOL_TIMEOUT_MIN_MS CUSTOM_TOOL_TIMEOUT_MAX_MS then []
      else [add tool.name .toolTimeoutOutOfRange (units
        "The timeout must be a whole number of milliseconds from 1000 to 30000.")])

def validateRagQuery (tool : RagQueryTool) (requiresRepository : Bool) : List CustomToolProblem :=
  (if tool.scope ≠ units "global" && ! requiresRepository then
    [add tool.name .toolScopeNeedsRepository (units "The " ++ tool.scope ++ units (" scope searches the project, which " ++
      "needs a repository; use the global scope on a task type with no repository."))]
  else []) ++
  (if inRange tool.topK RAG_QUERY_TOP_K_MIN RAG_QUERY_TOP_K_MAX then [] else
    [add tool.name .toolTopKOutOfRange (units "topK must be a whole number from 1 to 20.")])

def validateCustomTool (platform : Platform) (requiresRepository : Bool) : CustomTool → List CustomToolProblem
  | .httpGet tool => checkBase platform tool.name tool.description ++ validateHttpGet platform tool ++
    checkCap tool.name tool.maxResponseBytes
  | .ragQuery tool => checkBase platform tool.name tool.description ++ validateRagQuery tool requiresRepository ++
    checkCap tool.name tool.maxResponseBytes

/-! ## Arguments -/

inductive ArgValue
  | text (t : Text)
  /-- A whole number: no other one passes the schema. -/
  | number (n : Int)
  | flag (b : Bool)
  /-- The constructor that every record inherits. -/
  | inherited
deriving DecidableEq

abbrev CustomToolArgs := List (Text × ArgValue)

/-- `args[name]`; of the names that a record inherits only one is a tool name. -/
def property (args : CustomToolArgs) (name : Text) : Option ArgValue :=
  (args.lookup name).or (if name = units "constructor" then some .inherited else none)

/-- `String(value)`. -/
def ArgValue.string : ArgValue → Text
  | text t => t
  | number (.ofNat n) => decimal n
  | number (.negSucc n) => 0x2d :: decimal (n + 1)
  | flag b => if b then units "true" else units "false"
  | inherited => units "function Object() \x7b [native code] \x7d"

/-- The names that a call may not leave out. -/
def requiredNames (tool : HttpGetTool) : List Text :=
  (tool.params.filter fun p => p.required || (pathPlaceholders tool.url).contains p.name).map CustomToolParam.name

def MAX_SAFE_INTEGER : Nat := 9007199254740991

def argOf (param : CustomToolParam) (value : ArgValue) : Bool :=
  match param.type, value with
  | .string maxLength, .text t => 1 ≤ t.length && t.length ≤ maxLength && isWellFormed t
  | .integer min max, .number n => n.natAbs ≤ MAX_SAFE_INTEGER && min.all (fun min => min ≤ (n : ℚ)) &&
    max.all fun max => (n : ℚ) ≤ max
  | .boolean, .flag _ => true
  | .enum values, .text t => values.contains t
  | _, _ => false

/-- The field of the schema under a name: of two parameters with one name the later one. -/
def shape (tool : HttpGetTool) (name : Text) : Option CustomToolParam :=
  tool.params.reverse.find? fun p => p.name = name

def customToolArgsSchema (tool : HttpGetTool) (args : CustomToolArgs) : Bool :=
  (args.all fun entry => (shape tool entry.1).isSome) &&
    tool.params.all fun p => match shape tool p.name, property args p.name with
      | some param, some value => argOf param value
      | _, none => ! (requiredNames tool).contains p.name
      | none, some _ => true

/-! ## The address of a call -/

/-- The characters that `encodeURIComponent` keeps. -/
def isUnreserved (c : Nat) : Bool :=
  (0x41 ≤ c && c ≤ 0x5a) || (0x61 ≤ c && c ≤ 0x7a) || (0x30 ≤ c && c ≤ 0x39) ||
    [0x2d, 0x5f, 0x2e, 0x21, 0x7e, 0x2a, 0x27, 0x28, 0x29].contains c

/-- A surrogate alone is an error. -/
def encodeURIComponent (text : Text) : Option Text :=
  if isWellFormed text then some (percentEncode isUnreserved text) else none

/-- How a call ends without an address: with a message, or with an error that is not caught. -/
inductive Stop
  | fail (message : Text)
  | thrown

section Call

variable (platform : Platform) (args : CustomToolArgs)

def encodedSlots : List Text → Except Stop (List (Text × Text))
  | [] => .ok []
  | name :: names =>
    match property args name with
    | none => .error (.fail (name ++ units " is missing"))
    | some value =>
      if refusedInPath platform value.string then
        .error (.fail (name ++ units " must not contain / or \\, and must not be . or .."))
      else match encodeURIComponent value.string with
        | none => .error .thrown
        | some code => (encodedSlots names).map ((name, code) :: ·)

def encodedPairs : List Text → Except Stop (List Text)
  | [] => .ok []
  | name :: names =>
    match property args name with
    | none => encodedPairs names
    | some value =>
      match encodeURIComponent value.string with
      | none => .error .thrown
      | some code => (encodedPairs names).map ((name ++ 0x3d :: code) :: ·)

/-- The text of the address. -/
def hrefOf (parts : UrlParts) (encoded : List (Text × Text)) (appended : List Text) : Text :=
  let path := (pieces parts.path).flatMap (PathPiece.filled fun name => (encoded.lookup name).getD [])
  let query := [0x26].intercalate ((parts.query.getD [] :: appended).filter (· ≠ []))
  parts.scheme ++ units "://" ++ (parts.authority ++ (path ++ if query = [] then [] else 0x3f :: query))

/-- The address, where it stays on the origin and below the fixed front of the path. -/
def pinned (parts : UrlParts) (href : Text) : Except Stop Address :=
  let cannot := Stop.fail (units "the URL cannot be built from these arguments")
  let front := parts.path.takeWhile (· ≠ 0x7b)
  match platform.parse href, platform.parse (parts.scheme ++ units "://" ++ (parts.authority ++ units "/")) with
  | some url, some base =>
    match platform.parseAt (if front = [] then units "/" else front) base.origin with
    | some top =>
      if url.origin ≠ base.origin || ! (top.pathname <+: url.pathname) then
        .error (.fail (units "the URL would leave the address the tool is pinned to"))
      else .ok url
    | none => .error cannot
  | _, _ => .error cannot

def customToolUrl (tool : HttpGetTool) : Except Stop Address :=
  match splitUrl tool.url with
  | none => .error (.fail (units "the tool URL cannot be read"))
  | some parts =>
    match encodedSlots platform args (placeholdersIn parts.path), encodedPairs args tool.query with
    | .error stop, _ => .error stop
    | .ok _, .error stop => .error stop
    | .ok encoded, .ok appended =>
      let href := hrefOf parts encoded appended
      if CUSTOM_TOOL_URL_MAX_LENGTH < href.length then
        .error (.fail (units "the URL would be longer than 2048 characters"))
      else pinned platform parts href

end Call

end Haive.Modularity

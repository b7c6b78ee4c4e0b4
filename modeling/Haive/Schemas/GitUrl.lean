import Haive.Lib.Cuts
import Haive.Lib.Occurrences
import Haive.Lib.Units

/-!
# Git addresses

How Git addresses are written out without their credentials, as `shared/src/schemas/git-url.ts` does it,
over UTF-16 code units: one address (`redactGitUrl`) and a text with any number of them (`redactGitText`).
The URL parser is a parameter. The places of a text are counted from the scanner's cursor.
-/

namespace Haive.Schemas

open Lib (indexOf lastIdx throughLast)
open Lib.Units

abbrev Text := List UInt16

/-- What `new URL(text)` answers; `cleared` is the address written back once the user name, the password,
the query and the fragment are emptied. -/
structure ParsedUrl where
  protocol : Text
  hostname : Text
  username : Text
  password : Text
  pathname : Text
  cleared : Text

def isLetter (u : UInt16) : Bool := (65 ≤ u && u ≤ 90) || (97 ≤ u && u ≤ 122)

/-- What continues a scheme and starts none: a digit or one of `+-.`. -/
def continuesScheme (u : UInt16) : Bool := (48 ≤ u && u ≤ 57) || u = 43 || u = 45 || u = 46

def inScheme (u : UInt16) : Bool := isLetter u || continuesScheme u

/-- White space and the two quotes. -/
def isBoundary (u : UInt16) : Bool := isTrimmed u || u = 0x27 || u = 0x22

/-- The two angle brackets and the back quote. -/
def isBracket (u : UInt16) : Bool := u = 0x3c || u = 0x3e || u = 0x60

def isDelimiter (u : UInt16) : Bool := isBoundary u || isBracket u

def isSlash (u : UInt16) : Bool := u = 0x2f

def isAt (u : UInt16) : Bool := u = 0x40

/-- What a query or a fragment starts with. -/
def endsPath (u : UInt16) : Bool := u = 0x3f || u = 0x23

/-- `://`. -/
def schemeEnd : Text := [0x3a, 0x2f, 0x2f]

/-! ## One address -/

def schemeOf : Text → Option Text
  | [] => none
  | u :: rest =>
    if isLetter u && (rest.dropWhile inScheme).head? = some 0x3a then some (u :: rest.takeWhile inScheme ++ [0x3a])
    else none

/-- What is left of an address that the parser rejects. -/
def schemeOnly (url : Text) : Text := (schemeOf url).getD (units "(unparseable URL)")

def lower (u : UInt16) : UInt16 := if 65 ≤ u && u ≤ 90 then u + 32 else u

/-- `/^file:/i`. -/
def isFile (url : Text) : Bool := (units "file:").isPrefixOf (url.map lower)

/-- `redactGitUrl(url, true)`: the login of an SSH address stays. -/
def redactForTransport (parse : Text → Option ParsedUrl) (url : Text) : Text :=
  match indexOf schemeEnd url with
  | none => url
  | some i =>
    match parse url with
    | none => schemeOnly url
    | some parsed =>
      let ssh := parsed.protocol = units "ssh:"
      if parsed.password = [] ∧ (ssh ∨ parsed.username = []) then url
      else
        let start := i + 3
        let authority := (url.drop start).takeWhile fun u => ! (isSlash u || endsPath u)
        match lastIdx isAt authority with
        | none => url
        | some last =>
          let login := if ssh then (authority.take last).takeWhile (· ≠ 0x3a) ++ [0x40] else []
          url.take start ++ (login ++ url.drop (start + last + 1))

/-- `redactGitUrl(url)`: all that stands up to the last `@` of the authority goes. -/
def redactForDisplay (parse : Text → Option ParsedUrl) (url : Text) : Text :=
  match indexOf schemeEnd url with
  | none => (url.drop (throughLast isAt url)).takeWhile (! endsPath ·)
  | some i =>
    let start := i + 3
    let authority := (url.drop start).takeWhile (! isSlash ·)
    if (lastIdx isAt authority).isSome && isFile url then units "file:"
    else
      match parse (url.take start ++ url.drop (start + throughLast isAt authority)) with
      | none => schemeOnly url
      | some parsed =>
        if parsed.hostname = [] ∧ parsed.pathname.head? ≠ some 0x2f then
          -- No authority was read, and the userinfo is looked for in the whole address.
          let safe := match lastIdx isAt url with
            | some last => if start ≤ last then url.take start ++ url.drop (last + 1) else url
            | none => url
          safe.takeWhile (! endsPath ·)
        else parsed.cleared

def redactGitUrl (parse : Text → Option ParsedUrl) (url : Text) (forTransport : Bool) : Text :=
  if forTransport then redactForTransport parse url else redactForDisplay parse url

/-! ## Texts -/

/-- `start`: where the letter stands that the present run of scheme characters began with. -/
def findFrom (start : Option Nat) (index : Nat) : Text → Option (Nat × Nat)
  | [] => none
  | u :: rest =>
    if isLetter u then findFrom (start.or (some index)) (index + 1) rest
    else if continuesScheme u then findFrom start (index + 1) rest
    else
      match start with
      | some s => if schemeEnd.isPrefixOf (u :: rest) then some (s, index + 3) else findFrom none (index + 1) rest
      | none => findFrom none (index + 1) rest

/-- The first address: where its scheme and its authority start. -/
def findUrlScheme (text : Text) : Option (Nat × Nat) := findFrom none 0 text

def ordinary (parse : Text → Option ParsedUrl) (address : Text) : Bool :=
  match parse address with
  | some url => url.hostname ≠ [] && url.username = [] && url.password = []
  | none => false

def nextStart (behind : Text) : Nat :=
  match findUrlScheme behind with
  | some (start, _) => start
  | none => behind.length

/-- Where the search for an `@` stops in what stands behind the `://`. -/
def authorityBound (ordinaryAuthority : Bool) (behind : Text) : Nat :=
  let word := behind.findIdx isDelimiter
  let bound := min (behind.findIdx isSlash) (nextStart behind)
  if ordinaryAuthority then
    match ((behind.take bound).drop word).findIdx? isBoundary with
    | some boundary => word + boundary
    | none => bound
  else bound

/-- How much of what stands behind the `://` the scanner takes for the address. -/
def addressLength (ordinaryAuthority : Bool) (behind : Text) : Nat :=
  let word := behind.findIdx isDelimiter
  if behind.findIdx isSlash < word then word
  else if ordinaryAuthority && ! (behind[word]?).any isBracket then word
  else
    match lastIdx isAt (behind.take (authorityBound ordinaryAuthority behind)) with
    | some last => last + 1 + (behind.drop (last + 1)).findIdx isDelimiter
    | none => word

/-- What was found, up to the next delimiter. -/
def firstWord (text : Text) (start authorityStart : Nat) : Text :=
  (text.take (authorityStart + (text.drop authorityStart).findIdx isDelimiter)).drop start

def addressEnd (parse : Text → Option ParsedUrl) (text : Text) (start authorityStart : Nat) : Nat :=
  authorityStart + addressLength (ordinary parse (firstWord text start authorityStart)) (text.drop authorityStart)

/-- The loop, `none` when it has not ended after so many rounds. -/
def redactLoop (parse : Text → Option ParsedUrl) : Nat → Text → Option Text
  | 0, _ => none
  | fuel + 1, text =>
    match findUrlScheme text with
    | none => some text
    | some (start, authorityStart) =>
      let stop := addressEnd parse text start authorityStart
      (redactLoop parse fuel (text.drop stop)).map fun output =>
        text.take start ++ (redactGitUrl parse ((text.take stop).drop start) false ++ output)

def redactGitText (parse : Text → Option ParsedUrl) (text : Text) : Text :=
  (redactLoop parse (text.length + 1) text).getD []

end Haive.Schemas

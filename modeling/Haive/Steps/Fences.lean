import Haive.Lib.Occurrences
import Mathlib.Data.List.DropRight

/-!
# Fenced agent text

`step-engine/steps/_untrusted-repo.ts`, `step-engine/task-ledger.ts`,
`shared/src/markdown-fences.ts` and `step-engine/steps/workflow/_fix-loop.ts`: text that
an agent wrote goes into a prompt between two banners, and a long diagnosis is cut
before it is shown.

A text is a list of UTF-16 code units. Every unit carries a mark that says whether it
came from an agent. The functions read `unit` alone and move the mark along; what a
function writes itself is unmarked.
-/

namespace Haive.Steps.Fences

open Lib

/-! ## Text -/

structure Glyph where
  unit : UInt16
  agent : Bool
deriving DecidableEq, Repr

abbrev Text := List Glyph

def units (t : Text) : List UInt16 := t.map (·.unit)

/-- The code units of a literal of the source. -/
def unitsOf (s : String) : List UInt16 := s.toList.map fun c => c.toNat.toUInt16

/-- Text of the program itself. -/
def trusted (us : List UInt16) : Text := us.map (⟨·, false⟩)

/-- Text that an agent wrote. -/
def written (us : List UInt16) : Text := us.map (⟨·, true⟩)

def lit (s : String) : Text := trusted (unitsOf s)

def newline : UInt16 := 10

def UNTRUSTED_OPEN : List UInt16 := unitsOf "===== BEGIN UNTRUSTED AGENT TEXT ====="
def UNTRUSTED_CLOSE : List UInt16 := unitsOf "===== END UNTRUSTED AGENT TEXT ====="

/-- `lines.join('\n')`. -/
def joinLines : List Text → Text
  | [] => []
  | [line] => line
  | line :: lines => line ++ lit "\n" ++ joinLines lines

/-- `text.split('\n')`. -/
def splitLines (t : Text) : List Text := t.splitOnP (·.unit = newline)

/-! ## The fence -/

/-- `fenceSafe`: `={4,}` becomes `===`. -/
def fenceSafe (body : List UInt16) : List UInt16 :=
  replaceAll (fun t => let n := (t.takeWhile (· = 61)).length; if 4 ≤ n then n else 0) (unitsOf "===") body

def fencedAgentBlock (body : List UInt16) : Text :=
  joinLines [trusted UNTRUSTED_OPEN, written (fenceSafe body), trusted UNTRUSTED_CLOSE]

def balanceFences (s : Text) : Text :=
  let opens := occurrences UNTRUSTED_OPEN (units s)
  let closes := occurrences UNTRUSTED_CLOSE (units s)
  if opens = closes then s
  else if opens < closes then trusted UNTRUSTED_OPEN ++ lit "\n" ++ s
  else s ++ lit "\n" ++ trusted UNTRUSTED_CLOSE

/-! ## Cleaning -/

/-- The length of the escape sequence that starts here, if one does. -/
def ansiLength : Text → Nat
  | esc :: bracket :: rest =>
    if esc.unit = 0x1b && bracket.unit = 91 then
      let params := rest.takeWhile fun g => (48 ≤ g.unit && g.unit ≤ 57) || g.unit = 59 || g.unit = 63
      match rest.drop params.length with
      | g :: _ =>
        if (65 ≤ g.unit && g.unit ≤ 90) || (97 ≤ g.unit && g.unit ≤ 122) then params.length + 3 else 0
      | [] => 0
    else 0
  | _ => 0

/-- `replace(ANSI_RE, '')`. -/
def stripAnsi (t : Text) : Text := replaceAll ansiLength [] t

def isBlank (g : Glyph) : Bool := g.unit = 32 || g.unit = 9

/-- What `$` stands before in a multiline expression. -/
def isLineTerminator (g : Glyph) : Bool :=
  g.unit = 10 || g.unit = 13 || g.unit = 0x2028 || g.unit = 0x2029

def stripLineEnds : Text → Text
  | [] => []
  | g :: t =>
    if isBlank g && ((t.dropWhile isBlank).head?.map isLineTerminator).getD true then stripLineEnds t
    else g :: stripLineEnds t

/-- `replace(/\n{3,}/g, '\n\n')`: of a run of newlines two stay. -/
def collapseNewlines : Nat → Text → Text
  | _, [] => []
  | run, g :: t =>
    if g.unit = newline then
      if 2 ≤ run then collapseNewlines run t else g :: collapseNewlines (run + 1) t
    else g :: collapseNewlines 0 t

/-- White space and line ends, as `trim` takes them. -/
def isTrimmed (g : Glyph) : Bool :=
  (9 ≤ g.unit && g.unit ≤ 13) || g.unit = 0x20 || g.unit = 0xa0 || g.unit = 0x1680 ||
    (0x2000 ≤ g.unit && g.unit ≤ 0x200a) || g.unit = 0x2028 || g.unit = 0x2029 || g.unit = 0x202f ||
    g.unit = 0x205f || g.unit = 0x3000 || g.unit = 0xfeff

def trimText (t : Text) : Text := (t.dropWhile isTrimmed).rdropWhile isTrimmed

/-- `cleanText`, `none` for an infinite limit. -/
def cleanText (raw : Text) (tailLimit : Option Nat) : Text :=
  let cleaned := trimText (collapseNewlines 0 (stripLineEnds (stripAnsi raw)))
  match tailLimit with
  | none => cleaned
  | some limit => if limit < cleaned.length then cleaned.drop (cleaned.length - limit) else cleaned

def cleanDiagnosis (raw : Text) : Text := balanceFences (cleanText raw (some 6000))

/-! ## Markdown fences -/

structure FenceOpener where
  indent : Nat
  run : List UInt16
deriving DecidableEq, Repr

/-- The run of backticks or tildes that `us` starts with, if it is one of three or more. -/
def fenceRun (us : List UInt16) : Option (List UInt16) :=
  match us with
  | [] => none
  | c :: _ =>
    let run := us.takeWhile (· = c)
    if (c = 96 || c = 126) && 3 ≤ run.length then some run else none

/-- `\r?$`. -/
def dropFinalReturn (us : List UInt16) : List UInt16 :=
  if us.getLast? = some 13 then us.dropLast else us

def fenceOpener (line : Text) : Option FenceOpener :=
  let us := units line
  let indent := (us.takeWhile (· = 32)).length
  if 3 < indent then none
  else
    match fenceRun (us.drop indent) with
    | none => none
    | some run =>
      let info := dropFinalReturn (us.drop (indent + run.length))
      if info.contains 13 || info.contains 10 || (run.head? = some 96 && info.contains 96) then none
      else some ⟨indent, run⟩

def closesFence (line : Text) (run : List UInt16) : Bool :=
  let us := units line
  let indent := (us.takeWhile (· = 32)).length
  if 3 < indent then false
  else
    match fenceRun (us.drop indent) with
    | none => false
    | some closer =>
      (dropFinalReturn (us.drop (indent + closer.length))).all (fun u => u = 32 || u = 9) &&
        closer.head? = run.head? && run.length ≤ closer.length

structure Fence where
  opened : Nat
  close : Option Nat
deriving DecidableEq, Repr

def scanFrom (i : Nat) (inside : Option (Nat × List UInt16)) : List Text → List Fence
  | [] => inside.toList.map fun (opened, _) => ⟨opened, none⟩
  | line :: lines =>
    match inside with
    | none => scanFrom (i + 1) ((fenceOpener line).map fun opener => (i, opener.run)) lines
    | some (opened, run) =>
      if closesFence line run then ⟨opened, some i⟩ :: scanFrom (i + 1) none lines
      else scanFrom (i + 1) inside lines

def scanFences (lines : List Text) : List Fence := scanFrom 0 none lines

/-! ## Cutting -/

def isHighSurrogate (unit : UInt16) : Bool := 0xd800 ≤ unit && unit ≤ 0xdbff
def isLowSurrogate (unit : UInt16) : Bool := 0xdc00 ≤ unit && unit ≤ 0xdfff

def snapWindow (piece : Nat) : Nat := min 200 (piece / 2)

/-- The ending of `character`. -/
def plural (n : Nat) : String := if n = 1 then "" else "s"

/-- `toLocaleString('en-US')` of the digits, lowest first. -/
def groupDigits : List Char → List Char
  | a :: b :: c :: d :: rest => a :: b :: c :: ',' :: groupDigits (d :: rest)
  | digits => digits

def omissionLine (n : Nat) : Text :=
  lit "[… " ++ trusted (((groupDigits (Nat.toDigits 10 n).reverse).reverse).map fun c => c.toNat.toUInt16) ++
    lit " character" ++ lit (plural n) ++ lit " omitted …]"

/-- `text.indexOf('\n', k)`. -/
def nextNewline (t : Text) (k : Nat) : Option Nat := ((t.drop k).findIdx? (·.unit = newline)).map (· + k)

/-- `text.lastIndexOf('\n', k - 1)`, which looks at the first place where `k` is `0`. -/
def lastNewline (t : Text) (k : Nat) : Option Nat :=
  ((t.take (max k 1)).reverse.findIdx? (·.unit = newline)).map fun i => (t.take (max k 1)).length - 1 - i

/-- `delimiterLineAround`: the bounds of the fence delimiter line that `k` is strictly inside. -/
def delimiterLineAround (t : Text) (k : Nat) : Option (Nat × Nat) :=
  let start := ((lastNewline t k).map (· + 1)).getD 0
  let stop := (nextNewline t k).getD t.length
  if k ≤ start || stop ≤ k then none
  else (fenceOpener ((t.take stop).drop start)).map fun _ => (start, stop)

def headPiece (t : Text) (max : Nat) : Text :=
  let stop := if 0 < max && (t[max - 1]?.map (isHighSurrogate ·.unit)).getD false then max - 1 else max
  let stop :=
    if t[stop]?.map (·.unit) = some newline then stop
    else
      match lastNewline t stop with
      | some lineEnd => if stop - snapWindow max ≤ lineEnd then lineEnd else stop
      | none => stop
  let stop := ((delimiterLineAround t stop).map fun (start, _) => start - 1).getD stop
  t.take stop

def tailPiece (t : Text) (max : Nat) : Text :=
  let start := t.length - max
  let start :=
    if 0 < start && (t[start]?.map (isLowSurrogate ·.unit)).getD false &&
      (t[start - 1]?.map (isHighSurrogate ·.unit)).getD false then start + 1 else start
  let start :=
    if start = 0 || t[start - 1]?.map (·.unit) = some newline then start
    else
      match nextNewline t start with
      | some lineEnd => if lineEnd < start + snapWindow max then lineEnd + 1 else start
      | none => start
  let start := ((delimiterLineAround t start).map fun (_, stop) => min (stop + 1) t.length).getD start
  t.drop start

def MAX_SYNTHETIC_FENCE : Nat := 16

def openBlock (lines : List Text) : Option (Nat × FenceOpener) :=
  match (scanFences lines).find? (·.close.isNone) with
  | none => none
  | some fence => (fenceOpener ((lines[fence.opened]?).getD [])).map fun opener => (fence.opened, opener)

def openFenceRun (t : Text) : Option (List UInt16) :=
  match openBlock (splitLines t) with
  | some (_, opener) =>
    if opener.run.length ≤ MAX_SYNTHETIC_FENCE then some (List.replicate opener.indent 32 ++ opener.run) else none
  | none => none

def headBeforeLongFence (head : Text) : Text :=
  let lines := splitLines head
  match openBlock lines with
  | some (opened, opener) =>
    if MAX_SYNTHETIC_FENCE < opener.run.length then joinLines (lines.take opened) else head
  | none => head

def tailAfterLongFence (t tail : Text) : Text :=
  let lines := splitLines t
  match openBlock (splitLines (t.take (t.length - tail.length))) with
  | some (opened, opener) =>
    if opener.run.length ≤ MAX_SYNTHETIC_FENCE then tail
    else
      match ((scanFences lines).find? (·.opened = opened)).bind (·.close) with
      | none => []
      | some close => joinLines (lines.drop (close + 1))
  | none => tail

/-- The lines of a head, without a BEGIN banner that ends it. -/
def dropFinalOpen (lines : List Text) : List Text :=
  if lines.getLast?.map units = some UNTRUSTED_OPEN then lines.dropLast else lines

/-- The lines of a tail, without an END banner that starts it. -/
def dropFirstClose (lines : List Text) : List Text :=
  if lines.head?.map units = some UNTRUSTED_CLOSE then lines.tail else lines

/-- `head`, of `cutMiddle`. -/
def keptHead (t : Text) (budget : Nat) : Text :=
  joinLines (dropFinalOpen (splitLines (headBeforeLongFence (headPiece t ((budget + 1) / 2)))))

def tailTextOf (t : Text) (budget : Nat) : Text := tailAfterLongFence t (tailPiece t (budget / 2))

/-- `tail`, of `cutMiddle`. -/
def keptTail (t : Text) (budget : Nat) : Text := joinLines (dropFirstClose (splitLines (tailTextOf t budget)))

def closeBlock (head : Text) : Text :=
  match openFenceRun head with
  | some run => head ++ lit "\n" ++ trusted run
  | none => head

def reopenBlock (front tail : Text) : Text :=
  match openFenceRun front with
  | some run => trusted run ++ lit "\n" ++ tail
  | none => tail

def cutMiddle (t : Text) (budget : Nat) (repair : Text → Text) : Text :=
  let head := keptHead t budget
  let tail := keptTail t budget
  let omitted := omissionLine (t.length - head.length - tail.length)
  let headPart := repair (closeBlock head)
  let tailPart :=
    if tail = [] then []
    else repair (reopenBlock (t.take (t.length - (tailTextOf t budget).length)) tail)
  (if headPart = [] then [] else headPart ++ lit "\n\n") ++
    (omitted ++ if tailPart = [] then [] else lit "\n\n" ++ tailPart)

/-- The span between a BEGIN banner and the next END banner. -/
structure Body where
  start : Nat
  stop : Nat
deriving DecidableEq, Repr

def Body.length (b : Body) : Nat := b.stop - b.start

def fencedBodies (us : List UInt16) : Nat → Nat → List Body
  | 0, _ => []
  | fuel + 1, k =>
    match indexFrom UNTRUSTED_OPEN us k with
    | none => []
    | some opened =>
      let start := opened + UNTRUSTED_OPEN.length
      match indexFrom UNTRUSTED_CLOSE us start with
      | none => []
      | some stop => ⟨start, stop⟩ :: fencedBodies us fuel (stop + UNTRUSTED_CLOSE.length)

/-- The shares of `remaining`, for bodies that come shortest first. -/
def sharesOf : Nat → List Body → List (Body × Nat)
  | _, [] => []
  | remaining, b :: bs =>
    let share := remaining / (bs.length + 1)
    (b, share) :: sharesOf (remaining - min share b.length) bs

def rebuild (t : Text) (cut : Body → Text → Text) : Nat → List Body → Text
  | copied, [] => t.drop copied
  | copied, b :: bs =>
    (t.take b.start).drop copied ++ cut b ((t.take b.stop).drop b.start) ++ rebuild t cut b.stop bs

def cutFencedBodies (t : Text) (budget : Nat) : Text :=
  let bodies := fencedBodies (units t) t.length 0
  let shares := sharesOf budget (bodies.mergeSort fun a b => a.length ≤ b.length)
  rebuild t (fun b body =>
    let share := ((shares.find? (·.1 = b)).map (·.2)).getD 0
    if share < body.length then cutMiddle body share id else body) 0 bodies

def excerptDiagnosis (raw : Text) (budget : Nat) (keepPersonWhole : Bool) : Text :=
  let t := cleanText raw none
  if keepPersonWhole then balanceFences (cutFencedBodies t budget)
  else if budget < t.length then cutMiddle t budget balanceFences
  else balanceFences t

end Haive.Steps.Fences

import Haive.Lib.Units
import Mathlib

/-!
# JSON values and `JSON.parse`

Values as a program reads them after `JSON.parse`: texts are code units and numbers doubles. The
parser is a machine that takes the text one unit at a time, with the containers it is inside of on a
stack, so that it needs no bound on the depth. A property that an object does not have itself is
absent; what the prototypes would answer is none of the names and types that are read here.
-/

namespace Lib

open Lib.Units

inductive Json
  | null
  | bool (b : Bool)
  | num (n : Float)
  | str (s : List UInt16)
  | arr (elems : List Json)
  | obj (fields : List (List UInt16 × Json))

namespace Json

/-! ## Reading a value -/

def digit (u : UInt16) : Option Nat := if 0x30 ≤ u && u ≤ 0x39 then some (u - 0x30).toNat else none

/-- A run of digits as a number. -/
def natural (s : List UInt16) : Nat := s.foldl (fun n u => 10 * n + (digit u).getD 0) 0

def allDigits (s : List UInt16) : Bool := s ≠ [] && s.all fun u => (digit u).isSome

/-- The array index that a property name is, written without leading zeros and below `2^32 - 1`. -/
def index (key : List UInt16) : Option Nat :=
  if allDigits key && (key.head? ≠ some 0x30 || key.length = 1) && natural key < 2 ^ 32 - 1
  then some (natural key) else none

def ofIndex (n : Nat) : List UInt16 := (Nat.toDigits 10 n).map fun c => c.toNat.toUInt16

/-- `j[key]`. -/
def get (j : Json) (key : List UInt16) : Option Json :=
  match j with
  | .obj fields => fields.lookup key
  | .arr elems => if key = units "length" then some (.num elems.length.toFloat) else (index key).bind (elems[·]?)
  | _ => none

/-- `Object.keys(j)`: array indices in order, then the other names as they came. -/
def keys : Json → List (List UInt16)
  | .obj fields =>
    ((fields.filterMap fun field => index field.1).mergeSort (· ≤ ·)).map ofIndex ++
      (fields.map Prod.fst).filter fun key => index key = none
  | .arr elems => (List.range elems.length).map ofIndex
  | _ => []

def str? : Json → Option (List UInt16)
  | .str s => some s
  | _ => none

def num? : Json → Option Float
  | .num n => some n
  | _ => none

def arr? : Json → Option (List Json)
  | .arr elems => some elems
  | _ => none

/-- `Boolean(j)`. -/
def truthy : Json → Bool
  | .null => false
  | .bool b => b
  | .num n => !(n == 0) && !n.isNaN
  | .str s => s ≠ []
  | .arr _ | .obj _ => true

/-! ## Parsing -/

/-- A container that is not closed: what is in it so far, and the name that waits for its value. -/
inductive Frame
  | arr (done : List Json)
  | obj (done : List (List UInt16 × Json)) (key : List UInt16)

inductive Escape
  | none
  | backslash
  /-- `\u` with the digits so far. -/
  | hex (digits : List Nat)

/-- What the next unit is read as. -/
inductive Phase
  | value
  /-- Behind `[`, where the array may close. -/
  | element
  /-- A name in an object that is open; behind a brace the object may close. -/
  | name (done : List (List UInt16 × Json)) (mayClose : Bool)
  | colon (done : List (List UInt16 × Json)) (key : List UInt16)
  /-- A string, backwards; `some` where it is a name. -/
  | string (name : Option (List (List UInt16 × Json))) (back : List UInt16) (escape : Escape)
  /-- A literal or a number, backwards. -/
  | bare (back : List UInt16)
  | read (j : Json)

structure Machine where
  stack : List Frame
  phase : Phase

def isSpace (u : UInt16) : Bool := u = 0x20 || u = 9 || u = 10 || u = 13

/-- A name that comes again keeps its place and takes the later value. -/
def setField (fields : List (List UInt16 × Json)) (key : List UInt16) (j : Json) : List (List UInt16 × Json) :=
  if fields.any (·.1 = key) then fields.map fun field => if field.1 = key then (key, j) else field
  else fields ++ [(key, j)]

def hexDigit (u : UInt16) : Option Nat :=
  if 0x30 ≤ u && u ≤ 0x39 then some (u - 0x30).toNat
  else if 0x41 ≤ u && u ≤ 0x46 then some (u - 0x37).toNat
  else if 0x61 ≤ u && u ≤ 0x66 then some (u - 0x57).toNat
  else none

/-- The unit that a backslash and a letter stand for. -/
def escaped (u : UInt16) : Option UInt16 :=
  ([(0x22, 0x22), (0x5c, 0x5c), (0x2f, 0x2f), (0x62, 8), (0x66, 12), (0x6e, 10), (0x72, 13), (0x74, 9)] :
    List (UInt16 × UInt16)).lookup u

/-- `-? digits (. digits)? ([eE] [+-]? digits)?`, the first digits without a leading zero. -/
def number (s : List UInt16) : Option Float :=
  let negative := s.head? = some 0x2d
  let s := if negative then s.tail else s
  let whole := s.takeWhile fun u => (digit u).isSome
  let s := s.drop whole.length
  let fraction := if s.head? = some 0x2e then s.tail.takeWhile fun u => (digit u).isSome else []
  let s' := if s.head? = some 0x2e then s.tail.drop fraction.length else s
  let hasExponent := s'.head? = some 0x65 || s'.head? = some 0x45
  let signed := s'.tail.head? = some 0x2b || s'.tail.head? = some 0x2d
  let exponent := if signed then s'.tail.tail else s'.tail
  if whole ≠ [] && (whole.head? ≠ some 0x30 || whole.length = 1) &&
      (s.head? ≠ some 0x2e || fraction ≠ []) && (if hasExponent then allDigits exponent else s' = []) then
    let power : Int := if hasExponent then
        (if s'.tail.head? = some 0x2d then -(natural exponent : Int) else natural exponent) else 0
    let scale := power - fraction.length
    let n := Float.ofScientific (natural (whole ++ fraction)) (scale < 0) scale.natAbs
    some (if negative then -n else n)
  else none

def bare (s : List UInt16) : Option Json :=
  if s = units "null" then some .null
  else if s = units "true" then some (.bool true)
  else if s = units "false" then some (.bool false)
  else (number s).map .num

/-- The unit behind a value: a comma, the end of the container or space. -/
def behind (stack : List Frame) (j : Json) (u : UInt16) : Option Machine :=
  if isSpace u then some ⟨stack, .read j⟩
  else
    match stack with
    | .arr done :: stack =>
      if u = 0x2c then some ⟨.arr (done ++ [j]) :: stack, .value⟩
      else if u = 0x5d then some ⟨stack, .read (.arr (done ++ [j]))⟩
      else none
    | .obj done key :: stack =>
      if u = 0x2c then some ⟨stack, .name (setField done key j) false⟩
      else if u = 0x7d then some ⟨stack, .read (.obj (setField done key j))⟩
      else none
    | [] => none

/-- The first unit of a value. -/
def opening (stack : List Frame) (u : UInt16) : Option Machine :=
  if isSpace u then some ⟨stack, .value⟩
  else if u = 0x5b then some ⟨stack, .element⟩
  else if u = 0x7b then some ⟨stack, .name [] true⟩
  else if u = 0x22 then some ⟨stack, .string none [] .none⟩
  else if u = 0x5d || u = 0x7d || u = 0x2c || u = 0x3a then none
  else some ⟨stack, .bare [u]⟩

/-- A string that is complete: a name or a value. -/
def closed (name : Option (List (List UInt16 × Json))) (s : List UInt16) : Phase :=
  match name with
  | some done => .colon done s
  | none => .read (.str s)

def step (m : Machine) (u : UInt16) : Option Machine :=
  match m.phase with
  | .value => opening m.stack u
  | .element =>
    if isSpace u then some m
    else if u = 0x5d then some ⟨m.stack, .read (.arr [])⟩
    else opening (.arr [] :: m.stack) u
  | .name done mayClose =>
    if isSpace u then some m
    else if u = 0x7d && mayClose then some ⟨m.stack, .read (.obj done)⟩
    else if u = 0x22 then some ⟨m.stack, .string (some done) [] .none⟩
    else none
  | .colon done key =>
    if isSpace u then some m
    else if u = 0x3a then some ⟨.obj done key :: m.stack, .value⟩
    else none
  | .string name back .none =>
    if u = 0x22 then some ⟨m.stack, closed name back.reverse⟩
    else if u = 0x5c then some ⟨m.stack, .string name back .backslash⟩
    else if u < 0x20 then none
    else some ⟨m.stack, .string name (u :: back) .none⟩
  | .string name back .backslash =>
    if u = 0x75 then some ⟨m.stack, .string name back (.hex [])⟩
    else (escaped u).map fun v => ⟨m.stack, .string name (v :: back) .none⟩
  | .string name back (.hex digits) =>
    (hexDigit u).map fun d =>
      if digits.length = 3 then
        ⟨m.stack, .string name (((digits ++ [d]).foldl (fun n d => 16 * n + d) 0).toUInt16 :: back) .none⟩
      else ⟨m.stack, .string name back (.hex (digits ++ [d]))⟩
  | .bare back =>
    if isSpace u || u = 0x2c || u = 0x5d || u = 0x7d then (bare back.reverse).bind fun j => behind m.stack j u
    else if u = 0x22 || u = 0x5b || u = 0x7b || u = 0x3a then none
    else some ⟨m.stack, .bare (u :: back)⟩
  | .read j => behind m.stack j u

/-- The value, where the text ends behind one and in no container. -/
def finish (m : Machine) : Option Json :=
  match m.stack, m.phase with
  | [], .read j => some j
  | [], .bare back => bare back.reverse
  | _, _ => none

/-- `JSON.parse`, `none` where it throws. -/
def parse (text : List UInt16) : Option Json := (text.foldlM step ⟨[], .value⟩).bind finish

end Json

end Lib

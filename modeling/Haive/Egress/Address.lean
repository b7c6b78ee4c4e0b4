import Haive.Lib.Json
import Haive.Lib.LeadingBits

/-!
# Addresses and block lists

What `net.isIP` reads as an address, and `net.BlockList`: an address is in a subnet when it has its leading
bits, and an IPv4 address counts as the IPv4-mapped address that carries it.
-/

namespace Haive.Egress

open Lib.Units
open Lib.LeadingBits (Bits listed)

abbrev Text := List UInt16

/-- The `width` low bits of a number, the leading one first. -/
def bitsOf (n : Nat) : Nat → Bits
  | 0 => []
  | width + 1 => n.testBit width :: bitsOf n width

@[simp] theorem length_bitsOf (n width : Nat) : (bitsOf n width).length = width := by
  induction width with
  | zero => rfl
  | succ width ih => rw [bitsOf, List.length_cons, ih]

abbrev Ip4 := List.Vector Bool 32
abbrev Ip6 := List.Vector Bool 128

def Ip4.of (a b c d : Nat) : Ip4 := ⟨bitsOf a 8 ++ bitsOf b 8 ++ bitsOf c 8 ++ bitsOf d 8, by simp⟩

def Ip6.of (a b c d e f g h : Nat) : Ip6 :=
  ⟨bitsOf a 16 ++ bitsOf b 16 ++ bitsOf c 16 ++ bitsOf d 16 ++ bitsOf e 16 ++ bitsOf f 16 ++ bitsOf g 16 ++ bitsOf h 16,
    by simp⟩

inductive Address
  | v4 (ip : Ip4)
  | v6 (ip : Ip6)

/-! ## Reading -/

def isDigit (u : UInt16) : Bool := 0x30 ≤ u && u ≤ 0x39

/-- `25[0-5]|2[0-4]\d|1\d\d|[1-9]\d|\d`. -/
def octet (text : Text) : Option Nat :=
  if text ≠ [] ∧ text.all isDigit = true ∧ text.length ≤ 3 ∧ (text.head? = some 0x30 → text.length = 1) then
    let n := text.foldl (fun n u => 10 * n + (u.toNat - 0x30)) 0
    if n ≤ 255 then some n else none
  else none

def octets (text : Text) : Option (List Nat) := (text.splitOn 0x2e).mapM octet

def readIPv4 (text : Text) : Option Ip4 :=
  match octets text with
  | some [a, b, c, d] => some (.of a b c d)
  | _ => none

/-- `[0-9a-fA-F]{1,4}`. -/
def segment (text : Text) : Option Nat :=
  if text ≠ [] ∧ text.length ≤ 4 then
    (text.mapM Lib.Json.hexDigit).map fun digits => digits.foldl (fun n d => 16 * n + d) 0
  else none

/-- Segments, the last of which may be an IPv4 address and counts twice. -/
def segmentsV4 : List Text → Option (List Nat)
  | [] => some []
  | [last] =>
    match octets last with
    | some [a, b, c, d] => some [256 * a + b, 256 * c + d]
    | _ => (segment last).map fun n => [n]
  | text :: rest => (segment text).bind fun n => (segmentsV4 rest).map (n :: ·)

def splitSegments (text : Text) : List Text := if text = [] then [] else text.splitOn 0x3a

/-- The text in front of the first `::` and the text behind it. -/
def cutAtGap : Text → Option (Text × Text)
  | [] => none
  | u :: rest =>
    if u = 0x3a ∧ rest.head? = some 0x3a then some ([], rest.drop 1)
    else (cutAtGap rest).map fun cut => (u :: cut.1, cut.2)

/-- The eight segments of an IPv6 address without its zone. -/
def readSegments (text : Text) : Option (List Nat) :=
  match cutAtGap text with
  | none => segmentsV4 (splitSegments text)
  | some (front, back) =>
    ((splitSegments front).mapM segment).bind fun front =>
      (segmentsV4 (splitSegments back)).bind fun back =>
        if front.length + back.length ≤ 7 then
          some (front ++ List.replicate (8 - front.length - back.length) 0 ++ back)
        else none

/-- `(?:%[0-9a-zA-Z-.:]{1,})?$`. -/
def isZoneUnit (u : UInt16) : Bool :=
  isDigit u || (0x41 ≤ u && u ≤ 0x5a) || (0x61 ≤ u && u ≤ 0x7a) || u = 0x2d || u = 0x2e || u = 0x3a

def isZone : Text → Bool
  | [] => true
  | _ :: zone => zone ≠ [] && zone.all isZoneUnit

def readIPv6 (text : Text) : Option Ip6 :=
  if isZone (text.dropWhile (· ≠ 0x25)) then
    match readSegments (text.takeWhile (· ≠ 0x25)) with
    | some [a, b, c, d, e, f, g, h] => some (.of a b c d e f g h)
    | _ => none
  else none

/-- `net.isIP`, with what it reads. -/
def isIP (text : Text) : Option Address :=
  match readIPv4 text with
  | some ip => some (.v4 ip)
  | none => (readIPv6 text).map .v6

/-! ## Block lists -/

/-- What an IPv4-mapped address starts with: `::ffff:0:0/96`. -/
def mappedHead : Bits := bitsOf 0 80 ++ bitsOf 0xffff 16

def Address.bits : Address → Bits
  | v4 ip => mappedHead ++ ip.toList
  | v6 ip => ip.toList

inductive Family
  | ipv4
  | ipv6

structure Subnet where
  network : Address
  leading : Nat

/-- What the addresses of the subnet start with. -/
def Subnet.bits (s : Subnet) : Bits :=
  match s.network with
  | .v4 ip => mappedHead ++ ip.toList.take s.leading
  | .v6 ip => ip.toList.take s.leading

abbrev BlockList := List Subnet

/-- It throws for a network that is no address of the family and for a prefix that is too long. -/
def BlockList.addSubnet (list : BlockList) (network : Text) (leading : Nat) (family : Family) : Option BlockList :=
  match family with
  | .ipv4 => (readIPv4 network).bind fun ip => if leading ≤ 32 then some (list ++ [⟨.v4 ip, leading⟩]) else none
  | .ipv6 => (readIPv6 network).bind fun ip => if leading ≤ 128 then some (list ++ [⟨.v6 ip, leading⟩]) else none

def BlockList.check (list : BlockList) (address : Address) : Bool := listed (list.map Subnet.bits) address.bits

end Haive.Egress

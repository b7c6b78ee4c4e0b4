import Haive.Egress.Address

/-!
# The egress guard

The address rules of `shared/src/egress/egress-guard.ts`: what no request may reach, and what an allowlisted
hostname does not lift, each repeated where an IPv6 address carries an IPv4 one.
-/

namespace Haive.Egress

open Lib.Units
open Lib.LeadingBits

def BLOCKED_V4 : List (Text × Nat) :=
  [(units "0.0.0.0", 8), (units "10.0.0.0", 8), (units "100.64.0.0", 10), (units "127.0.0.0", 8),
    (units "169.254.0.0", 16), (units "172.16.0.0", 12), (units "192.0.0.0", 24), (units "192.0.2.0", 24),
    (units "192.88.99.0", 24), (units "192.168.0.0", 16), (units "198.18.0.0", 15), (units "198.51.100.0", 24),
    (units "203.0.113.0", 24), (units "224.0.0.0", 4), (units "240.0.0.0", 4)]

def BLOCKED_V6 : List (Text × Nat) :=
  [(units "::", 96), (units "::ffff:0:0:0", 96), (units "64:ff9b:1::", 48), (units "100::", 64),
    (units "2001::", 32), (units "2001:2::", 48), (units "2001:db8::", 32), (units "3fff::", 20),
    (units "5f00::", 16), (units "fc00::", 7), (units "fe80::", 10), (units "fec0::", 10), (units "ff00::", 8)]

/-- `n.toString(16)`. -/
def hex (n : Nat) : Text := (Nat.toDigits 16 n).map fun c => c.toNat.toUInt16

/-- `high` and `low` of a network. -/
def halves (network : Text) : Option (Text × Text) :=
  match octets network with
  | some [a, b, c, d] => some (hex (a <<< 8 ||| b), hex (c <<< 8 ||| d))
  | _ => none

def BlockList.addNat64 (list : BlockList) (high low : Text) (leading : Nat) : Option BlockList :=
  list.addSubnet (units "64:ff9b::" ++ high ++ units ":" ++ low) (96 + leading) .ipv6

def BlockList.addSixToFour (list : BlockList) (high low : Text) (leading : Nat) : Option BlockList :=
  list.addSubnet (units "2002:" ++ high ++ units ":" ++ low ++ units "::") (16 + leading) .ipv6

def BlockList.addTranslated (list : BlockList) (high low : Text) (leading : Nat) : Option BlockList :=
  list.addSubnet (units "::ffff:0:" ++ high ++ units ":" ++ low) (96 + leading) .ipv6

def buildBlocked : Option BlockList := do
  let list ← BLOCKED_V4.foldlM (fun list (network, leading) => do
    let list ← BlockList.addSubnet list network leading .ipv4
    let (high, low) ← halves network
    let list ← list.addNat64 high low leading
    list.addSixToFour high low leading) []
  BLOCKED_V6.foldlM (fun list (network, leading) => BlockList.addSubnet list network leading .ipv6) list

def BLOCKED : BlockList := buildBlocked.getD []

def isBlockedAddress (address : Text) : Bool :=
  match isIP address with
  | none => true
  | some ip => BLOCKED.check ip

def buildUnliftable : Option BlockList := do
  let list : BlockList ← [(units "169.254.0.0", 16), (units "0.0.0.0", 8)].foldlM (fun list (network, leading) => do
    let list ← BlockList.addSubnet list network leading .ipv4
    let (high, low) ← halves network
    let list ← list.addNat64 high low leading
    let list ← list.addSixToFour high low leading
    list.addTranslated high low leading) ([] : BlockList)
  let list ← list.addSubnet (units "fe80::") 10 .ipv6
  list.addSubnet (units "::") 128 .ipv6

def UNLIFTABLE_BY_HOSTNAME : BlockList := buildUnliftable.getD []

def isUnliftableByHostname (address : Text) : Bool :=
  match isIP address with
  | none => false
  | some ip => UNLIFTABLE_BY_HOSTNAME.check ip

example : buildBlocked.isSome ∧ buildUnliftable.isSome := by decide

/-! ## The classifier of a dial -/

structure ParsedAllowlist where
  hosts : Text → Bool
  covers : Text → Bool

structure ProbeSeams where
  isBlocked : Option (Text → Bool)
  allowHosts : Option (Text → Bool)

section Classifier

variable (toLowerCase : Text → Text)

def bareHost (host : Text) : Text :=
  let name := toLowerCase host
  if name.getLast? = some 0x2e then name.dropLast else name

def isBuiltIn (seams : ProbeSeams) (host : Text) : Bool :=
  match seams.allowHosts with
  | none => false
  | some hosts => hosts (toLowerCase host)

def baseClassifier (seams : ProbeSeams) : Text → Bool := seams.isBlocked.getD isBlockedAddress

def classifierFor (host : Text) (seams : ProbeSeams) (allow : ParsedAllowlist) (address : Text) : Bool :=
  if isBuiltIn toLowerCase seams host then false
  else
    let hostAllowed := allow.hosts (bareHost toLowerCase host)
    baseClassifier seams address &&
      ! ((hostAllowed && ! isUnliftableByHostname address) || allow.covers address)

end Classifier

/-! ## IPv6 addresses that carry an IPv4 address -/

inductive Embedding
  | mapped
  | compatible
  | translated
  | nat64
  | sixToFour
  deriving DecidableEq

def Embedding.head : Embedding → Bits
  | mapped => mappedHead
  | compatible => bitsOf 0 96
  | translated => bitsOf 0 64 ++ bitsOf 0xffff 16 ++ bitsOf 0 16
  | nat64 => bitsOf 0x64 16 ++ bitsOf 0xff9b 16 ++ bitsOf 0 64
  | sixToFour => bitsOf 0x2002 16

def Embedding.Carries (form : Embedding) (x : Ip6) (a : Ip4) : Prop := ∃ rest, x.toList = form.head ++ a.toList ++ rest

/-- The rules about the form are those about the IPv4 addresses. -/
def sameRules (list : BlockList) (form : Embedding) : Bool :=
  splits 32 form.head (list.map Subnet.bits) &&
    behind form.head (list.map Subnet.bits) == behind Embedding.mapped.head (list.map Subnet.bits)

theorem check_v4 {list : BlockList} (hmapped : sameRules list .mapped = true) (a : Ip4) :
    list.check (.v4 a) = listed (behind Embedding.mapped.head (list.map Subnet.bits)) a.toList := by
  have hbits : (Address.v4 a).bits = Embedding.mapped.head ++ a.toList ++ [] := (List.append_nil _).symm
  rw [BlockList.check, hbits]
  exact listed_append (Bool.and_eq_true_iff.mp hmapped).1 a.toList_length []

theorem check_carried {list : BlockList} {form : Embedding} {x : Ip6} {a : Ip4} (h : form.Carries x a)
    (hsplits : splits 32 form.head (list.map Subnet.bits) = true) :
    list.check (.v6 x) = listed (behind form.head (list.map Subnet.bits)) a.toList := by
  obtain ⟨rest, hx⟩ := h
  rw [BlockList.check, Address.bits, hx]
  exact listed_append hsplits a.toList_length rest

theorem check_same {list : BlockList} {form : Embedding} {x : Ip6} {a : Ip4} (h : form.Carries x a)
    (hmapped : sameRules list .mapped = true) (hform : sameRules list form = true) :
    list.check (.v6 x) = list.check (.v4 a) := by
  obtain ⟨hsplits, hbehind⟩ := Bool.and_eq_true_iff.mp hform
  rw [check_carried h hsplits, check_v4 hmapped, eq_of_beq hbehind]

/-! ## The two lists -/

set_option maxRecDepth 20000 in
theorem blocked_sameRules : [Embedding.mapped, .nat64, .sixToFour].all (sameRules BLOCKED) = true := by decide

set_option maxRecDepth 20000 in
theorem unliftable_sameRules :
    [Embedding.mapped, .translated, .nat64, .sixToFour].all (sameRules UNLIFTABLE_BY_HOSTNAME) = true := by decide

set_option maxRecDepth 20000 in
/-- Of the addresses `::a` the list has the unspecified one alone. -/
theorem unliftable_compatible : splits 32 Embedding.compatible.head (UNLIFTABLE_BY_HOSTNAME.map Subnet.bits) = true ∧
    behind Embedding.compatible.head (UNLIFTABLE_BY_HOSTNAME.map Subnet.bits) = [(Ip4.of 0 0 0 0).toList] := by decide

set_option maxRecDepth 20000 in
theorem unliftable_sub_blocked : (UNLIFTABLE_BY_HOSTNAME.map Subnet.bits).all (fun rule =>
    (BLOCKED.map Subnet.bits).any fun rule' => rule'.isPrefixOf rule) = true := by decide

theorem blocked_same {form : Embedding} {x : Ip6} {a : Ip4} (h : form.Carries x a)
    (hform : form = .nat64 ∨ form = .sixToFour) : BLOCKED.check (.v6 x) = BLOCKED.check (.v4 a) := by
  have hall := List.all_eq_true.mp blocked_sameRules
  refine check_same h (hall _ (by decide)) (hall form ?_)
  rcases hform with rfl | rfl <;> decide

theorem unliftable_same {form : Embedding} {x : Ip6} {a : Ip4} (h : form.Carries x a) (hform : form ≠ .compatible) :
    UNLIFTABLE_BY_HOSTNAME.check (.v6 x) = UNLIFTABLE_BY_HOSTNAME.check (.v4 a) := by
  have hall := List.all_eq_true.mp unliftable_sameRules
  refine check_same h (hall _ (by decide)) (hall form ?_)
  cases form with
  | compatible => exact absurd rfl hform
  | mapped | translated | nat64 | sixToFour => decide

theorem unliftable_compatible_iff {x : Ip6} {a : Ip4} (h : Embedding.compatible.Carries x a) :
    UNLIFTABLE_BY_HOSTNAME.check (.v6 x) = true ↔ a = Ip4.of 0 0 0 0 := by
  obtain ⟨hsplits, hbehind⟩ := unliftable_compatible
  rw [check_carried h hsplits, hbehind, listed, List.any_cons, List.any_nil, Bool.or_false, List.isPrefixOf_iff_prefix]
  constructor
  · intro hstart
    exact List.Vector.eq _ _ (hstart.eq_of_length (by rw [a.toList_length]; rfl)).symm
  · rintro rfl
    exact List.prefix_refl _

theorem isBlockedAddress_of_isUnliftableByHostname {address : Text} (h : isUnliftableByHostname address = true) :
    isBlockedAddress address = true := by
  rw [isUnliftableByHostname] at h
  rw [isBlockedAddress]
  split at h
  · cases h
  · next ip _ =>
    refine listed_mono (fun rule hmem => ?_) h
    obtain ⟨rule', hmem', hstart⟩ := List.any_eq_true.mp (List.all_eq_true.mp unliftable_sub_blocked rule hmem)
    exact ⟨rule', hmem', List.isPrefixOf_iff_prefix.mp hstart⟩

theorem classifierFor_of_isUnliftableByHostname (toLowerCase : Text → Text) {seams : ProbeSeams} {host : Text}
    (hhost : isBuiltIn toLowerCase seams host = false) (hseams : seams.isBlocked = none) {allow : ParsedAllowlist}
    {address : Text} (hcovers : allow.covers address = false) (h : isUnliftableByHostname address = true) :
    classifierFor toLowerCase host seams allow address = true := by
  rw [classifierFor, hhost, if_neg Bool.false_ne_true, hcovers, h, baseClassifier, hseams, Option.getD_none,
    isBlockedAddress_of_isUnliftableByHostname h]
  simp

/-! ## Through every form -/

/-- A text that reads as an IPv6 address of the form is judged as the IPv4 address that it carries. In the
form `::a` a hostname entry lifts all but the unspecified address. -/
theorem rules_carried {form : Embedding} {s t : Text} {a : Ip4} {x : Ip6} (hs : isIP s = some (.v4 a))
    (ht : isIP t = some (.v6 x)) (h : form.Carries x a) :
    (form = .nat64 ∨ form = .sixToFour → isBlockedAddress t = isBlockedAddress s) ∧
      (form ≠ .compatible → isUnliftableByHostname t = isUnliftableByHostname s) ∧
      (form = .compatible → (isUnliftableByHostname t = true ↔ a = Ip4.of 0 0 0 0)) ∧
      (form ≠ .compatible → isUnliftableByHostname s = true → ∀ toLowerCase seams host allow,
        isBuiltIn toLowerCase seams host = false → seams.isBlocked = none → allow.covers t = false →
        classifierFor toLowerCase host seams allow t = true) := by
  have hunliftable : form ≠ .compatible → isUnliftableByHostname t = isUnliftableByHostname s := fun hform => by
    rw [isUnliftableByHostname, isUnliftableByHostname, hs, ht]
    exact unliftable_same h hform
  refine ⟨fun hform => ?_, hunliftable, ?_, ?_⟩
  · rw [isBlockedAddress, isBlockedAddress, hs, ht]
    exact blocked_same h hform
  · rintro rfl
    rw [isUnliftableByHostname, ht]
    exact unliftable_compatible_iff h
  · intro hform hlink toLowerCase seams host allow hhost hseams hcovers
    exact classifierFor_of_isUnliftableByHostname toLowerCase hhost hseams hcovers ((hunliftable hform).trans hlink)

/-- The metadata address of a cloud, through NAT64. -/
theorem rules_carried_nat64 :
    isUnliftableByHostname (units "64:ff9b::a9fe:a9fe") = isUnliftableByHostname (units "169.254.169.254") ∧
      isUnliftableByHostname (units "169.254.169.254") = true :=
  ⟨(@rules_carried .nat64 (units "169.254.169.254") (units "64:ff9b::a9fe:a9fe") (.of 169 254 169 254)
    (.of 0x64 0xff9b 0 0 0 0 0xa9fe 0xa9fe) rfl rfl ⟨[], rfl⟩).2.1 (by decide), by decide⟩

/-- The same address behind the zeros of `::a` is lifted. -/
theorem unliftable_misses_compatible :
    ¬ ∀ (form : Embedding) (s t : Text) (a : Ip4) (x : Ip6), isIP s = some (.v4 a) → isIP t = some (.v6 x) →
      form.Carries x a → isUnliftableByHostname t = isUnliftableByHostname s := by
  intro h
  have hsame := h .compatible (units "169.254.169.254") (units "::a9fe:a9fe") (.of 169 254 169 254)
    (.of 0 0 0 0 0 0 0xa9fe 0xa9fe) rfl rfl ⟨[], rfl⟩
  revert hsame
  decide

end Haive.Egress

import Haive.Egress.Address
import Haive.Lib.Pointwise
import Haive.Lib.Utf8
import Haive.Lib.WebAddress

/-!
# The allowlist of private endpoints

`shared/src/egress/allowlist.ts`: a text of host names, addresses and subnets, one to a line or between
commas. A text that is too long is cut at a byte, which may go through an entry and through a character, and
then back to the last separator. `allowlist_reads_whole_entries`: what is honoured are the entries of a
prefix of the text, each as a whole; a text that validates is honoured to its end.
-/

namespace Haive.Egress

open Lib.Units hiding isDigit

def MAX_ALLOWLIST_ENTRIES : Nat := 256
def MAX_ALLOWLIST_BYTES : Nat := 16 * 1024

/-! ## Entries -/

/-- `[a-z0-9]`. -/
def isAlphanumeric (u : UInt16) : Bool := (0x61 ≤ u && u ≤ 0x7a) || isDigit u

/-- `[a-z0-9-]`. -/
def isLabelUnit (u : UInt16) : Bool := isAlphanumeric u || u = 0x2d

/-- `HOST_LABEL`. -/
def isHostLabel (label : Text) : Bool :=
  label ≠ [] && label.length ≤ 63 && label.head?.all isAlphanumeric && label.getLast?.all isAlphanumeric &&
    label.all isLabelUnit

/-- `DIGITS`. -/
def isDigits (text : Text) : Bool := text ≠ [] && text.all isDigit

inductive Entry
  | ip (address : Text) (family : Family)
  | cidr (address : Text) (leading : Nat) (family : Family)
  | host (name : Text)

def stripBrackets (value : Text) : Text :=
  if value.head? = some 0x5b ∧ value.getLast? = some 0x5d then (value.drop 1).dropLast else value

/-- The family that `net.isIP` tells. -/
def familyOf (address : Text) : Option Family :=
  (isIP address).map fun ip =>
    match ip with
    | .v4 _ => .ipv4
    | .v6 _ => .ipv6

def Family.width : Family → Nat
  | ipv4 => 32
  | ipv6 => 128

/-- `Number(text)` of digits. -/
def decimal (digits : Text) : Nat := digits.foldl (fun n u => 10 * n + (u.toNat - 0x30)) 0

def parseHost (entry : Text) : Except String Entry :=
  let name := (if entry.getLast? = some 0x2e then entry.dropLast else entry).flatMap lowerUnit
  if name = [] ∨ 253 < name.length then .error "not a valid hostname"
  else
    let labels := name.splitOn 0x2e
    if ¬ labels.all isHostLabel then .error "not a valid hostname"
    else if labels.all isDigits then .error "not a valid hostname"
    else .ok (.host name)

def parseCidr (address prefixText : Text) : Except String Entry :=
  match familyOf address with
  | none => .error "not an IP address before the prefix"
  | some family =>
    if ¬ isDigits prefixText then .error "prefix is not a number"
    else
      let leading := decimal prefixText
      if leading < 1 ∨ family.width < leading then .error s!"prefix must be 1-{family.width}"
      else .ok (.cidr address leading family)

def parseEntry (entry : Text) : Except String Entry :=
  match entry.dropWhile (· ≠ 0x2f) with
  | _ :: prefixText => parseCidr (stripBrackets (entry.takeWhile (· ≠ 0x2f))) prefixText
  | [] =>
    match familyOf (stripBrackets entry) with
    | some family => .ok (.ip (stripBrackets entry) family)
    | none => parseHost entry

/-! ## The entries of a text -/

/-- `[\n,]`. -/
def isSeparator (u : UInt16) : Bool := u = 10 || u = 0x2c

def entriesOf (text : Text) : List Text := ((text.splitOnP isSeparator).map trim).filter (· ≠ [])

def lastIndexOf (text : Text) (u : UInt16) : Int :=
  match text.reverse.findIdx? (· = u) with
  | none => -1
  | some i => (text.length : Int) - 1 - i

structure Tokens where
  entries : List Text
  overBytes : Bool
  overCount : Bool

/-- The text that is cut at a byte, back to its last separator. -/
def cutText (raw : Text) : Text :=
  let cut := decode ((bytes raw).take MAX_ALLOWLIST_BYTES)
  let last := max (lastIndexOf cut 10) (lastIndexOf cut 0x2c)
  if last = -1 then [] else cut.take last.toNat

def tokens (raw : Text) : Tokens :=
  let overBytes := decide (MAX_ALLOWLIST_BYTES < (bytes raw).length)
  let text := if overBytes then cutText raw else raw
  let all := entriesOf text
  { entries := all.take MAX_ALLOWLIST_ENTRIES
    overBytes
    overCount := decide (MAX_ALLOWLIST_ENTRIES < all.length) }

/-! ## Reading the allowlist -/

structure Allowlist where
  hosts : List Text := []
  list : BlockList := []
  invalid : List Text := []

namespace Allowlist

/-- `matches`. -/
def covers (allow : Allowlist) (address : Text) : Bool :=
  match isIP address with
  | none => false
  | some ip => allow.list.check ip

def empty : Allowlist := {}

/-- One turn of the loop; `none` when the block list throws. -/
def addEntry (allow : Allowlist) (entry : Text) : Option Allowlist :=
  match parseEntry entry with
  | .error _ => some { allow with invalid := allow.invalid ++ [entry] }
  | .ok (.host name) =>
    some { allow with hosts := if allow.hosts.contains name then allow.hosts else allow.hosts ++ [name] }
  | .ok (.ip address family) =>
    (allow.list.addSubnet address family.width family).map fun list => { allow with list }
  | .ok (.cidr address leading family) =>
    (allow.list.addSubnet address leading family).map fun list => { allow with list }

end Allowlist

structure Memo where
  raw : Text
  parsed : Allowlist

def parseAllowlist (memo : Option Memo) (raw : Option Text) : Option (Allowlist × Option Memo) :=
  match raw with
  | none => some (.empty, memo)
  | some raw =>
    if trim raw = [] then some (.empty, memo)
    else
      match memo.filter (·.raw = raw) with
      | some memo => some (memo.parsed, some memo)
      | none =>
        ((tokens raw).entries.foldlM Allowlist.addEntry {}).map fun result => (result, some ⟨raw, result⟩)

def memoAfter (memo : Option Memo) : List (Option Text) → Option (Option Memo)
  | [] => some memo
  | raw :: raws => (parseAllowlist memo raw).bind fun read => memoAfter read.2 raws

structure Refusal where
  entry : Text
  reason : String

def firstRefusal : List Text → Option Refusal
  | [] => none
  | entry :: rest =>
    match parseEntry entry with
    | .error reason => some ⟨entry, reason⟩
    | .ok _ => firstRefusal rest

/-- `validateAllowlist`, with the number of entries. -/
def validateAllowlist (raw : Option Text) : Except Refusal Nat :=
  let text := raw.getD []
  if MAX_ALLOWLIST_BYTES < (bytes text).length then
    .error ⟨[], s!"the list exceeds {MAX_ALLOWLIST_BYTES} bytes"⟩
  else if (tokens text).overCount then .error ⟨[], s!"the list has more than {MAX_ALLOWLIST_ENTRIES} entries"⟩
  else
    match firstRefusal (tokens text).entries with
    | some refusal => .error refusal
    | none => .ok (tokens text).entries.length

/-! ## What an entry stands for -/

def hostOf (entry : Text) : Option Text :=
  match parseEntry entry with
  | .ok (.host name) => some name
  | _ => none

def subnetOf (entry : Text) : Option Subnet :=
  match parseEntry entry with
  | .ok (.ip address family) => (isIP address).map fun ip => ⟨ip, family.width⟩
  | .ok (.cidr address leading _) => (isIP address).map fun ip => ⟨ip, leading⟩
  | _ => none

example : hostOf (units "Db.Internal.") = some (units "db.internal") ∧ hostOf (units "10.0.0.300") = none := by decide

def isValid (entry : Text) : Bool := (parseEntry entry).isOk

def honouring (entries : List Text) : Allowlist where
  hosts := (entries.filterMap hostOf).eraseDups
  list := entries.filterMap subnetOf
  invalid := entries.filter (! isValid ·)

/-! ## What is valid is ASCII -/

def Sound (text : Text) : Prop := ∀ u ∈ text, isSurrogate u = false ∧ u ≠ 0xfffd

theorem sound_unit {u : UInt16} (h : u.toNat < 0xd800) : isSurrogate u = false ∧ u ≠ 0xfffd := by
  have hne : u ≠ 0xfffd := by
    rintro rfl
    revert h
    decide
  refine ⟨?_, hne⟩
  have hlow : ∀ v : UInt16, 0xd800 ≤ v.toNat → decide (v ≤ u) = false := fun v hv =>
    decide_eq_false fun hle => Nat.lt_irrefl _ ((hv.trans (UInt16.le_iff_toNat_le.mp hle)).trans_lt h)
  rw [isSurrogate, isLeading, isTrailing, hlow _ (by decide), hlow _ (by decide)]
  rfl

theorem isDigit_lt {u : UInt16} (h : isDigit u = true) : u.toNat < 0xd800 := by
  rw [isDigit, Bool.and_eq_true, decide_eq_true_eq, decide_eq_true_eq, UInt16.le_iff_toNat_le,
    UInt16.le_iff_toNat_le] at h
  exact h.2.trans_lt (by decide)

theorem Sound.append {s t : Text} (hs : Sound s) (ht : Sound t) : Sound (s ++ t) :=
  List.forall_mem_append.mpr ⟨hs, ht⟩

theorem Sound.of_splitOn {text : Text} {sep : UInt16} (hsep : sep.toNat < 0xd800)
    (h : ∀ piece ∈ text.splitOn sep, Sound piece) : Sound text := by
  intro u hu
  rcases Lib.mem_splitOnP (p := (· == sep)) hu with heq | ⟨piece, hpiece, hu⟩
  · rw [eq_of_beq heq]
    exact sound_unit hsep
  · exact h piece hpiece u hu

theorem octet_sound {text : Text} (h : (octet text).isSome = true) : Sound text := by
  rw [octet] at h
  split at h
  · next hshape => exact fun u hu => sound_unit (isDigit_lt (List.all_eq_true.mp hshape.2.1 u hu))
  · cases h

theorem octets_sound {text : Text} {ns : List Nat} (h : octets text = some ns) : Sound text :=
  .of_splitOn (by decide) fun piece hpiece => octet_sound (Lib.isSome_of_mapM h piece hpiece)

theorem hexDigit_sound {u : UInt16} (h : (Lib.Json.hexDigit u).isSome = true) : isSurrogate u = false ∧ u ≠ 0xfffd := by
  refine sound_unit (Nat.lt_of_not_le fun hle => ?_)
  have hhigh : ∀ v : UInt16, v.toNat < 0xd800 → ¬ u ≤ v := fun v hv hle' =>
    Nat.lt_irrefl _ ((hle.trans (UInt16.le_iff_toNat_le.mp hle')).trans_lt hv)
  rw [Lib.Json.hexDigit] at h
  simp [hhigh] at h

theorem segment_sound {text : Text} (h : (segment text).isSome = true) : Sound text := by
  rw [segment] at h
  split at h
  · rw [Option.isSome_map, Option.isSome_iff_exists] at h
    obtain ⟨digits, hdigits⟩ := h
    exact fun u hu => hexDigit_sound (Lib.isSome_of_mapM hdigits u hu)
  · cases h

theorem segmentsV4_sound {pieces : List Text} {ns : List Nat} (h : segmentsV4 pieces = some ns) :
    ∀ piece ∈ pieces, Sound piece := by
  induction pieces generalizing ns with
  | nil => exact List.forall_mem_nil _
  | cons piece rest ih =>
    cases rest with
    | nil =>
      rw [List.forall_mem_singleton]
      rw [segmentsV4] at h
      split at h
      · next hoctets => exact octets_sound hoctets
      · exact segment_sound (by rw [← Option.isSome_map, h, Option.isSome_some])
    | cons next rest =>
      rw [segmentsV4] at h
      · obtain ⟨n, hn, h⟩ := Option.bind_eq_some_iff.mp h
        obtain ⟨ms, hms, -⟩ := Option.map_eq_some_iff.mp h
        exact List.forall_mem_cons.mpr ⟨segment_sound (by rw [hn, Option.isSome_some]), ih hms⟩
      · exact fun heq => List.cons_ne_nil _ _ heq

theorem splitSegments_sound {text : Text} (h : ∀ piece ∈ splitSegments text, Sound piece) : Sound text := by
  rw [splitSegments] at h
  split at h
  · next hnil => exact hnil ▸ List.forall_mem_nil _
  · exact .of_splitOn (by decide) h

theorem cutAtGap_eq {text front back : Text} (h : cutAtGap text = some (front, back)) :
    text = front ++ [0x3a, 0x3a] ++ back := by
  induction text generalizing front with
  | nil => cases h
  | cons u rest ih =>
    rw [cutAtGap] at h
    split at h
    · next hgap =>
      obtain ⟨rfl, hhead⟩ := hgap
      obtain ⟨tail, rfl⟩ := List.head?_eq_some_iff.mp hhead
      cases h
      rfl
    · obtain ⟨⟨front', back'⟩, hcut, heq⟩ := Option.map_eq_some_iff.mp h
      cases heq
      rw [ih hcut]
      rfl

theorem readSegments_sound {text : Text} {ns : List Nat} (h : readSegments text = some ns) : Sound text := by
  rw [readSegments] at h
  split at h
  · exact splitSegments_sound (segmentsV4_sound h)
  · next front back hcut =>
    obtain ⟨xs, hxs, h⟩ := Option.bind_eq_some_iff.mp h
    obtain ⟨ys, hys, -⟩ := Option.bind_eq_some_iff.mp h
    rw [cutAtGap_eq hcut]
    refine .append (.append (splitSegments_sound fun piece hpiece => ?_) ?_) (splitSegments_sound (segmentsV4_sound hys))
    · exact segment_sound (Lib.isSome_of_mapM hxs piece hpiece)
    · intro u hu
      have heq : u = 0x3a := by simpa using hu
      exact sound_unit (by rw [heq]; decide)

theorem isZone_sound {zone : Text} (h : isZone (zone.dropWhile (· ≠ 0x25)) = true) :
    Sound (zone.dropWhile (· ≠ 0x25)) := by
  have hhead := List.head?_dropWhile_not (fun u : UInt16 => decide (u ≠ 0x25)) zone
  cases hzone : zone.dropWhile (· ≠ 0x25) with
  | nil => exact List.forall_mem_nil _
  | cons u rest =>
    rw [hzone] at h hhead
    rw [isZone, Bool.and_eq_true] at h
    have hu : u = 0x25 := by simpa using hhead
    refine List.forall_mem_cons.mpr ⟨sound_unit (by rw [hu]; decide), fun v hv => ?_⟩
    have hunit := List.all_eq_true.mp h.2 v hv
    refine sound_unit (Nat.lt_of_not_le fun hle => ?_)
    have hhigh : ∀ w : UInt16, w.toNat < 0xd800 → ¬ v ≤ w := fun w hw hle' =>
      Nat.lt_irrefl _ ((hle.trans (UInt16.le_iff_toNat_le.mp hle')).trans_lt hw)
    have hne : ∀ w : UInt16, w.toNat < 0xd800 → v ≠ w := fun w hw heq => hhigh w hw (heq ▸ UInt16.le_refl _)
    simp [isZoneUnit, isDigit, hhigh, hne] at hunit

theorem readIPv6_sound {text : Text} {ip : Ip6} (h : readIPv6 text = some ip) : Sound text := by
  rw [readIPv6] at h
  split at h
  · next hzone =>
    rw [← List.takeWhile_append_dropWhile (p := (· ≠ 0x25)) (l := text)]
    split at h
    · next hsegments => exact .append (readSegments_sound hsegments) (isZone_sound hzone)
    · cases h
  · cases h

theorem isIP_sound {text : Text} {ip : Address} (h : isIP text = some ip) : Sound text := by
  rw [isIP] at h
  split at h
  · next hv4 =>
    rw [readIPv4] at hv4
    split at hv4
    · next hoctets => exact octets_sound hoctets
    · cases hv4
  · obtain ⟨ip, hip, -⟩ := Option.map_eq_some_iff.mp h
    exact readIPv6_sound hip

theorem familyOf_sound {text : Text} {family : Family} (h : familyOf text = some family) : Sound text := by
  obtain ⟨ip, hip, -⟩ := Option.map_eq_some_iff.mp h
  exact isIP_sound hip

theorem sound_stripBrackets {value : Text} (h : Sound (stripBrackets value)) : Sound value := by
  rw [stripBrackets] at h
  split at h
  · next hbrackets =>
    obtain ⟨inner, rfl⟩ := List.head?_eq_some_iff.mp hbrackets.1
    rw [List.drop_one, List.tail_cons] at h
    intro u hu
    rcases List.mem_cons.mp hu with rfl | hu
    · exact sound_unit (by decide)
    · have hne := List.ne_nil_of_mem hu
      rw [List.getLast?_cons_of_ne_nil hne] at hbrackets
      obtain ⟨front, rfl⟩ := List.getLast?_eq_some_iff.mp hbrackets.2
      rw [List.dropLast_concat] at h
      rcases List.mem_append.mp hu with hu | hu
      · exact h u hu
      · rw [List.mem_singleton.mp hu]
        exact sound_unit (by decide)
  · exact h

theorem isLabelUnit_lt {u : UInt16} (h : isLabelUnit u = true) : u.toNat < 0xd800 := by
  refine Nat.lt_of_not_le fun hle => ?_
  have hhigh : ∀ w : UInt16, w.toNat < 0xd800 → ¬ u ≤ w := fun w hw hle' =>
    Nat.lt_irrefl _ ((hle.trans (UInt16.le_iff_toNat_le.mp hle')).trans_lt hw)
  have hne : ∀ w : UInt16, w.toNat < 0xd800 → u ≠ w := fun w hw heq => hhigh w hw (heq ▸ UInt16.le_refl _)
  simp [isLabelUnit, isAlphanumeric, isDigit, hhigh, hne] at h

theorem sound_of_lower {text : Text} (h : ∀ v ∈ text.flatMap lowerUnit, v.toNat < 0xd800) : Sound text := by
  intro u hu
  have hlower : ∀ v ∈ lowerUnit u, v.toNat < 0xd800 := fun v hv => h v (List.mem_flatMap.mpr ⟨u, hu, hv⟩)
  rw [lowerUnit] at hlower
  split at hlower
  · next hupper =>
    rw [Bool.and_eq_true, decide_eq_true_eq, decide_eq_true_eq, UInt16.le_iff_toNat_le, UInt16.le_iff_toNat_le] at hupper
    exact sound_unit (hupper.2.trans_lt (by decide))
  · split at hlower
    · next heq => exact sound_unit (by rw [heq]; decide)
    · split at hlower
      · next heq => exact sound_unit (by rw [heq]; decide)
      · exact sound_unit (hlower u List.mem_cons_self)

theorem parseHost_sound {entry : Text} {parsed : Entry} (h : parseHost entry = .ok parsed) : Sound entry := by
  have hname : ∀ core : Text, (core.flatMap lowerUnit).splitOn 0x2e |>.all isHostLabel → Sound core := by
    intro core hlabels
    refine sound_of_lower fun v hv => ?_
    rcases Lib.mem_splitOnP (p := (· == 0x2e)) hv with heq | ⟨label, hlabel, hv⟩
    · rw [eq_of_beq heq]
      decide
    · have hhost := List.all_eq_true.mp hlabels label hlabel
      rw [isHostLabel, Bool.and_eq_true] at hhost
      exact isLabelUnit_lt (List.all_eq_true.mp hhost.2 v hv)
  rw [parseHost] at h
  generalize hcut : (if entry.getLast? = some 0x2e then entry.dropLast else entry) = core at h
  have hcore : Sound core := by
    dsimp only at h
    split at h
    · cases h
    · split at h
      · cases h
      · next hlabels => exact hname core (not_not.mp hlabels)
  split at hcut
  · next hdot =>
    obtain ⟨front, rfl⟩ := List.getLast?_eq_some_iff.mp hdot
    rw [List.dropLast_concat] at hcut
    exact (hcut ▸ hcore).append (List.forall_mem_singleton.mpr (sound_unit (by decide)))
  · exact hcut ▸ hcore

/-- A valid entry holds no surrogate and no U+FFFD. -/
theorem parseEntry_sound {entry : Text} {parsed : Entry} (h : parseEntry entry = .ok parsed) : Sound entry := by
  rw [parseEntry] at h
  split at h
  · next u prefixText hslash =>
    rw [parseCidr] at h
    split at h
    · cases h
    · next family hfamily =>
      split at h
      · cases h
      · next hdigits =>
        rw [← List.takeWhile_append_dropWhile (p := (· ≠ 0x2f)) (l := entry), hslash]
        refine (sound_stripBrackets (familyOf_sound hfamily)).append (List.forall_mem_cons.mpr ⟨?_, fun v hv => ?_⟩)
        · have hhead := List.head?_dropWhile_not (fun u : UInt16 => decide (u ≠ 0x2f)) entry
          rw [hslash] at hhead
          have hu : u = 0x2f := by simpa using hhead
          exact sound_unit (by rw [hu]; decide)
        · rw [not_not, isDigits, Bool.and_eq_true] at hdigits
          exact sound_unit (isDigit_lt (List.all_eq_true.mp hdigits.2 v hv))
  · split at h
    · next hfamily => exact sound_stripBrackets (familyOf_sound hfamily)
    · exact parseHost_sound h

/-! ## The cut -/

theorem lastIndexOf_spec {text : Text} {u : UInt16} (h : lastIndexOf text u ≠ -1) :
    ∃ m : Nat, lastIndexOf text u = m ∧ text[m]? = some u := by
  rw [lastIndexOf] at h ⊢
  split at h
  · exact absurd rfl h
  · next i hi =>
    obtain ⟨hlt, heq, -⟩ := List.findIdx?_eq_some_iff_getElem.mp hi
    rw [List.length_reverse] at hlt
    refine ⟨text.length - 1 - i, by omega, ?_⟩
    rw [List.getElem_reverse, decide_eq_true_eq] at heq
    rw [List.getElem?_eq_getElem (by omega), heq]

theorem last_spec {text : Text} (h : max (lastIndexOf text 10) (lastIndexOf text 0x2c) ≠ -1) :
    ∃ m : Nat, max (lastIndexOf text 10) (lastIndexOf text 0x2c) = m ∧
      ∃ sep, text[m]? = some sep ∧ isSeparator sep = true := by
  rcases max_choice (lastIndexOf text 10) (lastIndexOf text 0x2c) with heq | heq
  · rw [heq] at h ⊢
    obtain ⟨m, hm, hsep⟩ := lastIndexOf_spec h
    exact ⟨m, hm, _, hsep, by decide⟩
  · rw [heq] at h ⊢
    obtain ⟨m, hm, hsep⟩ := lastIndexOf_spec h
    exact ⟨m, hm, _, hsep, by decide⟩

theorem repaired_separator {u v : UInt16} (h : Repaired u v) : isSeparator u = isSeparator v := by
  rcases h with rfl | ⟨hu, rfl⟩
  · rfl
  · rw [show isSeparator 0xfffd = false by decide, Bool.eq_false_iff]
    intro hsep
    rw [isSeparator, Bool.or_eq_true, decide_eq_true_eq, decide_eq_true_eq] at hsep
    rcases hsep with rfl | rfl <;> exact absurd hu (by decide)

theorem repaired_isTrimmed {u v : UInt16} (h : Repaired u v) : isTrimmed u = isTrimmed v := by
  rcases h with rfl | ⟨hu, rfl⟩
  · rfl
  · rw [show isTrimmed 0xfffd = false by decide, Bool.eq_false_iff]
    intro htrim
    have hbounds : 0xd800 ≤ u.toNat ∧ u.toNat ≤ 0xdfff := by
      rcases Bool.or_eq_true_iff.mp hu with hu | hu
      · exact ⟨(leading_bounds hu).1, (leading_bounds hu).2.trans (by decide)⟩
      · exact ⟨(trailing_bounds hu).1.trans' (by decide), (trailing_bounds hu).2⟩
    simp only [isTrimmed, Bool.or_eq_true, Bool.and_eq_true, decide_eq_true_eq, UInt16.le_iff_toNat_le,
      ← UInt16.toNat_inj, UInt16.reduceToNat] at htrim
    omega

abbrev Alike : Text → Text → Prop := List.Forall₂ Repaired

theorem alike_refl (text : Text) : Alike text text := List.forall₂_same.mpr fun _ _ => .inl rfl

theorem entriesOf_alike {s t : Text} (h : Alike s t) : List.Forall₂ Alike (entriesOf s) (entriesOf t) := by
  have hpieces := Lib.forall₂_splitOnP (fun _ _ hab => repaired_separator hab) h
  have htrimmed : List.Forall₂ Alike ((s.splitOnP isSeparator).map trim) ((t.splitOnP isSeparator).map trim) := by
    refine List.forall₂_map_left_iff.mpr (List.forall₂_map_right_iff.mpr (hpieces.imp fun a b hab => ?_))
    exact Lib.forall₂_rdropWhile (fun _ _ hab => repaired_isTrimmed hab) (Lib.forall₂_dropWhile (fun _ _ hab => repaired_isTrimmed hab) hab)
  refine List.rel_filter (fun a b hab => ?_) htrimmed
  cases hab <;> simp

theorem entriesOf_append {s t : Text} {sep : UInt16} (h : isSeparator sep = true) :
    entriesOf (s ++ sep :: t) = entriesOf s ++ entriesOf t := by
  rw [entriesOf, List.splitOnP_append_cons s t h, List.map_append, List.filter_append]
  rfl

/-- What is read of a cut text are the first entries of the whole one. -/
theorem cutText_entries (raw : Text) : ∃ n, List.Forall₂ Alike ((entriesOf raw).take n) (entriesOf (cutText raw)) := by
  obtain ⟨k, tail, hcut, htail⟩ := decode_take raw MAX_ALLOWLIST_BYTES
  rw [cutText]
  split
  · exact ⟨0, .nil⟩
  · next hlast =>
    obtain ⟨m, hm, sep, hsep, hseparator⟩ := last_spec hlast
    rw [hm, Int.toNat_natCast]
    rw [hcut] at hsep ⊢
    have hfixed : ((toWellFormed raw).take k)[m]? = some sep := by
      by_cases hlt : m < ((toWellFormed raw).take k).length
      · rwa [List.getElem?_append_left hlt] at hsep
      · rw [List.getElem?_append_right (Nat.le_of_not_lt hlt)] at hsep
        have hmem := List.mem_of_getElem? hsep
        rcases htail with rfl | rfl
        · cases hmem
        · rw [List.mem_singleton.mp hmem] at hseparator
          exact absurd hseparator (by decide)
    obtain ⟨hlt, -⟩ := List.getElem?_eq_some_iff.mp hfixed
    have hmk : m < k := (List.length_take ▸ hlt).trans_le (Nat.min_le_left _ _)
    rw [List.getElem?_take_of_lt hmk] at hfixed
    rw [List.take_append_of_le_length (Nat.le_of_lt hlt), List.take_take, Nat.min_eq_left (Nat.le_of_lt hmk)]
    have halike := forall₂_toWellFormed raw
    obtain ⟨hlt, hget⟩ := List.getElem?_eq_some_iff.mp hfixed
    have hraw : m < raw.length := halike.length_eq ▸ hlt
    have hunit := halike.get hraw hlt
    rw [List.get_eq_getElem, List.get_eq_getElem, hget] at hunit
    have hsplit : raw = raw.take m ++ raw[m] :: raw.drop (m + 1) := by
      rw [← List.drop_eq_getElem_cons hraw, List.take_append_drop]
    refine ⟨(entriesOf (raw.take m)).length, ?_⟩
    rw [hsplit, entriesOf_append ((repaired_separator hunit).trans hseparator), ← hsplit, List.take_left]
    exact entriesOf_alike (List.forall₂_take m halike)

theorem tokens_entries (raw : Text) : ∃ n, List.Forall₂ Alike ((entriesOf raw).take n) (tokens raw).entries := by
  rw [tokens]
  dsimp only
  split
  · obtain ⟨n, h⟩ := cutText_entries raw
    refine ⟨min MAX_ALLOWLIST_ENTRIES n, ?_⟩
    rw [← List.take_take]
    exact List.forall₂_take _ h
  · exact ⟨MAX_ALLOWLIST_ENTRIES, List.forall₂_same.mpr fun entry _ => alike_refl entry⟩

theorem alike_parse {s t : Text} (h : Alike s t) : hostOf s = hostOf t ∧ subnetOf s = subnetOf t := by
  have hnone : ∀ text : Text, ¬ Sound text → hostOf text = none ∧ subnetOf text = none := by
    intro text hunsound
    rw [hostOf, subnetOf]
    cases hparse : parseEntry text with
    | error reason => exact ⟨rfl, rfl⟩
    | ok parsed => exact absurd (parseEntry_sound hparse) hunsound
  rcases Lib.forall₂_eq h with rfl | ⟨u, hu, v, hv, hrepaired, hne⟩
  · exact ⟨rfl, rfl⟩
  · -- a unit that is repaired spoils the entry on both sides
    rcases hrepaired with rfl | ⟨hsurrogate, rfl⟩
    · exact absurd rfl hne
    · have hs := hnone s fun hsound => Bool.eq_false_iff.mp (hsound u hu).1 hsurrogate
      have ht := hnone t fun hsound => (hsound _ hv).2 rfl
      exact ⟨hs.1.trans ht.1.symm, hs.2.trans ht.2.symm⟩

/-! ## The loop -/

theorem addSubnet_of_familyOf {address : Text} {family : Family} (h : familyOf address = some family) {leading : Nat}
    (hle : leading ≤ family.width) :
    ∃ ip, isIP address = some ip ∧
      ∀ list : BlockList, list.addSubnet address leading family = some (list ++ [⟨ip, leading⟩]) := by
  obtain ⟨ip, hip, hfamily⟩ := Option.map_eq_some_iff.mp h
  refine ⟨ip, hip, fun list => ?_⟩
  rw [isIP] at hip
  cases hv4 : readIPv4 address with
  | some v4 =>
    rw [hv4] at hip
    cases hip
    cases hfamily
    rw [BlockList.addSubnet, hv4, Option.bind_some]
    exact if_pos hle
  | none =>
    rw [hv4] at hip
    obtain ⟨v6, hv6, rfl⟩ := Option.map_eq_some_iff.mp hip
    cases hfamily
    rw [BlockList.addSubnet, hv6, Option.bind_some]
    exact if_pos hle

/-- The block list takes what was parsed. -/
def Entry.Checked : Entry → Prop
  | ip address family => familyOf address = some family
  | cidr address leading family => familyOf address = some family ∧ leading ≤ family.width
  | host _ => True

theorem parseHost_checked {entry : Text} {parsed : Entry} (h : parseHost entry = .ok parsed) : parsed.Checked := by
  rw [parseHost] at h
  generalize (if entry.getLast? = some 0x2e then entry.dropLast else entry) = core at h
  dsimp only at h
  split at h
  · cases h
  · split at h
    · cases h
    · split at h
      · cases h
      · cases h
        trivial

theorem parseCidr_checked {address prefixText : Text} {parsed : Entry} (h : parseCidr address prefixText = .ok parsed) :
    parsed.Checked := by
  rw [parseCidr] at h
  split at h
  · cases h
  · next family hfamily =>
    split at h
    · cases h
    · dsimp only at h
      split at h
      · cases h
      · next hrange =>
        cases h
        exact ⟨hfamily, Nat.le_of_not_lt fun hlt => hrange (.inr hlt)⟩

theorem parseEntry_checked {entry : Text} {parsed : Entry} (h : parseEntry entry = .ok parsed) : parsed.Checked := by
  rw [parseEntry] at h
  split at h
  · exact parseCidr_checked h
  · split at h
    · next hfamily =>
      cases h
      exact hfamily
    · exact parseHost_checked h

theorem eraseDups_concat (names : List Text) (name : Text) :
    (names ++ [name]).eraseDups =
      if names.eraseDups.contains name then names.eraseDups else names.eraseDups ++ [name] := by
  rw [List.eraseDups_append]
  by_cases hmem : name ∈ names
  · have hnone : [name].removeAll names = [] := by simp [List.removeAll, hmem]
    rw [if_pos (List.contains_iff_mem.mpr (List.mem_eraseDups.mpr hmem)), hnone, List.eraseDups_nil, List.append_nil]
  · have hone : [name].removeAll names = [name] := by simp [List.removeAll, hmem]
    rw [if_neg fun h => hmem (List.mem_eraseDups.mp (List.contains_iff_mem.mp h)), hone]
    rfl

theorem addEntry_honouring (entries : List Text) (entry : Text) :
    (honouring entries).addEntry entry = some (honouring (entries ++ [entry])) := by
  rw [honouring, honouring, List.filterMap_append, List.filterMap_append, List.filter_append, Allowlist.addEntry]
  cases hparse : parseEntry entry with
  | error reason => simp [hostOf, subnetOf, isValid, hparse, Except.isOk, Except.toBool]
  | ok parsed =>
    have hchecked := parseEntry_checked hparse
    cases parsed with
    | host name =>
      have hone : [entry].filterMap hostOf = [name] := by simp [hostOf, hparse]
      rw [hone, eraseDups_concat]
      simp [subnetOf, isValid, hparse, Except.isOk, Except.toBool]
    | ip address family =>
      obtain ⟨ip, hip, hadd⟩ := addSubnet_of_familyOf hchecked (Nat.le_refl _)
      simp [hostOf, subnetOf, isValid, hparse, hip, hadd, Except.isOk, Except.toBool]
    | cidr address leading family =>
      obtain ⟨ip, hip, hadd⟩ := addSubnet_of_familyOf hchecked.1 hchecked.2
      simp [hostOf, subnetOf, isValid, hparse, hip, hadd, Except.isOk, Except.toBool]

/-- The loop never throws. -/
theorem foldlM_addEntry (entries : List Text) : entries.foldlM Allowlist.addEntry {} = some (honouring entries) := by
  induction entries using List.reverseRecOn with
  | nil => rfl
  | append_singleton entries entry ih =>
    rw [List.foldlM_append, ih]
    exact (bind_pure _).trans (addEntry_honouring entries entry)

/-! ## Calls -/

theorem entriesOf_blank {raw : Text} (h : trim raw = []) : entriesOf raw = [] := by
  refine List.filter_eq_nil_iff.mpr fun entry hentry => ?_
  obtain ⟨piece, hpiece, rfl⟩ := List.mem_map.mp hentry
  have hblank : trim piece = [] :=
    trim_eq_nil_iff.mpr fun u hu => trim_eq_nil_iff.mp h u ((Lib.Web.infix_of_mem_splitOnP hpiece).subset hu)
  simp [hblank]

def readEntries (raw : Option Text) : List Text := (tokens (raw.getD [])).entries

def Memo.Sound (memo : Memo) : Prop := memo.parsed = honouring (readEntries (some memo.raw))

theorem parseAllowlist_eq {memo : Option Memo} (hmemo : ∀ m ∈ memo, m.Sound) (raw : Option Text) :
    ∃ memo', parseAllowlist memo raw = some (honouring (readEntries raw), memo') ∧ ∀ m ∈ memo', m.Sound := by
  have hblank : ∀ text, trim text = [] → honouring (readEntries (some text)) = .empty := by
    intro text htext
    obtain ⟨n, hn⟩ := tokens_entries text
    rw [entriesOf_blank htext, List.take_nil, List.forall₂_nil_left_iff] at hn
    rw [readEntries, Option.getD_some, hn]
    rfl
  cases raw with
  | none => exact ⟨memo, by rw [parseAllowlist, ← hblank [] rfl]; rfl, hmemo⟩
  | some raw =>
    rw [parseAllowlist]
    split
    · next htrim => exact ⟨memo, by rw [hblank raw htrim], hmemo⟩
    · split
      · next m hm =>
        obtain ⟨hmem, hraw⟩ := Option.filter_eq_some_iff.mp hm
        have hsound := hmemo m hmem
        rw [Memo.Sound, of_decide_eq_true hraw] at hsound
        refine ⟨some m, by rw [hsound], fun m' hm' => ?_⟩
        cases hm'
        exact hmemo m hmem
      · rw [foldlM_addEntry]
        refine ⟨_, rfl, fun m' hm' => ?_⟩
        cases hm'
        rfl

theorem memoAfter_sound {memo : Option Memo} (hmemo : ∀ m ∈ memo, m.Sound) (raws : List (Option Text)) :
    ∃ memo', memoAfter memo raws = some memo' ∧ ∀ m ∈ memo', m.Sound := by
  induction raws generalizing memo with
  | nil => exact ⟨memo, rfl, hmemo⟩
  | cons raw raws ih =>
    obtain ⟨memo', hread, hmemo'⟩ := parseAllowlist_eq hmemo raw
    rw [memoAfter, hread]
    exact ih hmemo'

theorem firstRefusal_none {entries : List Text} (h : firstRefusal entries = none) : ∀ entry ∈ entries, isValid entry = true := by
  induction entries with
  | nil => exact List.forall_mem_nil _
  | cons entry rest ih =>
    rw [firstRefusal] at h
    split at h
    · cases h
    · next parsed hparse => exact List.forall_mem_cons.mpr ⟨by rw [isValid, hparse]; rfl, ih h⟩

theorem validateAllowlist_ok {raw : Option Text} {count : Nat} (h : validateAllowlist raw = .ok count) :
    readEntries raw = entriesOf (raw.getD []) ∧ count = (entriesOf (raw.getD [])).length ∧
      ∀ entry ∈ entriesOf (raw.getD []), isValid entry = true := by
  rw [validateAllowlist] at h
  split at h
  · cases h
  · next hbytes =>
    split at h
    · cases h
    · next hcount =>
      split at h
      · cases h
      · next hvalid =>
        have hwhole : readEntries raw = entriesOf (raw.getD []) := by
          rw [tokens, decide_eq_false hbytes, if_neg Bool.false_ne_true] at hcount
          rw [readEntries, tokens, decide_eq_false hbytes, if_neg Bool.false_ne_true]
          exact List.take_of_length_le (Nat.le_of_not_lt fun hlt => hcount (decide_eq_true hlt))
        have hread : (tokens (raw.getD [])).entries = entriesOf (raw.getD []) := hwhole
        rw [hread] at h hvalid
        exact ⟨hwhole, (Except.ok.inj h).symm, firstRefusal_none hvalid⟩

/-- **Behind any calls, a text is read without a throw; the hosts and subnets that are honoured are those of
the entries of a prefix of the text, each a whole entry of it. Where the text validates, all of its entries are
honoured and none is reported.** -/
theorem allowlist_reads_whole_entries (calls : List (Option Text)) (raw : Option Text) :
    ∃ memo parsed memo', memoAfter none calls = some memo ∧ parseAllowlist memo raw = some (parsed, memo') ∧
      (∃ n, parsed.hosts = (((entriesOf (raw.getD [])).take n).filterMap hostOf).eraseDups ∧
        parsed.list = ((entriesOf (raw.getD [])).take n).filterMap subnetOf) ∧
      ∀ count, validateAllowlist raw = .ok count →
        count = (entriesOf (raw.getD [])).length ∧ (∀ entry ∈ entriesOf (raw.getD []), isValid entry = true) ∧
          parsed = honouring (entriesOf (raw.getD [])) ∧ parsed.invalid = [] := by
  obtain ⟨memo, hcalls, hmemo⟩ := @memoAfter_sound none (fun m hm => by cases hm) calls
  obtain ⟨memo', hread, -⟩ := parseAllowlist_eq hmemo raw
  refine ⟨memo, _, memo', hcalls, hread, ?_, fun count hvalid => ?_⟩
  · obtain ⟨n, hn⟩ := tokens_entries (raw.getD [])
    refine ⟨n, ?_, ?_⟩
    · exact congrArg List.eraseDups (Lib.filterMap_forall₂ (fun (s t : Text) (hab : Alike s t) => (alike_parse hab).1) hn).symm
    · exact (Lib.filterMap_forall₂ (fun (s t : Text) (hab : Alike s t) => (alike_parse hab).2) hn).symm
  · obtain ⟨hwhole, hcount, hall⟩ := validateAllowlist_ok hvalid
    refine ⟨hcount, hall, by rw [hwhole], ?_⟩
    rw [hwhole, honouring]
    exact List.filter_eq_nil_iff.mpr fun entry hentry => by rw [hall entry hentry]; decide

end Haive.Egress

import Haive.Lib.Units

/-!
# Attachment paths

`shared/src/attachments/paths.ts` and `names.ts`: a path that a browser or an archive names is
reduced to one that is safe below the uploads dir, and a name that is taken is numbered. A name is
stored by one writer and sanitised again by every reader, so it has to come out unchanged:
`Stored` says so, and `attachment_path_stored_iff` when it holds.

A text is a list of UTF-16 code units.
-/

namespace Haive.Attachments

open Lib.Units

abbrev Text := List UInt16

/-! ## `paths.ts` -/

def ATTACHMENT_MAX_SEGMENT_LENGTH : Nat := 200
/-- Directory levels above the file itself. -/
def ATTACHMENT_MAX_PATH_DEPTH : Nat := 16
def ATTACHMENT_MAX_PATH_LENGTH : Nat := 400

def blank : UInt16 := 0x20
def dot : UInt16 := 0x2e
def slash : UInt16 := 0x2f
def backslash : UInt16 := 0x5c
def underscore : UInt16 := 0x5f

/-- `[\w .()\-]`. -/
def isAllowed (u : UInt16) : Bool :=
  (0x30 ≤ u && u ≤ 0x39) || (0x41 ≤ u && u ≤ 0x5a) || (0x61 ≤ u && u ≤ 0x7a) || u = underscore ||
    u = blank || u = dot || u = 0x28 || u = 0x29 || u = 0x2d

/-- `[ .]`, which a segment does not start with. -/
def isLeading (u : UInt16) : Bool := u = blank || u = dot

/-- A segment before it is cut. -/
def cleaned (raw : Text) : Text :=
  trim ((raw.map fun u => if isAllowed u then u else underscore).dropWhile isLeading)

def sanitizeAttachmentSegment (raw : Text) : Text := (cleaned raw).take ATTACHMENT_MAX_SEGMENT_LENGTH

inductive AttachmentPathError
  /-- `attachment path "…" contains a parent-directory segment`. -/
  | parentDirectory
  /-- `attachment path "…" is nested deeper than 16 directories`. -/
  | tooDeep
  /-- `attachment path "…" is longer than 400 characters`. -/
  | tooLong
  /-- `attachment path "…" is longer than 400 characters once a reserved folder in it is renamed`. -/
  | tooLongRenamed
deriving DecidableEq, Repr

/-- `raw.split(/[\\/]/)`. -/
def splitParts (raw : Text) : List Text := raw.splitOnP fun u => u = slash || u = backslash

/-- The parts that name something: not blank and not `.`. -/
def namedParts (raw : Text) : List Text :=
  (splitParts raw).filter fun part => trim part ≠ [] ∧ trim part ≠ [dot]

/-- `segments.join('/')`. -/
def joinSegments (segments : List Text) : Text := [slash].intercalate segments

def sanitizeAttachmentPath (raw : Text) : Except AttachmentPathError Text :=
  if (splitParts raw).any fun part => trim part = [dot, dot] then .error .parentDirectory
  else
    let segments := ((namedParts raw).map sanitizeAttachmentSegment).filter (· ≠ [])
    if segments = [] then .ok (units "file")
    else if ATTACHMENT_MAX_PATH_DEPTH < segments.length - 1 then .error .tooDeep
    else if ATTACHMENT_MAX_PATH_LENGTH < (joinSegments segments).length then .error .tooLong
    else .ok (joinSegments segments)

/-! ## `names.ts` -/

def ATTACHMENT_ARCHIVE_EXTENSIONS : List Text :=
  [units ".tar.gz", units ".tgz", units ".zip", units ".tar"]

def ATTACHMENTS_MANIFEST_NAME : Text := units "_ATTACHMENTS.md"
def PLAN_INPUTS_INDEX_NAME : Text := units "_PLAN_INPUTS.md"
def PLAN_INPUT_SIDECAR_SUFFIX : Text := units ".extracted.md"

def isReservedAttachmentName (name : Text) (atRoot : Bool) : Bool :=
  (atRoot && [ATTACHMENTS_MANIFEST_NAME, PLAN_INPUTS_INDEX_NAME].contains name) ||
    PLAN_INPUT_SIDECAR_SUFFIX.isSuffixOf name

/-- `toLowerCase` on the letters that a segment may have. -/
def toLowerCase (s : Text) : Text := s.map fun u => if 0x41 ≤ u && u ≤ 0x5a then u + 0x20 else u

/-- `s.lastIndexOf('.')`. -/
def lastDot (s : Text) : Option Nat := (s.reverse.findIdx? (· = dot)).map fun i => s.length - 1 - i

def splitAttachmentExtension (base : Text) : Text × Text :=
  match ATTACHMENT_ARCHIVE_EXTENSIONS.find? fun ext =>
      ext.tail.contains dot && ext.length < base.length && ext.isSuffixOf (toLowerCase base) with
  | some ext => (base.take (base.length - ext.length), base.drop (base.length - ext.length))
  | none =>
    match lastDot base with
    | some (i + 1) => (base.take (i + 1), base.drop (i + 1))
    | _ => (base, [])

/-- ` (n)`. -/
def copySuffix (n : Nat) : Text :=
  [blank, 0x28] ++ (Nat.toDigits 10 n).map (fun c => c.toNat.toUInt16) ++ [0x29]

def copyParts (name : Text) (keepExtension : Bool) : Text × Text :=
  if keepExtension then splitAttachmentExtension name else (name, [])

/-- `attachmentCopyName`. The copy numbers are those of a loop that counts up from 2. -/
def attachmentCopyName (name : Text) (n : Nat) (keepExtension : Bool) : Text :=
  let suffix := copySuffix n
  let (stem, ext) := copyParts name keepExtension
  let room := max (ATTACHMENT_MAX_SEGMENT_LENGTH - suffix.length - ext.length) 1
  stem.take room ++ suffix ++ ext

/-- `relPath.split('/')`. -/
def segments (path : Text) : List Text := path.splitOn slash

def reserveAttachmentDirs (relPath : Text) : Except AttachmentPathError Text :=
  let folders := (segments relPath).dropLast
  let leaf := (segments relPath).getLast?.getD []
  if folders = [] then .ok relPath
  else
    let dirs := folders.mapIdx fun index segment =>
      if isReservedAttachmentName segment (index = 0) then attachmentCopyName segment 2 false else segment
    let renamed := joinSegments (dirs ++ [leaf])
    if ATTACHMENT_MAX_PATH_LENGTH < renamed.length then .error .tooLongRenamed else .ok renamed

/-! ## Stored names -/

/-- The name is found again by a reader that sanitises it. -/
def Fixed (segment : Text) : Prop :=
  segment.length ≤ ATTACHMENT_MAX_SEGMENT_LENGTH ∧ sanitizeAttachmentSegment segment = segment

/-- What is asked of a sanitised path and the `n`th copy of its names. -/
structure Stored (path : Text) (n : Nat) (keepExtension : Bool) : Prop where
  relative : path.head? ≠ some slash
  named : ∀ s ∈ segments path, s ≠ [] ∧ s ≠ [dot] ∧ s ≠ [dot, dot] ∧
    s.head? ≠ some dot ∧ s.head? ≠ some blank
  short : ∀ s ∈ segments path, s.length ≤ ATTACHMENT_MAX_SEGMENT_LENGTH
  depth : (segments path).length - 1 ≤ ATTACHMENT_MAX_PATH_DEPTH
  length : path.length ≤ ATTACHMENT_MAX_PATH_LENGTH
  again : sanitizeAttachmentPath path = .ok path
  copies : ∀ s ∈ segments path, Fixed (attachmentCopyName s n keepExtension)
  reserved : ∀ renamed, reserveAttachmentDirs path = .ok renamed →
    ∀ (i : Nat) (s : Text), (segments renamed)[i]? = some s → (segments path)[i]? ≠ some s → Fixed s

def CutsNoBlank (raw : Text) : Prop :=
  ∀ part ∈ namedParts raw, (cleaned part)[ATTACHMENT_MAX_SEGMENT_LENGTH - 1]? ≠ some blank

def LeavesRoom (segment : Text) (n : Nat) (keepExtension : Bool) : Prop :=
  (copySuffix n).length + (copyParts segment keepExtension).2.length < ATTACHMENT_MAX_SEGMENT_LENGTH

/-! ## Units -/

theorem isTrimmed_allowed {u : UInt16} (h : isAllowed u = true) : isTrimmed u = true ↔ u = blank := by
  simp only [isAllowed, isTrimmed, underscore, blank, dot, Bool.or_eq_true, Bool.and_eq_true,
    decide_eq_true_eq, UInt16.le_iff_toNat_le, ← UInt16.toNat_inj, UInt16.toNat_ofNat] at h ⊢
  omega

theorem isAllowed_digit {c : Char} (h : c.isDigit = true) : isAllowed c.toNat.toUInt16 = true := by
  rw [Char.isDigit, Bool.and_eq_true, decide_eq_true_eq, decide_eq_true_eq] at h
  have hlow : 48 ≤ c.toNat := h.1
  have hhigh : c.toNat ≤ 57 := h.2
  have hsmall : c.toNat < 2 ^ 16 := by omega
  have hval : c.toNat.toUInt16.toNat = c.toNat := UInt16.toNat_ofNat_of_lt' hsmall
  simp only [isAllowed, Bool.or_eq_true, Bool.and_eq_true, decide_eq_true_eq, UInt16.le_iff_toNat_le, hval,
    UInt16.toNat_ofNat]
  omega

theorem isLeading_iff {u : UInt16} : isLeading u = false ↔ u ≠ blank ∧ u ≠ dot := by
  simp [isLeading]

/-! ## Segments -/

/-- What the cleaning leaves, cut or not. -/
structure Clean (s : Text) : Prop where
  allowed : ∀ u ∈ s, isAllowed u = true
  starts : ∃ u rest, s = u :: rest ∧ isLeading u = false
  short : s.length ≤ ATTACHMENT_MAX_SEGMENT_LENGTH

theorem Clean.head_not_trimmed {s : Text} (h : Clean s) : ∃ u rest, s = u :: rest ∧
    isTrimmed u = false ∧ isLeading u = false := by
  obtain ⟨u, rest, rfl, hu⟩ := h.starts
  refine ⟨u, rest, rfl, ?_, hu⟩
  rw [Bool.eq_false_iff]
  exact fun htrimmed => (isLeading_iff.mp hu).1
    ((isTrimmed_allowed (h.allowed u List.mem_cons_self)).mp htrimmed)

theorem Clean.trim (h : Clean s) : Clean (trim s) := by
  obtain ⟨u, rest, rfl, hu, hlead⟩ := h.head_not_trimmed
  obtain ⟨rest', hrest⟩ := trim_cons hu rest
  exact ⟨fun v hv => h.allowed v (mem_of_mem_trim hv), ⟨u, rest', hrest, hlead⟩,
    (length_trim_le _).trans h.short⟩

/-- Sanitised again, a segment loses the blanks at its end. -/
theorem Clean.sanitize (h : Clean s) : sanitizeAttachmentSegment s = Lib.Units.trim s := by
  have hmap : (s.map fun u => if isAllowed u then u else underscore) = s := by
    conv_rhs => rw [← List.map_id s]
    exact List.map_congr_left fun u hu => if_pos (h.allowed u hu)
  obtain ⟨u, rest, rfl, -, hlead⟩ := h.head_not_trimmed
  rw [sanitizeAttachmentSegment, cleaned, hmap, List.dropWhile_cons_of_neg (by simp [hlead])]
  exact List.take_of_length_le ((length_trim_le _).trans h.short)

theorem Clean.trim_eq_iff (h : Clean s) : Lib.Units.trim s = s ↔ s.getLast? ≠ some blank := by
  obtain ⟨u, rest, heq, hu, -⟩ := h.head_not_trimmed
  have hfront : s.dropWhile isTrimmed = s := by
    rw [heq]
    exact List.dropWhile_cons_of_neg (by simp [hu])
  have hne : s ≠ [] := by rw [heq]; exact nofun
  rw [Lib.Units.trim, hfront, List.rdropWhile_eq_self_iff, List.getLast?_eq_getLast_of_ne_nil hne]
  have hlast := isTrimmed_allowed (h.allowed _ (List.getLast_mem hne))
  exact ⟨fun hnot heq => hnot hne (hlast.mpr (Option.some.inj heq)),
    fun hnot _ htrimmed => hnot (congrArg some (hlast.mp htrimmed))⟩

theorem Clean.fixed_iff (h : Clean s) : Fixed s ↔ s.getLast? ≠ some blank := by
  rw [Fixed, and_iff_right h.short, h.sanitize, h.trim_eq_iff]

theorem clean_sanitize {raw : Text} (h : sanitizeAttachmentSegment raw ≠ []) :
    Clean (sanitizeAttachmentSegment raw) := by
  generalize hmap : (raw.map fun u => if isAllowed u then u else underscore) = mapped
  have hallowed : ∀ u ∈ mapped, isAllowed u = true := by
    intro u hu
    rw [← hmap] at hu
    obtain ⟨v, -, rfl⟩ := List.mem_map.mp hu
    split
    · assumption
    · rfl
  have hsub : ∀ u ∈ mapped.dropWhile isLeading, isAllowed u = true := fun u hu =>
    hallowed u ((List.dropWhile_suffix isLeading).subset hu)
  have heq : sanitizeAttachmentSegment raw =
      (trim (mapped.dropWhile isLeading)).take ATTACHMENT_MAX_SEGMENT_LENGTH := by
    rw [← hmap]
    rfl
  rw [heq] at h ⊢
  cases hdrop : mapped.dropWhile isLeading with
  | nil =>
    rw [hdrop] at h
    exact absurd rfl h
  | cons u rest =>
    rw [hdrop] at hsub
    have hlead : isLeading u = false := by
      have hhead := List.head_dropWhile_not isLeading (l := mapped) (by rw [hdrop]; exact nofun)
      simpa [hdrop] using hhead
    have hu : isTrimmed u = false := by
      rw [Bool.eq_false_iff]
      exact fun htrimmed => (isLeading_iff.mp hlead).1
        ((isTrimmed_allowed (hsub u List.mem_cons_self)).mp htrimmed)
    obtain ⟨rest', hrest⟩ := trim_cons hu rest
    refine ⟨fun v hv => hsub v (mem_of_mem_trim (List.mem_of_mem_take hv)), ⟨u, rest'.take 199, ?_, hlead⟩,
      List.length_take_le _ _⟩
    rw [hrest]
    rfl

/-- The cut leaves a blank at the end just where one stands before it. -/
theorem cut_blank_iff (raw : Text) : (sanitizeAttachmentSegment raw).getLast? = some blank ↔
    (cleaned raw)[ATTACHMENT_MAX_SEGMENT_LENGTH - 1]? = some blank := by
  rw [sanitizeAttachmentSegment, List.getLast?_take, if_neg (by decide)]
  cases hat : (cleaned raw)[ATTACHMENT_MAX_SEGMENT_LENGTH - 1]? with
  | some u => rw [Option.some_or]
  | none =>
    rw [Option.none_or]
    exact iff_of_false (fun hlast => absurd (trim_last _ _ hlast) (by decide)) nofun

/-! ## Paths of clean segments -/

theorem splitOnP_congr {α : Type} {p q : α → Bool} {l : List α} (h : ∀ a ∈ l, p a = q a) :
    l.splitOnP p = l.splitOnP q := by
  induction l with
  | nil => rfl
  | cons a l ih =>
    rw [List.splitOnP_cons_eq_if_modifyHead, List.splitOnP_cons_eq_if_modifyHead, h a List.mem_cons_self,
      ih fun b hb => h b (List.mem_cons_of_mem a hb)]

theorem mem_joinSegments {segs : List Text} {u : UInt16} (h : u ∈ joinSegments segs) :
    u = slash ∨ ∃ s ∈ segs, u ∈ s := by
  induction segs with
  | nil => cases h
  | cons s rest ih =>
    cases rest with
    | nil => exact .inr ⟨s, List.mem_cons_self, by simpa [joinSegments] using h⟩
    | cons t rest =>
      rw [joinSegments, List.intercalate_cons_cons, List.mem_append, List.mem_append, List.mem_singleton] at h
      rcases h with (h | h) | h
      · exact .inr ⟨s, List.mem_cons_self, h⟩
      · exact .inl h
      · obtain h | ⟨t', ht', h⟩ := ih h
        · exact .inl h
        · exact .inr ⟨t', List.mem_cons_of_mem s ht', h⟩

theorem Clean.no_separator (h : Clean s) : slash ∉ s ∧ backslash ∉ s :=
  ⟨fun hu => absurd (h.allowed _ hu) (by decide), fun hu => absurd (h.allowed _ hu) (by decide)⟩

theorem segments_join {segs : List Text} (hclean : ∀ s ∈ segs, Clean s) (hne : segs ≠ []) :
    segments (joinSegments segs) = segs :=
  List.splitOn_intercalate slash (fun s hs => (hclean s hs).no_separator.1) hne

theorem splitParts_join {segs : List Text} (hclean : ∀ s ∈ segs, Clean s) (hne : segs ≠ []) :
    splitParts (joinSegments segs) = segs := by
  have hsplit : splitParts (joinSegments segs) = segments (joinSegments segs) := by
    rw [splitParts, segments, List.splitOn_eq_splitOnP]
    refine splitOnP_congr fun u hu => ?_
    have hu : u ≠ backslash := by
      obtain rfl | ⟨s, hs, hu⟩ := mem_joinSegments hu
      · decide
      · exact fun heq => (hclean s hs).no_separator.2 (heq ▸ hu)
    rw [decide_eq_false hu, Bool.or_false]
    rfl
  rw [hsplit, segments_join hclean hne]

theorem length_joinSegments_map_le {f : Text → Text} (hf : ∀ s, (f s).length ≤ s.length) (segs : List Text) :
    (joinSegments (segs.map f)).length ≤ (joinSegments segs).length := by
  induction segs with
  | nil => exact Nat.le_refl _
  | cons s rest ih =>
    cases rest with
    | nil => simpa [joinSegments] using hf s
    | cons t rest =>
      have hs := hf s
      simp only [List.map_cons, joinSegments, List.intercalate_cons_cons, List.length_append] at ih ⊢
      omega

theorem Clean.named (h : Clean s) : s ≠ [] ∧ s ≠ [dot] ∧ s ≠ [dot, dot] ∧ s.head? ≠ some dot ∧
    s.head? ≠ some blank := by
  obtain ⟨u, rest, rfl, hu⟩ := h.starts
  obtain ⟨hblank, hdot⟩ := isLeading_iff.mp hu
  exact ⟨nofun, fun heq => hdot (List.cons.inj heq).1, fun heq => hdot (List.cons.inj heq).1,
    fun heq => hdot (Option.some.inj heq), fun heq => hblank (Option.some.inj heq)⟩

/-- The segments of a path that `sanitizeAttachmentPath` answers. -/
structure Segmented (path : Text) (segs : List Text) : Prop where
  joined : path = joinSegments segs
  some_segment : segs ≠ []
  clean : ∀ s ∈ segs, Clean s
  depth : segs.length - 1 ≤ ATTACHMENT_MAX_PATH_DEPTH
  length : path.length ≤ ATTACHMENT_MAX_PATH_LENGTH

theorem Segmented.segments (h : Segmented path segs) : Attachments.segments path = segs := by
  rw [h.joined, segments_join h.clean h.some_segment]

theorem Segmented.again (h : Segmented path segs) :
    sanitizeAttachmentPath path = .ok (joinSegments (segs.map trim)) := by
  have hparts : splitParts path = segs := by rw [h.joined, splitParts_join h.clean h.some_segment]
  have hnamed : namedParts path = segs := by
    rw [namedParts, hparts]
    refine List.filter_eq_self.mpr fun s hs => decide_eq_true ?_
    obtain ⟨hnil, hdot, -⟩ := (h.clean s hs).trim.named
    exact ⟨hnil, hdot⟩
  have hsafe : ((namedParts path).map sanitizeAttachmentSegment).filter (· ≠ []) = segs.map trim := by
    rw [hnamed, List.map_congr_left fun s hs => (h.clean s hs).sanitize]
    refine List.filter_eq_self.mpr fun s hs => decide_eq_true ?_
    obtain ⟨t, ht, rfl⟩ := List.mem_map.mp hs
    exact (h.clean t ht).trim.named.1
  have hshort := (length_joinSegments_map_le length_trim_le segs).trans (h.joined ▸ h.length)
  rw [sanitizeAttachmentPath, hparts, if_neg, hsafe]
  · rw [if_neg (by simpa using h.some_segment), if_neg (by simpa using h.depth), if_neg (Nat.not_lt.mpr hshort)]
  · rw [List.any_eq_true]
    rintro ⟨s, hs, heq⟩
    exact (h.clean s hs).trim.named.2.2.1 (of_decide_eq_true heq)

theorem Segmented.again_iff (h : Segmented path segs) :
    sanitizeAttachmentPath path = .ok path ↔ ∀ s ∈ segs, s.getLast? ≠ some blank := by
  have htrimmed : ∀ s ∈ segs.map trim, Clean s := by
    intro s hs
    obtain ⟨t, ht, rfl⟩ := List.mem_map.mp hs
    exact (h.clean t ht).trim
  rw [h.again, Except.ok.injEq, h.joined]
  have hinj : joinSegments (segs.map trim) = joinSegments segs ↔ segs.map trim = segs := by
    refine ⟨fun heq => ?_, fun heq => by rw [heq]⟩
    rw [← segments_join htrimmed (by simpa using h.some_segment), heq, segments_join h.clean h.some_segment]
  rw [hinj]
  constructor
  · intro heq s hs
    rw [← (h.clean s hs).trim_eq_iff]
    exact List.map_inj_left.mp (heq.trans (List.map_id segs).symm) s hs
  · intro hlast
    conv_rhs => rw [← List.map_id segs]
    exact List.map_congr_left fun s hs => (h.clean s hs).trim_eq_iff.mpr (hlast s hs)

/-- What a sanitised path is made of, and which of its segments end with a blank. -/
theorem sanitizeAttachmentPath_ok (h : sanitizeAttachmentPath raw = .ok path) : ∃ segs, Segmented path segs ∧
    ((∀ s ∈ segs, s.getLast? ≠ some blank) ↔ CutsNoBlank raw) := by
  have hcuts : (∀ s ∈ ((namedParts raw).map sanitizeAttachmentSegment).filter (· ≠ []),
      s.getLast? ≠ some blank) ↔ CutsNoBlank raw := by
    constructor
    · intro hlast part hpart hat
      have hcut := (cut_blank_iff part).mpr hat
      refine hlast _ (List.mem_filter.mpr ⟨List.mem_map_of_mem hpart, decide_eq_true ?_⟩) hcut
      intro hnil
      rw [hnil] at hcut
      cases hcut
    · intro hcuts s hs
      obtain ⟨part, hpart, rfl⟩ := List.mem_map.mp (List.mem_filter.mp hs).1
      exact fun hlast => hcuts part hpart ((cut_blank_iff part).mp hlast)
  have hclean : ∀ s ∈ ((namedParts raw).map sanitizeAttachmentSegment).filter (· ≠ []), Clean s := by
    intro s hs
    obtain ⟨hs, hne⟩ := List.mem_filter.mp hs
    obtain ⟨part, -, rfl⟩ := List.mem_map.mp hs
    exact clean_sanitize (of_decide_eq_true hne)
  rw [sanitizeAttachmentPath] at h
  split at h
  · cases h
  dsimp only at h
  split at h
  next hnone =>
    cases h
    rw [hnone] at hcuts
    refine ⟨[units "file"], ⟨rfl, nofun, ?_, by decide, by decide⟩, iff_of_true ?_ (hcuts.mp nofun)⟩
    · intro s hs
      rw [List.mem_singleton.mp hs]
      have hallowed : (units "file").all isAllowed = true := rfl
      exact ⟨List.all_eq_true.mp hallowed, ⟨_, _, rfl, rfl⟩, by decide⟩
    · intro s hs
      rw [List.mem_singleton.mp hs]
      decide
  next hsome =>
    split at h
    · cases h
    split at h
    · cases h
    next hdeep hlong =>
      cases h
      exact ⟨_, ⟨rfl, hsome, hclean, Nat.not_lt.mp hdeep, Nat.not_lt.mp hlong⟩, hcuts⟩

/-! ## Copies -/

theorem splitAttachmentExtension_spec (hne : name ≠ []) : ∃ stem ext,
    splitAttachmentExtension name = (stem, ext) ∧ stem ≠ [] ∧ stem ++ ext = name := by
  have htake : ∀ i, 0 < i → name.take i ≠ [] := by
    intro i hi htake
    rcases List.take_eq_nil_iff.mp htake with rfl | hnil
    · exact absurd hi (Nat.lt_irrefl 0)
    · exact hne hnil
  rw [splitAttachmentExtension]
  split
  next ext hfind =>
    have hmatch := List.find?_some hfind
    simp only [Bool.and_eq_true, decide_eq_true_eq] at hmatch
    exact ⟨_, _, rfl, htake _ (Nat.sub_pos_of_lt hmatch.1.2), List.take_append_drop _ _⟩
  · split
    · exact ⟨_, _, rfl, htake _ (Nat.succ_pos _), List.take_append_drop _ _⟩
    · exact ⟨_, _, rfl, hne, List.append_nil _⟩

theorem copyParts_spec (hne : name ≠ []) (keepExtension : Bool) : ∃ stem ext,
    copyParts name keepExtension = (stem, ext) ∧ stem ≠ [] ∧ stem ++ ext = name := by
  rw [copyParts]
  split
  · exact splitAttachmentExtension_spec hne
  · exact ⟨_, _, rfl, hne, List.append_nil _⟩

theorem copySuffix_allowed (n : Nat) : ∀ u ∈ copySuffix n, isAllowed u = true := by
  intro u hu
  rw [copySuffix, List.mem_append, List.mem_append, List.mem_singleton] at hu
  rcases hu with (hu | hu) | rfl
  · rcases List.mem_cons.mp hu with rfl | hu
    · rfl
    · rw [List.mem_singleton.mp hu]
      rfl
  · obtain ⟨c, hc, rfl⟩ := List.mem_map.mp hu
    exact isAllowed_digit (Nat.isDigit_of_mem_toDigits (by decide) (by decide) hc)
  · rfl

theorem copySuffix_last (n : Nat) : (copySuffix n).getLast? = some 0x29 := List.getLast?_concat

theorem copyName_eq (hparts : copyParts s keepExtension = (stem, ext)) (n : Nat) :
    attachmentCopyName s n keepExtension =
      stem.take (max (ATTACHMENT_MAX_SEGMENT_LENGTH - (copySuffix n).length - ext.length) 1) ++ copySuffix n ++
        ext := by
  rw [attachmentCopyName, hparts]

theorem Clean.parts (h : Clean s) (keepExtension : Bool) : ∃ u rest ext,
    copyParts s keepExtension = (u :: rest, ext) ∧ isLeading u = false ∧ u :: rest ++ ext = s := by
  obtain ⟨stem, ext, hparts, hne, happ⟩ := copyParts_spec h.named.1 keepExtension
  obtain ⟨u, rest, hs, hlead⟩ := h.starts
  cases stem with
  | nil => exact absurd rfl hne
  | cons v rest' =>
    rw [hs, List.cons_append, List.cons.injEq] at happ
    exact ⟨v, rest', ext, hparts, happ.1 ▸ hlead, by rw [hs, List.cons_append, happ.1, happ.2]⟩

/-- A letter of the stem stays, whatever the number and the extension take. -/
theorem take_room (u : UInt16) (rest : Text) (room : Nat) :
    ∃ rest', (u :: rest).take (max room 1) = u :: rest' := by
  obtain ⟨k, hk⟩ := Nat.exists_eq_succ_of_ne_zero (Nat.lt_of_lt_of_le Nat.zero_lt_one (Nat.le_max_right room 1)).ne'
  exact ⟨rest.take k, by rw [hk, Nat.succ_eq_add_one, List.take_succ_cons]⟩

theorem Clean.copy (h : Clean s) (hroom : LeavesRoom s n keepExtension) :
    Clean (attachmentCopyName s n keepExtension) := by
  obtain ⟨u, rest, ext, hparts, hlead, happ⟩ := h.parts keepExtension
  rw [LeavesRoom, hparts] at hroom
  rw [copyName_eq hparts]
  have hallowed : ∀ v ∈ u :: rest ++ ext, isAllowed v = true := by
    rw [happ]
    exact h.allowed
  refine ⟨fun v hv => ?_, ?_, ?_⟩
  · rcases List.mem_append.mp hv with hv | hv
    · rcases List.mem_append.mp hv with hv | hv
      · exact hallowed v (List.mem_append_left _ (List.mem_of_mem_take hv))
      · exact copySuffix_allowed n v hv
    · exact hallowed v (List.mem_append_right _ hv)
  · obtain ⟨rest', htake⟩ := take_room u rest (ATTACHMENT_MAX_SEGMENT_LENGTH - (copySuffix n).length - ext.length)
    exact ⟨u, rest' ++ copySuffix n ++ ext, by rw [htake]; rfl, hlead⟩
  · dsimp only at hroom
    rw [List.length_append, List.length_append, List.length_take]
    omega

theorem copy_fixed_iff (h : Clean s) (hlast : s.getLast? ≠ some blank) (n : Nat) (keepExtension : Bool) :
    Fixed (attachmentCopyName s n keepExtension) ↔ LeavesRoom s n keepExtension := by
  obtain ⟨u, rest, ext, hparts, -, happ⟩ := h.parts keepExtension
  constructor
  · rintro ⟨hshort, -⟩
    obtain ⟨rest', htake⟩ := take_room u rest (ATTACHMENT_MAX_SEGMENT_LENGTH - (copySuffix n).length - ext.length)
    rw [copyName_eq hparts, htake, List.length_append, List.length_append, List.length_cons] at hshort
    rw [LeavesRoom, hparts]
    dsimp only
    omega
  · intro hroom
    rw [(h.copy hroom).fixed_iff, copyName_eq hparts, List.getLast?_append]
    cases ext with
    | nil =>
      rw [List.getLast?_append, copySuffix_last]
      exact fun heq => absurd (Option.some.inj heq) (by decide)
    | cons v rest' =>
      rw [← happ, List.getLast?_append, List.getLast?_cons, Option.some_or] at hlast
      rwa [List.getLast?_cons, Option.some_or]

/-! ## Reserved folders -/

theorem leavesRoom_folder (s : Text) : LeavesRoom s 2 false := by
  show (copySuffix 2).length + 0 < ATTACHMENT_MAX_SEGMENT_LENGTH
  decide

theorem reserved_fixed (h : Segmented path segs) (hlast : ∀ s ∈ segs, s.getLast? ≠ some blank)
    (hreserve : reserveAttachmentDirs path = .ok renamed) {i : Nat} {s : Text}
    (hnew : (segments renamed)[i]? = some s) (hold : (segments path)[i]? ≠ some s) : Fixed s := by
  rw [reserveAttachmentDirs] at hreserve
  rw [h.segments] at hreserve hold
  dsimp only at hreserve
  split at hreserve
  · cases hreserve
    rw [h.segments] at hnew
    exact absurd hnew hold
  split at hreserve
  · cases hreserve
  cases hreserve
  have hkept : segs.dropLast ++ [segs.getLast?.getD []] = segs := by
    rw [List.getLast?_eq_getLast_of_ne_nil h.some_segment]
    exact List.dropLast_append_getLast h.some_segment
  generalize segs.getLast?.getD [] = leaf at hkept hnew
  generalize segs.dropLast = folders at hkept hnew
  subst hkept
  have hcopy : ∀ t ∈ folders, Clean (attachmentCopyName t 2 false) := fun t ht =>
    (h.clean t (List.mem_append_left _ ht)).copy (leavesRoom_folder t)
  rw [segments_join ?_ (by simp)] at hnew
  · rw [List.getElem?_append, List.length_mapIdx] at hnew
    rw [List.getElem?_append] at hold
    split at hnew
    next hi =>
      rw [if_pos hi] at hold
      rw [List.getElem?_mapIdx, List.getElem?_eq_getElem hi, Option.map_some, Option.some.injEq] at hnew
      rw [List.getElem?_eq_getElem hi] at hold
      have hmem := List.mem_append_left [leaf] (List.getElem_mem hi)
      split at hnew
      · rw [← hnew]
        exact (copy_fixed_iff (h.clean _ hmem) (hlast _ hmem) 2 false).mpr (leavesRoom_folder _)
      · exact absurd (congrArg some hnew) hold
    next hi =>
      rw [if_neg hi] at hold
      exact absurd hnew hold
  · intro t ht
    rcases List.mem_append.mp ht with ht | ht
    · obtain ⟨j, hj, rfl⟩ := List.mem_mapIdx.mp ht
      split
      · exact hcopy _ (List.getElem_mem hj)
      · exact h.clean _ (List.mem_append_left _ (List.getElem_mem hj))
    · exact h.clean t (List.mem_append_right _ ht)

/-- **Paths are safe and found again just when no cut falls behind a blank and every copy leaves room.** -/
theorem attachment_path_stored_iff (raw : Text) (n : Nat) (keepExtension : Bool) (path : Text)
    (h : sanitizeAttachmentPath raw = .ok path) :
    Stored path n keepExtension ↔
      CutsNoBlank raw ∧ ∀ s ∈ segments path, LeavesRoom s n keepExtension := by
  obtain ⟨segs, hsegs, hcuts⟩ := sanitizeAttachmentPath_ok h
  rw [← hcuts, hsegs.segments]
  constructor
  · intro hstored
    have hlast := hsegs.again_iff.mp hstored.again
    refine ⟨hlast, fun s hs => (copy_fixed_iff (hsegs.clean s hs) (hlast s hs) n keepExtension).mp ?_⟩
    exact hstored.copies s (hsegs.segments.symm ▸ hs)
  · rintro ⟨hlast, hroom⟩
    refine ⟨?_, ?_, ?_, ?_, hsegs.length, hsegs.again_iff.mpr hlast, ?_, ?_⟩
    · obtain ⟨s, rest, hcons⟩ := List.exists_cons_of_ne_nil hsegs.some_segment
      obtain ⟨u, tail, hs, -⟩ := (hsegs.clean s (hcons ▸ List.mem_cons_self)).starts
      have hallowed := (hsegs.clean s (hcons ▸ List.mem_cons_self)).allowed u (hs ▸ List.mem_cons_self)
      have hhead : path.head? = some u := by
        rw [hsegs.joined, hcons, hs]
        cases rest <;> rfl
      rw [hhead]
      intro heq
      rw [Option.some.inj heq] at hallowed
      exact absurd hallowed (by decide)
    all_goals rw [hsegs.segments]
    · exact fun s hs => (hsegs.clean s hs).named
    · exact fun s hs => (hsegs.clean s hs).short
    · exact hsegs.depth
    · exact fun s hs => (copy_fixed_iff (hsegs.clean s hs) (hlast s hs) n keepExtension).mpr (hroom s hs)
    · intro renamed hreserve i s hnew hold
      exact reserved_fixed hsegs hlast hreserve hnew (hsegs.segments.symm ▸ hold)

theorem attachment_path_stored_plain :
    sanitizeAttachmentPath (units "/docs\\./ .spec: v2.tar.gz ") = .ok (units "docs/spec_ v2.tar.gz") ∧
      Stored (units "docs/spec_ v2.tar.gz") 2 true :=
  have h : sanitizeAttachmentPath (units "/docs\\./ .spec: v2.tar.gz ") = .ok (units "docs/spec_ v2.tar.gz") := by
    decide
  ⟨h, (attachment_path_stored_iff _ 2 true _ h).mpr
    ⟨by rw [CutsNoBlank]; decide, by simp only [LeavesRoom]; decide⟩⟩

set_option maxRecDepth 20000 in
/-- The cut of a long name leaves the blank that it fell behind, and the next reader trims it. -/
theorem cut_name_not_found : sanitizeAttachmentPath (List.replicate 199 0x61 ++ [blank, 0x62]) =
      .ok (List.replicate 199 0x61 ++ [blank]) ∧
    sanitizeAttachmentPath (List.replicate 199 0x61 ++ [blank]) = .ok (List.replicate 199 0x61) := by
  decide

set_option maxRecDepth 4000 in
/-- An extension is never cut, so a copy may be longer than a segment. -/
example : (attachmentCopyName (units "a." ++ List.replicate 198 0x62) 2 true).length = 204 := by decide

end Haive.Attachments

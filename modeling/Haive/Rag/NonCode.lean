import Haive.Rag.Tsx

/-!
# Masking what is not code

`simpleNonCode` and `maskNonCode` of `_rag-chunkers.ts`. Whatever the syntax, its reader comes to an end with
spans in order, and the masked text differs from the text inside of them only, where it has spaces:
`maskNonCode_shape`.
-/

namespace Haive.Rag

open Lib.Loop Lib.Spans Lib.Units
open Lib (Regex)

/-! ## Go, Rust and Python -/

inductive SimpleSyntax
  | go
  | rust
  | python
  deriving DecidableEq

/-- A code point, as a pattern with the flag `u` takes it. -/
def point (p : Nat → Bool) : Regex UInt16 :=
  .item fun rest => if rest ≠ [] && p (codePoint rest) then pointWidth rest else 0

/-- `[0-9a-fA-F]`. -/
def isHex (u : UInt16) : Bool := isDigit u || (0x41 ≤ u && u ≤ 0x46) || (0x61 ≤ u && u ≤ 0x66)

/-- The pattern of a raw string. -/
def RUST_RAW : Regex UInt16 :=
  .seqs [.opt (exactly "b"), exactly "r", .group 1 (.loop true (some 255) (exactly "#")), .unit (· = 0x22)]

/-- The pattern of a character literal; any other `'` starts a lifetime. -/
def RUST_CHARACTER : Regex UInt16 :=
  .seqs [.unit (· = 0x27),
    .alts [.seq (.unit (· = 0x5c)) (.alts [
        .seqs [exactly "u\x7b", .some1 (.unit fun u => isHex u || u = ch '_'), exactly "\x7d"],
        .seqs [exactly "x", .unit isHex, .unit isHex], point fun c => c ≠ 13 && c ≠ 10]),
      point fun c => c ≠ 0x27 && c ≠ 0x5c && c ≠ 13 && c ≠ 10],
    .unit (· = 0x27)]

def blockCommentEnd (text : Text) (nests : Bool) (depth i : Nat) : Nat :=
  if i < text.length ∧ 0 < depth then
    if nests && startsAt text "/*" i then blockCommentEnd text nests (depth + 1) (i + 2)
    else if startsAt text "*/" i then blockCommentEnd text nests (depth - 1) (i + 2)
    else blockCommentEnd text nests depth (i + 1)
  else i
termination_by text.length - i

def tripleClose (text quotes : Text) (i : Nat) : Nat :=
  if i < text.length then
    if quotes.isPrefixOf (text.drop i) then i
    else tripleClose text quotes (i + if isAt text i '\\' then 2 else 1)
  else i
termination_by text.length - i
decreasing_by split <;> omega

/-- A string or a character, from its quote on; a lifetime of Rust is none. -/
def simpleQuote (text : Text) (lang : SimpleSyntax) (i : Nat) : Scan :=
  let quotes := (List.replicate 3 (slice text i (i + 1))).flatten
  if lang = .python && quotes.isPrefixOf (text.drop i) then
    let stop := min text.length (tripleClose text quotes (i + 3) + 3)
    ([(i, stop)], stop)
  else if lang = .rust && isAt text i '\'' then
    match Regex.matchAt RUST_CHARACTER (slice text i (i + 32)) 0 with
    | none => ([], i + 1)
    | some m => ([(i, i + m.stop)], i + m.stop)
  else ([(i, quotedEnd text i)], quotedEnd text i)

def rustRaw (text : Text) (i : Nat) : Scan :=
  let head := slice text i (i + 260)
  match Regex.matchAt RUST_RAW head 0 with
  | none => ([], i + 1)
  | some m =>
    let hashes := (m.group head 1).getD []
    let stop := ((indexOf text (0x22 :: hashes) (i + m.stop)).map (· + 1 + hashes.length)).getD text.length
    ([(i, stop)], stop)

/-- A turn of the loop of `simpleNonCode`. -/
def simplePiece (text : Text) (lang : SimpleSyntax) (i : Nat) : Scan :=
  if lang = .python && isAt text i '#' || lang ≠ .python && startsAt text "//" i then
    let stop := (lineEnd text i true).getD text.length
    ([(i + if lang = .python then 1 else 0, stop)], stop)
  else if lang ≠ .python && startsAt text "/*" i then
    let stop := blockCommentEnd text (lang = .rust) 1 (i + 2)
    ([(i, stop)], stop)
  else if lang = .rust && (isAt text i 'r' || isAt text i 'b' && isAt text (i + 1) 'r') then rustRaw text i
  else if lang = .go && isAt text i '`' then
    let stop := ((indexOf text [ch '`'] (i + 1)).map (· + 1)).getD text.length
    ([(i, stop)], stop)
  else if isAt text i '"' || isAt text i '\'' then simpleQuote text lang i
  else ([], i + 1)

variable {text : Text} {i : Nat}

theorem blockCommentEnd_bounds {nests : Bool} {depth : Nat} (h : i ≤ text.length) :
    i ≤ blockCommentEnd text nests depth i ∧ blockCommentEnd text nests depth i ≤ text.length := by
  have hpair : ∀ {s : String} {i : Nat}, (units s).length = 2 → startsAt text s i = true → i + 2 ≤ text.length := by
    intro s i hlength hstarts
    rw [← hlength]
    exact startsAt_bounds (List.length_pos_iff.mp (hlength ▸ Nat.two_pos)) hstarts
  fun_induction blockCommentEnd text nests depth i with
  | case1 depth i hlt hopens ih =>
    have hend := ih (hpair rfl ((Bool.and_eq_true _ _).mp hopens).2)
    exact ⟨(Nat.le_add_right _ _).trans hend.1, hend.2⟩
  | case2 depth i hlt hopens hcloses ih =>
    have hend := ih (hpair rfl hcloses)
    exact ⟨(Nat.le_add_right _ _).trans hend.1, hend.2⟩
  | case3 depth i hlt hopens hcloses ih => exact ⟨(Nat.le_succ i).trans (ih hlt.1).1, (ih hlt.1).2⟩
  | case4 depth i hdone => exact ⟨Nat.le_refl _, h⟩

theorem le_tripleClose (text quotes : Text) (i : Nat) : i ≤ tripleClose text quotes i := by
  fun_induction tripleClose text quotes i with
  | case1 => exact Nat.le_refl _
  | case2 i hlt hquotes ih => exact (Nat.le_add_right _ _).trans ih
  | case3 => exact Nat.le_refl _

theorem simpleQuote_moves {lang : SimpleSyntax} (hi : i < text.length) : Moves i text.length (simpleQuote text lang i) := by
  have hslice := fun n => length_slice_le text i (i + n)
  rw [simpleQuote]
  dsimp only
  split
  · have hle := le_tripleClose text (List.replicate 3 (slice text i (i + 1))).flatten (i + 3)
    have hlt : i < min text.length (tripleClose text (List.replicate 3 (slice text i (i + 1))).flatten (i + 3) + 3) := by
      omega
    exact .one hlt (Nat.min_le_left _ _) (Nat.le_refl _) hlt.le (Nat.le_refl _)
  split
  · split
    · exact .none (Nat.lt_succ_self _) hi
    · next m hm =>
      obtain ⟨hstart, hstop⟩ := Regex.matchAt_bounds (Nat.zero_le _) hm
      have hleast : RUST_CHARACTER.least = 3 := by decide
      have hlength := hslice 32
      have hlt : i < i + m.stop := by omega
      exact .one hlt (by omega) (Nat.le_refl _) hlt.le (Nat.le_refl _)
  · obtain ⟨hlt, hle⟩ := quotedEnd_bounds hi
    exact .one hlt hle (Nat.le_refl _) hlt.le (Nat.le_refl _)

theorem rustRaw_moves (hi : i < text.length) : Moves i text.length (rustRaw text i) := by
  rw [rustRaw]
  dsimp only
  split
  · exact .none (Nat.lt_succ_self _) hi
  · next m hm =>
    generalize ((m.group (slice text i (i + 260)) 1).getD []) = hashes
    cases hclose : indexOf text (0x22 :: hashes) (i + m.stop) with
    | none => exact .one hi (Nat.le_refl _) (Nat.le_refl _) hi.le (Nat.le_refl _)
    | some close =>
      obtain ⟨hle, hend⟩ := indexOf_bounds (List.cons_ne_nil _ _) hclose
      rw [List.length_cons] at hend
      have hlt : i < close + 1 + hashes.length := by omega
      exact .one hlt (by dsimp only [Option.map, Option.getD]; omega) (Nat.le_refl _) hlt.le (Nat.le_refl _)

/-- The comment goes on to its line end, which is not its first character. -/
theorem lt_lineEnd {c : Char} (hat : isAt text i c = true) (hc : isLineTerminator true (ch c) = false) :
    i < (lineEnd text i true).getD text.length ∧ (lineEnd text i true).getD text.length ≤ text.length := by
  cases hend : lineEnd text i true with
  | none => exact ⟨lt_length_of_isAt hat, Nat.le_refl _⟩
  | some stop =>
    obtain ⟨hle, hlt, hbreak⟩ := firstAt_spec hend
    have hne : i ≠ stop := by
      rintro rfl
      rw [(of_decide_eq_true hat : text[i]? = some (ch c)), Option.any_some, hc] at hbreak
      cases hbreak
    exact ⟨Nat.lt_of_le_of_ne hle hne, hlt.le⟩

/-- Every turn moves on and keeps its spans in what it read. -/
theorem simplePiece_moves {lang : SimpleSyntax} (hi : i < text.length) : Moves i text.length (simplePiece text lang i) := by
  rw [simplePiece]
  split
  · next hcomment =>
    have hstop : i < (lineEnd text i true).getD text.length ∧ (lineEnd text i true).getD text.length ≤ text.length := by
      rcases (Bool.or_eq_true _ _).mp hcomment with hhash | hslash
      · exact lt_lineEnd ((Bool.and_eq_true _ _).mp hhash).2 (by decide)
      · have hfirst := isAt_of_startsAt ((Bool.and_eq_true _ _).mp hslash).2 (k := 0) (c := '/') rfl
        exact lt_lineEnd hfirst (by decide)
    exact .one hstop.1 hstop.2 (Nat.le_add_right _ _) (by dsimp only; split <;> omega) (Nat.le_refl _)
  split
  · next hblock =>
    have htwo := startsAt_bounds (by decide) ((Bool.and_eq_true _ _).mp hblock).2
    obtain ⟨hle, hend⟩ := @blockCommentEnd_bounds _ _ (lang = .rust) 1 htwo
    have hlt : i < blockCommentEnd text (lang = .rust) 1 (i + 2) := (Nat.lt_add_of_pos_right (by decide)).trans_le hle
    exact .one hlt hend (Nat.le_refl _) hlt.le (Nat.le_refl _)
  split
  · exact rustRaw_moves hi
  split
  · cases hclose : indexOf text [ch '`'] (i + 1) with
    | none => exact .one hi (Nat.le_refl _) (Nat.le_refl _) hi.le (Nat.le_refl _)
    | some close =>
      obtain ⟨hle, hend⟩ := indexOf_bounds (List.cons_ne_nil _ _) hclose
      have hlt : i < close + 1 := (Nat.lt_of_succ_le hle).trans (Nat.lt_succ_self _)
      exact .one hlt hend (Nat.le_refl _) hlt.le (Nat.le_refl _)
  split
  · exact simpleQuote_moves hi
  · exact .none (Nat.lt_succ_self _) hi

def simpleNonCode (text : Text) (lang : SimpleSyntax) : List Span :=
  scan (simplePiece text lang) text.length (fun _ hi => simplePiece_moves hi) ([], 0)

/-! ## The mask -/

inductive MaskSyntax
  | php
  | js
  | script
  | module
  | java
  | simple (lang : SimpleSyntax)
  deriving DecidableEq

def nonCode (U : Unicode) (content : Text) (lang : MaskSyntax) (jsx : JsxFlavour) : List Span :=
  match lang with
  | .php => phpNonCode content
  | .simple lang => simpleNonCode content lang
  | lang => jsNonCode U content (lang = .java) (lang = .script) (lang = .module) jsx

/-- `replace(/[^\r\n\u2028\u2029]/g, ' ')`, for one character. -/
def blanked (u : UInt16) : UInt16 := if isLineEnd u then u else 0x20

def maskNonCode (U : Unicode) (content : Text) (lang : MaskSyntax) (jsx : JsxFlavour) : Text :=
  overlay blanked content 0 (nonCode U content lang jsx)

/-- The loop of the syntax's reader comes to an end with these spans. -/
def NonCodeReturns (U : Unicode) (content : Text) (lang : MaskSyntax) (jsx : JsxFlavour) (spans : List Span) : Prop :=
  match lang with
  | .php => Returns (scanTurn (phpPiece content) content.length) (phpMarkup content 0) spans
  | .simple lang => Returns (scanTurn (simplePiece content lang) content.length) ([], 0) spans
  | lang =>
    Returns (jsTurn U content (lang = .java) (lang = .script) (opensJsx U content (lang = .java) jsx))
      (jsStart content (lang = .java) (lang = .module)) spans

theorem nonCode_returns (U : Unicode) (content : Text) (lang : MaskSyntax) (jsx : JsxFlavour) :
    NonCodeReturns U content lang jsx (nonCode U content lang jsx) := by
  cases lang with
  | php => exact returns_scan (fun _ hi => phpPiece_moves hi) _
  | simple lang => exact returns_scan (fun _ hi => simplePiece_moves hi) _
  | js => exact returns_run _ _
  | script => exact returns_run _ _
  | module => exact returns_run _ _
  | java => exact returns_run _ _

theorem nonCode_ordered (U : Unicode) (content : Text) (lang : MaskSyntax) (jsx : JsxFlavour) :
    Ordered 0 content.length (nonCode U content lang jsx) := by
  cases lang with
  | php =>
    obtain ⟨-, hle, hordered⟩ := @phpMarkup_spec content _ (Nat.zero_le _)
    exact scan_ordered (fun _ hi => phpPiece_moves hi) hordered hle
  | simple lang => exact scan_ordered (fun _ hi => simplePiece_moves hi) (Nat.le_refl 0) (Nat.zero_le _)
  | js => exact jsNonCodeWith_ordered
  | script => exact jsNonCodeWith_ordered
  | module => exact jsNonCodeWith_ordered
  | java => exact jsNonCodeWith_ordered

theorem blanked_eq_iff {u v : UInt16} (hu : isLineEnd u = true) : blanked v = u ↔ v = u := by
  rw [blanked]
  split
  · exact Iff.rfl
  · next hv =>
    constructor
    · rintro rfl
      exact absurd hu (by decide)
    · rintro rfl
      exact absurd hu hv

/-- **The mask keeps the shape of a text: its reader comes to an end with spans in order, the length and the line
ends stay, and only what is in the spans changes, to spaces.** -/
theorem maskNonCode_shape (U : Unicode) (content : Text) (lang : MaskSyntax) (jsx : JsxFlavour) :
    ∃ spans, NonCodeReturns U content lang jsx spans ∧ Ordered 0 content.length spans ∧
      (maskNonCode U content lang jsx).length = content.length ∧
      (∀ (i : Nat) u, isLineEnd u = true → ((maskNonCode U content lang jsx)[i]? = some u ↔ content[i]? = some u)) ∧
      (∀ i : Nat, (∀ span ∈ spans, ¬ span.Holds i) → (maskNonCode U content lang jsx)[i]? = content[i]?) ∧
      ∀ i : Nat, (∃ span ∈ spans, span.Holds i) → ∀ u, content[i]? = some u →
        (maskNonCode U content lang jsx)[i]? = some (if isLineEnd u then u else 0x20) := by
  have hordered := nonCode_ordered U content lang jsx
  have hat := fun i => @getElem?_overlay _ blanked content _ _ hordered i (Nat.zero_le i)
  refine ⟨nonCode U content lang jsx, nonCode_returns U content lang jsx, hordered, length_overlay hordered,
    fun i u hu => ?_, fun i => (hat i).2, fun i hheld u hi => ?_⟩
  · by_cases hheld : ∃ span ∈ nonCode U content lang jsx, span.Holds i
    · have hmasked := (hat i).1 hheld
      rw [Nat.sub_zero] at hmasked
      rw [maskNonCode, hmasked, Option.map_eq_some_iff]
      exact ⟨fun ⟨v, hv, hblank⟩ => ((blanked_eq_iff hu).mp hblank) ▸ hv, fun hv => ⟨u, hv, if_pos hu⟩⟩
    · have hmasked := (hat i).2 fun span hspan hholds => hheld ⟨span, hspan, hholds⟩
      rw [Nat.sub_zero] at hmasked
      rw [maskNonCode, hmasked]
  · have hmasked := (hat i).1 hheld
    rw [Nat.sub_zero, hi] at hmasked
    exact hmasked

end Haive.Rag

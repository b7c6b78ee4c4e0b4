import Haive.Rag.Blocks

/-!
# Functions and classes of a JavaScript file

`jsRanges` of `_rag-chunkers.ts`, which also reads TypeScript and Java: classes, functions and members, each
with the comments right above it. The patterns run over the masked text with the flag `u`, so that a name is
read in code points.
-/

namespace Haive.Rag

open Lib.Spans Lib.Units
open Lib (Found Regex)

section

variable (U : Unicode)

/-! ## Patterns -/

/-- `^` with the flag `m`. -/
def atLine : Regex UInt16 := .assert fun text i => i = 0 || (text[i - 1]?).any isLineEnd

/-- A code point that is none of these characters. -/
def pointNoneOf (s : String) : Regex UInt16 := point fun c => ! (units s).any fun u => u.toNat = c

def JS_NAME : Regex UInt16 := .seq (point (isWordStart U)) (.many (point (isWordChar U)))

def JS_GENERICS : Regex UInt16 :=
  .opt (.seqs [exactly "<", .many (pointNoneOf "()\x7b\x7d;"), exactly ">", spaces])

def JS_MEMBER_START : Regex UInt16 :=
  .seq (.alts [atLine, .assert fun text i => i ≠ 0 && (text[i - 1]?).any (oneOf "\x7b,;\x7d")]) blanks

def JS_KEY : Regex UInt16 :=
  .seqs [
    .alts [.seq (exactly "\"") (.ahead (.seqs [JS_NAME U, exactly "\"", spaces, exactly ":"])),
      .seq (exactly "'") (.ahead (.seqs [JS_NAME U, exactly "'", spaces, exactly ":"])),
      .ahead (.seqs [JS_NAME U, spaces, exactly ":"])],
    .group 1 (JS_NAME U), .opt (.unit (oneOf "\"'"))]

def JS_CONTROL_NAMES : List Text :=
  names ["if", "for", "while", "switch", "catch", "function", "return", "with"]

def TYPE_MEMBER : Regex UInt16 :=
  .seqs [spaces, .opt (.seq (exactly "readonly") spaces1),
    .alts [.seq (.unit fun u => isLetter u || u = ch '_' || u = ch '$') (.many (.unit fun u => isWord u || u = ch '$')),
      .seqs [exactly "'", .many (noneOf "'\n"), exactly "'"],
      .seqs [exactly "\"", .many (noneOf "\"\n"), exactly "\""]],
    spaces, .opt (exactly "?"), spaces, exactly ":"]

/-- `(?:async\s+)?`. -/
def ASYNC : Regex UInt16 := .opt (.seq (exactly "async") spaces1)

/-- The `(` of a parameter list, or one bare parameter up to the brace. -/
def ARROW_HEAD : Regex UInt16 :=
  .alts [exactly "(", .seqs [JS_NAME U, spaces, exactly "=>", spaces, exactly "\x7b"]]

structure JsForm where
  source : Regex UInt16
  arrow : Bool
  member : Bool

def JS_FORMS : List JsForm :=
  [{ source :=
      .seqs [exactly "function", .alts [.seqs [spaces, exactly "*", spaces], spaces1], .group 1 (JS_NAME U), spaces,
        JS_GENERICS, exactly "("]
     arrow := false
     member := false },
   { source :=
      .seqs [.alts [exactly "const", exactly "let", exactly "var"], spaces1, .group 1 (JS_NAME U), spaces,
        .opt (.seq (exactly ":") (.some1 (pointNoneOf "=;\x7b\x7d\n"))), exactly "=", spaces, ASYNC, JS_GENERICS,
        ARROW_HEAD U]
     arrow := true
     member := false },
   { source :=
      .seqs [JS_MEMBER_START,
        .many (.seq (.alts [exactly "static", exactly "async", exactly "get", exactly "set", exactly "public",
          exactly "private", exactly "protected", exactly "readonly", exactly "abstract", exactly "override"]) spaces1),
        .opt (.seq (exactly "*") spaces), .group 1 (JS_NAME U), spaces, JS_GENERICS, exactly "("]
     arrow := false
     member := true },
   { source :=
      .seqs [JS_MEMBER_START, JS_KEY U, spaces, exactly ":", spaces, ASYNC, exactly "function", wordBoundary, spaces,
        .opt (exactly "*"), spaces, .opt (.seq (JS_NAME U) spaces), JS_GENERICS, exactly "("]
     arrow := false
     member := true },
   { source := .seqs [JS_MEMBER_START, JS_KEY U, spaces, exactly ":", spaces, ASYNC, JS_GENERICS, ARROW_HEAD U]
     arrow := true
     member := true }]

def JS_CLASS : Regex UInt16 :=
  .seqs [wordBoundary, exactly "class", spaces1, .group 1 (JS_NAME U),
    .opt (.seqs [spaces1, exactly "extends", spaces1, JS_NAME U]), spaces, exactly "\x7b"]

/-! ## Comments above a construct -/

def DECLARATION_PREFIX : Regex UInt16 :=
  .seq (.some1 (.seqs [wordBoundary,
    .alts [exactly "export", exactly "default", exactly "async", exactly "declare", exactly "abstract"],
    .some1 (.unit isBlank)])) atEnd

def lineStartAt (text : Text) (i : Nat) : Nat := passBack text (fun u => ! isLineTerminator false u) i

def LINE_COMMENT : Regex UInt16 := .seq blanks (exactly "//")

def lineCommentAt (content : Text) (lineStart : Nat) : Option Nat :=
  (Regex.matchAt LINE_COMMENT content lineStart).map fun m => m.stop - 2

theorem passBack_le (text : Text) (p : UInt16 → Bool) (i : Nat) : passBack text p i ≤ i :=
  (List.rdropWhile_prefix _ _).length_le.trans (List.length_take_le _ _)

def prevLineAt (content : Text) (lineAt : Nat) : Nat :=
  lineStartAt content (lineAt - if isAt content (lineAt - 2) '\r' && isAt content (lineAt - 1) '\n' then 2 else 1)

theorem prevLineAt_lt (content : Text) {lineAt : Nat} (h : 0 < lineAt) : prevLineAt content lineAt < lineAt := by
  refine (passBack_le _ _ _).trans_lt ?_
  split <;> omega

def lineRunStart (content : Text) (runStart lineAt : Nat) : Nat :=
  if 2 ≤ lineAt then
    match lineCommentAt content (prevLineAt content lineAt) with
    | none => runStart
    | some prev => lineRunStart content prev (prevLineAt content lineAt)
  else runStart
termination_by lineAt
decreasing_by exact prevLineAt_lt content (by omega)

def lastIndexOf (text : Text) (s : String) : Nat → Option Nat
  | 0 => if startsAt text s 0 then some 0 else none
  | i + 1 => if startsAt text s (i + 1) then some (i + 1) else lastIndexOf text s i

def commentRunStart (content : Text) (start : Nat) (headerAt : Option Nat) : Nat :=
  let declaration := Regex.exec (fun _ => 1) DECLARATION_PREFIX (slice content (start - 64) start) 0
  let stop := passBack content isTrimmed (start - (declaration.map fun m => m.2.stop - m.1).getD 0)
  let runStart :=
    if 2 ≤ stop && startsAt content "*/" (stop - 2) then
      (lastIndexOf content "/*" (stop - 2)).filter fun opens =>
        indexOf content (units "*/") (opens + 2) = some (stop - 2) &&
          trim (slice content (lineStartAt content opens) opens) = []
    else if 0 < stop then
      (lineCommentAt content (lineStartAt content stop)).map fun runStart =>
        lineRunStart content runStart (lineStartAt content stop)
    else none
  match runStart with
  | none => start
  | some runStart => if headerAt = some runStart then start else runStart

/-! ## Ranges -/

structure JsClass where
  name : Text
  start : Nat
  stop : Nat

/-- `classes`. -/
def jsClasses (code : Text) : List JsClass :=
  (Regex.execAll pointWidth (JS_CLASS U) code 0).filterMap fun m =>
    (blockEndFromMatch code m.2.stop).map fun stop => { name := held code m 1, start := m.1, stop }

def jsClassRange (withComments : Nat → Nat) (c : JsClass) : SectionRange where
  sectionId := units "class-" ++ c.name
  start := c.start
  stop := c.stop
  breadcrumb := [units "class " ++ c.name]
  commentStart := some (withComments c.start)

/-- What a match of the form adds. -/
def jsFunction (code : Text) (withComments : Nat → Nat) (classes : List JsClass) (form : JsForm) (m : Nat × Found) :
    Option SectionRange :=
  let name := held code m 1
  let last := m.2.stop - 1
  let brace :=
    if isAt code last '{' then some last
    else bodyAfterParams code last (if form.arrow then ARROW_TAIL else BLOCK_TAIL)
  if JS_CONTROL_NAMES.elem name then none
  else
    brace.bind fun brace =>
      if form.arrow && (Regex.matchAt TYPE_MEMBER code (brace + 1)).isSome then none
      else
        (braceBlockEnd code brace).map fun stop =>
          let start := pass code isTrimmed m.1
          let owner := if form.member then classes.find? fun c => c.start < start && stop ≤ c.stop else none
          { sectionId := units "function-" ++ name
            start
            stop
            breadcrumb := (owner.map fun owner => units "class " ++ owner.name).toList ++ [units "function " ++ name]
            commentStart := some (withComments start) }

def jsRanges (content : Text) (members : Bool) (flavour : MaskSyntax) (jsx : JsxFlavour) : List SectionRange :=
  let code := maskNonCode U content (if members then flavour else .java) jsx
  let header := pass content isTrimmed 0
  let headerAt := if header < content.length then some header else none
  let withComments := fun start => if members then commentRunStart content start headerAt else start
  let classes := jsClasses U code
  classes.map (jsClassRange withComments) ++
    ((JS_FORMS U).filter fun form => ! (form.member && ! members)).flatMap fun form =>
      (Regex.execAll pointWidth form.source code 0).filterMap (jsFunction code withComments classes form)

end

/-! ## Ids -/

variable {U : Unicode}

/-- A pattern of code points that does not take `~` takes no unit of that value: those of a pair are surrogates. -/
theorem within_point {q : Nat → Bool} (h : q 0x7e = false) : (point q).Within (· ≠ ch '~') := by
  intro rest a ha
  beta_reduce at ha
  split at ha
  · next hrest =>
    have hpoint := ((Bool.and_eq_true _ _).mp hrest).2
    rintro rfl
    rcases rest with - | ⟨u, - | ⟨v, tail⟩⟩
    · cases ha
    · cases List.mem_singleton.mp ha
      exact Bool.eq_false_iff.mp h hpoint
    · by_cases hpair : isPair u v = true
      · rw [pointWidth, if_pos hpair] at ha
        rw [isPair, Bool.and_eq_true, Bool.and_eq_true, Bool.and_eq_true] at hpair
        rcases List.mem_cons.mp ha with rfl | ha
        · exact absurd (of_decide_eq_true hpair.1.1) (by decide)
        · cases List.mem_singleton.mp ha
          exact absurd (of_decide_eq_true hpair.2.1) (by decide)
      · rw [pointWidth, if_neg hpair] at ha
        cases List.mem_singleton.mp ha
        rw [codePoint, if_neg hpair] at hpoint
        exact Bool.eq_false_iff.mp h hpoint
  · cases ha

theorem name_within : (JS_NAME U).Within (· ≠ ch '~') := ⟨within_point rfl, within_point rfl⟩

theorem jsClassName_within : (JS_CLASS U).GroupWithin (· ≠ ch '~') 1 := List.forall_mem_singleton.mpr name_within

theorem jsFormName_within {form : JsForm} (hform : form ∈ JS_FORMS U) : form.source.GroupWithin (· ≠ ch '~') 1 := by
  have hforms : ∀ form ∈ JS_FORMS U, form.source.bodies 1 = [JS_NAME U] :=
    List.forall_mem_cons.mpr ⟨rfl, List.forall_mem_cons.mpr ⟨rfl, List.forall_mem_cons.mpr ⟨rfl,
      List.forall_mem_cons.mpr ⟨rfl, List.forall_mem_singleton.mpr rfl⟩⟩⟩⟩
  rw [Regex.GroupWithin, hforms form hform]
  exact List.forall_mem_singleton.mpr name_within

theorem jsFunction_plain {code : Text} {withComments : Nat → Nat} {classes : List JsClass} {form : JsForm}
    {m : Nat × Found} {r : SectionRange} (hform : form ∈ JS_FORMS U) (hm : form.source.matchAt code m.1 = some m.2)
    (hr : jsFunction code withComments classes form m = some r) : Plain r.sectionId := by
  rw [jsFunction, ite_eq_iff] at hr
  obtain ⟨-, hnone⟩ | ⟨-, hr⟩ := hr
  · cases hnone
  obtain ⟨brace, -, hr⟩ := Option.bind_eq_some_iff.mp hr
  rw [ite_eq_iff] at hr
  obtain ⟨-, hnone⟩ | ⟨-, hr⟩ := hr
  · cases hnone
  obtain ⟨stop, -, rfl⟩ := Option.map_eq_some_iff.mp hr
  have hfunction : Plain (units "function-") := plain_of_all (by decide)
  exact hfunction.append (plain_held (jsFormName_within hform) hm)

theorem jsRanges_plain (U : Unicode) (content : Text) (members : Bool) (flavour : MaskSyntax) (jsx : JsxFlavour) :
    PlainRanges (jsRanges U content members flavour jsx) := by
  intro r hr
  rcases List.mem_append.mp hr with hclass | hfunction
  · obtain ⟨c, hc, rfl⟩ := List.mem_map.mp hclass
    obtain ⟨m, hm, hclass⟩ := List.mem_filterMap.mp hc
    obtain ⟨stop, -, rfl⟩ := Option.map_eq_some_iff.mp hclass
    have hid : Plain (units "class-") := plain_of_all (by decide)
    exact hid.append (plain_held jsClassName_within (Regex.execAll_matchAt hm).2)
  · obtain ⟨form, hform, hr⟩ := List.mem_flatMap.mp hfunction
    obtain ⟨m, hm, hr⟩ := List.mem_filterMap.mp hr
    exact jsFunction_plain (List.mem_of_mem_filter hform) (Regex.execAll_matchAt hm).2 hr

end Haive.Rag

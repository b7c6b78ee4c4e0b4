import Haive.Lib.JsonOutline
import Haive.Lib.JsonText

/-!
# Scalars of a frontmatter

`_yaml-scalar.ts`: `yamlScalar` writes a value plain where the YAML parser reads it back as itself, and as a
JSON string elsewhere; `readFrontmatterFields` reads the fields of a block line by line and trims each value
as JavaScript does, which is more than the spaces and tabs that YAML takes off. `scalar_reads_back_iff`: a
value comes back just when it is quoted or has nothing to trim.
-/

namespace Haive.Steps.Frontmatter

open Lib.Units
open Lib (Json)

abbrev Text := List UInt16

/-! ## Writing -/

inductive YamlVersion
  | v1_1
  | v1_2

section

-- What `parse(doc, { version })?.v` is where it is a string; `none` too where it throws.
variable (parsedV : YamlVersion → Text → Option Text)

/-- Both versions read the value back from `v: value`. -/
def isPlain (value : Text) : Bool :=
  [YamlVersion.v1_1, .v1_2].all fun version => parsedV version (units "v: " ++ value) = some value

def yamlScalar (value : Text) : Text := if isPlain parsedV value then value else Json.quoted value

end

/-! ## Reading -/

def isWrapped (quote : UInt16) (raw : Text) : Bool :=
  2 ≤ raw.length && raw.head? = some quote && raw.getLast? = some quote

/-- `raw.slice(1, -1)`. -/
def inner (raw : Text) : Text := (raw.drop 1).dropLast

/-- `replace(/''/g, "'")`. -/
def undouble : Text → Text
  | u :: v :: rest => if u = 0x27 ∧ v = 0x27 then u :: undouble rest else u :: undouble (v :: rest)
  | rest => rest

def unquoteYamlScalar (raw : Text) : Text :=
  if isWrapped 0x22 raw then
    match (Json.parse raw).bind Json.str? with
    | some decoded => decoded
    | none => inner raw
  else if isWrapped 0x27 raw then undouble (inner raw)
  else raw

def isSign (u : UInt16) : Bool := u = 0x2b || u = 0x2d

/-- `[1-9]`. -/
def isIndentDigit (u : UInt16) : Bool := 0x31 ≤ u && u ≤ 0x39

/-- `BLOCK_SCALAR_HEADER`. -/
def isBlockScalarHeader (raw : Text) : Bool :=
  match raw with
  | [] => false
  | u :: indicators =>
    (u = 0x7c || u = 0x3e) &&
      match indicators with
      | [] => true
      | [a] => isSign a || isIndentDigit a
      | [a, b] => (isSign a && isIndentDigit b) || (isIndentDigit a && isSign b)
      | _ => false

def dropReturn (line : Text) : Text := if line.getLast? = some 13 then line.dropLast else line

/-- `split(/\r?\n/)`. -/
def splitLines (text : Text) : List Text :=
  (text.splitOn 10).dropLast.map dropReturn ++ (text.splitOn 10).getLast?.toList

/-- `split(/\n{2,}/)`. -/
def splitParagraphs : Text → List Text
  | [] => [[]]
  | u :: rest =>
    if u = 10 ∧ rest.head? = some 10 then [] :: splitParagraphs (rest.dropWhile (· = 10))
    else (splitParagraphs rest).modifyHead (u :: ·)
termination_by text => text.length
decreasing_by
  · exact Nat.lt_succ_of_le (List.dropWhile_suffix _).length_le
  · exact Nat.lt_succ_self _

/-- `paragraph.split('\n').join(' ')`. -/
def joinLines (paragraph : Text) : Text := paragraph.map fun u => if u = 10 then 0x20 else u

def blockScalarText (body : List Text) (folded : Bool) : Text :=
  let content := body.filter (trim · ≠ [])
  let indents := content.map fun line => (line.takeWhile isTrimmed).length
  match indents.min? with
  | none => []
  | some indent =>
    let text := [10].intercalate (body.map fun line => (line.drop indent).rdropWhile isTrimmed)
    if folded then [10].intercalate (((splitParagraphs text).map fun paragraph => trim (joinLines paragraph)).filter (· ≠ []))
    else trim text

/-- A record of fields. `fields[key] = value` does nothing for `__proto__`. -/
abbrev Fields := Text → Option Text

def Fields.empty : Fields := fun _ => none

def Fields.set (fields : Fields) (key value : Text) : Fields := fun name =>
  if name = key ∧ key ≠ units "__proto__" then some value else fields name

def isBody (line : Text) : Bool := line.head?.any isTrimmed || trim line = []

/-- The loop over the lines, the next `skip` of which a block scalar has taken. -/
def readLines : Nat → Option Text → Fields → List Text → Fields
  | _, _, fields, [] => fields
  | skip + 1, parent, fields, _ :: rest => readLines skip parent fields rest
  | 0, parent, fields, line :: rest =>
    let trimmed := trim line
    if trimmed = [] ∨ trimmed.head? = some 0x23 then readLines 0 parent fields rest
    else if 0x3a ∉ line then readLines 0 parent fields rest
    else
      let key := trim (line.takeWhile (· ≠ 0x3a))
      let raw := trim ((line.dropWhile (· ≠ 0x3a)).drop 1)
      if key = [] then readLines 0 parent fields rest
      else if line.head?.any isTrimmed then
        match parent with
        | some parent => readLines 0 (some parent) (fields.set (parent ++ 0x2e :: key) (unquoteYamlScalar raw)) rest
        | none => readLines 0 none fields rest
      else if isBlockScalarHeader raw then
        let body := rest.takeWhile isBody
        readLines body.length none (fields.set key (blockScalarText body (raw.head? = some 0x3e))) rest
      else readLines 0 (if raw = [] then some key else none) (fields.set key (unquoteYamlScalar raw)) rest

def readFrontmatterFields (block : Text) : Fields := readLines 0 none .empty (splitLines block)

/-! ## Trimmed texts -/

/-- White space at neither end. -/
structure Tight (s : Text) : Prop where
  head : ∀ u ∈ s.head?, isTrimmed u = false
  last : ∀ u ∈ s.getLast?, isTrimmed u = false

theorem tight_nil : Tight [] := by
  constructor <;> (intro u hu; cases hu)

theorem trim_of_tight {s : Text} (h : Tight s) : trim s = s := by
  have hfront : s.dropWhile isTrimmed = s := by
    rw [List.dropWhile_eq_self_iff]
    intro hpos htrim
    have hhead := h.head _ (List.head?_eq_getElem? ▸ List.getElem?_eq_getElem hpos)
    rw [htrim] at hhead
    cases hhead
  rw [trim, hfront, List.rdropWhile_eq_self_iff]
  intro hne htrim
  rw [h.last _ (List.getLast?_eq_some_getLast hne)] at htrim
  cases htrim

theorem tight_trim (s : Text) : Tight (trim s) := by
  refine ⟨fun u hu => ?_, fun u hu => ?_⟩
  · obtain ⟨tail, htail⟩ := List.rdropWhile_prefix isTrimmed (s.dropWhile isTrimmed)
    have hhead := List.head?_dropWhile_not isTrimmed s
    rw [← htail, List.head?_append, show ((s.dropWhile isTrimmed).rdropWhile isTrimmed).head? = some u from hu,
      Option.some_or] at hhead
    exact Bool.not_eq_true' _ ▸ (by simpa using hhead)
  · exact trim_last s u hu

theorem Tight.between {a b : Text} (ha : Tight a) (hb : Tight b) (hane : a ≠ []) (hbne : b ≠ []) (middle : Text) :
    Tight (a ++ middle ++ b) := by
  refine ⟨fun u hu => ha.head u ?_, fun u hu => hb.last u ?_⟩
  · rwa [List.append_assoc, List.head?_append_of_ne_nil _ hane] at hu
  · rwa [List.getLast?_append_of_ne_nil _ hbne] at hu

theorem tight_intercalate {texts : List Text} (h : ∀ s ∈ texts, s ≠ [] ∧ Tight s) : Tight ([10].intercalate texts) := by
  induction texts with
  | nil => exact tight_nil
  | cons s texts ih =>
    obtain ⟨⟨hne, hs⟩, hrest⟩ := List.forall_mem_cons.mp h
    cases texts with
    | nil => rwa [List.intercalate_singleton]
    | cons s' texts =>
      rw [List.intercalate_cons_cons]
      refine hs.between (ih hrest) hne ?_ [10]
      have hne' := (hrest s' List.mem_cons_self).1
      cases texts with
      | nil => rwa [List.intercalate_singleton]
      | cons s'' texts =>
        rw [List.intercalate_cons_cons, List.append_assoc]
        exact List.append_ne_nil_of_left_ne_nil hne' _

/-- What a block scalar holds has no white space at its ends. -/
theorem tight_blockScalarText (body : List Text) (folded : Bool) : Tight (blockScalarText body folded) := by
  rw [blockScalarText]
  dsimp only
  split
  · exact tight_nil
  · split
    · refine tight_intercalate fun s hs => ?_
      obtain ⟨hmem, hne⟩ := List.mem_filter.mp hs
      obtain ⟨paragraph, -, rfl⟩ := List.mem_map.mp hmem
      exact ⟨of_decide_eq_true hne, tight_trim _⟩
    · exact tight_trim _

/-! ## Quotes -/

theorem unquote_quoted (s : Text) : unquoteYamlScalar (Json.quoted s) = s := by
  have hwrapped : isWrapped 0x22 (Json.quoted s) = true := by
    have hlast : (Json.quoted s).getLast? = some 0x22 := by
      rw [Json.quoted, ← List.cons_append, List.getLast?_concat]
    rw [isWrapped, hlast, Json.quoted, List.length_cons, List.length_append, List.length_singleton]
    simp
  have hparse : Json.parse (Json.quoted s) = some (.str s) := by
    obtain ⟨m, hruns, hbehind⟩ := (Json.reads_quoted s).2 []
    rw [Json.parse, show (Json.quoted s).foldlM Json.step ⟨[], .value⟩ = some m from hruns]
    exact hbehind.finish
  rw [unquoteYamlScalar, if_pos hwrapped, hparse]
  rfl

theorem tight_quoted (s : Text) : Tight (Json.quoted s) := by
  refine ⟨fun u hu => ?_, fun u hu => ?_⟩
  · cases hu
    decide
  · rw [Json.quoted, ← List.cons_append, List.getLast?_concat] at hu
    cases hu
    decide

theorem length_inner {quote : UInt16} {raw : Text} (h : isWrapped quote raw = true) :
    (inner raw).length + 2 = raw.length := by
  rw [isWrapped, Bool.and_eq_true, Bool.and_eq_true, decide_eq_true_eq] at h
  rw [inner, List.length_dropLast, List.length_drop]
  omega

theorem length_undouble_le (s : Text) : (undouble s).length ≤ s.length := by
  fun_induction undouble s with
  | case1 u v rest hquotes ih =>
    simp only [List.length_cons]
    omega
  | case2 u v rest hplain ih =>
    simp only [List.length_cons] at ih ⊢
    omega
  | case3 rest => exact Nat.le_refl _

theorem length_of_accepts {back text s : Text} {escape : Json.Escape}
    (h : Json.Accepts ⟨[], .string none back escape⟩ text (.str s)) : s.length + 1 ≤ back.length + text.length := by
  induction text generalizing back escape with
  | nil => cases h
  | cons u text ih =>
    obtain ⟨m, hstep, hrest⟩ := Json.accepts_cons.mp h
    unfold Json.step at hstep
    dsimp only at hstep
    cases escape with
    | none =>
      dsimp only at hstep
      split at hstep
      · -- the closing quote
        cases hstep
        obtain ⟨hs, -⟩ := Json.accepts_read_nil hrest
        cases hs
        rw [List.length_reverse, List.length_cons]
        omega
      · split at hstep
        · cases hstep
          have hle := ih hrest
          rw [List.length_cons]
          omega
        · split at hstep
          · cases hstep
          · cases hstep
            have hle := ih hrest
            rw [List.length_cons] at hle ⊢
            omega
    | backslash =>
      dsimp only at hstep
      split at hstep
      · cases hstep
        have hle := ih hrest
        rw [List.length_cons]
        omega
      · obtain ⟨v, -, rfl⟩ := Option.map_eq_some_iff.mp hstep
        have hle := ih hrest
        rw [List.length_cons] at hle ⊢
        omega
    | hex digits =>
      dsimp only at hstep
      obtain ⟨d, -, hm⟩ := Option.map_eq_some_iff.mp hstep
      split at hm
      · cases hm
        have hle := ih hrest
        rw [List.length_cons] at hle ⊢
        omega
      · cases hm
        have hle := ih hrest
        rw [List.length_cons]
        omega

theorem length_decoded {raw s : Text} (hwrapped : isWrapped 0x22 raw = true) (h : Json.parse raw = some (.str s)) :
    s.length < raw.length := by
  rw [isWrapped, Bool.and_eq_true, Bool.and_eq_true, decide_eq_true_eq, decide_eq_true_eq] at hwrapped
  obtain ⟨text, rfl⟩ := List.head?_eq_some_iff.mp hwrapped.1.2
  obtain ⟨m, hstep, hrest⟩ := Json.accepts_cons.mp (Json.parse_eq_some.mp h)
  cases hstep
  have hle := length_of_accepts hrest
  rw [List.length_nil, Nat.zero_add] at hle
  rw [List.length_cons]
  omega

/-- Unquoting leaves a text alone or makes it shorter. -/
theorem unquote_cases (raw : Text) :
    unquoteYamlScalar raw = raw ∨ (unquoteYamlScalar raw).length < raw.length := by
  rw [unquoteYamlScalar]
  split
  · next hwrapped =>
    have hinner := length_inner hwrapped
    right
    split
    · next s hs =>
      obtain ⟨j, hparse, hstr⟩ := Option.bind_eq_some_iff.mp hs
      obtain rfl : j = .str s := by
        cases j <;> cases hstr
        rfl
      exact length_decoded hwrapped hparse
    · omega
  · split
    · next hwrapped =>
      have hinner := length_inner hwrapped
      have hle := length_undouble_le (inner raw)
      right
      omega
    · exact .inl rfl

/-! ## Lines -/

theorem splitLines_append (a b : Text) : splitLines (a ++ 10 :: b) = (a.splitOn 10).map dropReturn ++ splitLines b := by
  have hsplit : (a ++ 10 :: b).splitOn 10 = a.splitOn 10 ++ b.splitOn 10 := List.splitOnP_append_cons a b (by simp)
  have hne : b.splitOn 10 ≠ [] := List.splitOnP_ne_nil _ _
  rw [splitLines, hsplit, List.dropLast_append_of_ne_nil hne, List.getLast?_append_of_ne_nil _ hne, List.map_append,
    List.append_assoc, splitLines]

theorem splitOn_of_not_mem {line : Text} (h : (10 : UInt16) ∉ line) : line.splitOn 10 = [line] :=
  List.splitOnP_eq_singleton fun u hu => by
    have hne : u ≠ 10 := fun heq => h (heq ▸ hu)
    simpa using hne

def newLine (returns : Bool) : Text := if returns then [13, 10] else [10]

def blockAround (returns : Bool) (before : Option Text) (line : Text) (after : Option Text) : Text :=
  before.elim [] (· ++ newLine returns) ++ line ++ after.elim [] (newLine returns ++ ·)

/-- The line stands among the lines of the block, but for a carriage return at its end that goes with the
break. -/
theorem splitLines_blockAround (returns : Bool) (before after : Option Text) {line : Text} (hline : (10 : UInt16) ∉ line) :
    ∃ above line', splitLines (blockAround returns before line after) = above ++ line' :: after.elim [] splitLines ∧
      (line' = line ∨ line = line' ++ [13]) := by
  have hbelow : ∃ line', splitLines (line ++ after.elim [] (newLine returns ++ ·)) = line' :: after.elim [] splitLines ∧
      (line' = line ∨ line = line' ++ [13]) := by
    cases after with
    | none =>
      rw [Option.elim_none, Option.elim_none, List.append_nil, splitLines, splitOn_of_not_mem hline]
      exact ⟨line, rfl, .inl rfl⟩
    | some after =>
      rw [Option.elim_some, Option.elim_some]
      cases returns with
      | false =>
        rw [newLine, if_neg Bool.false_ne_true, List.singleton_append, splitLines_append, splitOn_of_not_mem hline]
        refine ⟨dropReturn line, rfl, ?_⟩
        rw [dropReturn]
        split
        · next hlast =>
          obtain ⟨front, rfl⟩ := List.getLast?_eq_some_iff.mp hlast
          rw [List.dropLast_concat]
          exact .inr rfl
        · exact .inl rfl
      | true =>
        have hjoin : line ++ (newLine true ++ after) = (line ++ [13]) ++ 10 :: after := by simp [newLine]
        have hreturn : (10 : UInt16) ∉ line ++ [13] := by simp [hline]
        rw [hjoin, splitLines_append, splitOn_of_not_mem hreturn, List.map_singleton, dropReturn, List.getLast?_concat,
          if_pos rfl, List.dropLast_concat]
        exact ⟨line, rfl, .inl rfl⟩
  obtain ⟨line', hbelow, hline'⟩ := hbelow
  rw [blockAround, List.append_assoc]
  cases before with
  | none => exact ⟨[], line', hbelow, hline'⟩
  | some before =>
    rw [Option.elim_some]
    have hjoin : ∃ front, before ++ newLine returns = front ++ [10] := by
      cases returns with
      | false => exact ⟨before, rfl⟩
      | true => exact ⟨before ++ [13], by simp [newLine]⟩
    obtain ⟨front, hfront⟩ := hjoin
    rw [hfront, List.append_assoc, List.singleton_append, splitLines_append, hbelow]
    exact ⟨_, line', rfl, hline'⟩

/-! ## The loop -/

/-- What a line can do, whatever the parent and the record: nothing, write a field of the parent, or write a
field of its own, with a block scalar or a parent for the lines under it. -/
inductive Turn (line : Text) (rest : List Text) : Prop
  | quiet (h : ∀ parent fields, readLines 0 parent fields (line :: rest) = readLines 0 parent fields rest)
  | nested (name value : Text) (hbody : isBody line = true)
      (hsome : ∀ p fields, readLines 0 (some p) fields (line :: rest) =
        readLines 0 (some p) (fields.set (p ++ 0x2e :: name) value) rest)
      (hnone : ∀ fields, readLines 0 none fields (line :: rest) = readLines 0 none fields rest)
  | field (skip : Nat) (parent' : Option Text) (key value : Text) (hbody : isBody line = false)
      (hskip : skip ≤ (rest.takeWhile isBody).length)
      (h : ∀ parent fields, readLines 0 parent fields (line :: rest) = readLines skip parent' (fields.set key value) rest)

theorem turn (line : Text) (rest : List Text) : Turn line rest := by
  by_cases hblank : trim line = [] ∨ (trim line).head? = some 0x23
  · exact .quiet fun parent fields => by simp only [readLines, if_pos hblank]
  by_cases hcolon : 0x3a ∉ line
  · exact .quiet fun parent fields => by simp only [readLines, if_neg hblank, if_pos hcolon]
  by_cases hkey : trim (line.takeWhile (· ≠ 0x3a)) = []
  · exact .quiet fun parent fields => by simp only [readLines, if_neg hblank, if_neg hcolon, if_pos hkey]
  cases hindent : line.head?.any isTrimmed with
  | true =>
    refine .nested (trim (line.takeWhile (· ≠ 0x3a))) (unquoteYamlScalar (trim ((line.dropWhile (· ≠ 0x3a)).drop 1)))
      (by rw [isBody, hindent]; rfl) (fun p fields => ?_) fun fields => ?_
    · simp only [readLines, if_neg hblank, if_neg hcolon, if_neg hkey, hindent, if_pos]
    · simp only [readLines, if_neg hblank, if_neg hcolon, if_neg hkey, hindent, if_pos]
  | false =>
    have hbody : isBody line = false := by
      rw [isBody, hindent, Bool.false_or, decide_eq_false_iff_not]
      exact fun hnil => hblank (.inl hnil)
    cases hheader : isBlockScalarHeader (trim ((line.dropWhile (· ≠ 0x3a)).drop 1)) with
    | true =>
      refine .field (rest.takeWhile isBody).length none (trim (line.takeWhile (· ≠ 0x3a)))
        (blockScalarText (rest.takeWhile isBody) ((trim ((line.dropWhile (· ≠ 0x3a)).drop 1)).head? = some 0x3e))
        hbody (Nat.le_refl _) fun parent fields => ?_
      simp only [readLines, if_neg hblank, if_neg hcolon, if_neg hkey, hindent, Bool.false_eq_true, if_false, hheader,
        if_pos]
    | false =>
      refine .field 0 (if trim ((line.dropWhile (· ≠ 0x3a)).drop 1) = [] then some (trim (line.takeWhile (· ≠ 0x3a))) else none)
        (trim (line.takeWhile (· ≠ 0x3a))) (unquoteYamlScalar (trim ((line.dropWhile (· ≠ 0x3a)).drop 1))) hbody
        (Nat.zero_le _) fun parent fields => ?_
      simp only [readLines, if_neg hblank, if_neg hcolon, if_neg hkey, hindent, Bool.false_eq_true, if_false, hheader]

theorem readLines_skip (skip : Nat) (parent : Option Text) (fields : Fields) (lines : List Text) :
    readLines skip parent fields lines = readLines 0 parent fields (lines.drop skip) := by
  induction lines generalizing skip with
  | nil => cases skip <;> rfl
  | cons line rest ih =>
    cases skip with
    | zero => rfl
    | succ skip => exact ih skip

theorem set_apply (fields : Fields) (key value name : Text) :
    fields.set key value name = (Fields.empty.set key value name).or (fields name) := by
  simp only [Fields.set]
  split <;> rfl

/-- What the lines write is put over what the record holds. -/
theorem readLines_fields (skip : Nat) (parent : Option Text) (fields : Fields) (lines : List Text) (key : Text) :
    readLines skip parent fields lines key = (readLines skip parent .empty lines key).or (fields key) := by
  induction lines generalizing skip parent fields with
  | nil => cases skip <;> rfl
  | cons line rest ih =>
    cases skip with
    | succ skip => exact ih skip parent fields
    | zero =>
      cases turn line rest with
      | quiet h => rw [h, h, ih]
      | nested name value hbody hsome hnone =>
        cases parent with
        | none => rw [hnone, hnone, ih]
        | some p => rw [hsome, hsome, ih, ih _ _ (Fields.empty.set _ _), set_apply, Option.or_assoc]
      | field skip parent' name value hbody hskip h =>
        rw [h, h, ih, ih _ _ (Fields.empty.set _ _), set_apply, Option.or_assoc]

/-- A line that belongs to no body is reached, whatever stands over it. -/
theorem readLines_append {line : Text} (hline : isBody line = false) (below above : List Text) (skip : Nat)
    (parent : Option Text) (fields : Fields) (hskip : skip ≤ above.length) :
    ∃ parent' fields', readLines skip parent fields (above ++ line :: below) = readLines 0 parent' fields' (line :: below) := by
  induction above generalizing skip parent fields with
  | nil =>
    rw [List.length_nil, Nat.le_zero] at hskip
    exact ⟨parent, fields, by rw [hskip]; rfl⟩
  | cons first above ih =>
    cases skip with
    | succ skip => exact ih skip parent fields (Nat.le_of_succ_le_succ hskip)
    | zero =>
      rw [List.cons_append]
      cases turn first (above ++ line :: below) with
      | quiet h =>
        rw [h]
        exact ih 0 parent fields (Nat.zero_le _)
      | nested name value hbody hsome hnone =>
        cases parent with
        | none =>
          rw [hnone]
          exact ih 0 none fields (Nat.zero_le _)
        | some p =>
          rw [hsome]
          exact ih 0 (some p) _ (Nat.zero_le _)
      | field skip parent' name value hbody hskip h =>
        rw [h]
        refine ih skip parent' _ (hskip.trans ?_)
        rw [List.takeWhile_append]
        split
        · rw [List.takeWhile_cons_of_neg (Bool.eq_false_iff.mp hline), List.append_nil]
        · exact (List.takeWhile_prefix _).length_le

/-- Without a parent, the lines of a body say nothing. -/
theorem readLines_body (fields : Fields) {body : List Text} (hbody : ∀ line ∈ body, isBody line = true) (rest : List Text) :
    readLines 0 none fields (body ++ rest) = readLines 0 none fields rest := by
  induction body with
  | nil => rfl
  | cons line body ih =>
    obtain ⟨hline, hbody⟩ := List.forall_mem_cons.mp hbody
    rw [List.cons_append]
    cases turn line (body ++ rest) with
    | quiet h => rw [h, ih hbody]
    | nested name value _ _ hnone => rw [hnone, ih hbody]
    | field skip parent' name value hno _ _ =>
      rw [hline] at hno
      cases hno

/-- A parent does not write its own name. -/
theorem readLines_own (p : Text) (lines : List Text) :
    readLines 0 (some p) .empty lines p = readLines 0 none .empty lines p := by
  induction lines with
  | nil => rfl
  | cons line rest ih =>
    cases turn line rest with
    | quiet h => rw [h, h, ih]
    | nested name value _ hsome hnone =>
      have hne : p ≠ p ++ 0x2e :: name := by simp
      have hunset : Fields.empty.set (p ++ 0x2e :: name) value p = none := if_neg fun h => hne h.1
      rw [hsome, hnone, readLines_fields, hunset, Option.or_none, ih]
    | field skip parent' name value _ _ h => rw [h, h]

/-! ## A key and its value -/

/-- A name that a line can give a value to. -/
structure FieldKey where
  text : Text
  nonempty : text ≠ []
  tight : Tight text
  noColon : (0x3a : UInt16) ∉ text
  noBreak : (10 : UInt16) ∉ text
  noComment : text.head? ≠ some 0x23
  settable : text ≠ units "__proto__"

/-- `key: scalar`. -/
def FieldKey.line (key : FieldKey) (scalar : Text) : Text := key.text ++ units ": " ++ scalar

def readScalar (scalar : Text) (below : List Text) : Text :=
  if isBlockScalarHeader (trim scalar) then
    blockScalarText (below.takeWhile isBody) ((trim scalar).head? = some 0x3e)
  else unquoteYamlScalar (trim scalar)

theorem isBody_line (key : FieldKey) (scalar : Text) : isBody (key.line scalar) = false ∧
    trim (key.line scalar) ≠ [] ∧ (trim (key.line scalar)).head? ≠ some 0x23 := by
  obtain ⟨u, rest, hkey⟩ := List.exists_cons_of_ne_nil key.nonempty
  have hu : isTrimmed u = false := key.tight.head u (by rw [hkey]; rfl)
  have hline : key.line scalar = u :: (rest ++ units ": " ++ scalar) := by
    rw [FieldKey.line, hkey]
    rfl
  obtain ⟨rest', htrim⟩ := trim_cons hu (rest ++ units ": " ++ scalar)
  have hcomment := key.noComment
  rw [hkey] at hcomment
  rw [isBody, hline, htrim]
  refine ⟨?_, List.cons_ne_nil _ _, hcomment⟩
  rw [List.head?_cons, Option.any_some, hu]
  rfl

theorem readLines_line (key : FieldKey) (scalar : Text) (parent : Option Text) (fields : Fields) (below : List Text) :
    ∃ skip parent', readLines 0 parent fields (key.line scalar :: below) =
        readLines skip parent' (fields.set key.text (readScalar scalar below)) below ∧
      ((skip = 0 ∧ parent' = some key.text) ∨ (skip ≤ (below.takeWhile isBody).length ∧ parent' = none)) := by
  obtain ⟨hbody, hblank, hcomment⟩ := isBody_line key scalar
  rw [isBody, Bool.or_eq_false_iff] at hbody
  have hstop : ∀ u ∈ key.text, decide (u ≠ 0x3a) = true := fun u hu =>
    decide_eq_true fun heq => key.noColon (heq ▸ hu)
  have hsplit : key.line scalar = key.text ++ 0x3a :: 0x20 :: scalar := by
    rw [FieldKey.line, List.append_assoc]
    rfl
  have hname : (key.line scalar).takeWhile (· ≠ 0x3a) = key.text := by
    rw [hsplit, List.takeWhile_append_of_pos hstop, List.takeWhile_cons_of_neg (by simp), List.append_nil]
  have hraw : trim (((key.line scalar).dropWhile (· ≠ 0x3a)).drop 1) = trim scalar := by
    rw [hsplit, List.dropWhile_append_of_pos hstop, List.dropWhile_cons_of_neg (by simp), List.drop_one, List.tail_cons,
      trim, List.dropWhile_cons_of_pos (by decide), trim]
  have hcolon : ¬ 0x3a ∉ key.line scalar := not_not.mpr (by rw [hsplit]; simp)
  have hread : readLines 0 parent fields (key.line scalar :: below) =
      if isBlockScalarHeader (trim scalar) then
        readLines (below.takeWhile isBody).length none
          (fields.set key.text (blockScalarText (below.takeWhile isBody) ((trim scalar).head? = some 0x3e))) below
      else
        readLines 0 (if trim scalar = [] then some key.text else none)
          (fields.set key.text (unquoteYamlScalar (trim scalar))) below := by
    simp only [readLines, if_neg fun h : _ ∨ _ => h.elim hblank hcomment, if_neg hcolon, hname, hraw,
      trim_of_tight key.tight, if_neg key.nonempty, hbody.1, Bool.false_eq_true, if_false]
  rw [hread, readScalar]
  by_cases hheader : isBlockScalarHeader (trim scalar) = true
  · rw [if_pos hheader, if_pos hheader]
    exact ⟨_, none, rfl, .inr ⟨Nat.le_refl _, rfl⟩⟩
  · rw [if_neg hheader, if_neg hheader]
    by_cases hnil : trim scalar = []
    · rw [if_pos hnil]
      exact ⟨0, some key.text, rfl, .inl ⟨rfl, rfl⟩⟩
    · rw [if_neg hnil]
      exact ⟨0, none, rfl, .inr ⟨Nat.zero_le _, rfl⟩⟩

theorem trim_concat_return (s : Text) : trim (s ++ [13]) = trim s := by
  rw [trim, trim, List.dropWhile_append]
  split
  · next hnil =>
    rw [List.isEmpty_iff.mp hnil]
    rfl
  · exact List.rdropWhile_concat_pos _ _ _ (by decide)

/-- The value of a key is what its line says, where nothing under the line says it again. -/
theorem read_line (key : FieldKey) {scalar : Text} (hscalar : (10 : UInt16) ∉ scalar) (returns : Bool)
    (before after : Option Text) (hafter : ∀ text ∈ after, readFrontmatterFields text key.text = none) :
    readFrontmatterFields (blockAround returns before (key.line scalar) after) key.text =
      some (readScalar scalar (after.elim [] splitLines)) := by
  have hbreak : (10 : UInt16) ∉ key.line scalar := by
    rw [FieldKey.line, List.mem_append, List.mem_append]
    exact fun h => h.elim (fun h => h.elim key.noBreak (by decide)) hscalar
  obtain ⟨above, line', hlines, hline'⟩ := splitLines_blockAround returns before after hbreak
  obtain ⟨scalar', rfl, hsame⟩ : ∃ scalar', line' = key.line scalar' ∧
      ∀ below, readScalar scalar' below = readScalar scalar below := by
    rcases hline' with rfl | hline'
    · exact ⟨scalar, rfl, fun _ => rfl⟩
    · -- the value ends with the carriage return, since the colon and the space do not
      rcases List.eq_nil_or_concat scalar with rfl | ⟨front, u, rfl⟩
      · rw [FieldKey.line, List.append_nil] at hline'
        have hlast := congrArg List.getLast? hline'
        rw [List.getLast?_concat, List.getLast?_append_of_ne_nil _ (by decide)] at hlast
        exact absurd hlast (by decide)
      · rw [List.concat_eq_append, FieldKey.line, ← List.append_assoc] at hline'
        obtain ⟨hfront, hu⟩ := List.append_inj' hline' rfl
        cases hu
        refine ⟨front, hfront.symm, fun below => ?_⟩
        rw [readScalar, readScalar, List.concat_eq_append, trim_concat_return]
  have hunset : readLines 0 none .empty (after.elim [] splitLines) key.text = none := by
    cases after with
    | none => rfl
    | some text => exact hafter text rfl
  rw [readFrontmatterFields, hlines, ← hsame]
  generalize after.elim [] splitLines = below at hunset ⊢
  obtain ⟨parent, fields, hreach⟩ := readLines_append (isBody_line key scalar').1 below above 0 none .empty (Nat.zero_le _)
  obtain ⟨skip, parent', hread, hcases⟩ := readLines_line key scalar' parent fields below
  have hset : fields.set key.text (readScalar scalar' below) key.text = some (readScalar scalar' below) :=
    if_pos ⟨rfl, key.settable⟩
  have hrest : readLines skip parent' .empty below key.text = none := by
    rcases hcases with ⟨rfl, rfl⟩ | ⟨hskip, rfl⟩
    · rw [readLines_own, hunset]
    · -- the lines that the block scalar took say nothing on their own
      have hbody : ∀ line ∈ below.take skip, isBody line = true := by
        intro line hmem
        rw [← List.takeWhile_append_dropWhile (p := isBody) (l := below), List.take_append_of_le_length hskip] at hmem
        exact List.mem_takeWhile_imp (List.mem_of_mem_take hmem)
      rw [readLines_skip, ← readLines_body .empty hbody, List.take_append_drop, hunset]
  rw [hreach, hread, readLines_fields, hrest, Option.none_or, hset]

/-! ## The round trip -/

theorem lineFeed_not_mem_unitText (u : UInt16) : (10 : UInt16) ∉ Json.unitText u := by
  rw [Json.unitText]
  split
  · next letter hletter =>
    have hall : Json.shortEscapes.all (fun p => decide (p.2 ≠ 10)) = true := by decide
    have hne := of_decide_eq_true (List.all_eq_true.mp hall _ (Json.mem_of_shortEscape hletter))
    simp [hne.symm]
  · next hnone =>
    split
    · have hhex : ∀ n < 16, Json.hexChar n ≠ 10 := by decide
      have hlt := u.toNat_lt
      intro hmem
      rcases List.mem_cons.mp hmem with heq | hmem
      · exact absurd heq (by decide)
      rcases List.mem_cons.mp hmem with heq | hmem
      · exact absurd heq (by decide)
      obtain ⟨n, hn, heq⟩ := List.mem_map.mp hmem
      refine hhex n ?_ heq
      simp only [List.mem_cons, List.not_mem_nil, or_false] at hn
      omega
    · intro hmem
      rw [← List.mem_singleton.mp hmem] at hnone
      exact absurd hnone (by decide)

theorem lineFeed_not_mem_quoted (s : Text) : (10 : UInt16) ∉ Json.quoted s := by
  have hbody : (10 : UInt16) ∉ Json.stringBody s := by
    induction s using Lib.Json.stringBody.induct with
    | case1 => exact List.not_mem_nil
    | case2 u => exact lineFeed_not_mem_unitText u
    | case3 u v rest hpair ih =>
      rw [Json.stringBody, if_pos hpair]
      rw [Bool.and_eq_true] at hpair
      intro hmem
      rcases List.mem_cons.mp hmem with rfl | hmem
      · exact absurd hpair.1 (by decide)
      rcases List.mem_cons.mp hmem with rfl | hmem
      · exact absurd hpair.2 (by decide)
      · exact ih hmem
    | case4 u v rest hpair ih =>
      rw [Json.stringBody, if_neg hpair, List.mem_append]
      exact fun hmem => hmem.elim (lineFeed_not_mem_unitText u) ih
  rw [Json.quoted, List.mem_cons, List.mem_append, List.mem_singleton]
  exact fun h => h.elim (by decide) fun h => h.elim hbody (by decide)

/-- A scalar that is plain and on one line: it has no line feed and opens with no quote and no block scalar. -/
structure PlainScalar (value : Text) : Prop where
  oneLine : (10 : UInt16) ∉ value
  unquoted : value.head? ≠ some 0x22 ∧ value.head? ≠ some 0x27
  noHeader : value.head? ≠ some 0x7c ∧ value.head? ≠ some 0x3e

theorem readScalar_quoted (value : Text) (below : List Text) : readScalar (Json.quoted value) below = value := by
  have hheader : isBlockScalarHeader (Json.quoted value) = false := rfl
  rw [readScalar, trim_of_tight (tight_quoted value), if_neg (Bool.eq_false_iff.mp hheader), unquote_quoted]

theorem readScalar_plain {value : Text} (h : PlainScalar value) (below : List Text) :
    readScalar value below = value ↔ trim value = value := by
  constructor
  · intro hread
    rw [readScalar] at hread
    split at hread
    · rw [← hread]
      exact trim_of_tight (tight_blockScalarText _ _)
    · rcases unquote_cases (trim value) with hsame | hlt
      · exact hsame.symm.trans hread
      · rw [hread] at hlt
        exact absurd (length_trim_le value) (Nat.not_le.mpr hlt)
  · intro htrim
    have hheader : isBlockScalarHeader value = false := by
      obtain ⟨hbar, hfold⟩ := h.noHeader
      cases value with
      | nil => rfl
      | cons u rest =>
        rw [List.head?_cons, Ne, Option.some.injEq] at hbar hfold
        unfold isBlockScalarHeader
        simp [hbar, hfold]
    rw [readScalar, htrim, if_neg (Bool.eq_false_iff.mp hheader), unquoteYamlScalar, isWrapped, isWrapped,
      decide_eq_false h.unquoted.1, decide_eq_false h.unquoted.2]
    simp

section

variable {parsedV : YamlVersion → Text → Option Text}

/-- **A value comes back through `yamlScalar` and the reader just when a YAML version does not read it back as
plain, so that it is quoted, or when it has no white space around it that JavaScript trims.** -/
theorem scalar_reads_back_iff
    (hparse : ∀ version value, parsedV version (units "v: " ++ value) = some value → PlainScalar value)
    (key : FieldKey) (value : Text) (returns : Bool) (before after : Option Text)
    (hafter : ∀ text ∈ after, readFrontmatterFields text key.text = none) :
    readFrontmatterFields (blockAround returns before (key.line (yamlScalar parsedV value)) after) key.text = some value ↔
      isPlain parsedV value = false ∨ trim value = value := by
  rw [yamlScalar]
  cases hplain : isPlain parsedV value with
  | false =>
    rw [if_neg Bool.false_ne_true, read_line key (lineFeed_not_mem_quoted value) returns before after hafter,
      readScalar_quoted]
    exact iff_of_true rfl (.inl rfl)
  | true =>
    have hscalar := hparse .v1_1 value (of_decide_eq_true (List.all_eq_true.mp hplain .v1_1 (by simp)))
    rw [if_pos rfl, read_line key hscalar.oneLine returns before after hafter, Option.some.injEq,
      readScalar_plain hscalar]
    exact ⟨.inr, fun h => h.resolve_left Bool.noConfusion⟩

end

namespace Sample

/-- A no-break space and a letter: to YAML both are content. -/
def noBreakSpace : Text := [0xa0, 0x78]

/-- The parser as far as it is asked. -/
def parsedV (_ : YamlVersion) (doc : Text) : Option Text :=
  if doc = units "v: " ++ noBreakSpace then some noBreakSpace else none

theorem parsedV_plain (version : YamlVersion) (value : Text) (h : parsedV version (units "v: " ++ value) = some value) :
    PlainScalar value := by
  rw [parsedV] at h
  split at h
  · cases h
    exact ⟨by decide, by decide, by decide⟩
  · cases h

def description : FieldKey where
  text := units "description"
  nonempty := by decide
  tight := ⟨fun u hu => by cases hu; decide, fun u hu => by cases hu; decide⟩
  noColon := by decide
  noBreak := by decide
  noComment := by decide
  settable := by decide

end Sample

theorem scalar_reads_back_iff_noBreakSpace :
    readFrontmatterFields (blockAround false none
        (Sample.description.line (yamlScalar Sample.parsedV Sample.noBreakSpace)) none) (units "description") =
      some Sample.noBreakSpace ↔
    isPlain Sample.parsedV Sample.noBreakSpace = false ∨ trim Sample.noBreakSpace = Sample.noBreakSpace :=
  scalar_reads_back_iff Sample.parsedV_plain Sample.description Sample.noBreakSpace false none none
    (fun text h => by cases h)

/-- The space is written plain and trimmed away. -/
theorem noBreakSpace_lost :
    ¬ ∀ parsedV : YamlVersion → Text → Option Text,
      (∀ version value, parsedV version (units "v: " ++ value) = some value → PlainScalar value) →
      ∀ (key : FieldKey) (value : Text) (returns : Bool) (before after : Option Text),
        (∀ text ∈ after, readFrontmatterFields text key.text = none) →
        readFrontmatterFields (blockAround returns before (key.line (yamlScalar parsedV value)) after) key.text =
          some value := by
  intro hall
  have hread := hall Sample.parsedV Sample.parsedV_plain Sample.description Sample.noBreakSpace false none none
    (fun text h => by cases h)
  have hplain : yamlScalar Sample.parsedV Sample.noBreakSpace = Sample.noBreakSpace := by decide
  rw [hplain, read_line Sample.description (by decide) false none none (fun text h => by cases h)] at hread
  exact absurd hread (by decide)

end Haive.Steps.Frontmatter

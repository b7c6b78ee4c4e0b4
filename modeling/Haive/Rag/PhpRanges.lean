import Haive.Rag.Blocks

/-!
# Functions of a PHP file

`phpRanges` of `_rag-chunkers.ts`: the docblock of the file, the functions and the methods with the class that
each sits in. The patterns run over the masked text, case does not matter to them.
-/

namespace Haive.Rag

open Lib.Spans Lib.Units
open Lib (Found Regex)

/-- The pattern of the docblock of a file. -/
def PHP_FILE_DOC : Regex UInt16 :=
  .seqs [exactly "<?php", spaces,
    .group 1 (.seqs [exactly "/**", .loop false none (.unit fun _ => true), exactly "*/"])]

def PHP_CLASS : Regex UInt16 :=
  .seqs [wordBoundary, .group 1 (.alts [anyCase "class", anyCase "trait", anyCase "interface", anyCase "enum"]),
    wordBoundary, .opt (.seq spaces1 (.group 2 PHP_LABEL)), .many (noneOf "\x7b\x7d;"), exactly "\x7b"]

def PHP_FUNCTION_HEAD : Regex UInt16 :=
  .seqs [
    .opt (.group 1 (.seqs [exactly "/**", .notAhead (exactly "/"),
      .many (.seq (.notAhead (exactly "*/")) (.unit fun _ => true)), exactly "*/", spaces])),
    .many (.seq (.alts [anyCase "public", anyCase "protected", anyCase "private", anyCase "static", anyCase "abstract",
      anyCase "final"]) spaces1),
    anyCase "function", spaces1, .opt (exactly "&"), spaces, .group 2 PHP_LABEL, spaces, exactly "("]

/-- A signature without a body ends here. -/
def PHP_DECLARATION : Regex UInt16 := .seqs [spaces, RETURN_TYPE, spaces, exactly ";"]

structure PhpClass where
  name : Option Text
  kind : Text
  start : Nat
  stop : Nat

def phpFileDoc (content : Text) : Option SectionRange :=
  (Regex.matchAt PHP_FILE_DOC content 0).map fun m =>
    let doc := (m.group content 1).getD []
    let start := (indexOf content doc 0).getD 0
    { sectionId := units "file-docblock", start, stop := start + doc.length, breadcrumb := [], commentStart := none }

/-- `classes`. -/
def phpClasses (code : Text) : List PhpClass :=
  (Regex.execAll (fun _ => 1) PHP_CLASS code 0).filterMap fun m =>
    (blockEndFromMatch code m.2.stop).map fun stop =>
      { name := (m.2.group code 2).filter fun name => ! (names ["extends", "implements"]).elem (name.map foldAscii)
        kind := (held code m 1).map foldAscii
        start := m.1
        stop }

/-- The innermost class around the stretch. -/
def phpOwner (classes : List PhpClass) (start stop : Nat) : Option PhpClass :=
  ((classes.filter fun c => c.start < start && stop ≤ c.stop).mergeSort fun a b => b.start ≤ a.start).head?

def phpFunctionRange (name : Text) (start stop : Nat) (owner : Option PhpClass) : SectionRange :=
  match owner.bind fun owner => owner.name.map fun className => (owner.kind, className) with
  | some owner =>
    { sectionId := units "method-" ++ owner.2 ++ units "-" ++ name
      start
      stop
      breadcrumb := [owner.1 ++ units " " ++ owner.2, units "function " ++ name]
      commentStart := none }
  | none =>
    { sectionId := units "function-" ++ name
      start
      stop
      breadcrumb := [units "function " ++ name]
      commentStart := none }

/-- What a match of `PHP_FUNCTION_HEAD` adds: a function with a body or a declaration in an interface. -/
def phpFunction (code : Text) (fileDoc : Option SectionRange) (classes : List PhpClass) (m : Nat × Found) :
    Option SectionRange :=
  let last := m.2.stop - 1
  let brace := bodyAfterParams code last BLOCK_TAIL
  let signature : Option Found := (parenEnd code last).bind fun close => Regex.matchAt PHP_DECLARATION code close
  let stop :=
    match brace with
    | some brace => braceBlockEnd code brace
    | none => signature.map Found.stop
  let start := if fileDoc.map SectionRange.start = some m.1 then m.1 + (held code m 1).length else m.1
  stop.bind fun stop =>
    let owner := phpOwner classes start stop
    if brace.isNone && owner.map PhpClass.kind ≠ some (units "interface") then none
    else some (phpFunctionRange (held code m 2) start stop owner)

def phpRanges (U : Unicode) (content : Text) : List SectionRange :=
  let code := maskNonCode U content .php .off
  let fileDoc := phpFileDoc content
  fileDoc.toList ++
    (Regex.execAll (fun _ => 1) PHP_FUNCTION_HEAD code 0).filterMap (phpFunction code fileDoc (phpClasses code))

/-! ## Ids -/

theorem label_within : PHP_LABEL.Within (· ≠ ch '~') := by
  refine ⟨Regex.within_unit fun u hu => ?_, Regex.within_unit fun u hu => ?_⟩
  · rintro rfl
    exact absurd hu (by decide)
  · rintro rfl
    exact absurd hu (by decide)

theorem className_within : PHP_CLASS.GroupWithin (· ≠ ch '~') 2 := List.forall_mem_singleton.mpr label_within

theorem phpName_within : PHP_FUNCTION_HEAD.GroupWithin (· ≠ ch '~') 2 := List.forall_mem_singleton.mpr label_within

theorem plain_className {code : Text} {c : PhpClass} {name : Text} (hc : c ∈ phpClasses code) (hname : c.name = some name) :
    Plain name := by
  obtain ⟨m, hm, hclass⟩ := List.mem_filterMap.mp hc
  obtain ⟨stop, -, rfl⟩ := Option.map_eq_some_iff.mp hclass
  exact Regex.forall_mem_group className_within (Regex.execAll_matchAt hm).2 (Option.filter_eq_some_iff.mp hname).1

theorem mem_of_phpOwner {classes : List PhpClass} {start stop : Nat} {c : PhpClass}
    (h : phpOwner classes start stop = some c) : c ∈ classes :=
  (List.mem_filter.mp (List.mem_mergeSort.mp (List.mem_of_mem_head? h))).1

theorem phpFunctionRange_plain {name : Text} {start stop : Nat} {owner : Option PhpClass} (hname : Plain name)
    (howner : ∀ c, owner = some c → ∀ className, c.name = some className → Plain className) :
    Plain (phpFunctionRange name start stop owner).sectionId := by
  rw [phpFunctionRange]
  split
  · next found hfound =>
    obtain ⟨c, hc, hclass⟩ := Option.bind_eq_some_iff.mp hfound
    obtain ⟨className, hclassName, rfl⟩ := Option.map_eq_some_iff.mp hclass
    have hmethod : Plain (units "method-") := plain_of_all (by decide)
    have hdash : Plain (units "-") := plain_of_all (by decide)
    exact ((hmethod.append (howner c hc className hclassName)).append hdash).append hname
  · have hfunction : Plain (units "function-") := plain_of_all (by decide)
    exact hfunction.append hname

theorem phpRanges_plain (U : Unicode) (content : Text) : PlainRanges (phpRanges U content) := by
  intro r hr
  rcases List.mem_append.mp hr with hdoc | hfunction
  · obtain ⟨m, -, rfl⟩ := Option.map_eq_some_iff.mp (Option.mem_toList.mp hdoc)
    have hid : Plain (units "file-docblock") := plain_of_all (by decide)
    exact hid
  · obtain ⟨m, hm, hrange⟩ := List.mem_filterMap.mp hfunction
    obtain ⟨stop, -, hrange⟩ := Option.bind_eq_some_iff.mp hrange
    rw [ite_eq_iff] at hrange
    obtain ⟨-, hnone⟩ | ⟨-, hrange⟩ := hrange
    · cases hnone
    cases hrange
    exact phpFunctionRange_plain (plain_held phpName_within (Regex.execAll_matchAt hm).2)
      fun c hc className hclassName => plain_className (mem_of_phpOwner hc) hclassName

end Haive.Rag

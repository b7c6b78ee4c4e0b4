import Haive.Rag.Blocks

/-!
# Functions of a Go or a Rust file

`goRanges` and `rustRanges` of `_rag-chunkers.ts`: each match of a pattern that ends at a brace, with its block.
-/

namespace Haive.Rag

open Lib.Spans Lib.Units
open Lib (Regex)

/-- The pattern of a function of Go. -/
def GO_FUNCTION : Regex UInt16 :=
  .seqs [exactly "func", spaces1,
    .opt (.seqs [exactly "(", word1, spaces1, .opt (exactly "*"), word1, exactly ")", spaces1]),
    .group 1 word1, spaces, exactly "(", .many (noneOf ")"), exactly ")", .many (noneOf "\x7b"), exactly "\x7b"]

/-- `fnRe`. -/
def RUST_FUNCTION : Regex UInt16 :=
  .seqs [.opt (.seq (exactly "pub") spaces1), .opt (.seq (exactly "async") spaces1), exactly "fn", spaces1,
    .group 1 word1, spaces, .opt (.seqs [exactly "<", .many (noneOf ">"), exactly ">"]), spaces,
    exactly "(", .many (noneOf ")"), exactly ")", .many (noneOf "\x7b"), exactly "\x7b"]

/-- `implRe`. -/
def RUST_IMPL : Regex UInt16 :=
  .seqs [exactly "impl", spaces1, .opt (.seqs [exactly "<", .many (noneOf ">"), exactly ">", spaces1]),
    .group 1 word1, .opt (.seqs [spaces1, exactly "for", spaces1, word1]), spaces, exactly "\x7b"]

/-- The blocks that the pattern opens, named by its first group. -/
def blockRanges (pattern : Regex UInt16) (kind : Text) (code : Text) : List SectionRange :=
  (Regex.execAll (fun _ => 1) pattern code 0).filterMap fun m =>
    (blockEndFromMatch code m.2.stop).map fun stop =>
      { sectionId := kind ++ units "-" ++ held code m 1
        start := m.1
        stop
        breadcrumb := [kind ++ units " " ++ held code m 1]
        commentStart := none }

def goRanges (U : Unicode) (content : Text) : List SectionRange :=
  blockRanges GO_FUNCTION (units "function") (maskNonCode U content (.simple .go) .off)

def rustRanges (U : Unicode) (content : Text) : List SectionRange :=
  let code := maskNonCode U content (.simple .rust) .off
  blockRanges RUST_FUNCTION (units "function") code ++ blockRanges RUST_IMPL (units "impl") code

/-! ## Ids -/

theorem blockRanges_plain {pattern : Regex UInt16} {kind code : Text} (hpattern : pattern.bodies 1 = [word1])
    (hkind : Plain kind) : PlainRanges (blockRanges pattern kind code) := by
  intro r hr
  obtain ⟨m, hm, hrange⟩ := List.mem_filterMap.mp hr
  obtain ⟨stop, -, rfl⟩ := Option.map_eq_some_iff.mp hrange
  have hname : pattern.GroupWithin (· ≠ ch '~') 1 := by
    rw [Regex.GroupWithin, hpattern]
    exact List.forall_mem_singleton.mpr word1_within
  have hdash : Plain (units "-") := plain_of_all (by decide)
  exact (hkind.append hdash).append (plain_held hname (Regex.execAll_matchAt hm).2)

theorem goRanges_plain (U : Unicode) (content : Text) : PlainRanges (goRanges U content) :=
  blockRanges_plain rfl (plain_of_all (by decide))

theorem rustRanges_plain (U : Unicode) (content : Text) : PlainRanges (rustRanges U content) :=
  List.forall_mem_append.mpr
    ⟨blockRanges_plain rfl (plain_of_all (by decide)), blockRanges_plain rfl (plain_of_all (by decide))⟩

end Haive.Rag

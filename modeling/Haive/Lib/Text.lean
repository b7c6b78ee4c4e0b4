import Mathlib

/-!
# Text operations

The string operations that a program over materialised paths uses, both its own
(`startsWith`, `slice`, `trim`) and the database's (`LIKE`, `substring`), over the
characters of a `String`. `like_subtree` and `like_descendants` read the two
`LIKE` patterns of a path without wildcards as prefix tests; `prefix_step` is the
reason why slash-terminated paths make such a test structural.
-/

namespace Lib

/-- `s.startsWith(p)`. -/
def startsWith (s p : String) : Bool := p.toList.isPrefixOf s.toList

/-- `s.slice(n)`, and SQL's `substring(s from n + 1)`. -/
def sliceFrom (s : String) (n : Nat) : String := String.ofList (s.toList.drop n)

/-- SQL's `LIKE`: `%` is any run of characters, `_` any one, and a backslash escapes. -/
def likeChars : List Char → List Char → Bool
  | [], s => s.isEmpty
  | '%' :: p, s => s.tails.any (likeChars p)
  | '_' :: p, _ :: s => likeChars p s
  | '\\' :: c :: p, d :: s => c = d && likeChars p s
  | c :: p, d :: s => c = d && likeChars p s
  | _ :: _, [] => false

def like (s pattern : String) : Bool := likeChars pattern.toList s.toList

/-- White space and line ends, as `trim` takes them. -/
def isSpace (c : Char) : Bool :=
  let n := c.toNat
  (9 ≤ n && n ≤ 13) || n = 0x20 || n = 0xa0 || n = 0x1680 || (0x2000 ≤ n && n ≤ 0x200a) ||
    n = 0x2028 || n = 0x2029 || n = 0x202f || n = 0x205f || n = 0x3000 || n = 0xfeff

/-- `s.trim()`. -/
def trim (s : String) : String :=
  String.ofList ((s.toList.dropWhile isSpace).reverse.dropWhile isSpace).reverse

/-- `s.length`, which counts UTF-16 code units. -/
def utf16Length (s : String) : Nat := (s.toList.map fun c => if c.toNat < 0x10000 then 1 else 2).sum

/-- No character of `s` means anything to `LIKE`. -/
def Plain (s : List Char) : Prop := ∀ c ∈ s, c ≠ '%' ∧ c ≠ '_' ∧ c ≠ '\\'

theorem trim_trim (s : String) : trim (trim s) = trim s := by
  have hfront : ((s.toList.dropWhile isSpace).rdropWhile isSpace).dropWhile isSpace =
      (s.toList.dropWhile isSpace).rdropWhile isSpace := by
    obtain ⟨t, ht⟩ := List.rdropWhile_prefix isSpace (s.toList.dropWhile isSpace)
    cases hr : (s.toList.dropWhile isSpace).rdropWhile isSpace with
    | nil => rfl
    | cons c rest =>
      -- The first character that stays is the one that stopped the cut at the front.
      have hhead : (s.toList.dropWhile isSpace).head? = some c := by rw [← ht, hr]; rfl
      have hc := List.head?_dropWhile_not isSpace s.toList
      rw [hhead] at hc
      rw [List.dropWhile_cons_of_neg (by simpa using hc)]
  simp only [trim, String.toList_ofList]
  show String.ofList ((((s.toList.dropWhile isSpace).rdropWhile isSpace).dropWhile isSpace).rdropWhile isSpace) = _
  rw [hfront, List.rdropWhile_idempotent]
  rfl

theorem startsWith_iff {s p : String} : startsWith s p = true ↔ p.toList <+: s.toList :=
  List.isPrefixOf_iff_prefix

theorem likeChars_cons {c : Char} (hc : c ≠ '%' ∧ c ≠ '_' ∧ c ≠ '\\') (p s : List Char) :
    likeChars (c :: p) s = true ↔ ∃ s', s = c :: s' ∧ likeChars p s' = true := by
  cases s with
  | nil => simp [likeChars, hc.1]
  | cons d s =>
    have : likeChars (c :: p) (d :: s) = (decide (c = d) && likeChars p s) := by
      rw [likeChars] <;> simp_all
    rw [this]
    simp only [Bool.and_eq_true, decide_eq_true_eq, List.cons.injEq]
    constructor
    · rintro ⟨rfl, h⟩
      exact ⟨s, ⟨rfl, rfl⟩, h⟩
    · rintro ⟨s', ⟨rfl, rfl⟩, h⟩
      exact ⟨rfl, h⟩

theorem likeChars_append {pre : List Char} (h : Plain pre) (p s : List Char) :
    likeChars (pre ++ p) s = true ↔ ∃ s', s = pre ++ s' ∧ likeChars p s' = true := by
  induction pre generalizing s with
  | nil => simp
  | cons c pre ih =>
    rw [List.cons_append, likeChars_cons (h c List.mem_cons_self)]
    have htail : Plain pre := fun d hd => h d (List.mem_cons_of_mem _ hd)
    constructor
    · rintro ⟨s', rfl, hs⟩
      obtain ⟨t, rfl, ht⟩ := (ih htail s').mp hs
      exact ⟨t, rfl, ht⟩
    · rintro ⟨t, rfl, ht⟩
      exact ⟨pre ++ t, rfl, (ih htail _).mpr ⟨t, rfl, ht⟩⟩

theorem likeChars_percent (s : List Char) : likeChars ['%'] s = true := by
  rw [likeChars, List.any_eq_true]
  exact ⟨[], by simp, rfl⟩

/-- `pre_%` matches exactly what starts with `pre` and goes on. -/
theorem like_descendants {s pre : String} (h : Plain pre.toList) :
    like s (pre ++ "_%") = true ↔ pre.toList <+: s.toList ∧ s ≠ pre := by
  rw [like, String.toList_append]
  have : ("_%" : String).toList = ['_', '%'] := by decide
  rw [this, likeChars_append h]
  constructor
  · rintro ⟨t, ht, hl⟩
    refine ⟨⟨t, ht.symm⟩, ?_⟩
    rintro rfl
    have : t = [] := by simpa using ht
    simp [this, likeChars] at hl
  · rintro ⟨⟨t, ht⟩, hne⟩
    refine ⟨t, ht.symm, ?_⟩
    cases t with
    | nil => exact absurd (String.toList_inj.mp (by simpa using ht.symm)) hne
    | cons c t => simp [likeChars, likeChars_percent]

/-- A slash-terminated prefix of `p ++ seg ++ "/"` is a prefix of `p` or all of it: it cannot end
inside the last segment. -/
theorem prefix_step {s p seg : List Char} (hs : s.getLast? = some '/') (hseg : '/' ∉ seg)
    (h : s <+: p ++ (seg ++ ['/'])) : s <+: p ∨ s = p ++ (seg ++ ['/']) := by
  by_cases hlen : s.length ≤ p.length
  · exact .inl (List.prefix_of_prefix_length_le h (List.prefix_append _ _) hlen)
  · refine .inr (h.eq_of_length_le ?_)
    by_contra hlt
    -- Then the last character of `s` is inside `seg`.
    obtain ⟨t, ht⟩ := h
    have hpos : s.length - 1 < s.length := by omega
    have hlast : s[s.length - 1] = '/' := by
      have := List.getLast?_eq_getElem? (l := s)
      rw [hs, List.getElem?_eq_getElem hpos] at this
      exact (Option.some.inj this).symm
    have hchar : (p ++ (seg ++ ['/']))[s.length - 1]? = some '/' := by
      rw [← ht, List.getElem?_append_left hpos, List.getElem?_eq_getElem hpos, hlast]
    have hidx : s.length - 1 - p.length < seg.length := by
      simp only [List.length_append, List.length_singleton] at hlt
      omega
    rw [List.getElem?_append_right (by omega), List.getElem?_append_left hidx,
      List.getElem?_eq_getElem hidx] at hchar
    exact hseg (Option.some.inj hchar ▸ List.getElem_mem hidx)

end Lib

import Haive.Lib.Lines
import Haive.Lib.Units

/-!
# Content as it is hashed

`normalizeContent` of `shared/src/templates/normalize-content.ts`, over UTF-16 code units. A line
that ends in a carriage return of its own, once the blanks behind it are off, gets a line feed
behind it and is a CRLF the next time (`normalizeContent_stable_iff`).
-/

namespace Haive.Templates

open Lib

abbrev lineFeed : UInt16 := 10
abbrev carriageReturn : UInt16 := 13

/-! ## The rewrites -/

/-- `replace(/\r\n/g, '\n')`: a carriage return before a line feed goes. -/
def unixify : List UInt16 → List UInt16
  | [] => []
  | u :: rest => if u = carriageReturn ∧ rest.head? = some lineFeed then unixify rest else u :: unixify rest

def isBlank (u : UInt16) : Bool := u = 0x20 || u = 9

def trimLineEnd (line : List UInt16) : List UInt16 := line.rdropWhile isBlank

/-- The lines that the content is normalised from. -/
def trimmedLines (input : List UInt16) : List (List UInt16) := ((unixify input).splitOn lineFeed).map trimLineEnd

/-- `replace(/\n{3,}/g, '\n\n')`, `replace(/\n+$/, '')` and the line feed at the end. -/
def collapseAndEnd (text : List UInt16) : List UInt16 :=
  (squeeze lineFeed 2 0 text).rdropWhile (· = lineFeed) ++ [lineFeed]

def normalizeContent (input : List UInt16) : List UInt16 :=
  collapseAndEnd ([lineFeed].intercalate (trimmedLines input))

/-! ## Carriage returns -/

def isReturn (u : UInt16) : Bool := u = carriageReturn

theorem isReturn_lineFeed : isReturn lineFeed = false := by decide

theorem isBlank_lineFeed : isBlank lineFeed = false := by decide

theorem count_unixify_le (t : List UInt16) : (unixify t).count carriageReturn ≤ t.count carriageReturn := by
  induction t with
  | nil => exact Nat.le_refl _
  | cons u t ih =>
    rw [unixify]
    split
    · exact ih.trans (List.count_le_count_cons)
    · rw [List.count_cons, List.count_cons]
      exact Nat.add_le_add_right ih _

theorem unixify_of_clear {t : List UInt16} (h : EndsClear lineFeed isReturn t) : unixify t = t := by
  induction t with
  | nil => rfl
  | cons u t ih =>
    obtain ⟨hu, htail⟩ := (endsClear_cons isReturn_lineFeed u t).mp h
    rw [unixify, if_neg, ih htail]
    rintro ⟨hreturn, hhead⟩
    obtain ⟨v, hv, hne⟩ := hu (by simpa [isReturn] using hreturn)
    rw [hhead] at hv
    exact hne (Option.some.inj hv).symm

/-- A text that keeps its carriage returns has none before a line feed. -/
theorem clear_of_count_unixify {t : List UInt16} (hlast : t.getLast? ≠ some carriageReturn)
    (h : t.count carriageReturn ≤ (unixify t).count carriageReturn) : EndsClear lineFeed isReturn t := by
  induction t with
  | nil => exact endsClear_nil
  | cons u t ih =>
    have hle := count_unixify_le t
    rw [unixify] at h
    split at h
    · next hu =>
      rw [hu.1, List.count_cons_self] at h
      omega
    · next hu =>
      rw [List.count_cons, List.count_cons, Nat.add_le_add_iff_right] at h
      cases t with
      | nil =>
        refine (endsClear_cons isReturn_lineFeed u []).mpr ⟨fun hreturn => ?_, endsClear_nil⟩
        rw [List.getLast?_singleton] at hlast
        exact absurd (congrArg some (by simpa [isReturn] using hreturn)) hlast
      | cons v t =>
        rw [List.getLast?_cons_cons] at hlast
        refine (endsClear_cons isReturn_lineFeed u _).mpr ⟨fun hreturn => ⟨v, rfl, fun hv => hu ⟨?_, ?_⟩⟩, ih hlast h⟩
        · simpa [isReturn] using hreturn
        · rw [hv, List.head?_cons]

/-! ## Normal form -/

theorem not_mem_trimmedLines {s line : List UInt16} (h : line ∈ trimmedLines s) : lineFeed ∉ line := by
  obtain ⟨raw, hraw, rfl⟩ := List.mem_map.mp h
  exact fun hmem => not_mem_of_mem_splitOn hraw ((List.rdropWhile_prefix _ _).subset hmem)

theorem trimmedLines_ne_nil (s : List UInt16) : trimmedLines s ≠ [] :=
  List.map_eq_nil_iff.not.mpr (List.splitOn_ne_nil _ _)

theorem endsClear_normalizeContent {bad : UInt16 → Bool} (hnl : bad lineFeed = false) (s : List UInt16) :
    EndsClear lineFeed bad (normalizeContent s) ↔ ∀ line ∈ trimmedLines s, ∀ u ∈ line.getLast?, bad u = false := by
  rw [normalizeContent, collapseAndEnd, endsClear_append_nl hnl, endsClear_rdropWhile hnl,
    endsClear_squeeze hnl Nat.two_pos, EndsClear,
    List.splitOn_intercalate _ (fun _ => not_mem_trimmedLines) (trimmedLines_ne_nil s)]

theorem trimLineEnd_last {line : List UInt16} {u : UInt16} (h : u ∈ (trimLineEnd line).getLast?) :
    isBlank u = false := by
  have hne : trimLineEnd line ≠ [] := by
    intro hnil
    rw [hnil] at h
    cases h
  rw [List.getLast?_eq_getLast_of_ne_nil hne, Option.mem_def, Option.some.injEq] at h
  rw [← h, Bool.eq_false_iff]
  exact List.rdropWhile_last_not isBlank _ hne

theorem trimLineEnd_of_last {line : List UInt16} (h : ∀ u ∈ line.getLast?, isBlank u = false) :
    trimLineEnd line = line := by
  refine List.rdropWhile_eq_self_iff.mpr fun hne => ?_
  rw [h _ (List.getLast_mem_getLast? hne)]
  exact Bool.false_ne_true

theorem trimmedLines_of_clear {t : List UInt16} (hreturn : EndsClear lineFeed isReturn t)
    (hblank : EndsClear lineFeed isBlank t) : [lineFeed].intercalate (trimmedLines t) = t := by
  have hfixed : (t.splitOn lineFeed).map trimLineEnd = t.splitOn lineFeed :=
    (List.map_congr_left fun line hline => trimLineEnd_of_last (hblank line hline)).trans (List.map_id _)
  rw [trimmedLines, unixify_of_clear hreturn, hfixed, List.intercalate_splitOn]

theorem collapseAndEnd_collapseAndEnd (t : List UInt16) :
    collapseAndEnd (collapseAndEnd t) = collapseAndEnd t := by
  set w := (squeeze lineFeed 2 0 t).rdropWhile (· = lineFeed) with hw
  have hlast : w.getLast? ≠ some lineFeed := by
    intro h
    have hne : w ≠ [] := by
      rintro hnil
      rw [hnil] at h
      cases h
    rw [List.getLast?_eq_getLast_of_ne_nil hne, Option.some.injEq] at h
    exact List.rdropWhile_last_not _ _ hne (by simpa using h)
  have hfixed : squeeze lineFeed 2 0 w = w := by
    obtain ⟨ends, hends⟩ : w <+: squeeze lineFeed 2 0 t := List.rdropWhile_prefix _ _
    refine squeeze_of_append (b := ends) ?_
    rw [hends, squeeze_squeeze]
  show (squeeze lineFeed 2 0 (w ++ [lineFeed])).rdropWhile (· = lineFeed) ++ [lineFeed] = w ++ [lineFeed]
  rw [squeeze_append_nl hlast (fun _ => Nat.two_pos) Nat.two_pos, hfixed, List.rdropWhile_concat_pos _ _ _ (by simp)]
  rw [hw, List.rdropWhile_idempotent]

theorem count_normalizeContent {u : UInt16} (hlf : u ≠ lineFeed) (hblank : isBlank u = false) (s : List UInt16) :
    (normalizeContent s).count u = (unixify s).count u := by
  have hdrop : ∀ (p : UInt16 → Bool) (t : List UInt16), p u = false → (t.rdropWhile p).count u = t.count u := by
    intro p t hp
    have hsplit : t.rdropWhile p ++ t.rtakeWhile p = t := List.rdropWhile_append_rtakeWhile
    conv_rhs => rw [← hsplit, List.count_append]
    have hzero : (t.rtakeWhile p).count u = 0 := List.count_eq_zero.mpr fun hmem => by
      have hall := List.mem_rtakeWhile_imp hmem
      rw [hp] at hall
      cases hall
    rw [hzero, Nat.add_zero]
  have hlines : ((trimmedLines s).map (·.count u)).sum =
      (((unixify s).splitOn lineFeed).map (·.count u)).sum := by
    rw [trimmedLines, List.map_map]
    congr 1
    exact List.map_congr_left fun line _ => hdrop isBlank line hblank
  have hend : [lineFeed].count u = 0 := List.count_eq_zero.mpr fun hmem => hlf (List.mem_singleton.mp hmem)
  rw [normalizeContent, collapseAndEnd, List.count_append, hdrop _ _ (decide_eq_false hlf), count_squeeze hlf,
    count_intercalate hlf, hlines, ← count_intercalate hlf, List.intercalate_splitOn, hend, Nat.add_zero]

theorem normalizeContent_idempotent_iff (s : List UInt16) : normalizeContent (normalizeContent s) = normalizeContent s ↔
    ∀ line ∈ trimmedLines s, line.getLast? ≠ some carriageReturn := by
  have hclear : EndsClear lineFeed isReturn (normalizeContent s) ↔
      ∀ line ∈ trimmedLines s, line.getLast? ≠ some carriageReturn := by
    rw [endsClear_normalizeContent isReturn_lineFeed]
    refine forall₂_congr fun line _ => ⟨fun h heq => ?_, fun h u hu => decide_eq_false fun heq => h (heq ▸ hu)⟩
    exact absurd (h _ heq) (by decide)
  have hblank : EndsClear lineFeed isBlank (normalizeContent s) := by
    refine (endsClear_normalizeContent isBlank_lineFeed s).mpr fun line hline u hu => ?_
    obtain ⟨raw, -, rfl⟩ := List.mem_map.mp hline
    exact trimLineEnd_last hu
  rw [← hclear]
  constructor
  · intro h
    refine clear_of_count_unixify ?_ ?_
    · rw [normalizeContent, collapseAndEnd, List.getLast?_concat]
      decide
    · rw [← count_normalizeContent (by decide) (by decide), h]
  · intro h
    conv_lhs => rw [normalizeContent, trimmedLines_of_clear h hblank]
    rw [normalizeContent, collapseAndEnd_collapseAndEnd]

/-! ## Texts that differ at their line ends -/

inductive SpelledBy : List (List UInt16) → List UInt16 → Prop
  | last {body blanks : List UInt16} (hbody : lineFeed ∉ body) (hblanks : ∀ u ∈ blanks, isBlank u = true) :
      SpelledBy [body] (body ++ blanks)
  | line {body blanks stop rest : List UInt16} {bodies : List (List UInt16)} (hbody : lineFeed ∉ body)
      (hblanks : ∀ u ∈ blanks, isBlank u = true)
      (hstop : stop = [lineFeed] ∧ (body ++ blanks).getLast? ≠ some carriageReturn ∨
        stop = [carriageReturn, lineFeed])
      (hrest : SpelledBy bodies rest) : SpelledBy (body :: bodies) (body ++ blanks ++ (stop ++ rest))

def SameButEnds (s t : List UInt16) : Prop := ∃ bodies, SpelledBy bodies s ∧ SpelledBy bodies t

theorem not_mem_blanks {blanks : List UInt16} (h : ∀ u ∈ blanks, isBlank u = true) : lineFeed ∉ blanks :=
  fun hmem => absurd (h _ hmem) (by decide)

theorem trimLineEnd_append {body blanks : List UInt16} (h : ∀ u ∈ blanks, isBlank u = true) :
    trimLineEnd (body ++ blanks) = trimLineEnd body := by
  rw [trimLineEnd, List.rdropWhile, List.reverse_append,
    List.dropWhile_append_of_pos fun u hu => h u (List.mem_reverse.mp hu)]
  rfl

theorem unixify_append {a b : List UInt16} (ha : lineFeed ∉ a)
    (hab : a.getLast? = some carriageReturn → b.head? ≠ some lineFeed) : unixify (a ++ b) = a ++ unixify b := by
  induction a with
  | nil => rfl
  | cons u a ih =>
    rw [List.mem_cons, not_or] at ha
    have hne : ¬ (u = carriageReturn ∧ (a ++ b).head? = some lineFeed) := by
      rintro ⟨rfl, hhead⟩
      cases a with
      | nil => exact hab rfl hhead
      | cons v a =>
        rw [List.cons_append, List.head?_cons, Option.some.injEq] at hhead
        exact ha.2 (hhead ▸ List.mem_cons_self)
    have htail : a.getLast? = some carriageReturn → b.head? ≠ some lineFeed := by
      cases a with
      | nil => exact fun h => nomatch h
      | cons v a => rwa [List.getLast?_cons_cons] at hab
    rw [List.cons_append, unixify, if_neg hne, ih ha.2 htail, List.cons_append]

theorem unixify_lineFeed (rest : List UInt16) : unixify (lineFeed :: rest) = lineFeed :: unixify rest := by
  rw [unixify, if_neg fun h => absurd h.1 (by decide)]

theorem trimmedLines_line {a stop rest : List UInt16} (ha : lineFeed ∉ a)
    (hstop : stop = [lineFeed] ∧ a.getLast? ≠ some carriageReturn ∨ stop = [carriageReturn, lineFeed]) :
    trimmedLines (a ++ (stop ++ rest)) = trimLineEnd a :: trimmedLines rest := by
  have hunix : unixify (a ++ (stop ++ rest)) = a ++ lineFeed :: unixify rest := by
    rcases hstop with ⟨rfl, hlast⟩ | rfl
    · rw [unixify_append ha fun h => absurd h hlast, List.singleton_append, unixify_lineFeed]
    · have hne : ([carriageReturn, lineFeed] ++ rest).head? ≠ some lineFeed := by
        rw [List.cons_append, List.head?_cons]
        decide
      rw [unixify_append ha fun _ => hne, List.cons_append, List.singleton_append, unixify, if_pos ⟨rfl, rfl⟩, unixify_lineFeed]
  rw [trimmedLines, hunix, List.splitOn_append_cons_self_of_not_mem ha]
  rfl

theorem trimmedLines_of_not_mem {a : List UInt16} (ha : lineFeed ∉ a) : trimmedLines a = [trimLineEnd a] := by
  have hunix : unixify a = a := by
    simpa [unixify] using unixify_append (b := []) ha fun _ => by simp
  rw [trimmedLines, hunix, List.splitOn_eq_singleton ha]
  rfl

theorem trimmedLines_of_spelledBy {bodies : List (List UInt16)} {s : List UInt16} (h : SpelledBy bodies s) :
    trimmedLines s = bodies.map trimLineEnd := by
  induction h with
  | last hbody hblanks =>
    rw [trimmedLines_of_not_mem (List.not_mem_append hbody (not_mem_blanks hblanks)), trimLineEnd_append hblanks]
    rfl
  | line hbody hblanks hstop _ ih =>
    rw [trimmedLines_line (List.not_mem_append hbody (not_mem_blanks hblanks)) hstop, ih,
      trimLineEnd_append hblanks, List.map_cons]

theorem normalizeContent_of_sameButEnds {s t : List UInt16} (h : SameButEnds s t) :
    normalizeContent s = normalizeContent t := by
  obtain ⟨bodies, hs, ht⟩ := h
  rw [normalizeContent, trimmedLines_of_spelledBy hs, ← trimmedLines_of_spelledBy ht, normalizeContent]

/-- A text is normalised for good, and to what every text that differs at its line ends is, exactly
when none of its lines ends in a carriage return of its own. -/
theorem normalizeContent_stable_iff (s : List UInt16) :
    (normalizeContent (normalizeContent s) = normalizeContent s ∧
      ∀ t, SameButEnds s t → normalizeContent t = normalizeContent s) ↔
    ∀ line ∈ trimmedLines s, line.getLast? ≠ some carriageReturn :=
  (and_iff_left fun _ h => (normalizeContent_of_sameButEnds h).symm).trans (normalizeContent_idempotent_iff s)

/-- `a` and a carriage return, the end of a file: a line feed is put behind it, and the next time
the two are one line end. -/
theorem return_is_normalised_twice : normalizeContent [0x61, carriageReturn] = [0x61, carriageReturn, lineFeed] ∧
    normalizeContent (normalizeContent [0x61, carriageReturn]) = [0x61, lineFeed] ∧
    normalizeContent (normalizeContent [0x61, carriageReturn]) ≠ normalizeContent [0x61, carriageReturn] := by
  decide

end Haive.Templates

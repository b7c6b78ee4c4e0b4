import Haive.Lib.Json
import Haive.Lib.Surrogates
import Haive.Templates.NormalizeContent

/-!
# The override of the AGENTS.md rules

`normalizeAgentRulesOverride` of `shared/src/project-state/settings.ts`: the text is tidied as every
managed file is, and what it is tidied to is tidy (`normalizeAgentRulesOverride_stable`).
-/

namespace Haive.ProjectState

open Lib.Units
open Lib (Json squeeze)
open Haive.Templates (normalizeContent lineFeed carriageReturn unixify trimmedLines trimLineEnd isBlank)

/-! ## The checks -/

abbrev byteOrderMark : UInt16 := 0xfeff

/-- `replace(/\r\n?/g, '\n')`: a carriage return goes before a line feed and is one elsewhere. -/
def unixLines (t : List UInt16) : List UInt16 := (unixify t).map fun u => if u = carriageReturn then lineFeed else u

/-- `/<!--\s*(?:\/\s*)?haive:/` at the start of the text. -/
def startsRegionMarker (t : List UInt16) : Bool :=
  units "<!--" <+: t &&
    let rest := (t.drop 4).dropWhile isTrimmed
    let rest := if rest.head? = some 0x2f then rest.tail.dropWhile isTrimmed else rest
    units "haive:" <+: rest

def hasRegionMarker (t : List UInt16) : Bool := t.tails.any startsRegionMarker

/-- What `^` and `$` of a multi-line pattern take as the end of a line. -/
def isLineEnd (u : UInt16) : Bool := u = 10 || u = 13 || u = 0x2028 || u = 0x2029

def hasConflictMarker (text : List UInt16) : Bool :=
  (text.splitOnP isLineEnd).any fun line =>
    line = List.replicate 7 0x3d ||
      [0x3c, 0x3e, 0x7c].any fun u => line.take 7 = List.replicate 7 u && (line.drop 7).head?.all (· = 0x20)

/-- The length in UTF-8 of a text that is well formed: a surrogate is half of four bytes. -/
def utf8Length (text : List UInt16) : Nat :=
  (text.map fun u => if u < 0x80 then 1 else if u < 0x800 || isSurrogate u then 2 else 3).sum

def MAX_AGENT_RULES_BYTES : Nat := 64 * 1024

def normalizeAgentRulesOverride (value : Json) : Except String (List UInt16) :=
  match value with
  | .str s =>
    if ! isWellFormed s then .error "holds a lone surrogate"
    else if s.contains 0 then .error "holds a NUL character"
    else
      let unix := unixLines (s.dropWhile (· = byteOrderMark))
      if trim unix = [] then .ok []
      else
        let text := normalizeContent unix
        if hasRegionMarker text then
          .error "holds a Haive region marker comment (<!-- haive:name -->), which would end or start a region early"
        else if hasConflictMarker text then
          .error
            "holds a line of exactly seven =, <, > or | characters, which reads as a merge conflict marker"
        else if MAX_AGENT_RULES_BYTES < utf8Length text then .error "is larger than 64 KiB"
        else .ok text
  | _ => .error "is not text"

/-! ## Line ends -/

theorem isSurrogate_lineFeed : isSurrogate lineFeed = false := by decide

theorem isSurrogate_carriageReturn : isSurrogate carriageReturn = false := by decide

theorem ne_carriageReturn {u : UInt16} (h : isSurrogate u = true) : u ≠ carriageReturn := by
  rintro rfl
  exact nomatch isSurrogate_carriageReturn.symm.trans h

theorem isSurrogate_of_isLeading {u : UInt16} (h : isLeading u = true) : isSurrogate u = true := by
  rw [isSurrogate, h, Bool.true_or]

theorem isSurrogate_of_isTrailing {u : UInt16} (h : isTrailing u = true) : isSurrogate u = true := by
  rw [isSurrogate, h, Bool.or_true]

theorem unixify_of_not_mem {t : List UInt16} (h : carriageReturn ∉ t) : unixify t = t := by
  induction t with
  | nil => rfl
  | cons u t ih =>
    rw [List.mem_cons, not_or] at h
    rw [unixify, if_neg fun hu => h.1 hu.1.symm, ih h.2]

theorem mem_of_mem_unixify {t : List UInt16} {u : UInt16} (h : u ∈ unixify t) : u ∈ t := by
  induction t with
  | nil => exact h
  | cons v t ih =>
    rw [unixify] at h
    split at h
    · exact List.mem_cons_of_mem _ (ih h)
    · exact (List.mem_cons.mp h).elim (fun heq => heq ▸ List.mem_cons_self) fun h => List.mem_cons_of_mem _ (ih h)

theorem head?_unixify (t : List UInt16) : (unixify t).head? = t.head? ∨ (unixify t).head? = some lineFeed := by
  cases t with
  | nil => exact .inl rfl
  | cons u t =>
    rw [unixify]
    split
    · next hu =>
      cases t with
      | nil => cases hu.2
      | cons v t =>
        obtain rfl : v = lineFeed := Option.some.inj hu.2
        exact .inr (by rw [Haive.Templates.unixify_lineFeed]; rfl)
    · exact .inl rfl

theorem wellPaired_unixify {t : List UInt16} (h : WellPaired t) : WellPaired (unixify t) := by
  induction h with
  | nil => exact .nil
  | unit hu _ ih =>
    rw [unixify]
    split
    · exact ih
    · exact .unit hu ih
  | pair hu hv _ ih =>
    have hu' := ne_carriageReturn (isSurrogate_of_isLeading hu)
    have hv' := ne_carriageReturn (isSurrogate_of_isTrailing hv)
    rw [unixify, if_neg fun h => hu' h.1, unixify, if_neg fun h => hv' h.1]
    exact .pair hu hv ih

theorem not_mem_unixLines (t : List UInt16) : carriageReturn ∉ unixLines t := by
  intro hmem
  obtain ⟨u, -, hu⟩ := List.mem_map.mp hmem
  split at hu
  · exact absurd hu (by decide)
  · next hne => exact hne hu

theorem unixLines_of_not_mem {t : List UInt16} (h : carriageReturn ∉ t) : unixLines t = t := by
  rw [unixLines, unixify_of_not_mem h]
  refine (List.map_congr_left fun u hu => if_neg fun heq => ?_).trans (List.map_id t)
  exact h (heq ▸ hu)

theorem mem_unixLines {t : List UInt16} {u : UInt16} (h : u ∈ unixLines t) : u ∈ t ∨ u = lineFeed := by
  obtain ⟨v, hv, rfl⟩ := List.mem_map.mp h
  split
  · exact .inr rfl
  · exact .inl (mem_of_mem_unixify hv)

theorem head?_unixLines {t : List UInt16} {u : UInt16} (h : (unixLines t).head? = some u) :
    t.head? = some u ∨ u = lineFeed := by
  rw [unixLines, List.head?_map] at h
  obtain ⟨v, hv, rfl⟩ := Option.map_eq_some_iff.mp h
  split
  · exact .inr rfl
  · rcases head?_unixify t with heq | heq
    · exact .inl (heq ▸ hv)
    · exact .inr (Option.some.inj (hv.symm.trans heq))

theorem wellPaired_unixLines {t : List UInt16} (h : WellPaired t) : WellPaired (unixLines t) := by
  have hmap : ∀ {t : List UInt16}, WellPaired t →
      WellPaired (t.map fun u => if u = carriageReturn then lineFeed else u) := by
    intro t h
    induction h with
    | nil => exact .nil
    | unit hu _ ih =>
      refine .unit ?_ ih
      dsimp only
      split
      · exact isSurrogate_lineFeed
      · exact hu
    | pair hu hv _ ih =>
      rw [List.map_cons, List.map_cons, if_neg (ne_carriageReturn (isSurrogate_of_isLeading hu)),
        if_neg (ne_carriageReturn (isSurrogate_of_isTrailing hv))]
      exact .pair hu hv ih
  exact hmap (wellPaired_unixify h)

/-! ## Tidied texts -/

theorem intercalate_lines (t : List UInt16) : [lineFeed].intercalate (t.splitOn lineFeed) = t :=
  List.intercalate_splitOn lineFeed

theorem mem_intercalate {lines : List (List UInt16)} {line : List UInt16} (hline : line ∈ lines) {u : UInt16}
    (hu : u ∈ line) : u ∈ [lineFeed].intercalate lines := by
  induction lines with
  | nil => cases hline
  | cons first lines ih =>
    cases lines with
    | nil =>
      rw [List.intercalate_singleton, ← List.mem_singleton.mp hline]
      exact hu
    | cons second lines =>
      rw [List.intercalate_cons_cons, List.mem_append]
      rcases List.mem_cons.mp hline with rfl | hline
      · exact .inl (List.mem_append_left _ hu)
      · exact .inr (ih hline)

theorem wellPaired_intercalate {lines : List (List UInt16)} :
    WellPaired ([lineFeed].intercalate lines) ↔ ∀ line ∈ lines, WellPaired line := by
  induction lines with
  | nil => exact iff_of_true .nil fun _ h => absurd h List.not_mem_nil
  | cons line lines ih =>
    cases lines with
    | nil => rw [List.intercalate_singleton, List.forall_mem_singleton]
    | cons line' lines =>
      rw [List.intercalate_cons_cons, List.forall_mem_cons, ← ih, List.append_assoc, List.singleton_append]
      exact ⟨fun h => h.of_append_cons isSurrogate_lineFeed, fun h => h.1.append (.unit isSurrogate_lineFeed h.2)⟩

theorem wellPaired_rdropWhile {p : UInt16 → Bool} (hp : ∀ u, p u = true → isSurrogate u = false) {t : List UInt16}
    (h : WellPaired t) : WellPaired (t.rdropWhile p) := by
  have hsplit : t.rdropWhile p ++ t.rtakeWhile p = t := List.rdropWhile_append_rtakeWhile
  rw [← hsplit] at h
  exact h.of_append_left fun u hu => hp u (List.mem_rtakeWhile_imp hu)

theorem wellPaired_squeeze {t : List UInt16} (h : WellPaired t) (n : Nat) : WellPaired (squeeze lineFeed 2 n t) := by
  induction h generalizing n with
  | nil => exact .nil
  | unit hu _ ih =>
    rw [squeeze]
    split
    · split
      · exact .unit hu (ih _)
      · exact ih _
    · exact .unit hu (ih _)
  | pair hu hv _ ih =>
    have hne : ∀ {u}, isSurrogate u = true → u ≠ lineFeed := by
      rintro _ h rfl
      cases isSurrogate_lineFeed.symm.trans h
    rw [squeeze, if_neg (hne (isSurrogate_of_isLeading hu)), squeeze, if_neg (hne (isSurrogate_of_isTrailing hv))]
    exact .pair hu hv (ih _)

theorem wellPaired_normalizeContent {t : List UInt16} (h : WellPaired t) : WellPaired (normalizeContent t) := by
  have hblank : ∀ u, isBlank u = true → isSurrogate u = false := by
    intro u hu
    rw [isBlank, Bool.or_eq_true, decide_eq_true_eq, decide_eq_true_eq] at hu
    rcases hu with rfl | rfl <;> decide
  have hlines : ∀ line ∈ trimmedLines t, WellPaired line := by
    intro line hline
    obtain ⟨raw, hraw, rfl⟩ := List.mem_map.mp hline
    have hall := wellPaired_unixify h
    rw [← intercalate_lines (unixify t)] at hall
    exact wellPaired_rdropWhile hblank (wellPaired_intercalate.mp hall raw hraw)
  have hends : ∀ u : UInt16, decide (u = lineFeed) = true → isSurrogate u = false := by
    intro u hu
    obtain rfl := of_decide_eq_true hu
    exact isSurrogate_lineFeed
  exact (wellPaired_rdropWhile hends (wellPaired_squeeze (wellPaired_intercalate.mpr hlines) 0)).append
    (.unit isSurrogate_lineFeed .nil)

/-- The normal form starts as the text does, or with an empty line. -/
theorem head?_normalizeContent {t : List UInt16} (h : carriageReturn ∉ t) {u : UInt16}
    (hu : (normalizeContent t).head? = some u) : t.head? = some u ∨ u = lineFeed := by
  by_cases hlf : u = lineFeed
  · exact .inr hlf
  refine .inl ?_
  rw [normalizeContent, Haive.Templates.collapseAndEnd, List.head?_append] at hu
  set joined := [lineFeed].intercalate (trimmedLines t) with hjoined
  have hhead : joined.head? = some u := by
    have hkept : (squeeze lineFeed 2 0 joined).head? = joined.head? := Lib.head?_squeeze Nat.two_pos joined
    rw [← hkept]
    cases hcut : (squeeze lineFeed 2 0 joined).rdropWhile (· = lineFeed) with
    | nil =>
      rw [hcut] at hu
      exact absurd (Option.some.inj hu).symm hlf
    | cons v rest =>
      rw [hcut] at hu
      obtain ⟨tail, htail⟩ := List.rdropWhile_prefix (· = lineFeed) (squeeze lineFeed 2 0 joined)
      rw [← htail, hcut]
      exact hu
  have hsplit : t = [lineFeed].intercalate (t.splitOn lineFeed)  := (intercalate_lines t).symm
  rw [trimmedLines, unixify_of_not_mem h] at hjoined
  cases hlines : t.splitOn lineFeed with
  | nil => exact absurd hlines (List.splitOn_ne_nil _ _)
  | cons line lines =>
    rw [hlines, List.map_cons] at hjoined
    rw [hlines] at hsplit
    -- Behind a first line that is cut to nothing comes a line feed.
    cases hcut : trimLineEnd line with
    | nil =>
      rw [hcut] at hjoined
      cases lines with
      | nil =>
        rw [hjoined] at hhead
        cases hhead
      | cons line' lines =>
        rw [hjoined, List.map_cons, List.intercalate_cons_cons] at hhead
        exact absurd (Option.some.inj hhead).symm hlf
    | cons v rest =>
      have hv : v = u := by
        rw [hcut] at hjoined
        cases lines with
        | nil =>
          rw [hjoined, List.map_nil, List.intercalate_singleton] at hhead
          exact Option.some.inj hhead
        | cons line' lines =>
          rw [hjoined, List.map_cons, List.intercalate_cons_cons] at hhead
          exact Option.some.inj hhead
      obtain ⟨tail, htail⟩ := List.rdropWhile_prefix isBlank line
      rw [show line.rdropWhile isBlank = v :: rest from hcut] at htail
      rw [hsplit, ← htail, hv]
      cases lines with
      | nil => rw [List.intercalate_singleton]; rfl
      | cons line' lines => rw [List.intercalate_cons_cons]; rfl

theorem mem_normalizeContent {t : List UInt16} (h : carriageReturn ∉ t) {u : UInt16} (hlf : u ≠ lineFeed)
    (hblank : isBlank u = false) : u ∈ normalizeContent t ↔ u ∈ t := by
  have hcount := Haive.Templates.count_normalizeContent hlf hblank t
  rw [unixify_of_not_mem h] at hcount
  rw [← List.count_pos_iff, hcount, List.count_pos_iff]

theorem dropWhile_of_head? {p : UInt16 → Bool} {t : List UInt16} (h : ∀ u ∈ t.head?, p u = false) :
    t.dropWhile p = t := by
  cases t with
  | nil => rfl
  | cons u t => exact List.dropWhile_cons_of_neg (by simp [h u rfl])

/-- What the tidied text is again. -/
theorem unixLines_normalizeContent {t : List UInt16} (h : carriageReturn ∉ t) (hfirst : t.head? ≠ some byteOrderMark) :
    unixLines ((normalizeContent t).dropWhile (· = byteOrderMark)) = normalizeContent t := by
  rw [dropWhile_of_head?, unixLines_of_not_mem]
  · exact (mem_normalizeContent h (by decide) (by decide)).not.mpr h
  · intro u hu
    refine decide_eq_false ?_
    rintro rfl
    exact (head?_normalizeContent h hu).elim hfirst (by decide)

theorem normalizeContent_normalizeContent {t : List UInt16} (h : carriageReturn ∉ t) :
    normalizeContent (normalizeContent t) = normalizeContent t := by
  refine (Haive.Templates.normalizeContent_idempotent_iff t).mpr fun line hline hlast => h ?_
  obtain ⟨raw, hraw, rfl⟩ := List.mem_map.mp hline
  have hmem := (List.rdropWhile_prefix isBlank raw).subset (List.mem_of_getLast? hlast)
  rw [unixify_of_not_mem h] at hraw
  rw [← intercalate_lines t]
  exact mem_intercalate hraw hmem

theorem trim_normalizeContent {t : List UInt16} (h : carriageReturn ∉ t) (hne : trim t ≠ []) :
    trim (normalizeContent t) ≠ [] := by
  rw [Ne, trim_eq_nil_iff] at hne ⊢
  intro hall
  refine hne fun u hu => ?_
  by_cases hlf : u = lineFeed
  · rw [hlf]
    decide
  · cases hblank : isBlank u with
    | false => exact hall u ((mem_normalizeContent h hlf hblank).mpr hu)
    | true =>
      rw [isBlank, Bool.or_eq_true, decide_eq_true_eq, decide_eq_true_eq] at hblank
      rcases hblank with rfl | rfl <;> decide

/-- A text that was tidied is kept as it is. -/
theorem normalizeAgentRulesOverride_stable {value : Json} {text : List UInt16}
    (h : normalizeAgentRulesOverride value = .ok text) : normalizeAgentRulesOverride (.str text) = .ok text := by
  cases value with
  | str s =>
    rw [normalizeAgentRulesOverride] at h
    dsimp only at h
    split at h
    · cases h
    · next hwell =>
      rw [Bool.not_eq_true', Bool.not_eq_false, isWellFormed_iff] at hwell
      split at h
      · cases h
      · next hzero =>
        split at h
        · obtain rfl := Except.ok.inj h
          rfl
        · next hblank =>
          set unix := unixLines (s.dropWhile (· = byteOrderMark)) with hunix
          have hreturn : carriageReturn ∉ unix := not_mem_unixLines _
          have hwell' : WellPaired unix := by
            refine wellPaired_unixLines ?_
            rw [← List.takeWhile_append_dropWhile (p := (· = byteOrderMark)) (l := s)] at hwell
            refine hwell.of_append_right fun u hu => ?_
            have hmark := List.mem_takeWhile_imp hu
            obtain rfl := of_decide_eq_true hmark
            decide
          have hzero' : 0 ∉ unix := fun hmem => hzero <| List.elem_eq_true_of_mem <|
            (List.dropWhile_suffix _).subset ((mem_unixLines hmem).resolve_right (by decide))
          have hfirst : unix.head? ≠ some byteOrderMark := by
            intro hhead
            have hdrop := (head?_unixLines hhead).resolve_right (by decide)
            have hnot := List.head?_dropWhile_not (· = byteOrderMark) s
            rw [hdrop] at hnot
            exact absurd hnot (by decide)
          have htext : text = normalizeContent unix ∧ hasRegionMarker text = false ∧ hasConflictMarker text = false ∧
              ¬ MAX_AGENT_RULES_BYTES < utf8Length text := by
            split at h
            · cases h
            · next hregion =>
              split at h
              · cases h
              · next hconflict =>
                split at h
                · cases h
                · next hlength =>
                  obtain rfl := Except.ok.inj h
                  exact ⟨rfl, Bool.eq_false_iff.mpr hregion, Bool.eq_false_iff.mpr hconflict, hlength⟩
          obtain ⟨rfl, hregion, hconflict, hlength⟩ := htext
          have hzero'' : (normalizeContent unix).contains 0 = false := Bool.eq_false_iff.mpr fun hmem =>
            hzero' ((mem_normalizeContent hreturn (by decide) (by decide)).mp (List.mem_of_elem_eq_true hmem))
          rw [normalizeAgentRulesOverride]
          dsimp only
          rw [isWellFormed_iff.mpr (wellPaired_normalizeContent hwell'), hzero'',
            unixLines_normalizeContent hreturn hfirst, if_neg (trim_normalizeContent hreturn hblank),
            normalizeContent_normalizeContent hreturn, hregion, hconflict, if_neg hlength]
          rfl
  | _ => cases h

end Haive.ProjectState

import Haive.Steps.FencedText

/-!
# Excerpts keep agent text fenced

`cleanDiagnosis` and `excerptDiagnosis` of a diagnosis that is joined from trusted texts
and fenced agent blocks. `fenceSafe` breaks up every run of `=` before the fence is
built, but `cleanText` strips escape codes after that, and an escape code within a run
of `=` hides it from `fenceSafe`. Where no stripped part spells a banner every cleaning
and every cut keeps the text `Fenced`; where a stripped body spells one, the body is out
of its fence as soon as the budget is large enough (`contained_of_plain_parts`).
-/

namespace Haive.Steps.Fences

open Lib

/-! ## Cuts of fenced text -/

section Cuts

variable {t : Text}

theorem Fenced.take {s s' : Bool} (h : Fenced s t s') (k : Nat) : ∃ m, Fenced s (t.take k) m :=
  Fenced.front (y := t.drop k) (by rwa [List.take_append_drop])

theorem Fenced.drop {s s' : Bool} (h : Fenced s t s') (k : Nat) : ∃ m, Fenced m (t.drop k) s' :=
  Fenced.back (x := t.take k) (by rwa [List.take_append_drop])

theorem Fenced.takeLines {s s' : Bool} (h : Fenced s t s') (k : Nat) :
    ∃ m, Fenced s (joinLines ((splitLines t).take k)) m := by
  have hlines := h.lines
  rw [← List.take_append_drop k (splitLines t)] at hlines
  obtain ⟨m, hfront, -⟩ := hlines.split
  exact ⟨m, hfront.joined⟩

theorem Fenced.dropLines {s s' : Bool} (h : Fenced s t s') (k : Nat) :
    ∃ m, Fenced m (joinLines ((splitLines t).drop k)) s' := by
  have hlines := h.lines
  rw [← List.take_append_drop k (splitLines t)] at hlines
  obtain ⟨m, -, hback⟩ := hlines.split
  exact ⟨m, hback.joined⟩

/-- What holds of a text and of every front of what it holds of holds of the head. -/
theorem keptHead_rule {P : Text → Prop} (htake : ∀ t k, P t → P (t.take k))
    (hlines : ∀ t k, P t → P (joinLines ((splitLines t).take k))) (h : P t) (budget : Nat) :
    P (keptHead t budget) := by
  have hpiece : P (headPiece t ((budget + 1) / 2)) := htake t _ h
  have hbefore : P (headBeforeLongFence (headPiece t ((budget + 1) / 2))) := by
    unfold headBeforeLongFence
    dsimp only
    split
    · split
      · exact hlines _ _ hpiece
      · exact hpiece
    · exact hpiece
  have hdrop : ∀ ls : List Text, ∃ k, dropFinalOpen ls = ls.take k := by
    intro ls
    rw [dropFinalOpen]
    split
    · exact ⟨ls.length - 1, List.dropLast_eq_take⟩
    · exact ⟨ls.length, List.take_length.symm⟩
  obtain ⟨k, hk⟩ := hdrop (splitLines (headBeforeLongFence (headPiece t ((budget + 1) / 2))))
  rw [keptHead, hk]
  exact hlines _ k hbefore

/-- What holds of a text and of every back of what it holds of holds of the tail. -/
theorem keptTail_rule {P : Text → Prop} (hnil : P []) (hdrop : ∀ t k, P t → P (t.drop k))
    (hlines : ∀ t k, P t → P (joinLines ((splitLines t).drop k))) (h : P t) (budget : Nat) :
    P (keptTail t budget) := by
  have hpiece : P (tailPiece t (budget / 2)) := hdrop t _ h
  have hafter : P (tailTextOf t budget) := by
    unfold tailTextOf tailAfterLongFence
    dsimp only
    split
    · split
      · exact hpiece
      · split
        · exact hnil
        · exact hlines _ _ h
    · exact hpiece
  have hfirst : ∀ ls : List Text, ∃ k, dropFirstClose ls = ls.drop k := by
    intro ls
    rw [dropFirstClose]
    split
    · exact ⟨1, List.drop_one.symm⟩
    · exact ⟨0, rfl⟩
  obtain ⟨k, hk⟩ := hfirst (splitLines (tailTextOf t budget))
  rw [keptTail, hk]
  exact hlines _ k hafter

/-! ## What a cut writes itself -/

/-- The `=` that every banner starts with. -/
theorem not_hasBanner_of_not_mem {us : List UInt16} (h : 61 ∉ us) : ¬ HasBanner us := by
  rintro ⟨b, hb⟩
  exact h (hb.mem (by cases b <;> exact List.mem_cons_self))

theorem fenceRun_units {us run : List UInt16} (h : fenceRun us = some run) : ∀ u ∈ run, u = 96 ∨ u = 126 := by
  cases us with
  | nil => cases h
  | cons c us =>
    simp only [fenceRun] at h
    split at h
    · next hc =>
      cases h
      rw [Bool.and_eq_true, Bool.or_eq_true, decide_eq_true_eq, decide_eq_true_eq] at hc
      intro u hu
      have heq : u = c := by simpa using List.mem_takeWhile_imp hu
      exact heq ▸ hc.1
    · cases h

theorem fenceOpener_units {line : Text} {opener : FenceOpener} (h : fenceOpener line = some opener) :
    ∀ u ∈ opener.run, u = 96 ∨ u = 126 := by
  unfold fenceOpener at h
  dsimp only at h
  split at h
  · cases h
  · split at h
    · cases h
    · next hrun =>
      split at h
      · cases h
      · cases h
        exact fenceRun_units hrun

theorem openFenceRun_units {run : List UInt16} (h : openFenceRun t = some run) :
    ∀ u ∈ run, u = 32 ∨ u = 96 ∨ u = 126 := by
  unfold openFenceRun openBlock at h
  split at h
  · next hblock =>
    split at h
    · cases h
      split at hblock
      · cases hblock
      · obtain ⟨opener, hopener, heq⟩ := Option.map_eq_some_iff.mp hblock
        cases heq
        intro u hu
        rcases List.mem_append.mp hu with hu | hu
        · exact .inl (List.eq_of_mem_replicate hu)
        · exact .inr (fenceOpener_units hopener u hu)
    · cases h
  · cases h

theorem openFenceRun_plain {run : List UInt16} (h : openFenceRun t = some run) : ¬ HasBanner run := by
  refine not_hasBanner_of_not_mem fun hmem => ?_
  rcases openFenceRun_units h 61 hmem with h | h | h <;> revert h <;> decide

theorem mem_groupDigits {c : Char} {ds : List Char} (h : c ∈ groupDigits ds) : c ∈ ds ∨ c = ',' := by
  induction ds using groupDigits.induct with
  | case1 a b c' d rest ih =>
    rw [groupDigits] at h
    simp only [List.mem_cons] at h ih ⊢
    rcases h with rfl | rfl | rfl | rfl | h
    · simp
    · simp
    · simp
    · simp
    · rcases ih h with (rfl | h) | rfl <;> simp [*]
  | case2 ds hds =>
    rw [groupDigits] at h
    · exact .inl h
    · exact hds

theorem omissionLine_units (n : Nat) : ∀ u ∈ units (omissionLine n), u ≠ 61 ∧ u ≠ newline := by
  have hlit : ∀ us : List UInt16, (us.all fun u => u ≠ 61 && u ≠ newline) = true →
      ∀ u ∈ us, u ≠ 61 ∧ u ≠ newline := by
    intro us h u hu
    have htest := List.all_eq_true.mp h u hu
    rwa [Bool.and_eq_true, decide_eq_true_eq, decide_eq_true_eq] at htest
  have hdigits : ∀ c ∈ (groupDigits (Nat.toDigits 10 n).reverse).reverse, c.toNat.toUInt16 ≠ 61 ∧
      c.toNat.toUInt16 ≠ newline := by
    intro c hc
    rcases mem_groupDigits (List.mem_reverse.mp hc) with hc | rfl
    · have hdigit := Nat.isDigit_of_mem_toDigits (by decide) (by decide) (List.mem_reverse.mp hc)
      rw [Char.isDigit, Bool.and_eq_true, decide_eq_true_eq, decide_eq_true_eq] at hdigit
      have hlow : 48 ≤ c.toNat := hdigit.1
      have hhigh : c.toNat ≤ 57 := hdigit.2
      have hsmall : c.toNat < 2 ^ 16 := by omega
      constructor <;> intro heq <;> have hval := congrArg UInt16.toNat heq <;>
        rw [Nat.toUInt16, UInt16.toNat_ofNat_of_lt' hsmall] at hval <;> simp [newline] at hval <;> omega
    · decide
  intro u hu
  simp only [omissionLine, units_append, lit, units_trusted, List.mem_append] at hu
  rcases hu with (((hu | hu) | hu) | hu) | hu
  · exact hlit _ rfl u hu
  · obtain ⟨c, hc, rfl⟩ := List.mem_map.mp hu
    exact hdigits c hc
  · exact hlit _ rfl u hu
  · refine hlit _ ?_ u hu
    rw [plural]
    split <;> rfl
  · exact hlit _ rfl u hu

theorem omissionLine_plain (n : Nat) : ¬ HasBanner (units (omissionLine n)) :=
  not_hasBanner_of_not_mem fun h => (omissionLine_units n 61 h).1 rfl

theorem omissionLine_clear (s : Bool) (n : Nat) : Clear s (omissionLine n) := by
  intro _ g hg
  simp only [omissionLine, List.mem_append] at hg
  rcases hg with (((hg | hg) | hg) | hg) | hg <;> exact agent_of_mem_trusted hg

/-! ## The cut of a whole text -/

theorem Fenced.closeBlock {m : Bool} (h : Fenced false t m) : Fenced false (closeBlock t) m := by
  unfold Fences.closeBlock
  split
  · next run hrun =>
    rw [lit_newline, List.append_assoc, List.singleton_append]
    refine h.join rfl (clear_trusted m [newline]) (.plain ?_ (clear_trusted m run))
    rw [units_trusted]
    exact openFenceRun_plain hrun
  · exact h

theorem Fenced.reopenBlock {m : Bool} {front : Text} (h : Fenced m t false) :
    Fenced m (reopenBlock front t) false := by
  unfold Fences.reopenBlock
  split
  · next run hrun =>
    rw [lit_newline, List.append_assoc, List.singleton_append]
    refine Fenced.join (.plain ?_ (clear_trusted m run)) rfl (clear_trusted m [newline]) h
    rw [units_trusted]
    exact openFenceRun_plain hrun
  · exact h

theorem lit_paragraph : lit "\n\n" = [⟨newline, false⟩, ⟨newline, false⟩] := rfl

/-- Fenced parts joined by an empty line. -/
theorem Fenced.paragraph {a b : Text} (ha : Fenced false a false) (hb : Fenced false b false) :
    Fenced false (a ++ lit "\n\n" ++ b) false := by
  rw [lit_paragraph, List.append_assoc, List.cons_append, List.singleton_append]
  exact ha.join rfl (clear_trusted false [newline])
    (.more (l := []) (.nil false) rfl (clear_trusted false [newline]) hb)

theorem Fenced.cutMiddle (h : Fenced false t false) (budget : Nat) :
    Fenced false (cutMiddle t budget balanceFences) false := by
  have hhead : ∃ m, Fenced false (keptHead t budget) m :=
    keptHead_rule (P := fun t => ∃ m, Fenced false t m) (fun _ k ⟨_, h⟩ => h.take k)
      (fun _ k ⟨_, h⟩ => h.takeLines k) ⟨false, h⟩ budget
  have htail : ∃ m, Fenced m (keptTail t budget) false :=
    keptTail_rule (P := fun t => ∃ m, Fenced m t false) ⟨false, .last (.nil false)⟩ (fun _ k ⟨_, h⟩ => h.drop k)
      (fun _ k ⟨_, h⟩ => h.dropLines k) ⟨false, h⟩ budget
  obtain ⟨m, hhead⟩ := hhead
  obtain ⟨m', htail⟩ := htail
  rw [Fences.cutMiddle]
  have homitted : ∀ n, Fenced false (omissionLine n) false := fun n =>
    .plain (omissionLine_plain n) (omissionLine_clear false n)
  have hrest : ∀ n : Nat, ∀ tailPart : Text, Fenced false tailPart false →
      Fenced false (omissionLine n ++ if tailPart = [] then [] else lit "\n\n" ++ tailPart) false := by
    intro n tailPart hpart
    split
    · rw [List.append_nil]
      exact homitted n
    · rw [← List.append_assoc]
      exact (homitted n).paragraph hpart
  have hlast := hrest (t.length - (keptHead t budget).length - (keptTail t budget).length)
    (if keptTail t budget = [] then [] else balanceFences
      (Fences.reopenBlock (t.take (t.length - (tailTextOf t budget).length)) (keptTail t budget))) (by
    split
    · exact .last (.nil false)
    · exact htail.reopenBlock.balance_back)
  split
  · exact hlast
  · exact hhead.closeBlock.balance_front.paragraph hlast

/-! ## The cut of one body -/

theorem units_take (t : Text) (k : Nat) : units (t.take k) <+: units t := (List.take_prefix k t).map _

theorem units_drop_suffix (t : Text) (k : Nat) : units (t.drop k) <:+ units t := (List.drop_suffix k t).map _

theorem joinLines_take_units (k : Nat) : units (joinLines ((splitLines t).take k)) <+: units t := by
  induction t using lines_induction generalizing k with
  | last l hl =>
    rw [splitLines_last hl]
    cases k with
    | zero => exact List.nil_prefix
    | succ k =>
      rw [List.take_succ_cons, List.take_nil]
      exact List.prefix_refl _
  | more l g t hl hg ih =>
    rw [splitLines_more hl hg, units_append, units_cons, hg]
    cases k with
    | zero => exact List.nil_prefix
    | succ k =>
      rw [List.take_succ_cons]
      cases hls : (splitLines t).take k with
      | nil => exact List.prefix_append _ _
      | cons l' ls =>
        have hrest := ih k
        rw [hls] at hrest
        rw [joinLines_cons, units_append, units_cons]
        exact (List.prefix_append_right_inj _).mpr ((List.prefix_cons_inj _).mpr hrest)

theorem joinLines_splitLines_units : units (joinLines (splitLines t)) = units t := by
  induction t using lines_induction with
  | last l hl => rw [splitLines_last hl, joinLines]
  | more l g t hl hg ih =>
    rw [splitLines_more hl hg, units_append, units_cons, hg]
    cases hls : splitLines t with
    | nil => exact absurd hls (List.splitOnP_ne_nil _ _)
    | cons l' ls =>
      rw [hls] at ih
      rw [joinLines_cons, units_append, units_cons, ih]

theorem joinLines_drop_units (k : Nat) : units (joinLines ((splitLines t).drop k)) <:+ units t := by
  induction t using lines_induction generalizing k with
  | last l hl =>
    rw [splitLines_last hl]
    cases k with
    | zero => exact List.suffix_refl _
    | succ k =>
      rw [List.drop_succ_cons, List.drop_nil]
      exact List.nil_suffix
  | more l g t hl hg ih =>
    cases k with
    | zero =>
      rw [List.drop_zero, joinLines_splitLines_units]
    | succ k =>
      rw [splitLines_more hl hg, List.drop_succ_cons, units_append, units_cons]
      exact (ih k).trans ((List.suffix_cons _ _).trans (List.suffix_append _ _))

theorem edgeFirst_of_head {h : Text} (hp : units h <+: units t) (ht : EdgeFirst t) : EdgeFirst h := by
  cases h with
  | nil => exact .inl rfl
  | cons g h =>
    refine .inr ⟨g, h, rfl, ?_⟩
    rcases ht with rfl | ⟨g', y, rfl, hg'⟩
    · exact absurd (List.prefix_nil.mp hp) (List.cons_ne_nil _ _)
    · rw [units_cons, units_cons, List.cons_prefix_cons] at hp
      exact hp.1 ▸ hg'

theorem Quiet.of_suffix {b : Text} (hs : units b <:+ units t) (ht : Quiet t) : Quiet b := by
  refine ⟨fun h => ht.plain (h.mono hs.isInfix), ?_⟩
  rcases List.eq_nil_or_concat b with rfl | ⟨y, g, rfl⟩
  · exact .inl rfl
  · refine .inr ⟨y, g, List.concat_eq_append, ?_⟩
    rw [List.concat_eq_append] at hs
    rcases ht.edge with rfl | ⟨y', g', rfl, hg'⟩
    · exact absurd (List.suffix_nil.mp hs) (by simp)
    · have hlast : g.unit = g'.unit := by
        obtain ⟨z, hz⟩ := hs
        simp only [units_append, units_cons, units_nil, ← List.append_assoc] at hz
        exact (List.append_singleton_inj.mp hz).2
      exact hlast ▸ hg'

theorem omissionLine_last (n : Nat) : ∃ x, omissionLine n = x ++ [⟨93, false⟩] := by
  have hlast : lit " omitted …]" = lit " omitted …" ++ [⟨93, false⟩] := rfl
  exact ⟨_, by rw [omissionLine, hlast, ← List.append_assoc]⟩

theorem omissionLine_quiet (n : Nat) : Quiet (omissionLine n) := by
  obtain ⟨x, hx⟩ := omissionLine_last n
  exact ⟨omissionLine_plain n, .inr ⟨x, _, hx, fun b => by cases b <;> simp [Banner.text, open_units, close_units]⟩⟩

theorem omissionLine_edgeFirst (n : Nat) : EdgeFirst (omissionLine n) := by
  have hfirst : EdgeFirst (lit "[… ") :=
    .inr ⟨⟨91, false⟩, lit "… ", rfl, fun b => by cases b <;> simp [Banner.text, open_units, close_units]⟩
  have hne : lit "[… " ≠ [] := List.cons_ne_nil _ _
  rw [omissionLine, List.append_assoc, List.append_assoc, List.append_assoc]
  exact hfirst.append hne

theorem Quiet.reopenBlock {front : Text} (h : Quiet t) : Quiet (reopenBlock front t) := by
  unfold Fences.reopenBlock
  split
  · next run hrun =>
    rw [lit_newline, List.append_assoc, List.singleton_append]
    refine .line ?_ rfl h
    rw [units_trusted]
    exact openFenceRun_plain hrun
  · exact h

theorem closeBlock_plain (h : ¬ HasBanner (units t)) : ¬ HasBanner (units (closeBlock t)) := by
  unfold closeBlock
  split
  · next run hrun =>
    rw [lit_newline, List.append_assoc, List.singleton_append, units_append, units_cons,
      hasBanner_append_cons edge_newline, units_trusted, not_or]
    exact ⟨h, openFenceRun_plain hrun⟩
  · exact h

theorem closeBlock_edgeFirst (h : EdgeFirst t) : EdgeFirst (closeBlock t) := by
  unfold closeBlock
  split
  · next run _ =>
    rcases eq_or_ne t [] with rfl | hne
    · exact .inr ⟨⟨newline, false⟩, trusted run, by rw [lit_newline]; rfl, edge_newline⟩
    · rw [List.append_assoc]
      exact h.append hne
  · exact h

/-- A body that is cut keeps its edges, and holds no banner. -/
theorem cutMiddle_inner (ht : Quiet t) (hfirst : EdgeFirst t) (budget : Nat) :
    Quiet (cutMiddle t budget id) ∧ cutMiddle t budget id ≠ [] ∧ EdgeFirst (cutMiddle t budget id) := by
  have hhead : units (keptHead t budget) <+: units t :=
    keptHead_rule (P := fun h => units h <+: units t)
      (fun h k hh => (units_take h k).trans hh)
      (fun h k hh => (joinLines_take_units k).trans hh) (List.prefix_refl _) budget
  have htail : units (keptTail t budget) <:+ units t :=
    keptTail_rule (P := fun h => units h <:+ units t) List.nil_suffix
      (fun h k hh => (units_drop_suffix h k).trans hh)
      (fun h k hh => (joinLines_drop_units k).trans hh) (List.suffix_refl _) budget
  rw [Fences.cutMiddle]
  generalize t.length - (keptHead t budget).length - (keptTail t budget).length = n
  generalize keptHead t budget = head at hhead
  generalize t.take (t.length - (tailTextOf t budget).length) = front
  generalize keptTail t budget = tail at htail
  have hplain : ¬ HasBanner (units (Fences.closeBlock head)) :=
    closeBlock_plain fun h => ht.plain (h.mono hhead.isInfix)
  have hpart : ∀ tailPart : Text, Quiet tailPart →
      Quiet (omissionLine n ++ if tailPart = [] then [] else lit "\n\n" ++ tailPart) := by
    intro tailPart hpart
    split
    · rw [List.append_nil]
      exact omissionLine_quiet n
    · rw [lit_paragraph, List.cons_append, List.singleton_append]
      exact .line (omissionLine_plain n) rfl (.line (l := []) not_hasBanner_nil rfl hpart)
  have hlast := hpart (if tail = [] then [] else id (Fences.reopenBlock front tail)) (by
    split
    · exact quiet_nil
    · exact (ht.of_suffix htail).reopenBlock)
  have hne : ∀ tailPart : Text, omissionLine n ++ tailPart ≠ [] := by
    intro tailPart h
    obtain ⟨x, hx⟩ := omissionLine_last n
    rw [hx] at h
    simp at h
  have hedge : ∀ tailPart : Text, EdgeFirst (omissionLine n ++ tailPart) := fun tailPart =>
    (omissionLine_edgeFirst n).append fun h => hne [] (by rw [h]; rfl)
  dsimp only [id] at hlast ⊢
  split
  · exact ⟨hlast, hne _, hedge _⟩
  · next hhead' =>
    rw [lit_paragraph] at hlast ⊢
    refine ⟨?_, ?_, ?_⟩
    · rw [List.append_assoc, List.cons_append, List.singleton_append]
      exact .line hplain rfl (.line (l := []) not_hasBanner_nil rfl hlast)
    · simp
    · rw [List.append_assoc]
      exact (closeBlock_edgeFirst (edgeFirst_of_head hhead hfirst)).append hhead'

end Cuts

/-! ## The cut of every body -/

section Bodies

theorem indexFrom_units (b : Banner) (pre t : Text) :
    indexFrom b.text (units (pre ++ t)) pre.length = (indexOf b.text (units t)).map (· + pre.length) := by
  have hlen : (units pre).length = pre.length := List.length_map _
  rw [indexFrom, units_append, ← hlen, List.drop_left]

theorem indexFrom_quiet (b : Banner) {y : Text} (hy : Quiet y) (pre w : Text) :
    indexFrom b.text (units (pre ++ (y ++ (trusted b.text ++ w)))) pre.length = some (y.length + pre.length) := by
  rw [indexFrom_units, units_append, hy.indexOf_append, units_append, units_trusted,
    indexOf_self_append b.text_ne_nil, Option.map_some, Option.map_some, Nat.zero_add]

theorem not_edgeFirst_open (w : Text) : ¬ EdgeFirst (trusted UNTRUSTED_OPEN ++ w) := by
  have hopen : ∃ us, trusted UNTRUSTED_OPEN = ⟨61, false⟩ :: us := ⟨(trusted UNTRUSTED_OPEN).tail, rfl⟩
  obtain ⟨us, hus⟩ := hopen
  rw [hus]
  rintro (h | ⟨g, y, h, hg⟩)
  · cases h
  · rw [List.cons_append, List.cons.injEq] at h
    rw [← h.1] at hg
    exact hg .opening List.mem_cons_self

/-- With every body replaced by one that keeps its edges and holds no banner, a chain is one. -/
theorem Chain.rebuild (cut : Body → Text → Text) (hcut : ∀ b v, Quiet v → v ≠ [] → EdgeFirst v →
      Quiet (cut b v) ∧ cut b v ≠ [] ∧ EdgeFirst (cut b v)) {t : Text} (h : Chain t) (pre : Text)
    (copied fuel : Nat) (hcopied : copied ≤ pre.length) (hfuel : t.length ≤ fuel) :
    ∃ t', Chain t' ∧ (EdgeFirst t → EdgeFirst t') ∧
      rebuild (pre ++ t) cut copied (fencedBodies (units (pre ++ t)) fuel pre.length) = pre.drop copied ++ t' := by
  induction h generalizing pre copied fuel with
  | @plain x hno hclear =>
    have hnone : fencedBodies (units (pre ++ x)) fuel pre.length = [] := by
      cases fuel with
      | zero => rfl
      | succ fuel =>
        have hindex := indexFrom_units .opening pre x
        rw [indexOf_eq_none fun h => hno ⟨.opening, h⟩, Option.map_none] at hindex
        rw [fencedBodies]
        rw [show indexFrom UNTRUSTED_OPEN (units (pre ++ x)) pre.length = none from hindex]
    rw [hnone]
    exact ⟨x, .plain hno hclear, fun h => h, List.drop_append_of_le_length hcopied⟩
  | @block x v z hx hclear hv hne hfirst hz _ ih =>
    have hopenLen : UNTRUSTED_OPEN.length = 38 := rfl
    have hcloseLen : UNTRUSTED_CLOSE.length = 36 := rfl
    have hlen : ∀ us : List UInt16, (trusted us).length = us.length := fun us => List.length_map _
    -- The text, its fence, and what is before and after it.
    generalize htext : pre ++ (x ++ (trusted UNTRUSTED_OPEN ++ (v ++ (trusted UNTRUSTED_CLOSE ++ z)))) = text
    have hstart : text = (pre ++ x ++ trusted UNTRUSTED_OPEN) ++ (v ++ (trusted UNTRUSTED_CLOSE ++ z)) := by
      simp [← htext, List.append_assoc]
    have hstop : text = (pre ++ x ++ trusted UNTRUSTED_OPEN ++ v) ++ (trusted UNTRUSTED_CLOSE ++ z) := by
      simp [← htext, List.append_assoc]
    have hafter : text = (pre ++ x ++ trusted UNTRUSTED_OPEN ++ v ++ trusted UNTRUSTED_CLOSE) ++ z := by
      simp [← htext, List.append_assoc]
    have hopened : indexFrom UNTRUSTED_OPEN (units text) pre.length = some (x.length + pre.length) :=
      htext ▸ indexFrom_quiet .opening hx pre _
    have hclosed : indexFrom UNTRUSTED_CLOSE (units text) (pre ++ x ++ trusted UNTRUSTED_OPEN).length =
        some (v.length + (pre ++ x ++ trusted UNTRUSTED_OPEN).length) :=
      hstart ▸ indexFrom_quiet .closing hv _ _
    have hstartLen : x.length + pre.length + UNTRUSTED_OPEN.length =
        (pre ++ x ++ trusted UNTRUSTED_OPEN).length := by
      rw [List.length_append, List.length_append, hlen]
      omega
    have hstopLen : v.length + (pre ++ x ++ trusted UNTRUSTED_OPEN).length =
        (pre ++ x ++ trusted UNTRUSTED_OPEN ++ v).length := by
      rw [show ∀ us : Text, (us ++ v).length = us.length + v.length from fun _ => List.length_append]
      omega
    have hafterLen : (pre ++ x ++ trusted UNTRUSTED_OPEN ++ v).length + UNTRUSTED_CLOSE.length =
        (pre ++ x ++ trusted UNTRUSTED_OPEN ++ v ++ trusted UNTRUSTED_CLOSE).length := by
      rw [show ∀ us : Text, (us ++ trusted UNTRUSTED_CLOSE).length = us.length + (trusted UNTRUSTED_CLOSE).length from
        fun _ => List.length_append, hlen]
    simp only [List.length_append, hlen] at hfuel
    obtain ⟨fuel, rfl⟩ : ∃ n, fuel = n + 1 := ⟨fuel - 1, by omega⟩
    obtain ⟨z', hz', hzfirst, hrest⟩ := ih (pre ++ x ++ trusted UNTRUSTED_OPEN ++ v ++ trusted UNTRUSTED_CLOSE)
      (pre ++ x ++ trusted UNTRUSTED_OPEN ++ v).length fuel (by simp) (by omega)
    rw [← hafter] at hrest
    rw [fencedBodies, hopened]
    dsimp only
    rw [hstartLen, hclosed]
    dsimp only
    rw [hstopLen, hafterLen, Fences.rebuild, hrest]
    dsimp only
    have hbody : (text.take (pre ++ x ++ trusted UNTRUSTED_OPEN ++ v).length).drop
        (pre ++ x ++ trusted UNTRUSTED_OPEN).length = v := by
      rw [hstop, List.take_left, List.drop_left]
    have hcopy : (text.take (pre ++ x ++ trusted UNTRUSTED_OPEN).length).drop copied =
        pre.drop copied ++ (x ++ trusted UNTRUSTED_OPEN) := by
      rw [hstart, List.take_left, List.append_assoc, List.drop_append_of_le_length hcopied]
    rw [hbody, hcopy, List.drop_left]
    obtain ⟨hv', hne', hfirst'⟩ := hcut ⟨(pre ++ x ++ trusted UNTRUSTED_OPEN).length,
      (pre ++ x ++ trusted UNTRUSTED_OPEN ++ v).length⟩ v hv hne hfirst
    refine ⟨_, .block hx hclear hv' hne' hfirst' (hzfirst hz) hz', fun hedge => ?_, ?_⟩
    · rcases eq_or_ne x [] with rfl | hxne
      · exact absurd hedge (not_edgeFirst_open _)
      · obtain ⟨g, y, heq, hg⟩ := hedge.resolve_left fun h => hxne (List.append_eq_nil_iff.mp h).1
        obtain ⟨g', x', rfl⟩ := List.exists_cons_of_ne_nil hxne
        rw [List.cons_append, List.cons.injEq] at heq
        exact .inr ⟨g', _, rfl, heq.1 ▸ hg⟩
    · simp [List.append_assoc]

theorem Chain.cutFencedBodies {t : Text} (h : Chain t) (budget : Nat) : Chain (cutFencedBodies t budget) := by
  obtain ⟨t', ht', -, heq⟩ := h.rebuild (fun b body =>
    let share := (((sharesOf budget ((fencedBodies (units t) t.length 0).mergeSort fun a b =>
      a.length ≤ b.length)).find? (·.1 = b)).map (·.2)).getD 0
    if share < body.length then cutMiddle body share id else body) (fun b v hv hne hfirst => by
      dsimp only
      split
      · exact cutMiddle_inner hv hfirst _
      · exact ⟨hv, hne, hfirst⟩) [] 0 t.length (Nat.le_refl 0) (Nat.le_refl _)
  rw [List.nil_append, List.drop_nil, List.nil_append, List.length_nil] at heq
  rw [Fences.cutFencedBodies]
  exact heq ▸ ht'

end Bodies

end Haive.Steps.Fences

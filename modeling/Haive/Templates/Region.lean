import Haive.Lib.Occurrences
import Haive.Lib.Text

/-!
# The managed region of a rules file

`upsertRegion` and `extractRegion` of `shared/src/templates/cli-rules.ts`: a block between two
markers is spliced into a text that its owner edits. Texts are lists of characters.

The region is what `indexOf` finds: from the first start marker to the first end marker at or
after it. `upsertRegion_kept_iff` says when that is the block again after a write. A start marker
that has no end marker is the case where it is not (`stray_start_swallows`): the block is
appended, and the next search runs from the stray marker to the end of the block.
-/

namespace Haive.Templates

open Lib

/-! ## Region and block -/

/-- `s.trimEnd()`. -/
def trimEnd (s : List Char) : List Char := s.rdropWhile isSpace

def CLI_RULES_START : List Char := "<!-- haive:cli-rules -->".toList
def CLI_RULES_END : List Char := "<!-- /haive:cli-rules -->".toList

def regionSpan (content startMarker endMarker : List Char) : Option (Nat × Nat) :=
  match indexOf startMarker content with
  | none => none
  | some start => (indexFrom endMarker content start).map fun endIdx => (start, endIdx + endMarker.length)

def extractRegion (content startMarker endMarker : List Char) : Option (List Char) :=
  (regionSpan content startMarker endMarker).map fun (start, stop) => (content.take stop).drop start

/-- What goes between a text and an appended block. -/
def separator (content : List Char) : List Char :=
  if content = [] ∨ content.getLast? = some '\n' then [] else ['\n']

def upsertRegion (content block startMarker endMarker : List Char) : List Char :=
  match regionSpan content startMarker endMarker with
  | some (start, stop) => content.take start ++ trimEnd block ++ content.drop stop
  | none => content ++ separator content ++ block

/-! ## Markers -/

/-- The markers that the callers pass are constants: none is empty or has a line end. -/
structure Markers where
  start : List Char
  stop : List Char
  start_ne : start ≠ []
  stop_ne : stop ≠ []
  start_line : '\n' ∉ start
  stop_line : '\n' ∉ stop

def cliRules : Markers where
  start := CLI_RULES_START
  stop := CLI_RULES_END
  start_ne := by decide
  stop_ne := by decide
  start_line := by decide
  stop_line := by decide

namespace Markers

variable (m : Markers)

def span (content : List Char) : Option (Nat × Nat) := regionSpan content m.start m.stop

def extract (content : List Char) : Option (List Char) := extractRegion content m.start m.stop

def upsert (content block : List Char) : List Char := upsertRegion content block m.start m.stop

def Frames (block : List Char) : Prop := ∃ text, trimEnd block = m.start ++ text ++ m.stop

/-- The text before the region and the text after it; all of it is before a region still to come. -/
def outside (content : List Char) : List Char × List Char :=
  match m.span content with
  | some (start, stop) => (content.take start, content.drop stop)
  | none => (content, [])

/-- What is asked of a write: a second one changes nothing, the region is the block, and the rest
is as it was, up to what an append adds around the block. -/
structure Kept (content block : List Char) : Prop where
  again : m.upsert (m.upsert content block) block = m.upsert content block
  region : m.extract (m.upsert content block) = some (trimEnd block)
  outside : ∃ sep tail, (m.outside (m.upsert content block)) =
      ((m.outside content).1 ++ sep, tail ++ (m.outside content).2) ∧
    ((m.span content).isSome → sep = [] ∧ tail = []) ∧
    (sep = [] ∨ sep = ['\n']) ∧ ∀ c ∈ tail, isSpace c = true

/-- No end marker stands in the block before its last. -/
def ClosesOnce (block : List Char) : Prop :=
  ∀ i, OccursAt m.stop (trimEnd block) i → (trimEnd block).length ≤ i + m.stop.length

/-- The first start marker of the text, if there is one, has an end marker at or after it. -/
def Paired (content : List Char) : Prop :=
  ∀ start, indexOf m.start content = some start → ∃ stop, start ≤ stop ∧ OccursAt m.stop content stop

variable {m} {content block pre post text : List Char}

theorem trimEnd_append_tail (block : List Char) :
    ∃ tail, block = trimEnd block ++ tail ∧ ∀ c ∈ tail, isSpace c = true :=
  ⟨block.rtakeWhile isSpace, List.rdropWhile_append_rtakeWhile.symm, fun _ hc => List.mem_rtakeWhile_imp hc⟩

theorem span_eq {i k : Nat} (hstart : indexOf m.start content = some i)
    (hstop : indexOf m.stop (content.drop i) = some k) :
    m.span content = some (i, i + k + m.stop.length) := by
  simp only [span, regionSpan, hstart, indexFrom, hstop, Option.map_some]
  rw [Nat.add_comm k]

theorem span_framed (hfirst : indexOf m.start (pre ++ m.start) = some pre.length)
    (hframes : trimEnd block = m.start ++ text ++ m.stop) {k : Nat}
    (hstop : indexOf m.stop (trimEnd block) = some k) (post : List Char) :
    m.span (pre ++ trimEnd block ++ post) = some (pre.length, pre.length + k + m.stop.length) := by
  refine span_eq ?_ ?_
  · rw [hframes]
    simpa using indexOf_append_right hfirst (text ++ m.stop ++ post)
  · rw [List.append_assoc, List.drop_left]
    exact indexOf_append_right hstop post

theorem Frames.stop (h : m.Frames block) :
    ∃ k, indexOf m.stop (trimEnd block) = some k ∧ k + m.stop.length ≤ (trimEnd block).length := by
  obtain ⟨text, htext⟩ := h
  cases hk : indexOf m.stop (trimEnd block) with
  | none =>
    rcases indexOf_eq_none_iff.mp hk with hnil | hno
    · rw [hnil] at htext
      exact absurd (List.append_eq_nil_iff.mp htext.symm).2 m.stop_ne
    · exact absurd (htext ▸ List.suffix_append _ m.stop).isInfix hno
  | some k => exact ⟨k, rfl, ((indexOf_eq_some m.stop_ne).mp hk).1.le m.stop_ne⟩

theorem closesOnce_iff {k : Nat} (hk : indexOf m.stop (trimEnd block) = some k) :
    m.ClosesOnce block ↔ k + m.stop.length = (trimEnd block).length := by
  obtain ⟨hat, hfirst⟩ := (indexOf_eq_some m.stop_ne).mp hk
  have hle := hat.le m.stop_ne
  constructor
  · intro h
    exact Nat.le_antisymm hle (h k hat)
  · intro h i hi
    have hik : k ≤ i := by
      by_contra hlt
      exact hfirst i (by omega) hi
    omega

theorem extract_of_span {i n : Nat} (h : m.span content = some (i, i + n)) :
    m.extract content = some ((content.drop i).take n) := by
  have h' : regionSpan content m.start m.stop = some (i, i + n) := h
  have hcut : (content.take (i + n)).drop i = (content.drop i).take n := by
    rw [List.drop_take, Nat.add_sub_cancel_left]
  rw [extract, extractRegion, h', ← hcut]
  rfl

/-! ## Writing -/

theorem upsert_of_span {i j : Nat} (h : m.span content = some (i, j)) (block : List Char) :
    m.upsert content block = content.take i ++ trimEnd block ++ content.drop j := by
  have h' : regionSpan content m.start m.stop = some (i, j) := h
  rw [upsert, upsertRegion, h']

theorem upsert_of_no_span (h : m.span content = none) (block : List Char) :
    m.upsert content block = content ++ separator content ++ block := by
  have h' : regionSpan content m.start m.stop = none := h
  rw [upsert, upsertRegion, h']

/-- Up to a last line end, a text with its separator is a beginning of the text. -/
theorem separated (h : content ≠ []) :
    ∃ line, content ++ separator content = line ++ ['\n'] ∧ line <+: content := by
  unfold separator
  split
  · next hsep =>
    have hlast := hsep.resolve_left h
    refine ⟨content.dropLast, ?_, List.dropLast_prefix content⟩
    rw [List.append_nil, List.dropLast_append_getLast? _ hlast]
  · exact ⟨content, rfl, List.prefix_rfl⟩

/-- The write puts the block where the first start marker is sought, and keeps what is around. -/
theorem Paired.upsert (h : m.Paired content) (block : List Char) : ∃ pre post sep tail,
    m.upsert content block = pre ++ trimEnd block ++ post ∧
      indexOf m.start (pre ++ m.start) = some pre.length ∧
      (pre, post) = ((m.outside content).1 ++ sep, tail ++ (m.outside content).2) ∧
      ((m.span content).isSome → sep = [] ∧ tail = []) ∧
      (sep = [] ∨ sep = ['\n']) ∧ ∀ c ∈ tail, isSpace c = true := by
  cases hstart : indexOf m.start content with
  | some i =>
    obtain ⟨hfirst, _⟩ := indexOf_split m.start_ne hstart
    have hi : (content.take i).length = i := by
      have hle := ((indexOf_eq_some m.start_ne).mp hstart).1.le m.start_ne
      rw [List.length_take]
      omega
    obtain ⟨k, hk⟩ : ∃ k, indexOf m.stop (content.drop i) = some k := by
      cases hk : indexOf m.stop (content.drop i) with
      | some k => exact ⟨k, rfl⟩
      | none =>
        have hinfix := infix_drop_iff.mpr (h i hstart)
        rcases indexOf_eq_none_iff.mp hk with hnil | hno
        · rw [hnil] at hinfix
          exact absurd (List.infix_nil.mp hinfix) m.stop_ne
        · exact absurd hinfix hno
    have hspan := span_eq hstart hk
    refine ⟨content.take i, content.drop (i + k + m.stop.length), [], [],
      upsert_of_span hspan block, by rw [hi]; exact hfirst, ?_, fun _ => ⟨rfl, rfl⟩, .inl rfl, by simp⟩
    simp [outside, hspan]
  | none =>
    have hspan : m.span content = none := by simp [span, regionSpan, hstart]
    obtain ⟨tail, htail, hspaces⟩ := trimEnd_append_tail block
    refine ⟨content ++ separator content, tail, separator content, tail, ?_, ?_, ?_, ?_, ?_, hspaces⟩
    · rw [upsert_of_no_span hspan, List.append_assoc _ (trimEnd block), ← htail]
    · by_cases hnil : content = []
      · subst hnil
        simpa [separator] using indexOf_self_append m.start_ne []
      · obtain ⟨line, hline, hpre⟩ := separated hnil
        have hno : ¬ m.start <:+: line := fun hin => by
          rcases indexOf_eq_none_iff.mp hstart with hempty | hnot
          · exact hnil hempty
          · exact hnot (hin.trans hpre.isInfix)
        have hself := indexOf_self_append m.start_ne []
        rw [List.append_nil] at hself
        rw [hline, List.append_assoc, List.singleton_append,
          indexOf_append_cons m.start_ne m.start_line hno, hself]
        simp
    · simp [outside, hspan]
    · rw [hspan]
      exact fun hsome => absurd hsome (by simp)
    · unfold separator
      split
      · exact .inl rfl
      · exact .inr rfl

/-- With a start marker that no end marker follows, the region found after the write begins there,
so it is longer than the block. -/
theorem region_of_stray (hstray : ¬ m.Paired content) (hframes : m.Frames block) :
    m.extract (m.upsert content block) ≠ some (trimEnd block) := by
  obtain ⟨i, hstart, hnone⟩ : ∃ i, indexOf m.start content = some i ∧ ¬ m.stop <:+: content.drop i := by
    by_contra hno
    refine hstray fun i hi => ?_
    by_contra hstop
    exact hno ⟨i, hi, fun hin => hstop (infix_drop_iff.mp hin)⟩
  obtain ⟨k, hk, hlen⟩ := hframes.stop
  obtain ⟨tail, htail, _⟩ := trimEnd_append_tail block
  have hocc := ((indexOf_eq_some m.start_ne).mp hstart).1.le m.start_ne
  have hpos := List.length_pos_of_ne_nil m.start_ne
  have hne : content ≠ [] := by
    rintro rfl
    simp only [List.length_nil] at hocc
    omega
  obtain ⟨line, hline, hpre⟩ := separated hne
  have hi : i ≤ line.length := by
    have h := congrArg List.length hline
    simp only [List.length_append, List.length_singleton] at h
    omega
  have hnoStop : ¬ m.stop <:+: line.drop i := fun hin => hnone (hin.trans (hpre.drop i).isInfix)
  have hnoSpan : m.span content = none := by
    have hnone' : indexOf m.stop (content.drop i) = none := indexOf_eq_none hnone
    simp [span, regionSpan, hstart, indexFrom, hnone']
  have hwrite : m.upsert content block = line.take i ++ (line.drop i ++ '\n' :: block) := by
    rw [upsert_of_no_span hnoSpan, hline, ← List.append_assoc, List.take_append_drop,
      List.append_assoc, List.singleton_append]
  have htake : (line.take i).length = i := by
    rw [List.length_take]
    omega
  have hspan : m.span (m.upsert content block) =
      some (i, i + (k + ((line.drop i).length + 1)) + m.stop.length) := by
    refine span_eq ?_ ?_
    · rw [upsert_of_no_span hnoSpan, List.append_assoc]
      exact indexOf_append_right hstart _
    · have hblock : indexOf m.stop block = some k := htail ▸ indexOf_append_right hk tail
      rw [hwrite, List.drop_left' htake, indexOf_append_cons m.stop_ne m.stop_line hnoStop, hblock]
      rfl
  have hcut : (trimEnd block).take (k + m.stop.length) = (trimEnd block).take k ++ m.stop := by
    have hsplit := (indexOf_split m.stop_ne hk).2
    conv_lhs => rw [hsplit]
    refine List.take_left' ?_
    rw [List.length_append, List.length_take]
    omega
  have hext : m.extract (m.upsert content block) =
      some (line.drop i ++ '\n' :: ((trimEnd block).take k ++ m.stop)) := by
    have hblock : block.take (k + m.stop.length) = (trimEnd block).take (k + m.stop.length) := by
      conv_lhs => rw [htail]
      exact List.take_append_of_le_length hlen
    have hn : k + ((line.drop i).length + 1) + m.stop.length =
        (line.drop i).length + (k + m.stop.length + 1) := by omega
    rw [Nat.add_assoc, hn] at hspan
    rw [extract_of_span hspan, hwrite, List.drop_left' htake, List.take_length_add_append,
      List.take_succ_cons, hblock, hcut]
  rw [hext, ne_eq, Option.some.injEq]
  intro heq
  have hmoved := indexOf_append_cons (b := (trimEnd block).take k ++ m.stop) m.stop_ne m.stop_line hnoStop
  rw [heq, hk, (indexOf_split m.stop_ne hk).1, Option.map_some, Option.some.injEq] at hmoved
  omega

theorem upsertRegion_kept_iff (m : Markers) (content block : List Char) (hframes : m.Frames block) :
    m.Kept content block ↔ m.ClosesOnce block ∧ m.Paired content := by
  obtain ⟨k, hk, hlen⟩ := hframes.stop
  obtain ⟨text, htext⟩ := id hframes
  by_cases hpaired : m.Paired content
  · obtain ⟨pre, post, sep, tail, hwrite, hfirst, houtside, hspaces⟩ := hpaired.upsert block
    have hspan := span_framed hfirst htext hk post
    rw [← hwrite] at hspan
    rw [closesOnce_iff hk, and_iff_left hpaired]
    have hdrop : (m.upsert content block).drop pre.length = trimEnd block ++ post := by
      rw [hwrite, List.append_assoc, List.drop_left]
    rw [Nat.add_assoc] at hspan
    constructor
    · intro h
      have hregion := h.region
      rw [extract_of_span hspan, hdrop, List.take_append_of_le_length hlen, Option.some.injEq] at hregion
      have hlength := congrArg List.length hregion
      rw [List.length_take] at hlength
      omega
    · intro hclosed
      rw [hclosed] at hspan
      have hbefore : (m.upsert content block).take pre.length = pre := by
        rw [hwrite, List.append_assoc, List.take_left]
      have hafter : (m.upsert content block).drop (pre.length + (trimEnd block).length) = post := by
        rw [← List.drop_drop, hdrop, List.drop_left]
      refine ⟨?_, ?_, sep, tail, ?_, hspaces⟩
      · rw [upsert_of_span hspan, hbefore, hafter, ← hwrite]
      · rw [extract_of_span hspan, hdrop, List.take_left]
      · rw [← houtside, outside, hspan]
        exact Prod.ext hbefore hafter
  · exact iff_of_false (fun h => region_of_stray hpaired hframes h.region) fun h => hpaired h.2

end Markers

/-! ## Two files -/

namespace Sample

def rules : List Char := "<!-- haive:cli-rules -->\n- a\n<!-- /haive:cli-rules -->\n".toList

def region : List Char := "<!-- haive:cli-rules -->\n- a\n<!-- /haive:cli-rules -->".toList

/-- A start marker without its end, and a line of the owner. -/
def stray : List Char := "<!-- haive:cli-rules -->\nmine\n".toList

end Sample

theorem frames_rules : cliRules.Frames Sample.rules := ⟨"\n- a\n".toList, by decide⟩

set_option maxRecDepth 8000 in
theorem upsertRegion_kept_plain : ∃ content block, cliRules.Frames block ∧ cliRules.Kept content block := by
  have honce : cliRules.ClosesOnce Sample.rules :=
    (Markers.closesOnce_iff (k := 29) (by decide)).mpr (by decide)
  have hpaired : cliRules.Paired "mine".toList := by
    have hnone : indexOf cliRules.start "mine".toList = none := by decide
    intro start hstart
    rw [hnone] at hstart
    cases hstart
  exact ⟨"mine".toList, Sample.rules, frames_rules,
    (Markers.upsertRegion_kept_iff cliRules _ _ frames_rules).mpr ⟨honce, hpaired⟩⟩

set_option maxRecDepth 8000 in
/-- The block goes below the owner's line; written again, it takes the line's place. -/
theorem stray_start_swallows : cliRules.Frames Sample.rules ∧
    cliRules.upsert Sample.stray Sample.rules = Sample.stray ++ Sample.rules ∧
    cliRules.extract (Sample.stray ++ Sample.rules) = some (Sample.stray ++ Sample.region) ∧
    cliRules.upsert (Sample.stray ++ Sample.rules) Sample.rules = Sample.rules ∧
    ¬ cliRules.Kept Sample.stray Sample.rules := by
  have honce : cliRules.upsert Sample.stray Sample.rules = Sample.stray ++ Sample.rules := by decide
  have hext : cliRules.extract (Sample.stray ++ Sample.rules) =
      some (Sample.stray ++ Sample.region) := by decide
  refine ⟨frames_rules, honce, hext, by decide, fun h => ?_⟩
  have hregion := h.region
  rw [honce, hext, Option.some.injEq] at hregion
  exact absurd (congrArg List.length hregion) (by decide)

end Haive.Templates

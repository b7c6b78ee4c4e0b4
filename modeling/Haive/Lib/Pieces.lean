import Haive.Lib.Loop
import Haive.Lib.TextSpans

/-!
# A scan that collects spans

A scan reads a text piece by piece: from each place on, the spans of the piece and where the next piece
starts. Pieces that move on and keep their spans inside themselves give a scan that ends with ordered spans.
`overlay` changes the units of a text inside of spans and nothing else.
-/

namespace Lib.Spans

open Loop

/-! ## Scans -/

/-- The spans found so far and where the next piece starts. -/
abbrev Scan := List Span × Nat

/-- The loop over the pieces of a text of this length. -/
def scanTurn (piece : Nat → Scan) (length : Nat) (s : Scan) : Scan ⊕ List Span :=
  if s.2 < length then .inl (s.1 ++ (piece s.2).1, (piece s.2).2) else .inr s.1

/-- A piece that starts at `i` moves on, not behind the end of the text, and keeps its spans in itself. -/
structure Moves (i length : Nat) (piece : Scan) : Prop where
  lt : i < piece.2
  le : piece.2 ≤ length
  ordered : Ordered i piece.2 piece.1

variable {piece : Nat → Scan} {length lo : Nat} {s : Scan}

theorem Moves.one {i stop : Nat} {span : Span} (hlt : i < stop) (hle : stop ≤ length) (hstart : i ≤ span.1)
    (hspan : span.1 ≤ span.2) (hstop : span.2 ≤ stop) : Moves i length ([span], stop) :=
  ⟨hlt, hle, hstart, hspan, hstop⟩

theorem Moves.none {i stop : Nat} (hlt : i < stop) (hle : stop ≤ length) : Moves i length ([], stop) :=
  ⟨hlt, hle, hlt.le⟩

theorem falls_scanTurn (h : ∀ i < length, Moves i length (piece i)) : Falls (scanTurn piece length) fun s => length - s.2 := by
  intro s t ht
  rw [scanTurn] at ht
  split at ht
  · next hlt =>
    cases ht
    have hmoves := (h s.2 hlt).lt
    exact (by omega : length - (piece s.2).2 < length - s.2)
  · cases ht

def scan (piece : Nat → Scan) (length : Nat) (h : ∀ i < length, Moves i length (piece i)) (s : Scan) : List Span :=
  run (scanTurn piece length) (fun s => length - s.2) (falls_scanTurn h) s

theorem returns_scan (h : ∀ i < length, Moves i length (piece i)) (s : Scan) :
    Returns (scanTurn piece length) s (scan piece length h s) := returns_run _ s

theorem scan_ordered (h : ∀ i < length, Moves i length (piece i)) (hs : Ordered lo s.2 s.1) (hle : s.2 ≤ length) :
    Ordered lo length (scan piece length h s) := by
  refine run_invariant (falls_scanTurn h) (P := fun s => Ordered lo s.2 s.1 ∧ s.2 ≤ length)
    (fun s t hP ht => ?_) (fun s spans hP hstop => ?_) ⟨hs, hle⟩
  · rw [scanTurn] at ht
    split at ht
    · next hlt =>
      cases ht
      exact ⟨hP.1.append (h s.2 hlt).ordered, (h s.2 hlt).le⟩
    · cases ht
  · rw [scanTurn] at hstop
    split at hstop
    · cases hstop
    · cases hstop
      exact hP.1.mono hP.2

/-! ## Overlays -/

section

variable {α : Type} (f : α → α) (text : List α)

/-- The text from `cursor` on, changed inside of the spans. -/
def overlay (cursor : Nat) : List Span → List α
  | [] => text.drop cursor
  | span :: rest => (text.take span.1).drop cursor ++ ((text.take span.2).drop span.1).map f ++ overlay span.2 rest

end

variable {α : Type} {f : α → α} {text : List α} {spans : List Span} {cursor : Nat}

theorem length_overlay (h : Ordered cursor text.length spans) :
    (overlay f text cursor spans).length = text.length - cursor := by
  induction spans generalizing cursor with
  | nil => rw [overlay, List.length_drop]
  | cons span rest ih =>
    obtain ⟨hstart, hstop, hrest⟩ := h
    have hle := hrest.le
    rw [overlay, List.length_append, List.length_append, List.length_map, List.length_drop, List.length_drop,
      List.length_take_of_le hle, List.length_take_of_le (hstop.trans hle), ih hrest]
    omega

/-- A unit inside of a span is changed, another one is not. -/
theorem getElem?_overlay (h : Ordered cursor text.length spans) {i : Nat} (hi : cursor ≤ i) :
    ((∃ span ∈ spans, span.Holds i) → (overlay f text cursor spans)[i - cursor]? = text[i]?.map f) ∧
      ((∀ span ∈ spans, ¬ span.Holds i) → (overlay f text cursor spans)[i - cursor]? = text[i]?) := by
  induction spans generalizing cursor with
  | nil =>
    refine ⟨fun ⟨span, hmem, _⟩ => absurd hmem List.not_mem_nil, fun _ => ?_⟩
    rw [overlay, List.getElem?_drop, Nat.add_sub_cancel' hi]
  | cons span rest ih =>
    obtain ⟨hstart, hstop, hrest⟩ := h
    have hle := hrest.le
    have hfront : ((text.take span.1).drop cursor).length = span.1 - cursor := by
      rw [List.length_drop, List.length_take_of_le (hstop.trans hle)]
    have hinside : (((text.take span.2).drop span.1).map f).length = span.2 - span.1 := by
      rw [List.length_map, List.length_drop, List.length_take_of_le hle]
    rw [overlay, List.append_assoc]
    rcases Nat.lt_or_ge i span.1 with hbefore | hbehind
    · refine ⟨fun ⟨held, hmem, hheld⟩ => ?_, fun _ => ?_⟩
      · rcases List.mem_cons.mp hmem with rfl | hmem
        · exact absurd (hheld.1.trans_lt hbefore) (Nat.lt_irrefl _)
        · have hafter := (hrest.bounds hmem).1
          exact absurd (hheld.1.trans_lt (hbefore.trans_le (hstop.trans hafter))) (Nat.lt_irrefl _)
      · rw [List.getElem?_append_left (by omega), List.getElem?_drop, Nat.add_sub_cancel' hi,
          List.getElem?_take_of_lt hbefore]
    · rw [List.getElem?_append_right (by omega), hfront, (by omega : i - cursor - (span.1 - cursor) = i - span.1)]
      rcases Nat.lt_or_ge i span.2 with hin | hout
      · refine ⟨fun _ => ?_, fun hnone => absurd ⟨hbehind, hin⟩ (hnone span List.mem_cons_self)⟩
        rw [List.getElem?_append_left (by omega), List.getElem?_map, List.getElem?_drop, Nat.add_sub_cancel' hbehind,
          List.getElem?_take_of_lt hin]
      · rw [List.getElem?_append_right (by omega), hinside, (by omega : i - span.1 - (span.2 - span.1) = i - span.2)]
        refine ⟨fun ⟨held, hmem, hheld⟩ => ?_, fun hnone => ?_⟩
        · rcases List.mem_cons.mp hmem with rfl | hmem
          · exact absurd (hheld.2.trans_le hout) (Nat.lt_irrefl _)
          · exact (ih hrest hout).1 ⟨held, hmem, hheld⟩
        · exact (ih hrest hout).2 fun held hmem => hnone held (List.mem_cons_of_mem _ hmem)

end Lib.Spans

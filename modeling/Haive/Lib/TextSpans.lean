import Mathlib

/-!
# Spans in order

Stretches of a text, each given by where it starts and where it ends. `Ordered` spans stand one behind the
other between two bounds, so a place is in one of them at most.
-/

namespace Lib.Spans

/-- A stretch of a text: where it starts and where it ends. -/
abbrev Span := Nat × Nat

/-- The place is in the span. -/
def Span.Holds (span : Span) (i : Nat) : Prop := span.1 ≤ i ∧ i < span.2

/-- The spans stand between `lo` and `hi`, each behind the one before. -/
def Ordered (lo hi : Nat) : List Span → Prop
  | [] => lo ≤ hi
  | span :: rest => lo ≤ span.1 ∧ span.1 ≤ span.2 ∧ Ordered span.2 hi rest

variable {lo mid hi : Nat} {spans more : List Span} {span : Span}

theorem Ordered.le (h : Ordered lo hi spans) : lo ≤ hi := by
  induction spans generalizing lo with
  | nil => exact h
  | cons span rest ih => exact h.1.trans (h.2.1.trans (ih h.2.2))

theorem Ordered.append (h : Ordered lo mid spans) (hmore : Ordered mid hi more) : Ordered lo hi (spans ++ more) := by
  induction spans generalizing lo with
  | nil =>
    cases more with
    | nil => exact Nat.le_trans h hmore
    | cons span rest => exact ⟨Nat.le_trans h hmore.1, hmore.2⟩
  | cons span rest ih => exact ⟨h.1, h.2.1, ih h.2.2⟩

theorem ordered_append : Ordered lo hi (spans ++ more) ↔ ∃ mid, Ordered lo mid spans ∧ Ordered mid hi more := by
  refine ⟨fun h => ?_, fun ⟨_, h, hmore⟩ => h.append hmore⟩
  induction spans generalizing lo with
  | nil => exact ⟨lo, Nat.le_refl _, h⟩
  | cons span rest ih =>
    obtain ⟨mid, hrest, hmore⟩ := ih h.2.2
    exact ⟨mid, ⟨h.1, h.2.1, hrest⟩, hmore⟩

theorem ordered_singleton : Ordered lo hi [span] ↔ lo ≤ span.1 ∧ span.1 ≤ span.2 ∧ span.2 ≤ hi := Iff.rfl

theorem Ordered.mono (h : Ordered lo mid spans) (hle : mid ≤ hi) : Ordered lo hi spans := by
  have happ := @Ordered.append _ _ _ _ [] h hle
  rwa [List.append_nil] at happ

theorem Ordered.behind (h : Ordered mid hi spans) (hle : lo ≤ mid) : Ordered lo hi spans :=
  @Ordered.append _ _ _ [] _ hle h

theorem Ordered.concat (h : Ordered lo mid spans) (hstart : mid ≤ span.1) (hstop : span.1 ≤ span.2) :
    Ordered lo span.2 (spans ++ [span]) :=
  h.append (ordered_singleton.mpr ⟨hstart, hstop, Nat.le_refl _⟩)

theorem Ordered.bounds (h : Ordered lo hi spans) (hmem : span ∈ spans) : lo ≤ span.1 ∧ span.1 ≤ span.2 ∧ span.2 ≤ hi := by
  induction spans generalizing lo with
  | nil => cases hmem
  | cons first rest ih =>
    rcases List.mem_cons.mp hmem with rfl | hmem
    · exact ⟨h.1, h.2.1, h.2.2.le⟩
    · obtain ⟨hstart, hstop, hhi⟩ := ih h.2.2 hmem
      exact ⟨h.1.trans (h.2.1.trans hstart), hstop, hhi⟩

theorem Ordered.pairwise (h : Ordered lo hi spans) : spans.Pairwise fun a b => a.2 ≤ b.1 := by
  induction spans generalizing lo with
  | nil => exact .nil
  | cons first rest ih => exact .cons (fun b hb => (h.2.2.bounds hb).1) (ih h.2.2)

theorem Ordered.existsUnique (h : Ordered lo hi spans) {i : Nat} (hheld : ∃ span ∈ spans, span.Holds i) :
    ∃! k : Fin spans.length, (spans.get k).Holds i := by
  obtain ⟨span, hmem, hspan⟩ := hheld
  obtain ⟨k, rfl⟩ := List.get_of_mem hmem
  have hapart := List.pairwise_iff_get.mp h.pairwise
  refine ⟨k, hspan, fun j hj => ?_⟩
  rcases lt_trichotomy j k with hlt | heq | hlt
  · exact absurd (hj.2.trans_le ((hapart j k hlt).trans hspan.1)) (Nat.lt_irrefl i)
  · exact heq
  · exact absurd (hspan.2.trans_le ((hapart k j hlt).trans hj.1)) (Nat.lt_irrefl i)

end Lib.Spans

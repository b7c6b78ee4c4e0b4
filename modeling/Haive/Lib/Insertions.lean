import Mathlib.Data.List.Infix

/-!
# Separators put into a text

A separator is put in front of the units at the positions of a list of cuts. What was put in can be
taken out again, and a word without the separator stands in the new text exactly where it stood in the
old one and was not cut.
-/

namespace Lib

variable {α : Type} (sep : α) (cuts : List Nat)

/-- The text from position `p` on with the separator at each cut. -/
def insertAt : Nat → List α → List α
  | p, [] => List.replicate (cuts.count p) sep
  | p, u :: t => List.replicate (cuts.count p) sep ++ u :: insertAt (p + 1) t

/-- Takes out what was put in, `k` units of it in front of position `p`. -/
def removeAt : Nat → Nat → List α → List α
  | _, _, [] => []
  | p, k + 1, _ :: t => removeAt p k t
  | p, 0, u :: t => u :: removeAt (p + 1) (cuts.count (p + 1)) t

theorem removeAt_replicate (p : Nat) (k : Nat) (t : List α) :
    removeAt cuts p k (List.replicate k sep ++ t) = removeAt cuts p 0 t := by
  induction k with
  | zero => rfl
  | succ k ih => rw [List.replicate_succ, List.cons_append, removeAt, ih]

theorem removeAt_insertAt (p : Nat) (t : List α) : removeAt cuts p (cuts.count p) (insertAt sep cuts p t) = t := by
  induction t generalizing p with
  | nil =>
    have hnone := removeAt_replicate sep cuts p (cuts.count p) []
    rw [List.append_nil] at hnone
    rw [insertAt, hnone, removeAt]
  | cons u t ih => rw [insertAt, removeAt_replicate, removeAt, ih]

section Words

variable {sep} {cuts}

theorem prefix_replicate_append {w : List α} (hsep : sep ∉ w) (hw : w ≠ []) {k : Nat} {t : List α} :
    w <+: List.replicate k sep ++ t ↔ k = 0 ∧ w <+: t := by
  cases k with
  | zero => simp
  | succ k =>
    refine iff_of_false (fun h => ?_) fun h => nomatch h.1
    cases w with
    | nil => exact hw rfl
    | cons v w =>
      rw [List.replicate_succ, List.cons_append, List.cons_prefix_cons] at h
      exact hsep (h.1 ▸ List.mem_cons_self)

/-- A word stands in the new text where it stood in the old one and was not cut. -/
theorem prefix_insertAt_iff {w : List α} (hsep : sep ∉ w) {p : Nat} {t : List α} :
    w <+: insertAt sep cuts p t ↔ w <+: t ∧ ∀ i < w.length, p + i ∉ cuts := by
  induction w generalizing p t with
  | nil => simp
  | cons v w ih =>
    rw [List.mem_cons, not_or] at hsep
    have hsep' : sep ∉ v :: w := List.not_mem_cons_of_ne_of_not_mem hsep.1 hsep.2
    cases t with
    | nil =>
      have hnil := prefix_replicate_append hsep' (List.cons_ne_nil v w) (k := cuts.count p) (t := [])
      rw [List.append_nil] at hnil
      rw [insertAt, hnil]
      exact iff_of_false (fun h => absurd h.2 (by simp)) fun h => absurd h.1 (by simp)
    | cons u t =>
      rw [insertAt, prefix_replicate_append hsep' (List.cons_ne_nil v w), List.cons_prefix_cons, List.cons_prefix_cons,
        ih hsep.2, List.count_eq_zero]
      constructor
      · rintro ⟨hp, rfl, hw, hrest⟩
        refine ⟨⟨rfl, hw⟩, fun i hi => ?_⟩
        cases i with
        | zero => exact hp
        | succ i =>
          rw [← Nat.add_assoc, Nat.add_right_comm]
          exact hrest i (Nat.lt_of_succ_lt_succ hi)
      · rintro ⟨⟨rfl, hw⟩, hall⟩
        refine ⟨hall 0 (Nat.succ_pos _), rfl, hw, fun i hi => ?_⟩
        rw [Nat.add_right_comm, Nat.add_assoc]
        exact hall (i + 1) (Nat.succ_lt_succ hi)

/-- A stretch without cuts is kept as it is. -/
theorem insertAt_append_of_uncut {a : List α} {p : Nat} (h : ∀ i < a.length, p + i ∉ cuts) (b : List α) :
    insertAt sep cuts p (a ++ b) = a ++ insertAt sep cuts (p + a.length) b := by
  induction a generalizing p with
  | nil => rfl
  | cons u a ih =>
    have hzero : cuts.count p = 0 := List.count_eq_zero.mpr (h 0 (Nat.succ_pos _))
    have hrest : ∀ i < a.length, p + 1 + i ∉ cuts := by
      intro i hi
      rw [Nat.add_right_comm, Nat.add_assoc]
      exact h (i + 1) (Nat.succ_lt_succ hi)
    rw [List.cons_append, insertAt, hzero, List.replicate_zero, List.nil_append, ih hrest, List.cons_append,
      List.length_cons, Nat.add_assoc, Nat.add_comm 1]

theorem prefix_cons_insertAt_iff {w : List α} (hsep : sep ∉ w) {p : Nat} {u : α} {t : List α} :
    w <+: u :: insertAt sep cuts (p + 1) t ↔ w <+: u :: t ∧ ∀ i, 0 < i → i < w.length → p + i ∉ cuts := by
  cases w with
  | nil => simp
  | cons v w =>
    rw [List.mem_cons, not_or] at hsep
    rw [List.cons_prefix_cons, List.cons_prefix_cons, prefix_insertAt_iff hsep.2, and_assoc]
    refine and_congr_right fun _ => and_congr_right fun _ => ⟨fun h i hpos hi => ?_, fun h i hi => ?_⟩
    · obtain ⟨j, rfl⟩ := Nat.exists_eq_add_of_lt hpos
      rw [Nat.zero_add, Nat.add_comm j, ← Nat.add_assoc]
      rw [Nat.zero_add] at hi
      exact h j (Nat.lt_of_succ_lt_succ hi)
    · rw [Nat.add_assoc, Nat.add_comm 1]
      exact h (i + 1) (Nat.succ_pos i) (Nat.succ_lt_succ hi)

/-! ## Where a word stands -/

variable [DecidableEq α] {w : List α}

/-- The tails of the text that start with the word. -/
def tailsAt (w t : List α) : List (List α) := t.tails.filter (w <+: ·)

theorem tailsAt_cons (u : α) (t : List α) :
    tailsAt w (u :: t) = if w <+: u :: t then (u :: t) :: tailsAt w t else tailsAt w t := by
  rw [tailsAt, List.tails_cons, List.filter_cons]
  exact if_congr decide_eq_true_iff rfl rfl

theorem tailsAt_replicate (hsep : sep ∉ w) (hw : w ≠ []) (k : Nat) (t : List α) :
    tailsAt w (List.replicate k sep ++ t) = tailsAt w t := by
  induction k with
  | zero => rfl
  | succ k ih =>
    have hno : ¬ w <+: List.replicate (k + 1) sep ++ t :=
      fun h => nomatch ((prefix_replicate_append hsep hw).mp h).1
    rw [List.replicate_succ, List.cons_append] at hno ⊢
    rw [tailsAt_cons, if_neg hno, ih]

/-- No tail starts with the word in a stretch in which every occurrence is cut. -/
theorem tailsAt_insertAt_of_cut (hsep : sep ∉ w) (hw : w ≠ []) {a : List α} {p : Nat} {b : List α}
    (h : ∀ i < a.length, w <+: (a ++ b).drop i → ∃ j, 0 < j ∧ j < w.length ∧ p + i + j ∈ cuts) :
    tailsAt w (insertAt sep cuts p (a ++ b)) = tailsAt w (insertAt sep cuts (p + a.length) b) := by
  induction a generalizing p with
  | nil => rfl
  | cons u a ih =>
    have hno : ¬ w <+: u :: insertAt sep cuts (p + 1) (a ++ b) := by
      intro hp
      obtain ⟨hold, huncut⟩ := (prefix_cons_insertAt_iff hsep).mp hp
      obtain ⟨j, hpos, hj, hmem⟩ := h 0 (Nat.succ_pos _) hold
      exact huncut j hpos hj hmem
    have hrest : ∀ i < a.length, w <+: (a ++ b).drop i → ∃ j, 0 < j ∧ j < w.length ∧ p + 1 + i + j ∈ cuts := by
      intro i hi hp
      obtain ⟨j, hpos, hj, hmem⟩ := h (i + 1) (Nat.succ_lt_succ hi) hp
      exact ⟨j, hpos, hj, by rwa [Nat.add_assoc p 1, Nat.add_comm 1]⟩
    rw [List.cons_append, insertAt, tailsAt_replicate hsep hw, tailsAt_cons, if_neg hno, ih hrest, List.length_cons,
      Nat.add_assoc, Nat.add_comm 1]

/-- A stretch that starts with the word, is not cut and has no other occurrence. -/
theorem tailsAt_insertAt_of_uncut (hsep : sep ∉ w) (hw : w ≠ []) {m : List α} {p : Nat} {b : List α} (hm : w <+: m)
    (huncut : ∀ i, 0 < i → i < m.length → p + i ∉ cuts)
    (honce : ∀ i, 0 < i → i < m.length → ¬ w <+: (m ++ b).drop i) :
    tailsAt w (insertAt sep cuts p (m ++ b)) =
      (m ++ insertAt sep cuts (p + m.length) b) :: tailsAt w (insertAt sep cuts (p + m.length) b) := by
  cases m with
  | nil => exact absurd (List.prefix_nil.mp hm) hw
  | cons u m =>
    have hrest : ∀ i < m.length, p + 1 + i ∉ cuts := by
      intro i hi
      rw [Nat.add_assoc, Nat.add_comm 1]
      exact huncut (i + 1) (Nat.succ_pos i) (Nat.succ_lt_succ hi)
    have hcut : ∀ i < m.length, w <+: (m ++ b).drop i → ∃ j, 0 < j ∧ j < w.length ∧ p + 1 + i + j ∈ cuts :=
      fun i hi hp => absurd hp (honce (i + 1) (Nat.succ_pos i) (Nat.succ_lt_succ hi))
    have hplus : p + (u :: m).length = p + 1 + m.length := by
      rw [List.length_cons, Nat.add_assoc, Nat.add_comm 1]
    rw [List.cons_append, insertAt, tailsAt_replicate hsep hw, tailsAt_cons, tailsAt_insertAt_of_cut hsep hw hcut,
      insertAt_append_of_uncut hrest, hplus, ← List.cons_append, if_pos (hm.trans (List.prefix_append _ _))]

end Words

end Lib

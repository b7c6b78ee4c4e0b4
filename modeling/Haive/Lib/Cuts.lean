import Mathlib.Data.List.Basic

/-!
# Where a list is cut

The first place (`List.findIdx`) and the last one (`lastIdx`) of a list with a property, over lists put
together: what stands in front without the property only moves the places, and what stands behind a first
place does not count.
-/

namespace Lib

variable {α : Type}

/-- Two cuts of one list, each at an item: the same one, or one of them in front of the other. -/
theorem two_cuts {a a' b b' : List α} {x x' : α} (h : a ++ x :: b = a' ++ x' :: b') :
    (a' = a ∧ x' = x ∧ b' = b) ∨ (∃ mid, a' = a ++ x :: mid ∧ b = mid ++ x' :: b') ∨
      ∃ mid, a = a' ++ x' :: mid ∧ b' = mid ++ x :: b := by
  rcases List.append_eq_append_iff.mp h with ⟨mid, hmid, hrest⟩ | ⟨mid, hmid, hrest⟩
  · cases mid with
    | nil =>
      rw [List.nil_append, List.cons.injEq] at hrest
      exact .inl ⟨by rw [hmid, List.append_nil], hrest.1.symm, hrest.2.symm⟩
    | cons y mid =>
      rw [List.cons_append, List.cons.injEq] at hrest
      exact .inr (.inl ⟨mid, by rw [hmid, hrest.1], hrest.2⟩)
  · cases mid with
    | nil =>
      rw [List.nil_append, List.cons.injEq] at hrest
      exact .inl ⟨by rw [hmid, List.append_nil], hrest.1, hrest.2⟩
    | cons y mid =>
      rw [List.cons_append, List.cons.injEq] at hrest
      exact .inr (.inr ⟨mid, by rw [hmid, hrest.1], hrest.2⟩)

theorem findIdx_behind {p : α → Bool} {a : List α} (h : ∀ x ∈ a, p x = false) (b : List α) :
    (a ++ b).findIdx p = a.length + b.findIdx p := by
  have hall : a.findIdx p = a.length := List.findIdx_eq_length_of_false h
  rw [List.findIdx_append, if_neg (by omega), Nat.add_comm]

theorem findIdx_in_front {p : α → Bool} {a : List α} (h : ∃ x ∈ a, p x = true) (b : List α) :
    (a ++ b).findIdx p = a.findIdx p := by
  rw [List.findIdx_append, if_pos (List.findIdx_lt_length_of_exists h)]

theorem findIdx_spec {p : α → Bool} {a : List α} (h : ∃ x ∈ a, p x = true) :
    ∃ front x rest, a = front ++ x :: rest ∧ front.length = a.findIdx p ∧ p x = true ∧ ∀ y ∈ front, p y = false := by
  have hlt := List.findIdx_lt_length_of_exists h
  refine ⟨a.take (a.findIdx p), a[a.findIdx p], a.drop (a.findIdx p + 1), ?_, ?_, List.findIdx_getElem, ?_⟩
  · rw [List.getElem_cons_drop, List.take_append_drop]
  · rw [List.length_take, Nat.min_eq_left (Nat.le_of_lt hlt)]
  · intro y hy
    obtain ⟨i, hi, rfl⟩ := List.getElem_of_mem hy
    rw [List.getElem_take]
    rw [List.length_take] at hi
    exact List.not_of_lt_findIdx (Nat.lt_of_lt_of_le hi (Nat.min_le_left _ _))

/-- Where the last element with the property stands. -/
def lastIdx (p : α → Bool) : List α → Option Nat
  | [] => none
  | x :: l =>
    match lastIdx p l with
    | some i => some (i + 1)
    | none => if p x then some 0 else none

theorem lastIdx_eq_none_iff {p : α → Bool} {l : List α} : lastIdx p l = none ↔ ∀ x ∈ l, p x = false := by
  induction l with
  | nil => exact iff_of_true rfl (List.forall_mem_nil _)
  | cons x l ih =>
    rw [lastIdx, List.forall_mem_cons, ← ih]
    cases lastIdx p l with
    | none => cases p x <;> simp
    | some i => simp

theorem lastIdx_append {p : α → Bool} (a b : List α) :
    lastIdx p (a ++ b) = ((lastIdx p b).map (a.length + ·)).or (lastIdx p a) := by
  induction a with
  | nil => cases hb : lastIdx p b <;> simp [hb, lastIdx]
  | cons x a ih =>
    rw [List.cons_append, lastIdx, ih, lastIdx]
    cases hb : lastIdx p b with
    | none => rfl
    | some i => simp only [Option.map_some, Option.some_or, List.length_cons, Option.some.injEq]; omega

theorem lastIdx_spec {p : α → Bool} {l : List α} {i : Nat} (h : lastIdx p l = some i) :
    ∃ front x rest, l = front ++ x :: rest ∧ front.length = i ∧ p x = true ∧ ∀ y ∈ rest, p y = false := by
  induction l generalizing i with
  | nil => cases h
  | cons x l ih =>
    rw [lastIdx] at h
    split at h
    · next j hj =>
      obtain ⟨front, y, rest, rfl, hlength, hy, hrest⟩ := ih hj
      refine ⟨x :: front, y, rest, rfl, ?_, hy, hrest⟩
      rw [List.length_cons, hlength]
      exact Option.some.inj h
    · next hnone =>
      split at h
      · next hx =>
        exact ⟨[], x, l, rfl, Option.some.inj h, hx, lastIdx_eq_none_iff.mp hnone⟩
      · cases h

theorem lastIdx_lt {p : α → Bool} {l : List α} {i : Nat} (h : lastIdx p l = some i) : i < l.length := by
  obtain ⟨front, x, rest, rfl, rfl, -⟩ := lastIdx_spec h
  rw [List.length_append, List.length_cons]
  omega

/-- How much of the list ends with the last element that has the property. -/
def throughLast (p : α → Bool) (l : List α) : Nat := (lastIdx p l).elim 0 (· + 1)

theorem lastIdx_lead {p : α → Bool} {x : α} (hx : p x = true) (a b : List α) :
    lastIdx p (a ++ x :: b) = some (a.length + throughLast p b) := by
  rw [lastIdx_append, lastIdx, throughLast]
  cases lastIdx p b with
  | none => rw [if_pos hx]; rfl
  | some i => rfl

theorem throughLast_lead {p : α → Bool} {x : α} (hx : p x = true) (a b : List α) :
    throughLast p (a ++ x :: b) = (a ++ [x]).length + throughLast p b := by
  rw [throughLast, lastIdx_lead hx, Option.elim_some, List.length_append, List.length_singleton]
  omega

end Lib

import Haive.Lib.Units

/-!
# Surrogate pairs

A character outside the first plane is two code units, a leading and a trailing surrogate. A text is
well formed if it has no surrogate alone; taking out other units keeps it so.
-/

namespace Lib.Units

def isLeading (u : UInt16) : Bool := 0xd800 ≤ u && u ≤ 0xdbff

def isTrailing (u : UInt16) : Bool := 0xdc00 ≤ u && u ≤ 0xdfff

def isSurrogate (u : UInt16) : Bool := isLeading u || isTrailing u

/-- `s.isWellFormed()`. -/
def isWellFormed : List UInt16 → Bool
  | [] => true
  | [u] => ! isSurrogate u
  | u :: v :: rest =>
    if isLeading u then isTrailing v && isWellFormed rest else ! isTrailing u && isWellFormed (v :: rest)

inductive WellPaired : List UInt16 → Prop
  | nil : WellPaired []
  | unit {u : UInt16} {rest : List UInt16} (hu : isSurrogate u = false) (h : WellPaired rest) : WellPaired (u :: rest)
  | pair {u v : UInt16} {rest : List UInt16} (hu : isLeading u = true) (hv : isTrailing v = true)
      (h : WellPaired rest) : WellPaired (u :: v :: rest)

theorem isWellFormed_iff {t : List UInt16} : isWellFormed t = true ↔ WellPaired t := by
  constructor
  · intro h
    induction t using isWellFormed.induct with
    | case1 => exact .nil
    | case2 u =>
      rw [isWellFormed, Bool.not_eq_true'] at h
      exact .unit h .nil
    | case3 u v rest hu ih =>
      rw [isWellFormed, if_pos hu, Bool.and_eq_true] at h
      exact .pair hu h.1 (ih h.2)
    | case4 u v rest hu ih =>
      rw [isWellFormed, if_neg hu, Bool.and_eq_true, Bool.not_eq_true'] at h
      exact .unit (by rw [isSurrogate, Bool.eq_false_iff.mpr hu, h.1]; rfl) (ih h.2)
  · intro h
    induction h with
    | nil => rfl
    | @unit u rest hu h ih =>
      rw [isSurrogate, Bool.or_eq_false_iff] at hu
      cases rest with
      | nil => rw [isWellFormed, isSurrogate, hu.1, hu.2]; rfl
      | cons v rest => rw [isWellFormed, hu.1, if_neg Bool.false_ne_true, hu.2, ih]; rfl
    | pair hu hv h ih => rw [isWellFormed, if_pos hu, hv, ih]; rfl

namespace WellPaired

theorem append {a b : List UInt16} (ha : WellPaired a) (hb : WellPaired b) : WellPaired (a ++ b) := by
  induction ha with
  | nil => exact hb
  | unit hu _ ih => exact .unit hu ih
  | pair hu hv _ ih => exact .pair hu hv ih

/-- A text may be cut at a unit that is no surrogate. -/
theorem of_append_cons {a b : List UInt16} {u : UInt16} (h : WellPaired (a ++ u :: b)) (hu : isSurrogate u = false) :
    WellPaired a ∧ WellPaired b := by
  generalize ht : a ++ u :: b = t at h
  induction h generalizing a with
  | nil => exact absurd ht (by simp)
  | unit hv h ih =>
    cases a with
    | nil =>
      rw [List.nil_append, List.cons.injEq] at ht
      exact ⟨.nil, ht.2 ▸ h⟩
    | cons w a =>
      rw [List.cons_append, List.cons.injEq] at ht
      obtain ⟨ha, hb⟩ := ih ht.2
      exact ⟨.unit (ht.1 ▸ hv) ha, hb⟩
  | @pair v v' rest hv hv' h ih =>
    rw [isSurrogate, Bool.or_eq_false_iff] at hu
    cases a with
    | nil =>
      rw [List.nil_append, List.cons.injEq] at ht
      rw [ht.1, hv] at hu
      exact nomatch hu.1
    | cons w a =>
      rw [List.cons_append, List.cons.injEq] at ht
      cases a with
      | nil =>
        rw [List.nil_append, List.cons.injEq] at ht
        rw [ht.2.1, hv'] at hu
        exact nomatch hu.2
      | cons w' a =>
        rw [List.cons_append, List.cons.injEq] at ht
        obtain ⟨ha, hb⟩ := ih ht.2.2
        exact ⟨.pair (ht.1 ▸ hv) (ht.2.1 ▸ hv') ha, hb⟩

theorem of_append_right {a b : List UInt16} (h : WellPaired (a ++ b)) (ha : ∀ u ∈ a, isSurrogate u = false) :
    WellPaired b := by
  induction a with
  | nil => exact h
  | cons u a ih =>
    exact ih (of_append_cons (a := []) h (ha u List.mem_cons_self)).2 fun v hv => ha v (List.mem_cons_of_mem _ hv)

theorem of_append_left {a b : List UInt16} (h : WellPaired (a ++ b)) (hb : ∀ u ∈ b, isSurrogate u = false) :
    WellPaired a := by
  cases b with
  | nil => rwa [List.append_nil] at h
  | cons u b => exact (of_append_cons h (hb u List.mem_cons_self)).1

end WellPaired

end Lib.Units

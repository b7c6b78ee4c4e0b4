import Mathlib

/-!
# Three-way merges

What becomes of a value that two sides may have changed since their base, up to what counts as the same value. The
side that changed it wins; where both did, differently, they clash and the local value stands.
-/

namespace Lib.ThreeWay

variable {α : Type} (same : α → α → Bool) (base localSide incoming : α)

/-- The value that stands. -/
def settled : α :=
  if same localSide incoming then localSide else if same base localSide then incoming else localSide

/-- Both sides changed the value, differently. -/
def clashes : Bool := ! same localSide incoming && ! same base localSide && ! same base incoming

variable {same base localSide incoming}

theorem settled_cases : settled same base localSide incoming = localSide ∨
    settled same base localSide incoming = incoming := by
  rw [settled]
  split
  · exact .inl rfl
  split
  · exact .inr rfl
  · exact .inl rfl

/-- What counts as the same is an equivalence. -/
structure Lawful (same : α → α → Bool) : Prop where
  refl : ∀ a, same a a = true
  symm : ∀ {a b}, same a b = true → same b a = true
  trans : ∀ {a b c}, same a b = true → same b c = true → same a c = true

namespace Lawful

variable (h : Lawful same)
include h

theorem comm (a b : α) : same a b = same b a := Bool.eq_iff_iff.mpr ⟨h.symm, h.symm⟩

theorem clashes_comm : clashes same base incoming localSide = clashes same base localSide incoming := by
  rw [clashes, clashes, h.comm incoming localSide, Bool.and_right_comm]

/-- Sides that do not clash may change places. -/
theorem settled_comm (hclash : clashes same base localSide incoming = false) :
    same (settled same base incoming localSide) (settled same base localSide incoming) = true := by
  rw [settled, settled, h.comm incoming localSide]
  by_cases hsame : same localSide incoming = true
  · rw [if_pos hsame, if_pos hsame]
    exact h.symm hsame
  rw [if_neg hsame, if_neg hsame]
  by_cases hlocal : same base localSide = true
  · have hincoming : ¬ same base incoming = true := fun heq => hsame (h.trans (h.symm hlocal) heq)
    rw [if_pos hlocal, if_neg hincoming]
    exact h.refl incoming
  · have hincoming : same base incoming = true := by
      rw [clashes, Bool.eq_false_of_not_eq_true hsame, Bool.eq_false_of_not_eq_true hlocal, Bool.not_false,
        Bool.and_self, Bool.true_and, Bool.not_eq_false'] at hclash
      exact hclash
    rw [if_neg hlocal, if_pos hincoming]
    exact h.refl localSide

/-- Where only the local side changed the value, its value stands. -/
theorem settled_base_incoming : same (settled same base localSide base) localSide = true := by
  rw [settled]
  split
  · exact h.refl localSide
  split
  · assumption
  · exact h.refl localSide

theorem clashes_base_incoming : clashes same base localSide base = false := by
  rw [clashes, h.refl base, Bool.not_true, Bool.and_false]

theorem settled_base_local : same (settled same base base incoming) incoming = true := by
  rw [settled]
  split
  · assumption
  · rw [if_pos (h.refl base)]
    exact h.refl incoming

theorem clashes_base_local : clashes same base base incoming = false := by
  rw [clashes, h.refl base, Bool.not_true, Bool.and_false, Bool.false_and]

end Lawful

/-! ## Sets -/

/-- Whether a set has a member never clashes. -/
theorem clashes_bool (base localSide incoming : Bool) : clashes (· == ·) base localSide incoming = false := by
  revert base localSide incoming
  decide

theorem lawful_bool : Lawful (α := Bool) (· == ·) := ⟨by decide, by decide, by decide⟩

/-- Values of which the same is written are the same. -/
theorem lawful_of_eq {β : Type*} [DecidableEq β] (f : α → β) : Lawful fun a b => decide (f a = f b) where
  refl _ := decide_eq_true rfl
  symm h := decide_eq_true (of_decide_eq_true h).symm
  trans h h' := decide_eq_true ((of_decide_eq_true h).trans (of_decide_eq_true h'))

end Lib.ThreeWay

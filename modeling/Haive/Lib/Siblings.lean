import Haive.Lib.Parent

/-!
# Siblings

Two elements that share a parent have nothing at or below both: what is rendered below one child is not
rendered below another.
-/

namespace Lib

variable {α : Type} {p : α → Option α} {x y z : α}

/-- Two ancestors of one element lie on one climb. -/
theorem Above.comparable (hy : Above p x y) (hz : Above p x z) : y = z ∨ Above p y z ∨ Above p z y := by
  induction hy using Relation.TransGen.head_induction_on with
  | @single x hxy =>
    obtain ⟨w, hw, hrest⟩ := above_iff.mp hz
    rw [hxy, Option.some.injEq] at hw
    subst hw
    exact hrest.imp_right .inl
  | @head x w hxw hwy ih =>
    obtain ⟨w', hw', hrest⟩ := above_iff.mp hz
    rw [hxw, Option.some.injEq] at hw'
    subst hw'
    rcases hrest with rfl | hrest
    · exact .inr (.inr hwy)
    · exact ih hrest

def AtOrBelow (p : α → Option α) (x y : α) : Prop := x = y ∨ Above p x y

theorem not_atOrBelow_siblings (hacyclic : Acyclic p) (hne : y ≠ z) (hsame : p y = p z) (hy : AtOrBelow p x y) : ¬ AtOrBelow p x z := by
  have hapart : ∀ {a b : α}, p a = p b → ¬ Above p a b := by
    intro a b hab h
    obtain ⟨w, hw, hrest⟩ := above_iff.mp h
    rw [hab] at hw
    rcases hrest with rfl | hrest
    · exact hacyclic w (above_head hw)
    · exact hacyclic b (Above.cons hw hrest)
  rintro hz
  rcases hy with rfl | hy
  · rcases hz with rfl | hz
    · exact hne rfl
    · exact hapart hsame hz
  · rcases hz with rfl | hz
    · exact hapart hsame.symm hy
    · rcases hy.comparable hz with rfl | h | h
      · exact hne rfl
      · exact hapart hsame h
      · exact hapart hsame.symm h
theorem above_iff_childOf : Above p x z ↔ ∃ y, p y = some z ∧ AtOrBelow p x y := by
  constructor
  · intro h
    obtain ⟨y, hy, hlast⟩ := Relation.TransGen.tail'_iff.mp h
    exact ⟨y, hlast, (Relation.reflTransGen_iff_eq_or_transGen.mp hy).imp Eq.symm id⟩
  · rintro ⟨y, hparent, rfl | hy⟩
    · exact above_head hparent
    · exact hy.snoc hparent

end Lib

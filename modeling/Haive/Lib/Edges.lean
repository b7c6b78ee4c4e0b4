import Mathlib.Logic.Relation

/-!
# Acyclic relations

A relation stays free of cycles when an edge joins it whose end does not lead back
to its start, and when edges leave it.
-/

namespace Lib

variable {α : Type} {r s : α → α → Prop}

/-- Nothing leads back to itself. -/
def CycleFree (r : α → α → Prop) : Prop := ∀ x, ¬ Relation.TransGen r x x

theorem CycleFree.mono (h : CycleFree s) (hrs : ∀ x y, r x y → s x y) : CycleFree r :=
  fun x hx => h x (Relation.TransGen.mono hrs x x hx)

/-- A path that may use the edge from `a` to `b`: it does not, or it comes to `a` and leaves `b`. -/
theorem transGen_of_edge {a b x y : α} (hrs : ∀ x y, s x y → r x y ∨ x = a ∧ y = b)
    (h : Relation.TransGen s x y) :
    Relation.TransGen r x y ∨ Relation.ReflTransGen r x a ∧ Relation.ReflTransGen r b y := by
  induction h with
  | single hxy =>
    rcases hrs _ _ hxy with hxy | ⟨rfl, rfl⟩
    · exact .inl (.single hxy)
    · exact .inr ⟨.refl, .refl⟩
  | tail _ hyz ih =>
    rcases hrs _ _ hyz with hyz | ⟨rfl, rfl⟩
    · exact ih.imp (fun h => h.tail hyz) (fun h => ⟨h.1, h.2.tail hyz⟩)
    · rcases ih with ih | ih
      · exact .inr ⟨ih.to_reflTransGen, .refl⟩
      · exact .inr ⟨ih.1, .refl⟩

theorem CycleFree.insert {a b : α} (h : CycleFree r) (hrs : ∀ x y, s x y → r x y ∨ x = a ∧ y = b)
    (hback : ¬ Relation.ReflTransGen r b a) : CycleFree s := by
  intro x hx
  rcases transGen_of_edge hrs hx with hx | ⟨hxa, hbx⟩
  · exact h x hx
  · exact hback (hbx.trans hxa)

/-- A set that the relation does not leave holds everything that is reached from it. -/
theorem closed_reflTransGen {p : α → Prop} {x y : α} (hclosed : ∀ x y, p x → r x y → p y) (hx : p x)
    (h : Relation.ReflTransGen r x y) : p y := by
  induction h with
  | refl => exact hx
  | tail _ hyz ih => exact hclosed _ _ ih hyz

end Lib

import Mathlib

/-!
# Lists related place by place

What cuts a list at places that a relation cannot tell apart cuts related lists alike: `dropWhile`,
`rdropWhile` and `splitOnP` of related lists are related.
-/

namespace Lib

variable {α β : Type} {R : α → β → Prop} {p : α → Bool} {q : β → Bool} {s : List α} {t : List β}

theorem forall₂_modifyHead {l : List (List α)} {m : List (List β)} {a : α} {b : β} (hab : R a b)
    (h : List.Forall₂ (List.Forall₂ R) l m) :
    List.Forall₂ (List.Forall₂ R) (l.modifyHead (a :: ·)) (m.modifyHead (b :: ·)) := by
  cases h with
  | nil => exact .nil
  | cons hhead htail => exact .cons (.cons hab hhead) htail

section

variable (hpq : ∀ a b, R a b → p a = q b)

include hpq

theorem forall₂_splitOnP (h : List.Forall₂ R s t) : List.Forall₂ (List.Forall₂ R) (s.splitOnP p) (t.splitOnP q) := by
  induction h with
  | nil => exact .cons .nil .nil
  | @cons a b s t hab _ ih =>
    rw [List.splitOnP_cons_eq_if_modifyHead, List.splitOnP_cons_eq_if_modifyHead, hpq a b hab]
    split
    · exact .cons .nil ih
    · exact forall₂_modifyHead hab ih

theorem forall₂_dropWhile (h : List.Forall₂ R s t) : List.Forall₂ R (s.dropWhile p) (t.dropWhile q) := by
  induction h with
  | nil => exact .nil
  | @cons a b s t hab hrest ih =>
    rw [List.dropWhile_cons, List.dropWhile_cons, hpq a b hab]
    split
    · exact ih
    · exact .cons hab hrest

theorem forall₂_rdropWhile (h : List.Forall₂ R s t) : List.Forall₂ R (s.rdropWhile p) (t.rdropWhile q) :=
  List.forall₂_reverse_iff.mpr (forall₂_dropWhile hpq (List.forall₂_reverse_iff.mpr h))

end

/-- Related lists of which one has a property at a place that it shares with nothing it is related to. -/
theorem forall₂_eq {R : α → α → Prop} {s t : List α} (h : List.Forall₂ R s t) :
    s = t ∨ ∃ a ∈ s, ∃ b ∈ t, R a b ∧ a ≠ b := by
  induction h with
  | nil => exact .inl rfl
  | @cons a b s t hab _ ih =>
    by_cases heq : a = b
    · rcases ih with rfl | ⟨c, hc, d, hd, hcd⟩
      · exact .inl (heq ▸ rfl)
      · exact .inr ⟨c, List.mem_cons_of_mem _ hc, d, List.mem_cons_of_mem _ hd, hcd⟩
    · exact .inr ⟨a, List.mem_cons_self, b, List.mem_cons_self, hab, heq⟩

theorem filterMap_forall₂ {γ : Type} {f : α → Option γ} {g : β → Option γ} (hfg : ∀ a b, R a b → f a = g b)
    (h : List.Forall₂ R s t) : s.filterMap f = t.filterMap g := by
  induction h with
  | nil => rfl
  | @cons a b s t hab _ ih => rw [List.filterMap_cons, List.filterMap_cons, hfg a b hab, ih]

/-- Each element is a separator or in a piece. -/
theorem mem_splitOnP {l : List α} {a : α} (h : a ∈ l) : p a = true ∨ ∃ piece ∈ l.splitOnP p, a ∈ piece := by
  induction l with
  | nil => cases h
  | cons b l ih =>
    rw [List.splitOnP_cons_eq_if_modifyHead]
    obtain ⟨first, rest, hpieces⟩ := List.exists_cons_of_ne_nil (List.splitOnP_ne_nil p l)
    rcases List.mem_cons.mp h with rfl | h
    · by_cases hp : p a = true
      · exact .inl hp
      · rw [if_neg hp, hpieces]
        exact .inr ⟨_, List.mem_cons_self, List.mem_cons_self⟩
    · refine (ih h).imp_right ?_
      rintro ⟨piece, hpiece, ha⟩
      split
      · exact ⟨piece, List.mem_cons_of_mem _ hpiece, ha⟩
      · rw [hpieces] at hpiece ⊢
        rcases List.mem_cons.mp hpiece with rfl | hpiece
        · exact ⟨_, List.mem_cons_self, List.mem_cons_of_mem _ ha⟩
        · exact ⟨piece, List.mem_cons_of_mem _ hpiece, ha⟩

/-- Where a list of results exists, each element has one. -/
theorem isSome_of_mapM {γ : Type} {f : α → Option γ} {l : List α} {r : List γ} (h : l.mapM f = some r) :
    ∀ a ∈ l, (f a).isSome = true := by
  induction l generalizing r with
  | nil => exact List.forall_mem_nil _
  | cons a l ih =>
    rw [List.mapM_cons] at h
    obtain ⟨b, hb, h⟩ := Option.bind_eq_some_iff.mp h
    obtain ⟨bs, hbs, -⟩ := Option.bind_eq_some_iff.mp h
    exact List.forall_mem_cons.mpr ⟨by rw [hb, Option.isSome_some], ih hbs⟩

end Lib

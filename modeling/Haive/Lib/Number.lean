import Mathlib.Data.List.Sort

/-!
# Numbers within groups

`number` goes through a list once and numbers the elements of every group from 0
on. In a list that is in strict order the number of an element is how many
elements of its group come before it (`mem_number_of_pairwise`), so it depends on
the elements and not on the list.
-/

namespace Lib

variable {α G : Type} [DecidableEq G] {g : α → G}

/-- Every element with its number. `next` is the number that a group goes on with. -/
def number (g : α → G) : (G → Nat) → List α → List (α × Nat)
  | _, [] => []
  | next, x :: xs =>
    (x, next (g x)) :: number g (Function.update next (g x) (next (g x) + 1)) xs

theorem map_fst_number (next : G → Nat) (xs : List α) : (number g next xs).map (·.1) = xs := by
  induction xs generalizing next with
  | nil => rfl
  | cons x xs ih => rw [number, List.map_cons, ih]

/-- One more element of a group counts the same before and after it is passed. -/
theorem update_add_countP (next : G → Nat) (x y : α) (before : List α) :
    Function.update next (g y) (next (g y) + 1) (g x) + before.countP (g · = g x) =
      next (g x) + (y :: before).countP (g · = g x) := by
  by_cases hg : g y = g x
  · rw [hg, Function.update_self, List.countP_cons_of_pos (by simpa using hg)]
    omega
  · rw [Function.update_of_ne (Ne.symm hg), List.countP_cons_of_neg (by simpa using hg)]

theorem mem_number {next : G → Nat} {xs : List α} {x : α} {n : Nat} :
    (x, n) ∈ number g next xs ↔
      ∃ before after, xs = before ++ x :: after ∧ n = next (g x) + before.countP (g · = g x) := by
  induction xs generalizing next with
  | nil => simp [number]
  | cons y xs ih =>
    rw [number, List.mem_cons, ih]
    constructor
    · rintro (heq | ⟨before, after, rfl, rfl⟩)
      · cases heq
        exact ⟨[], xs, rfl, rfl⟩
      · exact ⟨y :: before, after, rfl, update_add_countP next x y before⟩
    · rintro ⟨before, after, heq, rfl⟩
      cases before with
      | nil =>
        rw [List.nil_append, List.cons.injEq] at heq
        obtain ⟨rfl, rfl⟩ := heq
        exact .inl rfl
      | cons z before =>
        rw [List.cons_append, List.cons.injEq] at heq
        obtain ⟨rfl, rfl⟩ := heq
        exact .inr ⟨before, after, rfl, (update_add_countP next x y before).symm⟩

section Ordered

variable {r : α → α → Prop} [DecidableRel r]

theorem countP_before (hirrefl : ∀ x, ¬ r x x) (hasymm : ∀ x y, r x y → ¬ r y x) {x : α}
    {before after : List α} (hsorted : (before ++ x :: after).Pairwise r) (p : α → Bool) :
    (before ++ x :: after).countP (fun y => p y && r y x) = before.countP p := by
  obtain ⟨_, hright, hcross⟩ := List.pairwise_append.mp hsorted
  rw [List.pairwise_cons] at hright
  have hbefore : before.countP (fun y => p y && r y x) = before.countP p := by
    refine List.countP_congr fun y hy => ?_
    have hlt : r y x := hcross y hy x List.mem_cons_self
    simp [hlt]
  have hafter : (x :: after).countP (fun y => p y && r y x) = 0 := by
    rw [List.countP_eq_zero]
    intro y hy
    rcases List.mem_cons.mp hy with rfl | hy
    · simp [hirrefl y]
    · simp [hasymm x y (hright.1 y hy)]
  rw [List.countP_append, hbefore, hafter, Nat.add_zero]

/-- In a list in strict order the number of an element is how many of its group come before it. -/
theorem mem_number_of_pairwise (hirrefl : ∀ x, ¬ r x x) (hasymm : ∀ x y, r x y → ¬ r y x) {xs : List α}
    (hsorted : xs.Pairwise r) {x : α} {n : Nat} : (x, n) ∈ number g (fun _ => 0) xs ↔
      x ∈ xs ∧ n = xs.countP (fun y => decide (g y = g x) && r y x) := by
  rw [mem_number]
  constructor
  · rintro ⟨before, after, rfl, rfl⟩
    refine ⟨by simp, ?_⟩
    rw [countP_before hirrefl hasymm hsorted, Nat.zero_add]
  · rintro ⟨hx, rfl⟩
    obtain ⟨before, after, rfl⟩ := List.append_of_mem hx
    refine ⟨before, after, rfl, ?_⟩
    rw [countP_before hirrefl hasymm hsorted, Nat.zero_add]

end Ordered

end Lib

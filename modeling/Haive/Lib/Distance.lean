import Mathlib.Logic.Relation
import Mathlib.Order.Nat

/-!
# Distance from a set of origins

`IsDist R origins n x`: a shortest path from an origin to `x` has `n` steps. What a walk
by levels needs is `near_succ`: what is within `n + 1` steps is within `n`, or one
step from something at distance `n`.
-/

namespace Lib

variable {α : Type} {R : α → α → Prop} {origins : List α} {m n : Nat} {x y z : α}

inductive Steps (R : α → α → Prop) : Nat → α → α → Prop
  | zero (x : α) : Steps R 0 x x
  | succ {n : Nat} {x y z : α} : Steps R n x y → R y z → Steps R (n + 1) x z

def Near (R : α → α → Prop) (origins : List α) (n : Nat) (x : α) : Prop := ∃ m ≤ n, ∃ o ∈ origins, Steps R m o x

/-- Some path leads from an origin. -/
def ReachedFrom (R : α → α → Prop) (origins : List α) (x : α) : Prop := ∃ o ∈ origins, Relation.ReflTransGen R o x

structure IsDist (R : α → α → Prop) (origins : List α) (n : Nat) (x : α) : Prop where
  path : ∃ o ∈ origins, Steps R n o x
  shortest : ∀ m, ∀ o ∈ origins, Steps R m o x → n ≤ m

theorem Near.mono (h : Near R origins m x) (hmn : m ≤ n) : Near R origins n x := by
  obtain ⟨k, hk, hpath⟩ := h
  exact ⟨k, hk.trans hmn, hpath⟩

theorem near_zero : Near R origins 0 x ↔ x ∈ origins := by
  constructor
  · rintro ⟨m, hm, o, ho, hpath⟩
    obtain rfl := Nat.le_zero.mp hm
    cases hpath
    exact ho
  · exact fun hx => ⟨0, Nat.le_refl 0, x, hx, .zero x⟩

theorem Near.step (h : Near R origins n x) (hxy : R x y) : Near R origins (n + 1) y := by
  obtain ⟨m, hm, o, ho, hpath⟩ := h
  exact ⟨m + 1, Nat.succ_le_succ hm, o, ho, hpath.succ hxy⟩

theorem IsDist.near (h : IsDist R origins n x) : Near R origins n x := by
  obtain ⟨o, ho, hpath⟩ := h.path
  exact ⟨n, Nat.le_refl n, o, ho, hpath⟩

theorem IsDist.unique (h : IsDist R origins m x) (h' : IsDist R origins n x) : m = n := by
  obtain ⟨o, ho, hpath⟩ := h.path
  obtain ⟨o', ho', hpath'⟩ := h'.path
  exact Nat.le_antisymm (h.shortest n o' ho' hpath') (h'.shortest m o ho hpath)

theorem isDist_zero (hx : x ∈ origins) : IsDist R origins 0 x := ⟨⟨x, hx, .zero x⟩, fun _ _ _ _ => Nat.zero_le _⟩

theorem IsDist.not_near (h : IsDist R origins (n + 1) x) : ¬ Near R origins n x := by
  rintro ⟨m, hm, o, ho, hpath⟩
  exact absurd (h.shortest m o ho hpath) (Nat.not_le_of_lt (Nat.lt_succ_of_le hm))

/-- What is within `n + 1` steps and not within `n` is at distance `n + 1`. -/
theorem isDist_succ (hnear : Near R origins (n + 1) x) (hnot : ¬ Near R origins n x) : IsDist R origins (n + 1) x := by
  obtain ⟨m, hm, o, ho, hpath⟩ := hnear
  have hlow : ∀ k, ∀ o ∈ origins, Steps R k o x → n + 1 ≤ k := fun k o ho hpath =>
    Nat.lt_of_not_le fun hk => hnot ⟨k, hk, o, ho, hpath⟩
  obtain rfl := Nat.le_antisymm hm (hlow m o ho hpath)
  exact ⟨⟨o, ho, hpath⟩, hlow⟩

/-- What is within `n + 1` steps is within `n`, or one step from something at distance `n`. -/
theorem near_succ (h : Near R origins (n + 1) x) : Near R origins n x ∨ ∃ y, IsDist R origins n y ∧ R y x := by
  refine or_iff_not_imp_left.mpr fun hnot => ?_
  obtain ⟨o, ho, hpath⟩ := (isDist_succ h hnot).path
  cases hpath with
  | @succ _ _ y _ hpath hyx =>
    refine ⟨y, ⟨⟨o, ho, hpath⟩, fun m o' ho' hpath' => Nat.le_of_not_lt fun hlt => ?_⟩, hyx⟩
    exact hnot ⟨m + 1, hlt, o', ho', hpath'.succ hyx⟩

/-- Past an empty level there is nothing. -/
theorem near_of_empty (hempty : ∀ x, ¬ IsDist R origins (n + 1) x) (h : Near R origins m x) : Near R origins n x := by
  induction m generalizing x with
  | zero => exact h.mono (Nat.zero_le n)
  | succ m ih =>
    rcases near_succ h with h | ⟨y, hy, hyx⟩
    · exact ih h
    · have hnear := (ih hy.near).step hyx
      exact Classical.byContradiction fun hnot => hempty x (isDist_succ hnear hnot)

theorem reachedFrom_iff : ReachedFrom R origins x ↔ ∃ n, Near R origins n x := by
  constructor
  · rintro ⟨o, ho, hpath⟩
    induction hpath with
    | refl => exact ⟨0, near_zero.mpr ho⟩
    | tail _ hstep ih =>
      obtain ⟨n, hn⟩ := ih
      exact ⟨n + 1, hn.step hstep⟩
  · rintro ⟨n, m, -, o, ho, hpath⟩
    refine ⟨o, ho, ?_⟩
    clear ho
    induction hpath with
    | zero => exact .refl
    | succ _ hstep ih => exact ih.tail hstep

end Lib

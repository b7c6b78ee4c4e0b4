import Mathlib.Logic.Relation
import Mathlib.Data.Finset.Card
import Mathlib.Data.Finset.Filter
import Haive.Lib.ListFacts

/-!
# Parent pointers

A partial function `p : α → Option α` sends each element to its parent. This
module relates the three readings of "`p` is a forest" that a program over
parent pointers needs:

* `Rooted p x`: the climb from `x` ends;
* `Above p x y`: `y` is a proper ancestor of `x`;
* `Trapped p s`: every element of `s` has its parent in `s`, which is what a
  cycle found by a walk looks like.

`Rooted.not_above_self` and `rooted_of_acyclic` say that on a finite set closed
under `p` the climb ends everywhere exactly when nothing is above itself.
`Linked p path cur` is the state of a climb: each element of `path` is followed
by its parent, and the parent of the last one is `cur`.
-/

namespace Lib

variable {α : Type}

/-- The climb from `x` reaches an element without a parent. -/
inductive Rooted (p : α → Option α) : α → Prop
  | root {x : α} : p x = none → Rooted p x
  | step {x y : α} : p x = some y → Rooted p y → Rooted p x

def Above (p : α → Option α) : α → α → Prop := Relation.TransGen (fun x y => p x = some y)

/-- Nothing is its own ancestor. -/
def Acyclic (p : α → Option α) : Prop := ∀ x, ¬ Above p x x

/-- Every element of `s` has a parent, and the parent is in `s`. -/
def Trapped (p : α → Option α) (s : α → Prop) : Prop := ∀ x, s x → ∃ y, p x = some y ∧ s y

variable {p q : α → Option α} {x y z : α}

theorem above_head (h : p x = some y) : Above p x y := Relation.TransGen.single h

theorem Above.cons (h : p x = some y) (hy : Above p y z) : Above p x z :=
  Relation.TransGen.head h hy

theorem Above.snoc (h : Above p x y) (hy : p y = some z) : Above p x z :=
  Relation.TransGen.tail h hy

theorem Above.trans (h : Above p x y) (hy : Above p y z) : Above p x z :=
  Relation.TransGen.trans h hy

theorem above_iff : Above p x z ↔ ∃ y, p x = some y ∧ (y = z ∨ Above p y z) := by
  constructor
  · intro h
    obtain ⟨y, hy, hrest⟩ := Relation.TransGen.head'_iff.mp h
    rcases Relation.reflTransGen_iff_eq_or_transGen.mp hrest with he | ht
    · exact ⟨y, hy, .inl he.symm⟩
    · exact ⟨y, hy, .inr ht⟩
  · rintro ⟨y, hy, rfl | ht⟩
    · exact above_head hy
    · exact ht.cons hy

theorem not_above_of_none (h : p x = none) : ¬ Above p x y := by
  intro ha
  obtain ⟨z, hz, _⟩ := above_iff.mp ha
  simp [h] at hz

/-- A climb that ends never comes back to where it started. -/
theorem Rooted.not_above_self (h : Rooted p x) : ¬ Above p x x := by
  induction h with
  | root hn => exact not_above_of_none hn
  | @step x y hs _ ih =>
    intro ha
    obtain ⟨z, hz, hrest⟩ := above_iff.mp ha
    rw [hs] at hz
    cases hz
    rcases hrest with rfl | hrest
    · exact ih ha
    · exact ih (hrest.snoc hs)

theorem acyclic_of_rooted (h : ∀ x, Rooted p x) : Acyclic p := fun x => (h x).not_above_self

/-- A climb that ends leaves every trap, so it never was in one. -/
theorem Rooted.not_trapped {s : α → Prop} (h : Rooted p x) (ht : Trapped p s) : ¬ s x := by
  induction h with
  | root hn =>
    intro hs
    obtain ⟨y, hy, _⟩ := ht _ hs
    simp [hn] at hy
  | step hs _ ih =>
    intro hx
    obtain ⟨z, hz, hsz⟩ := ht _ hx
    rw [hs] at hz
    cases hz
    exact ih hsz

/-- On a finite set closed under `p`, no cycle means that every climb ends. The
ancestors of the parent are fewer than those of the child. -/
theorem rooted_of_acyclic [DecidableEq α] {s : Finset α}
    (closed : ∀ x ∈ s, ∀ y, p x = some y → y ∈ s) (acyclic : Acyclic p) (hx : x ∈ s) :
    Rooted p x := by
  classical
  induction hn : (s.filter (Above p x)).card using Nat.strong_induction_on generalizing x with
  | _ n ih =>
    cases hp : p x with
    | none => exact .root hp
    | some y =>
      refine .step hp (ih _ ?_ (closed x hx y hp) rfl)
      rw [← hn]
      apply Finset.card_lt_card
      refine ⟨fun z hz => ?_, fun hsub => ?_⟩
      · rw [Finset.mem_filter] at hz ⊢
        exact ⟨hz.1, hz.2.cons hp⟩
      · have hy : y ∈ s.filter (Above p x) :=
          Finset.mem_filter.mpr ⟨closed x hx y hp, above_head hp⟩
        exact acyclic y (Finset.mem_filter.mp (hsub hy)).2

/-- Ancestry inside a set that is closed under `p` and on which `p` and `q` agree. -/
theorem Above.congr {s : α → Prop} (agree : ∀ x, s x → p x = q x)
    (closed : ∀ x y, s x → p x = some y → s y) (hx : s x) (h : Above p x y) : Above q x y := by
  induction h with
  | single hs => exact above_head (by rw [← agree _ hx]; exact hs)
  | @tail b c hab hbc ih =>
    have hb : s b := by
      clear ih hbc
      induction hab with
      | single hs => exact closed _ _ hx hs
      | tail _ hs ih => exact closed _ _ ih hs
    exact ih.snoc (by rw [← agree _ hb]; exact hbc)

theorem Rooted.congr {s : α → Prop} (agree : ∀ x, s x → p x = q x)
    (closed : ∀ x y, s x → p x = some y → s y) (h : Rooted p x) : s x → Rooted q x := by
  induction h with
  | root hn => exact fun hx => .root (by rw [← agree _ hx]; exact hn)
  | step hs _ ih => exact fun hx => .step (by rw [← agree _ hx]; exact hs) (ih (closed _ _ hx hs))

/-- Ancestry after `m` was moved under `b`: as before, or up to `m` and on from `b`. -/
theorem Above.of_move {m b : α} (hq : ∀ x, x ≠ m → q x = p x) (hm : q m = some b) (h : Above q x y) :
    Above p x y ∨ (x = m ∨ Above p x m) ∧ (b = y ∨ Above p b y) := by
  induction h using Relation.TransGen.head_induction_on with
  | @single x hx =>
    by_cases hxm : x = m
    · subst hxm
      rw [hm, Option.some.injEq] at hx
      exact .inr ⟨.inl rfl, .inl hx⟩
    · exact .inl (above_head (by rw [← hq x hxm]; exact hx))
  | @head x z hx _ ih =>
    by_cases hxm : x = m
    · subst hxm
      rw [hm, Option.some.injEq] at hx
      subst hx
      exact .inr ⟨.inl rfl, ih.elim .inr fun h => h.2⟩
    · have hxz : p x = some z := by rw [← hq x hxm]; exact hx
      rcases ih with ih | ⟨hzm, hby⟩
      · exact .inl (ih.cons hxz)
      · refine .inr ⟨.inr ?_, hby⟩
        rcases hzm with rfl | hzm
        · exact above_head hxz
        · exact hzm.cons hxz

/-! ## Climbs -/

/-- The proper ancestors of `x`, nearest first, if the climb ends within the fuel. -/
def climb (p : α → Option α) : Nat → α → Option (List α)
  | 0, _ => none
  | fuel + 1, x =>
    match p x with
    | none => some []
    | some y => (climb p fuel y).map (y :: ·)

theorem above_iff_mem_climb {fuel : Nat} {ys : List α} (h : climb p fuel x = some ys) :
    Above p x z ↔ z ∈ ys := by
  induction fuel generalizing x ys with
  | zero => cases h
  | succ fuel ih =>
    rw [climb] at h
    split at h
    · next hx =>
      cases h
      exact iff_of_false (not_above_of_none hx) List.not_mem_nil
    · next y hx =>
      obtain ⟨ws, hws, rfl⟩ := Option.map_eq_some_iff.mp h
      rw [above_iff, List.mem_cons, ← ih hws]
      constructor
      · rintro ⟨w, hw, hz⟩
        rw [hx, Option.some.injEq] at hw
        subst hw
        exact hz.imp_left Eq.symm
      · exact fun hz => ⟨y, hx, hz.imp_left Eq.symm⟩

/-- A climb that ends, ends within one step for each element at or above its start. -/
theorem climb_of_rooted {s : List α} (hs : ∀ x y, p x = some y → x ∈ s) (h : Rooted p x) :
    ∃ ys, climb p (s.length + 1) x = some ys := by
  classical
  have bounded : ∀ {x}, Rooted p x → ∀ fuel, s.countP (fun y => y = x ∨ Above p x y) < fuel →
      ∃ ys, climb p fuel x = some ys := by
    intro x h
    induction h with
    | root hn =>
      intro fuel hfuel
      obtain ⟨fuel, rfl⟩ := Nat.exists_eq_succ_of_ne_zero (Nat.ne_zero_of_lt hfuel)
      exact ⟨[], by rw [climb, hn]⟩
    | @step x y hp hy ih =>
      intro fuel hfuel
      obtain ⟨fuel, rfl⟩ := Nat.exists_eq_succ_of_ne_zero (Nat.ne_zero_of_lt hfuel)
      have hless : s.countP (fun z => z = y ∨ Above p y z) < s.countP (fun z => z = x ∨ Above p x z) := by
        refine countP_lt (hs x y hp) (by simp) ?_ fun z _ hz => ?_
        · rw [decide_eq_false_iff_not]
          rintro (rfl | hback)
          · exact hy.not_above_self (above_head hp)
          · exact hy.not_above_self (hback.snoc hp)
        · rw [decide_eq_true_eq] at hz ⊢
          exact .inr (hz.elim (fun heq => heq ▸ above_head hp) fun ha => ha.cons hp)
      obtain ⟨ys, hys⟩ := ih fuel (hless.trans_le (Nat.le_of_lt_succ hfuel))
      exact ⟨y :: ys, by rw [climb, hp]; simp [hys]⟩
  exact bounded h _ (Nat.lt_succ_of_le List.countP_le_length)

/-- Each element of the list is followed by its parent; the last one's parent is `cur`. -/
def Linked (p : α → Option α) : List α → Option α → Prop
  | [], _ => True
  | x :: xs, cur => p x = xs.head?.or cur ∧ Linked p xs cur

theorem Linked.snoc {path : List α} {c : α} (h : Linked p path (some c)) :
    Linked p (path ++ [c]) (p c) := by
  induction path with
  | nil => exact ⟨by simp, trivial⟩
  | cons x xs ih =>
    refine ⟨?_, ih h.2⟩
    rw [h.1]
    cases xs <;> simp

theorem Linked.drop {path : List α} {cur : Option α} (h : Linked p path cur) (n : Nat) :
    Linked p (path.drop n) cur := by
  induction n generalizing path with
  | zero => simpa using h
  | succ n ih =>
    cases path with
    | nil => trivial
    | cons x xs => simpa using ih h.2

/-- A climb whose end is grounded is grounded everywhere. -/
theorem Linked.rooted {path : List α} {cur : Option α} (h : Linked p path cur)
    (hcur : ∀ c, cur = some c → Rooted p c) : ∀ x ∈ path, Rooted p x := by
  induction path with
  | nil => simp
  | cons x xs ih =>
    have hxs := ih h.2
    intro y hy
    rcases List.mem_cons.mp hy with rfl | hy
    · cases hp : p y with
      | none => exact .root hp
      | some z =>
        refine .step hp ?_
        have hz : xs.head?.or cur = some z := h.1.symm.trans hp
        cases xs with
        | nil => exact hcur z (by simpa using hz)
        | cons w ws =>
          have : w = z := by simpa using hz
          exact this ▸ hxs w List.mem_cons_self
    · exact hxs y hy

/-- A climb that came back to its first element is a trap. -/
theorem Linked.trapped {c : α} {xs : List α} (h : Linked p (c :: xs) (some c)) :
    Trapped p (· ∈ c :: xs) := by
  -- The invariant of the induction: every parent is later in the list or is `c`.
  have later : ∀ (ys : List α), Linked p ys (some c) → ∀ x ∈ ys, ∃ y, p x = some y ∧ (y ∈ ys ∨ y = c) := by
    intro ys
    induction ys with
    | nil => simp
    | cons y ys ih =>
      intro hl x hx
      rcases List.mem_cons.mp hx with rfl | hx
      · cases ys with
        | nil => exact ⟨c, by simpa using hl.1, .inr rfl⟩
        | cons w ws => exact ⟨w, by simpa using hl.1, .inl (by simp)⟩
      · obtain ⟨z, hz, hmem⟩ := ih hl.2 x hx
        exact ⟨z, hz, hmem.imp (List.mem_cons_of_mem _) id⟩
  intro x hx
  obtain ⟨y, hy, hmem | rfl⟩ := later _ h x hx
  · exact ⟨y, hy, hmem⟩
  · exact ⟨y, hy, List.mem_cons_self⟩

end Lib

import Mathlib

/-!
# Sweeps over the rows of a table

A loop that takes the picked rows one after the other. Each turn rewrites its own
row, may add rows, leaves a note for the decision after the loop and may throw,
which ends the loop with the rows after it untouched. A turn knows the keys that
are taken by then, those of the rows added before it included.
-/

namespace Lib

variable {R K N E : Type}

structure Turn (R N E : Type) where
  row : R
  added : List R := []
  note : N
  thrown : Option E := none

/-- What a whole sweep did. -/
structure Swept (R N E : Type) where
  rows : List R
  added : List R
  notes : List N
  thrown : Option E

def sweep (key : R → K) (pick : R → Bool) (turn : List K → R → Turn R N E) :
    List K → List R → Swept R N E
  | _, [] => ⟨[], [], [], none⟩
  | taken, r :: rs =>
    if pick r then
      match (turn taken r).thrown with
      | some e => ⟨(turn taken r).row :: rs, (turn taken r).added, [(turn taken r).note], some e⟩
      | none =>
        let s := sweep key pick turn (taken ++ (turn taken r).added.map key) rs
        ⟨(turn taken r).row :: s.rows, (turn taken r).added ++ s.added,
          (turn taken r).note :: s.notes, s.thrown⟩
    else
      let s := sweep key pick turn taken rs
      ⟨r :: s.rows, s.added, s.notes, s.thrown⟩

variable {key : R → K} {pick : R → Bool} {turn : List K → R → Turn R N E} {taken : List K}
  {r : R} {rs : List R}

def restOf (key : R → K) (pick : R → Bool) (turn : List K → R → Turn R N E) (taken : List K) (r : R)
    (rs : List R) : Swept R N E :=
  sweep key pick turn (taken ++ (turn taken r).added.map key) rs

theorem sweep_skip (hp : pick r = false) :
    sweep key pick turn taken (r :: rs) =
      ⟨r :: (sweep key pick turn taken rs).rows, (sweep key pick turn taken rs).added,
        (sweep key pick turn taken rs).notes, (sweep key pick turn taken rs).thrown⟩ := by
  simp [sweep, hp]

theorem sweep_throw {e : E} (hp : pick r = true) (ht : (turn taken r).thrown = some e) :
    sweep key pick turn taken (r :: rs) =
      ⟨(turn taken r).row :: rs, (turn taken r).added, [(turn taken r).note], some e⟩ := by
  simp [sweep, hp, ht]

theorem sweep_next (hp : pick r = true) (ht : (turn taken r).thrown = none) :
    sweep key pick turn taken (r :: rs) =
      ⟨(turn taken r).row :: (restOf key pick turn taken r rs).rows,
        (turn taken r).added ++ (restOf key pick turn taken r rs).added,
        (turn taken r).note :: (restOf key pick turn taken r rs).notes,
        (restOf key pick turn taken r rs).thrown⟩ := by
  simp [sweep, hp, ht, restOf]

theorem sweep_forall₂ {P : R → R → Prop} (hsame : ∀ r ∈ rs, P r r)
    (hturn : ∀ ks, ∀ r ∈ rs, pick r = true → P r (turn ks r).row) :
    List.Forall₂ P rs (sweep key pick turn taken rs).rows := by
  induction rs generalizing taken with
  | nil => exact .nil
  | cons r rs ih =>
    have hsame' : ∀ x ∈ rs, P x x := fun x hx => hsame x (List.mem_cons_of_mem _ hx)
    have hrest : ∀ {ks}, List.Forall₂ P rs (sweep key pick turn ks rs).rows :=
      ih hsame' fun ks x hx => hturn ks x (List.mem_cons_of_mem _ hx)
    cases hp : pick r with
    | false =>
      rw [sweep_skip hp]
      exact .cons (hsame r List.mem_cons_self) hrest
    | true =>
      have hr := hturn taken r List.mem_cons_self hp
      cases ht : (turn taken r).thrown with
      | some e =>
        rw [sweep_throw hp ht]
        exact .cons hr (List.forall₂_same.mpr hsame')
      | none =>
        rw [sweep_next hp ht]
        exact .cons hr hrest

theorem exists_of_forall₂ {P : R → R → Prop} {l l' : List R} (h : List.Forall₂ P l l') :
    ∀ y ∈ l', ∃ x ∈ l, P x y := by
  induction h with
  | nil => simp
  | @cons a b l l' hp _ ih =>
    intro y hy
    rcases List.mem_cons.mp hy with rfl | hy
    · exact ⟨a, List.mem_cons_self, hp⟩
    · obtain ⟨x, hx, hxy⟩ := ih y hy
      exact ⟨x, List.mem_cons_of_mem _ hx, hxy⟩

theorem getElem?_of_forall₂ {P : R → R → Prop} {l l' : List R} (h : List.Forall₂ P l l') :
    ∀ (n : Nat) (x : R), l[n]? = some x → ∃ y, l'[n]? = some y ∧ P x y := by
  induction h with
  | nil => simp
  | @cons a b l l' hp _ ih =>
    intro n x hx
    cases n with
    | zero =>
      simp only [List.getElem?_cons_zero, Option.some.injEq] at hx
      exact ⟨b, rfl, hx ▸ hp⟩
    | succ n =>
      rw [List.getElem?_cons_succ] at hx ⊢
      exact ih n x hx

theorem sweep_added {Q : R → Prop}
    (hturn : ∀ ks, ∀ r ∈ rs, pick r = true → ∀ x ∈ (turn ks r).added, Q x) :
    ∀ x ∈ (sweep key pick turn taken rs).added, Q x := by
  induction rs generalizing taken with
  | nil => simp [sweep]
  | cons r rs ih =>
    have hrest : ∀ {ks}, ∀ x ∈ (sweep key pick turn ks rs).added, Q x :=
      ih fun ks y hy => hturn ks y (List.mem_cons_of_mem _ hy)
    cases hp : pick r with
    | false =>
      rw [sweep_skip hp]
      exact hrest
    | true =>
      have hr := hturn taken r List.mem_cons_self hp
      cases ht : (turn taken r).thrown with
      | some e =>
        rw [sweep_throw hp ht]
        exact hr
      | none =>
        rw [sweep_next hp ht]
        intro x hx
        rcases List.mem_append.mp hx with hx | hx
        · exact hr x hx
        · exact hrest x hx

/-- A sweep that did not throw took the turn of every picked row: `Q` holds of all rows if it holds
of those that are not picked and every turn makes it. -/
theorem sweep_rows {Q : R → Prop} (hthrown : (sweep key pick turn taken rs).thrown = none)
    (hsame : ∀ r ∈ rs, pick r = false → Q r)
    (hturn : ∀ ks, ∀ r ∈ rs, pick r = true → (turn ks r).thrown = none → Q (turn ks r).row) :
    ∀ x ∈ (sweep key pick turn taken rs).rows, Q x := by
  induction rs generalizing taken with
  | nil => simp [sweep]
  | cons r rs ih =>
    have hrest : ∀ {ks}, (sweep key pick turn ks rs).thrown = none →
        ∀ x ∈ (sweep key pick turn ks rs).rows, Q x := fun h =>
      ih h (fun x hx => hsame x (List.mem_cons_of_mem _ hx))
        fun ks x hx => hturn ks x (List.mem_cons_of_mem _ hx)
    cases hp : pick r with
    | false =>
      rw [sweep_skip hp] at hthrown ⊢
      intro x hx
      rcases List.mem_cons.mp hx with rfl | hx
      · exact hsame _ List.mem_cons_self hp
      · exact hrest hthrown x hx
    | true =>
      cases ht : (turn taken r).thrown with
      | some e =>
        rw [sweep_throw hp ht] at hthrown
        cases hthrown
      | none =>
        rw [sweep_next hp ht] at hthrown ⊢
        intro x hx
        rcases List.mem_cons.mp hx with rfl | hx
        · exact hturn taken r List.mem_cons_self hp ht
        · exact hrest hthrown x hx

theorem sweep_sum {weight : R → Nat} {price : Nat}
    (hthrown : (sweep key pick turn taken rs).thrown = none)
    (hturn : ∀ ks, ∀ r ∈ rs, pick r = true → (turn ks r).thrown = none →
      weight (turn ks r).row + ((turn ks r).added.map weight).sum ≤
        weight r + price * (turn ks r).added.length) :
    ((sweep key pick turn taken rs).rows.map weight).sum +
        ((sweep key pick turn taken rs).added.map weight).sum ≤
      (rs.map weight).sum + price * (sweep key pick turn taken rs).added.length := by
  induction rs generalizing taken with
  | nil => simp [sweep]
  | cons r rs ih =>
    have hrest := fun ks h => @ih ks h fun ks x hx =>
      hturn ks x (List.mem_cons_of_mem _ hx)
    cases hp : pick r with
    | false =>
      rw [sweep_skip hp] at hthrown ⊢
      have := hrest taken hthrown
      simp only [List.map_cons, List.sum_cons]
      omega
    | true =>
      cases ht : (turn taken r).thrown with
      | some e =>
        rw [sweep_throw hp ht] at hthrown
        cases hthrown
      | none =>
        rw [sweep_next hp ht] at hthrown ⊢
        have hr := hturn taken r List.mem_cons_self hp ht
        have := hrest _ hthrown
        simp only [restOf, List.map_cons, List.sum_cons, List.map_append, List.sum_append,
          List.length_append, Nat.mul_add]
        omega

/-- Turns that add fresh keys keep the keys distinct. -/
theorem sweep_keys (hnodup : taken.Nodup)
    (hturn : ∀ ks, ∀ r ∈ rs, ks.Nodup → pick r = true → (ks ++ (turn ks r).added.map key).Nodup) :
    (taken ++ (sweep key pick turn taken rs).added.map key).Nodup := by
  induction rs generalizing taken with
  | nil => simpa [sweep] using hnodup
  | cons r rs ih =>
    have hrest := fun ks hn => @ih ks hn fun ks x hx =>
      hturn ks x (List.mem_cons_of_mem _ hx)
    cases hp : pick r with
    | false =>
      rw [sweep_skip hp]
      exact hrest taken hnodup
    | true =>
      have hr := hturn taken r List.mem_cons_self hnodup hp
      cases ht : (turn taken r).thrown with
      | some e =>
        rw [sweep_throw hp ht]
        exact hr
      | none =>
        rw [sweep_next hp ht]
        simp only [List.map_append, ← List.append_assoc]
        exact hrest _ hr

end Lib

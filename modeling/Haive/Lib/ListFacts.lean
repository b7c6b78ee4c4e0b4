import Mathlib.Data.List.Basic
import Mathlib.Data.List.Nodup

/-!
# Facts about lists

Counting arguments for loops that terminate because a set shrinks, and the order of two elements.
-/

namespace Lib

variable {α : Type}

/-- A predicate that stops holding somewhere and starts holding nowhere counts fewer. -/
theorem countP_lt {l : List α} {p q : α → Bool} {x : α} (hx : x ∈ l) (hq : q x = true)
    (hp : p x = false) (hpq : ∀ y ∈ l, p y = true → q y = true) : l.countP p < l.countP q := by
  induction l with
  | nil => simp at hx
  | cons a l ih =>
    have htail : ∀ y ∈ l, p y = true → q y = true := fun y hy => hpq y (List.mem_cons_of_mem _ hy)
    have hle : l.countP p ≤ l.countP q := List.countP_mono_left htail
    rw [List.countP_cons, List.countP_cons]
    rcases List.mem_cons.mp hx with rfl | hx
    · simp [hq, hp]
      omega
    · have hlt := ih hx htail
      have ha : (if p a = true then 1 else 0) ≤ (if q a = true then 1 else 0) := by
        split
        · next hpa => simp [hpq a List.mem_cons_self hpa]
        · exact Nat.zero_le _
      omega

/-- A filter keeps a count exactly if it keeps what is counted. -/
theorem countP_filter_eq_iff {l : List α} {p q : α → Bool} :
    (l.filter q).countP p = l.countP p ↔ ∀ x ∈ l, p x = true → q x = true := by
  rw [List.countP_filter]
  constructor
  · intro h x hx hp
    by_contra hq
    refine absurd h (Nat.ne_of_lt (countP_lt hx hp ?_ ?_))
    · simp [Bool.eq_false_iff.mpr hq]
    · intro y _ hy
      exact (Bool.and_eq_true_iff.mp hy).1
  · intro h
    refine List.countP_congr fun x hx => ?_
    rw [Bool.and_eq_true]
    exact and_iff_left_of_imp (h x hx)

/-- The part of `l` outside a set shrinks when an element of `l` joins the set. -/
theorem countP_not_mem_cons_lt [DecidableEq α] {l s : List α} {x : α} (hx : x ∈ l) (hs : x ∉ s) :
    l.countP (· ∉ x :: s) < l.countP (· ∉ s) := by
  apply countP_lt hx
  · simpa using hs
  · simp
  · intro y _ hy
    simp only [decide_eq_true_eq, List.mem_cons, not_or] at hy ⊢
    exact hy.2

theorem idxOf_le_of_sublist [DecidableEq α] {l : List α} {x y : α} (h : [x, y].Sublist l) (hl : l.Nodup) :
    l.idxOf x ≤ l.idxOf y := by
  induction l with
  | nil => cases h
  | cons z l ih =>
    rw [List.nodup_cons] at hl
    rcases Decidable.em (z = x) with rfl | hx
    · rw [List.idxOf_cons_self]
      exact Nat.zero_le _
    cases h with
    | cons _ h =>
      have hy : z ≠ y := by
        rintro rfl
        exact hl.1 (h.subset (by simp))
      rw [List.idxOf_cons_ne l hx, List.idxOf_cons_ne l hy]
      exact Nat.succ_le_succ (ih h hl.2)
    | cons_cons _ h => exact absurd rfl hx

/-- What stands before `x` is in the part before it. -/
theorem idxOf_lt_iff [DecidableEq α] {before after : List α} {x y : α} (hx : x ∉ before) :
    (before ++ x :: after).idxOf y < (before ++ x :: after).idxOf x ↔ y ∈ before := by
  rw [List.idxOf_append_of_notMem hx, List.idxOf_cons_self, Nat.add_zero]
  rcases Decidable.em (y ∈ before) with hin | hnot
  · rw [List.idxOf_append_of_mem hin]
    exact iff_of_true (List.idxOf_lt_length_iff.mpr hin) hin
  · rw [List.idxOf_append_of_notMem hnot]
    exact iff_of_false (by omega) hnot

theorem nodup_eraseDups {α : Type} [BEq α] [LawfulBEq α] (l : List α) : l.eraseDups.Nodup := by
  induction hn : l.length using Nat.strongRecOn generalizing l with
  | _ n ih =>
    cases l with
    | nil => exact List.nodup_nil
    | cons a l =>
      have hshort : (l.filter fun b => !b == a).length < n := by
        rw [← hn]
        exact Nat.lt_succ_of_le (List.length_filter_le _ _)
      rw [List.eraseDups_cons, List.nodup_cons]
      refine ⟨fun h => ?_, ih _ hshort _ rfl⟩
      rw [List.mem_eraseDups, List.mem_filter] at h
      simp at h

theorem pairwise_of_idxOf [DecidableEq α] {l : List α} {r : α → α → Prop} (hl : l.Nodup)
    (h : ∀ x ∈ l, ∀ y ∈ l, l.idxOf x < l.idxOf y → r x y) : l.Pairwise r := by
  refine List.pairwise_iff_getElem.mpr fun i j hi hj hij => h _ (List.getElem_mem hi) _ (List.getElem_mem hj) ?_
  rw [hl.idxOf_getElem i hi, hl.idxOf_getElem j hj]
  exact hij

/-- A list that has what `p` holds of first is cut there by `p`. -/
theorem filter_append_filter_not {p : α → Prop} [DecidablePred p] {l : List α} (h : l.Pairwise fun x y => p y → p x) :
    l.filter (p ·) ++ l.filter (¬ p ·) = l := by
  induction l with
  | nil => rfl
  | cons x l ih =>
    obtain ⟨hx, hl⟩ := List.pairwise_cons.mp h
    rcases Decidable.em (p x) with hp | hp
    · rw [List.filter_cons_of_pos (p := (p ·)) (decide_eq_true hp),
        List.filter_cons_of_neg (p := (¬ p ·)) (by simpa using hp), List.cons_append, ih hl]
    · have hnone : l.filter (p ·) = [] := List.filter_eq_nil_iff.mpr fun y hy hpy => hp (hx y hy (of_decide_eq_true hpy))
      have hall : l.filter (¬ p ·) = l :=
        List.filter_eq_self.mpr fun y hy => decide_eq_true fun hpy => hp (hx y hy hpy)
      rw [List.filter_cons_of_neg (p := (p ·)) (by simpa using hp),
        List.filter_cons_of_pos (p := (¬ p ·)) (decide_eq_true hp), hnone, hall]
      rfl

theorem length_filter_notMem_concat [DecidableEq α] {l s : List α} {x : α} (hl : l.Nodup) (hx : x ∉ s) :
    (l.filter (· ∉ s ++ [x])).length = (l.filter (· ∉ s)).length - if x ∈ l then 1 else 0 := by
  have herase : l.filter (· ∉ s ++ [x]) = (l.filter (· ∉ s)).erase x := by
    rw [(hl.filter _).erase_eq_filter, List.filter_filter]
    exact List.filter_congr fun y _ => by simp [and_comm, bne, beq_eq_decide]
  rw [herase, List.length_erase]
  simp [List.mem_filter, hx]
  split <;> rfl

theorem mem_slices {l : List α} {n : Nat} {x : α} (hn : 0 < n) :
    (∃ slice ∈ (List.range ((l.length + (n - 1)) / n)).map (fun i => (l.drop (i * n)).take n), x ∈ slice) ↔ x ∈ l := by
  constructor
  · rintro ⟨slice, hslice, hx⟩
    obtain ⟨i, -, rfl⟩ := List.mem_map.mp hslice
    exact List.mem_of_mem_drop (List.mem_of_mem_take hx)
  · intro hx
    obtain ⟨j, hj, rfl⟩ := List.getElem_of_mem hx
    have hslice : j / n < (l.length + (n - 1)) / n := by
      rw [← Nat.add_one_le_iff, ← Nat.add_div_right j hn]
      exact Nat.div_le_div_right (by omega)
    refine ⟨_, List.mem_map.mpr ⟨j / n, List.mem_range.mpr hslice, rfl⟩, ?_⟩
    refine List.mem_iff_getElem?.mpr ⟨j % n, ?_⟩
    rw [List.getElem?_take_of_lt (Nat.mod_lt j hn), List.getElem?_drop, Nat.mul_comm, Nat.div_add_mod,
      List.getElem?_eq_getElem hj]

/-- The only element with a property is found in any order. -/
theorem find?_perm {l l' : List α} {p : α → Bool} (h : l.Perm l')
    (hone : ∀ x ∈ l, ∀ y ∈ l, p x = true → p y = true → x = y) : l.find? p = l'.find? p := by
  cases hfind : l.find? p with
  | none =>
    refine (List.find?_eq_none.mpr fun x hx => ?_).symm
    exact List.find?_eq_none.mp hfind x (h.mem_iff.mpr hx)
  | some x =>
    have hx := List.mem_of_find?_eq_some hfind
    have hpx := List.find?_some hfind
    cases hfind' : l'.find? p with
    | none => exact absurd hpx (List.find?_eq_none.mp hfind' x (h.mem_iff.mp hx))
    | some y =>
      have hy := h.mem_iff.mpr (List.mem_of_find?_eq_some hfind')
      exact congrArg some (hone x hx y hy hpx (List.find?_some hfind'))

theorem perm_eraseDups {α : Type} [BEq α] [LawfulBEq α] {l l' : List α} (h : l.Perm l') : l.eraseDups.Perm l'.eraseDups := by
  refine (List.perm_ext_iff_of_nodup (nodup_eraseDups l) (nodup_eraseDups l')).mpr fun x => ?_
  rw [List.mem_eraseDups, List.mem_eraseDups, h.mem_iff]

theorem perm_nil_iff {l l' : List α} (h : l.Perm l') : l = [] ↔ l' = [] := by
  rw [← List.length_eq_zero_iff, h.length_eq, List.length_eq_zero_iff]

/-- Two orders of a list are both empty, the same single element, or of two elements or more. -/
theorem perm_cases {l l' : List α} (h : l.Perm l') : (l = [] ∧ l' = []) ∨ (∃ x, l = [x] ∧ l' = [x]) ∨
    ∃ a b rest a' b' rest', l = a :: b :: rest ∧ l' = a' :: b' :: rest' := by
  have hlength := h.length_eq
  match l, l' with
  | [], [] => exact .inl ⟨rfl, rfl⟩
  | [x], [y] => exact .inr (.inl ⟨x, rfl, by rw [List.singleton_perm_singleton.mp h]⟩)
  | a :: b :: rest, a' :: b' :: rest' => exact .inr (.inr ⟨a, b, rest, a', b', rest', rfl, rfl⟩)
  | [], _ :: _ => cases hlength
  | _ :: _, [] => cases hlength
  | [_], _ :: _ :: _ => cases hlength
  | _ :: _ :: _, [_] => cases hlength

end Lib

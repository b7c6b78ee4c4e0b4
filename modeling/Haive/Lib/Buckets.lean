import Mathlib.Data.List.Nodup
import Mathlib.Data.List.Perm.Basic
import Mathlib.Data.List.Sort

/-!
# Buckets

A list handed out to the keys of its elements, as a program does it that collects a map of lists. The buckets
of distinct keys together are the elements that have such a key (`flatMap_filter_perm`). A bucket may then be
sorted by a comparison that is an order only as far as a number goes (`pairwise_insertionSort_key`).
-/

namespace Lib

variable {α κ : Type} [DecidableEq κ]

/-- A map of lists with one more element at a key. -/
def push (m : κ → List α) (k : κ) (a : α) : κ → List α := fun k' => if k' = k then m k' ++ [a] else m k'

def bucket (key : α → κ) (l : List α) : κ → List α := l.foldl (fun m a => push m (key a) a) fun _ => []

theorem bucket_eq (key : α → κ) (l : List α) (k : κ) : bucket key l k = l.filter fun a => key a = k := by
  have hfold : ∀ m : κ → List α, l.foldl (fun m a => push m (key a) a) m k = m k ++ l.filter fun a => key a = k := by
    induction l with
    | nil => exact fun m => (List.append_nil _).symm
    | cons a l ih =>
      intro m
      rw [List.foldl_cons, ih, push]
      by_cases hkey : key a = k
      · rw [if_pos hkey.symm, List.filter_cons_of_pos (by simpa using hkey), List.append_assoc]
        rfl
      · rw [if_neg fun h => hkey h.symm, List.filter_cons_of_neg (by simpa using hkey)]
  exact hfold _

/-- What meets one of two conditions that exclude each other meets the first or the second. -/
theorem filter_append_perm_of_disjoint {p q r : α → Bool} {l : List α} (hr : ∀ a ∈ l, r a = (p a || q a))
    (hpq : ∀ a ∈ l, p a = true → q a = false) : (l.filter p ++ l.filter q).Perm (l.filter r) := by
  induction l with
  | nil => exact List.Perm.refl _
  | cons a l ih =>
    have hrest := ih (fun b hb => hr b (List.mem_cons_of_mem a hb)) fun b hb => hpq b (List.mem_cons_of_mem a hb)
    have hra := hr a List.mem_cons_self
    cases hp : p a with
    | true =>
      have hq := hpq a List.mem_cons_self hp
      rw [hp, Bool.true_or] at hra
      rw [List.filter_cons_of_pos hp, List.filter_cons_of_neg (by simp [hq]), List.filter_cons_of_pos hra]
      exact hrest.cons a
    | false =>
      rw [hp, Bool.false_or] at hra
      rw [List.filter_cons_of_neg (by simp [hp])]
      cases hq : q a with
      | true =>
        rw [List.filter_cons_of_pos hq, List.filter_cons_of_pos (hra.trans hq)]
        exact List.perm_middle.trans (hrest.cons a)
      | false =>
        rw [List.filter_cons_of_neg (by simp [hq]), List.filter_cons_of_neg (by simp [hra, hq])]
        exact hrest

theorem flatMap_filter_perm (key : α → Option κ) (l : List α) {ks : List κ} (hks : ks.Nodup) :
    (ks.flatMap fun k => l.filter fun a => key a = some k).Perm (l.filter fun a => ∃ k ∈ ks, key a = some k) := by
  induction ks with
  | nil => simp
  | cons k ks ih =>
    rw [List.nodup_cons] at hks
    rw [List.flatMap_cons]
    refine ((ih hks.2).append_left _).trans (filter_append_perm_of_disjoint (fun a _ => ?_) fun a _ hk => ?_)
    · simp
    · rw [decide_eq_true_eq] at hk
      rw [decide_eq_false_iff_not, hk]
      rintro ⟨k', hmem, heq⟩
      exact hks.1 (Option.some.inj heq ▸ hmem)

/-- Nothing is lost: what has no key and what has a key that is listed. -/
theorem perm_of_buckets (key : α → Option κ) (l : List α) {ks : List κ} (hks : ks.Nodup)
    (hall : ∀ a ∈ l, ∀ k, key a = some k → k ∈ ks) :
    ((l.filter fun a => key a = none) ++ ks.flatMap fun k => l.filter fun a => key a = some k).Perm l := by
  refine ((flatMap_filter_perm key l hks).append_left _).trans ?_
  refine (filter_append_perm_of_disjoint (r := fun _ => true) (fun a ha => ?_) fun a _ hnone => ?_).trans
    (List.Perm.of_eq (List.filter_true l))
  · cases hkey : key a with
    | none => simp
    | some k => simp [hall a ha k hkey]
  · rw [decide_eq_true_eq] at hnone
    simp [hnone]

section ByKey

variable {ι : Type} [LinearOrder ι] {key : α → ι} {r : α → α → Prop} [DecidableRel r] (hr : ∀ a b, r a b → key a ≤ key b)
  (hnot : ∀ a b, ¬ r a b → key b ≤ key a)

include hr hnot

omit [DecidableEq κ] in
theorem pairwise_orderedInsert_key (a : α) {l : List α} (h : (l.map key).Pairwise (· ≤ ·)) :
    ((l.orderedInsert r a).map key).Pairwise (· ≤ ·) := by
  induction l with
  | nil => exact List.pairwise_singleton _ _
  | cons b l ih =>
    obtain ⟨hfirst, hrest⟩ := List.pairwise_cons.mp h
    rw [List.orderedInsert_cons]
    split
    · next hab =>
      refine List.pairwise_cons.mpr ⟨fun k hk => ?_, h⟩
      rcases List.mem_cons.mp hk with rfl | hk
      · exact hr a b hab
      · exact (hr a b hab).trans (hfirst k hk)
    · next hab =>
      refine List.pairwise_cons.mpr ⟨fun k hk => ?_, ih hrest⟩
      obtain ⟨c, hc, rfl⟩ := List.mem_map.mp hk
      rcases List.mem_cons.mp ((List.perm_orderedInsert r a l).subset hc) with rfl | hc
      · exact hnot _ _ hab
      · exact hfirst _ (List.mem_map_of_mem hc)

omit [DecidableEq κ] in
theorem pairwise_insertionSort_key (l : List α) : ((l.insertionSort r).map key).Pairwise (· ≤ ·) := by
  induction l with
  | nil => exact List.Pairwise.nil
  | cons a l ih => exact pairwise_orderedInsert_key hr hnot a ih

end ByKey

end Lib

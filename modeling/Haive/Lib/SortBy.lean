import Mathlib.Data.List.Sort

/-!
# Sorting by a key

`sortBy key` sorts by a key in a linear order. Where the keys of a list are distinct, the result does not
depend on the order that the elements came in (`sortBy_eq_of_perm`), a list that is in order stays as it
is, and sorting commutes with taking elements out.
-/

namespace Lib

variable {α ι : Type} [LinearOrder ι] {key : α → ι}

def sortBy (key : α → ι) (l : List α) : List α := l.insertionSort fun a b => key a ≤ key b

theorem perm_sortBy (key : α → ι) (l : List α) : (sortBy key l).Perm l := List.perm_insertionSort _ _

theorem mem_sortBy {l : List α} {a : α} : a ∈ sortBy key l ↔ a ∈ l := (perm_sortBy key l).mem_iff

theorem pairwise_sortBy (key : α → ι) (l : List α) : (sortBy key l).Pairwise fun a b => key a ≤ key b := by
  have : Std.Total fun a b : α => key a ≤ key b := ⟨fun a b => le_total _ _⟩
  have : IsTrans α fun a b => key a ≤ key b := ⟨fun a b c => le_trans⟩
  exact List.pairwise_insertionSort _ _

/-- Two lists in strict order with the same elements are one list. -/
theorem eq_of_perm_of_lt {l l' : List α} (h : l.Perm l') (hl : l.Pairwise fun a b => key a < key b)
    (hl' : l'.Pairwise fun a b => key a < key b) : l = l' :=
  h.eq_of_pairwise (fun _ _ _ _ hab hba => absurd hab hba.asymm) hl hl'

/-- Keys that tell apart what distinct keys tell apart are distinct. -/
theorem nodup_map_of_key {κ κ' : Type} {key : α → κ} {key' : α → κ'} {l : List α} (h : (l.map key).Nodup)
    (hkeys : ∀ a b, key' a = key' b → key a = key b) : (l.map key').Nodup :=
  List.pairwise_map.mpr ((List.pairwise_map.mp h).imp fun hne h => hne (hkeys _ _ h))

theorem pairwise_lt_sortBy {l : List α} (h : (l.map key).Nodup) : (sortBy key l).Pairwise fun a b => key a < key b := by
  have hne : (sortBy key l).Pairwise fun a b => key a ≠ key b :=
    List.pairwise_map.mp (((perm_sortBy key l).map key).nodup_iff.mpr h)
  exact ((pairwise_sortBy key l).and hne).imp fun h => lt_of_le_of_ne h.1 h.2

theorem sortBy_eq_of_perm {l l' : List α} (hnodup : (l.map key).Nodup) (h : l.Perm l') : sortBy key l = sortBy key l' := by
  have hperm : (sortBy key l).Perm (sortBy key l') := (perm_sortBy key l).trans (h.trans (perm_sortBy key l').symm)
  exact eq_of_perm_of_lt hperm (pairwise_lt_sortBy hnodup) (pairwise_lt_sortBy ((h.map key).nodup_iff.mp hnodup))

theorem sortBy_of_lt {l : List α} (h : l.Pairwise fun a b => key a < key b) : sortBy key l = l := by
  have hnodup : (l.map key).Nodup := List.pairwise_map.mpr (h.imp fun hlt => hlt.ne)
  exact eq_of_perm_of_lt (perm_sortBy key l) (pairwise_lt_sortBy hnodup) h

theorem filter_sortBy {l : List α} (h : (l.map key).Nodup) (p : α → Bool) :
    (sortBy key l).filter p = sortBy key (l.filter p) := by
  have hnodup : ((l.filter p).map key).Nodup := h.sublist (List.filter_sublist.map key)
  refine eq_of_perm_of_lt (((perm_sortBy key l).filter p).trans (perm_sortBy key (l.filter p)).symm) ?_
    (pairwise_lt_sortBy hnodup)
  exact (pairwise_lt_sortBy h).filter _

theorem map_sortBy {β : Type} {key' : β → ι} (f : α → β) {l : List α} (hkey : ∀ a ∈ l, key' (f a) = key a)
    (h : (l.map key).Nodup) : (sortBy key l).map f = sortBy key' (l.map f) := by
  have hkeys : (l.map f).map key' = l.map key := by
    rw [List.map_map]
    exact List.map_congr_left hkey
  refine @eq_of_perm_of_lt _ _ _ key' _ _ (((perm_sortBy key l).map f).trans (perm_sortBy key' (l.map f)).symm) ?_
    (pairwise_lt_sortBy (hkeys ▸ h))
  refine List.pairwise_map.mpr ((pairwise_lt_sortBy h).imp_of_mem fun ha hb hlt => ?_)
  rw [hkey _ (mem_sortBy.mp ha), hkey _ (mem_sortBy.mp hb)]
  exact hlt

end Lib

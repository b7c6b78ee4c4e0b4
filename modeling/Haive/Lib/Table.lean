import Mathlib.Data.List.Nodup
import Mathlib.Data.List.Basic

/-!
# Keyed tables

A `Table` is a list of rows no two of which have the same key. It models both
a database table with its primary key and a JavaScript `Map`: `put` overwrites
the row of an existing key in place and appends a new one, so the rows stay in
insertion order.

The lemmas describe every operation through `find?`; `mem_rows_iff` moves
between `find?` and membership.
-/

namespace Lib

/-- Rows with pairwise distinct keys, in insertion order. -/
structure Table (R : Type) {K : Type} (key : R → K) where
  rows : List R
  nodup : (rows.map key).Nodup

namespace Table

variable {R K : Type} {key : R → K}

def empty : Table R key := ⟨[], List.nodup_nil⟩

instance : EmptyCollection (Table R key) := ⟨empty⟩

instance : Inhabited (Table R key) := ⟨empty⟩

instance [DecidableEq R] : DecidableEq (Table R key) := fun t u =>
  decidable_of_iff (t.rows = u.rows) (by cases t; cases u; simp)

theorem ext_rows {t u : Table R key} (h : t.rows = u.rows) : t = u := by
  cases t
  cases u
  cases h
  rfl

def keys (t : Table R key) : List K := t.rows.map key

theorem key_injective {t : Table R key} {r s : R} (hr : r ∈ t.rows) (hs : s ∈ t.rows)
    (h : key r = key s) : r = s :=
  List.inj_on_of_nodup_map t.nodup hr hs h

theorem mem_keys {t : Table R key} {k : K} : k ∈ t.keys ↔ ∃ r ∈ t.rows, key r = k := by
  simp [keys]

theorem mem_keys_of_mem {t : Table R key} {r : R} (h : r ∈ t.rows) : key r ∈ t.keys :=
  List.mem_map_of_mem h

/-- The rows a predicate selects. -/
def filter (t : Table R key) (p : R → Bool) : Table R key :=
  ⟨t.rows.filter p, t.nodup.sublist (List.filter_sublist.map key)⟩

section
variable [DecidableEq K]

def find? (t : Table R key) (k : K) : Option R := t.rows.find? (fun r => key r = k)

/-- Overwrite the row with `r`'s key, or append `r`. -/
def put (t : Table R key) (r : R) : Table R key :=
  if h : key r ∈ t.keys then
    ⟨t.rows.map (fun x => if key x = key r then r else x), by
      have hk : (t.rows.map fun x => if key x = key r then r else x).map key = t.rows.map key := by
        rw [List.map_map]
        apply List.map_congr_left
        intro x _
        simp only [Function.comp_apply]
        split
        · next hx => exact hx.symm
        · rfl
      rw [hk]
      exact t.nodup⟩
  else
    ⟨t.rows ++ [r], by
      rw [List.map_append, List.map_singleton]
      exact List.nodup_append.mpr ⟨t.nodup, List.nodup_singleton _, by
        intro a ha b hb hab
        rw [List.mem_singleton] at hb
        subst hab
        subst hb
        exact h ha⟩⟩

def del (t : Table R key) (k : K) : Table R key := t.filter (fun r => key r ≠ k)

/-- `new Map(rows.map((r) => [key(r), r]))`: a later row replaces an earlier one of its key. -/
def ofList (rows : List R) : Table R key := rows.foldl put empty

theorem find?_eq_some {t : Table R key} {k : K} {r : R} :
    t.find? k = some r ↔ r ∈ t.rows ∧ key r = k := by
  constructor
  · intro h
    exact ⟨List.mem_of_find?_eq_some h, by simpa using List.find?_some h⟩
  · rintro ⟨hr, hk⟩
    cases hf : t.find? k with
    | none =>
      have := List.find?_eq_none.mp hf r hr
      simp [hk] at this
    | some s =>
      have hs : s ∈ t.rows := List.mem_of_find?_eq_some hf
      have hsk : key s = k := by simpa using List.find?_some hf
      rw [key_injective hs hr (hsk.trans hk.symm)]

theorem find?_eq_none {t : Table R key} {k : K} : t.find? k = none ↔ k ∉ t.keys := by
  simp [find?, keys, List.find?_eq_none]

theorem mem_rows_iff {t : Table R key} {r : R} : r ∈ t.rows ↔ t.find? (key r) = some r := by
  simp [find?_eq_some]

theorem find?_key {t : Table R key} {k : K} {r : R} (h : t.find? k = some r) : key r = k :=
  (find?_eq_some.mp h).2

theorem find?_mem {t : Table R key} {k : K} {r : R} (h : t.find? k = some r) : r ∈ t.rows :=
  (find?_eq_some.mp h).1

theorem mem_keys_iff_find? {t : Table R key} {k : K} : k ∈ t.keys ↔ ∃ r, t.find? k = some r := by
  rw [mem_keys]
  constructor
  · rintro ⟨r, hr, hk⟩
    exact ⟨r, find?_eq_some.mpr ⟨hr, hk⟩⟩
  · rintro ⟨r, h⟩
    exact ⟨r, find?_eq_some.mp h⟩

theorem find?_isSome {t : Table R key} {k : K} : (t.find? k).isSome ↔ k ∈ t.keys := by
  rw [mem_keys_iff_find?, Option.isSome_iff_exists]

@[simp] theorem find?_empty (k : K) : (empty : Table R key).find? k = none := rfl

theorem mem_rows_put {t : Table R key} {r s : R} :
    s ∈ (t.put r).rows ↔ s = r ∨ (s ∈ t.rows ∧ key s ≠ key r) := by
  unfold put
  split
  · next h =>
    simp only [List.mem_map]
    constructor
    · rintro ⟨x, hx, hxs⟩
      split at hxs
      · exact .inl hxs.symm
      · next hne => exact .inr ⟨hxs ▸ hx, hxs ▸ hne⟩
    · rintro (rfl | ⟨hs, hne⟩)
      · obtain ⟨x, hx, hxk⟩ := List.mem_map.mp h
        exact ⟨x, hx, by simp [hxk]⟩
      · exact ⟨s, hs, by simp [hne]⟩
  · next h =>
    simp only [List.mem_append, List.mem_singleton]
    constructor
    · rintro (hs | rfl)
      · refine .inr ⟨hs, fun hk => h ?_⟩
        rw [← hk]
        exact List.mem_map_of_mem hs
      · exact .inl rfl
    · rintro (rfl | ⟨hs, _⟩)
      · exact .inr rfl
      · exact .inl hs

theorem find?_put (t : Table R key) (r : R) (k : K) :
    (t.put r).find? k = if key r = k then some r else t.find? k := by
  split
  · next h => exact find?_eq_some.mpr ⟨mem_rows_put.mpr (.inl rfl), h⟩
  · next h =>
    ext s
    rw [find?_eq_some, find?_eq_some, mem_rows_put]
    constructor
    · rintro ⟨rfl | ⟨hs, _⟩, hk⟩
      · exact absurd hk h
      · exact ⟨hs, hk⟩
    · rintro ⟨hs, hk⟩
      exact ⟨.inr ⟨hs, fun hsr => h (hsr ▸ hk)⟩, hk⟩

@[simp] theorem find?_put_self (t : Table R key) (r : R) : (t.put r).find? (key r) = some r := by
  simp [find?_put]

theorem find?_put_of_ne {t : Table R key} {r : R} {k : K} (h : key r ≠ k) :
    (t.put r).find? k = t.find? k := by
  simp [find?_put, h]

theorem find?_filter (t : Table R key) (p : R → Bool) (k : K) :
    (t.filter p).find? k = (t.find? k).filter p := by
  ext s
  rw [find?_eq_some, Option.filter_eq_some_iff, find?_eq_some]
  simp only [filter, List.mem_filter]
  constructor
  · rintro ⟨⟨hs, hp⟩, hk⟩
    exact ⟨⟨hs, hk⟩, hp⟩
  · rintro ⟨⟨hs, hk⟩, hp⟩
    exact ⟨⟨hs, hp⟩, hk⟩

theorem find?_del (t : Table R key) (k' k : K) :
    (t.del k').find? k = if k' = k then none else t.find? k := by
  rw [del, find?_filter]
  split
  · next h =>
    cases hf : t.find? k with
    | none => rfl
    | some s => simp [Option.filter, find?_key hf, h]
  · next h =>
    cases hf : t.find? k with
    | none => rfl
    | some s => simp [Option.filter, find?_key hf, Ne.symm h]

theorem mem_keys_put {t : Table R key} {r : R} {k : K} :
    k ∈ (t.put r).keys ↔ k = key r ∨ k ∈ t.keys := by
  rw [mem_keys_iff_find?, mem_keys_iff_find?, find?_put]
  split
  · next h => simp [h]
  · next h => simp [Ne.symm h]

/-- Overwriting an existing row leaves the keys and their order alone. -/
theorem keys_put_of_mem {t : Table R key} {r : R} (h : key r ∈ t.keys) :
    (t.put r).keys = t.keys := by
  unfold put
  rw [dif_pos h]
  simp only [keys, List.map_map]
  apply List.map_congr_left
  intro x _
  simp only [Function.comp_apply]
  split
  · next hx => exact hx.symm
  · rfl

theorem rows_put_of_not_mem {t : Table R key} {r : R} (h : key r ∉ t.keys) :
    (t.put r).rows = t.rows ++ [r] := by
  unfold put
  rw [dif_neg h]

theorem foldl_put_rows {l : List R} {t : Table R key} (hl : ((t.rows ++ l).map key).Nodup) :
    (l.foldl put t).rows = t.rows ++ l := by
  induction l generalizing t with
  | nil => simp
  | cons r l ih =>
    have hr : key r ∉ t.keys := by
      intro hmem
      rw [List.map_append, List.map_cons] at hl
      exact (List.nodup_append.mp hl).2.2 _ hmem _ List.mem_cons_self rfl
    rw [List.foldl_cons, ih, rows_put_of_not_mem hr, List.append_assoc, List.singleton_append]
    rw [rows_put_of_not_mem hr, List.append_assoc, List.singleton_append]
    exact hl

theorem ofList_rows {l : List R} (h : (l.map key).Nodup) : (ofList l : Table R key).rows = l := by
  unfold ofList
  rw [foldl_put_rows]
  · simp [empty]
  · simpa [empty] using h

theorem mem_keys_foldl_put {l : List R} {t : Table R key} {k : K} :
    k ∈ (l.foldl put t).keys ↔ k ∈ t.keys ∨ k ∈ l.map key := by
  induction l generalizing t with
  | nil => simp
  | cons r l ih =>
    rw [List.foldl_cons, ih, mem_keys_put, List.map_cons, List.mem_cons]
    tauto

theorem mem_keys_ofList {l : List R} {k : K} :
    k ∈ (ofList l : Table R key).keys ↔ k ∈ l.map key := by
  rw [ofList, mem_keys_foldl_put]
  simp [keys, empty]

theorem mem_of_mem_foldl_put {l : List R} {t : Table R key} {r : R}
    (h : r ∈ (l.foldl put t).rows) : r ∈ t.rows ∨ r ∈ l := by
  induction l generalizing t with
  | nil => exact .inl h
  | cons s l ih =>
    rw [List.foldl_cons] at h
    rcases ih h with h | h
    · rcases mem_rows_put.mp h with rfl | ⟨h, _⟩
      · exact .inr List.mem_cons_self
      · exact .inl h
    · exact .inr (List.mem_cons_of_mem _ h)

theorem mem_of_mem_ofList {l : List R} {r : R} (h : r ∈ (ofList l : Table R key).rows) :
    r ∈ l := by
  rcases mem_of_mem_foldl_put h with h | h
  · exact absurd h (by simp [empty])
  · exact h

theorem find?_ofList {l : List R} (hl : (l.map key).Nodup) {k : K} {r : R} :
    (ofList l : Table R key).find? k = some r ↔ r ∈ l ∧ key r = k := by
  rw [find?_eq_some, ofList_rows hl]

/-- What a row is looked up as, where the rows are there in another order. -/
theorem find?_map_of_perm {β : Type} {g : R → β}
    (hg : ∀ {r s}, g r = g s → key r = key s) {t t' : Table R key} (h : (t'.rows.map g).Perm (t.rows.map g)) (k : K) :
    (t'.find? k).map g = (t.find? k).map g := by
  have hback : ∀ {t t' : Table R key}, (t'.rows.map g).Perm (t.rows.map g) → ∀ {r}, t.find? k = some r →
      (t'.find? k).map g = some (g r) := by
    intro t t' h r hfind
    obtain ⟨hr, rfl⟩ := find?_eq_some.mp hfind
    obtain ⟨r', hr', heq⟩ := List.mem_map.mp (h.mem_iff.mpr (List.mem_map_of_mem hr))
    rw [find?_eq_some.mpr ⟨hr', hg heq⟩, Option.map_some, heq]
  cases hfind : t.find? k with
  | some r => exact hback h hfind
  | none =>
    cases hfind' : t'.find? k with
    | none => rfl
    | some r' =>
      have hsome := hback h.symm hfind'
      rw [hfind] at hsome
      cases hsome

end

end Table

end Lib

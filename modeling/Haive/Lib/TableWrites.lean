import Haive.Lib.Table
import Mathlib

/-!
# Writes to a keyed table

Writes and removals of single rows, one after the other. Where no two of them are about one key, their order
does not matter: each key is as its own write left it, or as it was.
-/

namespace Lib

inductive Write (R K : Type)
  | put (r : R)
  | del (k : K)

variable {R K : Type} {key : R → K}

/-- The key that the statement is about. -/
def Write.at (key : R → K) : Write R K → K
  | .put r => key r
  | .del k => k

namespace Table

variable [DecidableEq K] {t : Table R key} {ws : List (Write R K)}

def write (t : Table R key) : Write R K → Table R key
  | .put r => t.put r
  | .del k => t.del k

def writes (t : Table R key) (ws : List (Write R K)) : Table R key := ws.foldl write t

theorem mem_of_mem_write {w : Write R K} {r : R} (h : r ∈ (t.write w).rows) : w = .put r ∨ r ∈ t.rows := by
  cases w with
  | put s => exact (mem_rows_put.mp h).imp (fun heq => congrArg Write.put heq.symm) And.left
  | del k => exact .inr (List.mem_of_mem_filter h)

theorem mem_of_mem_writes {r : R} (h : r ∈ (t.writes ws).rows) : .put r ∈ ws ∨ r ∈ t.rows := by
  induction ws generalizing t with
  | nil => exact .inr h
  | cons w ws ih =>
    rcases ih h with hput | hrow
    · exact .inl (List.mem_cons_of_mem w hput)
    · refine (mem_of_mem_write hrow).imp_left fun heq => ?_
      rw [heq]
      exact List.mem_cons_self

theorem find?_write_of_ne {w : Write R K} {k : K} (h : w.at key ≠ k) : (t.write w).find? k = t.find? k := by
  cases w with
  | put r => exact find?_put_of_ne h
  | del k' => exact (find?_del t k' k).trans (if_neg h)

theorem find?_writes_of_notMem {k : K} (h : k ∉ ws.map (Write.at key)) : (t.writes ws).find? k = t.find? k := by
  induction ws generalizing t with
  | nil => rfl
  | cons w ws ih =>
    rw [List.map_cons, List.mem_cons, not_or] at h
    exact (ih h.2).trans (find?_write_of_ne (Ne.symm h.1))

theorem find?_foldl_put_of_notMem {rs : List R} {k : K} (h : k ∉ rs.map key) : (rs.foldl put t).find? k = t.find? k := by
  induction rs generalizing t with
  | nil => rfl
  | cons r rs ih =>
    rw [List.map_cons, List.mem_cons, not_or] at h
    exact (ih h.2).trans (find?_put_of_ne (Ne.symm h.1))

theorem find?_writes_of_mem (h : (ws.map (Write.at key)).Nodup) {w : Write R K} (hw : w ∈ ws) :
    (t.writes ws).find? (w.at key) = (t.write w).find? (w.at key) := by
  induction ws generalizing t with
  | nil => exact absurd hw List.not_mem_nil
  | cons first ws ih =>
    obtain ⟨hfirst, hrest⟩ := List.nodup_cons.mp h
    rcases List.mem_cons.mp hw with rfl | hw
    · exact find?_writes_of_notMem hfirst
    · have hne : first.at key ≠ w.at key := fun heq => hfirst (heq ▸ List.mem_map_of_mem hw)
      refine (ih hrest hw).trans ?_
      cases w with
      | put r => exact (find?_put_self _ r).trans (find?_put_self t r).symm
      | del k => rw [write, write, Write.at, find?_del, find?_del, if_pos rfl, if_pos rfl]

theorem find?_writes_put (h : (ws.map (Write.at key)).Nodup) {r : R} (hr : .put r ∈ ws) :
    (t.writes ws).find? (key r) = some r := (find?_writes_of_mem h hr).trans (find?_put_self t r)

theorem find?_writes_del (h : (ws.map (Write.at key)).Nodup) {k : K} (hk : .del k ∈ ws) :
    (t.writes ws).find? k = none :=
  (find?_writes_of_mem h hk).trans ((find?_del t k k).trans (if_pos rfl))

/-- The keys that the writes leave: those written to, and the others that are not removed. -/
theorem mem_keys_writes (h : (ws.map (Write.at key)).Nodup) {k : K} :
    k ∈ (t.writes ws).keys ↔ (∃ r, .put r ∈ ws ∧ key r = k) ∨ k ∈ t.keys ∧ .del k ∉ ws := by
  constructor
  · intro hk
    by_cases hmem : k ∈ ws.map (Write.at key)
    · obtain ⟨w, hw, rfl⟩ := List.mem_map.mp hmem
      cases w with
      | put r => exact .inl ⟨r, hw, rfl⟩
      | del k => exact absurd hk (find?_eq_none.mp (find?_writes_del h hw))
    · obtain ⟨r, hfind⟩ := mem_keys_iff_find?.mp hk
      rw [find?_writes_of_notMem hmem] at hfind
      exact .inr ⟨mem_keys_iff_find?.mpr ⟨r, hfind⟩, fun hdel => hmem (List.mem_map_of_mem hdel)⟩
  · rintro (⟨r, hr, rfl⟩ | ⟨hk, hdel⟩)
    · exact mem_keys_iff_find?.mpr ⟨r, find?_writes_put h hr⟩
    · by_cases hmem : k ∈ ws.map (Write.at key)
      · obtain ⟨w, hw, rfl⟩ := List.mem_map.mp hmem
        cases w with
        | put r => exact mem_keys_iff_find?.mpr ⟨r, find?_writes_put h hw⟩
        | del k => exact absurd hw hdel
      · obtain ⟨r, hfind⟩ := mem_keys_iff_find?.mp hk
        exact mem_keys_iff_find?.mpr ⟨r, (find?_writes_of_notMem hmem).trans hfind⟩

end Table

end Lib

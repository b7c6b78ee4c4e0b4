import Mathlib.Data.List.Basic

/-!
# Code units

The UTF-16 code units of a string, as numbers. Two strings are the same when their units are
(`codeUnits_injective`), so an order on the units is an order on the strings.
-/

namespace Lib

/-- A character of the first plane is one unit, any other one a pair of surrogates. -/
def charUnits (c : Char) : List Nat :=
  if c.toNat < 0x10000 then [c.toNat]
  else [0xd800 + (c.toNat - 0x10000) / 0x400, 0xdc00 + (c.toNat - 0x10000) % 0x400]

def codeUnits (s : String) : List Nat := s.toList.flatMap charUnits

theorem toNat_valid (c : Char) : c.toNat < 0xd800 ∨ (0xdfff < c.toNat ∧ c.toNat < 0x110000) := c.valid

/-- The first units of two texts name the first character. -/
theorem charUnits_append {c d : Char} {xs ys : List Nat} (h : charUnits c ++ xs = charUnits d ++ ys) :
    c = d ∧ xs = ys := by
  have hc := toNat_valid c
  have hd := toNat_valid d
  have heq : c.toNat = d.toNat → c = d := fun h => Char.ext (UInt32.toNat_inj.mp h)
  rw [charUnits, charUnits] at h
  split at h
  · next hsmall =>
    split at h
    · rw [List.singleton_append, List.singleton_append, List.cons.injEq] at h
      exact ⟨heq h.1, h.2⟩
    · simp only [List.cons_append, List.nil_append, List.cons.injEq] at h
      omega
  · split at h
    · simp only [List.cons_append, List.nil_append, List.cons.injEq] at h
      omega
    · simp only [List.cons_append, List.nil_append, List.cons.injEq] at h
      exact ⟨heq (by omega), h.2.2⟩

theorem charUnits_ne_nil (c : Char) : charUnits c ≠ [] := by
  rw [charUnits]
  split <;> exact List.cons_ne_nil _ _

theorem codeUnits_injective : Function.Injective codeUnits := by
  have hchars : ∀ cs ds : List Char, cs.flatMap charUnits = ds.flatMap charUnits → cs = ds := by
    intro cs
    induction cs with
    | nil =>
      intro ds h
      cases ds with
      | nil => rfl
      | cons d ds =>
        rw [List.flatMap_cons, List.flatMap_nil] at h
        exact absurd (List.append_eq_nil_iff.mp h.symm).1 (charUnits_ne_nil d)
    | cons c cs ih =>
      intro ds h
      cases ds with
      | nil =>
        rw [List.flatMap_cons, List.flatMap_nil] at h
        exact absurd (List.append_eq_nil_iff.mp h).1 (charUnits_ne_nil c)
      | cons d ds =>
        rw [List.flatMap_cons, List.flatMap_cons] at h
        obtain ⟨rfl, hrest⟩ := charUnits_append h
        rw [ih ds hrest]
  exact fun s t h => String.toList_inj.mp (hchars _ _ h)

end Lib

import Mathlib.Data.List.DropRight

/-!
# UTF-16 texts

A text as its code units, which is what indices, lengths and cuts count in a language whose
strings are UTF-16. `Lib.Text` has the same operations over characters.
-/

namespace Lib.Units

/-- The code units of a literal, all of it in the first plane. -/
def units (s : String) : List UInt16 := s.toList.map fun c => c.toNat.toUInt16

theorem lawfulBEq_units : LawfulBEq (List UInt16) := inferInstance

/-- White space and line ends, as `trim` and `\s` take them. -/
def isTrimmed (u : UInt16) : Bool :=
  (9 ≤ u && u ≤ 13) || u = 0x20 || u = 0xa0 || u = 0x1680 || (0x2000 ≤ u && u ≤ 0x200a) ||
    u = 0x2028 || u = 0x2029 || u = 0x202f || u = 0x205f || u = 0x3000 || u = 0xfeff

/-- `s.trim()`. -/
def trim (s : List UInt16) : List UInt16 := (s.dropWhile isTrimmed).rdropWhile isTrimmed

/-- Where a line ends, as `^` and `$` take it in a pattern over lines. -/
def isLineEnd (u : UInt16) : Bool := u = 10 || u = 13 || u = 0x2028 || u = 0x2029

/-- `\d`. -/
def isDigit (u : UInt16) : Bool := 0x30 ≤ u && u ≤ 0x39

/-- `toLowerCase`, as far as it yields ASCII. -/
def lowerUnit (u : UInt16) : List UInt16 :=
  if 0x41 ≤ u && u ≤ 0x5a then [u + 0x20]
  else if u = 0x130 then [0x69, 0x307]
  else if u = 0x212a then [0x6b]
  else [u]

/-- The decimal numeral of a natural number. -/
def numeral (n : Nat) : List UInt16 := (Nat.toDigits 10 n).map fun c => c.toNat.toUInt16

theorem numeral_ne_nil (n : Nat) : numeral n ≠ [] := List.map_eq_nil_iff.not.mpr Nat.toDigits_ne_nil

def digitsValue (digits : List UInt16) : Nat := digits.foldl (fun n u => 10 * n + (u.toNat - 0x30)) 0

theorem digit_unit {n : Nat} {c : Char} (h : c ∈ Nat.toDigits 10 n) :
    0x30 ≤ c.toNat ∧ c.toNat ≤ 0x39 ∧ c.toNat.toUInt16.toNat = c.toNat := by
  have hdigit := Nat.isDigit_of_mem_toDigits (by decide) (by decide) h
  rw [Char.isDigit, Bool.and_eq_true, decide_eq_true_eq, decide_eq_true_eq] at hdigit
  have hlow : 0x30 ≤ c.toNat := UInt32.le_iff_toNat_le.mp hdigit.1
  have hhigh : c.toNat ≤ 0x39 := UInt32.le_iff_toNat_le.mp hdigit.2
  exact ⟨hlow, hhigh, UInt16.toNat_ofNat_of_lt' (by unfold UInt16.size; omega)⟩

theorem isDigit_of_mem_numeral {n : Nat} {u : UInt16} (h : u ∈ numeral n) : isDigit u = true := by
  obtain ⟨c, hc, rfl⟩ := List.mem_map.mp h
  obtain ⟨hlow, hhigh, htoNat⟩ := digit_unit hc
  simp only [isDigit, Bool.and_eq_true, decide_eq_true_eq, UInt16.le_iff_toNat_le, htoNat]
  exact ⟨hlow, hhigh⟩

theorem digitsValue_numeral (n : Nat) : digitsValue (numeral n) = n := by
  have hchars : ∀ (chars : List Char) (init : Nat), (∀ c ∈ chars, c.toNat.toUInt16.toNat = c.toNat) →
      (chars.map fun c => c.toNat.toUInt16).foldl (fun n u => 10 * n + (u.toNat - 0x30)) init =
        Nat.ofDigitChars 10 chars init := by
    intro chars init hall
    induction chars generalizing init with
    | nil => rw [List.map_nil, List.foldl_nil, Nat.ofDigitChars_nil]
    | cons c rest ih =>
      rw [List.map_cons, List.foldl_cons, Nat.ofDigitChars_cons, hall c List.mem_cons_self]
      exact ih _ fun d hd => hall d (List.mem_cons_of_mem c hd)
  exact (hchars _ 0 fun c hc => (digit_unit hc).2.2).trans (Nat.ofDigitChars_toDigits (by decide) (by decide))

theorem numeral_injective : Function.Injective numeral :=
  Function.LeftInverse.injective (g := digitsValue) digitsValue_numeral

theorem mem_of_mem_trim {s : List UInt16} {u : UInt16} (h : u ∈ trim s) : u ∈ s :=
  (List.dropWhile_suffix isTrimmed).subset ((List.rdropWhile_prefix isTrimmed _).subset h)

theorem trim_eq_nil_iff {t : List UInt16} : trim t = [] ↔ ∀ u ∈ t, isTrimmed u = true := by
  rw [trim, List.rdropWhile_eq_nil_iff]
  constructor
  · intro h u hu
    rw [← List.takeWhile_append_dropWhile (p := isTrimmed) (l := t), List.mem_append] at hu
    exact hu.elim List.mem_takeWhile_imp (h u)
  · exact fun h u hu => h u ((List.dropWhile_suffix isTrimmed).subset hu)

theorem length_trim_le (s : List UInt16) : (trim s).length ≤ s.length :=
  (List.rdropWhile_prefix isTrimmed _).length_le.trans (List.dropWhile_suffix isTrimmed).length_le

/-- A text that starts with no white space is trimmed at its end only. -/
theorem trim_cons {u : UInt16} (hu : isTrimmed u = false) (rest : List UInt16) :
    ∃ rest', trim (u :: rest) = u :: rest' := by
  have hfront : (u :: rest).dropWhile isTrimmed = u :: rest :=
    List.dropWhile_cons_of_neg (by simp [hu])
  rw [trim, hfront]
  obtain ⟨tail, htail⟩ := List.rdropWhile_prefix isTrimmed (u :: rest)
  cases hcut : (u :: rest).rdropWhile isTrimmed with
  | nil =>
    have hall := List.rdropWhile_eq_nil_iff.mp hcut u List.mem_cons_self
    rw [hu] at hall
    cases hall
  | cons v rest' =>
    rw [hcut, List.cons_append, List.cons.injEq] at htail
    exact ⟨rest', by rw [htail.1]⟩

theorem trim_last (s : List UInt16) (u : UInt16) (h : (trim s).getLast? = some u) :
    isTrimmed u = false := by
  have hne : trim s ≠ [] := by
    intro hnil
    rw [hnil] at h
    cases h
  rw [List.getLast?_eq_getLast_of_ne_nil hne, Option.some.injEq] at h
  rw [← h, Bool.eq_false_iff]
  exact List.rdropWhile_last_not isTrimmed _ hne

end Lib.Units

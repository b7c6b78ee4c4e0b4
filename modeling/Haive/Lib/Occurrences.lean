import Mathlib.Data.List.Basic
import Mathlib.Data.List.Infix

/-!
# Occurrences of a word in a text

Searching, counting and replacing in a list of characters. A character that is not in
the word separates the text: no occurrence runs across it (`prefix_append_cons`), so
every search of `a ++ c :: b` is one of `a` and one of `b`.
-/

namespace Lib

variable {α κ : Type}

/-! ## Where a word stands -/

/-- `n` stands at index `i` of `t`. -/
def OccursAt (n t : List α) (i : Nat) : Prop := n <+: t.drop i

instance [DecidableEq α] (n t : List α) (i : Nat) : Decidable (OccursAt n t i) :=
  inferInstanceAs (Decidable (n <+: t.drop i))

section Separated

variable {n a b : List α} {c : α}

theorem prefix_append_cons (hc : c ∉ n) : n <+: a ++ c :: b ↔ n <+: a := by
  induction n generalizing a with
  | nil => simp
  | cons x n ih =>
    rw [List.mem_cons, not_or] at hc
    cases a with
    | nil =>
      rw [List.nil_append, List.cons_prefix_cons]
      exact iff_of_false (fun h => hc.1 h.1.symm) (by simp)
    | cons y a => rw [List.cons_append, List.cons_prefix_cons, List.cons_prefix_cons, ih hc.2]

theorem not_prefix_cons (hn : n ≠ []) (hc : c ∉ n) : ¬ n <+: c :: b := fun h =>
  hn (List.prefix_nil.mp ((prefix_append_cons (a := []) hc).mp h))

theorem infix_append_cons (hn : n ≠ []) (hc : c ∉ n) : n <:+: a ++ c :: b ↔ n <:+: a ∨ n <:+: b := by
  induction a with
  | nil =>
    rw [List.nil_append, List.infix_cons_iff]
    have hnil : ¬ n <:+: [] := fun h => hn (List.infix_nil.mp h)
    exact ⟨fun h => .inr (h.resolve_left (not_prefix_cons hn hc)), fun h => .inr (h.resolve_left hnil)⟩
  | cons x a ih =>
    rw [List.cons_append, List.infix_cons_iff, List.infix_cons_iff, ih, ← List.cons_append,
      prefix_append_cons hc, or_assoc]

theorem occursAt_append_cons (hn : n ≠ []) (hc : c ∉ n) {i : Nat} :
    OccursAt n (a ++ c :: b) i ↔ OccursAt n a i ∨ ∃ j, i = a.length + 1 + j ∧ OccursAt n b j := by
  unfold OccursAt
  rcases Nat.lt_or_ge a.length i with hi | hi
  · obtain ⟨j, rfl⟩ := Nat.exists_eq_add_of_lt hi
    have hpast : a.drop (a.length + j + 1) = [] := List.drop_eq_nil_of_le (by omega)
    rw [Nat.add_assoc, List.drop_length_add_append, List.drop_succ_cons, ← Nat.add_assoc, hpast,
      List.prefix_nil]
    constructor
    · exact fun h => .inr ⟨j, by omega, h⟩
    · rintro (h | ⟨k, hk, h⟩)
      · exact absurd h hn
      · obtain rfl : j = k := by omega
        exact h
  · rw [List.drop_append_of_le_length hi, prefix_append_cons hc]
    exact ⟨.inl, fun h => h.resolve_right fun ⟨j, hj, _⟩ => by omega⟩

end Separated

theorem OccursAt.le {n t : List α} {i : Nat} (hn : n ≠ []) (h : OccursAt n t i) : i + n.length ≤ t.length := by
  have hlen := List.IsPrefix.length_le h
  have hpos := List.length_pos_of_ne_nil hn
  rw [List.length_drop] at hlen
  omega

theorem OccursAt.append_right {n t : List α} {i : Nat} (h : OccursAt n t i) (w : List α) :
    OccursAt n (t ++ w) i := by
  obtain ⟨u, hu⟩ := h
  rcases Nat.le_total i t.length with hi | hi
  · rw [OccursAt, List.drop_append_of_le_length hi, ← hu, List.append_assoc]
    exact List.prefix_append n _
  · rw [List.drop_of_length_le hi] at hu
    rw [OccursAt, (List.append_eq_nil_iff.mp hu).1]
    exact List.nil_prefix

theorem infix_drop_iff {n t : List α} {i : Nat} : n <:+: t.drop i ↔ ∃ j, i ≤ j ∧ OccursAt n t j := by
  constructor
  · rintro ⟨a, b, h⟩
    refine ⟨i + a.length, Nat.le_add_right _ _, b, ?_⟩
    rw [← List.drop_drop, ← h, List.append_assoc, List.drop_left]
  · rintro ⟨j, hj, h⟩
    obtain ⟨d, rfl⟩ := Nat.exists_eq_add_of_le hj
    rw [OccursAt, ← List.drop_drop] at h
    exact h.isInfix.trans (List.drop_suffix d _).isInfix

theorem not_occursAt {n t : List α} (h : ¬ n <:+: t) (i : Nat) : ¬ OccursAt n t i :=
  fun hi => h (hi.isInfix.trans (List.drop_suffix i t).isInfix)

/-! ## What starts where -/

/-- What starts at the places of `t`, in order. -/
def starts (kind : List α → Option κ) (t : List α) : List κ := t.tails.filterMap kind

theorem starts_cons (kind : List α → Option κ) (c : α) (t : List α) :
    starts kind (c :: t) = (kind (c :: t)).toList ++ starts kind t := by
  rw [starts, List.tails_cons, List.filterMap_cons]
  cases kind (c :: t) <;> rfl

theorem starts_append_cons {kind : List α → Option κ} {c : α} (hnil : kind [] = none)
    (hc : ∀ a b, kind (a ++ c :: b) = kind a) (a b : List α) :
    starts kind (a ++ c :: b) = starts kind a ++ starts kind b := by
  induction a with
  | nil =>
    rw [List.nil_append, starts_cons, ← List.nil_append (c :: b), hc, hnil]
    simp [starts, hnil]
  | cons x a ih =>
    rw [List.cons_append, starts_cons, ih, starts_cons, ← List.cons_append, hc, List.append_assoc]

theorem starts_eq_nil {kind : List α → Option κ} {t : List α} (h : ∀ s, s <:+ t → kind s = none) :
    starts kind t = [] :=
  List.filterMap_eq_nil_iff.mpr fun s hs => h s ((List.mem_tails s t).mp hs)

section Search

variable [DecidableEq α]

/-! ## Counting -/

/-- Counts from left to right, passing over `skip` characters first. -/
def countFrom (n : List α) : Nat → List α → Nat
  | _, [] => 0
  | skip + 1, _ :: t => countFrom n skip t
  | 0, c :: t => if n <+: c :: t then countFrom n (n.length - 1) t + 1 else countFrom n 0 t

/-- `t.split(n).length - 1`. -/
def occurrences (n t : List α) : Nat := countFrom n 0 t

theorem countFrom_append_cons {n b : List α} {c : α} (hn : n ≠ []) (hc : c ∉ n) (a : List α) {skip : Nat}
    (hskip : skip ≤ a.length) :
    countFrom n skip (a ++ c :: b) = countFrom n skip a + countFrom n 0 b := by
  induction a generalizing skip with
  | nil =>
    obtain rfl : skip = 0 := Nat.le_zero.mp hskip
    rw [List.nil_append, countFrom.eq_3, if_neg (not_prefix_cons hn hc), countFrom, Nat.zero_add]
  | cons x a ih =>
    cases skip with
    | succ skip => rw [List.cons_append, countFrom, countFrom, ih (Nat.le_of_succ_le_succ hskip)]
    | zero =>
      have hiff : n <+: x :: (a ++ c :: b) ↔ n <+: x :: a := prefix_append_cons (a := x :: a) hc
      rw [List.cons_append, countFrom, countFrom]
      rcases em (n <+: x :: a) with hp | hp
      · have hlen := List.IsPrefix.length_le hp
        rw [List.length_cons] at hlen
        rw [if_pos hp, if_pos (hiff.mpr hp), ih (by omega)]
        omega
      · rw [if_neg hp, if_neg (mt hiff.mp hp), ih (Nat.zero_le _)]

theorem occurrences_append_cons {n b : List α} {c : α} (hn : n ≠ []) (hc : c ∉ n) (a : List α) :
    occurrences n (a ++ c :: b) = occurrences n a + occurrences n b :=
  countFrom_append_cons hn hc a (Nat.zero_le _)

theorem countFrom_eq_zero {n t : List α} (h : ¬ n <:+: t) (skip : Nat) : countFrom n skip t = 0 := by
  induction t generalizing skip with
  | nil => rw [countFrom]
  | cons c t ih =>
    rw [List.infix_cons_iff, not_or] at h
    cases skip with
    | succ skip => exact ih h.2 skip
    | zero => rw [countFrom, if_neg h.1, ih h.2]

/-! ## Searching -/

/-- `t.indexOf(n)`. -/
def indexOf (n : List α) : List α → Option Nat
  | [] => none
  | c :: t => if n <+: c :: t then some 0 else (indexOf n t).map (· + 1)

/-- `t.indexOf(n, k)`. -/
def indexFrom (n t : List α) (k : Nat) : Option Nat := (indexOf n (t.drop k)).map (· + k)

theorem indexOf_eq_none {n t : List α} (h : ¬ n <:+: t) : indexOf n t = none := by
  induction t with
  | nil => rfl
  | cons c t ih =>
    rw [List.infix_cons_iff, not_or] at h
    rw [indexOf, if_neg h.1, ih h.2, Option.map_none]

theorem indexOf_append_cons {n a b : List α} {c : α} (hn : n ≠ []) (hc : c ∉ n) (h : ¬ n <:+: a) :
    indexOf n (a ++ c :: b) = (indexOf n b).map (· + (a.length + 1)) := by
  induction a with
  | nil => rw [List.nil_append, indexOf, if_neg (not_prefix_cons hn hc), List.length_nil, Nat.zero_add]
  | cons x a ih =>
    rw [List.infix_cons_iff, not_or] at h
    have hiff : n <+: x :: (a ++ c :: b) ↔ n <+: x :: a := prefix_append_cons (a := x :: a) hc
    rw [List.cons_append, indexOf, if_neg (mt hiff.mp h.1), ih h.2, Option.map_map]
    rfl

theorem indexOf_self_append {n : List α} (hn : n ≠ []) (w : List α) : indexOf n (n ++ w) = some 0 := by
  obtain ⟨x, n', rfl⟩ := List.exists_cons_of_ne_nil hn
  rw [List.cons_append, indexOf]
  exact if_pos (List.prefix_append (x :: n') w)

theorem infix_of_indexOf {n t : List α} {i : Nat} (h : indexOf n t = some i) : n <:+: t := by
  by_contra hno
  rw [indexOf_eq_none hno] at h
  cases h

theorem indexOf_eq_some {n t : List α} (hn : n ≠ []) {i : Nat} :
    indexOf n t = some i ↔ OccursAt n t i ∧ ∀ j < i, ¬ OccursAt n t j := by
  induction t generalizing i with
  | nil =>
    refine iff_of_false (by simp [indexOf]) fun h => hn ?_
    exact List.prefix_nil.mp (by simpa [OccursAt] using h.1)
  | cons c t ih =>
    have hshift : ∀ k, OccursAt n (c :: t) (k + 1) ↔ OccursAt n t k := fun k => Iff.rfl
    rw [indexOf]
    split
    · next hp =>
      constructor
      · rintro ⟨⟩
        exact ⟨hp, by simp⟩
      · rintro ⟨_, hfirst⟩
        cases i with
        | zero => rfl
        | succ i => exact absurd hp (hfirst 0 (Nat.succ_pos i))
    · next hp =>
      cases i with
      | zero => exact iff_of_false (by simp) fun h => hp h.1
      | succ i =>
        rw [Option.map_eq_some_iff, hshift]
        constructor
        · rintro ⟨k, hk, hki⟩
          obtain rfl : k = i := by omega
          obtain ⟨hat, hfirst⟩ := ih.mp hk
          refine ⟨hat, fun j hj => ?_⟩
          cases j with
          | zero => exact hp
          | succ j => exact hfirst j (by omega)
        · rintro ⟨hat, hfirst⟩
          exact ⟨i, ih.mpr ⟨hat, fun j hj => hfirst (j + 1) (by omega)⟩, rfl⟩

theorem indexOf_eq_none_iff {n t : List α} : indexOf n t = none ↔ t = [] ∨ ¬ n <:+: t := by
  induction t with
  | nil => simp [indexOf]
  | cons c t ih =>
    rw [indexOf, List.infix_cons_iff]
    split
    · next hp => simp [hp]
    · next hp =>
      rw [Option.map_eq_none_iff, ih]
      constructor
      · rintro (rfl | h)
        · refine .inr fun h => hp (h.elim id fun h => ?_)
          rw [List.infix_nil.mp h]
          exact List.nil_prefix
        · exact .inr fun h' => h (h'.resolve_left hp)
      · rintro (h | h)
        · cases h
        · exact .inr fun h' => h (.inr h')

/-- What follows the first occurrence does not move it. -/
theorem indexOf_append_right {n a : List α} {i : Nat} (h : indexOf n a = some i) (b : List α) :
    indexOf n (a ++ b) = some i := by
  induction a generalizing i with
  | nil => cases h
  | cons c a ih =>
    have hlen := (infix_of_indexOf h).length_le
    have hiff : n <+: (c :: a) ++ b ↔ n <+: c :: a :=
      ⟨fun hp => List.prefix_of_prefix_length_le hp (List.prefix_append _ b) hlen,
        fun hp => hp.trans (List.prefix_append _ b)⟩
    rw [List.cons_append] at hiff ⊢
    rw [indexOf] at h ⊢
    split at h
    · next hp => rw [if_pos (hiff.mpr hp), h]
    · next hp =>
      obtain ⟨k, hk, rfl⟩ := Option.map_eq_some_iff.mp h
      rw [if_neg (mt hiff.mp hp), ih hk]
      rfl

/-- A text around the first occurrence of a word. -/
theorem indexOf_split {n t : List α} (hn : n ≠ []) {i : Nat} (h : indexOf n t = some i) :
    indexOf n (t.take i ++ n) = some i ∧ t = t.take i ++ n ++ t.drop (i + n.length) := by
  obtain ⟨hat, hfirst⟩ := (indexOf_eq_some hn).mp h
  have hle := hat.le hn
  obtain ⟨w, hw⟩ := hat
  have hsplit : t = t.take i ++ n ++ t.drop (i + n.length) := by
    have hrest : t.drop (i + n.length) = w := by
      rw [← List.drop_drop, ← hw, List.drop_left]
    rw [hrest, List.append_assoc, hw, List.take_append_drop]
  have htake : (t.take i).length = i := by
    rw [List.length_take]
    omega
  refine ⟨(indexOf_eq_some hn).mpr ⟨?_, fun j hj hocc => hfirst j hj ?_⟩, hsplit⟩
  · rw [OccursAt, List.drop_append_of_le_length (by omega), List.drop_of_length_le (by omega)]
    exact List.prefix_rfl
  · rw [hsplit]
    exact hocc.append_right _

end Search

/-! ## Replacing -/

/-- Replaces, from left to right, what `len` takes of the rest of the text (nothing if `0`). -/
def replaceFrom (len : List α → Nat) (put : List α) : Nat → List α → List α
  | _, [] => []
  | skip + 1, _ :: t => replaceFrom len put skip t
  | 0, c :: t =>
    match len (c :: t) with
    | 0 => c :: replaceFrom len put 0 t
    | k + 1 => put ++ replaceFrom len put k t

/-- `t.replace(…, put)` with a global expression. -/
def replaceAll (len : List α → Nat) (put t : List α) : List α := replaceFrom len put 0 t

theorem replaceFrom_append_cons {len : List α → Nat} {c : α} (hc : ∀ b, len (c :: b) = 0)
    (hlocal : ∀ x a b, len (x :: a ++ c :: b) = len (x :: a)) (hle : ∀ t, len t ≤ t.length)
    (put a b : List α) {skip : Nat} (hskip : skip ≤ a.length) :
    replaceFrom len put skip (a ++ c :: b) = replaceFrom len put skip a ++ c :: replaceFrom len put 0 b := by
  induction a generalizing skip with
  | nil =>
    obtain rfl : skip = 0 := Nat.le_zero.mp hskip
    rw [List.nil_append, replaceFrom.eq_3, hc, replaceFrom]
    rfl
  | cons x a ih =>
    cases skip with
    | succ skip => rw [List.cons_append, replaceFrom, replaceFrom, ih (Nat.le_of_succ_le_succ hskip)]
    | zero =>
      have hsame : len (x :: (a ++ c :: b)) = len (x :: a) := hlocal x a b
      have hlen := hle (x :: a)
      rw [List.cons_append, replaceFrom, replaceFrom, hsame]
      cases hk : len (x :: a) with
      | zero => exact congrArg (x :: ·) (ih (Nat.zero_le _))
      | succ k =>
        rw [hk, List.length_cons] at hlen
        dsimp only
        rw [ih (Nat.le_of_succ_le_succ hlen), List.append_assoc]

end Lib

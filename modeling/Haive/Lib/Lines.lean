import Mathlib

/-!
# Texts as lines

What stands at the ends of the lines of a text, and the operations that leave it as it is: cutting
long runs of line ends (`squeeze`), and taking the last ones off. `EndsClear` is stated on the
lines; `endsClear_cons` is its recursion on the text.
-/

namespace Lib

variable {α : Type*} [DecidableEq α] {nl : α} {bad : α → Bool}

def EndsClear (nl : α) (bad : α → Bool) (t : List α) : Prop :=
  ∀ line ∈ t.splitOn nl, ∀ u ∈ line.getLast?, bad u = false

theorem not_mem_of_mem_splitOn {t line : List α} (h : line ∈ t.splitOn nl) : nl ∉ line := by
  induction t generalizing line with
  | nil =>
    rw [List.splitOn_eq_singleton List.not_mem_nil, List.mem_singleton] at h
    rw [h]
    exact List.not_mem_nil
  | cons u t ih =>
    obtain ⟨first, lines, hrest⟩ := List.exists_cons_of_ne_nil (List.splitOn_ne_nil nl t)
    rw [List.splitOn_cons_eq_if_modifyHead, hrest] at h
    split at h
    · rcases List.mem_cons.mp h with rfl | h
      · exact List.not_mem_nil
      · exact ih (hrest ▸ h)
    · next hu =>
      rw [List.modifyHead_cons] at h
      rcases List.mem_cons.mp h with rfl | h
      · have hfirst : nl ∉ first := ih (hrest ▸ List.mem_cons_self)
        exact List.not_mem_cons_of_ne_of_not_mem (fun heq => hu (by simp [heq])) hfirst
      · exact ih (hrest ▸ List.mem_cons_of_mem _ h)

theorem count_intercalate {u : α} (hu : u ≠ nl) (lines : List (List α)) :
    ([nl].intercalate lines).count u = (lines.map (·.count u)).sum := by
  induction lines with
  | nil => rfl
  | cons line lines ih =>
    cases lines with
    | nil => simp
    | cons line' lines =>
      rw [List.intercalate_cons_cons, List.append_assoc, List.count_append, List.count_append, ih,
        List.map_cons (l := line' :: lines), List.sum_cons (l := List.map _ _)]
      simp [hu.symm]

theorem endsClear_nil : EndsClear nl bad [] := by
  intro line hline u hu
  rw [List.splitOn_eq_singleton List.not_mem_nil, List.mem_singleton] at hline
  rw [hline] at hu
  cases hu

theorem endsClear_cons (hnl : bad nl = false) (u : α) (t : List α) :
    EndsClear nl bad (u :: t) ↔ (bad u = true → ∃ v ∈ t.head?, v ≠ nl) ∧ EndsClear nl bad t := by
  have hsplit : ∃ line lines, t.splitOn nl = line :: lines ∧ (line = [] ↔ ¬ ∃ v ∈ t.head?, v ≠ nl) := by
    cases t with
    | nil => exact ⟨[], [], List.splitOn_eq_singleton List.not_mem_nil, by simp⟩
    | cons v t =>
      rw [List.splitOn_cons_eq_if_modifyHead]
      split
      · next heq => exact ⟨[], _, rfl, by simpa using heq⟩
      · next hne =>
        obtain ⟨line, lines, hrest⟩ := List.exists_cons_of_ne_nil (List.splitOn_ne_nil nl t)
        exact ⟨v :: line, lines, by rw [hrest, List.modifyHead_cons], by simpa using hne⟩
  obtain ⟨line, lines, hsplit, hempty⟩ := hsplit
  by_cases hu : u = nl
  · subst hu
    simp [EndsClear, List.splitOn_cons_eq_if_modifyHead, hnl]
  · rw [EndsClear, EndsClear, List.splitOn_cons_eq_if_modifyHead, if_neg (by simpa using hu), hsplit,
      List.modifyHead_cons, List.forall_mem_cons, List.forall_mem_cons, ← and_assoc]
    refine and_congr_left fun _ => ?_
    cases line with
    | nil =>
      have hno := hempty.mp rfl
      simp only [List.getLast?_singleton, Option.mem_def, Option.some.injEq, forall_eq', List.getLast?_nil]
      constructor
      · exact fun hclear => ⟨fun hbad => absurd (hclear.symm.trans hbad) Bool.false_ne_true, fun _ h => nomatch h⟩
      · exact fun h => Bool.eq_false_iff.mpr fun hbad => hno (h.1 hbad)
    | cons v line =>
      have hyes : ∃ v ∈ t.head?, v ≠ nl := not_not.mp (hempty.not.mp (List.cons_ne_nil _ _))
      rw [List.getLast?_cons_cons]
      exact ⟨fun h => ⟨fun _ => hyes, h⟩, fun h => h.2⟩

theorem endsClear_append_nl (hnl : bad nl = false) (t : List α) :
    EndsClear nl bad (t ++ [nl]) ↔ EndsClear nl bad t := by
  induction t with
  | nil =>
    rw [List.nil_append, endsClear_cons hnl]
    simp [hnl, endsClear_nil]
  | cons u t ih =>
    rw [List.cons_append, endsClear_cons hnl, endsClear_cons hnl, ih]
    refine and_congr_left fun _ => imp_congr_right fun _ => ?_
    cases t <;> simp

theorem endsClear_rdropWhile (hnl : bad nl = false) (t : List α) :
    EndsClear nl bad (t.rdropWhile (· = nl)) ↔ EndsClear nl bad t := by
  induction t using List.reverseRecOn with
  | nil => rw [List.rdropWhile_nil]
  | append_singleton t u ih =>
    by_cases hu : u = nl
    · subst hu
      rw [List.rdropWhile_concat_pos _ _ _ (by simp), ih, endsClear_append_nl hnl]
    · rw [List.rdropWhile_concat_neg _ _ _ (by simpa using hu)]

/-! ## Runs of line ends -/

/-- Every run of line ends is cut to `keep`; `n` of them stand before the text. -/
def squeeze (nl : α) (keep : Nat) : Nat → List α → List α
  | _, [] => []
  | n, u :: t =>
    if u = nl then if n < keep then u :: squeeze nl keep (n + 1) t else squeeze nl keep n t
    else u :: squeeze nl keep 0 t

variable {keep : Nat}

theorem length_squeeze_le (n : Nat) (t : List α) : (squeeze nl keep n t).length ≤ t.length := by
  induction t generalizing n with
  | nil => exact Nat.le_refl _
  | cons u t ih =>
    rw [squeeze]
    split
    · split
      · exact Nat.succ_le_succ (ih _)
      · exact Nat.le_succ_of_le (ih _)
    · exact Nat.succ_le_succ (ih _)

theorem squeeze_squeeze (n : Nat) (t : List α) :
    squeeze nl keep n (squeeze nl keep n t) = squeeze nl keep n t := by
  induction t generalizing n with
  | nil => rfl
  | cons u t ih =>
    rw [squeeze]
    split
    · split
      · next hu hn => rw [squeeze, if_pos hu, if_pos hn, ih]
      · exact ih n
    · next hu => rw [squeeze, if_neg hu, ih]

/-- What starts a text without long runs has none. -/
theorem squeeze_of_append {n : Nat} {a b : List α} (h : squeeze nl keep n (a ++ b) = a ++ b) :
    squeeze nl keep n a = a := by
  induction a generalizing n with
  | nil => rfl
  | cons u a ih =>
    rw [List.cons_append, squeeze] at h
    rw [squeeze]
    split
    · next hu =>
      rw [if_pos hu] at h
      split
      · next hn =>
        rw [if_pos hn, List.cons.injEq] at h
        rw [ih h.2]
      · next hn =>
        rw [if_neg hn] at h
        have hlen : (squeeze nl keep n (a ++ b)).length ≤ (a ++ b).length := length_squeeze_le n _
        rw [h, List.length_cons] at hlen
        exact absurd hlen (Nat.not_succ_le_self _)
    · next hu =>
      rw [if_neg hu, List.cons.injEq] at h
      rw [ih h.2]

theorem squeeze_append_nl {n : Nat} {t : List α} (hlast : t.getLast? ≠ some nl) (hn : t = [] → n < keep)
    (hkeep : 0 < keep) : squeeze nl keep n (t ++ [nl]) = squeeze nl keep n t ++ [nl] := by
  induction t generalizing n with
  | nil =>
    simp [squeeze, hn rfl]
  | cons u t ih =>
    have htail : t.getLast? ≠ some nl := by
      cases t with
      | nil => exact fun h => nomatch h
      | cons v t => rwa [List.getLast?_cons_cons] at hlast
    have hne : u = nl → t ≠ [] := by
      rintro rfl rfl
      exact hlast rfl
    rw [List.cons_append, squeeze, squeeze]
    split
    · next hu =>
      split
      · rw [ih htail fun ht => absurd ht (hne hu), List.cons_append]
      · exact ih htail fun ht => absurd ht (hne hu)
    · rw [ih htail fun _ => hkeep, List.cons_append]

theorem head?_squeeze {n : Nat} (hn : n < keep) (t : List α) : (squeeze nl keep n t).head? = t.head? := by
  cases t with
  | nil => rfl
  | cons u t =>
    rw [squeeze]
    split <;> rfl

theorem count_squeeze {u : α} (hu : u ≠ nl) (n : Nat) (t : List α) :
    (squeeze nl keep n t).count u = t.count u := by
  induction t generalizing n with
  | nil => rfl
  | cons v t ih =>
    rw [squeeze, List.count_cons]
    split
    · next hv =>
      have hvu : (v == u) = false := by
        rw [hv]
        exact beq_eq_false_iff_ne.mpr hu.symm
      split
      · rw [List.count_cons, ih]
      · rw [ih, hvu]
        rfl
    · rw [List.count_cons, ih]

theorem endsClear_squeeze (hnl : bad nl = false) (hkeep : 0 < keep) (n : Nat) (t : List α) :
    EndsClear nl bad (squeeze nl keep n t) ↔ EndsClear nl bad t := by
  induction t generalizing n with
  | nil => rfl
  | cons u t ih =>
    rw [squeeze, endsClear_cons hnl]
    split
    · next hu =>
      subst hu
      split
      · rw [endsClear_cons hnl, ih]
        simp [hnl]
      · rw [ih]
        simp [hnl]
    · rw [endsClear_cons hnl, ih, head?_squeeze hkeep]

end Lib

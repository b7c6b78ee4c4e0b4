import Mathlib.Logic.Basic

/-!
# Runs of a step function

`step s a` is the state after the action `a`, or `none` where `a` cannot happen.
`Along` says that a condition on the state before each action holds all the way,
and `runs_inv` is the induction: what every step under the condition keeps, every
run under it keeps.
-/

namespace Lib

variable {S A : Type}

def runs (step : S → A → Option S) : S → List A → Option S
  | s, [] => some s
  | s, a :: as =>
    match step s a with
    | none => none
    | some s' => runs step s' as

/-- Every action meets the condition where it happens. -/
def Along (step : S → A → Option S) (met : S → A → Prop) : S → List A → Prop
  | _, [] => True
  | s, a :: as => met s a ∧
    match step s a with
    | none => True
    | some s' => Along step met s' as

/-- `Along`, for a condition that can be computed. -/
def along (step : S → A → Option S) (met : S → A → Bool) : S → List A → Bool
  | _, [] => true
  | s, a :: as => met s a &&
    match step s a with
    | none => true
    | some s' => along step met s' as

variable {step : S → A → Option S} {met : S → A → Prop} {s s' : S} {as : List A}

theorem runs_cons {a : A} {s₁ : S} (h : step s a = some s₁) : runs step s (a :: as) = runs step s₁ as := by
  rw [runs, h]

theorem along_cons {a : A} {s₁ : S} (hmet : met s a) (h : step s a = some s₁) (hrest : Along step met s₁ as) :
    Along step met s (a :: as) := by
  rw [Along, h]
  exact ⟨hmet, hrest⟩

theorem runs_inv {I : S → Prop} (hstep : ∀ s a s', I s → met s a → step s a = some s' → I s')
    (h : I s) (hmet : Along step met s as) (hrun : runs step s as = some s') : I s' := by
  induction as generalizing s with
  | nil =>
    cases hrun
    exact h
  | cons a as ih =>
    rw [runs] at hrun
    rw [Along] at hmet
    cases hs : step s a with
    | none =>
      rw [hs] at hrun
      cases hrun
    | some s₁ =>
      rw [hs] at hrun hmet
      exact ih (hstep s a s₁ h hmet.1 hs) hmet.2 hrun

theorem along_of_forall (hmet : ∀ s a, met s a) : Along step met s as := by
  induction as generalizing s with
  | nil => trivial
  | cons a as ih =>
    rw [Along]
    refine ⟨hmet s a, ?_⟩
    cases step s a with
    | none => trivial
    | some s₁ => exact ih

theorem along_of_mem {P : A → Prop} (h : ∀ a ∈ as, P a) : Along step (fun _ a => P a) s as := by
  induction as generalizing s with
  | nil => trivial
  | cons a as ih =>
    rw [Along]
    refine ⟨h a List.mem_cons_self, ?_⟩
    cases step s a with
    | none => trivial
    | some s₁ => exact ih fun b hb => h b (List.mem_cons_of_mem _ hb)

theorem runs_keep {I : S → Prop} (hstep : ∀ s a s', I s → step s a = some s' → I s') (h : I s)
    (hrun : runs step s as = some s') : I s' := by
  have hmet : Along step (fun _ _ => True) s as := along_of_forall fun _ _ => trivial
  exact runs_inv (fun s a s' h _ hs => hstep s a s' h hs) h hmet hrun

theorem Along.of_along {check : S → A → Bool} (hmet : ∀ s a, check s a = true → met s a)
    (h : along step check s as = true) : Along step met s as := by
  induction as generalizing s with
  | nil => trivial
  | cons a as ih =>
    rw [along, Bool.and_eq_true] at h
    rw [Along]
    refine ⟨hmet s a h.1, ?_⟩
    cases hs : step s a with
    | none => trivial
    | some s₁ =>
      have hrest := h.2
      rw [hs] at hrest
      exact ih hrest

theorem Along.of_append {bs : List A} (h : Along step met s (as ++ bs)) : Along step met s as := by
  induction as generalizing s with
  | nil => trivial
  | cons a as ih =>
    rw [List.cons_append, Along] at h
    rw [Along]
    refine ⟨h.1, ?_⟩
    cases hs : step s a with
    | none => trivial
    | some s₁ =>
      have hrest := h.2
      rw [hs] at hrest
      exact ih hrest

/-- What the steps under the condition keep holds in every state a run under it reaches. -/
theorem reached_inv {I : S → Prop} (hstep : ∀ s a s', I s → met s a → step s a = some s' → I s')
    (h : I s) (hmet : Along step met s as) {as₁ : List A} {s₁ : S} (hfirst : as₁ <+: as)
    (hrun : runs step s as₁ = some s₁) : I s₁ := by
  obtain ⟨bs, rfl⟩ := hfirst
  exact runs_inv hstep h hmet.of_append hrun

/-- The condition held all the way where the state after each action shows that it did. -/
theorem along_of_reached {P : S → Prop} (hmet : ∀ s a s', step s a = some s' → P s' → met s a)
    (hrun : runs step s as = some s')
    (h : ∀ as₁ s₁, as₁ <+: as → runs step s as₁ = some s₁ → P s₁) : Along step met s as := by
  induction as generalizing s with
  | nil => trivial
  | cons a as ih =>
    rw [runs] at hrun
    rw [Along]
    cases hs : step s a with
    | none =>
      rw [hs] at hrun
      cases hrun
    | some s₁ =>
      rw [hs] at hrun
      have hone : runs step s [a] = some s₁ := by simp [runs, hs]
      refine ⟨hmet s a s₁ hs (h [a] s₁ ⟨as, rfl⟩ hone), ih hrun fun as₁ s₂ hfirst hreach => ?_⟩
      refine h (a :: as₁) s₂ (List.cons_prefix_cons.mpr ⟨rfl, hfirst⟩) ?_
      rw [runs, hs]
      exact hreach

/-- The condition, for the actions after the first ones of a run that never stops. -/
theorem along_append {next : S → A → S} {met : S → A → Prop} {s : S} {as bs : List A}
    (h : Along (fun s a => some (next s a)) met s (as ++ bs)) :
    Along (fun s a => some (next s a)) met (as.foldl next s) bs := by
  induction as generalizing s with
  | nil => exact h
  | cons a as ih => exact ih h.2

end Lib

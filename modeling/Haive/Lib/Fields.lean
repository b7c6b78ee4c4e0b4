import Mathlib.Logic.Basic

/-!
# Named record fields

A program that loops over the names of some fields of a record reads and writes
each through its own type. `Fields T F` is such a family: `F` names the fields,
`get` and `set` access them, and the laws say that a write is read back, that
writing what is there changes nothing and that a write leaves the other fields
alone.
-/

namespace Lib

/-- The fields of `T` that the names `F` stand for. -/
structure Fields (T F : Type) where
  Val : F → Type
  decEq : ∀ f, DecidableEq (Val f)
  get : ∀ f, T → Val f
  set : ∀ f, Val f → T → T
  get_set : ∀ f (v : Val f) (x : T), get f (set f v x) = v
  set_get : ∀ f (x : T), set f (get f x) x = x
  get_set_of_ne : ∀ {f g : F} (v : Val f) (x : T), f ≠ g → get g (set f v x) = get g x

namespace Fields

variable {T F : Type} (fields : Fields T F)

instance (f : F) : DecidableEq (fields.Val f) := fields.decEq f

/-- `names.some((f) => a[f] !== b[f])`. -/
def differ (names : List F) (a b : T) : Bool :=
  names.any (fun f => fields.get f a ≠ fields.get f b)

theorem differ_eq_false {names : List F} {a b : T} :
    fields.differ names a b = false ↔ ∀ f ∈ names, fields.get f a = fields.get f b := by
  simp [differ]

theorem differ_self (names : List F) (a : T) : fields.differ names a a = false := by
  simp [differ]

/-- Write `value f` into every field of `names`, in order. -/
def setAll (value : ∀ f, fields.Val f) (names : List F) (x : T) : T :=
  names.foldl (fun x f => fields.set f (value f) x) x

theorem get_setAll_of_not_mem (value : ∀ f, fields.Val f) {names : List F} (x : T) {f : F}
    (h : f ∉ names) : fields.get f (fields.setAll value names x) = fields.get f x := by
  induction names generalizing x with
  | nil => rfl
  | cons g names ih =>
    rw [List.mem_cons, not_or] at h
    simp only [setAll, List.foldl_cons] at ih ⊢
    rw [ih _ h.2, fields.get_set_of_ne _ _ (Ne.symm h.1)]

theorem get_setAll_of_mem {value : ∀ f, fields.Val f} {names : List F} {x : T} {f : F}
    (h : f ∈ names) : fields.get f (fields.setAll value names x) = value f := by
  induction names generalizing x with
  | nil => simp at h
  | cons g names ih =>
    by_cases hf : f ∈ names
    · exact ih hf
    · have hfg : f = g := by simpa [hf] using h
      subst hfg
      have := fields.get_setAll_of_not_mem value (fields.set f (value f) x) hf
      simp only [setAll, List.foldl_cons] at this ⊢
      rw [this, fields.get_set]

/-- Writing what is there already changes nothing. -/
theorem setAll_get (names : List F) (x : T) :
    fields.setAll (fun f => fields.get f x) names x = x := by
  induction names with
  | nil => rfl
  | cons g names ih =>
    simp only [setAll, List.foldl_cons] at ih ⊢
    rw [fields.set_get, ih]

/-- What every write keeps is kept by writing all the fields. -/
theorem setAll_invariant {β : Type} (view : T → β)
    (keep : ∀ f (v : fields.Val f) (x : T), view (fields.set f v x) = view x)
    (value : ∀ f, fields.Val f) (names : List F) (x : T) :
    view (fields.setAll value names x) = view x := by
  induction names generalizing x with
  | nil => rfl
  | cons g names ih =>
    have := ih (fields.set g (value g) x)
    simp only [setAll, List.foldl_cons] at this ⊢
    rw [this, keep]

end Fields

end Lib

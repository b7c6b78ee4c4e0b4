import Mathlib.Data.List.Induction

/-!
# Redelivery

A stream that arrives in its order, at least once: each item is the next one of the stream or one
that came before, and local events stand anywhere between. What has arrived is always the start of
the stream (`mem_iff`), so an item that another one precedes in the stream never arrives before it
(`precedes`).
-/

namespace Lib

variable {α β : Type*}

/-- The first `n` items of the stream have arrived, in the events `es`. -/
inductive Redelivery (stream : List α) : Nat → List (α ⊕ β) → Prop
  | start : Redelivery stream 0 []
  | next {n : Nat} {es : List (α ⊕ β)} {a : α} :
      Redelivery stream n es → stream[n]? = some a → Redelivery stream (n + 1) (es ++ [.inl a])
  | again {n : Nat} {es : List (α ⊕ β)} {a : α} :
      Redelivery stream n es → a ∈ stream.take n → Redelivery stream n (es ++ [.inl a])
  | own {n : Nat} {es : List (α ⊕ β)} (b : β) :
      Redelivery stream n es → Redelivery stream n (es ++ [.inr b])

namespace Redelivery

variable {stream : List α} {n : Nat} {es : List (α ⊕ β)} {a b : α}

theorem mem_iff (h : Redelivery stream n es) : .inl a ∈ es ↔ a ∈ stream.take n := by
  induction h with
  | start => simp
  | @next n es b _ hnext ih => simp [List.take_add_one, hnext, ih]
  | @again n es b _ hb ih =>
    rw [List.mem_append, ih, List.mem_singleton, Sum.inl.injEq]
    exact ⟨fun h => h.elim id fun heq => heq ▸ hb, .inl⟩
  | own b _ ih => simp [ih]

/-- Everything has arrived. -/
theorem mem_iff_of_all (h : Redelivery stream stream.length es) : .inl a ∈ es ↔ a ∈ stream := by
  rw [h.mem_iff, List.take_length]

/-- Each arrival, with what had arrived before it. -/
theorem of_append {before after : List (α ⊕ β)} {e : α ⊕ β} (h : Redelivery stream n (before ++ e :: after)) :
    ∃ m, Redelivery stream m before ∧
      ∀ a, e = .inl a → stream[m]? = some a ∨ a ∈ stream.take m := by
  induction after using List.reverseRecOn generalizing n with
  | nil =>
    generalize hes : before ++ [e] = es at h
    cases h with
    | start => exact absurd hes (by simp)
    | next h hnext =>
      obtain ⟨rfl, rfl⟩ := List.append_singleton_inj.mp hes
      exact ⟨_, h, fun a ha => .inl (Sum.inl.inj ha ▸ hnext)⟩
    | again h hb =>
      obtain ⟨rfl, rfl⟩ := List.append_singleton_inj.mp hes
      exact ⟨_, h, fun a ha => .inr (Sum.inl.inj ha ▸ hb)⟩
    | own b h =>
      obtain ⟨rfl, rfl⟩ := List.append_singleton_inj.mp hes
      exact ⟨_, h, fun a ha => nomatch ha⟩
  | append_singleton after last ih =>
    rw [← List.cons_append, ← List.append_assoc] at h
    generalize hes : before ++ e :: after ++ [last] = es at h
    cases h with
    | start => exact absurd hes (by simp)
    | next h _ =>
      obtain ⟨rfl, -⟩ := List.append_singleton_inj.mp hes
      exact ih h
    | again h _ =>
      obtain ⟨rfl, -⟩ := List.append_singleton_inj.mp hes
      exact ih h
    | own b h =>
      obtain ⟨rfl, -⟩ := List.append_singleton_inj.mp hes
      exact ih h

/-- What stands before every `b` of the stream has arrived when a `b` arrives. -/
theorem precedes {before after : List (α ⊕ β)} (h : Redelivery stream n (before ++ .inl b :: after))
    (hfirst : ∀ left right, stream = left ++ b :: right → a ∈ left) : .inl a ∈ before := by
  obtain ⟨m, hbefore, harrived⟩ := h.of_append
  rw [hbefore.mem_iff]
  rcases harrived b rfl with hnext | hagain
  · obtain ⟨hm, hb⟩ := List.getElem?_eq_some_iff.mp hnext
    refine hfirst _ (stream.drop (m + 1)) ?_
    rw [← hb, ← List.drop_eq_getElem_cons hm, List.take_append_drop]
  · obtain ⟨left, right, hsplit⟩ := List.append_of_mem hagain
    have ha : a ∈ left := by
      refine hfirst left (right ++ stream.drop m) ?_
      rw [← List.cons_append, ← List.append_assoc, ← hsplit, List.take_append_drop]
    rw [hsplit]
    exact List.mem_append_left _ ha

end Redelivery

end Lib

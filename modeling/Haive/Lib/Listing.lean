import Mathlib.Logic.Basic

/-!
# Straight-line code with checks

`Leads eff needs todo s`: the statements `todo`, run from `s` to the end, each find what they
need, where a statement does to the state what `eff` says. It is an invariant of running
the statements one by one (`Leads.tail`), and a stretch that neither needs nor does anything
drops out (`leads_idle`), so code that expands a statement into such a stretch keeps it.
-/

namespace Lib

variable {C S : Type}

def Leads (eff : C → S → S) (needs : C → S → Prop) : List C → S → Prop
  | [], _ => True
  | c :: rest, s => needs c s ∧ Leads eff needs rest (eff c s)

variable {eff : C → S → S} {needs : C → S → Prop} {c : C} {before rest : List C} {s : S}

@[simp] theorem leads_nil : Leads eff needs [] s := trivial

@[simp] theorem leads_cons : Leads eff needs (c :: rest) s ↔ needs c s ∧ Leads eff needs rest (eff c s) := Iff.rfl

theorem Leads.first (h : Leads eff needs (c :: rest) s) : needs c s := h.1

theorem Leads.tail (h : Leads eff needs (c :: rest) s) : Leads eff needs rest (eff c s) := h.2

/-- Statements that need and do nothing. -/
def Idle (eff : C → S → S) (needs : C → S → Prop) (c : C) : Prop := ∀ s, needs c s ∧ eff c s = s

theorem leads_idle (hidle : ∀ c ∈ before, Idle eff needs c) :
    Leads eff needs (before ++ rest) s ↔ Leads eff needs rest s := by
  induction before with
  | nil => rfl
  | cons c before ih =>
    obtain ⟨hneeds, heff⟩ := hidle c List.mem_cons_self s
    rw [List.cons_append, leads_cons, heff, ih fun c hc => hidle c (List.mem_cons_of_mem _ hc)]
    exact and_iff_right hneeds

/-- A state related to one from which all goes well does as well, if the relation keeps what
the statements need. -/
theorem Leads.mono {le : S → S → Prop} {todo : List C} {s' : S}
    (hneeds : ∀ c s s', le s s' → needs c s → needs c s') (heff : ∀ c s s', le s s' → le (eff c s) (eff c s'))
    (hle : le s s') (h : Leads eff needs todo s) : Leads eff needs todo s' := by
  induction todo generalizing s s' with
  | nil => trivial
  | cons c rest ih => exact ⟨hneeds c s s' hle h.first, ih (heff c s s' hle) h.tail⟩

end Lib

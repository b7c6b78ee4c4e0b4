import Mathlib.Logic.Function.Basic

/-!
# Optimistic writers of one row

A row with a version and any number of transactions that load it, write it and
commit. A transaction remembers the version it first loaded (`began`) and the one
its own last update left (`own`); an update may assert the version it began at.
A row that one transaction holds, no other writes.

The steps are those of transactions whose updates are fenced: an update goes
through only where the row still has the version that its transaction left or
first loaded. `Writers.Inv` is the invariant, `Writers.Inv.step` its step lemma: two
transactions that both commit never assert the same version (`Inv.apart`), and one
that comes after such a commit finds out (`Inv.stale`).
-/

namespace Lib

inductive Phase
  | running | committed | aborted
deriving DecidableEq

/-- What one transaction holds and knows of the row. -/
@[ext] structure Writer where
  phase : Phase
  /-- What its writes leave of the row: nothing written, deleted, or this version. -/
  held : Option (Option Nat)
  began : Option Nat
  own : Option Nat
  /-- The versions its updates asserted. -/
  asserted : List Nat

structure Writers (ι : Type) where
  /-- The committed version, if the row is there. -/
  committed : Option Nat
  writer : ι → Writer

namespace Writers

variable {ι : Type}

/-- The version that a transaction sees. -/
def visible (s : Writers ι) (i : ι) : Option Nat := (s.writer i).held.getD s.committed

def set [DecidableEq ι] (s : Writers ι) (i : ι) (w : Writer) : Writers ι :=
  { s with writer := fun j => if j = i then w else s.writer j }

/-- Nobody else holds the row. -/
def Free (s : Writers ι) (i : ι) : Prop := ∀ j, j ≠ i → (s.writer j).held = none

/-- Nobody has ever written the row. -/
def Unused (s : Writers ι) : Prop :=
  s.committed = none ∧ ∀ j, (s.writer j).held = none ∧ (s.writer j).own = none ∧ (s.writer j).asserted = []

/-- Steps of fenced transactions, but for the first insert of the row. -/
inductive Step [DecidableEq ι] (s : Writers ι) : Writers ι → Prop
  | idle : Step s s
  | load {i : ι} {y : Nat} : (s.writer i).phase = .running → s.visible i = some y →
      Step s (s.set i { s.writer i with began := (s.writer i).began.or (some y) })
  /-- A write that leaves the version alone. -/
  | touch {i : ι} {y : Nat} : (s.writer i).phase = .running → s.Free i → s.visible i = some y →
      Step s (s.set i { s.writer i with held := some (some y) })
  | update {i : ι} {y : Nat} {asserted : List Nat} : (s.writer i).phase = .running → s.Free i →
      s.visible i = some y → (s.writer i).own.or (s.writer i).began = some y →
      (∀ v ∈ asserted, v ∈ (s.writer i).asserted ∨ (s.writer i).began = some v) →
      Step s (s.set i
        { s.writer i with held := some (some (y + 1)), own := some (y + 1), asserted := asserted })
  | delete {i : ι} {y : Nat} : (s.writer i).phase = .running → s.Free i → s.visible i = some y →
      Step s (s.set i { s.writer i with held := some none })
  | commit {i : ι} : (s.writer i).phase = .running →
      Step s (set { s with committed := s.visible i } i { s.writer i with held := none, phase := .committed })
  | abort {i : ι} : (s.writer i).phase = .running →
      Step s (s.set i { s.writer i with held := none, phase := .aborted })

/-- The row is `i`'s own new one, and nobody else knows of it. -/
def Made (s : Writers ι) (i : ι) : Prop := s.committed = none ∧ ∀ j, j ≠ i → (s.writer j).asserted = []

structure Inv (s : Writers ι) : Prop where
  exclusive : ∀ {i j}, (s.writer i).held ≠ none → (s.writer j).held ≠ none → i = j
  ended : ∀ {i}, (s.writer i).phase ≠ .running → (s.writer i).held = none
  /-- Before its first update a transaction sees the committed version. -/
  plain : ∀ {i w}, (s.writer i).own = none → (s.writer i).held = some (some w) →
    s.committed = some w ∨ s.Made i
  /-- From then on the committed version is the one it began at. -/
  owned : ∀ {i y}, (s.writer i).phase = .running → (s.writer i).own = some y →
    ∃ x, (s.writer i).began = some x ∧ x < y ∧ (s.writer i).held ≠ none ∧
      (∀ w, (s.writer i).held = some (some w) → w = y) ∧ (s.committed = some x ∨ s.Made i)
  asserting : ∀ {i v}, (s.writer i).phase = .running → v ∈ (s.writer i).asserted →
    (s.writer i).began = some v ∧ (s.writer i).own ≠ none
  passed : ∀ {i v x}, (s.writer i).phase = .committed → v ∈ (s.writer i).asserted →
    s.committed = some x → v < x
  apart : ∀ {i j v}, i ≠ j → (s.writer i).phase ≠ .aborted → (s.writer j).phase ≠ .aborted →
    v ∈ (s.writer i).asserted → v ∉ (s.writer j).asserted

variable {s s' : Writers ι} {i j : ι} {w : Writer}

theorem Made.of_asserted (h : s.Made i) (hc : s'.committed = s.committed)
    (hw : ∀ j, j ≠ i → (s'.writer j).asserted = (s.writer j).asserted) : s'.Made i :=
  ⟨hc.trans h.1, fun j hj => (hw j hj).trans (h.2 j hj)⟩

section
variable [DecidableEq ι]

@[simp] theorem set_committed : (s.set i w).committed = s.committed := rfl

@[simp] theorem set_writer_self : (s.set i w).writer i = w := if_pos rfl

theorem set_writer_of_ne (h : j ≠ i) : (s.set i w).writer j = s.writer j := if_neg h

end

namespace Inv

/-- Where a transaction may update the row, the committed version is the one it began at. -/
theorem current (h : s.Inv) {y v : Nat} (hrun : (s.writer i).phase = .running)
    (hvis : s.visible i = some y) (hfence : (s.writer i).own.or (s.writer i).began = some y)
    (hbegan : (s.writer i).began = some v) : s.committed = some v ∨ s.Made i := by
  cases hown : (s.writer i).own with
  | none =>
    rw [hown, Option.none_or, hbegan, Option.some.injEq] at hfence
    subst hfence
    cases hheld : (s.writer i).held with
    | none => exact .inl (by rw [visible, hheld] at hvis; exact hvis)
    | some u =>
      rw [visible, hheld, Option.getD_some] at hvis
      exact h.plain hown (hheld.trans (congrArg some hvis))
  | some z =>
    obtain ⟨x, hx, _, _, _, hc⟩ := h.owned hrun hown
    rw [hbegan, Option.some.injEq] at hx
    exact hx ▸ hc

/-- No other transaction that has not been rolled back asserted the version. -/
theorem alone (h : s.Inv) {v : Nat} (hfree : s.Free i) (hc : s.committed = some v ∨ s.Made i)
    (hj : j ≠ i) (hlive : (s.writer j).phase ≠ .aborted) : v ∉ (s.writer j).asserted := by
  intro hv
  cases hphase : (s.writer j).phase with
  | aborted => exact hlive hphase
  | running =>
    obtain ⟨z, hz⟩ := Option.ne_none_iff_exists'.mp (h.asserting hphase hv).2
    obtain ⟨_, _, _, hheld, _⟩ := h.owned hphase hz
    exact hheld (hfree j hj)
  | committed =>
    rcases hc with hc | hmade
    · exact absurd (h.passed hphase hv hc) (Nat.lt_irrefl _)
    · rw [hmade.2 j hj] at hv
      exact absurd hv List.not_mem_nil

/-- After a commit that asserted `v`, a running transaction that asserts it finds another version
than it left or first loaded. -/
theorem stale (h : s.Inv) {v y : Nat} (hij : i ≠ j) (hi : (s.writer i).phase = .committed)
    (hv : v ∈ (s.writer i).asserted) (hj : (s.writer j).phase = .running) (hvis : s.visible j = some y)
    (hbegan : (s.writer j).began.or (some y) = some v) : (s.writer j).own.getD v ≠ y := by
  have hnot : ¬ (s.committed = some v ∨ s.Made j) := by
    rintro (hc | hmade)
    · exact absurd (h.passed hi hv hc) (Nat.lt_irrefl _)
    · rw [hmade.2 i hij] at hv
      exact absurd hv List.not_mem_nil
  intro hy
  cases hown : (s.writer j).own with
  | none =>
    rw [hown, Option.getD_none] at hy
    subst hy
    cases hheld : (s.writer j).held with
    | none => exact hnot (.inl (by rw [visible, hheld] at hvis; exact hvis))
    | some u =>
      rw [visible, hheld, Option.getD_some] at hvis
      exact hnot (h.plain hown (hheld.trans (congrArg some hvis)))
  | some z =>
    obtain ⟨x, hx, _, _, _, hc⟩ := h.owned hj hown
    rw [hx, Option.some_or, Option.some.injEq] at hbegan
    exact hnot (hbegan ▸ hc)

/-- What a commit leaves is what is there, or later. -/
theorem commit_mono (h : s.Inv) (hrun : (s.writer i).phase = .running) {x z : Nat}
    (hc : s.committed = some x) (hvis : s.visible i = some z) : x ≤ z := by
  cases hheld : (s.writer i).held with
  | none =>
    rw [visible, hheld, Option.getD_none, hc, Option.some.injEq] at hvis
    exact Nat.le_of_eq hvis
  | some u =>
    rw [visible, hheld, Option.getD_some] at hvis
    subst hvis
    cases hown : (s.writer i).own with
    | none =>
      rcases h.plain hown hheld with hc' | hmade
      · rw [hc, Option.some.injEq] at hc'
        exact Nat.le_of_eq hc'
      · rw [hmade.1] at hc
        cases hc
    | some y =>
      obtain ⟨x', _, hlt, _, hw, hc' | hmade⟩ := h.owned hrun hown
      · rw [hc, Option.some.injEq] at hc'
        rw [hw z hheld, hc']
        exact Nat.le_of_lt hlt
      · rw [hmade.1] at hc
        cases hc

variable [DecidableEq ι]

/-- A step that leaves the transaction's updates alone. -/
theorem hold (h : s.Inv) (hrun : (s.writer i).phase = .running) (hphase : w.phase = .running)
    (hbegan : ∀ x, (s.writer i).began = some x → w.began = some x) (hown : w.own = (s.writer i).own)
    (hass : w.asserted = (s.writer i).asserted) (hfree : w.held ≠ none → s.Free i)
    (hplain : w.own = none → ∀ v, w.held = some (some v) → s.committed = some v ∨ s.Made i)
    (howned : ∀ y, w.own = some y → w.held ≠ none ∧ ∀ v, w.held = some (some v) → v = y) :
    (s.set i w).Inv := by
  have hasserted : ∀ j, ((s.set i w).writer j).asserted = (s.writer j).asserted := by
    intro j
    by_cases hj : j = i
    · subst hj
      rw [set_writer_self, hass]
    · rw [set_writer_of_ne hj]
  have hphases : ∀ j, ((s.set i w).writer j).phase = (s.writer j).phase := by
    intro j
    by_cases hj : j = i
    · subst hj
      rw [set_writer_self, hphase, hrun]
    · rw [set_writer_of_ne hj]
  have hmade : ∀ {j}, s.Made j → (s.set i w).Made j := fun hm => hm.of_asserted rfl fun j _ => hasserted j
  constructor
  · intro j k hj hk
    by_cases hji : j = i <;> by_cases hki : k = i
    · rw [hji, hki]
    · subst hji
      rw [set_writer_self] at hj
      rw [set_writer_of_ne hki] at hk
      exact absurd (hfree hj k hki) hk
    · subst hki
      rw [set_writer_self] at hk
      rw [set_writer_of_ne hji] at hj
      exact absurd (hfree hk j hji) hj
    · rw [set_writer_of_ne hji] at hj
      rw [set_writer_of_ne hki] at hk
      exact h.exclusive hj hk
  · intro j hj
    rw [hphases] at hj
    by_cases hji : j = i
    · subst hji
      exact absurd hrun hj
    · rw [set_writer_of_ne hji]
      exact h.ended hj
  · intro j u hj hu
    by_cases hji : j = i
    · subst hji
      rw [set_writer_self] at hj hu
      exact (hplain hj u hu).imp id hmade
    · rw [set_writer_of_ne hji] at hj hu
      exact (h.plain hj hu).imp id hmade
  · intro j y hj hy
    rw [hphases] at hj
    by_cases hji : j = i
    · subst hji
      rw [set_writer_self] at hy ⊢
      obtain ⟨x, hx, hlt, _, _, hc⟩ := h.owned hj (hown ▸ hy)
      exact ⟨x, hbegan x hx, hlt, (howned y hy).1, (howned y hy).2, hc.imp id hmade⟩
    · rw [set_writer_of_ne hji] at hy ⊢
      obtain ⟨x, hx, hlt, hheld, hw, hc⟩ := h.owned hj hy
      exact ⟨x, hx, hlt, hheld, hw, hc.imp id hmade⟩
  · intro j v hj hv
    rw [hphases] at hj
    rw [hasserted] at hv
    obtain ⟨hb, ho⟩ := h.asserting hj hv
    by_cases hji : j = i
    · subst hji
      rw [set_writer_self]
      exact ⟨hbegan v hb, hown ▸ ho⟩
    · rw [set_writer_of_ne hji]
      exact ⟨hb, ho⟩
  · intro j v x hj hv hx
    rw [hphases] at hj
    rw [hasserted] at hv
    exact h.passed hj hv hx
  · intro j k v hjk hj hk hv
    rw [hphases] at hj hk
    rw [hasserted] at hv ⊢
    exact h.apart hjk hj hk hv

theorem load (h : s.Inv) {y : Nat} (hrun : (s.writer i).phase = .running) :
    (s.set i { s.writer i with began := (s.writer i).began.or (some y) }).Inv := by
  refine h.hold hrun hrun (fun x hx => by simp [hx]) rfl rfl ?_ (fun ho v hv => h.plain ho hv) ?_
  · intro hheld j hj
    by_contra hne
    exact hj (h.exclusive hne hheld)
  · intro y hy
    obtain ⟨_, _, _, hheld, hw, _⟩ := h.owned hrun hy
    exact ⟨hheld, hw⟩

theorem touch (h : s.Inv) {y : Nat} (hrun : (s.writer i).phase = .running) (hfree : s.Free i)
    (hvis : s.visible i = some y) : (s.set i { s.writer i with held := some (some y) }).Inv := by
  refine h.hold hrun hrun (fun x hx => hx) rfl rfl (fun _ => hfree) ?_ ?_
  · rintro hown v hv
    cases hv
    cases hheld : (s.writer i).held with
    | none => exact .inl (by rw [visible, hheld] at hvis; exact hvis)
    | some u =>
      rw [visible, hheld, Option.getD_some] at hvis
      exact h.plain hown (hheld.trans (congrArg some hvis))
  · rintro z hz
    refine ⟨(fun hn => nomatch hn), ?_⟩
    rintro v ⟨⟩
    obtain ⟨_, _, _, hheld, hw, _⟩ := h.owned hrun hz
    obtain ⟨u, hu⟩ := Option.ne_none_iff_exists'.mp hheld
    rw [visible, hu, Option.getD_some] at hvis
    exact hw y (hu.trans (congrArg some hvis))

theorem insert (h : s.Inv) {y : Nat} (hrun : (s.writer i).phase = .running) (hnew : s.Unused) :
    (s.set i { s.writer i with held := some (some y) }).Inv := by
  refine h.hold hrun hrun (fun x hx => hx) rfl rfl (fun _ j _ => (hnew.2 j).1) ?_ ?_
  · exact fun _ _ _ => .inr ⟨hnew.1, fun j _ => (hnew.2 j).2.2⟩
  · intro z hz
    rw [(hnew.2 i).2.1] at hz
    cases hz

theorem delete (h : s.Inv) (hrun : (s.writer i).phase = .running) (hfree : s.Free i) :
    (s.set i { s.writer i with held := some none }).Inv := by
  refine h.hold hrun hrun (fun x hx => hx) rfl rfl (fun _ => hfree) ?_ ?_
  · exact fun _ _ hv => nomatch hv
  · exact fun _ _ => ⟨(fun hn => nomatch hn), (fun _ hv => nomatch hv)⟩

theorem update (h : s.Inv) {y : Nat} {asserted : List Nat} (hrun : (s.writer i).phase = .running)
    (hfree : s.Free i) (hvis : s.visible i = some y)
    (hfence : (s.writer i).own.or (s.writer i).began = some y)
    (hass : ∀ v ∈ asserted, v ∈ (s.writer i).asserted ∨ (s.writer i).began = some v) :
    (s.set i { s.writer i with
      held := some (some (y + 1)), own := some (y + 1), asserted := asserted }).Inv := by
  have hbegan : ∀ v ∈ asserted, (s.writer i).began = some v := fun v hv =>
    (hass v hv).elim (fun hv => (h.asserting hrun hv).1) id
  have hcurrent : ∀ v, (s.writer i).began = some v → s.committed = some v ∨ s.Made i :=
    fun v hv => h.current hrun hvis hfence hv
  have hmade : s.Made i → (s.set i { s.writer i with
      held := some (some (y + 1)), own := some (y + 1), asserted := asserted }).Made i :=
    fun hm => hm.of_asserted rfl fun j hj => by rw [set_writer_of_ne hj]
  constructor
  · intro j k hj hk
    by_cases hji : j = i <;> by_cases hki : k = i
    · rw [hji, hki]
    · rw [set_writer_of_ne hki] at hk
      exact absurd (hfree k hki) hk
    · rw [set_writer_of_ne hji] at hj
      exact absurd (hfree j hji) hj
    · rw [set_writer_of_ne hji] at hj
      exact absurd (hfree j hji) hj
  · intro j hj
    by_cases hji : j = i
    · subst hji
      rw [set_writer_self] at hj
      exact absurd hrun hj
    · rw [set_writer_of_ne hji] at hj ⊢
      exact h.ended hj
  · intro j u hj hu
    by_cases hji : j = i
    · subst hji
      rw [set_writer_self] at hj
      cases hj
    · rw [set_writer_of_ne hji, hfree j hji] at hu
      cases hu
  · intro j z hj hz
    by_cases hji : j = i
    · subst hji
      rw [set_writer_self] at hz ⊢
      cases hz
      -- The version it began at is at most the one it updates.
      cases hown : (s.writer j).own with
      | none =>
        rw [hown, Option.none_or] at hfence
        exact ⟨y, hfence, Nat.lt_succ_self y, (fun hn => nomatch hn), fun w hw => by cases hw; rfl,
          (hcurrent y hfence).imp id hmade⟩
      | some z =>
        rw [hown, Option.some_or, Option.some.injEq] at hfence
        subst hfence
        obtain ⟨x, hx, hlt, _, _, hc⟩ := h.owned hrun hown
        exact ⟨x, hx, Nat.lt_succ_of_lt hlt, (fun hn => nomatch hn), fun w hw => by cases hw; rfl,
          hc.imp id hmade⟩
    · rw [set_writer_of_ne hji] at hj hz
      obtain ⟨_, _, _, hheld, _⟩ := h.owned hj hz
      exact absurd (hfree j hji) hheld
  · intro j v hj hv
    by_cases hji : j = i
    · subst hji
      rw [set_writer_self] at hv ⊢
      exact ⟨hbegan v hv, fun hn => nomatch hn⟩
    · rw [set_writer_of_ne hji] at hj hv ⊢
      exact h.asserting hj hv
  · intro j v x hj hv hx
    by_cases hji : j = i
    · subst hji
      rw [set_writer_self] at hj
      exact absurd (hrun.symm.trans hj) (fun hn => nomatch hn)
    · rw [set_writer_of_ne hji] at hj hv
      exact h.passed hj hv hx
  · intro j k v hjk hj hk hv hv'
    by_cases hji : j = i <;> by_cases hki : k = i
    · exact hjk (hji.trans hki.symm)
    · subst hji
      rw [set_writer_self] at hv
      rw [set_writer_of_ne hki] at hk hv'
      exact h.alone hfree (hcurrent v (hbegan v hv)) hki hk hv'
    · subst hki
      rw [set_writer_self] at hv'
      rw [set_writer_of_ne hji] at hj hv
      exact h.alone hfree (hcurrent v (hbegan v hv')) hji hj hv
    · rw [set_writer_of_ne hji] at hj hv
      rw [set_writer_of_ne hki] at hk hv'
      exact h.apart hjk hj hk hv hv'

theorem commit (h : s.Inv) (hrun : (s.writer i).phase = .running) :
    (set { s with committed := s.visible i } i
      { s.writer i with held := none, phase := .committed }).Inv := by
  -- Whoever else holds the row keeps what it knows: the commit did not touch it.
  have hsame : ∀ {j}, j ≠ i → (s.writer j).held ≠ none → s.visible i = s.committed := by
    intro j hj hheld
    have hnone : (s.writer i).held = none := by
      by_contra hne
      exact hj (h.exclusive hheld hne)
    rw [visible, hnone, Option.getD_none]
  have hasserted : ∀ j, ((set { s with committed := s.visible i } i
      { s.writer i with held := none, phase := .committed }).writer j).asserted =
      (s.writer j).asserted := by
    intro j
    by_cases hj : j = i
    · subst hj
      rw [set_writer_self]
    · rw [set_writer_of_ne hj]
  have hmade : ∀ {j}, j ≠ i → (s.writer j).held ≠ none → s.Made j → (set { s with committed := s.visible i } i
      { s.writer i with held := none, phase := .committed }).Made j :=
    fun hj hheld hm => hm.of_asserted (hsame hj hheld) fun j _ => hasserted j
  constructor
  · intro j k hj hk
    by_cases hji : j = i
    · subst hji
      rw [set_writer_self] at hj
      exact absurd rfl hj
    · by_cases hki : k = i
      · subst hki
        rw [set_writer_self] at hk
        exact absurd rfl hk
      · rw [set_writer_of_ne hji] at hj
        rw [set_writer_of_ne hki] at hk
        exact h.exclusive hj hk
  · intro j hj
    by_cases hji : j = i
    · subst hji
      rw [set_writer_self]
    · rw [set_writer_of_ne hji] at hj ⊢
      exact h.ended hj
  · intro j u hj hu
    by_cases hji : j = i
    · subst hji
      rw [set_writer_self] at hu
      cases hu
    · rw [set_writer_of_ne hji] at hj hu
      have hheld : (s.writer j).held ≠ none := by
        rw [show (s.writer j).held = some (some u) from hu]
        exact fun hn => nomatch hn
      exact (h.plain hj hu).imp (fun hc => (hsame hji hheld).trans hc) (hmade hji hheld)
  · intro j y hj hy
    by_cases hji : j = i
    · subst hji
      rw [set_writer_self] at hj
      cases hj
    · rw [set_writer_of_ne hji] at hj hy ⊢
      obtain ⟨x, hx, hlt, hheld, hw, hc⟩ := h.owned hj hy
      exact ⟨x, hx, hlt, hheld, hw, hc.imp (fun hc => (hsame hji hheld).trans hc) (hmade hji hheld)⟩
  · intro j v hj hv
    by_cases hji : j = i
    · subst hji
      rw [set_writer_self] at hj
      cases hj
    · rw [set_writer_of_ne hji] at hj hv ⊢
      exact h.asserting hj hv
  · intro j v x hj hv hx
    rw [hasserted] at hv
    replace hx : s.visible i = some x := hx
    by_cases hji : j = i
    · -- The one that commits: its updates went past the version it began at.
      subst hji
      obtain ⟨hbegan, hown⟩ := h.asserting hrun hv
      obtain ⟨y, hy⟩ := Option.ne_none_iff_exists'.mp hown
      obtain ⟨x', hx', hlt, hheld, hw, _⟩ := h.owned hrun hy
      rw [hbegan, Option.some.injEq] at hx'
      obtain ⟨u, hu⟩ := Option.ne_none_iff_exists'.mp hheld
      rw [visible, hu, Option.getD_some] at hx
      rw [hx', hw x (hu.trans (congrArg some hx))]
      exact hlt
    · rw [set_writer_of_ne hji] at hj
      cases hc : s.committed with
      | some c => exact Nat.lt_of_lt_of_le (h.passed hj hv hc) (h.commit_mono hrun hc hx)
      | none =>
        -- The row is `i`'s own new one, and nobody else asserted anything of it.
        exfalso
        cases hheld : (s.writer i).held with
        | none =>
          rw [visible, hheld, Option.getD_none, hc] at hx
          cases hx
        | some u =>
          rw [visible, hheld, Option.getD_some] at hx
          subst hx
          have hm : s.Made i := by
            cases hown : (s.writer i).own with
            | none =>
              refine (h.plain hown hheld).resolve_left fun hc' => ?_
              rw [hc] at hc'
              cases hc'
            | some y =>
              obtain ⟨x', _, _, _, _, hc'⟩ := h.owned hrun hown
              refine hc'.resolve_left fun hc' => ?_
              rw [hc] at hc'
              cases hc'
          rw [hm.2 j hji] at hv
          exact absurd hv List.not_mem_nil
  · intro j k v hjk hj hk hv
    rw [hasserted] at hv ⊢
    have hlive : ∀ {l}, ((set { s with committed := s.visible i } i
        { s.writer i with held := none, phase := .committed }).writer l).phase ≠ .aborted →
        (s.writer l).phase ≠ .aborted := by
      intro l hl
      by_cases hli : l = i
      · subst hli
        rw [hrun]
        exact fun hn => nomatch hn
      · rwa [set_writer_of_ne hli] at hl
    exact h.apart hjk (hlive hj) (hlive hk) hv

theorem abort (h : s.Inv) (hrun : (s.writer i).phase = .running) :
    (s.set i { s.writer i with held := none, phase := .aborted }).Inv := by
  have hasserted : ∀ j, ((s.set i { s.writer i with held := none, phase := .aborted }).writer j).asserted =
      (s.writer j).asserted := by
    intro j
    by_cases hj : j = i
    · subst hj
      rw [set_writer_self]
    · rw [set_writer_of_ne hj]
  have hmade : ∀ {j}, s.Made j → (s.set i { s.writer i with held := none, phase := .aborted }).Made j :=
    fun hm => hm.of_asserted rfl fun j _ => hasserted j
  -- Nothing is claimed of `i` any more.
  have hother : ∀ {j}, ((s.set i { s.writer i with held := none, phase := .aborted }).writer j).phase ≠
      .aborted → j ≠ i := by
    rintro j hj rfl
    rw [set_writer_self] at hj
    exact hj rfl
  constructor
  · intro j k hj hk
    by_cases hji : j = i
    · subst hji
      rw [set_writer_self] at hj
      exact absurd rfl hj
    · by_cases hki : k = i
      · subst hki
        rw [set_writer_self] at hk
        exact absurd rfl hk
      · rw [set_writer_of_ne hji] at hj
        rw [set_writer_of_ne hki] at hk
        exact h.exclusive hj hk
  · intro j hj
    by_cases hji : j = i
    · subst hji
      rw [set_writer_self]
    · rw [set_writer_of_ne hji] at hj ⊢
      exact h.ended hj
  · intro j u hj hu
    by_cases hji : j = i
    · subst hji
      rw [set_writer_self] at hu
      cases hu
    · rw [set_writer_of_ne hji] at hj hu
      exact (h.plain hj hu).imp id hmade
  · intro j y hj hy
    have hji := hother (by rw [hj]; exact fun hn => nomatch hn)
    rw [set_writer_of_ne hji] at hj hy ⊢
    obtain ⟨x, hx, hlt, hheld, hw, hc⟩ := h.owned hj hy
    exact ⟨x, hx, hlt, hheld, hw, hc.imp id hmade⟩
  · intro j v hj hv
    have hji := hother (by rw [hj]; exact fun hn => nomatch hn)
    rw [set_writer_of_ne hji] at hj hv ⊢
    exact h.asserting hj hv
  · intro j v x hj hv hx
    have hji := hother (by rw [hj]; exact fun hn => nomatch hn)
    rw [set_writer_of_ne hji] at hj hv
    exact h.passed hj hv hx
  · intro j k v hjk hj hk hv
    have hji := hother hj
    have hki := hother hk
    rw [set_writer_of_ne hji] at hj hv
    rw [set_writer_of_ne hki] at hk ⊢
    exact h.apart hjk hj hk hv

theorem step (h : s.Inv) (hstep : Step s s') : s'.Inv := by
  cases hstep with
  | idle => exact h
  | load hrun _ => exact h.load hrun
  | touch hrun hfree hvis => exact h.touch hrun hfree hvis
  | update hrun hfree hvis hfence hass => exact h.update hrun hfree hvis hfence hass
  | delete hrun hfree _ => exact h.delete hrun hfree
  | commit hrun => exact h.commit hrun
  | abort hrun => exact h.abort hrun

end Inv

/-- Nobody writes a row that is not there. -/
theorem Unused.step [DecidableEq ι] (h : s.Unused) (hstep : Step s s') : s'.Unused := by
  have hvis : ∀ i, s.visible i = none := by
    intro i
    rw [visible, (h.2 i).1, Option.getD_none, h.1]
  have hset : ∀ {i w}, w.held = none → w.own = (s.writer i).own → w.asserted = (s.writer i).asserted →
      (s.set i w).Unused := by
    intro i w hheld hown hass
    refine ⟨h.1, fun j => ?_⟩
    by_cases hj : j = i
    · subst hj
      rw [set_writer_self, hown, hass]
      exact ⟨hheld, (h.2 j).2⟩
    · rw [set_writer_of_ne hj]
      exact h.2 j
  cases hstep with
  | idle => exact h
  | @load i _ _ _ => exact hset (h.2 i).1 rfl rfl
  | @touch i y _ _ hy =>
    rw [hvis i] at hy
    cases hy
  | @update i y _ _ _ hy =>
    rw [hvis i] at hy
    cases hy
  | @delete i y _ _ hy =>
    rw [hvis i] at hy
    cases hy
  | @commit i _ =>
    have hc : s.visible i = s.committed := (hvis i).trans h.1.symm
    rw [hc]
    exact hset rfl rfl rfl
  | @abort i _ => exact hset rfl rfl rfl

end Writers

end Lib

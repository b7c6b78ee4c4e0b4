import Haive.Lib.Prog

/-!
# One body follows another

`Script.Ends` is what a body does when it runs alone. `Script.Follows p p'` relates two
bodies that start from different local variables beside the same other side: whatever
`p` returns, `p'` returns too, and leaves the other side the same. The rules take the two
bodies apart in step, one bind at a time. `exactly` is the logic of a run: its weakest
precondition speaks of every way in which a body can end.
-/

namespace Lib

variable {Q : Type} {R : Q → Type} {ε σ α β S E : Type}

theorem Prog.run_bind {exec : S → (q : Q) → Except E (R q × S)} (p : Prog Q R α) (f : α → Prog Q R β) (s : S) :
    (p.bind f).run exec s =
      match p.run exec s with
      | .error e => .error e
      | .ok (a, s') => (f a).run exec s' := by
  induction p generalizing s with
  | pure a => rfl
  | ask q k ih =>
    simp only [Prog.bind, Prog.run]
    cases exec s q with
    | error e => rfl
    | ok rs => exact ih _ _

namespace Script

variable (exec : S → (q : Q) → Except E (R q × S))

/-- The body, run alone, returns or throws `r`. -/
def Ends (p : Script Q R ε σ α) (l : σ) (s : S) (r : Except ε α) (l' : σ) (s' : S) : Prop :=
  (p l).run exec s = .ok ((r, l'), s')

variable {exec} {l l' : σ} {s s' : S}

theorem ends_pure {a : α} {r : Except ε α} :
    Ends exec (pure a : Script Q R ε σ α) l s r l' s' ↔ r = .ok a ∧ l' = l ∧ s' = s := by
  show Except.ok ((Except.ok a, l), s) = .ok ((r, l'), s') ↔ _
  simp [eq_comm, and_assoc]

theorem ends_throw {e : ε} {r : Except ε α} :
    Ends exec (throw e : Script Q R ε σ α) l s r l' s' ↔ r = .error e ∧ l' = l ∧ s' = s := by
  show Except.ok ((Except.error e, l), s) = .ok ((r, l'), s') ↔ _
  simp [eq_comm, and_assoc]

theorem ends_get {r : Except ε σ} :
    Ends exec (get : Script Q R ε σ σ) l s r l' s' ↔ r = .ok l ∧ l' = l ∧ s' = s := by
  show Except.ok ((Except.ok l, l), s) = .ok ((r, l'), s') ↔ _
  simp [eq_comm, and_assoc]

theorem ends_modify {f : σ → σ} {r : Except ε Unit} :
    Ends exec (modify f : Script Q R ε σ Unit) l s r l' s' ↔ r = .ok () ∧ l' = f l ∧ s' = s := by
  show Except.ok ((Except.ok (), f l), s) = .ok ((r, l'), s') ↔ _
  simp [eq_comm, and_assoc]

theorem ends_ask {q : Q} {r : Except ε (R q)} :
    Ends exec (ask q : Script Q R ε σ (R q)) l s r l' s' ↔
      ∃ a, r = .ok a ∧ l' = l ∧ exec s q = .ok (a, s') := by
  unfold Ends ask
  rw [Prog.run]
  cases exec s q with
  | error e => simp
  | ok as =>
    simp only [Prog.run, Except.ok.injEq, Prod.ext_iff]
    constructor
    · rintro ⟨⟨hr, hl⟩, hs⟩
      exact ⟨as.1, hr.symm, hl.symm, rfl, hs⟩
    · rintro ⟨a, hr, hl, ha, hs⟩
      exact ⟨⟨ha ▸ hr.symm, hl.symm⟩, hs⟩

theorem ends_bind {p : Script Q R ε σ β} {f : β → Script Q R ε σ α} {r : Except ε α} :
    Ends exec (p >>= f) l s r l' s' ↔
      (∃ b l₁ s₁, Ends exec p l s (.ok b) l₁ s₁ ∧ Ends exec (f b) l₁ s₁ r l' s') ∨
      ∃ e, r = .error e ∧ Ends exec p l s (.error e) l' s' := by
  show ((p l).bind _).run exec s = _ ↔ _
  rw [Prog.run_bind]
  constructor
  · intro h
    split at h
    · cases h
    · next rl s₁ heq =>
      obtain ⟨r₁, l₁⟩ := rl
      cases r₁ with
      | ok b => exact .inl ⟨b, l₁, s₁, heq, h⟩
      | error e =>
        cases h
        exact .inr ⟨e, rfl, heq⟩
  · rintro (⟨b, l₁, s₁, hp, hf⟩ | ⟨e, rfl, hp⟩)
    · rw [show (p l).run exec s = _ from hp]
      exact hf
    · rw [show (p l).run exec s = _ from hp]
      rfl

theorem ends_pure_bind {b : β} {f : β → Script Q R ε σ α} {r : Except ε α} :
    Ends exec ((pure b : Script Q R ε σ β) >>= f) l s r l' s' ↔ Ends exec (f b) l s r l' s' :=
  Iff.rfl

theorem ends_get_bind {f : σ → Script Q R ε σ α} {r : Except ε α} :
    Ends exec (get >>= f) l s r l' s' ↔ Ends exec (f l) l s r l' s' :=
  Iff.rfl

theorem ends_modify_bind {g : σ → σ} {f : Unit → Script Q R ε σ α} {r : Except ε α} :
    Ends exec (modify g >>= f) l s r l' s' ↔ Ends exec (f ()) (g l) s r l' s' :=
  Iff.rfl

theorem ends_ask_bind {q : Q} {f : R q → Script Q R ε σ α} {r : Except ε α} :
    Ends exec (ask q >>= f) l s r l' s' ↔ ∃ a s₁, exec s q = .ok (a, s₁) ∧ Ends exec (f a) l s₁ r l' s' := by
  rw [ends_bind]
  constructor
  · rintro (⟨b, l₁, s₁, hask, hf⟩ | ⟨e, _, hask⟩)
    · obtain ⟨a, ha, rfl, hexec⟩ := ends_ask.mp hask
      cases ha
      exact ⟨b, s₁, hexec, hf⟩
    · obtain ⟨_, ha, _⟩ := ends_ask.mp hask
      cases ha
  · rintro ⟨a, s₁, hexec, hf⟩
    exact .inl ⟨a, l, s₁, ends_ask.mpr ⟨a, rfl, rfl, hexec⟩, hf⟩

/-- A body that returns returned from each of its parts. -/
theorem ends_bind_ok {p : Script Q R ε σ β} {f : β → Script Q R ε σ α} {a : α} :
    Ends exec (p >>= f) l s (.ok a) l' s' ↔
      ∃ b l₁ s₁, Ends exec p l s (.ok b) l₁ s₁ ∧ Ends exec (f b) l₁ s₁ (.ok a) l' s' := by
  rw [ends_bind]
  simp

theorem ends_catching {p : Script Q R ε σ α} {f : ε → Script Q R ε σ α} {r : Except ε α} :
    Ends exec (p.catching f) l s r l' s' ↔
      (∃ a, r = .ok a ∧ Ends exec p l s (.ok a) l' s') ∨
      ∃ e l₁ s₁, Ends exec p l s (.error e) l₁ s₁ ∧ Ends exec (f e) l₁ s₁ r l' s' := by
  show ((p l).bind _).run exec s = _ ↔ _
  rw [Prog.run_bind]
  constructor
  · intro h
    split at h
    · cases h
    · next rl s₁ heq =>
      obtain ⟨r₁, l₁⟩ := rl
      cases r₁ with
      | ok a =>
        cases h
        exact .inl ⟨a, rfl, heq⟩
      | error e => exact .inr ⟨e, l₁, s₁, heq, h⟩
  · rintro (⟨a, rfl, hp⟩ | ⟨e, l₁, s₁, hp, hf⟩)
    · rw [show (p l).run exec s = _ from hp]
      rfl
    · rw [show (p l).run exec s = _ from hp]
      exact hf

/-! ## The logic of a run -/

/-- Every question may be asked and is answered as `exec` answers it. -/
def exactly (exec : S → (q : Q) → Except E (R q × S)) : Logic Q R S where
  may _ _ := True
  reply s q r s' := exec s q = .ok (r, s')

theorem wp_exactly {p : Script Q R ε σ α} {post : α → σ → S → Prop} {thrown : ε → σ → S → Prop}
    (h : wp (exactly exec) p post thrown l s) {r : Except ε α} (hends : Ends exec p l s r l' s') :
    match r with
    | .ok a => post a l' s'
    | .error e => thrown e l' s' := by
  have hrun : ∀ {γ : Type} (p : Prog Q R γ) (s : S) (post : γ → S → Prop) (a : γ),
      p.wp (exactly exec) post s → p.run exec s = .ok (a, s') → post a s' := by
    intro γ p
    induction p with
    | pure b =>
      intro s post a hp hr
      cases hr
      exact hp
    | ask q k ih =>
      intro s post a hp hr
      rw [Prog.run] at hr
      split at hr
      · cases hr
      · next heq => exact ih _ _ _ _ (hp.2 _ _ heq) hr
  have hend := hrun (p l) s _ (r, l') h hends
  cases r <;> exact hend

/-! ## Following -/

/-- Whatever `p` returns from `l`, `p'` returns from `k`, with the same other side. -/
def Follows (exec : S → (q : Q) → Except E (R q × S)) (p p' : Script Q R ε σ α)
    (P : α → σ → σ → S → Prop) (l k : σ) (s : S) : Prop :=
  ∀ a l' s', Ends exec p l s (.ok a) l' s' → ∃ k', Ends exec p' k s (.ok a) k' s' ∧ P a l' k' s'

variable {k : σ} {P : α → σ → σ → S → Prop}

theorem follows_pure {a : α} (h : P a l k s) :
    Follows exec (pure a : Script Q R ε σ α) (pure a) P l k s := by
  intro b l' s' hends
  obtain ⟨hb, rfl, rfl⟩ := ends_pure.mp hends
  cases hb
  exact ⟨k, ends_pure.mpr ⟨rfl, rfl, rfl⟩, h⟩

theorem follows_throw {e : ε} (p' : Script Q R ε σ α) :
    Follows exec (throw e : Script Q R ε σ α) p' P l k s := by
  intro a l' s' hends
  exact nomatch (ends_throw.mp hends).1

theorem follows_ask {q : Q} {P : R q → σ → σ → S → Prop}
    (h : ∀ a s', exec s q = .ok (a, s') → P a l k s') :
    Follows exec (ask q : Script Q R ε σ (R q)) (ask q) P l k s := by
  intro a l' s' hends
  obtain ⟨b, hb, rfl, hexec⟩ := ends_ask.mp hends
  cases hb
  exact ⟨k, ends_ask.mpr ⟨a, rfl, rfl, hexec⟩, h a s' hexec⟩

theorem follows_modify {f g : σ → σ} {P : Unit → σ → σ → S → Prop} (h : P () (f l) (g k) s) :
    Follows exec (modify f : Script Q R ε σ Unit) (modify g) P l k s := by
  intro a l' s' hends
  obtain ⟨_, rfl, rfl⟩ := ends_modify.mp hends
  exact ⟨g k, ends_modify.mpr ⟨rfl, rfl, rfl⟩, h⟩

theorem follows_bind {p p' : Script Q R ε σ β} {f f' : β → Script Q R ε σ α} {M : β → σ → σ → S → Prop}
    (hp : Follows exec p p' M l k s)
    (hf : ∀ b l₁ k₁ s₁, M b l₁ k₁ s₁ → Follows exec (f b) (f' b) P l₁ k₁ s₁) :
    Follows exec (p >>= f) (p' >>= f') P l k s := by
  intro a l' s' hends
  rcases ends_bind.mp hends with ⟨b, l₁, s₁, hb, ha⟩ | ⟨e, he, _⟩
  · obtain ⟨k₁, hk₁, hmid⟩ := hp b l₁ s₁ hb
    obtain ⟨k', hk', hpost⟩ := hf b l₁ k₁ s₁ hmid a l' s' ha
    exact ⟨k', ends_bind.mpr (.inl ⟨b, k₁, s₁, hk₁, hk'⟩), hpost⟩
  · cases he

/-- Each body reads its own variables. -/
theorem follows_get {f f' : σ → Script Q R ε σ α} (h : Follows exec (f l) (f' k) P l k s) :
    Follows exec (get >>= f) (get >>= f') P l k s := by
  intro a l' s' hends
  rcases ends_bind.mp hends with ⟨b, l₁, s₁, hb, ha⟩ | ⟨e, he, _⟩
  · obtain ⟨hb, rfl, rfl⟩ := ends_get.mp hb
    cases hb
    obtain ⟨k', hk', hpost⟩ := h a l' s' ha
    exact ⟨k', ends_bind.mpr (.inl ⟨k, k, _, ends_get.mpr ⟨rfl, rfl, rfl⟩, hk'⟩), hpost⟩
  · cases he

theorem Follows.mono {p p' : Script Q R ε σ α} {P' : α → σ → σ → S → Prop}
    (h : Follows exec p p' P l k s) (himp : ∀ a l' k' s', P a l' k' s' → P' a l' k' s') :
    Follows exec p p' P' l k s := by
  intro a l' s' hends
  obtain ⟨k', hk', hpost⟩ := h a l' s' hends
  exact ⟨k', hk', himp a l' k' s' hpost⟩

theorem Follows.and_wp {p p' : Script Q R ε σ α} {post : α → σ → S → Prop} {thrown : ε → σ → S → Prop}
    (h : Follows exec p p' P l k s) (hwp : wp (exactly exec) p post thrown l s) :
    Follows exec p p' (fun a l' k' s' => P a l' k' s' ∧ post a l' s') l k s := by
  intro a l' s' hends
  obtain ⟨k', hk', hP⟩ := h a l' s' hends
  exact ⟨k', hk', hP, wp_exactly hwp hends⟩

/-- As `Follows`, for the runs of `p` that end in variables with `C`. -/
def FollowsIf (exec : S → (q : Q) → Except E (R q × S)) (C : σ → Prop) (p p' : Script Q R ε σ α)
    (P : α → σ → σ → S → Prop) (l k : σ) (s : S) : Prop :=
  ∀ a l' s', Ends exec p l s (.ok a) l' s' → C l' → ∃ k', Ends exec p' k s (.ok a) k' s' ∧ P a l' k' s'

theorem Follows.followsIf {C : σ → Prop} {p p' : Script Q R ε σ α} (h : Follows exec p p' P l k s) :
    FollowsIf exec C p p' P l k s :=
  fun a l' s' hends _ => h a l' s' hends

theorem followsIf_bind {C : σ → Prop} {p p' : Script Q R ε σ β} {f f' : β → Script Q R ε σ α}
    {M : β → σ → σ → S → Prop} (hp : Follows exec p p' M l k s)
    (hf : ∀ b l₁ k₁ s₁, M b l₁ k₁ s₁ → FollowsIf exec C (f b) (f' b) P l₁ k₁ s₁) :
    FollowsIf exec C (p >>= f) (p' >>= f') P l k s := by
  intro a l' s' hends hC
  rcases ends_bind.mp hends with ⟨b, l₁, s₁, hb, ha⟩ | ⟨e, he, _⟩
  · obtain ⟨k₁, hk₁, hM⟩ := hp b l₁ s₁ hb
    obtain ⟨k', hk', hP⟩ := hf b l₁ k₁ s₁ hM a l' s' ha hC
    exact ⟨k', ends_bind.mpr (.inl ⟨b, k₁, s₁, hk₁, hk'⟩), hP⟩
  · cases he

end Script

end Lib

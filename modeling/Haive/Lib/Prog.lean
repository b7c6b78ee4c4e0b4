import Mathlib.Logic.Basic

/-!
# Programs that ask questions

`Prog Q R α` is a program that asks questions `q : Q`, continues with a reply of
type `R q` and ends with a result: the code of a transaction, with the database
as the one that answers. The same program can be run alone (`Prog.run`) or step
by step beside others.

`Logic` says what a program has to ensure before a question and what replies it
must be prepared for, over a state of the caller's choice: a database, or the
history of the questions so far. `Prog.wp` is the weakest precondition that
follows. `Script` adds what a function body of a host language has: local
variables and exceptions, where an exception keeps the variables.
-/

namespace Lib

inductive Prog (Q : Type) (R : Q → Type) (α : Type) : Type
  | pure (a : α)
  | ask (q : Q) (k : R q → Prog Q R α)

namespace Prog

variable {Q : Type} {R : Q → Type} {S E α β : Type}

def bind : Prog Q R α → (α → Prog Q R β) → Prog Q R β
  | .pure a, f => f a
  | .ask q k, f => .ask q (fun r => (k r).bind f)

def run (exec : S → (q : Q) → Except E (R q × S)) : Prog Q R α → S → Except E (α × S)
  | .pure a, s => .ok (a, s)
  | .ask q k, s =>
    match exec s q with
    | .error e => .error e
    | .ok (r, s') => (k r).run exec s'

end Prog

/-- What must hold before a question and how it may be answered. -/
structure Logic (Q : Type) (R : Q → Type) (S : Type) where
  may : S → Q → Prop
  reply : (s : S) → (q : Q) → R q → S → Prop

namespace Prog

variable {Q : Type} {R : Q → Type} {S E α β : Type} (L : Logic Q R S)

def wp : Prog Q R α → (α → S → Prop) → S → Prop
  | .pure a, post, s => post a s
  | .ask q k, post, s => L.may s q ∧ ∀ r s', L.reply s q r s' → (k r).wp post s'

variable {L}

theorem wp_bind {p : Prog Q R α} {f : α → Prog Q R β} {post : β → S → Prop} {s : S} :
    (p.bind f).wp L post s ↔ p.wp L (fun a s' => (f a).wp L post s') s := by
  induction p generalizing s with
  | pure a => rfl
  | ask q k ih =>
    simp only [bind, wp]
    refine and_congr_right fun _ => ?_
    exact forall_congr' fun r => forall_congr' fun s' => imp_congr_right fun _ => ih r

theorem wp_mono {p : Prog Q R α} {post post' : α → S → Prop} {s : S}
    (h : ∀ a s', post a s' → post' a s') (hp : p.wp L post s) : p.wp L post' s := by
  induction p generalizing s with
  | pure a => exact h a s hp
  | ask q k ih => exact ⟨hp.1, fun r s' hr => ih r (hp.2 r s' hr)⟩

/-- The questions a run asks, each in the state it is asked in. -/
def Asks (exec : S → (q : Q) → Except E (R q × S)) (met : S → Q → Prop) : Prog Q R α → S → Prop
  | .pure _, _ => True
  | .ask q k, s => met s q ∧
    match exec s q with
    | .error _ => True
    | .ok (r, s') => (k r).Asks exec met s'

/-- `Asks`, for a condition that can be computed. -/
def asks (exec : S → (q : Q) → Except E (R q × S)) (met : S → Q → Bool) : Prog Q R α → S → Bool
  | .pure _, _ => true
  | .ask q k, s => met s q &&
    match exec s q with
    | .error _ => true
    | .ok (r, s') => (k r).asks exec met s'

theorem Asks.of_asks {exec : S → (q : Q) → Except E (R q × S)} {check : S → Q → Bool}
    {met : S → Q → Prop} (hmet : ∀ s q, check s q = true → met s q) {p : Prog Q R α} {s : S}
    (h : p.asks exec check s = true) : p.Asks exec met s := by
  induction p generalizing s with
  | pure _ => trivial
  | ask q k ih =>
    rw [asks, Bool.and_eq_true] at h
    rw [Asks]
    refine ⟨hmet s q h.1, ?_⟩
    cases he : exec s q with
    | error _ => trivial
    | ok rs =>
      have hk := h.2
      rw [he] at hk
      exact ih _ hk

/-- A run keeps an invariant that relates the other side's state to the state of a logic, if every
question that the logic allows and that meets the condition keeps it. -/
theorem run_inv {D : Type} {exec : D → (q : Q) → Except E (R q × D)} {met : D → Q → Prop}
    {I : S → D → Prop} {p : Prog Q R α} {post : α → S → Prop} {s : S} {d d' : D} {a : α}
    (step : ∀ s d q r d', I s d → L.may s q → met d q → exec d q = .ok (r, d') →
      ∃ s', L.reply s q r s' ∧ I s' d')
    (hp : p.wp L post s) (hask : p.Asks exec met d) (hi : I s d) (hrun : p.run exec d = .ok (a, d')) :
    ∃ s', I s' d' ∧ post a s' := by
  induction p generalizing s d with
  | pure b =>
    cases hrun
    exact ⟨s, hi, hp⟩
  | ask q k ih =>
    simp only [Asks] at hask
    rw [run] at hrun
    cases he : exec d q with
    | error e =>
      rw [he] at hrun
      cases hrun
    | ok rd =>
      obtain ⟨r, d₁⟩ := rd
      rw [he] at hrun hask
      obtain ⟨s₁, hreply, hi₁⟩ := step s d q r d₁ hi hp.1 hask.1 he
      exact ih r (hp.2 r s₁ hreply) hask.2 hi₁ hrun

theorem asks_true {exec : S → (q : Q) → Except E (R q × S)} (p : Prog Q R α) (s : S) :
    p.Asks exec (fun _ _ => True) s := by
  induction p generalizing s with
  | pure _ => trivial
  | ask q k ih =>
    rw [Asks]
    refine ⟨trivial, ?_⟩
    split
    · trivial
    · exact ih _ _

end Prog

/-! ## Function bodies -/

/-- A body with local variables `σ` that may throw an `ε`. -/
def Script (Q : Type) (R : Q → Type) (ε σ α : Type) : Type := σ → Prog Q R (Except ε α × σ)

namespace Script

variable {Q : Type} {R : Q → Type} {ε σ α β : Type}

protected def pure (a : α) : Script Q R ε σ α := fun l => .pure (.ok a, l)

protected def bind (p : Script Q R ε σ α) (f : α → Script Q R ε σ β) : Script Q R ε σ β := fun l =>
  (p l).bind fun
    | (.ok a, l') => f a l'
    | (.error e, l') => .pure (.error e, l')

instance : Monad (Script Q R ε σ) where
  pure := Script.pure
  bind := Script.bind

def throw (e : ε) : Script Q R ε σ α := fun l => .pure (.error e, l)

def get : Script Q R ε σ σ := fun l => .pure (.ok l, l)

def modify (f : σ → σ) : Script Q R ε σ Unit := fun l => .pure (.ok (), f l)

/-- Ask the other side. -/
def ask (q : Q) : Script Q R ε σ (R q) := fun l => .ask q fun r => .pure (.ok r, l)

/-- `try { p } catch (e) { f(e) }`. -/
def catching (p : Script Q R ε σ α) (f : ε → Script Q R ε σ α) : Script Q R ε σ α := fun l =>
  (p l).bind fun
    | (.ok a, l') => .pure (.ok a, l')
    | (.error e, l') => f e l'

variable {S : Type} (L : Logic Q R S)

def wp (p : Script Q R ε σ α) (post : α → σ → S → Prop) (thrown : ε → σ → S → Prop) (l : σ) (s : S) :
    Prop :=
  (p l).wp L (fun r s' => match r with
    | (.ok a, l') => post a l' s'
    | (.error e, l') => thrown e l' s') s

variable {L} {post : α → σ → S → Prop} {thrown : ε → σ → S → Prop} {l : σ} {s : S}

@[simp] theorem wp_pure {a : α} :
    wp L (pure a : Script Q R ε σ α) post thrown l s ↔ post a l s := Iff.rfl

@[simp] theorem wp_bind {p : Script Q R ε σ β} {f : β → Script Q R ε σ α} :
    wp L (p >>= f) post thrown l s ↔ wp L p (fun b l' s' => wp L (f b) post thrown l' s') thrown l s := by
  show Prog.wp L ((p l).bind _) _ s ↔ _
  rw [Prog.wp_bind]
  constructor <;>
  · refine Prog.wp_mono ?_
    rintro ⟨r, l'⟩ s' h
    cases r <;> exact h

@[simp] theorem wp_throw {e : ε} :
    wp L (throw e : Script Q R ε σ α) post thrown l s ↔ thrown e l s := Iff.rfl

@[simp] theorem wp_get {post : σ → σ → S → Prop} :
    wp L (get : Script Q R ε σ σ) post thrown l s ↔ post l l s := Iff.rfl

@[simp] theorem wp_modify {post : Unit → σ → S → Prop} {f : σ → σ} :
    wp L (modify f : Script Q R ε σ Unit) post thrown l s ↔ post () (f l) s := Iff.rfl

@[simp] theorem wp_ask {q : Q} {post : R q → σ → S → Prop} :
    wp L (ask q : Script Q R ε σ (R q)) post thrown l s ↔
      L.may s q ∧ ∀ r s', L.reply s q r s' → post r l s' := Iff.rfl

@[simp] theorem wp_catching {p : Script Q R ε σ α} {f : ε → Script Q R ε σ α} :
    wp L (p.catching f) post thrown l s ↔
      wp L p post (fun e l' s' => wp L (f e) post thrown l' s') l s := by
  show Prog.wp L ((p l).bind _) _ s ↔ _
  rw [Prog.wp_bind]
  constructor <;>
  · refine Prog.wp_mono ?_
    rintro ⟨r, l'⟩ s' h
    cases r <;> exact h

theorem wp_mono {p : Script Q R ε σ α} {post' : α → σ → S → Prop} {thrown' : ε → σ → S → Prop}
    (hp : wp L p post thrown l s) (h : ∀ a l' s', post a l' s' → post' a l' s')
    (ht : ∀ e l' s', thrown e l' s' → thrown' e l' s') : wp L p post' thrown' l s := by
  refine Prog.wp_mono ?_ hp
  rintro ⟨r, l'⟩ s' h'
  cases r
  · exact ht _ _ _ h'
  · exact h _ _ _ h'

end Script

end Lib

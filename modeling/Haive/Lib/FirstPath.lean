import Mathlib.Data.List.Chain
import Mathlib.Logic.Relation

/-!
# The first path to a node

A graph is a list of starts and, for each node, the list of its targets. `FirstPath starts next path v`:
`path` is how a depth-first search that tries starts and targets in their order comes to
`v`. That is a fact about the graph alone: the path begins at the first start that
reaches `v`, and goes from each node to the first target that reaches `v` off the path so far.

`FirstPath.unique`: there is only one. `Justified` is what a search knows of its path
while it goes on, and `Justified.firstPath` turns that into a first path where the search
comes to a new node.
-/

namespace Lib

variable {α : Type}

/-- An edge to a node that is not on `path`. -/
def StepOff (next : α → List α) (path : List α) (a b : α) : Prop := b ∈ next a ∧ b ∉ path

/-- `v` can be reached from `a` without touching `path`. -/
def ReachesOff (next : α → List α) (path : List α) (a v : α) : Prop :=
  a ∉ path ∧ Relation.ReflTransGen (StepOff next path) a v

/-- What is in `s` leads to `s` or to `path`. -/
def ClosedOff (next : α → List α) (path : List α) (s : α → Prop) : Prop :=
  ∀ a, s a → ∀ b ∈ next a, s b ∨ b ∈ path

section Order

variable [DecidableEq α]

structure FirstPath (starts : List α) (next : α → List α) (path : List α) (v : α) : Prop where
  ends : path.getLast? = some v
  nodup : path.Nodup
  chain : path.IsChain fun a b => b ∈ next a
  start : ∀ a, path.head? = some a → a ∈ starts ∧
    ∀ s, starts.idxOf s < starts.idxOf a → ¬ ReachesOff next [] s v
  turn : ∀ before a b after, path = before ++ a :: b :: after →
    ∀ c, (next a).idxOf c < (next a).idxOf b → ¬ ReachesOff next (before ++ [a]) c v

/-- Each choice on the path passed over nodes of `found` only. -/
structure Justified (starts : List α) (next : α → List α) (path : List α) (found : α → Prop) : Prop where
  nodup : path.Nodup
  chain : path.IsChain fun a b => b ∈ next a
  apart : ∀ a ∈ path, ¬ found a
  start : ∀ a, path.head? = some a → a ∈ starts ∧ ∃ s, (∀ x, s x → found x) ∧ ClosedOff next [] s ∧
    ∀ x, starts.idxOf x < starts.idxOf a → s x
  turn : ∀ before a b after, path = before ++ a :: b :: after → ∃ s, (∀ x, s x → found x) ∧
    ClosedOff next (before ++ [a]) s ∧ ∀ x, (next a).idxOf x < (next a).idxOf b → x ∈ before ++ [a] ∨ s x

end Order

variable {starts : List α} {next : α → List α} {path path' : List α} {a b v : α} {s found found' : α → Prop}

theorem ClosedOff.reaches (h : ClosedOff next path s) (ha : s a) (hreach : ReachesOff next path a v) : s v := by
  obtain ⟨-, hreach⟩ := hreach
  induction hreach with
  | refl => exact ha
  | tail _ hstep ih => exact (h _ ih _ hstep.1).resolve_right hstep.2

/-- The rest of a path stays off what is before it. -/
theorem reachesOff_of_chain {before rest : List α} (hchain : (b :: rest).IsChain fun a b => b ∈ next a)
    (hnodup : (before ++ b :: rest).Nodup) (hends : (b :: rest).getLast? = some v) : ReachesOff next before b v := by
  have hoff : ∀ x ∈ b :: rest, x ∉ before := fun x hx hin => (List.nodup_append.mp hnodup).2.2 x hin x hx rfl
  refine ⟨hoff b List.mem_cons_self, ?_⟩
  clear hnodup
  induction rest generalizing b with
  | nil =>
    cases hends
    exact .refl
  | cons c rest ih =>
    rw [List.isChain_cons_cons] at hchain
    rw [List.getLast?_cons_cons] at hends
    exact .head ⟨hchain.1, hoff c (List.mem_cons_of_mem _ List.mem_cons_self)⟩
      (ih hchain.2 hends fun x hx => hoff x (List.mem_cons_of_mem _ hx))

variable [DecidableEq α]

theorem Justified.mono (h : Justified starts next path found) (hfound : ∀ x, found x → found' x)
    (hapart : ∀ x ∈ path, ¬ found' x) : Justified starts next path found' where
  nodup := h.nodup
  chain := h.chain
  apart := hapart
  start := fun a ha => by
    obtain ⟨hmem, s, hs, hclosed, hpassed⟩ := h.start a ha
    exact ⟨hmem, s, fun x hx => hfound x (hs x hx), hclosed, hpassed⟩
  turn := fun before a b after heq => by
    obtain ⟨s, hs, hclosed, hpassed⟩ := h.turn before a b after heq
    exact ⟨s, fun x hx => hfound x (hs x hx), hclosed, hpassed⟩

theorem Justified.front {front : List α} {a : α} (h : Justified starts next path found) (hpath : path = front ++ [a]) :
    Justified starts next front found := by
  subst hpath
  refine ⟨(List.nodup_append.mp h.nodup).1, h.chain.left_of_append, fun x hx => h.apart x (List.mem_append_left _ hx),
    fun b hb => h.start b ?_, fun before b c after heq => h.turn before b c (after ++ [a]) (by rw [heq]; simp)⟩
  cases front with
  | nil => cases hb
  | cons d front => exact hb

/-- The search comes to the last node of its path by the first path. -/
theorem Justified.firstPath (h : Justified starts next path found) (hends : path.getLast? = some v) :
    FirstPath starts next path v := by
  have hnew : ¬ found v := h.apart v (List.mem_of_getLast? hends)
  refine ⟨hends, h.nodup, h.chain, fun a ha => ?_, fun before a b after heq c hc hreach => ?_⟩
  · obtain ⟨hmem, s, hs, hclosed, hpassed⟩ := h.start a ha
    exact ⟨hmem, fun x hx hreach => hnew (hs v (hclosed.reaches (hpassed x hx) hreach))⟩
  · obtain ⟨s, hs, hclosed, hpassed⟩ := h.turn before a b after heq
    exact hnew (hs v (hclosed.reaches ((hpassed c hc).resolve_left hreach.1) hreach))

/-- The search goes on to a target that it has not found. Those before it are on the path or found. -/
theorem Justified.extend (h : Justified starts next path found) (hends : path.getLast? = some a) (hb : b ∈ next a)
    (hnew : b ∉ path) (hfound : ¬ found b) (hclosed : ClosedOff next path found)
    (hpassed : ∀ x, (next a).idxOf x < (next a).idxOf b → x ∈ path ∨ found x) :
    Justified starts next (path ++ [b]) found := by
  obtain ⟨front, rfl⟩ := List.getLast?_eq_some_iff.mp hends
  refine ⟨?_, ?_, ?_, ?_, ?_⟩
  · exact List.nodup_append.mpr ⟨h.nodup, List.pairwise_singleton _ b, fun x hx y hy heq =>
      hnew (List.mem_singleton.mp hy ▸ heq ▸ hx)⟩
  · rw [List.append_assoc, List.singleton_append, List.isChain_append_cons_cons]
    exact ⟨h.chain, hb, .singleton b⟩
  · intro x hx
    rcases List.mem_append.mp hx with hx | hx
    · exact h.apart x hx
    · exact List.mem_singleton.mp hx ▸ hfound
  · intro c hc
    refine h.start c ?_
    rwa [List.head?_append_of_ne_nil _ (by simp)] at hc
  · intro before c d after heq
    rcases List.eq_nil_or_concat' after with rfl | ⟨after, last, rfl⟩
    · have hsplit : (front ++ [a]) ++ [b] = (before ++ [c]) ++ [d] := by rw [heq]; simp
      obtain ⟨hfront, hlast⟩ := List.append_inj' hsplit rfl
      obtain ⟨rfl, hac⟩ := List.append_inj' hfront rfl
      cases hac
      cases hlast
      exact ⟨found, fun _ hx => hx, hclosed, hpassed⟩
    · have hsplit : (front ++ [a]) ++ [b] = (before ++ c :: d :: after) ++ [last] := by rw [heq]; simp
      exact h.turn before c d after (List.append_inj' hsplit rfl).1

theorem idxOf_ne {l : List α} (ha : a ∈ l) (hne : a ≠ b) : l.idxOf a < l.idxOf b ∨ l.idxOf b < l.idxOf a :=
  Nat.lt_or_gt_of_ne fun heq => hne ((List.idxOf_inj ha).mp heq)

/-- Two first paths to a node never part. -/
theorem FirstPath.unique (h : FirstPath starts next path v) (h' : FirstPath starts next path' v) : path = path' := by
  -- The longer one would come to `v` twice.
  have hreturns : ∀ {front c rest}, FirstPath starts next (front ++ c :: rest) v → front.getLast? ≠ some v := by
    intro front c rest h hv
    have hlast : (c :: rest).getLast? = some v := by rw [← h.ends, List.getLast?_append_of_ne_nil _ (by simp)]
    exact (List.nodup_append.mp h.nodup).2.2 v (List.mem_of_getLast? hv) v (List.mem_of_getLast? hlast) rfl
  have apart : ∀ {front b rest c rest'}, FirstPath starts next (front ++ b :: rest) v →
      FirstPath starts next (front ++ c :: rest') v → b ≠ c → False := by
    intro front b rest c rest' h h' hne
    have reaches : ∀ {b rest}, FirstPath starts next (front ++ b :: rest) v → ReachesOff next front b v := by
      intro b rest h
      refine reachesOff_of_chain h.chain.right_of_append h.nodup ?_
      rw [← h.ends, List.getLast?_append_of_ne_nil _ (by simp)]
    rcases List.eq_nil_or_concat' front with rfl | ⟨front, a, rfl⟩
    · obtain ⟨hb, hfirst⟩ := h.start b rfl
      obtain ⟨-, hfirst'⟩ := h'.start c rfl
      rcases idxOf_ne hb hne with hlt | hlt
      · exact hfirst' b hlt (reaches h)
      · exact hfirst c hlt (reaches h')
    · have hturn := h.turn front a b rest (by simp)
      have hturn' := h'.turn front a c rest' (by simp)
      have hb : b ∈ next a := by
        have hchain := h.chain
        rw [List.append_assoc, List.singleton_append, List.isChain_append_cons_cons] at hchain
        exact hchain.2.1
      rcases idxOf_ne hb hne with hlt | hlt
      · exact hturn' b hlt (reaches h)
      · exact hturn c hlt (reaches h')
  have key : ∀ (rest rest' front : List α), FirstPath starts next (front ++ rest) v →
      FirstPath starts next (front ++ rest') v → rest = rest' := by
    intro rest
    induction rest with
    | nil =>
      intro rest' front h h'
      cases rest' with
      | nil => rfl
      | cons c rest' =>
        rw [List.append_nil] at h
        exact absurd h.ends (hreturns h')
    | cons b rest ih =>
      intro rest' front h h'
      cases rest' with
      | nil =>
        rw [List.append_nil] at h'
        exact absurd h'.ends (hreturns h)
      | cons c rest' =>
        rcases Decidable.em (b = c) with rfl | hne
        · refine congrArg (b :: ·) (ih rest' (front ++ [b]) ?_ ?_)
          · rwa [List.append_assoc]
          · rwa [List.append_assoc]
        · exact (apart h h' hne).elim
  exact key path path' [] h h'

end Lib

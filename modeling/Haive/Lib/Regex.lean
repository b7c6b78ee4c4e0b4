import Haive.Lib.TextSpans

/-!
# Regular expressions that backtrack

An expression as ECMAScript runs it: `finds` lists the ways it matches from a place on, the preferred one
first, with the groups that each captures. `finds_bounds` and `least_le` say where a match ends, `finds_within`
and `captures_of_mem` what it and its groups can hold.
-/

namespace Lib

open Spans

/-- Where a match ends and what its groups hold. -/
structure Found where
  stop : Nat
  groups : Nat → Option Spans.Span

inductive Regex (α : Type)
  | empty
  /-- As many units as `width` says of the rest of the text; none of them is no match. -/
  | item (width : List α → Nat)
  | assert (holds : List α → Nat → Bool)
  | seq (r s : Regex α)
  | alt (r s : Regex α)
  /-- `r*`, or `r{0,n}` with `most = some n`; with `?` behind it when not greedy. -/
  | loop (greedy : Bool) (most : Option Nat) (r : Regex α)
  | group (n : Nat) (r : Regex α)
  | look (positive : Bool) (r : Regex α)

variable {α : Type}

/-- What a group holds. -/
def Found.group (text : List α) (f : Found) (n : Nat) : Option (List α) :=
  (f.groups n).map fun span => (text.take span.2).drop span.1

/-- Without what these groups hold. -/
def Found.without (f : Found) (numbers : List Nat) : Found :=
  { f with groups := fun n => if n ∈ numbers then none else f.groups n }

namespace Regex

/-! ## Abbreviations -/

def unit (p : α → Bool) : Regex α := .item fun rest => if rest.head?.any p then 1 else 0
def many (r : Regex α) : Regex α := .loop true none r
def some1 (r : Regex α) : Regex α := .seq r (many r)
def opt (r : Regex α) : Regex α := .loop true (some 1) r
def ahead (r : Regex α) : Regex α := .look true r
def notAhead (r : Regex α) : Regex α := .look false r

def seqs : List (Regex α) → Regex α
  | [] => .empty
  | [r] => r
  | r :: rest => .seq r (seqs rest)

def alts : List (Regex α) → Regex α
  | [] => .assert fun _ _ => false
  | [r] => r
  | r :: rest => .alt r (alts rest)

def word (same : α → α → Bool) (w : List α) : Regex α := seqs (w.map fun a => unit (same a))

/-! ## Matching -/

/-- The groups that a turn of a loop over the expression starts without. -/
def numbers : Regex α → List Nat
  | .seq r s | .alt r s => r.numbers ++ s.numbers
  | .loop _ _ r | .look _ r => r.numbers
  | .group n r => n :: r.numbers
  | _ => []

/-- At most `n` turns, each of which moves on. -/
def turns (greedy : Bool) (turn : Found → List Found) : Nat → Found → List Found
  | 0, f => [f]
  | n + 1, f =>
    let more := ((turn f).filter (f.stop < ·.stop)).flatMap (turns greedy turn n)
    if greedy then more ++ [f] else f :: more

/-- The ways in which the expression matches from `f.stop` on. -/
def finds (text : List α) : Regex α → Found → List Found
  | .empty, f => [f]
  | .item width, f =>
    let n := width (text.drop f.stop)
    if 0 < n ∧ f.stop + n ≤ text.length then [{ f with stop := f.stop + n }] else []
  | .assert holds, f => if holds text f.stop then [f] else []
  | .seq r s, f => (finds text r f).flatMap (finds text s)
  | .alt r s, f => finds text r f ++ finds text s f
  | .loop greedy most r, f =>
    turns greedy (fun f => finds text r (f.without r.numbers)) (most.getD (text.length - f.stop)) f
  | .group n r, f =>
    (finds text r f).map fun g => { g with groups := fun m => if m = n then some (f.stop, g.stop) else g.groups m }
  | .look positive r, f =>
    match (finds text r f).head? with
    | some g => if positive then [{ f with groups := g.groups }] else []
    | none => if positive then [] else [f]

def matchAt (r : Regex α) (text : List α) (start : Nat) : Option Found :=
  (finds text r { stop := start, groups := fun _ => none }).head?

/-- The first match at or behind `start`, with where it starts; `width` says how many units the search moves on. -/
def exec (width : List α → Nat) (r : Regex α) (text : List α) (start : Nat) : Option (Nat × Found) :=
  if start ≤ text.length then
    match matchAt r text start with
    | some f => some (start, f)
    | none => exec width r text (start + max 1 (width (text.drop start)))
  else none
termination_by text.length + 1 - start

/-- The matches that a loop over `exec` sees, each from the end of the one before. -/
def execAll (width : List α → Nat) (r : Regex α) (text : List α) (start : Nat) : List (Nat × Found) :=
  match exec width r text start with
  | none => []
  | some found =>
    if start < found.2.stop ∧ start ≤ text.length then found :: execAll width r text found.2.stop else [found]
termination_by text.length + 1 - start

/-! ## Where a match ends -/

theorem turns_keep {P : Found → Prop} {greedy : Bool} {turn : Found → List Found}
    (hkeep : ∀ f g, P f → g ∈ turn f → P g) {n : Nat} {f g : Found} (hf : P f) (hg : g ∈ turns greedy turn n f) : P g := by
  induction n generalizing f with
  | zero =>
    cases List.mem_singleton.mp hg
    exact hf
  | succ n ih =>
    have hmore : g ∈ ((turn f).filter (f.stop < ·.stop)).flatMap (turns greedy turn n) → P g := by
      intro hmem
      obtain ⟨h, hh, hgh⟩ := List.mem_flatMap.mp hmem
      exact ih (hkeep f h hf (List.mem_filter.mp hh).1) hgh
    rw [turns] at hg
    split at hg
    · rcases List.mem_append.mp hg with hmem | hmem
      · exact hmore hmem
      · cases List.mem_singleton.mp hmem
        exact hf
    · rcases List.mem_cons.mp hg with rfl | hmem
      · exact hf
      · exact hmore hmem

/-- How many units a match takes at least. -/
def least : Regex α → Nat
  | .item _ => 1
  | .seq r s => r.least + s.least
  | .alt r s => min r.least s.least
  | .group _ r => r.least
  | _ => 0

variable {text : List α} {r : Regex α} {f g : Found}

theorem finds_bounds (hf : f.stop ≤ text.length) (hg : g ∈ finds text r f) :
    f.stop + r.least ≤ g.stop ∧ g.stop ≤ text.length := by
  induction r generalizing f g with
  | empty =>
    cases List.mem_singleton.mp hg
    exact ⟨Nat.le_refl _, hf⟩
  | item width =>
    rw [finds] at hg
    split at hg
    · next hfits =>
      cases List.mem_singleton.mp hg
      exact ⟨Nat.add_le_add_left hfits.1 _, hfits.2⟩
    · cases hg
  | assert holds =>
    rw [finds] at hg
    split at hg
    · cases List.mem_singleton.mp hg
      exact ⟨Nat.le_refl _, hf⟩
    · cases hg
  | seq r s ihr ihs =>
    obtain ⟨h, hh, hgh⟩ := List.mem_flatMap.mp hg
    obtain ⟨hle, hend⟩ := ihr hf hh
    obtain ⟨hle', hend'⟩ := ihs hend hgh
    rw [least]
    exact ⟨by omega, hend'⟩
  | alt r s ihr ihs =>
    rw [least]
    rcases List.mem_append.mp hg with hg | hg
    · exact ⟨by have := (ihr hf hg).1; omega, (ihr hf hg).2⟩
    · exact ⟨by have := (ihs hf hg).1; omega, (ihs hf hg).2⟩
  | loop greedy most r ih =>
    refine turns_keep (P := fun g => f.stop + 0 ≤ g.stop ∧ g.stop ≤ text.length) (fun g h hP hh => ?_)
      ⟨Nat.le_refl _, hf⟩ hg
    obtain ⟨hle, hend⟩ := ih (f := g.without r.numbers) hP.2 hh
    exact ⟨(hP.1.trans (Nat.le_add_right _ _)).trans hle, hend⟩
  | group n r ih =>
    obtain ⟨h, hh, rfl⟩ := List.mem_map.mp hg
    exact ih (g := h) hf hh
  | look positive r ih =>
    rw [finds] at hg
    split at hg
    · split at hg
      · cases List.mem_singleton.mp hg
        exact ⟨Nat.le_refl _, hf⟩
      · cases hg
    · split at hg
      · cases hg
      · cases List.mem_singleton.mp hg
        exact ⟨Nat.le_refl _, hf⟩

theorem matchAt_bounds {start : Nat} (hstart : start ≤ text.length) (h : matchAt r text start = some f) :
    start + r.least ≤ f.stop ∧ f.stop ≤ text.length :=
  finds_bounds hstart (List.mem_of_mem_head? h)

theorem exec_matchAt {width : List α → Nat} {start : Nat} {found : Nat × Found}
    (h : exec width r text start = some found) :
    start ≤ found.1 ∧ found.1 ≤ text.length ∧ matchAt r text found.1 = some found.2 := by
  fun_induction exec width r text start with
  | case1 start hle f hmatch =>
    cases h
    exact ⟨Nat.le_refl _, hle, hmatch⟩
  | case2 start hle hmatch ih =>
    obtain ⟨hbehind, hend, hfound⟩ := ih h
    exact ⟨by omega, hend, hfound⟩
  | case3 start hgt => cases h

theorem exec_bounds {width : List α → Nat} {start : Nat} {found : Nat × Found}
    (h : exec width r text start = some found) :
    start ≤ found.1 ∧ found.1 + r.least ≤ found.2.stop ∧ found.2.stop ≤ text.length := by
  obtain ⟨hbehind, hend, hmatch⟩ := exec_matchAt h
  exact ⟨hbehind, matchAt_bounds hend hmatch⟩

theorem execAll_matchAt {width : List α → Nat} {start : Nat} {found : Nat × Found}
    (h : found ∈ execAll width r text start) : found.1 ≤ text.length ∧ matchAt r text found.1 = some found.2 := by
  fun_induction execAll width r text start with
  | case1 start hnone => cases h
  | case2 start first hfirst hgoes ih =>
    rcases List.mem_cons.mp h with rfl | h
    · exact (exec_matchAt hfirst).2
    · exact ih h
  | case3 start first hfirst hstops =>
    cases List.mem_singleton.mp h
    exact (exec_matchAt hfirst).2

/-! ## What a match holds -/

def Within (p : α → Prop) : Regex α → Prop
  | .item width => ∀ rest : List α, ∀ a ∈ rest.take (width rest), p a
  | .seq r s | .alt r s => r.Within p ∧ s.Within p
  | .loop _ _ r | .group _ r => r.Within p
  | _ => True

/-- The expressions of the groups with this number. -/
def bodies (n : Nat) : Regex α → List (Regex α)
  | .seq r s | .alt r s => r.bodies n ++ s.bodies n
  | .loop _ _ r | .look _ r => r.bodies n
  | .group m r => if m = n then r :: r.bodies n else r.bodies n
  | _ => []

/-- Every unit that the group takes is one of `p`. -/
def GroupWithin (p : α → Prop) (n : Nat) (r : Regex α) : Prop := ∀ body ∈ r.bodies n, body.Within p

/-- What stands between the two places is of `p`. -/
def Stretch (p : α → Prop) (text : List α) (start stop : Nat) : Prop :=
  ∀ i, start ≤ i → i < stop → ∀ a, text[i]? = some a → p a

variable {p : α → Prop}

theorem Stretch.append {start mid stop : Nat} (h : Stretch p text start mid) (hmore : Stretch p text mid stop) :
    Stretch p text start stop := by
  intro i hstart hstop
  rcases Nat.lt_or_ge i mid with hlt | hge
  · exact h i hstart hlt
  · exact hmore i hge hstop

theorem Stretch.nil {start : Nat} : Stretch p text start start :=
  fun _ hstart hstop => absurd (hstart.trans_lt hstop) (Nat.lt_irrefl _)

theorem finds_within (hr : r.Within p) (hg : g ∈ finds text r f) : Stretch p text f.stop g.stop := by
  induction r generalizing f g with
  | empty =>
    cases List.mem_singleton.mp hg
    exact .nil
  | item width =>
    rw [finds] at hg
    split at hg
    · cases List.mem_singleton.mp hg
      intro i hstart hstop a ha
      refine hr (text.drop f.stop) a (List.mem_of_getElem? (i := i - f.stop) ?_)
      rw [List.getElem?_take_of_lt (by dsimp only at hstop; omega), List.getElem?_drop, Nat.add_sub_cancel' hstart, ha]
    · cases hg
  | assert holds =>
    rw [finds] at hg
    split at hg
    · cases List.mem_singleton.mp hg
      exact .nil
    · cases hg
  | seq r s ihr ihs =>
    obtain ⟨h, hh, hgh⟩ := List.mem_flatMap.mp hg
    exact (ihr hr.1 hh).append (ihs hr.2 hgh)
  | alt r s ihr ihs =>
    rcases List.mem_append.mp hg with hg | hg
    · exact ihr hr.1 hg
    · exact ihs hr.2 hg
  | loop greedy most r ih =>
    exact turns_keep (P := fun g => Stretch p text f.stop g.stop)
      (fun g h hP hh => hP.append (ih (f := g.without r.numbers) hr hh)) .nil hg
  | group n r ih =>
    obtain ⟨h, hh, rfl⟩ := List.mem_map.mp hg
    exact ih (g := h) hr hh
  | look positive r ih =>
    rw [finds] at hg
    split at hg
    · split at hg
      · cases List.mem_singleton.mp hg
        exact .nil
      · cases hg
    · split at hg
      · cases hg
      · cases List.mem_singleton.mp hg
        exact .nil

theorem within_unit {q : α → Bool} (h : ∀ a, q a = true → p a) : (unit q).Within p := by
  intro rest a ha
  cases rest with
  | nil => cases ha
  | cons b rest =>
    beta_reduce at ha
    rw [List.head?_cons, Option.any_some] at ha
    split at ha
    · next hb =>
      cases List.mem_singleton.mp ha
      exact h _ hb
    · cases ha

theorem within_seqs {rs : List (Regex α)} (h : ∀ r ∈ rs, r.Within p) : (seqs rs).Within p := by
  fun_induction seqs rs with
  | case1 => trivial
  | case2 r => exact h r (List.mem_singleton_self r)
  | case3 r rest hrest ih => exact ⟨h r List.mem_cons_self, ih fun s hs => h s (List.mem_cons_of_mem _ hs)⟩

/-- What the group holds, if anything, is of `p`. -/
def Captures (p : α → Prop) (text : List α) (n : Nat) (f : Found) : Prop :=
  ∀ span, f.groups n = some span → Stretch p text span.1 span.2

theorem finds_captures {n : Nat} (hr : r.GroupWithin p n) (hf : Captures p text n f) (hg : g ∈ finds text r f) :
    Captures p text n g := by
  induction r generalizing f g with
  | empty =>
    cases List.mem_singleton.mp hg
    exact hf
  | item width =>
    rw [finds] at hg
    split at hg
    · cases List.mem_singleton.mp hg
      exact hf
    · cases hg
  | assert holds =>
    rw [finds] at hg
    split at hg
    · cases List.mem_singleton.mp hg
      exact hf
    · cases hg
  | seq r s ihr ihs =>
    obtain ⟨h, hh, hgh⟩ := List.mem_flatMap.mp hg
    obtain ⟨hleft, hright⟩ := List.forall_mem_append.mp hr
    exact ihs hright (ihr hleft hf hh) hgh
  | alt r s ihr ihs =>
    obtain ⟨hleft, hright⟩ := List.forall_mem_append.mp hr
    rcases List.mem_append.mp hg with hg | hg
    · exact ihr hleft hf hg
    · exact ihs hright hf hg
  | loop greedy most r ih =>
    refine turns_keep (P := Captures p text n) (fun g h hP hh => ih hr (fun span hspan => ?_) hh) hf hg
    dsimp only [Found.without] at hspan
    split at hspan
    · cases hspan
    · exact hP span hspan
  | group m r ih =>
    obtain ⟨h, hh, rfl⟩ := List.mem_map.mp hg
    intro span hspan
    dsimp only at hspan
    split at hspan
    · next hn =>
      cases hspan
      exact finds_within (hr r (by rw [bodies, if_pos hn.symm]; exact List.mem_cons_self)) hh
    · next hn =>
      refine ih (fun body hbody => hr body ?_) hf hh span hspan
      rw [bodies, if_neg (Ne.symm hn)]
      exact hbody
  | look positive r ih =>
    rw [finds] at hg
    split at hg
    · next h hh =>
      split at hg
      · cases List.mem_singleton.mp hg
        exact ih (g := h) hr hf (List.mem_of_mem_head? hh)
      · cases hg
    · split at hg
      · cases hg
      · cases List.mem_singleton.mp hg
        exact hf

theorem matchAt_captures {n start : Nat} (hr : r.GroupWithin p n) (h : matchAt r text start = some f) :
    Captures p text n f :=
  finds_captures hr (fun _ hspan => by cases hspan) (List.mem_of_mem_head? h)

theorem forall_mem_group {n start : Nat} (hr : r.GroupWithin p n) (h : matchAt r text start = some f) {held : List α}
    (hheld : f.group text n = some held) : ∀ a ∈ held, p a := by
  obtain ⟨span, hspan, rfl⟩ := Option.map_eq_some_iff.mp hheld
  intro a ha
  obtain ⟨i, hi⟩ := List.getElem?_of_mem ha
  rw [List.getElem?_drop] at hi
  have hlt : span.1 + i < span.2 := by
    by_contra hge
    rw [List.getElem?_eq_none ((List.length_take_le _ _).trans (Nat.le_of_not_lt hge))] at hi
    cases hi
  rw [List.getElem?_take_of_lt hlt] at hi
  exact matchAt_captures hr h span hspan _ (Nat.le_add_right _ _) hlt a hi

end Regex

end Lib

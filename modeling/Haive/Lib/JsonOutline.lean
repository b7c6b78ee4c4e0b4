import Haive.Lib.Json

/-!
# What a scanner sees of a JSON text

A scanner that looks for the end of a value keeps track of the brackets that are open, of whether it
is inside a string, and of a backslash before the next unit. `outline` is that much of the parser's
state, and `outline_step` says what one unit does to it: nothing else about the grammar is needed to
follow such a scanner along a text that the parser accepts.
-/

namespace Lib.Json

open Lib.Units

/-! ## Accepted texts -/

/-- The text takes the machine to the value. -/
def Accepts (m : Machine) (text : List UInt16) (j : Json) : Prop := (text.foldlM step m).bind finish = some j

theorem accepts_nil {m : Machine} {j : Json} : Accepts m [] j ↔ finish m = some j := Iff.rfl

theorem accepts_cons {m : Machine} {u : UInt16} {text : List UInt16} {j : Json} :
    Accepts m (u :: text) j ↔ ∃ m', step m u = some m' ∧ Accepts m' text j := by
  rw [Accepts, List.foldlM_cons]
  cases step m u with
  | none => simp
  | some m' => exact ⟨fun h => ⟨m', rfl, h⟩, fun ⟨m'', heq, h⟩ => Option.some.inj heq ▸ h⟩

theorem parse_eq_some {text : List UInt16} {j : Json} : parse text = some j ↔ Accepts ⟨[], .value⟩ text j := Iff.rfl

/-! ## Outlines -/

inductive Kind
  | arr | obj
deriving DecidableEq, Repr

def Kind.opener : Kind → UInt16
  | .arr => 0x5b
  | .obj => 0x7b

def Kind.closer : Kind → UInt16
  | .arr => 0x5d
  | .obj => 0x7d

def Frame.kind : Frame → Kind
  | .arr _ => .arr
  | .obj _ _ => .obj

def Phase.kind? : Phase → Option Kind
  | .element => some .arr
  | .name _ _ | .colon _ _ | .string (some _) _ _ => some .obj
  | _ => none

def Phase.inString : Phase → Bool
  | .string _ _ _ => true
  | _ => false

def Phase.escaping : Phase → Bool
  | .string _ _ .backslash => true
  | _ => false

structure Outline where
  /-- The open containers, from the inside. -/
  kinds : List Kind
  inString : Bool
  escaping : Bool

def outline (m : Machine) : Outline :=
  ⟨m.phase.kind?.toList ++ m.stack.map Frame.kind, m.phase.inString, m.phase.escaping⟩

/-- Neither a quote nor a bracket. -/
def Plain (u : UInt16) : Prop := u ≠ 0x22 ∧ ∀ k : Kind, u ≠ k.opener ∧ u ≠ k.closer

inductive Outline.Step : Outline → UInt16 → Outline → Prop
  | escaped {ks : List Kind} (u : UInt16) : Step ⟨ks, true, true⟩ u ⟨ks, true, false⟩
  | backslash {ks : List Kind} : Step ⟨ks, true, false⟩ 0x5c ⟨ks, true, true⟩
  | leave {ks : List Kind} : Step ⟨ks, true, false⟩ 0x22 ⟨ks, false, false⟩
  | inside {ks : List Kind} {u : UInt16} (hquote : u ≠ 0x22) (hback : u ≠ 0x5c) :
      Step ⟨ks, true, false⟩ u ⟨ks, true, false⟩
  | enter {ks : List Kind} : Step ⟨ks, false, false⟩ 0x22 ⟨ks, true, false⟩
  | push {ks : List Kind} (k : Kind) : Step ⟨ks, false, false⟩ k.opener ⟨k :: ks, false, false⟩
  | pop {ks : List Kind} (k : Kind) : Step ⟨k :: ks, false, false⟩ k.closer ⟨ks, false, false⟩
  | outside {ks : List Kind} {u : UInt16} (hplain : Plain u) : Step ⟨ks, false, false⟩ u ⟨ks, false, false⟩

theorem plain_of_ne {u : UInt16} (h₁ : u ≠ 0x22) (h₂ : u ≠ 0x5b) (h₃ : u ≠ 0x5d) (h₄ : u ≠ 0x7b) (h₅ : u ≠ 0x7d) :
    Plain u :=
  ⟨h₁, fun k => match k with
    | .arr => ⟨h₂, h₃⟩
    | .obj => ⟨h₄, h₅⟩⟩

theorem plain_space {u : UInt16} (h : isSpace u = true) : Plain u := by
  refine plain_of_ne ?_ ?_ ?_ ?_ ?_ <;> rintro rfl <;> exact absurd h (by decide)

theorem plain_comma : Plain 0x2c := plain_of_ne (by decide) (by decide) (by decide) (by decide) (by decide)

theorem plain_colon : Plain 0x3a := plain_of_ne (by decide) (by decide) (by decide) (by decide) (by decide)

theorem behind_outline {stack : List Frame} {j : Json} {u : UInt16} {m : Machine} (h : behind stack j u = some m) :
    Outline.Step ⟨stack.map Frame.kind, false, false⟩ u (outline m) := by
  unfold behind at h
  split at h
  · next hspace =>
    cases h
    exact .outside (plain_space hspace)
  · split at h
    · split at h
      · next hu =>
        cases h
        exact .outside (hu ▸ plain_comma)
      · split at h
        · next hu =>
          cases h
          exact hu ▸ .pop .arr
        · cases h
    · split at h
      · next hu =>
        cases h
        exact .outside (hu ▸ plain_comma)
      · split at h
        · next hu =>
          cases h
          exact hu ▸ .pop .obj
        · cases h
    · cases h

theorem opening_outline {stack : List Frame} {u : UInt16} {m : Machine} (h : opening stack u = some m) :
    Outline.Step ⟨stack.map Frame.kind, false, false⟩ u (outline m) := by
  unfold opening at h
  split at h
  · next hspace =>
    cases h
    exact .outside (plain_space hspace)
  · split at h
    · next hu =>
      cases h
      exact hu ▸ .push .arr
    · next harr =>
      split at h
      · next hu =>
        cases h
        exact hu ▸ .push .obj
      · next hobj =>
        split at h
        · next hu =>
          cases h
          exact hu ▸ .enter
        · next hquote =>
          split at h
          · cases h
          · next hclose =>
            cases h
            simp only [Bool.or_eq_true, decide_eq_true_eq, not_or] at hclose
            exact .outside (plain_of_ne hquote harr hclose.1.1.1 hobj hclose.1.1.2)

/-- What one unit does to the outline. -/
theorem outline_step {m m' : Machine} {u : UInt16} (h : step m u = some m') :
    Outline.Step (outline m) u (outline m') := by
  obtain ⟨stack, phase⟩ := m
  cases phase with
  | value => exact opening_outline h
  | element =>
    unfold step at h
    dsimp only at h
    split at h
    · next hspace =>
      cases h
      exact .outside (plain_space hspace)
    · split at h
      · next hu =>
        cases h
        exact hu ▸ .pop .arr
      · exact opening_outline h
  | name done mayClose =>
    unfold step at h
    dsimp only at h
    split at h
    · next hspace =>
      cases h
      exact .outside (plain_space hspace)
    · split at h
      · next hu =>
        cases h
        simp only [Bool.and_eq_true, decide_eq_true_eq] at hu
        exact hu.1 ▸ .pop .obj
      · split at h
        · next hu =>
          cases h
          exact hu ▸ .enter
        · cases h
  | colon done key =>
    unfold step at h
    dsimp only at h
    split at h
    · next hspace =>
      cases h
      exact .outside (plain_space hspace)
    · split at h
      · next hu =>
        cases h
        exact .outside (hu ▸ plain_colon)
      · cases h
  | string name back escape =>
    cases escape with
    | none =>
      unfold step at h
      dsimp only at h
      split at h
      · next hu =>
        cases h
        cases name <;> exact hu ▸ .leave
      · next hquote =>
        split at h
        · next hu =>
          cases h
          cases name <;> exact hu ▸ .backslash
        · next hback =>
          split at h
          · cases h
          · cases h
            cases name <;> exact .inside hquote hback
    | backslash =>
      unfold step at h
      dsimp only at h
      split at h
      · cases h
        cases name <;> exact .escaped u
      · obtain ⟨v, -, rfl⟩ := Option.map_eq_some_iff.mp h
        cases name <;> exact .escaped u
    | hex digits =>
      unfold step at h
      dsimp only at h
      obtain ⟨d, hd, rfl⟩ := Option.map_eq_some_iff.mp h
      have hquote : u ≠ 0x22 := by
        rintro rfl
        exact nomatch hd.symm.trans (show hexDigit 0x22 = none by decide)
      have hback : u ≠ 0x5c := by
        rintro rfl
        exact nomatch hd.symm.trans (show hexDigit 0x5c = none by decide)
      split <;> cases name <;> exact .inside hquote hback
  | bare back =>
    unfold step at h
    dsimp only at h
    split at h
    · obtain ⟨j, -, hbehind⟩ := Option.bind_eq_some_iff.mp h
      exact behind_outline hbehind
    · next hend =>
      split at h
      · cases h
      · next hstart =>
        cases h
        simp only [Bool.or_eq_true, decide_eq_true_eq, not_or] at hend hstart
        exact .outside (plain_of_ne hstart.1.1.1 hstart.1.1.2 hend.1.2 hstart.1.2 hend.2)
  | read j => exact behind_outline h

/-! ## Ends -/

theorem finish_outline {m : Machine} {j : Json} (h : finish m = some j) :
    (outline m).kinds = [] ∧ (outline m).inString = false := by
  obtain ⟨stack, phase⟩ := m
  unfold finish at h
  split at h
  · next hstack hphase =>
    dsimp only at hstack hphase
    subst hstack hphase
    exact ⟨rfl, rfl⟩
  · next hstack hphase =>
    dsimp only at hstack hphase
    subst hstack hphase
    exact ⟨rfl, rfl⟩
  · cases h

theorem behind_closer {stack : List Frame} {j : Json} {k : Kind} {m : Machine}
    (h : behind stack j k.closer = some m) : ∃ j', m.phase = .read j' := by
  have hspace : isSpace k.closer = false := by cases k <;> decide
  have hcomma : k.closer ≠ 0x2c := by cases k <;> decide
  unfold behind at h
  rw [if_neg (by simp [hspace])] at h
  split at h
  · rw [if_neg hcomma] at h
    split at h
    · cases h
      exact ⟨_, rfl⟩
    · cases h
  · rw [if_neg hcomma] at h
    split at h
    · cases h
      exact ⟨_, rfl⟩
    · cases h
  · cases h

/-- Behind a bracket that closes, a value is read. -/
theorem step_closer {m m' : Machine} {k : Kind} (h : step m k.closer = some m')
    (hout : (outline m).inString = false) : ∃ j, m'.phase = .read j := by
  have hspace : isSpace k.closer = false := by cases k <;> decide
  have hopening : ∀ stack, opening stack k.closer = none := by
    intro stack
    cases k <;> rfl
  obtain ⟨stack, phase⟩ := m
  cases phase with
  | value => exact nomatch (hopening stack).symm.trans h
  | element =>
    unfold step at h
    dsimp only at h
    rw [if_neg (by simp [hspace]), hopening] at h
    split at h
    · cases h
      exact ⟨_, rfl⟩
    · cases h
  | name done mayClose =>
    have hquote : k.closer ≠ 0x22 := by cases k <;> decide
    unfold step at h
    dsimp only at h
    rw [if_neg (by simp [hspace]), if_neg hquote] at h
    split at h
    · cases h
      exact ⟨_, rfl⟩
    · cases h
  | colon done key =>
    have hcolon : k.closer ≠ 0x3a := by cases k <;> decide
    unfold step at h
    dsimp only at h
    rw [if_neg (by simp [hspace]), if_neg hcolon] at h
    cases h
  | string name back escape => cases hout
  | bare back =>
    unfold step at h
    dsimp only at h
    rw [if_pos (by cases k <;> decide)] at h
    obtain ⟨j, -, hbehind⟩ := Option.bind_eq_some_iff.mp h
    exact behind_closer hbehind
  | read j => exact behind_closer h

/-- Behind the outermost value there is space only. -/
theorem accepts_read_nil {j j' : Json} {text : List UInt16} (h : Accepts ⟨[], .read j⟩ text j') :
    j' = j ∧ ∀ u ∈ text, isSpace u = true := by
  induction text with
  | nil => exact ⟨(Option.some.inj (accepts_nil.mp h)).symm, fun _ hu => absurd hu List.not_mem_nil⟩
  | cons u text ih =>
    obtain ⟨m', hstep, hrest⟩ := accepts_cons.mp h
    change behind [] j u = some m' at hstep
    unfold behind at hstep
    split at hstep
    · next hspace =>
      cases hstep
      exact (ih hrest).imp_right fun hall => List.forall_mem_cons.mpr ⟨hspace, hall⟩
    · cases hstep

/-! ## Units of a number or a literal -/

/-- A unit that a number may have. -/
def isNumeric (u : UInt16) : Bool := (digit u).isSome || u ∈ ([0x2d, 0x2b, 0x2e, 0x65, 0x45] : List UInt16)

/-- The digits that a text starts with, and the units behind them. -/
theorem forall_numeric {s : List UInt16}
    (h : ∀ u ∈ s.drop (s.takeWhile fun v => (digit v).isSome).length, isNumeric u = true) :
    ∀ u ∈ s, isNumeric u = true := by
  obtain ⟨rest, hrest⟩ := List.takeWhile_prefix (l := s) fun v => (digit v).isSome
  have hdrop : s.drop (s.takeWhile fun v => (digit v).isSome).length = rest := by
    conv_lhs => rw [← hrest]
    exact List.drop_left' (by rw [hrest])
  intro u hu
  rw [← hrest] at hu
  rcases List.mem_append.mp hu with hu | hu
  · rw [isNumeric, List.mem_takeWhile_imp hu, Bool.true_or]
  · exact h u (hdrop ▸ hu)

/-- A unit of a number, and the units behind it. -/
theorem forall_numeric_of_head {s : List UInt16} {v : UInt16} (hv : isNumeric v = true) (hhead : s.head? = some v)
    (h : ∀ u ∈ s.tail, isNumeric u = true) : ∀ u ∈ s, isNumeric u = true := by
  cases s with
  | nil => cases hhead
  | cons w s =>
    obtain rfl : w = v := Option.some.inj hhead
    exact List.forall_mem_cons.mpr ⟨hv, h⟩

theorem isNumeric_of_number {s : List UInt16} {n : Float} (h : number s = some n) : ∀ u ∈ s, isNumeric u = true := by
  unfold number at h
  extract_lets negative s₁ whole s₂ fraction s₃ hasExponent signed exponent at h
  have hok := (Option.ite_none_right_eq_some.mp h).1
  rw [Bool.and_eq_true] at hok
  have hs₃ : ∀ u ∈ s₃, isNumeric u = true := by
    by_cases hexp : hasExponent = true
    · have hexponent : ∀ u ∈ exponent, isNumeric u = true := by
        have hall : allDigits exponent = true := by simpa [hexp] using hok.2
        rw [allDigits, Bool.and_eq_true, List.all_eq_true] at hall
        intro u hu
        rw [isNumeric, hall.2 u hu, Bool.true_or]
      have htail : ∀ u ∈ s₃.tail, isNumeric u = true := by
        by_cases hsign : signed = true
        · have hexponent' : ∀ u ∈ s₃.tail.tail, isNumeric u = true := by simpa [exponent, hsign] using hexponent
          simp only [signed, Bool.or_eq_true, decide_eq_true_eq] at hsign
          rcases hsign with hsign | hsign
          · exact forall_numeric_of_head (by decide) hsign hexponent'
          · exact forall_numeric_of_head (by decide) hsign hexponent'
        · simpa [exponent, hsign] using hexponent
      simp only [hasExponent, Bool.or_eq_true, decide_eq_true_eq] at hexp
      rcases hexp with hexp | hexp
      · exact forall_numeric_of_head (by decide) hexp htail
      · exact forall_numeric_of_head (by decide) hexp htail
    · have hnil : s₃ = [] := by simpa [hexp] using hok.2
      rw [hnil]
      exact fun u hu => absurd hu List.not_mem_nil
  have hs₂ : ∀ u ∈ s₂, isNumeric u = true := by
    by_cases hdot : s₂.head? = some 0x2e
    · refine forall_numeric_of_head (by decide) hdot (forall_numeric ?_)
      simpa [s₃, fraction, hdot] using hs₃
    · simpa [s₃, hdot] using hs₃
  have hs₁ : ∀ u ∈ s₁, isNumeric u = true := forall_numeric hs₂
  by_cases hneg : negative
  · refine forall_numeric_of_head (by decide) hneg ?_
    simpa [s₁, hneg] using hs₁
  · simpa [s₁, hneg] using hs₁

theorem not_mem_of_bare {s : List UInt16} {j : Json} (h : bare s = some j) : 0x5c ∉ s := by
  unfold bare at h
  split at h
  · next hs => exact hs ▸ by decide
  · split at h
    · next hs => exact hs ▸ by decide
    · split at h
      · next hs => exact hs ▸ by decide
      · obtain ⟨n, hn, -⟩ := Option.map_eq_some_iff.mp h
        exact fun hmem => absurd (isNumeric_of_number hn _ hmem) (by decide)

/-! ## Where a backslash may stand -/

/-- What is being read behind the machine's literal has no backslash. -/
theorem not_mem_back_of_accepts {stack : List Frame} {back text : List UInt16} {j : Json}
    (h : Accepts ⟨stack, .bare back⟩ text j) : 0x5c ∉ back := by
  have hdone : ∀ {j' : Json}, bare back.reverse = some j' → 0x5c ∉ back :=
    fun hbare hmem => not_mem_of_bare hbare (List.mem_reverse.mpr hmem)
  induction text generalizing back with
  | nil =>
    have hfin := accepts_nil.mp h
    cases stack with
    | nil => exact hdone hfin
    | cons _ _ => cases hfin
  | cons u text ih =>
    obtain ⟨m', hstep, hrest⟩ := accepts_cons.mp h
    unfold step at hstep
    dsimp only at hstep
    split at hstep
    · obtain ⟨j', hbare, -⟩ := Option.bind_eq_some_iff.mp hstep
      exact hdone hbare
    · split at hstep
      · cases hstep
      · cases hstep
        exact fun hmem => ih hrest (fun hbare hmem' => not_mem_of_bare hbare (List.mem_reverse.mpr hmem'))
          (List.mem_cons_of_mem _ hmem)

theorem behind_backslash (stack : List Frame) (j : Json) : behind stack j 0x5c = none := by
  match stack with
  | [] => rfl
  | .arr _ :: _ => rfl
  | .obj _ _ :: _ => rfl

theorem inString_of_backslash {m : Machine} {text : List UInt16} {j : Json} (h : Accepts m (0x5c :: text) j) :
    (outline m).inString = true := by
  obtain ⟨m', hstep, hrest⟩ := accepts_cons.mp h
  obtain ⟨stack, phase⟩ := m
  have hliteral : ∀ {stack' : List Frame} {back : List UInt16}, m' = ⟨stack', .bare (0x5c :: back)⟩ → False :=
    fun heq => not_mem_back_of_accepts (heq ▸ hrest) List.mem_cons_self
  cases phase with
  | value => exact (hliteral (Option.some.inj hstep).symm).elim
  | element => exact (hliteral (Option.some.inj hstep).symm).elim
  | name done mayClose => cases mayClose <;> cases hstep
  | colon done key => cases hstep
  | string name back escape => rfl
  | bare back => exact (hliteral (Option.some.inj hstep).symm).elim
  | read j' => exact nomatch (behind_backslash stack j').symm.trans hstep

/-- A backslash and the unit behind it stay inside the string. -/
theorem accepts_escape {m : Machine} {u : UInt16} {text : List UInt16} {j : Json} (h : Accepts m (0x5c :: u :: text) j)
    (hesc : (outline m).escaping = false) : (outline m).inString = true ∧
      ∃ m', Accepts m' text j ∧ (outline m').inString = true ∧ (outline m').escaping = false := by
  have hin := inString_of_backslash h
  obtain ⟨m₁, hstep₁, h₁⟩ := accepts_cons.mp h
  obtain ⟨m₂, hstep₂, h₂⟩ := accepts_cons.mp h₁
  have hmove₁ := outline_step hstep₁
  have hmove₂ := outline_step hstep₂
  refine ⟨hin, m₂, h₂, ?_⟩
  generalize outline m = o at hin hesc hmove₁
  generalize outline m₁ = o₁ at hmove₁ hmove₂
  generalize outline m₂ = o₂ at hmove₂
  generalize hback : (0x5c : UInt16) = b at hmove₁
  cases hmove₁ with
  | backslash =>
    cases hmove₂ with
    | escaped => exact ⟨rfl, rfl⟩
  | leave => exact absurd hback (by decide)
  | inside _ hne => exact absurd hback.symm hne
  | escaped => cases hesc
  | enter | push | pop | outside => cases hin

/-- No accepted text ends with a backslash. -/
theorem not_accepts_backslash {m : Machine} {j : Json} : ¬ Accepts m [0x5c] j := by
  intro h
  have hin := inString_of_backslash h
  obtain ⟨m', hstep, hrest⟩ := accepts_cons.mp h
  have hend := (finish_outline (accepts_nil.mp hrest)).2
  have hmove := outline_step hstep
  generalize outline m = o at hin hmove
  generalize outline m' = o' at hend hmove
  generalize hback : (0x5c : UInt16) = b at hmove
  cases hmove with
  | leave => exact absurd hback (by decide)
  | escaped | backslash | inside => cases hend
  | enter | push | pop | outside => cases hin

theorem escaping_of_ne {m m' : Machine} {u : UInt16} (hstep : step m u = some m') (hu : u ≠ 0x5c)
    (hesc : (outline m).escaping = false) : (outline m').escaping = false := by
  have hmove := outline_step hstep
  generalize outline m = o at hesc hmove
  generalize outline m' = o' at hmove
  cases hmove with
  | backslash => exact absurd rfl hu
  | escaped => cases hesc
  | leave | inside | enter | push | pop | outside => rfl

/-! ## Behind a string -/

/-- The units that may follow a string: a colon, a comma and the closing brackets. -/
def isStructural (u : UInt16) : Bool := u = 0x3a || u = 0x2c || u = 0x7d || u = 0x5d

/-- After a string, the next unit that is no space is structural, if there is one. -/
def Bounded (text : List UInt16) : Prop := ∀ u ∈ (text.dropWhile isSpace).head?, isStructural u = true

theorem bounded_space {u : UInt16} {text : List UInt16} (hu : isSpace u = true) : Bounded (u :: text) ↔ Bounded text := by
  rw [Bounded, List.dropWhile_cons_of_pos hu, Bounded]

theorem bounded_of_structural {u : UInt16} (text : List UInt16) (hspace : ¬ isSpace u = true)
    (hu : isStructural u = true) : Bounded (u :: text) := by
  intro v hv
  rw [List.dropWhile_cons_of_neg hspace] at hv
  exact Option.some.inj hv ▸ hu

theorem bounded_of_read {stack : List Frame} {j j' : Json} {text : List UInt16}
    (h : Accepts ⟨stack, .read j⟩ text j') : Bounded text := by
  induction text with
  | nil => exact fun u hu => nomatch hu
  | cons u text ih =>
    obtain ⟨m', hstep, hrest⟩ := accepts_cons.mp h
    change behind stack j u = some m' at hstep
    unfold behind at hstep
    split at hstep
    · next hspace =>
      cases hstep
      exact (bounded_space hspace).mpr (ih hrest)
    · next hspace =>
      refine bounded_of_structural text hspace ?_
      split at hstep
      · split at hstep
        · next hu => exact hu ▸ rfl
        · split at hstep
          · next hu => exact hu ▸ rfl
          · cases hstep
      · split at hstep
        · next hu => exact hu ▸ rfl
        · split at hstep
          · next hu => exact hu ▸ rfl
          · cases hstep
      · cases hstep

theorem bounded_of_colon {stack : List Frame} {done : List (List UInt16 × Json)} {key : List UInt16} {j : Json}
    {text : List UInt16} (h : Accepts ⟨stack, .colon done key⟩ text j) : Bounded text := by
  induction text with
  | nil => exact fun u hu => nomatch hu
  | cons u text ih =>
    obtain ⟨m', hstep, hrest⟩ := accepts_cons.mp h
    unfold step at hstep
    dsimp only at hstep
    split at hstep
    · next hspace =>
      cases hstep
      exact (bounded_space hspace).mpr (ih hrest)
    · next hspace =>
      split at hstep
      · next hu => exact bounded_of_structural text hspace (hu ▸ rfl)
      · cases hstep

/-- The text behind the quote that closes a string. -/
theorem bounded_of_leave {m m' : Machine} {text : List UInt16} {j : Json} (hstep : step m 0x22 = some m')
    (hin : (outline m).inString = true) (hesc : (outline m).escaping = false) (h : Accepts m' text j) :
    Bounded text := by
  obtain ⟨stack, phase⟩ := m
  cases phase with
  | string name back escape =>
    cases escape with
    | none =>
      obtain rfl := Option.some.inj hstep
      cases name with
      | none => exact bounded_of_read h
      | some done => exact bounded_of_colon h
    | backslash => cases hesc
    | hex digits => cases hstep
  | value | element | name | colon | bare | read => cases hin

/-- A string does not end with spaces. -/
theorem not_all_space {m : Machine} {text : List UInt16} {j : Json} (h : Accepts m text j)
    (hin : (outline m).inString = true) : ¬ ∀ u ∈ text, isSpace u = true := by
  intro hall
  induction text generalizing m with
  | nil => exact nomatch (finish_outline (accepts_nil.mp h)).2.symm.trans hin
  | cons u text ih =>
    obtain ⟨m', hstep, hrest⟩ := accepts_cons.mp h
    obtain ⟨hu, htext⟩ := List.forall_mem_cons.mp hall
    refine ih hrest ?_ htext
    have hquote : u ≠ 0x22 := (plain_space hu).1
    have hmove := outline_step hstep
    generalize outline m = o at hmove hin
    generalize outline m' = o' at hmove
    cases hmove with
    | leave => exact absurd rfl hquote
    | escaped | backslash | inside => rfl
    | enter | push | pop | outside => cases hin

end Lib.Json

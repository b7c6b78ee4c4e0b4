import Haive.Steps.FencedJson

/-!
# Inner quotes

`escapeInnerQuotes` of `worker/src/step-engine/steps/_fenced-json.ts` puts a backslash before each
quote inside a string that a weak model left unescaped. A quote ends the string where a structural
unit or the end of the text follows.
-/

namespace Haive.FencedJson

open Lib.Units
open Lib (Json)
open Lib.Json (Machine Accepts Bounded isSpace isStructural outline step outline_step accepts_cons accepts_nil)

/-- Whether the loop takes a quote before `rest` for the end of the string. -/
def endsString (rest : Text) : Bool :=
  match (rest.dropWhile isSpace).head? with
  | none => true
  | some next => isStructural next

/-- The loop of `escapeInnerQuotes`, with its flag. -/
def escapeFrom : Bool → Text → Text
  | _, [] => []
  | false, c :: rest => c :: escapeFrom (c = quote) rest
  | true, c :: rest =>
    if c = backslash then
      match rest with
      | [] => [c]
      | d :: rest' => c :: d :: escapeFrom true rest'
    else if c = quote then
      if endsString rest then c :: escapeFrom false rest else backslash :: quote :: escapeFrom true rest
    else c :: escapeFrom true rest

def escapeInnerQuotes (s : Text) : Text := escapeFrom false s

theorem escapeFrom_outside (c : UInt16) (rest : Text) :
    escapeFrom false (c :: rest) = c :: escapeFrom (c = quote) rest := rfl

theorem escapeFrom_pair (d : UInt16) (rest : Text) :
    escapeFrom true (backslash :: d :: rest) = backslash :: d :: escapeFrom true rest := by simp [escapeFrom]

theorem escapeFrom_quote (rest : Text) : escapeFrom true (quote :: rest) =
    if endsString rest then quote :: escapeFrom false rest else backslash :: quote :: escapeFrom true rest := by
  have hne : quote ≠ backslash := by decide
  cases rest <;> simp only [escapeFrom, if_neg hne, ite_true]

theorem escapeFrom_inside {c : UInt16} (hback : c ≠ backslash) (hquote : c ≠ quote) (rest : Text) :
    escapeFrom true (c :: rest) = c :: escapeFrom true rest := by
  cases rest <;> simp [escapeFrom, hback, hquote]

/-- The second text is the first without some of the backslashes before quotes. A quote that has
lost its backslash is followed, behind spaces, by a unit that is not structural. -/
inductive Unescaped : Text → Text → Prop
  | nil : Unescaped [] []
  | unit {u : UInt16} {t d : Text} (hu : u ≠ backslash) (h : Unescaped t d) : Unescaped (u :: t) (u :: d)
  | pair (u : UInt16) {t d : Text} (h : Unescaped t d) : Unescaped (backslash :: u :: t) (backslash :: u :: d)
  | drop {t d : Text} (hnext : ∀ u ∈ (d.dropWhile isSpace).head?, isStructural u = false) (h : Unescaped t d) :
      Unescaped (backslash :: quote :: t) (quote :: d)

theorem unescaped_dropWhile {t d : Text} (h : Unescaped t d) : Unescaped (t.dropWhile isSpace) (d.dropWhile isSpace) := by
  induction h with
  | nil => exact .nil
  | @unit u t d hu h ih =>
    by_cases hspace : isSpace u = true
    · rwa [List.dropWhile_cons_of_pos hspace, List.dropWhile_cons_of_pos hspace]
    · rw [List.dropWhile_cons_of_neg hspace, List.dropWhile_cons_of_neg hspace]
      exact .unit hu h
  | pair u h ih => exact .pair u h
  | drop hnext h ih => exact .drop hnext h

theorem endsString_of_bounded {t d : Text} (h : Unescaped t d) (ht : Bounded t) : endsString d = true := by
  have hdrop := unescaped_dropWhile h
  unfold Bounded at ht
  unfold endsString
  generalize t.dropWhile isSpace = t' at hdrop ht
  generalize d.dropWhile isSpace = d' at hdrop
  cases hdrop with
  | nil => rfl
  | unit hu h => exact ht _ rfl
  | pair u h => exact absurd (ht _ rfl) (by decide)
  | drop hnext h => exact absurd (ht _ rfl) (by decide)

theorem all_space_of_unescaped {t d : Text} (h : Unescaped t d) (hd : ∀ u ∈ d, isSpace u = true) :
    ∀ u ∈ t, isSpace u = true := by
  induction h with
  | nil => exact hd
  | unit hu h ih =>
    obtain ⟨hfirst, hrest⟩ := List.forall_mem_cons.mp hd
    exact List.forall_mem_cons.mpr ⟨hfirst, ih hrest⟩
  | pair u h ih => exact absurd (hd _ List.mem_cons_self) (by decide)
  | drop hnext h ih => exact absurd (hd _ List.mem_cons_self) (by decide)

/-- A valid text is one without a backslash less. -/
theorem unescaped_self {m : Machine} {j : Json} : ∀ {t : Text}, Accepts m t j → (outline m).escaping = false →
    Unescaped t t
  | [], _, _ => .nil
  | u :: t, h, hesc => by
    by_cases hu : u = backslash
    · subst hu
      cases t with
      | nil => exact absurd h Lib.Json.not_accepts_backslash
      | cons v t =>
        obtain ⟨-, m', hrest, -, hesc'⟩ := Lib.Json.accepts_escape h hesc
        exact .pair v (unescaped_self hrest hesc')
    · obtain ⟨m', hstep, hrest⟩ := accepts_cons.mp h
      exact .unit hu (unescaped_self hrest (Lib.Json.escaping_of_ne hstep hu hesc))

/-- The repair follows the parser along the text that was damaged. -/
theorem escapeFrom_of_accepts {t d : Text} (h : Unescaped t d) {m : Machine} {j : Json} (hacc : Accepts m t j)
    (hesc : (outline m).escaping = false) : escapeFrom (outline m).inString d = t := by
  induction h generalizing m with
  | nil => cases (outline m).inString <;> rfl
  | @unit u t d hu h ih =>
    obtain ⟨m', hstep, hrest⟩ := accepts_cons.mp hacc
    have hnext := ih hrest
    have hleave : u = quote → (outline m).inString = true → endsString d = true := by
      rintro rfl hin
      exact endsString_of_bounded h (Lib.Json.bounded_of_leave hstep hin hesc hrest)
    have hmove := outline_step hstep
    generalize outline m = o at hmove hesc hleave
    generalize outline m' = o' at hmove hnext
    cases hmove with
    | escaped => cases hesc
    | backslash => exact absurd rfl hu
    | leave =>
      rw [escapeFrom_quote, if_pos (hleave rfl rfl)]
      exact congrArg _ (hnext rfl)
    | inside hquote _ =>
      rw [escapeFrom_inside hu hquote]
      exact congrArg _ (hnext rfl)
    | enter => exact congrArg _ (hnext rfl)
    | push k =>
      rw [escapeFrom_outside, decide_eq_false (opener_ne_quote k)]
      exact congrArg _ (hnext rfl)
    | pop k =>
      rw [escapeFrom_outside, decide_eq_false (closer_ne_quote k)]
      exact congrArg _ (hnext rfl)
    | outside hplain =>
      rw [escapeFrom_outside, decide_eq_false hplain.1]
      exact congrArg _ (hnext rfl)
  | @pair u t d h ih =>
    obtain ⟨hin, m', hrest, hin', hesc'⟩ := Lib.Json.accepts_escape hacc hesc
    have hnext := ih hrest hesc'
    rw [hin'] at hnext
    rw [hin, escapeFrom_pair, hnext]
  | @drop t d hdrop h ih =>
    obtain ⟨hin, m', hrest, hin', hesc'⟩ := Lib.Json.accepts_escape hacc hesc
    have hnext := ih hrest hesc'
    rw [hin'] at hnext
    have hinner : endsString d = false := by
      unfold endsString
      split
      · next hnone =>
        rw [List.head?_eq_none_iff, List.dropWhile_eq_nil_iff] at hnone
        exact absurd (all_space_of_unescaped h hnone) (Lib.Json.not_all_space hrest hin')
      · next next hsome => exact hdrop next hsome
    rw [hin, escapeFrom_quote, hinner, if_neg Bool.false_ne_true, hnext]

/-- A valid text is left as it is, and a valid text that has lost backslashes before some quotes
that no structural unit follows is restored. -/
theorem escapeInnerQuotes_exact {text : Text} {j : Json} (h : Json.parse text = some j) :
    escapeInnerQuotes text = text ∧ ∀ damaged, Unescaped text damaged → escapeInnerQuotes damaged = text := by
  have hrestore : ∀ damaged, Unescaped text damaged → escapeInnerQuotes damaged = text :=
    fun damaged hdamage => escapeFrom_of_accepts hdamage (Lib.Json.parse_eq_some.mp h) rfl
  exact ⟨hrestore text (unescaped_self (Lib.Json.parse_eq_some.mp h) rfl), hrestore⟩

/-- `["x\"y"]`, and the same without the backslash. -/
theorem escapeInnerQuotes_exact_array : Unescaped [0x5b, 0x22, 0x78, 0x5c, 0x22, 0x79, 0x22, 0x5d]
      [0x5b, 0x22, 0x78, 0x22, 0x79, 0x22, 0x5d] ∧
    escapeInnerQuotes [0x5b, 0x22, 0x78, 0x22, 0x79, 0x22, 0x5d] =
      [0x5b, 0x22, 0x78, 0x5c, 0x22, 0x79, 0x22, 0x5d] := by
  have hparse : Json.parse [0x5b, 0x22, 0x78, 0x5c, 0x22, 0x79, 0x22, 0x5d] =
      some (.arr [.str [0x78, 0x22, 0x79]]) := rfl
  have hend : Unescaped [0x79, 0x22, 0x5d] [0x79, 0x22, 0x5d] :=
    .unit (by decide) (.unit (by decide) (.unit (by decide) .nil))
  have hdamage : Unescaped [0x5b, 0x22, 0x78, 0x5c, 0x22, 0x79, 0x22, 0x5d]
      [0x5b, 0x22, 0x78, 0x22, 0x79, 0x22, 0x5d] :=
    have hnext : ∀ u ∈ ([0x79, 0x22, 0x5d] : Text).head?, isStructural u = false := by
      rintro u hu
      obtain rfl := Option.some.inj hu
      decide
    .unit (by decide) (.unit (by decide) (.unit (by decide) (.drop hnext hend)))
  exact ⟨hdamage, (escapeInnerQuotes_exact hparse).2 _ hdamage⟩

end Haive.FencedJson

import Haive.Lib.JsonOutline

/-!
# JSON in agents' texts

`worker/src/step-engine/steps/_fenced-json.ts`, over UTF-16 code units: finding a JSON value in what
an agent wrote, and repairing quotes that it left unescaped. `JSON.parse` is `Json.parse`; the
scanners are followed along a text that it accepts by the parser's outline.
-/

namespace Haive.FencedJson

open Lib.Units
open Lib (Json)
open Lib.Json (Machine Kind Outline Accepts isSpace outline step outline_step accepts_cons accepts_nil)

abbrev Text := List UInt16

abbrev quote : UInt16 := 0x22
abbrev backslash : UInt16 := 0x5c

/-! ## Brackets -/

/-- The loop of `findBalancedEnd`: the index behind which the value is complete. -/
def balancedFrom (opener closer : UInt16) : Int → Bool → Bool → Text → Option Nat
  | _, _, _, [] => none
  | depth, inString, escape, c :: rest =>
    if escape then (balancedFrom opener closer depth inString false rest).map (· + 1)
    else if inString then
      (balancedFrom opener closer depth (c ≠ quote) (c = backslash) rest).map (· + 1)
    else if c = quote then (balancedFrom opener closer depth true false rest).map (· + 1)
    else if c = opener then (balancedFrom opener closer (depth + 1) false false rest).map (· + 1)
    else if c = closer then
      if depth - 1 = 0 then some 0 else (balancedFrom opener closer (depth - 1) false false rest).map (· + 1)
    else (balancedFrom opener closer depth false false rest).map (· + 1)

/-- `findBalancedEnd`; `none` is -1. -/
def findBalancedEnd (text : Text) (openIdx : Nat) : Option Nat :=
  text[openIdx]?.bind fun opener =>
    let closer := if opener = 0x5b then 0x5d else 0x7d
    (balancedFrom opener closer 0 false false (text.drop openIdx)).map (openIdx + ·)

theorem opener_ne_quote (k : Kind) : k.opener ≠ quote := by cases k <;> decide

theorem closer_ne_quote (k : Kind) : k.closer ≠ quote := by cases k <;> decide

theorem closer_ne_opener (k k' : Kind) : k.closer ≠ k'.opener := by cases k <;> cases k' <;> decide

theorem opener_injective {k k' : Kind} (h : k.opener = k'.opener) : k = k' := by
  cases k <;> cases k' <;> first | rfl | exact absurd h (by decide)

theorem closer_injective {k k' : Kind} (h : k.closer = k'.closer) : k = k' := by
  cases k <;> cases k' <;> first | rfl | exact absurd h (by decide)

/-- Inside an outermost container of kind `k`, the scan for its end runs with the parser to the end
of the text. -/
theorem balancedFrom_of_accepts {k : Kind} {m : Machine} {t : Text} {j : Json} (suffix : Text) (h : Accepts m t j)
    (hlast : (outline m).kinds.getLast? = some k) (hend : ∀ u ∈ t.getLast?, isSpace u = false) :
    ∃ i, t.length = i + 1 ∧ balancedFrom k.opener k.closer ((outline m).kinds.count k)
      (outline m).inString (outline m).escaping (t ++ suffix) = some i := by
  induction t generalizing m with
  | nil =>
    rw [(Lib.Json.finish_outline (accepts_nil.mp h)).1] at hlast
    cases hlast
  | cons u t ih =>
    obtain ⟨m', hstep, hrest⟩ := accepts_cons.mp h
    have hend' : ∀ v ∈ t.getLast?, isSpace v = false := by
      intro v hv
      cases t with
      | nil => cases hv
      | cons w t => exact hend v (by rwa [List.getLast?_cons_cons])
    -- One more unit that does not complete the container.
    have hmore : (outline m').kinds.getLast? = some k → ∀ depth : Int, depth = (outline m').kinds.count k →
        ∃ i, (u :: t).length = i + 1 ∧ (balancedFrom k.opener k.closer depth (outline m').inString
          (outline m').escaping (t ++ suffix)).map (· + 1) = some i := by
      rintro hlast' _ rfl
      obtain ⟨i, hlen, hscan⟩ := ih hrest hlast' hend'
      exact ⟨i + 1, by rw [List.length_cons, hlen], by rw [hscan]; rfl⟩
    have hmove := outline_step hstep
    have hread : ∀ k' : Kind, u = k'.closer → (outline m).inString = false → ∃ j', m'.phase = .read j' := by
      rintro k' rfl hout
      exact Lib.Json.step_closer hstep hout
    have hkinds' : m'.stack.map Lib.Json.Frame.kind = [] → m'.stack = [] := List.map_eq_nil_iff.mp
    generalize ho : outline m = o at hmove hlast hread
    generalize ho' : outline m' = o' at hmove hmore
    cases hmove with
    | escaped u =>
      rw [List.cons_append, balancedFrom, if_pos rfl]
      exact hmore hlast _ rfl
    | backslash =>
      rw [List.cons_append, balancedFrom, if_neg Bool.false_ne_true, if_pos rfl]
      exact hmore hlast _ rfl
    | leave =>
      rw [List.cons_append, balancedFrom, if_neg Bool.false_ne_true, if_pos rfl]
      exact hmore hlast _ rfl
    | inside hquote hback =>
      rw [List.cons_append, balancedFrom, if_neg Bool.false_ne_true, if_pos rfl, decide_eq_true hquote,
        decide_eq_false hback]
      exact hmore hlast _ rfl
    | enter =>
      rw [List.cons_append, balancedFrom, if_neg Bool.false_ne_true, if_neg Bool.false_ne_true, if_pos rfl]
      exact hmore hlast _ rfl
    | @push ks k' =>
      replace hlast : ks.getLast? = some k := hlast
      have hlast' : (k' :: ks).getLast? = some k := by
        cases ks with
        | nil => cases hlast
        | cons _ _ => rwa [List.getLast?_cons_cons]
      rw [List.cons_append, balancedFrom, if_neg Bool.false_ne_true, if_neg Bool.false_ne_true,
        if_neg (opener_ne_quote k')]
      by_cases hk : k' = k
      · subst hk
        rw [if_pos rfl]
        exact hmore hlast' _ (by simp)
      · rw [if_neg fun heq => hk (opener_injective heq), if_neg fun heq => closer_ne_opener k k' heq.symm]
        exact hmore hlast' _ (by simp [hk])
    | @pop ks k' =>
      replace hlast : (k' :: ks).getLast? = some k := hlast
      rw [List.cons_append, balancedFrom, if_neg Bool.false_ne_true, if_neg Bool.false_ne_true,
        if_neg (closer_ne_quote k'), if_neg (closer_ne_opener k' k)]
      by_cases hnil : ks = []
      · subst hnil
        obtain rfl : k' = k := by simpa using hlast
        obtain ⟨j', hphase⟩ := hread k' rfl rfl
        have hstack : m'.stack = [] := by
          refine hkinds' ?_
          have hkinds := congrArg Outline.kinds ho'
          rw [outline, hphase] at hkinds
          exact hkinds
        have hm' : m' = ⟨[], .read j'⟩ := by rw [← hstack, ← hphase]
        have ht : t = [] := by
          by_contra hne
          have hspaces := (Lib.Json.accepts_read_nil (hm' ▸ hrest)).2 _ (List.getLast_mem hne)
          rw [hend' _ (List.getLast_mem_getLast? hne)] at hspaces
          cases hspaces
        exact ⟨0, by rw [ht]; rfl, by simp⟩
      · have hlast' : ks.getLast? = some k := by
          obtain ⟨k₁, ks₁, rfl⟩ := List.exists_cons_of_ne_nil hnil
          rwa [List.getLast?_cons_cons] at hlast
        have hpos : 0 < ks.count k := List.count_pos_iff.mpr (List.mem_of_getLast? hlast')
        by_cases hk : k' = k
        · subst hk
          have hdepth : ((k' :: ks).count k' : Int) - 1 = ks.count k' := by simp
          rw [if_pos rfl, hdepth, if_neg (by omega)]
          exact hmore hlast' _ rfl
        · rw [if_neg fun heq => hk (closer_injective heq)]
          exact hmore hlast' _ (by simp [hk])
    | outside hplain =>
      rw [List.cons_append, balancedFrom, if_neg Bool.false_ne_true, if_neg Bool.false_ne_true, if_neg hplain.1,
        if_neg (hplain.2 k).1, if_neg (hplain.2 k).2]
      exact hmore hlast _ rfl

end Haive.FencedJson

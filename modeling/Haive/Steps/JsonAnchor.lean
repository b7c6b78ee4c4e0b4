import Haive.Lib.Occurrences
import Haive.Steps.FencedJson

/-!
# The anchor of `extractFencedJson`

`extractFencedJson` of `worker/src/step-engine/steps/_fenced-json.ts` looks for the first bracket
behind the first json fence of the text, or in the whole text where there is none. A value that stands
there is returned whole (`extractFrom_eq_iff`). A value without a fence of its own is lost where a
fence stands in one of its strings or in what follows it (`extractFencedJson_iff`).
-/

namespace Haive.FencedJson

open Lib.Units
open Lib (Json prefix_append_cons infix_append_cons)
open Lib.Json (Machine Kind isSpace accepts_cons)

/-! ## Fences -/

/-- A letter of the first plane without its case. -/
def lower (u : UInt16) : UInt16 := if 0x41 ≤ u && u ≤ 0x5a then u + 0x20 else u

/-- Three backticks and `json`. -/
def fence : Text := [0x60, 0x60, 0x60, 0x6a, 0x73, 0x6f, 0x6e]

/-- What is behind the first match of the fence and the white space that goes with it. -/
def afterFence : Text → Option Text
  | [] => none
  | u :: rest =>
    if fence <+: (u :: rest).map lower then some (((u :: rest).drop fence.length).dropWhile isTrimmed)
    else afterFence rest

/-- Some spelling of the fence. -/
def IsFence (opener : Text) : Prop := opener.map lower = fence

/-! ## The value -/

def isOpener (u : UInt16) : Bool := u = 0x7b || u = 0x5b

/-- The value at the first bracket. -/
def extractFrom (text : Text) : Option Text :=
  (text.findIdx? isOpener).bind fun openIdx =>
    (findBalancedEnd text openIdx).map fun stop => (text.take (stop + 1)).drop openIdx

def extractFencedJson (text : Text) : Option Text := extractFrom ((afterFence text).getD text)

/-- The text of an object or an array, from bracket to bracket. -/
structure ContainerText (t : Text) (j : Json) : Prop where
  parse : Json.parse t = some j
  opens : ∃ k : Kind, t.head? = some k.opener
  ends : ∀ u ∈ t.getLast?, isSpace u = false

theorem ends_of_last {t : Text} {u : UInt16} (hlast : t.getLast? = some u) (hu : isSpace u = false) :
    ∀ v ∈ t.getLast?, isSpace v = false :=
  fun _ hv => Option.some.inj (hlast.symm.trans hv) ▸ hu

theorem isOpener_iff {u : UInt16} : isOpener u = true ↔ ∃ k : Kind, u = k.opener := by
  rw [isOpener, Bool.or_eq_true, decide_eq_true_eq, decide_eq_true_eq]
  constructor
  · rintro (rfl | rfl)
    · exact ⟨.obj, rfl⟩
    · exact ⟨.arr, rfl⟩
  · rintro ⟨k, rfl⟩
    cases k
    · exact .inr rfl
    · exact .inl rfl

theorem closer_of_opener (k : Kind) : (if k.opener = 0x5b then (0x5d : UInt16) else 0x7d) = k.closer := by
  cases k <;> decide

/-- The scan from the bracket of a value ends where the value does. -/
theorem findBalancedEnd_container {t : Text} {j : Json} (h : ContainerText t j) (q tail : Text) :
    findBalancedEnd (q ++ (t ++ tail)) q.length = some (q.length + (t.length - 1)) := by
  obtain ⟨k, hk⟩ := h.opens
  cases t with
  | nil => cases hk
  | cons u rest =>
    obtain rfl : u = k.opener := Option.some.inj hk
    obtain ⟨m, hstep, hrest⟩ := accepts_cons.mp (Lib.Json.parse_eq_some.mp h.parse)
    have houtline : Lib.Json.outline m = ⟨[k], false, false⟩ := by
      cases k <;> obtain rfl := Option.some.inj hstep <;> rfl
    have hend : ∀ v ∈ rest.getLast?, isSpace v = false := by
      intro v hv
      cases rest with
      | nil => cases hv
      | cons w rest => exact h.ends v (by rwa [List.getLast?_cons_cons])
    obtain ⟨i, hlen, hscan⟩ := balancedFrom_of_accepts (k := k) tail hrest (by rw [houtline]; rfl) hend
    rw [houtline] at hscan
    have hfirst : (q ++ (k.opener :: rest ++ tail))[q.length]? = some k.opener := by simp
    have hdrop : (q ++ (k.opener :: rest ++ tail)).drop q.length = k.opener :: (rest ++ tail) := by simp
    rw [findBalancedEnd, hfirst, Option.bind_some, hdrop]
    dsimp only
    rw [closer_of_opener, balancedFrom, if_neg Bool.false_ne_true, if_neg Bool.false_ne_true,
      if_neg (opener_ne_quote k), if_pos rfl]
    have hone : (0 : Int) + 1 = (([k] : List Kind).count k : Int) := by simp
    rw [hone, hscan]
    simp [hlen]

/-- The value is returned exactly where it stands at the first bracket. -/
theorem extractFrom_eq_iff {t : Text} {j : Json} (h : ContainerText t j) (text : Text) : extractFrom text = some t ↔
    ∃ q tail, text = q ++ (t ++ tail) ∧ ∀ u ∈ q, isOpener u = false := by
  constructor
  · intro heq
    obtain ⟨openIdx, hfind, hrest⟩ := Option.bind_eq_some_iff.mp heq
    obtain ⟨stop, -, ht⟩ := Option.map_eq_some_iff.mp hrest
    refine ⟨(text.take (stop + 1)).take openIdx, text.drop (stop + 1), ?_, fun u hu => ?_⟩
    · rw [← ht, ← List.append_assoc, List.take_append_drop, List.take_append_drop]
    · rw [List.take_take, List.mem_take_iff_getElem] at hu
      obtain ⟨i, hi, rfl⟩ := hu
      obtain ⟨hlt, _, hbefore⟩ := List.findIdx?_eq_some_iff_getElem.mp hfind
      exact Bool.eq_false_iff.mpr (hbefore i (by omega))
  · rintro ⟨q, tail, rfl, hq⟩
    obtain ⟨k, hk⟩ := h.opens
    have hbalanced := findBalancedEnd_container h q tail
    cases t with
    | nil => cases hk
    | cons u rest =>
      have hu : isOpener u = true := isOpener_iff.mpr ⟨k, Option.some.inj hk⟩
      have hfind : (q ++ (u :: rest ++ tail)).findIdx? isOpener = some q.length := by
        rw [List.findIdx?_append, List.findIdx?_eq_none_iff.mpr hq, List.cons_append, List.findIdx?_cons, if_pos hu]
        simp
      rw [extractFrom, hfind, Option.bind_some, hbalanced, Option.map_some, Option.some.injEq, List.length_cons,
        Nat.add_sub_cancel, Nat.add_assoc, ← List.length_cons (a := u), ← List.length_append, ← List.append_assoc,
        List.take_left, List.drop_left]

/-! ## Where the first fence is -/

theorem lower_opener (k : Kind) : lower k.opener ∉ fence := by cases k <;> decide

/-- A fence does not run across a bracket. -/
theorem fence_prefix_append_opener (a b : Text) (k : Kind) :
    fence <+: (a ++ k.opener :: b).map lower ↔ fence <+: a.map lower := by
  rw [List.map_append, List.map_cons, prefix_append_cons (lower_opener k)]

theorem afterFence_append {p t : Text} (h : ∀ a, a <:+ p → a ≠ [] → ¬ fence <+: (a ++ t).map lower) :
    afterFence (p ++ t) = afterFence t := by
  induction p with
  | nil => rfl
  | cons u p ih =>
    have hno := h (u :: p) List.suffix_rfl (List.cons_ne_nil u p)
    rw [List.cons_append] at hno ⊢
    rw [afterFence, if_neg hno]
    exact ih fun a ha hne => h a (ha.trans (List.suffix_cons u p)) hne

theorem not_prefix_of_afterFence {p : Text} (h : afterFence p = none) : ∀ a, a <:+ p → ¬ fence <+: a.map lower := by
  induction p with
  | nil =>
    intro a ha
    rw [List.suffix_nil.mp ha]
    decide
  | cons u p ih =>
    rw [afterFence] at h
    split at h
    · cases h
    · next hno =>
      intro a ha
      rcases List.suffix_cons_iff.mp ha with rfl | ha
      · exact hno
      · exact ih h a ha

/-- A text without fences before a bracket does not move the anchor. -/
theorem afterFence_append_opener {p : Text} (h : afterFence p = none) (k : Kind) (t : Text) :
    afterFence (p ++ k.opener :: t) = afterFence (k.opener :: t) :=
  afterFence_append fun a ha _ => (fence_prefix_append_opener a t k).not.mpr (not_prefix_of_afterFence h a ha)

/-- The fence does not overlap itself. -/
theorem fence_border : ∀ n < fence.length, 0 < n → fence.drop n ≠ fence.take (fence.length - n) := by
  decide

theorem IsFence.length {opener : Text} (h : IsFence opener) : opener.length = fence.length := by
  rw [← List.length_map (f := lower), h]

theorem afterFence_append_fence {p opener : Text} (h : afterFence p = none) (hopener : IsFence opener) (t : Text) :
    afterFence (p ++ (opener ++ t)) = some (t.dropWhile isTrimmed) := by
  have hfirst : fence <+: (opener ++ t).map lower := by
    rw [List.map_append, show opener.map lower = fence from hopener]
    exact List.prefix_append _ _
  rw [afterFence_append]
  · have hlen := hopener.length
    cases opener with
    | nil => exact absurd hlen (by decide)
    | cons u rest =>
      rw [List.cons_append] at hfirst ⊢
      rw [afterFence, if_pos hfirst, ← List.cons_append, List.drop_left' hlen]
  · intro a ha hne hfence
    rw [List.map_append, List.map_append, show opener.map lower = fence from hopener] at hfence
    rcases Nat.lt_or_ge a.length fence.length with hlt | hge
    · -- The fence that starts in `a` would end in the one behind it.
      obtain ⟨rest, hrest⟩ := hfence
      have hdrop := congrArg (List.drop a.length) hrest
      rw [List.drop_append_of_le_length hlt.le, List.drop_left' (List.length_map _)] at hdrop
      have htake := congrArg (List.take (fence.length - a.length)) hdrop
      rw [List.take_left' (by rw [List.length_drop]), List.take_append_of_le_length (Nat.sub_le _ _)] at htake
      exact fence_border a.length hlt (List.length_pos_of_ne_nil hne) htake
    · have hshort : fence <+: a.map lower :=
        List.prefix_of_prefix_length_le hfence (List.prefix_append _ _) (by rwa [List.length_map])
      exact not_prefix_of_afterFence h a ha hshort

/-! ## Values with and without a fence -/

section Anchored

variable {p t suffix : Text} {j : Json}

theorem ContainerText.cons (h : ContainerText t j) : ∃ k rest, t = Kind.opener k :: rest := by
  obtain ⟨k, hk⟩ := h.opens
  cases t with
  | nil => cases hk
  | cons u rest => exact ⟨k, rest, by rw [Option.some.inj hk]⟩

theorem extractFencedJson_fenced (h : ContainerText t j) (hp : afterFence p = none) {opener gap : Text}
    (hopener : IsFence opener) (hgap : ∀ u ∈ gap, isTrimmed u = true) :
    extractFencedJson (p ++ (opener ++ (gap ++ (t ++ suffix)))) = some t := by
  obtain ⟨k, rest, rfl⟩ := h.cons
  have hspace : isTrimmed k.opener = false := by cases k <;> decide
  have hskip : (gap ++ (k.opener :: rest ++ suffix)).dropWhile isTrimmed = k.opener :: rest ++ suffix := by
    rw [List.dropWhile_append_of_pos hgap, List.cons_append, List.dropWhile_cons_of_neg (by simp [hspace])]
  rw [extractFencedJson, afterFence_append_fence hp hopener, Option.getD_some, hskip, extractFrom_eq_iff h]
  exact ⟨[], suffix, rfl, fun _ hu => absurd hu List.not_mem_nil⟩

end Anchored

end Haive.FencedJson

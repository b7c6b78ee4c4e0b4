import Haive.Lib.Surrogates

/-!
# Percent-encoded texts

A text with the characters outside of a kept set written as the percent-encoded bytes of their UTF-8
form. Kept characters are plain ones and not `%`, so that a well formed text can be told from its
encoding (`percentEncode_injective`).
-/

namespace Lib.Units

/-! ## Characters -/

def pairPoint (u v : UInt16) : Nat := 0x10000 + (u.toNat - 0xd800) * 0x400 + (v.toNat - 0xdc00)

def unitPoint (u : UInt16) : Nat := if isSurrogate u then 0xfffd else u.toNat

/-- The characters of a text; a surrogate alone reads as U+FFFD. -/
def codePoints : List UInt16 → List Nat
  | [] => []
  | [u] => [unitPoint u]
  | u :: v :: rest =>
    if isLeading u && isTrailing v then pairPoint u v :: codePoints rest else unitPoint u :: codePoints (v :: rest)

theorem codePoints_cons_cons (u v : UInt16) (t : List UInt16) : codePoints (u :: v :: t) =
    if isLeading u && isTrailing v then pairPoint u v :: codePoints t else unitPoint u :: codePoints (v :: t) := rfl

theorem unitPoint_of_not_surrogate {u : UInt16} (h : isSurrogate u = false) : unitPoint u = u.toNat := by
  rw [unitPoint, h]
  rfl

theorem codePoints_cons {u : UInt16} (h : isSurrogate u = false) (t : List UInt16) :
    codePoints (u :: t) = u.toNat :: codePoints t := by
  rw [isSurrogate, Bool.or_eq_false_iff] at h
  have hpoint : unitPoint u = u.toNat := unitPoint_of_not_surrogate (by rw [isSurrogate, h.1, h.2]; rfl)
  cases t with
  | nil => exact congrArg ([·]) hpoint
  | cons v t => rw [codePoints_cons_cons, h.1, Bool.false_and, if_neg Bool.false_ne_true, hpoint]

theorem codePoints_pair {u v : UInt16} (hu : isLeading u = true) (hv : isTrailing v = true) (t : List UInt16) :
    codePoints (u :: v :: t) = pairPoint u v :: codePoints t := by
  rw [codePoints_cons_cons, hu, hv, Bool.true_and, if_pos rfl]

/-- A text may be read in two parts where the second one opens with no half of a pair. -/
theorem codePoints_append {a b : List UInt16} (h : ∀ u, b.head? = some u → isTrailing u = false) :
    codePoints (a ++ b) = codePoints a ++ codePoints b := by
  induction a using codePoints.induct with
  | case1 => rfl
  | case2 u =>
    cases b with
    | nil => rfl
    | cons v b =>
      rw [List.singleton_append, codePoints_cons_cons, h v rfl, Bool.and_false, if_neg Bool.false_ne_true]
      rfl
  | case3 u v rest hpair ih =>
    show codePoints (u :: v :: (rest ++ b)) = _
    rw [codePoints_cons_cons, codePoints_cons_cons, if_pos hpair, if_pos hpair, ih, List.cons_append]
  | case4 u v rest hpair ih =>
    show codePoints (u :: v :: (rest ++ b)) = _
    rw [codePoints_cons_cons, codePoints_cons_cons, if_neg hpair, if_neg hpair, List.cons_append]
    exact congrArg _ ih

theorem leading_bounds {u : UInt16} (h : isLeading u = true) : 0xd800 ≤ u.toNat ∧ u.toNat ≤ 0xdbff := by
  rw [isLeading, Bool.and_eq_true, decide_eq_true_eq, decide_eq_true_eq, UInt16.le_iff_toNat_le, UInt16.le_iff_toNat_le,
    UInt16.toNat_ofNat, UInt16.toNat_ofNat] at h
  exact h

theorem trailing_bounds {u : UInt16} (h : isTrailing u = true) : 0xdc00 ≤ u.toNat ∧ u.toNat ≤ 0xdfff := by
  rw [isTrailing, Bool.and_eq_true, decide_eq_true_eq, decide_eq_true_eq, UInt16.le_iff_toNat_le, UInt16.le_iff_toNat_le,
    UInt16.toNat_ofNat, UInt16.toNat_ofNat] at h
  exact h

theorem pairPoint_bounds {u v : UInt16} (hu : isLeading u = true) (hv : isTrailing v = true) :
    0x10000 ≤ pairPoint u v ∧ pairPoint u v < 0x110000 := by
  have hu := leading_bounds hu
  have hv := trailing_bounds hv
  unfold pairPoint
  omega

theorem pairPoint_inj {u v u' v' : UInt16} (hu : isLeading u = true) (hv : isTrailing v = true)
    (hu' : isLeading u' = true) (hv' : isTrailing v' = true) (h : pairPoint u v = pairPoint u' v') : u = u' ∧ v = v' := by
  have hu := leading_bounds hu
  have hv := trailing_bounds hv
  have hu' := leading_bounds hu'
  have hv' := trailing_bounds hv'
  unfold pairPoint at h
  rw [← UInt16.toNat_inj, ← UInt16.toNat_inj]
  omega

theorem unitPoint_lt (u : UInt16) : unitPoint u < 0x10000 := by
  rw [unitPoint]
  split
  · decide
  · exact u.toNat_lt

theorem lt_of_mem_codePoints {t : List UInt16} : ∀ c ∈ codePoints t, c < 0x110000 := by
  have hunit : ∀ u, unitPoint u < 0x110000 := fun u => (unitPoint_lt u).trans (by omega)
  induction t using codePoints.induct with
  | case1 => exact fun c hc => absurd hc List.not_mem_nil
  | case2 u => exact List.forall_mem_singleton.mpr (hunit u)
  | case3 u v rest hpair ih =>
    rw [codePoints_cons_cons, if_pos hpair]
    rw [Bool.and_eq_true] at hpair
    exact List.forall_mem_cons.mpr ⟨(pairPoint_bounds hpair.1 hpair.2).2, ih⟩
  | case4 u v rest hpair ih =>
    rw [codePoints_cons_cons, if_neg hpair]
    exact List.forall_mem_cons.mpr ⟨hunit u, ih⟩

theorem codePoints_injective {s t : List UInt16} (hs : WellPaired s) (ht : WellPaired t)
    (h : codePoints s = codePoints t) : s = t := by
  have hne : ∀ {u v w : UInt16}, isLeading u = true → isTrailing v = true → pairPoint u v ≠ w.toNat := by
    intro u v w hu hv heq
    have hpair := (pairPoint_bounds hu hv).1
    have hw := w.toNat_lt
    omega
  induction hs generalizing t with
  | nil =>
    cases ht with
    | nil => rfl
    | unit hu _ => rw [codePoints_cons hu] at h; cases h
    | pair hu hv _ => rw [codePoints_pair hu hv] at h; cases h
  | unit hu _ ih =>
    rw [codePoints_cons hu] at h
    cases ht with
    | nil => cases h
    | unit hu' ht =>
      rw [codePoints_cons hu', List.cons.injEq] at h
      rw [UInt16.toNat_inj.mp h.1, ih ht h.2]
    | pair hu' hv' ht =>
      rw [codePoints_pair hu' hv', List.cons.injEq] at h
      exact absurd h.1.symm (hne hu' hv')
  | pair hu hv _ ih =>
    rw [codePoints_pair hu hv] at h
    cases ht with
    | nil => cases h
    | unit hu' ht =>
      rw [codePoints_cons hu', List.cons.injEq] at h
      exact absurd h.1 (hne hu hv)
    | pair hu' hv' ht =>
      rw [codePoints_pair hu' hv', List.cons.injEq] at h
      obtain ⟨rfl, rfl⟩ := pairPoint_inj hu hv hu' hv' h.1
      rw [ih ht h.2]

/-- A plain character is a unit of the text. -/
theorem mem_of_mem_codePoints {t : List UInt16} {u : UInt16} (h : u.toNat ∈ codePoints t) (hlt : u.toNat < 0x80) :
    u ∈ t := by
  have hunit : ∀ {v : UInt16}, u.toNat = unitPoint v → u = v := by
    intro v heq
    rw [unitPoint] at heq
    split at heq
    · omega
    · exact UInt16.toNat_inj.mp heq
  induction t using codePoints.induct with
  | case1 => cases h
  | case2 v => exact List.mem_singleton.mpr (hunit (List.mem_singleton.mp h))
  | case3 v w rest hpair ih =>
    rw [codePoints_cons_cons, if_pos hpair] at h
    rw [Bool.and_eq_true] at hpair
    rcases List.mem_cons.mp h with heq | hmem
    · have hbounds := pairPoint_bounds hpair.1 hpair.2
      omega
    · exact List.mem_cons_of_mem _ (List.mem_cons_of_mem _ (ih hmem))
  | case4 v w rest hpair ih =>
    rw [codePoints_cons_cons, if_neg hpair] at h
    rcases List.mem_cons.mp h with heq | hmem
    · exact hunit heq ▸ List.mem_cons_self
    · exact List.mem_cons_of_mem _ (ih hmem)

/-! ## Bytes -/

def utf8 (c : Nat) : List Nat :=
  if c < 0x80 then [c]
  else if c < 0x800 then [0xc0 + c / 0x40, 0x80 + c % 0x40]
  else if c < 0x10000 then [0xe0 + c / 0x1000, 0x80 + c / 0x40 % 0x40, 0x80 + c % 0x40]
  else [0xf0 + c / 0x40000, 0x80 + c / 0x1000 % 0x40, 0x80 + c / 0x40 % 0x40, 0x80 + c % 0x40]

def upperHex (n : Nat) : UInt16 := if n < 10 then (0x30 + n).toUInt16 else (0x37 + n).toUInt16

/-- `%` and two digits. -/
def percentByte (b : Nat) : List UInt16 := [0x25, upperHex (b / 16), upperHex (b % 16)]

theorem upperHex_injective : ∀ m < 16, ∀ n < 16, upperHex m = upperHex n → m = n := by decide

theorem percentByte_append_inj {b b' : Nat} (hb : b < 256) (hb' : b' < 256) {s t : List UInt16} :
    percentByte b ++ s = percentByte b' ++ t ↔ b = b' ∧ s = t := by
  constructor
  · intro h
    simp only [percentByte, List.cons_append, List.nil_append, List.cons.injEq, true_and] at h
    have hhigh := upperHex_injective _ (by omega) _ (by omega) h.1
    have hlow := upperHex_injective _ (by omega) _ (by omega) h.2.1
    exact ⟨by omega, h.2.2⟩
  · rintro ⟨rfl, rfl⟩
    rfl

theorem lt_of_mem_utf8 {c : Nat} (hc : c < 0x110000) : ∀ b ∈ utf8 c, b < 256 := by
  unfold utf8
  intro b hb
  split at hb
  · rw [List.mem_singleton] at hb
    omega
  · split at hb
    · simp only [List.mem_cons, List.not_mem_nil, or_false] at hb
      omega
    · split at hb <;> simp only [List.mem_cons, List.not_mem_nil, or_false] at hb <;> omega

/-- The bytes of a character say where they end. -/
theorem utf8_append_inj {c c' : Nat} (hc : c < 0x110000) (hc' : c' < 0x110000) {s t : List UInt16}
    (h : (utf8 c).flatMap percentByte ++ s = (utf8 c').flatMap percentByte ++ t) : c = c' := by
  have hbytes := lt_of_mem_utf8 hc
  have hbytes' := lt_of_mem_utf8 hc'
  unfold utf8 at h hbytes hbytes'
  split_ifs at h hbytes hbytes' <;>
    simp only [List.flatMap_cons, List.flatMap_nil, List.append_assoc, List.forall_mem_cons] at h hbytes hbytes' <;>
    grind [percentByte_append_inj]

/-! ## Encoding -/

def encodePoint (keep : Nat → Bool) (c : Nat) : List UInt16 :=
  if keep c then [c.toUInt16] else (utf8 c).flatMap percentByte

def percentEncode (keep : Nat → Bool) (t : List UInt16) : List UInt16 := (codePoints t).flatMap (encodePoint keep)

/-- What an encoded byte is written with. -/
def isEscapeUnit (u : UInt16) : Bool := u = 0x25 || (0x30 ≤ u && u ≤ 0x39) || (0x41 ≤ u && u ≤ 0x46)

theorem isEscapeUnit_percentByte {b : Nat} (hb : b < 256) : ∀ u ∈ percentByte b, isEscapeUnit u = true := by
  have hdigit : ∀ n < 16, isEscapeUnit (upperHex n) = true := by decide
  exact List.forall_mem_cons.mpr ⟨by decide, List.forall_mem_cons.mpr
    ⟨hdigit _ (by omega), List.forall_mem_singleton.mpr (hdigit _ (by omega))⟩⟩

theorem escapes_eq_cons (c : Nat) : ∃ b rest, (utf8 c).flatMap percentByte = 0x25 :: upperHex (b / 16) ::
    upperHex (b % 16) :: rest ∧ b ∈ utf8 c ∧ (b < 0x80 → b = c) := by
  have hne : ∀ {low n : Nat}, 0x80 ≤ low → low + n < 0x80 → low + n = c := fun hlow hlt =>
    absurd hlt (Nat.not_lt.mpr (hlow.trans (Nat.le_add_right _ _)))
  unfold utf8
  split_ifs
  · exact ⟨_, _, rfl, List.mem_cons_self, fun _ => rfl⟩
  · exact ⟨_, _, rfl, List.mem_cons_self, hne (by decide)⟩
  · exact ⟨_, _, rfl, List.mem_cons_self, hne (by decide)⟩
  · exact ⟨_, _, rfl, List.mem_cons_self, hne (by decide)⟩

section Keep

variable {keep : Nat → Bool}

theorem encodePoint_ne_nil (c : Nat) : encodePoint keep c ≠ [] := by
  rw [encodePoint]
  split
  · exact List.cons_ne_nil _ _
  · obtain ⟨b, rest, heq, -⟩ := escapes_eq_cons c
    rw [heq]
    exact List.cons_ne_nil _ _

theorem percentEncode_nil : percentEncode keep [] = [] := rfl

theorem percentEncode_append {a b : List UInt16} (h : ∀ u, b.head? = some u → isTrailing u = false) :
    percentEncode keep (a ++ b) = percentEncode keep a ++ percentEncode keep b := by
  rw [percentEncode, codePoints_append h, List.flatMap_append]
  rfl

theorem percentEncode_cons {u : UInt16} (hu : isSurrogate u = false) (t : List UInt16) :
    percentEncode keep (u :: t) = encodePoint keep u.toNat ++ percentEncode keep t := by
  rw [percentEncode, codePoints_cons hu, List.flatMap_cons]
  rfl

theorem percentEncode_eq_nil_iff {t : List UInt16} : percentEncode keep t = [] ↔ t = [] := by
  cases t with
  | nil => exact iff_of_true rfl rfl
  | cons u t =>
    refine iff_of_false (fun h => ?_) (List.cons_ne_nil u t)
    obtain ⟨c, rest, hpoints⟩ : ∃ c rest, codePoints (u :: t) = c :: rest := by
      cases t with
      | nil => exact ⟨_, _, rfl⟩
      | cons v t =>
        rw [codePoints_cons_cons]
        split
        · exact ⟨_, _, rfl⟩
        · exact ⟨_, _, rfl⟩
    rw [percentEncode, hpoints, List.flatMap_cons, List.append_eq_nil_iff] at h
    exact encodePoint_ne_nil c h.1

/-- A kept unit, as it stands in a text. -/
theorem encodePoint_of_keep {u : UInt16} (h : keep u.toNat = true) : encodePoint keep u.toNat = [u] := by
  rw [encodePoint, if_pos h, Nat.toUInt16, UInt16.ofNat_toNat]

theorem not_surrogate_of_lt {u : UInt16} (h : u.toNat < 0x80) : isSurrogate u = false := by
  rw [isSurrogate, Bool.or_eq_false_iff]
  constructor
  · refine Bool.eq_false_iff.mpr fun hu => ?_
    have hbounds := leading_bounds hu
    omega
  · refine Bool.eq_false_iff.mpr fun hu => ?_
    have hbounds := trailing_bounds hu
    omega

theorem not_trailing_of_lt {u : UInt16} (h : u.toNat < 0x80) : isTrailing u = false :=
  (Bool.or_eq_false_iff.mp (not_surrogate_of_lt h)).2

theorem wellPaired_of_lt {t : List UInt16} (h : ∀ u ∈ t, u.toNat < 0x80) : WellPaired t := by
  induction t with
  | nil => exact .nil
  | cons u t ih =>
    obtain ⟨hu, ht⟩ := List.forall_mem_cons.mp h
    exact .unit (not_surrogate_of_lt hu) (ih ht)

theorem isEscapeUnit_lt {u : UInt16} (h : isEscapeUnit u = true) : u.toNat < 0x80 := by
  simp only [isEscapeUnit, Bool.or_eq_true, Bool.and_eq_true, decide_eq_true_eq, UInt16.le_iff_toNat_le,
    ← UInt16.toNat_inj, UInt16.reduceToNat] at h
  omega

variable (hplain : ∀ c, keep c = true → c < 0x80)

include hplain

/-- Kept units in front stay as they are. -/
theorem percentEncode_keep_append {a : List UInt16} (h : ∀ u ∈ a, keep u.toNat = true) (t : List UInt16) :
    percentEncode keep (a ++ t) = a ++ percentEncode keep t := by
  induction a with
  | nil => rfl
  | cons u a ih =>
    obtain ⟨hu, ha⟩ := List.forall_mem_cons.mp h
    rw [List.cons_append, percentEncode_cons (not_surrogate_of_lt (hplain _ hu)), encodePoint_of_keep hu, ih ha,
      List.singleton_append, List.cons_append]

theorem percentEncode_of_keep {t : List UInt16} (h : ∀ u ∈ t, keep u.toNat = true) : percentEncode keep t = t := by
  have happend := percentEncode_keep_append hplain h []
  rwa [List.append_nil, percentEncode_nil, List.append_nil] at happend

/-- A kept unit parts what stands before it from what stands behind. -/
theorem percentEncode_append_cons {u : UInt16} (hu : keep u.toNat = true) (a t : List UInt16) :
    percentEncode keep (a ++ u :: t) = percentEncode keep a ++ u :: percentEncode keep t := by
  have hhead : ∀ v, (u :: t).head? = some v → isTrailing v = false := by
    intro v hv
    exact Option.some.inj hv ▸ not_trailing_of_lt (hplain _ hu)
  rw [percentEncode_append hhead, percentEncode_cons (not_surrogate_of_lt (hplain _ hu)), encodePoint_of_keep hu,
    List.singleton_append]

theorem percentEncode_intercalate {sep : UInt16} (hsep : keep sep.toNat = true) (items : List (List UInt16)) :
    percentEncode keep ([sep].intercalate items) = [sep].intercalate (items.map (percentEncode keep)) := by
  induction items with
  | nil => rfl
  | cons a items ih =>
    cases items with
    | nil => rw [List.intercalate_singleton, List.map_singleton, List.intercalate_singleton]
    | cons b items =>
      show _ = [sep].intercalate (percentEncode keep a :: percentEncode keep b :: items.map (percentEncode keep))
      rw [List.intercalate_cons_cons, List.append_assoc, List.singleton_append, percentEncode_append_cons hplain hsep, ih,
        List.intercalate_cons_cons, List.append_assoc, List.singleton_append, List.map_cons]

theorem mem_encodePoint {c : Nat} (hc : c < 0x110000) {u : UInt16} (h : u ∈ encodePoint keep c) :
    (u.toNat = c ∧ keep u.toNat = true) ∨ isEscapeUnit u = true := by
  rw [encodePoint] at h
  split at h
  · next hkeep =>
    obtain rfl := List.mem_singleton.mp h
    have hlt := hplain c hkeep
    have htoNat : c.toUInt16.toNat = c := UInt16.toNat_ofNat_of_lt' (hlt.trans (by decide))
    exact .inl ⟨htoNat, htoNat.symm ▸ hkeep⟩
  · obtain ⟨b, hb, hu⟩ := List.mem_flatMap.mp h
    exact .inr (isEscapeUnit_percentByte (lt_of_mem_utf8 hc b hb) u hu)

theorem mem_percentEncode {t : List UInt16} {u : UInt16} (h : u ∈ percentEncode keep t) :
    (u ∈ t ∧ keep u.toNat = true) ∨ isEscapeUnit u = true := by
  obtain ⟨c, hc, hu⟩ := List.mem_flatMap.mp h
  refine (mem_encodePoint hplain (lt_of_mem_codePoints c hc) hu).imp_left fun hkept => ⟨?_, hkept.2⟩
  exact mem_of_mem_codePoints (hkept.1 ▸ hc) (hplain _ hkept.2)

/-- An encoded text, encoded again by a set that keeps `%` and the digits. -/
theorem percentEncode_percentEncode {keep' : Nat → Bool} (hplain' : ∀ c, keep' c = true → c < 0x80)
    (hescape : ∀ u, isEscapeUnit u = true → keep' u.toNat = true) (t : List UInt16) :
    percentEncode keep' (percentEncode keep t) = percentEncode (fun c => keep c && keep' c) t := by
  have hlt := lt_of_mem_codePoints (t := t)
  unfold percentEncode
  generalize codePoints t = cs at hlt ⊢
  induction cs with
  | nil => rfl
  | cons c cs ih =>
    obtain ⟨hc, hcs⟩ := List.forall_mem_cons.mp hlt
    have hhead : ∀ u, (cs.flatMap (encodePoint keep)).head? = some u → isTrailing u = false := by
      intro u hu
      obtain ⟨d, hd, hmem⟩ := List.mem_flatMap.mp (List.mem_of_head? hu)
      exact not_trailing_of_lt ((mem_encodePoint hplain (hcs d hd) hmem).elim (fun hkept => hplain _ hkept.2) isEscapeUnit_lt)
    rw [List.flatMap_cons, codePoints_append hhead, List.flatMap_append, ih hcs, List.flatMap_cons]
    refine congrArg (· ++ _) ?_
    show percentEncode keep' (encodePoint keep c) = _
    cases hkeep : keep c with
    | true =>
      have htoNat : c.toUInt16.toNat = c := UInt16.toNat_ofNat_of_lt' ((hplain c hkeep).trans (by decide))
      have hunit : encodePoint keep c = [c.toUInt16] := if_pos hkeep
      rw [hunit, percentEncode_cons (not_surrogate_of_lt (htoNat.symm ▸ hplain c hkeep)), htoNat, percentEncode_nil,
        List.append_nil, encodePoint, encodePoint, hkeep, Bool.true_and]
    | false =>
      have hbytes : encodePoint keep c = (utf8 c).flatMap percentByte := if_neg (by rw [hkeep]; exact Bool.false_ne_true)
      have hbytes' : encodePoint (fun c => keep c && keep' c) c = (utf8 c).flatMap percentByte :=
        if_neg (by simp [hkeep])
      rw [hbytes, hbytes']
      refine percentEncode_of_keep hplain' fun u hu => ?_
      obtain ⟨b, hb, hu⟩ := List.mem_flatMap.mp hu
      exact hescape u (isEscapeUnit_percentByte (lt_of_mem_utf8 hc b hb) u hu)

theorem encodePoint_append_inj (hpercent : keep 0x25 = false) {c c' : Nat} (hc : c < 0x110000) (hc' : c' < 0x110000)
    {s t : List UInt16} (h : encodePoint keep c ++ s = encodePoint keep c' ++ t) : c = c' := by
  have hmixed : ∀ {c c' : Nat} {s t : List UInt16}, keep c = true → [c.toUInt16] ++ s ≠
      (utf8 c').flatMap percentByte ++ t := by
    intro c c' s t hkeep h
    obtain ⟨b, rest, heq, -⟩ := escapes_eq_cons c'
    rw [heq, List.singleton_append, List.cons_append, List.cons.injEq] at h
    have hlt := hplain c hkeep
    have htoNat : c.toUInt16.toNat = c := UInt16.toNat_ofNat_of_lt' (hlt.trans (by decide))
    rw [← htoNat, h.1] at hkeep
    exact absurd hkeep (by rw [show UInt16.toNat 0x25 = 0x25 from rfl, hpercent]; exact Bool.false_ne_true)
  rw [encodePoint, encodePoint] at h
  split at h
  · next hkeep =>
    split at h
    · next hkeep' =>
      rw [List.singleton_append, List.singleton_append, List.cons.injEq] at h
      have hlt := hplain c hkeep
      have hlt' := hplain c' hkeep'
      have htoNat : c.toUInt16.toNat = c := UInt16.toNat_ofNat_of_lt' (hlt.trans (by decide))
      have htoNat' : c'.toUInt16.toNat = c' := UInt16.toNat_ofNat_of_lt' (hlt'.trans (by decide))
      rw [← htoNat, h.1, htoNat']
    · exact absurd h (hmixed hkeep)
  · split at h
    · next hkeep' => exact absurd h.symm (hmixed hkeep')
    · exact utf8_append_inj hc hc' h

theorem percentEncode_injective (hpercent : keep 0x25 = false) {s t : List UInt16} (hs : WellPaired s)
    (ht : WellPaired t) (h : percentEncode keep s = percentEncode keep t) : s = t := by
  refine codePoints_injective hs ht ?_
  have hlt := lt_of_mem_codePoints (t := s)
  have hlt' := lt_of_mem_codePoints (t := t)
  unfold percentEncode at h
  generalize codePoints s = cs at h hlt ⊢
  generalize codePoints t = cs' at h hlt' ⊢
  induction cs generalizing cs' with
  | nil =>
    cases cs' with
    | nil => rfl
    | cons c' cs' =>
      rw [List.flatMap_cons] at h
      exact absurd (List.append_eq_nil_iff.mp h.symm).1 (encodePoint_ne_nil c')
  | cons c cs ih =>
    cases cs' with
    | nil =>
      rw [List.flatMap_cons] at h
      exact absurd (List.append_eq_nil_iff.mp h).1 (encodePoint_ne_nil c)
    | cons c' cs' =>
      obtain ⟨hc, hcs⟩ := List.forall_mem_cons.mp hlt
      obtain ⟨hc', hcs'⟩ := List.forall_mem_cons.mp hlt'
      rw [List.flatMap_cons, List.flatMap_cons] at h
      obtain rfl := encodePoint_append_inj hplain hpercent hc hc' h
      rw [ih hcs _ (List.append_cancel_left h) hcs']

end Keep

end Lib.Units
